import PgRest.Rtree.Node
import Mathlib.Data.List.TakeWhile

/-! What a route pattern means, apart from any tree: which texts are patterns,
and which request paths a pattern stands for. -/
namespace PgRest.Rtree

/-- No byte of it starts a wildcard. -/
def Literal (s : Bytes) : Prop := ∀ c ∈ s, wildcard c = false

/-- A wildcard's name: not empty, within one segment, without a wildcard or a NUL in it. -/
structure NameOk (name : Bytes) : Prop where
  ne : name ≠ []
  literal : Literal name
  slash : slash ∉ name
  nul : (0 : UInt8) ∉ name

/-- A wildcard's name ends where its segment does. -/
def AtSegmentEnd (rest : Bytes) : Prop := rest = [] ∨ rest.head? = some slash

/-- Wildcards are `:name`, one a segment, and a final `/*name`. -/
inductive Shape : Bytes → Prop where
  | nil : Shape []
  | lit {c p} : wildcard c = false → Shape p → Shape (c :: p)
  | param {name p} : NameOk name → AtSegmentEnd p → Shape p → Shape (colon :: (name ++ p))
  | catchall {name} : NameOk name → Shape (slash :: star :: name)

structure WellFormed (pattern : Bytes) : Prop where
  ne : pattern ≠ []
  nul : (0 : UInt8) ∉ pattern
  few : pattern.countP wildcard ≤ 255
  shape : Shape pattern

/-- `Instance pattern path params`: the path is the pattern with the values of
`params` in the place of its wildcards. -/
inductive Instance : Bytes → Bytes → List Param → Prop where
  | nil : Instance [] [] []
  | lit {c p s ps} : wildcard c = false → Instance p s ps → Instance (c :: p) (c :: s) ps
  | param {name p value s ps} : NameOk name → AtSegmentEnd p → slash ∉ value → Instance p s ps →
      Instance (colon :: (name ++ p)) (value ++ s) (⟨name, value⟩ :: ps)
  | catchall {name value} : NameOk name → value.head? = some slash →
      Instance (slash :: star :: name) value [⟨name, value⟩]

/-- Every wildcard stands for something. -/
def Filled (params : List Param) : Prop := ∀ p ∈ params, p.value ≠ []

@[simp] theorem wildcard_slash : wildcard slash = false := rfl
@[simp] theorem wildcard_colon : wildcard colon = true := rfl
@[simp] theorem wildcard_star : wildcard star = true := rfl
@[simp] theorem nul_ne_slash : (0 : UInt8) ≠ slash := by decide
@[simp] theorem nul_ne_colon : (0 : UInt8) ≠ colon := by decide
@[simp] theorem nul_ne_star : (0 : UInt8) ≠ star := by decide

theorem wildcard_cases {c : UInt8} (h : wildcard c = true) : c = colon ∨ c = star := by
  simpa [wildcard] using h

/-! ### Literal text -/

@[simp] theorem literal_nil : Literal [] := by simp [Literal]

@[simp] theorem literal_cons {c : UInt8} {s : Bytes} :
    Literal (c :: s) ↔ wildcard c = false ∧ Literal s := by
  simp [Literal]

@[simp] theorem literal_append {s t : Bytes} : Literal (s ++ t) ↔ Literal s ∧ Literal t := by
  simp [Literal, or_imp, forall_and]

theorem literal_of_sublist {s t : Bytes} (h : s.Sublist t) (ht : Literal t) : Literal s :=
  fun c hc => ht c (h.subset hc)

theorem countP_literal {s : Bytes} (h : Literal s) : s.countP wildcard = 0 :=
  List.countP_eq_zero.mpr fun c hc => by simp [h c hc]

theorem literal_iff_countP {s : Bytes} : s.countP wildcard = 0 ↔ Literal s := by
  simp [Literal, List.countP_eq_zero]

/-! ### Instances -/

/-- A literal beginning of the pattern is the beginning of the path. -/
theorem Instance.literal_prefix {l t path : Bytes} {ps : List Param} (hl : Literal l)
    (ht : t.head? ≠ some star) (h : Instance (l ++ t) path ps) :
    ∃ rest, path = l ++ rest ∧ Instance t rest ps := by
  induction l generalizing path with
  | nil => exact ⟨path, rfl, h⟩
  | cons c l ih =>
    obtain ⟨hc, hl'⟩ := literal_cons.mp hl
    rw [List.cons_append] at h
    generalize hp : c :: (l ++ t) = p at h
    cases h with
    | nil => simp at hp
    | lit _ h' =>
      simp only [List.cons.injEq] at hp
      obtain ⟨rfl, rfl⟩ := hp
      obtain ⟨rest, rfl, hrest⟩ := ih hl' h'
      exact ⟨rest, rfl, hrest⟩
    | param =>
      simp only [List.cons.injEq] at hp
      simp [hp.1] at hc
    | catchall =>
      simp only [List.cons.injEq] at hp
      cases l with
      | nil =>
        rw [List.nil_append] at hp
        simp [hp.2] at ht
      | cons d l =>
        simp only [List.cons_append, List.cons.injEq] at hp
        simp [hp.2.1] at hl'

theorem Instance.literal_append {l t path : Bytes} {ps : List Param} (hl : Literal l)
    (h : Instance t path ps) : Instance (l ++ t) (l ++ path) ps := by
  induction l with
  | nil => exact h
  | cons c l ih =>
    obtain ⟨hc, hl'⟩ := literal_cons.mp hl
    exact .lit hc (ih hl')

/-- A segment's text ends at the next slash. -/
theorem takeWhile_segment {s t : Bytes} (hs : slash ∉ s) (ht : AtSegmentEnd t) :
    (s ++ t).takeWhile (· != slash) = s := by
  have hall : ∀ c ∈ s, (c != slash) = true := fun c hc => by
    simp only [bne_iff_ne, ne_eq]
    rintro rfl
    exact hs hc
  rw [List.takeWhile_append_of_pos hall]
  rcases ht with rfl | ht
  · simp
  · cases t with
    | nil => simp
    | cons c t =>
      simp only [List.head?_cons, Option.some.injEq] at ht
      simp [ht]

theorem dropWhile_segment {s t : Bytes} (hs : slash ∉ s) (ht : AtSegmentEnd t) :
    (s ++ t).dropWhile (· != slash) = t := by
  have h := List.takeWhile_append_dropWhile (p := (· != slash)) (l := s ++ t)
  rw [takeWhile_segment hs ht] at h
  exact List.append_cancel_left h

/-- Where the pattern goes on with a parameter, the path goes on with its value. -/
theorem Instance.param_inv {name t path : Bytes} {ps : List Param} (hn : NameOk name)
    (ht : AtSegmentEnd t) (h : Instance (colon :: (name ++ t)) path ps) :
    ∃ value rest ps', path = value ++ rest ∧ ps = ⟨name, value⟩ :: ps' ∧ slash ∉ value ∧
      Instance t rest ps' := by
  generalize hp : colon :: (name ++ t) = p at h
  cases h with
  | nil => simp at hp
  | lit hc =>
    simp only [List.cons.injEq] at hp
    simp [← hp.1] at hc
  | @param name' p' value s ps' hn' hp' hv h' =>
    simp only [List.cons.injEq, true_and] at hp
    have hname : name = name' := by
      rw [← takeWhile_segment hn.slash ht, hp, takeWhile_segment hn'.slash hp']
    subst hname
    obtain rfl := List.append_cancel_left hp
    exact ⟨value, s, ps', rfl, rfl, hv, h'⟩
  | catchall => exact absurd (List.cons.inj hp).1 (by decide)

/-- Where the pattern goes on with a catch-all, that is all of the pattern. -/
theorem Instance.catchall_inv {name path : Bytes} {ps : List Param}
    (h : Instance (slash :: star :: name) path ps) :
    NameOk name ∧ path.head? = some slash ∧ ps = [⟨name, path⟩] := by
  generalize hp : slash :: star :: name = p at h
  cases h with
  | nil => simp at hp
  | lit _ h' =>
    obtain ⟨rfl, rfl⟩ := List.cons.inj hp
    -- no pattern starts with a star
    generalize hq : star :: name = q at h'
    cases h' with
    | nil => simp at hq
    | lit hc =>
      obtain ⟨rfl, _⟩ := List.cons.inj hq
      simp at hc
    | param => exact absurd (List.cons.inj hq).1 (by decide)
    | catchall => exact absurd (List.cons.inj hq).1 (by decide)
  | param => exact absurd (List.cons.inj hp).1 (by decide)
  | catchall hn hv =>
    simp only [List.cons.injEq, true_and] at hp
    obtain rfl := hp
    exact ⟨hn, hv, rfl⟩

/-- An instance starts with the literal byte the pattern starts with. -/
theorem Instance.head {c : UInt8} {pattern path : Bytes} {ps : List Param}
    (h : Instance pattern path ps) (hp : pattern.head? = some c) (hc : wildcard c = false) :
    path.head? = some c := by
  cases h with
  | nil => simp at hp
  | lit => simpa using hp
  | param =>
    simp only [List.head?_cons, Option.some.injEq] at hp
    simp [← hp] at hc
  | catchall _ hv =>
    simp only [List.head?_cons, Option.some.injEq] at hp
    rw [← hp]
    exact hv

/-- As many values as the pattern has wildcards. -/
theorem Instance.length_eq {pattern path : Bytes} {ps : List Param} (h : Instance pattern path ps) :
    ps.length = pattern.countP wildcard := by
  induction h with
  | nil => rfl
  | lit hc _ ih => rw [List.countP_cons_of_neg (by simp [hc]), ih]
  | param hn _ _ _ ih =>
    rw [List.length_cons, ih, List.countP_cons_of_pos rfl, List.countP_append, countP_literal hn.literal,
      Nat.zero_add]
  | catchall hn =>
    rw [List.countP_cons_of_neg (by simp), List.countP_cons_of_pos rfl, countP_literal hn.literal]
    rfl

/-! ### Empty values -/

/-- A parameter that ends its pattern stands for something. -/
def Ended (pattern : Bytes) (params : List Param) : Prop :=
  ∀ p, params.getLast? = some p → p.value = [] → ¬colon :: p.key <:+ pattern

theorem Filled.ended {pattern : Bytes} {ps : List Param} (h : Filled ps) : Ended pattern ps :=
  fun p hp hv => absurd hv (h p (List.mem_of_getLast? hp))

theorem ended_nil (pattern : Bytes) : Ended pattern [] := by
  simp [Ended]

theorem Ended.behind {l t : Bytes} {a b : List Param} (h : Ended (l ++ t) (a ++ b)) : Ended t b := by
  intro p hp hv hs
  refine h p ?_ hv (hs.trans (List.suffix_append l t))
  rw [List.getLast?_append, hp, Option.some_or]

/-- A parameter that ends the pattern does not reach into the literal text in front. -/
theorem Ended.literal_append {l t : Bytes} {ps : List Param} (hl : Literal l) (h : Ended t ps) :
    Ended (l ++ t) ps := by
  intro p hp hv hs
  rcases List.suffix_or_suffix_of_suffix hs (List.suffix_append l t) with hs' | ⟨u, hu⟩
  · exact h p hp hv hs'
  · cases u with
    | nil => exact h p hp hv (by rw [← hu]; exact List.suffix_refl t)
    | cons c u =>
      obtain ⟨v, hv'⟩ := hs
      rw [← hu, ← List.append_assoc] at hv'
      obtain rfl : c = colon := (List.cons.inj hu).1
      have := List.append_cancel_right hv'
      have hc := hl colon (by rw [← this]; simp)
      simp at hc

theorem Instance.names {pattern path : Bytes} {ps : List Param} (h : Instance pattern path ps) :
    ∀ p ∈ ps, NameOk p.key := by
  induction h with
  | nil => simp
  | lit _ _ ih => exact ih
  | param hn _ _ _ ih => exact List.forall_mem_cons.mpr ⟨hn, ih⟩
  | catchall hn => exact List.forall_mem_cons.mpr ⟨hn, by simp⟩

theorem Ended.param {name t value rest : Bytes} {ps : List Param} (hn : NameOk name) (ht : AtSegmentEnd t)
    (hi : Instance t rest ps) (hne : value ++ rest ≠ []) (h : Ended t ps) :
    Ended (colon :: (name ++ t)) (⟨name, value⟩ :: ps) := by
  -- a name does not reach over the slash it ends at
  have hname : ∀ {s : Bytes}, NameOk s → t ≠ [] → colon :: s <:+ colon :: (name ++ t) → colon :: s <:+ t := by
    intro s hs htne hsuffix
    refine (List.suffix_or_suffix_of_suffix hsuffix (List.suffix_append (colon :: name) t)).resolve_right ?_
    intro hts
    have hslash := hts.subset (List.mem_of_mem_head? (ht.resolve_left htne))
    rcases List.mem_cons.mp hslash with hc | hmem
    · exact absurd hc (by decide)
    · exact hs.slash hmem
  intro p hp hv hs
  cases ps with
  | nil =>
    obtain rfl : ⟨name, value⟩ = p := by simpa using hp
    have hlit : Literal t := literal_iff_countP.mp hi.length_eq.symm
    have htne : t ≠ [] := by
      rintro rfl
      cases hi
      simp only at hv
      simp [hv] at hne
    have hc := hlit colon ((hname hn htne hs).subset (List.mem_cons_self ..))
    simp at hc
  | cons q ps =>
    have hp' : (q :: ps).getLast? = some p := by simpa using hp
    have htne : t ≠ [] := by
      rintro rfl
      cases hi
    exact h p hp' hv (hname (hi.names p (List.mem_of_getLast? hp')) htne hs)

theorem Ended.filled {name t value rest : Bytes} {ps : List Param} (ht : AtSegmentEnd t)
    (hi : Instance t rest ps) (h : Ended (colon :: (name ++ t)) (⟨name, value⟩ :: ps)) : value ++ rest ≠ [] := by
  intro hnil
  obtain ⟨rfl, rfl⟩ := List.append_eq_nil_iff.mp hnil
  have htnil : t = [] := ht.resolve_right fun hs => by simpa using hi.head hs rfl
  subst htnil
  cases hi
  rw [List.append_nil] at h
  exact h ⟨name, []⟩ rfl rfl (List.suffix_refl _)

end PgRest.Rtree
