import PgRest.Lib.Run
import PgRest.Rtree.Add

/-! What holds of every tree, whatever paths have been added to it: a NUL in a path, names that
`strncmp` takes for others, or more wildcards than `pgrest_count_params` counts. And what is
checked of the wildcards of a path that is accepted.

A node has a depth, the wildcards on the way to it with its own. Where the 255 that are counted
have been passed, a path is put into the tree as it is. -/
namespace PgRest.Rtree

variable {α : Type}

/-! ### Checked wildcards -/

/-- What is asked of the wildcard `c` between `a` and `b`, where `prev` is in front of `a`: a name
with no wildcard in it, and in front of a catch-all a slash. A path that goes on behind the name
of a catch-all is the business of `known`. -/
structure Checked (known : Bytes → Prop) (prev : Option UInt8) (a : Bytes) (c : UInt8) (b : Bytes) : Prop where
  name : b.takeWhile (· != slash) ≠ []
  alone : Literal (b.takeWhile (· != slash))
  front : c = star → a.getLast?.or prev = some slash
  last : c = star → slash ∈ b → known (a ++ star :: b.takeWhile (· != slash))

/-- The first `r` wildcards of a text are checked. -/
def Good (r : Nat) (known : Bytes → Prop) (prev : Option UInt8) (text : Bytes) : Prop :=
  ∀ a c b, text = a ++ c :: b → wildcard c = true → a.countP wildcard < r → Checked known prev a c b

theorem Good.zero (known : Bytes → Prop) (prev : Option UInt8) (text : Bytes) : Good 0 known prev text :=
  fun _ _ _ _ _ h => absurd h (Nat.not_lt_zero _)

theorem Good.mono {r r' : Nat} {known known' : Bytes → Prop} {prev : Option UInt8} {text : Bytes}
    (h : Good r known prev text) (hr : r' ≤ r) (hk : ∀ s, known s → known' s) : Good r' known' prev text :=
  fun a c b heq hc hlt =>
    have hchecked := h a c b heq hc (Nat.lt_of_lt_of_le hlt hr)
    { hchecked with last := fun hs hb => hk _ (hchecked.last hs hb) }

theorem Good.literal {l t : Bytes} (hl : Literal l) {r : Nat} {known : Bytes → Prop} {prev : Option UInt8}
    (h : Good r (fun s => known (l ++ s)) (l.getLast?.or prev) t) : Good r known prev (l ++ t) := by
  intro a c b heq hc hlt
  rcases List.append_eq_append_iff.mp heq with ⟨s, rfl, rfl⟩ | ⟨s, rfl, hs⟩
  · -- the wildcard lies behind the literal text
    rw [List.countP_append, countP_literal hl, Nat.zero_add] at hlt
    obtain ⟨name, alone, front, last⟩ := h s c b rfl hc hlt
    refine ⟨name, alone, fun hs => ?_, fun hs hb => ?_⟩
    · rw [List.getLast?_append, Option.or_assoc]
      exact front hs
    · rw [List.append_assoc]
      exact last hs hb
  · cases s with
    | nil =>
      simp only [List.append_nil] at hl h
      have hlt' : ([] : Bytes).countP wildcard < r := by rwa [countP_literal hl] at hlt
      obtain ⟨name, alone, front, last⟩ := h [] c b hs.symm hc hlt'
      exact ⟨name, alone, front, last⟩
    | cons d s =>
      obtain ⟨rfl, -⟩ := List.cons.inj hs
      rw [(literal_cons.mp (literal_append.mp hl).2).1] at hc
      cases hc

/-- A wildcard and what follows its name. -/
theorem Good.wildcard {c : UInt8} {name t : Bytes} (hc : wildcard c = true) (hne : name ≠ []) (hl : Literal name)
    (hs : slash ∉ name) (ht : AtSegmentEnd t) {r : Nat} {known : Bytes → Prop} {prev : Option UInt8}
    (hfront : c = star → prev = some slash ∧ (slash ∈ t → known (star :: name)))
    (h : Good r (fun s => known (c :: (name ++ s))) name.getLast? t) : Good (r + 1) known prev (c :: (name ++ t)) := by
  intro a d b heq hd hlt
  cases a with
  | nil =>
    obtain ⟨rfl, rfl⟩ := List.cons.inj heq
    have htake := takeWhile_segment hs ht
    refine ⟨by rwa [htake], by rwa [htake], fun hstar => (hfront hstar).1, fun hstar hmem => ?_⟩
    rw [htake]
    exact (hfront hstar).2 ((List.mem_append.mp hmem).resolve_left hs)
  | cons e a =>
    obtain ⟨rfl, htail⟩ := List.cons.inj heq
    rw [List.countP_cons_of_pos hc] at hlt
    have hprev : name.getLast?.or (some c) = name.getLast? := by
      rw [List.getLast?_eq_some_getLast hne]
      rfl
    have hrest : Good r (fun s => known (c :: s)) (some c) (name ++ t) := Good.literal hl (hprev.symm ▸ h)
    obtain ⟨name', alone, front, last⟩ := hrest a d b htail hd (by omega)
    refine ⟨name', alone, fun hstar => ?_, last⟩
    rw [← front hstar, List.getLast?_cons]
    cases a.getLast? <;> rfl

/-! ### The trees -/

/-- What a wildcard's node has in front of the name. -/
def Mark (n : Node α) (mark : Bytes) : Prop :=
  mark = [colon] ∨ (mark = [slash, star] ∧ n.type = .catchall ∧ n.wildChild = false)

/-- The text of a node that a wildcard leads to. -/
def WildText (n : Node α) : Prop :=
  ∃ mark name, n.path = mark ++ name ∧ Mark n mark ∧ name ≠ [] ∧ Literal name ∧ slash ∉ name

/-- The text of a node, behind a wildcard or elsewhere. Up to `m` wildcards it is certain what a
wildcard's node holds. -/
def TextOk (m : Nat) (wild : Bool) (d : Nat) (n : Node α) : Prop :=
  if wild then d ≤ m → WildText n
  else (d < 255 → Literal n.path) ∧ n.type ≠ .param ∧ (n.type = .catchall → n.wildChild = true ∧ n.path = [])

/-- A node of depth `d`, behind a wildcard or elsewhere. -/
inductive Safe (m : Nat) : Bool → Nat → Node α → Prop where
  | plain {wild d n} (text : TextOk m wild d n) (edges : d < 255 → Literal n.indices)
      (len : n.indices.length ≤ n.children.length) (plain : n.wildChild = false)
      (below : ∀ c ∈ n.children, Safe m false d c) : Safe m wild d n
  | wild {wild d n c} (text : TextOk m wild d n) (edges : d < 255 → Literal n.indices)
      (len : n.indices.length ≤ n.children.length) (wildChild : n.wildChild = true) (few : d < 255)
      (children : n.children = [c]) (below : Safe m true (d + 1) c) : Safe m wild d n

/-- A catch-all of the tree, by the text on the way to it and its own. -/
inductive CatchallAt : Node α → Bytes → Prop where
  | here {n} : n.type = .catchall → n.wildChild = false → CatchallAt n n.path
  | child {n c t} : c ∈ n.children → CatchallAt c t → CatchallAt n (n.path ++ t)

section
variable {m d : Nat} {wild : Bool} {n n' : Node α}

theorem Safe.text (h : Safe m wild d n) : TextOk m wild d n := by
  cases h <;> assumption

theorem Safe.edges (h : Safe m wild d n) : d < 255 → Literal n.indices := by
  cases h <;> assumption

theorem Safe.len (h : Safe m wild d n) : n.indices.length ≤ n.children.length := by
  cases h <;> assumption

theorem Safe.plain_inv (h : Safe m wild d n) (hw : n.wildChild = false) : ∀ c ∈ n.children, Safe m false d c := by
  cases h with
  | plain _ _ _ _ below => exact below
  | wild _ _ _ wildChild => exact absurd (hw.symm.trans wildChild) (by decide)

theorem Safe.wild_inv (h : Safe m wild d n) (hw : n.wildChild = true) :
    d < 255 ∧ ∃ c, n.children = [c] ∧ Safe m true (d + 1) c := by
  cases h with
  | plain _ _ _ plain => exact absurd (hw.symm.trans plain) (by decide)
  | wild _ _ _ _ few children below => exact ⟨few, _, children, below⟩

theorem TextOk.congr (h : TextOk m wild d n) (hp : n'.path = n.path) (ht : n'.type = n.type)
    (hw : n'.wildChild = n.wildChild) : TextOk m wild d n' := by
  unfold TextOk WildText Mark at *
  rwa [hp, ht, hw]

/-- Handlers, priorities and parameter counts do not matter. -/
theorem Safe.congr (h : Safe m wild d n) (hp : n'.path = n.path) (ht : n'.type = n.type)
    (hw : n'.wildChild = n.wildChild) (hi : n'.indices = n.indices) (hc : n'.children = n.children) :
    Safe m wild d n' := by
  have text := h.text.congr hp ht hw
  have len : n'.indices.length ≤ n'.children.length := hi ▸ hc ▸ h.len
  cases hwild : n.wildChild with
  | false => exact .plain text (hi ▸ h.edges) len (hw.trans hwild) (hc ▸ h.plain_inv hwild)
  | true =>
    obtain ⟨few, c, hchildren, below⟩ := h.wild_inv hwild
    exact .wild text (hi ▸ h.edges) len (hw.trans hwild) few (hc.trans hchildren) below

theorem CatchallAt.congr {t : Bytes} (h : CatchallAt n t) (hp : n'.path = n.path) (ht : n'.type = n.type)
    (hw : n'.wildChild = n.wildChild) (hc : n'.children = n.children) : CatchallAt n' t := by
  cases h with
  | here type wild => exact hp ▸ .here (ht.trans type) (hw.trans wild)
  | child mem at' => exact hp ▸ .child (hc ▸ mem) at'

/-- A new node that is not behind a wildcard. -/
theorem Safe.fresh (hf : Fresh n) : Safe m false d n := by
  refine .plain ?_ (fun _ => by simp [hf.indices]) (by simp [hf.indices]) hf.wild (by simp [hf.children])
  have htype : n.type ≠ .param ∧ n.type ≠ .catchall := by
    rcases hf.type with h | h <;> rw [h] <;> decide
  exact ⟨fun _ => by simp [hf.path], htype.1, fun h => absurd h htype.2⟩

end

/-! ### `pgrest_rtree_child_insert` -/

/-- What `num_params` is where `c` wildcards follow: those that are still counted. -/
def Expected (d c : Nat) (k : Int) : Prop := k ≤ 255 - (d : Int) ∧ (d < 255 → k = min (c : Int) (255 - (d : Int)))

theorem Expected.few {d c : Nat} {k : Int} (h : Expected d c k) (hk : 0 < k) : d < 255 := by
  have := h.1
  omega

theorem Expected.pos {d c : Nat} {k : Int} (h : Expected d c k) (hk : 0 < k) : 0 < c := by
  have := h.2 (h.few hk)
  omega

/-- Where no parameter is expected there is none, or none is counted. -/
theorem Expected.literal {d : Nat} {text : Bytes} {k : Int} (h : Expected d (text.countP wildcard) k) (hk : k ≤ 0)
    (hd : d < 255) : Literal text := by
  have := h.2 hd
  exact literal_iff_countP.mp (by omega)

theorem Expected.next {d c : Nat} {k : Int} (h : Expected d (c + 1) k) (hk : 0 < k) : Expected (d + 1) c (k - 1) := by
  have hd := h.few hk
  have := h.2 hd
  constructor
  · push_cast
    omega
  · intro _
    push_cast
    omega

theorem Good.of_literal {r : Nat} {known : Bytes → Prop} {prev : Option UInt8} {text : Bytes} (h : Literal text) :
    Good r known prev text := by
  rintro a c b rfl hc -
  rw [(literal_cons.mp (literal_append.mp h).2).1] at hc
  cases hc

theorem path_or (n : Node α) (seen : Bytes) : (if seen.isEmpty then n else { n with path := seen }) =
    { n with path := if seen.isEmpty then n.path else seen } := by
  obtain ⟨_, _, _, _, _, _, _, _⟩ := n
  cases seen <;> rfl

/-- A node with a parameter below it. -/
theorem Safe.hang {m d : Nat} {n p : Node α} (h : Safe m false d n) (hplain : n.wildChild = false)
    (hn : n.children = []) (hd : d < 255) {path : Bytes} (hpath : Literal path) (hp : Safe m true (d + 1) p) :
    Safe m false d { n with path := path, children := [p], wildChild := true } := by
  obtain ⟨-, hparam, hcatchall⟩ := h.text
  have hi : n.indices.length = 0 := by
    have hlen := h.len
    rw [hn] at hlen
    exact Nat.le_zero.mp hlen
  refine .wild ⟨fun _ => hpath, hparam, fun hc => ?_⟩ h.edges ?_ rfl hd rfl hp
  · exact absurd (hplain.symm.trans (hcatchall hc).1) (by decide)
  · show n.indices.length ≤ 1
    omega

/-- A parameter of a name, over what follows it. -/
theorem Safe.param {m d : Nat} {name : Bytes} (hne : name ≠ []) (hl : Literal name) (hs : slash ∉ name)
    {children : List (Node α)} (hc : ∀ c ∈ children, Safe m false d c) (k p : Int) (x : Option α) :
    Safe m true d { path := colon :: name, type := .param, maxParams := k, children, handler := x, priority := p } :=
  .plain (fun _ => ⟨[colon], name, rfl, Or.inl rfl, hne, hl, hs⟩) (fun _ => literal_nil) (Nat.zero_le _) rfl hc

theorem Safe.catchallBelow {m d : Nat} {n : Node α} (h : Safe m false d n) (hplain : n.wildChild = false)
    (hd : d < 255) {path name : Bytes} (hpath : Literal path) (hne : name ≠ []) (hl : Literal name) (hs : slash ∉ name)
    (x : Option α) : Safe m false d (catchallBelow n path (star :: name) x) := by
  obtain ⟨-, hparam, hcatchall⟩ := h.text
  have hslash : Literal [slash] := literal_cons.mpr ⟨rfl, literal_nil⟩
  refine .plain ⟨fun _ => hpath, hparam, fun hc => ?_⟩ (fun _ => hslash) (Nat.le_refl 1) hplain ?_
  · exact absurd (hplain.symm.trans (hcatchall hc).1) (by decide)
  · intro c hc
    obtain rfl := List.mem_singleton.mp hc
    refine .wild ⟨fun _ => literal_nil, by simp, fun _ => ⟨rfl, rfl⟩⟩ (fun _ => literal_nil) (Nat.zero_le _) rfl hd rfl ?_
    exact .plain (fun _ => ⟨[slash, star], name, rfl, Or.inr ⟨rfl, rfl, rfl⟩, hne, hl, hs⟩) (fun _ => literal_nil)
      (Nat.zero_le _) rfl (by simp)

/-- Inserting reads nothing outside of the path, and leaves a safe node whether it succeeds or
not. When it does, the wildcards that are counted have been checked. -/
theorem childInsert_safe {m d : Nat} {n : Node α} {k : Int} (before : Option UInt8) (seen : Bytes) {text : Bytes}
    (hk : Expected d (text.countP wildcard) k) (h : Safe m false d n) (hplain : n.wildChild = false)
    (hseen : d < 255 → Literal seen) (hguard : d < 255 → Guarded n before seen text) (x : Option α) :
    ∃ ok n', childInsert n k before seen text x = some (ok, n') ∧ Safe m false d n' ∧
      (ok = true → Good (255 - d) (fun _ => False) (seen.getLast?.or before) text) := by
  induction hlen : text.length using Nat.strongRecOn generalizing d n k before seen text with
  | ind len ih =>
  subst hlen
  obtain ⟨hpath, hparam, hcatchall⟩ := h.text
  by_cases hpos : k ≤ 0
  · -- the rest is put into the node as it is
    refine ⟨true, { n with path := seen ++ text, handler := x }, ?_, ?_, fun _ => ?_⟩
    · rw [childInsert.eq_def, if_pos hpos]
    · refine .plain ⟨fun hd => literal_append.mpr ⟨hseen hd, hk.literal hpos hd⟩, hparam, fun hc => ?_⟩ h.edges h.len
        hplain (h.plain_inv hplain)
      exact absurd (hplain.symm.trans (hcatchall hc).1) (by decide)
    · rcases Nat.lt_or_ge d 255 with hd | hd
      · exact Good.of_literal (hk.literal hpos hd)
      · rw [Nat.sub_eq_zero_of_le hd]
        exact Good.zero _ _ _
  have hk0 : 0 < k := by omega
  have hd := hk.few hk0
  cases text with
  | nil => exact absurd (hk.pos hk0) (by simp)
  | cons c rest =>
    by_cases hc : wildcard c = true
    · rw [childInsert_wildcard n hk0 before seen hc rfl rfl]
      generalize hname : rest.takeWhile (· != slash) = name
      generalize hafter : rest.dropWhile (· != slash) = after
      have hrest : rest = name ++ after := by rw [← hname, ← hafter, List.takeWhile_append_dropWhile]
      have hend : AtSegmentEnd after := hafter ▸ atSegmentEnd_dropWhile rest
      have hstay : ∃ ok n', some (false, n) = some (ok, n') ∧ Safe m false d n' ∧
          (ok = true → Good (255 - d) (fun _ => False) (seen.getLast?.or before) (c :: rest)) :=
        ⟨false, n, rfl, h, fun hf => absurd hf (by decide)⟩
      split
      · exact hstay
      next hgood =>
      simp only [Bool.or_eq_true, not_or, Bool.not_eq_true, Bool.not_eq_false', List.isEmpty_iff] at hgood
      obtain ⟨⟨hwild, hn⟩, hempty⟩ := hgood
      have hne : name ≠ [] := by simpa [List.isEmpty_eq_false_iff] using hempty
      have hl : Literal name := literal_of_any hwild
      have hs : slash ∉ name := fun hmem => by
        rw [← hname] at hmem
        simpa using List.mem_takeWhile_imp hmem
      have hcount : (c :: rest).countP wildcard = after.countP wildcard + 1 := by
        rw [List.countP_cons_of_pos hc, hrest, List.countP_append, countP_literal hl, Nat.zero_add]
      rw [hcount] at hk
      have hk1 := hk.next hk0
      have hr : 255 - d = 255 - (d + 1) + 1 := by omega
      split
      · next hcolon =>
        subst hcolon
        -- the node in front of the parameter
        have hfront : Literal (if seen.isEmpty then n.path else seen) := by
          split
          · exact hpath hd
          · exact hseen hd
        dsimp only
        rw [path_or]
        split
        · next hlast =>
          obtain rfl : after = [] := List.isEmpty_iff.mp hlast
          have hzero : k - 1 ≤ 0 := by
            have := hk1.1
            have := hk.2 hd
            simp only [List.countP_nil] at this
            omega
          rw [childInsert.eq_def, if_pos hzero, List.append_nil]
          refine ⟨true, _, rfl, h.hang hplain hn hd hfront (Safe.param hne hl hs (by simp) k 1 x), fun _ => ?_⟩
          rw [hr, hrest]
          exact Good.wildcard rfl hne hl hs hend (fun hstar => absurd hstar (by decide)) (Good.of_literal literal_nil)
        · next hmore =>
          have hslash : after.head? = some slash := hend.resolve_left fun hnil => hmore (List.isEmpty_iff.mpr hnil)
          have hshorter : after.length < (colon :: rest).length := by
            rw [hrest, List.length_cons, List.length_append]
            omega
          obtain ⟨ok, child, hchild, hsafe, hgood⟩ := ih after.length hshorter name.getLast? [] hk1
            (Safe.fresh (n := { maxParams := k - 1, priority := 1 }) ⟨rfl, Or.inl rfl, rfl, rfl, rfl, rfl⟩) rfl
            (fun _ => literal_nil) (fun _ hstar => absurd (hslash.symm.trans hstar) (by decide)) rfl
          rw [hchild]
          refine ⟨ok, _, rfl, h.hang hplain hn hd hfront (Safe.param hne hl hs ?_ k 1 none), fun hok => ?_⟩
          · intro c hc
            obtain rfl := List.mem_singleton.mp hc
            exact hsafe
          · rw [hr, hrest]
            exact Good.wildcard rfl hne hl hs hend (fun hstar => absurd hstar (by decide)) (hgood hok)
      · next hcolon =>
        obtain rfl : c = star := (wildcard_cases hc).resolve_left hcolon
        split
        · exact hstay
        next hlast =>
        split
        · exact hstay
        next hroot =>
        simp only [Bool.or_eq_true, not_or, Bool.not_eq_true, Bool.not_eq_false', List.isEmpty_iff,
          decide_eq_true_eq] at hlast
        obtain rfl : name = rest := by rw [hrest, hlast.1, List.append_nil]
        split
        · next hnone =>
          -- a star at the start of everything
          rcases hguard hd rfl with hs | hs | ⟨b, rfl, -⟩
          · rw [List.getLast?_eq_some_getLast hs] at hnone
            cases hnone
          · exact absurd hn hs
          · cases hlast : seen.getLast? <;> simp [hlast] at hnone
        · next b hb =>
          split
          · exact hstay
          next hb' =>
          obtain rfl : b = slash := by simpa using hb'
          split
          · next hnil =>
            obtain rfl : seen = [] := List.isEmpty_iff.mp hnil
            rcases hguard hd rfl with hs | hs | ⟨b, rfl, hslash⟩
            · exact absurd rfl hs
            · exact absurd hn hs
            · exact absurd (hslash (Option.some.inj hb)) hroot
          · refine ⟨true, _, rfl, h.catchallBelow hplain hd ?_ hne hl hs x, fun _ => ?_⟩
            · exact literal_of_sublist (List.dropLast_sublist _) (hseen hd)
            · have hgood : Good (255 - (d + 1) + 1) (fun _ => False) (seen.getLast?.or before) (star :: (name ++ [])) :=
                Good.wildcard rfl hne hl hs (Or.inl rfl) (fun _ => ⟨hb, by simp⟩) (Good.of_literal literal_nil)
              rwa [List.append_nil, ← hr] at hgood
    · have hc : wildcard c = false := by simpa using hc
      rw [List.countP_cons_of_neg (by simp [hc])] at hk
      rw [childInsert_literal n hk0 before seen hc]
      obtain ⟨ok, n', heq, hsafe, hgood⟩ := ih rest.length (by simp) before (seen ++ [c]) hk h hplain
        (fun hd => literal_append.mpr ⟨hseen hd, literal_cons.mpr ⟨hc, literal_nil⟩⟩) (fun _ _ => Or.inl (by simp)) rfl
      refine ⟨ok, n', heq, hsafe, fun hok => ?_⟩
      have hrest := hgood hok
      rw [List.getLast?_concat, Option.some_or] at hrest
      exact Good.literal (l := [c]) (literal_cons.mpr ⟨hc, literal_nil⟩) hrest

end PgRest.Rtree
