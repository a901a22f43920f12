import PgRest.Rtree.Find

/-! Which patterns can stand in one tree, said of the patterns alone. The routes of
every tree are such patterns, whatever adds have made it. -/
namespace PgRest.Rtree

variable {α : Type}

/-- Where the texts of two patterns part, neither goes on with a wildcard, unless the other
ends there. In a parameter's name (`inName`) they may not part before its end. -/
def coexist (inName : Bool) : Bytes → Bytes → Bool
  | [], [] => false
  | [], d :: _ => if inName then d == slash else d != star
  | c :: _, [] => if inName then c == slash else c != star
  | c :: p, d :: q =>
    if c == d then c != star && coexist (c == colon || (inName && c != slash)) p q
    else !inName && !wildcard c && !wildcard d

theorem coexist_comm (inName : Bool) (p q : Bytes) : coexist inName p q = coexist inName q p := by
  induction p generalizing inName q with
  | nil => cases q <;> rfl
  | cons c p ih =>
    cases q with
    | nil => rfl
    | cons d q =>
      rw [coexist, coexist]
      by_cases h : c = d
      · subst h
        simp only [beq_self_eq_true, if_true, ih]
      · rw [if_neg (by simpa using h), if_neg (by simpa using Ne.symm h), Bool.and_right_comm]

/-! ### A common beginning -/

theorem coexist_literal {l : Bytes} (hl : Literal l) (p q : Bytes) :
    coexist false (l ++ p) (l ++ q) = coexist false p q := by
  induction l with
  | nil => rfl
  | cons c l ih =>
    obtain ⟨hc, hl'⟩ := literal_cons.mp hl
    have hcolon : (c == colon) = false := beq_false_of_ne fun h => by simp [h] at hc
    have hstar : (c != star) = true := bne_iff_ne.mpr fun h => by simp [h] at hc
    rw [List.cons_append, List.cons_append, coexist, if_pos (beq_self_eq_true c), hcolon, hstar]
    exact ih hl'

/-- Within a name nothing but its bytes is looked at. -/
theorem coexist_name {name : Bytes} (hl : Literal name) (hs : slash ∉ name) (p q : Bytes) :
    coexist true (name ++ p) (name ++ q) = coexist true p q := by
  induction name with
  | nil => rfl
  | cons c name ih =>
    obtain ⟨hc, hl'⟩ := literal_cons.mp hl
    have hstar : (c != star) = true := bne_iff_ne.mpr fun h => by simp [h] at hc
    have hslash : (c != slash) = true := bne_iff_ne.mpr fun h => hs (by simp [h])
    rw [List.cons_append, List.cons_append, coexist, if_pos (beq_self_eq_true c), hstar, hslash,
      Bool.true_and, Bool.true_and, Bool.or_true]
    exact ih hl' fun h => hs (List.mem_cons_of_mem _ h)

theorem coexist_segment {p q : Bytes} (hp : AtSegmentEnd p) (hq : AtSegmentEnd q) :
    coexist true p q = coexist false p q := by
  have hne : slash ≠ star := by decide
  cases p with
  | nil =>
    cases q with
    | nil => rfl
    | cons d q =>
      obtain rfl : d = slash := by simpa [AtSegmentEnd] using hq
      simp [coexist, hne]
  | cons c p =>
    obtain rfl : c = slash := by simpa [AtSegmentEnd] using hp
    cases q with
    | nil => simp [coexist, hne]
    | cons d q =>
      obtain rfl : d = slash := by simpa [AtSegmentEnd] using hq
      simp [coexist]

theorem coexist_param {name p q : Bytes} (hn : NameOk name) (hp : AtSegmentEnd p) (hq : AtSegmentEnd q) :
    coexist false (colon :: (name ++ p)) (colon :: (name ++ q)) = coexist false p q := by
  rw [coexist, if_pos (beq_self_eq_true colon), ← coexist_segment hp hq, ← coexist_name hn.literal hn.slash p q]
  rfl

/-- In one place only one name will do. -/
theorem eq_of_coexist {name name' p q : Bytes} (hl : Literal name) (hs : slash ∉ name) (hl' : Literal name')
    (hs' : slash ∉ name') (hp : AtSegmentEnd p) (hq : AtSegmentEnd q)
    (h : coexist true (name ++ p) (name' ++ q) = true) : name = name' := by
  -- a name that ends before the other goes on with no slash there
  have hend : ∀ {c : UInt8} {name p q : Bytes}, slash ∉ c :: name → AtSegmentEnd p →
      coexist true p ((c :: name) ++ q) ≠ true := by
    intro c name p q hs hp
    have hc : c ≠ slash := fun h => hs (by simp [h])
    cases p with
    | nil => simp [coexist, hc]
    | cons d p =>
      obtain rfl : d = slash := by simpa [AtSegmentEnd] using hp
      simp [coexist, Ne.symm hc]
  induction name generalizing name' with
  | nil =>
    cases name' with
    | nil => rfl
    | cons c name' => exact absurd h (hend hs' hp)
  | cons c name ih =>
    cases name' with
    | nil =>
      rw [coexist_comm] at h
      exact absurd h (hend hs hq)
    | cons d name' =>
      have hc : c ≠ slash := fun h => hs (by simp [h])
      rw [List.cons_append, List.cons_append, coexist] at h
      split at h
      · next hcd =>
        obtain rfl : c = d := by simpa using hcd
        simp only [Bool.true_and, show (c != slash) = true by simpa using hc, Bool.or_true,
          Bool.and_eq_true] at h
        rw [ih (literal_cons.mp hl).2 (fun h => hs (List.mem_cons_of_mem _ h)) (literal_cons.mp hl').2
          (fun h => hs' (List.mem_cons_of_mem _ h)) h.2]
      · simp at h

/-! ### Where the patterns part -/

theorem coexist_end {t : Bytes} {d : UInt8} (ht : t.head? = some d) (hd : d ≠ star) :
    coexist false [] t = true := by
  cases t with
  | nil => simp at ht
  | cons e t =>
    obtain rfl : e = d := Option.some.inj ht
    exact bne_iff_ne.mpr hd

theorem coexist_apart {c d : UInt8} (h : c ≠ d) (hc : wildcard c = false) (hd : wildcard d = false)
    (p q : Bytes) : coexist false (c :: p) (d :: q) = true := by
  rw [coexist, if_neg (by simpa using h), hc, hd]
  rfl

/-- A wildcard is next to nothing else. -/
theorem coexist_wildcard {c d : UInt8} (h : c ≠ d) (hc : wildcard c = true) (p q : Bytes) :
    coexist false (c :: p) (d :: q) = false := by
  rw [coexist, if_neg (by simpa using h), hc]
  rfl

theorem coexist_star (p q : Bytes) : coexist false (star :: p) q = false := by
  cases q with
  | nil => rfl
  | cons d q =>
    by_cases h : star = d
    · rw [coexist, if_pos (by simpa using h)]
      rfl
    · exact coexist_wildcard h rfl p q

theorem coexist_self (inName : Bool) (p : Bytes) : coexist inName p p = false := by
  induction p generalizing inName with
  | nil => rfl
  | cons c p ih => rw [coexist, if_pos (beq_self_eq_true c), ih, Bool.and_false]

/-- Two catch-alls in one place, or anything next to a catch-all. -/
theorem coexist_catchall {p : Bytes} (hp : p.head? = some slash) (name : Bytes) :
    coexist false p (slash :: star :: name) = false := by
  cases p with
  | nil => simp at hp
  | cons c p =>
    obtain rfl : c = slash := Option.some.inj hp
    show coexist false ([slash] ++ p) ([slash] ++ star :: name) = false
    rw [coexist_literal (by simp [Literal])]
    rw [coexist_comm, coexist_star]

/-! ### The rest of a pattern -/

theorem Shape.param_inv {rest : Bytes} (h : Shape (colon :: rest)) :
    ∃ name p, rest = name ++ p ∧ NameOk name ∧ AtSegmentEnd p ∧ Shape p := by
  generalize hp : colon :: rest = q at h
  cases h with
  | nil => cases hp
  | lit hc =>
    obtain ⟨rfl, -⟩ := List.cons.inj hp
    simp at hc
  | param hn he h' => exact ⟨_, _, (List.cons.inj hp).2, hn, he, h'⟩
  | catchall => exact absurd (List.cons.inj hp).1 (by decide)

theorem Shape.star_inv {rest : Bytes} : ¬Shape (star :: rest) := by
  intro h
  generalize hp : star :: rest = q at h
  cases h with
  | nil => cases hp
  | lit hc =>
    obtain ⟨rfl, -⟩ := List.cons.inj hp
    simp at hc
  | param => exact absurd (List.cons.inj hp).1 (by decide)
  | catchall => exact absurd (List.cons.inj hp).1 (by decide)

theorem Shape.literal_inv {c : UInt8} {rest : Bytes} (hc : wildcard c = false) (h : Shape (c :: rest)) :
    Shape rest ∨ (c = slash ∧ ∃ name, NameOk name ∧ rest = star :: name) := by
  generalize hp : c :: rest = q at h
  cases h with
  | nil => cases hp
  | lit _ h' =>
    obtain ⟨-, rfl⟩ := List.cons.inj hp
    exact Or.inl h'
  | param =>
    obtain ⟨rfl, -⟩ := List.cons.inj hp
    simp at hc
  | catchall hn => exact Or.inr ⟨(List.cons.inj hp).1, _, hn, (List.cons.inj hp).2⟩

/-- Behind literal text a pattern goes on as a pattern, or with the star of a catch-all. -/
theorem Shape.behind {l t : Bytes} (hl : Literal l) (h : Shape (l ++ t)) :
    Shape t ∨ (l.getLast? = some slash ∧ ∃ name, NameOk name ∧ t = star :: name) := by
  induction l with
  | nil => exact Or.inl h
  | cons c l ih =>
    obtain ⟨hc, hl'⟩ := literal_cons.mp hl
    rcases h.literal_inv hc with h' | ⟨rfl, name, hn, heq⟩
    · refine (ih hl' h').imp_right fun ⟨hlast, hstar⟩ => ⟨?_, hstar⟩
      rw [List.getLast?_cons, hlast]
      rfl
    · cases l with
      | nil => exact Or.inr ⟨rfl, name, hn, heq⟩
      | cons d l =>
        obtain ⟨rfl, -⟩ := List.cons.inj heq
        simp at hl'

theorem Shape.behind_param {name t : Bytes} (hn : NameOk name) (ht : AtSegmentEnd t)
    (h : Shape (colon :: (name ++ t))) : Shape t := by
  obtain ⟨name', p, heq, hn', hp, h'⟩ := h.param_inv
  have hname : name = name' := by
    rw [← takeWhile_segment hn.slash ht, heq, takeWhile_segment hn'.slash hp]
  subst hname
  exact List.append_cancel_left heq ▸ h'

/-- Nothing comes behind a catch-all. -/
theorem Shape.behind_catchall {name t : Bytes} (h : Shape (slash :: star :: (name ++ t))) : slash ∉ t := by
  rcases h.literal_inv rfl with h' | ⟨-, name', hn, heq⟩
  · exact absurd h' Shape.star_inv
  · obtain ⟨-, rfl⟩ := List.cons.inj heq
    exact fun hs => hn.slash (List.mem_append_right _ hs)

/-! ### The routes of one tree -/

/-- The patterns among the routes can stand together. -/
def Together (rs : List (Bytes × α)) : Prop :=
  rs.Pairwise fun r s => Shape r.1 → Shape s.1 → coexist false r.1 s.1 = true

theorem own_text {handler : Option α} {r : Bytes × α} (h : r ∈ own handler) : r.1 = [] := by
  cases handler with
  | none => simp at h
  | some x =>
    rw [own_some] at h
    rw [List.mem_singleton.mp h]

/-- The routes of a node stand together if those of its children do and none of them starts
with a star. -/
theorem together_of_children {n : Node α}
    (hshape : ∀ m ∈ n.children, ∀ r ∈ routes m, Shape (n.path ++ r.1) → Shape r.1)
    (hbehind : ∀ t t', (∃ x, (t, x) ∈ own n.handler ++ n.children.flatMap routes) →
      (∃ x, (t', x) ∈ own n.handler ++ n.children.flatMap routes) →
      coexist false (n.path ++ t) (n.path ++ t') = coexist false t t')
    (hstart : ∀ m ∈ n.children, ∀ r ∈ routes m, ∃ d, r.1.head? = some d ∧ d ≠ star)
    (hbelow : Together (n.children.flatMap routes)) : Together (routes n) := by
  have hall : (own n.handler ++ n.children.flatMap routes).Pairwise fun r s =>
      Shape (n.path ++ r.1) → Shape (n.path ++ s.1) → coexist false r.1 s.1 = true := by
    refine List.pairwise_append.mpr ⟨?_, ?_, fun r hr s hs _ _ => ?_⟩
    · cases n.handler <;> simp
    · refine List.Pairwise.imp_of_mem (fun hr hs h hsr hss => ?_) hbelow
      obtain ⟨m, hm, hr⟩ := List.mem_flatMap.mp hr
      obtain ⟨m', hm', hs⟩ := List.mem_flatMap.mp hs
      exact h (hshape m hm _ hr hsr) (hshape m' hm' _ hs hss)
    · obtain ⟨m, hm, hs⟩ := List.mem_flatMap.mp hs
      rw [own_text hr]
      obtain ⟨d, hd, hne⟩ := hstart m hm s hs
      exact coexist_end hd hne
  rw [Together, routes_eq, under, List.pairwise_map]
  refine List.Pairwise.imp_of_mem (fun hr hs h hshape hshape' => ?_) hall
  rw [hbehind _ _ ⟨_, hr⟩ ⟨_, hs⟩]
  exact h hshape hshape'

/-- The byte by which a child is found starts all of its routes. -/
theorem Edges.head {n : Node α} (h : Edges n) {m : Node α} (hm : m ∈ n.children) :
    ∃ c, c ∈ n.indices ∧ wildcard c = false ∧ ∀ r ∈ routes m, r.1.head? = some c := by
  obtain ⟨j, hj⟩ := List.getElem?_of_mem hm
  have hlt : j < n.indices.length := h.len ▸ (List.getElem?_eq_some_iff.mp hj).1
  have hc := List.getElem?_eq_getElem hlt
  exact ⟨_, List.getElem_mem hlt, h.edges _ (List.getElem_mem hlt), fun r hr => (h.below j _ m hc hj).route_head hr⟩

theorem Edges.together {n : Node α} (h : Edges n) (hl : Literal n.path)
    (hbelow : ∀ m ∈ n.children, Together (routes m)) : Together (routes n) := by
  have hstart : ∀ m ∈ n.children, ∀ r ∈ routes m, ∃ d, r.1.head? = some d ∧ d ≠ star := by
    intro m hm r hr
    obtain ⟨c, -, hc, hhead⟩ := h.head hm
    refine ⟨c, hhead r hr, ?_⟩
    rintro rfl
    simp at hc
  refine together_of_children (fun m hm r hr hs => ?_) (fun t t' _ _ => coexist_literal hl t t') hstart ?_
  · refine (hs.behind hl).resolve_right ?_
    rintro ⟨-, name, -, heq⟩
    obtain ⟨d, hd, hne⟩ := hstart m hm r hr
    rw [heq] at hd
    exact hne (Option.some.inj hd).symm
  · refine List.pairwise_flatMap.mpr ⟨hbelow, ?_⟩
    rw [List.pairwise_iff_getElem]
    intro i j hi hj hij r hr s hs _ _
    have hii : i < n.indices.length := h.len ▸ hi
    have hjj : j < n.indices.length := h.len ▸ hj
    have hr' := (h.below i _ _ (List.getElem?_eq_getElem hii) (List.getElem?_eq_getElem hi)).route_head hr
    have hs' := (h.below j _ _ (List.getElem?_eq_getElem hjj) (List.getElem?_eq_getElem hj)).route_head hs
    have hne : n.indices[i] ≠ n.indices[j] := fun he =>
      absurd ((List.Nodup.getElem_inj_iff h.nodup).mp he) (by omega)
    obtain ⟨p, hp⟩ := List.head?_eq_some_iff.mp hr'
    obtain ⟨q, hq⟩ := List.head?_eq_some_iff.mp hs'
    rw [hp, hq]
    exact coexist_apart hne (h.edges _ (List.getElem_mem hii)) (h.edges _ (List.getElem_mem hjj)) p q

/-- Whatever adds have made the tree, its patterns stand together. -/
theorem Ok.together {slot : Slot} {n : Node α} (h : Ok slot n) : Together (routes n) := by
  induction h with
  | @static slot n starts type literal wild edges nodup len below ih =>
    refine Edges.together ⟨edges, nodup, len, below⟩ literal fun m hm => ?_
    obtain ⟨j, hj⟩ := List.getElem?_of_mem hm
    have hlt : j < n.indices.length := len ▸ (List.getElem?_eq_some_iff.mp hj).1
    exact ih j _ m (List.getElem?_eq_getElem hlt) hj
  | @wild slot n m starts type literal wild edges children below ih =>
    obtain ⟨name, hname, -, hmpath, -, -⟩ := below.inv_param
    have hcolon : ∀ m' ∈ n.children, ∀ r ∈ routes m', ∃ t, r.1 = colon :: t := by
      intro m' hm' r hr
      obtain rfl : m' = m := by simpa [children] using hm'
      obtain ⟨t, ht, -⟩ := mem_routes.mp hr
      exact ⟨name ++ t, by rw [ht, hmpath, List.cons_append]⟩
    refine together_of_children (fun m' hm' r hr hs => ?_) (fun t t' _ _ => coexist_literal literal t t')
      (fun m' hm' r hr => ?_) (by simpa [children] using ih)
    · obtain ⟨t, ht⟩ := hcolon m' hm' r hr
      refine (hs.behind literal).resolve_right ?_
      rintro ⟨-, name, -, heq⟩
      exact absurd (List.cons.inj (ht.symm.trans heq)).1 (by decide)
    · obtain ⟨t, ht⟩ := hcolon m' hm' r hr
      exact ⟨colon, by rw [ht, List.head?_cons], by decide⟩
  | @param n name type path hname wild edges few len below ih =>
    have hend : ∀ t, (∃ x, (t, x) ∈ own n.handler ++ n.children.flatMap routes) → AtSegmentEnd t := by
      rintro t ⟨x, hx⟩
      rcases List.mem_append.mp hx with hx | hx
      · exact Or.inl (own_text hx)
      · obtain ⟨m, hm, hr⟩ := List.mem_flatMap.mp hx
        exact Or.inr ((below m hm).route_head hr)
    have hhead : ∀ m ∈ n.children, ∀ r ∈ routes m, r.1.head? = some slash := fun m hm r hr =>
      (below m hm).route_head hr
    refine together_of_children (fun m hm r hr hs => ?_) (fun t t' ht ht' => ?_)
      (fun m hm r hr => ⟨slash, hhead m hm r hr, by decide⟩) ?_
    · rw [path, List.cons_append] at hs
      exact hs.behind_param hname (Or.inr (hhead m hm r hr))
    · rw [path]
      exact coexist_param hname (hend t ht) (hend t' ht')
    · rcases hch : n.children with _ | ⟨m, _ | ⟨m', rest⟩⟩
      · exact List.Pairwise.nil
      · simpa using ih m (by simp [hch])
      · simp [hch] at few
  | @catchallFirst n m type path wild handler edges children below ih =>
    obtain ⟨name, hname, -, hmpath, -⟩ := below.inv_catchall
    refine together_of_children (fun m' hm' r hr hs => by rwa [path] at hs) (fun t t' _ _ => by rw [path]; rfl)
      (fun m' hm' r hr => ?_) (by simpa [children] using ih)
    obtain rfl : m' = m := by simpa [children] using hm'
    obtain ⟨t, ht, -⟩ := mem_routes.mp hr
    exact ⟨slash, by rw [ht, hmpath]; rfl, by decide⟩
  | @catchall n name type path hname wild handler edges nodup len below ih =>
    -- what hangs below a catch-all is no pattern
    rw [Together, routes_eq, under, List.pairwise_map, List.pairwise_append]
    have hno : ∀ r ∈ n.children.flatMap routes, ¬Shape (n.path ++ r.1) := by
      intro r hr hs
      obtain ⟨m, hm, hr⟩ := List.mem_flatMap.mp hr
      obtain ⟨j, hj⟩ := List.getElem?_of_mem hm
      have hlt : j < n.indices.length := len ▸ (List.getElem?_eq_some_iff.mp hj).1
      have hhead := (below j _ m (List.getElem?_eq_getElem hlt) hj).route_head hr
      rw [edges _ (List.getElem_mem hlt)] at hhead
      rw [path, List.cons_append, List.cons_append] at hs
      exact hs.behind_catchall (List.mem_of_mem_head? hhead)
    refine ⟨?_, ?_, fun r _ s hs _ hshape => absurd hshape (hno s hs)⟩
    · cases n.handler <;> simp
    · rw [List.pairwise_iff_getElem]
      exact fun i j _ hj _ _ hshape => absurd hshape (hno _ (List.getElem_mem hj))

end PgRest.Rtree
