import PgRest.Rtree.Coexist

/-! The order in which routes are added. A pattern that can stand with all routes of a
tree is accepted, whatever the tree's nodes look like, so it does not matter when it
is added; and what a lookup finds is told by the routes alone. -/
namespace PgRest.Rtree
open Lib

variable {α : Type}

/-! ### Trees of accepted routes -/

/-- There is a route at each node or below it. -/
inductive Full : Node α → Prop where
  | mk {n} (used : n.handler ≠ none ∨ n.children ≠ []) (below : ∀ m ∈ n.children, Full m) : Full n

theorem Full.children {n : Node α} (h : Full n) : ∀ m ∈ n.children, Full m := by
  cases h with
  | mk _ below => exact below

theorem Full.used {n : Node α} (h : Full n) : n.handler ≠ none ∨ n.children ≠ [] := by
  cases h with
  | mk used => exact used

/-- Only the handlers matter. -/
theorem Full.congr {n m : Node α} (h : Full n) (hh : m.handler = n.handler) (hc : m.children = n.children) :
    Full m :=
  .mk (by rw [hh, hc]; exact h.used) (by rw [hc]; exact h.children)

theorem Full.leaf {n : Node α} (hh : n.handler ≠ none) (hc : ∀ m ∈ n.children, Full m) : Full n :=
  .mk (Or.inl hh) hc

theorem Full.one {n m : Node α} (hc : n.children = [m]) (h : Full m) : Full n :=
  .mk (Or.inr (by simp [hc])) (by simpa [hc] using h)

theorem Full.route {n : Node α} (h : Full n) : ∃ r, r ∈ routes n := by
  induction h with
  | @mk n used below ih =>
    rcases used with hh | hc
    · obtain ⟨x, hx⟩ := Option.ne_none_iff_exists'.mp hh
      exact ⟨(n.path, x), mem_routes.mpr ⟨[], by simp, Or.inl ⟨rfl, hx⟩⟩⟩
    · obtain ⟨m, hm⟩ := List.exists_mem_of_ne_nil _ hc
      obtain ⟨⟨t, x⟩, hr⟩ := ih m hm
      exact ⟨(n.path ++ t, x), mem_routes.mpr ⟨t, rfl, Or.inr ⟨m, hm, hr⟩⟩⟩

/-- An add that is accepted and leaves a tree of accepted routes. -/
def Accepts (result : Option (Bool × Node α)) : Prop := ∃ n, result = some (true, n) ∧ Full n

theorem Accepts.child {result : Option (Bool × Node α)} (put : Node α → Node α) (h : Accepts result)
    (hput : ∀ m, Full m → Full (put m)) : Accepts (result.map fun (ok, m) => (ok, put m)) := by
  obtain ⟨m, rfl, hm⟩ := h
  exact ⟨put m, rfl, hput m hm⟩

/-! ### Inserting -/

/-- A new node takes every pattern, and an old one without children a parameter. -/
theorem childInsert_accepts {n : Node α} {before : Option UInt8} {seen text : Bytes} (hn : n.children = [])
    (hl : Literal seen) (hs : Shape (seen ++ text))
    (hstand : n.path = [] ∨ (seen = [] ∧ text.head? = some colon)) (x : α) :
    Accepts (childInsert n (text.countP wildcard) before seen text (some x)) := by
  induction hlen : text.length using Nat.strongRecOn generalizing n before seen text with
  | ind len ih =>
  subst hlen
  by_cases hlit : Literal text
  · exact ⟨_, childInsert_leaf n before seen hlit (some x), .leaf (by simp) (by simp [hn])⟩
  have hk : 0 < (text.countP wildcard : Int) := by
    have := mt literal_iff_countP.mp hlit
    omega
  cases text with
  | nil => simp at hlit
  | cons c rest =>
    by_cases hc : wildcard c = true
    · by_cases hcolon : c = colon
      · subst hcolon
        have hshape : Shape (colon :: rest) := (hs.behind hl).resolve_right fun ⟨_, _, _, heq⟩ =>
          absurd (List.cons.inj heq).1 (by decide)
        obtain ⟨name, p, rfl, hname, hp, hshape⟩ := hshape.param_inv
        rw [childInsert_wildcard n hk before seen hc (takeWhile_segment hname.slash hp)
          (dropWhile_segment hname.slash hp), if_neg, if_pos rfl]
        swap
        · have hany : name.any wildcard = false := by
            rw [List.any_eq_false]
            exact fun d hd => by simp [hname.literal d hd]
          simp [hany, hn, hname.ne]
        have hk1 : (((colon :: (name ++ p)).countP wildcard : Nat) : Int) - 1 = p.countP wildcard := by
          rw [List.countP_cons_of_pos rfl, List.countP_append, countP_literal hname.literal]
          omega
        dsimp only
        rw [hk1]
        split
        · next hempty =>
          obtain rfl : p = [] := by simpa using hempty
          rw [childInsert_leaf _ _ _ literal_nil]
          exact ⟨_, rfl, .one rfl (.leaf (by simp) (by simp))⟩
        · have hshorter : p.length < (colon :: (name ++ p)).length := by
            simp only [List.length_cons, List.length_append]
            omega
          have hbehind : Accepts (childInsert ({ maxParams := p.countP wildcard, priority := 1 } : Node α)
              (p.countP wildcard) name.getLast? [] p (some x)) :=
            ih p.length hshorter rfl literal_nil hshape (Or.inl rfl) rfl
          obtain ⟨m, hm, hfull⟩ := hbehind
          rw [hm]
          exact ⟨_, rfl, .one rfl (.one rfl hfull)⟩
      · obtain rfl : c = star := (wildcard_cases hc).resolve_left hcolon
        have hbehind := (hs.behind hl).resolve_left Shape.star_inv
        obtain ⟨hlast, name, hname, heq⟩ := hbehind
        obtain ⟨-, rfl⟩ := List.cons.inj heq
        have hseen : seen ≠ [] := fun h => by simp [h] at hlast
        have hpath : n.path = [] := hstand.resolve_right fun h => hseen h.1
        have htake := takeWhile_segment (t := []) hname.slash (Or.inl rfl)
        have hdrop := dropWhile_segment (t := []) hname.slash (Or.inl rfl)
        rw [List.append_nil] at htake hdrop
        have hany : rest.any wildcard = false := by
          rw [List.any_eq_false]
          exact fun d hd => by simp [hname.literal d hd]
        have hone : (((star :: rest).countP wildcard : Nat) : Int) = 1 := by
          rw [List.countP_cons_of_pos rfl, countP_literal hname.literal]
          rfl
        rw [childInsert_wildcard n hk before seen hc htake hdrop, hone]
        rw [if_neg (by simp [hany, hn, hname.ne]), if_neg hcolon, if_neg (by simp), if_neg (by simp [hpath]), hlast]
        simp only [Option.some_or, bne_self_eq_false, Bool.false_eq_true, if_false, List.isEmpty_iff, hseen]
        exact ⟨_, rfl, .one rfl (.one rfl (.leaf (by simp) (by simp)))⟩
    · have hc : wildcard c = false := by simpa using hc
      rw [childInsert_literal n hk before seen hc]
      have hpath : n.path = [] := hstand.resolve_right fun ⟨_, h⟩ => by
        simp [Option.some.inj h] at hc
      have hnext : Accepts (childInsert n (rest.countP wildcard) before (seen ++ [c]) rest (some x)) :=
        ih rest.length (by simp) hn (literal_append.mpr ⟨hl, by simpa using hc⟩) (by simpa using hs)
          (Or.inl hpath) rfl
      simpa [hc] using hnext

/-! ### One round -/

/-- The pattern can stand with all routes from the node on. -/
def Fits (path : Bytes) (n : Node α) : Prop := ∀ r ∈ routes n, coexist false path r.1 = true

theorem Fits.own {n : Node α} {rest : Bytes} (h : Fits (n.path ++ rest) n) (hl : Literal n.path)
    (hh : n.handler ≠ none) : coexist false rest [] = true := by
  obtain ⟨x, hx⟩ := Option.ne_none_iff_exists'.mp hh
  have := h (n.path ++ [], x) (mem_routes.mpr ⟨[], rfl, Or.inl ⟨rfl, hx⟩⟩)
  rwa [coexist_literal hl] at this

theorem Fits.child {n : Node α} {rest : Bytes} (h : Fits (n.path ++ rest) n) (hl : Literal n.path) {m : Node α}
    (hm : m ∈ n.children) : Fits rest m := by
  intro r hr
  have := h (n.path ++ r.1, r.2) (mem_routes.mpr ⟨r.1, rfl, Or.inr ⟨m, hm, hr⟩⟩)
  rwa [coexist_literal hl] at this

theorem Fits.weigh {path : Bytes} {n : Node α} (h : Fits path n) (k p : Int) :
    Fits path { n with maxParams := k, priority := p } := by
  rwa [Fits, routes_weigh]

/-- The path ends at the node. -/
theorem leaf_accepts {n : Node α} (hf : Full n) (hh : n.handler = none)
    (loop : Node α → Bytes → Option UInt8 → Int → Option α → Option (Bool × Node α))
    (before : Option UInt8) (k : Int) (x : α) : Accepts (addBelow loop n [] before k (some x)) := by
  rw [addBelow, hh]
  exact ⟨_, rfl, .leaf (by simp) hf.children⟩

/-- Other children in another order. -/
theorem Full.perm {n : Node α} {l : List (Node α)} (h : n.children.Perm l) (hne : l ≠ [])
    (hl : ∀ m ∈ l, Full m) : Full n :=
  .mk (Or.inr fun hnil => hne (by simpa [hnil] using h)) fun m hm => hl m (h.mem_iff.mp hm)

/-- The path goes on with a literal byte, at a node whose children are found by index bytes. -/
theorem edges_accepts {n : Node α} (h : Edges n) (hf : Full n) (hw : n.wildChild = false) {c : UInt8}
    {tail : Bytes} (hp : (c == slash && n.children.length == 1 && n.type == .param) = false)
    (hc : wildcard c = false) (hs : Shape (c :: tail)) (hfit : ∀ m ∈ n.children, Fits (c :: tail) m)
    {loop : Node α → Bytes → Option UInt8 → Int → Option α → Option (Bool × Node α)}
    {before : Option UInt8} {x : α}
    (hloop : ∀ child, c ∈ n.indices → Ok (.index c) child → height child < height n → Full child →
      Fits (c :: tail) child →
      Accepts (loop child (c :: tail) before ((c :: tail).countP wildcard) (some x))) :
    Accepts (addBelow loop n (c :: tail) before ((c :: tail).countP wildcard) (some x)) := by
  rw [addBelow]
  simp only [hw, Bool.false_eq_true, if_false, hp]
  rcases findIdx?_byte (s := n.indices) (c := c) with ⟨j, hj, hat⟩ | ⟨hj, hfree⟩
  · obtain ⟨children, indices, new, child, heq, hm, hok, hheight, -, -, ⟨m, k, p, hm', hchild⟩, hset, -⟩ :=
      h.descend hat
    rw [hj]
    simp only [heq, Option.bind_some, hm]
    have hmem := List.mem_of_getElem? hm'
    have hfull : Full child := (hf.children m hmem).congr (by rw [hchild]) (by rw [hchild])
    have hfits : Fits (c :: tail) child := hchild ▸ (hfit m hmem).weigh k p
    refine Accepts.child (fun m => { n with children := children.set new m, indices := indices })
      (hloop child (List.mem_of_getElem? hat) hok hheight hfull hfits) fun m' hm' => ?_
    refine .perm (hset m') ?_ fun y hy => ?_
    · rw [ne_eq, List.set_eq_nil_iff]
      exact List.ne_nil_of_mem hmem
    · rcases List.mem_or_eq_of_mem_set hy with hy | rfl
      · exact hf.children y hy
      · exact hm'
  · obtain ⟨indices, children, new, m, hfresh, heq, -, -, hset, -⟩ :=
      appendChild_eq h hc hfree (c :: tail) before ((c :: tail).countP wildcard) (some x)
    rw [hj]
    simp only [hc, Bool.false_eq_true, if_false]
    rw [heq]
    refine Accepts.child (fun m => { n with indices := indices, children := children.set new m })
      (childInsert_accepts hfresh.children literal_nil hs (Or.inl hfresh.path) x) fun m' hm' => ?_
    refine .perm (hset m') (by simp) fun y hy => ?_
    rcases List.mem_append.mp hy with hy | hy
    · exact hf.children y hy
    · rwa [List.mem_singleton.mp hy]

/-- The path goes on at a node without a wildcard child. -/
theorem static_accepts {slot : Slot} {n : Node α} (h : Ok slot n) (hf : Full n)
    (htype : n.type = .static ∨ n.type = .root) (hw : n.wildChild = false) {c : UInt8} {tail : Bytes}
    (hs : Shape (c :: tail)) (hfit : Fits (n.path ++ c :: tail) n)
    {loop : Node α → Bytes → Option UInt8 → Int → Option α → Option (Bool × Node α)}
    {before : Option UInt8} {x : α}
    (hloop : ∀ child, c ∈ n.indices → Ok (.index c) child → height child < height n → Full child →
      Fits (c :: tail) child →
      Accepts (loop child (c :: tail) before ((c :: tail).countP wildcard) (some x))) :
    Accepts (addBelow loop n (c :: tail) before ((c :: tail).countP wildcard) (some x)) := by
  have hparam : (c == slash && n.children.length == 1 && n.type == .param) = false := by
    rcases htype with ht | ht <;> simp [ht]
  cases h with
  | static starts type literal wild edges nodup len below =>
    have h : Edges n := ⟨edges, nodup, len, below⟩
    have hbelow : ∀ m ∈ n.children, Fits (c :: tail) m := fun m hm => hfit.child literal hm
    by_cases hc : wildcard c = true
    · -- it would have to stand next to what the children start with
      have hnone : n.children = [] := by
        by_contra hne
        obtain ⟨m, hm⟩ := List.exists_mem_of_ne_nil _ hne
        obtain ⟨d, -, hd, hhead⟩ := h.head hm
        obtain ⟨r, hr⟩ := (hf.children m hm).route
        obtain ⟨t, ht⟩ := List.head?_eq_some_iff.mp (hhead r hr)
        have := hbelow m hm r hr
        rw [ht, coexist_wildcard (by rintro rfl; simp [hc] at hd) hc] at this
        cases this
      have hcolon : c = colon := (wildcard_cases hc).resolve_right fun hstar => by
        subst hstar
        exact hs.star_inv
      subst hcolon
      have hj : n.indices.findIdx? (· == colon) = none := by
        have : n.indices = [] := by simpa [hnone] using len
        rw [this]
        rfl
      rw [addBelow]
      simp only [hw, Bool.false_eq_true, if_false, hparam, hj, wildcard_colon, if_true]
      exact childInsert_accepts hnone literal_nil hs (Or.inr ⟨rfl, rfl⟩) x
    · exact edges_accepts h hf hw hparam (by simpa using hc) hs hbelow hloop
  | wild _ _ _ wild => simp [wild] at hw
  | param type => simp [type] at htype
  | catchallFirst type => simp [type] at htype
  | catchall type => simp [type] at htype

/-- The path goes on with the parameter that the node has below it. -/
theorem wild_accepts {n m : Node α} (hf : Full n) (hw : n.wildChild = true) (hch : n.children = [m])
    (hm : Ok .param m) {c : UInt8} {tail : Bytes} (hs : Shape (c :: tail)) (hfit : Fits (c :: tail) m)
    {loop : Node α → Bytes → Option UInt8 → Int → Option α → Option (Bool × Node α)}
    {before : Option UInt8} {k : Int} {x : α}
    (hloop : ∀ child, Ok .param child → height child < height n → Full child → Fits (c :: tail) child →
      sameWildcard child.path (c :: tail) = true →
      Accepts (loop child (c :: tail) before (k - 1) (some x))) :
    Accepts (addBelow loop n (c :: tail) before k (some x)) := by
  have hfull : Full m := hf.children m (by simp [hch])
  have hsame : sameWildcard m.path (c :: tail) = true := by
    obtain ⟨name, hname, -, hmpath, -⟩ := hm.inv_param
    obtain ⟨⟨text, y⟩, hr⟩ := hfull.route
    obtain ⟨t, rfl, ht⟩ := mem_routes.mp hr
    have hco := hfit _ hr
    simp only [hmpath, List.cons_append] at hco
    obtain rfl : c = colon := by
      by_contra hne
      rw [coexist_comm, coexist_wildcard (Ne.symm hne) rfl] at hco
      cases hco
    obtain ⟨name', p, rfl, hname', hp, -⟩ := hs.param_inv
    rw [coexist, if_pos (beq_self_eq_true colon), Bool.and_eq_true] at hco
    obtain rfl := eq_of_coexist hname'.literal hname'.slash hname.literal hname.slash hp (hm.param_route ht) hco.2
    rw [hmpath, sameWildcard_iff (by simpa using hname.nul)]
    exact ⟨p, rfl, hp⟩
  rw [addBelow, if_pos hw, hch]
  obtain ⟨p, hp⟩ := noteParams_eq { m with priority := m.priority + 1 } k
  simp only [hp]
  rw [if_pos hsame]
  refine Accepts.child (fun m' => { n with children := [m'] })
    (hloop _ (hm.weigh p (m.priority + 1)) ?_ (hfull.congr rfl rfl) (hfit.weigh p _) hsame) fun m' hm' => ?_
  · exact Nat.lt_of_le_of_lt (Nat.le_of_eq (height_weigh m p (m.priority + 1))) (height_lt (by simp [hch]))
  · exact .one rfl hm'

/-- The path goes on behind a parameter. -/
theorem param_accepts {n : Node α} (h : Ok .param n) (hf : Full n) {tail : Bytes} (hs : Shape (slash :: tail))
    (hfit : ∀ m ∈ n.children, Fits (slash :: tail) m)
    {loop : Node α → Bytes → Option UInt8 → Int → Option α → Option (Bool × Node α)}
    {before : Option UInt8} {x : α}
    (hloop : ∀ child, Ok (.index slash) child → height child < height n → Full child →
      Fits (slash :: tail) child →
      Accepts (loop child (slash :: tail) before ((slash :: tail).countP wildcard) (some x))) :
    Accepts (addBelow loop n (slash :: tail) before ((slash :: tail).countP wildcard) (some x)) := by
  cases h with
  | static starts => exact starts.elim
  | wild starts => exact starts.elim
  | @param _ name type path hname wild edges few len below =>
    rcases hch : n.children with _ | ⟨m, _ | ⟨m', rest⟩⟩
    · have hi : n.indices = [] := by simpa [hch] using len
      have hedges : Edges n := ⟨by simp [hi], by simp [hi], by simp [hi, hch], by simp [hi]⟩
      exact edges_accepts hedges hf wild (by simp [hch]) rfl hs hfit fun child _ => hloop child
    · have hm : m ∈ n.children := by simp [hch]
      rw [addBelow, if_neg (by simp [wild]), if_pos (by simp [hch, type]), hch]
      refine Accepts.child (fun m' => { n with children := [m'] })
        (hloop _ ((below m hm).weigh m.maxParams (m.priority + 1)) ?_ ((hf.children m hm).congr rfl rfl)
          ((hfit m hm).weigh m.maxParams (m.priority + 1))) fun m' hm' => .one rfl hm'
      exact Nat.lt_of_le_of_lt (Nat.le_of_eq (height_weigh m m.maxParams (m.priority + 1))) (height_lt hm)
    · simp [hch] at few

/-! ### The loop -/

/-- What is left of a pattern that can stand with the node's routes is a pattern: its star would
stand next to them. -/
theorem Fits.shape {n : Node α} {l rest : Bytes} {t : Bytes} {x : α} (hl : Literal l)
    (hr : (l ++ t, x) ∈ routes n) (h : Fits (l ++ rest) n) (hs : Shape (l ++ rest)) : Shape rest := by
  refine (hs.behind hl).resolve_right ?_
  rintro ⟨-, name, -, rfl⟩
  have := h _ hr
  rw [coexist_literal hl, coexist_star] at this
  cases this

theorem split_accepts {slot : Slot} {n : Node α} {path : Bytes} {k : Int} (h : Ok slot n) (hf : Full n)
    (he : Enters slot n path k) (hs : Shape path) (hfit : Fits path n)
    (hi : commonPrefix path n.path < n.path.length)
    (loop : Node α → Bytes → Option UInt8 → Int → Option α → Option (Bool × Node α))
    (before : Option UInt8) (x : α) :
    Accepts (addBelow loop (split n path (commonPrefix path n.path))
      (path.drop (commonPrefix path n.path)) before k (some x)) := by
  have hslot := he.slot_of_split h hi
  have htake := take_commonPrefix path n.path
  obtain ⟨hok, hedges⟩ := split_ok h hi (by
    rcases hslot with rfl | ⟨c, rfl⟩
    · exact Or.inl rfl
    · exact Or.inr ⟨c, rfl, he.1⟩)
  obtain ⟨htype, hlit⟩ := h.inv_static hslot (fun hp => by simp [hp] at hi)
  have hlit' : Literal (path.take (commonPrefix path n.path)) := by
    rw [htake]
    exact literal_of_sublist (List.take_sublist _ _) hlit
  have hfull : Full (split n path (commonPrefix path n.path)) := .one rfl (hf.congr rfl rfl)
  have hwhole := List.take_append_drop (commonPrefix path n.path) path
  generalize hrest : path.drop (commonPrefix path n.path) = rest at *
  cases rest with
  | nil => exact leaf_accepts hfull rfl loop before k x
  | cons c tail =>
    have hk := Enters.expected (by rw [hwhole]; exact he) hslot hlit'
    have hfit' : Fits ((split n path (commonPrefix path n.path)).path ++ c :: tail)
        (split n path (commonPrefix path n.path)) := by
      show Fits (path.take _ ++ c :: tail) _
      rwa [Fits, hwhole, split_routes n htake]
    obtain ⟨⟨text, y⟩, hr⟩ := hfull.route
    obtain ⟨t, rfl, -⟩ := mem_routes.mp hr
    have hshape : Shape (c :: tail) :=
      Fits.shape (l := path.take (commonPrefix path n.path)) hlit' hr hfit' (hwhole.symm ▸ hs)
    rw [hk]
    refine static_accepts hok hfull htype rfl hshape hfit' fun child hc => ?_
    -- no index byte is the byte at which the path goes another way
    obtain ⟨d, below, hd⟩ : ∃ d below, n.path.drop (commonPrefix path n.path) = d :: below := by
      cases hdrop : n.path.drop (commonPrefix path n.path) with
      | nil => exact absurd (List.drop_eq_nil_iff.mp hdrop) (by omega)
      | cons d below => exact ⟨d, below, rfl⟩
    exact absurd (by simpa [split, hd] using hc) (drop_commonPrefix hrest hd)

theorem whole_accepts {slot : Slot} {n : Node α} {path rest : Bytes} {k : Int} (h : Ok slot n) (hf : Full n)
    (he : Enters slot n path k) (hs : Shape path) (hfit : Fits path n) (hpath : path = n.path ++ rest)
    {loop : Node α → Bytes → Option UInt8 → Int → Option α → Option (Bool × Node α)}
    (hloop : ∀ {slot : Slot} {child : Node α} {path : Bytes} {k : Int} (before : Option UInt8) (x : α),
      height child < height n → Ok slot child → Full child → Enters slot child path k → Shape path →
      Fits path child → Accepts (loop child path before k (some x)))
    (before : Option UInt8) (x : α) : Accepts (addBelow loop n rest before k (some x)) := by
  subst hpath
  cases rest with
  | nil =>
    refine leaf_accepts hf ?_ loop before k x
    by_contra hh
    obtain ⟨y, hy⟩ := Option.ne_none_iff_exists'.mp hh
    have := hfit (n.path ++ [], y) (mem_routes.mpr ⟨[], rfl, Or.inl ⟨rfl, hy⟩⟩)
    rw [coexist_self] at this
    cases this
  | cons c tail =>
    obtain ⟨⟨text, y⟩, hr⟩ := hf.route
    obtain ⟨t, rfl, -⟩ := mem_routes.mp hr
    cases hcase : h with
    | static starts type literal wild edges nodup len below =>
      have hshape := Fits.shape literal hr hfit hs
      rw [he.expected (starts.slot_cases) literal]
      exact static_accepts h hf type wild hshape hfit fun child hc hok hlt hfull hfit' =>
        hloop _ x hlt hok hfull ⟨rfl, edges c hc, rfl⟩ hshape hfit'
    | @wild _ _ m starts type literal wild edges children below =>
      have hshape := Fits.shape literal hr hfit hs
      rw [he.expected (starts.slot_cases) literal]
      refine wild_accepts hf wild children below hshape (hfit.child literal (by simp [children]))
        fun child hok hlt hfull hfit' hsame => ?_
      exact hloop _ x hlt hok hfull ⟨hsame, by omega⟩ hshape hfit'
    | @param _ name type path hname wild edges few len below =>
      obtain ⟨rest, heq, hend, hk⟩ := sameWildcard_whole h he (Or.inl rfl)
      obtain rfl : c :: tail = rest := List.append_cancel_left heq
      obtain rfl : c = slash := by simpa [AtSegmentEnd] using hend
      have hshape : Shape (slash :: tail) := by
        rw [path, List.cons_append] at hs
        exact hs.behind_param hname hend
      rw [hk]
      refine param_accepts h hf hshape (fun m hm r hr => ?_) fun child hok hlt hfull hfit' =>
        hloop _ x hlt hok hfull ⟨rfl, rfl, rfl⟩ hshape hfit'
      have := hfit (n.path ++ r.1, r.2) (mem_routes.mpr ⟨r.1, rfl, Or.inr ⟨m, hm, hr⟩⟩)
      simp only [path, List.cons_append] at this
      rwa [coexist_param hname hend (Or.inr ((below m hm).route_head hr))] at this
    | @catchallFirst _ m type hnil wild handler edges children below =>
      -- every pattern that comes here would stand next to the catch-all
      obtain ⟨name, hname, -, hmpath, -⟩ := below.inv_catchall
      obtain ⟨⟨text, z⟩, hr'⟩ := (hf.children m (by simp [children])).route
      obtain ⟨t', rfl, -⟩ := mem_routes.mp hr'
      have := hfit (n.path ++ (m.path ++ t'), z) (mem_routes.mpr ⟨_, rfl, Or.inr ⟨m, by simp [children], hr'⟩⟩)
      rw [hnil, hmpath, List.nil_append] at this
      have hcatch := coexist_catchall he.1 (name ++ t')
      rw [hnil] at hcatch
      exact absurd (this.symm.trans hcatch) (by decide)
    | @catchall _ name type path hname wild handler edges nodup len below =>
      obtain ⟨rest, heq, hend, -⟩ := sameWildcard_whole h he (Or.inr rfl)
      obtain rfl : c :: tail = rest := List.append_cancel_left heq
      obtain rfl : c = slash := by simpa [AtSegmentEnd] using hend
      rw [path, List.cons_append, List.cons_append] at hs
      exact absurd (List.mem_cons_self ..) hs.behind_catchall

theorem addLoop_accepts (fuel : Nat) {slot : Slot} {n : Node α} {path : Bytes} {k : Int}
    (hfuel : height n < fuel) (h : Ok slot n) (hf : Full n) (he : Enters slot n path k) (hs : Shape path)
    (hfit : Fits path n) (before : Option UInt8) (x : α) :
    Accepts (addLoop fuel n path before k (some x)) := by
  induction fuel generalizing slot n path k before x with
  | zero => omega
  | succ fuel ih =>
    rw [addLoop]
    obtain ⟨m, hm⟩ := noteParams_eq n k
    generalize noteParams n k = noted at hm ⊢
    have hok : Ok slot noted := hm ▸ h.weigh m n.priority
    have hheight : height noted = height n := hm ▸ height_weigh n m n.priority
    have hfull : Full noted := hf.congr (by rw [hm]) (by rw [hm])
    have hfit' : Fits path noted := hm ▸ hfit.weigh m n.priority
    have henters : Enters slot noted path k := by
      rw [hm]
      cases slot <;> exact he
    by_cases hi : commonPrefix path noted.path < noted.path.length
    · rw [if_pos hi]
      exact split_accepts hok hfull henters hs hfit' hi _ _ x
    · rw [if_neg hi]
      obtain ⟨rest, hpath, hdrop, -⟩ := commonPrefix_whole hi
      rw [hdrop]
      exact whole_accepts hok hfull henters hs hfit' hpath
        (fun before x hlt hok hf he hs hfit => ih (by omega) hok hf he hs hfit before x) _ x

/-- **A pattern that can stand with the routes of a tree is accepted.** -/
theorem add_accepts {n : Node α} (h : Ok .root n) (hf : Full n ∨ (n.path = [] ∧ n.children = []))
    {path : Bytes} (hw : WellFormed path) (hfit : Fits path n) (x : α) : Accepts (add n path (some x)) := by
  rw [add, countParams_eq hw.few]
  dsimp only
  split
  · next hempty =>
    have hpath := List.length_eq_zero_iff.mp hempty.1
    exact childInsert_accepts (n := { n with type := .root, priority := n.priority + 1 })
      (List.length_eq_zero_iff.mp hempty.2) literal_nil hw.shape (Or.inl hpath) x
  · next hfull =>
    have hf : Full n := hf.resolve_right fun hempty =>
      hfull ⟨List.length_eq_zero_iff.mpr hempty.1, List.length_eq_zero_iff.mpr hempty.2⟩
    have hfuel : height { n with priority := n.priority + 1 } < 2 * height { n with priority := n.priority + 1 } + 2 := by
      omega
    refine addLoop_accepts _ hfuel (h.weigh n.maxParams (n.priority + 1)) (hf.congr rfl rfl)
      ⟨hw.ne, fun hp hc => hfull ⟨List.length_eq_zero_iff.mpr hp, List.length_eq_zero_iff.mpr hc⟩, rfl⟩
      hw.shape (hfit.weigh n.maxParams (n.priority + 1)) none x

theorem addAll_accepts {pairs : List (Bytes × α)} {n : Node α} (h : Ok .root n)
    (hf : Full n ∨ (n.path = [] ∧ n.children = [])) (hwf : ∀ p ∈ pairs, WellFormed p.1)
    (hfit : ∀ p ∈ pairs, Fits p.1 n) (hpair : pairs.Pairwise fun p q => coexist false p.1 q.1 = true) :
    ∃ tree, addAll n pairs = some (tree, pairs) := by
  induction pairs generalizing n with
  | nil => exact ⟨n, rfl⟩
  | cons p pairs ih =>
    obtain ⟨path, x⟩ := p
    have hw := hwf (path, x) (List.mem_cons_self ..)
    obtain ⟨n', hadd, hfull⟩ := add_accepts h hf hw (hfit (path, x) (List.mem_cons_self ..)) x
    obtain ⟨hok, hroutes⟩ := add_spec h hw.ne hw.nul hw.few hadd
    obtain ⟨hhead, htail⟩ := List.pairwise_cons.mp hpair
    have hfit' : ∀ q ∈ pairs, Fits q.1 n' := fun q hq r hr => by
      rcases List.mem_cons.mp (hroutes.mem_iff.mp hr) with rfl | hr
      · rw [coexist_comm]
        exact hhead q hq
      · exact hfit q (List.mem_cons_of_mem _ hq) r hr
    obtain ⟨tree, hrest⟩ := ih hok (Or.inl hfull) (fun q hq => hwf q (List.mem_cons_of_mem _ hq)) hfit' htail
    exact ⟨tree, by simp [addAll, hadd, hrest]⟩

/-! ### Looking up in two trees -/

/-- The handler that has been found, if it is one, with its parameters. -/
def Lookup.result (l : Lookup α) : Option (α × List Param) :=
  if l.found then l.handler.map fun x => (x, l.params) else none

theorem result_eq_some {l : Lookup α} {x : α} {b : List Param} :
    l.result = some (x, b) ↔ l = ⟨true, some x, b⟩ := by
  obtain ⟨found, handler, params⟩ := l
  cases found <;> cases handler <;> simp [Lookup.result]

/-- What is found is told by the routes alone. -/
theorem find_iff {n : Node α} (h : Ok .root n) {path : Bytes} (hnul : (0 : UInt8) ∉ path) {k : Nat}
    {x : α} {b : List Param} {y : Option α} :
    find n path k [] y = some ⟨true, some x, b⟩ ↔
      ∃ pattern, (pattern, x) ∈ routes n ∧ Instance pattern path b ∧ Ended pattern b ∧ b.length ≤ k := by
  constructor
  · intro hfind
    obtain ⟨pattern, b', hr, hi, he, rfl, hk⟩ := find_sound h (Or.inl rfl) hnul (Nat.zero_le k) hfind
    exact ⟨pattern, hr, hi, he, hk⟩
  · rintro ⟨pattern, hr, hi, he, hk⟩
    have hroom : ([] : List Param).length + b.length ≤ k := by simpa using hk
    simpa using find_complete h (Or.inl rfl) hr hi he hnul hroom y

theorem find_perm {n n' : Node α} (h : Ok .root n) (h' : Ok .root n') (hr : (routes n).Perm (routes n'))
    {path : Bytes} (hnul : (0 : UInt8) ∉ path) (k : Nat) (y : Option α) :
    ∃ result, (find n path k [] y).map Lookup.result = some result ∧
      (find n' path k [] y).map Lookup.result = some result := by
  have hroom : ([] : List Param).length ≤ k := Nat.zero_le k
  obtain ⟨l, hl, -⟩ := find_spec h (Or.inl rfl) hnul hroom y
  obtain ⟨l', hl', -⟩ := find_spec h' (Or.inl rfl) hnul hroom y
  refine ⟨l.result, by rw [hl]; rfl, ?_⟩
  rw [hl', Option.map_some, Option.some.injEq]
  apply Option.ext
  rintro ⟨x, b⟩
  have hiff : find n path k [] y = some ⟨true, some x, b⟩ ↔ find n' path k [] y = some ⟨true, some x, b⟩ := by
    rw [find_iff h hnul, find_iff h' hnul]
    simp only [hr.mem_iff]
  rw [hl, hl', Option.some.injEq, Option.some.injEq] at hiff
  rw [result_eq_some, result_eq_some, hiff]

end PgRest.Rtree
