import PgRest.Rtree.Invariant

/-! What adding a path does to a tree: every node stays well placed, and the
routes are those from before and, if the add was accepted, the new one. -/
namespace PgRest.Rtree
open Lib

variable {α : Type}

/-! ### Changing one node -/

/-- The children of a node and the bytes they are found by. -/
structure Edges (n : Node α) : Prop where
  edges : Literal n.indices
  nodup : n.indices.Nodup
  len : n.indices.length = n.children.length
  below : ∀ (j : Nat) c m, n.indices[j]? = some c → n.children[j]? = some m → Ok (.index c) m

/-- Priorities and parameter counts do not matter to the shape of a tree. -/
theorem Ok.weigh {slot : Slot} {n : Node α} (h : Ok slot n) (k p : Int) :
    Ok slot { n with maxParams := k, priority := p } := by
  cases h with
  | static starts type literal wild edges nodup len below =>
    refine .static ?_ type literal wild edges nodup len below
    cases slot <;> exact starts
  | wild starts type literal wild edges children below =>
    refine .wild ?_ type literal wild edges children below
    cases slot <;> exact starts
  | param type path name wild edges few len below =>
    exact .param type path name wild edges few len below
  | catchallFirst type path wild handler edges children below =>
    exact .catchallFirst type path wild handler edges children below
  | catchall type path name wild handler edges nodup len below =>
    exact .catchall type path name wild handler edges nodup len below

@[simp] theorem routes_weigh (n : Node α) (k p : Int) :
    routes { n with maxParams := k, priority := p } = routes n := by
  simp only [routes_eq]

@[simp] theorem height_weigh (n : Node α) (k p : Int) :
    height { n with maxParams := k, priority := p } = height n := by
  obtain ⟨_, _, _, _, _, _, _, _⟩ := n
  rfl

/-- What the children gain, the node gains behind its own path. -/
theorem routes_gain {n n' : Node α} {gained : List (Bytes × α)} (hp : n'.path = n.path)
    (hh : n'.handler = n.handler)
    (h : (n'.children.flatMap routes).Perm (gained ++ n.children.flatMap routes)) :
    (routes n').Perm (under n.path gained ++ routes n) := by
  rw [routes_eq n', routes_eq n, hp, hh, ← under_append]
  apply under_perm
  have hswap : (own n.handler ++ (gained ++ n.children.flatMap routes)).Perm
      (gained ++ (own n.handler ++ n.children.flatMap routes)) := by
    rw [← List.append_assoc, ← List.append_assoc]
    exact List.perm_append_comm.append_right _
  exact (h.append_left _).trans hswap

theorem Edges.set {n : Node α} (h : Edges n) {j : Nat} {c : UInt8} {m : Node α}
    (hc : n.indices[j]? = some c) (hm : Ok (.index c) m) :
    Edges { n with children := n.children.set j m } := by
  refine ⟨h.edges, h.nodup, by simpa using h.len, fun k d m' hd hm' => ?_⟩
  simp only at hd hm'
  by_cases hk : k = j
  · subst hk
    obtain ⟨hlt, _⟩ := List.getElem?_eq_some_iff.mp hm'
    rw [List.getElem?_set_self (by simpa using hlt)] at hm'
    cases hm'
    cases hc.symm.trans hd
    exact hm
  · rw [List.getElem?_set_ne (Ne.symm hk)] at hm'
    exact h.below k d m' hd hm'

theorem Edges.push {n : Node α} (h : Edges n) {c : UInt8} {m : Node α} (hc : wildcard c = false)
    (hfree : c ∉ n.indices) (hm : Ok (.index c) m) :
    Edges { n with indices := n.indices ++ [c], children := n.children ++ [m] } := by
  refine ⟨literal_append.mpr ⟨h.edges, by simpa using hc⟩, ?_, by simpa using h.len, ?_⟩
  · rw [List.nodup_append]
    refine ⟨h.nodup, by simp, ?_⟩
    rintro a ha b hb rfl
    exact hfree (by simpa using List.mem_singleton.mp hb ▸ ha)
  · intro k d m' hd hm'
    simp only at hd hm'
    rcases Nat.lt_or_ge k n.indices.length with hk | hk
    · rw [List.getElem?_append_left hk] at hd
      rw [List.getElem?_append_left (by rw [← h.len]; exact hk)] at hm'
      exact h.below k d m' hd hm'
    · rw [List.getElem?_append_right hk] at hd
      rw [List.getElem?_append_right (by rw [← h.len]; exact hk), ← h.len] at hm'
      obtain ⟨hlt, hd⟩ := List.getElem?_eq_some_iff.mp hd
      obtain ⟨_, hm'⟩ := List.getElem?_eq_some_iff.mp hm'
      simp only [List.length_cons, List.length_nil] at hlt
      have hz : k - n.indices.length = 0 := by omega
      simp only [hz, List.getElem_cons_zero] at hd hm'
      subst hd hm'
      exact hm

/-- The child at index byte `c` comes forward; whatever is then put in its place
under the same byte, the node's edges are in order and the other routes unchanged. -/
theorem Edges.descend {n : Node α} (h : Edges n) {j : Nat} {c : UInt8} (hc : n.indices[j]? = some c) :
    ∃ children indices new child, childPriority n j =
        some ({ n with children := children, indices := indices }, new) ∧
      children[new]? = some child ∧ Ok (.index c) child ∧ height child < height n ∧
      indices.Perm n.indices ∧ children.length = n.children.length ∧
      (∃ m k p, n.children[j]? = some m ∧ child = { m with maxParams := k, priority := p }) ∧
      (∀ m, (children.set new m).Perm (n.children.set j m)) ∧ ∀ m, Ok (.index c) m →
        Edges { n with children := children.set new m, indices := indices } ∧
        ∀ gained, (routes m).Perm (gained ++ routes child) →
          ((children.set new m).flatMap routes).Perm (gained ++ n.children.flatMap routes) := by
  obtain ⟨hj, _⟩ := List.getElem?_eq_some_iff.mp hc
  have hjm : j < n.children.length := h.len ▸ hj
  have hm : n.children[j]? = some n.children[j] := List.getElem?_eq_getElem hjm
  generalize n.children[j] = m at hm
  obtain ⟨new, hnew, heq⟩ := childPriority_spec n hm hc
  let child : Node α := { m with priority := m.priority + 1 }
  have hlen : j < (n.children.set j child).length := by simpa using hjm
  have hat : (moveTo (n.children.set j child) j new)[new]? = some child := by
    rw [getElem?_moveTo _ hnew hlen, if_pos rfl, List.getElem?_set_self hjm]
  have hok : Ok (.index c) child := (h.below j c m hc hm).weigh m.maxParams (m.priority + 1)
  have hset := h.set hc hok
  have hperm : ((moveTo (n.children.set j child) j new).flatMap routes).Perm (n.children.flatMap routes) := by
    refine ((moveTo_perm _ hnew hlen).flatMap_right _).trans ?_
    refine flatMap_set_perm (e := []) hm ?_
    simp only [List.nil_append]
    exact List.Perm.of_eq (routes_weigh m m.maxParams (m.priority + 1))
  refine ⟨_, _, new, child, heq, hat, hok, ?_, moveTo_perm _ hnew hj, ?_, ⟨m, _, _, hm, rfl⟩, ?_, ?_⟩
  · exact Nat.lt_of_le_of_lt (Nat.le_of_eq (height_weigh m m.maxParams (m.priority + 1)))
      (height_lt (List.mem_of_getElem? hm))
  · rw [length_moveTo _ hnew hlen, List.length_set]
  · intro m'
    rw [← moveTo_set _ hnew hlen, List.set_set]
    exact moveTo_perm _ hnew (by simpa using hjm)
  · intro m' hm'
    have hmoved : Edges { n with
        children := moveTo (n.children.set j child) j new, indices := moveTo n.indices j new } := by
      refine ⟨fun d hd => h.edges d ((moveTo_perm _ hnew hj).subset hd),
        (moveTo_perm _ hnew hj).nodup_iff.mpr h.nodup, ?_, fun k d x hd hx => ?_⟩
      · simp only
        rw [length_moveTo _ hnew hj, length_moveTo _ hnew hlen, List.length_set, h.len]
      · obtain ⟨i, hd, hx⟩ := moveTo_pairs hnew hj hlen hd hx
        exact hset.below i d x hd hx
    have hnc : (moveTo n.indices j new)[new]? = some c := by
      rw [getElem?_moveTo _ hnew hj, if_pos rfl, hc]
    refine ⟨hmoved.set hnc hm', fun gained hg => ?_⟩
    exact (flatMap_set_perm hat hg).trans (hperm.append_left _)

/-! ### Inserting below a node -/

/-- A node that has just been made. -/
structure Fresh (n : Node α) : Prop where
  path : n.path = []
  type : n.type = .static ∨ n.type = .root
  handler : n.handler = none
  wild : n.wildChild = false
  indices : n.indices = []
  children : n.children = []

/-- The slot can hold a node for this text. -/
def Slot.Takes : Slot → Bytes → Prop
  | .root, text => text ≠ []
  | .index c, text => text.head? = some c ∧ wildcard c = false
  | _, _ => False

theorem Fresh.routes {n : Node α} (h : Fresh n) : routes n = [] := by
  rw [routes_eq, h.handler, h.children, h.path]
  rfl

/-- A node with a text of its own but no children yet. -/
theorem Fresh.static {slot : Slot} {n : Node α} (h : Fresh n) {text : Bytes} (ht : slot.Takes text)
    (hl : Literal text) (x : Option α) : Ok slot { n with path := text, handler := x } := by
  refine .static ?_ h.type hl h.wild (by simp [h.indices]) (by simp [h.indices])
    (by simp [h.indices, h.children]) (by simp [h.indices])
  cases slot with
  | root => exact fun hp => absurd hp ht
  | index c => exact Or.inl ht.1
  | param => exact ht
  | catchall => exact ht

theorem Fresh.ok {slot : Slot} {n : Node α} (h : Fresh n) (hs : Starts n slot) : Ok slot n :=
  .static hs h.type (by simp [h.path]) h.wild (by simp [h.indices]) (by simp [h.indices])
    (by simp [h.indices, h.children]) (by simp [h.indices])

theorem Fresh.ok_index {n : Node α} (h : Fresh n) {c : UInt8} : Ok (.index c) n :=
  h.ok (Or.inr ⟨h.path, h.handler, h.wild, by simp [h.indices]⟩)

/-- Where the scan of `pgrest_rtree_child_insert` stands: at a new node with `seen`
read, or at an old one with a wildcard to come. -/
structure Ready (slot : Slot) (n : Node α) (seen text : Bytes) : Prop where
  ok : Ok slot n
  type : n.type = .static ∨ n.type = .root
  wild : n.wildChild = false
  takes : slot.Takes (n.path ++ (seen ++ text))
  literal : Literal seen
  nul : (0 : UInt8) ∉ seen ++ text
  stand : Fresh n ∨ (seen = [] ∧ ∃ c rest, text = c :: rest ∧ wildcard c = true)

theorem Ready.edges {slot : Slot} {n : Node α} {seen text : Bytes} (h : Ready slot n seen text) :
    Edges n ∧ Literal n.path := by
  cases h.ok with
  | static _ _ literal _ edges nodup len below => exact ⟨⟨edges, nodup, len, below⟩, literal⟩
  | wild _ _ _ wild => exact absurd (h.wild.symm.trans wild) (by decide)
  | param type => exact absurd h.type (by simp [type])
  | catchallFirst type => exact absurd h.type (by simp [type])
  | catchall type => exact absurd h.type (by simp [type])

/-- The node in front of a wildcard takes what has been read as its path. -/
theorem Ready.path_eq {slot : Slot} {n : Node α} {seen text : Bytes} (h : Ready slot n seen text) :
    (if seen.isEmpty then n else { n with path := seen }) = { n with path := n.path ++ seen } := by
  obtain ⟨path, _, _, _, _, _, _, _⟩ := n
  rcases h.stand with hf | ⟨rfl, _⟩
  · have hp : path = [] := hf.path
    cases seen <;> simp [hp]
  · simp

/-- A parameter node below the node that stands in front of it. -/
theorem Ready.hang {slot : Slot} {n p : Node α} {seen rest : Bytes} {c : UInt8}
    (h : Ready slot n seen (c :: rest)) (hc : wildcard c = true) (hn : n.children = [])
    (hp : Ok .param p) (gained : List (Bytes × α)) (hr : (routes p).Perm gained) :
    Ok slot { n with path := n.path ++ seen, children := [p], wildChild := true } ∧
      (routes { n with path := n.path ++ seen, children := [p], wildChild := true }).Perm
        (under (n.path ++ seen) gained ++ routes n) := by
  obtain ⟨hedges, hlit⟩ := h.edges
  constructor
  · have hi : n.indices = [] := by simpa [hn] using hedges.len
    refine .wild ?_ h.type (literal_append.mpr ⟨hlit, h.literal⟩) rfl hi rfl hp
    have ht := h.takes
    cases slot with
    | root =>
      intro hnil
      rcases h.stand with hf | ⟨rfl, _⟩
      · exact hf.handler
      · cases h.ok with
        | static starts => exact starts (List.append_eq_nil_iff.mp hnil).1
        | wild starts => exact starts (List.append_eq_nil_iff.mp hnil).1
    | index d =>
      refine Or.inl ?_
      obtain ⟨hd, hw⟩ := ht
      rw [← List.append_assoc] at hd
      cases hs : n.path ++ seen with
      | nil =>
        rw [hs] at hd
        simp only [List.nil_append, List.head?_cons, Option.some.injEq] at hd
        rw [← hd, hc] at hw
        cases hw
      | cons e s => simpa [hs] using hd
    | param => exact ht
    | catchall => exact ht
  · rw [routes_eq]
    simp only [List.flatMap_cons, List.flatMap_nil, List.append_nil, under_append]
    have hown : under (n.path ++ seen) (own n.handler) = routes n := by
      rcases h.stand with hf | ⟨rfl, _⟩
      · rw [hf.handler, hf.routes]
        rfl
      · rw [routes_eq, hn, List.append_nil]
        simp
    rw [hown]
    exact List.perm_append_comm.trans ((under_perm _ hr).append_right _)

/-- The two nodes of a catch-all, below the node that stands in front of its slash. -/
def catchallBelow (n : Node α) (path text : Bytes) (x : Option α) : Node α :=
  { n with
    path := path, indices := [slash]
    children :=
      [{ wildChild := true, type := .catchall, maxParams := 1, priority := 1
         children := [{ type := .catchall, maxParams := 1, handler := x, priority := 1
                        path := slash :: text }] }] }

theorem catchallBelow_spec {slot : Slot} {n : Node α} {seen name : Bytes} {x : α} (hf : Fresh n)
    (hl : Literal seen) (ht : slot.Takes (seen ++ slash :: star :: name)) (hname : NameOk name) :
    Ok slot (catchallBelow n seen (star :: name) (some x)) ∧
      routes (catchallBelow n seen (star :: name) (some x)) = [(seen ++ slash :: star :: name, x)] := by
  constructor
  · refine .static ?_ hf.type hl hf.wild (by simp [catchallBelow]) (by simp [catchallBelow]) rfl ?_
    · cases slot with
      | root => exact fun _ => hf.handler
      | index c =>
        obtain ⟨hc, hw⟩ := ht
        cases seen with
        | nil =>
          simp only [List.nil_append, List.head?_cons, Option.some.injEq] at hc
          exact Or.inr ⟨rfl, hf.handler, hf.wild, by simp [catchallBelow, hc]⟩
        | cons d s => exact Or.inl hc
      | param => exact ht
      | catchall => exact ht
    · intro j c m hj hm
      obtain ⟨hlt, _⟩ := List.getElem?_eq_some_iff.mp hj
      obtain rfl : j = 0 := by simpa [catchallBelow] using hlt
      simp only [catchallBelow, List.getElem?_cons_zero, Option.some.injEq] at hj hm
      subst hj hm
      exact .catchallFirst rfl rfl rfl rfl rfl rfl
        (.catchall rfl rfl hname rfl (by simp) (by simp) (by simp) rfl (by simp))
  · simp [catchallBelow, routes_eq, hf.handler]

/-! ### `pgrest_rtree_child_insert` -/

theorem childInsert_leaf (n : Node α) (before : Option UInt8) (seen : Bytes) {text : Bytes}
    (hl : Literal text) (x : Option α) :
    childInsert n (text.countP wildcard) before seen text x =
      some (true, { n with path := seen ++ text, handler := x }) := by
  rw [childInsert.eq_def, countP_literal hl]
  rfl

theorem childInsert_literal (n : Node α) {k : Int} (hk : 0 < k) (before : Option UInt8) (seen : Bytes)
    {c : UInt8} (hc : wildcard c = false) (rest : Bytes) (x : Option α) :
    childInsert n k before seen (c :: rest) x = childInsert n k before (seen ++ [c]) rest x := by
  rw [childInsert, if_neg (by omega)]
  simp [hc]

theorem literal_of_any {s : Bytes} (h : s.any wildcard = false) : Literal s := fun c hc => by
  have := List.any_eq_false.mp h c hc
  simpa using this

/-- The name that starts behind a wildcard byte. -/
theorem nameOk_of_segment {rest : Bytes} (hw : (rest.takeWhile (· != slash)).any wildcard = false)
    (hne : rest.takeWhile (· != slash) ≠ []) (hnul : (0 : UInt8) ∉ rest) :
    NameOk (rest.takeWhile (· != slash)) where
  ne := hne
  literal := literal_of_any hw
  slash hs := by simpa using List.mem_takeWhile_imp hs
  nul hz := hnul ((List.takeWhile_prefix _).subset hz)

theorem atSegmentEnd_dropWhile (rest : Bytes) : AtSegmentEnd (rest.dropWhile (· != slash)) := by
  cases h : rest.dropWhile (· != slash) with
  | nil => exact Or.inl rfl
  | cons c s =>
    have := List.head_dropWhile_not (· != slash) (l := rest) (by simp [h])
    simp only [h, List.head_cons, bne_eq_false_iff_eq] at this
    exact Or.inr (by rw [this, List.head?_cons])

/-- No wildcard is left in the segment of a name. -/
theorem countP_segment {rest : Bytes} (hw : (rest.takeWhile (· != slash)).any wildcard = false) :
    rest.countP wildcard = (rest.dropWhile (· != slash)).countP wildcard := by
  conv_lhs => rw [← List.takeWhile_append_dropWhile (p := (· != slash)) (l := rest)]
  rw [List.countP_append, countP_literal (literal_of_any hw), Nat.zero_add]

/-- A parameter node with what follows it. -/
theorem param_ok {name : Bytes} (hname : NameOk name) (below : List (Node α)) (h1 : below.length ≤ 1)
    (hb : ∀ m ∈ below, Ok (.index slash) m) (k : Int) (x : Option α) :
    Ok .param ({ type := .param, maxParams := k, priority := 1, path := colon :: name
                 children := below, handler := x } : Node α) :=
  .param rfl rfl hname rfl (Or.inl rfl) h1 (Nat.zero_le _) hb

/-- What `pgrest_rtree_child_insert` does at a wildcard byte. -/
theorem childInsert_wildcard (n : Node α) {k : Int} (hk : 0 < k) (before : Option UInt8) (seen : Bytes)
    {c : UInt8} (hc : wildcard c = true) {rest name after : Bytes}
    (hname : rest.takeWhile (· != slash) = name) (hafter : rest.dropWhile (· != slash) = after)
    (x : Option α) :
    childInsert n k before seen (c :: rest) x =
      if name.any wildcard || !n.children.isEmpty || name.isEmpty then some (false, n)
      else if c = colon then
        let n := if seen.isEmpty then n else { n with path := seen }
        let param : Node α := { type := .param, maxParams := k, priority := 1 }
        if after.isEmpty then
          (childInsert param (k - 1) before (c :: name) [] x).map fun (ok, param) =>
            (ok, { n with children := [param], wildChild := true })
        else
          (childInsert { maxParams := k - 1, priority := 1 } (k - 1) name.getLast? [] after x).map
            fun (ok, child) =>
              (ok, { n with children := [{ param with path := c :: name, children := [child] }]
                            wildChild := true })
      else if !after.isEmpty || k > 1 then some (false, n)
      else if n.path.getLast? = some slash then some (false, n)
      else
        match seen.getLast?.or before with
        | none => none
        | some b =>
          if b != slash then some (false, n)
          else if seen.isEmpty then none
          else some (true, catchallBelow n seen.dropLast (c :: rest) x) := by
  rw [childInsert, if_neg (by omega)]
  simp only [hc, hname, hafter, Bool.not_true, Bool.false_eq_true, if_false, beq_iff_eq]
  rfl

theorem childInsert_spec {slot : Slot} {n : Node α} {seen text : Bytes} (h : Ready slot n seen text)
    (before : Option UInt8) {x : α} {ok : Bool} {n' : Node α}
    (he : childInsert n (text.countP wildcard) before seen text (some x) = some (ok, n')) :
    Ok slot n' ∧ (routes n').Perm (gain ok (n.path ++ (seen ++ text)) x ++ routes n) := by
  induction hlen : text.length using Nat.strongRecOn
    generalizing slot n seen text before ok n' with
  | ind len ih =>
  subst hlen
  by_cases hl : Literal text
  · -- no wildcard is left: the node becomes a leaf
    rw [childInsert_leaf _ _ _ hl] at he
    cases he
    rcases h.stand with hf | ⟨_, c, rest, rfl, hc⟩
    · have ht := h.takes
      rw [hf.path, List.nil_append] at ht
      refine ⟨hf.static ht (literal_append.mpr ⟨h.literal, hl⟩) _, ?_⟩
      simp [routes_eq, hf.children, hf.path, hf.handler]
    · simp [hc] at hl
  have hk : 0 < (text.countP wildcard : Int) := by
    have := mt literal_iff_countP.mp hl
    omega
  cases text with
  | nil => simp at hl
  | cons c rest =>
    by_cases hc : wildcard c = true
    · generalize hname : rest.takeWhile (· != slash) = name at *
      generalize hafter : rest.dropWhile (· != slash) = after at *
      rw [childInsert_wildcard n hk before seen hc hname hafter] at he
      have hstay : Ok slot n ∧ (routes n).Perm (gain false (n.path ++ (seen ++ c :: rest)) x ++ routes n) :=
        ⟨h.ok, List.Perm.refl _⟩
      have hrest : rest = name ++ after := by rw [← hname, ← hafter, List.takeWhile_append_dropWhile]
      split at he
      · cases he
        exact hstay
      next hgood =>
      simp only [Bool.or_eq_true, not_or, Bool.not_eq_true, Bool.not_eq_false', List.isEmpty_iff] at hgood
      obtain ⟨⟨hwild, hn⟩, hne⟩ := hgood
      have hnul : (0 : UInt8) ∉ rest := fun hz => h.nul (by simp [hz])
      have hnameOk : NameOk name := hname ▸ nameOk_of_segment (hname ▸ hwild)
        (by rw [hname]; simpa [List.isEmpty_eq_false_iff] using hne) hnul
      have hcount : rest.countP wildcard = after.countP wildcard :=
        hafter ▸ countP_segment (hname ▸ hwild)
      have hk1 : (((c :: rest).countP wildcard : Nat) : Int) - 1 = after.countP wildcard := by
        rw [List.countP_cons_of_pos hc, hcount]
        omega
      split at he
      · next hcolon =>
        subst hcolon
        rw [h.path_eq] at he
        split at he
        · -- the parameter is the last of the pattern
          next hempty =>
          obtain rfl : after = [] := by simpa using hempty
          dsimp only at he
          rw [hk1, childInsert_leaf _ _ _ literal_nil] at he
          cases he
          have := h.hang hc hn (param_ok (α := α) hnameOk [] (Nat.zero_le 1) (by simp)
            ((colon :: rest).countP wildcard) (some x)) _ (List.Perm.refl _)
          have hname : name = rest := by rw [hrest, List.append_nil]
          simpa [routes_eq, List.append_assoc, hname] using this
        · next hafterne =>
          have hslash : after.head? = some slash := by
            rcases atSegmentEnd_dropWhile rest with hd | hd
            · simp [← hafter, hd] at hafterne
            · rw [← hafter, hd]
          dsimp only at he
          rw [hk1] at he
          obtain ⟨⟨_, child⟩, hchild, heq⟩ := Option.map_eq_some_iff.mp he
          obtain ⟨rfl, rfl⟩ := Prod.mk.inj heq
          have hfresh : Fresh ({ maxParams := (after.countP wildcard : Int), priority := 1 } : Node α) :=
            ⟨rfl, Or.inl rfl, rfl, rfl, rfl, rfl⟩
          have hready : Ready (.index slash)
              ({ maxParams := (after.countP wildcard : Int), priority := 1 } : Node α) [] after :=
            { ok := hfresh.ok_index
              type := Or.inl rfl
              wild := rfl
              takes := ⟨hslash, rfl⟩
              literal := literal_nil
              nul := fun hz => hnul (by rw [hrest]; exact List.mem_append_right _ hz)
              stand := Or.inl hfresh }
          obtain ⟨hok, hperm⟩ := ih after.length (by rw [hrest, List.length_cons, List.length_append]; omega) hready _
            hchild rfl
          rw [hfresh.routes, List.append_nil, hfresh.path] at hperm
          have hbelow := param_ok hnameOk [child] (Nat.le_refl 1)
            (by simpa using hok) ((colon :: rest).countP wildcard) none
          have := h.hang hc hn hbelow (gain _ (colon :: rest) x) (by
            rw [routes_eq, hrest]
            simpa [under_gain] using under_perm (colon :: name) hperm)
          simpa [under_gain, List.append_assoc] using this
      · next hcolon =>
        obtain rfl : c = star := (wildcard_cases hc).resolve_left hcolon
        split at he
        · cases he
          exact hstay
        next hlast =>
        split at he
        · cases he
          exact hstay
        split at he
        · cases he
        next b hb =>
        split at he
        · cases he
          exact hstay
        next hslash =>
        split at he
        · cases he
        next hseen =>
        cases he
        simp only [Bool.or_eq_true, not_or, Bool.not_eq_true, Bool.not_eq_false', List.isEmpty_iff,
          decide_eq_true_eq] at hlast hseen
        obtain rfl : name = rest := by rw [hrest, hlast.1, List.append_nil]
        have hf : Fresh n := h.stand.resolve_right fun hold => hseen hold.1
        obtain ⟨front, d, rfl⟩ : ∃ front d, seen = front ++ [d] :=
          ⟨_, _, (List.dropLast_append_getLast hseen).symm⟩
        obtain rfl : slash = d := by
          rw [List.getLast?_concat, Option.some_or, Option.some.injEq] at hb
          rw [hb]
          exact (show b = slash by simpa using hslash).symm
        rw [List.dropLast_concat]
        have ht := h.takes
        rw [hf.path, List.nil_append, List.append_assoc] at ht
        obtain ⟨hok, hroutes⟩ := catchallBelow_spec (x := x) hf
          (literal_append.mp h.literal).1 ht hnameOk
        refine ⟨hok, ?_⟩
        rw [hroutes, hf.routes, hf.path]
        simp
    · have hc : wildcard c = false := by simpa using hc
      rw [childInsert_literal n hk before seen hc] at he
      have hf : Fresh n := by
        rcases h.stand with hf | ⟨_, d, rest', hd, hw⟩
        · exact hf
        · cases hd
          simp [hc] at hw
      have hnext : Ready slot n (seen ++ [c]) rest :=
        { h with
          takes := by simpa using h.takes
          literal := literal_append.mpr ⟨h.literal, by simpa using hc⟩
          nul := by simpa using h.nul
          stand := Or.inl hf }
      have := ih rest.length (by simp) hnext before (by simpa [hc] using he) rfl
      simpa using this

/-- A scan that meets a star has read something in front of it, or may look there. -/
def Guarded (n : Node α) (before : Option UInt8) (seen text : Bytes) : Prop :=
  text.head? = some star → seen ≠ [] ∨ n.children ≠ [] ∨
    ∃ b, before = some b ∧ (b = slash → n.path.getLast? = some slash)

theorem childInsert_total {n : Node α} {before : Option UInt8} {seen text : Bytes}
    (h : Guarded n before seen text) (x : Option α) :
    ∃ ok n', childInsert n (text.countP wildcard) before seen text x = some (ok, n') := by
  induction hlen : text.length using Nat.strongRecOn generalizing n before seen text with
  | ind len ih =>
  subst hlen
  by_cases hl : Literal text
  · exact ⟨true, _, childInsert_leaf n before seen hl x⟩
  have hk : 0 < (text.countP wildcard : Int) := by
    have := mt literal_iff_countP.mp hl
    omega
  cases text with
  | nil => simp at hl
  | cons c rest =>
    by_cases hc : wildcard c = true
    · rw [childInsert_wildcard n hk before seen hc rfl rfl]
      split
      · exact ⟨_, _, rfl⟩
      next hgood =>
      simp only [Bool.or_eq_true, not_or, Bool.not_eq_true, Bool.not_eq_false', List.isEmpty_iff] at hgood
      have hk1 : (((c :: rest).countP wildcard : Nat) : Int) - 1 =
          (rest.dropWhile (· != slash)).countP wildcard := by
        rw [List.countP_cons_of_pos hc, countP_segment hgood.1.1]
        omega
      split
      · dsimp only
        split
        · next hempty =>
          rw [hk1, List.isEmpty_iff.mp hempty, childInsert_leaf _ _ _ literal_nil]
          exact ⟨_, _, rfl⟩
        · rw [hk1]
          have hguard : Guarded ({ maxParams := ((rest.dropWhile (· != slash)).countP wildcard : Int)
                                   priority := 1 } : Node α)
              (rest.takeWhile (· != slash)).getLast? [] (rest.dropWhile (· != slash)) := by
            intro hstar
            rcases atSegmentEnd_dropWhile rest with hd | hd
            · simp [hd] at hstar
            · exact absurd (hd.symm.trans hstar) (by decide)
          obtain ⟨ok, n', heq⟩ := ih _ (Nat.lt_succ_of_le (List.dropWhile_suffix _).length_le) hguard rfl
          rw [heq]
          exact ⟨_, _, rfl⟩
      · next hcolon =>
        obtain rfl : c = star := (wildcard_cases hc).resolve_left hcolon
        split
        · exact ⟨_, _, rfl⟩
        split
        · exact ⟨_, _, rfl⟩
        next hpath =>
        rcases List.eq_nil_or_concat seen with rfl | ⟨front, d, rfl⟩
        · rcases h rfl with hs | hs | ⟨b, rfl, hb⟩
          · exact absurd rfl hs
          · exact absurd hgood.1.2 hs
          · have hne : b ≠ slash := fun he => hpath (hb he)
            simp [hne]
        · by_cases hd : d = slash <;> simp [hd]
    · have hc : wildcard c = false := by simpa using hc
      rw [childInsert_literal n hk before seen hc]
      have hguard : Guarded n before (seen ++ [c]) rest := fun _ => Or.inl (by simp)
      simpa [hc] using ih rest.length (by simp) hguard rfl

end PgRest.Rtree
