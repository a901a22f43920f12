import PgRest.Rtree.Find

/-! `pgrest_rtree_walker`, which runs over the handlers of a tree at startup. It calls back
for the children of every node, and so never for the root. What an add does to the handlers
in a tree is the same for every path: one more, and where the root, or the node of a
parameter, is written over because no wildcard is expected any more, one less. -/
namespace PgRest.Rtree
open Lib

variable {α : Type}

mutual
/-- `pgrest_rtree_walker`: what the function it is given is called with. -/
def walker : Node α → List (Option α)
  | ⟨_, _, _, _, _, children, _, _⟩ => walkerOf children
def walkerOf : List (Node α) → List (Option α)
  | [] => []
  | c :: children => c.handler :: (walker c ++ walkerOf children)
end

mutual
/-- The handlers in a tree. -/
def handlers : Node α → List α
  | ⟨_, _, _, _, _, children, handler, _⟩ => handler.toList ++ handlersOf children
def handlersOf : List (Node α) → List α
  | [] => []
  | c :: children => handlers c ++ handlersOf children
end

theorem handlersOf_eq (children : List (Node α)) : handlersOf children = children.flatMap handlers := by
  induction children with
  | nil => rfl
  | cons c children ih => simp only [handlersOf, ih, List.flatMap_cons]

theorem handlers_eq (node : Node α) :
    handlers node = node.handler.toList ++ node.children.flatMap handlers := by
  obtain ⟨_, _, _, _, _, children, handler, _⟩ := node
  simp only [handlers, handlersOf_eq]

mutual
theorem walker_eq : (node : Node α) → (walker node).filterMap id = node.children.flatMap handlers
  | ⟨_, _, _, _, _, children, _, _⟩ => walkerOf_eq children
theorem walkerOf_eq : (children : List (Node α)) →
    (walkerOf children).filterMap id = children.flatMap handlers
  | [] => rfl
  | c :: children => by
    have hc := walker_eq c
    have hcs := walkerOf_eq children
    rw [walkerOf, List.flatMap_cons, handlers_eq c, ← hc, ← hcs]
    cases c.handler <;> simp
end

/-! ### What is written over -/

/-- The handler that a round of the loop of `pgrest_rtree_add` behind the node's path writes over. -/
def lostBelow (loop : Node α → Bytes → Int → Option α) (node : Node α) (path : Bytes) (numParams : Int) :
    Option α :=
  match path with
  | [] => none
  | c :: _ =>
    if node.wildChild then
      match node.children with
      | [] => none
      | child :: _ =>
        let child := noteParams { child with priority := child.priority + 1 } numParams
        if sameWildcard child.path path then loop child path (numParams - 1) else none
    else if c == slash && node.children.length == 1 && node.type == .param then
      match node.children with
      | [] => none
      | child :: _ => loop { child with priority := child.priority + 1 } path numParams
    else
      match node.indices.findIdx? (· == c) with
      | some j =>
        (childPriority node j).bind fun (node, j) =>
          node.children[j]?.bind fun child => loop child path numParams
      | none => if wildcard c && numParams ≤ 0 then node.handler else none

def lostLoop : Nat → Node α → Bytes → Int → Option α
  | 0, _, _, _ => none
  | fuel + 1, node, path, numParams =>
    let node := noteParams node numParams
    let i := commonPrefix path node.path
    let node := if i < node.path.length then split node path i else node
    lostBelow (lostLoop fuel) node (path.drop i) numParams

/-- The handler that adding the path writes over. The rest of the path is put where no
parameter is left to be expected, though a wildcard follows: it is one of more than 255. -/
def lost (node : Node α) (path : Bytes) : Option α :=
  let numParams := countParams path
  let node := { node with priority := node.priority + 1 }
  if node.path.length = 0 ∧ node.children.length = 0 then
    if numParams ≤ 0 then node.handler else none
  else lostLoop (2 * height node + 2) node path numParams

/-- The handlers that adding the pairs one after the other writes over. -/
def lostAll (node : Node α) : List (Bytes × α) → List α
  | [] => []
  | (path, handler) :: pairs =>
    (lost node path).toList ++
      match add node path (some handler) with
      | none => []
      | some (_, node) => lostAll node pairs

/-! ### What an add does to the handlers -/

/-- One handler more, but for one that may be lost. -/
def Gains (old new : List α) (lost : Option α) (x : α) : Prop := (lost.toList ++ new).Perm (x :: old)

theorem Gains.own {old new : List α} {lost : Option α} {x : α} (h : Gains old new lost x) (own : List α) :
    Gains (own ++ old) (own ++ new) lost x := by
  have h₁ : (lost.toList ++ (own ++ new)).Perm (own ++ (lost.toList ++ new)) := by
    simp only [← List.append_assoc]
    exact List.perm_append_comm.append_right _
  exact h₁.trans ((h.append_left own).trans List.perm_middle)

theorem Gains.siblings {old new : List α} {lost : Option α} {x : α} (h : Gains old new lost x)
    (others : List α) :
    Gains (old ++ others) (new ++ others) lost x := by
  have h₁ := h.append_right others
  rwa [List.append_assoc, List.cons_append] at h₁

theorem flatMap_at {β : Type} {f : α → List β} {l : List α} {j : Nat} {a : α} (h : l[j]? = some a) :
    (l.flatMap f).Perm (f a ++ (l.eraseIdx j).flatMap f) := by
  obtain ⟨hj, rfl⟩ := List.getElem?_eq_some_iff.mp h
  exact ((List.getElem_cons_eraseIdx_perm hj).symm.flatMap_right f).trans (by simp)

/-- What one child gains, the children gain. -/
theorem Gains.set {children : List (Node α)} {j : Nat} {c c' : Node α} {lost : Option α} {x : α}
    (hj : children[j]? = some c) (h : Gains (handlers c) (handlers c') lost x) :
    Gains (children.flatMap handlers) ((children.set j c').flatMap handlers) lost x := by
  have hlt : j < children.length := (List.getElem?_eq_some_iff.mp hj).1
  have hset : (children.set j c')[j]? = some c' := List.getElem?_set_self hlt
  have hnew := flatMap_at (f := handlers) hset
  rw [List.eraseIdx_set_eq] at hnew
  have hold := flatMap_at (f := handlers) hj
  exact (hnew.append_left _).trans ((h.siblings ((children.eraseIdx j).flatMap handlers)).trans
    (hold.symm.cons x))

@[simp] theorem handlers_weigh (n : Node α) (k p : Int) :
    handlers { n with maxParams := k, priority := p } = handlers n := by
  simp only [handlers_eq]

theorem handlers_noteParams (n : Node α) (k : Int) : handlers (noteParams n k) = handlers n := by
  unfold noteParams
  split
  · simp only [handlers_eq]
  · rfl

theorem handlers_split (n : Node α) (path : Bytes) (i : Nat) : handlers (split n path i) = handlers n := by
  simp [split, handlers_eq]

theorem gains_leaf (n : Node α) (path : Bytes) (x : α) :
    Gains (handlers n) (handlers { n with path := path, handler := some x }) n.handler x := by
  simp only [Gains, handlers_eq, Option.toList_some, List.singleton_append]
  exact List.perm_middle

/-- One node hangs below the other, the last of them has the handler, and each of them counts it. -/
inductive Line (x : α) : Node α → Prop where
  | last {m : Node α} (children : m.children = []) (handler : m.handler = some x) (priority : m.priority = 1) :
      Line x m
  | above {m c : Node α} (children : m.children = [c]) (handler : m.handler = none) (priority : m.priority = 1)
      (line : Line x c) : Line x m

theorem Line.handlers {x : α} {m : Node α} (h : Line x m) : handlers m = [x] := by
  induction h with
  | last children handler => simp [handlers_eq, children, handler]
  | above children handler _ _ ih =>
    rw [handlers_eq, children, handler, List.flatMap_singleton, ih]
    rfl

/-- Where the insertion is accepted, the handler is put to the node itself if no wildcard is expected any more;
else the node had no children, and has one with the handler at the end of its line. -/
theorem childInsert_inv {n n' : Node α} {k : Int} {before : Option UInt8} {seen text : Bytes} {x : α}
    (h : childInsert n k before seen text (some x) = some (true, n')) :
    (k ≤ 0 ∧ ∃ path, n' = { n with path := path, handler := some x }) ∨
      (0 < k ∧ n.children = [] ∧ ∃ path wildChild indices m, Line x m ∧
        n' = { n with path := path, wildChild := wildChild, indices := indices, children := [m] }) := by
  induction hlen : text.length using Nat.strong_induction_on generalizing n n' k before seen text with
  | _ len ih =>
    subst hlen
    by_cases hk : k ≤ 0
    · rw [childInsert.eq_def, if_pos hk] at h
      cases h
      exact Or.inl ⟨hk, _, rfl⟩
    have hpos : 0 < k := Int.not_le.mp hk
    cases text with
    | nil =>
      rw [childInsert, if_neg hk] at h
      cases h
    | cons c rest =>
      cases hc : wildcard c with
      | false =>
        rw [childInsert_literal n hpos before seen hc] at h
        exact ih rest.length (Nat.lt_succ_self _) h rfl
      | true =>
        rw [childInsert_wildcard n hpos before seen hc rfl rfl] at h
        -- below a node that has just been made the line goes on
        have hline : ∀ {m m' : Node α} {k before seen text}, text.length < (c :: rest).length → m.children = [] →
            m.handler = none → m.priority = 1 → childInsert m k before seen text (some x) = some (true, m') →
            Line x m' := by
          intro m m' k before seen text hshort hchildren hnone hone hm
          rcases ih _ hshort hm rfl with ⟨-, path, rfl⟩ | ⟨-, -, path, wildChild, indices, below, hbelow, rfl⟩
          · exact .last hchildren rfl hone
          · exact .above rfl hnone hone hbelow
        have hnode : ∀ m, ∃ path, { (if seen.isEmpty then n else { n with path := seen }) with
            children := [m], wildChild := true } =
            ({ n with path := path, wildChild := true, indices := n.indices, children := [m] } : Node α) := by
          intro m
          split
          · exact ⟨n.path, rfl⟩
          · exact ⟨seen, rfl⟩
        split at h
        · cases h
        next hgood =>
        have hchildren : n.children = [] := by
          simp only [Bool.or_eq_true, Bool.not_eq_true', not_or, Bool.not_eq_false] at hgood
          exact List.isEmpty_iff.mp hgood.1.2
        refine Or.inr ⟨hpos, hchildren, ?_⟩
        split at h
        · dsimp only at h
          split at h
          · obtain ⟨⟨ok, param⟩, hparam, heq⟩ := Option.map_eq_some_iff.mp h
            cases heq
            obtain ⟨path, hpath⟩ := hnode param
            have hshort : ([] : Bytes).length < (c :: rest).length := Nat.succ_pos _
            exact ⟨path, true, n.indices, param, hline hshort rfl rfl rfl hparam, hpath⟩
          · obtain ⟨⟨ok, child⟩, hchild, heq⟩ := Option.map_eq_some_iff.mp h
            cases heq
            obtain ⟨path, hpath⟩ := hnode { type := .param, maxParams := k, priority := 1, children := [child],
                                            path := c :: rest.takeWhile (· != slash) }
            have hshort : (rest.dropWhile (· != slash)).length < (c :: rest).length :=
              Nat.lt_succ_of_le (List.dropWhile_suffix (· != slash)).length_le
            exact ⟨path, true, n.indices, _, .above rfl rfl rfl (hline hshort rfl rfl rfl hchild), hpath⟩
        split at h
        · cases h
        split at h
        · cases h
        split at h
        · cases h
        split at h
        · cases h
        split at h
        · cases h
        · cases h
          exact ⟨_, n.wildChild, _, _, .above rfl rfl rfl (.last rfl rfl rfl), rfl⟩

/-- Inserting at a node keeps what it holds, if a wildcard is expected. -/
theorem childInsert_gains {n n' : Node α} {k : Int} {before : Option UInt8} {seen text : Bytes} {x : α}
    (h : childInsert n k before seen text (some x) = some (true, n')) :
    Gains (handlers n) (handlers n') (if k ≤ 0 then n.handler else none) x := by
  rcases childInsert_inv h with ⟨hk, path, rfl⟩ | ⟨hk, hchildren, path, wildChild, indices, m, hline, rfl⟩
  · rw [if_pos hk]
    exact gains_leaf n path x
  · rw [if_neg (Int.not_le.mpr hk)]
    rw [Gains, handlers_eq n, handlers_eq { n with path := _, wildChild := _, indices := _, children := _ }]
    simp only [hchildren, Option.toList_none, List.nil_append, List.flatMap_nil, List.append_nil, List.flatMap_singleton, hline.handlers]
    exact List.perm_append_singleton _ _

/-- The handlers of the children are the same in any order and with any priorities. -/
theorem childPriority_handlers {n n' : Node α} {pos new : Nat} (h : childPriority n pos = some (n', new)) :
    n'.handler = n.handler ∧ (n'.children.flatMap handlers).Perm (n.children.flatMap handlers) ∧
      ∃ child, n.children[pos]? = some child ∧ new ≤ pos ∧
        n'.children = moveTo (n.children.set pos { child with priority := child.priority + 1 }) pos new := by
  cases hm : n.children[pos]? with
  | none => simp [childPriority, hm] at h
  | some child =>
    cases hc : n.indices[pos]? with
    | none => simp [childPriority, hm, hc] at h
    | some c =>
      obtain ⟨new', hnew, heq⟩ := childPriority_spec n hm hc
      obtain ⟨rfl, rfl⟩ := Prod.mk.inj (Option.some.inj (h.symm.trans heq))
      obtain ⟨hp, -⟩ := List.getElem?_eq_some_iff.mp hm
      refine ⟨rfl, ?_, child, rfl, hnew, rfl⟩
      refine ((moveTo_perm _ hnew (by simpa using hp)).flatMap_right handlers).trans ?_
      have hweigh : (handlers { child with priority := child.priority + 1 }).Perm ([] ++ handlers child) := by
        simp [handlers_eq]
      exact flatMap_set_perm hm hweigh

/-- A child that is appended takes the handler; nothing is lost. -/
theorem appendChild_gains {n n' : Node α} {c : UInt8} {path : Bytes} {before : Option UInt8} {k : Int} {x : α}
    (h : appendChild n c path before k (some x) = some (true, n')) :
    Gains (handlers n) (handlers n') none x := by
  simp only [appendChild] at h
  obtain ⟨⟨n₁, new⟩, hprio, hrest⟩ := Option.bind_eq_some_iff.mp h
  obtain ⟨m, hm, hins⟩ := Option.bind_eq_some_iff.mp hrest
  obtain ⟨⟨ok, m'⟩, hchild, heq⟩ := Option.map_eq_some_iff.mp hins
  obtain ⟨hhandler, hperm, child, hpos, hnew, hchildren⟩ := childPriority_handlers hprio
  dsimp only at hpos hnew hchildren hm heq hperm hhandler
  -- the new child is where the code goes on
  have hnone : m.handler = none := by
    obtain ⟨hlt, -⟩ := List.getElem?_eq_some_iff.mp hpos
    rw [hchildren, getElem?_moveTo _ hnew (by simpa using hlt)] at hm
    by_cases hlast : n.indices.length = n.children.length
    · rw [if_pos hlast, if_pos rfl, List.getElem?_set_self hlt] at hm
      rw [hlast, List.getElem?_concat_length] at hpos
      cases hpos
      cases hm
      rfl
    · rw [List.length_append, List.length_singleton] at hlt
      rw [if_neg hlast, if_neg (by omega), if_neg (by omega), List.getElem?_set_ne hlast,
        List.getElem?_concat_length] at hm
      cases hm
      rfl
  cases heq
  have hgains := childInsert_gains hchild
  rw [hnone, ite_self] at hgains
  have hset := (Gains.set hm hgains).own n₁.handler.toList
  have hold : (n₁.handler.toList ++ n₁.children.flatMap handlers).Perm (handlers n) := by
    rw [handlers_eq n, hhandler]
    refine List.Perm.append_left _ (hperm.trans (List.Perm.of_eq ?_))
    simp [handlers_eq]
  rw [handlers_eq { n₁ with children := _ }]
  exact hset.trans (hold.cons x)

/-- The first child gains. -/
theorem Gains.first {n m m' : Node α} {siblings : List (Node α)} {lost : Option α} {x : α} {p : Int}
    (hchildren : n.children = m :: siblings) (h : Gains (handlers { m with priority := p }) (handlers m') lost x) :
    Gains (handlers n) (handlers { n with children := m' :: siblings }) lost x := by
  have hm : handlers { m with priority := p } = handlers m := by simp only [handlers_eq]
  rw [hm] at h
  rw [handlers_eq n, handlers_eq { n with children := _ }, hchildren]
  exact (h.siblings (siblings.flatMap handlers)).own n.handler.toList

/-- What a round behind the node's own path does that returns true: it ends at the node, goes on at one of its
children, or inserts what is left. -/
inductive Round (loop : Node α → Bytes → Option UInt8 → Int → Option α → Option (Bool × Node α)) (n : Node α)
    (before : Option UInt8) (k : Int) (x : α) : Bytes → Node α → Prop where
  | leaf (free : n.handler = none) : Round loop n before k x [] { n with handler := some x }
  | wild {c tail m siblings m'} (wild : n.wildChild = true) (children : n.children = m :: siblings)
      (same : sameWildcard (noteParams { m with priority := m.priority + 1 } k).path (c :: tail) = true)
      (goes : loop (noteParams { m with priority := m.priority + 1 } k) (c :: tail) before (k - 1) (some x) =
        some (true, m')) : Round loop n before k x (c :: tail) { n with children := m' :: siblings }
  | param {c tail m siblings m'} (plain : ¬n.wildChild = true)
      (slash : (c == slash && n.children.length == 1 && n.type == .param) = true)
      (children : n.children = m :: siblings)
      (goes : loop { m with priority := m.priority + 1 } (c :: tail) before k (some x) = some (true, m')) :
      Round loop n before k x (c :: tail) { n with children := m' :: siblings }
  | index {c tail} {j : Nat} {n₁ new m m'} (plain : ¬n.wildChild = true)
      (slash : ¬(c == slash && n.children.length == 1 && n.type == .param) = true)
      (found : n.indices.findIdx? (· == c) = some j) (moved : childPriority n j = some (n₁, new))
      (child : n₁.children[new]? = some m) (goes : loop m (c :: tail) before k (some x) = some (true, m')) :
      Round loop n before k x (c :: tail) { n₁ with children := n₁.children.set new m' }
  | insert {c tail n'} (plain : ¬n.wildChild = true)
      (slash : ¬(c == slash && n.children.length == 1 && n.type == .param) = true)
      (found : n.indices.findIdx? (· == c) = none) (special : wildcard c = true)
      (inserts : childInsert n k before [] (c :: tail) (some x) = some (true, n')) :
      Round loop n before k x (c :: tail) n'
  | append {c tail n'} (plain : ¬n.wildChild = true)
      (slash : ¬(c == slash && n.children.length == 1 && n.type == .param) = true)
      (found : n.indices.findIdx? (· == c) = none) (special : ¬wildcard c = true)
      (appends : appendChild n c (c :: tail) before k (some x) = some (true, n')) :
      Round loop n before k x (c :: tail) n'

theorem addBelow_round {loop : Node α → Bytes → Option UInt8 → Int → Option α → Option (Bool × Node α)}
    {n n' : Node α} {path : Bytes} {before : Option UInt8} {k : Int} {x : α}
    (h : addBelow loop n path before k (some x) = some (true, n')) : Round loop n before k x path n' := by
  cases path with
  | nil =>
    simp only [addBelow] at h
    split at h
    · cases h
    · next hnone =>
      cases h
      exact .leaf (Option.not_isSome_iff_eq_none.mp hnone)
  | cons c tail =>
    simp only [addBelow] at h
    split at h
    · next hwild =>
      cases hchildren : n.children with
      | nil => simp [hchildren] at h
      | cons m siblings =>
        simp only [hchildren] at h
        split at h
        · next hsame =>
          obtain ⟨⟨ok, m'⟩, hm, heq⟩ := Option.map_eq_some_iff.mp h
          cases heq
          exact .wild hwild hchildren hsame hm
        · cases h
    next hplain =>
    split at h
    · next hslash =>
      cases hchildren : n.children with
      | nil => simp [hchildren] at h
      | cons m siblings =>
        simp only [hchildren] at h
        obtain ⟨⟨ok, m'⟩, hm, heq⟩ := Option.map_eq_some_iff.mp h
        cases heq
        exact .param hplain hslash hchildren hm
    next hslash =>
    cases hfind : n.indices.findIdx? (· == c) with
    | some j =>
      simp only [hfind] at h
      obtain ⟨⟨n₁, new⟩, hprio, hrest⟩ := Option.bind_eq_some_iff.mp h
      obtain ⟨m, hm, hins⟩ := Option.bind_eq_some_iff.mp hrest
      obtain ⟨⟨ok, m'⟩, hchild, heq⟩ := Option.map_eq_some_iff.mp hins
      cases heq
      exact .index hplain hslash hfind hprio hm hchild
    | none =>
      simp only [hfind] at h
      split at h
      · next hc => exact .insert hplain hslash hfind hc h
      · next hc => exact .append hplain hslash hfind hc h

/-- One round behind the node's own path. -/
theorem addBelow_gains {loop : Node α → Bytes → Option UInt8 → Int → Option α → Option (Bool × Node α)}
    (lostIn : Node α → Bytes → Int → Option α) {n n' : Node α} {path : Bytes} {before : Option UInt8} {k : Int}
    {x : α} (hloop : ∀ {m m' path k}, loop m path before k (some x) = some (true, m') →
      Gains (handlers m) (handlers m') (lostIn m path k) x)
    (h : addBelow loop n path before k (some x) = some (true, n')) :
    Gains (handlers n) (handlers n') (lostBelow lostIn n path k) x := by
  cases addBelow_round h with
  | leaf free =>
    have hgains := gains_leaf n n.path x
    rwa [free] at hgains
  | wild wild children same goes =>
    simp only [lostBelow, if_pos wild, children, if_pos same]
    have hgains := hloop goes
    rw [handlers_noteParams] at hgains
    exact hgains.first children
  | param plain slash children goes =>
    simp only [lostBelow, if_neg plain]
    rw [if_pos slash]
    simp only [children]
    exact (hloop goes).first children
  | @index c tail j n₁ new m m' plain slash found moved child goes =>
    simp only [lostBelow, if_neg plain, if_neg slash, found, moved, Option.bind_some, child]
    obtain ⟨hhandler, hperm, -⟩ := childPriority_handlers moved
    have hset := (Gains.set child (hloop goes)).own n₁.handler.toList
    have hold : (n₁.handler.toList ++ n₁.children.flatMap handlers).Perm (handlers n) := by
      rw [handlers_eq n, hhandler]
      exact hperm.append_left _
    rw [handlers_eq { n₁ with children := _ }]
    exact hset.trans (hold.cons x)
  | insert plain slash found special inserts =>
    simp only [lostBelow, if_neg plain, if_neg slash, found, special, Bool.true_and, decide_eq_true_eq]
    exact childInsert_gains inserts
  | append plain slash found special appends =>
    simp only [lostBelow, if_neg plain, if_neg slash, found, Bool.eq_false_iff.mpr special, Bool.false_and,
      Bool.false_eq_true, if_false]
    exact appendChild_gains appends

theorem addLoop_gains {fuel : Nat} {n n' : Node α} {path : Bytes} {before : Option UInt8} {k : Int} {x : α}
    (h : addLoop fuel n path before k (some x) = some (true, n')) :
    Gains (handlers n) (handlers n') (lostLoop fuel n path k) x := by
  induction fuel generalizing n n' path before k with
  | zero => cases h
  | succ fuel ih =>
    simp only [addLoop] at h
    have hgains := addBelow_gains (lostLoop fuel) (fun hm => ih hm) h
    have hsame : handlers (if commonPrefix path (noteParams n k).path < (noteParams n k).path.length then
        split (noteParams n k) path (commonPrefix path (noteParams n k).path) else noteParams n k) =
        handlers n := by
      split
      · rw [handlers_split, handlers_noteParams]
      · rw [handlers_noteParams]
    rw [hsame] at hgains
    exact hgains

/-- An add that returns true puts its handler into the tree, and loses one at most. -/
theorem add_gains {n n' : Node α} {path : Bytes} {x : α} (h : add n path (some x) = some (true, n')) :
    Gains (handlers n) (handlers n') (lost n path) x := by
  simp only [add] at h
  simp only [lost]
  split at h
  · next hempty =>
    rw [if_pos hempty]
    have hgains := childInsert_gains h
    have hroot : handlers { n with priority := n.priority + 1, type := NodeType.root } = handlers n := by
      simp only [handlers_eq]
    rw [hroot] at hgains
    exact hgains
  · next hempty =>
    rw [if_neg hempty]
    have hgains := addLoop_gains h
    have hroot : handlers { n with priority := n.priority + 1 } = handlers n := by simp only [handlers_eq]
    rw [hroot] at hgains
    exact hgains

theorem addAll_length {n n' : Node α} {pairs accepted : List (Bytes × α)}
    (h : addAll n pairs = some (n', accepted)) : accepted.length ≤ pairs.length := by
  induction pairs generalizing n n' accepted with
  | nil =>
    cases h
    exact Nat.le_refl _
  | cons pair pairs ih =>
    obtain ⟨⟨ok, n₁⟩, -, hrest⟩ := Option.bind_eq_some_iff.mp h
    obtain ⟨⟨n₂, rest⟩, hall, heq⟩ := Option.map_eq_some_iff.mp hrest
    have hle := ih hall
    obtain ⟨-, rfl⟩ := Prod.mk.inj heq
    cases ok with
    | true => simpa using hle
    | false => exact Nat.le_succ_of_le hle

/-- Where all pairs are accepted, the first one is, and then the others are. -/
theorem addAll_accepted {n n' : Node α} {path : Bytes} {x : α} {pairs : List (Bytes × α)}
    (h : addAll n ((path, x) :: pairs) = some (n', (path, x) :: pairs)) :
    ∃ n₁, add n path (some x) = some (true, n₁) ∧ addAll n₁ pairs = some (n', pairs) := by
  obtain ⟨⟨ok, n₁⟩, hadd, hrest⟩ := Option.bind_eq_some_iff.mp h
  obtain ⟨⟨n₂, accepted⟩, hall, heq⟩ := Option.map_eq_some_iff.mp hrest
  have hle := addAll_length hall
  dsimp only at hall heq
  obtain ⟨rfl, hlist⟩ := Prod.mk.inj heq
  cases ok with
  | false =>
    have := congrArg List.length hlist
    simp only [Bool.false_eq_true, if_false, List.length_cons] at this
    omega
  | true =>
    obtain rfl : accepted = pairs := by simpa using hlist
    exact ⟨n₁, hadd, hall⟩

/-- Adds that all return true put all their handlers into the tree, but for those that are lost. -/
theorem addAll_gains {n n' : Node α} {pairs : List (Bytes × α)} (h : addAll n pairs = some (n', pairs)) :
    (lostAll n pairs ++ handlers n').Perm (pairs.map Prod.snd ++ handlers n) := by
  induction pairs generalizing n with
  | nil =>
    cases h
    exact List.Perm.refl _
  | cons pair pairs ih =>
    obtain ⟨path, x⟩ := pair
    obtain ⟨n₁, hadd, hall⟩ := addAll_accepted h
    simp only [lostAll, hadd, List.map_cons, List.cons_append, List.append_assoc]
    have hcomm : ((lost n path).toList ++ (pairs.map Prod.snd ++ handlers n₁)).Perm
        (pairs.map Prod.snd ++ ((lost n path).toList ++ handlers n₁)) := by
      simp only [← List.append_assoc]
      exact List.perm_append_comm.append_right _
    have hgains : ((lost n path).toList ++ handlers n₁).Perm (x :: handlers n) := add_gains hadd
    exact ((ih hall).append_left _).trans (hcomm.trans ((hgains.append_left _).trans List.perm_middle))

theorem handlers_create : handlers (create : Node α) = [] := by
  simp [handlers_eq, create]

/-! ### The handlers that are initialised -/

section Walk
variable [DecidableEq α]

/-- The function is called with each of the handlers once, and with nothing else but NULL. -/
structure Initialised (hs : List α) (calls : List (Option α)) : Prop where
  once : ∀ h ∈ hs, calls.count (some h) = 1
  others : ∀ h, some h ∈ calls → h ∈ hs

theorem count_calls (calls : List (Option α)) (h : α) : calls.count (some h) = (calls.filterMap id).count h := by
  induction calls with
  | nil => rfl
  | cons c calls ih => cases c <;> simp [List.count_cons, ih]

theorem initialised_iff {hs : List α} (hd : hs.Nodup) {calls : List (Option α)} :
    Initialised hs calls ↔ (calls.filterMap id).Perm hs := by
  constructor
  · intro hi
    rw [List.perm_iff_count]
    intro h
    rw [← count_calls]
    by_cases hmem : h ∈ hs
    · rw [hi.once h hmem, List.count_eq_one_of_mem hd hmem]
    · rw [List.count_eq_zero_of_not_mem hmem, List.count_eq_zero_of_not_mem fun hc => hmem (hi.others h hc)]
  · intro hperm
    refine ⟨fun h hmem => ?_, fun h hc => ?_⟩
    · rw [count_calls, hperm.count_eq, List.count_eq_one_of_mem hd hmem]
    · exact hperm.mem_iff.mp (List.mem_filterMap.mpr ⟨some h, hc, rfl⟩)

/-- At startup every handler of a route table is initialised once if and only if the root holds
none of them and none has been written over. -/
theorem walker_initialises {pairs : List (Bytes × α)} {tree : Node α} (hd : (pairs.map Prod.snd).Nodup)
    (hadd : addAll create pairs = some (tree, pairs)) :
    Initialised (pairs.map Prod.snd) (walker tree) ↔ tree.handler = none ∧ lostAll create pairs = [] := by
  have hall := addAll_gains hadd
  rw [handlers_create, List.append_nil, handlers_eq] at hall
  rw [initialised_iff hd, walker_eq]
  constructor
  · intro hperm
    have hlen := hall.length_eq.trans hperm.length_eq.symm
    simp only [List.length_append] at hlen
    have hnone : tree.handler.toList = [] := List.length_eq_zero_iff.mp (by omega)
    exact ⟨Option.toList_eq_nil_iff.mp hnone, List.length_eq_zero_iff.mp (by omega)⟩
  · rintro ⟨hnone, hlost⟩
    simpa [hnone, hlost] using hall

/-- `/a` and `/b` are initialised. -/
theorem walker_initialises_ab : ∃ tree, Initialised [true, false] (walker tree) ∧
    addAll create [(ascii "/a", true), (ascii "/b", false)] =
      some (tree, [(ascii "/a", true), (ascii "/b", false)]) := by
  have hrun : (addAll create [(ascii "/a", true), (ascii "/b", false)]).any (fun t =>
      t.2 == [(ascii "/a", true), (ascii "/b", false)] && t.1.handler.isNone) = true := by with_unfolding_all decide
  obtain ⟨⟨tree, accepted⟩, hadd, hcheck⟩ := (Option.any_eq_true _ _).mp hrun
  simp only [Bool.and_eq_true, beq_iff_eq, Option.isNone_iff_eq_none] at hcheck
  obtain ⟨rfl, hnone⟩ := hcheck
  exact ⟨tree, (walker_initialises (by decide) hadd).mpr ⟨hnone, by with_unfolding_all decide⟩, hadd⟩

/-- Of a single route `/` the handler is not initialised. -/
theorem walker_misses : ∃ tree, addAll create [(ascii "/", true)] = some (tree, [(ascii "/", true)]) ∧
    ¬Initialised [true] (walker tree) := by
  have hrun : (addAll create [(ascii "/", true)]).any (fun t =>
      t.2 == [(ascii "/", true)] && walker t.1 == []) = true := by with_unfolding_all decide
  obtain ⟨⟨tree, accepted⟩, hadd, hcheck⟩ := (Option.any_eq_true _ _).mp hrun
  simp only [Bool.and_eq_true, beq_iff_eq] at hcheck
  obtain ⟨rfl, hwalk⟩ := hcheck
  refine ⟨tree, hadd, fun hi => ?_⟩
  have honce := hi.once true (List.mem_singleton.mpr rfl)
  rw [hwalk] at honce
  cases honce

end Walk

/-! ### Where nothing is written over -/

theorem map_snd_under (path : Bytes) (rs : List (Bytes × α)) :
    (under path rs).map Prod.snd = rs.map Prod.snd := by
  simp [under]

mutual
theorem routes_handlers : (node : Node α) → (routes node).map Prod.snd = handlers node
  | ⟨_, _, _, _, _, children, handler, _⟩ => by
    have hbelow := routesOf_handlers children
    rw [routes, handlers, map_snd_under, List.map_append, hbelow]
    cases handler <;> rfl
theorem routesOf_handlers : (children : List (Node α)) → (routesOf children).map Prod.snd = handlersOf children
  | [] => rfl
  | c :: children => by
    rw [routesOf, handlersOf, List.map_append, routes_handlers c, routesOf_handlers children]
end

/-- No handler is lost where no path has a NUL or more than 255 wildcards. -/
theorem lostAll_nil {pairs : List (Bytes × α)} {tree : Node α}
    (hp : ∀ p ∈ pairs, p.1 ≠ [] ∧ (0 : UInt8) ∉ p.1 ∧ p.1.countP wildcard ≤ 255)
    (hadd : addAll create pairs = some (tree, pairs)) : lostAll create pairs = [] := by
  have hroutes := (addAll_spec create_ok hp hadd).2.length_eq
  rw [create_routes, List.append_nil] at hroutes
  have hall := (addAll_gains hadd).length_eq
  rw [handlers_create, List.append_nil, List.length_append, ← routes_handlers, List.length_map,
    List.length_map] at hall
  exact List.length_eq_zero_iff.mp (by omega)

end PgRest.Rtree
