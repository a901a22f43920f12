import PgRest.Lib.Move
import PgRest.Rtree.Pattern

/-! What holds of every tree the router can reach, whatever adds it has seen,
accepted or not: the routes stored in it, and the shape of each node in its slot. -/
namespace PgRest.Rtree
open Lib

variable {α : Type}

/-! ### The routes stored in a tree -/

def under (path : Bytes) (routes : List (Bytes × α)) : List (Bytes × α) :=
  routes.map fun (text, h) => (path ++ text, h)

def own (handler : Option α) : List (Bytes × α) := handler.toList.map fun h => ([], h)

mutual
/-- Each handler with the text on the way to it, from the node on. -/
def routes : Node α → List (Bytes × α)
  | ⟨path, _, _, _, _, children, handler, _⟩ => under path (own handler ++ routesOf children)
def routesOf : List (Node α) → List (Bytes × α)
  | [] => []
  | c :: children => routes c ++ routesOf children
end

theorem routesOf_eq (children : List (Node α)) : routesOf children = children.flatMap routes := by
  induction children with
  | nil => rfl
  | cons c children ih => simp only [routesOf, ih, List.flatMap_cons]

theorem routes_eq (node : Node α) :
    routes node = under node.path (own node.handler ++ node.children.flatMap routes) := by
  obtain ⟨path, _, _, _, _, children, handler, _⟩ := node
  simp only [routes, routesOf_eq]

@[simp] theorem own_none : own (none : Option α) = [] := rfl
@[simp] theorem own_some (h : α) : own (some h) = [([], h)] := rfl
@[simp] theorem under_nil (rs : List (Bytes × α)) : under [] rs = rs := by simp [under]
@[simp] theorem under_empty (path : Bytes) : under path ([] : List (Bytes × α)) = [] := rfl
@[simp] theorem under_cons (path text : Bytes) (h : α) (rs : List (Bytes × α)) :
    under path ((text, h) :: rs) = (path ++ text, h) :: under path rs := rfl
@[simp] theorem under_append (path : Bytes) (rs rs' : List (Bytes × α)) :
    under path (rs ++ rs') = under path rs ++ under path rs' := by simp [under]

theorem under_under (p q : Bytes) (rs : List (Bytes × α)) :
    under p (under q rs) = under (p ++ q) rs := by
  simp [under, List.append_assoc]

theorem mem_under {path : Bytes} {rs : List (Bytes × α)} {text : Bytes} {h : α} :
    (text, h) ∈ under path rs ↔ ∃ t, text = path ++ t ∧ (t, h) ∈ rs := by
  simp only [under, List.mem_map, Prod.mk.injEq]
  constructor
  · rintro ⟨⟨t, h'⟩, hmem, rfl, rfl⟩
    exact ⟨t, rfl, hmem⟩
  · rintro ⟨t, rfl, hmem⟩
    exact ⟨(t, h), hmem, rfl, rfl⟩

theorem under_perm (path : Bytes) {rs rs' : List (Bytes × α)} (h : rs.Perm rs') :
    (under path rs).Perm (under path rs') := h.map _

/-- What an add that ended with `ok` leaves more than there was. -/
def gain (ok : Bool) (path : Bytes) (h : α) : List (Bytes × α) := if ok then [(path, h)] else []

@[simp] theorem gain_true (path : Bytes) (h : α) : gain true path h = [(path, h)] := rfl
@[simp] theorem gain_false (path : Bytes) (h : α) : gain false path h = [] := rfl

theorem under_gain (p : Bytes) (ok : Bool) (path : Bytes) (h : α) :
    under p (gain ok path h) = gain ok (p ++ path) h := by
  cases ok <;> rfl

/-! ### The shape of the nodes -/

/-- Where a node hangs: at the root, behind an index byte (or behind a parameter,
whose continuation starts with a slash), or as the wildcard of its parent. -/
inductive Slot where
  | root
  | index (c : UInt8)
  | param
  | catchall

/-- A static node behind an index byte starts with this byte. A rejected add can
leave a node there that has no text of its own yet. -/
def Starts (n : Node α) : Slot → Prop
  | .root => n.path = [] → n.handler = none
  | .index c => n.path.head? = some c ∨
      (n.path = [] ∧ n.handler = none ∧ n.wildChild = false ∧ ∀ d ∈ n.indices, d = c)
  | _ => False

inductive Ok : Slot → Node α → Prop where
  | static {slot n} (starts : Starts n slot) (type : n.type = .static ∨ n.type = .root)
      (literal : Literal n.path) (wild : n.wildChild = false) (edges : Literal n.indices)
      (nodup : n.indices.Nodup) (len : n.indices.length = n.children.length)
      (below : ∀ (j : Nat) c m, n.indices[j]? = some c → n.children[j]? = some m → Ok (.index c) m) :
      Ok slot n
  | wild {slot n m} (starts : Starts n slot) (type : n.type = .static ∨ n.type = .root)
      (literal : Literal n.path) (wild : n.wildChild = true) (edges : n.indices = [])
      (children : n.children = [m]) (below : Ok .param m) : Ok slot n
  | param {n name} (type : n.type = .param) (path : n.path = colon :: name) (name : NameOk name)
      (wild : n.wildChild = false) (edges : n.indices = [] ∨ n.indices = [slash])
      (few : n.children.length ≤ 1) (len : n.indices.length ≤ n.children.length)
      (below : ∀ m ∈ n.children, Ok (.index slash) m) : Ok .param n
  | catchallFirst {n m} (type : n.type = .catchall) (path : n.path = []) (wild : n.wildChild = true)
      (handler : n.handler = none) (edges : n.indices = []) (children : n.children = [m])
      (below : Ok .catchall m) : Ok (.index slash) n
  | catchall {n name} (type : n.type = .catchall) (path : n.path = slash :: star :: name)
      (name : NameOk name) (wild : n.wildChild = false) (handler : n.handler ≠ none)
      (edges : ∀ d ∈ n.indices, d = slash) (nodup : n.indices.Nodup)
      (len : n.indices.length = n.children.length)
      (below : ∀ (j : Nat) c m, n.indices[j]? = some c → n.children[j]? = some m → Ok (.index c) m) :
      Ok .catchall n

theorem create_ok : Ok .root (create : Node α) :=
  .static (fun _ => rfl) (Or.inl rfl) (by simp [create]) rfl (by simp [create]) (by simp [create]) rfl
    (by simp [create])

theorem create_routes : routes (create : Node α) = [] := by
  simp [create, routes_eq]

/-- Every route behind an index byte starts with this byte. -/
theorem Ok.route_head {c : UInt8} {n : Node α} (h : Ok (.index c) n) {text : Bytes} {x : α}
    (hr : (text, x) ∈ routes n) : text.head? = some c := by
  generalize hs : Slot.index c = slot at h
  induction h generalizing c text with
  | @static slot n starts type literal wild edges nodup len below ih =>
    subst hs
    rw [routes_eq] at hr
    obtain ⟨t, rfl, ht⟩ := mem_under.mp hr
    rcases starts with hp | ⟨hp, hh, _, hd⟩
    · simp [List.head?_append, hp]
    · rw [hh, own_none, List.nil_append, List.mem_flatMap] at ht
      obtain ⟨m, hm, ht⟩ := ht
      obtain ⟨j, hj⟩ := List.getElem?_of_mem hm
      have hjl : j < n.indices.length := by
        rw [len]
        exact (List.getElem?_eq_some_iff.mp hj).1
      have hjc : n.indices[j]? = some c := by
        rw [List.getElem?_eq_getElem hjl, hd _ (List.getElem_mem hjl)]
      rw [hp, List.nil_append]
      exact ih j c m hjc hj ht rfl
  | @wild slot n m starts type literal wild edges children below ih =>
    subst hs
    rw [routes_eq] at hr
    obtain ⟨t, rfl, ht⟩ := mem_under.mp hr
    rcases starts with hp | ⟨_, _, hw, _⟩
    · simp [List.head?_append, hp]
    · simp [wild] at hw
  | param => cases hs
  | @catchallFirst n m type path wild handler edges children below ih =>
    obtain rfl := (Slot.index.inj hs)
    rw [routes_eq, path, under_nil, handler, own_none, children] at hr
    simp only [List.nil_append, List.flatMap_cons, List.flatMap_nil, List.append_nil] at hr
    cases below with
    | static starts => exact starts.elim
    | wild starts => exact starts.elim
    | catchall _ hpath =>
      rw [routes_eq, hpath] at hr
      obtain ⟨t, rfl, _⟩ := mem_under.mp hr
      rfl
  | catchall => cases hs

/-! ### Reordering the children -/

theorem bubble_spec (priority : Int) (children : List (Node α)) (pos : Nat) (h : pos < children.length) :
    ∃ new ≤ pos, bubble priority children pos = (moveTo children pos new, new) := by
  induction pos generalizing children with
  | zero => exact ⟨0, Nat.le_refl 0, by rw [moveTo_self]; rfl⟩
  | succ pos ih =>
    have hpos : pos < children.length := by omega
    rw [bubble, List.getElem?_eq_getElem hpos, List.getElem?_eq_getElem h]
    simp only
    split
    · obtain ⟨new, hnew, heq⟩ := ih ((children.set pos children[pos + 1]).set (pos + 1) children[pos])
        (by simpa using hpos)
      refine ⟨new, by omega, ?_⟩
      rw [heq, moveTo_swap children hnew (List.getElem?_eq_getElem hpos) (List.getElem?_eq_getElem h)]
    · exact ⟨pos + 1, Nat.le_refl _, by rw [moveTo_self]⟩

theorem length_shiftUp (new : Nat) (s : Bytes) (pos : Nat) : (shiftUp new s pos).length = s.length := by
  induction pos generalizing s with
  | zero => rfl
  | succ pos ih =>
    rw [shiftUp]
    split
    · split
      · rw [ih, List.length_set]
      · rfl
    · rfl

theorem getElem?_shiftUp (new : Nat) (s : Bytes) (pos : Nat) (hp : pos < s.length) (k : Nat) :
    (shiftUp new s pos)[k]? = if new < k ∧ k ≤ pos then s[k - 1]? else s[k]? := by
  induction pos generalizing s with
  | zero =>
    rw [shiftUp, if_neg (by omega)]
  | succ pos ih =>
    rw [shiftUp]
    have hlt : pos < s.length := by omega
    rw [List.getElem?_eq_getElem hlt]
    by_cases hnew : new < pos + 1
    · rw [if_pos hnew]
      simp only
      rw [ih _ (by simpa using hlt)]
      by_cases hk : k = pos + 1
      · subst hk
        rw [if_neg (by omega), if_pos (by omega), List.getElem?_set_self hp]
        simp
      · by_cases hin : new < k ∧ k ≤ pos
        · rw [if_pos hin, if_pos (by omega), List.getElem?_set_ne (by omega)]
        · rw [if_neg hin, if_neg (by omega), List.getElem?_set_ne (Ne.symm hk)]
    · rw [if_neg hnew, if_neg (by omega)]

theorem shiftUp_set (s : Bytes) {new pos : Nat} {c : UInt8} (h : new ≤ pos) (hc : s[pos]? = some c) :
    (shiftUp new s pos).set new c = moveTo s pos new := by
  obtain ⟨hp, _⟩ := List.getElem?_eq_some_iff.mp hc
  apply List.ext_getElem?
  intro k
  rw [getElem?_moveTo s h hp]
  by_cases hk : k = new
  · subst hk
    rw [List.getElem?_set_self (by rw [length_shiftUp]; omega), if_pos rfl, hc]
  · rw [List.getElem?_set_ne (Ne.symm hk), getElem?_shiftUp new s pos hp, if_neg hk]

/-- The child at `pos` gains a priority and moves forward, its index byte with it. -/
theorem childPriority_spec (node : Node α) {pos : Nat} {child : Node α} {c : UInt8}
    (hm : node.children[pos]? = some child) (hc : node.indices[pos]? = some c) :
    ∃ new ≤ pos, childPriority node pos = some
      ({ node with
          children := moveTo (node.children.set pos { child with priority := child.priority + 1 }) pos new
          indices := moveTo node.indices pos new }, new) := by
  obtain ⟨hp, _⟩ := List.getElem?_eq_some_iff.mp hm
  obtain ⟨new, hnew, heq⟩ := bubble_spec (child.priority + 1)
    (node.children.set pos { child with priority := child.priority + 1 }) pos (by simpa using hp)
  refine ⟨new, hnew, ?_⟩
  simp only [childPriority, hm, hc, heq, Option.some.injEq, Prod.mk.injEq, and_true]
  by_cases hpos : new = pos
  · subst hpos
    rw [if_pos rfl, moveTo_self, moveTo_self]
  · rw [if_neg hpos, shiftUp_set node.indices hnew hc]

end PgRest.Rtree
