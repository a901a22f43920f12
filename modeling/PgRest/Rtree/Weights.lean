import Mathlib.Data.List.Induction
import PgRest.Rtree.Walker

/-! What holds of every node of a route table: the index bytes tell its children apart, the children stand
by their priorities, and a priority is the number of the handlers below. An add goes down with the priorities
of the nodes on its way counted up already, and keeps its promise where it returns true. -/
namespace PgRest.Rtree
open Lib

variable {α : Type}

/-- The heaviest child is the first. -/
def Ordered (children : List (Node α)) : Prop := children.Pairwise fun a b => b.priority ≤ a.priority

/-- Below the node there are handlers everywhere, and the priorities count them. -/
inductive Settled : Node α → Prop where
  | mk {n : Node α} (ordered : Ordered n.children) (weight : ∀ m ∈ n.children, m.priority = (handlers m).length)
      (used : ∀ m ∈ n.children, handlers m ≠ []) (below : ∀ m ∈ n.children, Settled m) : Settled n

structure Weighed (n : Node α) : Prop where
  weight : n.priority = (handlers n).length
  used : handlers n ≠ []
  settled : Settled n

theorem settled_iff {n : Node α} : Settled n ↔ Ordered n.children ∧ ∀ m ∈ n.children, Weighed m := by
  constructor
  · rintro ⟨ordered, weight, used, below⟩
    exact ⟨ordered, fun m hm => ⟨weight m hm, used m hm, below m hm⟩⟩
  · rintro ⟨ordered, weighed⟩
    exact ⟨ordered, fun m hm => (weighed m hm).weight, fun m hm => (weighed m hm).used,
      fun m hm => (weighed m hm).settled⟩

theorem Settled.congr {n m : Node α} (h : Settled n) (hc : m.children = n.children) : Settled m :=
  settled_iff.mpr (hc ▸ settled_iff.mp h)

theorem Settled.none {n : Node α} (hc : n.children = []) : Settled n :=
  settled_iff.mpr (by simp [hc, Ordered])

theorem Settled.one {n m : Node α} (hc : n.children = [m]) (hm : Weighed m) : Settled n :=
  settled_iff.mpr (by simp [hc, Ordered, hm])

/-- A node above one that counts the same handlers. -/
theorem Weighed.one {n m : Node α} (hm : Weighed m) (hc : n.children = [m]) (hh : n.handler = none)
    (hp : n.priority = m.priority) : Weighed n := by
  have hsame : handlers n = handlers m := by simp [handlers_eq n, hc, hh]
  exact ⟨by rw [hp, hm.weight, hsame], hsame ▸ hm.used, .one hc hm⟩

theorem Weighed.leaf {n : Node α} {x : α} (hc : n.children = []) (hh : n.handler = some x) (hp : n.priority = 1) :
    Weighed n := by
  have hone : handlers n = [x] := by simp [handlers_eq, hc, hh]
  exact ⟨by rw [hp, hone]; rfl, by simp [hone], .none hc⟩

/-- What a node is that has taken the handler it has counted before. -/
structure Took (n n' : Node α) (x : α) : Prop where
  settled : Settled n'
  priority : n'.priority = n.priority
  gains : Gains (handlers n) (handlers n') none x

theorem Took.weighed {n n' : Node α} {x : α} (h : Took n n' x) (hp : n.priority = (handlers n).length + 1) :
    Weighed n' := by
  have hlen : (handlers n').length = (handlers n).length + 1 := h.gains.length_eq
  refine ⟨by rw [h.priority, hp, hlen]; rfl, fun hnil => ?_, h.settled⟩
  rw [hnil] at hlen
  cases hlen

theorem Took.of_eq {n m n' : Node α} {x : α} (h : Took m n' x) (hp : m.priority = n.priority)
    (hh : handlers m = handlers n) : Took n n' x :=
  ⟨h.settled, h.priority.trans hp, hh ▸ h.gains⟩

/-! ### The order of the children -/

/-- The child goes in front of the lighter ones that stand directly before it. -/
theorem bubble_front (p : Int) (pre : List (Node α)) (c : Node α) (post : List (Node α)) :
    ∃ front back, pre = front ++ back ∧ (∀ m ∈ back, m.priority < p) ∧ (∀ m ∈ front.getLast?, p ≤ m.priority) ∧
      bubble p (pre ++ c :: post) pre.length = (front ++ c :: (back ++ post), front.length) := by
  induction pre using List.reverseRecOn generalizing post with
  | nil => exact ⟨[], [], rfl, by simp, by simp, rfl⟩
  | append_singleton pre t ih =>
    have ht : (pre ++ [t] ++ c :: post)[pre.length]? = some t := by simp
    have hc : (pre ++ [t] ++ c :: post)[pre.length + 1]? = some c := by
      rw [List.append_assoc, List.getElem?_append_right (Nat.le_succ _)]
      simp
    rw [List.length_append, List.length_singleton, bubble, ht, hc]
    by_cases hlight : t.priority < p
    · obtain ⟨front, back, rfl, hback, hfront, heq⟩ := ih (t :: post)
      refine ⟨front, back ++ [t], by rw [List.append_assoc], ?_, hfront, ?_⟩
      · intro m hm
        rcases List.mem_append.mp hm with hm | hm
        · exact hback m hm
        · rwa [List.mem_singleton.mp hm]
      · have hswap : ((front ++ back ++ [t] ++ c :: post).set (front ++ back).length c).set
            ((front ++ back).length + 1) t = front ++ back ++ c :: t :: post := by
          rw [List.append_assoc (front ++ back), List.set_append_right _ _ (Nat.le_refl _), Nat.sub_self,
            List.set_append_right _ _ (Nat.le_succ _), Nat.succ_sub (Nat.le_refl _), Nat.sub_self]
          rfl
        simp only [if_pos hlight, hswap]
        rw [heq, List.append_assoc, List.singleton_append]
    · simp only [if_neg hlight]
      refine ⟨pre ++ [t], [], (List.append_nil _).symm, by simp, ?_, by simp⟩
      intro m hm
      rw [List.getLast?_concat] at hm
      cases hm
      exact Int.not_lt.mp hlight

/-- There it stands by its new priority. -/
theorem ordered_front {front back post : List (Node α)} {c m : Node α}
    (h : Ordered (front ++ back ++ c :: post)) (hback : ∀ b ∈ back, b.priority < c.priority + 1)
    (hfront : ∀ b ∈ front.getLast?, c.priority + 1 ≤ b.priority) (hm : m.priority = c.priority + 1) :
    Ordered (front ++ m :: (back ++ post)) := by
  have hpost : ∀ b ∈ post, b.priority ≤ c.priority :=
    (List.pairwise_cons.mp (List.pairwise_append.mp h).2.1).1
  have hothers : Ordered (front ++ (back ++ post)) := by
    rw [← List.append_assoc]
    exact h.sublist ((List.sublist_cons_self c post).append_left _)
  obtain ⟨hfronts, hrest, hcross⟩ := List.pairwise_append.mp hothers
  have hheavy : ∀ a ∈ front, c.priority + 1 ≤ a.priority := by
    rcases List.eq_nil_or_concat front with rfl | ⟨init, last, rfl⟩
    · simp
    · have hlast : c.priority + 1 ≤ last.priority := hfront last (by simp)
      intro a ha
      rw [List.concat_eq_append] at ha hfronts
      rcases List.mem_append.mp ha with ha | ha
      · exact Int.le_trans hlast ((List.pairwise_append.mp hfronts).2.2 a ha last List.mem_cons_self)
      · rwa [List.mem_singleton.mp ha]
  refine List.pairwise_append.mpr ⟨hfronts, List.pairwise_cons.mpr ⟨fun b hb => ?_, hrest⟩, fun a ha b hb => ?_⟩
  · rw [hm]
    rcases List.mem_append.mp hb with hb | hb
    · exact Int.le_of_lt (hback b hb)
    · exact Int.le_trans (hpost b hb) (Int.le_of_lt (Int.lt_succ _))
  · rcases List.mem_cons.mp hb with rfl | hb
    · rw [hm]
      exact hheavy a ha
    · exact hcross a ha b hb

/-- What `pgrest_rtree_child_priority` does to children in order. -/
theorem childPriority_front {n n' : Node α} {pos new : Nat} (h : childPriority n pos = some (n', new))
    (ho : Ordered n.children) :
    ∃ front back post child indices, n.children = front ++ back ++ child :: post ∧ (front ++ back).length = pos ∧
      new = front.length ∧
      n' = { n with
        children := front ++ { child with priority := child.priority + 1 } :: (back ++ post), indices := indices } ∧
      ∀ m : Node α, m.priority = child.priority + 1 → Ordered (front ++ m :: (back ++ post)) := by
  cases hm : n.children[pos]? with
  | none => simp [childPriority, hm] at h
  | some child =>
    cases hc : n.indices[pos]? with
    | none => simp [childPriority, hm, hc] at h
    | some c =>
      obtain ⟨hlt, hget⟩ := List.getElem?_eq_some_iff.mp hm
      obtain ⟨pre, post, hsplit, hlen⟩ : ∃ pre post, n.children = pre ++ child :: post ∧ pre.length = pos := by
        refine ⟨n.children.take pos, n.children.drop (pos + 1), ?_, List.length_take_of_le (Nat.le_of_lt hlt)⟩
        rw [← hget, ← List.drop_eq_getElem_cons hlt, List.take_append_drop]
      obtain ⟨front, back, rfl, hback, hfront, hbubble⟩ :=
        bubble_front (child.priority + 1) pre { child with priority := child.priority + 1 } post
      have hset : n.children.set pos { child with priority := child.priority + 1 } =
          front ++ back ++ { child with priority := child.priority + 1 } :: post := by
        rw [hsplit, ← hlen, List.set_append_right _ _ (Nat.le_refl _), Nat.sub_self, List.set_cons_zero]
      subst hlen
      simp only [childPriority, hm, hc, hset, hbubble, Option.some.injEq, Prod.mk.injEq] at h
      obtain ⟨rfl, rfl⟩ := h
      exact ⟨front, back, post, child, _, hsplit, rfl, rfl, rfl,
        fun m hp => ordered_front (hsplit ▸ ho) hback hfront hp⟩

/-- A child that has been counted up takes the handler where it has come to. -/
theorem Took.moved {n n₁ m m' : Node α} {pos new : Nat} {x : α} (h : childPriority n pos = some (n₁, new))
    (ho : Ordered n.children) (hw : ∀ b ∈ n.children.eraseIdx pos, Weighed b) (hm : n₁.children[new]? = some m)
    (hp : m.priority = (handlers m).length + 1) (ht : Took m m' x) :
    Took n { n₁ with children := n₁.children.set new m' } x := by
  obtain ⟨hhandler, hperm, -⟩ := childPriority_handlers h
  obtain ⟨front, back, post, child, indices, hchildren, hlen, rfl, rfl, hordered⟩ := childPriority_front h ho
  dsimp only at hm hhandler hperm ⊢
  have hm' : m = { child with priority := child.priority + 1 } := by simpa using hm.symm
  have hset : (front ++ { child with priority := child.priority + 1 } :: (back ++ post)).set front.length m' =
      front ++ m' :: (back ++ post) := by
    rw [List.set_append_right _ _ (Nat.le_refl _), Nat.sub_self, List.set_cons_zero]
  have herase : n.children.eraseIdx pos = front ++ back ++ post := by
    rw [hchildren, ← hlen, List.eraseIdx_append_of_length_le (Nat.le_refl _), Nat.sub_self, List.eraseIdx_cons_zero]
  refine ⟨settled_iff.mpr ⟨?_, ?_⟩, rfl, ?_⟩
  · rw [hset]
    exact hordered m' (by rw [ht.priority, hm'])
  · intro b hb
    rw [hset] at hb
    rcases List.mem_append.mp hb with hb | hb
    · exact hw b (by rw [herase]; simp [hb])
    rcases List.mem_cons.mp hb with rfl | hb
    · exact ht.weighed hp
    · refine hw b ?_
      rw [herase, List.append_assoc]
      exact List.mem_append_right _ hb
  · have hgains := (Gains.set hm ht.gains).own n.handler.toList
    have hold : (n.handler.toList ++
        (front ++ { child with priority := child.priority + 1 } :: (back ++ post)).flatMap handlers).Perm
        (handlers n) := by
      rw [handlers_eq n]
      exact hperm.append_left _
    rw [Gains, handlers_eq { n with children := _, indices := _ }]
    exact hgains.trans (hold.cons x)

/-! ### Inserting -/

theorem Line.weighed {x : α} {m : Node α} (h : Line x m) : Weighed m := by
  induction h with
  | last children handler priority => exact .leaf children handler priority
  | above children handler priority line ih =>
    refine ih.one children handler (priority.trans ?_)
    rw [ih.weight, line.handlers]
    rfl

/-- A new handler takes a new place below the node, or the node's own. -/
theorem childInsert_took {n n' : Node α} {k : Int} {before : Option UInt8} {seen text : Bytes} {x : α}
    (hs : Settled n) (hfree : 0 < k ∨ n.handler = none)
    (h : childInsert n k before seen text (some x) = some (true, n')) : Took n n' x := by
  have hgains : Gains (handlers n) (handlers n') none x := by
    have hall := childInsert_gains h
    rcases hfree with hk | hnone
    · rwa [if_neg (Int.not_le.mpr hk)] at hall
    · rwa [hnone, ite_self] at hall
  rcases childInsert_inv h with ⟨-, path, rfl⟩ | ⟨-, -, path, wildChild, indices, m, hline, rfl⟩
  · exact ⟨hs.congr rfl, rfl, hgains⟩
  · exact ⟨.one rfl hline.weighed, rfl, hgains⟩

/-- A new child takes the handler, in its place by the priority it has then. -/
theorem appendChild_took {n n' : Node α} {c : UInt8} {path : Bytes} {before : Option UInt8} {k : Int} {x : α}
    (hs : Settled n) (hlen : n.indices.length = n.children.length)
    (h : appendChild n c path before k (some x) = some (true, n')) : Took n n' x := by
  obtain ⟨hordered, hweighed⟩ := settled_iff.mp hs
  simp only [appendChild, hlen, if_true] at h
  obtain ⟨⟨n₁, new⟩, hprio, hrest⟩ := Option.bind_eq_some_iff.mp h
  obtain ⟨m, hm, hins⟩ := Option.bind_eq_some_iff.mp hrest
  obtain ⟨⟨ok, m'⟩, hchild, heq⟩ := Option.map_eq_some_iff.mp hins
  cases heq
  dsimp only at hm hchild
  have hpush : Ordered (n.children ++ [({ maxParams := k } : Node α)]) := by
    refine List.pairwise_append.mpr ⟨hordered, List.pairwise_singleton _ _, fun a ha b hb => ?_⟩
    rw [List.mem_singleton.mp hb, (hweighed a ha).weight]
    exact Int.natCast_nonneg _
  obtain ⟨front, back, post, child, indices, hchildren, hpos, rfl, rfl, -⟩ := childPriority_front hprio hpush
  -- the child that has been counted up is the new one
  obtain ⟨hfront, hlast⟩ := List.append_inj hchildren hpos.symm
  obtain ⟨rfl, rfl⟩ := List.cons.inj hlast
  obtain rfl : m = { maxParams := k, priority := 1 } := by simpa using hm.symm
  have htook : Took ({ maxParams := k, priority := 1 } : Node α) m' x :=
    childInsert_took (.none rfl) (Or.inr rfl) hchild
  refine (htook.moved hprio hpush (fun b hb => hweighed b ?_) hm (by simp [handlers_eq])).of_eq rfl ?_
  · simpa [List.eraseIdx_append_of_length_le] using hb
  · simp [handlers_eq]

/-! ### One round -/

theorem Ok.wild_inv {slot : Slot} {n : Node α} (h : Ok slot n) (hw : n.wildChild = true) :
    n.indices = [] ∧ ∃ m below, n.children = [m] ∧ Ok below m ∧
      ((below = .param ∧ m.type = .param) ∨ (below = .catchall ∧ m.type = .catchall)) := by
  cases h with
  | static _ _ _ wild => exact absurd (wild.symm.trans hw) Bool.false_ne_true
  | wild _ _ _ _ edges children below =>
    obtain ⟨_, _, htype, -⟩ := below.inv_param
    exact ⟨edges, _, _, children, below, Or.inl ⟨rfl, htype⟩⟩
  | param _ _ _ wild => exact absurd (wild.symm.trans hw) Bool.false_ne_true
  | catchallFirst _ _ _ _ edges children below =>
    obtain ⟨_, _, htype, -⟩ := below.inv_catchall
    exact ⟨edges, _, _, children, below, Or.inr ⟨rfl, htype⟩⟩
  | catchall _ _ _ wild => exact absurd (wild.symm.trans hw) Bool.false_ne_true

/-- Without a wildcard the children are found by their bytes, but for the one child of a parameter. -/
theorem Ok.plain_inv {slot : Slot} {n : Node α} (h : Ok slot n) (hw : n.wildChild = false) :
    n.indices.Nodup ∧ (∀ (j : Nat) c m, n.indices[j]? = some c → n.children[j]? = some m →
        wildcard c = false ∧ Ok (.index c) m) ∧
      (n.indices.length = n.children.length ∨ (n.type = .param ∧ n.children.length = 1)) ∧
      (n.type = .param → ∀ m ∈ n.children, Ok (.index slash) m) := by
  cases h with
  | static _ type _ _ edges nodup len below =>
    refine ⟨nodup, fun j c m hc hm => ⟨edges c (List.mem_of_getElem? hc), below j c m hc hm⟩, Or.inl len, fun hp => ?_⟩
    rcases type with ht | ht <;> simp [ht] at hp
  | wild _ _ _ wild => exact absurd (hw.symm.trans wild) Bool.false_ne_true
  | param type _ _ _ edges few len below =>
    refine ⟨?_, fun j c m hc hm => ?_, ?_, fun _ => below⟩
    · rcases edges with he | he <;> simp [he]
    · obtain rfl : c = slash := by
        have hmem := List.mem_of_getElem? hc
        rcases edges with he | he
        · simp [he] at hmem
        · simpa [he] using hmem
      exact ⟨rfl, below m (List.mem_of_getElem? hm)⟩
    · by_cases hone : n.children.length = 1
      · exact Or.inr ⟨type, hone⟩
      · exact Or.inl (by omega)
  | catchallFirst _ _ wild => exact absurd (hw.symm.trans wild) Bool.false_ne_true
  | catchall type _ _ _ _ edges nodup len below =>
    exact ⟨nodup, fun j c m hc hm => ⟨by rw [edges c (List.mem_of_getElem? hc)]; rfl, below j c m hc hm⟩, Or.inl len,
      fun hp => by simp [type] at hp⟩

/-- The add has come to the node, and counted the handler. -/
structure Counted (n : Node α) : Prop where
  settled : Settled n
  used : handlers n ≠ []
  priority : n.priority = (handlers n).length + 1

theorem Weighed.counted {n : Node α} (h : Weighed n) (k : Int) :
    Counted { n with maxParams := k, priority := n.priority + 1 } := by
  have hsame : handlers { n with maxParams := k, priority := n.priority + 1 } = handlers n := handlers_weigh n k _
  refine ⟨h.settled.congr rfl, hsame ▸ h.used, ?_⟩
  rw [hsame, ← h.weight]

/-- The only child takes the handler. -/
theorem Took.only {n m m' : Node α} {k : Int} {x : α} (hc : n.children = [m]) (hm : Weighed m)
    (h : Took { m with maxParams := k, priority := m.priority + 1 } m' x) : Took n { n with children := [m'] } x := by
  refine ⟨.one rfl (h.weighed (hm.counted k).priority), rfl, ?_⟩
  have hgains := h.gains
  rw [handlers_weigh] at hgains
  rw [Gains, handlers_eq n, handlers_eq { n with children := _ }, hc, List.flatMap_singleton, List.flatMap_singleton]
  exact hgains.own n.handler.toList

/-- Where the code continues at a node below, that node takes the handler. -/
def Descends (loop : Node α → Bytes → Option UInt8 → Int → Option α → Option (Bool × Node α)) (path : Bytes)
    (x : α) : Prop :=
  ∀ {below : Slot} {m m' : Node α} {before k}, Ok below m → Enters below m path k → Counted m →
    loop m path before k (some x) = some (true, m') → Took m m' x

section Round
variable {loop : Node α → Bytes → Option UInt8 → Int → Option α → Option (Bool × Node α)} {slot : Slot}
  {n n' : Node α} {c : UInt8} {tail path : Bytes} {before : Option UInt8} {k : Int} {x : α}

/-- The path goes on at the wildcard of the node. -/
theorem Descends.wild {m m' : Node α} {siblings : List (Node α)} (hloop : Descends loop (c :: tail) x)
    (h : Ok slot n) (hs : Settled n) (hk : k = (c :: tail).countP wildcard) (hw : n.wildChild = true)
    (hchildren : n.children = m :: siblings)
    (hsame : sameWildcard (noteParams { m with priority := m.priority + 1 } k).path (c :: tail) = true)
    (hgoes : loop (noteParams { m with priority := m.priority + 1 } k) (c :: tail) before (k - 1) (some x) =
      some (true, m')) : Took n { n with children := m' :: siblings } x := by
  obtain ⟨-, m₁, below, hone, hok, hbelow⟩ := h.wild_inv hw
  obtain ⟨rfl, rfl⟩ := List.cons.inj (hchildren.symm.trans hone)
  obtain ⟨p, hp⟩ := noteParams_eq { m with priority := m.priority + 1 } k
  rw [hp] at hsame hgoes
  have hmw : Weighed m := (settled_iff.mp hs).2 m (by simp [hchildren])
  have hcount : k - 1 + 1 = ((c :: tail).countP wildcard : Nat) := by omega
  have henters : Enters below { m with maxParams := p, priority := m.priority + 1 } (c :: tail) (k - 1) := by
    rcases hbelow with ⟨rfl, -⟩ | ⟨rfl, -⟩
    · exact ⟨hsame, hcount⟩
    · exact ⟨hsame, hcount⟩
  exact Took.only hchildren hmw (hloop (hok.weigh p _) henters (hmw.counted p) hgoes)

/-- It goes on at the child of a parameter. -/
theorem Descends.param {m m' : Node α} {siblings : List (Node α)} (hloop : Descends loop (c :: tail) x)
    (h : Ok slot n) (hs : Settled n) (hk : k = (c :: tail).countP wildcard) (hw : n.wildChild = false)
    (hslash : (c == slash && n.children.length == 1 && n.type == .param) = true)
    (hchildren : n.children = m :: siblings)
    (hgoes : loop { m with priority := m.priority + 1 } (c :: tail) before k (some x) = some (true, m')) :
    Took n { n with children := m' :: siblings } x := by
  simp only [Bool.and_eq_true, beq_iff_eq] at hslash
  obtain ⟨⟨rfl, hone⟩, hparam⟩ := hslash
  obtain ⟨-, -, -, hparams⟩ := h.plain_inv hw
  obtain rfl : siblings = [] := by simpa [hchildren] using hone
  have hok : Ok (.index slash) m := hparams hparam m (by simp [hchildren])
  have hmw : Weighed m := (settled_iff.mp hs).2 m (by simp [hchildren])
  exact Took.only hchildren hmw (hloop (hok.weigh m.maxParams _) ⟨rfl, rfl, hk⟩ (hmw.counted m.maxParams) hgoes)

/-- It goes on at the child behind its byte, which comes forward first. -/
theorem Descends.index {j new : Nat} {n₁ m m' : Node α} (hloop : Descends loop (c :: tail) x) (h : Ok slot n)
    (hs : Settled n) (hk : k = (c :: tail).countP wildcard) (hw : n.wildChild = false)
    (hj : n.indices[j]? = some c) (hmoved : childPriority n j = some (n₁, new)) (hm : n₁.children[new]? = some m)
    (hgoes : loop m (c :: tail) before k (some x) = some (true, m')) :
    Took n { n₁ with children := n₁.children.set new m' } x := by
  obtain ⟨hordered, hweighed⟩ := settled_iff.mp hs
  obtain ⟨-, hbelow, -⟩ := h.plain_inv hw
  obtain ⟨front, back, post, child, indices, hchildren, hpos, hnew, hn₁, -⟩ := childPriority_front hmoved hordered
  have hmc : m = { child with priority := child.priority + 1 } := by
    rw [hn₁, hnew] at hm
    simpa using hm.symm
  have hat : n.children[j]? = some child := by rw [hchildren, ← hpos]; simp
  obtain ⟨hc, hok⟩ := hbelow j c child hj hat
  have hmw : Weighed child := hweighed child (List.mem_of_getElem? hat)
  have hcounted : Counted m := hmc ▸ hmw.counted child.maxParams
  have henters : Enters (.index c) m (c :: tail) k := ⟨rfl, hc, hk⟩
  have htook : Took m m' x := hloop (hmc ▸ hok.weigh child.maxParams _) henters hcounted hgoes
  exact htook.moved hmoved hordered (fun b hb => hweighed b (List.mem_of_mem_eraseIdx hb)) hm hcounted.priority

/-- One round behind the node's own path. -/
theorem addBelow_took (h : Ok slot n) (hs : Settled n) (hk : k = path.countP wildcard)
    (hseg : n.type = .param → AtSegmentEnd path) (hloop : Descends loop path x)
    (heq : addBelow loop n path before k (some x) = some (true, n')) : Took n n' x := by
  cases addBelow_round heq with
  | leaf free =>
    have hgains := gains_leaf n n.path x
    rw [free] at hgains
    exact ⟨hs.congr rfl, rfl, hgains⟩
  | wild wild children same goes => exact hloop.wild h hs hk wild children same goes
  | param plain slash children goes =>
    exact hloop.param h hs hk (Bool.eq_false_iff.mpr plain) slash children goes
  | index plain slash found moved child goes =>
    exact hloop.index h hs hk (Bool.eq_false_iff.mpr plain) (findIdx?_byte_at found) moved child goes
  | insert plain slash found special inserts =>
    refine childInsert_took hs (Or.inl ?_) inserts
    rw [hk, List.countP_cons_of_pos special]
    omega
  | append plain notSlash found special appends =>
    refine appendChild_took hs ?_ appends
    obtain ⟨-, -, hlen, -⟩ := h.plain_inv (Bool.eq_false_iff.mpr plain)
    rcases hlen with hlen | ⟨hparam, hone⟩
    · exact hlen
    · -- behind the name of a parameter there is a slash
      rcases hseg hparam with hend | hend
      · cases hend
      · obtain rfl := Option.some.inj hend
        exact absurd (by simp [hone, hparam]) notSlash

end Round

/-! ### The loop and the whole add -/

theorem Counted.noted {n : Node α} (h : Counted n) (k : Int) :
    Counted { n with maxParams := k, priority := n.priority } := by
  have hsame : handlers { n with maxParams := k, priority := n.priority } = handlers n := handlers_weigh n k _
  exact ⟨h.settled.congr rfl, hsame ▸ h.used, by rw [hsame]; exact h.priority⟩

/-- The child that is split off has the handlers that were there before. -/
theorem Counted.split {n : Node α} (h : Counted n) (path : Bytes) (i : Nat) : Settled (split n path i) := by
  obtain ⟨child, hchildren, hpriority, hbelow, hhandlers⟩ : ∃ child, (Rtree.split n path i).children = [child] ∧
      child.priority = n.priority - 1 ∧ child.children = n.children ∧ handlers child = handlers n :=
    ⟨_, rfl, rfl, rfl, by simp only [handlers_eq]⟩
  refine .one hchildren ⟨?_, hhandlers ▸ h.used, h.settled.congr hbelow⟩
  rw [hpriority, h.priority, hhandlers, Int.add_sub_cancel]

/-- What is left of the path behind a node's text. -/
theorem Enters.rest {slot : Slot} {n : Node α} {path rest : Bytes} {k : Int} (he : Enters slot n path k)
    (h : Ok slot n) (hpath : path = n.path ++ rest) :
    k = rest.countP wildcard ∧ (n.type = .param → AtSegmentEnd rest) := by
  have hwhole : slot = .param ∨ slot = .catchall →
      k = rest.countP wildcard ∧ (n.type = .param → AtSegmentEnd rest) := fun hs => by
    obtain ⟨rest', hpath', hend, hk⟩ := sameWildcard_whole h he hs
    obtain rfl : rest = rest' := List.append_cancel_left (hpath.symm.trans hpath')
    exact ⟨hk, fun _ => hend⟩
  have hliteral : Literal n.path → n.type ≠ .param → (slot = .root ∨ ∃ c, slot = .index c) →
      k = rest.countP wildcard ∧ (n.type = .param → AtSegmentEnd rest) := fun hlit htype hs =>
    ⟨(hpath ▸ he).expected hs hlit, fun hp => absurd hp htype⟩
  have hstatic : n.type = .static ∨ n.type = .root → n.type ≠ .param := fun htype hp => by
    rcases htype with ht | ht <;> simp [ht] at hp
  cases h with
  | static starts type literal => exact hliteral literal (hstatic type) starts.slot_cases
  | wild starts type literal => exact hliteral literal (hstatic type) starts.slot_cases
  | param => exact hwhole (Or.inl rfl)
  | catchallFirst type hnil => exact hliteral (by simp [hnil]) (by simp [type]) (Or.inr ⟨_, rfl⟩)
  | catchall => exact hwhole (Or.inr rfl)

theorem addLoop_took {fuel : Nat} {slot : Slot} {n n' : Node α} {path : Bytes} {before : Option UInt8} {k : Int}
    {x : α} (h : Ok slot n) (he : Enters slot n path k) (hnul : (0 : UInt8) ∉ path) (hn : Counted n)
    (heq : addLoop fuel n path before k (some x) = some (true, n')) : Took n n' x := by
  induction fuel generalizing slot n n' path before k with
  | zero => cases heq
  | succ fuel ih =>
    rw [addLoop] at heq
    obtain ⟨p, hp⟩ := noteParams_eq n k
    generalize noteParams n k = noted at hp heq
    have hok : Ok slot noted := hp ▸ h.weigh p n.priority
    have henters : Enters slot noted path k := by
      rw [hp]
      cases slot <;> exact he
    have hcounted : Counted noted := hp ▸ hn.noted p
    suffices Took noted n' x from this.of_eq (by rw [hp]) (by rw [hp, handlers_weigh])
    clear hp he hn h
    have hrest (i : Nat) : (0 : UInt8) ∉ path.drop i := fun hz => hnul (List.mem_of_mem_drop hz)
    by_cases hi : commonPrefix path noted.path < noted.path.length
    · simp only [if_pos hi] at heq
      have hslot := henters.slot_of_split hok hi
      have htake := take_commonPrefix path noted.path
      obtain ⟨htype, hlit⟩ := hok.inv_static hslot (fun hnil => by simp [hnil] at hi)
      obtain ⟨hsplit, -⟩ := split_ok hok hi (by
        rcases hslot with rfl | ⟨c, rfl⟩
        · exact Or.inl rfl
        · exact Or.inr ⟨c, rfl, henters.1⟩)
      have hlit' : Literal (path.take (commonPrefix path noted.path)) := by
        rw [htake]
        exact literal_of_sublist (List.take_sublist _ _) hlit
      have hk : k = (path.drop (commonPrefix path noted.path)).countP wildcard :=
        Enters.expected (by rw [List.take_append_drop]; exact henters) hslot hlit'
      have htook := addBelow_took hsplit (hcounted.split path _) hk (fun hparam => ?_)
        (fun hok he hn heq => ih hok he (hrest _) hn heq) heq
      · exact htook.of_eq rfl (handlers_split noted path _)
      · have htype' : noted.type = .param := hparam
        rcases htype with ht | ht <;> simp [ht] at htype'
    · simp only [if_neg hi] at heq
      obtain ⟨rest, hpath, hdrop, -⟩ := commonPrefix_whole hi
      obtain ⟨hk, hseg⟩ := henters.rest hok hpath
      rw [hdrop] at heq
      exact addBelow_took hok hcounted.settled hk hseg
        (fun hok he hn heq => ih hok he (hdrop ▸ hrest _) hn heq) heq

/-- A tree that nothing has been added to, or that counts its handlers. -/
structure Counting (n : Node α) : Prop where
  ok : Ok .root n
  settled : Settled n
  weight : n.priority = (handlers n).length
  used : handlers n ≠ [] ∨ (n.path = [] ∧ n.children = [])

theorem Counting.add {n n' : Node α} (h : Counting n) {path : Bytes} (hw : WellFormed path) {x : α}
    (heq : add n path (some x) = some (true, n')) : Counting n' := by
  suffices hweighed : Weighed n' from
    ⟨(add_spec h.ok hw.ne hw.nul hw.few heq).1, hweighed.settled, hweighed.weight, Or.inl hweighed.used⟩
  have hcount : ∀ t, (handlers { n with type := t, priority := n.priority + 1 }) = handlers n := fun t => by
    simp only [handlers_eq]
  rw [Rtree.add, countParams_eq hw.few] at heq
  dsimp only at heq
  split at heq
  · next hempty =>
    have hfresh := root_fresh h.ok (List.length_eq_zero_iff.mp hempty.1) (List.length_eq_zero_iff.mp hempty.2)
      (n.priority + 1)
    have htook := childInsert_took (.none hfresh.children) (Or.inr hfresh.handler) heq
    exact htook.weighed (by rw [hcount, ← h.weight])
  · next hfull =>
    have hused : handlers n ≠ [] := h.used.resolve_right fun hempty =>
      hfull ⟨List.length_eq_zero_iff.mpr hempty.1, List.length_eq_zero_iff.mpr hempty.2⟩
    have hcounted := Weighed.counted ⟨h.weight, hused, h.settled⟩ n.maxParams
    have henters : Enters .root { n with maxParams := n.maxParams, priority := n.priority + 1 } path
        (path.countP wildcard) :=
      ⟨hw.ne, fun hp hc => hfull ⟨List.length_eq_zero_iff.mpr hp, List.length_eq_zero_iff.mpr hc⟩, rfl⟩
    have htook := addLoop_took (h.ok.weigh n.maxParams (n.priority + 1)) henters hw.nul hcounted heq
    exact htook.weighed hcounted.priority

theorem Counting.addAll {n tree : Node α} (h : Counting n) {pairs : List (Bytes × α)}
    (hwf : ∀ p ∈ pairs, WellFormed p.1) (heq : addAll n pairs = some (tree, pairs)) : Counting tree := by
  induction pairs generalizing n with
  | nil =>
    cases heq
    exact h
  | cons pair pairs ih =>
    obtain ⟨path, x⟩ := pair
    obtain ⟨n₁, hadd, hall⟩ := addAll_accepted heq
    exact ih (h.add (hwf _ List.mem_cons_self) hadd) (fun p hp => hwf p (List.mem_cons_of_mem _ hp)) hall

theorem counting_create : Counting (create : Node α) where
  ok := create_ok
  settled := .none rfl
  weight := by rw [handlers_create]; rfl
  used := Or.inr ⟨rfl, rfl⟩

/-! ### Every node -/

/-- The nodes of a tree. -/
inductive Within (tree : Node α) : Node α → Prop where
  | root : Within tree tree
  | child {n m : Node α} (parent : Within tree n) (mem : m ∈ n.children) : Within tree m

/-- The first byte of the text below a node: of its path, or else of what its subtree goes on with. -/
inductive Leads (c : UInt8) : Node α → Prop where
  | text {n : Node α} (path : n.path.head? = some c) : Leads c n
  | onward {n : Node α} (path : n.path = []) (some : n.children ≠ []) (all : ∀ m ∈ n.children, Leads c m) :
    Leads c n

structure NodeSound (n : Node α) : Prop where
  wild : n.wildChild = true → n.indices = [] ∧
    ∃ m, n.children = [m] ∧ (m.type = .param ∨ m.type = .catchall)
  edges : n.wildChild = false → ¬(n.type = .param ∧ n.children.length = 1) →
    n.indices.length = n.children.length ∧ n.indices.Nodup ∧
      ∀ (j : Nat) c m, n.indices[j]? = some c → n.children[j]? = some m → Leads c m
  ordered : n.children.Pairwise fun a b => b.priority ≤ a.priority
  priority : n.priority = (handlers n).length

/-- A child with handlers is found by the first byte of the text below it. -/
theorem Ok.leads {c : UInt8} {n : Node α} (h : Ok (.index c) n) (hw : Weighed n) : Leads c n := by
  generalize hs : Slot.index c = slot at h
  induction h generalizing c with
  | @static slot n starts type literal wild edges nodup len below ih =>
    subst hs
    rcases starts with hp | ⟨hp, hh, -, hd⟩
    · exact .text hp
    · have hused := hw.used
      rw [handlers_eq, hh, Option.toList_none, List.nil_append] at hused
      refine .onward hp (fun hnil => hused (by rw [hnil]; rfl)) fun m hm => ?_
      obtain ⟨j, hj⟩ := List.getElem?_of_mem hm
      have hjl : j < n.indices.length := len ▸ (List.getElem?_eq_some_iff.mp hj).1
      have hjc : n.indices[j]? = some c := by
        rw [List.getElem?_eq_getElem hjl, hd _ (List.getElem_mem hjl)]
      exact ih j c m hjc hj ((settled_iff.mp hw.settled).2 m hm) rfl
  | wild starts type literal wild =>
    subst hs
    rcases starts with hp | ⟨-, -, hplain, -⟩
    · exact .text hp
    · exact absurd (hplain.symm.trans wild) Bool.false_ne_true
  | param => cases hs
  | catchallFirst type path wild handler edges children below =>
    cases hs
    refine .onward path (by simp [children]) fun m hm => .text ?_
    obtain rfl : m = _ := by simpa [children] using hm
    obtain ⟨name, -, -, hpath, -⟩ := below.inv_catchall
    rw [hpath, List.head?_cons]
  | catchall => cases hs

theorem Ok.sound {slot : Slot} {n : Node α} (h : Ok slot n) (hs : Settled n)
    (hp : n.priority = (handlers n).length) : NodeSound n := by
  obtain ⟨hordered, hweighed⟩ := settled_iff.mp hs
  refine ⟨fun hw => ?_, fun hw hone => ?_, hordered, hp⟩
  · obtain ⟨hindices, m, below, hchildren, hok, htype⟩ := h.wild_inv hw
    exact ⟨hindices, m, hchildren, htype.imp And.right And.right⟩
  · obtain ⟨hnodup, hbelow, hlen, -⟩ := h.plain_inv hw
    refine ⟨hlen.resolve_right hone, hnodup, fun j c m hc hm => ?_⟩
    exact (hbelow j c m hc hm).2.leads (hweighed m (List.mem_of_getElem? hm))

theorem Ok.children {slot : Slot} {n m : Node α} (h : Ok slot n) (hm : m ∈ n.children) : ∃ below, Ok below m := by
  cases hw : n.wildChild with
  | true =>
    obtain ⟨-, m', below, hchildren, hok, -⟩ := h.wild_inv hw
    obtain rfl : m = m' := by simpa [hchildren] using hm
    exact ⟨below, hok⟩
  | false =>
    obtain ⟨-, hbelow, hlen, hparam⟩ := h.plain_inv hw
    rcases hlen with hlen | ⟨htype, -⟩
    · obtain ⟨j, hj⟩ := List.getElem?_of_mem hm
      have hjl : j < n.indices.length := hlen ▸ (List.getElem?_eq_some_iff.mp hj).1
      exact ⟨_, (hbelow j _ m (List.getElem?_eq_getElem hjl) hj).2⟩
    · exact ⟨_, hparam htype m hm⟩

/-- **Every node is sound** in a route table all of whose routes have been accepted: its children, their
index bytes and the priorities fit. -/
theorem node_sound {pairs : List (Bytes × α)} (hwf : ∀ p ∈ pairs, WellFormed p.1) {tree : Node α}
    (hadd : addAll create pairs = some (tree, pairs)) : ∀ n, Within tree n → NodeSound n := by
  have hcounting := counting_create.addAll hwf hadd
  have hall : ∀ n, Within tree n → (∃ slot, Ok slot n) ∧ Settled n ∧ n.priority = (handlers n).length := by
    intro n hn
    induction hn with
    | root => exact ⟨⟨_, hcounting.ok⟩, hcounting.settled, hcounting.weight⟩
    | @child n m parent mem ih =>
      obtain ⟨⟨slot, hok⟩, hsettled, -⟩ := ih
      have hweighed := (settled_iff.mp hsettled).2 m mem
      exact ⟨hok.children mem, hweighed.settled, hweighed.weight⟩
  intro n hn
  obtain ⟨⟨slot, hok⟩, hsettled, hweight⟩ := hall n hn
  exact hok.sound hsettled hweight

/-- `/b`, `/a` and `/a/:a`, with which the child at `a` comes in front of the one at `b`. -/
theorem node_sound_three : ∃ tree : Node Nat,
    addAll create [([47, 98], 0), ([47, 97], 1), ([47, 97, 47, 58, 97], 2)] =
      some (tree, [([47, 98], 0), ([47, 97], 1), ([47, 97, 47, 58, 97], 2)]) ∧
    ∀ n, Within tree n → NodeSound n := by
  have hname : NameOk [97] := ⟨by decide, by simp [Literal]; decide, by decide, by decide⟩
  have hwf : ∀ p ∈ [(([47, 98] : Bytes), 0), ([47, 97], 1), ([47, 97, 47, 58, 97], 2)], WellFormed p.1 := by
    intro p hp
    rcases List.mem_cons.mp hp with rfl | hp
    · exact ⟨by decide, by decide, by decide, .lit rfl (.lit rfl .nil)⟩
    rcases List.mem_cons.mp hp with rfl | hp
    · exact ⟨by decide, by decide, by decide, .lit rfl (.lit rfl .nil)⟩
    · obtain rfl := List.mem_singleton.mp hp
      exact ⟨by decide, by decide, by decide,
        .lit rfl (.lit rfl (.lit rfl (Shape.param hname (Or.inl rfl) .nil)))⟩
  have hrun : (addAll create [(([47, 98] : Bytes), 0), ([47, 97], 1), ([47, 97, 47, 58, 97], 2)]).map (·.2) =
      some [([47, 98], 0), ([47, 97], 1), ([47, 97, 47, 58, 97], 2)] := by decide +kernel
  obtain ⟨⟨tree, accepted⟩, hadd, heq⟩ := Option.map_eq_some_iff.mp hrun
  obtain rfl : accepted = _ := heq
  exact ⟨tree, hadd, node_sound hwf hadd⟩

end PgRest.Rtree
