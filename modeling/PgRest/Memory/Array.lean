import PgRest.Lib.Machine

/-! The dynamic array of `pg_rest_array.c`. Whether an allocation is granted is an input of the call that
makes it; the sizes stay far from wrapping, since `pgrest_util_alloc` grants no block of a gigabyte. What the
caller does with the slot it is given is part of the machine here: it writes the new element. -/
namespace PgRest.Memory
open Lib

/-- `pgrest_array_t`. The elements are the slots; what has not been written yet is `none`. -/
structure ArrayT (α : Type) where
  elts : List (Option α)
  size : Nat
  capacity : Nat
deriving DecidableEq, Repr

inductive ArrayOp (α : Type) where
  | push (v : α)
  | pushHead (v : α)
deriving DecidableEq, Repr

/-- What the caller sees. -/
inductive ArrayOut where
  /-- NULL is returned -/
  | null
  | slot (i : Nat)
  /-- the use of memory behind the slots -/
  | undefined
deriving DecidableEq, Repr

/-- `memmove`, within the slots and counted in them. -/
def memmove {α : Type} (elts : List (Option α)) (dst src n : Nat) : List (Option α) :=
  elts.take dst ++ (elts.drop src).take n ++ elts.drop (dst + n)

namespace ArrayT
variable {α : Type}

/-- `pgrest_array_init` -/
def init (capacity : Nat) : ArrayT α where
  elts := List.replicate capacity none
  size := 0
  capacity := capacity

/-- The slots are copied to a block of twice the size. -/
def grow (array : ArrayT α) : ArrayT α :=
  { array with
    elts := array.elts.take array.capacity ++ List.replicate array.capacity none
    capacity := array.capacity * 2 }

/-- The slot behind the elements, which is one of them then. -/
def take (array : ArrayT α) : Option Nat × ArrayT α :=
  (some array.size, { array with size := array.size + 1 })

/-- `pgrest_array_push`: the slot that is returned, if it is not NULL. -/
def push (array : ArrayT α) (granted : Bool) : Option Nat × ArrayT α :=
  if array.size = array.capacity then
    if granted then array.grow.take else (none, array)
  else array.take

/-- `pgrest_array_push_head`. It is none where the length of the `memmove` wraps. -/
def pushHead (array : ArrayT α) (granted : Bool) : Option (Option Nat × ArrayT α) :=
  let (elt, array) := array.push granted
  if array.size = 1 then some (elt, array)
  else if array.size = 0 then none
  -- whether the push has got a slot is not looked at
  else some (some 0, { array with elts := memmove array.elts 1 0 (array.size - 1) })

/-- The caller writes the slot it has got. -/
def write (v : α) : Option Nat × ArrayT α → ArrayOut × ArrayT α
  | (none, array) => (.null, array)
  | (some i, array) =>
    if i < array.elts.length then (.slot i, { array with elts := array.elts.set i (some v) })
    else (.undefined, array)

/-- A call, and whether the allocation it may make is granted. -/
def step (array : ArrayT α) : ArrayOp α × Bool → ArrayOut × ArrayT α
  | (.push v, granted) => write v (array.push granted)
  | (.pushHead v, granted) => ((array.pushHead granted).map (write v)).getD (.undefined, array)

def contents (array : ArrayT α) : List (Option α) := array.elts.take array.size

/-- The call has to allocate and is not granted the block. -/
def Exhausted (array : ArrayT α) (granted : Bool) : Prop := array.size = array.capacity ∧ granted = false

instance (array : ArrayT α) (granted : Bool) : Decidable (array.Exhausted granted) :=
  inferInstanceAs (Decidable (_ ∧ _))

/-- A push to the head that gets no slot at an array of two elements or more. -/
def Missed (array : ArrayT α) : ArrayOp α × Bool → Prop
  | (.push _, _) => False
  | (.pushHead _, granted) => array.Exhausted granted ∧ 2 ≤ array.size

end ArrayT

/-- The list with the new element. -/
def ArrayOp.extend {α : Type} : ArrayOp α → List (Option α) → List (Option α)
  | .push v, l => l ++ [some v]
  | .pushHead v, l => some v :: l

/-- A call does what it does to a list, or returns NULL and does nothing. -/
structure ListTurn {α : Type} (t : Turn (ArrayT α) (ArrayOp α × Bool) ArrayOut) : Prop where
  null : t.output = .null ↔ t.before.Exhausted t.input.2
  kept : t.output = .null → t.after.size = t.before.size ∧ t.after.capacity = t.before.capacity ∧
    t.after.contents = t.before.contents
  extended : t.output ≠ .null →
    t.output ≠ .undefined ∧ t.after.contents = t.input.1.extend t.before.contents
  bounded : t.after.size ≤ t.after.capacity

/-- What every call keeps. -/
structure ArrayT.Sound {α : Type} (array : ArrayT α) : Prop where
  places : array.elts.length = array.capacity
  bounded : array.size ≤ array.capacity
  room : 1 ≤ array.capacity

variable {α : Type} {array : ArrayT α} {granted : Bool}

theorem ArrayT.Sound.init {c : Nat} (h : 1 ≤ c) : (ArrayT.init c : ArrayT α).Sound where
  places := List.length_replicate
  bounded := Nat.zero_le c
  room := h

theorem ArrayT.Sound.grow (h : array.Sound) : array.grow.Sound where
  places := by
    simp only [ArrayT.grow, List.length_append, List.length_take, List.length_replicate, h.places]
    omega
  bounded := Nat.le_trans h.bounded (Nat.le_mul_of_pos_right _ (by decide))
  room := Nat.le_trans h.room (Nat.le_mul_of_pos_right _ (by decide))

theorem contents_grow (h : array.Sound) : array.grow.contents = array.contents := by
  have hbound := h.bounded
  have hplaces := h.places
  simp only [ArrayT.contents, ArrayT.grow]
  rw [List.take_append_of_le_length (by simp only [List.length_take]; omega), List.take_take,
    Nat.min_eq_left hbound]

theorem push_exhausted (h : array.Exhausted granted) : array.push granted = (none, array) := by
  rw [ArrayT.push, if_pos h.1, h.2, if_neg Bool.false_ne_true]

/-- A push that gets a slot takes it from an array with the same elements and room for one more. -/
theorem push_granted (h : array.Sound) (hx : ¬array.Exhausted granted) :
    ∃ wide : ArrayT α, array.push granted = wide.take ∧ wide.Sound ∧ wide.size = array.size ∧
      wide.contents = array.contents ∧ wide.size < wide.capacity := by
  have hroom := h.room
  by_cases hfull : array.size = array.capacity
  · have hgranted : granted = true := by
      cases granted with
      | true => rfl
      | false => exact absurd ⟨hfull, rfl⟩ hx
    refine ⟨array.grow, ?_, h.grow, rfl, contents_grow h, ?_⟩
    · rw [ArrayT.push, if_pos hfull, if_pos hgranted]
    · show array.size < array.capacity * 2
      omega
  · exact ⟨array, if_neg hfull, h, rfl, rfl, Nat.lt_of_le_of_ne h.bounded hfull⟩

theorem length_memmove {elts : List (Option α)} {n : Nat} (h : 1 + n ≤ elts.length) :
    (memmove elts 1 0 n).length = elts.length := by
  simp only [memmove, List.length_append, List.length_take, List.length_drop]
  omega

/-- Moved up by one slot, the elements leave the first one to the new one. -/
theorem take_set_memmove {elts : List (Option α)} {n : Nat} (h : n < elts.length) (v : Option α) :
    ((memmove elts 1 0 n).set 0 v).take (n + 1) = v :: elts.take n := by
  cases elts with
  | nil => simp at h
  | cons e elts =>
    have hlen : ((e :: elts).take n).length = n := List.length_take_of_le (Nat.le_of_lt h)
    simp only [memmove, List.take_succ_cons, List.take_zero, List.drop_zero, List.cons_append, List.nil_append,
      List.set_cons_zero]
    rw [List.take_append_of_le_length (Nat.le_of_eq hlen.symm), List.take_of_length_le (Nat.le_of_eq hlen)]

/-- The caller writes a slot of a sound array. -/
theorem ArrayT.Sound.write (h : array.Sound) (v : α) {i : Nat} (hi : i < array.capacity) :
    ArrayT.write v (some i, array) = (.slot i, { array with elts := array.elts.set i (some v) }) ∧
      ({ array with elts := array.elts.set i (some v) } : ArrayT α).Sound :=
  ⟨if_pos (h.places.symm ▸ hi), by simpa using h.places, h.bounded, h.room⟩

theorem ArrayT.Sound.take (h : array.Sound) (hroom : array.size < array.capacity) :
    ({ array with size := array.size + 1 } : ArrayT α).Sound :=
  ⟨h.places, hroom, h.room⟩

theorem step_pushHead {r : Option Nat × ArrayT α} (h : array.pushHead granted = some r) (v : α) :
    array.step (.pushHead v, granted) = ArrayT.write v r := by
  rw [ArrayT.step, h]
  rfl

/-- A call that gets its slot. -/
theorem step_granted (h : array.Sound) (op : ArrayOp α) (hx : ¬array.Exhausted granted) :
    ∃ i, (array.step (op, granted)).1 = .slot i ∧ (array.step (op, granted)).2.Sound ∧
      (array.step (op, granted)).2.contents = op.extend array.contents := by
  obtain ⟨wide, hpush, hwide, hsize, hcontents, hroom⟩ := push_granted h hx
  have htaken := hwide.take hroom
  have hlen : wide.size < wide.elts.length := by rwa [hwide.places]
  have hbehind (v : α) : (wide.elts.set wide.size (some v)).take (wide.size + 1) = array.contents ++ [some v] := by
    rw [List.take_add_one, List.take_set_of_le (Nat.le_refl _), List.getElem?_set_self hlen, ← hcontents]
    rfl
  cases op with
  | push v =>
    obtain ⟨hwrite, hsound⟩ := htaken.write v hroom
    have hstep : array.step (.push v, granted) = _ := (congrArg (ArrayT.write v) hpush).trans hwrite
    rw [hstep]
    exact ⟨wide.size, rfl, hsound, hbehind v⟩
  | pushHead v =>
    by_cases hone : wide.size + 1 = 1
    · have hhead : array.pushHead granted = some wide.take := by
        simp only [ArrayT.pushHead, hpush]
        exact if_pos hone
      obtain ⟨hwrite, hsound⟩ := htaken.write v hroom
      have hempty : array.contents = [] := by
        rw [ArrayT.contents, ← hsize, Nat.succ.inj hone, List.take_zero]
      rw [step_pushHead hhead v, ArrayT.take, hwrite]
      refine ⟨wide.size, rfl, hsound, (hbehind v).trans ?_⟩
      rw [hempty]
      rfl
    · have hhead : array.pushHead granted =
          some (some 0, { wide with size := wide.size + 1, elts := memmove wide.elts 1 0 wide.size }) := by
        simp only [ArrayT.pushHead, hpush]
        exact (if_neg hone).trans (if_neg (Nat.succ_ne_zero _))
      have hmoved : ({ wide with size := wide.size + 1, elts := memmove wide.elts 1 0 wide.size } : ArrayT α).Sound :=
        ⟨(length_memmove (by omega)).trans htaken.places, htaken.bounded, htaken.room⟩
      obtain ⟨hwrite, hsound⟩ := hmoved.write v htaken.room
      rw [step_pushHead hhead v, hwrite]
      refine ⟨0, rfl, hsound, (take_set_memmove hlen (some v)).trans ?_⟩
      rw [← hcontents]
      rfl

/-- A call that gets none does nothing and says so, unless it is one of those that do not look. -/
theorem step_exhausted (h : array.Sound) (op : ArrayOp α) (hx : array.Exhausted granted)
    (hmissed : ¬array.Missed (op, granted)) : array.step (op, granted) = (.null, array) := by
  have hpush := push_exhausted hx
  cases op with
  | push v => exact congrArg (ArrayT.write v) hpush
  | pushHead v =>
    have hroom := h.room
    have hfull := hx.1
    have hone : array.size = 1 := by
      have hfew : ¬2 ≤ array.size := fun htwo => hmissed ⟨hx, htwo⟩
      omega
    have hhead : array.pushHead granted = some (none, array) := by
      simp only [ArrayT.pushHead, hpush]
      exact if_pos hone
    exact step_pushHead hhead v

/-- A push to the head that does not look returns the first slot. -/
theorem step_missed {op : ArrayOp α} (h : array.Missed (op, granted)) :
    array.Exhausted granted ∧ (array.step (op, granted)).1 ≠ .null := by
  cases op with
  | push v => exact h.elim
  | pushHead v =>
    obtain ⟨hx, htwo⟩ := h
    have hhead : array.pushHead granted =
        some (some 0, { array with elts := memmove array.elts 1 0 (array.size - 1) }) := by
      simp only [ArrayT.pushHead, push_exhausted hx]
      exact (if_neg (by omega)).trans (if_neg (by omega))
    refine ⟨hx, ?_⟩
    rw [step_pushHead hhead v, ArrayT.write]
    split
    · exact ArrayOut.noConfusion
    · exact ArrayOut.noConfusion

theorem listTurn_iff (h : array.Sound) (input : ArrayOp α × Bool) :
    ListTurn (turn ArrayT.step array input) ↔ ¬array.Missed input := by
  obtain ⟨op, granted⟩ := input
  refine ⟨fun hturn hmissed => (step_missed hmissed).2 (hturn.null.mpr (step_missed hmissed).1), fun hmissed => ?_⟩
  by_cases hx : array.Exhausted granted
  · have hstep := step_exhausted h op hx hmissed
    simp only [turn, hstep]
    exact ⟨iff_of_true rfl hx, fun _ => ⟨rfl, rfl, rfl⟩, fun hne => absurd rfl hne, h.bounded⟩
  · obtain ⟨i, hslot, hsound, hcontents⟩ := step_granted h op hx
    simp only [turn, hslot]
    exact ⟨iff_of_false ArrayOut.noConfusion hx, ArrayOut.noConfusion,
      fun _ => ⟨ArrayOut.noConfusion, hcontents⟩, hsound.bounded⟩

theorem ArrayT.Sound.step (h : array.Sound) {input : ArrayOp α × Bool} (hmissed : ¬array.Missed input) :
    (array.step input).2.Sound := by
  obtain ⟨op, granted⟩ := input
  by_cases hx : array.Exhausted granted
  · rw [step_exhausted h op hx hmissed]
    exact h
  · obtain ⟨_, -, hsound, -⟩ := step_granted h op hx
    exact hsound

/-- **The array behaves as a list** through every run of calls and failures of the allocator, exactly when no
push to the head gets no slot at a full array of two elements or more. -/
theorem array_lists {c : Nat} (h : 1 ≤ c) (ops : List (ArrayOp α × Bool)) :
    (∀ t ∈ turns ArrayT.step (.init c) ops, ListTurn t) ↔
      ∀ t ∈ turns ArrayT.step (.init c) ops, ¬t.before.Missed t.input :=
  turns_iff (fun _ input hs => listTurn_iff hs input) (fun _ _ hs hmissed => hs.step hmissed)
    (ArrayT.Sound.init h) ops

theorem array_lists_two : 1 ≤ 2 ∧
    ((∀ t ∈ turns ArrayT.step (.init 2) [(.pushHead 'a', true), (.push 'b', true)], ListTurn t) ↔
      ∀ t ∈ turns ArrayT.step (.init 2) [(.pushHead 'a', true), (.push 'b', true)], ¬t.before.Missed t.input) :=
  ⟨by decide, array_lists (by decide) _⟩

/-- Two elements fill an array of two; a push to the head that is not granted a larger block moves the first
over the second and returns a slot. -/
theorem array_lists_missed : ¬∀ t ∈ turns ArrayT.step (.init 2)
    [(.push 'a', true), (.push 'b', true), (.pushHead 'c', false)], ListTurn t := by
  intro h
  have hlast := h ⟨⟨[some 'a', some 'b'], 2, 2⟩, (.pushHead 'c', false), .slot 0, ⟨[some 'c', some 'a'], 2, 2⟩⟩
    (by simp [turns, turn, ArrayT.step, ArrayT.init, ArrayT.push, ArrayT.take, ArrayT.pushHead, ArrayT.write, memmove])
  exact ArrayOut.noConfusion (hlast.null.mpr ⟨rfl, rfl⟩)

end PgRest.Memory
