import PgRest.Lib.Circle
import PgRest.Lib.Machine

/-! The circular queue of `pg_rest_cqueue.c`. A queue that `pgrest_cqueue_create` returns has room for
`capacity` elements; what the caller does with the pointers it is given is part of the machine here: it
writes the element it pushes, and reads the one it pops at once. -/
namespace PgRest.Memory
open Lib

/-- `pgrest_cqueue_t`. The elements are the slots; what has not been written yet is `none`. -/
structure CQueue (α : Type) where
  elts : List (Option α)
  size : UInt64
  capacity : UInt64
  head : UInt64
  tail : UInt64

/-- What the caller sees. -/
inductive CQueueOut (α : Type) where
  /-- NULL is returned -/
  | null
  | pushed
  | popped (v : α)
  /-- division by zero, or the use of a slot that is not there or has not been written -/
  | undefined
deriving DecidableEq, Repr

inductive CQueueOp (α : Type) where
  | push (v : α)
  | pop
deriving DecidableEq, Repr

namespace CQueue
variable {α : Type}

/-- `pgrest_cqueue_create` -/
def create (capacity : UInt64) : CQueue α where
  elts := List.replicate capacity.toNat none
  size := 0
  capacity := capacity
  head := 0
  tail := 0

/-- `a % b`, `none` where the machine faults. -/
def rem (a b : UInt64) : Option UInt64 := if b = 0 then none else some (a % b)

/-- `pgrest_cqueue_push`: the slot that is returned, if it is not NULL. -/
def push (cq : CQueue α) : Option (Option UInt64 × CQueue α) :=
  if cq.size = cq.capacity then some (none, cq)
  else (rem (cq.tail + 1) cq.capacity).map fun tail => (some cq.tail, { cq with tail := tail, size := cq.size + 1 })

/-- `pgrest_cqueue_pop` -/
def pop (cq : CQueue α) : Option (Option UInt64 × CQueue α) :=
  if cq.size = 0 then some (none, cq)
  else (rem (cq.head + 1) cq.capacity).map fun head => (some cq.head, { cq with head := head, size := cq.size - 1 })

/-- A call, with what the caller does with the slot. -/
def step (cq : CQueue α) : CQueueOp α → CQueueOut α × CQueue α
  | .push v =>
    match cq.push with
    | none => (.undefined, cq)
    | some (none, cq) => (.null, cq)
    | some (some i, cq) =>
      if i.toNat < cq.elts.length then (.pushed, { cq with elts := cq.elts.set i.toNat (some v) })
      else (.undefined, cq)
  | .pop =>
    match cq.pop with
    | none => (.undefined, cq)
    | some (none, cq) => (.null, cq)
    | some (some i, cq) =>
      match cq.elts[i.toNat]? with
      | some (some v) => (.popped v, cq)
      | _ => (.undefined, cq)

end CQueue

/-- A list of at most `capacity` elements that are taken out in the order they came. -/
def fifoStep {α : Type} (capacity : Nat) (l : List α) : CQueueOp α → CQueueOut α × List α
  | .push v => if l.length = capacity then (.null, l) else (.pushed, l ++ [v])
  | .pop =>
    match l with
    | [] => (.null, [])
    | v :: l => (.popped v, l)

/-- The queue holds the list. -/
structure CQueue.Holds {α : Type} (c : UInt64) (cq : CQueue α) (l : List α) : Prop where
  capacity : cq.capacity = c
  size : cq.size.toNat = l.length
  bounded : cq.size ≤ c
  head : 0 < c → cq.head < c
  tail : 0 < c → cq.tail < c
  apart : 0 < c → cq.tail.toNat = (cq.head.toNat + cq.size.toNat) % c.toNat
  places : cq.elts.length = c.toNat
  circle : Circle cq.elts cq.head.toNat l

variable {α : Type} {c : UInt64} {cq : CQueue α} {l : List α}

theorem CQueue.Holds.create (c : UInt64) : CQueue.Holds c (.create c : CQueue α) [] where
  capacity := rfl
  size := rfl
  bounded := UInt64.le_iff_toNat_le.mpr (Nat.zero_le _)
  head h := h
  tail h := h
  apart _ := (Nat.zero_mod _).symm
  places := List.length_replicate
  circle := .nil _ _

/-- Moving an index on by one does not wrap and does not fault. -/
theorem rem_succ {i c : UInt64} (hi : i < c) :
    ∃ j, CQueue.rem (i + 1) c = some j ∧ j < c ∧ j.toNat = (i.toNat + 1) % c.toNat := by
  have hpos : c ≠ 0 := by
    rintro rfl
    exact absurd (UInt64.lt_iff_toNat_lt.mp hi) (Nat.not_lt_zero _)
  have hlt := UInt64.lt_iff_toNat_lt.mp hi
  have hbound := c.toNat_lt
  have hmod : ((i + 1) % c).toNat = (i.toNat + 1) % c.toNat := by
    rw [UInt64.toNat_mod, UInt64.toNat_add]
    congr 1
    exact Nat.mod_eq_of_lt (by simp only [UInt64.toNat_one]; omega)
  refine ⟨(i + 1) % c, if_neg hpos, ?_, hmod⟩
  rw [UInt64.lt_iff_toNat_lt, hmod]
  exact Nat.mod_lt _ (by omega)

/-- A push returns NULL where the list is full, and else the slot behind its last element. -/
theorem CQueue.Holds.push (h : cq.Holds c l) (v : α) :
    (cq.step (.push v)).1 = (fifoStep c.toNat l (.push v)).1 ∧
      (cq.step (.push v)).2.Holds c (fifoStep c.toNat l (.push v)).2 := by
  have hsize := h.size
  have hbound := UInt64.le_iff_toNat_le.mp h.bounded
  by_cases hfull : cq.size = cq.capacity
  · have hlen : l.length = c.toNat := by rw [← hsize, hfull, h.capacity]
    have hstep : cq.step (.push v) = (.null, cq) := by simp only [CQueue.step, CQueue.push, if_pos hfull]
    rw [hstep, fifoStep, if_pos hlen]
    exact ⟨rfl, h⟩
  · have hlen : l.length ≠ c.toNat := fun he => hfull (by
      rw [h.capacity]
      exact UInt64.toNat_inj.mp (hsize.trans he))
    have hlt : l.length < c.toNat := by omega
    have hpos : 0 < c := UInt64.lt_iff_toNat_lt.mpr (show 0 < c.toNat by omega)
    obtain ⟨tail, hrem, htail, hnext⟩ := rem_succ (h.tail hpos)
    have hplace : cq.tail.toNat < cq.elts.length := by
      rw [h.places]
      exact UInt64.lt_iff_toNat_lt.mp (h.tail hpos)
    have hpush : cq.push = some (some cq.tail, { cq with tail := tail, size := cq.size + 1 }) := by
      rw [CQueue.push, if_neg hfull, h.capacity, hrem]
      rfl
    have hstep : cq.step (.push v) =
        (.pushed, { cq with tail := tail, size := cq.size + 1, elts := cq.elts.set cq.tail.toNat (some v) }) := by
      simp only [CQueue.step, hpush, if_pos hplace]
    have hsucc : (cq.size + 1).toNat = l.length + 1 := by
      rw [UInt64.toNat_add, UInt64.toNat_one, hsize]
      exact Nat.mod_eq_of_lt (by have := c.toNat_lt; omega)
    rw [hstep, fifoStep, if_neg hlen]
    refine ⟨rfl, h.capacity, ?_, UInt64.le_iff_toNat_le.mpr ?_, h.head, fun _ => htail, fun _ => ?_, ?_, ?_⟩
    · simpa using hsucc
    · show (cq.size + 1).toNat ≤ _
      omega
    · show tail.toNat = (cq.head.toNat + (cq.size + 1).toNat) % c.toNat
      rw [hnext, h.apart hpos, hsucc, hsize, Nat.mod_add_mod, Nat.add_assoc]
    · simpa using h.places
    · have hcircle := h.circle.push (by rwa [h.places]) v
      rwa [h.places, ← hsize, ← h.apart hpos] at hcircle

/-- A pop returns NULL where the list is empty, and else the slot of its first element. -/
theorem CQueue.Holds.pop (h : cq.Holds c l) :
    (cq.step .pop).1 = (fifoStep c.toNat l .pop).1 ∧
      (cq.step .pop).2.Holds c (fifoStep c.toNat l .pop).2 := by
  have hsize := h.size
  have hbound := UInt64.le_iff_toNat_le.mp h.bounded
  cases l with
  | nil =>
    have hempty : cq.size = 0 := UInt64.toNat_inj.mp hsize
    have hstep : cq.step .pop = (.null, cq) := by simp only [CQueue.step, CQueue.pop, if_pos hempty]
    rw [hstep]
    exact ⟨rfl, h⟩
  | cons v l =>
    rw [List.length_cons] at hsize
    have hsome : cq.size ≠ 0 := fun he => by simp [he] at hsize
    have hpos : 0 < c := UInt64.lt_iff_toNat_lt.mpr (show 0 < c.toNat by omega)
    obtain ⟨head, hrem, hhead, hnext⟩ := rem_succ (h.head hpos)
    have hfront := h.circle.front
    rw [h.places, Nat.mod_eq_of_lt (UInt64.lt_iff_toNat_lt.mp (h.head hpos))] at hfront
    have hpop : cq.pop = some (some cq.head, { cq with head := head, size := cq.size - 1 }) := by
      rw [CQueue.pop, if_neg hsome, h.capacity, hrem]
      rfl
    have hstep : cq.step .pop = (.popped v, { cq with head := head, size := cq.size - 1 }) := by
      simp only [CQueue.step, hpop, hfront]
    have hpred : (cq.size - 1).toNat = l.length := by
      rw [UInt64.toNat_sub_of_le _ _ (UInt64.le_iff_toNat_le.mpr (by rw [hsize]; exact Nat.le_add_left 1 _)), hsize]
      rfl
    rw [hstep]
    refine ⟨rfl, h.capacity, hpred, UInt64.le_iff_toNat_le.mpr ?_, fun _ => hhead, h.tail, fun _ => ?_, h.places, ?_⟩
    · show (cq.size - 1).toNat ≤ _
      omega
    · show cq.tail.toNat = (head.toNat + (cq.size - 1).toNat) % c.toNat
      rw [h.apart hpos, hnext, hpred, hsize, Nat.mod_add_mod]
      congr 1
      omega
    · show Circle cq.elts head.toNat l
      have hcircle := h.circle.pop
      rwa [h.places, ← hnext] at hcircle

/-- **The queue is a bounded FIFO**: over any sequence of calls it returns what a list of at most
`capacity` elements does, without a division by zero, and `head`, `tail` and `size` stay in step. -/
theorem cqueue_fifo (c : UInt64) (ops : List (CQueueOp α)) :
    (CQueue.create c : CQueue α).Holds c [] ∧
      List.Forall₂ (fun a b => a.output = b.output ∧ a.after.Holds c b.after)
        (turns CQueue.step (.create c) ops) (turns (fifoStep c.toNat) [] ops) := by
  refine ⟨CQueue.Holds.create c, turns_simulate (fun cq l op h => ?_) (CQueue.Holds.create c) ops⟩
  cases op with
  | push v => exact h.push v
  | pop => exact h.pop

end PgRest.Memory
