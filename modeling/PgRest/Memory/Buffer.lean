import PgRest.Bytes

/-! Buffers, `pgrest_buffer_t`. The memory of a buffer is cut in three: what lies before
`pos`, the `size` bytes from `pos` on, and what lies behind them. So `pos` and `size`
never leave the memory. What a call of the system or the allocator returns is an
argument; sizes are taken to stay below 2^64. What fresh memory holds decides nothing,
here it is zeros. -/
namespace PgRest.Memory

/-- `PGREST_BUFFER_LIMIT_SIZE` -/
def bufferLimitSize : Nat := 1048576

/-- `ALLOCSET_BUFFER_MINSIZE` -/
def allocsetBufferMinsize : Nat := 4096

structure Buffer where
  before : Bytes
  data : Bytes
  after : Bytes
  /-- the temporary file behind the memory, if there is one -/
  fd : Option Nat := none
deriving DecidableEq, Repr

namespace Buffer

/-- `start`, all the memory. -/
def start (buf : Buffer) : Bytes := buf.before ++ buf.data ++ buf.after

def capacity (buf : Buffer) : Nat := buf.start.length

def size (buf : Buffer) : Nat := buf.data.length

/-- `pos - start` -/
def pos (buf : Buffer) : Nat := buf.before.length

/-- `pgrest_buffer_free_size` -/
def freeSize (buf : Buffer) : Nat := buf.capacity - buf.size - buf.pos

@[simp] theorem freeSize_eq (buf : Buffer) : buf.freeSize = buf.after.length := by
  simp only [freeSize, capacity, start, size, pos, List.length_append]
  omega

theorem capacity_eq (buf : Buffer) : buf.capacity = buf.pos + buf.size + buf.freeSize := by
  simp only [freeSize_eq, capacity, start, size, pos, List.length_append]

/-- `size = n`, up to where the memory ends. -/
def setSize (buf : Buffer) (n : Nat) : Buffer :=
  { buf with data := (buf.data ++ buf.after).take n, after := (buf.data ++ buf.after).drop n }

/-- `pgrest_buffer_reset` -/
def reset (buf : Buffer) : Buffer :=
  { buf with before := [], data := [], after := buf.start }

/-- `pgrest_buffer_consume`. Consuming more than there is would wrap `size`. -/
def consume (buf : Buffer) (n : Nat) : Option Buffer :=
  if buf.size = n then some buf.reset
  else if n < buf.size then
    some { buf with before := buf.before ++ buf.data.take n, data := buf.data.drop n }
  else none

/-- What `recv` and the `size += n` behind it do, for at most `freeSize` bytes. -/
def recv (buf : Buffer) (bs : Bytes) : Buffer :=
  { buf with data := buf.data ++ bs, after := buf.after.drop bs.length }

@[simp] theorem size_recv (buf : Buffer) (bs : Bytes) : (buf.recv bs).size = buf.size + bs.length := by
  simp [recv, size]

/-- Setting the size cuts the same bytes elsewhere. -/
theorem setSize_append (buf : Buffer) (n : Nat) :
    (buf.setSize n).data ++ (buf.setSize n).after = buf.data ++ buf.after :=
  List.take_append_drop _ _

theorem data_setSize {buf : Buffer} {n : Nat} {a b : Bytes} (h : buf.data ++ buf.after = a ++ b)
    (hn : n = a.length) : (buf.setSize n).data = a := by
  rw [setSize, h, hn, List.take_left]

/-- A consumed buffer holds what has not been consumed, and lies at its start when that is nothing. -/
theorem consume_eq {buf : Buffer} {n : Nat} (h : n ≤ buf.size) :
    ∃ buf', buf.consume n = some buf' ∧ buf'.data = buf.data.drop n ∧ buf'.capacity = buf.capacity ∧
      (buf'.data = [] → buf'.before = []) := by
  by_cases heq : buf.size = n
  · refine ⟨buf.reset, if_pos heq, ?_, ?_, fun _ => rfl⟩
    · simp [reset, ← heq, size]
    · simp [reset, capacity, start]
  · have hlt : n < buf.size := by omega
    refine ⟨_, (if_neg heq).trans (if_pos hlt), rfl, ?_, fun hnil => ?_⟩
    · simp only [capacity, start, List.append_assoc, List.take_append_drop]
    · have := List.drop_eq_nil_iff.mp hnil
      simp only [size] at hlt
      omega

end Buffer

/-! ### Creating and reserving -/

/-- How the calls of `pgrest_buffer_create` and `pgrest_buffer_reserve` come out. -/
structure Calls where
  /-- `pgrest_mpool_alloc` does not return NULL -/
  alloc : Bool := true
  /-- the descriptor `pgrest_util_mkstemp` returns -/
  mkstemp : Option Nat := some 0
  fallocate : Bool := true
  mmap : Bool := true
deriving DecidableEq, Repr

/-- All the calls succeed. -/
structure Calls.Succeed (c : Calls) : Prop where
  alloc : c.alloc = true
  mkstemp : c.mkstemp.isSome = true
  fallocate : c.fallocate = true
  mmap : c.mmap = true

instance (c : Calls) : Decidable c.Succeed :=
  decidable_of_iff (c.alloc = true ∧ c.mkstemp.isSome = true ∧ c.fallocate = true ∧ c.mmap = true)
    ⟨fun ⟨a, b, c, d⟩ => ⟨a, b, c, d⟩, fun ⟨a, b, c, d⟩ => ⟨a, b, c, d⟩⟩

/-- `pgrest_buffer_create` -/
def bufferCreate (calls : Calls) (size : Nat) : Option Buffer :=
  if calls.alloc then some { before := [], data := [], after := List.replicate size 0 } else none

inductive Reserved where
  | ok (buf : Buffer)
  /-- no base; a file may have been opened -/
  | failed (opened : Option Nat)
  /-- copies to the NULL that the allocator has returned -/
  | crashed
deriving DecidableEq, Repr

/-- `do capacity <<= 1 while (capacity - size < n)`, which needs some capacity to end. -/
def grow (size n capacity : Nat) : Nat :=
  if 0 < capacity ∧ 2 * capacity - size < n then grow size n (2 * capacity) else 2 * capacity
termination_by size + n - capacity

theorem grow_ge (size n capacity : Nat) (h : 0 < capacity) :
    n ≤ grow size n capacity - size ∧ capacity ≤ grow size n capacity := by
  induction capacity using grow.induct size n with
  | case1 capacity hlt ih =>
    rw [grow, if_pos hlt]
    obtain ⟨hn, hc⟩ := ih (by omega)
    exact ⟨hn, by omega⟩
  | case2 capacity hge =>
    rw [grow, if_neg hge]
    omega

namespace Buffer

/-- After `memmove(buf->start, buf->pos, buf->size)`. -/
def moved (buf : Buffer) : Buffer :=
  { buf with before := [], after := buf.start.drop buf.size }

/-- Copied to new memory. -/
def copied (buf : Buffer) (capacity : Nat) (fd : Option Nat) : Buffer :=
  { before := [], data := buf.data, after := List.replicate (capacity - buf.size) 0, fd }

/-- The file mapped again, `pos` where it was. -/
def remapped (buf : Buffer) (capacity : Nat) : Buffer :=
  { buf with after := buf.after ++ List.replicate (capacity - buf.capacity) 0 }

end Buffer

/-- `pgrest_buffer_reserve`. The memory it returns is what is free in the buffer then. -/
def reserve (calls : Calls) (buf : Buffer) (n : Nat) : Reserved :=
  if n ≤ buf.freeSize then .ok buf
  else if (buf.size + n) * 2 ≤ buf.capacity then .ok buf.moved
  else
    let capacity := grow buf.size n buf.capacity
    if capacity ≤ bufferLimitSize then
      if calls.alloc then .ok (buf.copied capacity none) else .crashed
    else
      match buf.fd with
      | some _ => if calls.fallocate && calls.mmap then .ok (buf.remapped capacity) else .failed none
      | none =>
        match calls.mkstemp with
        | none => .failed none
        | some fd =>
          if calls.fallocate && calls.mmap then .ok (buf.copied capacity (some fd)) else .failed (some fd)

/-- The buffers `reserve` returns. -/
theorem reserve_cases {calls : Calls} {buf buf' : Buffer} {n : Nat} (h : reserve calls buf n = .ok buf') :
    (n ≤ buf.freeSize ∧ buf' = buf) ∨
      ((buf.size + n) * 2 ≤ buf.capacity ∧ buf' = buf.moved) ∨
      (∃ fd, buf' = buf.copied (grow buf.size n buf.capacity) fd) ∨
      (buf.fd.isSome ∧ buf' = buf.remapped (grow buf.size n buf.capacity)) := by
  unfold reserve at h
  dsimp only at h
  split at h
  · next hfree =>
    cases h
    exact Or.inl ⟨hfree, rfl⟩
  split at h
  · next hmove =>
    cases h
    exact Or.inr (Or.inl ⟨hmove, rfl⟩)
  split at h
  · split at h
    · cases h
      exact Or.inr (Or.inr (Or.inl ⟨none, rfl⟩))
    · cases h
  · cases hfd : buf.fd with
    | some fd =>
      simp only [hfd] at h
      split at h
      · cases h
        exact Or.inr (Or.inr (Or.inr ⟨rfl, rfl⟩))
      · cases h
    | none =>
      simp only [hfd] at h
      split at h
      · cases h
      · next fd _ =>
        split at h
        · cases h
          exact Or.inr (Or.inr (Or.inl ⟨some fd, rfl⟩))
        · cases h

/-- Nothing fails where no call fails. -/
theorem reserve_succeeds {calls : Calls} (hc : calls.Succeed) (buf : Buffer) (n : Nat) :
    ∃ buf', reserve calls buf n = .ok buf' := by
  obtain ⟨fd, hfd⟩ := Option.isSome_iff_exists.mp hc.mkstemp
  simp only [reserve, hc.alloc, hc.fallocate, hc.mmap, hfd, Bool.and_self, if_true]
  split
  · exact ⟨_, rfl⟩
  · split
    · exact ⟨_, rfl⟩
    · split
      · exact ⟨_, rfl⟩
      · cases buf.fd <;> exact ⟨_, rfl⟩

/-- What is reserved does not touch what the buffer holds. -/
theorem reserve_data {calls : Calls} {buf buf' : Buffer} {n : Nat}
    (h : reserve calls buf n = .ok buf') : buf'.data = buf.data := by
  rcases reserve_cases h with ⟨-, rfl⟩ | ⟨-, rfl⟩ | ⟨fd, rfl⟩ | ⟨-, rfl⟩ <;> rfl

/-- Reserving never takes free memory away. -/
theorem reserve_free {calls : Calls} {buf buf' : Buffer} {n : Nat} (hcap : 0 < buf.capacity)
    (h : reserve calls buf n = .ok buf') : buf.freeSize ≤ buf'.freeSize := by
  have hgrow := (grow_ge buf.size n buf.capacity hcap).2
  have hcapacity := buf.capacity_eq
  rcases reserve_cases h with ⟨-, rfl⟩ | ⟨-, rfl⟩ | ⟨fd, rfl⟩ | ⟨-, rfl⟩
  · exact Nat.le_refl _
  · simp only [Buffer.freeSize_eq, Buffer.moved, List.length_drop] at hcapacity ⊢
    simp only [Buffer.capacity] at hcapacity
    omega
  · simp only [Buffer.freeSize_eq, Buffer.copied, List.length_replicate] at hcapacity ⊢
    omega
  · simp only [Buffer.freeSize_eq, Buffer.remapped, List.length_append]
    omega

/-- Where `pos` is the start, there is room for what is reserved. -/
theorem reserve_room {calls : Calls} {buf buf' : Buffer} {n : Nat} (hcap : 0 < buf.capacity)
    (hpos : buf.before = []) (h : reserve calls buf n = .ok buf') :
    n ≤ buf'.freeSize ∧ buf'.before = [] := by
  have hgrow := grow_ge buf.size n buf.capacity hcap
  have hcapacity := buf.capacity_eq
  rcases reserve_cases h with ⟨hfree, rfl⟩ | ⟨hmove, rfl⟩ | ⟨fd, rfl⟩ | ⟨-, rfl⟩
  · exact ⟨hfree, hpos⟩
  · simp only [Buffer.freeSize_eq, Buffer.moved, List.length_drop, and_true] at hcapacity ⊢
    simp only [Buffer.capacity] at hcapacity hmove
    omega
  · simpa only [Buffer.freeSize_eq, Buffer.copied, List.length_replicate, and_true] using hgrow.1
  · simp only [Buffer.freeSize_eq, Buffer.remapped, List.length_append, List.length_replicate, hpos,
      and_true, Buffer.pos, List.length_nil] at hcapacity ⊢
    omega

end PgRest.Memory
