import PgRest.Memory.Buffer

/-! `pgrest_buffer_reserve` in the words of the machine, with the calls it makes and the
descriptors it leaves open. A `size_t` wraps, so the loop that doubles the capacity can come to
zero and stay there; below 2^62 it is the `grow` that knows no words. -/
namespace PgRest.Memory

/-- How many values a `size_t` has. -/
def wordSize : Nat := 0x10000000000000000

/-- `a - b` of the `size_t`. -/
def sizeSub (a b : Nat) : Nat := (a + wordSize - b) % wordSize

/-- `do capacity <<= 1 while (capacity - size < n)`. Once the capacity is zero it stays so: a
loop that does not end within 65 rounds does not end. -/
def growWord (size n : Nat) : Nat → Nat → Option Nat
  | 0, _ => none
  | fuel + 1, capacity =>
    let capacity := capacity * 2 % wordSize
    if sizeSub capacity size < n then growWord size n fuel capacity else some capacity

/-- The capacity the buffer grows to for `n` bytes, if it grows. -/
def newCapacity (buf : Buffer) (n : Nat) : Option Nat :=
  if n ≤ sizeSub (sizeSub buf.capacity buf.size) buf.pos then none
  else if (buf.size + n) * 2 % wordSize ≤ buf.capacity then none
  else growWord buf.size n 65 buf.capacity

inductive Call where
  | alloc
  | mkstemp
  | fallocate
  | mmap
deriving DecidableEq, Repr

inductive Return where
  /-- the buffer that `*inbuf` is left with, how far `base` lies behind its start unless it is
  NULL, and `len` -/
  | returned (inbuf : Buffer) (base : Option Nat) (len : Nat)
  | loops
  /-- copies to NULL, or leaves a capacity that has wrapped below what the buffer holds -/
  | undefined
deriving DecidableEq, Repr

structure Reservation where
  /-- the calls made, and whether they succeed -/
  made : List (Call × Bool)
  /-- the descriptors it has opened and not closed -/
  opened : List Nat
  result : Return
deriving DecidableEq, Repr

/-- `done:` -/
def reserved (buf : Buffer) : Return :=
  .returned buf (some (buf.pos + buf.size)) (buf.capacity - (buf.pos + buf.size))

/-- `fail:` -/
def refused (buf : Buffer) : Return := .returned buf none 0

/-- `pgrest_buffer_reserve` -/
def reserveRun (calls : Calls) (buf : Buffer) (n : Nat) : Reservation :=
  if n ≤ sizeSub (sizeSub buf.capacity buf.size) buf.pos then ⟨[], [], reserved buf⟩
  else if (buf.size + n) * 2 % wordSize ≤ buf.capacity then ⟨[], [], reserved buf.moved⟩
  else
    match growWord buf.size n 65 buf.capacity with
    | none => ⟨[], [], .loops⟩
    | some capacity =>
      if capacity ≤ bufferLimitSize then
        ⟨[(.alloc, calls.alloc)], [],
          if calls.alloc && buf.size ≤ capacity then reserved (buf.copied capacity none) else .undefined⟩
      else
        match buf.fd with
        | some _ =>
          if !calls.fallocate then ⟨[(.fallocate, false)], [], refused buf⟩
          else if !calls.mmap then ⟨[(.fallocate, true), (.mmap, false)], [], refused buf⟩
          else ⟨[(.fallocate, true), (.mmap, true)], [],
            if buf.capacity ≤ capacity then reserved (buf.remapped capacity) else .undefined⟩
        | none =>
          match calls.mkstemp with
          | none => ⟨[(.mkstemp, false)], [], refused buf⟩
          | some fd =>
            -- what fails from here on leaves the descriptor open
            if !calls.fallocate then ⟨[(.mkstemp, true), (.fallocate, false)], [fd], refused buf⟩
            else if !calls.mmap then ⟨[(.mkstemp, true), (.fallocate, true), (.mmap, false)], [fd], refused buf⟩
            else ⟨[(.mkstemp, true), (.fallocate, true), (.mmap, true)], [fd],
              if buf.size ≤ capacity then reserved (buf.copied capacity (some fd)) else .undefined⟩

/-! ### The loop -/

/-- A capacity that is a multiple of `2^(64 - k)` is zero after `k` rounds. -/
theorem growWord_none {size n k capacity : Nat} (hk : k ≤ 64) (hdvd : 1 <<< (64 - k) ∣ capacity)
    (h : growWord size n (k + 1) capacity = none) (fuel : Nat) : growWord size n fuel capacity = none := by
  induction k generalizing capacity fuel with
  | zero =>
    have hzero : capacity * 2 % wordSize = 0 := Nat.mod_eq_zero_of_dvd (Nat.dvd_trans hdvd (Nat.dvd_mul_right ..))
    rw [growWord] at h
    simp only [hzero] at h
    have hlt : sizeSub 0 size < n := by
      by_contra hge
      simp [hge] at h
    have hstays : ∀ fuel, growWord size n fuel 0 = none := fun fuel => by
      induction fuel with
      | zero => rfl
      | succ fuel ih => rwa [growWord, Nat.zero_mul, Nat.zero_mod, if_pos hlt]
    cases fuel with
    | zero => rfl
    | succ fuel =>
      rw [growWord]
      simp only [hzero]
      rw [if_pos hlt]
      exact hstays fuel
  | succ k ih =>
    rw [growWord] at h
    have hlt : sizeSub (capacity * 2 % wordSize) size < n := by
      by_contra hge
      simp [hge] at h
    simp only [if_pos hlt] at h
    have hdvd' : 1 <<< (64 - k) ∣ capacity * 2 % wordSize := by
      have hpow : 1 <<< (64 - k) = 1 <<< (64 - (k + 1)) * 2 := by
        rw [show 64 - k = 64 - (k + 1) + 1 by omega, Nat.shiftLeft_succ, Nat.mul_comm]
      have hword : 1 <<< (64 - k) ∣ wordSize := by
        rw [show wordSize = 1 <<< 64 from rfl, Nat.one_shiftLeft, Nat.one_shiftLeft]
        exact Nat.pow_dvd_pow 2 (Nat.sub_le 64 k)
      exact (Nat.dvd_mod_iff hword).mpr (hpow ▸ Nat.mul_dvd_mul_right hdvd 2)
    cases fuel with
    | zero => rfl
    | succ fuel =>
      rw [growWord]
      simp only [if_pos hlt]
      exact ih (by omega) hdvd' h fuel

/-- Where 65 rounds do not end the loop, none do. -/
theorem newCapacity_loops {size n capacity : Nat} (h : growWord size n 65 capacity = none) (fuel : Nat) :
    growWord size n fuel capacity = none :=
  growWord_none (Nat.le_refl 64) (Nat.one_dvd _) h fuel

/-! ### Failing -/

/-- A failed call is reported by a NULL base, with the buffer as it was and no descriptor left open. -/
def FailsClean (calls : Calls) (buf : Buffer) (n : Nat) : Prop :=
  (∃ c, (c, false) ∈ (reserveRun calls buf n).made) →
    (reserveRun calls buf n).result = .returned buf none 0 ∧ (reserveRun calls buf n).opened = []

/-- The allocator does not fail, and no call behind the `mkstemp` of this reservation does. -/
def Recovers (calls : Calls) (buf : Buffer) (n : Nat) : Prop :=
  ∀ capacity, newCapacity buf n = some capacity →
    (capacity ≤ bufferLimitSize → calls.alloc = true) ∧
      (bufferLimitSize < capacity → buf.fd = none → calls.mkstemp ≠ none →
        calls.fallocate = true ∧ calls.mmap = true)

/-- **A reservation fails cleanly** exactly when the allocator gives what is asked of it, and no
call fails once this reservation has opened a file. -/
theorem reserve_failsClean (calls : Calls) (buf : Buffer) (n : Nat) :
    FailsClean calls buf n ↔ Recovers calls buf n := by
  unfold FailsClean Recovers newCapacity reserveRun
  by_cases hfree : n ≤ sizeSub (sizeSub buf.capacity buf.size) buf.pos
  · simp [hfree]
  by_cases hmove : (buf.size + n) * 2 % wordSize ≤ buf.capacity
  · simp [hfree, hmove]
  simp only [if_neg hfree, if_neg hmove]
  cases growWord buf.size n 65 buf.capacity with
  | none => simp
  | some capacity =>
    simp only [Option.some.injEq, forall_eq']
    by_cases hlimit : capacity ≤ bufferLimitSize
    · have hnot : ¬bufferLimitSize < capacity := Nat.not_lt.mpr hlimit
      cases halloc : calls.alloc <;> simp [hlimit, hnot]
    · have hlt : bufferLimitSize < capacity := Nat.lt_of_not_le hlimit
      simp only [hlimit, hlt, false_implies, true_and, true_implies]
      cases hfd : buf.fd with
      | some fd =>
        cases hfallocate : calls.fallocate <;> cases hmmap : calls.mmap <;> simp [refused]
      | none =>
        cases hmkstemp : calls.mkstemp with
        | none => simp [refused]
        | some fd =>
          cases hfallocate : calls.fallocate <;> cases hmmap : calls.mmap <;> simp [refused]

/-- A buffer of one byte that is full does not get the second; and a file that has been opened
for a larger one is left open. -/
theorem reserve_unclean :
    ¬FailsClean { alloc := false } { before := [], data := [0], after := [] } 1 ∧
      ¬FailsClean { fallocate := false } { before := [], data := [0], after := [] } 1048576 := by
  constructor
  · intro h
    have hclean := h ⟨.alloc, by decide⟩
    exact absurd hclean.1 (by decide)
  · intro h
    have hclean := h ⟨.fallocate, by decide⟩
    exact absurd hclean.2 (by decide)

/-! ### Reserving -/

theorem sizeSub_eq {a b : Nat} (hb : b ≤ a) (ha : a < wordSize) : sizeSub a b = a - b := by
  rw [sizeSub, show a + wordSize - b = a - b + wordSize by omega, Nat.add_mod_right,
    Nat.mod_eq_of_lt (Nat.lt_of_le_of_lt (Nat.sub_le a b) ha)]

theorem freeSize_word {buf : Buffer} (h : buf.capacity < wordSize) :
    sizeSub (sizeSub buf.capacity buf.size) buf.pos = buf.freeSize := by
  have := buf.capacity_eq
  rw [sizeSub_eq (by omega) h, sizeSub_eq (by omega) (by omega)]
  omega

/-- Far below the end of the words the loop ends, and nothing in it wraps. -/
theorem growWord_eq {size n capacity fuel : Nat} (hpos : 0 < capacity) (hsize : size ≤ capacity)
    (hlt : capacity < 2 * (size + n)) (hn : size + n < 0x4000000000000000)
    (hfuel : 2 * (size + n) ≤ capacity <<< fuel) : growWord size n fuel capacity = some (grow size n capacity) := by
  induction fuel generalizing capacity with
  | zero =>
    rw [Nat.shiftLeft_zero] at hfuel
    omega
  | succ fuel ih =>
    have hword : capacity * 2 % wordSize = 2 * capacity := by
      rw [Nat.mod_eq_of_lt (by rw [wordSize]; omega), Nat.mul_comm]
    have hsub : sizeSub (2 * capacity) size = 2 * capacity - size :=
      sizeSub_eq (by omega) (by rw [wordSize]; omega)
    rw [growWord, grow]
    simp only [hword, hsub, hpos, true_and]
    split
    · next hmore =>
      refine ih (by omega) (by omega) (by omega) ?_
      rwa [Nat.shiftLeft_succ_inside] at hfuel
    · rfl

/-- The capacity is doubled as often as it takes. -/
theorem grow_shift (size n capacity : Nat) (hpos : 0 < capacity) :
    ∃ j, 1 ≤ j ∧ grow size n capacity = capacity <<< j ∧ ∀ i, 1 ≤ i → i < j → capacity <<< i < size + n := by
  induction capacity using grow.induct size n with
  | case1 capacity hmore ih =>
    obtain ⟨j, hj, heq, hless⟩ := ih (by omega)
    refine ⟨j + 1, by omega, ?_, fun i hi hij => ?_⟩
    · rw [grow, if_pos hmore, heq, Nat.shiftLeft_succ_inside]
    · obtain ⟨i, rfl⟩ : ∃ k, i = k + 1 := ⟨i - 1, by omega⟩
      rw [Nat.shiftLeft_succ_inside]
      cases i with
      | zero =>
        rw [Nat.shiftLeft_zero]
        omega
      | succ i => exact hless (i + 1) (by omega) (by omega)
  | case2 capacity hge =>
    refine ⟨1, Nat.le_refl 1, ?_, fun i hi hij => by omega⟩
    rw [grow, if_neg hge]
    rfl

/-- Where nothing wraps, the words do not show. -/
theorem reserveRun_ok {calls : Calls} {buf buf' : Buffer} {n : Nat} (hpos : 0 < buf.capacity)
    (hcap : buf.capacity < wordSize) (hn : buf.size + n < 0x4000000000000000)
    (h : reserve calls buf n = .ok buf') : (reserveRun calls buf n).result = reserved buf' := by
  have hcapacity := buf.capacity_eq
  have hword : (buf.size + n) * 2 % wordSize = (buf.size + n) * 2 := Nat.mod_eq_of_lt (by rw [wordSize]; omega)
  unfold reserve at h
  unfold reserveRun
  dsimp only at h
  rw [freeSize_word hcap, hword]
  split at h
  · next hfree =>
    cases h
    rw [if_pos hfree]
  next hfree =>
  rw [if_neg hfree]
  split at h
  · next hmove =>
    cases h
    rw [if_pos hmove]
  next hmove =>
  have hfuel : 2 * (buf.size + n) ≤ buf.capacity <<< 65 := by
    rw [Nat.shiftLeft_eq]
    omega
  rw [if_neg hmove, growWord_eq hpos (by omega) (by omega) hn hfuel]
  have hge := (grow_ge buf.size n buf.capacity hpos).2
  have hsize : buf.size ≤ grow buf.size n buf.capacity := by omega
  dsimp only
  split at h
  · next hlimit =>
    rw [if_pos hlimit]
    split at h
    · next halloc =>
      cases h
      simp [halloc, hsize]
    · cases h
  · next hlimit =>
    rw [if_neg hlimit]
    cases hfd : buf.fd with
    | some fd =>
      simp only [hfd] at h
      split at h
      · next hboth =>
        cases h
        obtain ⟨hfallocate, hmmap⟩ := Bool.and_eq_true_iff.mp hboth
        simp [hfallocate, hmmap, hge]
      · cases h
    | none =>
      simp only [hfd] at h
      cases hmkstemp : calls.mkstemp with
      | none => simp [hmkstemp] at h
      | some fd =>
        simp only [hmkstemp] at h
        split at h
        · next hboth =>
          cases h
          obtain ⟨hfallocate, hmmap⟩ := Bool.and_eq_true_iff.mp hboth
          simp [hfallocate, hmmap, hsize]
        · cases h

/-- What is asked of a reservation: the bytes at `pos` are kept, and the memory that is returned
is what lies behind them, `n` bytes or more. -/
def Reserves (buf : Buffer) (n : Nat) (r : Return) : Prop :=
  ∃ buf' len, r = .returned buf' (some (buf'.pos + buf'.size)) len ∧ buf'.data = buf.data ∧
    buf'.pos + buf'.size + len = buf'.capacity ∧ n ≤ len

theorem reserves_iff {buf buf' : Buffer} {n : Nat} (h : buf'.data = buf.data) :
    Reserves buf n (reserved buf') ↔ n ≤ buf'.freeSize := by
  have hcapacity := buf'.capacity_eq
  constructor
  · rintro ⟨_, len, heq, -, -, hlen⟩
    simp only [reserved, Return.returned.injEq] at heq
    omega
  · exact fun hn => ⟨buf', _, rfl, h, by omega, by omega⟩

/-- The bytes that are consumed stay in front of `pos` when a file is mapped again, so the
capacity that has room for the others and `n` more may be too small. -/
def Cramped (buf : Buffer) (n : Nat) : Prop :=
  buf.fd.isSome = true ∧ ∃ j, 1 ≤ j ∧ buf.size + n ≤ buf.capacity <<< j ∧
    buf.capacity <<< j < buf.pos + buf.size + n ∧ bufferLimitSize < buf.capacity <<< j

theorem shiftLeft_ge (capacity : Nat) {j : Nat} (hj : 1 ≤ j) : 2 * capacity ≤ capacity <<< j := by
  obtain ⟨j, rfl⟩ : ∃ i, j = i + 1 := ⟨j - 1, by omega⟩
  rw [Nat.shiftLeft_succ_inside]
  exact Nat.le_shiftLeft

/-- Of the doublings only the one it grows to has room, and not for the consumed bytes too. -/
theorem cramped_iff {buf : Buffer} {n : Nat} (hpos : 0 < buf.capacity) :
    Cramped buf n ↔ buf.fd.isSome = true ∧ bufferLimitSize < grow buf.size n buf.capacity ∧
      grow buf.size n buf.capacity < buf.pos + buf.size + n := by
  have hcapacity := buf.capacity_eq
  obtain ⟨i, hi, hgrow, hless⟩ := grow_shift buf.size n buf.capacity hpos
  have hroom := (grow_ge buf.size n buf.capacity hpos).1
  constructor
  · rintro ⟨hfd, j, hj, hge, hlt, hlimit⟩
    suffices hij : i = j by
      rw [hgrow, hij]
      exact ⟨hfd, hlimit, hlt⟩
    rcases Nat.lt_trichotomy i j with hij | hij | hij
    · -- a doubling before the last would be too large already
      have hstep : 2 * buf.capacity <<< i ≤ buf.capacity <<< j := by
        obtain ⟨k, rfl⟩ : ∃ k, j = i + (k + 1) := ⟨j - i - 1, by omega⟩
        rw [Nat.shiftLeft_add]
        exact shiftLeft_ge _ (by omega)
      have hfirst := shiftLeft_ge buf.capacity hi
      omega
    · exact hij
    · have := hless j hj hij
      omega
  · rintro ⟨hfd, hlimit, hlt⟩
    rw [hgrow] at hlimit hlt hroom
    have hfirst := shiftLeft_ge buf.capacity hi
    exact ⟨hfd, i, hi, by omega, hlt, hlimit⟩

/-- What each way to reserve starts from and leaves. -/
theorem reserve_inv {calls : Calls} {buf buf' : Buffer} {n : Nat} (h : reserve calls buf n = .ok buf') :
    (n ≤ buf.freeSize ∧ buf' = buf) ∨
      (¬n ≤ buf.freeSize ∧ (buf.size + n) * 2 ≤ buf.capacity ∧ buf' = buf.moved) ∨
      (¬n ≤ buf.freeSize ∧ ¬(buf.size + n) * 2 ≤ buf.capacity ∧
        ((¬(buf.fd.isSome = true ∧ bufferLimitSize < grow buf.size n buf.capacity) ∧
            ∃ fd, buf' = buf.copied (grow buf.size n buf.capacity) fd) ∨
          ((buf.fd.isSome = true ∧ bufferLimitSize < grow buf.size n buf.capacity) ∧
            buf' = buf.remapped (grow buf.size n buf.capacity)))) := by
  unfold reserve at h
  dsimp only at h
  split at h
  · next hfree =>
    cases h
    exact Or.inl ⟨hfree, rfl⟩
  next hfree =>
  split at h
  · next hmove =>
    cases h
    exact Or.inr (Or.inl ⟨hfree, hmove, rfl⟩)
  next hmove =>
  refine Or.inr (Or.inr ⟨hfree, hmove, ?_⟩)
  split at h
  · next hlimit =>
    split at h
    · cases h
      exact Or.inl ⟨by omega, none, rfl⟩
    · cases h
  · next hlimit =>
    cases hfd : buf.fd with
    | some fd =>
      simp only [hfd] at h
      split at h
      · cases h
        exact Or.inr ⟨⟨rfl, Nat.lt_of_not_le hlimit⟩, rfl⟩
      · cases h
    | none =>
      simp only [hfd] at h
      split at h
      · cases h
      · next fd _ =>
        split at h
        · cases h
          exact Or.inl ⟨by simp, some fd, rfl⟩
        · cases h

/-- When a reservation succeeds. -/
theorem reserve_ok_iff {calls : Calls} {buf : Buffer} {n : Nat} : (∃ buf', reserve calls buf n = .ok buf') ↔
    n ≤ buf.freeSize ∨ (buf.size + n) * 2 ≤ buf.capacity ∨
      if grow buf.size n buf.capacity ≤ bufferLimitSize then calls.alloc = true
      else (buf.fd.isSome || calls.mkstemp.isSome) && calls.fallocate && calls.mmap := by
  unfold reserve
  dsimp only
  by_cases hfree : n ≤ buf.freeSize
  · rw [if_pos hfree]
    exact iff_of_true ⟨buf, rfl⟩ (Or.inl hfree)
  rw [if_neg hfree]
  by_cases hmove : (buf.size + n) * 2 ≤ buf.capacity
  · rw [if_pos hmove]
    exact iff_of_true ⟨buf.moved, rfl⟩ (Or.inr (Or.inl hmove))
  rw [if_neg hmove, or_iff_right hfree, or_iff_right hmove]
  by_cases hlimit : grow buf.size n buf.capacity ≤ bufferLimitSize
  · rw [if_pos hlimit, if_pos hlimit]
    cases calls.alloc <;> simp
  · rw [if_neg hlimit, if_neg hlimit]
    cases buf.fd <;> cases calls.mkstemp <;> cases calls.fallocate <;> cases calls.mmap <;> simp

/-- There is room for what is reserved unless it is kept back by consumed bytes in a file. -/
theorem reserve_room_iff {calls : Calls} {buf buf' : Buffer} {n : Nat} (hpos : 0 < buf.capacity)
    (h : reserve calls buf n = .ok buf') : n ≤ buf'.freeSize ↔ ¬Cramped buf n := by
  have hcapacity := buf.capacity_eq
  have hbehind : buf.freeSize = buf.after.length := buf.freeSize_eq
  obtain ⟨hroom, -⟩ := grow_ge buf.size n buf.capacity hpos
  have htwice : 2 * buf.capacity ≤ grow buf.size n buf.capacity := by
    obtain ⟨i, hi, hgrow, -⟩ := grow_shift buf.size n buf.capacity hpos
    rw [hgrow]
    exact shiftLeft_ge _ hi
  rw [cramped_iff hpos]
  rcases reserve_inv h with ⟨hfree, rfl⟩ | ⟨-, hmove, rfl⟩ | ⟨-, -, ⟨hcopy, fd, rfl⟩ | ⟨hmap, rfl⟩⟩
  · exact iff_of_true hfree (by omega)
  · refine iff_of_true ?_ (by omega)
    rw [Buffer.freeSize_eq, Buffer.moved, List.length_drop]
    simp only [Buffer.capacity] at hmove hcapacity ⊢
    omega
  · refine iff_of_true ?_ fun hc => hcopy ⟨hc.1, hc.2.1⟩
    rwa [Buffer.freeSize_eq, Buffer.copied, List.length_replicate]
  · rw [Buffer.freeSize_eq, Buffer.remapped, List.length_append, List.length_replicate]
    simp only [hmap, true_and]
    omega

/-- **A reservation that nothing fails in gives what was asked of it**, unless consumed bytes
are kept in a file. -/
theorem reserve_reserves {calls : Calls} (hc : calls.Succeed) {buf : Buffer} {n : Nat} (hpos : 0 < buf.capacity)
    (hcap : buf.capacity < wordSize) (hn : buf.size + n < 0x4000000000000000) :
    Reserves buf n (reserveRun calls buf n).result ↔ ¬Cramped buf n := by
  obtain ⟨buf', hbuf⟩ := reserve_succeeds hc buf n
  rw [reserveRun_ok hpos hcap hn hbuf, reserves_iff (reserve_data hbuf), reserve_room_iff hpos hbuf]

/-- A buffer in memory of its own. -/
theorem reserve_reserves_four :
    Reserves { before := [1], data := [2, 3], after := [0] } 2
        (reserveRun {} { before := [1], data := [2, 3], after := [0] } 2).result ↔
      ¬Cramped { before := [1], data := [2, 3], after := [0] } 2 :=
  reserve_reserves ⟨rfl, rfl, rfl, rfl⟩ (by decide) (by decide) (by decide)

/-- Memory in a file, with one byte consumed, one byte held and the rest free. -/
def filed (free : Nat) : Buffer where
  before := [0]
  data := [0]
  after := List.replicate free 0
  fd := some 0

theorem filed_remapped {free n capacity : Nat} (hfree : ¬n ≤ sizeSub (sizeSub (free + 2) 1) 1)
    (hmove : ¬(1 + n) * 2 % wordSize ≤ free + 2) (hgrow : growWord 1 n 65 (free + 2) = some capacity)
    (hlimit : ¬capacity ≤ bufferLimitSize) (hcap : free + 2 ≤ capacity) :
    (reserveRun {} (filed free) n).result = reserved ((filed free).remapped capacity) ∧
      ((filed free).remapped capacity).freeSize = capacity - 2 := by
  have hcapacity : (filed free).capacity = free + 2 := by
    simp only [filed, Buffer.capacity, Buffer.start, List.length_append, List.length_cons, List.length_nil,
      List.length_replicate]
    omega
  have hpos : (filed free).size = 1 ∧ (filed free).pos = 1 := ⟨rfl, rfl⟩
  have hfd : (filed free).fd = some 0 := rfl
  constructor
  · simp only [reserveRun, hcapacity, hpos, hfd]
    rw [if_neg hfree, if_neg hmove, hgrow]
    simp [hlimit, hcap]
  · rw [Buffer.freeSize_eq, Buffer.remapped, hcapacity]
    simp only [filed, List.length_append, List.length_replicate]
    omega

/-- Two megabytes in a file grow to four, and one byte less than what was asked for is free. -/
theorem reserve_short : ¬Reserves (filed 2097150) 4194303 (reserveRun {} (filed 2097150) 4194303).result := by
  obtain ⟨hrun, hfree⟩ := @filed_remapped 2097150 4194303 4194304
    (by decide) (by decide) (by decide) (by decide) (by decide)
  have hdata : ((filed 2097150).remapped 4194304).data = (filed 2097150).data := rfl
  rw [hrun, reserves_iff hdata, hfree]
  decide

end PgRest.Memory
