import PgRest.Slab.Pool

/-! Bitmaps: setting and clearing one bit of a word, the first clear bit, and what the code takes
from a whole word. -/
namespace PgRest.Slab

/-! ### One bit -/

theorem testBit_one_shift (b j : Nat) : (1 <<< b).testBit j = decide (j = b) := by
  rw [Nat.shiftLeft_eq, Nat.one_mul, Nat.testBit_two_pow]
  exact decide_eq_decide.mpr eq_comm

theorem testBit_setBit (w b j : Nat) : (setBit w b).testBit j = (w.testBit j || decide (j = b)) := by
  rw [setBit, Nat.testBit_or, testBit_one_shift]

theorem testBit_high {w j : Nat} (h : w ≤ busy) (hj : 64 ≤ j) : w.testBit j = false := by
  have hlt : w < 2 ^ 64 := Nat.lt_of_le_of_lt h (by decide)
  exact Nat.testBit_lt_two_pow (Nat.lt_of_lt_of_le hlt (Nat.pow_le_pow_right (by decide) hj))

theorem testBit_busy (j : Nat) : busy.testBit j = decide (j < 64) := Nat.testBit_two_pow_sub_one 64 j

theorem testBit_unsetBit {w b : Nat} (h : w ≤ busy) (hb : b < 64) (j : Nat) :
    (unsetBit w b).testBit j = (w.testBit j && decide (j ≠ b)) := by
  have hlt : 1 <<< b < 2 ^ 64 := by
    rw [Nat.shiftLeft_eq, Nat.one_mul]
    exact Nat.pow_lt_pow_right (by decide) hb
  have hsub : busy - 1 <<< b = 2 ^ 64 - (1 <<< b + 1) := by
    rw [Nat.add_comm, ← Nat.sub_sub]
    rfl
  rw [unsetBit, Nat.testBit_and, hsub, Nat.testBit_two_pow_sub_succ hlt, testBit_one_shift]
  rcases Nat.lt_or_ge j 64 with hj | hj
  · simp [hj]
  · rw [testBit_high h hj]
    rfl

theorem setBit_le {w b : Nat} (h : w ≤ busy) (hb : b < 64) : setBit w b ≤ busy := by
  have hlt : 1 <<< b < 2 ^ 64 := by
    rw [Nat.shiftLeft_eq, Nat.one_mul]
    exact Nat.pow_lt_pow_right (by decide) hb
  exact Nat.le_of_lt_succ (Nat.or_lt_two_pow (Nat.lt_of_le_of_lt h (by decide)) hlt)

theorem unsetBit_le {w : Nat} (h : w ≤ busy) (b : Nat) : unsetBit w b ≤ busy := Nat.le_trans Nat.and_le_left h

theorem eq_busy_iff {w : Nat} (h : w ≤ busy) : w = busy ↔ ∀ j, j < 64 → w.testBit j = true := by
  constructor
  · rintro rfl j hj
    rw [testBit_busy, decide_eq_true hj]
  · intro hall
    apply Nat.eq_of_testBit_eq
    intro j
    rw [testBit_busy]
    rcases Nat.lt_or_ge j 64 with hj | hj
    · rw [hall j hj, decide_eq_true hj]
    · rw [testBit_high h hj, decide_eq_false (by omega)]

theorem eq_zero_iff {w : Nat} (h : w ≤ busy) : w = 0 ↔ ∀ j, j < 64 → w.testBit j = false := by
  constructor
  · rintro rfl j -
    exact Nat.zero_testBit j
  · intro hall
    apply Nat.eq_of_testBit_eq
    intro j
    rw [Nat.zero_testBit]
    rcases Nat.lt_or_ge j 64 with hj | hj
    · exact hall j hj
    · exact testBit_high h hj

theorem testBit_shiftMask (j : Nat) : shiftMask.testBit j = decide (j < 4) := Nat.testBit_two_pow_sub_one 4 j

theorem testBit_mapMask (j : Nat) : mapMask.testBit j = (decide (32 ≤ j) && decide (j < 64)) := by
  have hmask : mapMask = (2 ^ 32 - 1) <<< 32 := by decide
  rw [hmask, Nat.testBit_shiftLeft, Nat.testBit_two_pow_sub_one]
  exact congrArg (_ && ·) (decide_eq_decide.mpr (by omega))

theorem testBit_bigMask (n j : Nat) : (bigMask n).testBit j = (decide (32 ≤ j) && decide (j < 32 + n)) := by
  rw [bigMask, mapShift, Nat.testBit_shiftLeft, Nat.shiftLeft_eq, Nat.one_mul, Nat.testBit_two_pow_sub_one]
  rcases Nat.lt_or_ge j 32 with hj | hj
  · rw [decide_eq_false (by omega), Bool.false_and, Bool.false_and]
  · exact congrArg (_ && ·) (decide_eq_decide.mpr (by omega))

/-- The lowest bits of a word do not change with the others. -/
theorem and_shiftMask {w w' : Nat} (h : ∀ j, j < 4 → w'.testBit j = w.testBit j) :
    w' &&& shiftMask = w &&& shiftMask := by
  apply Nat.eq_of_testBit_eq
  intro j
  rw [Nat.testBit_and, Nat.testBit_and, testBit_shiftMask]
  rcases Nat.lt_or_ge j 4 with hj | hj
  · rw [h j hj]
  · rw [decide_eq_false (by omega), Bool.and_false, Bool.and_false]

theorem shift_and_shiftMask {shift : Nat} (h : shift < 12) : shift &&& shiftMask = shift :=
  (Nat.and_two_pow_sub_one_eq_mod shift 4).trans (Nat.mod_eq_of_lt (by omega))

/-- The length of a run in use is read without its mark. -/
theorem or_pageStart_and {n : Nat} (h : n < pageStart - 1) : (n ||| pageStart) &&& (busy - pageStart) = n := by
  have hmark : pageStart = 2 ^ 63 := by decide
  have hmask : busy - pageStart = 2 ^ 63 - 1 := by decide
  have hlt : n < 2 ^ 63 := by omega
  rw [hmask, Nat.and_two_pow_sub_one_eq_mod, hmark, Nat.or_mod_two_pow, Nat.mod_self, Nat.or_zero, Nat.mod_eq_of_lt hlt]

theorem or_pageStart_ne {n : Nat} (h : n < pageStart - 1) : n ||| pageStart ≠ 0 ∧ n ||| pageStart ≠ busy := by
  constructor
  · have hle : pageStart ≤ n ||| pageStart := Nat.right_le_or
    have hpos : 0 < pageStart := by decide
    omega
  · intro he
    have hn := or_pageStart_and h
    have hmask : busy &&& (busy - pageStart) = pageStart - 1 := by decide
    rw [he, hmask] at hn
    omega

/-- The bits of `n` chunks in the upper half of a word, and no others. -/
theorem and_mapMask_iff {w n : Nat} (hn : n ≤ 32) (h : ∀ c, n ≤ c → w.testBit (mapShift + c) = false) {m : Nat}
    (hm : m ≤ n) : w &&& mapMask = bigMask m ↔ ∀ c, c < n → w.testBit (mapShift + c) = decide (c < m) := by
  simp only [mapShift] at h ⊢
  constructor
  · intro heq c hc
    have hbit : (w &&& mapMask).testBit (32 + c) = (bigMask m).testBit (32 + c) := by rw [heq]
    rw [Nat.testBit_and, testBit_mapMask, testBit_bigMask, decide_eq_true (by omega), decide_eq_true (by omega)] at hbit
    simpa using hbit
  · intro hall
    apply Nat.eq_of_testBit_eq
    intro j
    rw [Nat.testBit_and, testBit_mapMask, testBit_bigMask]
    rcases Nat.lt_or_ge j 32 with hj | hj
    · rw [decide_eq_false (by omega), Bool.false_and, Bool.and_false, Bool.false_and]
    · obtain ⟨c, rfl⟩ := Nat.exists_eq_add_of_le hj
      rcases Nat.lt_or_ge c n with hc | hc
      · rw [hall c hc, decide_eq_true hj, decide_eq_true (show 32 + c < 64 by omega)]
        simp
      · rw [h c hc, Bool.false_and, decide_eq_false (show ¬32 + c < 32 + m by omega), Bool.and_false]

/-- The bits from `r` on. -/
theorem and_above_iff {w r : Nat} (hr : r < 64) :
    w &&& (busy - (1 <<< r - 1)) = 0 ↔ ∀ b, r ≤ b → b < 64 → w.testBit b = false := by
  have hlt : 1 <<< r - 1 < 2 ^ 64 := by
    rw [Nat.shiftLeft_eq, Nat.one_mul]
    exact Nat.lt_of_le_of_lt (Nat.sub_le ..) (Nat.pow_lt_pow_right (by decide) hr)
  have hmask : ∀ j, (busy - (1 <<< r - 1)).testBit j = (decide (j < 64) && !decide (j < r)) := by
    intro j
    have hsub : busy - (1 <<< r - 1) = 2 ^ 64 - (1 <<< r - 1 + 1) := by
      rw [Nat.add_comm, ← Nat.sub_sub]
      rfl
    rw [hsub, Nat.testBit_two_pow_sub_succ hlt, Nat.shiftLeft_eq, Nat.one_mul, Nat.testBit_two_pow_sub_one]
  constructor
  · intro heq b hlo hhi
    have hbit : (w &&& (busy - (1 <<< r - 1))).testBit b = Nat.testBit 0 b := by rw [heq]
    rw [Nat.testBit_and, hmask, Nat.zero_testBit, decide_eq_true hhi, decide_eq_false (by omega)] at hbit
    simpa using hbit
  · intro hall
    apply Nat.eq_of_testBit_eq
    intro j
    rw [Nat.testBit_and, hmask, Nat.zero_testBit]
    by_cases hj : r ≤ j ∧ j < 64
    · rw [hall j hj.1 hj.2, Bool.false_and]
    · rcases Nat.lt_or_ge j 64 with hj' | hj'
      · rw [decide_eq_true (show j < r by omega), Bool.not_true, Bool.and_false, Bool.and_false]
      · rw [decide_eq_false (show ¬j < 64 by omega), Bool.false_and, Bool.and_false]

/-- The bits up to `n`. -/
theorem testBit_upTo (n b : Nat) : (2 <<< n - 1).testBit b = decide (b ≤ n) := by
  have hpow : 2 <<< n = 2 ^ (n + 1) := by rw [Nat.shiftLeft_eq, Nat.pow_succ, Nat.mul_comm]
  rw [hpow, Nat.testBit_two_pow_sub_one]
  exact decide_eq_decide.mpr Nat.lt_succ_iff

/-! ### The first clear bit -/

theorem clearBit_some {w lo i n j : Nat} (h : clearBit w lo i n = some j) :
    i ≤ j ∧ j < i + n ∧ w.testBit (lo + j) = false := by
  induction n generalizing i with
  | zero => cases h
  | succ n ih =>
    rw [clearBit] at h
    split at h
    · obtain ⟨hlo, hhi, hbit⟩ := ih h
      exact ⟨by omega, by omega, hbit⟩
    · next hbit =>
      cases h
      exact ⟨Nat.le_refl _, by omega, by simpa using hbit⟩

theorem clearBit_none {w lo i n : Nat} (h : clearBit w lo i n = none) {j : Nat} (hlo : i ≤ j) (hhi : j < i + n) :
    w.testBit (lo + j) = true := by
  induction n generalizing i with
  | zero => omega
  | succ n ih =>
    rw [clearBit] at h
    split at h
    · next hbit =>
      rcases Nat.eq_or_lt_of_le hlo with rfl | hlo
      · exact hbit
      · exact ih h hlo (by omega)
    · cases h

/-! ### Words of a bitmap -/

section
variable {bitmap : Nat → Nat} {i n : Nat}

theorem clearWord_some (hle : ∀ j, j < i + n → bitmap j ≤ busy) {j b : Nat} (h : clearWord bitmap i n = some (j, b)) :
    i ≤ j ∧ j < i + n ∧ b < 64 ∧ (bitmap j).testBit b = false ∧ ∀ k, i ≤ k → k < j → bitmap k = busy := by
  induction n generalizing i with
  | zero => cases h
  | succ n ih =>
    have hrec : bitmap i = busy → clearWord bitmap (i + 1) n = some (j, b) →
        i ≤ j ∧ j < i + (n + 1) ∧ b < 64 ∧ (bitmap j).testBit b = false ∧ ∀ k, i ≤ k → k < j → bitmap k = busy := by
      intro hbusy h
      obtain ⟨hlo, hhi, hb, hbit, hbefore⟩ := ih (fun k hk => hle k (by omega)) h
      refine ⟨by omega, by omega, hb, hbit, fun k hk hkj => ?_⟩
      rcases Nat.eq_or_lt_of_le hk with rfl | hk
      · exact hbusy
      · exact hbefore k hk hkj
    rw [clearWord] at h
    split at h
    · next hne =>
      split at h
      · next b' hclear =>
        cases h
        obtain ⟨-, hhi, hbit⟩ := clearBit_some hclear
        exact ⟨Nat.le_refl _, by omega, by omega, by simpa using hbit, fun k hk hkj => by omega⟩
      · next hclear =>
        refine absurd ((eq_busy_iff (hle i (by omega))).mpr fun k hk => ?_) hne
        simpa using clearBit_none hclear (Nat.zero_le k) (by omega)
    · next hbusy => exact hrec (by simpa using hbusy) h

theorem clearWord_none (hle : ∀ j, j < i + n → bitmap j ≤ busy) (h : clearWord bitmap i n = none) {j : Nat}
    (hlo : i ≤ j) (hhi : j < i + n) : bitmap j = busy := by
  induction n generalizing i with
  | zero => omega
  | succ n ih =>
    rw [clearWord] at h
    split at h
    · next hne =>
      split at h
      · cases h
      · next hclear =>
        refine absurd ((eq_busy_iff (hle i (by omega))).mpr fun k hk => ?_) hne
        simpa using clearBit_none hclear (Nat.zero_le k) (by omega)
    · next hbusy =>
      rcases Nat.eq_or_lt_of_le hlo with rfl | hlo
      · simpa using hbusy
      · exact ih (fun k hk => hle k (by omega)) h hlo (by omega)

theorem anyNot_iff {w : Nat} : anyNot w bitmap i n = false ↔ ∀ j, i ≤ j → j < i + n → bitmap j = w := by
  induction n generalizing i with
  | zero =>
    refine iff_of_true rfl fun j hlo hhi => ?_
    omega
  | succ n ih =>
    rw [anyNot, Bool.or_eq_false_iff, ih, bne_eq_false_iff_eq]
    constructor
    · rintro ⟨hi, hrest⟩ j hlo hhi
      rcases Nat.eq_or_lt_of_le hlo with rfl | hlo
      · exact hi
      · exact hrest j hlo (by omega)
    · exact fun hall => ⟨hall i (Nat.le_refl i) (by omega), fun j hlo hhi => hall j (by omega) (by omega)⟩

end

/-! ### Writing one bit -/

/-- To write `v` at a bit of a word, and nothing else. -/
structure Writes (f : Nat → Nat → Nat) (v : Bool) : Prop where
  bit : ∀ w b j, w ≤ busy → b < 64 → (f w b).testBit j = if j = b then v else w.testBit j
  le : ∀ w b, w ≤ busy → b < 64 → f w b ≤ busy

theorem setBit_writes : Writes setBit true where
  bit w b j _ _ := by
    rw [testBit_setBit]
    split
    · next hj => rw [decide_eq_true hj, Bool.or_true]
    · next hj => rw [decide_eq_false hj, Bool.or_false]
  le _ _ := setBit_le

theorem unsetBit_writes : Writes unsetBit false where
  bit w b j hw hb := by
    rw [testBit_unsetBit hw hb]
    split
    · next hj => rw [hj, decide_eq_false (by simp), Bool.and_false]
    · next hj => rw [decide_eq_true hj, Bool.and_true]
  le _ b hw _ := unsetBit_le hw b

end PgRest.Slab
