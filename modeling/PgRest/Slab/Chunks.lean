import PgRest.Slab.Bits
import PgRest.Slab.Links

/-! Pages cut into chunks, of pools with pages of 4096 bytes and chunks of at least 8. A chunk has a
bit, in the words at the start of its page or in the header of the page. -/
namespace PgRest.Slab
open Lib

namespace Pool

/-- What `pgrest_slab_init` makes of a pool with `min_shift` 3, where pages have 4096 bytes. -/
structure Standard (pool : Pool) : Prop where
  pageShift : pool.pageShift = 12
  minShift : pool.minShift = 3
  minSize : pool.minSize = 8
  aligned : pool.start % 4096 = 0
  bound : pool.start + pool.pages * 4096 ≤ pool.stop

/-- The chunks of a page, those that the bitmap takes up among them. -/
def chunks (pool : Pool) (shift : Nat) : Nat := 1 <<< (pool.pageShift - shift)

/-- The chunks of a page that are not for use. -/
def kept (pool : Pool) (shift : Nat) : Nat :=
  match pool.kindOf shift with
  | .small => pool.reserved shift
  | _ => 0

/-- Whether a chunk is in use. -/
def bit (pool : Pool) (i shift c : Nat) : Bool :=
  match pool.kindOf shift with
  | .small => (pool.word (pool.address i + c / 64 * 8)).testBit (c % 64)
  | .exact => (pool.header (.page i)).slab.testBit c
  | _ => (pool.header (.page i)).slab.testBit (mapShift + c)

/-- No chunk of the page is free. -/
def Full (pool : Pool) (i shift : Nat) : Prop := ∀ c, c < pool.chunks shift → pool.bit i shift c = true

/-- No chunk of the page is in use. -/
def Empty (pool : Pool) (i shift : Nat) : Prop :=
  ∀ c, pool.kept shift ≤ c → c < pool.chunks shift → pool.bit i shift c = false

/-- To write the bit of a chunk. -/
def flip (f : Nat → Nat → Nat) (pool : Pool) (i shift c : Nat) : Pool :=
  { pool with
    header :=
      match pool.kindOf shift with
      | .small => pool.header
      | .exact =>
        Function.update pool.header (.page i)
          { pool.header (.page i) with slab := f (pool.header (.page i)).slab c }
      | _ =>
        Function.update pool.header (.page i)
          { pool.header (.page i) with slab := f (pool.header (.page i)).slab (mapShift + c) }
    word :=
      match pool.kindOf shift with
      | .small =>
        Function.update pool.word (pool.address i + c / 64 * 8)
          (f (pool.word (pool.address i + c / 64 * 8)) (c % 64))
      | _ => pool.word }

end Pool

/-- What the bits of a page are kept in is in order. -/
structure Formed (pool : Pool) (i shift : Nat) : Prop where
  low : 3 ≤ shift
  high : shift < 12
  small : pool.kindOf shift = .small → (pool.header (.page i)).slab &&& shiftMask = shift ∧
    ∀ n, n < pool.map shift → pool.word (pool.address i + n * 8) ≤ busy
  exact : pool.kindOf shift = .exact → (pool.header (.page i)).slab ≤ busy
  big : pool.kindOf shift = .big → (pool.header (.page i)).slab &&& shiftMask = shift ∧
    (pool.header (.page i)).slab ≤ busy ∧
    ∀ c, pool.chunks shift ≤ c → (pool.header (.page i)).slab.testBit (mapShift + c) = false

/-! ### Numbers -/

namespace Pool.Standard
variable {pool : Pool} (std : pool.Standard)
include std

theorem pagesize : pool.pagesize = 4096 := by
  rw [Pool.pagesize, std.pageShift]
  rfl

theorem maxSize : pool.maxSize = 2048 := by
  rw [Pool.maxSize, std.pagesize]

theorem exactSize : pool.exactSize = 64 := by
  rw [Pool.exactSize, std.pagesize]

theorem exactShift : pool.exactShift = 6 := by
  rw [Pool.exactShift, std.exactSize]
  decide

theorem address (i : Nat) : pool.address i = pool.start + i * 4096 := by
  rw [Pool.address, std.pageShift, Nat.shiftLeft_eq]

theorem kindOf_small {shift : Nat} : pool.kindOf shift = .small ↔ shift < 6 := by
  rw [Pool.kindOf, std.exactShift]
  split
  · next h => exact iff_of_true rfl h
  · next h =>
    refine iff_of_false ?_ h
    split <;> simp

theorem kindOf_exact {shift : Nat} : pool.kindOf shift = .exact ↔ shift = 6 := by
  rw [Pool.kindOf, std.exactShift]
  split
  · next h => exact iff_of_false (by simp) (by omega)
  · split
    · next h => exact iff_of_true rfl h
    · next h => exact iff_of_false (by simp) h

theorem kindOf_big {shift : Nat} : pool.kindOf shift = .big ↔ 6 < shift := by
  rw [Pool.kindOf, std.exactShift]
  split
  · next h => exact iff_of_false (by simp) (by omega)
  · split
    · next h => exact iff_of_false (by simp) (by omega)
    · next h h' => exact iff_of_true rfl (by omega)

/-- The bitmaps in front of chunks. -/
theorem small_numbers {shift : Nat} (h : 3 ≤ shift) (h' : shift < 6) :
    shift = 3 ∧ pool.map shift = 8 ∧ pool.reserved shift = 8 ∧ pool.chunks shift = 512 ∨
      shift = 4 ∧ pool.map shift = 4 ∧ pool.reserved shift = 2 ∧ pool.chunks shift = 256 ∨
      shift = 5 ∧ pool.map shift = 2 ∧ pool.reserved shift = 1 ∧ pool.chunks shift = 128 := by
  simp only [Pool.map, Pool.reserved, Pool.chunks, std.pageShift]
  rcases (by omega : shift = 3 ∨ shift = 4 ∨ shift = 5) with rfl | rfl | rfl
  · exact Or.inl (by decide)
  · exact Or.inr (Or.inl (by decide))
  · exact Or.inr (Or.inr (by decide))

theorem exact_number : pool.chunks 6 = 64 := by
  rw [Pool.chunks, std.pageShift]
  rfl

theorem big_number {shift : Nat} (h : 6 < shift) (h' : shift < 12) : 1 < pool.chunks shift ∧ pool.chunks shift ≤ 32 := by
  rw [Pool.chunks, std.pageShift]
  rcases (by omega : shift = 7 ∨ shift = 8 ∨ shift = 9 ∨ shift = 10 ∨ shift = 11) with rfl | rfl | rfl | rfl | rfl
  all_goals decide

/-- The chunks make up the page. -/
theorem chunks_size {shift : Nat} (h : shift < 12) : pool.chunks shift * 1 <<< shift = 4096 := by
  rw [Pool.chunks, std.pageShift, Nat.shiftLeft_eq, Nat.shiftLeft_eq, Nat.one_mul, Nat.one_mul, ← Nat.pow_add,
    Nat.sub_add_cancel (Nat.le_of_lt h)]

end Pool.Standard

/-! ### Bits -/

section
variable {pool : Pool} {i shift c : Nat} (f : Nat → Nat → Nat)

theorem Pool.kindOf_ne (pool : Pool) (shift : Nat) : pool.kindOf shift ≠ .page := by
  rw [Pool.kindOf]
  split
  · simp
  · split <;> simp

theorem Pool.bit_small (h : pool.kindOf shift = .small) (i c : Nat) :
    pool.bit i shift c = (pool.word (pool.address i + c / 64 * 8)).testBit (c % 64) := by
  rw [Pool.bit, h]

theorem Pool.bit_exact (h : pool.kindOf shift = .exact) (i c : Nat) :
    pool.bit i shift c = (pool.header (.page i)).slab.testBit c := by
  rw [Pool.bit, h]

theorem Pool.bit_big (h : pool.kindOf shift = .big) (i c : Nat) :
    pool.bit i shift c = (pool.header (.page i)).slab.testBit (mapShift + c) := by
  rw [Pool.bit, h]

theorem Pool.kept_small (h : pool.kindOf shift = .small) : pool.kept shift = pool.reserved shift := by
  rw [Pool.kept, h]

theorem Pool.kept_zero (h : pool.kindOf shift ≠ .small) : pool.kept shift = 0 := by
  rw [Pool.kept]
  split
  · next hk => exact absurd hk h
  · rfl

theorem Pool.flip_small (h : pool.kindOf shift = .small) :
    pool.flip f i shift c =
      pool.putWord (pool.address i + c / 64 * 8) (f (pool.word (pool.address i + c / 64 * 8)) (c % 64)) := by
  rw [Pool.flip, h]
  rfl

theorem Pool.flip_exact (h : pool.kindOf shift = .exact) :
    pool.flip f i shift c =
      pool.put (.page i) { pool.header (.page i) with slab := f (pool.header (.page i)).slab c } := by
  rw [Pool.flip, h]
  rfl

theorem Pool.flip_big (h : pool.kindOf shift = .big) :
    pool.flip f i shift c =
      pool.put (.page i) { pool.header (.page i) with slab := f (pool.header (.page i)).slab (mapShift + c) } := by
  rw [Pool.flip, h]
  rfl

@[simp] theorem Pool.flip_has : (pool.flip f i shift c).has = pool.has := by
  funext r
  cases r <;> rfl

theorem Pool.flip_word (h : pool.kindOf shift ≠ .small) : (pool.flip f i shift c).word = pool.word := by
  rw [Pool.flip]
  cases hk : pool.kindOf shift with
  | small => exact absurd hk h
  | page => rfl
  | exact => rfl
  | big => rfl

/-- Only a `slab` can change in the headers. -/
theorem Pool.flip_header (pool : Pool) (f : Nat → Nat → Nat) (i shift c : Nat) (r : Ref) :
    ∃ w, (pool.flip f i shift c).header r = { pool.header r with slab := w } ∧
      (r ≠ .page i → w = (pool.header r).slab) := by
  by_cases hr : r = .page i
  · subst hr
    cases hk : pool.kindOf shift with
    | page => exact absurd hk (pool.kindOf_ne shift)
    | big => exact ⟨_, by rw [Pool.flip_big f hk, put_self], fun h => absurd rfl h⟩
    | exact => exact ⟨_, by rw [Pool.flip_exact f hk, put_self], fun h => absurd rfl h⟩
    | small => exact ⟨_, by rw [Pool.flip_small f hk]; rfl, fun _ => rfl⟩
  · refine ⟨_, ?_, fun _ => rfl⟩
    cases hk : pool.kindOf shift with
    | page => exact absurd hk (pool.kindOf_ne shift)
    | big => rw [Pool.flip_big f hk, put_of_ne _ _ _ hr]
    | exact => rw [Pool.flip_exact f hk, put_of_ne _ _ _ hr]
    | small => rw [Pool.flip_small f hk]; rfl

end

theorem Pool.Standard.flip {pool : Pool} (std : pool.Standard) (f : Nat → Nat → Nat) (i shift c : Nat) :
    (pool.flip f i shift c).Standard := ⟨std.pageShift, std.minShift, std.minSize, std.aligned, std.bound⟩

namespace Formed
variable {pool : Pool} {i j shift sh c c' : Nat} {f : Nat → Nat → Nat} {v : Bool}

theorem word_lt (std : pool.Standard) (F : Formed pool i shift) (hk : pool.kindOf shift = .small)
    (hc : c < pool.chunks shift) : c / 64 < pool.map shift ∧ pool.map shift ≤ 8 := by
  rcases std.small_numbers F.low (std.kindOf_small.mp hk) with ⟨-, hm, -, hn⟩ | ⟨-, hm, -, hn⟩ | ⟨-, hm, -, hn⟩
  all_goals
    rw [hm]
    rw [hn] at hc
    omega

/-- There are at least two chunks for use. -/
theorem kept_succ_lt (std : pool.Standard) (F : Formed pool i shift) : pool.kept shift + 1 < pool.chunks shift := by
  cases hk : pool.kindOf shift with
  | page => exact absurd hk (pool.kindOf_ne shift)
  | small =>
    rw [Pool.kept_small hk]
    rcases std.small_numbers F.low (std.kindOf_small.mp hk) with ⟨-, -, hr, hn⟩ | ⟨-, -, hr, hn⟩ | ⟨-, -, hr, hn⟩
    all_goals rw [hr, hn]; decide
  | exact =>
    rw [Pool.kept_zero (by simp [hk]), std.kindOf_exact.mp hk, std.exact_number]
    decide
  | big =>
    rw [Pool.kept_zero (by simp [hk])]
    exact (std.big_number (std.kindOf_big.mp hk) F.high).1

theorem kept_lt (std : pool.Standard) (F : Formed pool i shift) : pool.kept shift < pool.chunks shift :=
  Nat.lt_of_succ_lt (F.kept_succ_lt std)

/-- Writing the bit of a chunk changes no other bit of a page. -/
theorem flip_bit (hf : Writes f v) (std : pool.Standard) (F : Formed pool i shift) (hc : c < pool.chunks shift)
    (G : Formed pool j sh) (hc' : c' < pool.chunks sh) (hsame : j = i → sh = shift) :
    (pool.flip f i shift c).bit j sh c' = if j = i ∧ c' = c then v else pool.bit j sh c' := by
  have hkind : (pool.flip f i shift c).kindOf sh = pool.kindOf sh := rfl
  have haddress : (pool.flip f i shift c).address = pool.address := rfl
  cases hsh : pool.kindOf sh with
  | page => exact absurd hsh (pool.kindOf_ne sh)
  | small =>
    rw [Pool.bit_small (hkind.trans hsh), Pool.bit_small hsh, haddress]
    by_cases hk : pool.kindOf shift = .small
    · rw [Pool.flip_small f hk]
      have hlt := F.word_lt std hk hc
      have hlt' := G.word_lt std hsh hc'
      show (Function.update pool.word _ _ _).testBit _ = _
      by_cases hword : j = i ∧ c' / 64 = c / 64
      · obtain ⟨rfl, hword⟩ := hword
        rw [hword, Function.update_self, hf.bit _ _ _ ((F.small hk).2 _ hlt.1) (Nat.mod_lt _ (by decide))]
        simp only [true_and, show (c' % 64 = c % 64) = (c' = c) from propext (by omega)]
      · have hne : pool.address j + c' / 64 * 8 ≠ pool.address i + c / 64 * 8 := by
          rw [std.address, std.address]
          omega
        rw [Function.update_of_ne hne, if_neg]
        rintro ⟨rfl, rfl⟩
        exact hword ⟨rfl, rfl⟩
    · have hne : ¬(j = i ∧ c' = c) := by
        rintro ⟨rfl, -⟩
        exact hk (hsame rfl ▸ hsh)
      rw [Pool.flip_word f hk, if_neg hne]
  | exact =>
    rw [Pool.bit_exact (hkind.trans hsh), Pool.bit_exact hsh]
    by_cases hji : j = i
    · subst hji
      obtain rfl := hsame rfl
      have hc64 : c < 64 := by rwa [(std.kindOf_exact.mp hsh), std.exact_number] at hc
      rw [Pool.flip_exact f hsh, put_self, hf.bit _ _ _ (F.exact hsh) hc64]
      simp only [true_and]
    · obtain ⟨w, hw, hsame⟩ := pool.flip_header f i shift c (.page j)
      rw [hw, hsame (by simpa using hji), if_neg fun h => hji h.1]
  | big =>
    rw [Pool.bit_big (hkind.trans hsh), Pool.bit_big hsh]
    by_cases hji : j = i
    · subst hji
      obtain rfl := hsame rfl
      have hnumber := std.big_number (std.kindOf_big.mp hsh) F.high
      rw [Pool.flip_big f hsh, put_self, hf.bit _ _ _ (F.big hsh).2.1 (by rw [mapShift]; omega)]
      simp only [true_and, Nat.add_left_cancel_iff]
    · obtain ⟨w, hw, hsame⟩ := pool.flip_header f i shift c (.page j)
      rw [hw, hsame (by simpa using hji), if_neg fun h => hji h.1]

theorem flip (hf : Writes f v) (std : pool.Standard) (F : Formed pool i shift) (hc : c < pool.chunks shift)
    (G : Formed pool j sh) (hsame : j = i → sh = shift) : Formed (pool.flip f i shift c) j sh := by
  have hslab : j ≠ i → ((pool.flip f i shift c).header (.page j)).slab = (pool.header (.page j)).slab := fun hji => by
    obtain ⟨w, hw, hsame⟩ := pool.flip_header f i shift c (.page j)
    rw [hw, hsame (by simpa using hji)]
  refine ⟨G.low, G.high, fun hk₀ => ?_, fun hk₀ => ?_, fun hk₀ => ?_⟩
  · have hk : pool.kindOf sh = .small := hk₀
    constructor
    · by_cases hji : j = i
      · subst hji
        obtain rfl := hsame rfl
        rw [Pool.flip_small f hk]
        exact (G.small hk).1
      · rw [hslab hji]
        exact (G.small hk).1
    · intro n hn
      by_cases hk' : pool.kindOf shift = .small
      · rw [Pool.flip_small f hk']
        show Function.update pool.word _ _ (pool.address j + n * 8) ≤ busy
        by_cases ha : pool.address j + n * 8 = pool.address i + c / 64 * 8
        · rw [ha, Function.update_self]
          exact hf.le _ _ ((F.small hk').2 _ (F.word_lt std hk' hc).1) (Nat.mod_lt _ (by decide))
        · rw [Function.update_of_ne ha]
          exact (G.small hk).2 n hn
      · rw [Pool.flip_word f hk']
        exact (G.small hk).2 n hn
  · have hk : pool.kindOf sh = .exact := hk₀
    by_cases hji : j = i
    · subst hji
      obtain rfl := hsame rfl
      have hc64 : c < 64 := by rwa [(std.kindOf_exact.mp hk), std.exact_number] at hc
      rw [Pool.flip_exact f hk, put_self]
      exact hf.le _ _ (G.exact hk) hc64
    · rw [hslab hji]
      exact G.exact hk
  · have hk : pool.kindOf sh = .big := hk₀
    by_cases hji : j = i
    · subst hji
      obtain rfl := hsame rfl
      have hnumber := std.big_number (std.kindOf_big.mp hk) F.high
      obtain ⟨hshift, hle, hrest⟩ := G.big hk
      have hb : mapShift + c < 64 := by rw [mapShift]; omega
      rw [Pool.flip_big f hk, put_self]
      refine ⟨?_, hf.le _ _ hle hb, fun c' hc' => ?_⟩
      · rw [and_shiftMask, hshift]
        intro j hj
        rw [hf.bit _ _ _ hle hb, if_neg (by rw [mapShift]; omega)]
      · have hc' : pool.chunks sh ≤ c' := hc'
        rw [hf.bit _ _ _ hle hb, if_neg (by omega)]
        exact hrest c' hc'
    · rw [hslab hji]
      exact G.big hk

/-- What the bits of a page say is read from whole words. -/
theorem full_small (std : pool.Standard) (F : Formed pool i shift) (hk : pool.kindOf shift = .small) :
    pool.Full i shift ↔ ∀ n, n < pool.map shift → pool.word (pool.address i + n * 8) = busy := by
  have hnumbers : pool.chunks shift = pool.map shift * 64 := by
    rcases std.small_numbers F.low (std.kindOf_small.mp hk) with ⟨-, hm, -, hn⟩ | ⟨-, hm, -, hn⟩ | ⟨-, hm, -, hn⟩
    all_goals rw [hm, hn]
  constructor
  · intro hfull n hn
    refine (eq_busy_iff ((F.small hk).2 n hn)).mpr fun b hb => ?_
    have hbit := hfull (n * 64 + b) (by omega)
    rw [Pool.bit_small hk] at hbit
    rwa [show (n * 64 + b) / 64 = n by omega, show (n * 64 + b) % 64 = b by omega] at hbit
  · intro hall c hc
    rw [Pool.bit_small hk, hall _ (by omega), testBit_busy, decide_eq_true (Nat.mod_lt _ (by decide))]

theorem full_exact (std : pool.Standard) (F : Formed pool i shift) (hk : pool.kindOf shift = .exact) :
    pool.Full i shift ↔ (pool.header (.page i)).slab = busy := by
  rw [eq_busy_iff (F.exact hk), Pool.Full, std.kindOf_exact.mp hk, std.exact_number, ← std.kindOf_exact.mp hk]
  exact forall₂_congr fun c _ => by rw [Pool.bit_exact hk]

theorem full_big (std : pool.Standard) (F : Formed pool i shift) (hk : pool.kindOf shift = .big) :
    pool.Full i shift ↔ (pool.header (.page i)).slab &&& mapMask = bigMask (pool.chunks shift) := by
  obtain ⟨-, -, hrest⟩ := F.big hk
  have hnumber := std.big_number (std.kindOf_big.mp hk) F.high
  rw [and_mapMask_iff hnumber.2 hrest (Nat.le_refl _), Pool.Full]
  exact forall₂_congr fun c hc => by rw [Pool.bit_big hk, decide_eq_true hc]

theorem empty_exact (std : pool.Standard) (F : Formed pool i shift) (hk : pool.kindOf shift = .exact) :
    pool.Empty i shift ↔ (pool.header (.page i)).slab = 0 := by
  have hkept : pool.kept shift = 0 := Pool.kept_zero (by simp [hk])
  rw [eq_zero_iff (F.exact hk), Pool.Empty, hkept, std.kindOf_exact.mp hk, std.exact_number, ← std.kindOf_exact.mp hk]
  simp only [Nat.zero_le, true_implies]
  exact forall₂_congr fun c _ => by rw [Pool.bit_exact hk]

theorem empty_big (std : pool.Standard) (F : Formed pool i shift) (hk : pool.kindOf shift = .big) :
    pool.Empty i shift ↔ (pool.header (.page i)).slab &&& mapMask = 0 := by
  obtain ⟨-, -, hrest⟩ := F.big hk
  have hkept : pool.kept shift = 0 := Pool.kept_zero (by simp [hk])
  have hnumber := std.big_number (std.kindOf_big.mp hk) F.high
  have hzero : bigMask 0 = 0 := by decide
  rw [← hzero, and_mapMask_iff hnumber.2 hrest (Nat.zero_le _), Pool.Empty, hkept]
  simp only [Nat.zero_le, true_implies]
  exact forall₂_congr fun c hc => by rw [Pool.bit_big hk, decide_eq_false (Nat.not_lt_zero c)]

theorem empty_small (std : pool.Standard) (F : Formed pool i shift) (hk : pool.kindOf shift = .small) :
    pool.Empty i shift ↔ pool.word (pool.address i) &&& (busy - (1 <<< pool.reserved shift - 1)) = 0 ∧
      ∀ n, 1 ≤ n → n < pool.map shift → pool.word (pool.address i + n * 8) = 0 := by
  have hkept := Pool.kept_small hk
  obtain ⟨hmap, hreserved, hnumbers⟩ :
      0 < pool.map shift ∧ pool.reserved shift < 64 ∧ pool.chunks shift = pool.map shift * 64 := by
    rcases std.small_numbers F.low (std.kindOf_small.mp hk) with ⟨-, hm, hr, hn⟩ | ⟨-, hm, hr, hn⟩ | ⟨-, hm, hr, hn⟩
    all_goals rw [hm, hr, hn]; decide
  rw [and_above_iff hreserved, Pool.Empty, hkept]
  constructor
  · intro hempty
    refine ⟨fun b hlo hhi => ?_, fun n hn hlt => (eq_zero_iff ((F.small hk).2 n hlt)).mpr fun b hb => ?_⟩
    · have hbit := hempty b hlo (by omega)
      rwa [Pool.bit_small hk, Nat.div_eq_of_lt hhi, Nat.mod_eq_of_lt hhi, Nat.zero_mul, Nat.add_zero] at hbit
    · have hbit := hempty (n * 64 + b) (by omega) (by omega)
      rw [Pool.bit_small hk] at hbit
      rwa [show (n * 64 + b) / 64 = n by omega, show (n * 64 + b) % 64 = b by omega] at hbit
  · rintro ⟨hfirst, hrest⟩ c hlo hhi
    rw [Pool.bit_small hk]
    rcases Nat.lt_or_ge c 64 with hc | hc
    · rw [Nat.div_eq_of_lt hc, Nat.mod_eq_of_lt hc, Nat.zero_mul, Nat.add_zero]
      exact hfirst c hlo hc
    · rw [hrest (c / 64) (by omega) (by omega), Nat.zero_testBit]

end Formed

/-! ### Taking a chunk -/

instance (pool : Pool) (i shift : Nat) : Decidable (pool.Full i shift) :=
  inferInstanceAs (Decidable (∀ c, c < pool.chunks shift → pool.bit i shift c = true))

/-- The chunk `c` is taken, and a page that is full then leaves the ring of its slot. -/
def takeAt (pool : Pool) (i shift c : Nat) : Option (Pool × Nat) :=
  let pool := pool.flip setBit i shift c
  let p := pool.address i + c <<< shift
  if pool.Full i shift then (retire pool (.page i) (pool.kindOf shift)).map fun pool => (pool, p) else some (pool, p)

section
variable {pool : Pool} {i shift : Nat}

theorem takeSmall_spec (std : pool.Standard) (F : Formed pool i shift) (hk : pool.kindOf shift = .small)
    (hfree : ¬pool.Full i shift) :
    ∃ c, c < pool.chunks shift ∧ pool.bit i shift c = false ∧
      takeSmall pool shift i = (takeAt pool i shift c).map some := by
  have hle := (F.small hk).2
  have hnumbers : pool.chunks shift = pool.map shift * 64 := by
    rcases std.small_numbers F.low (std.kindOf_small.mp hk) with ⟨-, hm, -, hn⟩ | ⟨-, hm, -, hn⟩ | ⟨-, hm, -, hn⟩
    all_goals rw [hm, hn]
  cases hclear : clearWord (fun n => pool.word (pool.address i + n * 8)) 0 (pool.map shift) with
  | none =>
    refine absurd ((F.full_small std hk).mpr fun n hn => ?_) hfree
    exact clearWord_none (by simpa using hle) hclear (Nat.zero_le n) (by omega)
  | some r =>
    obtain ⟨n, b⟩ := r
    obtain ⟨-, hn, hb, hbit, hbefore⟩ := clearWord_some (by simpa using hle) hclear
    rw [Nat.zero_add] at hn
    have hdiv : (n * 64 + b) / 64 = n := by omega
    have hmod : (n * 64 + b) % 64 = b := by omega
    have hc : n * 64 + b < pool.chunks shift := by omega
    refine ⟨n * 64 + b, hc, ?_, ?_⟩
    · rw [Pool.bit_small hk, hdiv, hmod]
      exact hbit
    · have G := F.flip setBit_writes std hc F fun _ => rfl
      have hword : ∀ k, (pool.flip setBit i shift (n * 64 + b)).word (pool.address i + k * 8) =
          if k = n then setBit (pool.word (pool.address i + n * 8)) b else pool.word (pool.address i + k * 8) := by
        intro k
        rw [Pool.flip_small setBit hk, hdiv, hmod]
        show Function.update pool.word _ _ _ = _
        split
        · next hkn => rw [hkn, Function.update_self]
        · next hkn => rw [Function.update_of_ne (by omega)]
      have hfull : (pool.flip setBit i shift (n * 64 + b)).Full i shift ↔
          setBit (pool.word (pool.address i + n * 8)) b = busy ∧
            (!anyNot busy (fun n => pool.word (pool.address i + n * 8)) (n + 1) (pool.map shift - (n + 1))) = true := by
        rw [G.full_small (std.flip ..) hk, Bool.not_eq_true', anyNot_iff]
        show (∀ k, k < pool.map shift → (pool.flip setBit i shift (n * 64 + b)).word (pool.address i + k * 8) = busy) ↔ _
        constructor
        · intro hall
          refine ⟨by simpa [hword] using hall n hn, fun k hlo hhi => ?_⟩
          have := hall k (by omega)
          rwa [hword, if_neg (by omega)] at this
        · rintro ⟨hself, hafter⟩ k hk'
          rw [hword]
          split
          · exact hself
          · rcases Nat.lt_or_ge k n with hkn | hkn
            · exact hbefore k (Nat.zero_le k) hkn
            · exact hafter k (by omega) (by omega)
      have hp : pool.address i + (n * 8 * 8) <<< shift + b <<< shift = pool.address i + (n * 64 + b) <<< shift := by
        rw [Nat.shiftLeft_eq, Nat.shiftLeft_eq, Nat.shiftLeft_eq, Nat.add_mul, Nat.mul_assoc n, Nat.add_assoc]
      have hput : pool.putWord (pool.address i + n * 8) (setBit (pool.word (pool.address i + n * 8)) b) =
          pool.flip setBit i shift (n * 64 + b) := by
        rw [Pool.flip_small setBit hk, hdiv, hmod]
      simp only [takeSmall, hclear, Option.bind_eq_bind, hput, hp, takeAt]
      by_cases hf : (pool.flip setBit i shift (n * 64 + b)).Full i shift
      · rw [if_pos (hfull.mp hf), if_pos hf, show (pool.flip setBit i shift (n * 64 + b)).kindOf shift = .small from hk]
        cases retire (pool.flip setBit i shift (n * 64 + b)) (.page i) .small <;> rfl
      · rw [if_neg (mt hfull.mpr hf), if_neg hf]
        rfl

theorem takeExact_spec (std : pool.Standard) (F : Formed pool i shift) (hk : pool.kindOf shift = .exact)
    (hhas : pool.has (.page i) = true) (hfree : ¬pool.Full i shift) :
    ∃ c, c < pool.chunks shift ∧ pool.bit i shift c = false ∧
      takeExact pool shift i = (takeAt pool i shift c).map some := by
  have hne : (pool.header (.page i)).slab ≠ busy := mt (F.full_exact std hk).mpr hfree
  have hnumber : pool.chunks shift = 64 := by
    rw [std.kindOf_exact.mp hk]
    exact std.exact_number
  cases hclear : clearBit (pool.header (.page i)).slab 0 0 64 with
  | none =>
    refine absurd ((eq_busy_iff (F.exact hk)).mpr fun b hb => ?_) hne
    simpa using clearBit_none hclear (Nat.zero_le b) (by omega)
  | some b =>
    obtain ⟨-, hb, hbit⟩ := clearBit_some hclear
    rw [Nat.zero_add] at hb hbit
    refine ⟨b, by omega, by rw [Pool.bit_exact hk, hbit], ?_⟩
    have G := F.flip setBit_writes std (show b < pool.chunks shift by omega) F fun _ => rfl
    have hput : pool.put (.page i) { pool.header (.page i) with slab := setBit (pool.header (.page i)).slab b } =
        pool.flip setBit i shift b := (Pool.flip_exact setBit hk).symm
    have hfull : (pool.flip setBit i shift b).Full i shift ↔ setBit (pool.header (.page i)).slab b = busy := by
      rw [G.full_exact (std.flip ..) hk, ← hput, put_self]
    simp only [takeExact, Pool.get_eq hhas, Option.bind_eq_bind, Option.bind_some, ne_eq, hne, not_false_eq_true, if_true,
      hclear, Pool.modify_eq hhas, hput, takeAt]
    by_cases hf : (pool.flip setBit i shift b).Full i shift
    · rw [if_pos (hfull.mp hf), if_pos hf, show (pool.flip setBit i shift b).kindOf shift = .exact from hk]
      cases retire (pool.flip setBit i shift b) (.page i) .exact <;> rfl
    · rw [if_neg (mt hfull.mpr hf), if_neg hf]
      rfl

theorem takeBig_spec (std : pool.Standard) (F : Formed pool i shift) (hk : pool.kindOf shift = .big)
    (hhas : pool.has (.page i) = true) (hfree : ¬pool.Full i shift) :
    ∃ c, c < pool.chunks shift ∧ pool.bit i shift c = false ∧
      takeBig (pool.chunks shift) pool shift i = (takeAt pool i shift c).map some := by
  have hne : ¬(pool.header (.page i)).slab &&& mapMask = bigMask (pool.chunks shift) := mt (F.full_big std hk).mpr hfree
  cases hclear : clearBit (pool.header (.page i)).slab mapShift 0 (pool.chunks shift) with
  | none =>
    refine absurd (fun c hc => ?_) hfree
    rw [Pool.bit_big hk]
    exact clearBit_none hclear (Nat.zero_le c) (by omega)
  | some b =>
    obtain ⟨-, hb, hbit⟩ := clearBit_some hclear
    rw [Nat.zero_add] at hb
    refine ⟨b, hb, by rw [Pool.bit_big hk, hbit], ?_⟩
    have G := F.flip setBit_writes std hb F fun _ => rfl
    have hput : pool.put (.page i)
        { pool.header (.page i) with slab := setBit (pool.header (.page i)).slab (mapShift + b) } =
        pool.flip setBit i shift b := (Pool.flip_big setBit hk).symm
    have hfull : (pool.flip setBit i shift b).Full i shift ↔
        setBit (pool.header (.page i)).slab (mapShift + b) &&& mapMask = bigMask (pool.chunks shift) := by
      rw [G.full_big (std.flip ..) hk, ← hput, put_self]
      rfl
    simp only [takeBig, Pool.get_eq hhas, Option.bind_eq_bind, Option.bind_some, ne_eq, hne, not_false_eq_true, if_true,
      hclear, Pool.modify_eq hhas, hput, takeAt]
    by_cases hf : (pool.flip setBit i shift b).Full i shift
    · rw [if_pos (hfull.mp hf), if_pos hf, show (pool.flip setBit i shift b).kindOf shift = .big from hk]
      cases retire (pool.flip setBit i shift b) (.page i) .big <;> rfl
    · rw [if_neg (mt hfull.mpr hf), if_neg hf]
      rfl

/-- **The first page of a slot gives a chunk**, where it has a free one. -/
theorem takeChunk_spec (std : pool.Standard) (F : Formed pool i shift) (hhas : pool.has (.page i) = true)
    (hfree : ¬pool.Full i shift) :
    ∃ c, c < pool.chunks shift ∧ pool.bit i shift c = false ∧
      takeChunk pool shift (.page i) = (takeAt pool i shift c).map some := by
  -- where there is a free chunk in the first page, the walk ends there
  have hfirst : ∀ take : Pool → Nat → Option (Option (Pool × Nat)), ∀ c,
      take pool i = (takeAt pool i shift c).map some →
      takeFrom take (pool.pages + 1) pool (some (.page i)) = (takeAt pool i shift c).map some := by
    intro take c htake
    simp only [takeFrom, htake]
    cases takeAt pool i shift c <;> rfl
  cases hk : pool.kindOf shift with
  | page => exact absurd hk (pool.kindOf_ne shift)
  | small =>
    obtain ⟨c, hc, hbit, htake⟩ := takeSmall_spec std F hk hfree
    refine ⟨c, hc, hbit, ?_⟩
    simp only [takeChunk, hk]
    exact hfirst (takeSmall · shift ·) c htake
  | exact =>
    obtain ⟨c, hc, hbit, htake⟩ := takeExact_spec std F hk hhas hfree
    refine ⟨c, hc, hbit, ?_⟩
    simp only [takeChunk, hk]
    exact hfirst (takeExact · shift ·) c htake
  | big =>
    obtain ⟨c, hc, hbit, htake⟩ := takeBig_spec std F hk hhas hfree
    refine ⟨c, hc, hbit, ?_⟩
    have hn : 1 <<< (pool.pageShift - ((pool.header (.page i)).slab &&& shiftMask)) = pool.chunks shift := by
      rw [(F.big hk).1, Pool.chunks]
    simp only [takeChunk, hk, Pool.get_eq hhas, Option.bind_eq_bind, Option.bind_some, hn]
    exact hfirst (takeBig (pool.chunks shift) · shift ·) c htake

end

end PgRest.Slab
