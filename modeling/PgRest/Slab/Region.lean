import PgRest.Slab.System

/-! Whether the pool that `pgrest_slab_init` sets up lies in its region. The number of pages is reduced
to what there is room for, but not where the aligned start of the pages is behind the end of the
region: the negative distance between them is divided as an unsigned word. -/
namespace PgRest.Slab

/-- The headers of the pages, the pages, and the end of the region are one behind the other. -/
structure Fits (base : Nat) (pool : Pool) : Prop where
  headers : base + poolSize + (pool.pageShift - pool.minShift) * headerSize + pool.pages * headerSize ≤ pool.start
  aligned : pool.start % pool.pagesize = 0
  inside : pool.start + pool.pages * pool.pagesize ≤ pool.stop

/-- The next multiple is the first. -/
theorem alignUp_le_iff {a b n : Nat} (hn : 0 < n) : alignUp a n ≤ b ↔ ∃ c, c % n = 0 ∧ a ≤ c ∧ c ≤ b := by
  constructor
  · intro h
    exact ⟨alignUp a n, Nat.mul_mod_left .., alignUp_ge a hn, h⟩
  · rintro ⟨c, hc, hac, hcb⟩
    refine Nat.le_trans ?_ hcb
    obtain ⟨k, rfl⟩ := Nat.dvd_of_mod_eq_zero hc
    rw [alignUp, Nat.mul_comm n k]
    refine Nat.mul_le_mul_right n (Nat.le_of_lt_succ ?_)
    rw [Nat.div_lt_iff_lt_mul hn, Nat.succ_mul, Nat.mul_comm k n]
    omega

/-- Pages are only taken away from those that are counted first. -/
theorem init_pages_le (pageShift minShift base stop : Nat) (word : Nat → Nat) :
    (init pageShift minShift base stop word).pages ≤
      wordSub stop (base + poolSize) / (1 <<< pageShift + headerSize) := by
  show (if _ then _ - _ else _) ≤ _
  split
  · exact Nat.sub_le ..
  · exact Nat.le_refl _

section
variable {base size : Nat} {word : Nat → Nat}

theorem first_count (hsize : poolSize + 9 * headerSize ≤ size) (hstop : base + size ≤ busy) :
    wordSub (base + size) (base + poolSize) / (1 <<< 12 + headerSize) = (size - poolSize) / (4096 + headerSize) := by
  rw [wordSub_eq (by omega) hstop, Nat.add_sub_add_left, show 1 <<< 12 = 4096 from rfl]

/-- The pages start behind the headers of all pages that are counted first. -/
theorem init_start (hsize : poolSize + 9 * headerSize ≤ size) (hstop : base + size ≤ busy) :
    (init 12 3 base (base + size) word).start =
      alignUp (base + (poolSize + 9 * headerSize) + (size - poolSize) / (4096 + headerSize) * headerSize) 4096 := by
  show alignUp (base + poolSize + 9 * headerSize +
    wordSub (base + size) (base + poolSize) / (1 <<< 12 + headerSize) * headerSize) 4096 = _
  rw [first_count hsize hstop, Nat.add_assoc base]

/-- The pool fits its region when its pages start inside. -/
theorem fits_iff_start (hsize : poolSize + 9 * headerSize ≤ size) (hstop : base + size ≤ busy) :
    Fits base (init 12 3 base (base + size) word) ↔
      alignUp (base + (poolSize + 9 * headerSize) + (size - poolSize) / (4096 + headerSize) * headerSize) 4096 ≤
        base + size := by
  have hstart : (init 12 3 base (base + size) word).start = _ := init_start hsize hstop
  rw [← hstart]
  constructor
  · intro h
    exact Nat.le_trans (Nat.le_add_right ..) h.inside
  · intro h
    refine ⟨?_, Nat.mul_mod_left .., init_bound (by decide) h hstop⟩
    have hpages := init_pages_le 12 3 base (base + size) word
    rw [first_count hsize hstop] at hpages
    have hge := alignUp_ge (base + (poolSize + 9 * headerSize) +
      (size - poolSize) / (4096 + headerSize) * headerSize) (show 0 < 4096 by decide)
    rw [← hstart] at hge
    refine Nat.le_trans ?_ hge
    rw [← Nat.add_assoc base]
    exact Nat.add_le_add_left (Nat.mul_le_mul_right _ hpages) _

/-- **The pool fits its region** exactly where a page boundary lies between the headers and the end. -/
theorem fits_iff (hsize : poolSize + 9 * headerSize ≤ size) (hstop : base + size ≤ busy) :
    Fits base (init 12 3 base (base + size) word) ↔
      ∃ a, a % 4096 = 0 ∧
        base + (poolSize + 9 * headerSize) + (size - poolSize) / (4096 + headerSize) * headerSize ≤ a ∧
        a ≤ base + size := by
  rw [fits_iff_start hsize hstop, alignUp_le_iff (by decide)]

/-- A region with room for two pages and their headers has one. -/
theorem fits_of_large (hsize : poolSize + 2 * (4096 + headerSize) ≤ size) (hstop : base + size ≤ busy) :
    Fits base (init 12 3 base (base + size) word) := by
  simp only [poolSize, headerSize] at hsize
  refine (fits_iff_start (by simp only [poolSize, headerSize]; omega) hstop).mpr ?_
  simp only [alignUp, poolSize, headerSize]
  omega

end

/-- A region of 16384 bytes. -/
theorem fits_iff_small : Fits 4096 (init 12 3 4096 (4096 + 16384) fun _ => 0) :=
  (fits_iff (by decide) (by decide)).mpr ⟨8192, by decide, by decide, by decide⟩

/-- A region with room for a page but for its alignment. -/
theorem fits_not : ¬∀ base size word, poolSize + 9 * headerSize ≤ size → base + size ≤ busy →
    Fits base (init 12 3 base (base + size) word) := by
  intro h
  have hinside := (h 3768 4216 (fun _ => 0) (by decide) (by decide)).inside
  exact absurd hinside (by decide)

end PgRest.Slab
