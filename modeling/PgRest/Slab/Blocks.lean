import PgRest.Slab.Layout

/-! The blocks that a pool has given out: runs of pages, and chunks whose bit is set. They lie in the
pages of the pool, they do not overlap, and they are clear of the bitmaps. -/
namespace PgRest.Slab

/-- A chunk that is in use, and does not belong to the bitmap of its page. -/
structure Used (pool : Pool) (segs : List Seg) (i shift c : Nat) : Prop where
  placed : (i, .chunks shift) ∈ placed 0 segs
  kept : pool.kept shift ≤ c
  lt : c < pool.chunks shift
  bit : pool.bit i shift c = true

/-- The blocks that are in use, and their lengths. -/
inductive Held (pool : Pool) (segs : List Seg) : Nat → Nat → Prop where
  | run {i n} : (i, .run n) ∈ placed 0 segs → Held pool segs (pool.address i) (n * 4096)
  | chunk {i shift c} : Used pool segs i shift c → Held pool segs (pool.address i + c <<< shift) (1 <<< shift)

/-- The block at `p` is in use only afterwards, and all others are as before. -/
structure Gains (pool : Pool) (segs : List Seg) (pool' : Pool) (segs' : List Seg) (p l : Nat) : Prop where
  fresh : ∀ m, ¬Held pool segs p m
  held : ∀ q m, Held pool' segs' q m ↔ Held pool segs q m ∨ q = p ∧ m = l

/-- The page that an address is in. -/
def Pool.index (pool : Pool) (p : Nat) : Nat := (p - pool.start) >>> pool.pageShift

/-- How long the block at `p` is, as `pgrest_slab_do_free` reads it from the header of its page. -/
def blockSize (pool : Pool) (p : Nat) : Nat :=
  let page := pool.header (.page (pool.index p))
  match page.kind with
  | .page => (page.slab &&& (busy - pageStart)) <<< pool.pageShift
  | .exact => pool.exactSize
  | _ => 1 <<< (page.slab &&& shiftMask)

/-! ### Addresses -/

theorem Pool.Standard.index {pool : Pool} (std : pool.Standard) (i : Nat) {d : Nat} (hd : d < 4096) :
    pool.index (pool.address i + d) = i := by
  rw [Pool.index, std.pageShift, std.address, Nat.shiftRight_eq_div_pow]
  omega

theorem Pool.Standard.chunk_fits {pool : Pool} (std : pool.Standard) {shift c : Nat} (hshift : shift < 12)
    (hc : c < pool.chunks shift) : c <<< shift + 1 <<< shift ≤ 4096 := by
  rw [← std.chunks_size hshift, Nat.shiftLeft_eq, Nat.shiftLeft_eq, Nat.one_mul, ← Nat.succ_mul]
  exact Nat.mul_le_mul_right _ hc

theorem shift_pos (shift : Nat) : 0 < 1 <<< shift := by
  rw [Nat.shiftLeft_eq, Nat.one_mul]
  exact Nat.two_pow_pos shift

/-- Chunks of one size do not overlap. -/
theorem chunks_apart (shift : Nat) {c c' : Nat} (h : c < c') : c <<< shift + 1 <<< shift ≤ c' <<< shift := by
  rw [Nat.shiftLeft_eq, Nat.shiftLeft_eq, Nat.shiftLeft_eq, Nat.one_mul, ← Nat.succ_mul]
  exact Nat.mul_le_mul_right _ h

variable {pool : Pool} {segs segs' : List Seg} {free : List Nat} {slots : Nat → List Nat}

theorem Held.pos (L : Layout pool segs free slots) {p l : Nat} (h : Held pool segs p l) : 0 < l := by
  cases h with
  | run h => exact Nat.mul_pos (L.placed_lt h).2 (by decide)
  | chunk => exact shift_pos _

namespace Layout
variable (L : Layout pool segs free slots)
include L

/-- Two segments are the same or apart. -/
theorem segs_apart {i j : Nat} {s t : Seg} (hs : (i, s) ∈ placed 0 segs) (ht : (j, t) ∈ placed 0 segs) :
    (i = j ∧ s = t) ∨ i + s.len ≤ j ∨ j + t.len ≤ i := by
  by_contra hcon
  have hs' := L.placed_lt hs
  have ht' := L.placed_lt ht
  have heq := placed_unique hs ht (j := max i j) (by simp only; omega) (by simp only; omega) (by simp only; omega)
    (by simp only; omega)
  exact hcon (Or.inl (Prod.mk.inj heq))

/-- Where a block lies. -/
theorem held_in {p l : Nat} (h : Held pool segs p l) :
    ∃ i s, (i, s) ∈ placed 0 segs ∧ s.isFree = false ∧ pool.address i ≤ p ∧ p + l ≤ pool.address (i + s.len) := by
  cases h with
  | @run i n h =>
    refine ⟨i, .run n, h, rfl, Nat.le_refl _, ?_⟩
    rw [L.std.address, L.std.address, Seg.len]
    omega
  | @chunk i shift c h =>
    refine ⟨i, .chunks shift, h.placed, rfl, Nat.le_add_right .., ?_⟩
    have hfits := L.std.chunk_fits (L.formed i shift h.placed).high h.lt
    rw [L.std.address, L.std.address, Seg.len]
    omega

theorem held_inside {p l : Nat} (h : Held pool segs p l) : pool.start ≤ p ∧ p + l ≤ pool.start + pool.pages * 4096 := by
  obtain ⟨i, s, hs, -, hlo, hhi⟩ := L.held_in h
  have := (L.placed_lt hs).1
  rw [L.std.address] at hlo hhi
  omega

/-- The block in a page belongs to the segment of the page. -/
theorem held_page {i : Nat} {s : Seg} (hs : (i, s) ∈ placed 0 segs) {d l : Nat} (hd : d < s.len * 4096)
    (h : Held pool segs (pool.address i + d) l) :
    (∃ n, s = .run n ∧ d = 0 ∧ l = n * 4096) ∨
      ∃ shift c, s = .chunks shift ∧ Used pool segs i shift c ∧ d = c <<< shift ∧ l = 1 <<< shift := by
  generalize hp : pool.address i + d = p at h
  cases h with
  | @run j n h =>
    have hn := (L.placed_lt h).2
    rw [L.std.address, L.std.address] at hp
    rcases L.segs_apart hs h with ⟨rfl, rfl⟩ | hlt | hlt
    · exact Or.inl ⟨n, rfl, by omega, rfl⟩
    · omega
    · simp only [Seg.len] at hlt hn
      omega
  | @chunk j shift c h =>
    have hfits := L.std.chunk_fits (L.formed j shift h.placed).high h.lt
    have hlen : (Seg.chunks shift).len = 1 := rfl
    rcases L.segs_apart hs h.placed with ⟨rfl, rfl⟩ | hlt | hlt
    · exact Or.inr ⟨shift, c, rfl, h, Nat.add_left_cancel hp, rfl⟩
    all_goals
      rw [L.std.address, L.std.address] at hp
      have hpos := shift_pos shift
      generalize c <<< shift = e at hp hfits
      omega

/-- **Blocks do not overlap.** -/
theorem held_apart {p l q m : Nat} (h : Held pool segs p l) (h' : Held pool segs q m) :
    (p = q ∧ l = m) ∨ p + l ≤ q ∨ q + m ≤ p := by
  obtain ⟨i, s, hs, -, hlo, hhi⟩ := L.held_in h
  obtain ⟨j, t, ht, -, hlo', hhi'⟩ := L.held_in h'
  rw [L.std.address] at hlo hhi hlo' hhi'
  have hpos := h.pos L
  have hpos' := h'.pos L
  rcases L.segs_apart hs ht with ⟨rfl, rfl⟩ | hlt | hlt
  · obtain ⟨d, rfl⟩ := Nat.exists_eq_add_of_le (show pool.address i ≤ p by rw [L.std.address]; exact hlo)
    obtain ⟨e, rfl⟩ := Nat.exists_eq_add_of_le (show pool.address i ≤ q by rw [L.std.address]; exact hlo')
    rw [L.std.address] at hhi hhi'
    rcases L.held_page hs (by omega) h with ⟨n, rfl, rfl, rfl⟩ | ⟨shift, c, rfl, -, rfl, rfl⟩
    · rcases L.held_page hs (by omega) h' with ⟨n', hn, rfl, rfl⟩ | ⟨_, _, hn, -⟩
      · exact Or.inl ⟨rfl, by rw [Seg.run.inj hn]⟩
      · cases hn
    · rcases L.held_page hs (by omega) h' with ⟨_, hn, -⟩ | ⟨shift', c', hn, -, rfl, rfl⟩
      · cases hn
      · obtain rfl := Seg.chunks.inj hn
        rcases Nat.lt_trichotomy c c' with hlt | rfl | hlt
        · have := chunks_apart shift hlt
          exact Or.inr (Or.inl (by omega))
        · exact Or.inl ⟨rfl, rfl⟩
        · have := chunks_apart shift hlt
          exact Or.inr (Or.inr (by omega))
  · exact Or.inr (Or.inl (by omega))
  · exact Or.inr (Or.inr (by omega))

/-- **Blocks are clear of the bitmaps.** -/
theorem held_clear {p l i : Nat} (h : Held pool segs p l) (hi : i < pool.pages)
    (hk : (pool.header (.page i)).kind = .small) :
    p + l ≤ pool.address i ∨
      pool.address i + pool.map ((pool.header (.page i)).slab &&& shiftMask) * 8 ≤ p := by
  obtain ⟨shift, hs, hkind⟩ := L.chunks_of_kind hi (by simp [hk])
  have hkind := hkind.trans hk
  have F := L.formed i shift hs
  rw [(F.small hkind).1]
  -- the bitmap is within the chunks that it takes up
  have hmap : pool.map shift * 8 ≤ pool.reserved shift <<< shift ∧ pool.reserved shift <<< shift ≤ 4096 := by
    rcases L.std.small_numbers F.low (L.std.kindOf_small.mp hkind) with
      ⟨hsh, hm, hr, -⟩ | ⟨hsh, hm, hr, -⟩ | ⟨hsh, hm, hr, -⟩
    all_goals rw [hm, hr, hsh]; decide
  obtain ⟨j, t, ht, -, hlo, hhi⟩ := L.held_in h
  rcases L.segs_apart hs ht with ⟨rfl, rfl⟩ | hlt | hlt
  · obtain ⟨d, rfl⟩ := Nat.exists_eq_add_of_le hlo
    have hpos := h.pos L
    have hlen : (Seg.chunks shift).len = 1 := rfl
    rw [L.std.address, L.std.address] at hhi
    rcases L.held_page hs (by omega) h with ⟨_, hn, -⟩ | ⟨shift', c, hn, hused, rfl, -⟩
    · cases hn
    · obtain rfl := Seg.chunks.inj hn
      have hkept := hused.kept
      rw [Pool.kept_small hkind] at hkept
      have hle : pool.reserved shift <<< shift ≤ c <<< shift := by
        rw [Nat.shiftLeft_eq, Nat.shiftLeft_eq]
        exact Nat.mul_le_mul_right _ hkept
      exact Or.inr (Nat.add_le_add_left (Nat.le_trans hmap.1 hle) _)
  · have hlen : (Seg.chunks shift).len = 1 := rfl
    refine Or.inr (Nat.le_trans (Nat.add_le_add_left (Nat.le_trans hmap.1 hmap.2) _) (Nat.le_trans ?_ hlo))
    rw [L.std.address, L.std.address]
    omega
  · refine Or.inl (Nat.le_trans hhi ?_)
    rw [L.std.address, L.std.address]
    omega

theorem run_short {i n : Nat} (h : (i, .run n) ∈ placed 0 segs) : n < pageStart - 1 := by
  have := (L.placed_lt h).1
  have := L.std.bound
  have := L.stop
  simp only [Seg.len, busy, pageStart] at *
  omega

/-- `pgrest_slab_do_free` reads the length of a block from the page. -/
theorem blockSize_held {p l : Nat} (h : Held pool segs p l) : blockSize pool p = l := by
  cases h with
  | @run i n h =>
    obtain ⟨-, hslab, -, hkind, -⟩ := L.pages.shown _ h
    have hslab : (pool.header (.page i)).slab = n ||| pageStart := hslab
    have hkind : (pool.header (.page i)).kind = .page := hkind
    rw [blockSize, ← Nat.add_zero (pool.address i), L.std.index i (by decide)]
    simp only [hkind, hslab, L.std.pageShift, Nat.shiftLeft_eq]
    rw [or_pageStart_and (L.run_short h)]
  | @chunk i shift c h =>
    have F := L.formed i shift h.placed
    have hpos := shift_pos shift
    have hfits := L.std.chunk_fits F.high h.lt
    rw [blockSize, L.std.index i (by generalize c <<< shift = d at hfits; omega), L.kind_chunks h.placed]
    cases hk : pool.kindOf shift with
    | page => exact absurd hk (pool.kindOf_ne shift)
    | small => rw [(F.small hk).1]
    | exact =>
      rw [L.std.exactSize, L.std.kindOf_exact.mp hk]
      rfl
    | big => rw [(F.big hk).1]

end Layout

/-! ### One block more -/

section
variable {pool' : Pool} {i k shift c : Nat}

theorem Held.mono (haddress : pool'.address = pool.address)
    (hrun : ∀ j n, (j, .run n) ∈ placed 0 segs → (j, .run n) ∈ placed 0 segs')
    (hused : ∀ j sh c', Used pool segs j sh c' → Used pool' segs' j sh c') {q m : Nat} (h : Held pool segs q m) :
    Held pool' segs' q m := by
  cases h with
  | run h =>
    rw [← haddress]
    exact .run (hrun _ _ h)
  | chunk h =>
    rw [← haddress]
    exact .chunk (hused _ _ _ h)

theorem held_congr (haddress : pool'.address = pool.address)
    (hrun : ∀ j n, (j, .run n) ∈ placed 0 segs' ↔ (j, .run n) ∈ placed 0 segs)
    (hused : ∀ j sh c', Used pool' segs' j sh c' ↔ Used pool segs j sh c') (q m : Nat) :
    Held pool' segs' q m ↔ Held pool segs q m :=
  ⟨.mono haddress.symm (fun j n => (hrun j n).mp) fun j sh c' => (hused j sh c').mp,
    .mono haddress (fun j n => (hrun j n).mpr) fun j sh c' => (hused j sh c').mpr⟩

theorem gains_run (fresh : ∀ m, ¬Held pool segs (pool.address i) m) (haddress : pool'.address = pool.address)
    (hrun : ∀ j n, (j, .run n) ∈ placed 0 segs' ↔ (j, .run n) ∈ placed 0 segs ∨ j = i ∧ n = k)
    (hused : ∀ j sh c', Used pool' segs' j sh c' ↔ Used pool segs j sh c') :
    Gains pool segs pool' segs' (pool.address i) (k * 4096) where
  fresh := fresh
  held q m := by
    constructor
    · intro h
      cases h with
      | @run j n h =>
        rw [haddress]
        rcases (hrun j n).mp h with h | ⟨rfl, rfl⟩
        · exact Or.inl (.run h)
        · exact Or.inr ⟨rfl, rfl⟩
      | chunk h =>
        rw [haddress]
        exact Or.inl (.chunk ((hused _ _ _).mp h))
    · rintro (h | ⟨rfl, rfl⟩)
      · exact h.mono haddress (fun j n h => (hrun j n).mpr (Or.inl h)) fun j sh c' => (hused j sh c').mpr
      · rw [← haddress]
        exact .run ((hrun i k).mpr (Or.inr ⟨rfl, rfl⟩))

theorem gains_chunk (fresh : ∀ m, ¬Held pool segs (pool.address i + c <<< shift) m)
    (haddress : pool'.address = pool.address)
    (hrun : ∀ j n, (j, .run n) ∈ placed 0 segs' ↔ (j, .run n) ∈ placed 0 segs)
    (hused : ∀ j sh c', Used pool' segs' j sh c' ↔ Used pool segs j sh c' ∨ j = i ∧ sh = shift ∧ c' = c) :
    Gains pool segs pool' segs' (pool.address i + c <<< shift) (1 <<< shift) where
  fresh := fresh
  held q m := by
    constructor
    · intro h
      cases h with
      | run h =>
        rw [haddress]
        exact Or.inl (.run ((hrun _ _).mp h))
      | @chunk j sh c' h =>
        rw [haddress]
        rcases (hused j sh c').mp h with h | ⟨rfl, rfl, rfl⟩
        · exact Or.inl (.chunk h)
        · exact Or.inr ⟨rfl, rfl⟩
    · rintro (h | ⟨rfl, rfl⟩)
      · exact h.mono haddress (fun j n => (hrun j n).mpr) fun j sh c' h => (hused j sh c').mpr (Or.inl h)
      · rw [← haddress]
        exact .chunk ((hused i shift c).mpr (Or.inr ⟨rfl, rfl, rfl⟩))

end

namespace Layout
variable (L : Layout pool segs free slots)
include L

/-- In a free run there is no block. -/
theorem fresh_free {i n d : Nat} (h : (i, .free n) ∈ placed 0 segs) (hd : d < n * 4096) (m : Nat) :
    ¬Held pool segs (pool.address i + d) m := by
  intro hheld
  rcases L.held_page h hd hheld with ⟨_, he, -⟩ | ⟨_, _, he, -⟩
  · cases he
  · cases he

/-- Where a chunk is free there is no block. -/
theorem fresh_chunk {i shift c : Nat} (h : (i, .chunks shift) ∈ placed 0 segs) (hc : c < pool.chunks shift)
    (hbit : ¬Used pool segs i shift c) (m : Nat) : ¬Held pool segs (pool.address i + c <<< shift) m := by
  intro hheld
  have hfits := L.std.chunk_fits (L.formed i shift h).high hc
  have hpos := shift_pos shift
  have hlt : c <<< shift < (Seg.chunks shift).len * 4096 := by
    rw [Seg.len]
    generalize c <<< shift = d at hfits
    omega
  rcases L.held_page h hlt hheld with ⟨_, he, -⟩ | ⟨shift', c', he, hused, hcc, -⟩
  · cases he
  · obtain rfl := Seg.chunks.inj he
    rcases Nat.lt_trichotomy c c' with hlt | rfl | hlt
    · have := chunks_apart shift hlt
      omega
    · exact hbit hused
    · have := chunks_apart shift hlt
      omega

end Layout

end PgRest.Slab
