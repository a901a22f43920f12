import PgRest.Slab.FreeList

/-! What `pgrest_slab_do_free` does at an address where no block starts: it leaves the pool as it is,
but for the end of the pool, which is behind the last page, and for the bitmap of a page. -/
namespace PgRest.Slab
open Lib

/-- The page whose header is read first. -/
def headerRead (pool : Pool) (p : Nat) : Option Nat :=
  if p < pool.start ∨ p > pool.stop then none else some (pool.index p)

/-- A block that the pool has given out, and its length, as the headers and the bitmaps say. -/
inductive Allocated (pool : Pool) : Nat → Nat → Prop where
  | run {i} : i < pool.pages → (pool.header (.page i)).kind = .page → pageStart ≤ (pool.header (.page i)).slab →
      (pool.header (.page i)).slab ≠ busy →
      Allocated pool (pool.address i) (((pool.header (.page i)).slab &&& (busy - pageStart)) <<< pool.pageShift)
  | chunk {i shift c} : CutFor pool i shift → pool.kept shift ≤ c → c < pool.chunks shift →
      pool.bit i shift c = true → Allocated pool (pool.address i + c <<< shift) (1 <<< shift)

/-- A page in one of the runs of `pool->free`. -/
def FreePage (pool : Pool) (j : Nat) : Prop :=
  ∃ l, freeRuns pool = some l ∧ ∃ r ∈ l, r.1 ≤ j ∧ j < r.1 + r.2

/-- The blocks, the bitmaps and the free pages are as before. -/
structure Unharmed (pool pool' : Pool) : Prop where
  blocks : ∀ p l, Allocated pool' p l ↔ Allocated pool p l
  cut : ∀ i shift, CutFor pool' i shift ↔ CutFor pool i shift
  bitmaps : ∀ i shift c, CutFor pool i shift → c < pool.chunks shift → pool'.bit i shift c = pool.bit i shift c
  freePages : ∀ j, FreePage pool' j ↔ FreePage pool j

/-- To free `p` reads no header that is not of a page, and changes nothing. -/
structure Harmless (pool : Pool) (p : Nat) : Prop where
  inside : ∀ i, headerRead pool p = some i → i < pool.pages
  unharmed : ∃ pool', doFree pool p = some pool' ∧ Unharmed pool pool'

/-- The start of a chunk that the bitmap of its page takes up. -/
def InBitmap (pool : Pool) (p : Nat) : Prop :=
  (pool.header (.page (pool.index p))).kind = .small ∧
    p % 1 <<< ((pool.header (.page (pool.index p))).slab &&& shiftMask) = 0 ∧
    (p % pool.pagesize) >>> ((pool.header (.page (pool.index p))).slab &&& shiftMask) <
      pool.reserved ((pool.header (.page (pool.index p))).slab &&& shiftMask)

/-- What is checked, or has no need to be: `p` is out of range, or it is in a page and not in a bitmap. -/
def Guarded (pool : Pool) (p : Nat) : Prop :=
  p < pool.start ∨ pool.stop < p ∨ pool.index p < pool.pages ∧ ¬InBitmap pool p

theorem Unharmed.refl (pool : Pool) : Unharmed pool pool :=
  ⟨fun _ _ => Iff.rfl, fun _ _ => Iff.rfl, fun _ _ _ _ _ => rfl, fun _ => Iff.rfl⟩

/-! ### What the headers say -/

section
variable {pool pool' : Pool} {segs : List Seg} {free free' : List Nat} {slots slots' : Nat → List Nat}

theorem Layout.allocated_iff (L : Layout pool segs free slots) {p l : Nat} : Allocated pool p l ↔ Held pool segs p l := by
  constructor
  · intro h
    cases h with
    | @run i hi hkind hstart hbusy =>
      rcases L.page_cases hi with ⟨k, n, hk, hlo, hhi⟩ | ⟨k, n, hk, hlo, hhi⟩ | ⟨shift, hs⟩
      · -- the `slab` of a free page counts pages or is zero
        obtain ⟨-, hslab, -, hin, -⟩ := L.pages.shown _ hk
        have hcount := (L.placed_lt hk).1
        have hbound := L.std.bound
        have hstop := L.stop
        rcases Nat.eq_or_lt_of_le hlo with rfl | hlt
        · have hslab : (pool.header (.page k)).slab = n := hslab
          simp only [Seg.len, busy, pageStart] at *
          omega
        · have hzero : (pool.header (.page i)).slab = 0 := (hin i hlt hhi).1
          rw [hzero] at hstart
          exact absurd hstart (by decide)
      · obtain ⟨-, hslab, -, -, hin⟩ := L.pages.shown _ hk
        rcases Nat.eq_or_lt_of_le hlo with rfl | hlt
        · have hslab : (pool.header (.page k)).slab = n ||| pageStart := hslab
          rw [hslab, or_pageStart_and (L.run_short hk), L.std.pageShift, Nat.shiftLeft_eq]
          exact .run hk
        · exact absurd (hin i hlt hhi).1 hbusy
      · exact absurd ((L.kind_chunks hs).symm.trans hkind) (pool.kindOf_ne shift)
    | chunk hcut hkept hc hbit => exact .chunk ⟨L.cutFor_iff.mp hcut, hkept, hc, hbit⟩
  · intro h
    cases h with
    | @run i n h =>
      obtain ⟨-, hslab, -, hkind, -⟩ := L.pages.shown _ h
      have hslab : (pool.header (.page i)).slab = n ||| pageStart := hslab
      have hshort := L.run_short h
      have hlt := L.placed_lt h
      simp only [Seg.len] at hlt
      have hlen : n * 4096 = ((pool.header (.page i)).slab &&& (busy - pageStart)) <<< pool.pageShift := by
        rw [hslab, or_pageStart_and hshort, L.std.pageShift, Nat.shiftLeft_eq]
      rw [hlen]
      refine .run (by omega) hkind ?_ ?_
      · rw [hslab]
        exact Nat.right_le_or
      · rw [hslab]
        exact (or_pageStart_ne hshort).2
    | chunk h => exact .chunk (L.cutFor_iff.mpr h.placed) h.kept h.lt h.bit

/-- The blocks of the pool are those that are live. -/
theorem allocated_live {st : State} (S : Steady st.pool segs free slots) (T : Tracked st segs) {p : Nat} :
    (∃ l, Allocated st.pool p l) ↔ ∃ b ∈ st.live, b.1 = p := by
  simp only [S.allocated_iff]
  constructor
  · rintro ⟨l, hheld⟩
    exact T.live p l hheld
  · rintro ⟨b, hb, rfl⟩
    obtain ⟨l, hheld, -⟩ := T.held b hb
    exact ⟨l, hheld⟩

theorem Pages.freePage_iff {kindOf : Nat → Kind} (P : Pages kindOf pool.header pool.pages segs free) {j : Nat} :
    FreePage pool j ↔ ∃ i n, (i, .free n) ∈ placed 0 segs ∧ i ≤ j ∧ j < i + n := by
  constructor
  · rintro ⟨l, hl, ⟨i, n⟩, hr, hlo, hhi⟩
    obtain rfl := Option.some.inj (hl.symm.trans P.freeRuns_eq)
    exact ⟨i, n, P.mem_freeRuns.mp hr, hlo, hhi⟩
  · rintro ⟨i, n, hi, hlo, hhi⟩
    exact ⟨_, P.freeRuns_eq, (i, n), P.mem_freeRuns.mpr hi, hlo, hhi⟩

/-- Where the segments and the bits are as before nothing is harmed. -/
theorem Layout.unharmed (L : Layout pool segs free slots) (L' : Layout pool' segs free' slots')
    (haddress : pool'.address = pool.address) (hchunks : pool'.chunks = pool.chunks) (hkept : pool'.kept = pool.kept)
    (hbits : ∀ i shift c, (i, .chunks shift) ∈ placed 0 segs → c < pool.chunks shift →
      pool'.bit i shift c = pool.bit i shift c) : Unharmed pool pool' := by
  have hused : ∀ i shift c, Used pool' segs i shift c ↔ Used pool segs i shift c := by
    intro i shift c
    constructor
    · intro h
      have hc : c < pool.chunks shift := hchunks ▸ h.lt
      exact ⟨h.placed, hkept ▸ h.kept, hc, (hbits i shift c h.placed hc).symm.trans h.bit⟩
    · intro h
      exact ⟨h.placed, hkept ▸ h.kept, hchunks ▸ h.lt, (hbits i shift c h.placed h.lt).trans h.bit⟩
  refine ⟨fun p l => ?_, fun i shift => ?_, fun i shift c hcut hc => ?_, fun j => ?_⟩
  · rw [L.allocated_iff, L'.allocated_iff]
    exact held_congr haddress (fun _ _ => Iff.rfl) hused p l
  · rw [L.cutFor_iff, L'.cutFor_iff]
  · exact hbits i shift c (L.cutFor_iff.mp hcut) hc
  · rw [L.pages.freePage_iff, L'.pages.freePage_iff]

/-! ### Page by page -/

theorem Pool.Standard.in_page (std : pool.Standard) {p : Nat} (h : pool.start ≤ p) :
    ∃ d, d < 4096 ∧ p = pool.address (pool.index p) + d := by
  refine ⟨(p - pool.start) % 4096, Nat.mod_lt _ (by decide), ?_⟩
  rw [std.address, Pool.index, std.pageShift, Nat.shiftRight_eq_div_pow]
  omega

/-- A page of a free run. -/
theorem Steady.free_freePage (S : Steady pool segs free slots) {i n j d : Nat} (h : (i, .free n) ∈ placed 0 segs)
    (hlo : i ≤ j) (hhi : j < i + n) (hd : d < 4096) :
    ∃ pool', Slab.doFree pool (pool.address j + d) = some pool' ∧ Unharmed pool pool' := by
  obtain ⟨hpos, hslab, -, hin, -⟩ := S.pages.shown _ h
  have hslab : (pool.header (.page i)).slab = n := hslab
  have hlt := (S.placed_lt h).1
  simp only [Seg.len] at hlt
  have hmod : (pool.address j + d) % pool.pagesize = d := (S.std.offset hd).1
  rw [S.doFree_eq (by omega) hd, S.pages.kind_free h hlo hhi]
  simp only [Slab.freeRun, hmod]
  by_cases hzero : d = 0
  · rw [if_neg (not_not_intro hzero)]
    rcases Nat.eq_or_lt_of_le hlo with rfl | hlt'
    · -- the first page of a free run is not told from one in use
      have hbound := S.std.bound
      have hstop := S.stop
      have hsmall : n < 2 ^ 63 := by
        simp only [busy] at hstop
        omega
      have hmask : n &&& (busy - pageStart) = n := by
        rw [show busy - pageStart = 2 ^ 63 - 1 from rfl, Nat.and_two_pow_sub_one_eq_mod, Nat.mod_eq_of_lt hsmall]
      obtain ⟨header, free', hfree, L', houtside⟩ := S.freeAgain h
      rw [hslab, if_neg (Nat.ne_of_gt hpos), if_neg (by simp only [busy]; omega), hmask]
      exact ⟨_, hfree, S.unharmed L' rfl rfl rfl fun k shift c hk hc =>
        S.bits_withHeader hk (congrArg Header.slab (houtside _ (S.outside_chunks hk))) hc⟩
    · have hfree : (pool.header (.page j)).slab = 0 := (hin j hlt' hhi).1
      rw [if_pos hfree]
      exact ⟨pool, rfl, .refl pool⟩
  · rw [if_pos hzero]
    exact ⟨pool, rfl, .refl pool⟩

/-- A page of a run that is in use, but not the start of the run. -/
theorem Steady.free_runPage (S : Steady pool segs free slots) {i n j d : Nat} (h : (i, .run n) ∈ placed 0 segs)
    (hlo : i ≤ j) (hhi : j < i + n) (hd : d < 4096) (hne : ¬(j = i ∧ d = 0)) :
    Slab.doFree pool (pool.address j + d) = some pool := by
  obtain ⟨-, -, -, -, hin⟩ := S.pages.shown _ h
  have hlt := (S.placed_lt h).1
  simp only [Seg.len] at hlt
  have hmod : (pool.address j + d) % pool.pagesize = d := (S.std.offset hd).1
  rw [S.doFree_eq (by omega) hd, S.pages.kind_run h hlo hhi]
  simp only [Slab.freeRun, hmod]
  by_cases hzero : d = 0
  · have hbusy : (pool.header (.page j)).slab = busy := (hin j (by omega) hhi).1
    rw [if_neg (not_not_intro hzero), hbusy, if_neg (by decide), if_pos rfl]
    rfl
  · rw [if_pos hzero]
    rfl

/-- A chunk of the bitmap is freed as any other, and that is seen in the bitmap. -/
theorem Steady.free_kept (S : Steady pool segs free slots) {i shift c : Nat} (h : (i, .chunks shift) ∈ placed 0 segs)
    (hc : c < pool.kept shift) :
    ∃ pool', Slab.freeAt pool i shift c = some pool' ∧ pool'.bit i shift c = false := by
  have F := S.formed i shift h
  have hlt := Nat.lt_trans hc (F.kept_lt S.std)
  obtain ⟨header, slots', henter, L, -, -, hslab⟩ := S.reenter h
  have hbit : ∀ c', c' < pool.chunks shift → ((pool.withHeader header).flip unsetBit i shift c).bit i shift c' =
      if i = i ∧ c' = c then false else pool.bit i shift c' := by
    intro c' hc'
    have hkeep : (pool.withHeader header).bit i shift c' = pool.bit i shift c' := S.bits_withHeader h (hslab i) hc'
    rw [(L.formed i shift h).flip_bit unsetBit_writes L.std hlt (L.formed i shift h) hc' fun _ => rfl, hkeep]
  refine ⟨(pool.withHeader header).flip unsetBit i shift c, ?_, ?_⟩
  · rw [Slab.freeAt, henter, Option.bind_some, clearAt]
    -- the page keeps the chunk that is in use
    refine if_neg fun hempty => S.used i shift h fun c' hkept hc' => ?_
    have := hempty c' hkept hc'
    rwa [hbit c' hc', if_neg fun h => by omega] at this
  · rw [hbit c hlt, if_pos ⟨rfl, rfl⟩]

theorem Steady.inBitmap_iff (S : Steady pool segs free slots) {i shift d : Nat}
    (h : (i, .chunks shift) ∈ placed 0 segs) (hd : d < 4096) :
    InBitmap pool (pool.address i + d) ↔ d % 1 <<< shift = 0 ∧ d >>> shift < pool.kept shift := by
  have F := S.formed i shift h
  have hmod : (pool.address i + d) % pool.pagesize = d := (S.std.offset hd).1
  rw [InBitmap, S.std.index i hd, S.kind_chunks h]
  by_cases hk : pool.kindOf shift = .small
  · rw [(F.small hk).1, S.std.mod_shift F.high, hmod, Pool.kept_small hk]
    exact and_iff_right hk
  · rw [Pool.kept_zero hk]
    exact iff_of_false (fun h => hk h.1) fun h => Nat.not_lt_zero _ h.2

end

/-! ### The range of a pool -/

/-- A pool of the same range, with pages of the same size. -/
def Ranged (pool pool' : Pool) : Prop :=
  pool'.start = pool.start ∧ pool'.stop = pool.stop ∧ pool'.pageShift = pool.pageShift

theorem Ranged.refl (pool : Pool) : Ranged pool pool := ⟨rfl, rfl, rfl⟩

theorem Ranged.trans {a b c : Pool} (h : Ranged a b) (h' : Ranged b c) : Ranged a c :=
  ⟨h'.1.trans h.1, h'.2.1.trans h.2.1, h'.2.2.trans h.2.2⟩

theorem modify_ranged {pool pool' : Pool} {r : Ref} {f : Header → Header} (h : pool.modify r f = some pool') :
    Ranged pool pool' := by
  rw [Pool.modify] at h
  split at h
  · obtain rfl := Option.some.inj h
    exact .refl pool
  · cases h

theorem unlink_ranged {pool pool' : Pool} {r : Ref} (h : unlink pool r = some pool') : Ranged pool pool' := by
  simp only [unlink, Option.bind_eq_bind, Option.bind_eq_some_iff] at h
  obtain ⟨_, -, _, -, _, -, pool₁, h₁, h₂⟩ := h
  exact (modify_ranged h₁).trans (modify_ranged h₂)

theorem setPages_ranged {header : Header} {n : Nat} : ∀ {i : Nat} {pool pool' : Pool},
    setPages header i n pool = some pool' → Ranged pool pool' := by
  induction n with
  | zero =>
    intro i pool pool' h
    obtain rfl := Option.some.inj h
    exact .refl pool
  | succ n ih =>
    intro i pool pool' h
    simp only [setPages, Option.bind_eq_bind, Option.bind_eq_some_iff] at h
    obtain ⟨pool₁, h₁, h₂⟩ := h
    exact (modify_ranged h₁).trans (ih h₂)

theorem takePages_ranged {pool pool' : Pool} {i n : Nat} (h : takePages pool i n = some pool') : Ranged pool pool' := by
  rw [takePages] at h
  obtain ⟨page, -, h⟩ := Option.bind_eq_some_iff.mp h
  split at h
  · obtain ⟨a, ha, h⟩ := Option.bind_eq_some_iff.mp h
    obtain ⟨_, -, h⟩ := Option.bind_eq_some_iff.mp h
    obtain ⟨b, hb, h⟩ := Option.bind_eq_some_iff.mp h
    refine (modify_ranged ha).trans ((modify_ranged hb).trans ?_)
    split at h
    · cases h
    · obtain ⟨_, -, h⟩ := Option.bind_eq_some_iff.mp h
      obtain ⟨_, -, h⟩ := Option.bind_eq_some_iff.mp h
      obtain ⟨c, hc, h⟩ := Option.bind_eq_some_iff.mp h
      obtain ⟨d, hd, h⟩ := Option.bind_eq_some_iff.mp h
      obtain ⟨e, he, h⟩ := Option.bind_eq_some_iff.mp h
      exact (modify_ranged hc).trans ((modify_ranged hd).trans ((modify_ranged he).trans (setPages_ranged h)))
  · split at h
    · cases h
    · obtain ⟨a, ha, h⟩ := Option.bind_eq_some_iff.mp h
      obtain ⟨b, hb, h⟩ := Option.bind_eq_some_iff.mp h
      exact (unlink_ranged ha).trans ((modify_ranged hb).trans (setPages_ranged h))

theorem allocFrom_ranged {fuel : Nat} : ∀ {pool pool' : Pool} {r : Ref} {n : Nat} {o : Option Nat},
    allocFrom fuel pool r n = some (pool', o) → Ranged pool pool' := by
  induction fuel with
  | zero =>
    intro pool pool' r n o h
    cases h
  | succ fuel ih =>
    intro pool pool' r n o h
    by_cases hr : r = .free
    · subst hr
      obtain ⟨rfl, -⟩ := Prod.mk.inj (Option.some.inj h)
      exact .refl pool
    · cases r with
      | free => exact absurd rfl hr
      | slot i =>
        simp only [allocFrom, if_neg hr, Option.bind_eq_bind, Option.bind_eq_some_iff] at h
        obtain ⟨page, -, h⟩ := h
        split at h
        · cases h
        · obtain ⟨_, -, h⟩ := Option.bind_eq_some_iff.mp h
          exact ih h
      | page i =>
        simp only [allocFrom, if_neg hr, Option.bind_eq_bind, Option.bind_eq_some_iff] at h
        obtain ⟨page, -, h⟩ := h
        split at h
        · obtain ⟨pool₁, h₁, he⟩ := Option.map_eq_some_iff.mp h
          obtain ⟨rfl, -⟩ := Prod.mk.inj he
          exact takePages_ranged h₁
        · obtain ⟨_, -, h⟩ := Option.bind_eq_some_iff.mp h
          exact ih h

theorem allocPages_ranged {pool pool' : Pool} {n : Nat} {o : Option Nat} (h : allocPages pool n = some (pool', o)) :
    Ranged pool pool' := by
  simp only [allocPages, Option.bind_eq_bind, Option.bind_eq_some_iff] at h
  obtain ⟨_, -, _, -, h⟩ := h
  exact allocFrom_ranged h

theorem retire_ranged {pool pool' : Pool} {r : Ref} {kind : Kind} (h : retire pool r kind = some pool') :
    Ranged pool pool' := by
  simp only [retire, Option.bind_eq_bind, Option.bind_eq_some_iff] at h
  obtain ⟨_, h₁, h₂⟩ := h
  exact (unlink_ranged h₁).trans (modify_ranged h₂)

/-- What is left once a chunk has been taken. -/
theorem retired_ranged {c : Prop} [Decidable c] {pool pool' : Pool} {r : Ref} {kind : Kind} {p q : Nat}
    (h : (if c then (retire pool r kind).bind fun pool => some (some (pool, q)) else some (some (pool, q))) =
      some (some (pool', p))) : Ranged pool pool' := by
  split at h
  · obtain ⟨pool₁, h₁, he⟩ := Option.bind_eq_some_iff.mp h
    obtain ⟨rfl, -⟩ := Prod.mk.inj (Option.some.inj (Option.some.inj he))
    exact retire_ranged h₁
  · obtain ⟨rfl, -⟩ := Prod.mk.inj (Option.some.inj (Option.some.inj h))
    exact .refl pool

theorem takeSmall_ranged {pool pool' : Pool} {shift i p : Nat} (h : takeSmall pool shift i = some (some (pool', p))) :
    Ranged pool pool' := by
  rw [takeSmall] at h
  split at h
  · cases h
  · have hretired : Ranged (pool.putWord _ _) pool' := retired_ranged h
    exact hretired

theorem takeExact_ranged {pool pool' : Pool} {shift i p : Nat} (h : takeExact pool shift i = some (some (pool', p))) :
    Ranged pool pool' := by
  rw [takeExact] at h
  obtain ⟨page, -, h⟩ := Option.bind_eq_some_iff.mp h
  split at h
  · split at h
    · cases h
    · obtain ⟨pool₁, h₁, h⟩ := Option.bind_eq_some_iff.mp h
      exact (modify_ranged h₁).trans (retired_ranged h)
  · cases h

theorem takeBig_ranged {n : Nat} {pool pool' : Pool} {shift i p : Nat}
    (h : takeBig n pool shift i = some (some (pool', p))) : Ranged pool pool' := by
  rw [takeBig] at h
  obtain ⟨page, -, h⟩ := Option.bind_eq_some_iff.mp h
  split at h
  · split at h
    · cases h
    · obtain ⟨pool₁, h₁, h⟩ := Option.bind_eq_some_iff.mp h
      exact (modify_ranged h₁).trans (retired_ranged h)
  · cases h

theorem takeFrom_ranged {take : Pool → Nat → Option (Option (Pool × Nat))}
    (htake : ∀ {pool i pool' p}, take pool i = some (some (pool', p)) → Ranged pool pool') {fuel : Nat} :
    ∀ {pool pool' : Pool} {r : Option Ref} {p : Nat}, takeFrom take fuel pool r = some (some (pool', p)) →
      Ranged pool pool' := by
  induction fuel with
  | zero =>
    intro pool pool' r p h
    cases r with
    | none => cases h
    | some r => cases h
  | succ fuel ih =>
    intro pool pool' r p h
    cases r with
    | none => cases h
    | some r =>
      cases r with
      | free => cases h
      | slot i => cases h
      | page i =>
        simp only [takeFrom, Option.bind_eq_bind, Option.bind_eq_some_iff] at h
        obtain ⟨result, hresult, h⟩ := h
        cases result with
        | none =>
          simp only [Option.bind_eq_some_iff] at h
          obtain ⟨page, -, h⟩ := h
          exact ih h
        | some result =>
          obtain rfl := Option.some.inj (Option.some.inj h)
          exact htake hresult

theorem takeChunk_ranged {pool pool' : Pool} {shift p : Nat} {first : Ref}
    (h : takeChunk pool shift first = some (some (pool', p))) : Ranged pool pool' := by
  rw [takeChunk] at h
  split at h
  · exact takeFrom_ranged takeSmall_ranged h
  · exact takeFrom_ranged takeExact_ranged h
  · simp only [Option.bind_eq_bind, Option.bind_eq_some_iff] at h
    obtain ⟨page, -, h⟩ := h
    exact takeFrom_ranged takeBig_ranged h

theorem clearWords_ranged (bitmap n : Nat) : ∀ (i : Nat) (pool : Pool), Ranged pool (clearWords bitmap i n pool) := by
  induction n with
  | zero =>
    intro i pool
    exact .refl pool
  | succ n ih =>
    intro i pool
    exact ih _ (pool.putWord _ _)

theorem newChunk_ranged {pool pool' : Pool} {shift slot : Nat} {o : Option Nat}
    (h : newChunk pool shift slot = some (pool', o)) : Ranged pool pool' := by
  simp only [newChunk, Option.bind_eq_bind, Option.bind_eq_some_iff] at h
  obtain ⟨⟨pool₁, page⟩, h₁, h⟩ := h
  refine (allocPages_ranged h₁).trans ?_
  cases page with
  | none =>
    obtain ⟨rfl, -⟩ := Prod.mk.inj (Option.some.inj h)
    exact .refl _
  | some i =>
    simp only [Option.bind_eq_some_iff] at h
    obtain ⟨pool₂, h₂, pool₃, h₃, he⟩ := h
    obtain ⟨rfl, -⟩ := Prod.mk.inj (Option.some.inj he)
    refine Ranged.trans ?_ ((modify_ranged h₂).trans (modify_ranged h₃))
    split
    · exact clearWords_ranged _ _ _ (pool₁.putWord _ _)
    · exact .refl _
    · exact .refl _

theorem doAlloc_ranged {pool pool' : Pool} {size : Nat} {o : Option Nat} (h : doAlloc pool size = some (pool', o)) :
    Ranged pool pool' := by
  rw [doAlloc] at h
  split at h
  · simp only [Option.bind_eq_bind, Option.bind_eq_some_iff] at h
    obtain ⟨⟨pool₁, page⟩, h₁, he⟩ := h
    obtain ⟨rfl, -⟩ := Prod.mk.inj (Option.some.inj he)
    exact allocPages_ranged h₁
  · simp only [Option.bind_eq_bind, Option.bind_eq_some_iff, Option.pure_def] at h
    obtain ⟨_, -, first, -, page, -, h⟩ := h
    split at h
    · obtain ⟨result, hresult, h⟩ := Option.bind_eq_some_iff.mp h
      split at h
      · obtain ⟨rfl, -⟩ := Prod.mk.inj (Option.some.inj h)
        exact takeChunk_ranged hresult
      · exact newChunk_ranged h
    · exact newChunk_ranged h

/-- Of a pool whose range is empty the range stays. -/
theorem step_ranged {st st' : State} {a : Action} (h : step st a = some st') (hempty : st.pool.stop < st.pool.start) :
    Ranged st.pool st'.pool := by
  cases a with
  | alloc size =>
    obtain ⟨⟨pool, o⟩, halloc, rfl⟩ := Option.map_eq_some_iff.mp h
    exact doAlloc_ranged halloc
  | calloc size =>
    obtain ⟨⟨pool, o⟩, hcalloc, rfl⟩ := Option.map_eq_some_iff.mp h
    obtain ⟨⟨pool₁, o₁⟩, halloc, hclear⟩ := Option.bind_eq_some_iff.mp hcalloc
    cases o₁ with
    | none =>
      obtain ⟨rfl, -⟩ := Prod.mk.inj (Option.some.inj hclear)
      exact doAlloc_ranged halloc
    | some q =>
      obtain ⟨rfl, -⟩ := Prod.mk.inj (Option.some.inj hclear)
      have hranged : Ranged st.pool pool₁ := doAlloc_ranged halloc
      exact hranged
  | free p =>
    obtain ⟨pool, hfree, rfl⟩ := Option.map_eq_some_iff.mp h
    rw [doFree, if_pos (by omega)] at hfree
    obtain rfl := Option.some.inj hfree
    exact .refl _
  | write word =>
    obtain rfl := Option.some.inj h
    exact .refl _

/-! ### Every address -/

theorem Good.harmless_iff {st : State} (h : Good st) {p : Nat} (hp : ∀ b ∈ st.live, b.1 ≠ p)
    (hstart : st.pool.start ≤ p) (hstop : p ≤ st.pool.stop) (hi : st.pool.index p < st.pool.pages) :
    Harmless st.pool p ↔ ¬InBitmap st.pool p := by
  obtain ⟨segs, free, slots, S, T⟩ := h
  have hheld : ∀ l, ¬Held st.pool segs p l := by
    intro l hl
    obtain ⟨b, hb, hbp⟩ := T.live p l hl
    exact hp b hb hbp
  have hinside : ∀ i, headerRead st.pool p = some i → i < st.pool.pages := by
    intro i hread
    rw [headerRead, if_neg (by omega)] at hread
    rwa [← Option.some.inj hread]
  obtain ⟨d, hd, hpd⟩ := S.std.in_page hstart
  generalize hj : st.pool.index p = j at hi hpd
  subst hpd
  rcases S.page_cases hi with ⟨i, n, hs, hlo, hhi⟩ | ⟨i, n, hs, hlo, hhi⟩ | ⟨shift, hs⟩
  · refine iff_of_true ⟨hinside, S.free_freePage hs hlo hhi hd⟩ fun hmap => ?_
    have hkind := S.pages.kind_free hs hlo hhi
    rw [← hj] at hkind
    exact absurd (hkind.symm.trans hmap.1) (by decide)
  · refine iff_of_true ⟨hinside, st.pool, S.free_runPage hs hlo hhi hd ?_, .refl _⟩ fun hmap => ?_
    · rintro ⟨rfl, rfl⟩
      exact hheld _ (.run hs)
    · have hkind := S.pages.kind_run hs hlo hhi
      rw [← hj] at hkind
      exact absurd (hkind.symm.trans hmap.1) (by decide)
  · have F := S.formed j shift hs
    have hlt := S.std.chunk_lt F.high hd
    rw [S.inBitmap_iff hs hd]
    have hfree := S.doFree_chunks hs hd
    constructor
    · rintro ⟨-, pool', hpool', hsame⟩ ⟨halign, hkept⟩
      have hbit := S.kept j shift _ hs hkept
      obtain ⟨pool'', hfreeAt, hcleared⟩ := S.free_kept hs hkept
      rw [if_pos ⟨halign, hbit⟩, hfreeAt] at hfree
      obtain rfl := Option.some.inj (hfree.symm.trans hpool')
      rw [hsame.bitmaps j shift _ (S.cutFor_iff.mpr hs) hlt, hbit] at hcleared
      cases hcleared
    · intro hmap
      refine ⟨hinside, st.pool, ?_, .refl _⟩
      rw [hfree, if_neg]
      rintro ⟨halign, hbit⟩
      have hused : Used st.pool segs j shift (d >>> shift) := ⟨hs, Nat.le_of_not_lt fun h => hmap ⟨halign, h⟩, hlt, hbit⟩
      refine hheld (1 <<< shift) ?_
      rw [← chunk_start halign]
      exact .chunk hused

/-- **To free what is no block does nothing** exactly where the checks can see that it is none. -/
theorem free_harmless_iff {base stop : Nat} {word : Nat → Nat} (hstop : stop ≤ busy) {st : State}
    (h : Run step ok (start base stop word) st) {p : Nat} (hp : ∀ b ∈ st.live, b.1 ≠ p) :
    Harmless st.pool p ↔ Guarded st.pool p := by
  by_cases hout : p < st.pool.start ∨ p > st.pool.stop
  · refine iff_of_true ⟨fun i hread => ?_, st.pool, ?_, .refl _⟩ (by rw [Guarded]; omega)
    · rw [headerRead, if_pos hout] at hread
      cases hread
    · rw [doFree, if_pos hout]
      rfl
  · have hlo : st.pool.start ≤ p := Nat.le_of_not_lt fun h => hout (Or.inl h)
    have hhi : p ≤ st.pool.stop := Nat.le_of_not_lt fun h => hout (Or.inr h)
    have hstart : (init 12 3 base stop word).start ≤ stop := by
      by_contra hempty
      have hranged : Ranged (start base stop word).pool st.pool := by
        refine h.invariant (P := fun t => Ranged (start base stop word).pool t.pool) (.refl _) fun t a t' ht _ hstep =>
          ht.trans (step_ranged hstep ?_)
        rw [ht.1, ht.2.1]
        exact Nat.lt_of_not_le hempty
      rw [hranged.1] at hlo
      rw [hranged.2.1] at hhi
      exact hempty (Nat.le_trans hlo hhi)
    have hread : headerRead st.pool p = some (st.pool.index p) := if_neg hout
    have hguard : Guarded st.pool p ↔ st.pool.index p < st.pool.pages ∧ ¬InBitmap st.pool p := by
      rw [Guarded, or_iff_right (Nat.not_lt_of_le hlo), or_iff_right (Nat.not_lt_of_le hhi)]
    rw [hguard]
    by_cases hi : st.pool.index p < st.pool.pages
    · rw [and_iff_right hi]
      obtain ⟨⟨header, word', hpool⟩, hgood | ⟨hzero, rfl⟩⟩ := run_sound hstart hstop h
      · exact hgood.harmless_iff hp hlo hhi hi
      · have hzero : (start base stop word).pool.pages = 0 := hzero
        omega
    · exact iff_of_false (fun hh => hi (hh.inside _ hread)) fun hh => hi hh.1

/-- The address behind the last page, in a pool of one page. -/
theorem free_harmless_iff_stop :
    Harmless (start 0 8192 fun _ => 0).pool 8192 ↔ Guarded (start 0 8192 fun _ => 0).pool 8192 :=
  free_harmless_iff (by decide) .start fun b hb => by simp [start] at hb

/-- There a header is read that is of no page. -/
theorem free_stop_harmful : ¬∀ base stop word, stop ≤ busy → ∀ st, Run step ok (start base stop word) st →
    ∀ p, (∀ b ∈ st.live, b.1 ≠ p) → Harmless st.pool p := by
  intro h
  have hread : headerRead (start 0 8192 fun _ => 0).pool 8192 = some 1 := by decide
  have hin := (h 0 8192 (fun _ => 0) (by decide) _ .start 8192 fun b hb => by simp [start] at hb).inside 1 hread
  exact absurd hin (by decide)

end PgRest.Slab
