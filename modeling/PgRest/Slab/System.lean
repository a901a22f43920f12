import PgRest.Lib.Run
import PgRest.Slab.Free

/-! The pool and its users: blocks are asked for, written in and given back, in any order. What is
live is what the pool holds, and no call fails to return. -/
namespace PgRest.Slab
open Lib

/-- The pool, and the blocks that its users have, each with the size that was asked for. -/
structure State where
  pool : Pool
  live : List (Nat × Nat)

inductive Action where
  | alloc (size : Nat)
  | calloc (size : Nat)
  | free (p : Nat)
  /-- The users write in their blocks. -/
  | write (word : Nat → Nat)

/-- The block that a call has returned, if any, is live from then on. -/
def State.returned (st : State) (size : Nat) (r : Pool × Option Nat) : State :=
  { pool := r.1, live := r.2.elim st.live fun p => (p, size) :: st.live }

def step (st : State) : Action → Option State
  | .alloc size => (doAlloc st.pool size).map (st.returned size)
  | .calloc size => (doCalloc st.pool size).map (st.returned size)
  | .free p => (doFree st.pool p).map fun pool => { pool := pool, live := st.live.filter fun b => b.1 ≠ p }
  | .write word => some { st with pool := { st.pool with word := word } }

/-- The word at `a` has bytes of the block at `p`. -/
def Touches (a p l : Nat) : Prop := p < a + 8 ∧ a < p + l

/-- Only live blocks are given back, and written in. -/
def ok (st : State) : Action → Prop
  | .alloc _ => True
  | .calloc _ => True
  | .free p => ∃ b ∈ st.live, b.1 = p
  | .write word => ∀ a, word a ≠ st.pool.word a → ∃ b ∈ st.live, Touches a b.1 b.2

/-- The pool that `pgrest_shm_startup` sets up in the region from `base` to `stop`, where pages have
4096 bytes and no block has less than 8. -/
def start (base stop : Nat) (word : Nat → Nat) : State := ⟨init 12 3 base stop word, []⟩

/-! ### The pool at the start -/

theorem wordSub_eq {a b : Nat} (h : b ≤ a) (ha : a ≤ busy) : wordSub a b = a - b := by
  rw [wordSub, show a + (busy + 1) - b = a - b + (busy + 1) by omega, Nat.add_mod_right, Nat.mod_eq_of_lt (by omega)]

theorem wordSub_of_lt {a b : Nat} (h : a < b) (hb : b ≤ busy) : wordSub a b = a + (busy + 1) - b := by
  rw [wordSub, Nat.mod_eq_of_lt (by omega)]

theorem wordSub_div_lt (a b : Nat) {k : Nat} (hk : 2 ≤ k) : wordSub a b / k < pageStart := by
  have hlt : wordSub a b < pageStart * 2 := Nat.mod_lt _ (by decide)
  exact (Nat.div_lt_iff_lt_mul (by omega)).mpr (Nat.lt_of_lt_of_le hlt (Nat.mul_le_mul_left _ hk))

/-- No more pages are counted than there is room for. -/
theorem counted_le {n q : Nat} (hn : n < pageStart) (hq : q < pageStart) :
    (if 0 < wordSub n q ∧ wordSub n q < pageStart then n - wordSub n q else n) ≤ q := by
  have hbusy : busy + 1 = pageStart + pageStart := by decide
  rcases Nat.lt_or_ge n q with hlt | hge
  · rw [wordSub_of_lt hlt (by omega)]
    split
    · omega
    · omega
  · rw [wordSub_eq hge (by omega)]
    split
    · omega
    · omega

theorem alignUp_ge (a : Nat) {n : Nat} (hn : 0 < n) : a ≤ alignUp a n := by
  have := Nat.div_add_mod (a + (n - 1)) n
  have := Nat.mod_lt (a + (n - 1)) hn
  rw [alignUp, Nat.mul_comm]
  omega

section
variable {base stop : Nat} {word : Nat → Nat}

theorem init_count (pageShift minShift base stop : Nat) (word : Nat → Nat) :
    ∃ k, 2 ≤ k ∧ ∃ n, n = wordSub stop (base + poolSize) / k ∧
    (init pageShift minShift base stop word).pages =
      let m := wordSub n (wordSub stop (init pageShift minShift base stop word).start / 1 <<< pageShift)
      if 0 < m ∧ m < pageStart then n - m else n :=
  ⟨_, Nat.le_trans (show 2 ≤ headerSize by decide) (Nat.le_add_left _ (1 <<< pageShift)), _, rfl, rfl⟩

theorem init_bound {k : Nat} (hk : 1 ≤ k) (hstart : (init k 3 base stop word).start ≤ stop) (hstop : stop ≤ busy) :
    (init k 3 base stop word).start + (init k 3 base stop word).pages * 1 <<< k ≤ stop := by
  obtain ⟨d, hd, n, hn, hpages⟩ := init_count k 3 base stop word
  have hpage : 2 ≤ 1 <<< k := by
    rw [Nat.shiftLeft_eq, Nat.one_mul]
    exact Nat.le_self_pow (by omega) 2
  rw [hpages]
  generalize (init k 3 base stop word).start = s at hstart ⊢
  have hle := counted_le (n := n) (q := wordSub stop s / 1 <<< k) (hn ▸ wordSub_div_lt _ _ hd)
    (wordSub_div_lt _ _ hpage)
  rw [wordSub_eq hstart hstop] at hle ⊢
  have hfits := Nat.le_trans (Nat.mul_le_mul_right (1 <<< k) hle) (Nat.div_mul_le_self (stop - s) (1 <<< k))
  exact Nat.add_le_of_le_sub' hstart hfits

theorem init_standard (hstart : (init 12 3 base stop word).start ≤ stop) (hstop : stop ≤ busy) :
    (init 12 3 base stop word).Standard where
  pageShift := rfl
  minShift := rfl
  minSize := rfl
  aligned := Nat.mul_mod_left ..
  bound := init_bound (by decide) hstart hstop

theorem init_header (pageShift minShift base stop : Nat) (word : Nat → Nat) :
    ((init pageShift minShift base stop word).header .free).next = some (.page 0) ∧
      (∀ s, ((init pageShift minShift base stop word).header (.slot s)).next = some (.slot s)) ∧
      (init pageShift minShift base stop word).header (.page 0) =
        { slab := (init pageShift minShift base stop word).pages, next := some .free, prev := some .free } ∧
      ∀ j, (init pageShift minShift base stop word).header (.page (j + 1)) = {} :=
  ⟨rfl, fun _ => rfl, rfl, fun _ => rfl⟩

end

theorem one_run_pages {pool : Pool} (hpages : 0 < pool.pages) (hfree : (pool.header .free).next = some (.page 0))
    (hfirst : pool.header (.page 0) = { slab := pool.pages, next := some .free, prev := some .free })
    (hrest : ∀ j, pool.header (.page (j + 1)) = {}) :
    Pages pool.kindOf pool.header pool.pages [.free pool.pages] [0] := by
  have hshown : ShownAll pool.kindOf pool.pages (pagesOf pool.header) [.free pool.pages] := by
    intro p hp
    obtain rfl := List.mem_singleton.mp hp
    refine ⟨hpages, congrArg Header.slab hfirst, congrArg Header.kind hfirst, fun j hj _ => ?_, fun _ hlt => ?_⟩
    · obtain ⟨k, rfl⟩ : ∃ k, j = k + 1 := ⟨j - 1, by simp only at hj; omega⟩
      rw [pagesOf, hrest]
      exact ⟨rfl, rfl, rfl⟩
    · simp only [Nat.zero_add, Nat.lt_irrefl] at hlt
  have hring : Linked pool.header .free ([0].map .page) := ⟨by simp, by simp [hfree, hfirst], by simp [hfirst]⟩
  exact ⟨by simp [total, Seg.len], hshown, hring, by simp⟩

theorem one_run {pool : Pool} (std : pool.Standard) (hend : pool.stop ≤ busy) (hpages : 0 < pool.pages)
    (hfree : (pool.header .free).next = some (.page 0)) (hslot : ∀ s, (pool.header (.slot s)).next = some (.slot s))
    (hfirst : pool.header (.page 0) = { slab := pool.pages, next := some .free, prev := some .free })
    (hrest : ∀ j, pool.header (.page (j + 1)) = {}) : Steady pool [.free pool.pages] [0] fun _ => [] := by
  have hnone : ∀ {i shift}, (i, .chunks shift) ∉ placed 0 [Seg.free pool.pages] := by simp
  exact ⟨⟨std, hend, one_run_pages hpages hfree hfirst hrest, by simp [Settled], by simp [Apart],
    fun s _ => ring_nil (hslot s), fun s i _ hi => by simp at hi, fun i shift h => absurd h hnone,
    fun i shift h => absurd h hnone, fun i shift c h => absurd h hnone⟩, fun i shift h => absurd h hnone,
    fun i shift h => absurd h hnone⟩

/-- At the start all pages are one free run. -/
theorem init_steady {base stop : Nat} {word : Nat → Nat} (hstart : (init 12 3 base stop word).start ≤ stop)
    (hstop : stop ≤ busy) (hpages : 0 < (init 12 3 base stop word).pages) :
    Steady (init 12 3 base stop word) [.free (init 12 3 base stop word).pages] [0] fun _ => [] := by
  obtain ⟨hfree, hslot, hfirst, hrest⟩ := init_header 12 3 base stop word
  exact one_run (init_standard hstart hstop) hstop hpages hfree hslot hfirst hrest

/-! ### Writing in blocks -/

variable {pool : Pool} {segs segs' : List Seg} {free : List Nat} {slots : Nat → List Nat}

/-- Bitmaps are out of reach for those who write in blocks. -/
theorem Steady.write (S : Steady pool segs free slots) (word : Nat → Nat)
    (h : ∀ a, word a ≠ pool.word a → ∃ p l, Held pool segs p l ∧ Touches a p l) :
    Steady (pool.changed pool.header word) segs free slots ∧
      ∀ i shift c, Used (pool.changed pool.header word) segs i shift c ↔ Used pool segs i shift c := by
  have hwords : ∀ {i shift}, (i, .chunks shift) ∈ placed 0 segs → pool.kindOf shift = .small →
      ∀ n, n < pool.map shift → word (pool.address i + n * 8) = pool.word (pool.address i + n * 8) := by
    intro i shift hi hk n hn
    by_contra hne
    obtain ⟨p, l, hheld, hlo, hhi⟩ := h _ hne
    have hkind := (S.kind_chunks hi).trans hk
    have hlt := (S.placed_lt hi).1
    have hclear := S.held_clear hheld (by simp only [Seg.len] at hlt; omega) hkind
    rw [((S.formed i shift hi).small hk).1] at hclear
    omega
  have hbits : ∀ i shift c, (i, .chunks shift) ∈ placed 0 segs → c < pool.chunks shift →
      (pool.changed pool.header word).bit i shift c = pool.bit i shift c := fun i shift c hi hc =>
    (S.formed i shift hi).bit_changed S.std rfl (hwords hi) hc
  have L : Layout (pool.changed pool.header word) segs free slots := by
    refine ⟨⟨S.std.pageShift, S.std.minShift, S.std.minSize, S.std.aligned, S.std.bound⟩, S.stop, S.pages, S.settled,
      S.apart, S.rings, S.filed, S.away, fun i shift hi => ?_, fun i shift c hi hc => ?_⟩
    · exact (S.formed i shift hi).changed rfl (hwords hi)
    · have hc : c < pool.kept shift := hc
      rw [hbits i shift c hi (Nat.lt_trans hc ((S.formed i shift hi).kept_lt S.std))]
      exact S.kept i shift c hi hc
  exact S.whole L (fun _ _ => Iff.rfl) hbits

/-! ### Every call -/

/-- What is live is what the pool holds. -/
structure Tracked (st : State) (segs : List Seg) : Prop where
  nodup : (st.live.map Prod.fst).Nodup
  held : ∀ b ∈ st.live, ∃ l, Held st.pool segs b.1 l ∧ b.2 ≤ l
  live : ∀ p l, Held st.pool segs p l → ∃ b ∈ st.live, b.1 = p

def Good (st : State) : Prop := ∃ segs free slots, Steady st.pool segs free slots ∧ Tracked st segs

theorem Tracked.gain {st : State} (T : Tracked st segs) {pool' : Pool} {p l size : Nat}
    (G : Gains st.pool segs pool' segs' p l) (hsize : size ≤ l) : Tracked ⟨pool', (p, size) :: st.live⟩ segs' where
  nodup := by
    rw [List.map_cons, List.nodup_cons]
    refine ⟨fun hm => ?_, T.nodup⟩
    obtain ⟨b, hb, hbp⟩ := List.mem_map.mp hm
    obtain rfl : b.1 = p := hbp
    obtain ⟨m, hheld, -⟩ := T.held b hb
    exact G.fresh m hheld
  held b hb := by
    rcases List.mem_cons.mp hb with rfl | hb
    · exact ⟨l, (G.held _ _).mpr (Or.inr ⟨rfl, rfl⟩), hsize⟩
    · obtain ⟨m, hheld, hm⟩ := T.held b hb
      exact ⟨m, (G.held _ _).mpr (Or.inl hheld), hm⟩
  live q m hq := by
    rcases (G.held q m).mp hq with hq | ⟨rfl, rfl⟩
    · obtain ⟨b, hb, hbq⟩ := T.live q m hq
      exact ⟨b, List.mem_cons_of_mem _ hb, hbq⟩
    · exact ⟨_, List.mem_cons_self .., rfl⟩

theorem Tracked.lose {st : State} (T : Tracked st segs) {pool' : Pool} {p l : Nat}
    (G : Gains pool' segs' st.pool segs p l) : Tracked ⟨pool', st.live.filter fun b => b.1 ≠ p⟩ segs' where
  nodup := (List.filter_sublist.map Prod.fst).nodup T.nodup
  held b hb := by
    obtain ⟨hb, hne⟩ := List.mem_filter.mp hb
    obtain ⟨m, hheld, hm⟩ := T.held b hb
    rcases (G.held _ _).mp hheld with h | ⟨h, -⟩
    · exact ⟨m, h, hm⟩
    · exact absurd h (by simpa using hne)
  live q m hq := by
    obtain ⟨b, hb, hbq⟩ := T.live q m ((G.held q m).mpr (Or.inl hq))
    refine ⟨b, List.mem_filter.mpr ⟨hb, decide_eq_true ?_⟩, hbq⟩
    rintro rfl
    rw [← hbq] at hq
    exact G.fresh m hq

theorem Tracked.congr {st : State} (T : Tracked st segs) {pool' : Pool}
    (h : ∀ q m, Held pool' segs q m ↔ Held st.pool segs q m) : Tracked ⟨pool', st.live⟩ segs where
  nodup := T.nodup
  held b hb := by
    obtain ⟨m, hheld, hm⟩ := T.held b hb
    exact ⟨m, (h _ _).mpr hheld, hm⟩
  live q m hq := T.live q m ((h q m).mp hq)

/-- `MemSet` writes in the block only. -/
theorem zeroed_outside {p size a : Nat} (h : ¬Touches a p size) (w : Nat) : zeroed p size a w = w := by
  have hout : ∀ j ∈ List.range 8, ¬(p ≤ a + j ∧ a + j < p + size) := by
    rintro j hj ⟨hlo, hhi⟩
    have := List.mem_range.mp hj
    exact h ⟨by omega, by omega⟩
  rw [zeroed]
  generalize List.range 8 = l at hout
  induction l with
  | nil => rfl
  | cons j l ih =>
    rw [List.foldl_cons, if_neg (hout j (List.mem_cons_self ..))]
    exact ih fun k hk => hout k (List.mem_cons_of_mem _ hk)

/-- **Every call returns**, and what is live is what the pool holds again. -/
theorem Good.step {st : State} (h : Good st) {a : Action} (ha : ok st a) :
    ∃ header word live, step st a = some ⟨st.pool.changed header word, live⟩ ∧
      Good ⟨st.pool.changed header word, live⟩ := by
  obtain ⟨segs, free, slots, S, T⟩ := h
  cases a with
  | alloc size =>
    rcases S.doAlloc size with ⟨header, word, segs', free', slots', p, l, halloc, S', G, hsize⟩ | ⟨halloc, -⟩
    · refine ⟨header, word, (p, size) :: st.live, ?_, segs', free', slots', S', T.gain G hsize⟩
      rw [Slab.step, halloc]
      rfl
    · refine ⟨st.pool.header, st.pool.word, st.live, ?_, segs, free, slots, S, T⟩
      rw [Slab.step, halloc]
      rfl
  | calloc size =>
    rcases S.doAlloc size with ⟨header, word, segs', free', slots', p, l, halloc, S', G, hsize⟩ | ⟨halloc, -⟩
    · have hheld : Held (st.pool.changed header word) segs' p l := (G.held p l).mpr (Or.inr ⟨rfl, rfl⟩)
      obtain ⟨S'', hused⟩ := S'.write (fun a => zeroed p size a (word a)) fun a hne => by
        refine ⟨p, l, hheld, ?_⟩
        by_contra hcon
        refine hne (zeroed_outside (fun ht => hcon ⟨ht.1, ?_⟩) (word a))
        have := ht.2
        omega
      refine ⟨header, fun a => zeroed p size a (word a), (p, size) :: st.live, ?_, segs', free', slots', S'',
        (T.gain G hsize).congr (held_congr rfl (fun _ _ => Iff.rfl) hused)⟩
      rw [Slab.step, doCalloc, halloc]
      rfl
    · refine ⟨st.pool.header, st.pool.word, st.live, ?_, segs, free, slots, S, T⟩
      rw [Slab.step, doCalloc, halloc]
      rfl
  | free p =>
    obtain ⟨b, hb, rfl⟩ := ha
    obtain ⟨l, hheld, -⟩ := T.held b hb
    obtain ⟨header, word, segs', free', slots', hfree, S', G⟩ := S.doFree hheld
    refine ⟨header, word, st.live.filter fun c => c.1 ≠ b.1, ?_, segs', free', slots', S', T.lose G⟩
    rw [Slab.step, hfree]
    rfl
  | write word =>
    obtain ⟨S', hused⟩ := S.write word fun a hne => by
      obtain ⟨b, hb, hlo, hhi⟩ := ha a hne
      obtain ⟨l, hheld, hsize⟩ := T.held b hb
      exact ⟨b.1, l, hheld, hlo, by omega⟩
    exact ⟨st.pool.header, word, st.live, rfl, segs, free, slots, S',
      T.congr (held_congr rfl (fun _ _ => Iff.rfl) hused)⟩

/-! ### A pool without pages -/

/-- Of a region that has no room for a page nothing is given out. -/
theorem doAlloc_unpaged {pool : Pool} (std : pool.Standard) (hpages : pool.pages = 0)
    (hfree : (pool.header .free).next = some (.page 0)) (hslot : ∀ s, (pool.header (.slot s)).next = some (.slot s))
    (hfirst : pool.header (.page 0) = { slab := pool.pages, next := some .free, prev := some .free }) (size : Nat) :
    doAlloc pool size = some (pool, none) := by
  have hget : pool.get (.page 0) = some { slab := 0, next := some .free, prev := some .free } := by
    rw [Pool.get_eq (by simp [Pool.has]), hfirst, hpages]
  have halloc : ∀ k, 0 < k → allocPages pool k = some (pool, none) := by
    intro k hk
    rw [allocPages, Pool.get_eq rfl, Option.bind_eq_bind, Option.bind_some, hfree, Option.bind_eq_bind, Option.bind_some,
      hpages, allocFrom, if_neg (by simp), hget, Option.bind_eq_bind, Option.bind_some, if_neg (Nat.not_le_of_lt hk)]
    rfl
  by_cases hbig : size > 2048
  · have hmax : size > pool.maxSize := by rwa [std.maxSize]
    have hk : 0 < size >>> pool.pageShift + if size % pool.pagesize ≠ 0 then 1 else 0 := by
      rw [std.pageShift, std.pagesize, Nat.shiftRight_eq_div_pow]
      split
      · omega
      · omega
    rw [doAlloc, if_pos hmax, halloc _ hk]
    rfl
  · have hmax : ¬size > pool.maxSize := by rwa [std.maxSize]
    obtain ⟨hlow, hhigh, -⟩ := std.shiftFor (Nat.le_of_not_lt hbig)
    obtain ⟨s, hs⟩ : ∃ s, pool.shiftFor size = s + 3 := ⟨_, (Nat.sub_add_cancel hlow).symm⟩
    have hslot' : s + 3 - pool.minShift = s := by rw [std.minShift, Nat.add_sub_cancel]
    have hhas : pool.has (.slot s) = true := by
      rw [Pool.has, std.pageShift, std.minShift]
      exact decide_eq_true (by omega)
    rw [doAlloc, if_neg hmax]
    simp only [show (if size > pool.minSize then shiftOf (size - 1) 1 else pool.minShift) = s + 3 from hs, hslot',
      Pool.get_eq hhas, Option.bind_eq_bind, Option.bind_some, hslot s, ne_eq, not_true_eq_false, if_false]
    rw [newChunk, halloc 1 Nat.one_pos]
    rfl

/-! ### Every run -/

section
variable {base stop : Nat} {word : Nat → Nat}

theorem step_unpaged (hstart : (init 12 3 base stop word).start ≤ stop) (hstop : stop ≤ busy)
    (hpages : (init 12 3 base stop word).pages = 0) {a : Action} (ha : ok (start base stop word) a) :
    step (start base stop word) a = some (start base stop word) := by
  obtain ⟨hfree, hslot, hfirst, -⟩ := init_header 12 3 base stop word
  have halloc : ∀ size, doAlloc (start base stop word).pool size = some ((start base stop word).pool, none) :=
    doAlloc_unpaged (init_standard hstart hstop) hpages hfree hslot hfirst
  cases a with
  | alloc size =>
    rw [step, halloc]
    rfl
  | calloc size =>
    rw [step, doCalloc, halloc]
    rfl
  | free p =>
    obtain ⟨b, hb, -⟩ := ha
    cases hb
  | write word' =>
    have hsame : word' = (start base stop word).pool.word := by
      funext a
      by_contra hne
      obtain ⟨b, hb, -⟩ := ha a hne
      cases hb
    rw [hsame]
    rfl

/-- The pool is the one that was set up, with other headers and another memory. -/
def Sound (base stop : Nat) (word : Nat → Nat) (st : State) : Prop :=
  (∃ header word', st.pool = (init 12 3 base stop word).changed header word') ∧
    (Good st ∨ (init 12 3 base stop word).pages = 0 ∧ st = start base stop word)

theorem start_sound (hstart : (init 12 3 base stop word).start ≤ stop) (hstop : stop ≤ busy) :
    Sound base stop word (start base stop word) := by
  refine ⟨⟨_, _, rfl⟩, ?_⟩
  rcases Nat.eq_zero_or_pos (init 12 3 base stop word).pages with hzero | hpos
  · exact Or.inr ⟨hzero, rfl⟩
  · refine Or.inl ⟨_, _, _, init_steady hstart hstop hpos, by simp [start], fun b hb => by simp [start] at hb, ?_⟩
    intro p l hheld
    obtain ⟨i, s, hs, hfree, -⟩ := (init_steady hstart hstop hpos).held_in hheld
    obtain ⟨-, rfl⟩ := Prod.mk.inj (List.mem_singleton.mp hs)
    cases hfree

theorem step_sound (hstart : (init 12 3 base stop word).start ≤ stop) (hstop : stop ≤ busy) {st : State}
    (h : Sound base stop word st) {a : Action} (ha : ok st a) :
    ∃ st', step st a = some st' ∧ Sound base stop word st' := by
  obtain ⟨⟨header, word', hpool⟩, hgood | ⟨hzero, rfl⟩⟩ := h
  · obtain ⟨header', word'', live, hstep, hgood'⟩ := hgood.step ha
    exact ⟨_, hstep, ⟨header', word'', by rw [hpool]; rfl⟩, Or.inl hgood'⟩
  · exact ⟨_, step_unpaged hstart hstop hzero ha, ⟨header, word', hpool⟩, Or.inr ⟨hzero, rfl⟩⟩

theorem run_sound (hstart : (init 12 3 base stop word).start ≤ stop) (hstop : stop ≤ busy) {st : State}
    (h : Run step ok (start base stop word) st) : Sound base stop word st := by
  refine h.invariant (start_sound hstart hstop) fun t a t' ht ha hstep => ?_
  obtain ⟨u, hu, hsound⟩ := step_sound hstart hstop ht ha
  obtain rfl := Option.some.inj (hu.symm.trans hstep)
  exact hsound

end

/-! ### Blocks -/

/-- What the users rely on: a block is as long as what was asked for, it lies in the pages of the
pool, and it is clear of the other blocks and of the bitmaps. -/
structure Parted (st : State) : Prop where
  size : ∀ b ∈ st.live, b.2 ≤ blockSize st.pool b.1
  inside : ∀ b ∈ st.live, st.pool.start ≤ b.1 ∧
    b.1 + blockSize st.pool b.1 ≤ st.pool.start + st.pool.pages * st.pool.pagesize
  apart : st.live.Pairwise fun a b => a.1 + blockSize st.pool a.1 ≤ b.1 ∨ b.1 + blockSize st.pool b.1 ≤ a.1
  clear : ∀ b ∈ st.live, ∀ i, i < st.pool.pages → (st.pool.header (.page i)).kind = .small →
    b.1 + blockSize st.pool b.1 ≤ st.pool.address i ∨
      st.pool.address i + st.pool.map ((st.pool.header (.page i)).slab &&& shiftMask) * 8 ≤ b.1

theorem Good.parted {st : State} (h : Good st) : Parted st := by
  obtain ⟨segs, free, slots, S, T⟩ := h
  have hblock : ∀ b ∈ st.live, Held st.pool segs b.1 (blockSize st.pool b.1) ∧ b.2 ≤ blockSize st.pool b.1 := by
    intro b hb
    obtain ⟨l, hheld, hl⟩ := T.held b hb
    rw [S.blockSize_held hheld]
    exact ⟨hheld, hl⟩
  refine ⟨fun b hb => (hblock b hb).2, fun b hb => ?_, ?_, fun b hb i hi hk => S.held_clear (hblock b hb).1 hi hk⟩
  · rw [S.std.pagesize]
    exact S.held_inside (hblock b hb).1
  · have hne : st.live.Pairwise fun a b => a.1 ≠ b.1 := List.pairwise_map.mp T.nodup
    refine hne.imp_of_mem fun {a b} ha hb hab => ?_
    exact (S.held_apart (hblock a ha).1 (hblock b hb).1).resolve_left fun h => hab h.1

/-- **Blocks never overlap**, whatever is asked for and given back in what order, and every call returns. -/
theorem blocks_parted {base stop : Nat} {word : Nat → Nat} (hstart : (init 12 3 base stop word).start ≤ stop)
    (hstop : stop ≤ busy) {st : State} (h : Run step ok (start base stop word) st) :
    Parted st ∧ ∀ a, ok st a → ∃ st', step st a = some st' := by
  have hsound := run_sound hstart hstop h
  refine ⟨?_, fun a ha => ?_⟩
  · rcases hsound.2 with hgood | ⟨-, rfl⟩
    · exact hgood.parted
    · have hnone : ∀ b, b ∉ (start base stop word).live := fun b hb => by simp [start] at hb
      exact ⟨fun b hb => absurd hb (hnone b), fun b hb => absurd hb (hnone b), List.Pairwise.nil,
        fun b hb => absurd hb (hnone b)⟩
  · obtain ⟨st', hstep, -⟩ := step_sound hstart hstop hsound ha
    exact ⟨st', hstep⟩

/-- A chunk and a run, in a pool of three pages. -/
theorem blocks_parted_two : ∃ st, Parted st ∧ st.live = [(8192, 5000), (4160, 8)] := by
  have hlive : ((step (start 0 16384 fun _ => 0) (.alloc 8)).bind fun st => step st (.alloc 5000)).map State.live =
      some [(8192, 5000), (4160, 8)] := by decide
  have hstart : (init 12 3 0 16384 fun _ => 0).start ≤ 16384 := by decide
  have hstop : 16384 ≤ busy := by decide
  have hany : ∀ st size, ok st (.alloc size) := fun _ _ => trivial
  obtain ⟨st, hchunk⟩ := (blocks_parted hstart hstop .start).2 (.alloc 8) trivial
  have hfirst := Run.next .start (hany _ 8) hchunk
  obtain ⟨st', hrun⟩ := (blocks_parted hstart hstop hfirst).2 (.alloc 5000) trivial
  rw [hchunk, Option.bind_some, hrun] at hlive
  exact ⟨st', (blocks_parted hstart hstop (hfirst.next (hany _ 5000) hrun)).1, Option.some.inj hlive⟩

end PgRest.Slab
