import PgRest.Slab.System

/-! The runs in the ring of free runs are the longest stretches of pages in which there is no byte
of a live block, so that a request fails only where there is no room for it. -/
namespace PgRest.Slab
open Lib

/-- The runs in the ring from `r` on, each with its first page and the length in its `slab`. -/
def freeRunsFrom : Nat → Pool → Ref → Option (List (Nat × Nat))
  | 0, _, _ => none
  | fuel + 1, pool, r =>
    match r with
    | .free => some []
    | .page i => do
      let page ← pool.get r
      let rest ← freeRunsFrom fuel pool (← page.next)
      return (i, page.slab) :: rest
    | .slot _ => none

/-- The runs in `pool->free`. -/
def freeRuns (pool : Pool) : Option (List (Nat × Nat)) := do
  let free ← pool.get .free
  freeRunsFrom (pool.pages + 2) pool (← free.next)

/-- The page has bytes of a live block. -/
def InUse (st : State) (j : Nat) : Prop :=
  ∃ b ∈ st.live, b.1 < st.pool.address (j + 1) ∧ st.pool.address j < b.1 + blockSize st.pool b.1

/-- A stretch of pages that are not in use, between pages that are. -/
structure MaximalRun (st : State) (i n : Nat) : Prop where
  pos : 0 < n
  inside : i + n ≤ st.pool.pages
  unused : ∀ j, i ≤ j → j < i + n → ¬InUse st j
  before : 0 < i → InUse st (i - 1)
  behind : i + n < st.pool.pages → InUse st (i + n)

/-- The page is cut into chunks of this size. -/
def CutFor (pool : Pool) (i shift : Nat) : Prop :=
  i < pool.pages ∧ (pool.header (.page i)).kind = pool.kindOf shift ∧
    (pool.kindOf shift ≠ .exact → (pool.header (.page i)).slab &&& shiftMask = shift)

/-- The ring of free runs has the maximal ones, once each. -/
def RunsMaximal (st : State) : Prop :=
  ∃ l, freeRuns st.pool = some l ∧ l.Nodup ∧ ∀ i n, (i, n) ∈ l ↔ MaximalRun st i n

/-- Requests fail only where there is no room for them, and where nothing is live all pages are
one run. -/
structure Serves (st : State) : Prop where
  large : ∀ size pool', 2048 < size → doAlloc st.pool size = some (pool', none) →
    ∀ i n, size ≤ n * 4096 → i + n ≤ st.pool.pages → ∃ j, i ≤ j ∧ j < i + n ∧ InUse st j
  small : ∀ size pool', size ≤ 2048 → doAlloc st.pool size = some (pool', none) →
    (∀ i, CutFor st.pool i (st.pool.shiftFor size) → st.pool.Full i (st.pool.shiftFor size)) ∧
      ∀ j, j < st.pool.pages → InUse st j
  whole : st.live = [] → freeRuns st.pool = some [(0, st.pool.pages)]

/-! ### The ring as it is read -/

theorem freeRunsFrom_eq {pool : Pool} {l : List Nat} {r : Ref} {t : List Ref} {fuel : Nat}
    (hl : l.map Ref.page ++ [.free] = r :: t) (hchain : (r :: t).IsChain fun x y => (pool.header x).next = some y)
    (hhas : ∀ j ∈ l, pool.has (.page j) = true) (hfuel : l.length < fuel) :
    freeRunsFrom fuel pool r = some (l.map fun i => (i, (pool.header (.page i)).slab)) := by
  obtain ⟨fuel, rfl⟩ : ∃ m, fuel = m + 1 := ⟨fuel - 1, by omega⟩
  induction l generalizing r t fuel with
  | nil =>
    obtain ⟨rfl, -⟩ := List.cons.inj hl
    rfl
  | cons j l ih =>
    obtain ⟨rfl, ht⟩ := List.cons.inj hl
    obtain ⟨fuel, rfl⟩ : ∃ m, fuel = m + 1 := ⟨fuel - 1, by simp only [List.length_cons] at hfuel; omega⟩
    obtain ⟨r', t', hrt⟩ : ∃ r' t', l.map Ref.page ++ [.free] = r' :: t' := List.exists_cons_of_ne_nil (by simp)
    obtain rfl : r' :: t' = t := hrt.symm.trans ht
    obtain ⟨hnext, hchain'⟩ := List.isChain_cons_cons.mp hchain
    have hrest := ih hrt hchain' (fun j hj => hhas j (List.mem_cons_of_mem _ hj)) fuel
      (by simp only [List.length_cons] at hfuel; omega)
    rw [freeRunsFrom, Pool.get_eq (hhas j (List.mem_cons_self ..)), Option.bind_eq_bind, Option.bind_some, hnext,
      Option.bind_eq_bind, Option.bind_some, hrest]
    rfl

variable {pool : Pool} {segs : List Seg} {free : List Nat} {slots : Nat → List Nat}

theorem Pages.freeRuns_eq {kindOf : Nat → Kind} (P : Pages kindOf pool.header pool.pages segs free) :
    freeRuns pool = some (free.map fun i => (i, (pool.header (.page i)).slab)) := by
  obtain ⟨r, t, hrt⟩ : ∃ r t, free.map Ref.page ++ [.free] = r :: t := List.exists_cons_of_ne_nil (by simp)
  have hfore := P.ring.fore
  rw [List.cons_append, hrt] at hfore
  obtain ⟨hfirst, hchain⟩ := List.isChain_cons_cons.mp hfore
  have hfirst : (pool.header .free).next = some r := hfirst
  have hlen := length_le P.nodup fun i hi => P.free_lt hi
  rw [freeRuns, Pool.get_eq rfl, Option.bind_eq_bind, Option.bind_some, hfirst, Option.bind_eq_bind, Option.bind_some]
  exact freeRunsFrom_eq hrt hchain (fun j hj => Pool.has_page (P.free_lt hj)) (by omega)

theorem Pages.mem_freeRuns {kindOf : Nat → Kind} (P : Pages kindOf pool.header pool.pages segs free) {i n : Nat} :
    (i, n) ∈ free.map (fun i => (i, (pool.header (.page i)).slab)) ↔ (i, .free n) ∈ placed 0 segs := by
  rw [List.mem_map]
  constructor
  · rintro ⟨j, hj, he⟩
    obtain ⟨rfl, rfl⟩ := Prod.mk.inj he
    obtain ⟨m, hm⟩ := P.mem.mp hj
    have hslab : (pool.header (.page j)).slab = m := (P.shown _ hm).2.1
    rwa [hslab]
  · intro h
    have hslab : (pool.header (.page i)).slab = n := (P.shown _ h).2.1
    exact ⟨i, P.mem.mpr ⟨n, h⟩, by rw [hslab]⟩

/-- No free run begins where another ends. -/
theorem Layout.not_adjacent (L : Layout pool segs free slots) {i m n : Nat} (h : (i, .free m) ∈ placed 0 segs)
    (h' : (i + m, .free n) ∈ placed 0 segs) : False := by
  obtain ⟨a, b, hsegs, rfl⟩ := placed_split h
  have hm := (L.placed_lt h).2
  have hn := (L.placed_lt h').2
  simp only [Seg.len] at hm hn
  rcases (L.others hsegs).mp ⟨h', by simp only; omega⟩ with hmem | hmem
  · have := (placed_bounds hmem).2
    simp only [Seg.len] at this
    omega
  · cases b with
    | nil => simp at hmem
    | cons s b =>
      have hs := (L.placed_lt (i := total a + m) (s := s) (by simp [hsegs, Seg.len])).2
      rcases List.mem_cons.mp hmem with heq | hmem
      · obtain rfl := (Prod.mk.inj heq).2
        have hapart := L.apart
        rw [hsegs, Apart, List.append_assoc, List.isChain_append] at hapart
        exact (List.isChain_cons_cons.mp hapart.2.1).1 ⟨rfl, rfl⟩
      · have := (placed_bounds hmem).1
        simp only [Seg.len] at this hs
        omega

theorem Layout.cutFor_iff (L : Layout pool segs free slots) {i shift : Nat} :
    CutFor pool i shift ↔ (i, .chunks shift) ∈ placed 0 segs := by
  constructor
  · rintro ⟨hi, hkind, hshift⟩
    obtain ⟨sh, hs, hk⟩ := L.chunks_of_kind hi (by rw [hkind]; exact pool.kindOf_ne shift)
    have F := L.formed i sh hs
    have hsame : pool.kindOf sh = pool.kindOf shift := hk.trans hkind
    have heq : sh = shift := by
      cases hkind' : pool.kindOf shift with
      | page => exact absurd hkind' (pool.kindOf_ne shift)
      | small => exact (F.small (hsame.trans hkind')).1.symm.trans (hshift (by simp [hkind']))
      | exact => rw [L.std.kindOf_exact.mp hkind', L.std.kindOf_exact.mp (hsame.trans hkind')]
      | big => exact (F.big (hsame.trans hkind')).1.symm.trans (hshift (by simp [hkind']))
    rwa [← heq]
  · intro hs
    have F := L.formed i shift hs
    have hlt := (L.placed_lt hs).1
    refine ⟨hlt, L.kind_chunks hs, fun hne => ?_⟩
    cases hkind : pool.kindOf shift with
    | page => exact absurd hkind (pool.kindOf_ne shift)
    | small => exact (F.small hkind).1
    | exact => exact absurd hkind hne
    | big => exact (F.big hkind).1

/-! ### Pages in use -/

section
variable {st : State} (S : Steady st.pool segs free slots) (T : Tracked st segs)
include S T

/-- The live blocks are the blocks that the pool holds. -/
theorem inUse_iff {j : Nat} :
    InUse st j ↔ ∃ p l, Held st.pool segs p l ∧ p < st.pool.address (j + 1) ∧ st.pool.address j < p + l := by
  constructor
  · rintro ⟨b, hb, hlo, hhi⟩
    obtain ⟨l, hheld, -⟩ := T.held b hb
    rw [S.blockSize_held hheld] at hhi
    exact ⟨b.1, l, hheld, hlo, hhi⟩
  · rintro ⟨p, l, hheld, hlo, hhi⟩
    obtain ⟨b, hb, rfl⟩ := T.live p l hheld
    exact ⟨b, hb, hlo, by rwa [S.blockSize_held hheld]⟩

theorem inUse_free {i n j : Nat} (h : (i, .free n) ∈ placed 0 segs) (hlo : i ≤ j) (hhi : j < i + n) : ¬InUse st j := by
  rw [inUse_iff S T]
  rintro ⟨p, l, hheld, hp, hpl⟩
  obtain ⟨k, s, hs, hfree, hk, hkl⟩ := S.held_in hheld
  rw [S.std.address] at hp hpl hk hkl
  rcases S.segs_apart h hs with ⟨-, rfl⟩ | hlt | hlt
  · cases hfree
  · simp only [Seg.len] at hlt
    omega
  · omega

theorem inUse_other {i j : Nat} {s : Seg} (h : (i, s) ∈ placed 0 segs) (hs : s.isFree = false) (hlo : i ≤ j)
    (hhi : j < i + s.len) : InUse st j := by
  rw [inUse_iff S T]
  cases s with
  | free => cases hs
  | loose n => exact absurd (mem_of_placed h) (S.settled n)
  | run n =>
    refine ⟨_, _, .run h, ?_⟩
    simp only [Seg.len] at hhi
    rw [S.std.address, S.std.address, S.std.address]
    omega
  | chunks shift =>
    obtain ⟨c, hkept, hc, hbit⟩ := not_empty_iff.mp (S.used i shift h)
    obtain rfl : i = j := by
      simp only [Seg.len] at hhi
      omega
    refine ⟨_, _, .chunk ⟨h, hkept, hc, hbit⟩, ?_⟩
    have hfits := S.std.chunk_fits (S.formed i shift h).high hc
    have hpos := shift_pos shift
    rw [S.std.address, S.std.address]
    generalize c <<< shift = d at hfits
    omega

/-- A page that is not in use is in a free run. -/
theorem free_of_unused {j : Nat} (hj : j < st.pool.pages) (h : ¬InUse st j) :
    ∃ i n, (i, .free n) ∈ placed 0 segs ∧ i ≤ j ∧ j < i + n := by
  obtain ⟨i, s, hs, hlo, hhi⟩ := placed_cover (Nat.zero_le j) (by rwa [Nat.zero_add, S.pages.count])
  cases hfree : s.isFree with
  | true =>
    cases s with
    | free n => exact ⟨i, n, hs, hlo, hhi⟩
    | loose => cases hfree
    | run => cases hfree
    | chunks => cases hfree
  | false => exact absurd (inUse_other S T hs hfree hlo hhi) h

/-- **The free runs are the maximal ones.** -/
theorem free_iff_maximal {i n : Nat} : (i, .free n) ∈ placed 0 segs ↔ MaximalRun st i n := by
  have hrun : ∀ {i n}, (i, .free n) ∈ placed 0 segs → MaximalRun st i n := by
    intro i n h
    obtain ⟨hin, hpos⟩ := S.placed_lt h
    simp only [Seg.len] at hin hpos
    refine ⟨hpos, hin, fun j => inUse_free S T h, fun hi => ?_, fun hend => ?_⟩
    · by_contra hunused
      obtain ⟨k, m, hk, hlo, hhi⟩ := free_of_unused S T (by omega) hunused
      rcases S.segs_apart hk h with ⟨rfl, -⟩ | hlt | hlt
      · omega
      · simp only [Seg.len] at hlt
        obtain rfl : i = k + m := by omega
        exact S.not_adjacent hk h
      · simp only [Seg.len] at hlt
        omega
    · by_contra hunused
      obtain ⟨k, m, hk, hlo, hhi⟩ := free_of_unused S T hend hunused
      rcases S.segs_apart hk h with ⟨rfl, he⟩ | hlt | hlt
      · obtain rfl := Seg.free.inj he
        omega
      · simp only [Seg.len] at hlt
        omega
      · simp only [Seg.len] at hlt
        obtain rfl : k = i + n := by omega
        exact S.not_adjacent h hk
  refine ⟨hrun, fun h => ?_⟩
  have hin := h.inside
  have hpos := h.pos
  obtain ⟨k, m, hk, hlo, hhi⟩ := free_of_unused S T (j := i) (by omega) (h.unused i (Nat.le_refl i) (by omega))
  have hmax := hrun hk
  -- two maximal runs with a page in common are the same
  obtain rfl : i = k := by
    by_contra hne
    exact hmax.unused (i - 1) (by omega) (by omega) (h.before (by omega))
  rcases Nat.lt_trichotomy n m with hlt | rfl | hlt
  · exact absurd (h.behind (by have := hmax.inside; omega)) (hmax.unused (i + n) (by omega) (by omega))
  · exact hk
  · exact absurd (hmax.behind (by omega)) (h.unused (i + m) (by omega) (by omega))

/-- A stretch of unused pages is in one free run. -/
theorem unused_in_free {i n : Nat} (hn : 0 < n) (hin : i + n ≤ st.pool.pages)
    (h : ∀ j, i ≤ j → j < i + n → ¬InUse st j) : ∃ k m, (k, .free m) ∈ placed 0 segs ∧ k ≤ i ∧ i + n ≤ k + m := by
  obtain ⟨k, m, hk, hlo, hhi⟩ := free_of_unused S T (j := i) (by omega) (h i (Nat.le_refl i) (by omega))
  refine ⟨k, m, hk, hlo, ?_⟩
  by_contra hcon
  exact h (k + m) (by omega) (by omega) (((free_iff_maximal S T).mp hk).behind (by omega))

end

theorem Good.runsMaximal {st : State} (h : Good st) : RunsMaximal st := by
  obtain ⟨segs, free, slots, S, T⟩ := h
  exact ⟨_, S.pages.freeRuns_eq, S.pages.nodup.map fun _ _ he => (Prod.mk.inj he).1,
    fun i n => S.pages.mem_freeRuns.trans (free_iff_maximal S T)⟩

theorem maximalRun_of_idle {st : State} (hlive : st.live = []) (hpages : 0 < st.pool.pages) {i n : Nat} :
    MaximalRun st i n ↔ (i, n) = (0, st.pool.pages) := by
  have hunused : ∀ j, ¬InUse st j := by
    rintro j ⟨b, hb, -⟩
    rw [hlive] at hb
    cases hb
  constructor
  · intro h
    obtain rfl : i = 0 := Nat.eq_zero_of_not_pos fun hi => hunused _ (h.before hi)
    have hend : ¬0 + n < st.pool.pages := fun hlt => hunused _ (h.behind hlt)
    have hin := h.inside
    exact Prod.ext rfl (show n = st.pool.pages by omega)
  · intro he
    obtain ⟨rfl, rfl⟩ := Prod.mk.inj he
    exact ⟨hpages, by omega, fun j _ _ => hunused j, fun h => by omega, fun h => by omega⟩

theorem Good.serves {st : State} (h : Good st) (hpages : 0 < st.pool.pages) : Serves st := by
  obtain ⟨l, hruns, hnodup, hmem⟩ := h.runsMaximal
  obtain ⟨segs, free, slots, S, T⟩ := h
  refine ⟨fun size pool' hsize hnone i n hn hin => ?_, fun size pool' hsize hnone => ?_, fun hlive => ?_⟩
  · rcases S.doAlloc size with ⟨_, _, _, _, _, _, _, halloc, -⟩ | ⟨-, hlarge, -⟩
    · rw [halloc] at hnone
      cases hnone
    · by_contra hcon
      obtain ⟨k, m, hk, hlo, hhi⟩ := unused_in_free S T (by omega) hin fun j hj hj' hused => hcon ⟨j, hj, hj', hused⟩
      have := hlarge hsize k m hk
      omega
  · rcases S.doAlloc size with ⟨_, _, _, _, _, _, _, halloc, -⟩ | ⟨-, -, hsmall⟩
    · rw [halloc] at hnone
      cases hnone
    · obtain ⟨hfree, hslot⟩ := hsmall hsize
      refine ⟨fun i hcut => ?_, fun j hj => ?_⟩
      · by_contra hfull
        have hi := (S.partly i _ (S.cutFor_iff.mp hcut)).mpr hfull
        rw [hslot] at hi
        cases hi
      · by_contra hunused
        obtain ⟨i, n, hi, -⟩ := free_of_unused S T hj hunused
        exact hfree i n hi
  · have hperm : l.Perm [(0, st.pool.pages)] := by
      refine (List.perm_ext_iff_of_nodup hnodup (List.nodup_singleton _)).mpr fun r => ?_
      obtain ⟨i, n⟩ := r
      rw [hmem, maximalRun_of_idle hlive hpages, List.mem_singleton]
    rw [hruns, List.perm_singleton.mp hperm]

/-- In a pool without a page there is a run of no pages. -/
theorem freeRuns_unpaged {pool : Pool} (hpages : pool.pages = 0) (hfree : (pool.header .free).next = some (.page 0))
    (hfirst : pool.header (.page 0) = { slab := pool.pages, next := some .free, prev := some .free }) :
    freeRuns pool = some [(0, 0)] := by
  have hget : pool.get (.page 0) = some { slab := 0, next := some .free, prev := some .free } := by
    rw [Pool.get_eq (by simp [Pool.has]), hfirst, hpages]
  rw [freeRuns, Pool.get_eq rfl, Option.bind_eq_bind, Option.bind_some, hfree, Option.bind_eq_bind, Option.bind_some,
    hpages, freeRunsFrom, hget]
  rfl

section
variable {base stop : Nat} {word : Nat → Nat}

theorem run_unpaged (hstart : (init 12 3 base stop word).start ≤ stop) (hstop : stop ≤ busy)
    (hpages : (init 12 3 base stop word).pages = 0) {st : State} (h : Run step ok (start base stop word) st) :
    st = start base stop word := by
  refine h.invariant (P := fun t => t = start base stop word) rfl fun t a t' ht ha hstep => ?_
  subst ht
  exact (Option.some.inj ((step_unpaged hstart hstop hpages ha).symm.trans hstep)).symm

theorem start_serves (hpages : (init 12 3 base stop word).pages = 0) : Serves (start base stop word) := by
  obtain ⟨hfree, hslot, hfirst, -⟩ := init_header 12 3 base stop word
  have hzero : (start base stop word).pool.pages = 0 := hpages
  refine ⟨fun size pool' hsize _ i n hn hin => ?_, fun size pool' _ _ => ⟨fun i hcut => ?_, fun j hj => ?_⟩, fun _ => ?_⟩
  · omega
  · exact absurd hcut.1 (by omega)
  · omega
  · rw [hzero]
    exact freeRuns_unpaged hpages hfree hfirst

/-- **The free list is exact** in every state, and a pool without a page has one run of no pages. -/
theorem free_list_exact (hstart : (init 12 3 base stop word).start ≤ stop) (hstop : stop ≤ busy) {st : State}
    (h : Run step ok (start base stop word) st) :
    (0 < (init 12 3 base stop word).pages → RunsMaximal st) ∧
      ((init 12 3 base stop word).pages = 0 → freeRuns st.pool = some [(0, 0)]) ∧ Serves st := by
  rcases Nat.eq_zero_or_pos (init 12 3 base stop word).pages with hzero | hpos
  · obtain rfl := run_unpaged hstart hstop hzero h
    obtain ⟨hfree, -, hfirst, -⟩ := init_header 12 3 base stop word
    exact ⟨fun hpos => absurd hzero (Nat.ne_of_gt hpos), fun _ => freeRuns_unpaged hzero hfree hfirst,
      start_serves hzero⟩
  · obtain ⟨⟨header, word', hpool⟩, hgood | ⟨hzero, -⟩⟩ := run_sound hstart hstop h
    · have hpages : 0 < st.pool.pages := by
        rw [hpool]
        exact hpos
      exact ⟨fun _ => hgood.runsMaximal, fun hzero => absurd hzero (Nat.ne_of_gt hpos), hgood.serves hpages⟩
    · exact absurd hzero (Nat.ne_of_gt hpos)

end

/-- After a chunk and a run of two pages have been given out. -/
theorem free_list_exact_two : ∃ st, RunsMaximal st ∧ Serves st ∧ st.live = [(8192, 5000), (4160, 8)] := by
  have hlive : ((step (start 0 20480 fun _ => 0) (.alloc 8)).bind fun st => step st (.alloc 5000)).map State.live =
      some [(8192, 5000), (4160, 8)] := by decide
  have hstart : (init 12 3 0 20480 fun _ => 0).start ≤ 20480 := by decide
  have hstop : 20480 ≤ busy := by decide
  have hpages : 0 < (init 12 3 0 20480 fun _ => 0).pages := by decide
  have hany : ∀ st size, ok st (.alloc size) := fun _ _ => trivial
  obtain ⟨st, hchunk, hsound⟩ := step_sound hstart hstop (start_sound hstart hstop) (hany _ 8)
  obtain ⟨st', hrun, -⟩ := step_sound hstart hstop hsound (hany _ 5000)
  rw [hchunk, Option.bind_some, hrun] at hlive
  obtain ⟨hruns, -, hserves⟩ :=
    free_list_exact hstart hstop ((Run.next .start (hany _ 8) hchunk).next (hany _ 5000) hrun)
  exact ⟨st', hruns hpages, hserves, Option.some.inj hlive⟩

/-- A region without room for a page has a run of no pages in its free list. -/
theorem free_list_unpaged : ¬∀ base stop word, (init 12 3 base stop word).start ≤ stop → stop ≤ busy →
    ∀ st, Run step ok (start base stop word) st → RunsMaximal st ∧ Serves st := by
  intro h
  obtain ⟨l, hl, -, hmem⟩ := (h 3784 4096 (fun _ => 0) (by decide) (by decide) _ .start).1
  have hread : freeRuns (start 3784 4096 fun _ => 0).pool = some [(0, 0)] := by decide
  obtain rfl := Option.some.inj (hl.symm.trans hread)
  exact absurd ((hmem 0 0).mp (List.mem_singleton_self _)).pos (Nat.lt_irrefl 0)

end PgRest.Slab
