import Mathlib.Data.List.Nodup
import Mathlib.Data.List.Perm.Subperm
import PgRest.Slab.Segments

/-! The ring of free runs: what `pgrest_slab_alloc_pages` makes of the sequence of segments,
and what it leaves alone. -/
namespace PgRest.Slab
open Lib

/-- The headers of the pages. -/
def pagesOf (header : Ref → Header) (i : Nat) : Header := header (.page i)

/-- The pages at which free runs start. -/
def heads (i : Nat) (segs : List Seg) : List Nat := ((placed i segs).filter fun p => p.2.isFree).map Prod.fst

section
variable (i : Nat) (a b : List Seg)

@[simp] theorem heads_nil : heads i [] = [] := rfl

@[simp] theorem heads_append : heads i (a ++ b) = heads i a ++ heads (i + total a) b := by
  simp [heads]

@[simp] theorem heads_free (n : Nat) : heads i (.free n :: b) = i :: heads (i + n) b := by
  simp [heads, Seg.isFree, Seg.len]

theorem heads_cons {s : Seg} (h : s.isFree = false) : heads i (s :: b) = heads (i + s.len) b := by
  simp [heads, h]

@[simp] theorem heads_run (n : Nat) : heads i (.run n :: b) = heads (i + n) b := heads_cons i b rfl

@[simp] theorem heads_loose (n : Nat) : heads i (.loose n :: b) = heads (i + n) b := heads_cons i b rfl

@[simp] theorem heads_chunks (shift : Nat) : heads i (.chunks shift :: b) = heads (i + 1) b := heads_cons i b rfl

end

theorem mem_heads {i j : Nat} {segs : List Seg} : j ∈ heads i segs ↔ ∃ n, (j, .free n) ∈ placed i segs := by
  simp only [heads, List.mem_map, List.mem_filter]
  constructor
  · rintro ⟨⟨j', s⟩, ⟨hp, hs⟩, rfl⟩
    cases s with
    | free n => exact ⟨n, hp⟩
    | loose => cases hs
    | run => cases hs
    | chunks => cases hs
  · rintro ⟨n, hp⟩
    exact ⟨_, ⟨hp, rfl⟩, rfl⟩

/-- The headers show the segments, and the free runs are the members of their ring. -/
structure Pages (kindOf : Nat → Kind) (header : Ref → Header) (pages : Nat) (segs : List Seg)
    (free : List Nat) : Prop where
  count : total segs = pages
  shown : ShownAll kindOf pages (pagesOf header) segs
  ring : Linked header .free (free.map .page)
  runs : free.Perm (heads 0 segs)

/-- A slot, or a page cut into chunks: not what whole pages are about. -/
def Outside (header : Ref → Header) (r : Ref) : Prop :=
  (∃ s, r = .slot s) ∨ ∃ j, r = .page j ∧ (header r).kind ≠ .page

variable {kindOf : Nat → Kind} {pool : Pool} {header header' : Ref → Header} {segs : List Seg} {free : List Nat}

theorem page_injective : Function.Injective Ref.page := fun _ _ h => Ref.page.inj h

theorem Relinked.keeps {s : Ref} {l : List Ref} (h : Relinked header header' s l) (hl : Linked header s l)
    (hs : ∀ i, s ≠ .page i) (j : Nat) : Keeps (pagesOf header j) (pagesOf header' j) := by
  refine ⟨h.slab _, h.kind _ (Ne.symm (hs j)), fun hn => h.others _ fun hm => ?_⟩
  rcases List.mem_cons.mp hm with hm | hm
  · exact hs j hm.symm
  · exact hl.next_ne hm hn

namespace Pages
variable {pages : Nat} (P : Pages kindOf header pages segs free)
include P

theorem mem {i : Nat} : i ∈ free ↔ ∃ n, (i, .free n) ∈ placed 0 segs := P.runs.mem_iff.trans mem_heads

theorem free_kind {i : Nat} (hi : i ∈ free) : (header (.page i)).kind = .page := by
  obtain ⟨n, hn⟩ := P.mem.mp hi
  exact (P.shown _ hn).2.2.1

theorem free_lt {i : Nat} (hi : i ∈ free) : i < pages := by
  obtain ⟨n, hn⟩ := P.mem.mp hi
  have := placed_bounds hn
  have hpos : 0 < n := (P.shown _ hn).1
  rw [P.count] at this
  simp only [Seg.len] at this
  omega

theorem nodup : free.Nodup := (List.nodup_map_iff page_injective).mp (List.nodup_cons.mp P.ring.nodup).2

/-- Of the pages of a segment no one but the first is the first of a free run. -/
theorem eq_head {i : Nat} {s : Seg} (hs : (i, s) ∈ placed 0 segs) {j : Nat} (hj : j ∈ free) (hlo : i ≤ j)
    (hhi : j < i + s.len) : j = i ∧ s.isFree = true := by
  obtain ⟨n, hn⟩ := P.mem.mp hj
  have hpos : 0 < n := (P.shown _ hn).1
  have heq := placed_unique hn hs (j := j) (Nat.le_refl _) (by simp only [Seg.len]; omega) hlo hhi
  obtain ⟨rfl, rfl⟩ := Prod.mk.inj heq
  exact ⟨rfl, rfl⟩

/-- The pages of a free run have the type of whole pages. -/
theorem kind_free {i n : Nat} (hs : (i, .free n) ∈ placed 0 segs) {j : Nat} (hlo : i ≤ j) (hhi : j < i + n) :
    (header (.page j)).kind = .page := by
  obtain ⟨-, -, hkind, hin, -⟩ := P.shown _ hs
  rcases Nat.eq_or_lt_of_le hlo with rfl | hlo
  · exact hkind
  · exact (hin j hlo hhi).2.2

/-- And those of a run in use. -/
theorem kind_run {i n : Nat} (hs : (i, .run n) ∈ placed 0 segs) {j : Nat} (hlo : i ≤ j) (hhi : j < i + n) :
    (header (.page j)).kind = .page := by
  obtain ⟨-, -, -, hkind, hin⟩ := P.shown _ hs
  rcases Nat.eq_or_lt_of_le hlo with rfl | hlo
  · exact hkind
  · exact (hin j hlo hhi).2.2

end Pages

/-- What holds of headers holds of the pool that has them. -/
theorem Pages.over (P : Pages kindOf header pool.pages segs free) :
    Pages kindOf (pool.withHeader header).header (pool.withHeader header).pages segs free := P

/-- The ring of free runs only has the headers of pages. -/
theorem has_ring (P : Pages kindOf pool.header pool.pages segs free) :
    ∀ r ∈ Ref.free :: free.map .page, pool.has r = true := by
  intro r hr
  rcases List.mem_cons.mp hr with rfl | hr
  · rfl
  · obtain ⟨i, hi, rfl⟩ := List.mem_map.mp hr
    exact Pool.has_page (P.free_lt hi)

theorem outside_ring {pages : Nat} (P : Pages kindOf header pages segs free) {r : Ref} (hr : Outside header r) :
    r ∉ Ref.free :: free.map .page := by
  intro hm
  rcases List.mem_cons.mp hm with rfl | hm
  · rcases hr with ⟨s, hs⟩ | ⟨j, hj, -⟩
    · cases hs
    · cases hj
  · obtain ⟨i, hi, rfl⟩ := List.mem_map.mp hm
    rcases hr with ⟨s, hs⟩ | ⟨j, hj, hk⟩
    · cases hs
    · exact hk (P.free_kind hi)

/-- What is outside is not among pages of whole runs. -/
theorem Outside.not_whole {r : Ref} (hr : Outside header r) {i n : Nat}
    (hk : ∀ j, i ≤ j → j < i + n → (header (.page j)).kind = .page) (j : Nat) (hj : r = .page j) : j < i ∨ i + n ≤ j := by
  by_contra hcon
  rcases hr with ⟨s, hs'⟩ | ⟨j', hj', hk'⟩
  · cases hj.symm.trans hs'
  · subst hj
    exact hk' (hk j (by omega) (by omega))

theorem outside_free {pages : Nat} (P : Pages kindOf header pages segs free) {r : Ref} (hr : Outside header r) {i n : Nat}
    (hs : (i, .free n) ∈ placed 0 segs) : ∀ j, r = .page j → j < i ∨ i + n ≤ j :=
  hr.not_whole fun _ => P.kind_free hs

/-! ### Taking a run -/

/-- What is left of a free run. -/
def remainder (n : Nat) : List Seg := if n = 0 then [] else [.free n]

/-- The headers when the page `i` has the header `first` and the `n - 1` pages behind it `rest`. -/
def spread (header : Ref → Header) (i n : Nat) (first rest : Header) : Ref → Header :=
  filled (Function.update header (.page i) first) rest (i + 1) (n - 1)

section
variable {i n : Nat} {first rest : Header}

theorem spread_of_outside {r : Ref} (h : ∀ j, r = .page j → j < i ∨ i + n ≤ j) (hn : 0 < n) :
    spread header i n first rest r = header r := by
  have hne : r ≠ .page i := fun he => by
    have := h i he
    omega
  rw [spread, ← Function.update_of_ne hne first header]
  cases r with
  | page j =>
    have := h j rfl
    rw [filled, if_neg (by omega)]
  | free => rfl
  | slot s => rfl

theorem spread_first : spread header i n first rest (.page i) = first := by
  rw [spread, filled, if_neg (by omega), Function.update_self]

theorem spread_rest {j : Nat} (hlo : i < j) (hhi : j < i + n) : spread header i n first rest (.page j) = rest := by
  rw [spread, filled, if_pos (by omega)]

theorem spread_eq (hn : 0 < n) (hin : i + n ≤ pool.pages) (f : Header → Header) (rest : Header) :
    (pool.modify (.page i) f).bind (setPages rest (i + 1) (n - 1)) =
      some (pool.withHeader (spread pool.header i n (f (pool.header (.page i))) rest)) := by
  rw [Pool.modify_eq (Pool.has_page (by omega)), Option.bind_some, setPages_spec _ (by rw [put_pages]; omega)]
  rfl

end

/-- The headers of `n` pages in use, from `i` on. -/
def runHeaders (header : Ref → Header) (i n : Nat) : Ref → Header :=
  spread header i n { slab := n ||| pageStart } { slab := busy }

theorem runHeaders_shown {i n : Nat} (hn : 0 < n) :
    Shown kindOf pages (pagesOf (runHeaders header i n)) i (.run n) := by
  have hhead : pagesOf (runHeaders header i n) i = { slab := n ||| pageStart } := spread_first
  refine ⟨hn, by rw [hhead], by rw [hhead], by rw [hhead], fun j hj hjn => ?_⟩
  rw [pagesOf, runHeaders, spread_rest hj hjn]
  exact ⟨rfl, rfl, rfl⟩

theorem markRun_eq {i n : Nat} (hn : 0 < n) (hin : i + n ≤ pool.pages) :
    (pool.modify (.page i) fun _ => { slab := n ||| pageStart }).bind (markBusy (i + 1) (n - 1)) =
      some (pool.withHeader (runHeaders pool.header i n)) := spread_eq hn hin _ _

theorem erase_middle {l a b : List Nat} {x : Nat} (h : l.Perm (a ++ x :: b)) : (l.erase x).Perm (a ++ b) := by
  have := (h.trans List.perm_middle).erase x
  rwa [List.erase_cons_head] at this

theorem total_remainder (n : Nat) : total (remainder n) = n := by
  unfold remainder
  split
  · next h => rw [h]; rfl
  · rfl

section
variable {a b : List Seg} {n k : Nat}

theorem heads_lt {i : Nat} {segs : List Seg} (hpos : ∀ p ∈ placed i segs, 0 < p.2.len) {j : Nat} (hj : j ∈ heads i segs) :
    i ≤ j ∧ j < i + total segs := by
  obtain ⟨m, hm⟩ := mem_heads.mp hj
  have := placed_bounds hm
  have := hpos _ hm
  omega

theorem Pages.around {pages : Nat} (P : Pages kindOf header pages segs free) (hsegs : segs = a ++ [.free n] ++ b) :
    0 < n ∧ total a + n + total b = pages ∧ (total a, .free n) ∈ placed 0 segs ∧ total a ∈ free ∧
      free.Perm (heads 0 a ++ total a :: heads (total a + n) b) := by
  have hmem : (total a, .free n) ∈ placed 0 segs := by simp [hsegs]
  have htotal := P.count
  have hheads := P.runs
  refine ⟨(P.shown _ hmem).1, ?_, hmem, P.mem.mpr ⟨n, hmem⟩, ?_⟩
  · rw [← htotal, hsegs]
    simp [total, Seg.len, Nat.add_assoc]
  · rw [hsegs] at hheads
    simpa [total, Seg.len, Nat.add_assoc] using hheads

/-- The first pages of a free run are in use, and what is left of it is in the ring. -/
theorem Pages.taken {pages : Nat} (P : Pages kindOf header pages segs free) (hsegs : segs = a ++ [.free n] ++ b)
    (hk : 0 < k) (hkn : k ≤ n) {free' : List Nat} (ring : Linked header' .free (free'.map .page))
    (hheads : free'.Perm (heads 0 a ++ heads (total a + k) (remainder (n - k)) ++
      heads (total a + n) b))
    (keeps : ∀ j, j < total a ∨ total a + n ≤ j → Slab.Keeps (pagesOf header j) (pagesOf header' j))
    (rest : ∀ p ∈ placed (total a + k) (remainder (n - k)), Shown kindOf pages (pagesOf header') p.1 p.2) :
    Pages kindOf (runHeaders header' (total a) k) pages (a ++ (.run k :: remainder (n - k)) ++ b) free' := by
  have hlen : total (.run k :: remainder (n - k)) = n := by
    rw [total, total_remainder, Seg.len]
    omega
  have hold : ShownAll kindOf pages (pagesOf header) (a ++ [.free n] ++ b) := hsegs ▸ P.shown
  have hsame : ∀ j, j < total a ∨ total a + k ≤ j →
      runHeaders header' (total a) k (.page j) = header' (.page j) := fun j hj =>
    spread_of_outside (by rintro _ ⟨⟩; exact hj) hk
  have hpos : ∀ p ∈ placed 0 segs, 0 < p.2.len := fun p hp => (P.shown p hp).pos
  rw [hsegs] at hpos
  simp only [placed_append, placed_cons, placed_nil, total_append, List.mem_append, Nat.zero_add] at hpos
  constructor
  · obtain ⟨-, htotal, -⟩ := P.around hsegs
    rw [total_append, total_append, hlen]
    exact htotal
  · refine hold.replace (by rw [hlen]; simp [total, Seg.len]) (fun j hj _ => ?_) fun p hp => ?_
    · simp only [total, Seg.len] at hj
      rw [pagesOf, pagesOf, hsame j (by omega)]
      exact keeps j (by omega)
    · rcases List.mem_cons.mp hp with rfl | hp
      · exact runHeaders_shown hk
      · have := placed_bounds hp
        simp only [Seg.len] at this
        exact (rest p hp).keeps fun j hj _ => Keeps.of_eq (hsame j (by omega))
  · refine ring.congr fun r hr => spread_of_outside (fun j hj => ?_) hk
    subst hj
    simp only [List.mem_cons, List.mem_map, reduceCtorEq, false_or, Ref.page.injEq, exists_eq_right] at hr
    have hr := hheads.mem_iff.mp hr
    simp only [List.mem_append] at hr
    rcases hr with (hr | hr) | hr
    · have := heads_lt (fun p hp => hpos p (Or.inl (Or.inl hp))) hr
      omega
    · obtain ⟨m, hm⟩ := mem_heads.mp hr
      have := placed_bounds hm
      omega
    · have := heads_lt (fun p hp => hpos p (Or.inr (by simpa [total, Seg.len] using hp))) hr
      omega
  · refine hheads.trans (List.Perm.of_eq ?_)
    rw [heads_append, heads_append, heads_run, total_append, hlen, Nat.zero_add, Nat.zero_add]

/-- The free run is as long as what is asked for. -/
theorem takePages_all (P : Pages kindOf pool.header pool.pages segs free) (hsegs : segs = a ++ [.free n] ++ b) :
    ∃ header, takePages pool (total a) n = some (pool.withHeader header) ∧
      Pages kindOf header pool.pages (a ++ (.run n :: remainder (n - n)) ++ b) (free.erase (total a)) ∧
      ∀ r, Outside pool.header r → header r = pool.header r := by
  obtain ⟨hn, htotal, hplaced, hmem, hheads⟩ := P.around hsegs
  obtain ⟨-, hslab, hkind, -⟩ := P.shown _ hplaced
  have hslab : (pool.header (.page (total a))).slab = n := hslab
  have hkind : (pool.header (.page (total a))).kind = .page := hkind
  obtain ⟨header, hunlink, hring, hre, -⟩ := unlink_spec P.ring (List.mem_map_of_mem hmem)
    (fun r hr => by
      obtain ⟨j, hj, rfl⟩ := List.mem_map.mp hr
      rw [P.free_kind hj, P.free_kind hmem]) (has_ring P)
  rw [← List.map_erase page_injective] at hring
  refine ⟨runHeaders header (total a) n, ?_, ?_, fun r hr => ?_⟩
  · have hmark := markRun_eq hn (show total a + n ≤ (pool.withHeader header).pages by rw [withHeader_pages]; omega)
    have hhas : pool.has (.page (total a)) = true := Pool.has_page (by omega)
    simp only [takePages, Pool.get_eq hhas, Option.bind_eq_bind, Option.bind_some, hslab, hkind, ne_eq,
      not_true_eq_false, if_false, hunlink, if_neg (Nat.lt_irrefl n)]
    simpa using hmark
  · refine P.taken hsegs hn (Nat.le_refl n) hring ?_ (fun j _ => hre.keeps P.ring (by simp) j) ?_
    · simpa [remainder] using erase_middle hheads
    · simp [remainder]
  · rw [runHeaders, spread_of_outside (outside_free P hr hplaced) hn, hre.others r (outside_ring P hr)]

theorem replace_middle {l₁ l₂ a b : List Nat} {x : Nat} (h : (l₁ ++ x :: l₂).Perm (a ++ x :: b)) (y : Nat) :
    (l₁ ++ y :: l₂).Perm (a ++ y :: b) := by
  have hrest : (l₁ ++ l₂).Perm (a ++ b) := (List.perm_middle.symm.trans (h.trans List.perm_middle)).cons_inv
  exact List.perm_middle.trans ((hrest.cons y).trans List.perm_middle.symm)

/-- The headers when the run behind the first `k` of `n` pages has taken the place of the run at
`i` between `p` and `q`. -/
def rehung (header : Ref → Header) (i k n : Nat) (p q r : Ref) : Header :=
  let h :=
    if r = .page (i + k) then { header (.page i) with slab := n - k }
    else if r = .page (i + n - 1) then { header r with prev := some (.page (i + k)), kind := .page }
    else header r
  { h with
    next := if r = p then some (.page (i + k)) else h.next
    prev := if r = q then some (.page (i + k)) else h.prev
    kind := if r = q then .page else h.kind }

theorem rehung_of_ne {i k n : Nat} {p q r : Ref} (hp : r ≠ p) (hq : r ≠ q) (hy : r ≠ .page (i + k))
    (hz : r ≠ .page (i + n - 1)) : rehung header i k n p q r = header r := by
  simp only [rehung, if_neg hp, if_neg hq, if_neg hy, if_neg hz]

theorem takePages_rehung {i : Nat} {p q : Ref} (hi : pool.header (.page i) = ⟨n, some q, some p, .page⟩)
    (hp : pool.has p = true) (hq : pool.has q = true) (hpy : p ≠ .page (i + k)) (hqy : q ≠ .page (i + k))
    (hpz : p ≠ .page (i + n - 1)) (hqz : q ≠ .page (i + n - 1)) (hk : 0 < k) (hkn : k < n) (hin : i + n ≤ pool.pages) :
    takePages pool i k = some (pool.withHeader (runHeaders (rehung pool.header i k n p q) i k)) := by
  have hhas : ∀ j, j < i + n → pool.has (.page j) = true := fun j hj => Pool.has_page (by omega)
  let pool₁ := pool.put (.page (i + n - 1))
    { pool.header (.page (i + n - 1)) with prev := some (.page (i + k)), kind := .page }
  let pool₂ := pool₁.put (.page (i + k)) ⟨n - k, some q, some p, .page⟩
  let pool₃ := pool₂.put p { pool₂.header p with next := some (.page (i + k)) }
  let pool₄ := pool₃.put q { pool₃.header q with prev := some (.page (i + k)), kind := .page }
  have h₁ : pool₁.get (.page i) = some ⟨n, some q, some p, .page⟩ := by
    rw [Pool.get_eq (by simpa [pool₁] using hhas i (by omega)), ← hi]
    exact congrArg some (put_of_ne _ _ _ (by simp only [ne_eq, Ref.page.injEq]; omega))
  have m₁ : pool.modify (.page (i + n - 1)) (fun h => { h with prev := some (.page (i + k)), kind := .page }) =
      some pool₁ := Pool.modify_eq (hhas _ (by omega)) _
  have m₂ : pool₁.modify (.page (i + k)) (fun _ => ⟨n - k, some q, some p, .page⟩) = some pool₂ :=
    Pool.modify_eq (by simpa [pool₁] using hhas _ (by omega)) _
  have m₃ : pool₂.modify p (fun h => { h with next := some (.page (i + k)) }) = some pool₃ :=
    Pool.modify_eq (by simpa [pool₂, pool₁] using hp) _
  have m₄ : pool₃.modify q (fun h => { h with prev := some (.page (i + k)), kind := .page }) = some pool₄ :=
    Pool.modify_eq (by simpa [pool₃, pool₂, pool₁] using hq) _
  have hpool : pool₄ = pool.withHeader (rehung pool.header i k n p q) := by
    simp only [pool₄, pool₃, pool₂, pool₁, Pool.withHeader, Pool.put, Pool.mk.injEq, true_and, and_true]
    funext r
    by_cases hrq : r = q
    · subst hrq
      by_cases hrp : r = p
      · subst hrp
        simp [rehung, hqy, hqz]
      · simp [rehung, hrp, hqy, hqz]
    by_cases hrp : r = p
    · subst hrp
      simp [rehung, hrq, hpy, hpz]
    by_cases hry : r = .page (i + k)
    · subst hry
      simp [rehung, hrq, hrp, hi]
    by_cases hrz : r = .page (i + n - 1)
    · subst hrz
      simp [rehung, hrq, hrp, hry]
    · simp [rehung, hrq, hrp, hry, hrz]
  have hn : n > k := hkn
  simp only [takePages, Pool.get_eq (hhas i (by omega)), hi, Option.bind_eq_bind, Option.bind_some, if_pos hn, m₁, h₁,
    m₂, ne_eq, not_true_eq_false, if_false, m₃, m₄]
  rw [hpool]
  exact markRun_eq hk (by rw [withHeader_pages]; omega)

/-- The free run is longer than what is asked for. -/
theorem takePages_some (P : Pages kindOf pool.header pool.pages segs free) (hsegs : segs = a ++ [.free n] ++ b)
    (hk : 0 < k) (hkn : k < n) :
    ∃ header free', takePages pool (total a) k = some (pool.withHeader header) ∧
      Pages kindOf header pool.pages (a ++ (.run k :: remainder (n - k)) ++ b) free' ∧
      ∀ r, Outside pool.header r → header r = pool.header r := by
  obtain ⟨hn, htotal, hplaced, hmem, hheads⟩ := P.around hsegs
  obtain ⟨-, hslab, hkind, hin, -⟩ := P.shown _ hplaced
  have hslab : (pool.header (.page (total a))).slab = n := hslab
  have hkind : (pool.header (.page (total a))).kind = .page := hkind
  obtain ⟨f₁, f₂, rfl⟩ := List.append_of_mem hmem
  -- of the pages of the run only the first is in the ring
  have hring : ∀ j, total a < j → j < total a + n → Ref.page j ∉ Ref.free :: (f₁ ++ total a :: f₂).map .page := by
    intro j hlo hhi hm
    simp only [List.mem_cons, List.mem_map, reduceCtorEq, false_or, Ref.page.injEq, exists_eq_right] at hm
    have := (P.eq_head hplaced hm (Nat.le_of_lt hlo) hhi).1
    omega
  have hsplit : (f₁ ++ total a :: f₂).map Ref.page = f₁.map .page ++ [.page (total a)] ++ f₂.map .page := by simp
  have hsub : ∀ r ∈ Ref.free :: (f₁.map .page ++ f₂.map .page), r ∈ Ref.free :: (f₁ ++ total a :: f₂).map .page := by
    intro r hr
    rw [hsplit]
    simp only [List.mem_cons, List.mem_append] at hr ⊢
    tauto
  have hnew : Ref.page (total a + k) ∉ Ref.free :: (f₁.map .page ++ f₂.map .page) := fun hm =>
    hring _ (by omega) (by omega) (hsub _ hm)
  have hlast : Ref.page (total a + n - 1) ∉ Ref.free :: (f₁.map .page ++ f₂.map .page) := fun hm =>
    hring _ (by omega) (by omega) (hsub _ hm)
  have hlinked := P.ring
  rw [hsplit] at hlinked
  obtain ⟨p, q, hprev, hnext, hp, hq, hx, hreplace⟩ := Ring.replace hlinked hnew
  have hpy : p ≠ .page (total a + k) := fun he => hnew (he ▸ hp)
  have hqy : q ≠ .page (total a + k) := fun he => hnew (he ▸ hq)
  have hpz : p ≠ .page (total a + n - 1) := fun he => hlast (he ▸ hp)
  have hqz : q ≠ .page (total a + n - 1) := fun he => hlast (he ▸ hq)
  have hi : pool.header (.page (total a)) = ⟨n, some q, some p, .page⟩ := by
    rw [← hslab, ← hkind, ← hprev, ← hnext]
  have hinner : ∀ j, total a < j → j < total a + n → Ref.page j ≠ p ∧ Ref.page j ≠ q := fun j hlo hhi =>
    ⟨fun he => hring j hlo hhi (he ▸ hsub _ hp), fun he => hring j hlo hhi (he ▸ hsub _ hq)⟩
  have hkinds : ∀ r ∈ Ref.free :: (f₁ ++ total a :: f₂).map .page, r ≠ .free → (pool.header r).kind = .page := by
    intro r hr hne
    obtain ⟨j, hj, rfl⟩ := List.mem_map.mp ((List.mem_cons.mp hr).resolve_left hne)
    exact P.free_kind hj
  refine ⟨_, f₁ ++ (total a + k) :: f₂, takePages_rehung hi (has_ring P p (hsub p hp)) (has_ring P q (hsub q hq)) hpy
    hqy hpz hqz hk hkn (by omega), P.taken hsegs hk (Nat.le_of_lt hkn) ?_ ?_ (fun j hj => ?_) ?_, fun r hr => ?_⟩
  · have hlinked' := hreplace (fun r => (rehung pool.header (total a) k n p q r).next)
      (fun r => (rehung pool.header (total a) k n p q r).prev) (by simp [rehung]) (by simp [rehung, hpy.symm, hi])
      (fun r hr hrp => ?_) (by simp [rehung, hqy.symm, hi]) (fun _ => by simp [rehung]) fun r hr hrq => ?_
    · rwa [show (f₁ ++ (total a + k) :: f₂).map Ref.page =
        f₁.map .page ++ [.page (total a + k)] ++ f₂.map .page by simp]
    · have hry : r ≠ .page (total a + k) := fun he => hnew (he ▸ hr)
      have hrz : r ≠ .page (total a + n - 1) := fun he => hlast (he ▸ hr)
      simp only [rehung, if_neg hrp, if_neg hry, if_neg hrz]
    · have hr := List.mem_cons_of_mem Ref.free hr
      have hry : r ≠ .page (total a + k) := fun he => hnew (he ▸ hr)
      have hrz : r ≠ .page (total a + n - 1) := fun he => hlast (he ▸ hr)
      simp only [rehung, if_neg hrq, if_neg hry, if_neg hrz]
  · rw [remainder, if_neg (by omega), heads_free, heads_nil, List.append_assoc]
    exact replace_middle hheads (total a + k)
  · have hjy : Ref.page j ≠ .page (total a + k) := by simp only [ne_eq, Ref.page.injEq]; omega
    have hjz : Ref.page j ≠ .page (total a + n - 1) := by simp only [ne_eq, Ref.page.injEq]; omega
    refine ⟨by simp [pagesOf, rehung, hjy, hjz], ?_, fun hnone => rehung_of_ne ?_ ?_ hjy hjz⟩
    · simp only [pagesOf, rehung, if_neg hjy, if_neg hjz]
      split
      · next hjq => exact (hkinds _ (hjq ▸ hsub q hq) (by simp)).symm
      · rfl
    · rintro rfl
      exact P.ring.next_ne ((List.mem_cons.mp (hsub _ hp)).resolve_left (by simp)) hnone
    · rintro rfl
      exact P.ring.next_ne ((List.mem_cons.mp (hsub _ hq)).resolve_left (by simp)) hnone
  · rw [remainder, if_neg (by omega)]
    intro s hs
    obtain rfl := List.mem_singleton.mp hs
    obtain ⟨hyp, hyq⟩ := hinner (total a + k) (by omega) (by omega)
    refine ⟨by omega, by simp [pagesOf, rehung], by simp [pagesOf, rehung, hyq, hi], fun j hlo hhi => ?_, fun h1 _ => ?_⟩
    · obtain ⟨hjp, hjq⟩ := hinner j (by omega) (by omega)
      have hjy : Ref.page j ≠ .page (total a + k) := by simp only [ne_eq, Ref.page.injEq]; omega
      obtain ⟨hzero, hnone, hpage⟩ := hin j (by omega) (by omega)
      by_cases hjz : Ref.page j = .page (total a + n - 1)
      · simp only [pagesOf, rehung, if_neg hjp, if_neg hjq, if_neg hjy, if_pos hjz]
        exact ⟨hzero, hnone, rfl⟩
      · rw [pagesOf, rehung_of_ne hjp hjq hjy hjz]
        exact ⟨hzero, hnone, hpage⟩
    · have hz : total a + k + (n - k) - 1 = total a + n - 1 := by omega
      have hzy : Ref.page (total a + n - 1) ≠ .page (total a + k) := by simp only [ne_eq, Ref.page.injEq]; omega
      rw [hz]
      simp [pagesOf, rehung, hzy]
  · have houter := outside_free P hr hplaced
    have hne := outside_ring P hr
    rw [runHeaders, spread_of_outside (fun j hj => by have := houter j hj; omega) hk]
    refine rehung_of_ne (fun he => hne (he ▸ hsub p hp)) (fun he => hne (he ▸ hsub q hq)) (fun he => ?_) fun he => ?_
    · have := houter _ he
      omega
    · have := houter _ he
      omega

end

/-! ### `pgrest_slab_alloc_pages` -/

/-- The walk along the ring comes to the first run that is long enough. -/
theorem allocFrom_eq {l : List Nat} {r : Ref} {t : List Ref} {k fuel : Nat} (hl : l.map Ref.page ++ [.free] = r :: t)
    (hchain : (r :: t).IsChain fun x y => (pool.header x).next = some y) (hhas : ∀ j ∈ l, pool.has (.page j) = true)
    (hfuel : l.length < fuel) :
    allocFrom fuel pool r k = (l.find? fun j => k ≤ (pool.header (.page j)).slab).elim (some (pool, none)) fun i =>
      (takePages pool i k).map fun pool => (pool, some i) := by
  obtain ⟨fuel, rfl⟩ : ∃ m, fuel = m + 1 := ⟨fuel - 1, by omega⟩
  induction l generalizing r t fuel with
  | nil =>
    obtain ⟨rfl, -⟩ := List.cons.inj hl
    rw [allocFrom.eq_def]
    rfl
  | cons j l ih =>
    obtain ⟨rfl, ht⟩ := List.cons.inj hl
    obtain ⟨fuel, rfl⟩ : ∃ m, fuel = m + 1 := ⟨fuel - 1, by simp only [List.length_cons] at hfuel; omega⟩
    obtain ⟨r', t', hrt⟩ : ∃ r' t', l.map Ref.page ++ [.free] = r' :: t' := List.exists_cons_of_ne_nil (by simp)
    obtain rfl : r' :: t' = t := hrt.symm.trans ht
    obtain ⟨hnext, hchain'⟩ := List.isChain_cons_cons.mp hchain
    rw [allocFrom.eq_def]
    dsimp only
    rw [if_neg (by simp), Pool.get_eq (hhas j (List.mem_cons_self ..)), List.find?_cons]
    simp only [Option.bind_eq_bind, Option.bind_some, ge_iff_le]
    split
    · next hle =>
      rw [decide_eq_true hle]
      rfl
    · next hle =>
      rw [decide_eq_false hle, hnext, Option.bind_some]
      exact ih hrt hchain' (fun j hj => hhas j (List.mem_cons_of_mem _ hj)) fuel
        (by simp only [List.length_cons] at hfuel; omega)

theorem takePages_spec (P : Pages kindOf pool.header pool.pages segs free) {a b : List Seg} {n k : Nat}
    (hsegs : segs = a ++ [.free n] ++ b) (hk : 0 < k) (hkn : k ≤ n) :
    ∃ header free', takePages pool (total a) k = some (pool.withHeader header) ∧
      Pages kindOf header pool.pages (a ++ (.run k :: remainder (n - k)) ++ b) free' ∧
      ∀ r, Outside pool.header r → header r = pool.header r := by
  rcases Nat.eq_or_lt_of_le hkn with rfl | hlt
  · obtain ⟨header, h⟩ := takePages_all P hsegs
    exact ⟨header, _, h⟩
  · exact takePages_some P hsegs hk hlt

theorem length_le {l : List Nat} {n : Nat} (hl : l.Nodup) (h : ∀ i ∈ l, i < n) : l.length ≤ n := by
  have hsub : l ⊆ List.range n := fun i hi => List.mem_range.mpr (h i hi)
  simpa using (List.subperm_of_subset hl hsub).length_le

/-- Either a free run is long enough, and its first pages are in use from then on, or none is. -/
theorem allocPages_spec (P : Pages kindOf pool.header pool.pages segs free) {k : Nat} (hk : 0 < k) :
    (∃ a n b header free', segs = a ++ [.free n] ++ b ∧ k ≤ n ∧
        allocPages pool k = some (pool.withHeader header, some (total a)) ∧
        Pages kindOf header pool.pages (a ++ (.run k :: remainder (n - k)) ++ b) free' ∧
        ∀ r, Outside pool.header r → header r = pool.header r) ∨
      (∀ i n, (i, .free n) ∈ placed 0 segs → n < k) ∧ allocPages pool k = some (pool, none) := by
  obtain ⟨r, t, hrt⟩ : ∃ r t, free.map Ref.page ++ [.free] = r :: t := List.exists_cons_of_ne_nil (by simp)
  have hfore := P.ring.fore
  rw [List.cons_append, hrt] at hfore
  obtain ⟨hfirst, hchain⟩ := List.isChain_cons_cons.mp hfore
  have hfirst : (pool.header .free).next = some r := hfirst
  have hwalk : allocPages pool k =
      (free.find? fun j => k ≤ (pool.header (.page j)).slab).elim (some (pool, none)) fun i =>
        (takePages pool i k).map fun pool => (pool, some i) := by
    rw [allocPages, Pool.get_eq rfl, Option.bind_eq_bind, Option.bind_some, hfirst, Option.bind_eq_bind, Option.bind_some]
    have hlen := length_le P.nodup fun i hi => P.free_lt hi
    exact allocFrom_eq hrt hchain (fun j hj => Pool.has_page (P.free_lt hj)) (by omega)
  cases hfind : free.find? fun j => k ≤ (pool.header (.page j)).slab with
  | none =>
    refine Or.inr ⟨fun i n hn => ?_, by rw [hwalk, hfind]; rfl⟩
    have := List.find?_eq_none.mp hfind i (P.mem.mpr ⟨n, hn⟩)
    obtain ⟨-, hslab, -⟩ := P.shown _ hn
    have hslab : (pool.header (.page i)).slab = n := hslab
    simpa [hslab] using this
  | some i =>
    obtain ⟨n, hn⟩ := P.mem.mp (List.mem_of_find?_eq_some hfind)
    have hle := List.find?_some hfind
    obtain ⟨-, hslab, -⟩ := P.shown _ hn
    have hslab : (pool.header (.page i)).slab = n := hslab
    rw [hslab, decide_eq_true_eq] at hle
    obtain ⟨a, b, hsegs, hi⟩ := mem_placed.mp hn
    obtain rfl : i = total a := by simpa using hi
    have hsegs : segs = a ++ [.free n] ++ b := by simpa using hsegs
    obtain ⟨header, free', htake, hpages, houtside⟩ := takePages_spec P hsegs hk hle
    refine Or.inl ⟨a, n, b, header, free', hsegs, hle, ?_, hpages, houtside⟩
    rw [hwalk, hfind, Option.elim_some, htake]
    rfl

end PgRest.Slab
