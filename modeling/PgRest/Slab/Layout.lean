import PgRest.Slab.Chunks
import PgRest.Slab.Release

/-! The pool as a whole: the segments, the ring of free runs, the rings of the slots and the bits
of the chunks, and what the steps of `pgrest_slab_do_alloc` and `pgrest_slab_do_free` that only
link pages leave of them. -/
namespace PgRest.Slab
open Lib

/-- A pool with other headers and another memory. -/
def Pool.changed (pool : Pool) (header : Ref → Header) (word : Nat → Nat) : Pool :=
  { pool with header := header, word := word }

/-- The pages are in segments, with the free runs in their ring, as few as they can be. A page cut
into chunks is in the ring of its slot or in none, and the chunks its bitmap takes up are in use. -/
structure Layout (pool : Pool) (segs : List Seg) (free : List Nat) (slots : Nat → List Nat) : Prop where
  std : pool.Standard
  stop : pool.stop ≤ busy
  pages : Pages pool.kindOf pool.header pool.pages segs free
  settled : Settled segs
  apart : Apart segs
  rings : ∀ s, s < 9 → Linked pool.header (.slot s) ((slots s).map .page)
  filed : ∀ s i, s < 9 → i ∈ slots s → (i, .chunks (s + 3)) ∈ placed 0 segs
  away : ∀ i shift, (i, .chunks shift) ∈ placed 0 segs → i ∉ slots (shift - 3) →
    (pool.header (.page i)).next = none
  formed : ∀ i shift, (i, .chunks shift) ∈ placed 0 segs → Formed pool i shift
  kept : ∀ i shift c, (i, .chunks shift) ∈ placed 0 segs → c < pool.kept shift → pool.bit i shift c = true

/-- In between the calls the pages in the rings of the slots are those with a free chunk, and no
page is cut into chunks of which none is in use. -/
structure Steady (pool : Pool) (segs : List Seg) (free : List Nat) (slots : Nat → List Nat) : Prop
    extends Layout pool segs free slots where
  partly : ∀ i shift, (i, .chunks shift) ∈ placed 0 segs → (i ∈ slots (shift - 3) ↔ ¬pool.Full i shift)
  used : ∀ i shift, (i, .chunks shift) ∈ placed 0 segs → ¬pool.Empty i shift

/-! ### The bits of pages that are left alone -/

section
variable {pool : Pool} {i shift c : Nat} {header : Ref → Header} {word : Nat → Nat}

theorem Formed.changed (F : Formed pool i shift) (hslab : (header (.page i)).slab = (pool.header (.page i)).slab)
    (hword : pool.kindOf shift = .small → ∀ n, n < pool.map shift →
      word (pool.address i + n * 8) = pool.word (pool.address i + n * 8)) :
    Formed (pool.changed header word) i shift := by
  refine ⟨F.low, F.high, fun hk => ⟨?_, fun n hn => ?_⟩, fun hk => ?_, fun hk => ?_⟩
  · exact (congrArg (· &&& shiftMask) hslab).trans (F.small hk).1
  · exact (hword hk n hn).trans_le ((F.small hk).2 n hn)
  · exact hslab.trans_le (F.exact hk)
  · show (header (.page i)).slab &&& shiftMask = shift ∧ (header (.page i)).slab ≤ busy ∧
      ∀ c, pool.chunks shift ≤ c → (header (.page i)).slab.testBit (mapShift + c) = false
    rw [hslab]
    exact F.big hk

theorem Formed.bit_changed (std : pool.Standard) (F : Formed pool i shift)
    (hslab : (header (.page i)).slab = (pool.header (.page i)).slab)
    (hword : pool.kindOf shift = .small → ∀ n, n < pool.map shift →
      word (pool.address i + n * 8) = pool.word (pool.address i + n * 8)) (hc : c < pool.chunks shift) :
    (pool.changed header word).bit i shift c = pool.bit i shift c := by
  have hkind : (pool.changed header word).kindOf shift = pool.kindOf shift := rfl
  cases hk : pool.kindOf shift with
  | page => exact absurd hk (pool.kindOf_ne shift)
  | small =>
    rw [Pool.bit_small (hkind.trans hk), Pool.bit_small hk]
    exact congrArg (·.testBit (c % 64)) (hword hk _ (F.word_lt std hk hc).1)
  | exact =>
    rw [Pool.bit_exact (hkind.trans hk), Pool.bit_exact hk]
    exact congrArg (·.testBit c) hslab
  | big =>
    rw [Pool.bit_big (hkind.trans hk), Pool.bit_big hk]
    exact congrArg (·.testBit (mapShift + c)) hslab

theorem full_congr (h : ∀ c, c < pool.chunks shift → (pool.changed header word).bit i shift c = pool.bit i shift c) :
    (pool.changed header word).Full i shift ↔ pool.Full i shift :=
  forall₂_congr fun c hc => by rw [h c hc]

theorem empty_congr (h : ∀ c, c < pool.chunks shift → (pool.changed header word).bit i shift c = pool.bit i shift c) :
    (pool.changed header word).Empty i shift ↔ pool.Empty i shift :=
  forall₃_congr fun c _ hc => by rw [h c hc]

end

/-! ### Pages -/

theorem placed_split {i : Nat} {s : Seg} {segs : List Seg} (h : (i, s) ∈ placed 0 segs) :
    ∃ a b, segs = a ++ [s] ++ b ∧ i = total a := by
  obtain ⟨a, b, hsegs, hi⟩ := mem_placed.mp h
  exact ⟨a, b, by simpa using hsegs, by simpa using hi⟩

theorem mem_of_placed {i j : Nat} {s : Seg} {segs : List Seg} (h : (i, s) ∈ placed j segs) : s ∈ segs := by
  obtain ⟨a, b, rfl, -⟩ := mem_placed.mp h
  simp

section
variable {kindOf : Nat → Kind} {header header' : Ref → Header} {pages : Nat} {segs : List Seg} {free : List Nat}

/-- What is outside of whole runs may have other links and another `slab`. -/
theorem Pages.outside (P : Pages kindOf header pages segs free) (hs : Settled segs)
    (hsame : ∀ r, ¬Outside header r → header' r = header r)
    (hkind : ∀ j, (header' (.page j)).kind = (header (.page j)).kind) : Pages kindOf header' pages segs free where
  count := P.count
  shown := by
    rintro ⟨i, s⟩ hp
    have hshown := P.shown _ hp
    have hwhole : ∀ j, (header (.page j)).kind = .page → header' (.page j) = header (.page j) := by
      intro j hj
      apply hsame
      rintro (⟨s, hs⟩ | ⟨j', hj', hk⟩)
      · cases hs
      · exact hk hj
    cases s with
    | free n => exact hshown.keeps fun j hlo hhi => .of_eq (hwhole j (P.kind_free hp hlo hhi))
    | loose n => exact absurd (mem_of_placed hp) (hs n)
    | run n => exact hshown.keeps fun j hlo hhi => .of_eq (hwhole j (P.kind_run hp hlo hhi))
    | chunks shift =>
      obtain ⟨hk, hne⟩ := hshown
      exact ⟨(hkind i).trans hk, fun he => hne ((hkind i).symm.trans he)⟩
  ring := P.ring.congr fun r hr => hsame r fun hout => outside_ring P hout hr
  runs := P.runs

end

/-- Between what is in use and what is free. -/
theorem apart_around {a b : List Seg} {s : Seg} (hs : s.isFree = false) (ha : Apart a) (hb : Apart b) :
    Apart (a ++ [s] ++ b) := by
  rw [Apart, List.append_assoc, List.isChain_append, List.singleton_append, List.isChain_cons]
  refine ⟨ha, ⟨fun t _ h => ?_, hb⟩, fun t _ u hu h => ?_⟩
  · rw [hs] at h
    cases h.1
  · obtain rfl : s = u := by simpa using hu
    rw [hs] at h
    cases h.2

variable {pool : Pool} {segs segs' : List Seg} {free free' : List Nat} {slots slots' : Nat → List Nat}
  {header : Ref → Header}

namespace Layout
variable (L : Layout pool segs free slots)
include L

theorem placed_lt {i : Nat} {s : Seg} (h : (i, s) ∈ placed 0 segs) : i + s.len ≤ pool.pages ∧ 0 < s.len := by
  have hpos := (L.pages.shown _ h).pos
  have hbounds := placed_bounds h
  rw [L.pages.count, Nat.zero_add] at hbounds
  exact ⟨hbounds.2, hpos⟩

theorem has_page {i : Nat} {s : Seg} (h : (i, s) ∈ placed 0 segs) : pool.has (.page i) = true := by
  have := L.placed_lt h
  exact Pool.has_page (by omega)

theorem has_slot {s : Nat} (hs : s < 9) : pool.has (.slot s) = true := by
  rw [Pool.has, L.std.pageShift, L.std.minShift]
  exact decide_eq_true hs

/-- A page is one segment only. -/
theorem unique {i : Nat} {s t : Seg} (hs : (i, s) ∈ placed 0 segs) (ht : (i, t) ∈ placed 0 segs) : s = t := by
  have hs' := L.placed_lt hs
  have ht' := L.placed_lt ht
  exact (Prod.mk.inj (placed_unique hs ht (Nat.le_refl i) (by simp only; omega) (Nat.le_refl i) (by simp only; omega))).2

theorem slot_unique {s t i : Nat} (hs : s < 9) (ht : t < 9) (his : i ∈ slots s) (hit : i ∈ slots t) : s = t := by
  have := Seg.chunks.inj (L.unique (L.filed s i hs his) (L.filed t i ht hit))
  omega

theorem kind_chunks {i shift : Nat} (h : (i, .chunks shift) ∈ placed 0 segs) :
    (pool.header (.page i)).kind = pool.kindOf shift := (L.pages.shown _ h).1

/-- What a page is. -/
theorem page_cases {j : Nat} (hj : j < pool.pages) :
    (∃ i n, (i, .free n) ∈ placed 0 segs ∧ i ≤ j ∧ j < i + n) ∨
      (∃ i n, (i, .run n) ∈ placed 0 segs ∧ i ≤ j ∧ j < i + n) ∨ ∃ shift, (j, .chunks shift) ∈ placed 0 segs := by
  obtain ⟨i, s, hs, hlo, hhi⟩ := placed_cover (Nat.zero_le j) (by rwa [Nat.zero_add, L.pages.count])
  cases s with
  | free n => exact Or.inl ⟨i, n, hs, hlo, hhi⟩
  | loose n => exact absurd (mem_of_placed hs) (L.settled n)
  | run n => exact Or.inr (Or.inl ⟨i, n, hs, hlo, hhi⟩)
  | chunks shift =>
    obtain rfl : i = j := by
      simp only [Seg.len] at hhi
      omega
    exact Or.inr (Or.inr ⟨shift, hs⟩)

/-- The type of a page says that it is cut into chunks. -/
theorem chunks_of_kind {j : Nat} (hj : j < pool.pages) (hk : (pool.header (.page j)).kind ≠ .page) :
    ∃ shift, (j, .chunks shift) ∈ placed 0 segs ∧ pool.kindOf shift = (pool.header (.page j)).kind := by
  rcases L.page_cases hj with ⟨i, n, hs, hlo, hhi⟩ | ⟨i, n, hs, hlo, hhi⟩ | ⟨shift, hs⟩
  · exact absurd (L.pages.kind_free hs hlo hhi) hk
  · exact absurd (L.pages.kind_run hs hlo hhi) hk
  · exact ⟨shift, hs, (L.kind_chunks hs).symm⟩

theorem slot_of {i shift : Nat} (h : (i, .chunks shift) ∈ placed 0 segs) : shift - 3 < 9 ∧ shift - 3 + 3 = shift := by
  have F := L.formed i shift h
  have := F.low
  have := F.high
  omega

theorem outside_chunks {i shift : Nat} (h : (i, .chunks shift) ∈ placed 0 segs) : Outside pool.header (.page i) :=
  Or.inr ⟨i, rfl, by rw [L.kind_chunks h]; exact pool.kindOf_ne shift⟩

theorem ring_outside {s : Nat} (hs : s < 9) : ∀ r ∈ Ref.slot s :: (slots s).map .page, Outside pool.header r := by
  intro r hr
  rcases List.mem_cons.mp hr with rfl | hr
  · exact Or.inl ⟨s, rfl⟩
  · obtain ⟨j, hj, rfl⟩ := List.mem_map.mp hr
    exact L.outside_chunks (L.filed s j hs hj)

theorem ring_has {s : Nat} (hs : s < 9) : ∀ r ∈ Ref.slot s :: (slots s).map .page, pool.has r = true := by
  intro r hr
  rcases List.mem_cons.mp hr with rfl | hr
  · exact L.has_slot hs
  · obtain ⟨j, hj, rfl⟩ := List.mem_map.mp hr
    exact L.has_page (L.filed s j hs hj)

theorem ring_nodup {s : Nat} (hs : s < 9) : (slots s).Nodup :=
  (List.nodup_map_iff page_injective).mp (List.nodup_cons.mp (L.rings s hs).nodup).2

/-- The rings of two slots have no header in common. -/
theorem ring_apart {s t : Nat} (hs : s < 9) (ht : t < 9) (hst : t ≠ s) :
    ∀ r ∈ Ref.slot t :: (slots t).map .page, r ∉ Ref.slot s :: (slots s).map .page := by
  intro r hr hr'
  rcases List.mem_cons.mp hr with rfl | hr
  · rcases List.mem_cons.mp hr' with he | hr'
    · exact hst (Ref.slot.inj he)
    · simp at hr'
  · obtain ⟨j, hj, rfl⟩ := List.mem_map.mp hr
    have hj' : j ∈ slots s := by simpa using hr'
    exact hst (L.slot_unique ht hs hj hj')

/-- The headers have changed, and of the pages that are cut into chunks only links. -/
theorem relinked (pages : Pages pool.kindOf header pool.pages segs' free') (settled : Settled segs')
    (apart : Apart segs')
    (sub : ∀ i shift, (i, .chunks shift) ∈ placed 0 segs' → (i, .chunks shift) ∈ placed 0 segs ∧
      (header (.page i)).slab = (pool.header (.page i)).slab)
    (rings : ∀ s, s < 9 → Linked header (.slot s) ((slots' s).map .page))
    (filed : ∀ s i, s < 9 → i ∈ slots' s → (i, .chunks (s + 3)) ∈ placed 0 segs')
    (away : ∀ i shift, (i, .chunks shift) ∈ placed 0 segs' → i ∉ slots' (shift - 3) →
      (header (.page i)).next = none) : Layout (pool.withHeader header) segs' free' slots' where
  std := ⟨L.std.pageShift, L.std.minShift, L.std.minSize, L.std.aligned, L.std.bound⟩
  stop := L.stop
  pages := pages
  settled := settled
  apart := apart
  rings := rings
  filed := filed
  away := away
  formed i shift h := (L.formed i shift (sub i shift h).1).changed (sub i shift h).2 fun _ _ _ => rfl
  kept i shift c h hc := by
    obtain ⟨h', hslab⟩ := sub i shift h
    have F := L.formed i shift h'
    have hle : pool.kept shift ≤ pool.chunks shift := Nat.le_of_lt (F.kept_lt L.std)
    have hbit : (pool.withHeader header).bit i shift c = pool.bit i shift c :=
      F.bit_changed L.std hslab (fun _ _ _ => rfl) (Nat.lt_of_lt_of_le hc hle)
    exact hbit.trans (L.kept i shift c h' hc)

/-- What is on both sides of a segment is in order too. -/
theorem sides {a b : List Seg} {s : Seg} (hsegs : segs = a ++ [s] ++ b) :
    (Settled a ∧ Settled b) ∧ Apart a ∧ Apart b := by
  have hsettled := L.settled
  have hapart := L.apart
  rw [hsegs, Apart, List.append_assoc, List.isChain_append] at hapart
  rw [hsegs] at hsettled
  refine ⟨⟨fun n hn => hsettled n (by simp [hn]), fun n hn => hsettled n (by simp [hn])⟩, hapart.1, ?_⟩
  exact (List.isChain_cons.mp hapart.2.1).2

/-- The segments besides one. -/
theorem others {a b : List Seg} {s : Seg} (hsegs : segs = a ++ [s] ++ b) {p : Nat × Seg} :
    p ∈ placed 0 segs ∧ p.1 ≠ total a ↔ p ∈ placed 0 a ∨ p ∈ placed (total a + s.len) b := by
  have hs := L.placed_lt (i := total a) (s := s) (by simp [hsegs])
  have hpos : p ∈ placed 0 segs → 0 < p.2.len := fun hm => (L.pages.shown _ hm).pos
  simp only [hsegs, placed_append, placed_cons, placed_nil, List.mem_append, List.mem_singleton, total_append, total,
    Nat.zero_add, Nat.add_zero] at hpos ⊢
  constructor
  · rintro ⟨(hm | rfl) | hm, hne⟩
    · exact Or.inl hm
    · exact absurd rfl hne
    · exact Or.inr hm
  · rintro (hm | hm)
    · have := placed_bounds hm
      have := hpos (Or.inl (Or.inl hm))
      exact ⟨Or.inl (Or.inl hm), by omega⟩
    · have := placed_bounds hm
      exact ⟨Or.inr hm, by omega⟩

/-- What is not free stays where it is, but for the run that is being freed. -/
theorem freed_placed {a b : List Seg} {s : Seg} (hsegs : segs = a ++ [s] ++ b) (h : Freed a s.len b segs')
    {p : Nat × Seg} (hp : p.2.isFree = false) : p ∈ placed 0 segs' ↔ p ∈ placed 0 segs ∧ p.1 ≠ total a := by
  rw [h.placed hp, L.others hsegs]

/-! ### Steps on whole runs -/

/-- What is outside of whole runs is as it was, and so are the pages that are cut into chunks. -/
theorem whole (pages : Pages pool.kindOf header pool.pages segs' free') (settled : Settled segs')
    (apart : Apart segs') (outside : ∀ r, Outside pool.header r → header r = pool.header r)
    (same : ∀ i shift, (i, .chunks shift) ∈ placed 0 segs' ↔ (i, .chunks shift) ∈ placed 0 segs) :
    Layout (pool.withHeader header) segs' free' slots := by
  refine L.relinked pages settled apart (fun i shift h => ?_) (fun s hs => ?_) (fun s i hs hi => ?_)
    fun i shift h hi => ?_
  · have h' := (same i shift).mp h
    exact ⟨h', congrArg Header.slab (outside _ (L.outside_chunks h'))⟩
  · exact (L.rings s hs).congr fun r hr => outside r (L.ring_outside hs r hr)
  · exact (same i (s + 3)).mpr (L.filed s i hs hi)
  · have h' := (same i shift).mp h
    rw [outside _ (L.outside_chunks h')]
    exact L.away i shift h' hi

theorem allocPages {k : Nat} (hk : 0 < k) :
    (∃ i n header segs' free', (i, .free n) ∈ placed 0 segs ∧ k ≤ n ∧
        allocPages pool k = some (pool.withHeader header, some i) ∧
        Layout (pool.withHeader header) segs' free' slots ∧ (∀ r, Outside pool.header r → header r = pool.header r) ∧
        ∀ p, p.2.isFree = false → (p ∈ placed 0 segs' ↔ p ∈ placed 0 segs ∨ p = (i, .run k))) ∨
      (∀ i n, (i, .free n) ∈ placed 0 segs → n < k) ∧ allocPages pool k = some (pool, none) := by
  refine (allocPages_spec L.pages hk).imp_left ?_
  rintro ⟨a, n, b, header, free', hsegs, hkn, halloc, hpages, houtside⟩
  have hlen : total (.run k :: remainder (n - k)) = n := by
    rw [total, total_remainder, Seg.len]
    omega
  have hsame : ∀ p : Nat × Seg, p.2.isFree = false →
      (p ∈ placed 0 (a ++ (.run k :: remainder (n - k)) ++ b) ↔ p ∈ placed 0 segs ∨ p = (total a, .run k)) := by
    intro p hp
    have hrest : p ∉ placed (total a + k) (remainder (n - k)) := by
      rw [remainder]
      split
      · simp
      · intro hm
        obtain rfl := List.mem_singleton.mp hm
        cases hp
    have hfree : p ≠ (total a, .free n) := by
      rintro rfl
      cases hp
    simp only [hsegs, placed_append, placed_cons, placed_nil, List.mem_append, List.mem_cons, total_append, hlen,
      Seg.len, hrest, hfree, Nat.zero_add, List.not_mem_nil, or_false]
    simp only [total, Seg.len, Nat.add_zero]
    tauto
  refine ⟨total a, n, header, _, free', by simp [hsegs], hkn, halloc, L.whole hpages ?_ ?_ houtside fun i shift => ?_,
    houtside, hsame⟩
  · obtain ⟨⟨ha, hb⟩, -⟩ := L.sides hsegs
    intro m hm
    simp only [remainder, List.mem_append, List.mem_cons, reduceCtorEq, false_or] at hm
    rcases hm with (hm | hm) | hm
    · exact ha m hm
    · split at hm <;> simp at hm
    · exact hb m hm
  · have hapart := L.apart
    rw [hsegs, Apart, List.append_assoc, List.isChain_append, List.singleton_append] at hapart
    obtain ⟨ha, hnb, -⟩ := hapart
    rw [List.append_cons, List.append_assoc]
    refine apart_around rfl ha ?_
    rw [remainder]
    split
    · exact (List.isChain_cons.mp hnb).2
    · rw [Apart, List.singleton_append, List.isChain_cons]
      exact List.isChain_cons.mp hnb
  · rw [hsame _ rfl]
    simp

theorem freeRun {i n : Nat} (h : (i, .run n) ∈ placed 0 segs) :
    ∃ header segs' free', freePages pool i n = some (pool.withHeader header) ∧
      Layout (pool.withHeader header) segs' free' slots ∧ (∀ r, Outside pool.header r → header r = pool.header r) ∧
      ∀ p, p.2.isFree = false → (p ∈ placed 0 segs' ↔ p ∈ placed 0 segs ∧ p.1 ≠ i) := by
  obtain ⟨a, b, hsegs, rfl⟩ := placed_split h
  obtain ⟨⟨ha, hb⟩, ha', hb'⟩ := L.sides hsegs
  obtain ⟨header, segs', free', hfree, hfreed, hpages, houtside⟩ := freePages_run ha hb (hsegs ▸ L.pages)
  have hsame : ∀ p : Nat × Seg, p.2.isFree = false → (p ∈ placed 0 segs' ↔ p ∈ placed 0 segs ∧ p.1 ≠ total a) :=
    fun p => L.freed_placed hsegs hfreed
  refine ⟨header, segs', free', hfree,
    L.whole hpages (hfreed.settled ha hb) (hfreed.apart ha' hb') houtside fun i shift => ?_, houtside, hsame⟩
  rw [hsame _ rfl, and_iff_left_iff_imp]
  rintro hm rfl
  exact absurd (L.unique hm h) (by simp)

/-- To free a free run once more leaves all runs as they are. -/
theorem freeAgain {i n : Nat} (h : (i, .free n) ∈ placed 0 segs) :
    ∃ header free', freePages pool i n = some (pool.withHeader header) ∧
      Layout (pool.withHeader header) segs free' slots ∧ ∀ r, Outside pool.header r → header r = pool.header r := by
  obtain ⟨a, b, hsegs, rfl⟩ := placed_split h
  obtain ⟨⟨ha, hb⟩, -⟩ := L.sides hsegs
  obtain ⟨header, segs', free', hfree, hfreed, hpages, houtside⟩ := freePages_free ha hb (hsegs ▸ L.pages)
  obtain rfl : segs' = segs := (hfreed.again (hsegs ▸ L.apart)).trans hsegs.symm
  exact ⟨header, free', hfree, L.whole hpages L.settled L.apart houtside fun _ _ => Iff.rfl, houtside⟩

/-! ### Steps on the ring of a slot -/

/-- Of the ring of a slot the links have changed, and the page `i` may have come to it or have left it. -/
theorem rehung {s i : Nat} (hs : s < 9) (hi : (i, .chunks (s + 3)) ∈ placed 0 segs)
    (pages : Pages pool.kindOf header pool.pages segs' free') (settled : Settled segs') (apart : Apart segs')
    (sub : ∀ j shift, (j, .chunks shift) ∈ placed 0 segs' → (j, .chunks shift) ∈ placed 0 segs ∧
      (header (.page j)).slab = (pool.header (.page j)).slab)
    (sup : ∀ j shift, j ≠ i → (j, .chunks shift) ∈ placed 0 segs → (j, .chunks shift) ∈ placed 0 segs')
    {l : List Nat} (ring : Linked header (.slot s) (l.map .page)) (hl : ∀ j, j ≠ i → (j ∈ l ↔ j ∈ slots s))
    (hil : i ∈ l → (i, .chunks (s + 3)) ∈ placed 0 segs') (hnext : i ∉ l → (i, .chunks (s + 3)) ∈ placed 0 segs' →
      (header (.page i)).next = none)
    (others : ∀ r, Outside pool.header r → r ∉ Ref.slot s :: (slots s).map .page → r ≠ .page i →
      header r = pool.header r) :
    Layout (pool.withHeader header) segs' free' (Function.update slots s l) := by
  have hslot : ∀ t, t < 9 → t ≠ s → i ∉ slots t := by
    intro t ht hts hit
    have := Seg.chunks.inj (L.unique (L.filed t i ht hit) hi)
    omega
  refine L.relinked pages settled apart sub (fun t ht => ?_) (fun t j ht hj => ?_) fun j shift h hj => ?_
  · by_cases hts : t = s
    · subst hts
      rwa [Function.update_self]
    · rw [Function.update_of_ne hts]
      refine (L.rings t ht).congr fun r hr => others r (L.ring_outside ht r hr) (L.ring_apart hs ht hts r hr) ?_
      rintro rfl
      exact hslot t ht hts (by simpa using hr)
  · by_cases hts : t = s
    · subst hts
      rw [Function.update_self] at hj
      by_cases hji : j = i
      · subst hji
        exact hil hj
      · exact sup j _ hji (L.filed t j ht ((hl j hji).mp hj))
    · rw [Function.update_of_ne hts] at hj
      refine sup j _ ?_ (L.filed t j ht hj)
      rintro rfl
      exact hslot t ht hts hj
  · obtain ⟨h', -⟩ := sub j shift h
    obtain ⟨hlt, hshift⟩ := L.slot_of h'
    by_cases hji : j = i
    · subst hji
      obtain rfl : shift = s + 3 := Seg.chunks.inj (L.unique h' hi)
      rw [Nat.add_sub_cancel, Function.update_self] at hj
      exact hnext hj h
    -- a page in no ring keeps its header
    · have hout : j ∉ slots (shift - 3) := by
        by_cases hts : shift - 3 = s
        · rw [hts, Function.update_self] at hj
          rw [hts]
          exact mt (hl j hji).mpr hj
        · rwa [Function.update_of_ne hts] at hj
      have hring : Ref.page j ∉ Ref.slot s :: (slots s).map .page := by
        intro hm
        have hm : j ∈ slots s := by simpa using hm
        have hfiled := Seg.chunks.inj (L.unique (L.filed s j hs hm) h')
        rw [← hfiled, Nat.add_sub_cancel] at hout
        exact hout hm
      rw [others _ (L.outside_chunks h') hring (by simpa using hji)]
      exact L.away j shift h' hout

theorem retire {s i : Nat} (hs : s < 9) (hi : i ∈ slots s) :
    ∃ header, retire pool (.page i) (pool.kindOf (s + 3)) = some (pool.withHeader header) ∧
      Layout (pool.withHeader header) segs free (Function.update slots s ((slots s).erase i)) ∧
      ∀ j, (header (.page j)).slab = (pool.header (.page j)).slab := by
  have hplaced := L.filed s i hs hi
  obtain ⟨header, hunlink, hring, hre, -⟩ := unlink_spec (L.rings s hs) (List.mem_map_of_mem hi)
    (fun r hr => by
      obtain ⟨j, hj, rfl⟩ := List.mem_map.mp hr
      rw [L.kind_chunks (L.filed s j hs hj), L.kind_chunks hplaced]) (L.ring_has hs)
  rw [← List.map_erase page_injective] at hring
  let header' := Function.update header (.page i)
    { header (.page i) with next := none, prev := none, kind := pool.kindOf (s + 3) }
  have hself : header' (.page i) = { header (.page i) with next := none, prev := none, kind := pool.kindOf (s + 3) } :=
    Function.update_self ..
  have hne : ∀ r, r ≠ .page i → header' r = header r := fun r hr => Function.update_of_ne hr ..
  have hslab : ∀ j, (header' (.page j)).slab = (pool.header (.page j)).slab := by
    intro j
    by_cases hj : j = i
    · subst hj
      rw [hself]
      exact hre.slab _
    · rw [hne _ (by simpa using hj)]
      exact hre.slab _
  have hkind : ∀ j, (header' (.page j)).kind = (pool.header (.page j)).kind := by
    intro j
    by_cases hj : j = i
    · subst hj
      rw [hself]
      exact (L.kind_chunks hplaced).symm
    · rw [hne _ (by simpa using hj)]
      exact hre.kind _ (by simp)
  have hothers : ∀ r, r ∉ Ref.slot s :: (slots s).map .page → header' r = pool.header r := by
    intro r hr
    rw [hne r, hre.others r hr]
    rintro rfl
    exact hr (List.mem_cons_of_mem _ (List.mem_map_of_mem hi))
  have hpages := L.pages.outside L.settled (fun r hr => hothers r (mt (L.ring_outside hs r) hr)) hkind
  refine ⟨header', ?_, L.rehung hs hplaced hpages L.settled L.apart (fun j _ h => ⟨h, hslab j⟩) (fun _ _ _ h => h)
    (hring.congr fun r hr => hne r ?_) (fun j hj => List.mem_erase_of_ne hj) (fun _ => hplaced) (fun _ _ => ?_)
    fun r _ hr _ => hothers r hr, hslab⟩
  · have hhas : (pool.withHeader header).has (.page i) = true := by
      rw [withHeader_has]
      exact L.has_page hplaced
    rw [Slab.retire, hunlink, Option.bind_eq_bind, Option.bind_some, Pool.modify_eq hhas, withHeader_put]
    rfl
  · rintro rfl
    have hmem : i ∈ (slots s).erase i := by simpa using hr
    exact ((L.ring_nodup hs).mem_erase_iff.mp hmem).1 rfl
  · rw [hself]

theorem relink {s i : Nat} (hs : s < 9) (hplaced : (i, .chunks (s + 3)) ∈ placed 0 segs) (hi : i ∉ slots s) :
    ∃ header, relink pool i (s + 3) (pool.kindOf (s + 3)) = some (pool.withHeader header) ∧
      Layout (pool.withHeader header) segs free (Function.update slots s (i :: slots s)) ∧
      ∀ j, (header (.page j)).slab = (pool.header (.page j)).slab := by
  have hx : Ref.page i ∉ Ref.slot s :: (slots s).map .page := by simpa using hi
  obtain ⟨first, hfirst, hmem, hring, hslab, hself, hkind, hothers⟩ := pushed_spec (L.rings s hs) hx
    (k := pool.kindOf (s + 3)) fun r hr => by
      obtain ⟨j, hj, rfl⟩ := List.mem_map.mp hr
      exact L.kind_chunks (L.filed s j hs hj)
  have hkinds : ∀ j, (pushed pool.header (.slot s) (.page i) first (pool.kindOf (s + 3)) (.page j)).kind =
      (pool.header (.page j)).kind := by
    intro j
    by_cases hj : j = i
    · subst hj
      rw [hself, L.kind_chunks hplaced]
    · exact hkind _ (by simp) (by simpa using hj)
  have hout : ∀ r, ¬Outside pool.header r →
      pushed pool.header (.slot s) (.page i) first (pool.kindOf (s + 3)) r = pool.header r := by
    intro r hr
    apply hothers
    intro hm
    rcases List.mem_cons.mp hm with rfl | hm
    · exact hr (Or.inl ⟨s, rfl⟩)
    rcases List.mem_cons.mp hm with rfl | hm
    · exact hr (L.outside_chunks hplaced)
    · exact hr (L.ring_outside hs r (List.mem_cons_of_mem _ hm))
  refine ⟨_, relink_eq (by rw [L.std.minShift, Nat.add_sub_cancel]) hfirst (L.has_page hplaced) (L.has_slot hs)
    (L.ring_has hs first hmem) (fun he => hx (he ▸ hmem)) _,
    L.rehung hs hplaced (L.pages.outside L.settled hout hkinds) L.settled L.apart
    (fun j _ h => ⟨h, hslab _⟩) (fun _ _ _ h => h) hring (fun j hj => by simp [hj]) (fun _ => hplaced)
    (fun h _ => absurd (List.mem_cons_self ..) h) (fun r _ hr hri => hothers r ?_), fun j => hslab _⟩
  simp only [List.mem_cons, not_or] at hr ⊢
  exact ⟨hr.1, hri, hr.2⟩

/-- A page whose chunks are all free becomes part of a free run. -/
theorem drop {s i : Nat} (hs : s < 9) (hi : i ∈ slots s) :
    ∃ header segs' free', freePages pool i 1 = some (pool.withHeader header) ∧
      Layout (pool.withHeader header) segs' free' (Function.update slots s ((slots s).erase i)) ∧
      (∀ j shift, (j, .chunks shift) ∈ placed 0 segs' → (header (.page j)).slab = (pool.header (.page j)).slab) ∧
      ∀ p, p.2.isFree = false → (p ∈ placed 0 segs' ↔ p ∈ placed 0 segs ∧ p.1 ≠ i) := by
  have hplaced := L.filed s i hs hi
  obtain ⟨a, b, hsegs, rfl⟩ := placed_split hplaced
  obtain ⟨⟨ha, hb⟩, ha', hb'⟩ := L.sides hsegs
  obtain ⟨header, segs', free', hfree, hfreed, hpages, hring, hsame, hothers⟩ := freePages_chunks ha hb (hsegs ▸ L.pages)
    (L.rings s hs) hi (fun j hj => by rw [L.kind_chunks (L.filed s j hs hj), L.kind_chunks hplaced]) (L.ring_has hs)
  have hiff : ∀ p : Nat × Seg, p.2.isFree = false → (p ∈ placed 0 segs' ↔ p ∈ placed 0 segs ∧ p.1 ≠ total a) :=
    fun p => L.freed_placed hsegs hfreed
  have hsub : ∀ j shift, (j, .chunks shift) ∈ placed 0 segs' → (j, .chunks shift) ∈ placed 0 segs ∧
      (header (.page j)).slab = (pool.header (.page j)).slab := by
    intro j shift h
    obtain ⟨h, hne⟩ := (hiff _ rfl).mp h
    exact ⟨h, (hsame _ ⟨L.outside_chunks h, by simpa using hne⟩).1⟩
  have hnot : total a ∉ (slots s).erase (total a) := fun hm => ((L.ring_nodup hs).mem_erase_iff.mp hm).1 rfl
  exact ⟨header, segs', free', hfree, L.rehung hs hplaced hpages (hfreed.settled ha hb) (hfreed.apart ha' hb') hsub
    (fun j shift hj h => (hiff _ rfl).mpr ⟨h, hj⟩) hring (fun j hj => List.mem_erase_of_ne hj)
    (fun h => absurd h hnot) (fun _ h => absurd rfl ((hiff _ rfl).mp h).2)
    (fun r hr hm hri => hothers r ⟨hr, hri⟩ hm), fun j shift h => (hsub j shift h).2, hiff⟩

/-! ### Writing the bit of a chunk -/

theorem flip {f : Nat → Nat → Nat} {v : Bool} (hf : Writes f v) {i shift c : Nat}
    (hplaced : (i, .chunks shift) ∈ placed 0 segs) (hc : c < pool.chunks shift) (hkept : pool.kept shift ≤ c) :
    Layout (pool.flip f i shift c) segs free slots := by
  have F := L.formed i shift hplaced
  have hheader := pool.flip_header f i shift c
  have hlinks : ∀ r, ((pool.flip f i shift c).header r).next = (pool.header r).next ∧
      ((pool.flip f i shift c).header r).prev = (pool.header r).prev ∧
      ((pool.flip f i shift c).header r).kind = (pool.header r).kind := by
    intro r
    obtain ⟨w, hw, -⟩ := hheader r
    rw [hw]
    exact ⟨rfl, rfl, rfl⟩
  have hsame : ∀ {j sh}, (j, Seg.chunks sh) ∈ placed 0 segs → j = i → sh = shift := by
    rintro j sh h rfl
    exact Seg.chunks.inj (L.unique h hplaced)
  constructor
  · exact L.std.flip f i shift c
  · exact L.stop
  · refine L.pages.outside L.settled (fun r hr => ?_) fun j => (hlinks _).2.2
    obtain ⟨w, hw, hne⟩ := hheader r
    rw [hw, hne]
    rintro rfl
    exact hr (L.outside_chunks hplaced)
  · exact L.settled
  · exact L.apart
  · exact fun s hs => Ring.congr (L.rings s hs) (fun r _ => (hlinks r).1) fun r _ => (hlinks r).2.1
  · exact L.filed
  · exact fun j sh h hj => (hlinks _).1.trans (L.away j sh h hj)
  · exact fun j sh h => F.flip hf L.std hc (L.formed j sh h) (hsame h)
  · intro j sh c' h hc'
    have G := L.formed j sh h
    have hc' : c' < pool.kept sh := hc'
    rw [F.flip_bit hf L.std hc G (Nat.lt_trans hc' (G.kept_lt L.std)) (hsame h), if_neg]
    · exact L.kept j sh c' h hc'
    · rintro ⟨rfl, rfl⟩
      obtain rfl := hsame h rfl
      omega

end Layout

end PgRest.Slab
