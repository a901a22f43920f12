import PgRest.Slab.Blocks
import PgRest.Slab.Fresh

/-! `pgrest_slab_do_alloc` gives out a block that was not in use, or fails for want of pages. -/
namespace PgRest.Slab
open Lib

theorem not_empty_iff {pool : Pool} {i shift : Nat} :
    ¬pool.Empty i shift ↔ ∃ c, pool.kept shift ≤ c ∧ c < pool.chunks shift ∧ pool.bit i shift c = true := by
  simp only [Pool.Empty, not_forall, Bool.not_eq_false]
  constructor
  · rintro ⟨c, hlo, hhi, hbit⟩
    exact ⟨c, hlo, hhi, hbit⟩
  · rintro ⟨c, hlo, hhi, hbit⟩
    exact ⟨c, hlo, hhi, hbit⟩

variable {pool : Pool} {segs segs' : List Seg} {free free' : List Nat} {slots slots' : Nat → List Nat}
  {header : Ref → Header} {word : Nat → Nat}

/-- Nothing has happened to the pages that are cut into chunks. -/
theorem Steady.whole (S : Steady pool segs free slots) (L : Layout (pool.changed header word) segs' free' slots)
    (hplaced : ∀ i shift, (i, .chunks shift) ∈ placed 0 segs' ↔ (i, .chunks shift) ∈ placed 0 segs)
    (hbits : ∀ i shift c, (i, .chunks shift) ∈ placed 0 segs → c < pool.chunks shift →
      (pool.changed header word).bit i shift c = pool.bit i shift c) :
    Steady (pool.changed header word) segs' free' slots ∧
      ∀ i shift c, Used (pool.changed header word) segs' i shift c ↔ Used pool segs i shift c := by
  refine ⟨⟨L, fun i shift h => ?_, fun i shift h => ?_⟩, fun i shift c => ⟨fun h => ?_, fun h => ?_⟩⟩
  · have h := (hplaced i shift).mp h
    rw [full_congr fun c => hbits i shift c h]
    exact S.partly i shift h
  · have h := (hplaced i shift).mp h
    rw [empty_congr fun c => hbits i shift c h]
    exact S.used i shift h
  · have h' := (hplaced i shift).mp h.placed
    exact ⟨h', h.kept, h.lt, (hbits i shift c h' h.lt).symm.trans h.bit⟩
  · exact ⟨(hplaced i shift).mpr h.placed, h.kept, h.lt, (hbits i shift c h.placed h.lt).trans h.bit⟩

/-- The bits are as before where the headers of the pages keep their `slab`. -/
theorem Layout.bits_withHeader (L : Layout pool segs free slots) {i shift c : Nat}
    (h : (i, .chunks shift) ∈ placed 0 segs) (hslab : (header (.page i)).slab = (pool.header (.page i)).slab)
    (hc : c < pool.chunks shift) : (pool.changed header pool.word).bit i shift c = pool.bit i shift c :=
  (L.formed i shift h).bit_changed L.std hslab (fun _ _ _ => rfl) hc

/-! ### Runs -/

theorem Steady.allocPages (S : Steady pool segs free slots) {k : Nat} (hk : 0 < k) :
    (∃ i header segs' free', allocPages pool k = some (pool.withHeader header, some i) ∧
        Steady (pool.withHeader header) segs' free' slots ∧
        Gains pool segs (pool.withHeader header) segs' (pool.address i) (k * 4096)) ∨
      (∀ i n, (i, .free n) ∈ placed 0 segs → n < k) ∧ allocPages pool k = some (pool, none) := by
  refine (S.toLayout.allocPages hk).imp_left ?_
  rintro ⟨i, n, header, segs', free', hfree, hkn, halloc, L, houtside, hiff⟩
  have hplaced : ∀ j shift, (j, .chunks shift) ∈ placed 0 segs' ↔ (j, .chunks shift) ∈ placed 0 segs := fun j shift => by
    rw [hiff _ rfl]
    simp
  obtain ⟨S', hused⟩ := S.whole (show Layout (pool.changed header pool.word) segs' free' slots from L) hplaced
    fun j shift c h hc => S.bits_withHeader h (congrArg Header.slab (houtside _ (S.outside_chunks h))) hc
  have hgone := S.fresh_free hfree (Nat.mul_pos (Nat.lt_of_lt_of_le hk hkn) (show 0 < 4096 by decide))
  refine ⟨i, header, segs', free', halloc, S', gains_run hgone rfl (fun j m => ?_) hused⟩
  rw [hiff _ rfl]
  simp

/-! ### Chunks -/

/-- A chunk that was free is in use, and the rings of the slots are right again. -/
theorem Steady.marked (S : Steady pool segs free slots) {i shift c : Nat} (hplaced : (i, .chunks shift) ∈ placed 0 segs)
    (hc : c < pool.chunks shift) (hkept : pool.kept shift ≤ c) (hbit : pool.bit i shift c = false)
    (L : Layout (pool.changed header word) segs free slots')
    (hbits : ∀ j sh c', (j, .chunks sh) ∈ placed 0 segs → c' < pool.chunks sh →
      (pool.changed header word).bit j sh c' = if j = i ∧ c' = c then true else pool.bit j sh c')
    (hmem : ∀ j sh, (j, .chunks sh) ∈ placed 0 segs →
      (j ∈ slots' (sh - 3) ↔ ¬(pool.changed header word).Full j sh)) :
    Steady (pool.changed header word) segs free slots' ∧
      Gains pool segs (pool.changed header word) segs (pool.address i + c <<< shift) (1 <<< shift) := by
  have hset : ∀ j sh c', (j, .chunks sh) ∈ placed 0 segs → c' < pool.chunks sh → pool.bit j sh c' = true →
      (pool.changed header word).bit j sh c' = true := by
    intro j sh c' h hc' hb
    rw [hbits j sh c' h hc', hb, ite_self]
  refine ⟨⟨L, hmem, fun j sh h => ?_⟩, gains_chunk (S.fresh_chunk hplaced hc fun h => ?_) rfl (fun _ _ => Iff.rfl)
    fun j sh c' => ⟨fun h => ?_, ?_⟩⟩
  · obtain ⟨c', hlo, hhi, hb⟩ := not_empty_iff.mp (S.used j sh h)
    exact not_empty_iff.mpr ⟨c', hlo, hhi, hset j sh c' h hhi hb⟩
  · rw [h.bit] at hbit
    cases hbit
  · have hb := h.bit
    rw [hbits j sh c' h.placed h.lt] at hb
    split at hb
    · next hji =>
      obtain ⟨rfl, rfl⟩ := hji
      exact Or.inr ⟨rfl, Seg.chunks.inj (S.unique h.placed hplaced), rfl⟩
    · exact Or.inl ⟨h.placed, h.kept, h.lt, hb⟩
  · rintro (h | ⟨rfl, rfl, rfl⟩)
    · exact ⟨h.placed, h.kept, h.lt, hset j sh c' h.placed h.lt h.bit⟩
    · exact ⟨hplaced, hkept, hc, by rw [hbits j sh c' hplaced hc, if_pos ⟨rfl, rfl⟩]⟩

theorem Steady.takeAt (S : Steady pool segs free slots) {s i c : Nat} (hs : s < 9) (hi : i ∈ slots s)
    (hc : c < pool.chunks (s + 3)) (hbit : pool.bit i (s + 3) c = false) :
    ∃ header word slots', takeAt pool i (s + 3) c = some (pool.changed header word, pool.address i + c <<< (s + 3)) ∧
      Steady (pool.changed header word) segs free slots' ∧
      Gains pool segs (pool.changed header word) segs (pool.address i + c <<< (s + 3)) (1 <<< (s + 3)) := by
  have hplaced := S.filed s i hs hi
  have F := S.formed _ _ hplaced
  have hkept : pool.kept (s + 3) ≤ c := by
    by_contra hlt
    rw [S.kept _ _ _ hplaced (Nat.lt_of_not_le hlt)] at hbit
    cases hbit
  have L := S.flip setBit_writes hplaced hc hkept
  have hbits : ∀ j sh c', (j, .chunks sh) ∈ placed 0 segs → c' < pool.chunks sh →
      (pool.flip setBit i (s + 3) c).bit j sh c' = if j = i ∧ c' = c then true else pool.bit j sh c' := by
    intro j sh c' h hc'
    refine F.flip_bit setBit_writes S.std hc (S.formed j sh h) hc' ?_
    rintro rfl
    exact Seg.chunks.inj (S.unique h hplaced)
  -- the other pages are as full as before
  have hother : ∀ j sh, (j, .chunks sh) ∈ placed 0 segs → j ≠ i →
      ((pool.flip setBit i (s + 3) c).Full j sh ↔ pool.Full j sh) := by
    intro j sh h hji
    exact forall₂_congr fun c' hc' => by rw [hbits j sh c' h hc', if_neg fun h => hji h.1]
  have hself : ∀ sh, (i, .chunks sh) ∈ placed 0 segs → sh = s + 3 := fun sh h => Seg.chunks.inj (S.unique h hplaced)
  by_cases hfull : (pool.flip setBit i (s + 3) c).Full i (s + 3)
  · obtain ⟨header, hretire, L', hslab⟩ := L.retire hs hi
    have hbits' : ∀ j sh c', (j, .chunks sh) ∈ placed 0 segs → c' < pool.chunks sh →
        ((pool.flip setBit i (s + 3) c).withHeader header).bit j sh c' = (pool.flip setBit i (s + 3) c).bit j sh c' :=
      fun j sh c' h hc' => L.bits_withHeader h (hslab j) hc'
    have hfull' : ∀ j sh, (j, .chunks sh) ∈ placed 0 segs →
        (((pool.flip setBit i (s + 3) c).withHeader header).Full j sh ↔ (pool.flip setBit i (s + 3) c).Full j sh) :=
      fun j sh h => forall₂_congr fun c' hc' => by rw [hbits' j sh c' h hc']
    refine ⟨header, (pool.flip setBit i (s + 3) c).word, _, ?_, S.marked hplaced hc hkept hbit L'
      (fun j sh c' h hc' => (hbits' j sh c' h hc').trans (hbits j sh c' h hc')) fun j sh h => ?_⟩
    · rw [Slab.takeAt, if_pos hfull]
      exact congrArg (Option.map _) hretire
    · refine Iff.trans ?_ (not_congr (hfull' j sh h)).symm
      by_cases hji : j = i
      · subst hji
        obtain rfl := hself sh h
        rw [Nat.add_sub_cancel, Function.update_self]
        exact iff_of_false (fun hm => ((S.ring_nodup hs).mem_erase_iff.mp hm).1 rfl) (not_not_intro hfull)
      · rw [hother j sh h hji, ← S.partly j sh h]
        by_cases hts : sh - 3 = s
        · rw [hts, Function.update_self, List.mem_erase_of_ne hji]
        · rw [Function.update_of_ne hts]
  · refine ⟨_, _, slots, ?_, S.marked hplaced hc hkept hbit L hbits fun j sh h => ?_⟩
    · rw [Slab.takeAt, if_neg hfull]
      rfl
    · by_cases hji : j = i
      · subst hji
        obtain rfl := hself sh h
        rw [Nat.add_sub_cancel]
        exact iff_of_true hi hfull
      · exact (S.partly j sh h).trans (not_congr (hother j sh h hji)).symm

theorem Steady.newChunk (S : Steady pool segs free slots) {s : Nat} (hs : s < 9) (hempty : slots s = []) :
    (∃ header word segs' free' slots' p, newChunk pool (s + 3) s = some (pool.changed header word, some p) ∧
        Steady (pool.changed header word) segs' free' slots' ∧
        Gains pool segs (pool.changed header word) segs' p (1 <<< (s + 3))) ∨
      (∀ i n, (i, .free n) ∉ placed 0 segs) ∧ newChunk pool (s + 3) s = some (pool, none) := by
  rcases S.toLayout.allocPages Nat.one_pos with
    ⟨i, n, header, segs₁, free₁, hfree, hn, halloc, L₁, houtside, hiff⟩ | ⟨hnone, halloc⟩
  · have hslab : ∀ j sh, (j, .chunks sh) ∈ placed 0 segs → (header (.page j)).slab = (pool.header (.page j)).slab :=
      fun j sh h => congrArg Header.slab (houtside _ (S.outside_chunks h))
    have hrun : (i, .run 1) ∈ placed 0 segs₁ := (hiff _ rfl).mpr (Or.inr rfl)
    obtain ⟨slab, word, hnew, C⟩ := newChunk_some L₁.std (show 3 ≤ s + 3 by omega) (by omega) halloc (L₁.has_page hrun)
      (L₁.has_slot hs)
    obtain ⟨segs₂, L₂, hiff₂⟩ := L₁.cut hs hrun hempty C
    -- what was in use was not the page `i`
    have hne : ∀ {j : Nat} {t : Seg}, (j, t) ∈ placed 0 segs → t.isFree = false → j ≠ i := by
      rintro j t h ht rfl
      rw [S.unique h hfree] at ht
      cases ht
    have hplaced : ∀ j sh, (j, .chunks sh) ∈ placed 0 segs₂ ↔ (j, .chunks sh) ∈ placed 0 segs ∨ j = i ∧ sh = s + 3 := by
      intro j sh
      have hj : (j, .chunks sh) ∈ placed 0 segs → j ≠ i := fun h => hne h rfl
      rw [hiff₂ _ rfl, hiff _ rfl]
      simp only [Prod.mk.injEq, reduceCtorEq, and_false, or_false, Seg.chunks.injEq]
      tauto
    have hbits : ∀ j sh c, (j, .chunks sh) ∈ placed 0 segs → c < pool.chunks sh →
        (pool.changed (cutHeader header i s slab (pool.kindOf (s + 3))) word).bit j sh c = pool.bit j sh c := by
      intro j sh c h hc
      have F := S.formed j sh h
      have hj := hne h rfl
      refine F.bit_changed S.std ?_ (fun hk n hn => C.others j hj n ?_) hc
      · rw [cutHeader_of_ne (by simpa using hj) (by simp)]
        exact hslab j sh h
      · have := (F.word_lt S.std hk hc).2
        omega
    have hnewbits : ∀ c, c < pool.chunks (s + 3) →
        (pool.changed (cutHeader header i s slab (pool.kindOf (s + 3))) word).bit i (s + 3) c =
          decide (c ≤ pool.kept (s + 3)) := C.bits
    have hkept := C.formed.kept_succ_lt L₂.std
    change pool.kept (s + 3) + 1 < pool.chunks (s + 3) at hkept
    refine Or.inl ⟨cutHeader header i s slab (pool.kindOf (s + 3)), word, segs₂, free₁, Function.update slots s [i],
      pool.address i + pool.kept (s + 3) <<< (s + 3), hnew, ⟨L₂, fun j sh h => ?_, fun j sh h => ?_⟩,
      gains_chunk (S.fresh_free hfree ?_) rfl (fun j m => ?_) fun j sh c => ⟨fun h => ?_, ?_⟩⟩
    · rcases (hplaced j sh).mp h with h | ⟨rfl, rfl⟩
      · have hfull : (pool.changed (cutHeader header i s slab (pool.kindOf (s + 3))) word).Full j sh ↔ pool.Full j sh :=
          full_congr fun c => hbits j sh c h
        refine Iff.trans ?_ ((S.partly j sh h).trans (not_congr hfull).symm)
        by_cases hts : sh - 3 = s
        · rw [hts, Function.update_self, hempty, List.mem_singleton]
          exact iff_of_false (hne h rfl) (List.not_mem_nil)
        · rw [Function.update_of_ne hts]
      · rw [Nat.add_sub_cancel, Function.update_self]
        refine iff_of_true (List.mem_singleton_self _) fun hfull => ?_
        have hb := decide_eq_true_eq.mp ((hnewbits _ hkept).symm.trans (hfull _ hkept))
        omega
    · rcases (hplaced j sh).mp h with h | ⟨rfl, rfl⟩
      · intro hempty
        exact S.used j sh h ((empty_congr fun c => hbits j sh c h).mp hempty)
      · refine not_empty_iff.mpr ⟨pool.kept (s + 3), Nat.le_refl _, Nat.lt_of_succ_lt hkept, ?_⟩
        exact (hnewbits _ (Nat.lt_of_succ_lt hkept)).trans (decide_eq_true (Nat.le_refl _))
    · have hfits := S.std.chunk_fits (show s + 3 < 12 by omega) (Nat.lt_of_succ_lt hkept)
      have := shift_pos (s + 3)
      generalize pool.kept (s + 3) <<< (s + 3) = d at hfits
      show d < n * 4096
      omega
    · have hj : (j, .run m) ∈ placed 0 segs → j ≠ i := fun h => hne h rfl
      rw [hiff₂ _ rfl, hiff _ rfl]
      simp only [Prod.mk.injEq, reduceCtorEq, and_false, or_false, Seg.run.injEq]
      tauto
    · rcases (hplaced j sh).mp h.placed with h' | ⟨rfl, rfl⟩
      · exact Or.inl ⟨h', h.kept, h.lt, (hbits j sh c h' h.lt).symm.trans h.bit⟩
      · have hb := h.bit
        rw [hnewbits c h.lt, decide_eq_true_eq] at hb
        exact Or.inr ⟨rfl, rfl, Nat.le_antisymm hb h.kept⟩
    · rintro (h | ⟨rfl, rfl, rfl⟩)
      · exact ⟨(hplaced j sh).mpr (Or.inl h.placed), h.kept, h.lt, (hbits j sh c h.placed h.lt).trans h.bit⟩
      · exact ⟨(hplaced _ _).mpr (Or.inr ⟨rfl, rfl⟩), Nat.le_refl _, Nat.lt_of_succ_lt hkept,
          (hnewbits _ (Nat.lt_of_succ_lt hkept)).trans (decide_eq_true (Nat.le_refl _))⟩
  · refine Or.inr ⟨fun i n h => ?_, ?_⟩
    · have := hnone i n h
      have := (S.placed_lt h).2
      simp only [Seg.len] at this
      omega
    · rw [Slab.newChunk, halloc]
      rfl

/-! ### `pgrest_slab_do_alloc` -/

/-- The size of chunks, as a shift, that a request is given. -/
def Pool.shiftFor (pool : Pool) (size : Nat) : Nat :=
  if size > pool.minSize then shiftOf (size - 1) 1 else pool.minShift

theorem shiftOf_eq (s shift : Nat) : shiftOf s shift = shift + s.log2 := by
  induction s, shift using shiftOf.induct with
  | case1 s shift h =>
    have hs : ¬2 ≤ s := by
      rw [Nat.shiftRight_eq_div_pow] at h
      omega
    rw [shiftOf, if_pos h, Nat.log2_def, if_neg hs, Nat.add_zero]
  | case2 s shift h ih =>
    have hs : 2 ≤ s := by
      rw [Nat.shiftRight_eq_div_pow] at h
      omega
    rw [shiftOf, if_neg h, ih, Nat.log2_def s, if_pos hs, Nat.add_assoc, Nat.add_comm 1]
    rfl

/-- A chunk is as large as what is asked for. -/
theorem Pool.Standard.shiftFor {pool : Pool} (std : pool.Standard) {size : Nat} (h : size ≤ 2048) :
    3 ≤ pool.shiftFor size ∧ pool.shiftFor size < 12 ∧ size ≤ 1 <<< pool.shiftFor size := by
  rw [Pool.shiftFor, std.minSize, std.minShift]
  split
  · next hsize =>
    have hne : size - 1 ≠ 0 := by omega
    rw [shiftOf_eq, Nat.shiftLeft_eq, Nat.one_mul, Nat.add_comm]
    have hlow : 2 ^ (size - 1).log2 ≤ size - 1 := Nat.log2_self_le hne
    have hhigh : size - 1 < 2 ^ ((size - 1).log2 + 1) := Nat.lt_log2_self
    have hthree : 3 ≤ (size - 1).log2 := (Nat.le_log2 hne).mpr (by omega)
    have heleven : (size - 1).log2 < 11 := (Nat.log2_lt hne).mpr (by omega)
    omega
  · next hsize => exact ⟨Nat.le_refl 3, by decide, Nat.le_of_not_lt hsize⟩

/-- **A request is given a block that was not in use**, and that is as large as what is asked for. Where
it is not, no run of free pages is long enough, or the slot has no page and no page is free. -/
theorem Steady.doAlloc (S : Steady pool segs free slots) (size : Nat) :
    (∃ header word segs' free' slots' p l, doAlloc pool size = some (pool.changed header word, some p) ∧
        Steady (pool.changed header word) segs' free' slots' ∧
        Gains pool segs (pool.changed header word) segs' p l ∧ size ≤ l) ∨
      doAlloc pool size = some (pool, none) ∧
        (2048 < size → ∀ i n, (i, .free n) ∈ placed 0 segs → n * 4096 < size) ∧
        (size ≤ 2048 → (∀ i n, (i, .free n) ∉ placed 0 segs) ∧ slots (pool.shiftFor size - 3) = []) := by
  by_cases hbig : size > 2048
  · have hmax : size > pool.maxSize := by rwa [S.std.maxSize]
    obtain ⟨k, hk⟩ : ∃ k, k = size >>> pool.pageShift + if size % pool.pagesize ≠ 0 then 1 else 0 := ⟨_, rfl⟩
    have hsize : size ≤ k * 4096 ∧ ∀ n, n < k → n * 4096 < size := by
      rw [hk, S.std.pageShift, S.std.pagesize, Nat.shiftRight_eq_div_pow]
      split
      · exact ⟨by omega, fun n hn => by omega⟩
      · exact ⟨by omega, fun n hn => by omega⟩
    have hcall : Slab.doAlloc pool size = (Slab.allocPages pool k).bind fun r => some (r.1, r.2.map r.1.address) := by
      rw [Slab.doAlloc, if_pos hmax, ← hk]
      rfl
    rcases S.allocPages (show 0 < k by omega) with ⟨i, header, segs', free', halloc, S', hgains⟩ | ⟨hnone, halloc⟩
    · exact Or.inl ⟨header, pool.word, segs', free', slots, _, _, by rw [hcall, halloc]; rfl, S', hgains, hsize.1⟩
    · exact Or.inr ⟨by rw [hcall, halloc]; rfl, fun _ i n h => hsize.2 n (hnone i n h), fun h => absurd hbig (by omega)⟩
  · have hmax : ¬size > pool.maxSize := by rwa [S.std.maxSize]
    obtain ⟨hlow, hhigh, hfits⟩ := S.std.shiftFor (Nat.le_of_not_lt hbig)
    obtain ⟨s, hs⟩ : ∃ s, pool.shiftFor size = s + 3 := ⟨_, (Nat.sub_add_cancel hlow).symm⟩
    rw [hs] at hhigh hfits ⊢
    have hs9 : s < 9 := by omega
    have hslot : s + 3 - pool.minShift = s := by rw [S.std.minShift, Nat.add_sub_cancel]
    have hring := S.rings s hs9
    cases hl : slots s with
    | nil =>
      rw [hl] at hring
      have hnext : (pool.header (.slot s)).next = some (.slot s) := by simpa using hring.fore
      have hcall : Slab.doAlloc pool size = Slab.newChunk pool (s + 3) s := by
        rw [Slab.doAlloc, if_neg hmax]
        simp only [show (if size > pool.minSize then shiftOf (size - 1) 1 else pool.minShift) = s + 3 from hs, hslot,
          Pool.get_eq (S.has_slot hs9), Option.bind_eq_bind, Option.bind_some, hnext, ne_eq, not_true_eq_false, if_false]
      rw [hcall]
      refine (S.newChunk hs9 hl).imp ?_ fun h => ?_
      · rintro ⟨header, word, segs', free', slots', p, hnew, S', hgains⟩
        exact ⟨header, word, segs', free', slots', p, _, hnew, S', hgains, hfits⟩
      · exact ⟨h.2, fun h => absurd h hbig, fun _ => ⟨h.1, by rw [Nat.add_sub_cancel, hl]⟩⟩
    | cons i l =>
      have hi : i ∈ slots s := by simp [hl]
      have hplaced := S.filed s i hs9 hi
      rw [hl] at hring
      obtain ⟨hnext, -⟩ := List.isChain_cons_cons.mp hring.fore
      obtain ⟨-, q, -, hq, -, -, -, hqi, -⟩ := Ring.unlink hring (List.mem_cons_self ..)
      have hne : (pool.header (.page i)).next ≠ some (.page i) := fun he => hqi (Option.some.inj (hq.symm.trans he))
      have hnext : (pool.header (.slot s)).next = some (.page i) := hnext
      have hnotfull := (S.partly _ _ hplaced).mp (by rwa [Nat.add_sub_cancel])
      obtain ⟨c, hc, hbit, htake⟩ := takeChunk_spec S.std (S.formed _ _ hplaced) (S.has_page hplaced) hnotfull
      obtain ⟨header, word, slots', htaken, S', hgains⟩ := S.takeAt hs9 hi hc hbit
      refine Or.inl ⟨header, word, segs, free, slots', _, _, ?_, S', hgains, hfits⟩
      rw [Slab.doAlloc, if_neg hmax]
      simp only [show (if size > pool.minSize then shiftOf (size - 1) 1 else pool.minShift) = s + 3 from hs, hslot,
        Pool.get_eq (S.has_slot hs9), Option.bind_eq_bind, Option.bind_some, hnext, Pool.get_eq (S.has_page hplaced),
        ne_eq, hne, not_false_eq_true, if_true, htake, htaken, Option.map_some]
      rfl

end PgRest.Slab
