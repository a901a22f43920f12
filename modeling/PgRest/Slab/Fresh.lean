import PgRest.Slab.Layout

/-! A new page for a slot: one page of a free run is cut into chunks, of which the first that the
bitmap does not take up is in use. -/
namespace PgRest.Slab
open Lib

/-! ### The bitmap of a new page -/

theorem clearWords_spec (bitmap i n : Nat) (pool : Pool) :
    ∃ word, clearWords bitmap i n pool = pool.changed pool.header word ∧
      (∀ j, i ≤ j → j < i + n → word (bitmap + j * 8) = 0) ∧
      ∀ a, (∀ j, i ≤ j → j < i + n → a ≠ bitmap + j * 8) → word a = pool.word a := by
  induction n generalizing i pool with
  | zero => exact ⟨pool.word, rfl, fun j hlo hhi => by omega, fun _ _ => rfl⟩
  | succ n ih =>
    obtain ⟨word, heq, hzero, hsame⟩ := ih (i + 1) (pool.putWord (bitmap + i * 8) 0)
    refine ⟨word, heq, fun j hlo hhi => ?_, fun a ha => ?_⟩
    · rcases Nat.eq_or_lt_of_le hlo with rfl | hlo
      · rw [hsame _ fun j hj _ => by omega]
        exact Function.update_self ..
      · exact hzero j hlo (by omega)
    · rw [hsame a fun j hj hj' => ha j (by omega) (by omega)]
      exact Function.update_of_ne (ha i (Nat.le_refl i) (by omega)) ..

/-- The headers when the page `i` is the only one in the ring of a slot. -/
def cutHeader (header : Ref → Header) (i slot slab : Nat) (kind : Kind) : Ref → Header :=
  Function.update (Function.update header (.page i)
    { slab := slab, next := some (.slot slot), prev := some (.slot slot), kind := kind })
    (.slot slot) { header (.slot slot) with next := some (.page i) }

section
variable {header : Ref → Header} {i slot slab : Nat} {kind : Kind}

theorem cutHeader_page : cutHeader header i slot slab kind (.page i) =
    { slab := slab, next := some (.slot slot), prev := some (.slot slot), kind := kind } := by
  rw [cutHeader, Function.update_of_ne (by simp), Function.update_self]

theorem cutHeader_slot : (cutHeader header i slot slab kind (.slot slot)).next = some (.page i) := by
  rw [cutHeader, Function.update_self]

theorem cutHeader_of_ne {r : Ref} (hi : r ≠ .page i) (hs : r ≠ .slot slot) :
    cutHeader header i slot slab kind r = header r := by
  rw [cutHeader, Function.update_of_ne hs, Function.update_of_ne hi]

end

/-- The page `i` has come to be cut, with one chunk in use besides its bitmap. -/
structure Cut (pool : Pool) (i shift slab : Nat) (word : Nat → Nat) (slot : Nat) : Prop where
  formed : Formed (pool.changed (cutHeader pool.header i slot slab (pool.kindOf shift)) word) i shift
  bits : ∀ c, c < pool.chunks shift →
    (pool.changed (cutHeader pool.header i slot slab (pool.kindOf shift)) word).bit i shift c =
      decide (c ≤ pool.kept shift)
  others : ∀ j, j ≠ i → ∀ n, n < 8 → word (pool.address j + n * 8) = pool.word (pool.address j + n * 8)

section
variable {pool : Pool} {i shift slot : Nat}

theorem cut_small (i slot : Nat) (std : pool.Standard) (hlow : 3 ≤ shift) (hk : pool.kindOf shift = .small) :
    ∃ word, clearWords (pool.address i) 1 (pool.map shift - 1)
        (pool.putWord (pool.address i) (2 <<< pool.reserved shift - 1)) = pool.changed pool.header word ∧
      Cut pool i shift shift word slot := by
  obtain ⟨word, heq, hzero, hsame⟩ := clearWords_spec (pool.address i) 1 (pool.map shift - 1)
    (pool.putWord (pool.address i) (2 <<< pool.reserved shift - 1))
  have hnumbers := std.small_numbers hlow (std.kindOf_small.mp hk)
  have hmap : 0 < pool.map shift ∧ pool.map shift ≤ 8 := by omega
  have hfirst : word (pool.address i) = 2 <<< pool.reserved shift - 1 := by
    rw [hsame _ fun j hj _ => by omega]
    exact Function.update_self ..
  have hkind : (pool.changed (cutHeader pool.header i slot shift (pool.kindOf shift)) word).kindOf shift = .small := hk
  have hhigh : shift < 12 := by
    have := std.kindOf_small.mp hk
    omega
  refine ⟨word, heq, ⟨hlow, hhigh, fun _ => ⟨?_, fun n hn => ?_⟩, fun h => ?_, fun h => ?_⟩, fun c hc => ?_,
    fun j hj n hn => ?_⟩
  · show (cutHeader pool.header i slot shift (pool.kindOf shift) (.page i)).slab &&& shiftMask = shift
    rw [cutHeader_page]
    exact shift_and_shiftMask hhigh
  · have hn : n < pool.map shift := hn
    show word (pool.address i + n * 8) ≤ busy
    rcases Nat.eq_zero_or_pos n with rfl | hpos
    · rw [Nat.zero_mul, Nat.add_zero, hfirst]
      rcases hnumbers with ⟨-, -, hr, -⟩ | ⟨-, -, hr, -⟩ | ⟨-, -, hr, -⟩
      all_goals rw [hr]; decide
    · rw [hzero n hpos (by omega)]
      exact Nat.zero_le _
  · rw [hkind] at h
    cases h
  · rw [hkind] at h
    cases h
  · rw [Pool.bit_small hkind, Pool.kept_small hk]
    show (word (pool.address i + c / 64 * 8)).testBit (c % 64) = _
    have hr : pool.reserved shift < 64 := by omega
    rcases Nat.lt_or_ge c 64 with hc64 | hc64
    · rw [Nat.div_eq_of_lt hc64, Nat.mod_eq_of_lt hc64, Nat.zero_mul, Nat.add_zero, hfirst, testBit_upTo]
    · rw [hzero (c / 64) (by omega) (by omega), Nat.zero_testBit, decide_eq_false (by omega)]
  · rw [hsame _ fun k _ hk => by rw [std.address, std.address]; omega]
    refine Function.update_of_ne ?_ ..
    rw [std.address, std.address]
    omega

theorem cut_exact (std : pool.Standard) (hk : pool.kindOf shift = .exact) : Cut pool i shift 1 pool.word slot := by
  obtain rfl := std.kindOf_exact.mp hk
  have hkind : (pool.changed (cutHeader pool.header i slot 1 (pool.kindOf 6)) pool.word).kindOf 6 = .exact := hk
  have hslab : ((pool.changed (cutHeader pool.header i slot 1 (pool.kindOf 6)) pool.word).header (.page i)).slab = 1 :=
    congrArg Header.slab cutHeader_page
  refine ⟨⟨by decide, by decide, fun h => ?_, fun _ => ?_, fun h => ?_⟩, fun c _ => ?_, fun _ _ _ _ => rfl⟩
  · rw [hkind] at h
    cases h
  · rw [hslab]
    decide
  · rw [hkind] at h
    cases h
  · rw [Pool.bit_exact hkind, hslab, Pool.kept_zero (by simp [hk])]
    exact (testBit_one_shift 0 c).trans (decide_eq_decide.mpr Nat.le_zero.symm)

theorem cut_big (std : pool.Standard) (hhigh : shift < 12) (hk : pool.kindOf shift = .big) :
    Cut pool i shift (1 <<< mapShift ||| shift) pool.word slot := by
  have hlow := std.kindOf_big.mp hk
  have hnumber := std.big_number hlow hhigh
  let header := cutHeader pool.header i slot (1 <<< mapShift ||| shift) (pool.kindOf shift)
  have hkind : (pool.changed header pool.word).kindOf shift = .big := hk
  have hslab : ((pool.changed header pool.word).header (.page i)).slab = 1 <<< mapShift ||| shift :=
    congrArg Header.slab cutHeader_page
  have hbit : ∀ c, (1 <<< mapShift ||| shift).testBit (mapShift + c) = decide (c = 0) := by
    intro c
    have hlt : shift < 2 ^ (mapShift + c) :=
      Nat.lt_of_lt_of_le (show shift < 2 ^ 4 by omega) (Nat.pow_le_pow_right (by decide) (by rw [mapShift]; omega))
    rw [Nat.testBit_or, testBit_one_shift, Nat.testBit_lt_two_pow hlt, Bool.or_false]
    exact decide_eq_decide.mpr (by omega)
  refine ⟨⟨by omega, hhigh, fun h => ?_, fun h => ?_, fun _ => ?_⟩, fun c _ => ?_, fun _ _ _ _ => rfl⟩
  · exact absurd (hkind.symm.trans h) (by simp)
  · exact absurd (hkind.symm.trans h) (by simp)
  · rw [hslab]
    refine ⟨?_, ?_, fun c hc => ?_⟩
    · refine (and_shiftMask fun j hj => ?_).trans (shift_and_shiftMask hhigh)
      rw [Nat.testBit_or, testBit_one_shift, decide_eq_false (by rw [mapShift]; omega), Bool.false_or]
    · rw [Nat.or_comm]
      exact setBit_le (show shift ≤ busy by rw [busy]; omega) (by decide)
    · have hc : pool.chunks shift ≤ c := hc
      rw [hbit, decide_eq_false (by omega)]
  · rw [Pool.bit_big hkind, hslab, hbit, Pool.kept_zero (by simp [hk])]
    exact decide_eq_decide.mpr Nat.le_zero.symm

theorem link_cut (hi : pool.has (.page i) = true) (hs : pool.has (.slot slot) = true) (slab : Nat) (kind : Kind)
    (word : Nat → Nat) :
    ∃ pool', ((pool.changed pool.header word).modify (.page i) fun _ =>
        { slab := slab, next := some (.slot slot), prev := some (.slot slot), kind := kind }) = some pool' ∧
      (pool'.modify (.slot slot) fun h => { h with next := some (.page i) }) =
        some (pool.changed (cutHeader pool.header i slot slab kind) word) := by
  have hhas : (pool.changed pool.header word).has = pool.has := by
    funext r
    cases r <;> rfl
  refine ⟨_, Pool.modify_eq (by rwa [hhas]) _, ?_⟩
  rw [Pool.modify_eq (by rwa [put_has, hhas]), put_of_ne _ _ _ (by simp)]
  rfl

/-- What `pgrest_slab_do_alloc` makes of a page that it takes for a slot. -/
theorem newChunk_some {pool₁ : Pool} (std : pool₁.Standard) (hlow : 3 ≤ shift) (hhigh : shift < 12)
    (halloc : allocPages pool 1 = some (pool₁, some i)) (hi : pool₁.has (.page i) = true)
    (hs : pool₁.has (.slot slot) = true) :
    ∃ slab word, newChunk pool shift slot =
        some (pool₁.changed (cutHeader pool₁.header i slot slab (pool₁.kindOf shift)) word,
          some (pool₁.address i + pool₁.kept shift <<< shift)) ∧
      Cut pool₁ i shift slab word slot := by
  cases hk : pool₁.kindOf shift with
  | page => exact absurd hk (pool₁.kindOf_ne shift)
  | small =>
    obtain ⟨word, hclear, hcut⟩ := cut_small i slot std hlow hk
    obtain ⟨pool₂, hpage, hslot⟩ := link_cut hi hs shift .small word
    refine ⟨shift, word, ?_, hcut⟩
    have hoffset : 1 <<< shift * pool₁.reserved shift = pool₁.kept shift <<< shift := by
      rw [Pool.kept_small hk, Nat.shiftLeft_eq, Nat.shiftLeft_eq, Nat.one_mul, Nat.mul_comm]
    have hmap : (pool₁.putWord (pool₁.address i) (2 <<< pool₁.reserved shift - 1)).map shift = pool₁.map shift := rfl
    simp only [newChunk, halloc, hk, Option.bind_eq_bind, Option.bind_some, hmap, hclear, hpage, hslot, hoffset]
    rfl
  | exact =>
    obtain ⟨pool₂, hpage, hslot⟩ := link_cut hi hs 1 .exact pool₁.word
    refine ⟨1, pool₁.word, ?_, cut_exact std hk⟩
    have hoffset : pool₁.kept shift <<< shift = 0 := by rw [Pool.kept_zero (by simp [hk]), Nat.zero_shiftLeft]
    have hpage : pool₁.modify (.page i) _ = some pool₂ := hpage
    simp only [newChunk, halloc, hk, Option.bind_eq_bind, Option.bind_some, hpage, hslot, hoffset]
    rfl
  | big =>
    obtain ⟨pool₂, hpage, hslot⟩ := link_cut hi hs (1 <<< mapShift ||| shift) .big pool₁.word
    refine ⟨_, pool₁.word, ?_, cut_big std hhigh hk⟩
    have hoffset : pool₁.kept shift <<< shift = 0 := by rw [Pool.kept_zero (by simp [hk]), Nat.zero_shiftLeft]
    have hpage : pool₁.modify (.page i) _ = some pool₂ := hpage
    simp only [newChunk, halloc, hk, Option.bind_eq_bind, Option.bind_some, hpage, hslot, hoffset]
    rfl

end

/-! ### The page among the others -/

theorem Pages.cut {kindOf : Nat → Kind} {header header' : Ref → Header} {pages : Nat} {a b : List Seg} {free : List Nat}
    {shift : Nat} (P : Pages kindOf header pages (a ++ [.run 1] ++ b) free)
    (hkind : (header' (.page (total a))).kind = kindOf shift) (hne : kindOf shift ≠ .page)
    (hsame : ∀ r, r ≠ .page (total a) → (∀ s, r ≠ .slot s) → header' r = header r) :
    Pages kindOf header' pages (a ++ [.chunks shift] ++ b) free where
  count := by
    rw [← P.count]
    simp [total, Seg.len]
  shown := by
    refine P.shown.replace (by simp [total, Seg.len]) (fun j hj _ => Keeps.of_eq (hsame _ ?_ (by simp))) fun p hp => ?_
    · simp only [total, Seg.len] at hj
      simp only [ne_eq, Ref.page.injEq]
      omega
    · obtain rfl := List.mem_singleton.mp hp
      exact ⟨hkind, fun he => hne (hkind.symm.trans he)⟩
  ring := by
    refine P.ring.congr fun r hr => hsame r ?_ ?_
    · rintro rfl
      have hmem : total a ∈ free := by simpa using hr
      have hplaced : (total a, .run 1) ∈ placed 0 (a ++ [.run 1] ++ b) := by simp
      have := P.eq_head hplaced hmem (Nat.le_refl _) (by simp [Seg.len])
      exact absurd this.2 (by simp [Seg.isFree])
    · rintro s rfl
      simp at hr
  runs := by simpa [Seg.len] using P.runs

variable {pool : Pool} {segs : List Seg} {free : List Nat} {slots : Nat → List Nat}

/-- The page is the only one in the ring of its slot. -/
theorem Layout.cut (L : Layout pool segs free slots) {i s slab : Nat} {word : Nat → Nat} (hs : s < 9)
    (hi : (i, .run 1) ∈ placed 0 segs) (hempty : slots s = []) (C : Cut pool i (s + 3) slab word s) :
    ∃ segs', Layout (pool.changed (cutHeader pool.header i s slab (pool.kindOf (s + 3))) word) segs' free
        (Function.update slots s [i]) ∧
      ∀ p, p.2.isFree = false → (p ∈ placed 0 segs' ↔ (p ∈ placed 0 segs ∧ p.1 ≠ i) ∨ p = (i, .chunks (s + 3))) := by
  obtain ⟨a, b, hsegs, rfl⟩ := placed_split hi
  obtain ⟨⟨ha, hb⟩, ha', hb'⟩ := L.sides hsegs
  let header := cutHeader pool.header (total a) s slab (pool.kindOf (s + 3))
  have hiff : ∀ p : Nat × Seg, p ∈ placed 0 (a ++ [.chunks (s + 3)] ++ b) ↔
      (p ∈ placed 0 segs ∧ p.1 ≠ total a) ∨ p = (total a, .chunks (s + 3)) := by
    intro p
    rw [L.others hsegs]
    simp only [placed_append, placed_cons, placed_nil, List.mem_append, List.mem_singleton, total_append, total,
      Seg.len, Nat.zero_add, Nat.add_zero]
    tauto
  -- the page was in no ring, and the other pages that are cut stay as they are
  have hpage : (pool.header (.page (total a))).kind = .page := (L.pages.shown _ hi).2.2.2.1
  have hsame : ∀ r, r ≠ .page (total a) → r ≠ .slot s → header r = pool.header r := fun r => cutHeader_of_ne
  have hold : ∀ {j shift}, (j, .chunks shift) ∈ placed 0 (a ++ [.chunks (s + 3)] ++ b) → j ≠ total a →
      (j, .chunks shift) ∈ placed 0 segs ∧ header (.page j) = pool.header (.page j) := by
    intro j shift h hj
    rcases (hiff _).mp h with h | h
    · exact ⟨h.1, hsame _ (by simpa using hj) (by simp)⟩
    · exact absurd (Prod.mk.inj h).1 hj
  have hnew : ∀ {shift}, (total a, .chunks shift) ∈ placed 0 (a ++ [.chunks (s + 3)] ++ b) → shift = s + 3 := by
    intro shift h
    rcases (hiff _).mp h with h | h
    · exact absurd rfl h.2
    · exact Seg.chunks.inj (Prod.mk.inj h).2
  have hwords : ∀ {j shift}, Formed pool j shift → j ≠ total a → pool.kindOf shift = .small → ∀ n, n < pool.map shift →
      word (pool.address j + n * 8) = pool.word (pool.address j + n * 8) := by
    intro j shift F hj hk n hn
    have := (F.word_lt L.std hk (Nat.lt_of_le_of_lt (Nat.zero_le _) (F.kept_lt L.std))).2
    exact C.others j hj n (by omega)
  have hstd : (pool.changed header word).Standard :=
    ⟨L.std.pageShift, L.std.minShift, L.std.minSize, L.std.aligned, L.std.bound⟩
  refine ⟨a ++ [.chunks (s + 3)] ++ b, ?_, fun p _ => hiff p⟩
  constructor
  · exact hstd
  · exact L.stop
  · refine Pages.cut (hsegs ▸ L.pages) (congrArg Header.kind cutHeader_page) (pool.kindOf_ne _) fun r hr hrs => ?_
    exact hsame r hr (hrs s)
  · intro n hn
    simp only [List.mem_append, List.mem_singleton, reduceCtorEq, or_false] at hn
    exact hn.elim (ha n) (hb n)
  · exact apart_around rfl ha' hb'
  · intro t ht
    show Linked header (.slot t) _
    by_cases hts : t = s
    · subst hts
      rw [Function.update_self]
      have hslot : (header (.slot t)).next = some (.page (total a)) := cutHeader_slot
      have hnext : (header (.page (total a))).next = some (.slot t) := congrArg Header.next cutHeader_page
      have hprev : (header (.page (total a))).prev = some (.slot t) := congrArg Header.prev cutHeader_page
      exact ⟨by simp, by simp [hslot, hnext], by simp [hprev]⟩
    · rw [Function.update_of_ne hts]
      refine (L.rings t ht).congr fun r hr => hsame r ?_ ?_
      · rintro rfl
        rcases L.ring_outside ht _ hr with ⟨_, h⟩ | ⟨_, h, hk⟩
        · cases h
        · exact hk hpage
      · rintro rfl
        simp [Ne.symm hts] at hr
  · intro t j ht hj
    by_cases hts : t = s
    · subst hts
      rw [Function.update_self, List.mem_singleton] at hj
      exact (hiff _).mpr (Or.inr (by rw [hj]))
    · rw [Function.update_of_ne hts] at hj
      refine (hiff _).mpr (Or.inl ⟨L.filed t j ht hj, ?_⟩)
      rintro rfl
      exact absurd (L.unique hi (L.filed t _ ht hj)) (by simp)
  · intro j shift h hj
    by_cases hja : j = total a
    · subst hja
      rw [hnew h, Nat.add_sub_cancel, Function.update_self] at hj
      simp at hj
    · obtain ⟨h', hheader⟩ := hold h hja
      show (header (.page j)).next = none
      rw [hheader]
      refine L.away j shift h' fun hm => hj ?_
      rw [Function.update_of_ne]
      · exact hm
      · rintro hs'
        rw [hs', hempty] at hm
        simp at hm
  · intro j shift h
    by_cases hja : j = total a
    · subst hja
      obtain rfl := hnew h
      exact C.formed
    · obtain ⟨h', hheader⟩ := hold h hja
      have F := L.formed j shift h'
      exact F.changed (congrArg Header.slab hheader) (hwords F hja)
  · intro j shift c h hc
    have hc : c < pool.kept shift := hc
    by_cases hja : j = total a
    · subst hja
      obtain rfl := hnew h
      have hkept := C.formed.kept_lt hstd
      rw [C.bits c (Nat.lt_trans hc hkept), decide_eq_true (Nat.le_of_lt hc)]
    · obtain ⟨h', hheader⟩ := hold h hja
      have F := L.formed j shift h'
      rw [F.bit_changed L.std (congrArg Header.slab hheader) (hwords F hja) (Nat.lt_trans hc (F.kept_lt L.std))]
      exact L.kept j shift c h' hc

end PgRest.Slab
