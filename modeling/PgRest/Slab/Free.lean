import PgRest.Slab.Alloc

/-! `pgrest_slab_do_free`: what it does at any address of a page, and that it takes back the block
that starts there. -/
namespace PgRest.Slab
open Lib

/-! ### Addresses in a page -/

section
variable {pool : Pool} (std : pool.Standard) {i shift d : Nat}
include std

theorem Pool.Standard.offset (hd : d < 4096) :
    (pool.address i + d) % pool.pagesize = d ∧
      (pool.address i + d) / pool.pagesize * pool.pagesize = pool.address i := by
  have := std.aligned
  rw [std.pagesize, std.address]
  omega

theorem Pool.Standard.mod_shift (hshift : shift < 12) : (pool.address i + d) % 1 <<< shift = d % 1 <<< shift := by
  have hpage : 1 <<< shift ∣ 4096 := ⟨pool.chunks shift, by rw [Nat.mul_comm, std.chunks_size hshift]⟩
  have hstart : 4096 ∣ pool.address i := by
    have := std.aligned
    rw [std.address]
    omega
  obtain ⟨k, hk⟩ := Nat.dvd_trans hpage hstart
  rw [hk, Nat.mul_add_mod]

theorem Pool.Standard.chunk_lt (hshift : shift < 12) (hd : d < 4096) : d >>> shift < pool.chunks shift := by
  rw [Nat.shiftRight_eq_div_pow, Nat.div_lt_iff_lt_mul (Nat.two_pow_pos shift)]
  have hsize := std.chunks_size hshift
  rw [Nat.shiftLeft_eq, Nat.one_mul] at hsize
  omega

end

theorem chunk_start {shift d : Nat} (h : d % 1 <<< shift = 0) : (d >>> shift) <<< shift = d := by
  rw [Nat.shiftLeft_eq, Nat.one_mul] at h
  rw [Nat.shiftRight_eq_div_pow, Nat.shiftLeft_eq]
  exact Nat.div_mul_cancel (Nat.dvd_of_mod_eq_zero h)

theorem start_chunk (shift c : Nat) : (c <<< shift) % 1 <<< shift = 0 ∧ (c <<< shift) >>> shift = c := by
  rw [Nat.shiftLeft_eq, Nat.shiftLeft_eq, Nat.one_mul, Nat.shiftRight_eq_div_pow]
  exact ⟨Nat.mul_mod_left .., Nat.mul_div_cancel _ (Nat.two_pow_pos shift)⟩

/-! ### Chunks -/

instance (pool : Pool) (i shift : Nat) : Decidable (pool.Empty i shift) :=
  decidable_of_iff (∀ c, c < pool.chunks shift → pool.kept shift ≤ c → pool.bit i shift c = false)
    ⟨fun h c hlo hhi => h c hhi hlo, fun h c hhi hlo => h c hlo hhi⟩

/-- The chunk `c` is free again, and a page of which no chunk is in use becomes part of a free run. -/
def clearAt (pool : Pool) (i shift c : Nat) : Option Pool :=
  let pool := pool.flip unsetBit i shift c
  if pool.Empty i shift then freePages pool i 1 else some pool

/-- The same, of a page that comes back to the ring of its slot first where it is full. -/
def freeAt (pool : Pool) (i shift c : Nat) : Option Pool :=
  (if pool.Full i shift then relink pool i shift (pool.kindOf shift) else some pool).bind fun pool =>
    clearAt pool i shift c

section
variable {pool : Pool} {i shift c : Nat}

theorem clearSmall_eq (std : pool.Standard) (F : Formed pool i shift) (hk : pool.kindOf shift = .small)
    (hc : c < pool.chunks shift) :
    (let pool := pool.putWord (pool.address i + c / (8 * 8) * 8)
        (unsetBit (pool.word (pool.address i + c / (8 * 8) * 8)) (c % (8 * 8)))
      if pool.word (pool.address i + 0 * 8) &&& (busy - (1 <<< pool.reserved shift - 1)) ≠ 0 then some pool
      else if anyNot 0 (fun n => pool.word (pool.address i + n * 8)) 1 (pool.map shift - 1) = true then some pool
      else freePages pool i 1) = clearAt pool i shift c := by
  have hput : pool.putWord (pool.address i + c / (8 * 8) * 8)
      (unsetBit (pool.word (pool.address i + c / (8 * 8) * 8)) (c % (8 * 8))) = pool.flip unsetBit i shift c :=
    (Pool.flip_small unsetBit hk).symm
  have G := F.flip unsetBit_writes std hc F fun _ => rfl
  have hempty := G.empty_small (std.flip ..) hk
  rw [← Nat.add_zero ((pool.flip unsetBit i shift c).address i), ← Nat.zero_mul 8] at hempty
  have hrest : anyNot 0 (fun n => (pool.flip unsetBit i shift c).word (pool.address i + n * 8)) 1
        (pool.map shift - 1) = false ↔
      ∀ n, 1 ≤ n → n < pool.map shift → (pool.flip unsetBit i shift c).word (pool.address i + n * 8) = 0 := by
    have hpos := (F.word_lt std hk hc).1
    rw [anyNot_iff, Nat.add_sub_cancel' (Nat.lt_of_le_of_lt (Nat.zero_le _) hpos)]
  simp only [hput, clearAt]
  split
  · next hfirst => rw [if_neg fun h => hfirst (hempty.mp h).1]
  · next hfirst =>
    split
    · next hany => rw [if_neg fun h => Bool.false_ne_true ((hrest.mpr (hempty.mp h).2).symm.trans hany)]
    · next hany => rw [if_pos (hempty.mpr ⟨not_not.mp hfirst, hrest.mp (Bool.eq_false_iff.mpr hany)⟩)]

theorem clearExact_eq (std : pool.Standard) (F : Formed pool i shift) (hk : pool.kindOf shift = .exact)
    (hc : c < pool.chunks shift) (hhas : pool.has (.page i) = true) {w : Nat} (hw : (pool.header (.page i)).slab = w) :
    ((pool.modify (.page i) fun h => { h with slab := unsetBit w c }).bind fun pool =>
      if unsetBit w c ≠ 0 then some pool else freePages pool i 1) = clearAt pool i shift c := by
  have hput : pool.put (.page i) { pool.header (.page i) with slab := unsetBit w c } = pool.flip unsetBit i shift c := by
    rw [Pool.flip_exact unsetBit hk, hw]
  have G := F.flip unsetBit_writes std hc F fun _ => rfl
  have hempty := G.empty_exact (std.flip ..) hk
  rw [Pool.modify_eq hhas, Option.bind_some, hput, clearAt]
  rw [← hput, put_self, hput] at hempty
  split
  · next hne => rw [if_neg fun h => hne (hempty.mp h)]
  · next hzero => rw [if_pos (hempty.mpr (not_not.mp hzero))]

theorem clearBig_eq (std : pool.Standard) (F : Formed pool i shift) (hk : pool.kindOf shift = .big)
    (hc : c < pool.chunks shift) (hhas : pool.has (.page i) = true) {w : Nat} (hw : (pool.header (.page i)).slab = w) :
    ((pool.modify (.page i) fun h => { h with slab := unsetBit w (c + mapShift) }).bind fun pool =>
      if unsetBit w (c + mapShift) &&& mapMask ≠ 0 then some pool else freePages pool i 1) = clearAt pool i shift c := by
  have hput : pool.put (.page i) { pool.header (.page i) with slab := unsetBit w (c + mapShift) } =
      pool.flip unsetBit i shift c := by rw [Pool.flip_big unsetBit hk, hw, Nat.add_comm]
  have G := F.flip unsetBit_writes std hc F fun _ => rfl
  have hempty := G.empty_big (std.flip ..) hk
  rw [Pool.modify_eq hhas, Option.bind_some, hput, clearAt]
  rw [← hput, put_self, hput] at hempty
  split
  · next hne => rw [if_neg fun h => hne (hempty.mp h)]
  · next hzero => rw [if_pos (hempty.mpr (not_not.mp hzero))]

end

variable {pool : Pool} {segs segs' : List Seg} {free free' : List Nat} {slots slots' : Nat → List Nat}
  {header : Ref → Header} {word : Nat → Nat}

theorem Steady.next_iff (S : Steady pool segs free slots) {i shift : Nat} (h : (i, .chunks shift) ∈ placed 0 segs) :
    (pool.header (.page i)).next = none ↔ pool.Full i shift := by
  obtain ⟨hs, -⟩ := S.slot_of h
  rw [← not_iff_not, ← S.partly i shift h]
  constructor
  · intro hnext
    by_contra hi
    exact hnext (S.away i shift h hi)
  · intro hi
    exact (S.rings _ hs).next_ne (List.mem_map_of_mem hi)

/-- A full page comes back to the ring of its slot. -/
theorem Steady.reenter (S : Steady pool segs free slots) {i shift : Nat} (h : (i, .chunks shift) ∈ placed 0 segs) :
    ∃ header slots',
      (if pool.Full i shift then relink pool i shift (pool.kindOf shift) else some pool) =
        some (pool.withHeader header) ∧
      Layout (pool.withHeader header) segs free slots' ∧ i ∈ slots' (shift - 3) ∧
      (∀ t j, j ≠ i → (j ∈ slots' t ↔ j ∈ slots t)) ∧
      ∀ j, (header (.page j)).slab = (pool.header (.page j)).slab := by
  obtain ⟨hs, hshift⟩ := S.slot_of h
  by_cases hfull : pool.Full i shift
  · have hi : i ∉ slots (shift - 3) := fun hi => (S.partly i shift h).mp hi hfull
    obtain ⟨header, hrelink, L, hslab⟩ := S.relink hs (by rwa [hshift]) hi
    rw [hshift] at hrelink
    refine ⟨header, _, by rw [if_pos hfull, hrelink], L, by simp, fun t j hj => ?_, hslab⟩
    by_cases hts : t = shift - 3
    · rw [hts, Function.update_self, List.mem_cons, or_iff_right hj]
    · rw [Function.update_of_ne hts]
  · exact ⟨pool.header, slots, if_neg hfull, S.toLayout, (S.partly i shift h).mpr hfull, fun _ _ _ => Iff.rfl,
      fun _ => rfl⟩

/-- What happens to a page that is full first, and then to its chunk. -/
theorem Steady.freeAt_eq (S : Steady pool segs free slots) {i shift c : Nat} (h : (i, .chunks shift) ∈ placed 0 segs)
    {kind : Kind} (hk : pool.kindOf shift = kind) {p : Prop} [Decidable p] (hp : p ↔ pool.Full i shift)
    {clear : Pool → Option Pool}
    (hclear : ∀ header slots', Layout (pool.withHeader header) segs free slots' →
      (header (.page i)).slab = (pool.header (.page i)).slab →
      clear (pool.withHeader header) = clearAt (pool.withHeader header) i shift c) :
    (if p then (relink pool i shift kind).bind clear else clear pool) = freeAt pool i shift c := by
  obtain ⟨header, slots', henter, L, -, -, hslab⟩ := S.reenter h
  have hboth : (if p then (relink pool i shift kind).bind clear else clear pool) =
      (if pool.Full i shift then relink pool i shift (pool.kindOf shift) else some pool).bind clear := by
    by_cases hfull : pool.Full i shift
    · rw [if_pos (hp.mpr hfull), if_pos hfull, hk]
    · rw [if_neg (mt hp.mp hfull), if_neg hfull]
      rfl
  rw [hboth, freeAt, henter]
  exact hclear header slots' L (hslab i)

/-- What the three kinds of pages make of a free chunk, or of an address that is no chunk. -/
theorem Steady.freeSmall_eq (S : Steady pool segs free slots) {i shift d : Nat}
    (h : (i, .chunks shift) ∈ placed 0 segs) (hk : pool.kindOf shift = .small) (hd : d < 4096) :
    freeSmall pool i (pool.address i + d) (pool.header (.page i)) =
      if d % 1 <<< shift = 0 ∧ pool.bit i shift (d >>> shift) = true then freeAt pool i shift (d >>> shift)
      else some pool := by
  have F := S.formed i shift h
  obtain ⟨hmod, hdiv⟩ := S.std.offset (i := i) hd
  have hc := S.std.chunk_lt F.high hd
  have hbit := Pool.bit_small hk i (d >>> shift)
  simp only [freeSmall, (F.small hk).1, S.std.mod_shift F.high, hmod, hdiv]
  by_cases halign : d % 1 <<< shift = 0
  · rw [if_neg (not_not_intro halign)]
    cases hset : pool.bit i shift (d >>> shift) with
    | false =>
      have hword : (pool.word (pool.address i + d >>> shift / (8 * 8) * 8)).testBit (d >>> shift % (8 * 8)) = false :=
        hbit.symm.trans hset
      simp only [hword, Bool.not_false, if_true, Bool.false_eq_true, and_false, if_false]
      rfl
    | true =>
      have hword : (pool.word (pool.address i + d >>> shift / (8 * 8) * 8)).testBit (d >>> shift % (8 * 8)) = true :=
        hbit.symm.trans hset
      simp only [hword, Bool.not_true, Bool.false_eq_true, if_false, halign, and_self, if_true]
      exact S.freeAt_eq h hk (S.next_iff h) fun header slots' L _ => clearSmall_eq L.std (L.formed i shift h) hk hc
  · rw [if_pos halign, if_neg fun h => halign h.1]
    rfl

theorem Steady.freeExact_eq (S : Steady pool segs free slots) {i shift d : Nat}
    (h : (i, .chunks shift) ∈ placed 0 segs) (hk : pool.kindOf shift = .exact) (hd : d < 4096) :
    freeExact pool i (pool.address i + d) (pool.header (.page i)) =
      if d % 1 <<< shift = 0 ∧ pool.bit i shift (d >>> shift) = true then freeAt pool i shift (d >>> shift)
      else some pool := by
  have F := S.formed i shift h
  obtain ⟨hmod, -⟩ := S.std.offset (i := i) hd
  have hc := S.std.chunk_lt F.high hd
  have hshift : pool.exactShift = shift := by rw [S.std.exactShift, S.std.kindOf_exact.mp hk]
  have hsize : pool.exactSize = 1 <<< shift := by
    rw [S.std.exactSize, S.std.kindOf_exact.mp hk]
    rfl
  have hbit := Pool.bit_exact hk i (d >>> shift)
  simp only [freeExact, hmod, hshift, hsize, S.std.mod_shift F.high, ← hbit]
  by_cases halign : d % 1 <<< shift = 0
  · rw [if_neg (not_not_intro halign)]
    cases hset : pool.bit i shift (d >>> shift) with
    | false =>
      simp only [Bool.not_false, if_true, Bool.false_eq_true, and_false, if_false]
      rfl
    | true =>
      simp only [Bool.not_true, Bool.false_eq_true, if_false, halign, and_self, if_true]
      exact S.freeAt_eq h hk (F.full_exact S.std hk).symm fun header slots' L hslab =>
        clearExact_eq L.std (L.formed i shift h) hk hc (L.has_page h) hslab
  · rw [if_pos halign, if_neg fun h => halign h.1]
    rfl

theorem Steady.freeBig_eq (S : Steady pool segs free slots) {i shift d : Nat}
    (h : (i, .chunks shift) ∈ placed 0 segs) (hk : pool.kindOf shift = .big) (hd : d < 4096) :
    freeBig pool i (pool.address i + d) (pool.header (.page i)) =
      if d % 1 <<< shift = 0 ∧ pool.bit i shift (d >>> shift) = true then freeAt pool i shift (d >>> shift)
      else some pool := by
  have F := S.formed i shift h
  obtain ⟨hmod, -⟩ := S.std.offset (i := i) hd
  have hc := S.std.chunk_lt F.high hd
  have hbit := Pool.bit_big hk i (d >>> shift)
  rw [Nat.add_comm] at hbit
  simp only [freeBig, (F.big hk).1, hmod, S.std.mod_shift F.high, ← hbit]
  by_cases halign : d % 1 <<< shift = 0
  · rw [if_neg (not_not_intro halign)]
    cases hset : pool.bit i shift (d >>> shift) with
    | false =>
      simp only [Bool.not_false, if_true, Bool.false_eq_true, and_false, if_false]
      rfl
    | true =>
      simp only [Bool.not_true, Bool.false_eq_true, if_false, halign, and_self, if_true]
      exact S.freeAt_eq h hk (S.next_iff h) fun header slots' L hslab =>
        clearBig_eq L.std (L.formed i shift h) hk hc (L.has_page h) hslab
  · rw [if_pos halign, if_neg fun h => halign h.1]
    rfl

/-- A block is in the segment of the page that it starts in. -/
theorem Layout.held_index (L : Layout pool segs free slots) {p l : Nat} (h : Held pool segs p l) :
    ∃ s, (pool.index p, s) ∈ placed 0 segs ∧ s.isFree = false := by
  cases h with
  | @run i n h =>
    refine ⟨.run n, ?_, rfl⟩
    rwa [← Nat.add_zero (pool.address i), L.std.index i (by decide)]
  | @chunk i shift c h =>
    have hfits := L.std.chunk_fits (L.formed i shift h.placed).high h.lt
    have hpos := shift_pos shift
    refine ⟨.chunks shift, ?_, rfl⟩
    rw [L.std.index i (by generalize c <<< shift = d at hfits; omega)]
    exact h.placed

/-- Where no segment in use starts any more there is no block. -/
theorem Layout.fresh_gone (L : Layout pool segs free slots) {i d : Nat} (hd : d < 4096)
    (h : ∀ s, (i, s) ∈ placed 0 segs → s.isFree = true) (m : Nat) : ¬Held pool segs (pool.address i + d) m := by
  intro hheld
  obtain ⟨s, hs, hfree⟩ := L.held_index hheld
  rw [L.std.index i hd] at hs
  exact Bool.false_ne_true (hfree.symm.trans (h s hs))

theorem Steady.freeAt (S : Steady pool segs free slots) {i shift c : Nat} (h : Used pool segs i shift c) :
    ∃ header word segs' free' slots', freeAt pool i shift c = some (pool.changed header word) ∧
      Steady (pool.changed header word) segs' free' slots' ∧
      Gains (pool.changed header word) segs' pool segs (pool.address i + c <<< shift) (1 <<< shift) := by
  have hplaced := h.placed
  have F := S.formed i shift hplaced
  obtain ⟨hs, hshift⟩ := S.slot_of hplaced
  obtain ⟨header₁, slots₁, henter, L₁, hi, hslots, hslab₁⟩ := S.reenter hplaced
  have L₂ := L₁.flip unsetBit_writes hplaced h.lt h.kept
  have hfreeAt : Slab.freeAt pool i shift c = clearAt (pool.withHeader header₁) i shift c := by
    rw [Slab.freeAt, henter]
    rfl
  have hbits : ∀ j sh c', (j, .chunks sh) ∈ placed 0 segs → c' < pool.chunks sh →
      ((pool.withHeader header₁).flip unsetBit i shift c).bit j sh c' =
        if j = i ∧ c' = c then false else pool.bit j sh c' := by
    intro j sh c' hj hc'
    have hkeep : (pool.withHeader header₁).bit j sh c' = pool.bit j sh c' := S.bits_withHeader hj (hslab₁ j) hc'
    rw [(L₁.formed i shift hplaced).flip_bit unsetBit_writes L₁.std h.lt (L₁.formed j sh hj) hc', hkeep]
    rintro rfl
    exact Seg.chunks.inj (S.unique hj hplaced)
  generalize hpool₂ : (pool.withHeader header₁).flip unsetBit i shift c = pool₂ at hbits L₂
  obtain ⟨header₂, word₂, rfl⟩ : ∃ header₂ word₂, pool₂ = pool.changed header₂ word₂ := ⟨_, _, hpool₂.symm⟩
  rw [hfreeAt, clearAt, hpool₂]
  have hother : ∀ {j sh c'}, (j, .chunks sh) ∈ placed 0 segs → j ≠ i → c' < pool.chunks sh →
      (pool.changed header₂ word₂).bit j sh c' = pool.bit j sh c' := by
    intro j sh c' hj hji hc'
    rw [hbits j sh c' hj hc', if_neg fun h => hji h.1]
  have hself : ∀ {sh}, (i, .chunks sh) ∈ placed 0 segs → sh = shift := fun hj => Seg.chunks.inj (S.unique hj hplaced)
  have hgone : (pool.changed header₂ word₂).bit i shift c = false := by
    rw [hbits i shift c hplaced h.lt, if_pos ⟨rfl, rfl⟩]
  have hfull : ∀ {j sh}, (j, .chunks sh) ∈ placed 0 segs → j ≠ i →
      (j ∈ slots₁ (sh - 3) ↔ ¬(pool.changed header₂ word₂).Full j sh) := by
    intro j sh hj hji
    rw [hslots _ j hji, full_congr fun c' => hother hj hji]
    exact S.partly j sh hj
  by_cases hempty : (pool.changed header₂ word₂).Empty i shift
  · obtain ⟨header₃, segs', free', hdrop, L₃, hslab₃, hiff⟩ := L₂.drop hs hi
    have hbits₃ : ∀ j sh c', (j, .chunks sh) ∈ placed 0 segs' → c' < pool.chunks sh →
        (pool.changed header₃ word₂).bit j sh c' = pool.bit j sh c' := by
      intro j sh c' hj hc'
      obtain ⟨hj', hji⟩ := (hiff _ rfl).mp hj
      have hkeep : (pool.changed header₃ word₂).bit j sh c' = (pool.changed header₂ word₂).bit j sh c' :=
        L₂.bits_withHeader hj' (hslab₃ j sh hj) hc'
      exact hkeep.trans (hother hj' hji hc')
    refine ⟨header₃, word₂, segs', free', _, by rw [if_pos hempty]; exact hdrop,
      ⟨L₃, fun j sh hj => ?_, fun j sh hj => ?_⟩,
      gains_chunk (L₃.fresh_gone ?_ fun s hm => ?_) rfl (fun j n => ?_) fun j sh c' => ⟨fun hu => ?_, ?_⟩⟩
    · obtain ⟨hj', hji⟩ := (hiff _ rfl).mp hj
      have hmem : j ∈ Function.update slots₁ (shift - 3) ((slots₁ (shift - 3)).erase i) (sh - 3) ↔
          j ∈ slots₁ (sh - 3) := by
        by_cases hts : sh - 3 = shift - 3
        · rw [hts, Function.update_self, List.mem_erase_of_ne hji]
        · rw [Function.update_of_ne hts]
      rw [hmem, hslots _ j hji, S.partly j sh hj']
      exact not_congr (full_congr fun c' => hbits₃ j sh c' hj).symm
    · obtain ⟨hj', -⟩ := (hiff _ rfl).mp hj
      exact fun he => S.used j sh hj' ((empty_congr fun c' => hbits₃ j sh c' hj).mp he)
    · have hfits := S.std.chunk_fits F.high h.lt
      have hpos := shift_pos shift
      generalize c <<< shift = d at hfits
      omega
    · cases hfree : s.isFree with
      | true => rfl
      | false => exact absurd rfl ((hiff (i, s) hfree).mp hm).2
    · rw [hiff _ rfl, iff_self_and]
      rintro hj rfl
      exact absurd (S.unique hj hplaced) (by simp)
    · by_cases hji : j = i
      · subst hji
        obtain rfl := hself hu.placed
        refine Or.inr ⟨rfl, rfl, ?_⟩
        by_contra hcc
        have hb := hempty c' hu.kept hu.lt
        rw [hbits j sh c' hplaced hu.lt, if_neg fun h => hcc h.2, hu.bit] at hb
        cases hb
      · have hj := (hiff (j, .chunks sh) rfl).mpr ⟨hu.placed, hji⟩
        exact Or.inl ⟨hj, hu.kept, hu.lt, (hbits₃ j sh c' hj hu.lt).trans hu.bit⟩
    · rintro (hu | ⟨rfl, rfl, rfl⟩)
      · exact ⟨((hiff _ rfl).mp hu.placed).1, hu.kept, hu.lt, (hbits₃ j sh c' hu.placed hu.lt).symm.trans hu.bit⟩
      · exact h
  · rw [if_neg hempty]
    refine ⟨header₂, word₂, segs, free, slots₁, rfl, ⟨L₂, fun j sh hj => ?_, fun j sh hj => ?_⟩,
      gains_chunk (L₂.fresh_chunk hplaced h.lt fun hu => ?_) rfl (fun j n => Iff.rfl) fun j sh c' => ⟨fun hu => ?_, ?_⟩⟩
    · by_cases hji : j = i
      · subst hji
        obtain rfl := hself hj
        exact iff_of_true hi fun hf => Bool.false_ne_true (hgone.symm.trans (hf c h.lt))
      · exact hfull hj hji
    · by_cases hji : j = i
      · subst hji
        obtain rfl := hself hj
        exact hempty
      · rw [empty_congr fun c' => hother hj hji]
        exact S.used j sh hj
    · exact Bool.false_ne_true (hgone.symm.trans hu.bit)
    · by_cases hcc : j = i ∧ c' = c
      · obtain ⟨rfl, rfl⟩ := hcc
        exact Or.inr ⟨rfl, hself hu.placed, rfl⟩
      · refine Or.inl ⟨hu.placed, hu.kept, hu.lt, ?_⟩
        rw [hbits j sh c' hu.placed hu.lt, if_neg hcc]
        exact hu.bit
    · rintro (hu | ⟨rfl, rfl, rfl⟩)
      · have hb := hu.bit
        rw [hbits j sh c' hu.placed hu.lt] at hb
        split at hb
        · cases hb
        · exact ⟨hu.placed, hu.kept, hu.lt, hb⟩
      · exact h

theorem Steady.freeRun (S : Steady pool segs free slots) {i n : Nat} (h : (i, .run n) ∈ placed 0 segs) :
    ∃ header segs' free', freePages pool i n = some (pool.withHeader header) ∧
      Steady (pool.withHeader header) segs' free' slots ∧
      Gains (pool.withHeader header) segs' pool segs (pool.address i) (n * 4096) := by
  obtain ⟨header, segs', free', hfree, L, houtside, hiff⟩ := S.toLayout.freeRun h
  have hplaced : ∀ j shift, (j, .chunks shift) ∈ placed 0 segs' ↔ (j, .chunks shift) ∈ placed 0 segs := by
    intro j shift
    rw [hiff _ rfl, and_iff_left_iff_imp]
    rintro hj rfl
    exact absurd (S.unique hj h) (by simp)
  obtain ⟨S', hused⟩ := S.whole (show Layout (pool.changed header pool.word) segs' free' slots from L) hplaced
    fun j shift c hj hc => S.bits_withHeader hj (congrArg Header.slab (houtside _ (S.outside_chunks hj))) hc
  refine ⟨header, segs', free', hfree, S',
    gains_run (fun m hheld => ?_) rfl (fun j m => ?_) fun j sh c => (hused j sh c).symm⟩
  · rw [← Nat.add_zero ((pool.withHeader header).address i)] at hheld
    refine L.fresh_gone (by decide) (fun s hs => ?_) m hheld
    cases hfree : s.isFree with
    | true => rfl
    | false => exact absurd rfl ((hiff (i, s) hfree).mp hs).2
  · rw [hiff _ rfl]
    by_cases hji : j = i
    · subst hji
      simp only [ne_eq, not_true_eq_false, and_false, true_and, false_or]
      exact ⟨fun hj => Seg.run.inj (S.unique hj h), fun hm => hm ▸ h⟩
    · simp [hji]

/-! ### `pgrest_slab_do_free` -/

theorem Steady.doFree_eq (S : Steady pool segs free slots) {i d : Nat} (hi : i < pool.pages) (hd : d < 4096) :
    doFree pool (pool.address i + d) =
      match (pool.header (.page i)).kind with
      | .small => freeSmall pool i (pool.address i + d) (pool.header (.page i))
      | .exact => freeExact pool i (pool.address i + d) (pool.header (.page i))
      | .big => freeBig pool i (pool.address i + d) (pool.header (.page i))
      | .page => Slab.freeRun pool i (pool.address i + d) (pool.header (.page i)) := by
  have hindex : (pool.address i + d - pool.start) >>> pool.pageShift = i := S.std.index i hd
  have hrange : ¬(pool.address i + d < pool.start ∨ pool.address i + d > pool.stop) := by
    have := S.std.bound
    rw [S.std.address]
    omega
  rw [doFree, if_neg hrange]
  dsimp only
  rw [hindex, Pool.get_eq (Pool.has_page hi)]
  rfl

/-- Any address in a page that is cut into chunks. -/
theorem Steady.doFree_chunks (S : Steady pool segs free slots) {i shift d : Nat}
    (h : (i, .chunks shift) ∈ placed 0 segs) (hd : d < 4096) :
    doFree pool (pool.address i + d) =
      if d % 1 <<< shift = 0 ∧ pool.bit i shift (d >>> shift) = true then Slab.freeAt pool i shift (d >>> shift)
      else some pool := by
  rw [S.doFree_eq (by have := (S.placed_lt h).1; simp only [Seg.len] at this; omega) hd, S.kind_chunks h]
  cases hk : pool.kindOf shift with
  | page => exact absurd hk (pool.kindOf_ne shift)
  | small => exact S.freeSmall_eq h hk hd
  | exact => exact S.freeExact_eq h hk hd
  | big => exact S.freeBig_eq h hk hd

/-- **A block that is in use is taken back**, and no other. -/
theorem Steady.doFree (S : Steady pool segs free slots) {p l : Nat} (h : Held pool segs p l) :
    ∃ header word segs' free' slots', doFree pool p = some (pool.changed header word) ∧
      Steady (pool.changed header word) segs' free' slots' ∧ Gains (pool.changed header word) segs' pool segs p l := by
  cases h with
  | @run i n h =>
    obtain ⟨header, segs', free', hfree, S', hgains⟩ := S.freeRun h
    refine ⟨header, pool.word, segs', free', slots, ?_, S', hgains⟩
    obtain ⟨-, hslab, -, hkind, -⟩ := S.pages.shown _ h
    have hslab : (pool.header (.page i)).slab = n ||| pageStart := hslab
    have hkind : (pool.header (.page i)).kind = .page := hkind
    have hshort := S.run_short h
    have hmod : (pool.address i + 0) % pool.pagesize = 0 := (S.std.offset (by decide)).1
    obtain ⟨hzero, hbusy⟩ := or_pageStart_ne hshort
    have hlt := S.placed_lt h
    simp only [Seg.len] at hlt
    rw [← Nat.add_zero (pool.address i), S.doFree_eq (by omega) (by decide), hkind]
    simp only [Slab.freeRun, hmod, hslab, ne_eq, not_true_eq_false, if_false, hzero, hbusy, or_pageStart_and hshort]
    exact hfree
  | @chunk i shift c h =>
    obtain ⟨header, word, segs', free', slots', hfree, S', hgains⟩ := S.freeAt h
    refine ⟨header, word, segs', free', slots', ?_, S', hgains⟩
    obtain ⟨hmod, hshift⟩ := start_chunk shift c
    have hfits := S.std.chunk_fits (S.formed i shift h.placed).high h.lt
    have hpos := shift_pos shift
    rw [S.doFree_chunks h.placed (by generalize c <<< shift = d at hfits; omega), hmod, hshift, if_pos ⟨rfl, h.bit⟩]
    exact hfree

end PgRest.Slab
