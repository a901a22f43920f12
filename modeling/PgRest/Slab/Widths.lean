import Mathlib.Algebra.Group.Nat.Defs
import PgRest.Slab.Refusal

/-! Pages with a bitmap, for pages of any size and with the widths that the words of C have. A shift of
the literals `1` and `2` is one of an `int`, and the type of a page's chunks is read back from the
lowest four bits of its `slab`. -/
namespace PgRest.Slab
open Lib

/-- `a << n` of an `int` of 32 bits; `none` where the result is undefined. -/
def intShl (a n : Nat) : Option Nat := if n < 32 ∧ a <<< n < 1 <<< 31 then some (a <<< n) else none

/-- `(uintptr_t) a << n` -/
def wordShl (a n : Nat) : Option Nat := if n < 64 then some (a <<< n % (busy + 1)) else none

/-- `newChunk` of a page with a bitmap. -/
def newSmall (pool : Pool) (shift slot : Nat) : Option (Pool × Option Nat) := do
  let (pool, page) ← allocPages pool 1
  match page with
  | none => return (pool, none)
  | some i =>
    let bitmap := pool.address i
    let s ← intShl 1 shift
    let chunks ← intShl 1 (pool.pageShift - shift)
    let n := chunks / 8 / s
    let n := if n = 0 then 1 else n
    let first ← intShl 2 n
    let pool := pool.putWord bitmap (first - 1)
    let map := chunks / (8 * 8)
    let pool := clearWords bitmap 1 (map - 1) pool
    let pool ← pool.modify (.page i) fun _ =>
      { slab := shift, next := some (.slot slot), prev := some (.slot slot), kind := .small }
    let pool ← pool.modify (.slot slot) fun h => { h with next := some (.page i) }
    return (pool, some (pool.address i + s * n))

/-- `pgrest_slab_do_alloc`, with the widths of C where a page with a bitmap is made. -/
def wideAlloc (pool : Pool) (size : Nat) : Option (Pool × Option Nat) := do
  if size > pool.maxSize then
    let (pool, page) ←
      allocPages pool (size >>> pool.pageShift + if size % pool.pagesize ≠ 0 then 1 else 0)
    return (pool, page.map pool.address)
  let shift := pool.shiftFor size
  let slot := shift - pool.minShift
  let new := if shift < pool.exactShift then newSmall pool shift slot else newChunk pool shift slot
  let first ← (← pool.get (.slot slot)).next
  let page ← pool.get first
  if page.next ≠ some first then
    match ← takeChunk pool shift first with
    | some (pool, p) => return (pool, some p)
    | none => new
  else new

/-- `freeSmall`. The mask of the chunk's bit is a shift by less than 64. -/
def wideFreeSmall (pool : Pool) (i p : Nat) (page : Header) : Option Pool := do
  let shift := page.slab &&& shiftMask
  let size ← intShl 1 shift
  if p % size ≠ 0 then return pool
  let c := (p % pool.pagesize) >>> shift
  let b := c % (8 * 8)
  let n := c / (8 * 8)
  let bitmap := p / pool.pagesize * pool.pagesize
  let words := fun (pool : Pool) n => pool.word (bitmap + n * 8)
  if !(words pool n).testBit b then return pool
  let pool ← if page.next = none then relink pool i shift .small else some pool
  let pool := pool.putWord (bitmap + n * 8) (unsetBit (words pool n) b)
  let chunks ← intShl 1 (pool.pageShift - shift)
  let size ← intShl 1 shift
  let n := chunks / 8 / size
  let n := if n = 0 then 1 else n
  let kept ← wordShl 1 n
  if words pool 0 &&& (busy - (kept - 1)) ≠ 0 then return pool
  let map := chunks / (8 * 8)
  if anyNot 0 (words pool) 1 (map - 1) then return pool
  freePages pool i 1

/-- `pgrest_slab_do_free`, with the widths of C in a page with a bitmap. -/
def wideFree (pool : Pool) (p : Nat) : Option Pool := do
  if p < pool.start ∨ p > pool.stop then return pool
  let i := pool.index p
  let page ← pool.get (.page i)
  match page.kind with
  | .small => wideFreeSmall pool i p page
  | .exact => freeExact pool i p page
  | .big => freeBig pool i p page
  | .page => freeRun pool i p page

/-- A new page for the chunks of a request is set up right: in use are the chunks that have bytes of the
bitmap, and the one that is returned, and to give that one back frees the page. -/
def SetUp (pool : Pool) (size : Nat) : Prop :=
  ∃ pool' i c, i < pool.pages ∧ c < pool.chunks (pool.shiftFor size) ∧
    wideAlloc pool size = some (pool', some (pool.address i + c <<< pool.shiftFor size)) ∧
    pool.map (pool.shiftFor size) * 8 ≤ c <<< pool.shiftFor size ∧
    (∀ c', c' < pool.chunks (pool.shiftFor size) → (pool'.bit i (pool.shiftFor size) c' = true ↔
      c' <<< pool.shiftFor size < pool.map (pool.shiftFor size) * 8 ∨ c' = c)) ∧
    ∃ pool'', wideFree pool' (pool.address i + c <<< pool.shiftFor size) = some pool'' ∧ FreePage pool'' i

/-- A pool with pages of any size that has a free page, and no page with a free chunk for the slot. -/
structure Ready (pool : Pool) (shift : Nat) : Prop where
  minShift : pool.minShift = 3
  minSize : pool.minSize = 8
  aligned : pool.start % pool.pagesize = 0
  bound : pool.start + pool.pages * pool.pagesize ≤ pool.stop
  pages : ∃ segs free, Pages pool.kindOf pool.header pool.pages segs free ∧ Settled segs ∧
    ∃ i n, (i, .free n) ∈ placed 0 segs
  slot : (pool.header (.slot (shift - 3))).next = some (.slot (shift - 3))

/-! ### Shifts -/

theorem intShl_some {a n v : Nat} (h : intShl a n = some v) : v = a <<< n ∧ n < 32 ∧ a <<< n < 1 <<< 31 := by
  rw [intShl] at h
  split at h
  · next hfits => exact ⟨(Option.some.inj h).symm, hfits⟩
  · cases h

theorem wordShl_some {n v : Nat} (h : wordShl 1 n = some v) : v = 1 <<< n ∧ n < 64 := by
  rw [wordShl] at h
  split at h
  · next hn =>
    refine ⟨(Option.some.inj h).symm.trans (Nat.mod_eq_of_lt ?_), hn⟩
    rw [Nat.shiftLeft_eq, Nat.one_mul]
    exact Nat.pow_lt_pow_right (by decide) hn
  · cases h

theorem intShl_one {n : Nat} (h : n < 31) : intShl 1 n = some (1 <<< n) := by
  rw [intShl, if_pos]
  rw [Nat.shiftLeft_eq, Nat.shiftLeft_eq, Nat.one_mul, Nat.one_mul]
  exact ⟨by omega, Nat.pow_lt_pow_right (by decide) h⟩

theorem intShl_two {n : Nat} (h : n < 30) : intShl 2 n = some (2 <<< n) := by
  rw [intShl, if_pos]
  rw [Nat.shiftLeft_eq, Nat.shiftLeft_eq, Nat.one_mul, ← Nat.pow_succ']
  exact ⟨by omega, Nat.pow_lt_pow_right (by decide) (by omega)⟩

theorem intShl_one_none {n : Nat} (h : 31 ≤ n) : intShl 1 n = none := by
  rw [intShl, if_neg]
  rintro ⟨-, hlt⟩
  rw [Nat.shiftLeft_eq, Nat.shiftLeft_eq, Nat.one_mul, Nat.one_mul] at hlt
  exact absurd (Nat.pow_le_pow_right (by decide) h) (Nat.not_le_of_lt hlt)

theorem wordShl_one {n : Nat} (h : n < 64) : wordShl 1 n = some (1 <<< n) := by
  rw [wordShl, if_pos h, Nat.mod_eq_of_lt]
  rw [Nat.shiftLeft_eq, Nat.one_mul]
  exact Nat.pow_lt_pow_right (by decide) h

/-! ### The numbers of a page -/

section
variable {pool : Pool} {shift : Nat}

/-- As many chunks as the bitmap has bytes for, and at least one. -/
theorem reserved_eq (pool : Pool) (shift : Nat) :
    pool.reserved shift = 2 ^ (pool.pageShift - shift - 3 - shift) := by
  have hn : 1 <<< (pool.pageShift - shift) / 8 / 1 <<< shift = 2 ^ (pool.pageShift - shift) / 2 ^ (3 + shift) := by
    rw [Nat.shiftLeft_eq, Nat.shiftLeft_eq, Nat.one_mul, Nat.one_mul, Nat.div_div_eq_div_mul, Nat.pow_add]
  rw [Pool.reserved, hn]
  rcases Nat.lt_or_ge (pool.pageShift - shift) (3 + shift) with hlt | hge
  · have hzero : pool.pageShift - shift - 3 - shift = 0 := by omega
    rw [Nat.div_eq_of_lt (Nat.pow_lt_pow_right (by decide) hlt), if_pos rfl, hzero, Nat.pow_zero]
  · have hexp : pool.pageShift - shift - (3 + shift) = pool.pageShift - shift - 3 - shift := by omega
    rw [Nat.pow_div hge (by decide), if_neg (Nat.ne_of_gt (Nat.two_pow_pos _)), hexp]

theorem reserved_lt (h : pool.pageShift < 2 * shift + 8) : pool.reserved shift ≤ 16 := by
  have hexp : pool.pageShift - shift - 3 - shift ≤ 4 := by omega
  rw [reserved_eq]
  exact Nat.pow_le_pow_right (by decide) hexp

theorem reserved_lt_chunks (h : shift + 7 ≤ pool.pageShift) (hfew : pool.pageShift < 2 * shift + 8) :
    pool.reserved shift < pool.chunks shift := by
  have hr := reserved_lt hfew
  have hle : 2 ^ 7 ≤ 2 ^ (pool.pageShift - shift) := Nat.pow_le_pow_right (by decide) (by omega)
  rw [Pool.chunks, Nat.shiftLeft_eq, Nat.one_mul]
  omega

theorem reserved_ge (h : 2 * shift + 8 ≤ pool.pageShift) : 32 ≤ pool.reserved shift := by
  have hexp : 5 ≤ pool.pageShift - shift - 3 - shift := by omega
  rw [reserved_eq]
  exact Nat.le_trans (show 32 ≤ 2 ^ 5 by decide) (Nat.pow_le_pow_right (by decide) hexp)

/-- The bitmap has a bit for each chunk. -/
theorem map_eq (h : shift + 7 ≤ pool.pageShift) :
    pool.map shift = 2 ^ (pool.pageShift - shift - 6) ∧ pool.chunks shift = pool.map shift * 64 := by
  have hpow : 1 <<< (pool.pageShift - shift) = 2 ^ (pool.pageShift - shift - 6) * 64 := by
    rw [Nat.shiftLeft_eq, Nat.one_mul, show (64 : Nat) = 2 ^ 6 from rfl, ← Nat.pow_add]
    congr 1
    omega
  rw [Pool.map, Pool.chunks, hpow, Nat.mul_div_cancel _ (by decide)]
  exact ⟨rfl, rfl⟩

/-- The chunks that have bytes of the bitmap. -/
theorem covers_iff (h : shift + 7 ≤ pool.pageShift) (c : Nat) :
    c <<< shift < pool.map shift * 8 ↔ c < pool.reserved shift := by
  have hmap : pool.map shift * 8 = 2 ^ (pool.pageShift - shift - 3) := by
    rw [(map_eq h).1, show (8 : Nat) = 2 ^ 3 from rfl, ← Nat.pow_add]
    congr 1
    omega
  rw [hmap, reserved_eq, Nat.shiftLeft_eq]
  rcases Nat.lt_or_ge (pool.pageShift - shift - 3) shift with hlt | hge
  · rw [show pool.pageShift - shift - 3 - shift = 0 by omega, Nat.pow_zero, Nat.lt_one_iff]
    constructor
    · intro hc
      by_contra hne
      have hle := Nat.mul_le_mul_right (2 ^ shift) (Nat.one_le_iff_ne_zero.mpr hne)
      have := Nat.pow_lt_pow_right (show 1 < 2 by decide) hlt
      omega
    · rintro rfl
      rw [Nat.zero_mul]
      exact Nat.two_pow_pos _
  · rw [← Nat.sub_add_cancel hge, Nat.pow_add, Nat.add_sub_cancel]
    exact Nat.mul_lt_mul_right (Nat.two_pow_pos shift)

end

/-! ### A new page -/

section
variable {pool pool' : Pool} {shift i : Nat}

/-- What the widths leave of `newChunk`: everything, or nothing. -/
theorem newSmall_eq {pool₁ : Pool} {slot : Nat} (hk : pool₁.kindOf shift = .small)
    (halloc : allocPages pool 1 = some (pool₁, some i)) :
    newSmall pool shift slot = ((intShl 1 shift).bind fun _ => (intShl 1 (pool₁.pageShift - shift)).bind fun _ =>
      (intShl 2 (pool₁.reserved shift)).bind fun _ => newChunk pool shift slot) := by
  rw [newSmall, halloc, Option.bind_eq_bind, Option.bind_some]
  simp only [Option.bind_eq_bind]
  cases hs : intShl 1 shift with
  | none => rfl
  | some s =>
    cases hc : intShl 1 (pool₁.pageShift - shift) with
    | none => rfl
    | some chunks =>
      have hn : (if chunks / 8 / s = 0 then 1 else chunks / 8 / s) = pool₁.reserved shift := by
        rw [(intShl_some hs).1, (intShl_some hc).1]
        rfl
      simp only [Option.bind_some, hn]
      cases hf : intShl 2 (pool₁.reserved shift) with
      | none => rfl
      | some first =>
        obtain rfl := (intShl_some hs).1
        obtain rfl := (intShl_some hc).1
        obtain rfl := (intShl_some hf).1
        simp only [Option.bind_some, newChunk, halloc, Option.bind_eq_bind, hk]
        rfl

/-- The page of a new chunk, whatever the size of pages is. -/
structure Fresh (pool pool' : Pool) (i shift : Nat) : Prop where
  same : ∃ header word, pool' = pool.changed header word
  lt : i < pool.pages
  header : pool'.header (.page i) =
    { slab := shift, next := some (.slot (shift - 3)), prev := some (.slot (shift - 3)), kind := .small }
  first : pool'.word (pool.address i) = 2 <<< pool.reserved shift - 1
  rest : ∀ n, 1 ≤ n → n < pool.map shift → pool'.word (pool.address i + n * 8) = 0
  pages : ∃ a b free, i = total a ∧ Pages pool'.kindOf pool'.header pool'.pages (a ++ [.chunks shift] ++ b) free ∧
    Settled a ∧ Settled b
  ring : Linked pool'.header (.slot (shift - 3)) ([i].map .page)

theorem newChunk_small (R : Ready pool shift) (hlow : 3 ≤ shift) (hhigh : shift < pool.pageShift)
    (hk : pool.kindOf shift = .small) :
    ∃ pool₁ pool' i, allocPages pool 1 = some (pool₁, some i) ∧ pool₁.kindOf = pool.kindOf ∧
      pool₁.pageShift = pool.pageShift ∧
      newChunk pool shift (shift - 3) = some (pool', some (pool.address i + pool.reserved shift <<< shift)) ∧
      Fresh pool pool' i shift := by
  obtain ⟨segs, free, P, hsettled, j, m, hj⟩ := R.pages
  rcases allocPages_spec P Nat.one_pos with ⟨a, n, b, header, free', hsegs, hn, halloc, P₁, houtside⟩ | ⟨hnone, -⟩
  · have hsplit : a ++ (.run 1 :: remainder (n - 1)) ++ b = a ++ [.run 1] ++ (remainder (n - 1) ++ b) := by simp
    rw [hsplit] at P₁
    have hplaced : (total a, .run 1) ∈ placed 0 (a ++ [.run 1] ++ (remainder (n - 1) ++ b)) := by simp
    have hlt : total a < pool.pages := by
      have hin := (placed_bounds hplaced).2
      rw [P₁.count] at hin
      simp only [Seg.len] at hin
      omega
    have hslot : (pool.withHeader header).has (.slot (shift - 3)) = true := by
      rw [withHeader_has, Pool.has, R.minShift]
      exact decide_eq_true (by omega)
    obtain ⟨word, hclear, hzero, hsame⟩ := clearWords_spec (pool.address (total a)) 1 (pool.map shift - 1)
      ((pool.withHeader header).putWord (pool.address (total a)) (2 <<< pool.reserved shift - 1))
    have hhas : (pool.withHeader header).has (.page (total a)) = true := by
      rw [withHeader_has]
      exact Pool.has_page hlt
    obtain ⟨pool₂, hpage, hring⟩ := link_cut hhas hslot shift .small word
    have hoffset : 1 <<< shift * pool.reserved shift = pool.reserved shift <<< shift := by
      rw [Nat.shiftLeft_eq, Nat.shiftLeft_eq, Nat.one_mul, Nat.mul_comm]
    refine ⟨_, pool.changed (cutHeader header (total a) (shift - 3) shift .small) word, total a, halloc, rfl, rfl, ?_,
      ⟨_, word, rfl⟩, hlt, cutHeader_page, ?_, fun n hlo hhi => ?_, ?_, ?_⟩
    · have hk : (pool.withHeader header).kindOf shift = .small := hk
      have hclear : clearWords ((pool.withHeader header).address (total a)) 1
          (((pool.withHeader header).putWord ((pool.withHeader header).address (total a))
            (2 <<< (pool.withHeader header).reserved shift - 1)).map shift - 1)
          ((pool.withHeader header).putWord ((pool.withHeader header).address (total a))
            (2 <<< (pool.withHeader header).reserved shift - 1)) =
          (pool.withHeader header).changed (pool.withHeader header).header word := hclear
      simp only [newChunk, halloc, hk, Option.bind_eq_bind, Option.bind_some, hclear, hpage, hring]
      rw [← hoffset]
      rfl
    · show word (pool.address (total a)) = _
      rw [hsame _ fun j hj _ => by omega]
      exact Function.update_self ..
    · exact hzero n hlo (by omega)
    · refine ⟨a, remainder (n - 1) ++ b, free', rfl, ?_, ?_, ?_⟩
      · refine P₁.cut ?_ (pool.kindOf_ne shift) fun r hr hrs => cutHeader_of_ne hr (hrs _)
        have hheader : cutHeader header (total a) (shift - 3) shift .small (.page (total a)) = _ := cutHeader_page
        exact (congrArg Header.kind hheader).trans hk.symm
      · exact fun k hk => hsettled k (by rw [hsegs]; simp [hk])
      · intro k hk
        have hfree : Seg.loose k ∉ remainder (n - 1) := by
          unfold remainder
          split <;> simp
        exact hsettled k (by rw [hsegs]; simp [(List.mem_append.mp hk).resolve_left hfree])
    · have hfirst : (cutHeader header (total a) (shift - 3) shift .small (.slot (shift - 3))).next =
          some (.page (total a)) := cutHeader_slot
      have hnext : (cutHeader header (total a) (shift - 3) shift .small (.page (total a))).next =
          some (.slot (shift - 3)) := congrArg Header.next cutHeader_page
      have hprev : (cutHeader header (total a) (shift - 3) shift .small (.page (total a))).prev =
          some (.slot (shift - 3)) := congrArg Header.prev cutHeader_page
      show Linked (cutHeader header (total a) (shift - 3) shift .small) _ _
      exact ⟨by simp, by simp [hfirst, hnext], by simp [hprev]⟩
  · have := hnone j m hj
    have := (P.shown _ hj).1
    omega

/-! ### Sizes and addresses -/

theorem exactShift_eq (pool : Pool) : pool.exactShift = pool.pageShift - 6 := by
  rw [Pool.exactShift, Pool.exactSize, Pool.pagesize, Nat.shiftLeft_eq, Nat.one_mul, show 8 * 8 = 2 ^ 6 from rfl]
  rcases Nat.lt_or_ge pool.pageShift 6 with hlt | hge
  · rw [Nat.div_eq_of_lt (Nat.pow_lt_pow_right (by decide) hlt), Nat.sub_eq_zero_of_le (Nat.le_of_lt hlt)]
    rfl
  · rw [Nat.pow_div hge (by decide), Nat.log2_two_pow]

/-- A request is no larger than the chunks it is given. -/
theorem Ready.size_le (R : Ready pool shift) {size : Nat} (h : pool.shiftFor size = shift) : size ≤ 2 ^ shift := by
  rw [Pool.shiftFor, R.minSize, R.minShift] at h
  split at h
  · next hsize =>
    rw [shiftOf_eq] at h
    have hlt : size - 1 < 2 ^ ((size - 1).log2 + 1) := Nat.lt_log2_self
    rw [← h, Nat.add_comm]
    omega
  · next hsize =>
    rw [← h]
    exact Nat.le_of_not_lt hsize

/-- Where a slot has no page and the request is for small chunks a new page is made. -/
theorem Ready.wideAlloc (R : Ready pool shift) (hlow : 3 ≤ shift) (hhigh : shift < pool.exactShift) {size : Nat}
    (h : pool.shiftFor size = shift) : wideAlloc pool size = newSmall pool shift (shift - 3) := by
  have hexact := exactShift_eq pool
  have hsize : ¬size > pool.maxSize := by
    have hle := R.size_le h
    have hpow : 2 ^ shift * 2 ≤ 2 ^ pool.pageShift := by
      rw [← Nat.pow_succ]
      exact Nat.pow_le_pow_right (by decide) (by omega)
    rw [Pool.maxSize, Pool.pagesize, Nat.shiftLeft_eq, Nat.one_mul]
    omega
  have hslot : pool.has (.slot (shift - 3)) = true := by
    rw [Pool.has, R.minShift]
    exact decide_eq_true (by omega)
  rw [Slab.wideAlloc, if_neg hsize]
  simp only [h, R.minShift, if_pos hhigh, Pool.get_eq hslot, Option.bind_eq_bind, Option.bind_some, R.slot, ne_eq,
    not_true_eq_false, if_false]

/-- The chunk `c` of the page `i`. -/
theorem Ready.chunk_address (R : Ready pool shift) (hshift : shift ≤ pool.pageShift) {c : Nat} (hi : i < pool.pages)
    (hc : c < pool.chunks shift) :
    ¬(pool.address i + c <<< shift < pool.start ∨ pool.address i + c <<< shift > pool.stop) ∧
      pool.index (pool.address i + c <<< shift) = i ∧
      (pool.address i + c <<< shift) % pool.pagesize = c <<< shift ∧
      (pool.address i + c <<< shift) / pool.pagesize * pool.pagesize = pool.address i ∧
      (pool.address i + c <<< shift) % 1 <<< shift = 0 := by
  have hpage : pool.pagesize = 2 ^ pool.pageShift := by rw [Pool.pagesize, Nat.shiftLeft_eq, Nat.one_mul]
  have hsplit : 2 ^ pool.pageShift = pool.chunks shift * 2 ^ shift := by
    rw [Pool.chunks, Nat.shiftLeft_eq, Nat.one_mul, ← Nat.pow_add, Nat.sub_add_cancel hshift]
  have hlt : c * 2 ^ shift < 2 ^ pool.pageShift := by
    rw [hsplit]
    exact Nat.mul_lt_mul_of_pos_right hc (Nat.two_pow_pos shift)
  obtain ⟨q, hq⟩ := Nat.dvd_of_mod_eq_zero R.aligned
  have haddress : pool.address i = (q + i) * 2 ^ pool.pageShift := by
    rw [Pool.address, hq, hpage, Nat.shiftLeft_eq, Nat.mul_comm, Nat.add_mul]
  have hbound := R.bound
  have hnext : (i + 1) * 2 ^ pool.pageShift ≤ pool.pages * 2 ^ pool.pageShift := Nat.mul_le_mul_right _ hi
  have hfrom : pool.address i = pool.start + i * 2 ^ pool.pageShift := by rw [Pool.address, Nat.shiftLeft_eq]
  rw [hpage, Nat.shiftLeft_eq, Nat.shiftLeft_eq, Nat.one_mul]
  refine ⟨?_, ?_, ?_, ?_, ?_⟩
  · rw [hpage] at hbound
    rw [Nat.succ_mul] at hnext
    omega
  · rw [Pool.index, hfrom, Nat.add_assoc, Nat.add_sub_cancel_left, Nat.shiftRight_eq_div_pow, Nat.add_comm,
      Nat.add_mul_div_right _ _ (Nat.two_pow_pos _), Nat.div_eq_of_lt hlt, Nat.zero_add]
  · rw [haddress, Nat.mul_add_mod_of_lt hlt]
  · rw [haddress, Nat.add_comm, Nat.add_mul_div_right _ _ (Nat.two_pow_pos _), Nat.div_eq_of_lt hlt, Nat.zero_add]
  · rw [haddress, hsplit, ← Nat.mul_assoc, ← Nat.add_mul, Nat.mul_mod_left]

theorem Freed.covers {a b segs : List Seg} {n : Nat} (h : Freed a n b segs) (hn : 0 < n) :
    ∃ i m, (i, .free m) ∈ Slab.placed 0 segs ∧ i ≤ total a ∧ total a < i + m := by
  obtain ⟨k, a', n', b', hnext, hprev, rfl⟩ := h
  have hk : 0 < k := by
    cases hnext with
    | alone => exact hn
    | joined => omega
  refine ⟨total a', n', by simp, ?_⟩
  cases hprev with
  | alone => omega
  | joined =>
    simp only [total_append, total, Seg.len]
    omega

/-! ### The chunk that is returned -/

theorem Fresh.wideFree (F : Fresh pool pool' i shift) (R : Ready pool shift) (hshift : shift ≤ pool.pageShift) {c : Nat}
    (hc : c < pool.chunks shift) :
    Slab.wideFree pool' (pool.address i + c <<< shift) =
      wideFreeSmall pool' i (pool.address i + c <<< shift) (pool'.header (.page i)) := by
  obtain ⟨hrange, hindex, -⟩ := R.chunk_address hshift F.lt hc
  have hheader := F.header
  have hlt := F.lt
  obtain ⟨header, word, rfl⟩ := F.same
  have hrange : ¬(pool.address i + c <<< shift < (pool.changed header word).start ∨
      pool.address i + c <<< shift > (pool.changed header word).stop) := hrange
  have hindex : (pool.changed header word).index (pool.address i + c <<< shift) = i := hindex
  have hhas : (pool.changed header word).has (.page i) = true := Pool.has_page hlt
  rw [Slab.wideFree, if_neg hrange]
  simp only [hindex, Pool.get_eq hhas, Option.bind_eq_bind, Option.bind_some]
  rw [hheader]

/-- The page is not free before. -/
theorem Fresh.not_free (F : Fresh pool pool' i shift) : ¬FreePage pool' i := by
  obtain ⟨a, b, free, rfl, P, -⟩ := F.pages
  rw [P.freePage_iff]
  rintro ⟨j, m, hj, hlo, hhi⟩
  have hi : (total a, .chunks shift) ∈ placed 0 (a ++ [.chunks shift] ++ b) := by simp
  have := placed_unique hj hi (j := total a) hlo hhi (Nat.le_refl _) (Nat.lt_succ_self _)
  simp at this

/-- To give back the only chunk frees the page. -/
theorem Fresh.freePages (F : Fresh pool pool' i shift) (hslot : pool.has (.slot (shift - 3)) = true) (word : Nat → Nat) :
    ∃ pool'', Slab.freePages (pool'.changed pool'.header word) i 1 = some pool'' ∧ FreePage pool'' i := by
  obtain ⟨a, b, free, rfl, P, ha, hb⟩ := F.pages
  have hlt := F.lt
  have hring := F.ring
  obtain ⟨header, word', rfl⟩ := F.same
  have P' : Pages pool.kindOf ((pool.changed header word').changed header word).header
      ((pool.changed header word').changed header word).pages (a ++ [.chunks shift] ++ b) free := P
  obtain ⟨header', segs', free', hfree, hfreed, P'', -⟩ := freePages_chunks (l := [total a]) ha hb P' hring (by simp)
    (by simp) (fun r hr => by
      rcases List.mem_cons.mp hr with rfl | hr
      · exact hslot
      · obtain rfl : r = .page (total a) := by simpa using hr
        exact Pool.has_page hlt)
  exact ⟨_, hfree, P''.freePage_iff.mpr (hfreed.covers Nat.one_pos)⟩

/-- The type of a page's chunks as it is read back. -/
theorem and_shiftMask_mod (n : Nat) : n &&& shiftMask = n % 16 := Nat.and_two_pow_sub_one_eq_mod n 4

/-- Where the bitmap takes up few chunks the chunk that is given back is the last one. -/
theorem Fresh.released (F : Fresh pool pool' i shift) (R : Ready pool shift) (hlow : 3 ≤ shift)
    (hhigh : shift + 7 ≤ pool.pageShift) (hfew : pool.pageShift < 2 * shift + 8) (hmask : shift < 16) :
    ∃ pool'', Slab.wideFree pool' (pool.address i + pool.reserved shift <<< shift) = some pool'' ∧ FreePage pool'' i := by
  have hr := reserved_lt hfew
  have hc := reserved_lt_chunks hhigh hfew
  obtain ⟨-, -, hmod, hdiv, halign⟩ := R.chunk_address (by omega) F.lt hc
  have hslot : pool.has (.slot (shift - 3)) = true := by
    rw [Pool.has, R.minShift]
    exact decide_eq_true (by omega)
  have hfirst := F.first
  have hrest := F.rest
  have hread : shift &&& shiftMask = shift := by
    rw [and_shiftMask_mod]
    omega
  have hsame : pool'.pagesize = pool.pagesize ∧ pool'.pageShift = pool.pageShift := by
    obtain ⟨header, word, rfl⟩ := F.same
    exact ⟨rfl, rfl⟩
  have hnumber : (pool.reserved shift <<< shift) >>> shift = pool.reserved shift := (start_chunk shift _).2
  rw [F.wideFree R (by omega) hc, F.header]
  have hset : (2 <<< pool.reserved shift - 1).testBit (pool.reserved shift) = true := by
    rw [testBit_upTo, decide_eq_true (Nat.le_refl _)]
  have hle : 2 <<< pool.reserved shift - 1 ≤ busy := by
    have hpow : 2 ^ (pool.reserved shift + 1) ≤ 2 ^ 64 := Nat.pow_le_pow_right (by decide) (by omega)
    rw [Nat.shiftLeft_eq, Nat.mul_comm, ← Nat.pow_succ, busy]
    omega
  -- what is left are the bits of the bitmap's own chunks
  have hcleared : unsetBit (2 <<< pool.reserved shift - 1) (pool.reserved shift) &&&
      (busy - (1 <<< pool.reserved shift - 1)) = 0 := by
    refine (and_above_iff (by omega)).mpr fun b hlo hhi => ?_
    rw [testBit_unsetBit hle (by omega), testBit_upTo]
    rcases Nat.eq_or_lt_of_le hlo with rfl | hlt
    · simp
    · rw [decide_eq_false (Nat.not_le_of_lt hlt), Bool.false_and]
  have hother : anyNot 0 (fun n => Function.update pool'.word (pool.address i)
      (unsetBit (2 <<< pool.reserved shift - 1) (pool.reserved shift)) (pool.address i + n * 8)) 1
      (pool.map shift - 1) = false := by
    refine anyNot_iff.mpr fun n hlo hhi => ?_
    rw [Function.update_of_ne (by omega)]
    exact hrest n hlo (by omega)
  obtain ⟨pool'', hfree, hpage⟩ := F.freePages hslot (Function.update pool'.word (pool.address i)
    (unsetBit (2 <<< pool.reserved shift - 1) (pool.reserved shift)))
  refine ⟨pool'', ?_, hpage⟩
  simp only [wideFreeSmall, hread, intShl_one (show shift < 31 by omega), Option.bind_eq_bind, Option.bind_some,
    halign, hsame.1, hmod, hnumber, hdiv, ne_eq, not_true_eq_false, if_false,
    Nat.div_eq_of_lt (show pool.reserved shift < 8 * 8 by omega),
    Nat.mod_eq_of_lt (show pool.reserved shift < 8 * 8 by omega), Nat.zero_mul, Nat.add_zero, hfirst, reduceCtorEq,
    hset, Bool.not_true, Bool.false_eq_true]
  have hkept : (if 1 <<< (pool.pageShift - shift) / 8 / 1 <<< shift = 0 then 1
      else 1 <<< (pool.pageShift - shift) / 8 / 1 <<< shift) = pool.reserved shift := rfl
  have hmap : 1 <<< (pool.pageShift - shift) / (8 * 8) = pool.map shift := rfl
  simp only [Pool.putWord, hsame.2, intShl_one (show pool.pageShift - shift < 31 by omega), Option.bind_some, hkept,
    wordShl_one (show pool.reserved shift < 64 by omega), Function.update_self, hcleared, not_true_eq_false,
    if_false, hmap, hother, Bool.false_eq_true]
  rw [← hsame.2]
  exact hfree

/-- The type of chunks that is read is another one, of smaller chunks. -/
theorem Fresh.mistaken (F : Fresh pool pool' i shift) (R : Ready pool shift) (hhigh : shift + 7 ≤ pool.pageShift)
    (hmask : 16 ≤ shift) (hshift : shift < 31) {c : Nat} (hc : c < pool.chunks shift) {pool'' : Pool}
    (hfree : Slab.wideFree pool' (pool.address i + c <<< shift) = some pool'') : pool'' = pool' := by
  have hread : shift &&& shiftMask = shift - 16 := by
    rw [and_shiftMask_mod]
    omega
  rw [F.wideFree R (by omega) hc, F.header] at hfree
  simp only [wideFreeSmall, hread, intShl_one (show shift - 16 < 31 by omega), Option.bind_eq_bind, Option.bind_some,
    reduceCtorEq, if_false] at hfree
  split at hfree
  · exact (Option.some.inj hfree).symm
  · split at hfree
    · exact (Option.some.inj hfree).symm
    · exfalso
      obtain ⟨chunks, hchunks, hfree⟩ := Option.bind_eq_some_iff.mp hfree
      obtain ⟨rfl, -, hfits⟩ := intShl_some hchunks
      obtain ⟨kept, hkept, -⟩ := Option.bind_eq_some_iff.mp hfree
      have hlt : pool'.reserved (shift - 16) < 64 := (wordShl_some hkept).2
      have hsame : pool'.pageShift = pool.pageShift := by
        obtain ⟨header, word, rfl⟩ := F.same
        rfl
      have hfits : 1 <<< (pool'.pageShift - (shift - 16)) < 1 <<< 31 := hfits
      rw [Nat.shiftLeft_eq, Nat.shiftLeft_eq, Nat.one_mul, Nat.one_mul, hsame,
        Nat.pow_lt_pow_iff_right (by decide)] at hfits
      have hexp : 6 ≤ pool.pageShift - (shift - 16) - 3 - (shift - 16) := by omega
      rw [reserved_eq, hsame] at hlt
      exact absurd (Nat.pow_le_pow_right (show 0 < 2 by decide) hexp) (Nat.not_le_of_lt hlt)

/-! ### Every size of pages -/

/-- In use are the chunks of the bitmap and the one behind them. -/
theorem Fresh.bits (F : Fresh pool pool' i shift) (hk : pool.kindOf shift = .small) (hhigh : shift + 7 ≤ pool.pageShift)
    (hr : pool.reserved shift < 64) {c : Nat} (hc : c < pool.chunks shift) :
    pool'.bit i shift c = true ↔ c ≤ pool.reserved shift := by
  have hfirst := F.first
  have hrest := F.rest
  have hk' : pool'.kindOf shift = .small := by
    obtain ⟨header, word, rfl⟩ := F.same
    exact hk
  have haddress : pool'.address i = pool.address i := by
    obtain ⟨header, word, rfl⟩ := F.same
    rfl
  rw [Pool.bit_small hk', haddress]
  rcases Nat.lt_or_ge c 64 with hc64 | hc64
  · rw [Nat.div_eq_of_lt hc64, Nat.mod_eq_of_lt hc64, Nat.zero_mul, Nat.add_zero, hfirst, testBit_upTo,
      decide_eq_true_iff]
  · have hword : c / 64 < pool.map shift := by
      rw [(map_eq hhigh).2] at hc
      omega
    rw [hrest (c / 64) (by omega) hword, Nat.zero_testBit]
    exact iff_of_false Bool.false_ne_true (by omega)

/-- **A page with a bitmap is set up right** exactly where its bitmap takes up fewer than 32 chunks, and the type
of its chunks fits in four bits. -/
theorem setUp_iff {size : Nat} (R : Ready pool shift) (hlow : 3 ≤ shift) (hhigh : shift < pool.exactShift)
    (hsize : pool.shiftFor size = shift) : SetUp pool size ↔ pool.pageShift < 2 * shift + 8 ∧ shift < 16 := by
  have hexact := exactShift_eq pool
  have hpage : shift + 7 ≤ pool.pageShift := by omega
  have hk : pool.kindOf shift = .small := if_pos hhigh
  obtain ⟨pool₁, pool', i, halloc, hkind, hshift, hnew, F⟩ := newChunk_small R hlow (by omega) hk
  have hkind₁ : pool₁.kindOf shift = .small := (congrFun hkind shift).trans hk
  have hreserved : pool₁.reserved shift = pool.reserved shift := by rw [reserved_eq, reserved_eq, hshift]
  have hcall : newSmall pool shift (shift - 3) = _ := newSmall_eq hkind₁ halloc
  rw [hshift, hreserved, hnew] at hcall
  have hwide := R.wideAlloc hlow hhigh hsize
  rw [SetUp, hsize, hwide, hcall]
  constructor
  · rintro ⟨pool₂, j, c, hj, hc, hsome, -, -, pool₃, hfree, hpage₃⟩
    obtain ⟨s, hs, hsome⟩ := Option.bind_eq_some_iff.mp hsome
    obtain ⟨_, -, hsome⟩ := Option.bind_eq_some_iff.mp hsome
    obtain ⟨first, hfirst, hsome⟩ := Option.bind_eq_some_iff.mp hsome
    obtain ⟨rfl, haddress⟩ := Prod.mk.inj (Option.some.inj hsome)
    have haddress := Option.some.inj haddress
    have hfew : pool.pageShift < 2 * shift + 8 := by
      by_contra hmany
      have hge := reserved_ge (Nat.le_of_not_lt hmany)
      have := (intShl_some hfirst).2.1
      omega
    refine ⟨hfew, Nat.lt_of_not_le fun hmask => ?_⟩
    have hshort : shift < 31 := by
      by_contra hlong
      rw [intShl_one_none (Nat.le_of_not_lt hlong)] at hs
      cases hs
    have hlt := reserved_lt_chunks hpage hfew
    have hij : i = j := by
      rw [← (R.chunk_address (by omega) F.lt hlt).2.1, haddress, (R.chunk_address (by omega) hj hc).2.1]
    subst hij
    rw [← haddress] at hfree
    rw [F.mistaken R hpage hmask hshort hlt hfree] at hpage₃
    exact F.not_free hpage₃
  · rintro ⟨hfew, hmask⟩
    have hr := reserved_lt hfew
    refine ⟨pool', i, pool.reserved shift, F.lt, ?_, ?_, ?_, fun c hc => ?_, F.released R hlow hpage hfew hmask⟩
    · exact reserved_lt_chunks hpage hfew
    · rw [intShl_one (by omega), intShl_one (by omega), intShl_two (by omega)]
      rfl
    · exact Nat.le_of_not_lt fun h => Nat.lt_irrefl _ ((covers_iff hpage _).mp h)
    · rw [F.bits hk hpage (by omega) hc, covers_iff hpage]
      omega

end

/-! ### Which pools -/

/-- A pool that has been set up, with pages of any size. -/
theorem init_ready {k base stop : Nat} {word : Nat → Nat} (hk : 1 ≤ k) (hstart : (init k 3 base stop word).start ≤ stop)
    (hstop : stop ≤ busy) (hpages : 0 < (init k 3 base stop word).pages) (shift : Nat) :
    Ready (init k 3 base stop word) shift := by
  obtain ⟨hfree, hslot, hfirst, hrest⟩ := init_header k 3 base stop word
  exact ⟨rfl, rfl, Nat.mul_mod_left .., init_bound hk hstart hstop, ⟨_, _, one_run_pages hpages hfree hfirst hrest,
    by simp [Settled], 0, _, List.mem_singleton_self _⟩, hslot _⟩

/-- Any state of a pool with pages of 4096 bytes, where a page is free and no page of the slot has a free chunk. -/
theorem Steady.ready {pool : Pool} {segs : List Seg} {free : List Nat} {slots : Nat → List Nat}
    (S : Steady pool segs free slots) {i n shift : Nat} (h : (i, .free n) ∈ placed 0 segs) (hshift : shift < 12)
    (hempty : slots (shift - 3) = []) : Ready pool shift := by
  have hring := S.rings (shift - 3) (by omega)
  rw [hempty] at hring
  refine ⟨S.std.minShift, S.std.minSize, ?_, ?_, ⟨segs, free, S.pages, S.settled, i, n, h⟩, by simpa using hring.fore⟩
  · rw [S.std.pagesize]
    exact S.std.aligned
  · rw [S.std.pagesize]
    exact S.std.bound

theorem newSmall_le {pool : Pool} {shift slot : Nat} (hshift : shift < pool.exactShift) {r : Pool × Option Nat}
    (h : newSmall pool shift slot = some r) : newChunk pool shift slot = some r := by
  have hcall := h
  rw [newSmall] at hcall
  obtain ⟨⟨pool₁, page⟩, halloc, hcall⟩ := Option.bind_eq_some_iff.mp hcall
  cases page with
  | none =>
    rw [newChunk, halloc]
    exact hcall
  | some i =>
    have hkind : pool₁.kindOf shift = .small := by
      refine if_pos ?_
      rw [exactShift_eq, (allocPages_ranged halloc).2.2, ← exactShift_eq]
      exact hshift
    rw [newSmall_eq hkind halloc] at h
    obtain ⟨_, -, h⟩ := Option.bind_eq_some_iff.mp h
    obtain ⟨_, -, h⟩ := Option.bind_eq_some_iff.mp h
    obtain ⟨_, -, h⟩ := Option.bind_eq_some_iff.mp h
    exact h

/-- Where C says what `wideAlloc` does it does what `doAlloc` does. -/
theorem wideAlloc_le {pool : Pool} {size : Nat} {r : Pool × Option Nat} (h : wideAlloc pool size = some r) :
    doAlloc pool size = some r := by
  rw [wideAlloc] at h
  rw [doAlloc]
  split at h
  · next hbig =>
    rw [if_pos hbig]
    exact h
  · next hbig =>
    rw [if_neg hbig]
    have hnew : ∀ {r}, (if pool.shiftFor size < pool.exactShift then
        newSmall pool (pool.shiftFor size) (pool.shiftFor size - pool.minShift)
        else newChunk pool (pool.shiftFor size) (pool.shiftFor size - pool.minShift)) = some r →
        newChunk pool (pool.shiftFor size) (pool.shiftFor size - pool.minShift) = some r := by
      intro r h
      split at h
      · next hsmall => exact newSmall_le hsmall h
      · exact h
    simp only [Option.bind_eq_bind, Option.bind_eq_some_iff] at h ⊢
    obtain ⟨header, hheader, first, hfirst, page, hpage, h⟩ := h
    refine ⟨header, hheader, first, hfirst, page, hpage, ?_⟩
    split at h
    · next hne =>
      rw [if_pos hne]
      obtain ⟨result, htake, h⟩ := Option.bind_eq_some_iff.mp h
      refine Option.bind_eq_some_iff.mpr ⟨result, htake, ?_⟩
      cases result with
      | none => exact hnew h
      | some result => exact h
    · next heq =>
      rw [if_neg heq]
      exact hnew h

theorem shifts_some {α : Type} {a b : Nat} {n : Nat → Nat → Nat} {f : Nat → Nat → Nat → Option α} {r : α}
    (h : ((intShl 1 a).bind fun x => (intShl 1 b).bind fun y => (wordShl 1 (n x y)).bind (f x y)) = some r) :
    f (1 <<< a) (1 <<< b) (1 <<< n (1 <<< a) (1 <<< b)) = some r := by
  obtain ⟨x, hx, h⟩ := Option.bind_eq_some_iff.mp h
  obtain ⟨y, hy, h⟩ := Option.bind_eq_some_iff.mp h
  obtain ⟨z, hz, h⟩ := Option.bind_eq_some_iff.mp h
  rwa [(wordShl_some hz).1, (intShl_some hx).1, (intShl_some hy).1] at h

theorem wideFreeSmall_le {pool pool' : Pool} {i p : Nat} {page : Header}
    (h : wideFreeSmall pool i p page = some pool') : freeSmall pool i p page = some pool' := by
  rw [wideFreeSmall] at h
  obtain ⟨size, hsize, h⟩ := Option.bind_eq_some_iff.mp h
  obtain ⟨rfl, -⟩ := intShl_some hsize
  rw [freeSmall]
  dsimp only at h ⊢
  split at h
  · next halign =>
    rw [if_pos halign]
    exact h
  · next halign =>
    rw [if_neg halign]
    split at h
    · next hbit =>
      rw [if_pos hbit]
      exact h
    · next hbit =>
      rw [if_neg hbit]
      by_cases hnext : page.next = none
      · rw [if_pos hnext] at h ⊢
        obtain ⟨pool₁, hpool₁, h⟩ := Option.bind_eq_some_iff.mp h
        refine Option.bind_eq_some_iff.mpr ⟨pool₁, hpool₁, ?_⟩
        exact shifts_some h
      · rw [if_neg hnext, Option.bind_eq_bind, Option.bind_some] at h ⊢
        exact shifts_some h

/-- Where C says what `wideFree` does it does what `doFree` does. -/
theorem wideFree_le {pool pool' : Pool} {p : Nat} (h : wideFree pool p = some pool') : doFree pool p = some pool' := by
  rw [wideFree] at h
  rw [doFree]
  split at h
  · next hout =>
    rw [if_pos hout]
    exact h
  · next hout =>
    rw [if_neg hout]
    obtain ⟨page, hpage, h⟩ := Option.bind_eq_some_iff.mp h
    refine Option.bind_eq_some_iff.mpr ⟨page, hpage, ?_⟩
    cases hkind : page.kind with
    | small =>
      simp only [hkind] at h ⊢
      exact wideFreeSmall_le h
    | exact =>
      simp only [hkind] at h ⊢
      exact h
    | big =>
      simp only [hkind] at h ⊢
      exact h
    | page =>
      simp only [hkind] at h ⊢
      exact h

/-- A page of chunks of 8 bytes, in a pool of one page of 4096. -/
theorem setUp_iff_eight : SetUp (init 12 3 0 8192 fun _ => 0) 8 :=
  (setUp_iff (init_ready (by decide) (by decide) (by decide) (by decide) 3) (by decide)
    (by decide) (by decide)).mpr ⟨by decide, by decide⟩

/-- A page of 16384 bytes has a bitmap that takes up 32 chunks of 8 bytes. -/
theorem setUp_undefined : ¬∀ pool shift size, Ready pool shift → 12 ≤ pool.pageShift → 3 ≤ shift →
    shift < pool.exactShift → pool.shiftFor size = shift → SetUp pool size := by
  intro h
  have hnone : (wideAlloc (init 14 3 0 65536 fun _ => 0) 8).isNone = true := by decide
  obtain ⟨pool', i, c, -, -, hsome, -⟩ := h (init 14 3 0 65536 fun _ => 0) 3 8
    (init_ready (by decide) (by decide) (by decide) (by decide) 3) (by decide) (by decide)
    (by decide) (by decide)
  rw [hsome] at hnone
  cases hnone

end PgRest.Slab
