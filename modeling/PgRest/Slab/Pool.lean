import Mathlib.Logic.Function.Basic
import Mathlib.Data.Nat.Notation

/-! The slab allocator of the shared memory segments.

A `pgrest_slab_page_t` is reached in three ways: as the `free` of the pool, as one of its
slots, or as one of its pages, and a pointer to one is which of them it is. The low bits of
the word `prev`, the type of the page, stand apart from the pointer in it. Words are natural
numbers below 2^64, and no shift is wider than the word that is shifted. The memory of the
pages is the words at their addresses. `pgrest_slab_junk`, the lock and the log are left out.

A result of `none` is a read or a write outside of `pages`, or through a pointer that is
null or no page. -/
namespace PgRest.Slab

/-- What a `pgrest_slab_page_t *` points to. -/
inductive Ref where
  | free
  | slot (i : Nat)
  | page (i : Nat)
deriving DecidableEq, Repr

/-- `PGREST_SLAB_PAGE` and its like, the low bits of `prev`. -/
inductive Kind where
  | page
  | big
  | exact
  | small
deriving DecidableEq, Repr

/-- `pgrest_slab_page_s`; a record of defaults is what `MemSet` leaves. -/
structure Header where
  slab : Nat := 0
  next : Option Ref := none
  prev : Option Ref := none
  kind : Kind := .page
deriving DecidableEq, Repr

structure Pool where
  /-- `pgrest_pagesize_shift`, which is not of the pool but the same for all -/
  pageShift : Nat
  minShift : Nat
  minSize : Nat
  /-- `last - pages` -/
  pages : Nat
  header : Ref → Header
  start : Nat
  stop : Nat
  word : Nat → Nat

/-- `PGREST_SLAB_BUSY` and `PGREST_SLAB_PAGE_BUSY` -/
def busy : Nat := 0xffffffffffffffff
/-- `PGREST_SLAB_PAGE_START` -/
def pageStart : Nat := 0x8000000000000000
/-- `PGREST_SLAB_SHIFT_MASK` -/
def shiftMask : Nat := 0xf
/-- `PGREST_SLAB_MAP_MASK` -/
def mapMask : Nat := 0xffffffff00000000
/-- `PGREST_SLAB_MAP_SHIFT` -/
def mapShift : Nat := 32

namespace Pool

/-- `pgrest_pagesize` -/
def pagesize (pool : Pool) : Nat := 1 <<< pool.pageShift
/-- `pgrest_slab_max_size` -/
def maxSize (pool : Pool) : Nat := pool.pagesize / 2
/-- `pgrest_slab_exact_size` -/
def exactSize (pool : Pool) : Nat := pool.pagesize / (8 * 8)
/-- `pgrest_slab_exact_shift` -/
def exactShift (pool : Pool) : Nat := pool.exactSize.log2

/-- The address of a page's memory. -/
def address (pool : Pool) (i : Nat) : Nat := pool.start + i <<< pool.pageShift

/-- The first page header is written by `pgrest_slab_init` whether there is a page or not. -/
def has (pool : Pool) : Ref → Bool
  | .free => true
  | .slot i => i < pool.pageShift - pool.minShift
  | .page i => i < pool.pages || i == 0

def get (pool : Pool) (r : Ref) : Option Header :=
  if pool.has r then some (pool.header r) else none

def put (pool : Pool) (r : Ref) (h : Header) : Pool :=
  { pool with header := Function.update pool.header r h }

def modify (pool : Pool) (r : Ref) (f : Header → Header) : Option Pool :=
  if pool.has r then some (pool.put r (f (pool.header r))) else none

def putWord (pool : Pool) (a w : Nat) : Pool := { pool with word := Function.update pool.word a w }

end Pool

/-! ### `pgrest_slab_init` -/

/-- `sizeof(pgrest_slab_pool_t)` -/
def poolSize : Nat := 96
/-- `sizeof(pgrest_slab_page_t)` -/
def headerSize : Nat := 24

/-- `TYPEALIGN`, to a power of two. -/
def alignUp (a n : Nat) : Nat := (a + (n - 1)) / n * n

/-- `a - b` of the unsigned word. -/
def wordSub (a b : Nat) : Nat := (a + (busy + 1) - b) % (busy + 1)

/-- `pgrest_slab_init` of the pool at `base`, for a region that ends at `stop`. -/
def init (pageShift minShift base stop : Nat) (word : Nat → Nat) : Pool :=
  let pagesize := 1 <<< pageShift
  let slots := base + poolSize
  let size := wordSub stop slots
  let p := slots + (pageShift - minShift) * headerSize
  let pages := size / (pagesize + headerSize)
  let start := alignUp (p + pages * headerSize) pagesize
  -- `m` is a signed word, and the pages it counts are not there
  let m := wordSub pages (wordSub stop start / pagesize)
  let pages := if 0 < m ∧ m < pageStart then pages - m else pages
  { pageShift := pageShift
    minShift := minShift
    minSize := 1 <<< minShift
    pages := pages
    start := start
    stop := stop
    word := word
    header := fun
      | .free => { next := some (.page 0) }
      | .slot i => { next := some (.slot i) }
      | .page 0 => { slab := pages, next := some .free, prev := some .free }
      | .page _ => {} }

/-! ### Whole pages -/

/-- The neighbours of a page in its ring come to be neighbours. -/
def unlink (pool : Pool) (r : Ref) : Option Pool := do
  let page ← pool.get r
  let prev ← page.prev
  let next ← page.next
  let pool ← pool.modify prev fun h => { h with next := some next }
  pool.modify next fun h => { h with prev := some prev, kind := page.kind }

/-- `n` page headers, from `i` on, all come to be the same. -/
def setPages (h : Header) : Nat → Nat → Pool → Option Pool
  | _, 0, pool => some pool
  | i, n + 1, pool => do
    let pool ← pool.modify (.page i) fun _ => h
    setPages h (i + 1) n pool

/-- The pages behind the first of a run. -/
def markBusy : Nat → Nat → Pool → Option Pool := setPages { slab := busy }

/-- The free run at `i`, which is long enough, gives its first `pages` pages. -/
def takePages (pool : Pool) (i pages : Nat) : Option Pool := do
  let page ← pool.get (.page i)
  let pool ←
    if page.slab > pages then do
      let pool ← pool.modify (.page (i + page.slab - 1)) fun h =>
        { h with prev := some (.page (i + pages)), kind := .page }
      let page ← pool.get (.page i)
      let pool ← pool.modify (.page (i + pages)) fun _ => { page with slab := page.slab - pages }
      -- here and below `prev` is read as it is, with no type in it
      if page.kind ≠ .page then none
      let prev ← page.prev
      let next ← page.next
      let pool ← pool.modify prev fun h => { h with next := some (.page (i + pages)) }
      pool.modify next fun h => { h with prev := some (.page (i + pages)), kind := .page }
    else do
      if page.kind ≠ .page then none
      unlink pool (.page i)
  let pool ← pool.modify (.page i) fun _ => { slab := pages ||| pageStart }
  markBusy (i + 1) (pages - 1) pool

/-- The loop of `pgrest_slab_alloc_pages`, at the free run `r`. -/
def allocFrom : Nat → Pool → Ref → Nat → Option (Pool × Option Nat)
  | 0, _, _, _ => none
  | fuel + 1, pool, r, pages =>
    if r = .free then some (pool, none)
    else do
      let page ← pool.get r
      if page.slab ≥ pages then
        match r with
        | .page i => (takePages pool i pages).map fun pool => (pool, some i)
        | _ => none
      else allocFrom fuel pool (← page.next) pages

/-- `pgrest_slab_alloc_pages`: the first page of the run, if there is one. There are no more
runs than pages, or one where there is no page. -/
def allocPages (pool : Pool) (pages : Nat) : Option (Pool × Option Nat) := do
  let free ← pool.get .free
  allocFrom (pool.pages + 2) pool (← free.next) pages

/-- `MemSet(&page[1], 0, ...)` -/
def clearPages : Nat → Nat → Pool → Option Pool := setPages {}

/-- The run at `i` takes in the free run behind it. Here and below `left` is `pages`, which
counts the pages behind the first of the run. -/
def joinNext (pool : Pool) (i left : Nat) : Option (Pool × Nat) := do
  let page ← pool.get (.page i)
  let join := i + page.slab
  if join < pool.pages then
    let h ← pool.get (.page join)
    if h.kind = .page ∧ h.next ≠ none then
      let pool ← pool.modify (.page i) fun page => { page with slab := page.slab + h.slab }
      let pool ← unlink pool (.page join)
      let pool ← pool.modify (.page join) fun _ => {}
      return (pool, left + h.slab)
  return (pool, left)

/-- The free run in front of the run at `i` takes it in. -/
def joinPrev (pool : Pool) (i left : Nat) : Option (Pool × Nat × Nat) := do
  if 0 < i then
    let h ← pool.get (.page (i - 1))
    if h.kind = .page then
      let join ← if h.slab = 0 then h.prev else some (.page (i - 1))
      let h ← pool.get join
      if h.next ≠ none then
        let page ← pool.get (.page i)
        let pool ← pool.modify join fun h => { h with slab := h.slab + page.slab }
        let pool ← unlink pool join
        let pool ← pool.modify (.page i) fun _ => {}
        match join with
        | .page j => return (pool, j, left + h.slab)
        | _ => none
  return (pool, i, left)

/-- The run at `i` becomes the first of the free ones. -/
def pushFree (pool : Pool) (i : Nat) : Option Pool := do
  let free ← pool.get .free
  let first ← free.next
  let pool ← pool.modify (.page i) fun page =>
    { page with prev := some .free, kind := .page, next := some first }
  let pool ← pool.modify first fun h => { h with prev := some (.page i), kind := .page }
  pool.modify .free fun h => { h with next := some (.page i) }

/-- `pgrest_slab_free_pages` -/
def freePages (pool : Pool) (i pages : Nat) : Option Pool := do
  if pages = 0 then none
  let pool ← pool.modify (.page i) fun page => { page with slab := pages }
  let pool ← clearPages (i + 1) (pages - 1) pool
  let page ← pool.get (.page i)
  let pool ← if page.next ≠ none then unlink pool (.page i) else some pool
  let (pool, left) ← joinNext pool i (pages - 1)
  let (pool, i, left) ← joinPrev pool i left
  let pool ←
    if left ≠ 0 then pool.modify (.page (i + left)) fun h => { h with prev := some (.page i), kind := .page }
    else some pool
  pushFree pool i

/-! ### Chunks -/

/-- The first of `n` bits that is clear, from the bit `i` on, where the bits start at `lo`. -/
def clearBit (w lo : Nat) : Nat → Nat → Option Nat
  | _, 0 => none
  | i, n + 1 => if w.testBit (lo + i) then clearBit w lo (i + 1) n else some i

/-- `w |= 1 << b` -/
def setBit (w b : Nat) : Nat := w ||| 1 <<< b

/-- `w &= ~(1 << b)` -/
def unsetBit (w b : Nat) : Nat := w &&& (busy - 1 <<< b)

/-- The words of a bitmap. -/
def Pool.map (pool : Pool) (shift : Nat) : Nat := 1 <<< (pool.pageShift - shift) / (8 * 8)

/-- The chunks that the bitmap of a page takes up. -/
def Pool.reserved (pool : Pool) (shift : Nat) : Nat :=
  let n := 1 <<< (pool.pageShift - shift) / 8 / 1 <<< shift
  if n = 0 then 1 else n

/-- The first clear bit of `n` words of a bitmap, from the word `i` on. -/
def clearWord (bitmap : Nat → Nat) : Nat → Nat → Option (Nat × Nat)
  | _, 0 => none
  | i, n + 1 =>
    if bitmap i ≠ busy then
      match clearBit (bitmap i) 0 0 64 with
      | some b => some (i, b)
      | none => clearWord bitmap (i + 1) n
    else clearWord bitmap (i + 1) n

/-- Whether one of `n` words, from the word `i` on, is not `w`. -/
def anyNot (w : Nat) (bitmap : Nat → Nat) : Nat → Nat → Bool
  | _, 0 => false
  | i, n + 1 => bitmap i != w || anyNot w bitmap (i + 1) n

/-- A page without a free chunk leaves the ring of its slot. -/
def retire (pool : Pool) (r : Ref) (kind : Kind) : Option Pool := do
  let pool ← unlink pool r
  pool.modify r fun h => { h with next := none, prev := none, kind := kind }

/-- A chunk of a page with a bitmap; `none` where no chunk is free. -/
def takeSmall (pool : Pool) (shift i : Nat) : Option (Option (Pool × Nat)) :=
  let bitmap := pool.address i
  let map := pool.map shift
  let words := fun n => pool.word (bitmap + n * 8)
  match clearWord words 0 map with
  | none => some none
  | some (n, b) => do
    let w := setBit (words n) b
    let pool := pool.putWord (bitmap + n * 8) w
    let p := bitmap + (n * 8 * 8) <<< shift + b <<< shift
    if w = busy ∧ !anyNot busy words (n + 1) (map - (n + 1)) then
      return some (← retire pool (.page i) .small, p)
    return some (pool, p)

/-- A chunk of a page whose `slab` is the bitmap. -/
def takeExact (pool : Pool) (shift i : Nat) : Option (Option (Pool × Nat)) := do
  let page ← pool.get (.page i)
  if page.slab ≠ busy then
    match clearBit page.slab 0 0 64 with
    | none => return none
    | some b =>
      let w := setBit page.slab b
      let pool ← pool.modify (.page i) fun h => { h with slab := w }
      let p := pool.address i + b <<< shift
      if w = busy then return some (← retire pool (.page i) .exact, p)
      return some (pool, p)
  return none

/-- The bits of a `slab` that stand for `n` chunks. -/
def bigMask (n : Nat) : Nat := (1 <<< n - 1) <<< mapShift

/-- A chunk of a page whose `slab` has the bitmap of its `n` chunks in its upper half. -/
def takeBig (n : Nat) (pool : Pool) (shift i : Nat) : Option (Option (Pool × Nat)) := do
  let page ← pool.get (.page i)
  if page.slab &&& mapMask ≠ bigMask n then
    match clearBit page.slab mapShift 0 n with
    | none => return none
    | some b =>
      let w := setBit page.slab (mapShift + b)
      let pool ← pool.modify (.page i) fun h => { h with slab := w }
      let p := pool.address i + b <<< shift
      if w &&& mapMask = bigMask n then return some (← retire pool (.page i) .big, p)
      return some (pool, p)
  return none

/-- The pages of a slot, one after the other, from `r` on. -/
def takeFrom (take : Pool → Nat → Option (Option (Pool × Nat))) :
    Nat → Pool → Option Ref → Option (Option (Pool × Nat))
  | _, _, none => some none
  | 0, _, some _ => none
  | fuel + 1, pool, some r =>
    match r with
    | .page i => do
      match ← take pool i with
      | some result => return some result
      | none =>
        let page ← pool.get r
        takeFrom take fuel pool page.next
    | _ => none

/-- The kind of the pages whose chunks have this size. -/
def Pool.kindOf (pool : Pool) (shift : Nat) : Kind :=
  if shift < pool.exactShift then .small else if shift = pool.exactShift then .exact else .big

/-- A chunk of one of the pages that the slot has. -/
def takeChunk (pool : Pool) (shift : Nat) (first : Ref) : Option (Option (Pool × Nat)) := do
  let fuel := pool.pages + 1
  match pool.kindOf shift with
  | .small => takeFrom (takeSmall · shift ·) fuel pool (some first)
  | .exact => takeFrom (takeExact · shift ·) fuel pool (some first)
  | _ =>
    -- how many chunks the pages have is read from the first of them
    let page ← pool.get first
    let n := 1 <<< (pool.pageShift - (page.slab &&& shiftMask))
    takeFrom (takeBig n · shift ·) fuel pool (some first)

/-- `bitmap[i] = 0` for the words from `i` on. -/
def clearWords : Nat → Nat → Nat → Pool → Pool
  | _, _, 0, pool => pool
  | bitmap, i, n + 1, pool => clearWords bitmap (i + 1) n (pool.putWord (bitmap + i * 8) 0)

/-- A new page for the slot, and its first chunk. -/
def newChunk (pool : Pool) (shift slot : Nat) : Option (Pool × Option Nat) := do
  let (pool, page) ← allocPages pool 1
  match page with
  | none => return (pool, none)
  | some i =>
    let kind := pool.kindOf shift
    let (pool, slab, offset) :=
      match kind with
      | .small =>
        let n := pool.reserved shift
        let bitmap := pool.address i
        let pool := pool.putWord bitmap (2 <<< n - 1)
        (clearWords bitmap 1 (pool.map shift - 1) pool, shift, 1 <<< shift * n)
      | .exact => (pool, 1, 0)
      | _ => (pool, 1 <<< mapShift ||| shift, 0)
    let pool ← pool.modify (.page i) fun _ =>
      { slab := slab, next := some (.slot slot), prev := some (.slot slot), kind := kind }
    let pool ← pool.modify (.slot slot) fun h => { h with next := some (.page i) }
    return (pool, some (pool.address i + offset))

/-- `for (s = size - 1; s >>= 1; shift++)` -/
def shiftOf (s shift : Nat) : Nat :=
  if s >>> 1 = 0 then shift else shiftOf (s >>> 1) (shift + 1)
termination_by s
decreasing_by
  rw [Nat.shiftRight_eq_div_pow] at *
  omega

/-- `pgrest_slab_do_alloc`: the address of the block, if there is one. -/
def doAlloc (pool : Pool) (size : Nat) : Option (Pool × Option Nat) := do
  if size > pool.maxSize then
    let (pool, page) ←
      allocPages pool (size >>> pool.pageShift + if size % pool.pagesize ≠ 0 then 1 else 0)
    return (pool, page.map pool.address)
  let shift := if size > pool.minSize then shiftOf (size - 1) 1 else pool.minShift
  let slot := shift - pool.minShift
  let first ← (← pool.get (.slot slot)).next
  let page ← pool.get first
  if page.next ≠ some first then
    match ← takeChunk pool shift first with
    | some (pool, p) => return (pool, some p)
    | none => newChunk pool shift slot
  else newChunk pool shift slot

/-- The word at `a` after `MemSet(p, 0, size)`. -/
def zeroed (p size a w : Nat) : Nat :=
  (List.range 8).foldl (fun w j => if p ≤ a + j ∧ a + j < p + size then w &&& (busy - 0xff <<< (8 * j)) else w) w

/-- `pgrest_slab_do_calloc` -/
def doCalloc (pool : Pool) (size : Nat) : Option (Pool × Option Nat) := do
  let (pool, p) ← doAlloc pool size
  match p with
  | none => return (pool, none)
  | some p => return ({ pool with word := fun a => zeroed p size a (pool.word a) }, some p)

/-! ### `pgrest_slab_do_free` -/

/-- A full page comes back to the ring of its slot, in front. -/
def relink (pool : Pool) (i shift : Nat) (kind : Kind) : Option Pool := do
  let slot := shift - pool.minShift
  let first ← (← pool.get (.slot slot)).next
  let pool ← pool.modify (.page i) fun h => { h with next := some first }
  let pool ← pool.modify (.slot slot) fun h => { h with next := some (.page i) }
  let pool ← pool.modify (.page i) fun h => { h with prev := some (.slot slot), kind := kind }
  pool.modify first fun h => { h with prev := some (.page i), kind := kind }

/-- `PGREST_SLAB_SMALL`: the chunk at `p`, of the page `i` with the header `page`. Where nothing
is freed, because `p` is no chunk or the chunk is free, the pool stays as it is. -/
def freeSmall (pool : Pool) (i p : Nat) (page : Header) : Option Pool := do
  let shift := page.slab &&& shiftMask
  if p % 1 <<< shift ≠ 0 then return pool
  let c := (p % pool.pagesize) >>> shift
  let b := c % (8 * 8)
  let n := c / (8 * 8)
  let bitmap := p / pool.pagesize * pool.pagesize
  let words := fun (pool : Pool) n => pool.word (bitmap + n * 8)
  if !(words pool n).testBit b then return pool
  let pool ← if page.next = none then relink pool i shift .small else some pool
  let pool := pool.putWord (bitmap + n * 8) (unsetBit (words pool n) b)
  if words pool 0 &&& (busy - (1 <<< pool.reserved shift - 1)) ≠ 0 then return pool
  if anyNot 0 (words pool) 1 (pool.map shift - 1) then return pool
  freePages pool i 1

/-- `PGREST_SLAB_EXACT` -/
def freeExact (pool : Pool) (i p : Nat) (page : Header) : Option Pool := do
  let b := (p % pool.pagesize) >>> pool.exactShift
  if p % pool.exactSize ≠ 0 then return pool
  if !page.slab.testBit b then return pool
  let pool ← if page.slab = busy then relink pool i pool.exactShift .exact else some pool
  let slab := unsetBit page.slab b
  let pool ← pool.modify (.page i) fun h => { h with slab := slab }
  if slab ≠ 0 then return pool
  freePages pool i 1

/-- `PGREST_SLAB_BIG` -/
def freeBig (pool : Pool) (i p : Nat) (page : Header) : Option Pool := do
  let shift := page.slab &&& shiftMask
  if p % 1 <<< shift ≠ 0 then return pool
  let b := (p % pool.pagesize) >>> shift + mapShift
  if !page.slab.testBit b then return pool
  let pool ← if page.next = none then relink pool i shift .big else some pool
  let slab := unsetBit page.slab b
  let pool ← pool.modify (.page i) fun h => { h with slab := slab }
  if slab &&& mapMask ≠ 0 then return pool
  freePages pool i 1

/-- `PGREST_SLAB_PAGE` -/
def freeRun (pool : Pool) (i p : Nat) (page : Header) : Option Pool := do
  if p % pool.pagesize ≠ 0 then return pool
  if page.slab = 0 then return pool
  if page.slab = busy then return pool
  freePages pool i (page.slab &&& (busy - pageStart))

/-- `pgrest_slab_do_free` -/
def doFree (pool : Pool) (p : Nat) : Option Pool := do
  if p < pool.start ∨ p > pool.stop then return pool
  let i := (p - pool.start) >>> pool.pageShift
  let page ← pool.get (.page i)
  match page.kind with
  | .small => freeSmall pool i p page
  | .exact => freeExact pool i p page
  | .big => freeBig pool i p page
  | .page => freeRun pool i p page

end PgRest.Slab
