import PgRest.Http.Extend

/-! The slices of a parsed head when `pgrest_http_extend_body_buffer` grows the buffer that
holds it, with `split` off and one buffer for the head and the body.

A slice is an address and a length, and what it stands for is read from the memory the buffer
has: old memory that has been freed or unmapped holds nothing. The headers are an array that
is copied when it grows, and a pointer to a header, such as `host`, stays in the memory the
array had when it was taken. -/
namespace PgRest.Http.Slices
open Memory

/-- `pgrest_string_t`, by its address; NULL is zero. -/
structure Slice where
  base : Int := 0
  len : Nat := 0
deriving DecidableEq, Repr

/-- `pgrest_param_t` in `headers_in.headers` -/
structure HeaderSlices where
  key : Slice
  value : Slice
deriving DecidableEq, Repr

/-- `pgrest_http_headers_in_t` -/
structure HeadersIn where
  /-- the memory that `headers.elts` has left -/
  left : List (List HeaderSlices) := []
  /-- `headers.elts` -/
  elts : List HeaderSlices := []
  /-- `headers.capacity` -/
  capacity : Nat := 10
  /-- `host` and its like, as far as they are set: the memory of the array, in its order, and
  the index in it -/
  pointers : List (Nat × Nat) := []
  user : Slice := {}
  passwd : Slice := {}
  server : Slice := {}
deriving DecidableEq, Repr

/-- `pgrest_http_header_add`, and whether a handler keeps the pointer to the new element. -/
def headerAdd (h : HeadersIn) (header : HeaderSlices × Bool) : HeadersIn :=
  let h :=
    if h.elts.length = h.capacity then { h with left := h.left ++ [h.elts], capacity := h.capacity * 2 }
    else h
  { h with
    elts := h.elts ++ [header.1]
    pointers := if header.2 then h.pointers ++ [(h.left.length, h.elts.length)] else h.pointers }

/-- The loop of `pgrest_http_init_headers`. -/
def headerAddAll (h : HeadersIn) (headers : List (HeaderSlices × Bool)) : HeadersIn :=
  headers.foldl headerAdd h

/-- What a pointer into the array, or into memory it has left, leads to. -/
def HeadersIn.at (h : HeadersIn) (q : Nat × Nat) : Option HeaderSlices :=
  if q.1 = h.left.length then h.elts[q.2]? else h.left[q.1]?.bind (·[q.2]?)

/-- The request, as far as `pgrest_http_extend_body_buffer` sees it. -/
structure BodyRequest where
  /-- the address of `request_body->buffer->start` -/
  address : Int
  /-- `request_body->buffer`, `header_in` and `conn->buffer` -/
  buf : Buffer
  path : Slice
  headersIn : HeadersIn

/-- `base = new + (base - old)` -/
def Slice.align (old new : Int) (s : Slice) : Slice := { s with base := new + (s.base - old) }

/-- `pgrest_http_header_align` -/
def headerAlign (h : HeadersIn) (old new : Int) : HeadersIn :=
  let align := fun s : Slice => if s.base ≠ 0 then s.align old new else s
  { h with
    elts := h.elts.map fun e => { key := e.key.align old new, value := e.value.align old new }
    user := align h.user, passwd := align h.passwd, server := align h.server }

/-- What `pgrest_http_extend_body_buffer` leaves when it returns `PGREST_OK`. New memory, where
the reservation needs some, starts at `new`. -/
def extendBodyBuffer (calls : Calls) (new : Int) (r : BodyRequest) : Option BodyRequest :=
  match reserve calls r.buf allocsetBufferMinsize with
  | .ok buf =>
    if allocsetBufferMinsize ≤ r.buf.freeSize ∨ (r.buf.size + allocsetBufferMinsize) * 2 ≤ r.buf.capacity then
      some { r with buf := buf }
    else if r.address ≠ new then
      some
        { address := new, buf := buf, path := r.path.align r.address new
          headersIn := headerAlign r.headersIn r.address new }
    else some { r with buf := buf }
  | _ => none

/-- The bytes a slice stands for, where there is memory. -/
def BodyRequest.bytes (r : BodyRequest) (s : Slice) : Option Bytes :=
  if s.len = 0 then some []
  else if r.address ≤ s.base ∧ s.base + s.len ≤ r.address + r.buf.capacity then
    some ((r.buf.start.drop (s.base - r.address).toNat).take s.len)
  else none

/-- Where a request has a slice: its path and its like, a header, or the header with a number
that a pointer has been kept to. -/
inductive Place where
  | path
  | user
  | passwd
  | server
  | key (i : Nat)
  | value (i : Nat)
  | pointedKey (i : Nat)
  | pointedValue (i : Nat)
deriving DecidableEq, Repr

/-- The header with the number `i` that a pointer leads to. -/
def HeadersIn.pointed (h : HeadersIn) (i : Nat) : Option HeaderSlices :=
  (h.pointers.find? (·.2 = i)).bind h.at

def BodyRequest.slice (r : BodyRequest) : Place → Option Slice
  | .path => some r.path
  | .user => some r.headersIn.user
  | .passwd => some r.headersIn.passwd
  | .server => some r.headersIn.server
  | .key i => r.headersIn.elts[i]?.map (·.key)
  | .value i => r.headersIn.elts[i]?.map (·.value)
  | .pointedKey i => (r.headersIn.pointed i).map (·.key)
  | .pointedValue i => (r.headersIn.pointed i).map (·.value)

/-- The head stands for the same bytes. -/
def HeadKept (r r' : BodyRequest) : Prop :=
  ∀ p s, r.slice p = some s → s.base ≠ 0 → ∃ s', r'.slice p = some s' ∧ r'.bytes s' = r.bytes s

/-- The slices lie inside the unread window. -/
def BodyRequest.Inside (r : BodyRequest) : Prop :=
  ∀ p s, r.slice p = some s → s.base ≠ 0 →
    r.address + r.buf.pos ≤ s.base ∧ s.base + s.len ≤ r.address + r.buf.pos + r.buf.size

/-- The request with other bytes in the window. -/
def BodyRequest.withData (r : BodyRequest) (data : Bytes) : BodyRequest :=
  { r with buf := { r.buf with data := data } }

/-- The number of a header that is reached through a pointer. -/
def Place.number : Place → Option Nat
  | .pointedKey i => some i
  | .pointedValue i => some i
  | _ => none

/-- The array of `count` headers has grown since the header with the number `i` was added. -/
def Moved (count i : Nat) : Prop := ∃ j, i < 10 <<< j ∧ 10 <<< j < count

/-- What holds at a place for its slice to follow the bytes that move: the window moves to the
start of the memory, but not over the slice; or the new memory has the window where the old had
it, and no pointer that is left behind leads to the slice. -/
def FollowsAt (r : BodyRequest) (p : Place) (s : Slice) : Prop :=
  if (r.buf.size + allocsetBufferMinsize) * 2 ≤ r.buf.capacity then r.address + r.buf.size ≤ s.base
  else
    (r.buf.pos = 0 ∨ (r.buf.fd.isSome = true ∧
      bufferLimitSize < grow r.buf.size allocsetBufferMinsize r.buf.capacity)) ∧
      ∀ i, p.number = some i → ¬Moved r.headersIn.elts.length i

/-- Nothing moves, or each slice follows. -/
def Follows (r : BodyRequest) : Prop :=
  allocsetBufferMinsize ≤ r.buf.freeSize ∨
    ∀ p s, r.slice p = some s → s.base ≠ 0 → s.len ≠ 0 → FollowsAt r p s

/-! ### The array of headers -/

/-- The array has doubled as often as it had to, and what it has left holds the headers it had. -/
structure HeadersIn.Grown (h : HeadersIn) : Prop where
  capacity : h.capacity = 10 <<< h.left.length
  few : h.elts.length ≤ h.capacity
  more : ∀ j < h.left.length, 10 <<< j < h.elts.length
  left : ∀ b elts, h.left[b]? = some elts → ∀ i < 10 <<< b, elts[i]? = h.elts[i]?
  pointers : ∀ q ∈ h.pointers, q.2 < h.elts.length ∧ q.2 < 10 <<< q.1 ∧ ∀ j < q.1, 10 <<< j ≤ q.2

theorem headerAdd_grown {h : HeadersIn} (hg : h.Grown) (header : HeaderSlices × Bool) :
    (headerAdd h header).Grown := by
  -- the array with room for one more
  have hroom : ∃ left capacity, headerAdd h header =
      { h with
        left := left, capacity := capacity, elts := h.elts ++ [header.1]
        pointers := if header.2 then h.pointers ++ [(left.length, h.elts.length)] else h.pointers } ∧
      capacity = 10 <<< left.length ∧ h.elts.length < capacity ∧ (∀ j < left.length, 10 <<< j ≤ h.elts.length) ∧
      ∀ b elts, left[b]? = some elts → ∀ i < 10 <<< b, i < h.elts.length ∧ elts[i]? = h.elts[i]? := by
    have hcap := hg.capacity
    have hfew := hg.few
    have hleft : ∀ b elts, h.left[b]? = some elts → ∀ i < 10 <<< b, i < h.elts.length ∧ elts[i]? = h.elts[i]? :=
      fun b elts hb i hi => by
        have := hg.more b (List.getElem?_eq_some_iff.mp hb).1
        exact ⟨by omega, hg.left b elts hb i hi⟩
    by_cases hfull : h.elts.length = h.capacity
    · have hten : 10 ≤ 10 <<< h.left.length := Nat.le_shiftLeft
      refine ⟨h.left ++ [h.elts], h.capacity * 2, by simp only [headerAdd, if_pos hfull], ?_, ?_, ?_, ?_⟩
      · rw [List.length_append, List.length_singleton, Nat.shiftLeft_succ, hcap, Nat.mul_comm]
      · omega
      · intro j hj
        rw [List.length_append, List.length_singleton] at hj
        rcases Nat.lt_succ_iff_lt_or_eq.mp hj with hj | rfl
        · exact Nat.le_of_lt (hg.more j hj)
        · omega
      · intro b elts hb i hi
        rw [List.getElem?_append] at hb
        split at hb
        · exact hleft b elts hb i hi
        · next hge =>
          obtain ⟨hlt, hb⟩ := List.getElem?_eq_some_iff.mp hb
          simp only [List.length_singleton] at hlt
          obtain rfl : b = h.left.length := by omega
          simp only [Nat.sub_self, List.getElem_cons_zero] at hb
          subst hb
          exact ⟨by omega, rfl⟩
    · exact ⟨h.left, h.capacity, by simp only [headerAdd, if_neg hfull], hcap, by omega,
        fun j hj => Nat.le_of_lt (hg.more j hj), hleft⟩
  obtain ⟨left, capacity, heq, hcap, hlt, hmore, hleft⟩ := hroom
  rw [heq]
  refine ⟨hcap, ?_, fun j hj => ?_, fun b elts hb i hi => ?_, fun q hq => ?_⟩
  · simp only [List.length_append, List.length_singleton]
    omega
  · simp only [List.length_append, List.length_singleton]
    have := hmore j hj
    omega
  · obtain ⟨hin, hsame⟩ := hleft b elts hb i hi
    rw [hsame, List.getElem?_append_left hin]
  · simp only [List.length_append, List.length_singleton]
    have hold : q ∈ h.pointers → q.2 < h.elts.length + 1 ∧ q.2 < 10 <<< q.1 ∧ ∀ j < q.1, 10 <<< j ≤ q.2 := by
      intro hq
      obtain ⟨hlt, hq⟩ := hg.pointers q hq
      exact ⟨by omega, hq⟩
    dsimp only at hq
    split at hq
    · rcases List.mem_append.mp hq with hq | hq
      · exact hold hq
      · obtain rfl := List.mem_singleton.mp hq
        exact ⟨Nat.lt_succ_self _, hcap ▸ hlt, hmore⟩
    · exact hold hq

theorem headerAddAll_grown {h : HeadersIn} (hg : h.Grown) (headers : List (HeaderSlices × Bool)) :
    (headerAddAll h headers).Grown := by
  unfold headerAddAll
  induction headers generalizing h with
  | nil => exact hg
  | cons header headers ih => exact ih (headerAdd_grown hg header)

theorem grown_init : ({} : HeadersIn).Grown :=
  ⟨rfl, Nat.zero_le _, by simp, by simp, by simp⟩

/-- The headers have been added, whatever has become of `user`, `passwd` and `server`. -/
def HeadersIn.Added (h : HeadersIn) : Prop :=
  ∃ headers, headerAddAll {} headers = { h with user := {}, passwd := {}, server := {} }

theorem HeadersIn.Added.grown {h : HeadersIn} (ha : h.Added) : h.Grown := by
  obtain ⟨headers, heq⟩ := ha
  have hg := headerAddAll_grown grown_init headers
  rw [heq] at hg
  exact ⟨hg.capacity, hg.few, hg.more, hg.left, hg.pointers⟩

/-- A pointer to a header leads into the array, or into memory the array has left since. -/
theorem HeadersIn.Grown.pointed {h : HeadersIn} (hg : h.Grown) {i : Nat} {e : HeaderSlices}
    (he : h.pointed i = some e) : ∃ b, h.pointers.find? (·.2 = i) = some (b, i) ∧ h.at (b, i) = some e ∧
      (b ≠ h.left.length ↔ Moved h.elts.length i) := by
  obtain ⟨q, hq, hat⟩ := Option.bind_eq_some_iff.mp he
  obtain ⟨b, k⟩ := q
  obtain rfl : k = i := by simpa using List.find?_some hq
  obtain ⟨-, hlt, hmore⟩ := hg.pointers _ (List.mem_of_find?_eq_some hq)
  have hcap := hg.capacity
  have hfew := hg.few
  refine ⟨b, hq, hat, ?_, ?_⟩
  · intro hne
    have hb : b < h.left.length := by
      rw [HeadersIn.at, if_neg hne] at hat
      obtain ⟨elts, helts, -⟩ := Option.bind_eq_some_iff.mp hat
      exact (List.getElem?_eq_some_iff.mp helts).1
    exact ⟨b, hlt, hg.more b hb⟩
  · rintro ⟨j, hij, hj⟩ rfl
    rcases Nat.lt_or_ge j h.left.length with hjb | hjb
    · have := hmore j hjb
      omega
    · have : 10 <<< h.left.length ≤ 10 <<< j := by
        rw [Nat.shiftLeft_eq, Nat.shiftLeft_eq]
        exact Nat.mul_le_mul_left 10 (Nat.pow_le_pow_right (by decide) hjb)
      omega

/-! ### Aligning -/

/-- The request with new memory, its slices aligned. -/
def BodyRequest.aligned (r : BodyRequest) (new : Int) (buf : Buffer) : BodyRequest where
  address := new
  buf := buf
  path := r.path.align r.address new
  headersIn := headerAlign r.headersIn r.address new

theorem headerAlign_at (h : HeadersIn) (old new : Int) (q : Nat × Nat) : (headerAlign h old new).at q =
    if q.1 = h.left.length then (h.at q).map fun e => { key := e.key.align old new, value := e.value.align old new }
    else h.at q := by
  have hleft : (headerAlign h old new).left = h.left := rfl
  unfold HeadersIn.at
  rw [hleft]
  by_cases hq : q.1 = h.left.length
  · simp only [if_pos hq]
    exact List.getElem?_map ..
  · simp only [if_neg hq]

/-- A slice is aligned, unless a pointer that has been left behind leads to it. -/
theorem slice_aligned {r : BodyRequest} (hg : r.headersIn.Grown) {p : Place} {s : Slice} (hs : r.slice p = some s)
    (hbase : s.base ≠ 0) (new : Int) (buf : Buffer) :
    ((∃ i, p.number = some i ∧ Moved r.headersIn.elts.length i) → (r.aligned new buf).slice p = some s) ∧
      ((∀ i, p.number = some i → ¬Moved r.headersIn.elts.length i) →
        (r.aligned new buf).slice p = some (s.align r.address new)) := by
  have hpointed : ∀ {i : Nat} {e : HeaderSlices} (part : HeaderSlices → Slice), r.headersIn.pointed i = some e →
      (∀ e : HeaderSlices, part { key := e.key.align r.address new, value := e.value.align r.address new } =
        (part e).align r.address new) →
      (Moved r.headersIn.elts.length i →
        ((headerAlign r.headersIn r.address new).pointed i).map part = some (part e)) ∧
      (¬Moved r.headersIn.elts.length i →
        ((headerAlign r.headersIn r.address new).pointed i).map part = some ((part e).align r.address new)) := by
    intro i e part he hpart
    obtain ⟨b, hfind, hat, hmoved⟩ := hg.pointed he
    have hsame : (headerAlign r.headersIn r.address new).pointed i =
        (headerAlign r.headersIn r.address new).at (b, i) := by
      show (r.headersIn.pointers.find? (·.2 = i)).bind _ = _
      rw [hfind, Option.bind_some]
    rw [hsame, headerAlign_at, ← hmoved]
    refine ⟨fun hne => ?_, fun heq => ?_⟩
    · rw [if_neg hne, hat, Option.map_some]
    · rw [if_pos (by simpa using heq), hat, Option.map_some, Option.map_some, hpart]
  have hheader : ∀ {i : Nat} {e : HeaderSlices}, r.headersIn.elts[i]? = some e →
      (headerAlign r.headersIn r.address new).elts[i]? =
        some { key := e.key.align r.address new, value := e.value.align r.address new } := by
    intro i e he
    simp only [headerAlign, List.getElem?_map, he, Option.map_some]
  cases p with
  | path =>
    cases hs
    exact ⟨fun h => by simp [Place.number] at h, fun _ => rfl⟩
  | user =>
    cases hs
    exact ⟨fun h => by simp [Place.number] at h, fun _ => congrArg some (if_pos hbase)⟩
  | passwd =>
    cases hs
    exact ⟨fun h => by simp [Place.number] at h, fun _ => congrArg some (if_pos hbase)⟩
  | server =>
    cases hs
    exact ⟨fun h => by simp [Place.number] at h, fun _ => congrArg some (if_pos hbase)⟩
  | key i =>
    obtain ⟨e, he, rfl⟩ := Option.map_eq_some_iff.mp hs
    refine ⟨fun h => by simp [Place.number] at h, fun _ => ?_⟩
    show ((headerAlign r.headersIn r.address new).elts[i]?).map (·.key) = _
    rw [hheader he, Option.map_some]
  | value i =>
    obtain ⟨e, he, rfl⟩ := Option.map_eq_some_iff.mp hs
    refine ⟨fun h => by simp [Place.number] at h, fun _ => ?_⟩
    show ((headerAlign r.headersIn r.address new).elts[i]?).map (·.value) = _
    rw [hheader he, Option.map_some]
  | pointedKey i =>
    obtain ⟨e, he, rfl⟩ := Option.map_eq_some_iff.mp hs
    obtain ⟨hmoved, hfollows⟩ := hpointed (·.key) he fun _ => rfl
    refine ⟨fun h => ?_, fun h => hfollows (h i rfl)⟩
    obtain ⟨j, hj, hmove⟩ := h
    cases hj
    exact hmoved hmove
  | pointedValue i =>
    obtain ⟨e, he, rfl⟩ := Option.map_eq_some_iff.mp hs
    obtain ⟨hmoved, hfollows⟩ := hpointed (·.value) he fun _ => rfl
    refine ⟨fun h => ?_, fun h => hfollows (h i rfl)⟩
    obtain ⟨j, hj, hmove⟩ := h
    cases hj
    exact hmoved hmove

/-! ### The bytes -/

theorem bytes_at {r : BodyRequest} {s : Slice} {o : Nat} (hbase : s.base = r.address + o) (hlen : s.len ≠ 0)
    (hin : o + s.len ≤ r.buf.capacity) : r.bytes s = some ((r.buf.start.drop o).take s.len) := by
  have ho : (s.base - r.address).toNat = o := by omega
  rw [BodyRequest.bytes, if_neg hlen, if_pos (by omega), ho]

/-- Two stretches of memory hold the same bytes. -/
theorem stretch_eq {l l' : Bytes} {o o' n : Nat} (h : ∀ i < n, l[o + i]? = l'[o' + i]?) :
    (l.drop o).take n = (l'.drop o').take n := by
  apply List.ext_getElem?
  intro i
  rw [List.getElem?_take, List.getElem?_take]
  split
  · next hi => rw [List.getElem?_drop, List.getElem?_drop, h i hi]
  · rfl

/-- What a slice stands for begins with the byte at its base. -/
theorem bytes_first {r : BodyRequest} {s : Slice} {o : Nat} {bs : Bytes} (hbase : s.base = r.address + o)
    (hlen : s.len ≠ 0) (h : r.bytes s = some bs) : r.buf.start[o]? = bs[0]? := by
  have ho : (s.base - r.address).toNat = o := by omega
  rw [BodyRequest.bytes, if_neg hlen] at h
  split at h
  · cases h
    rw [ho, List.getElem?_take_of_lt (Nat.pos_of_ne_zero hlen), List.getElem?_drop, Nat.add_zero]
  · cases h

section
variable (buf : Buffer) {o : Nat}

theorem start_window (h : o < buf.size) : buf.start[buf.pos + o]? = buf.data[o]? := by
  have hdata : buf.pos + o < (buf.before ++ buf.data).length := by
    rw [List.length_append]
    exact Nat.add_lt_add_left h _
  rw [Buffer.start, List.getElem?_append_left hdata, Buffer.pos, List.getElem?_append_right (Nat.le_add_right ..),
    Nat.add_sub_cancel_left]

theorem moved_window (h : o < buf.size) : buf.moved.start[o]? = buf.data[o]? :=
  List.getElem?_append_left h

theorem moved_behind (h : buf.size ≤ o) : buf.moved.start[o]? = buf.start[o]? := by
  show (buf.data ++ buf.start.drop buf.size)[o]? = _
  rw [List.getElem?_append_right h, List.getElem?_drop]
  congr 1
  simp only [Buffer.size] at h ⊢
  omega

theorem moved_capacity : buf.moved.capacity = buf.capacity := by
  simp only [Buffer.moved, Buffer.capacity, Buffer.start, Buffer.size, List.length_append, List.length_drop,
    List.length_nil]
  omega

/-- A byte of the window that is the only one of its kind is not where it was after the window
has moved over that. -/
theorem moved_mark (hmark : ∀ k, buf.data[k]? = some 1 ↔ k = o) (hpos : buf.pos ≠ 0)
    (h : buf.pos + o < buf.size) : buf.moved.start[buf.pos + o]? ≠ some 1 := by
  rw [moved_window buf h, ne_eq, hmark]
  omega

/-- Nor is it in a copy, where there are zeros behind the window. -/
theorem copied_mark (hmark : ∀ k, buf.data[k]? = some 1 ↔ k = o) (hpos : buf.pos ≠ 0) (capacity : Nat)
    (fd : Option Nat) : (buf.copied capacity fd).start[buf.pos + o]? ≠ some 1 := by
  simp only [Buffer.copied, Buffer.start, List.nil_append]
  rcases Nat.lt_or_ge (buf.pos + o) buf.data.length with hlt | hge
  · rw [List.getElem?_append_left hlt, ne_eq, hmark]
    omega
  · rw [List.getElem?_append_right hge, List.getElem?_replicate]
    split <;> simp

end

/-! ### Extending -/

theorem extendBodyBuffer_cases {calls : Calls} {new : Int} {r r' : BodyRequest} (hne : r.address ≠ new)
    (h : extendBodyBuffer calls new r = some r') :
    (allocsetBufferMinsize ≤ r.buf.freeSize ∧ r' = r) ∨
      (¬allocsetBufferMinsize ≤ r.buf.freeSize ∧ (r.buf.size + allocsetBufferMinsize) * 2 ≤ r.buf.capacity ∧
        r' = { r with buf := r.buf.moved }) ∨
      (¬allocsetBufferMinsize ≤ r.buf.freeSize ∧ ¬(r.buf.size + allocsetBufferMinsize) * 2 ≤ r.buf.capacity ∧
        ∃ buf, r' = r.aligned new buf ∧
          ((¬(r.buf.fd.isSome = true ∧ bufferLimitSize < grow r.buf.size allocsetBufferMinsize r.buf.capacity) ∧
              ∃ fd, buf = r.buf.copied (grow r.buf.size allocsetBufferMinsize r.buf.capacity) fd) ∨
            ((r.buf.fd.isSome = true ∧ bufferLimitSize < grow r.buf.size allocsetBufferMinsize r.buf.capacity) ∧
              buf = r.buf.remapped (grow r.buf.size allocsetBufferMinsize r.buf.capacity)))) := by
  unfold extendBodyBuffer at h
  split at h
  · next buf hreserve =>
    rcases reserve_inv hreserve with ⟨hfree, rfl⟩ | ⟨hfree, hmove, rfl⟩ | ⟨hfree, hmove, hnew⟩
    · rw [if_pos (Or.inl hfree)] at h
      cases h
      exact Or.inl ⟨hfree, rfl⟩
    · rw [if_pos (Or.inr hmove)] at h
      cases h
      exact Or.inr (Or.inl ⟨hfree, hmove, rfl⟩)
    · rw [if_neg (by simp only [hfree, hmove, or_self, not_false_eq_true]), if_pos hne] at h
      cases h
      exact Or.inr (Or.inr ⟨hfree, hmove, buf, rfl, hnew⟩)
  · cases h

section
variable {calls : Calls} {new : Int} {r r' : BodyRequest} {p : Place} {s : Slice}

/-- A slice of the window lies so far behind `pos`. -/
theorem BodyRequest.Inside.offset (hin : r.Inside) (hs : r.slice p = some s) (hbase : s.base ≠ 0) :
    ∃ o : Nat, s.base = r.address + (r.buf.pos + o : Nat) ∧ o + s.len ≤ r.buf.size := by
  obtain ⟨hfrom, hto⟩ := hin p s hs hbase
  refine ⟨(s.base - (r.address + r.buf.pos)).toNat, ?_, ?_⟩
  · push_cast
    omega
  · omega

theorem window_bytes {o : Nat} (ho : s.base = r.address + (r.buf.pos + o : Nat)) (hlen : s.len ≠ 0)
    (hin : o + s.len ≤ r.buf.size) : r.bytes s = some ((r.buf.data.drop o).take s.len) := by
  have hcapacity := r.buf.capacity_eq
  rw [bytes_at ho hlen (by omega)]
  congr 1
  apply stretch_eq
  intro i hi
  rw [Nat.add_assoc]
  exact start_window r.buf (by omega)

/-- Memory elsewhere holds nothing of the slice. -/
theorem bytes_left (hlen : s.len ≠ 0) (h : s.base < r.address ∨ r.address + r.buf.capacity ≤ s.base) :
    r.bytes s = none := by
  rw [BodyRequest.bytes, if_neg hlen, if_neg (by omega)]

theorem slice_len (hg : r.headersIn.Grown) (hne : r.address ≠ new) (h : extendBodyBuffer calls new r = some r')
    (hs : r.slice p = some s) (hbase : s.base ≠ 0) : ∃ s', r'.slice p = some s' ∧ s'.len = s.len := by
  rcases extendBodyBuffer_cases hne h with ⟨-, rfl⟩ | ⟨-, -, rfl⟩ | ⟨-, -, buf, rfl, -⟩
  · exact ⟨s, hs, rfl⟩
  · exact ⟨s, by cases p <;> exact hs, rfl⟩
  · obtain ⟨hstale, hfollows⟩ := slice_aligned hg hs hbase new buf
    by_cases hmoved : ∃ i, p.number = some i ∧ Moved r.headersIn.elts.length i
    · exact ⟨s, hstale hmoved, rfl⟩
    · exact ⟨_, hfollows fun i hi hm => hmoved ⟨i, hi, hm⟩, rfl⟩

/-- A slice that follows stands for the same bytes. -/
theorem kept_at (hg : r.headersIn.Grown) (hin : r.Inside) (hpos : 0 < r.buf.capacity) (hne : r.address ≠ new)
    (h : extendBodyBuffer calls new r = some r') (hs : r.slice p = some s) (hbase : s.base ≠ 0) (hlen : s.len ≠ 0)
    (hf : ¬allocsetBufferMinsize ≤ r.buf.freeSize → FollowsAt r p s) :
    ∃ s', r'.slice p = some s' ∧ r'.bytes s' = r.bytes s := by
  obtain ⟨o, ho, hlt⟩ := hin.offset hs hbase
  have hcapacity := r.buf.capacity_eq
  obtain ⟨-, hge⟩ := grow_ge r.buf.size allocsetBufferMinsize r.buf.capacity hpos
  rcases extendBodyBuffer_cases hne h with ⟨-, rfl⟩ | ⟨hfree, hmove, rfl⟩ | ⟨hfree, hmove, buf, rfl, hbuf⟩
  · exact ⟨s, hs, rfl⟩
  · -- behind the moved window the memory is as it was
    have hbehind := hf hfree
    rw [FollowsAt, if_pos hmove, ho] at hbehind
    refine ⟨s, by cases p <;> exact hs, ?_⟩
    rw [bytes_at ho hlen (by omega),
      bytes_at (r := { r with buf := r.buf.moved }) ho hlen (by rw [moved_capacity]; omega)]
    congr 1
    apply stretch_eq
    intro i _
    exact moved_behind r.buf (by omega)
  · have hfollows := hf hfree
    rw [FollowsAt, if_neg hmove] at hfollows
    obtain ⟨hkeep, hpointer⟩ := hfollows
    refine ⟨_, (slice_aligned hg hs hbase new buf).2 hpointer, ?_⟩
    -- either way the new memory has `pos` where the old had it
    have hnew : buf.pos = r.buf.pos ∧ buf.data = r.buf.data := by
      rcases hbuf with ⟨hcopy, fd, rfl⟩ | ⟨-, rfl⟩
      · exact ⟨(hkeep.resolve_right hcopy).symm, rfl⟩
      · exact ⟨rfl, rfl⟩
    have hbase' : (s.align r.address new).base =
        (r.aligned new buf).address + ((r.aligned new buf).buf.pos + o : Nat) := by
      simp only [Slice.align, BodyRequest.aligned, ho, hnew]
      omega
    have hlt' : o + s.len ≤ (r.aligned new buf).buf.size := by
      rwa [Buffer.size, BodyRequest.aligned, hnew.2]
    rw [window_bytes ho hlen hlt, window_bytes hbase' hlen hlt', ← hnew.2]
    rfl

theorem aligned_capacity {n : Nat} {buf : Buffer} (hpos : 0 < r.buf.capacity)
    (h : (∃ fd, buf = r.buf.copied (grow r.buf.size n r.buf.capacity) fd) ∨
      buf = r.buf.remapped (grow r.buf.size n r.buf.capacity)) : buf.capacity = grow r.buf.size n r.buf.capacity := by
  have hcapacity := r.buf.capacity_eq
  obtain ⟨-, hge⟩ := grow_ge r.buf.size n r.buf.capacity hpos
  rcases h with ⟨fd, rfl⟩ | rfl
  · simp only [Buffer.copied, Buffer.capacity, Buffer.start, List.length_append, List.length_replicate,
      List.length_nil, Buffer.size] at hge hcapacity ⊢
    omega
  · simp only [Buffer.remapped, Buffer.capacity, Buffer.start, List.length_append, List.length_replicate] at hge ⊢
    omega

/-- A slice that does not follow stands for something else when its first byte is the only one of
its kind. -/
theorem lost_at (hg : r.headersIn.Grown) (hpos : 0 < r.buf.capacity)
    (hapart : new + grow r.buf.size allocsetBufferMinsize r.buf.capacity ≤ r.address ∨
      r.address + r.buf.capacity ≤ new)
    (h : extendBodyBuffer calls new r = some r') (hfree : ¬allocsetBufferMinsize ≤ r.buf.freeSize)
    (hs : r.slice p = some s) (hbase : s.base ≠ 0) (hlen : s.len ≠ 0) {o : Nat}
    (ho : s.base = r.address + (r.buf.pos + o : Nat)) (hlt : o + s.len ≤ r.buf.size)
    (hmark : ∀ k, r.buf.data[k]? = some 1 ↔ k = o) (hf : ¬FollowsAt r p s) : ¬HeadKept r r' := by
  intro hkept
  have hcapacity := r.buf.capacity_eq
  obtain ⟨s', hs', hbytes⟩ := hkept p s hs hbase
  obtain ⟨bs, hbs, hfirst⟩ : ∃ bs, r.bytes s = some bs ∧ bs[0]? = some 1 := by
    have hold := window_bytes ho hlen hlt
    refine ⟨_, hold, ?_⟩
    rw [← bytes_first ho hlen hold, start_window r.buf (by omega), hmark]
  rw [hbs] at hbytes
  rcases extendBodyBuffer_cases (by have := grow_ge r.buf.size allocsetBufferMinsize r.buf.capacity hpos; omega) h with
    ⟨hyes, -⟩ | ⟨-, hmove, rfl⟩ | ⟨-, hmove, buf, rfl, hbuf⟩
  · exact hfree hyes
  · rw [FollowsAt, if_pos hmove] at hf
    obtain rfl : s = s' := Option.some.inj (hs.symm.trans (by cases p <;> exact hs'))
    have hread := bytes_first (r := { r with buf := r.buf.moved }) ho hlen hbytes
    exact moved_mark r.buf hmark (by omega) (by omega) (hread.trans hfirst)
  · rw [FollowsAt, if_neg hmove] at hf
    obtain ⟨hstale, hfollows⟩ := slice_aligned hg hs hbase new buf
    by_cases hmoved : ∃ i, p.number = some i ∧ Moved r.headersIn.elts.length i
    · -- the pointer still leads to the old memory
      obtain rfl : s = s' := Option.some.inj ((hstale hmoved).symm.trans hs')
      have hlength := aligned_capacity hpos (hbuf.imp (·.2) (·.2))
      have hnone : (r.aligned new buf).bytes s = none := by
        refine bytes_left hlen ?_
        simp only [BodyRequest.aligned, hlength]
        omega
      rw [hnone] at hbytes
      cases hbytes
    · have hpointer : ∀ i, p.number = some i → ¬Moved r.headersIn.elts.length i :=
        fun i hi hm => hmoved ⟨i, hi, hm⟩
      obtain rfl : s.align r.address new = s' := Option.some.inj ((hfollows hpointer).symm.trans hs')
      have hbase' : (s.align r.address new).base = (r.aligned new buf).address + (r.buf.pos + o : Nat) := by
        simp only [Slice.align, BodyRequest.aligned, ho]
        omega
      have hread := (bytes_first hbase' hlen hbytes).trans hfirst
      rcases hbuf with ⟨-, fd, rfl⟩ | ⟨hmap, rfl⟩
      · exact copied_mark r.buf hmark (fun hzero => hf ⟨Or.inl hzero, hpointer⟩) _ fd hread
      · exact hf ⟨Or.inr hmap, hpointer⟩

end

/-! ### Other bytes -/

section
variable {calls : Calls} {new : Int} {r : BodyRequest} {data : Bytes}

/-- The bytes in the window decide nothing about where it lies. -/
theorem withData_layout (hlen : data.length = r.buf.size) :
    (r.withData data).buf.size = r.buf.size ∧ (r.withData data).buf.capacity = r.buf.capacity ∧
      (r.withData data).buf.freeSize = r.buf.freeSize := by
  refine ⟨hlen, ?_, ?_⟩
  · simp only [BodyRequest.withData, Buffer.capacity, Buffer.start, List.length_append, hlen, Buffer.size]
  · rw [Buffer.freeSize_eq, Buffer.freeSize_eq]
    rfl

theorem slice_withData (p : Place) : (r.withData data).slice p = r.slice p := by
  cases p <;> rfl

theorem inside_withData (hlen : data.length = r.buf.size) (hin : r.Inside) : (r.withData data).Inside := by
  intro p s hs hbase
  rw [slice_withData] at hs
  rw [(withData_layout hlen).1]
  exact hin p s hs hbase

theorem followsAt_withData (hlen : data.length = r.buf.size) (p : Place) (s : Slice) :
    FollowsAt (r.withData data) p s ↔ FollowsAt r p s := by
  obtain ⟨hsize, hcap, -⟩ := withData_layout hlen
  unfold FollowsAt
  rw [hsize, hcap]
  rfl

/-- Whether it succeeds does not depend on the bytes in the window. -/
theorem extendBodyBuffer_withData (hlen : data.length = r.buf.size) (h : extendBodyBuffer calls new r ≠ none) :
    ∃ r', extendBodyBuffer calls new (r.withData data) = some r' := by
  obtain ⟨hsize, hcap, hfree⟩ := withData_layout hlen
  have hfd : (r.withData data).buf.fd = r.buf.fd := rfl
  have hok : ∃ buf, reserve calls r.buf allocsetBufferMinsize = .ok buf := by
    cases hreserve : reserve calls r.buf allocsetBufferMinsize with
    | ok buf => exact ⟨buf, rfl⟩
    | failed fd => simp [extendBodyBuffer, hreserve] at h
    | crashed => simp [extendBodyBuffer, hreserve] at h
  rw [reserve_ok_iff, ← hsize, ← hcap, ← hfree, ← hfd, ← reserve_ok_iff] at hok
  obtain ⟨buf, hbuf⟩ := hok
  unfold extendBodyBuffer
  rw [hbuf]
  dsimp only
  split
  · exact ⟨_, rfl⟩
  · split <;> exact ⟨_, rfl⟩

end

/-- Zeros but for one byte. -/
def marked (n o : Nat) : Bytes := (List.replicate n 0).set o 1

theorem marked_mark {n o : Nat} (h : o < n) (k : Nat) : (marked n o)[k]? = some 1 ↔ k = o := by
  rw [marked, List.getElem?_set, List.length_replicate, List.getElem?_replicate]
  split
  · next heq => simp [heq]
  · next hne =>
    refine iff_of_false ?_ (Ne.symm hne)
    split <;> simp

/-- **Growing the body buffer keeps the head**, whatever its bytes are, exactly when nothing moves
or each slice follows what moves: the headers have been added one by one, all slices lie in the
window, and new memory lies apart from the old. `user` and `passwd` are never set. -/
theorem extendBodyBuffer_keeps {calls : Calls} {new : Int} {r : BodyRequest} (ha : r.headersIn.Added)
    (hin : r.Inside) (hpos : 0 < r.buf.capacity) (hok : extendBodyBuffer calls new r ≠ none)
    (hapart : new + grow r.buf.size allocsetBufferMinsize r.buf.capacity ≤ r.address ∨
      r.address + r.buf.capacity ≤ new) :
    (∀ data r', data.length = r.buf.size → extendBodyBuffer calls new (r.withData data) = some r' →
      HeadKept (r.withData data) r') ↔ Follows r := by
  constructor
  · intro hkept
    refine or_iff_not_imp_left.mpr fun hfree p s hs hbase hlen => ?_
    by_contra hf
    obtain ⟨o, ho, hlt⟩ := hin.offset hs hbase
    have hmarked : (marked r.buf.size o).length = r.buf.size := by
      rw [marked, List.length_set, List.length_replicate]
    obtain ⟨hsize, hcap, hfree'⟩ := withData_layout hmarked
    obtain ⟨r', h⟩ := extendBodyBuffer_withData hmarked hok
    refine lost_at (r := r.withData (marked r.buf.size o)) ha.grown (hcap ▸ hpos) ?_ h ?_ ((slice_withData p).trans hs)
      hbase hlen ho (hsize.symm ▸ hlt) (marked_mark (by omega)) ?_ (hkept _ r' hmarked h)
    · rw [hsize, hcap]
      exact hapart
    · rwa [hfree']
    · rwa [followsAt_withData hmarked]
  · intro hf data r' hdata h p s hs hbase
    have hne : (r.withData data).address ≠ new := by
      have := grow_ge r.buf.size allocsetBufferMinsize r.buf.capacity hpos
      show r.address ≠ new
      omega
    by_cases hlen : s.len = 0
    · obtain ⟨s', hs', hlen'⟩ := slice_len (r := r.withData data) ha.grown hne h hs hbase
      refine ⟨s', hs', ?_⟩
      rw [BodyRequest.bytes, if_pos (hlen'.trans hlen), BodyRequest.bytes, if_pos hlen]
    · obtain ⟨-, hcap, hfree⟩ := withData_layout hdata
      refine kept_at (r := r.withData data) ha.grown (inside_withData hdata hin) (hcap ▸ hpos) hne h hs hbase hlen ?_
      intro hnot
      rw [followsAt_withData hdata]
      rw [slice_withData] at hs
      exact hf.resolve_left (hfree ▸ hnot) p s hs hbase hlen

theorem extendBodyBuffer_succeeds {calls : Calls} (hc : calls.Succeed) (new : Int) (r : BodyRequest) :
    ∃ r', extendBodyBuffer calls new r = some r' := by
  obtain ⟨buf, hbuf⟩ := reserve_succeeds hc r.buf allocsetBufferMinsize
  unfold extendBodyBuffer
  rw [hbuf]
  dsimp only
  split
  · exact ⟨_, rfl⟩
  · split <;> exact ⟨_, rfl⟩

/-- A full buffer with one byte in its window, and `count` headers and the path at that. -/
def crammed (before : Bytes) (count : Nat) : BodyRequest :=
  let s : Slice := { base := 1 + before.length, len := 1 }
  { address := 1, buf := { before := before, data := [1], after := [] }, path := s
    headersIn := headerAddAll {} (List.replicate count ({ key := s, value := s }, true)) }

theorem HeadersIn.at_mem {h : HeadersIn} {q : Nat × Nat} {e : HeaderSlices} (he : h.at q = some e) :
    e ∈ h.elts ∨ ∃ elts ∈ h.left, e ∈ elts := by
  unfold HeadersIn.at at he
  split at he
  · exact Or.inl (List.mem_of_getElem? he)
  · obtain ⟨elts, helts, he⟩ := Option.bind_eq_some_iff.mp he
    exact Or.inr ⟨elts, List.mem_of_getElem? helts, List.mem_of_getElem? he⟩

theorem crammed_inside {before : Bytes} {count : Nat}
    (h : ∀ e ∈ (crammed before count).headersIn.elts ++ (crammed before count).headersIn.left.flatten,
      e.key = (crammed before count).path ∧ e.value = (crammed before count).path)
    (huser : (crammed before count).headersIn.user = {} ∧ (crammed before count).headersIn.passwd = {} ∧
      (crammed before count).headersIn.server = {}) : (crammed before count).Inside := by
  have hpath : (crammed before count).address + (crammed before count).buf.pos ≤ (crammed before count).path.base ∧
      (crammed before count).path.base + (crammed before count).path.len ≤
        (crammed before count).address + (crammed before count).buf.pos + (crammed before count).buf.size :=
    ⟨Int.le_refl _, Int.le_refl _⟩
  have hpointed : ∀ {i : Nat} {e : HeaderSlices}, (crammed before count).headersIn.pointed i = some e →
      e.key = (crammed before count).path ∧ e.value = (crammed before count).path := by
    intro i e he
    obtain ⟨q, -, hat⟩ := Option.bind_eq_some_iff.mp he
    refine h e (List.mem_append.mpr ?_)
    rw [List.mem_flatten]
    exact HeadersIn.at_mem hat
  intro p s hs hbase
  cases p with
  | path =>
    cases hs
    exact hpath
  | user =>
    cases hs
    exact absurd (congrArg Slice.base huser.1) hbase
  | passwd =>
    cases hs
    exact absurd (congrArg Slice.base huser.2.1) hbase
  | server =>
    cases hs
    exact absurd (congrArg Slice.base huser.2.2) hbase
  | key i =>
    obtain ⟨e, he, rfl⟩ := Option.map_eq_some_iff.mp hs
    rw [(h e (List.mem_append_left _ (List.mem_of_getElem? he))).1]
    exact hpath
  | value i =>
    obtain ⟨e, he, rfl⟩ := Option.map_eq_some_iff.mp hs
    rw [(h e (List.mem_append_left _ (List.mem_of_getElem? he))).2]
    exact hpath
  | pointedKey i =>
    obtain ⟨e, he, rfl⟩ := Option.map_eq_some_iff.mp hs
    rw [(hpointed he).1]
    exact hpath
  | pointedValue i =>
    obtain ⟨e, he, rfl⟩ := Option.map_eq_some_iff.mp hs
    rw [(hpointed he).2]
    exact hpath

/-- A request of which nothing has been consumed. -/
theorem extendBodyBuffer_keeps_crammed :
    (∀ data r', data.length = (crammed [] 1).buf.size →
      extendBodyBuffer {} 8192 ((crammed [] 1).withData data) = some r' → HeadKept ((crammed [] 1).withData data) r') ↔
      Follows (crammed [] 1) :=
  extendBodyBuffer_keeps ⟨[({ key := ⟨1, 1⟩, value := ⟨1, 1⟩ }, true)], rfl⟩ (crammed_inside (by decide) (by decide))
    (by decide) (by
      obtain ⟨r', h⟩ := @extendBodyBuffer_succeeds {} ⟨rfl, rfl, rfl, rfl⟩ 8192 (crammed [] 1)
      rw [h]
      exact Option.some_ne_none r') (Or.inr (by decide))

/-- The path is lost where a byte has been consumed in front of it, and the first of eleven
headers to the pointer that has been kept to it. -/
theorem extendBodyBuffer_loses : ((crammed [0] 0).headersIn.Added ∧ (crammed [0] 0).Inside ∧
      ∃ r', extendBodyBuffer {} 8192 (crammed [0] 0) = some r' ∧ ¬HeadKept (crammed [0] 0) r') ∧
    (crammed [] 11).headersIn.Added ∧ (crammed [] 11).Inside ∧
      ∃ r', extendBodyBuffer {} 8192 (crammed [] 11) = some r' ∧ ¬HeadKept (crammed [] 11) r' := by
  have hmark : ∀ k : Nat, ([1] : Bytes)[k]? = some 1 ↔ k = 0 := by
    intro k
    cases k <;> simp
  constructor
  · obtain ⟨r', h⟩ := @extendBodyBuffer_succeeds {} ⟨rfl, rfl, rfl, rfl⟩ 8192 (crammed [0] 0)
    have hadded : (crammed [0] 0).headersIn.Added := ⟨[], rfl⟩
    refine ⟨hadded, crammed_inside (by decide) (by decide), r', h, ?_⟩
    refine lost_at (p := .path) hadded.grown (by decide) (Or.inr (by decide)) h (by decide) rfl (by decide) (by decide)
      rfl (Nat.le_refl _) hmark ?_
    rw [FollowsAt, if_neg (by decide)]
    rintro ⟨hzero | ⟨hfd, -⟩, -⟩
    · exact absurd hzero (by decide)
    · exact absurd hfd (by decide)
  · obtain ⟨r', h⟩ := @extendBodyBuffer_succeeds {} ⟨rfl, rfl, rfl, rfl⟩ 8192 (crammed [] 11)
    have hadded : (crammed [] 11).headersIn.Added :=
      ⟨List.replicate 11 ({ key := ⟨1, 1⟩, value := ⟨1, 1⟩ }, true), rfl⟩
    refine ⟨hadded, crammed_inside (by decide) (by decide), r', h, ?_⟩
    refine lost_at (p := .pointedKey 0) hadded.grown (by decide) (Or.inr (by decide)) h (by decide) rfl (by decide)
      (by decide) rfl (Nat.le_refl _) hmark ?_
    rw [FollowsAt, if_neg (by decide)]
    rintro ⟨-, hpointer⟩
    exact hpointer 0 rfl ⟨0, by decide⟩

end PgRest.Http.Slices
