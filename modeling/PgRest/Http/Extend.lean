import PgRest.Http.HeadHandler
import PgRest.Memory.Reserve

/-! The buffers of a request grow while it is read: `pgrest_http_extend_header_buffer` before
there is a head, and `pgrest_http_extend_body_buffer` behind one, where the slices of the head
have to follow the bytes they stand for. -/
namespace PgRest.Http
open Memory

/-! ### The header buffer -/

/-- The buffers a request is read into before it has a head. -/
structure HeaderBuffers where
  /-- `req->header_in` -/
  headerIn : Buffer
  /-- `req->conn->buffer` -/
  buffer : Buffer
deriving DecidableEq, Repr

/-- What `pgrest_http_extend_header_buffer` leaves when it returns `PGREST_OK`. -/
def extendHeaderIn (conf : HeadConf) (calls : Calls) (r : HeaderBuffers) : Option HeaderBuffers :=
  match extendHeaderBuffer conf calls r.headerIn with
  | .ok buf => some { headerIn := buf, buffer := buf }
  | _ => none

/-- There is room for the next `recv`, behind the bytes that were there. -/
structure Roomy (r r' : HeaderBuffers) : Prop where
  room : 1 ≤ r'.headerIn.freeSize
  data : r'.headerIn.data = r.headerIn.data
  same : r'.buffer = r'.headerIn

/-- What is reserved for a header buffer that is full. -/
theorem extendHeaderIn_reserve {conf : HeadConf} {calls : Calls} {r r' : HeaderBuffers}
    (hmax : r.headerIn.size ≤ conf.clientMaxHeaderSize) (h : extendHeaderIn conf calls r = some r') :
    ∃ buf, r' = { headerIn := buf, buffer := buf } ∧ reserve calls r.headerIn
      (if r.headerIn.capacity / 2 < r.headerIn.size then allocsetBufferMinsize
        else r.headerIn.capacity / 2 - r.headerIn.size) = .ok buf := by
  unfold extendHeaderIn extendHeaderBuffer at h
  rw [if_neg (Nat.not_lt.mpr hmax)] at h
  dsimp only at h
  split at h
  · next buf hok =>
    cases h
    refine ⟨buf, rfl, ?_⟩
    split at hok
    · next buf' hreserve =>
      cases hok
      exact hreserve
    · cases hok
    · cases hok
  · cases h

/-- **Extending a full header buffer makes room** unless it is exactly half full of bytes that
are still to be read: then nothing is reserved. -/
theorem extendHeaderIn_roomy {conf : HeadConf} {calls : Calls} {r r' : HeaderBuffers}
    (hcap : 1024 ≤ r.headerIn.capacity) (hfull : r.headerIn.pos + r.headerIn.size = r.headerIn.capacity)
    (hmax : r.headerIn.size ≤ conf.clientMaxHeaderSize) (h : extendHeaderIn conf calls r = some r') :
    Roomy r r' ↔ r.headerIn.size ≠ r.headerIn.capacity / 2 := by
  obtain ⟨buf, rfl, hreserve⟩ := extendHeaderIn_reserve hmax h
  have hroom := reserve_room_iff (by omega) hreserve
  have hcapacity := r.headerIn.capacity_eq
  by_cases hhalf : r.headerIn.size = r.headerIn.capacity / 2
  · refine iff_of_false (fun hr => ?_) (by simpa using hhalf)
    rw [if_neg (by omega), hhalf, Nat.sub_self, reserve, if_pos (Nat.zero_le _)] at hreserve
    cases hreserve
    have := hr.room
    dsimp only at this
    omega
  · refine iff_of_true ⟨?_, reserve_data hreserve, rfl⟩ hhalf
    refine Nat.le_trans ?_ (hroom.mpr ?_)
    · rw [allocsetBufferMinsize]
      split <;> omega
    · rintro ⟨-, j, hj, -, hlt, hlimit⟩
      have hfirst := shiftLeft_ge r.headerIn.capacity hj
      rw [bufferLimitSize] at hlimit
      rw [allocsetBufferMinsize] at hlt
      split at hlt <;> omega

theorem extendHeaderIn_succeeds {conf : HeadConf} {calls : Calls} (hc : calls.Succeed) {r : HeaderBuffers}
    (hmax : r.headerIn.size ≤ conf.clientMaxHeaderSize) : ∃ r', extendHeaderIn conf calls r = some r' := by
  obtain ⟨buf, hbuf⟩ := reserve_succeeds hc r.headerIn
    (if r.headerIn.capacity / 2 < r.headerIn.size then allocsetBufferMinsize
      else r.headerIn.capacity / 2 - r.headerIn.size)
  refine ⟨{ headerIn := buf, buffer := buf }, ?_⟩
  unfold extendHeaderIn extendHeaderBuffer
  rw [if_neg (Nat.not_lt.mpr hmax)]
  simp only [hbuf]

/-- A full buffer, with some of it consumed. -/
def fullBuffer (pos size : Nat) : Buffer where
  before := List.replicate pos 0
  data := List.replicate size 0
  after := []

theorem fullBuffer_spec (pos size : Nat) : (fullBuffer pos size).pos = pos ∧ (fullBuffer pos size).size = size ∧
    (fullBuffer pos size).capacity = pos + size := by
  simp [fullBuffer, Buffer.pos, Buffer.size, Buffer.capacity, Buffer.start]

/-- A quarter of the least header buffer is still to be read. -/
theorem extendHeaderIn_roomy_quarter : ∃ r', extendHeaderIn .least {} ⟨fullBuffer 768 256, fullBuffer 768 256⟩ = some r' ∧
    (Roomy ⟨fullBuffer 768 256, fullBuffer 768 256⟩ r' ↔
      (fullBuffer 768 256).size ≠ (fullBuffer 768 256).capacity / 2) := by
  obtain ⟨hpos, hsize, hcap⟩ := fullBuffer_spec 768 256
  have hmax : (fullBuffer 768 256).size ≤ HeadConf.least.clientMaxHeaderSize := by
    rw [hsize]
    decide
  have hc : Calls.Succeed {} := ⟨rfl, rfl, rfl, rfl⟩
  obtain ⟨r', hr⟩ : ∃ r', extendHeaderIn .least {} ⟨fullBuffer 768 256, fullBuffer 768 256⟩ = some r' :=
    extendHeaderIn_succeeds hc hmax
  generalize fullBuffer 768 256 = buf at *
  have hlarge : 1024 ≤ buf.capacity := by omega
  have hfull : buf.pos + buf.size = buf.capacity := by omega
  exact ⟨r', hr, extendHeaderIn_roomy hlarge hfull hmax hr⟩

/-- Half of it is: there is no room afterwards. -/
theorem extendHeaderIn_full : ∃ r', extendHeaderIn .least {} ⟨fullBuffer 512 512, fullBuffer 512 512⟩ = some r' ∧
    r'.headerIn.freeSize = 0 := by
  obtain ⟨hpos, hsize, hcap⟩ := fullBuffer_spec 512 512
  refine ⟨⟨fullBuffer 512 512, fullBuffer 512 512⟩, ?_, Buffer.freeSize_eq _⟩
  simp [extendHeaderIn, extendHeaderBuffer, HeadConf.least, hsize, hcap, reserve]

end PgRest.Http
