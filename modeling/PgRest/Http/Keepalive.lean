import PgRest.Http.ContentLength
import PgRest.Http.Cuts

/-! Keeping a connection alive after a request, `pgrest_http_set_keepalive`: what has been
received behind the request is the start of the next one. It lies in `header_in` or in the
buffer of the body, behind a head and a body that were decoded in place or not, and it must
come to the buffer of the connection whole. -/
namespace PgRest.Http
open Lib Memory

inductive TcpNopush where
  | unset
  | set
  | disabled
deriving DecidableEq

inductive TcpNodelay where
  | unset
  | set
  | disabled
deriving DecidableEq

/-- `pgrest_connection_t`, with `prev_size` and `parse` of its `pgrest_http_connection_t`.
While a request is handled `buffer` is the request's `header_in`. -/
structure Conn where
  buffer : Buffer
  prevSize : Nat
  parse : Bool
  tcpNopush : TcpNopush := .unset
  tcpNodelay : TcpNodelay := .unset
  idle : Bool := false

/-- How the calls of `pgrest_http_set_keepalive` come out, and the settings it looks at. -/
structure KeepaliveCalls where
  reserve : Calls := {}
  createRequest : Bool := true
  eventDel : Bool := true
  tcpPush : Bool := true
  setsockopt : Bool := true
  eventAdd : Bool := true
  /-- the write event is edge-triggered -/
  writeEt : Bool := false
  /-- `pgrest_tcp_nodelay_and_nopush` -/
  nodelayAndNopush : Bool := false
  /-- `conf->tcp_nodelay` -/
  confNodelay : Bool := true

inductive Kept where
  | kept (conn : Conn)
  | closed
  | undefined

/-- `pgrest_http_buffer_left`: the request with its buffers consumed, and what it returns. -/
def bufferLeft (headerOnly : Bool) (req : Request) : Option (Request × Nat) :=
  if headerOnly || !req.split then
    (req.headerIn.consume req.requestLength).map fun buf => ({ req with headerIn := buf }, buf.size)
  else
    (req.buf.consume req.requestBody.entityLen).map fun buf =>
      ({ req with
        headerIn := req.headerIn.reset
        requestBody := { req.requestBody with buffer := some buf } }, buf.size)

/-- Whether `TCP_NODELAY` is set on the connection. -/
def setsNodelay (calls : KeepaliveCalls) (conn : Conn) : Bool :=
  (if conn.tcpNopush = .set then calls.nodelayAndNopush else true) && calls.confNodelay &&
    conn.tcpNodelay = .unset

/-- The end of `pgrest_http_set_keepalive` when nothing is left. -/
def waitKeepalive (calls : KeepaliveCalls) (conn : Conn) : Kept :=
  if !calls.writeEt && !calls.eventDel then .closed
  else if conn.tcpNopush = .set ∧ calls.tcpPush = false then .closed
  else if setsNodelay calls conn && !calls.setsockopt then .closed
  else if calls.eventAdd then
    .kept { conn with
      tcpNopush := if conn.tcpNopush = .set then .unset else conn.tcpNopush
      tcpNodelay := if setsNodelay calls conn then .set else conn.tcpNodelay
      idle := true }
  else .closed

/-- `pgrest_http_set_keepalive`, on a connection whose buffer is the request's `header_in`. -/
def setKeepalive (calls : KeepaliveCalls) (conn : Conn) (headerOnly : Bool) (req : Request) : Kept :=
  match bufferLeft headerOnly req with
  | none => .undefined
  | some (req, left) =>
    if left = 0 then waitKeepalive calls { conn with buffer := req.headerIn, prevSize := 0, parse := false }
    else
      let moved : Reserved :=
        if req.split then reserve calls.reserve req.headerIn left else .ok req.headerIn
      match moved with
      | .failed _ => .closed
      | .crashed => .undefined
      | .ok buf =>
        -- `memcpy` to what has been reserved, which must not run over the end
        if req.split = true ∧ buf.freeSize < left then .undefined
        else if calls.createRequest then
          .kept { conn with
            buffer := if req.split then buf.recv (req.buf.data.take left) else buf
            prevSize := 0, parse := true }
        else .closed

/-! ### What is left of a request -/

/-- A request that has been completed, `t` received behind it: one without a body, or one whose
body the parser has read, in any run. -/
inductive Completed : Bool → Request → Bytes → Prop
  | headerOnly {req : Request} : req.requestBody = {} → req.requestLength ≤ req.headerIn.size →
      Completed true req (req.headerIn.data.drop req.requestLength)
  | length {conf : Conf} {h : Head} {N : Nat} {calls : Calls} {ready : Bool} {s : Session} {req : Request} :
      h.chunked = false → h.contentLengthN = N →
      Run (Session.step conf) (fun _ _ => True) (start conf calls ready h) s → s.state = .processed req →
      Completed false req (s.received.drop N)
  | chunks {conf : Conf} {h : Head} {enc b t : Bytes} {calls : Calls} {ready : Bool} {s : Session}
      {req : Request} : h.chunked = true → Encodes enc b →
      Run (Session.step conf) (fun _ _ => True) (start conf calls ready h) s → s.state = .processed req →
      s.received = enc ++ t → Completed false req t

/-- How `t` lies behind what `pgrest_http_buffer_left` consumes. -/
inductive Consumable : Bool → Request → Bytes → Prop
  | inHeader {headerOnly : Bool} {req : Request} {front t : Bytes} : req.split = false →
      req.headerIn.data = front ++ t → req.requestLength = front.length → Consumable headerOnly req t
  | inBody {req : Request} {front t : Bytes} : req.split = true → 0 < req.headerIn.capacity →
      req.buf.data = front ++ t → req.requestBody.entityLen = front.length → Consumable false req t

theorem BodyRead.consumable {h : Head} {b t : Bytes} {req : Request} (hr : BodyRead h b t req) :
    Consumable false req t := by
  cases hsplit : req.split with
  | true =>
    have hdata := hr.data
    rw [hsplit] at hdata
    refine .inBody hsplit ?_ hdata hr.len
    have hpos := h.length_pos
    rw [Buffer.capacity_eq, Buffer.size, hr.header hsplit, h.length_head]
    omega
  | false =>
    have hdata := hr.data
    have hnone : req.requestBody.buffer = none := by simpa [Request.split] using hsplit
    rw [hsplit, Request.buf, hnone] at hdata
    have hfront : req.headerIn.data = h.head ++ b ++ t := by
      rw [List.append_assoc]
      exact hdata
    refine .inHeader hsplit hfront ?_
    rw [hr.length, List.length_append, h.length_head]

/-- A body in chunks was complete where its encoding ends. -/
theorem chunks_left {conf : Conf} {h : Head} {enc b t : Bytes} {calls : Calls} {ready : Bool} {s : Session}
    {req : Request} (hch : h.chunked = true) (henc : Encodes enc b)
    (hrun : Run (Session.step conf) (fun _ _ => True) (start conf calls ready h) s)
    (hs : s.state = .processed req) (hrecv : s.received = enc ++ t) : ∃ b, BodyRead h b t req := by
  have hstart : (chunkedSpec conf h).Holds False (start conf calls ready h) :=
    chunked_start hch False False.elim ready
  have hholds := Spec.holds_run (chunkedSpec_sound conf h) hstart (hrun.mono fun _ _ _ h => h.elim)
  rw [Spec.Holds, hs] at hholds
  obtain ⟨b', t', hv, hread⟩ := hholds
  have hscan := scan_encodes henc t
  rw [← hrecv] at hscan
  rcases verdict_ok hv with ⟨-, -, hscan'⟩ | ⟨hne, hscan'⟩
  · rw [hscan'] at hscan
    cases hscan
    exact ⟨b', hread⟩
  · have hv' : ∀ got, verdict conf.clientMaxBodySize h.requestLength h.preread got = .ok b' t' := by
      intro got
      rw [verdict, if_neg hne] at hv ⊢
      simpa only [hscan'] using hv
    have hended : (start conf calls ready h).state.reading = none := by
      cases hreading : (start conf calls ready h).state.reading with
      | none => rfl
      | some req' =>
        obtain ⟨-, hopen⟩ := (Spec.holds_reading hreading).mp hstart
        cases (hv' _).symm.trans hopen
    have hpreread : h.preread = s.received := congrArg Session.received (run_ended hended hrun).symm
    rw [hpreread, hscan] at hscan'
    cases hscan'
    exact ⟨_, hread⟩

theorem Completed.consumable {headerOnly : Bool} {req : Request} {t : Bytes}
    (h : Completed headerOnly req t) : Consumable headerOnly req t := by
  cases h with
  | headerOnly hbody hle =>
    refine .inHeader ?_ (List.take_append_drop req.requestLength _).symm ?_
    · rw [Request.split, hbody]
      rfl
    · rw [List.length_take]
      exact (Nat.min_eq_left hle).symm
  | @length conf h N calls ready s _ hch hN hrun hs =>
    have hholds := Spec.holds_run (lengthSpec_sound conf h N)
      (length_start hch hN False False.elim ready) (hrun.mono fun _ _ _ h => h.elim)
    rw [Spec.Holds, hs] at hholds
    exact hholds.2.2.consumable
  | chunks hch henc hrun hs hrecv =>
    obtain ⟨b, hread⟩ := chunks_left hch henc hrun hs hrecv
    exact hread.consumable

/-! ### What comes to the next request -/

/-- The buffer of the connection holds `t`, and is parsed if that is something. -/
structure Window (t : Bytes) (conn : Conn) : Prop where
  data : conn.buffer.data = t
  parse : conn.parse = true ↔ t ≠ []
  prevSize : conn.prevSize = 0
  reset : t = [] → conn.buffer.before = []

theorem waitKeepalive_kept {calls : KeepaliveCalls} {conn c : Conn} (h : waitKeepalive calls conn = .kept c) :
    c.buffer = conn.buffer ∧ c.parse = conn.parse ∧ c.prevSize = conn.prevSize := by
  unfold waitKeepalive at h
  split at h
  · cases h
  split at h
  · cases h
  split at h
  · cases h
  split at h
  · cases h
    exact ⟨rfl, rfl, rfl⟩
  · cases h

theorem waitKeepalive_defined {calls : KeepaliveCalls} {conn : Conn} :
    waitKeepalive calls conn ≠ .undefined := by
  unfold waitKeepalive
  repeat' split
  all_goals exact nofun

/-- What `pgrest_http_buffer_left` leaves. -/
theorem bufferLeft_eq {headerOnly : Bool} {req : Request} {t : Bytes} (h : Consumable headerOnly req t) :
    ∃ req', bufferLeft headerOnly req = some (req', t.length) ∧ req'.split = req.split ∧
      (req.split = false → req'.headerIn.data = t ∧ (t = [] → req'.headerIn.before = [])) ∧
      (req.split = true → req'.buf.data = t ∧ req'.headerIn.data = [] ∧ req'.headerIn.before = [] ∧
        0 < req'.headerIn.capacity) := by
  cases h with
  | inHeader hsplit hdata hlen =>
    obtain ⟨buf, hbuf, hdrop, -, hreset⟩ := Buffer.consume_eq
      (show req.requestLength ≤ req.headerIn.size by rw [hlen, Buffer.size, hdata, List.length_append]; omega)
    rw [hdata, hlen, List.drop_left] at hdrop
    refine ⟨{ req with headerIn := buf }, ?_, rfl, fun _ => ⟨hdrop, fun ht => hreset (hdrop.trans ht)⟩, ?_⟩
    · rw [bufferLeft, hsplit, if_pos (by simp), hbuf, Option.map_some, Buffer.size, hdrop]
    · rw [hsplit]
      exact nofun
  | inBody hsplit hpos hdata hlen =>
    obtain ⟨buf, hbuf, hdrop, -, -⟩ := Buffer.consume_eq
      (show req.requestBody.entityLen ≤ req.buf.size by rw [hlen, Buffer.size, hdata, List.length_append]; omega)
    rw [hdata, hlen, List.drop_left] at hdrop
    refine ⟨{ req with
      headerIn := req.headerIn.reset
      requestBody := { req.requestBody with buffer := some buf } }, ?_, hsplit.symm, ?_, fun _ => ⟨hdrop, rfl, rfl, ?_⟩⟩
    · rw [bufferLeft, hsplit, if_neg (by simp), hbuf, Option.map_some, Buffer.size, hdrop]
    · rw [hsplit]
      exact nofun
    · simpa [Buffer.reset, Buffer.capacity, Buffer.start] using hpos

theorem kept_inHeader {calls : KeepaliveCalls} {conn c : Conn} {headerOnly : Bool} {req : Request} {t : Bytes}
    (h : Consumable headerOnly req t) (hsplit : req.split = false) :
    setKeepalive calls conn headerOnly req ≠ .undefined ∧
      (setKeepalive calls conn headerOnly req = .kept c → Window t c) := by
  obtain ⟨req', hleft, hsplit', hheader, -⟩ := bufferLeft_eq h
  obtain ⟨hdata, hbefore⟩ := hheader hsplit
  rw [hsplit] at hsplit'
  simp only [setKeepalive, hleft, hsplit', Bool.false_eq_true, if_false, false_and]
  by_cases hlen : t.length = 0
  · have hnil : t = [] := List.length_eq_zero_iff.mp hlen
    rw [if_pos hlen]
    refine ⟨waitKeepalive_defined, fun hkept => ?_⟩
    obtain ⟨hbuf, hparse, hprev⟩ := waitKeepalive_kept hkept
    exact ⟨by rw [hbuf, hdata], by simp [hparse, hnil], hprev, fun _ => by rw [hbuf]; exact hbefore hnil⟩
  · have hne : t ≠ [] := fun hnil => hlen (by rw [hnil]; rfl)
    rw [if_neg hlen]
    cases calls.createRequest with
    | false => exact ⟨nofun, nofun⟩
    | true =>
      refine ⟨nofun, fun hkept => ?_⟩
      cases hkept
      exact ⟨hdata, by simp [hne], rfl, fun hnil => absurd hnil hne⟩

theorem kept_inBody {calls : KeepaliveCalls} {conn c : Conn} {headerOnly : Bool} {req : Request} {t : Bytes}
    (h : Consumable headerOnly req t) (hsplit : req.split = true) :
    (calls.reserve.Succeed → setKeepalive calls conn headerOnly req ≠ .undefined) ∧
      (setKeepalive calls conn headerOnly req = .kept c → Window t c) := by
  obtain ⟨req', hleft, hsplit', -, hbody⟩ := bufferLeft_eq h
  obtain ⟨hdata, hempty, hbefore, hcap⟩ := hbody hsplit
  rw [hsplit] at hsplit'
  simp only [setKeepalive, hleft, hsplit', if_true, true_and]
  by_cases hlen : t.length = 0
  · have hnil : t = [] := List.length_eq_zero_iff.mp hlen
    rw [if_pos hlen]
    refine ⟨fun _ => waitKeepalive_defined, fun hkept => ?_⟩
    obtain ⟨hbuf, hparse, hprev⟩ := waitKeepalive_kept hkept
    exact ⟨by rw [hbuf, hnil, hempty], by simp [hparse, hnil], hprev, fun _ => by rw [hbuf]; exact hbefore⟩
  have hne : t ≠ [] := fun hnil => hlen (by rw [hnil]; rfl)
  rw [if_neg hlen]
  cases hr : reserve calls.reserve req'.headerIn t.length with
  | failed opened => exact ⟨nofun, nofun⟩
  | crashed => exact ⟨fun hc => absurd hc (broken_reserve fun buf' h => (nomatch hr.symm.trans h)), nofun⟩
  | ok buf =>
    have hroom := (reserve_room hcap hbefore hr).1
    dsimp only
    rw [if_neg (by omega)]
    cases calls.createRequest with
    | false => exact ⟨nofun, nofun⟩
    | true =>
      refine ⟨nofun, fun hkept => ?_⟩
      cases hkept
      refine ⟨?_, by simp [hne], rfl, fun hnil => absurd hnil hne⟩
      show buf.data ++ req'.buf.data.take t.length = t
      rw [reserve_data hr, hempty, hdata, List.take_length, List.nil_append]

/-- Pipelined bytes are neither lost nor duplicated: where the connection is kept, what was
received behind the request is what its buffer holds, and no memory is overrun on the way. -/
theorem keepalive_window {calls : KeepaliveCalls} {conn : Conn} {headerOnly : Bool} {req : Request} {t : Bytes}
    (h : Completed headerOnly req t) :
    (calls.reserve.Succeed → setKeepalive calls conn headerOnly req ≠ .undefined) ∧
      ∀ c, setKeepalive calls conn headerOnly req = .kept c → Window t c := by
  cases hsplit : req.split with
  | false =>
    exact ⟨fun _ => (kept_inHeader (c := conn) h.consumable hsplit).1,
      fun c => (kept_inHeader h.consumable hsplit).2⟩
  | true =>
    exact ⟨(kept_inBody (c := conn) h.consumable hsplit).1, fun c => (kept_inBody h.consumable hsplit).2⟩

/-- A request without a body, and the start of the next one behind it. -/
def pipelined : Request where
  headerIn := { before := [], data := ascii "GET / HTTP/1.0\r\n\r\nGET", after := [] }
  requestLength := 18
  contentLengthN := -1
  chunked := false

theorem keepalive_window_pipelined : ∃ c,
    setKeepalive {} ⟨pipelined.headerIn, 0, false, .unset, .unset, false⟩ true pipelined = .kept c ∧
      Window (ascii "GET") c := by
  have hkept : setKeepalive {} ⟨pipelined.headerIn, 0, false, .unset, .unset, false⟩ true pipelined =
      .kept ⟨⟨ascii "GET / HTTP/1.0\r\n\r\n", ascii "GET", [], none⟩, 0, true, .unset, .unset, false⟩ := rfl
  exact ⟨_, hkept, (keepalive_window (.headerOnly rfl (by decide))).2 _ hkept⟩

end PgRest.Http
