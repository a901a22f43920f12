import PgRest.Lib.Framing
import PgRest.Decimal
import PgRest.Http.HeadCuts

/-! A whole connection: heads are read and processed, bodies are read behind them, and the connection is
kept for what follows. The requests that come out of it are those that the stream of received bytes
consists of, in the order of the stream, however `recv` has cut it and whichever calls have failed. -/
namespace PgRest.Http
open Lib Memory

/-- The configuration of the server, and what the handlers of the header tokens make of a head. -/
structure Server where
  heads : HeadConf
  bodies : Conf
  find : TakenHead → HeadersIn

/-- Where a connection is with its requests. -/
inductive Phase where
  /-- a head is read, or is about to be processed -/
  | heads (state : HeadState)
  /-- a body is read, or has been -/
  | body (conn : Conn) (head : TakenHead) (state : State)
  /-- `pgrest_http_process_request` has been called with `header_only` -/
  | headerOnly (conn : Conn) (head : TakenHead)

inductive ConnEvent where
  | head (e : HeadEvent)
  /-- `pgrest_http_process_header` is called, and what follows it in the handler. -/
  | process (added sent ready : Bool) (calls : Calls)
  | body (e : Event)
  /-- the request has been handled; `pgrest_http_set_keepalive` is called -/
  | complete (calls : KeepaliveCalls)

/-- `pgrest_http_header_handler` where the head is complete. -/
def processHead (srv : Server) (added sent ready : Bool) (calls : Calls) (conn : Conn) (head : TakenHead) : Phase :=
  match processHeader added head (srv.find head) with
  | .closed => .heads .closed
  | .finalize status => .heads (.finalized status)
  | .ok contentLengthN chunked =>
    if contentLengthN ≠ -1 ∨ chunked then
      if testExpect head (srv.find head) sent then
        .body conn head (processEntity srv.bodies calls ready
          { headerIn := conn.buffer, requestLength := head.requestLength, contentLengthN, chunked })
      else .heads .closed
    else .headerOnly conn head

/-- The handlers of a connection, from one read or event to the next. -/
def Phase.step (srv : Server) : Phase → ConnEvent → Option Phase
  | .heads (.processing conn head), .process added sent ready calls =>
    some (processHead srv added sent ready calls conn head)
  | .heads (.processing _ _), _ => none
  | .heads state, .head e => (state.step srv.heads e).map .heads
  | .body conn head state, .body e => (state.step srv.bodies e).map (.body conn head)
  | .body conn _ (.processed req), .complete calls => some (.heads (setKeepalive calls conn false req).state)
  | .headerOnly conn head, .complete calls =>
    some (.heads (setKeepalive calls conn true (headerOnlyRequest conn head)).state)
  | _, _ => none

/-- A request as `pgrest_http_process_request` is called for it: its head, and its body if it has one. -/
abbrev Handed : Type := TakenHead × Option Bytes

def Phase.handed : Phase → Option Handed
  | .body _ head (.processed req) => some (head, some req.entity)
  | .headerOnly _ head => some (head, none)
  | _ => none

def HeadEvent.bytes : HeadEvent → Bytes
  | .recv bs _ _ => bs
  | _ => []

def ConnEvent.bytes : ConnEvent → Bytes
  | .head e => e.bytes
  | .body e => e.bytes
  | _ => []

/-- A connection, with what it has received and the requests that have come out. -/
structure Dialogue where
  phase : Phase
  received : Bytes
  requests : List Handed

def Dialogue.start : Dialogue := ⟨.heads .start, [], []⟩

def Dialogue.step (srv : Server) (d : Dialogue) (e : ConnEvent) : Option Dialogue :=
  (d.phase.step srv e).map fun phase => ⟨phase, d.received ++ e.bytes, d.requests ++ phase.handed.toList⟩

/-! ### What a stream consists of -/

/-- The body that lies behind a head that has been processed so, and the stream behind it. -/
inductive BodyBehind : ProcessedHeader → Bytes → Option Bytes → Bytes → Prop
  | none (l : Bytes) : BodyBehind (.ok (-1) false) l none l
  | length (b t : Bytes) : BodyBehind (.ok b.length false) (b ++ t) (some b) t
  | chunks {enc b : Bytes} (t : Bytes) : Encodes enc b → BodyBehind (.ok (-1) true) (enc ++ t) (some b) t

/-- The request that a stream starts with, and the stream behind it. Its head is one that a fresh call of the
parser accepts. -/
inductive Starts (find : TakenHead → HeadersIn) : Bytes → Handed → Bytes → Prop
  | request {l t : Bytes} {r : PhrRequest} {n : Nat} {b : Option Bytes} : Accepted l r n →
      BodyBehind (processHeader true (takeHead r n) (find (takeHead r n))) (l.drop n) b t →
      Starts find l (takeHead r n, b) t

theorem separates_bodyBehind (p : ProcessedHeader) : Separates (BodyBehind p) where
  extend more h := by
    cases h with
    | none => exact .none (_ ++ more)
    | length b t =>
      rw [List.append_assoc]
      exact .length b (_ ++ more)
    | chunks t henc =>
      rw [List.append_assoc]
      exact .chunks (_ ++ more) henc
  unique {l rest rest' b b'} h h' := by
    generalize hl : l = l' at h'
    cases h with
    | none =>
      cases h' with
      | none => exact ⟨rfl, hl⟩
    | length b t =>
      generalize hp : (b.length : Int) = N at h'
      cases h' with
      | none => omega
      | length b' t' =>
        obtain ⟨rfl, rfl⟩ := List.append_inj hl (by omega)
        exact ⟨rfl, rfl⟩
    | chunks t henc =>
      cases h' with
      | chunks t' henc' =>
        have hscan := scan_encodes henc rest
        rw [hl, scan_encodes henc' rest'] at hscan
        cases hscan
        exact ⟨rfl, rfl⟩

theorem separates_starts (find : TakenHead → HeadersIn) : Separates (Starts find) where
  extend {l rest q} more h := by
    obtain ⟨hacc, hbody⟩ := h
    refine .request (accepted_append hacc more) ?_
    rw [List.drop_append_of_le_length (accepted_le hacc)]
    exact (separates_bodyBehind _).extend more hbody
  unique h h' := by
    obtain ⟨hacc, hbody⟩ := h
    obtain ⟨hacc', hbody'⟩ := h'
    obtain ⟨rfl, rfl⟩ := accepted_unique hacc hacc'
    obtain ⟨rfl, rfl⟩ := (separates_bodyBehind _).unique hbody hbody'
    exact ⟨rfl, rfl⟩

/-! ### Heads: what a connection holds -/

/-- What is held of the stream while heads are read. -/
def HeadState.held : HeadState → Option Bytes
  | .accepted buffer => some (buffer.elim [] (·.data))
  | .reading conn _ _ => some conn.buffer.data
  | .waiting conn => some conn.buffer.data
  | .processing conn _ => some conn.buffer.data
  | .pipelined conn => some conn.buffer.data
  | .idle conn => some conn.buffer.data
  | _ => none

/-- `rest` is held and not parsed yet, or it starts with the head that has been found. -/
structure Keeps (state : HeadState) (rest : Bytes) : Prop where
  held : ∀ b ∈ state.held, b = rest
  room : ∀ conn ready numHeaders, state = .reading conn ready numHeaders → numHeaders ≤ maxHeaders
  found : ∀ conn head, state = .processing conn head → ∃ r n, Accepted rest r n ∧ head = takeHead r n

section Keeping
variable {conf : HeadConf} {calls : Calls} {conn : Conn} {rest : Bytes}

theorem keeps_ended {state : HeadState} (h : state.ended = true) (rest : Bytes) : Keeps state rest := by
  cases state <;> cases h <;> exact ⟨nofun, nofun, nofun⟩

theorem keeps_reading {ready : Bool} {room : Nat} (h : conn.buffer.data = rest) (hroom : room ≤ maxHeaders) :
    Keeps (.reading conn ready room) rest := by
  refine ⟨?_, ?_, nofun⟩
  · rintro b ⟨⟩
    exact h
  · rintro _ _ _ ⟨⟩
    exact hroom

theorem extendHeaderBuffer_data {buf buf' : Buffer} (h : extendHeaderBuffer conf calls buf = .ok buf') :
    buf'.data = buf.data := by
  unfold extendHeaderBuffer at h
  split at h
  · cases h
  dsimp only at h
  split at h <;> cases h
  next hbuf => exact reserve_data hbuf

theorem parseHead_keeps (conf : HeadConf) (calls : Calls) (conn : Conn) (ready : Bool) {room : Nat}
    (hroom : room ≤ maxHeaders) : Keeps (parseHead conf calls conn ready room) conn.buffer.data := by
  have hheaders := phr_headers_le conn.buffer.data room conn.prevSize
  rcases hp : phrParseRequest conn.buffer.data room conn.prevSize with ⟨r, ret⟩
  rw [hp] at hheaders
  simp only [parseHead, hp]
  cases ret with
  | complete n =>
    refine ⟨?_, ?_, ?_⟩
    · rintro b ⟨⟩
      rfl
    · rintro _ _ _ ⟨⟩
    · rintro _ _ ⟨⟩
      exact ⟨r, n, accepted_of_complete hp hroom, rfl⟩
  | again =>
    dsimp only
    split
    · cases hbuf : extendHeaderBuffer conf calls conn.buffer with
      | ok buf => exact keeps_reading (extendHeaderBuffer_data hbuf) (hheaders.trans hroom)
      | declined => exact keeps_ended rfl _
      | error => exact keeps_ended rfl _
      | crashed => exact keeps_ended rfl _
    · exact keeps_reading rfl (hheaders.trans hroom)
  | error =>
    dsimp only
    split <;> exact keeps_ended rfl _

theorem headerHandler_keeps (conf : HeadConf) (calls : Calls) (conn : Conn) (ready : Bool) :
    Keeps (headerHandler conf calls conn ready) conn.buffer.data := by
  unfold headerHandler
  split
  · exact parseHead_keeps conf calls { conn with parse := false } ready (Nat.le_refl _)
  · exact keeps_reading rfl (Nat.le_refl _)

/-- A wait leaves what is held. -/
theorem keeps_wait {state : HeadState} (h : ∀ b ∈ state.held, b = rest)
    (hroom : ∀ conn ready numHeaders, state ≠ .reading conn ready numHeaders)
    (hfound : ∀ conn head, state ≠ .processing conn head) (added : Bool) :
    Keeps (if added then state else .closed) rest := by
  cases added with
  | false => exact keeps_ended rfl _
  | true => exact ⟨h, fun _ _ _ heq => absurd heq (hroom _ _ _), fun _ _ heq => absurd heq (hfound _ _)⟩

theorem accepted_keeps {buffer : Option Buffer} {state : HeadState} {e : HeadEvent}
    (h : buffer.elim [] (·.data) = rest) (hstep : (HeadState.accepted buffer).step conf e = some state) :
    Keeps state (rest ++ e.bytes) := by
  cases e with
  | recv bs calls created =>
    simp only [HeadState.step] at hstep
    split at hstep
    · cases hstep
      exact keeps_ended rfl _
    next buf hbuf =>
    split at hstep
    · cases hstep
      cases created with
      | false => exact keeps_ended rfl _
      | true =>
        have hdata : buf.data = rest := by
          rw [← h]
          cases buffer with
          | none =>
            rw [bufferCreate] at hbuf
            split at hbuf <;> cases hbuf
            rfl
          | some b =>
            cases hbuf
            rfl
        have hkeeps := headerHandler_keeps conf calls { buffer := buf.recv bs, prevSize := 0, parse := true }
          (conf.ready bs.length conf.clientHeaderBufferSize)
        rwa [show (buf.recv bs).data = rest ++ bs by rw [Buffer.recv, hdata]] at hkeeps
    · cases hstep
  | again added =>
    cases hstep
    refine keeps_wait (fun b hb => ?_) (by rintro _ _ _ ⟨⟩) (by rintro _ _ ⟨⟩) added
    cases hb
    show _ = rest ++ []
    rw [List.append_nil, ← h]
    cases buffer <;> rfl
  | read => cases hstep
  | complete => cases hstep
  | _ =>
    cases hstep
    exact keeps_ended rfl _

theorem reading_keeps {ready : Bool} {numHeaders : Nat} {state : HeadState} {e : HeadEvent}
    (hroom : numHeaders ≤ maxHeaders) (hstep : (HeadState.reading conn ready numHeaders).step conf e = some state) :
    Keeps state (conn.buffer.data ++ e.bytes) := by
  cases e with
  | recv bs calls created =>
    cases ready with
    | false => cases hstep
    | true =>
      simp only [HeadState.step] at hstep
      split at hstep
      · cases hstep
        exact parseHead_keeps conf calls { conn with buffer := conn.buffer.recv bs } _ hroom
      · cases hstep
  | again added =>
    have hstate : state = if added then .waiting conn else .closed := by
      cases ready <;> exact (Option.some.inj hstep).symm
    rw [hstate]
    refine keeps_wait (fun b hb => ?_) (by rintro _ _ _ ⟨⟩) (by rintro _ _ ⟨⟩) added
    cases hb
    exact (List.append_nil _).symm
  | read => cases ready <;> cases hstep
  | complete => cases ready <;> cases hstep
  | _ =>
    cases ready <;> cases hstep <;> exact keeps_ended rfl _

theorem idle_keeps {state : HeadState} {e : HeadEvent} (hstep : (HeadState.idle conn).step conf e = some state) :
    Keeps state (conn.buffer.data ++ e.bytes) := by
  cases e with
  | recv bs calls created =>
    simp only [HeadState.step] at hstep
    split at hstep
    · cases hstep
      cases created with
      | false => exact keeps_ended rfl _
      | true => exact headerHandler_keeps conf calls { conn with buffer := conn.buffer.recv bs, idle := false } _
    · cases hstep
  | again added =>
    cases hstep
    refine keeps_wait (fun b hb => ?_) (by rintro _ _ _ ⟨⟩) (by rintro _ _ ⟨⟩) added
    cases hb
    exact (List.append_nil _).symm
  | read => cases hstep
  | complete => cases hstep
  | _ =>
    cases hstep
    exact keeps_ended rfl _

/-- Each step of the handlers for heads keeps what has been received, in its order. -/
theorem step_keeps {state state' : HeadState} {e : HeadEvent} (h : Keeps state rest)
    (hstep : state.step conf e = some state') (hne : ∀ conn head, state ≠ .processing conn head) :
    Keeps state' (rest ++ e.bytes) := by
  have hread (conn : Conn) (calls : Calls) (hheld : conn.buffer.data = rest) :
      Keeps (headerHandler conf calls conn true) (rest ++ HeadEvent.bytes (.read calls)) := by
    show Keeps _ (rest ++ [])
    rw [List.append_nil, ← hheld]
    exact headerHandler_keeps conf calls conn true
  cases state with
  | accepted buffer => exact accepted_keeps (h.held _ rfl) hstep
  | reading conn ready numHeaders =>
    obtain rfl := h.held _ rfl
    exact reading_keeps (h.room _ _ _ rfl) hstep
  | waiting conn =>
    cases e with
    | read calls =>
      cases hstep
      exact hread conn calls (h.held _ rfl)
    | timeout =>
      cases hstep
      exact keeps_ended rfl _
    | _ => cases hstep
  | processing conn head => exact absurd rfl (hne conn head)
  | pipelined conn =>
    cases e with
    | read calls =>
      cases hstep
      exact hread conn calls (h.held _ rfl)
    | _ => cases hstep
  | idle conn =>
    obtain rfl := h.held _ rfl
    exact idle_keeps hstep
  | _ => cases hstep

/-- The connection is kept for what lies behind a request. -/
theorem setKeepalive_keeps {kept : KeepaliveCalls} {headerOnly : Bool} {req : Request}
    (h : Consumable headerOnly req rest) : Keeps (setKeepalive kept conn headerOnly req).state rest := by
  cases hk : setKeepalive kept conn headerOnly req with
  | closed => exact keeps_ended rfl _
  | undefined => exact keeps_ended rfl _
  | kept c =>
    have hw : Window rest c := by
      cases hsplit : req.split with
      | false => exact (kept_inHeader h hsplit).2 hk
      | true => exact (kept_inBody h hsplit).2 hk
    rw [Kept.state]
    split
    · refine ⟨?_, nofun, nofun⟩
      rintro b ⟨⟩
      exact hw.data
    · refine ⟨?_, nofun, nofun⟩
      rintro b ⟨⟩
      exact hw.data

end Keeping

/-! ### Bodies -/

/-- A `Content-Length` is not negative. -/
theorem atoof_nonneg {line : Bytes} {v : Int} (h : atoof line = some v) : 0 ≤ v := by
  rw [Decimal.contentLength_atoof] at h
  split at h
  · cases h
  next hne =>
  cases h
  have hexact := Decimal.convertUpTo_exact Decimal.maxOffT line
  by_cases hdecimal : Decimal.IsDecimal line ∧ Inet.decimalFrom 0 line ≤ Decimal.maxOffT
  · rw [Decimal.atoof, hexact.reads hdecimal.1 hdecimal.2]
    exact Int.natCast_nonneg _
  · exact absurd (hexact.rejects hdecimal) hne

/-- The length of the body is known, or there is none, or it comes in chunks. -/
theorem processHeader_ok {added : Bool} {head : TakenHead} {found : HeadersIn} {contentLengthN : Int} {chunked : Bool}
    (h : processHeader added head found = .ok contentLengthN chunked) :
    added = true ∧ (contentLengthN = -1 ∨ (chunked = false ∧ 0 ≤ contentLengthN)) := by
  have hlength (v : Int) (hv : found.contentLength.elim (some (-1)) atoof = some v) : v = -1 ∨ 0 ≤ v := by
    cases hc : found.contentLength with
    | none =>
      rw [hc] at hv
      exact Or.inl (Option.some.inj hv).symm
    | some line =>
      rw [hc] at hv
      exact Or.inr (atoof_nonneg hv)
  unfold processHeader at h
  split at h
  · cases h
  next hadded =>
  refine ⟨by simpa using hadded, ?_⟩
  split at h
  · cases h
  split at h
  · cases h
  next v hv =>
  split at h
  · cases h
  split at h
  · cases h
    exact (hlength _ hv).imp_right fun hnonneg => ⟨rfl, hnonneg⟩
  split at h
  · cases h
    exact Or.inl rfl
  split at h
  · cases h
    exact (hlength _ hv).imp_right fun hnonneg => ⟨rfl, hnonneg⟩
  · cases h

/-- A body in chunks that has been processed is what an encoding at the start of the stream encodes. -/
theorem chunks_processed {conf : Conf} {h : Head} {calls : Calls} {ready : Bool} {s : Session} {req : Request}
    (hch : h.chunked = true) (hrun : Run (Session.step conf) (fun _ _ => True) (start conf calls ready h) s)
    (hs : s.state = .processed req) :
    ∃ enc b t, Encodes enc b ∧ s.received = enc ++ t ∧ BodyRead h b t req := by
  have hstart : (chunkedSpec conf h).Holds False (start conf calls ready h) :=
    chunked_start hch False False.elim ready
  have hholds := Spec.holds_run (chunkedSpec_sound conf h) hstart (hrun.mono fun _ _ _ h => h.elim)
  rw [Spec.Holds, hs] at hholds
  obtain ⟨b, t, hv, hread⟩ := hholds
  rcases verdict_ok hv with ⟨-, rfl, hscan⟩ | ⟨hne, hscan⟩
  · obtain ⟨enc, henc, hrecv⟩ := encodes_of_scan hscan
    exact ⟨enc, [], t, henc, hrecv, hread⟩
  · obtain ⟨enc, henc, hpre⟩ := encodes_of_scan hscan
    -- what has been read ahead was the whole encoding, so the session has not gone on
    have hended : (start conf calls ready h).state.reading = none := by
      cases hreading : (start conf calls ready h).state.reading with
      | none => rfl
      | some req' =>
        obtain ⟨-, hopen⟩ := (Spec.holds_reading hreading).mp hstart
        rw [verdict, if_neg hne, hscan] at hopen
        simp only [Verdict.ofScan] at hopen
        split at hopen <;> cases hopen
    have hsame := run_ended hended hrun
    exact ⟨enc, b, t, henc, by rw [hsame]; exact hpre, hread⟩

/-- A body that is read behind a head, `rest` from where the head starts. -/
structure Reads (srv : Server) (head : TakenHead) (state : State) (rest : Bytes) : Prop where
  session : ∃ (h : Head) (calls : Calls) (ready : Bool) (s : Session) (r : PhrRequest),
    Run (Session.step srv.bodies) (fun _ _ => True) (start srv.bodies calls ready h) s ∧ s.state = state ∧
    rest = h.head ++ s.received ∧ Accepted h.headerIn.data r h.requestLength ∧
    head = takeHead r h.requestLength ∧
    processHeader true head (srv.find head) = .ok h.contentLengthN h.chunked

section Bodies
variable {srv : Server} {head : TakenHead} {state state' : State} {rest : Bytes}

theorem Reads.step {e : Event} (h : Reads srv head state rest) (hstep : state.step srv.bodies e = some state') :
    Reads srv head state' (rest ++ e.bytes) := by
  obtain ⟨h, calls, ready, s, r, hrun, rfl, rfl, hacc, hhead, hproc⟩ := h
  refine ⟨h, calls, ready, ⟨state', s.received ++ e.bytes, s.zero || e.isZero⟩, r, ?_, rfl,
    List.append_assoc _ _ _, hacc, hhead, hproc⟩
  exact .next (a := e) hrun trivial (by rw [Session.step, hstep]; rfl)

/-- The head and the body that has been processed are those that the stream starts with. -/
theorem Reads.handed {req : Request} (h : Reads srv head (.processed req) rest) :
    ∃ t, Starts srv.find rest (head, some req.entity) t ∧ Consumable false req t ∧ req.left = t := by
  obtain ⟨h, calls, ready, s, r, hrun, hs, rfl, hacc, rfl, hproc⟩ := h
  have hwhole : Accepted (h.head ++ s.received) r h.requestLength := by
    obtain ⟨more, hmore⟩ : h.preread <+: s.received := preread_starts hrun
    rw [← hmore, ← List.append_assoc, ← h.head_preread]
    exact accepted_append hacc more
  have hbehind : (h.head ++ s.received).drop h.requestLength = s.received := List.drop_left' h.length_head
  cases hch : h.chunked with
  | false =>
    obtain ⟨N, hN⟩ : ∃ N : Nat, h.contentLengthN = N := ⟨_, (Int.toNat_of_nonneg (h.framed hch)).symm⟩
    have hholds := Spec.holds_run (lengthSpec_sound srv.bodies h N) (length_start hch hN False False.elim ready)
      (hrun.mono fun _ _ _ h => h.elim)
    rw [Spec.Holds, hs] at hholds
    obtain ⟨henough, -, hread⟩ := hholds
    refine ⟨s.received.drop N, .request hwhole ?_, hread.consumable, hread.left_eq⟩
    have hlen : (s.received.take N).length = N := by rw [List.length_take, Nat.min_eq_left henough]
    have hbody := BodyBehind.length (s.received.take N) (s.received.drop N)
    rw [List.take_append_drop, hlen] at hbody
    rw [hbehind, hread.entity_eq, hproc, hch, hN]
    exact hbody
  | true =>
    obtain ⟨enc, b, t, henc, hrecv, hread⟩ := chunks_processed hch hrun hs
    refine ⟨t, .request hwhole ?_, hread.consumable, hread.left_eq⟩
    have hlength := (processHeader_ok hproc).2
    rw [hch] at hlength
    rw [hbehind, hread.entity_eq, hproc, hch, hrecv, hlength.resolve_right (by simp)]
    exact .chunks t henc

end Bodies

/-! ### The connection as a whole -/

/-- `rest` lies behind the requests that have been handed over. -/
def Holding (srv : Server) (phase : Phase) (rest : Bytes) : Prop :=
  match phase with
  | .heads state => Keeps state rest
  | .body _ _ (.processed req) => Consumable false req rest ∧ req.left = rest
  | .body _ head state => Reads srv head state rest
  | .headerOnly conn head =>
    conn.buffer.data.drop head.requestLength = rest ∧ head.requestLength ≤ conn.buffer.size

/-- What is held behind the requests that have been handed over, but for a body that is still read. -/
def Phase.held : Phase → Option Bytes
  | .heads state => state.held
  | .body _ _ (.processed req) => some req.left
  | .body _ _ _ => none
  | .headerOnly conn head => some (conn.buffer.data.drop head.requestLength)

theorem Holding.held {srv : Server} {phase : Phase} {rest : Bytes} (h : Holding srv phase rest) :
    ∀ b ∈ phase.held, b = rest := by
  cases phase with
  | heads state => exact Keeps.held h
  | headerOnly conn head =>
    rintro b ⟨⟩
    exact h.1
  | body conn head state =>
    cases state with
    | processed req =>
      rintro b ⟨⟩
      exact h.2
    | _ => nofun

/-- A step hands over the request that the held bytes start with, or none. -/
inductive Hands (srv : Server) (rest : Bytes) (phase : Phase) : Prop
  | none : phase.handed = none → Holding srv phase rest → Hands srv rest phase
  | request {q : Handed} {t : Bytes} : phase.handed = some q → Starts srv.find rest q t → Holding srv phase t →
      Hands srv rest phase

section Phases
variable {srv : Server} {rest : Bytes}

theorem Reads.hands {head : TakenHead} {state : State} (h : Reads srv head state rest) (conn : Conn) :
    Hands srv rest (.body conn head state) := by
  cases state with
  | processed req =>
    obtain ⟨t, hstarts, hconsumable, hleft⟩ := h.handed
    exact .request rfl hstarts ⟨hconsumable, hleft⟩
  | _ => exact .none rfl h

theorem processHead_hands {added sent ready : Bool} {calls : Calls} {conn : Conn} {head : TakenHead}
    (h : Keeps (.processing conn head) rest) :
    Hands srv rest (processHead srv added sent ready calls conn head) := by
  obtain rfl := h.held _ rfl
  obtain ⟨r, n, hacc, rfl⟩ := h.found _ _ rfl
  unfold processHead
  cases hproc : processHeader added (takeHead r n) (srv.find (takeHead r n)) with
  | closed => exact .none rfl (keeps_ended rfl _)
  | finalize status => exact .none rfl (keeps_ended rfl _)
  | ok contentLengthN chunked =>
    obtain ⟨rfl, hlength⟩ := processHeader_ok hproc
    dsimp only
    split
    · next hbody =>
      split
      · let h : Head := {
          headerIn := conn.buffer, requestLength := n, contentLengthN, chunked
          length_pos := accepted_pos hacc
          length_le := accepted_le hacc
          framed := fun hch => by
            rcases hlength with rfl | ⟨-, hnonneg⟩
            · simp [hch] at hbody
            · exact hnonneg }
        have hreads : Reads srv (takeHead r n) (processEntity srv.bodies calls ready h.request) conn.buffer.data :=
          ⟨h, calls, ready, start srv.bodies calls ready h, r, .start, rfl, h.head_preread, hacc, rfl, hproc⟩
        exact hreads.hands conn
      · exact .none rfl (keeps_ended rfl _)
    · next hbody =>
      simp only [ne_eq, not_or, not_not, Bool.not_eq_true] at hbody
      obtain ⟨rfl, rfl⟩ := hbody
      refine .request rfl (.request hacc ?_) ⟨rfl, accepted_le hacc⟩
      rw [hproc]
      exact .none _

/-- A request is complete, and the connection is kept. -/
theorem complete_hands {conn : Conn} {headerOnly : Bool} {req : Request} (calls : KeepaliveCalls)
    (h : Consumable headerOnly req rest) :
    Hands srv (rest ++ []) (.heads (setKeepalive calls conn headerOnly req).state) := by
  rw [List.append_nil]
  exact .none rfl (setKeepalive_keeps h)

theorem Phase.step_heads {state : HeadState} (e : HeadEvent) (hne : ∀ conn head, state ≠ .processing conn head) :
    (Phase.heads state).step srv (.head e) = (state.step srv.heads e).map .heads := by
  cases state with
  | processing conn head => exact absurd rfl (hne conn head)
  | _ => rfl

theorem Phase.step_hands {phase phase' : Phase} {e : ConnEvent} (h : Holding srv phase rest)
    (hstep : phase.step srv e = some phase') : Hands srv (rest ++ e.bytes) phase' := by
  cases phase with
  | heads state =>
    by_cases hproc : ∃ conn head, state = .processing conn head
    · obtain ⟨conn, head, rfl⟩ := hproc
      cases e with
      | process added sent ready calls =>
        cases hstep
        show Hands srv (rest ++ []) _
        rw [List.append_nil]
        exact processHead_hands h
      | _ => cases hstep
    · have hne (conn : Conn) (head : TakenHead) : state ≠ .processing conn head := fun heq => hproc ⟨conn, head, heq⟩
      cases e with
      | head e =>
        rw [Phase.step_heads e hne] at hstep
        obtain ⟨state', hstate, rfl⟩ := Option.map_eq_some_iff.mp hstep
        exact .none rfl (step_keeps h hstate hne)
      | _ => cases state <;> first | exact absurd rfl (hne _ _) | cases hstep
  | body conn head state =>
    cases e with
    | body e =>
      obtain ⟨state', hstate, rfl⟩ := Option.map_eq_some_iff.mp hstep
      cases state with
      | processed req => cases hstate
      | _ => exact (Reads.step h hstate).hands conn
    | complete calls =>
      cases state with
      | processed req =>
        cases hstep
        exact complete_hands calls h.1
      | _ => cases hstep
    | _ => cases state <;> cases hstep
  | headerOnly conn head =>
    cases e with
    | complete calls =>
      cases hstep
      obtain ⟨rfl, hle⟩ := h
      exact complete_hands calls (Completed.headerOnly rfl hle).consumable
    | _ => cases hstep

/-- Each step of a connection keeps its requests the first ones of its stream. -/
theorem framed_step {d d' : Dialogue} {e : ConnEvent} (h : ∃ rest, Framed (Starts srv.find) d.received d.requests rest ∧
      Holding srv d.phase rest) (hstep : d.step srv e = some d') :
    ∃ rest, Framed (Starts srv.find) d'.received d'.requests rest ∧ Holding srv d'.phase rest := by
  obtain ⟨rest, hframed, hholding⟩ := h
  obtain ⟨phase, hphase, rfl⟩ := Option.map_eq_some_iff.mp hstep
  have hmore := hframed.extend (separates_starts srv.find) e.bytes
  dsimp only
  cases Phase.step_hands hholding hphase with
  | none hnone hholding' =>
    rw [hnone, Option.toList_none, List.append_nil]
    exact ⟨_, hmore, hholding'⟩
  | request hsome hstarts hholding' =>
    rw [hsome, Option.toList_some]
    exact ⟨_, hmore.concat hstarts, hholding'⟩

/-- In every run. -/
theorem framed_run {ok : Dialogue → ConnEvent → Prop} {d : Dialogue} (h : Run (Dialogue.step srv) ok .start d) :
    ∃ rest, Framed (Starts srv.find) d.received d.requests rest ∧ Holding srv d.phase rest := by
  refine h.invariant ⟨[], .nil [], ?_, nofun, nofun⟩ fun _ _ _ hd _ hstep => framed_step hd hstep
  rintro b ⟨⟩
  rfl

end Phases

/-- **The requests of a connection are the requests of its stream.** In every run, whatever `recv` returns and
whichever calls fail, the requests that `pgrest_http_process_request` has been called for are the first ones that
the received bytes consist of, each with the head that a fresh parse finds and the body that belongs to it; what is
held behind them is all that has been received behind them. So two connections that receive the same
bytes hand over the same requests, as far as both go. -/
theorem requests_framed {srv : Server} {ok : Dialogue → ConnEvent → Prop} {d d' : Dialogue}
    (h : Run (Dialogue.step srv) ok .start d) (h' : Run (Dialogue.step srv) ok .start d')
    (hpre : d.received <+: d'.received) :
    (∃ rest, Framed (Starts srv.find) d.received d.requests rest ∧ ∀ b ∈ d.phase.held, b = rest) ∧
      (d.requests <+: d'.requests ∨ d'.requests <+: d.requests) := by
  obtain ⟨rest, hframed, hholding⟩ := framed_run h
  obtain ⟨rest', hframed', -⟩ := framed_run h'
  refine ⟨⟨rest, hframed, hholding.held⟩, ?_⟩
  obtain ⟨more, hmore⟩ := hpre
  have hextended := hframed.extend (separates_starts srv.find) more
  rw [hmore] at hextended
  exact hextended.comparable (separates_starts srv.find) hframed'

/-! ### Two requests -/

/-- No header token has a handler. -/
def noHandlers : Server where
  heads := .least
  bodies := .default
  find _ := {}

def getA : Bytes := ascii "GET /a HTTP/1.0\r\n\r\n"
def getB : Bytes := ascii "GET /b HTTP/1.0\r\n\r\n"

/-- Where a list of events leads to, and what can be checked there. -/
theorem exists_dialogue (es : List ConnEvent) (check : Dialogue → Bool)
    (h : (runList (fun d e => if True then Dialogue.step noHandlers d e else none) .start es).any check = true) :
    ∃ d, Run (Dialogue.step noHandlers) (fun _ _ => True) .start d ∧ check d = true := by
  obtain ⟨d, hd, hcheck⟩ := (Option.any_eq_true _ _).mp h
  exact ⟨d, .of_runList .start hd, hcheck⟩

/-- One connection receives the first request in two parts, the other both requests at once. -/
theorem requests_framed_two : ∃ d d' : Dialogue, d.received = getA ∧ d'.received = getA ++ getB ∧ d'.requests.length = 2 ∧
    (d.requests <+: d'.requests ∨ d'.requests <+: d.requests) := by
  obtain ⟨d, hrun, hcheck⟩ := exists_dialogue
    [.head (.recv (getA.take 9) {} true), .head (.again true), .head (.read {}),
      .head (.recv (getA.drop 9) {} true), .process true true true {}]
    (fun d => d.received == getA) (by decide +kernel)
  obtain ⟨d', hrun', hcheck'⟩ := exists_dialogue
    [.head (.recv (getA ++ getB) {} true), .process true true true {}, .complete {}, .head (.read {}),
      .process true true true {}]
    (fun d => d.received == getA ++ getB && d.requests.length == 2) (by decide +kernel)
  simp only [Bool.and_eq_true, beq_iff_eq] at hcheck hcheck'
  refine ⟨d, d', hcheck, hcheck'.1, hcheck'.2, (requests_framed hrun hrun' ?_).2⟩
  rw [hcheck, hcheck'.1]
  exact List.prefix_append _ _

end PgRest.Http
