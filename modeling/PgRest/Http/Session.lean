import Mathlib.Data.List.Induction
import PgRest.Http.Body

/-! Sessions: reading a body from a parsed head to its end, with what has been received.
Every run is a run of these; the lemmas here say what one step does, for both framings. -/
namespace PgRest.Http
open Lib Memory

/-- A request whose head has been parsed and that has a body. -/
structure Head where
  headerIn : Buffer
  requestLength : Nat
  contentLengthN : Int
  chunked : Bool
  length_pos : 0 < requestLength
  length_le : requestLength ≤ headerIn.size
  framed : chunked = false → 0 ≤ contentLengthN

namespace Head

def request (h : Head) : Request :=
  { headerIn := h.headerIn, requestLength := h.requestLength, contentLengthN := h.contentLengthN,
    chunked := h.chunked }

def head (h : Head) : Bytes := h.headerIn.data.take h.requestLength

/-- What lies behind the head in `header_in`. -/
def preread (h : Head) : Bytes := h.headerIn.data.drop h.requestLength

@[simp] theorem length_head (h : Head) : h.head.length = h.requestLength := by
  rw [head, List.length_take]
  exact Nat.min_eq_left h.length_le

theorem head_preread (h : Head) : h.headerIn.data = h.head ++ h.preread :=
  (List.take_append_drop _ _).symm

theorem length_preread (h : Head) : h.preread.length = h.headerIn.size - h.requestLength := by
  simp [preread, Buffer.size]

end Head

namespace Request

@[simp] theorem buf_setBuf (req : Request) (buf : Buffer) : (req.setBuf buf).buf = buf := by
  obtain ⟨_, _, _, _, body⟩ := req
  obtain ⟨_ | _, _⟩ := body <;> rfl

@[simp] theorem split_setBuf (req : Request) (buf : Buffer) : (req.setBuf buf).split = req.split := by
  obtain ⟨_, _, _, _, body⟩ := req
  obtain ⟨_ | _, _⟩ := body <;> rfl

@[simp] theorem setBuf_buf (req : Request) : req.setBuf req.buf = req := by
  obtain ⟨_, _, _, _, body⟩ := req
  obtain ⟨_ | _, _⟩ := body <;> rfl

theorem headerIn_setBuf {req : Request} (h : req.split = true) (buf : Buffer) :
    (req.setBuf buf).headerIn = req.headerIn := if_pos h

@[simp] theorem requestLength_setBuf (req : Request) (buf : Buffer) :
    (req.setBuf buf).requestLength = req.requestLength := rfl

@[simp] theorem contentLengthN_setBuf (req : Request) (buf : Buffer) :
    (req.setBuf buf).contentLengthN = req.contentLengthN := rfl

@[simp] theorem chunked_setBuf (req : Request) (buf : Buffer) :
    (req.setBuf buf).chunked = req.chunked := rfl

@[simp] theorem rest_setBuf (req : Request) (buf : Buffer) :
    (req.setBuf buf).requestBody.rest = req.requestBody.rest := rfl

@[simp] theorem decoder_setBuf (req : Request) (buf : Buffer) :
    (req.setBuf buf).requestBody.chunked = req.requestBody.chunked := rfl

@[simp] theorem decodeLength_setBuf (req : Request) (buf : Buffer) :
    (req.setBuf buf).requestBody.decodeLength = req.requestBody.decodeLength := rfl

@[simp] theorem entityBase_setBuf (req : Request) (buf : Buffer) :
    (req.setBuf buf).requestBody.entityBase = req.requestBody.entityBase := rfl

@[simp] theorem entityLen_setBuf (req : Request) (buf : Buffer) :
    (req.setBuf buf).requestBody.entityLen = req.requestBody.entityLen := rfl

end Request

/-! ### Sessions -/

/-- The bytes an event receives. -/
def Event.bytes : Event → Bytes
  | .recv bs _ _ => bs
  | _ => []

def Event.isZero : Event → Bool
  | .recvZero => true
  | _ => false

structure Session where
  state : State
  /-- what has been received behind the head -/
  received : Bytes
  /-- `recv` has returned 0 -/
  zero : Bool := false

def start (conf : Conf) (calls : Calls) (ready : Bool) (h : Head) : Session :=
  ⟨processEntity conf calls ready h.request, h.preread, false⟩

def Session.step (conf : Conf) (s : Session) (e : Event) : Option Session :=
  (s.state.step conf e).map fun state => ⟨state, s.received ++ e.bytes, s.zero || e.isZero⟩

/-- The request that is read, while it is. -/
def State.reading : State → Option Request
  | .looping req _ _ => some req
  | .waiting req => some req
  | _ => none

/-- The handler asks `recv` for no bytes. -/
def State.full : State → Bool
  | .looping req _ _ => req.buf.freeSize == 0
  | _ => false

/-- The client delivers bytes and nothing fails: `recv` returns 0 only where it is asked for
no bytes. -/
def Delivers (s : Session) : Event → Prop
  | .recv _ calls _ => calls.Succeed
  | .recvAgain => True
  | .recvZero => s.state.full = true
  | .recvError => False
  | .eventAdd succeeds => succeeds = true
  | .read => True
  | .timeout => False

instance (s : Session) : (e : Event) → Decidable (Delivers s e)
  | .recv _ calls _ => inferInstanceAs (Decidable calls.Succeed)
  | .recvAgain => isTrue trivial
  | .recvZero => inferInstanceAs (Decidable (s.state.full = true))
  | .recvError => isFalse id
  | .eventAdd succeeds => inferInstanceAs (Decidable (succeeds = true))
  | .read => isTrue trivial
  | .timeout => isFalse id

/-- What a session does in a step: it receives and parses, or it only waits, or it ends. -/
theorem Session.step_cases {conf : Conf} {s s' : Session} {e : Event} (h : s.step conf e = some s') :
    (∃ req fresh bs calls stale ready, s.state = .looping req true fresh ∧ e = .recv bs calls stale ∧
      bs ≠ [] ∧ bs.length ≤ req.buf.freeSize ∧
      s' = ⟨afterRead conf calls stale (req.setBuf (req.buf.recv bs)) ready fresh, s.received ++ bs, s.zero⟩) ∨
    (∃ req, s.state.reading = some req ∧ s'.state.reading = some req ∧ s'.received = s.received ∧
      s'.zero = s.zero) ∨
    ∃ req status, s.state.reading = some req ∧ s'.state = .finalized status ∧
      status ≠ requestEntityTooLarge ∧ s'.received = s.received ∧
      (Delivers s e → s'.zero = true ∧ req.buf.freeSize = 0) := by
  obtain ⟨state, received, zero⟩ := s
  obtain ⟨state', hstate, rfl⟩ := Option.map_eq_some_iff.mp h
  dsimp only at hstate ⊢
  have ended : badRequest ≠ requestEntityTooLarge ∧ requestTimeOut ≠ requestEntityTooLarge ∧
      internalServerError ≠ requestEntityTooLarge := by decide
  cases state with
  | looping req ready fresh =>
    cases ready with
    | true =>
      cases e with
      | recv bs calls stale =>
        simp only [State.step] at hstate
        split at hstate
        · next hbs =>
          cases hstate
          refine Or.inl ⟨req, fresh, bs, calls, stale, conf.edgeTriggered || bs.length == req.buf.freeSize,
            rfl, rfl, hbs.1, hbs.2, ?_⟩
          simp only [Event.bytes, Event.isZero, Bool.or_false]
        · cases hstate
      | recvAgain =>
        cases hstate
        exact Or.inr (Or.inl ⟨req, rfl, rfl, by simp [Event.bytes], by simp [Event.isZero]⟩)
      | recvZero =>
        cases hstate
        refine Or.inr (Or.inr ⟨req, _, rfl, rfl, ended.1, by simp [Event.bytes], fun hd => ⟨?_, ?_⟩⟩)
        · simp [Event.isZero]
        · exact beq_iff_eq.mp hd
      | recvError =>
        cases hstate
        exact Or.inr (Or.inr ⟨req, _, rfl, rfl, ended.1, by simp [Event.bytes], False.elim⟩)
      | eventAdd => cases hstate
      | read => cases hstate
      | timeout => cases hstate
    | false =>
      cases e with
      | eventAdd succeeds =>
        cases hstate
        cases succeeds with
        | true => exact Or.inr (Or.inl ⟨req, rfl, rfl, by simp [Event.bytes], by simp [Event.isZero]⟩)
        | false =>
          exact Or.inr (Or.inr ⟨req, _, rfl, rfl, ended.2.2, by simp [Event.bytes], by simp [Delivers]⟩)
      | _ => cases hstate
  | waiting req =>
    cases e with
    | read =>
      cases hstate
      exact Or.inr (Or.inl ⟨req, rfl, rfl, by simp [Event.bytes], by simp [Event.isZero]⟩)
    | timeout =>
      cases hstate
      exact Or.inr (Or.inr ⟨req, _, rfl, rfl, ended.2.1, by simp [Event.bytes], False.elim⟩)
    | _ => cases hstate
  | processed => cases hstate
  | finalized => cases hstate
  | undefined => cases hstate

/-! ### Parsing what has been read -/

/-- A call has failed, and the request has been given up, or the process is lost. -/
def Broken (calls : Calls) (state : State) : Prop :=
  ¬calls.Succeed ∧ (state = .finalized internalServerError ∨ state = .undefined)

theorem broken_reserve {calls : Calls} {buf : Buffer} {n : Nat} (h : ∀ buf', reserve calls buf n ≠ .ok buf') :
    ¬calls.Succeed := by
  intro hc
  obtain ⟨buf', hbuf⟩ := reserve_succeeds hc buf n
  exact h buf' hbuf

/-- Where a body that is not complete is read to. Only one without chunks can stay behind
the head. -/
theorem prepareBuffer_cases (conf : Conf) (calls : Calls) (ready : Bool) (preread : Nat) (req : Request) :
    (req.chunked = false ∧ prepareBuffer conf calls ready preread req = .looping req ready true) ∨
    (∃ buf, preread = 0 ∧ buf.data = [] ∧ 0 < buf.freeSize ∧ prepareBuffer conf calls ready preread req =
      .looping { req with requestBody := { req.requestBody with buffer := some buf } } ready true) ∨
    (∃ buf, preread ≠ 0 ∧
      buf.data = ((req.headerIn.data ++ req.headerIn.after).drop req.requestLength).take preread ∧
      prepareBuffer conf calls ready preread req =
        .looping { req with
          headerIn := req.headerIn.setSize req.requestLength
          requestBody := { req.requestBody with buffer := some buf } } ready true) ∨
    Broken calls (prepareBuffer conf calls ready preread req) := by
  unfold prepareBuffer
  by_cases hleft : bodyLeft req preread ≠ 0 ∧ bodyLeft req preread ≤ req.headerIn.freeSize
  · refine Or.inl ⟨?_, if_pos hleft⟩
    cases hch : req.chunked with
    | false => rfl
    | true => exact absurd (if_pos hch) hleft.1
  rw [if_neg hleft]
  cases halloc : calls.alloc with
  | false =>
    simp only [bufferCreate, halloc]
    exact Or.inr (Or.inr (Or.inr ⟨fun hc => by simp [hc.alloc] at halloc, Or.inl rfl⟩))
  | true =>
  simp only [bufferCreate, halloc, if_true]
  by_cases hpre : preread = 0
  · exact Or.inr (Or.inl ⟨_, hpre, rfl, by simpa using conf.bodyBuffer_pos, if_pos hpre⟩)
  rw [if_neg hpre]
  have hcap : 0 < (⟨[], [], List.replicate conf.clientBodyBufferSize 0, none⟩ : Buffer).capacity := by
    simpa [Buffer.capacity, Buffer.start] using conf.bodyBuffer_pos
  cases hbuf : reserve calls ⟨[], [], List.replicate conf.clientBodyBufferSize 0, none⟩ preread with
  | ok buf =>
    have hroom := (reserve_room hcap rfl hbuf).1
    refine Or.inr (Or.inr (Or.inl ⟨{ buf with
      data := ((req.headerIn.data ++ req.headerIn.after).drop req.requestLength).take preread
      after := (buf.data ++ buf.after).drop preread }, hpre, rfl, ?_⟩))
    exact if_neg (by omega)
  | failed opened =>
    exact Or.inr (Or.inr (Or.inr ⟨broken_reserve fun buf' h => (by cases hbuf.symm.trans h), Or.inl rfl⟩))
  | crashed =>
    exact Or.inr (Or.inr (Or.inr ⟨broken_reserve fun buf' h => (by cases hbuf.symm.trans h), Or.inr rfl⟩))

theorem processEntity_head (conf : Conf) (calls : Calls) (ready : Bool) (h : Head) :
    processEntity conf calls ready h.request =
      if calls.alloc then
        if h.preread.length = 0 then prepareBuffer conf calls ready h.preread.length h.request
        else
          match bodyParser conf calls h.request with
          | .ok req => .processed req
          | .finalize status => .finalized status
          | .undefined => .undefined
          | .again req => prepareBuffer conf calls ready h.preread.length req
      else .finalized internalServerError := by
  rw [h.length_preread, processEntity]
  rfl

/-- `pgrest_http_extend_body_buffer` has moved the buffer or left it. -/
structure Extends (buf buf' : Buffer) : Prop where
  data : buf'.data = buf.data
  free : 0 < buf.freeSize → 0 < buf'.freeSize

theorem Extends.refl (buf : Buffer) : Extends buf buf := ⟨rfl, id⟩

theorem extends_reserve {calls : Calls} {buf buf' : Buffer} {n : Nat} (h : reserve calls buf n = .ok buf') :
    Extends buf buf' :=
  ⟨reserve_data h, fun hfree => Nat.lt_of_lt_of_le hfree (reserve_free (by rw [Buffer.capacity_eq]; omega) h)⟩

/-- Where the handler is after a read. -/
theorem afterRead_cases (conf : Conf) (calls : Calls) (stale : Bool) (req : Request) (ready fresh : Bool) :
    (∃ req', bodyParser conf calls req = .ok req' ∧
      afterRead conf calls stale req ready fresh = .processed req') ∨
    (∃ status, bodyParser conf calls req = .finalize status ∧
      afterRead conf calls stale req ready fresh = .finalized status) ∨
    (bodyParser conf calls req = .undefined ∧ afterRead conf calls stale req ready fresh = .undefined) ∨
    ∃ req', bodyParser conf calls req = .again req' ∧
      ((∃ buf fresh', Extends req'.buf buf ∧
        afterRead conf calls stale req ready fresh = .looping (req'.setBuf buf) ready fresh') ∨
      Broken calls (afterRead conf calls stale req ready fresh)) := by
  unfold afterRead
  cases hp : bodyParser conf calls req with
  | ok req' => exact Or.inl ⟨req', rfl, rfl⟩
  | finalize status => exact Or.inr (Or.inl ⟨status, rfl, rfl⟩)
  | undefined => exact Or.inr (Or.inr (Or.inl ⟨rfl, rfl⟩))
  | again req' =>
    refine Or.inr (Or.inr (Or.inr ⟨req', rfl, ?_⟩))
    dsimp only
    split
    · cases hr : reserve calls req'.buf allocsetBufferMinsize with
      | ok buf => exact Or.inl ⟨buf, false, extends_reserve hr, rfl⟩
      | failed opened => exact Or.inr ⟨broken_reserve fun buf' h => (by cases hr.symm.trans h), Or.inl rfl⟩
      | crashed => exact Or.inr ⟨broken_reserve fun buf' h => (by cases hr.symm.trans h), Or.inr rfl⟩
    · exact Or.inl ⟨req'.buf, fresh, .refl _, by rw [Request.setBuf_buf]⟩

/-- A body `b` has been read, and `t` lies behind it in the buffer. -/
structure BodyRead (h : Head) (b t : Bytes) (req : Request) : Prop where
  length : req.requestLength = h.requestLength + b.length
  base : req.requestBody.entityBase = if req.split then 0 else h.requestLength
  len : req.requestBody.entityLen = b.length
  data : req.buf.data = (if req.split then [] else h.head) ++ (b ++ t)
  /-- there is nothing behind the head when the body has its own buffer -/
  header : req.split = true → req.headerIn.data = h.head

theorem BodyRead.at_base {h : Head} {b t : Bytes} {req : Request} (hr : BodyRead h b t req) :
    req.buf.data.drop req.requestBody.entityBase = b ++ t := by
  rw [hr.base, hr.data]
  cases req.split <;> simp

theorem BodyRead.entity_eq {h : Head} {b t : Bytes} {req : Request} (hr : BodyRead h b t req) :
    req.entity = b := by
  rw [Request.entity, hr.at_base, hr.len, List.take_left]

theorem BodyRead.left_eq {h : Head} {b t : Bytes} {req : Request} (hr : BodyRead h b t req) :
    req.left = t := by
  rw [Request.left, ← List.drop_drop, hr.at_base, hr.len, List.drop_left]

/-! ### Reading by an invariant

How a body is read is a `Spec`: what holds while it is read, and what has been received
when the parser ends it. That one parse keeps to it (`Spec.Sound`) is all that a framing
has to show. -/

structure Spec where
  reading : Request → Bytes → Prop
  ok : Request → Bytes → Prop
  finalized : Nat → Bytes → Prop
  undefined : Bytes → Prop

namespace Spec
variable (S : Spec) (conf : Conf)

/-- A parse comes out as it may. Without memory it may end with any other status. -/
def Parses (calls : Calls) (received : Bytes) : Parse → Prop
  | .ok req => S.ok req received
  | .again req => S.reading req received
  | .finalize status =>
    S.finalized status received ∨ (status ≠ requestEntityTooLarge ∧ ¬calls.Succeed)
  | .undefined => S.undefined received

/-- What holds of a session. A session in which nothing fails (`clean`) ends without the
parser only where `recv` is asked for no bytes. -/
def Holds (clean : Prop) (s : Session) : Prop :=
  match s.state with
  | .looping req _ _ => S.reading req s.received
  | .waiting req => S.reading req s.received
  | .processed req => S.ok req s.received
  | .finalized status => S.finalized status s.received ∨ (status ≠ requestEntityTooLarge ∧
      (clean → s.zero = true ∧ ∃ req, S.reading req s.received ∧ req.buf.freeSize = 0))
  | .undefined => S.undefined s.received ∨ ¬clean

structure Sound : Prop where
  extend {req : Request} {buf : Buffer} {received : Bytes} :
    S.reading req received → Extends req.buf buf → S.reading (req.setBuf buf) received
  parse {req : Request} {received bs : Bytes} (calls : Calls) :
    S.reading req received → bs ≠ [] → bs.length ≤ req.buf.freeSize →
      S.Parses calls (received ++ bs) (bodyParser conf calls (req.setBuf (req.buf.recv bs)))

variable {S conf}

theorem holds_reading {clean : Prop} {s : Session} {req : Request} (hs : s.state.reading = some req) :
    S.Holds clean s ↔ S.reading req s.received := by
  obtain ⟨state, received, zero⟩ := s
  cases state <;> cases hs <;> rfl

theorem holds_broken {clean : Prop} {calls : Calls} {state : State} {received : Bytes} {zero : Bool}
    (hc : clean → calls.Succeed) (h : Broken calls state) : S.Holds clean ⟨state, received, zero⟩ := by
  obtain ⟨hfail, rfl | rfl⟩ := h
  · exact Or.inr ⟨by decide, fun hclean => absurd (hc hclean) hfail⟩
  · exact Or.inr fun hclean => hfail (hc hclean)

/-- The handler after a read keeps to what the parser does. -/
theorem holds_afterRead (hS : S.Sound conf) {clean : Prop} {calls : Calls} {stale ready fresh zero : Bool}
    {req : Request} {received : Bytes} (hc : clean → calls.Succeed)
    (hp : S.Parses calls received (bodyParser conf calls req)) :
    S.Holds clean ⟨afterRead conf calls stale req ready fresh, received, zero⟩ := by
  rcases afterRead_cases conf calls stale req ready fresh with
    ⟨req', hreq, hst⟩ | ⟨status, hreq, hst⟩ | ⟨hreq, hst⟩ | ⟨req', hreq, hst⟩
  · rw [hreq] at hp
    rw [hst]
    exact hp
  · rw [hreq] at hp
    rw [hst]
    exact hp.imp id fun ⟨hne, hfail⟩ => ⟨hne, fun h => absurd (hc h) hfail⟩
  · rw [hreq] at hp
    rw [hst]
    exact Or.inl hp
  · rw [hreq] at hp
    rcases hst with ⟨buf, fresh', hext, hst⟩ | hbroken
    · rw [hst]
      exact hS.extend hp hext
    · exact holds_broken hc hbroken

theorem holds_step (hS : S.Sound conf) {clean : Prop} {s s' : Session} {e : Event}
    (hc : clean → Delivers s e) (h : s.step conf e = some s') (hs : S.Holds clean s) :
    S.Holds clean s' := by
  rcases Session.step_cases h with ⟨req, fresh, bs, calls, stale, ready, hst, rfl, hne, hle, rfl⟩ |
    ⟨req, hst, hst', hrecv, -⟩ | ⟨req, status, hst, hst', hne, hrecv, hzero⟩
  · have hreq : S.reading req s.received := (holds_reading (by rw [hst]; rfl)).mp hs
    exact holds_afterRead hS hc (hS.parse calls hreq hne hle)
  · rw [holds_reading hst', hrecv]
    exact (holds_reading hst).mp hs
  · obtain ⟨state, received, zero⟩ := s'
    cases hst'
    refine Or.inr ⟨hne, fun h => ⟨(hzero (hc h)).1, req, ?_, (hzero (hc h)).2⟩⟩
    rw [hrecv]
    exact (holds_reading hst).mp hs

/-- What holds at the start of a session holds in all of its runs. -/
theorem holds_run (hS : S.Sound conf) {clean : Prop} {s s' : Session} (hs : S.Holds clean s)
    (h : Run (Session.step conf) (fun s e => clean → Delivers s e) s s') : S.Holds clean s' :=
  h.invariant hs fun _ _ _ hu hok hstep => holds_step hS hok hstep hu

/-- A session in which nothing fails, as far as it is not finished. -/
theorem holds_delivered (hS : S.Sound conf) {s s' : Session} (hs : S.Holds True s)
    (h : Run (Session.step conf) Delivers s s') : S.Holds True s' :=
  holds_run hS hs (h.mono fun _ _ hd _ => hd)

end Spec

/-- What has been read ahead stays received first. -/
theorem preread_starts {conf : Conf} {ok : Session → Event → Prop} {s s' : Session}
    (h : Run (Session.step conf) ok s s') : s.received <+: s'.received := by
  refine h.invariant (P := fun u => s.received <+: u.received) (List.prefix_refl _) fun u e u' hu _ hstep => ?_
  obtain ⟨state, -, rfl⟩ := Option.map_eq_some_iff.mp hstep
  exact hu.trans (List.prefix_append _ _)

/-- A session that is not read any more has ended. -/
theorem run_ended {conf : Conf} {ok : Session → Event → Prop} {s s' : Session} (hs : s.state.reading = none)
    (h : Run (Session.step conf) ok s s') : s' = s := by
  refine h.invariant (P := fun u => u = s) rfl fun u e u' hu _ hstep => ?_
  subst hu
  rcases Session.step_cases hstep with ⟨req, fresh, bs, calls, stale, ready, hst, -⟩ | ⟨req, hst, -⟩ |
    ⟨req, status, hst, -⟩
  · rw [hst] at hs
    cases hs
  · rw [hst] at hs
    cases hs
  · rw [hst] at hs
    cases hs

/-! ### Bytes arrive -/

section Arrival
variable (conf : Conf) {s : Session} {req : Request}

/-- The handler comes to its next read. -/
theorem wakes (hs : s.state.reading = some req) : ∃ s' fresh, Run (Session.step conf) Delivers s s' ∧
    s'.state = .looping req true fresh ∧ s'.received = s.received := by
  obtain ⟨state, received, zero⟩ := s
  have hwait : ∀ zero', ∃ s' fresh, Run (Session.step conf) Delivers ⟨.waiting req, received, zero'⟩ s' ∧
      s'.state = .looping req true fresh ∧ s'.received = received := fun zero' =>
    ⟨_, true, .next (a := .read) .start trivial rfl, rfl, List.append_nil received⟩
  cases state with
  | looping req' ready fresh =>
    cases hs
    cases ready with
    | true => exact ⟨_, fresh, .start, rfl, rfl⟩
    | false =>
      have hadd : Session.step conf ⟨.looping req false fresh, received, zero⟩ (.eventAdd true) =
          some ⟨.waiting req, received, zero⟩ := by
        simp [Session.step, State.step, Event.bytes, Event.isZero]
      obtain ⟨s', fresh', hrun, hst, hrecv⟩ := hwait zero
      exact ⟨s', fresh', (Run.next .start (by exact rfl) hadd).trans hrun, hst, hrecv⟩
  | waiting req' =>
    cases hs
    exact hwait zero
  | processed => cases hs
  | finalized => cases hs
  | undefined => cases hs

/-- The next byte arrives, or `recv` is asked for none and the session ends. -/
theorem arrives (hs : s.state.reading = some req) (c : UInt8) : ∃ s', Run (Session.step conf) Delivers s s' ∧
    (s'.received = s.received ++ [c] ∨ (s'.received = s.received ∧ s'.state = .finalized badRequest)) := by
  obtain ⟨⟨state, received, zero⟩, fresh, hrun, rfl, hrecv⟩ := wakes conf hs
  by_cases hfree : req.buf.freeSize = 0
  · refine ⟨_, .next (a := .recvZero) hrun (beq_iff_eq.mpr hfree) rfl, Or.inr ⟨?_, rfl⟩⟩
    exact (List.append_nil received).trans hrecv
  · have hroom : [c] ≠ [] ∧ [c].length ≤ req.buf.freeSize := ⟨by simp, Nat.pos_of_ne_zero hfree⟩
    obtain ⟨state, hstate⟩ : ∃ state, (State.looping req true fresh).step conf (.recv [c] {} false) = some state :=
      ⟨_, if_pos hroom⟩
    refine ⟨⟨state, received ++ [c], zero || false⟩, .next (a := .recv [c] {} false) hrun ⟨rfl, rfl, rfl, rfl⟩ ?_,
      Or.inl (congrArg (· ++ [c]) hrecv)⟩
    rw [Session.step, hstate]
    rfl

variable {conf} in
/-- Where no session ends early, any bytes arrive or are not waited for. -/
theorem reaches {stream : Bytes} (hgo : ∀ s', Run (Session.step conf) Delivers s s' → s'.received <+: stream →
      (∃ req, s'.state.reading = some req) ∨ ∃ req, s'.state = .processed req) {l : Bytes}
    (hl : s.received ++ l <+: stream) : ∃ s', Run (Session.step conf) Delivers s s' ∧
      (s'.received = s.received ++ l ∨ (s'.received <+: s.received ++ l ∧ ∃ req, s'.state = .processed req)) := by
  induction l using List.reverseRecOn with
  | nil => exact ⟨s, .start, Or.inl (List.append_nil _).symm⟩
  | append_singleton l c ih =>
    have hpre : s.received ++ l <+: s.received ++ (l ++ [c]) := by
      rw [← List.append_assoc]
      exact List.prefix_append _ _
    obtain ⟨s', hrun, hrecv | ⟨hrecv, hproc⟩⟩ := ih (hpre.trans hl)
    · rcases hgo s' hrun (hrecv ▸ hpre.trans hl) with ⟨req, hread⟩ | hproc
      · obtain ⟨s'', hrun', hbyte | ⟨hsame, hfin⟩⟩ := arrives conf hread c
        · exact ⟨s'', hrun.trans hrun', Or.inl (by rw [hbyte, hrecv, List.append_assoc])⟩
        · rcases hgo s'' (hrun.trans hrun') (hsame ▸ hrecv ▸ hpre.trans hl) with ⟨req, hread⟩ | ⟨req, hproc⟩
          · rw [hfin] at hread
            cases hread
          · rw [hfin] at hproc
            cases hproc
      · exact ⟨s', hrun, Or.inr ⟨hrecv ▸ hpre, hproc⟩⟩
    · exact ⟨s', hrun, Or.inr ⟨hrecv.trans hpre, hproc⟩⟩

end Arrival

end PgRest.Http
