import PgRest.Http.HeadHandler

/-! `pgrest_http_finalize_connection`, which every error exit of the handlers leads to. It asks
how much is left in the buffers, and `pgrest_http_buffer_left` takes the body to be installed
unless the request is known to have none. Here are the exits, each with the run that leads to it,
and which of them can be finalized. -/
namespace PgRest.Http
open Lib Memory

/-- `PGREST_HTTP_LINGERING_OFF`, `_ON` and `_ALWAYS` -/
inductive Lingering where
  | off
  | on
  | always
deriving DecidableEq, Repr

/-- What is looked at of a request that is finalized; the defaults are what
`pgrest_http_create_request` leaves. -/
structure Exit where
  headerIn : Buffer
  requestLength : Nat := 0
  count : Nat := 1
  headerOnly : Bool := false
  keepalive : Bool := false
  lingeringClose : Bool := false
  /-- `req->request_body`, if it is not NULL -/
  requestBody : Option Body := none

/-- What else decides. -/
structure FinalizeEnv where
  /-- `conf->lingering_close` -/
  lingeringClose : Lingering
  /-- `conf->keepalive_timeout` -/
  keepaliveTimeout : Nat
  /-- `pgrest_worker_terminate` -/
  workerTerminate : Bool
  /-- `conn->ready` -/
  ready : Bool

inductive Finalized where
  /-- `pgrest_http_set_keepalive` has been reached -/
  | keepalive
  /-- `pgrest_http_set_lingering_close` -/
  | lingeringClose
  /-- `pgrest_http_close_request` -/
  | close
  /-- `request_body` has been used and is NULL -/
  | notInstalled
deriving DecidableEq, Repr

/-- The `size` that `pgrest_buffer_consume` leaves is not zero; it wraps when less was there. -/
def leaves (buf : Buffer) (n : Nat) : Bool := (buf.consume n).all fun buf => buf.size != 0

/-- `pgrest_http_buffer_left(req) > 0`, or `none` where it uses a body that is not there. -/
def Exit.left (r : Exit) : Option Bool :=
  if r.headerOnly then some (leaves r.headerIn r.requestLength)
  else
    match r.requestBody with
    | none => none
    | some body =>
      match body.buffer with
      | none => some (leaves r.headerIn r.requestLength)
      | some buf => some (leaves buf body.entityLen)

/-- `pgrest_http_finalize_connection` -/
def finalizeConnection (env : FinalizeEnv) (r : Exit) : Finalized :=
  if r.count ≠ 1 then .close
  else if env.workerTerminate = false ∧ r.keepalive = true ∧ 0 < env.keepaliveTimeout then
    if r.left.isSome then .keepalive else .notInstalled
  else
    match env.lingeringClose with
    | .always => .lingeringClose
    | .off => .close
    | .on =>
      if r.lingeringClose then .lingeringClose
      else
        match r.left with
        | none => .notInstalled
        | some left => if left || env.ready then .lingeringClose else .close

/-! ### `pgrest_http_process_header` -/

/-- `PGREST_HTTP_NOT_ALLOWED` -/
def notAllowed : Nat := 405
/-- `PGREST_HTTP_NOT_IMPLEMENTED` -/
def notImplemented : Nat := 501
/-- `PGREST_HTTP_VERSION_10` -/
def version10 : Nat := 1000
/-- `PGREST_HTTP_VERSION_11` -/
def version11 : Nat := 1001

/-- What the handlers of the header tokens leave in `headers_in`, and `method`. No token has a
handler and no one sets the method, so in the source these are what they are at first; the
checks are modelled for all that handlers could leave. -/
structure HeadersIn where
  host : Option Bytes := none
  contentLength : Option Bytes := none
  transferEncoding : Option Bytes := none
  expect : Option Bytes := none
  /-- `method` is `PGREST_HTTP_TRACE` -/
  trace : Bool := false

/-- `pgrest_atoof`, `none` for `PGREST_ERROR`. -/
def atoof (line : Bytes) : Option Int :=
  let cutoff : Nat := 0x7fffffffffffffff / 10
  let cutlim : Nat := 0x7fffffffffffffff % 10
  if line = [] then none
  else
    line.foldlM (fun (value : Int) c =>
      if c < 48 ∨ 57 < c then none
      else if cutoff ≤ value ∧ (cutoff < value ∨ cutlim < c.toNat - 48) then none
      else some (value * 10 + (c.toNat - 48 : Nat))) 0

inductive ProcessedHeader where
  | ok (contentLengthN : Int) (chunked : Bool)
  | finalize (status : Nat)
  /-- the request has been closed -/
  | closed

/-- `pgrest_http_process_header`; `added` says whether all headers could be stored. -/
def processHeader (added : Bool) (head : TakenHead) (found : HeadersIn) : ProcessedHeader :=
  if !added then .closed
  else if found.host = none ∧ version10 < head.httpVersion then .finalize badRequest
  else
    match found.contentLength.elim (some (-1)) atoof with
    | none => .finalize badRequest
    | some contentLengthN =>
      if found.trace then .finalize notAllowed
      else
        match found.transferEncoding with
        | none => .ok contentLengthN false
        | some value =>
          if sameCase value (ascii "chunked") then .ok (-1) true
          else if sameCase value (ascii "identity") then .ok contentLengthN false
          else .finalize notImplemented

/-- `pgrest_http_test_expect`; `sent` says whether the answer could be sent. -/
def testExpect (head : TakenHead) (found : HeadersIn) (sent : Bool) : Bool :=
  match found.expect with
  | none => true
  | some value =>
    if head.httpVersion < version11 then true
    else if sameCase value (ascii "100-continue") then sent else true

/-! ### The exits -/

/-- A head with a body has been processed, and the answer to `Expect` could be sent. -/
structure Entity (hconf : HeadConf) (h : Head) : Prop where
  processed : ∃ conn head added found sent,
    Run (HeadState.step hconf) (fun _ _ => True) .start (.processing conn head) ∧
      processHeader added head found = .ok h.contentLengthN h.chunked ∧ testExpect head found sent = true ∧
      h.headerIn = conn.buffer ∧ h.requestLength = head.requestLength
  body : h.contentLengthN ≠ -1 ∨ h.chunked = true

/-- `pgrest_http_finalize_request` is called for a request of a fresh connection, from the handler
for heads, `pgrest_http_process_header` or a handler for bodies. -/
inductive Finalizes (hconf : HeadConf) (conf : Conf) : Exit → Prop
  /-- the head is malformed, too large or ends early -/
  | head {s : HeadState} {e : HeadEvent} {status : Nat} {buf : Buffer} :
      Run (HeadState.step hconf) (fun _ _ => True) .start s → s.step hconf e = some (.finalized status) →
      Finalizes hconf conf { headerIn := buf, lingeringClose := status == requestHeaderTooLarge }
  /-- `pgrest_http_process_header` -/
  | header {conn : Conn} {head : TakenHead} {added : Bool} {found : HeadersIn} {status : Nat} :
      Run (HeadState.step hconf) (fun _ _ => True) .start (.processing conn head) →
      processHeader added head found = .finalize status →
      Finalizes hconf conf { headerIn := conn.buffer, requestLength := head.requestLength }
  /-- the `request_body` cannot be allocated -/
  | unallocated {h : Head} : Entity hconf h →
      Finalizes hconf conf { headerIn := h.headerIn, requestLength := h.requestLength }
  /-- what has been read ahead of the body is refused -/
  | preread {h : Head} {calls : Calls} {status : Nat} {buf : Buffer} {body : Body} : Entity hconf h →
      bodyParser conf calls h.request = .finalize status →
      Finalizes hconf conf { headerIn := buf, requestLength := h.requestLength, requestBody := some body }
  /-- there is no buffer for the body -/
  | unprepared {h : Head} {calls : Calls} {ready : Bool} {status : Nat} {body : Body} : Entity hconf h →
      prepareBuffer conf calls ready h.preread.length h.request = .finalized status →
      Finalizes hconf conf { headerIn := h.headerIn, requestLength := h.requestLength, requestBody := some body }
  /-- the body is refused or ends early, there is no room for it, or the wait for it ends -/
  | body {h : Head} {calls : Calls} {ready : Bool} {s : Session} {e : Event} {status : Nat} {buf : Buffer}
      {body : Body} : Entity hconf h → Run (Session.step conf) (fun _ _ => True) (start conf calls ready h) s →
      s.state.step conf e = some (.finalized status) → e ≠ .eventAdd false →
      Finalizes hconf conf { headerIn := buf, requestLength := h.requestLength, requestBody := some body }

/-- Without a body to use there is nothing that `pgrest_http_buffer_left` could return. -/
theorem finalize_early {r : Exit} (hcount : r.count = 1) (honly : r.headerOnly = false)
    (hkeep : r.keepalive = false) (hbody : r.requestBody = none) (env : FinalizeEnv) :
    finalizeConnection env r = .notInstalled ↔ env.lingeringClose = .on ∧ r.lingeringClose = false := by
  have hleft : r.left = none := by
    rw [Exit.left, honly, hbody]
    rfl
  rw [finalizeConnection, hleft, hcount, hkeep]
  cases env.lingeringClose <;> cases r.lingeringClose <;> simp

theorem left_installed {r : Exit} {body : Body} (hbody : r.requestBody = some body) : ∃ left, r.left = some left := by
  rw [Exit.left, hbody]
  cases r.headerOnly with
  | true => exact ⟨_, if_pos rfl⟩
  | false =>
    cases hbuf : body.buffer with
    | none => exact ⟨leaves r.headerIn r.requestLength, by simp [hbuf]⟩
    | some buf => exact ⟨leaves buf body.entityLen, by simp [hbuf]⟩

theorem finalize_installed {r : Exit} {body : Body} (hbody : r.requestBody = some body) (env : FinalizeEnv) :
    finalizeConnection env r ≠ .notInstalled := by
  obtain ⟨left, hleft⟩ := left_installed hbody
  rw [finalizeConnection, hleft]
  split
  · simp
  split
  · simp
  · cases env.lingeringClose <;> cases r.lingeringClose <;> cases left <;> cases env.ready <;> simp

/-- **An exit can be finalized** without the use of a body that is not installed exactly when
lingering close is not `on`, or the exit is that for a head that is too large, or the body is
installed. -/
theorem finalize_reaches {hconf : HeadConf} {conf : Conf} {r : Exit} (h : Finalizes hconf conf r)
    (env : FinalizeEnv) :
    finalizeConnection env r ≠ .notInstalled ↔
      (env.lingeringClose = .on → r.lingeringClose = true ∨ r.requestBody.isSome = true) := by
  have hearly : ∀ r : Exit, r.count = 1 → r.headerOnly = false → r.keepalive = false → r.requestBody = none →
      (finalizeConnection env r ≠ .notInstalled ↔
        (env.lingeringClose = .on → r.lingeringClose = true ∨ r.requestBody.isSome = true)) := by
    intro r hcount honly hkeep hbody
    rw [ne_eq, finalize_early hcount honly hkeep hbody, hbody]
    cases r.lingeringClose <;> simp
  cases h with
  | head _ _ => exact hearly _ rfl rfl rfl rfl
  | header _ _ => exact hearly _ rfl rfl rfl rfl
  | unallocated _ => exact hearly _ rfl rfl rfl rfl
  | preread _ _ => exact iff_of_true (finalize_installed rfl env) fun _ => .inr rfl
  | unprepared _ _ => exact iff_of_true (finalize_installed rfl env) fun _ => .inr rfl
  | body _ _ _ _ => exact iff_of_true (finalize_installed rfl env) fun _ => .inr rfl

/-! ### A malformed head -/

/-- One byte that no head begins with, the first of a fresh connection. -/
theorem malformed_finalized : HeadState.start.step .least (.recv [1] {} true) = some (.finalized badRequest) := by
  let finalized : HeadState → Bool := fun s =>
    match s with
    | .finalized status => status == badRequest
    | _ => false
  have hany : (HeadState.start.step .least (.recv [1] {} true)).any finalized = true := by decide +kernel
  obtain ⟨s, hs, hfin⟩ := (Option.any_eq_true _ _).mp hany
  rw [hs]
  cases s with
  | finalized status => rw [beq_iff_eq.mp hfin]
  | _ => cases hfin

/-- The request that it ends. -/
def malformed : Exit := { headerIn := { before := [], data := [1], after := [] } }

theorem malformed_finalizes : Finalizes .least .default malformed := .head .start malformed_finalized

theorem finalize_reaches_off :
    finalizeConnection ⟨.off, 600000, false, false⟩ malformed ≠ .notInstalled :=
  (finalize_reaches malformed_finalizes _).mpr (by decide)

/-- With lingering close `on`, which it is by default, the malformed head cannot be finalized. -/
theorem finalize_stuck : Finalizes .least .default malformed ∧
    finalizeConnection ⟨.on, 600000, false, false⟩ malformed = .notInstalled :=
  ⟨.head .start malformed_finalized, by decide⟩

end PgRest.Http
