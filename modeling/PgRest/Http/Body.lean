import PgRest.Lib.Run
import PgRest.Memory.Buffer
import PgRest.Http.Chunked

/-! Reading the body of a request: `pgrest_http_process_entity`, the parsers for the two
framings, and `pgrest_http_entity_handler` with the reads it makes.

The handler is a step on states; what `recv` returns, which calls succeed and which event
fires are its events. The handler compares `size` and `capacity` of the buffer that was
the body's when it was called: once the buffer has been moved it reads freed memory, and
what it sees there is part of the event. -/
namespace PgRest.Http
open Lib Memory

/-- `PGREST_HTTP_BAD_REQUEST` -/
def badRequest : Nat := 400
/-- `PGREST_HTTP_REQUEST_TIME_OUT` -/
def requestTimeOut : Nat := 408
/-- `PGREST_HTTP_REQUEST_ENTITY_TOO_LARGE` -/
def requestEntityTooLarge : Nat := 413
/-- `PGREST_HTTP_INTERNAL_SERVER_ERROR` -/
def internalServerError : Nat := 500

/-- What `pgrest_conf_http_server_t` says about bodies, and whether read events are
edge-triggered. -/
structure Conf where
  clientBodyBufferSize : Nat
  clientMaxBodySize : Nat
  edgeTriggered : Bool := false
  bodyBuffer_pos : 0 < clientBodyBufferSize

/-- The values without a configuration file. -/
def Conf.default : Conf where
  clientBodyBufferSize := 2048
  clientMaxBodySize := 8192
  bodyBuffer_pos := by decide

/-- `pgrest_http_request_body_t`. Without a buffer of its own (`split` is 0) the body lies
behind the head in `header_in`. The entity is an offset from `pos` and a length. -/
structure Body where
  buffer : Option Buffer := none
  entityBase : Nat := 0
  entityLen : Nat := 0
  rest : Int := -1
  chunked : Decoder := {}
  decodeLength : Nat := 0

/-- `pgrest_http_request_t`, with the `content_length_n` and `chunked` of its `headers_in`. -/
structure Request where
  headerIn : Buffer
  requestLength : Nat
  contentLengthN : Int
  chunked : Bool
  requestBody : Body := {}

namespace Request

/-- `rb->split` -/
def split (req : Request) : Bool := req.requestBody.buffer.isSome

/-- The buffer the body is in. -/
def buf (req : Request) : Buffer := req.requestBody.buffer.getD req.headerIn

/-- Sets the buffer the body is in; `header_in` and the buffer of the connection follow it
when they are the same. -/
def setBuf (req : Request) (buf : Buffer) : Request :=
  { req with
    headerIn := if req.split then req.headerIn else buf
    requestBody := { req.requestBody with buffer := req.requestBody.buffer.map fun _ => buf } }

/-- Where the body starts in its buffer. -/
def base (req : Request) : Nat := if req.split then 0 else req.requestLength

/-- What `request_body->entity` covers. -/
def entity (req : Request) : Bytes :=
  (req.buf.data.drop req.requestBody.entityBase).take req.requestBody.entityLen

/-- What lies behind the entity in its buffer. -/
def left (req : Request) : Bytes :=
  req.buf.data.drop (req.requestBody.entityBase + req.requestBody.entityLen)

end Request

/-- What a body parser returns, or the status that it finalizes the request with. In
`undefined` an unsigned subtraction has wrapped, and what is read next is not the buffer. -/
inductive Parse where
  | ok (req : Request)
  | again (req : Request)
  | finalize (status : Nat)
  | undefined

/-- `rb->split ? size : size - request_length >= client_max_body_size`: the comparison
binds tighter, so with `split` it is the size itself that decides. -/
def chunkedTooLarge (conf : Conf) (req : Request) (size : Nat) : Bool :=
  if req.split then size ≠ 0 else conf.clientMaxBodySize ≤ size - req.requestLength

/-- What `pgrest_http_body_chunked` does when it is called first. -/
def initChunked (req : Request) : Request :=
  { req with
    contentLengthN := 0
    requestBody := { req.requestBody with
      rest := 3, chunked := { consumeTrailer := true }
      decodeLength := req.base } }

/-- The rest of `pgrest_http_body_chunked`. -/
def decodeBody (conf : Conf) (req : Request) : Parse :=
  let rb := req.requestBody
  let buf := req.buf
  if buf.size < rb.decodeLength then .undefined
  else if buf.size = rb.decodeLength then .again req
  else
    match decodeChunked rb.chunked (buf.data.drop rb.decodeLength) with
    | (_, .error, _, _) => .finalize badRequest
    | (decoder, ret, size, bytes) =>
      let buf := { buf with data := buf.data.take rb.decodeLength ++ bytes }
      let size := rb.decodeLength + size
      let rb := { rb with chunked := decoder, decodeLength := size }
      if chunkedTooLarge conf req size then .finalize requestEntityTooLarge
      else
        match ret with
        | .undecoded n =>
          let len := size - req.base
          .ok (({ req with
            contentLengthN := len, requestLength := req.requestLength + len
            requestBody := { rb with rest := 0, entityBase := req.base, entityLen := len } }).setBuf
              (buf.setSize (size + n)))
        | _ => .again (({ req with requestBody := rb }).setBuf (buf.setSize size))

/-- `pgrest_http_body_chunked` -/
def bodyChunked (conf : Conf) (calls : Calls) (req : Request) : Parse :=
  if req.requestBody.rest = -1 then
    if calls.alloc then decodeBody conf (initChunked req) else .finalize internalServerError
  else decodeBody conf req

/-- `rb->rest` in `pgrest_http_body_length`, which sets it when it is called first. -/
def lengthRest (req : Request) : Int :=
  if req.requestBody.rest = -1 then req.contentLengthN else req.requestBody.rest

/-- `pgrest_http_body_length` -/
def bodyLength (conf : Conf) (req : Request) : Parse :=
  let size := req.buf.size - req.base
  if conf.clientMaxBodySize < size then .finalize requestEntityTooLarge
  else
    if size < lengthRest req then .again { req with requestBody := { req.requestBody with rest := lengthRest req } }
    else
      let len := req.contentLengthN.toNat
      .ok { req with
        requestLength := req.requestLength + len
        requestBody := { req.requestBody with rest := 0, entityBase := req.base, entityLen := len } }

/-- `pgrest_http_body_parser` -/
def bodyParser (conf : Conf) (calls : Calls) (req : Request) : Parse :=
  if req.chunked then bodyChunked conf calls req else bodyLength conf req

/-! ### Handlers -/

/-- Where reading the body is. In `looping`, `pgrest_http_entity_handler` is about to read;
`fresh` says that its `buf` is still the buffer of the body. -/
inductive State where
  | looping (req : Request) (ready fresh : Bool)
  /-- the handler waits for an event -/
  | waiting (req : Request)
  /-- `pgrest_http_process_request` has been called -/
  | processed (req : Request)
  /-- the request has been finalized or closed with a status -/
  | finalized (status : Nat)
  | undefined

/-- `left`: how much of a body of known length has not been read ahead. -/
def bodyLeft (req : Request) (preread : Nat) : Nat :=
  if req.chunked then 0 else (req.contentLengthN - preread).toNat

/-- What `pgrest_http_process_entity` does when the body is not complete: it stays behind
the head where there is room for what is left of it, and is copied otherwise. -/
def prepareBuffer (conf : Conf) (calls : Calls) (ready : Bool) (preread : Nat) (req : Request) : State :=
  if bodyLeft req preread ≠ 0 ∧ bodyLeft req preread ≤ req.headerIn.freeSize then .looping req ready true
  else
    match bufferCreate calls conf.clientBodyBufferSize with
    | none => .finalized internalServerError
    | some buf =>
      if preread = 0 then
        .looping { req with requestBody := { req.requestBody with buffer := some buf } } ready true
      else
        match reserve calls buf preread with
        | .failed _ => .finalized internalServerError
        | .crashed => .undefined
        | .ok buf =>
          -- `memcpy` to `pos`, which must not run over the end
          if buf.size + buf.freeSize < preread then .undefined
          else
            let bytes := ((req.headerIn.data ++ req.headerIn.after).drop req.requestLength).take preread
            let buf := { buf with data := bytes, after := (buf.data ++ buf.after).drop preread }
            .looping { req with
              headerIn := req.headerIn.setSize req.requestLength
              requestBody := { req.requestBody with buffer := some buf } } ready true

/-- `pgrest_http_process_entity`, up to where the handler first reads. -/
def processEntity (conf : Conf) (calls : Calls) (ready : Bool) (req : Request) : State :=
  if calls.alloc then
    let req := { req with requestBody := {} }
    let preread := req.headerIn.size - req.requestLength
    if preread = 0 then prepareBuffer conf calls ready preread req
    else
      match bodyParser conf calls req with
      | .ok req => .processed req
      | .finalize status => .finalized status
      | .undefined => .undefined
      | .again req => prepareBuffer conf calls ready preread req
  else .finalized internalServerError

/-- `buf->size == buf->capacity`, `buf` as it was when the handler was called. -/
def looksFull (req : Request) (fresh stale : Bool) : Bool :=
  if fresh then req.buf.size == req.buf.capacity else stale

/-- The handler after a read: it parses, and makes room where the buffer is full. -/
def afterRead (conf : Conf) (calls : Calls) (stale : Bool) (req : Request) (ready fresh : Bool) : State :=
  match bodyParser conf calls req with
  | .ok req => .processed req
  | .finalize status => .finalized status
  | .undefined => .undefined
  | .again req =>
    if looksFull req fresh stale then
      match reserve calls req.buf allocsetBufferMinsize with
      | .ok buf => .looping (req.setBuf buf) ready false
      | .failed _ => .finalized internalServerError
      | .crashed => .undefined
    else .looping req ready fresh

inductive Event where
  /-- `recv` returns bytes; the calls made then; whether a buffer that has gone looks full -/
  | recv (bs : Bytes) (calls : Calls) (stale : Bool)
  | recvAgain
  /-- `recv` returns 0 -/
  | recvZero
  | recvError
  | eventAdd (succeeds : Bool)
  | read
  | timeout

/-- `pgrest_http_entity_handler`, from one read or event to the next. -/
def State.step (conf : Conf) : State → Event → Option State
  | .looping req true fresh, .recv bs calls stale =>
    if bs ≠ [] ∧ bs.length ≤ req.buf.freeSize then
      let ready := conf.edgeTriggered || bs.length == req.buf.freeSize
      some (afterRead conf calls stale (req.setBuf (req.buf.recv bs)) ready fresh)
    else none
  | .looping req true fresh, .recvAgain => some (.looping req false fresh)
  | .looping _ true _, .recvZero => some (.finalized badRequest)
  | .looping _ true _, .recvError => some (.finalized badRequest)
  | .looping req false _, .eventAdd succeeds =>
    some (if succeeds then .waiting req else .finalized internalServerError)
  | .waiting req, .read => some (.looping req true true)
  | .waiting _, .timeout => some (.finalized requestTimeOut)
  | _, _ => none

end PgRest.Http
