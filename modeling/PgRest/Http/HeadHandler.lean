import PgRest.Http.Phr
import PgRest.Http.Keepalive

/-! Reading the heads of requests: `pgrest_http_init_handler` for the first one of a
connection, `pgrest_http_keepalive_handler` for one on a connection that has been kept, and
`pgrest_http_header_handler`, which reads and parses until it has a head. The parse starts
over with every read, and `num_headers` is set once where the handler is called: from then
on it is what the parse before has left in it.

A handler is a step on states, as for bodies. Every callback sets `conn->ready` first. -/
namespace PgRest.Http
open Lib Memory

/-- `PGREST_HTTP_REQUEST_HEADER_TOO_LARGE` -/
def requestHeaderTooLarge : Nat := 494

/-- What `pgrest_conf_http_server_t` says about heads. -/
structure HeadConf where
  clientHeaderBufferSize : Nat
  clientMaxHeaderSize : Nat
  edgeTriggered : Bool := false
  headerBuffer_pos : 0 < clientHeaderBufferSize

/-- The least values that a configuration may give. -/
def HeadConf.least : HeadConf where
  clientHeaderBufferSize := 1024
  clientMaxHeaderSize := 4096
  headerBuffer_pos := by decide

inductive Extended where
  | ok (buf : Buffer)
  | declined
  | error
  | crashed

/-- `pgrest_http_extend_header_buffer` -/
def extendHeaderBuffer (conf : HeadConf) (calls : Calls) (buf : Buffer) : Extended :=
  if conf.clientMaxHeaderSize < buf.size then .declined
  else
    let size :=
      if buf.capacity / 2 < buf.size then allocsetBufferMinsize else buf.capacity / 2 - buf.size
    match reserve calls buf size with
    | .ok buf => .ok buf
    | .failed _ => .error
    | .crashed => .crashed

/-- What `pgrest_http_process_header` is called with. -/
structure TakenHead where
  requestLength : Nat
  httpVersion : Nat
  path : Bytes
  headers : List PhrHeader
deriving DecidableEq, Repr

def takeHead (r : PhrRequest) (n : Nat) : TakenHead where
  requestLength := n
  httpVersion := 0x100 ||| (if r.minorVersion ≠ 0 then 1 else 0)
  path := r.path
  headers := r.headers

/-- Where reading heads is. -/
inductive HeadState where
  /-- `pgrest_http_init_handler` waits, with the buffer if there is one -/
  | accepted (buffer : Option Buffer)
  /-- `pgrest_http_header_handler` is about to read -/
  | reading (conn : Conn) (ready : Bool) (numHeaders : Nat)
  /-- it waits for an event -/
  | waiting (conn : Conn)
  /-- `pgrest_http_process_header` has been called -/
  | processing (conn : Conn) (head : TakenHead)
  /-- it is to be called for a head that has been received -/
  | pipelined (conn : Conn)
  /-- `pgrest_http_keepalive_handler` waits -/
  | idle (conn : Conn)
  /-- the request has been finalized with a status -/
  | finalized (status : Nat)
  | http2
  | closed
  | undefined

def http2Preface : Bytes := ascii "PRI * HTTP/2"

/-- A turn of the loop in `pgrest_http_header_handler`, behind its read. -/
def parseHead (conf : HeadConf) (calls : Calls) (conn : Conn) (ready : Bool) (numHeaders : Nat) : HeadState :=
  let (r, ret) := phrParseRequest conn.buffer.data numHeaders conn.prevSize
  let conn := { conn with prevSize := conn.buffer.size }
  match ret with
  | .complete n => .processing conn (takeHead r n)
  | .again =>
    if conn.buffer.freeSize < 1 then
      match extendHeaderBuffer conf calls conn.buffer with
      | .ok buf => .reading { conn with buffer := buf } ready r.headers.length
      | .declined => .finalized requestHeaderTooLarge
      | .error => .closed
      | .crashed => .undefined
    else .reading conn ready r.headers.length
  | .error => if http2Preface.isPrefixOf conn.buffer.data then .http2 else .finalized badRequest

/-- `pgrest_http_header_handler` is called. Its first read returns what is in the buffer
already if the connection says so. -/
def headerHandler (conf : HeadConf) (calls : Calls) (conn : Conn) (ready : Bool) : HeadState :=
  if conn.parse then parseHead conf calls { conn with parse := false } ready maxHeaders
  else .reading conn ready maxHeaders

inductive HeadEvent where
  /-- `recv` returns bytes; the calls made then, and whether a request can be created -/
  | recv (bs : Bytes) (calls : Calls) (created : Bool)
  /-- `recv` returns PGREST_AGAIN or is not called; whether the event can be added -/
  | again (added : Bool)
  /-- `recv` returns 0 -/
  | recvZero
  | recvError
  | read (calls : Calls)
  | timeout
  /-- the handler is called with `conn->close` -/
  | close
  /-- the request has been handled; `pgrest_http_set_keepalive` is called -/
  | complete (calls : KeepaliveCalls) (headerOnly : Bool) (req : Request)

/-- Whether `pgrest_conn_recv` leaves the connection ready. -/
def HeadConf.ready (conf : HeadConf) (n size : Nat) : Bool := conf.edgeTriggered || n == size

/-- The request that is handled, when it has no body. -/
def headerOnlyRequest (conn : Conn) (head : TakenHead) : Request where
  headerIn := conn.buffer
  requestLength := head.requestLength
  contentLengthN := -1
  chunked := false

/-- Where `pgrest_http_set_keepalive` leads. -/
def Kept.state : Kept → HeadState
  | .kept conn => if conn.parse then .pipelined conn else .idle conn
  | .closed => .closed
  | .undefined => .undefined

/-- The handlers, from one read or event to the next. -/
def HeadState.step (conf : HeadConf) : HeadState → HeadEvent → Option HeadState
  | .accepted buffer, .recv bs calls created =>
    match buffer <|> bufferCreate calls conf.clientHeaderBufferSize with
    | none => some .closed
    | some buf =>
      if bs ≠ [] ∧ bs.length ≤ conf.clientHeaderBufferSize then
        some (if created then
          headerHandler conf calls { buffer := buf.recv bs, prevSize := 0, parse := true }
            (conf.ready bs.length conf.clientHeaderBufferSize)
        else .closed)
      else none
  | .accepted buffer, .again added =>
    some (if added then
      .accepted (buffer <|> bufferCreate {} conf.clientHeaderBufferSize)
    else .closed)
  | .accepted _, .recvZero => some .closed
  | .accepted _, .recvError => some .closed
  | .accepted _, .timeout => some .closed
  | .accepted _, .close => some .closed
  | .reading conn true numHeaders, .recv bs calls _ =>
    if bs ≠ [] ∧ bs.length ≤ conn.buffer.freeSize then
      some (parseHead conf calls { conn with buffer := conn.buffer.recv bs }
        (conf.ready bs.length conn.buffer.freeSize) numHeaders)
    else none
  | .reading conn _ _, .again added => some (if added then .waiting conn else .closed)
  | .reading _ true _, .recvZero => some (.finalized badRequest)
  | .reading _ true _, .recvError => some (.finalized badRequest)
  | .waiting conn, .read calls => some (headerHandler conf calls conn true)
  | .waiting _, .timeout => some .closed
  | .processing conn head, .complete calls headerOnly req =>
    if headerOnly then
      some (setKeepalive calls conn true (headerOnlyRequest conn head)).state
    else some (setKeepalive calls conn false req).state
  | .pipelined conn, .read calls => some (headerHandler conf calls conn true)
  | .idle conn, .recv bs calls created =>
    if bs ≠ [] ∧ bs.length ≤ conn.buffer.capacity then
      some (if created then
        headerHandler conf calls { conn with buffer := conn.buffer.recv bs, idle := false }
          (conf.ready bs.length conn.buffer.capacity)
      else .closed)
    else none
  | .idle conn, .again added => some (if added then .idle conn else .closed)
  | .idle _, .recvZero => some .closed
  | .idle _, .recvError => some .closed
  | .idle _, .timeout => some .closed
  | .idle _, .close => some .closed
  | _, _ => none

/-- A connection starts with its `pgrest_http_connection_t` zeroed and no buffer. -/
def HeadState.start : HeadState := .accepted none

end PgRest.Http
