import PgRest.Lib.Run

/-! The connection pool of a worker, and the handlers that take connections from it and
give them back.

A connection is its index in `pgrest_conn_conns`. A free one links to the next free one
through `data`, the field that points to the HTTP connection or the request while it is
in use. `pgrest_conn_reuse_conns`, a `dlist` of the server, is a list of indices, head
first. What a handler is told (the event, what `recv` returns, which of its calls
succeed) is part of the action; a deleted event does not fire, and the event structures
are taken to be at hand, although `pgrest_conn_get` clears the pointers to them with the
rest of the record. Fields that decide nothing here are left out. -/
namespace PgRest.Conn
open Lib

/-- What the `data` of a connection points to. -/
inductive Data where
  | next (conn : Option Nat)
  | hconn
  | request
deriving DecidableEq, Repr

/-- `rev_handler`, as far as it decides who may touch the connection next. -/
inductive Handler where
  | none
  | init
  | header
  | keepalive
deriving DecidableEq, Repr

/-- `pgrest_connection_t`; a record of defaults is what `MemSet` leaves. -/
structure Connection where
  data : Data := .next none
  fd : Int := 0
  reusable : Bool := false
  close : Bool := false
  revHandler : Handler := .none
deriving DecidableEq, Repr

structure Pool where
  conns : Nat → Connection
  /-- `pgrest_conn_free_conns` -/
  freeConns : Option Nat
  /-- `pgrest_conn_free_noconn` -/
  freeNoconn : Int
  /-- `pgrest_conn_reuse_conns` -/
  reuseConns : List Nat
  /-- Whether the connection has been got and not been freed since: not a field of the
  source, and nothing depends on it. -/
  inUse : Nat → Bool

def Pool.set (p : Pool) (i : Nat) (c : Connection) : Pool :=
  { p with conns := Function.update p.conns i c }

/-- `pgrest_conn_worker_init` -/
def workerInit (noconn : Nat) : Pool where
  conns i := { data := .next (if i + 1 < noconn then some (i + 1) else none), fd := -1 }
  freeConns := some 0
  freeNoconn := noconn
  reuseConns := []
  inUse _ := false

/-- `pgrest_conn_drain` marks the connection at the tail, up to 32 times over. -/
def drain (p : Pool) : Pool :=
  match p.reuseConns.getLast? with
  | none => p
  | some i => p.set i { p.conns i with close := true }

/-- `pgrest_conn_get`: no connection, or the one at the head of the free list. `none` when
its `data` is not a link. -/
def get (p : Pool) (fd : Int) : Option (Option Nat × Pool) :=
  let p := if p.freeConns.isNone then drain p else p
  match p.freeConns with
  | none => some (none, p)
  | some i =>
    match (p.conns i).data with
    | .next next =>
      some (some i,
        { p with
          freeConns := next, freeNoconn := p.freeNoconn - 1
          conns := Function.update p.conns i { fd := fd }, inUse := Function.update p.inUse i true })
    | _ => none

/-- `pgrest_conn_reusable` -/
def reusable (p : Pool) (i : Nat) (reusable : Bool) : Pool :=
  let p := if (p.conns i).reusable then { p with reuseConns := p.reuseConns.erase i } else p
  let p := p.set i { p.conns i with reusable := reusable }
  if reusable then { p with reuseConns := i :: p.reuseConns } else p

/-- `pgrest_conn_free` -/
def free (p : Pool) (i : Nat) : Pool :=
  let p := p.set i { p.conns i with data := .next p.freeConns }
  { p with
    freeConns := some i, freeNoconn := p.freeNoconn + 1, inUse := Function.update p.inUse i false }

/-- `pgrest_conn_close` -/
def close (p : Pool) (i : Nat) : Pool :=
  if (p.conns i).fd = -1 then p
  else
    let p := reusable p i false
    let p := free p i
    p.set i { p.conns i with fd := -1 }

/-! ### The handlers -/

/-- `pgrest_acceptor_close_conn` -/
def acceptorCloseConn (p : Pool) (i : Nat) : Pool :=
  let p := free p i
  p.set i { p.conns i with fd := -1 }

/-- `pgrest_http_conn_close` -/
def httpConnClose (p : Pool) (i : Nat) : Pool := close p i

/-- Which calls succeed while a connection is set up: creating its pool, the two
allocations and `evutil_make_socket_nonblocking` in the accept handler; then in
`pgrest_http_conn_init` its allocation, `getsockname`, the two `event_assign` and the
`event_add`, and whether the listener defers accepting. -/
structure Setup where
  pool : Bool := true
  sockaddr : Bool := true
  nonblocking : Bool := true
  addrText : Bool := true
  hconn : Bool := true
  localSockaddr : Bool := true
  deferredAccept : Bool := false
  revAssign : Bool := true
  wevAssign : Bool := true
  added : Bool := true
deriving DecidableEq, Repr

/-- `pgrest_http_conn_init`. With deferred accept the read handler is called at once;
that call is an event of its own here. -/
def httpConnInit (p : Pool) (i : Nat) (calls : Setup) : Pool :=
  if !calls.hconn then httpConnClose p i
  else
    let p := p.set i { p.conns i with data := .hconn }
    if !calls.localSockaddr then httpConnClose p i
    else
      let p := p.set i { p.conns i with revHandler := .init }
      if calls.deferredAccept then p
      else
        let p := reusable p i true
        if !calls.revAssign then httpConnClose p i
        else if !calls.wevAssign then httpConnClose p i
        else if !calls.added then httpConnClose p i
        else p

/-- `pgrest_acceptor_accept_handler`, from an accepted socket on. -/
def acceptHandler (p : Pool) (fd : Nat) (calls : Setup) : Option Pool :=
  (get p fd).map fun (conn, p) =>
    match conn with
    | none => p
    | some i =>
      if !calls.pool then acceptorCloseConn p i
      else if !calls.sockaddr then acceptorCloseConn p i
      else if !calls.nonblocking then acceptorCloseConn p i
      else if !calls.addrText then acceptorCloseConn p i
      else httpConnInit p i calls

/-- What `pgrest_conn_recv` returns; PGREST_AGAIN with the result of the `event_add`
that follows it. -/
inductive Recv where
  | again (added : Bool)
  | error
  | eof
  | data
deriving DecidableEq, Repr

/-- A read event: whether it is a timeout, and which calls of its handler succeed. -/
structure Event where
  timeout : Bool := false
  /-- creating the buffer, if there is none yet -/
  buffer : Bool := true
  recv : Recv := .data
  /-- creating the request -/
  request : Bool := true
deriving DecidableEq, Repr

/-- The common end of the two handlers that wait for a request. -/
def readRequest (p : Pool) (i : Nat) (created : Bool) : Pool :=
  let p := reusable p i false
  if created then p.set i { p.conns i with data := .request, revHandler := .header }
  else httpConnClose (p.set i { p.conns i with data := .next none }) i

/-- `pgrest_http_init_handler` -/
def initHandler (p : Pool) (i : Nat) (e : Event) : Pool :=
  if e.timeout then httpConnClose p i
  else if (p.conns i).close then httpConnClose p i
  else if !e.buffer then httpConnClose p i
  else
    match e.recv with
    | .again added =>
      let p := if added then p else httpConnClose p i
      reusable p i true
    | .error => httpConnClose p i
    | .eof => httpConnClose p i
    | .data => readRequest p i e.request

/-- `pgrest_http_keepalive_handler` -/
def keepaliveHandler (p : Pool) (i : Nat) (e : Event) : Pool :=
  if e.timeout || (p.conns i).close then httpConnClose p i
  else
    match e.recv with
    | .again added => if added then p else httpConnClose p i
    | .error => httpConnClose p i
    | .eof => httpConnClose p i
    | .data => readRequest p i e.request

/-- Whether bytes of a next request are left, and which calls of
`pgrest_http_set_keepalive` succeed: making room for these bytes, creating the next
request, deleting the write event, the two socket options, and adding the read event. -/
structure Keepalive where
  left : Bool := false
  reserve : Bool := true
  request : Bool := true
  deleted : Bool := true
  push : Bool := true
  nodelay : Bool := true
  added : Bool := true
deriving DecidableEq, Repr

/-- `pgrest_http_set_keepalive`, for a request that nothing else counts on. -/
def setKeepalive (p : Pool) (i : Nat) (calls : Keepalive) : Pool :=
  if calls.left && !calls.reserve then httpConnClose p i
  else
    let p := p.set i { p.conns i with data := .hconn }
    if calls.left then
      if !calls.request then httpConnClose p i
      else p.set i { p.conns i with data := .request, revHandler := .header }
    else
      let p := p.set i { p.conns i with revHandler := .keepalive }
      if !calls.deleted then httpConnClose p i
      else if !calls.push then httpConnClose p i
      else if !calls.nodelay then httpConnClose p i
      else
        let p := reusable p i true
        if !calls.added then httpConnClose p i else p

inductive Action where
  /-- a socket accepted -/
  | accept (fd : Nat) (calls : Setup)
  /-- a read event of a connection that waits for a request -/
  | read (i : Nat) (e : Event)
  /-- a request done, and the connection kept -/
  | keep (i : Nat) (calls : Keepalive)
  /-- a request done or broken off, and the connection closed -/
  | close (i : Nat)
deriving DecidableEq, Repr

def step (p : Pool) : Action → Option Pool
  | .accept fd calls => acceptHandler p fd calls
  | .read i e =>
    if p.inUse i then
      match (p.conns i).revHandler with
      | .init => some (initHandler p i e)
      | .keepalive => some (keepaliveHandler p i e)
      | _ => none
    else none
  | .keep i calls =>
    if p.inUse i && (p.conns i).revHandler == .header then some (setKeepalive p i calls) else none
  | .close i =>
    if p.inUse i && (p.conns i).revHandler == .header then some (httpConnClose p i) else none

end PgRest.Conn
