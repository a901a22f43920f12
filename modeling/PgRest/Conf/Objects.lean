import Mathlib.Logic.Function.Basic
import PgRest.Conf.Command
import PgRest.Rtree.Node

/-! The objects of the configuration, and the handlers of the directives. An object is a
reference: the struct it is and its number among all that have been created of it. `root` starts
the arrays of servers and of listeners anew; what was in them is still there, but not theirs.

A handler that is given a value of another kind, or an object of another struct, than it
takes its arguments for has no defined behaviour: it is `illTyped`. In `crashed` a pointer is used
that is NULL, or the router reads outside of a path. Memory is taken not to run out. -/
namespace PgRest.Conf

/-- The object a handler gets as `parent`. -/
inductive Ref where
  | null
  | setting
  | server (i : Nat)
  | listener (i : Nat)
  | path (i : Nat)
  | upstream (i : Nat)
  | userver (i k : Nat)
  | postgres (i : Nat)
  | pushStream (i : Nat)
deriving DecidableEq, Repr

def Ref.struct : Ref → Option Struct
  | null => none
  | setting => some .setting
  | server _ => some .server
  | listener _ => some .listener
  | path _ => some .path
  | upstream _ => some .upstream
  | userver _ _ => some .userver
  | postgres _ => some .postgres
  | pushStream _ => some .pushStream

/-- `sockaddr`, `socklen`, `wildcard` and `addr` of a listener. -/
structure Address where
  sockaddr : Bytes
  socklen : Nat
  wildcard : Bool
  addr : Bytes
deriving DecidableEq

/-- `pgrest_http_upstream_server_t` -/
structure UpstreamServer where
  name : Bytes := []
  addrs : List Bytes := []
deriving DecidableEq

/-- `pgrest_http_upstream_srv_conf_t`, whose policy is an `IntField`. -/
structure Upstream where
  servers : Option (List UpstreamServer) := none
  /-- `flags` is `PGREST_HTTP_UPSTREAM_CREATE` -/
  create : Bool := false
  host : Bytes := []
  port : Nat := 0
  defaultPort : Nat := 0
  noPort : Bool := false
deriving DecidableEq

/-- All objects. -/
structure Objects where
  ints : Ref → IntField → Int
  bools : Ref → BoolField → Bool
  texts : Ref → TextField → Option Bytes
  /-- servers created, and those of them that are not in `conf_http_servers` any more -/
  servers : Nat
  serversFrom : Nat
  /-- listeners created, and those that are not in `conf_listeners` any more -/
  listeners : Nat
  listenersFrom : Nat
  /-- the server whose object the directive of a listener is in; not a field of the source -/
  declaredBy : Nat → Nat
  addresses : Nat → Address
  /-- `server_names` of a server -/
  serverNames : Nat → List Bytes
  /-- `paths` of a server -/
  routers : Nat → Rtree.Node Nat
  paths : Nat
  /-- `conf_server` of a path -/
  pathServer : Nat → Nat
  /-- `handlers` of a path, each with its `conf` -/
  handlers : Nat → List Ref
  postgres : Nat
  pushStreams : Nat
  /-- `pgrest_http_upstreams`, NULL at first -/
  upstreams : Option (List Upstream)

/-- What is written to the log with an ERROR. -/
inductive ConfError where
  | unknownDirective (name : String)
  | mustBeObject (name : String)
  | mustBeScalar (name : String)
  | outOfRange (name : String) (value minVal maxVal : Int)
  | invalidValue (name : String) (value : Bytes)
  | pathTooLong (name : String) (value : Bytes)
  | notSupported (name : String)
  | pathNull (name : String)
  | addPath (value : Bytes)
  | addUpstream (value : Bytes)
  | lacksListen
deriving DecidableEq

/-- How reading the configuration ends early. -/
inductive Fault where
  | error (e : ConfError)
  | illTyped
  | crashed
deriving DecidableEq

abbrev Out := Except Fault

/-- What `pgrest_inet_parse_url` is asked. -/
structure UrlQuery where
  url : Bytes
  listen : Bool := false
  noResolve : Bool := false
  defaultPort : Nat := 0

/-- What it leaves in the `pgrest_url_t`; `err` says whether there is a message. -/
structure Url where
  ok : Bool := true
  err : Bool := false
  host : Bytes := []
  port : Nat := 0
  unix : Bool := false
  noPort : Bool := false
  wildcard : Bool := false
  /-- the `socklen` bytes of `sockaddr` -/
  sockaddr : Bytes := []
  addrs : List Bytes := []

/-- What lies outside of the configuration. -/
structure Env where
  platform : Platform
  /-- `pgrest_util_ncpu` -/
  ncpu : Int
  /-- `pgrest_inet_parse_url` -/
  parseUrl : UrlQuery → Url
  /-- `pgrest_inet_ntop` with the port -/
  inetNtop : Bytes → Bytes
  /-- `SplitIdentifierString` at commas -/
  splitIdentifier : Bytes → Option (List Bytes)
  /-- `PGREST_BUFFER_DTEMP_PATH`, and what of it begins at the last slash -/
  tempPath : Bytes
  tempName : Bytes
  /-- `MAXPGPATH` -/
  maxPgPath : Nat
  /-- the `sockaddr` of `INADDR_ANY` and port 8080 -/
  anySockaddr : Bytes

/-- A platform with no options, on which every address is what it is called. -/
def Env.bare : Env where
  platform := ⟨false, false, false, false, false, false, false, false⟩
  ncpu := 1
  parseUrl q := { host := q.url, sockaddr := q.url, addrs := [q.url] }
  inetNtop a := a
  splitIdentifier v := some [v]
  tempPath := ascii "/tmp/pg_rest"
  tempName := ascii "/pg_rest"
  maxPgPath := 1024
  anySockaddr := ascii "0.0.0.0:8080"

/-! ### Creating -/

/-- What the create functions set; of the fields of other structs nothing is ever read. -/
def intDefault (env : Env) : IntField → Int
  | .workerProcesses => env.ncpu
  | .workerPriority => 0
  | .workerNofile => 1024
  | .workerNoconn => 1024
  | .acceptorMutexDelay => 500
  | .backlog => 512
  | .sndbuf | .rcvbuf => -1
  | .soKeepalive | .tcpKeepidle | .tcpKeepintvl | .tcpKeepcnt => 0
  | .setfib => if env.platform.setfib then -1 else 0
  | .fastopen => if env.platform.fastopen then -1 else 0
  | .sslSessionTimeout => 1800000
  | .keepaliveTimeout => 600000
  | .clientHeaderTimeout => 6000
  | .clientHeaderBufferSize => 2048
  | .clientMaxHeaderSize => 4096
  | .clientMaxBodySize => 8192
  | .clientBodyBufferSize => 2048
  | .clientBodyTimeout => 6000
  | .lingeringTime => 30000
  | .lingeringTimeout => 5000
  | .lingeringClose => 1
  | .policy => 2
  | .mode => 3

def boolDefault (env : Env) : BoolField → Bool
  | .acceptorMutex => true
  | .ipv6only => env.platform.ipv6only
  | .sslSessionCache => true
  | .tcpNodelay => true
  | _ => false

def textDefault (env : Env) : TextField → Option Bytes
  | .tempBufferPath => some env.tempPath
  | .acceptFilter => some []
  | .sslCertificate => some (ascii "cert.pem")
  | .sslCertificateKey => some (ascii "ssl_certificate_key")
  | _ => none

namespace Objects

def setInt (o : Objects) (r : Ref) (f : IntField) (v : Int) : Objects :=
  { o with ints := Function.update o.ints r (Function.update (o.ints r) f v) }

def setBool (o : Objects) (r : Ref) (f : BoolField) (v : Bool) : Objects :=
  { o with bools := Function.update o.bools r (Function.update (o.bools r) f v) }

def setText (o : Objects) (r : Ref) (f : TextField) (v : Bytes) : Objects :=
  { o with texts := Function.update o.texts r (Function.update (o.texts r) f (some v)) }

/-- The fields of a new object. -/
def init (o : Objects) (env : Env) (r : Ref) : Objects :=
  { o with
    ints := Function.update o.ints r (intDefault env)
    bools := Function.update o.bools r (boolDefault env)
    texts := Function.update o.texts r (textDefault env) }

end Objects

/-- A create function, with what it returns. -/
def create (env : Env) (c : CreateHandler) (parent : Ref) (o : Objects) : Out (Ref × Objects) :=
  match c, parent with
  | .setting, _ =>
    .ok (.setting, { o.init env .setting with serversFrom := o.servers, listenersFrom := o.listeners })
  | .httpServer, .setting =>
    .ok (.server o.servers,
      { o.init env (.server o.servers) with
        servers := o.servers + 1
        serverNames := Function.update o.serverNames o.servers []
        routers := Function.update o.routers o.servers Rtree.create })
  | .listener, .server i =>
    .ok (.listener o.listeners,
      { (o.setBool (.server i) .listen true).init env (.listener o.listeners) with
        listeners := o.listeners + 1
        declaredBy := Function.update o.declaredBy o.listeners i
        addresses := Function.update o.addresses o.listeners
          ⟨env.anySockaddr, env.anySockaddr.length, true, env.inetNtop env.anySockaddr⟩ })
  | .httpPath, .server i =>
    .ok (.path o.paths,
      { o.init env (.path o.paths) with
        paths := o.paths + 1
        pathServer := Function.update o.pathServer o.paths i
        handlers := Function.update o.handlers o.paths [] })
  | .upstream, _ =>
    let upstreams := o.upstreams.getD []
    .ok (.upstream upstreams.length,
      { o.init env (.upstream upstreams.length) with upstreams := some (upstreams ++ [{}]) })
  | .upstreamServer, .upstream i =>
    match o.upstreams with
    | none => .error .crashed
    | some upstreams =>
      match upstreams[i]? with
      | none => .error .crashed
      | some upstream =>
        -- `pgrest_array_push` of an array that `name` creates
        match upstream.servers with
        | none => .error .crashed
        | some servers =>
          .ok (.userver i servers.length,
            { o with upstreams := some (upstreams.set i { upstream with servers := some (servers ++ [{}]) }) })
  | .postgres, .path i =>
    .ok (.postgres o.postgres,
      { o.init env (.postgres o.postgres) with
        postgres := o.postgres + 1
        handlers := Function.update o.handlers i (o.handlers i ++ [.postgres o.postgres]) })
  | .pushStream, .path i =>
    .ok (.pushStream o.pushStreams,
      { o.init env (.pushStream o.pushStreams) with
        pushStreams := o.pushStreams + 1
        handlers := Function.update o.handlers i (o.handlers i ++ [.pushStream o.pushStreams]) })
  | _, _ => .error .illTyped

/-! ### `pgrest_http_upstream_add` -/

/-- Its loop, over the upstreams there are. The assertion where one is found is not checked. -/
def upstreamSearch (create : Bool) (u : Url) (defaultPort : Nat) : List Upstream → Option Bool
  | [] => none
  | v :: upstreams =>
    if v.host.length ≠ u.host.length ∨ sameCase v.host u.host = false then
      upstreamSearch create u defaultPort upstreams
    else if create ∧ v.create then some false
    else if v.create ∧ !u.noPort then some false
    else if create ∧ !v.noPort then some false
    else if v.port ≠ 0 ∧ u.port ≠ 0 ∧ v.port ≠ u.port then upstreamSearch create u defaultPort upstreams
    else if v.defaultPort ≠ 0 ∧ defaultPort ≠ 0 ∧ v.defaultPort ≠ defaultPort then
      upstreamSearch create u defaultPort upstreams
    else some true

/-- What is set in the upstream that is found or added. -/
def Upstream.setUrl (v : Upstream) (create : Bool) (u : Url) (defaultPort : Nat) : Upstream :=
  { v with
    create := create, host := u.host, port := u.port, defaultPort := defaultPort, noPort := u.noPort
    servers := if u.addrs.length = 1 ∧ (u.port ≠ 0 ∨ u.unix) then some [{ addrs := u.addrs }] else v.servers }

/-- `pgrest_http_upstream_add`, with the upstream `conf` points to; `none` when there is no list. -/
def upstreamAdd (create : Bool) (u : Url) (defaultPort : Nat) (conf : Option Nat) (upstreams : List Upstream) :
    Bool × List Upstream :=
  match upstreamSearch create u defaultPort upstreams with
  | some found => (found, upstreams)
  | none =>
    match conf with
    | none => (true, upstreams ++ [Upstream.setUrl {} create u defaultPort])
    | some i => (true, upstreams.modify i (·.setUrl create u defaultPort))

/-! ### Setting -/

section Setters
variable (env : Env) (name : String)

/-- `pgrest_conf_integer_set` -/
def integerSet (field : IntField) (minVal maxVal v : Int) (r : Ref) (o : Objects) : Out Objects :=
  if v < minVal ∨ maxVal < v then .error (.error (.outOfRange name v minVal maxVal))
  else .ok (o.setInt r field v)

/-- `pgrest_conf_bind_set` -/
def bindSet (v : Bool) (r : Ref) (o : Objects) : Objects :=
  if v then (o.setBool r .set true).setBool r .bind true else o

/-- `pgrest_conf_bool_set2`; a `bool` is 0 or 1 here, so that `pgrest_conf_bool_set` accepts it. -/
def boolSet2 (field : BoolField) (v : Bool) (r : Ref) (o : Objects) : Objects :=
  (bindSet v r o).setBool r field v

/-- The value of an `on`/`off` directive. -/
def keepaliveValue (v : Bytes) : Option Int :=
  if v = ascii "on" then some 1 else if v = ascii "off" then some 2 else none

/-- `PGREST_HTTP_LINGERING_ON`, `_OFF` and `_ALWAYS` -/
def lingeringValue (v : Bytes) : Option Int :=
  if v = ascii "on" then some 1 else if v = ascii "off" then some 0
  else if v = ascii "always" then some 2 else none

def policyValue (v : Bytes) : Option Int :=
  if v = ascii "rw/split" then some 0 else if v = ascii "sharding" then some 1 else none

def modeValue (v : Bytes) : Option Int :=
  if v = ascii "pub" then some 0 else if v = ascii "sub" then some 1
  else if v = ascii "admin" then some 2 else none

def tunnelValue (v : Bytes) : Option Int :=
  if v = ascii "websocket" then some 0 else if v = ascii "long-polling" then some 1
  else if v = ascii "polling" then some 2 else none

/-- Sets one of the values that a text can stand for. -/
def choiceSet (field : IntField) (choice : Option Int) (v : Bytes) (r : Ref) (o : Objects) : Out Objects :=
  match choice with
  | some i => .ok (o.setInt r field i)
  | none => .error (.error (.invalidValue name v))

/-- `pgrest_conf_address_set` -/
def addressSet (v : Bytes) (i : Nat) (o : Objects) : Out Objects :=
  let u := env.parseUrl { url := v, listen := true, defaultPort := 8080 }
  if !u.ok && u.err then .error (.error (.invalidValue name v))
  else
    let sockaddr := u.sockaddr ++ (o.addresses i).sockaddr.drop u.sockaddr.length
    .ok { o with
      addresses := Function.update o.addresses i
        ⟨sockaddr, u.sockaddr.length, u.wildcard, env.inetNtop sockaddr⟩ }

/-- `pgrest_conf_http_path_set` -/
def httpPathSet (v : Bytes) (i : Nat) (o : Objects) : Out Objects :=
  if v = [] then .error (.error (.pathNull name))
  else
    let server := o.pathServer i
    match Rtree.add (o.routers server) v (some i) with
    | none => .error .crashed
    | some (false, _) => .error (.error (.addPath v))
    | some (true, router) =>
      .ok { o.setText (.path i) .path v with routers := Function.update o.routers server router }

/-- `pgrest_http_upstream_name` -/
def httpUpstreamName (v : Bytes) (i : Nat) (o : Objects) : Out Objects :=
  match o.upstreams with
  | none => .error .crashed
  | some upstreams =>
    match upstreamAdd true { host := v, noPort := true } 0 (some i) upstreams with
    | (false, _) => .error (.error (.invalidValue name v))
    | (true, upstreams) =>
      .ok { o with upstreams := some (upstreams.modify i fun v => { v with servers := some [] }) }

/-- `pgrest_http_upstream_saddress` -/
def httpUpstreamSaddress (v : Bytes) (i k : Nat) (o : Objects) : Out Objects :=
  let u := env.parseUrl { url := v, defaultPort := 5432 }
  if !u.ok && u.err then .error (.error (.invalidValue name v))
  else
    .ok { o with
      upstreams := o.upstreams.map fun upstreams => upstreams.modify i fun w =>
        { w with servers := w.servers.map fun servers => servers.set k ⟨v, u.addrs⟩ } }

/-- `pgrest_http_postgres_pgpass`. The upstream it is to be given stays NULL, since
`pgrest_http_upstream_add` does not store what it has found. -/
def httpPostgresPgpass (v : Bytes) (r : Ref) (o : Objects) : Out Objects :=
  let u := env.parseUrl { url := v, noResolve := true }
  if !u.ok then .error (.error (.addUpstream v))
  else
    match o.upstreams with
    | none => .error .crashed
    | some upstreams =>
      match upstreamAdd false u 0 none upstreams with
      | (false, _) => .error (.error (.addUpstream v))
      | (true, upstreams) => .ok { o.setText r .pgPass v with upstreams := some upstreams }

/-- What the handlers do. -/
def SetHandler.apply (set : SetHandler) (v : Value) (r : Ref) (o : Objects) : Out Objects :=
  let p := env.platform
  match set, v, r with
  | .integer field minVal maxVal, .integer v, r => integerSet name field minVal maxVal v r o
  | .integer2 field minVal maxVal, .integer v, r =>
    integerSet name field minVal maxVal v r (bindSet true r o)
  | .keepaliveOpt field minVal maxVal, .integer v, r =>
    if p.keepaliveTunable then
      integerSet name field minVal maxVal v r (bindSet true r (o.setInt r .soKeepalive 1))
    else .ok o
  | .bool field, .bool v, r => .ok (o.setBool r field v)
  | .bool2 field, .bool v, r => .ok (boolSet2 field v r o)
  | .deferred, .bool v, r => if v && !p.deferAccept then .ok o else .ok (boolSet2 .deferredAccept v r o)
  | .ipv6only, .bool v, r =>
    if v && !p.ipv6only then .error (.error (.notSupported name)) else .ok (boolSet2 .ipv6only v r o)
  | .reuse, .bool v, r => if v && !p.reuseport then .ok o else .ok (boolSet2 .reuseport v r o)
  | .ssl, .bool v, r =>
    if v && !p.openssl then .error (.error (.notSupported name)) else .ok (o.setBool r .ssl v)
  | .pushStreamStor, .bool v, r => .ok (o.setBool r .storeMessage v)
  | .string field, .string v, r => .ok (o.setText r field v)
  | .address, .string v, .listener i => addressSet env name v i o
  | .afilter, .string v, r =>
    if v ≠ [] && !p.acceptFilter then .ok o
    else .ok ((bindSet true r o).setText r .acceptFilter (v.take 15))
  | .tbpath, .string v, r =>
    if env.maxPgPath ≤ v.length + env.tempName.length then .error (.error (.pathTooLong name v))
    else .ok (o.setText r .tempBufferPath (v ++ env.tempName))
  | .keepalive, .string v, r =>
    (choiceSet name .soKeepalive (keepaliveValue v) v r o).map (bindSet true r)
  | .serverName, .string v, .server i =>
    if v = [] then .ok o
    else
      match env.splitIdentifier v with
      | none => .error (.error (.invalidValue name v))
      | some names => .ok { o with serverNames := Function.update o.serverNames i (o.serverNames i ++ names) }
  | .lc, .string v, r => choiceSet name .lingeringClose (lingeringValue v) v r o
  | .httpPath, .string v, .path i => httpPathSet name v i o
  | .upstreamName, .string v, .upstream i => httpUpstreamName name v i o
  | .upstreamAlgorithm, .string v, r => choiceSet name .policy (policyValue v) v r o
  | .upstreamSaddress, .string v, .userver i k => httpUpstreamSaddress env name v i k o
  | .postgresPgpass, .string v, r => httpPostgresPgpass env v r o
  | .postgresText field, .string v, r => .ok (o.setText r field v)
  | .pushStreamMode, .string v, r => choiceSet name .mode (modeValue v) v r o
  | .pushStreamName, .string v, r => .ok (o.setText r .paramName v)
  | .pushStreamTunnel, .string v, r => choiceSet name .mode (tunnelValue v) v r o
  | _, _, _ => .error .illTyped

/-- A handler that is called with a value and an object. -/
def SetHandler.run (set : SetHandler) (v : Value) (r : Ref) (o : Objects) : Out Objects :=
  if v.kind = set.kind ∧ r.struct = some set.struct then set.apply env name v r o else .error .illTyped

end Setters

end PgRest.Conf
