import PgRest.Bytes

/-! The directives of the configuration file, in one flat table. A directive is found by its name
alone; its handler takes the value as a pointer to whatever the file had, and the object it stands
in as a pointer to whatever object that was. -/
namespace PgRest.Conf

/-- A parsed document. The members of an object are in the order of `json_object_iter`. -/
inductive Json where
  | string (value : Bytes)
  | integer (value : Int)
  | bool (value : Bool)
  | array (elems : List Json)
  | object (members : List (String × Json))
  /-- a real number or null -/
  | other

/-- A value as a handler gets it. -/
inductive Value where
  | string (value : Bytes)
  | integer (value : Int)
  | bool (value : Bool)
deriving DecidableEq, Repr

/-- The kind of value a handler decodes. -/
inductive Kind where
  | string
  | integer
  | bool
deriving DecidableEq, Repr

def Value.kind : Value → Kind
  | .string _ => .string
  | .integer _ => .integer
  | .bool _ => .bool

/-- The structs that objects of the configuration are. -/
inductive Struct where
  /-- `pgrest_setting_t` -/
  | setting
  /-- `pgrest_conf_http_server_t` -/
  | server
  /-- `pgrest_conf_listener_t` -/
  | listener
  /-- `pgrest_conf_http_path_t` -/
  | path
  /-- `pgrest_http_upstream_srv_conf_t` -/
  | upstream
  /-- `pgrest_http_upstream_server_t` -/
  | userver
  /-- `pgrest_http_postgres_conf_t` -/
  | postgres
  /-- `pgrest_http_push_stream_conf_t` -/
  | pushStream
deriving DecidableEq, Repr

/-! ### Fields -/

/-- The fields of type `int` that directives set. -/
inductive IntField where
  | workerProcesses | workerPriority | workerNofile | workerNoconn | acceptorMutexDelay
  | backlog | sndbuf | rcvbuf | soKeepalive | tcpKeepidle | tcpKeepintvl | tcpKeepcnt | setfib | fastopen
  | sslSessionTimeout | keepaliveTimeout | clientHeaderTimeout | clientHeaderBufferSize
  | clientMaxHeaderSize | clientMaxBodySize | clientBodyBufferSize | clientBodyTimeout
  | lingeringTime | lingeringTimeout | lingeringClose
  | policy | mode
deriving DecidableEq, Repr

/-- Those of type `bool`. -/
inductive BoolField where
  | acceptorMutex | acceptorMultiAccept
  | defaultServer | set | bind | ipv6only | deferredAccept | reuseport | ssl | http2
  | sslSessionCache | tcpNopush | tcpNodelay | resetTimedoutConnection | listen
  | storeMessage
deriving DecidableEq, Repr

/-- Those that hold text. -/
inductive TextField where
  | tempBufferPath | acceptFilter | sslCertificate | sslCertificateKey | path
  | pgPass | dbname | encode | paramName
deriving DecidableEq, Repr

/-- The struct a field is in. -/
def IntField.struct : IntField → Struct
  | workerProcesses | workerPriority | workerNofile | workerNoconn | acceptorMutexDelay => .setting
  | backlog | sndbuf | rcvbuf | soKeepalive | tcpKeepidle | tcpKeepintvl | tcpKeepcnt | setfib | fastopen =>
    .listener
  | policy => .upstream
  | mode => .pushStream
  | _ => .server

def BoolField.struct : BoolField → Struct
  | acceptorMutex | acceptorMultiAccept => .setting
  | defaultServer | set | bind | ipv6only | deferredAccept | reuseport | ssl | http2 => .listener
  | storeMessage => .pushStream
  | _ => .server

def TextField.struct : TextField → Struct
  | tempBufferPath => .setting
  | acceptFilter => .listener
  | sslCertificate | sslCertificateKey => .server
  | path => .path
  | pgPass | dbname | encode => .postgres
  | paramName => .pushStream

/-! ### Handlers and the table -/

/-- What the platform has. -/
structure Platform where
  /-- `HAVE_OPENSSL` -/
  openssl : Bool
  /-- `HAVE_DEFERRED_ACCEPT` with `SO_ACCEPTFILTER` -/
  acceptFilter : Bool
  /-- `HAVE_DEFERRED_ACCEPT` with `TCP_DEFER_ACCEPT` -/
  deferAccept : Bool
  /-- `HAVE_IPV6` with `IPV6_V6ONLY` -/
  ipv6only : Bool
  /-- `HAVE_REUSEPORT` -/
  reuseport : Bool
  /-- `HAVE_KEEPALIVE_TUNABLE` -/
  keepaliveTunable : Bool
  /-- `HAVE_SETFIB` -/
  setfib : Bool
  /-- `HAVE_TCP_FASTOPEN` -/
  fastopen : Bool

/-- The functions that set a value, with the offset and the range of their directive. -/
inductive SetHandler where
  /-- `pgrest_conf_integer_set` -/
  | integer (field : IntField) (minVal maxVal : Int)
  /-- `pgrest_conf_bool_set` -/
  | bool (field : BoolField)
  /-- `pgrest_conf_string_set` -/
  | string (field : TextField)
  /-- `pgrest_conf_address_set` -/
  | address
  /-- `pgrest_conf_integer_set2` -/
  | integer2 (field : IntField) (minVal maxVal : Int)
  /-- `pgrest_conf_bool_set2` -/
  | bool2 (field : BoolField)
  /-- `pgrest_conf_afilter_set` -/
  | afilter
  /-- `pgrest_conf_tbpath_set` -/
  | tbpath
  /-- `pgrest_conf_deferred_set` -/
  | deferred
  /-- `pgrest_conf_ipv6only_set` -/
  | ipv6only
  /-- `pgrest_conf_keepalive_set` -/
  | keepalive
  /-- `pgrest_conf_keepalive_opt_set` -/
  | keepaliveOpt (field : IntField) (minVal maxVal : Int)
  /-- `pgrest_conf_server_name_set` -/
  | serverName
  /-- `pgrest_conf_reuse_set` -/
  | reuse
  /-- `pgrest_conf_ssl_set` -/
  | ssl
  /-- `pgrest_conf_http_path_set` -/
  | httpPath
  /-- `pgrest_conf_lc_set` -/
  | lc
  /-- `pgrest_http_upstream_name` -/
  | upstreamName
  /-- `pgrest_http_upstream_algorithm` -/
  | upstreamAlgorithm
  /-- `pgrest_http_upstream_saddress` -/
  | upstreamSaddress
  /-- `pgrest_http_postgres_pgpass` -/
  | postgresPgpass
  /-- `pgrest_http_postgres_dbname` and `pgrest_http_postgres_encode` -/
  | postgresText (field : TextField)
  /-- `pgrest_http_push_stream_mode` -/
  | pushStreamMode
  /-- `pgrest_http_push_stream_name` -/
  | pushStreamName
  /-- `pgrest_http_push_stream_stor` -/
  | pushStreamStor
  /-- `pgrest_http_push_stream_tunnel` -/
  | pushStreamTunnel
deriving DecidableEq, Repr

/-- The functions that create an object. -/
inductive CreateHandler where
  /-- `pgrest_conf_setting_create` -/
  | setting
  /-- `pgrest_conf_http_server_create` -/
  | httpServer
  /-- `pgrest_conf_listener_create` -/
  | listener
  /-- `pgrest_conf_http_path_create` -/
  | httpPath
  /-- `pgrest_http_upstream_conf` -/
  | upstream
  /-- `pgrest_http_upstream_server_conf` -/
  | upstreamServer
  /-- `pgrest_http_postgres_conf` -/
  | postgres
  /-- `pgrest_http_push_stream_conf` -/
  | pushStream
deriving DecidableEq, Repr

/-- `flags` and `handler` of a directive. -/
inductive Handler where
  /-- `PGREST_CONF_OBJECT`; without a handler the object is the one it stands in -/
  | object (create : Option CreateHandler)
  /-- `PGREST_CONF_SCALAR` -/
  | scalar (set : SetHandler)
deriving DecidableEq, Repr

/-- `INT_MAX` -/
def intMax : Int := 0x7fffffff

/-- `pgrest_conf_static_cmds` -/
def staticCmds (p : Platform) : List (String × Handler) :=
  [("root", .object (some .setting)),
    ("worker", .object none),
    ("worker_processes", .scalar (.integer .workerProcesses 1 128)),
    ("worker_priority", .scalar (.integer .workerPriority (-20) 20)),
    ("worker_nofile", .scalar (.integer .workerNofile (-1) 65535)),
    ("worker_connections", .scalar (.integer .workerNoconn 1 65535)),
    ("accept", .object none),
    ("accept_mutex", .scalar (.bool .acceptorMutex)),
    ("accept_mutex_delay", .scalar (.integer .acceptorMutexDelay 500 600000)),
    ("multi_accept", .scalar (.bool .acceptorMultiAccept)),
    ("http", .object none),
    ("temp_buffer_path", .scalar .tbpath),
    ("server", .object (some .httpServer)),
    ("listen", .object (some .listener)),
    ("address", .scalar .address),
    ("default_server", .scalar (.bool .defaultServer)),
    ("bind", .scalar (.bool2 .bind)),
    ("backlog", .scalar (.integer2 .backlog 1 65535)),
    ("sndbuf", .scalar (.integer2 .sndbuf (-1) 65535)),
    ("rcvbuf", .scalar (.integer2 .rcvbuf (-1) 65535)),
    ("so_keepalive", .scalar .keepalive),
    ("tcp_keepidle", .scalar (.keepaliveOpt .tcpKeepidle 0 intMax)),
    ("tcp_keepintvl", .scalar (.keepaliveOpt .tcpKeepintvl 0 intMax)),
    ("tcp_keepcnt", .scalar (.keepaliveOpt .tcpKeepcnt 0 intMax)),
    ("ipv6_only", .scalar .ipv6only),
    ("accept_filter", .scalar .afilter),
    ("deferred_accept", .scalar .deferred),
    ("setfib", .scalar (.integer2 .setfib (-1) intMax)),
    ("fastopen", .scalar (.integer2 .fastopen (-1) intMax)),
    ("reuseport", .scalar .reuse),
    ("ssl", .scalar .ssl),
    ("http2", .scalar (.bool .http2)),
    ("server_name", .scalar .serverName)] ++
  (if p.openssl then
    [("ssl_certificate", .scalar (.string .sslCertificate)),
      ("ssl_certificate_key", .scalar (.string .sslCertificateKey)),
      ("ssl_session_cache", .scalar (.bool .sslSessionCache)),
      ("ssl_session_timeout", .scalar (.integer .sslSessionTimeout 60000 3600000))]
  else []) ++
  [("keepalive_timeout", .scalar (.integer .keepaliveTimeout 1000 3600000)),
    ("client_header_timeout", .scalar (.integer .clientHeaderTimeout 1000 3600000)),
    ("client_header_buffer_size", .scalar (.integer .clientHeaderBufferSize 1024 (1024 * 8))),
    ("client_max_header_size", .scalar (.integer .clientMaxHeaderSize 4096 (1024 * 1024))),
    ("client_max_body_size", .scalar (.integer .clientMaxBodySize 4096 (2 * 1024 * 1024))),
    ("client_body_buffer_size", .scalar (.integer .clientBodyBufferSize 1024 (1024 * 8))),
    ("client_body_timeout", .scalar (.integer .clientBodyTimeout 1000 3600000)),
    ("tcp_nopush", .scalar (.bool .tcpNopush)),
    ("tcp_nodelay", .scalar (.bool .tcpNodelay)),
    ("lingering_time", .scalar (.integer .lingeringTime 1000 3600000)),
    ("lingering_timeout", .scalar (.integer .lingeringTimeout 1000 3600000)),
    ("lingering_close", .scalar .lc),
    ("reset_timedout_connection", .scalar (.bool .resetTimedoutConnection)),
    ("location", .object (some .httpPath)),
    ("path", .scalar .httpPath),
    ("handlers", .object none)]

/-- The commands that `pgrest_http_setup_configurators` registers. -/
def dynamicCmds : List (String × Handler) :=
  [("upstream", .object (some .upstream)),
    ("userver", .object (some .upstreamServer)),
    ("name", .scalar .upstreamName),
    ("algorithm", .scalar .upstreamAlgorithm),
    ("uaddress", .scalar .upstreamSaddress),
    ("postgres", .object (some .postgres)),
    ("pg_pass", .scalar .postgresPgpass),
    ("dbname", .scalar (.postgresText .dbname)),
    ("encode", .scalar (.postgresText .encode)),
    ("push_stream", .object (some .pushStream)),
    ("mode", .scalar .pushStreamMode),
    ("param_name", .scalar .pushStreamName),
    ("store_message", .scalar .pushStreamStor),
    ("subscriber", .scalar .pushStreamTunnel)]

/-- `pgrest_conf_cmd_find` -/
def cmdFind (p : Platform) (name : String) : Option Handler :=
  (staticCmds p ++ dynamicCmds).lookup name

/-! ### What the handlers take their arguments for -/

/-- The kind of value that a handler decodes. -/
def SetHandler.kind : SetHandler → Kind
  | integer _ _ _ | integer2 _ _ _ | keepaliveOpt _ _ _ => .integer
  | bool _ | bool2 _ | deferred | ipv6only | reuse | ssl | pushStreamStor => .bool
  | _ => .string

/-- The struct that a handler takes its parent for. -/
def SetHandler.struct : SetHandler → Struct
  | integer field _ _ | integer2 field _ _ | keepaliveOpt field _ _ => field.struct
  | bool field | bool2 field => field.struct
  | string field | postgresText field => field.struct
  | address | afilter | deferred | ipv6only | keepalive | reuse | ssl => .listener
  | tbpath => .setting
  | serverName | lc => .server
  | httpPath => .path
  | upstreamName | upstreamAlgorithm => .upstream
  | upstreamSaddress => .userver
  | postgresPgpass => .postgres
  | pushStreamMode | pushStreamName | pushStreamStor | pushStreamTunnel => .pushStream

/-- The struct that a handler takes its parent for, if it looks at it. -/
def CreateHandler.parent : CreateHandler → Option Struct
  | setting | upstream => none
  | httpServer => some .setting
  | listener | httpPath => some .server
  | upstreamServer => some .upstream
  | postgres | pushStream => some .path

/-- The struct it creates an object of. -/
def CreateHandler.struct : CreateHandler → Struct
  | setting => .setting
  | httpServer => .server
  | listener => .listener
  | httpPath => .path
  | upstream => .upstream
  | upstreamServer => .userver
  | postgres => .postgres
  | pushStream => .pushStream

end PgRest.Conf
