import PgRest.Conf.Typed
import PgRest.Conf.Order

/-! What a document says of its objects. The names of a document, in the places they stand in, are an outline: which
objects there are, and which entries are made in each of them. The components of the configuration that is read
are what the entries make of them one after the other, however far apart the members of an object are and whatever
is opened, set and looked at in between. Upstreams and routers, which handlers look at, are not in the outline. -/
namespace PgRest.Conf

open Lib

/-- What is done to the components of the configuration. -/
inductive Entry where
  /-- `root`, with the servers and the listeners that are created already -/
  | setting (servers listeners : Nat)
  | server (i : Nat)
  | listener (l i : Nat)
  | path (p i : Nat)
  | postgres (k p : Nat)
  | pushStream (k p : Nat)
  | write (r : Ref) (w : Write)
  | address (l : Nat) (v : Bytes)
  | names (i : Nat) (v : Bytes)
deriving DecidableEq

section Replay
variable (env : Env)

/-- What `address` makes of an address. -/
def addressOf (v : Bytes) (a : Address) : Address :=
  let u := env.parseUrl { url := v, listen := true, defaultPort := 8080 }
  let sockaddr := u.sockaddr ++ a.sockaddr.drop u.sockaddr.length
  ⟨sockaddr, u.sockaddr.length, u.wildcard, env.inetNtop sockaddr⟩

/-- The names that `server_name` adds. -/
def namesOf (v : Bytes) : List Bytes := if v = [] then [] else (env.splitIdentifier v).getD []

/-- What an entry makes of a component. -/
def Entry.exec : Entry → (c : Cell) → c.Value → c.Value
  | .setting servers _, .serversFrom, _ => servers
  | .setting _ listeners, .listenersFrom, _ => listeners
  | .setting _ _, c, x => initPut env .setting c x
  | .server i, .servers, _ => i + 1
  | .server i, .serverNames, x => Function.update x i []
  | .server i, c, x => initPut env (.server i) c x
  | .listener l _, .listeners, _ => l + 1
  | .listener l i, .declaredBy, x => Function.update x l i
  | .listener l _, .addresses, x =>
    Function.update x l ⟨env.anySockaddr, env.anySockaddr.length, true, env.inetNtop env.anySockaddr⟩
  | .listener l _, c, x => initPut env (.listener l) c x
  | .path p _, .paths, _ => p + 1
  | .path p i, .pathServer, x => Function.update x p i
  | .path p _, .handlers, x => Function.update x p []
  | .path p _, c, x => initPut env (.path p) c x
  | .postgres k _, .postgres, _ => k + 1
  | .postgres k p, .handlers, x => Function.update x p (x p ++ [.postgres k])
  | .postgres k _, c, x => initPut env (.postgres k) c x
  | .pushStream k _, .pushStreams, _ => k + 1
  | .pushStream k p, .handlers, x => Function.update x p (x p ++ [.pushStream k])
  | .pushStream k _, c, x => initPut env (.pushStream k) c x
  | .write r w, c, x => w.put r c x
  | .address l v, .addresses, x => Function.update x l (addressOf env v (x l))
  | .names i v, .serverNames, x => Function.update x i (x i ++ namesOf env v)
  | _, _, x => x

/-- What entries make of a component, from the start. -/
def replay (entries : List Entry) (c : Cell) : c.Value :=
  entries.foldl (fun x e => e.exec env c x) (Objects.none.get c)

end Replay

/-! ### The outline -/

/-- The objects that are open, and the entries so far. Upstreams are left out. -/
structure Outline where
  stack : List Ref
  entries : List Entry

/-- The entries of a directive that is accepted, in the object it stands in. -/
def SetHandler.entries (env : Env) (set : SetHandler) (v : Value) (r : Ref) : List Entry :=
  match set, v, r with
  | .address, .string v, .listener l => [.address l v]
  | .serverName, .string v, .server i => [.names i v]
  | .httpPath, .string v, r => [.write r (.text .path v)]
  | .postgresPgpass, .string v, r => [.write r (.text .pgPass v)]
  | set, v, r => (set.use env v).writes.map (Entry.write r)

namespace Outline

def push (d : Outline) (r : Ref) (entries : List Entry) : Outline := ⟨r :: d.stack, d.entries ++ entries⟩

variable (env : Env)

/-! The objects there are, by their numbers. -/

def servers (d : Outline) : Nat := replay env d.entries .servers
def serversFrom (d : Outline) : Nat := replay env d.entries .serversFrom
def listeners (d : Outline) : Nat := replay env d.entries .listeners
def paths (d : Outline) : Nat := replay env d.entries .paths
def postgres (d : Outline) : Nat := replay env d.entries .postgres
def pushStreams (d : Outline) : Nat := replay env d.entries .pushStreams

/-- A new object, in the one that is open. -/
def create (d : Outline) (c : CreateHandler) : Outline :=
  match c, d.stack.headD .null with
  | .setting, _ => d.push .setting [.setting (d.servers env) (d.listeners env)]
  | .httpServer, .setting => d.push (.server (d.servers env)) [.server (d.servers env)]
  | .listener, .server i =>
    d.push (.listener (d.listeners env)) [.write (.server i) (.bool .listen true), .listener (d.listeners env) i]
  | .httpPath, .server i => d.push (.path (d.paths env)) [.path (d.paths env) i]
  | .postgres, .path p => d.push (.postgres (d.postgres env)) [.postgres (d.postgres env) p]
  | .pushStream, .path p => d.push (.pushStream (d.pushStreams env)) [.pushStream (d.pushStreams env) p]
  | _, _ => d.push .null []

def step (d : Outline) : Step → Outline
  | .enter name =>
    match cmdFind env.platform name with
    | some (.object none) => d.push (d.stack.headD .null) []
    | some (.object (some c)) => d.create env c
    | _ => d
  | .leave => { d with stack := d.stack.tail }
  | .find _ => d
  | .set name v =>
    match cmdFind env.platform name with
    | some (.scalar set) => { d with entries := d.entries ++ set.entries env v (d.stack.headD .null) }
    | _ => d

/-- The server and the listener that stand in when there is none. -/
def defaults (d : Outline) : Outline :=
  if d.servers env = d.serversFrom env then
    ((d.push .setting []).create env .httpServer).create env .listener
  else d

end Outline

/-- The entries of a document. -/
def entries (env : Env) (root : Json) : List Entry :=
  (((walk root).foldl (Outline.step env) ⟨[.null], []⟩).defaults env).entries

/-- The components that are in the outline. -/
def Cell.Listed (c : Cell) : Prop := c ≠ .upstreams ∧ c ≠ .routers ∧ c ≠ .int .policy

/-- An open object as it is in the outline. -/
def Ref.listed : Ref → Ref
  | .upstream _ => .null
  | .userver _ _ => .null
  | r => r

/-- What an object has in a field. -/
inductive Setting where
  | int (v : Int)
  | bool (v : Bool)
  | text (v : Option Bytes)
deriving DecidableEq

/-- What an object has in a component, if the component is a field. -/
def Cell.at : (c : Cell) → c.Value → Ref → Option Setting
  | .int _, x, r => some (.int (x r))
  | .bool _, x, r => some (.bool (x r))
  | .text _, x, r => some (.text (x r))
  | _, _, _ => none

/-- The entry is about the fields of the object. -/
def Entry.about (r : Ref) : Entry → Bool
  | .setting _ _ => r = .setting
  | .server i => r = .server i
  | .listener l _ => r = .listener l
  | .path p _ => r = .path p
  | .postgres k _ => r = .postgres k
  | .pushStream k _ => r = .pushStream k
  | .write r' _ => r = r'
  | _ => false

/-- The outline is that of the objects. -/
structure Outlined (env : Env) (d : Outline) (refs : List Ref) (o : Objects) : Prop where
  stack : d.stack = refs.map Ref.listed
  cells : ∀ c, c.Listed → o.get c = replay env d.entries c

section Steps
variable {env : Env} {d : Outline} {refs : List Ref} {o o' : Objects} {r r' : Ref} {c : Cell}

theorem replay_append (es es' : List Entry) (c : Cell) :
    replay env (es ++ es') c = es'.foldl (fun x e => e.exec env c x) (replay env es c) := List.foldl_append

/-- What is put into an object is put into the fields of its struct. -/
theorem put_of_not_field {w : Write} (h : ∀ s, r.struct = some s → c ∉ fields s) (x : c.Value) : w.put r c x = x := by
  cases w <;> cases c <;> try rfl
  all_goals
    refine if_neg ?_
    rintro ⟨rfl, hf⟩
    exact h _ hf rfl

/-- No field of the outline is in an upstream. -/
theorem Cell.Listed.not_field (hc : c.Listed) : c ∉ fields .upstream ∧ c ∉ fields .userver := by
  cases c with
  | int f =>
    have hf : f ≠ .policy := fun he => hc.2.2 (congrArg _ he)
    constructor <;> cases f <;> first | contradiction | exact nofun
  | bool f | text f => constructor <;> cases f <;> exact nofun
  | _ => exact ⟨id, id⟩

theorem put_listed (w : Write) (r : Ref) (hc : c.Listed) (x : c.Value) : w.put r.listed c x = w.put r c x := by
  obtain ⟨hu, hs⟩ := hc.not_field
  cases r with
  | upstream i =>
    rw [put_of_not_field (r := .upstream i) (by rintro s ⟨⟩; exact hu), Ref.listed, put_of_not_field (by rintro s ⟨⟩)]
  | userver i k =>
    rw [put_of_not_field (r := .userver i k) (by rintro s ⟨⟩; exact hs), Ref.listed, put_of_not_field (by rintro s ⟨⟩)]
  | _ => rfl

/-! ### Directives -/

/-- What the entries of a handler make of a component that it does not read. -/
theorem foldl_writes (ws : List Write) (r : Ref) (x : c.Value) :
    (ws.map (Entry.write r)).foldl (fun x e => e.exec env c x) x = ws.foldl (fun x w => w.put r c x) x := by
  rw [List.foldl_map]
  rfl

/-- A handler that reads nothing puts its entries. -/
theorem run_writes {set : SetHandler} {name : String} {v : Value} (h : set.run env name v r o = .ok o')
    (hc : c ∉ (set.use env v).reads) :
    o'.get c = ((set.use env v).writes.map (Entry.write r)).foldl (fun x e => e.exec env c x) (o.get c) := by
  rw [foldl_writes]
  exact setHandler_local.blind h c hc

theorem run_ok {set : SetHandler} {name : String} {v : Value} (h : set.run env name v r o = .ok o') :
    v.kind = set.kind ∧ r.struct = some set.struct ∧ set.apply env name v r o = .ok o' := by
  rw [SetHandler.run] at h
  split at h
  · next hk => exact ⟨hk.1, hk.2, h⟩
  · cases h

/-- A handler that looks at components makes its entry in one of them and leaves the others of the outline alone. -/
theorem run_reads {set : SetHandler} {name : String} {v : Value} {k : Cell} {e : Entry}
    (h : set.run env name v r o = .ok o') (hwrites : (set.use env v).writes = [])
    (hreads : ∀ c, c.Listed → c ∈ (set.use env v).reads → c ≠ k → o'.get c = o.get c)
    (he : ∀ c, c ≠ k → ∀ x, e.exec env c x = x) (hk : o'.get k = e.exec env k (o.get k)) (hc : c.Listed) :
    o'.get c = e.exec env c (o.get c) := by
  by_cases hck : c = k
  · exact hck ▸ hk
  · rw [he c hck]
    by_cases hr : c ∈ (set.use env v).reads
    · exact hreads c hc hr hck
    · have hblind := run_writes h hr
      rwa [hwrites] at hblind

theorem address_entry {name : String} {v : Bytes} {l : Nat} (h : addressSet env name v l o = .ok o') :
    o'.get .addresses = (Entry.address l v).exec env .addresses (o.get .addresses) := by
  rw [addressSet] at h
  dsimp only at h
  split at h <;> cases h
  rfl

theorem names_entry {name : String} {v : Bytes} {i : Nat}
    (h : SetHandler.serverName.apply env name (.string v) (.server i) o = .ok o') :
    o'.get .serverNames = (Entry.names i v).exec env .serverNames (o.get .serverNames) := by
  show _ = Function.update o.serverNames i (o.serverNames i ++ namesOf env v)
  rw [SetHandler.apply] at h
  rw [namesOf]
  split at h
  · next hv =>
    cases h
    rw [if_pos hv, List.append_nil, Function.update_eq_self]
    rfl
  · next hv =>
    rw [if_neg hv]
    split at h
    · cases h
    · next names hnames =>
      cases h
      rw [hnames]
      rfl

/-- What is set with a path, besides what is added to a router. -/
theorem httpPathSet_ok {name : String} {v : Bytes} {p : Nat} (h : httpPathSet name v p o = .ok o') :
    ∃ routers, o' = { o.setText (.path p) .path v with routers := routers } := by
  rw [httpPathSet] at h
  dsimp only at h
  split at h
  · cases h
  · split at h <;> cases h
    exact ⟨_, rfl⟩

theorem httpPath_entry {name : String} {v : Bytes} {p : Nat} (h : httpPathSet name v p o = .ok o') :
    o'.get (.text .path) = (Entry.write (.path p) (.text .path v)).exec env (.text .path) (o.get (.text .path)) := by
  obtain ⟨_, rfl⟩ := httpPathSet_ok h
  exact (Write.text .path v).get_exec (.path p) o (.text .path)

theorem httpPath_server {name : String} {v : Bytes} {p : Nat} (h : httpPathSet name v p o = .ok o') :
    o'.get .pathServer = o.get .pathServer := by
  obtain ⟨_, rfl⟩ := httpPathSet_ok h
  rfl

theorem pgPass_entry {v : Bytes} (h : httpPostgresPgpass env v r o = .ok o') :
    o'.get (.text .pgPass) = (Entry.write r (.text .pgPass v)).exec env (.text .pgPass) (o.get (.text .pgPass)) := by
  rw [httpPostgresPgpass] at h
  dsimp only at h
  split at h
  · cases h
  · split at h
    · cases h
    · split at h <;> cases h
      exact (Write.text .pgPass v).get_exec r o (.text .pgPass)

theorem exec_write_of_ne {w : Write} {k : Cell} (hw : w.cell = k) (r : Ref) (c : Cell) (hc : c ≠ k) (x : c.Value) :
    (Entry.write r w).exec env c x = x :=
  congrFun (Write.put_of_ne (r := r) fun he => hc (he.symm.trans hw)) x

/-- **A directive that is accepted makes its entries**, in the object it stands in. -/
theorem run_entries {set : SetHandler} {name : String} {v : Value} (h : set.run env name v r o = .ok o')
    (hc : c.Listed) :
    o'.get c = (set.entries env v r.listed).foldl (fun x e => e.exec env c x) (o.get c) := by
  obtain ⟨hkind, hstruct, happly⟩ := run_ok h
  have hwrites (hreads : c ∉ (set.use env v).reads)
      (hentries : set.entries env v r.listed = (set.use env v).writes.map (Entry.write r.listed)) :
      o'.get c = (set.entries env v r.listed).foldl (fun x e => e.exec env c x) (o.get c) := by
    rw [hentries, run_writes h hreads, foldl_writes, foldl_writes]
    simp only [put_listed _ r hc]
  cases set
  case address =>
    cases v <;> cases hkind
    cases r <;> cases hstruct
    exact run_reads h rfl (fun c _ hr hne => absurd hr hne) (fun c hne x => by cases c <;> first | rfl | contradiction)
      (address_entry happly) hc
  case serverName =>
    cases v <;> cases hkind
    cases r <;> cases hstruct
    exact run_reads h rfl (fun c _ hr hne => absurd hr hne) (fun c hne x => by cases c <;> first | rfl | contradiction)
      (names_entry happly) hc
  case httpPath =>
    cases v <;> cases hkind
    cases r <;> cases hstruct
    refine run_reads h rfl ?_ (exec_write_of_ne rfl _) (httpPath_entry happly) hc
    rintro c hlisted (rfl | rfl | rfl) hne
    · exact absurd rfl hne
    · exact httpPath_server happly
    · exact absurd rfl hlisted.2.1
  case postgresPgpass =>
    cases v <;> cases hkind
    cases r <;> cases hstruct
    refine run_reads h rfl ?_ (exec_write_of_ne rfl _) (pgPass_entry happly) hc
    rintro c hlisted (rfl | rfl) hne
    · exact absurd rfl hlisted.1
    · exact absurd rfl hne
  case upstreamName | upstreamSaddress => exact hwrites hc.1 rfl
  all_goals
    cases v <;> cases hkind
    exact hwrites id rfl

/-! ### Objects -/

theorem headD_listed (refs : List Ref) : (refs.map Ref.listed).headD .null = (refs.headD .null).listed := by
  cases refs <;> rfl

theorem Outlined.top (h : Outlined env d refs o) : d.stack.headD .null = (refs.headD .null).listed := by
  rw [h.stack, headD_listed]

/-- The objects that the outline counts. -/
theorem Outlined.push (h : Outlined env d refs o) {es : List Entry} (hr : r.listed = r')
    (ho : ∀ c, c.Listed → o'.get c = es.foldl (fun x e => e.exec env c x) (o.get c)) :
    Outlined env (d.push r' es) (r :: refs) o' where
  stack := by rw [Outline.push, h.stack, ← hr, List.map_cons]
  cells c hc := by rw [Outline.push, replay_append, ← h.cells c hc, ho c hc]

theorem Outlined.pop (h : Outlined env d refs o) : Outlined env { d with stack := d.stack.tail } refs.tail o where
  stack := by rw [h.stack, List.map_tail]
  cells := h.cells

/-- The numbers of the objects are those of the outline. -/
theorem Outlined.counts (h : Outlined env d refs o) : d.servers env = o.servers ∧ d.serversFrom env = o.serversFrom ∧
    d.listeners env = o.listeners ∧ d.paths env = o.paths ∧ d.postgres env = o.postgres ∧
    d.pushStreams env = o.pushStreams := by
  have hcell {c : Cell} (hc : c.Listed) : replay env d.entries c = o.get c := (h.cells c hc).symm
  exact ⟨hcell (by simp [Cell.Listed]), hcell (by simp [Cell.Listed]), hcell (by simp [Cell.Listed]),
    hcell (by simp [Cell.Listed]), hcell (by simp [Cell.Listed]), hcell (by simp [Cell.Listed])⟩

/-- **A new object is in the outline** with its number, and its fields as they are made. -/
theorem Outlined.create {h : CreateHandler} (hd : Outlined env d refs o)
    (ho : create env h (refs.headD .null) o = .ok (r', o')) : Outlined env (d.create env h) (r' :: refs) o' := by
  obtain ⟨hservers, -, hlisteners, hpaths, hpostgres, hstreams⟩ := hd.counts
  have htop := hd.top
  have hinit (r : Ref) (c : Cell) : (o.init env r).get c = initPut env r c (o.get c) := get_init
  cases h
  case setting =>
    cases ho
    unfold Outline.create
    rw [hservers, hlisteners]
    refine hd.push rfl fun c hc => ?_
    cases c with
    | int f => exact hinit _ (.int f)
    | bool f => exact hinit _ (.bool f)
    | text f => exact hinit _ (.text f)
    | _ => rfl
  case upstream =>
    refine hd.push (by cases ho; rfl) fun c hc => create_frame ho ?_
    rintro (hf | rfl)
    · exact hc.not_field.1 hf
    · exact hc.1 rfl
  case upstreamServer =>
    have hstruct := create_struct ho
    refine hd.push (by cases r' <;> first | rfl | cases hstruct) fun c hc => create_frame ho ?_
    rintro rfl
    exact hc.1 rfl
  all_goals
    cases hr : refs.headD .null <;> rw [hr] at ho htop <;> cases ho
    unfold Outline.create
    rw [htop]
  case httpServer =>
    show Outlined env (d.push (.server (d.servers env)) [.server (d.servers env)]) _ _
    rw [hservers]
    refine hd.push rfl fun c hc => ?_
    cases c with
    | int f => exact hinit _ (.int f)
    | bool f => exact hinit _ (.bool f)
    | text f => exact hinit _ (.text f)
    | routers => exact absurd rfl hc.2.1
    | _ => rfl
  case listener i =>
    show Outlined env (d.push (.listener (d.listeners env)) [_, .listener (d.listeners env) i]) _ _
    rw [hlisteners]
    refine hd.push rfl fun c hc => ?_
    cases c with
    | int f => exact hinit _ (.int f)
    | bool f =>
      refine (get_init (o := o.setBool (.server i) .listen true) (c := .bool f)).trans ?_
      exact congrArg (initPut env _ (.bool f)) ((Write.bool .listen true).get_exec _ o (.bool f))
    | text f => exact hinit _ (.text f)
    | _ => rfl
  case httpPath i =>
    show Outlined env (d.push (.path (d.paths env)) [.path (d.paths env) i]) _ _
    rw [hpaths]
    refine hd.push rfl fun c hc => ?_
    cases c with
    | int f => exact hinit _ (.int f)
    | bool f => exact hinit _ (.bool f)
    | text f => exact hinit _ (.text f)
    | _ => rfl
  case postgres i =>
    show Outlined env (d.push (.postgres (d.postgres env)) [.postgres (d.postgres env) i]) _ _
    rw [hpostgres]
    refine hd.push rfl fun c hc => ?_
    cases c with
    | int f => exact hinit _ (.int f)
    | bool f => exact hinit _ (.bool f)
    | text f => exact hinit _ (.text f)
    | _ => rfl
  case pushStream i =>
    show Outlined env (d.push (.pushStream (d.pushStreams env)) [.pushStream (d.pushStreams env) i]) _ _
    rw [hstreams]
    refine hd.push rfl fun c hc => ?_
    cases c with
    | int f => exact hinit _ (.int f)
    | bool f => exact hinit _ (.bool f)
    | text f => exact hinit _ (.text f)
    | _ => rfl

theorem Outlined.step {w w' : Walk} {s : Step} (h : Outlined env d w.stack w.objects) (hs : w.step env s = .ok w') :
    Outlined env (d.step env s) w'.stack w'.objects := by
  cases s with
  | leave =>
    cases hs
    exact h.pop
  | find name =>
    obtain ⟨o, ho, rfl⟩ := map_eq_ok hs
    rw [findArray] at ho
    split at ho <;> cases ho
    exact h
  | enter name =>
    obtain ⟨⟨r, o⟩, ho, rfl⟩ := map_eq_ok hs
    rw [openObject] at ho
    show Outlined env (d.step env (.enter name)) (r :: w.stack) o
    rw [Outline.step]
    rcases hc : cmdFind env.platform name with _ | ⟨_ | c⟩ | set <;> rw [hc] at ho
    · cases ho
    · cases ho
      exact h.push h.top.symm fun c hc => rfl
    · exact h.create ho
    · cases ho
  | set name v =>
    obtain ⟨o, ho, rfl⟩ := map_eq_ok hs
    rw [parseType] at ho
    show Outlined env (d.step env (.set name v)) w.stack o
    rw [Outline.step]
    rcases hc : cmdFind env.platform name with _ | c | set <;> rw [hc] at ho
    · cases ho
    · cases ho
    · refine ⟨h.stack, fun c hc => ?_⟩
      show o.get c = replay env (d.entries ++ set.entries env v (d.stack.headD .null)) c
      rw [replay_append, ← h.cells c hc, h.top]
      exact run_entries ho hc

/-- What a document that is read says of its objects. -/
theorem Outlined.run {w w' : Walk} {steps : List Step} (h : Outlined env d w.stack w.objects)
    (hs : w.run env steps = .ok w') : Outlined env (steps.foldl (Outline.step env) d) w'.stack w'.objects := by
  induction steps generalizing d w with
  | nil =>
    cases hs
    exact h
  | cons s steps ih =>
    obtain ⟨w₁, hw, hs⟩ := Walk.run_cons hs
    exact ih (h.step hw) hs

theorem outlined_start : Outlined env ⟨[.null], []⟩ Walk.start.stack Walk.start.objects := ⟨rfl, fun _ _ => rfl⟩

theorem Outlined.defaults (h : Outlined env d [.null] o) (hd : defaultValues env o = .ok o') :
    ∃ refs, Outlined env (d.defaults env) refs o' := by
  obtain ⟨hservers, hfrom, -⟩ := h.counts
  rw [defaultValues] at hd
  rw [Outline.defaults, hservers, hfrom]
  split at hd
  · next hn =>
    rw [if_pos hn]
    obtain ⟨⟨server, o₁⟩, hserver, hd⟩ := bind_eq_ok hd
    obtain ⟨⟨listener, o₂⟩, hlistener, rfl⟩ := map_eq_ok hd
    have hsetting : Outlined env (d.push .setting []) [.setting, .null] o := h.push rfl fun c _ => rfl
    exact ⟨_, (hsetting.create hserver).create hlistener⟩
  · next hn =>
    rw [if_neg hn]
    cases hd
    exact ⟨_, h⟩

/-! ### One object -/

theorem update_at {α : Type} {x y : Ref → α} {v : α} {q : Ref} {p : Prop} [Decidable p] (h : x r = y r) :
    (if p then Function.update x q v else x) r = (if p then Function.update y q v else y) r ∧
      (r ≠ q → (if p then Function.update x q v else x) r = x r) := by
  split
  · by_cases hrq : r = q
    · subst hrq
      exact ⟨by rw [Function.update_self, Function.update_self], fun hne => absurd rfl hne⟩
    · rw [Function.update_of_ne hrq, Function.update_of_ne hrq]
      exact ⟨h, fun _ => rfl⟩
  · exact ⟨h, fun _ => rfl⟩

theorem initPut_at {x y : c.Value} {q : Ref} (h : c.at x r = c.at y r) :
    c.at (initPut env q c x) r = c.at (initPut env q c y) r ∧ (r ≠ q → c.at (initPut env q c x) r = c.at x r) := by
  cases c with
  | int f =>
    obtain ⟨hboth, hother⟩ := update_at (v := intDefault env f) (q := q) (p := q.struct = some f.struct)
      (Setting.int.inj (Option.some.inj h))
    exact ⟨congrArg (some ∘ Setting.int) hboth, fun hne => congrArg (some ∘ Setting.int) (hother hne)⟩
  | bool f =>
    obtain ⟨hboth, hother⟩ := update_at (v := boolDefault env f) (q := q) (p := q.struct = some f.struct)
      (Setting.bool.inj (Option.some.inj h))
    exact ⟨congrArg (some ∘ Setting.bool) hboth, fun hne => congrArg (some ∘ Setting.bool) (hother hne)⟩
  | text f =>
    obtain ⟨hboth, hother⟩ := update_at (v := textDefault env f) (q := q) (p := q.struct = some f.struct)
      (Setting.text.inj (Option.some.inj h))
    exact ⟨congrArg (some ∘ Setting.text) hboth, fun hne => congrArg (some ∘ Setting.text) (hother hne)⟩
  | _ => exact ⟨rfl, fun _ => rfl⟩

theorem put_at {x y : c.Value} {q : Ref} {w : Write} (h : c.at x r = c.at y r) :
    c.at (w.put q c x) r = c.at (w.put q c y) r ∧ (r ≠ q → c.at (w.put q c x) r = c.at x r) := by
  by_cases hc : w.cell = c
  · subst hc
    cases w with
    | int f v =>
      obtain ⟨hboth, hother⟩ := update_at (v := v) (q := q) (p := f = f ∧ q.struct = some f.struct)
        (Setting.int.inj (Option.some.inj h))
      exact ⟨congrArg (some ∘ Setting.int) hboth, fun hne => congrArg (some ∘ Setting.int) (hother hne)⟩
    | bool f v =>
      obtain ⟨hboth, hother⟩ := update_at (v := v) (q := q) (p := f = f ∧ q.struct = some f.struct)
        (Setting.bool.inj (Option.some.inj h))
      exact ⟨congrArg (some ∘ Setting.bool) hboth, fun hne => congrArg (some ∘ Setting.bool) (hother hne)⟩
    | text f v =>
      obtain ⟨hboth, hother⟩ := update_at (v := some v) (q := q) (p := f = f ∧ q.struct = some f.struct)
        (Setting.text.inj (Option.some.inj h))
      exact ⟨congrArg (some ∘ Setting.text) hboth, fun hne => congrArg (some ∘ Setting.text) (hother hne)⟩
  · rw [Write.put_of_ne hc]
    exact ⟨h, fun _ => rfl⟩

/-- An entry makes of what an object has something that depends on this alone, and leaves it alone where it is about
another object. -/
theorem exec_at (e : Entry) {x y : c.Value} (h : c.at x r = c.at y r) :
    c.at (e.exec env c x) r = c.at (e.exec env c y) r ∧
      (e.about r = false → c.at (e.exec env c x) r = c.at x r) := by
  cases e with
  | write q w => exact (put_at h).imp id fun hother hne => hother (of_decide_eq_false hne)
  | address l v => cases c <;> exact ⟨h, fun _ => rfl⟩
  | names i v => cases c <;> exact ⟨h, fun _ => rfl⟩
  | _ =>
    cases c with
    | int f => exact (initPut_at (c := .int f) h).imp id fun hother hne => hother (of_decide_eq_false hne)
    | bool f => exact (initPut_at (c := .bool f) h).imp id fun hother hne => hother (of_decide_eq_false hne)
    | text f => exact (initPut_at (c := .text f) h).imp id fun hother hne => hother (of_decide_eq_false hne)
    | _ => exact ⟨rfl, fun _ => rfl⟩

/-- **What an object has in its fields is made by its own entries.** -/
theorem replay_about (es : List Entry) (c : Cell) (r : Ref) :
    c.at (replay env es c) r = c.at (replay env (es.filter (Entry.about r)) c) r := by
  have hfold (x y : c.Value) (h : c.at x r = c.at y r) :
      c.at (es.foldl (fun x e => e.exec env c x) x) r =
        c.at ((es.filter (Entry.about r)).foldl (fun x e => e.exec env c x) y) r := by
    induction es generalizing x y with
    | nil => exact h
    | cons e es ih =>
      cases he : e.about r with
      | false =>
        rw [List.filter_cons_of_neg (by simp [he])]
        exact ih _ _ (((exec_at e rfl).2 he).trans h)
      | true =>
        rw [List.filter_cons_of_pos he]
        exact ih _ _ (exec_at e h).1
  exact hfold _ _ rfl

end Steps

theorem parse_outlined {env : Env} {root : Json} {o : Objects} (h : parse env root = .ok o) (c : Cell) (hc : c.Listed) :
    o.get c = replay env (entries env root) c := by
  obtain ⟨o₁, h₁, h₂, -⟩ := parse_ok h
  have hw : Walk.run env .start (walk root) = .ok ⟨[.null], o₁⟩ := by
    rw [run_walk, h₁]
    rfl
  obtain ⟨refs, hout⟩ := (outlined_start.run hw).defaults h₂
  exact hout.cells c hc

/-- Two servers, one of which asks for a smaller backlog twice. -/
def twoServers : Json :=
  .object [("http", .object [("server", .array
    [.object [("client_max_body_size", .integer 5000), ("listen", .object [("backlog", .integer 7), ("bind", .bool false)]),
        ("client_max_body_size", .integer 4096)],
      .object [("listen", .object [])]])])]

end PgRest.Conf
