import PgRest.Bytes
import PgRest.Http.Listeners
import PgRest.Lib.Table

/-! The ports the server listens on. `pgrest_http_init` hands every listener with its server to
`pgrest_http_add_listen`, which collects the ports, the addresses of each port and the servers of
each address. What an address ends up with depends on the listeners at this address alone, in
their order. Memory is taken not to run out; where a call returns false the server does not start. -/
namespace PgRest.Http
open Lib

/-- `sa_family` -/
inductive AddressFamily
  | inet
  | inet6
  | unix
deriving DecidableEq

/-- What counts of a `pgrest_sockaddr_t`; the port is in host order, and the path is all of `sun_path`. -/
inductive Sockaddr
  | inet (port : UInt16) (addr : Family.inet.Addr)
  | inet6 (port : UInt16) (addr : Family.inet6.Addr)
  | unix (sunPath : Bytes)
deriving DecidableEq

namespace Sockaddr

def family : Sockaddr → AddressFamily
  | inet _ _ => .inet
  | inet6 _ _ => .inet6
  | unix _ => .unix

/-- `pgrest_inet_get_port` -/
def getPort : Sockaddr → UInt16
  | inet port _ => port
  | inet6 port _ => port
  | unix _ => 0

/-- `pgrest_inet_cmp_sockaddr`, which is true for addresses that are the same. -/
def cmp (sa sa' : Sockaddr) (cmpPort : Bool) : Bool :=
  match sa, sa' with
  | inet6 port addr, inet6 port' addr' => !(cmpPort && port != port') && addr == addr'
  | unix path, unix path' => path == path'
  | inet port addr, inet port' addr' => !(cmpPort && port != port') && addr == addr'
  | _, _ => false

/-- The port entry of an address. -/
def portKey (sa : Sockaddr) : AddressFamily × UInt16 := (sa.family, sa.getPort)

/-- Of one port entry, addresses compare equal without their ports when they are equal. -/
theorem cmp_iff {sa sa' : Sockaddr} (h : sa'.portKey = sa.portKey) : sa.cmp sa' false = true ↔ sa' = sa := by
  cases sa <;> cases sa' <;> simp only [portKey, family, getPort, Prod.mk.injEq, reduceCtorEq, false_and] at h
  case inet.inet | inet6.inet6 =>
    simp only [cmp, Bool.false_and, Bool.not_false, Bool.true_and, beq_iff_eq, inet.injEq, inet6.injEq, h.2,
      true_and]
    exact eq_comm
  case unix.unix =>
    simp only [cmp, beq_iff_eq, unix.injEq]
    exact eq_comm

end Sockaddr

/-- `pgrest_conf_listener_t`. The options that only the socket is set up from are `options`. -/
structure ConfListener (O : Type) where
  sockaddr : Sockaddr
  set : Bool
  defaultServer : Bool
  bind : Bool
  wildcard : Bool
  ssl : Bool
  http2 : Bool
  options : O

/-- `pgrest_http_conf_addr_t`, but for the table of server names, which is empty yet. -/
structure ListenAddr (S O : Type) where
  opt : ConfListener O
  defaultServer : S
  servers : List S

/-- `pgrest_http_conf_port_t` -/
structure ConfPort (S O : Type) where
  family : AddressFamily
  port : UInt16
  addrs : List (ListenAddr S O)

variable {S O : Type}

def ListenAddr.sockaddr (addr : ListenAddr S O) : Sockaddr := addr.opt.sockaddr

def ConfPort.key (port : ConfPort S O) : AddressFamily × UInt16 := (port.family, port.port)

section Add
variable [DecidableEq S]

/-- `pgrest_http_add_server` -/
def addServer (confServer : S) (addr : ListenAddr S O) : Option (ListenAddr S O) :=
  if confServer ∈ addr.servers then none else some { addr with servers := addr.servers ++ [confServer] }

/-- The address that `pgrest_http_add_address` pushes. -/
def newAddr (confServer : S) (listener : ConfListener O) : Option (ListenAddr S O) :=
  addServer confServer ⟨listener, confServer, []⟩

/-- `pgrest_http_add_address` -/
def addAddress (confServer : S) (listener : ConfListener O) (port : ConfPort S O) : Option (ConfPort S O) :=
  (newAddr confServer listener).map fun addr => { port with addrs := port.addrs ++ [addr] }

/-- What `pgrest_http_add_addresses` does at an address that is in the list already. -/
def joinAddr (confServer : S) (listener : ConfListener O) (addr : ListenAddr S O) : Option (ListenAddr S O) :=
  (addServer confServer addr).bind fun addr =>
    let defaultServer := addr.opt.defaultServer
    let ssl := listener.ssl || addr.opt.ssl
    let http2 := listener.http2 || addr.opt.http2
    if listener.set && addr.opt.set then none
    else
      let opt := if listener.set then listener else addr.opt
      if listener.defaultServer then
        if defaultServer then none
        else some { addr with opt := { opt with defaultServer := true, ssl, http2 }, defaultServer := confServer }
      else some { addr with opt := { opt with defaultServer, ssl, http2 } }

/-- One address of `pgrest_http_add_addresses`, there already or not. -/
def putAddr (confServer : S) (listener : ConfListener O) : Option (ListenAddr S O) → Option (ListenAddr S O)
  | none => newAddr confServer listener
  | some addr => joinAddr confServer listener addr

/-- `pgrest_http_add_addresses` -/
def addAddresses (confServer : S) (listener : ConfListener O) (port : ConfPort S O) : Option (ConfPort S O) :=
  (upsert (fun addr => listener.sockaddr.cmp addr.sockaddr false) (putAddr confServer listener) port.addrs).map
    fun addrs => { port with addrs }

/-- One port of `pgrest_http_add_listen`, there already or not. -/
def putPort (confServer : S) (listener : ConfListener O) : Option (ConfPort S O) → Option (ConfPort S O)
  | none => addAddress confServer listener ⟨listener.sockaddr.family, listener.sockaddr.getPort, []⟩
  | some port => addAddresses confServer listener port

/-- `pgrest_http_add_listen` -/
def addListen (ports : List (ConfPort S O)) (listen : S × ConfListener O) : Option (List (ConfPort S O)) :=
  upsert (fun port => listen.2.sockaddr.getPort == port.port && listen.2.sockaddr.family == port.family)
    (putPort listen.1 listen.2) ports

/-- The loop of `pgrest_http_init` over the servers and listeners that it puts together. -/
def addListens (listens : List (S × ConfListener O)) : Option (List (ConfPort S O)) := runList addListen [] listens

end Add

/-! ### What the listeners at one address make of it -/

/-- At one address every server listens once, and the options are set, and the default server is named, at most
once. -/
structure Compatible (listens : List (S × ConfListener O)) : Prop where
  servers : (listens.map Prod.fst).Nodup
  set : listens.countP (·.2.set) ≤ 1
  defaultServer : listens.countP (·.2.defaultServer) ≤ 1

/-- The address: its servers in their order, the server that is named the default or else the first, and the
options where they are set or else the first. -/
def collected : List (S × ConfListener O) → Option (ListenAddr S O)
  | [] => none
  | first :: others =>
    let listens := first :: others
    some {
      opt := { ((listens.find? (·.2.set)).getD first).2 with
        defaultServer := listens.any (·.2.defaultServer)
        ssl := listens.any (·.2.ssl)
        http2 := listens.any (·.2.http2) }
      defaultServer := ((listens.find? (·.2.defaultServer)).getD first).1
      servers := listens.map Prod.fst }

theorem Compatible.nil : Compatible ([] : List (S × ConfListener O)) := ⟨by simp, by simp, by simp⟩

theorem Compatible.front {done listens : List (S × ConfListener O)} (h : Compatible (done ++ listens)) :
    Compatible done where
  servers := (List.nodup_append.mp (List.map_append ▸ h.servers)).1
  set := Nat.le_trans (by simp) (List.countP_append ▸ h.set)
  defaultServer := Nat.le_trans (by simp) (List.countP_append ▸ h.defaultServer)

/-- A compatible list takes one more listener if its server is new, and if it sets the options, and names the
default, only where no one before it has. -/
theorem compatible_concat {done : List (S × ConfListener O)} (h : Compatible done) (listen : S × ConfListener O) :
    Compatible (done ++ [listen]) ↔ listen.1 ∉ done.map Prod.fst ∧
      (listen.2.set && done.any (·.2.set)) = false ∧
      (listen.2.defaultServer && done.any (·.2.defaultServer)) = false := by
  have hcount (p : S × ConfListener O → Bool) (hp : done.countP p ≤ 1) :
      (done ++ [listen]).countP p ≤ 1 ↔ (p listen && done.any p) = false := by
    rw [List.countP_append, List.countP_singleton]
    cases hx : p listen with
    | false => simpa using hp
    | true =>
      have hany : done.any p = true ↔ 0 < done.countP p := by rw [List.any_eq_true, List.countP_pos_iff]
      rw [Bool.true_and, Bool.eq_false_iff, ne_eq, hany]
      simp
  constructor
  · intro hc
    have hservers := hc.servers
    rw [List.map_append, List.nodup_append] at hservers
    exact ⟨fun hmem => hservers.2.2 _ hmem listen.1 (by simp) rfl, (hcount _ h.set).mp hc.set,
      (hcount _ h.defaultServer).mp hc.defaultServer⟩
  · rintro ⟨hnew, hset, hdefault⟩
    refine ⟨?_, (hcount _ h.set).mpr hset, (hcount _ h.defaultServer).mpr hdefault⟩
    rw [List.map_append, List.nodup_append]
    refine ⟨h.servers, by simp, fun s hs t ht he => hnew ?_⟩
    obtain rfl : t = listen.1 := by simpa using ht
    exact he ▸ hs

theorem find_concat {α : Type} {p : α → Bool} (l : List α) (x first : α) :
    ((l ++ [x]).find? p).getD first = if !l.any p && p x then x else (l.find? p).getD first := by
  rw [List.find?_append]
  cases hfind : l.find? p with
  | some y =>
    have hany : l.any p = true := List.any_eq_true.mpr ⟨y, List.mem_of_find?_eq_some hfind, List.find?_some hfind⟩
    simp [hany]
  | none =>
    have hany : l.any p = false := List.any_eq_false.mpr (List.find?_eq_none.mp hfind)
    cases hx : p x <;> simp [hany, hx]

/-- The options of the address are set exactly where a listener sets them. -/
theorem find_any {α : Type} {p : α → Bool} (first : α) (others : List α) :
    p (((first :: others).find? p).getD first) = (first :: others).any p := by
  cases hfind : (first :: others).find? p with
  | some y =>
    rw [Option.getD_some, List.find?_some hfind]
    exact (List.any_eq_true.mpr ⟨y, List.mem_of_find?_eq_some hfind, List.find?_some hfind⟩).symm
  | none =>
    rw [Option.getD_none, Bool.eq_false_iff.mpr (List.find?_eq_none.mp hfind first List.mem_cons_self)]
    exact (List.any_eq_false.mpr (List.find?_eq_none.mp hfind)).symm

/-- **A listener is added to what the ones before it have made of the address**, if it is compatible with them. -/
theorem putAddr_collected [DecidableEq S] {done : List (S × ConfListener O)} (h : Compatible done)
    (listen : S × ConfListener O) : putAddr listen.1 listen.2 (collected done) =
      if listen.1 ∉ done.map Prod.fst ∧ (listen.2.set && done.any (·.2.set)) = false ∧
        (listen.2.defaultServer && done.any (·.2.defaultServer)) = false
      then collected (done ++ [listen]) else none := by
  obtain ⟨server, sockaddr, set, default, bind, wildcard, ssl, http2, options⟩ := listen
  cases done with
  | nil => cases set <;> cases default <;> simp [putAddr, collected, newAddr, addServer]
  | cons first others =>
    by_cases hmem : server ∈ (first :: others).map Prod.fst
    · rw [if_neg fun hc => hc.1 hmem]
      show (addServer server _).bind _ = none
      rw [addServer, if_pos hmem, Option.bind_none]
    have hset : (((first :: others).find? (·.2.set)).getD first).2.set = (first :: others).any (·.2.set) :=
      find_any (p := (·.2.set)) first others
    simp only [putAddr, collected, joinAddr, addServer, if_neg hmem, Option.bind_some, List.cons_append]
    simp only [← List.cons_append, find_concat, List.any_append, List.map_append, hmem, not_false_eq_true, true_and]
    -- a listener that sets the options or names the default comes first with that, or not at all
    generalize ((first :: others).find? (·.2.set)).getD first = o at hset ⊢
    generalize ((first :: others).find? (·.2.defaultServer)).getD first = d
    generalize (first :: others).any (·.2.set) = s at hset ⊢
    generalize (first :: others).any (·.2.defaultServer) = t
    cases set <;> cases default <;> cases s <;> cases t <;> simp [hset, Bool.or_comm]

/-! ### Runs -/

/-- The listeners at one address, in their order. -/
def listensAt (listens : List (S × ConfListener O)) (sa : Sockaddr) : List (S × ConfListener O) :=
  listens.filter fun listen => listen.2.sockaddr = sa

/-- The entry of an address in the ports. -/
def entryAt (ports : List (ConfPort S O)) (sa : Sockaddr) : Option (ListenAddr S O) :=
  (ports.find? fun port => port.key = sa.portKey).bind fun port => port.addrs.find? fun addr => addr.sockaddr = sa

/-- One entry for a port, which has addresses, its own ones, and one entry for each. -/
structure ConfPort.Sound (port : ConfPort S O) : Prop where
  nonempty : port.addrs ≠ []
  own : ∀ addr ∈ port.addrs, addr.sockaddr.portKey = port.key
  distinct : (port.addrs.map ListenAddr.sockaddr).Nodup

structure Layout (ports : List (ConfPort S O)) : Prop where
  distinct : (ports.map ConfPort.key).Nodup
  sound : ∀ port ∈ ports, port.Sound

theorem Layout.nil : Layout ([] : List (ConfPort S O)) := ⟨by simp, by simp⟩

/-- An entry that is found is the address looked for. -/
theorem entryAt_sockaddr {ports : List (ConfPort S O)} {sa : Sockaddr} {addr : ListenAddr S O}
    (h : entryAt ports sa = some addr) : addr.sockaddr = sa := by
  obtain ⟨port, -, haddr⟩ := Option.bind_eq_some_iff.mp h
  exact find_key_eq haddr

/-- In a sound layout an address is the entry at its own. -/
theorem Layout.entryAt_mem {ports : List (ConfPort S O)} (h : Layout ports) {port : ConfPort S O}
    (hport : port ∈ ports) {addr : ListenAddr S O} (haddr : addr ∈ port.addrs) :
    entryAt ports addr.sockaddr = some addr := by
  rw [entryAt, (h.sound port hport).own addr haddr, find_of_nodup h.distinct hport, Option.bind_some]
  exact find_of_nodup (h.sound port hport).distinct haddr

/-- **A listener keeps the layout sound and changes the entry of its own address only.** -/
theorem addListen_step {ports ports' : List (ConfPort S O)} (h : Layout ports) {listen : S × ConfListener O}
    {addr : ListenAddr S O} (haddr : addr.sockaddr = listen.2.sockaddr)
    (hports : place (fun port => port.key = listen.2.sockaddr.portKey)
        ⟨listen.2.sockaddr.family, listen.2.sockaddr.getPort,
          place (fun addr => addr.sockaddr = listen.2.sockaddr) addr
            (((ports.find? fun port => port.key = listen.2.sockaddr.portKey).map ConfPort.addrs).getD [])⟩ ports =
      ports') : Layout ports' ∧ entryAt ports' = Function.update (entryAt ports) listen.2.sockaddr (some addr) := by
  set sa := listen.2.sockaddr
  -- the addresses that the port has already
  obtain ⟨addrs, haddrs, hown, hdistinct⟩ : ∃ addrs : List (ListenAddr S O),
      ((ports.find? fun port => port.key = sa.portKey).map ConfPort.addrs).getD [] = addrs ∧
      (∀ a ∈ addrs, a.sockaddr.portKey = sa.portKey) ∧ (addrs.map ListenAddr.sockaddr).Nodup := by
    cases hfind : ports.find? fun port => port.key = sa.portKey with
    | none => exact ⟨[], rfl, by simp, by simp⟩
    | some port =>
      have hsound := h.sound port (List.mem_of_find?_eq_some hfind)
      exact ⟨port.addrs, rfl, fun a ha => (hsound.own a ha).trans (find_key_eq hfind), hsound.distinct⟩
  have hdecide (addr : ListenAddr S O) : decide (addr.sockaddr = sa) = true ↔ addr.sockaddr = sa :=
    decide_eq_true_iff
  have hdecideKey (port : ConfPort S O) : decide (port.key = sa.portKey) = true ↔ port.key = sa.portKey :=
    decide_eq_true_iff
  rw [haddrs] at hports
  subst hports
  refine ⟨⟨nodup_place (fun port _ => hdecideKey port) rfl h.distinct, fun port hport => ?_⟩, funext fun sa' => ?_⟩
  · rcases mem_place hport with rfl | hport
    · refine ⟨place_ne_nil, fun a ha => ?_, nodup_place (fun a _ => hdecide a) haddr hdistinct⟩
      rcases mem_place ha with rfl | ha
      · exact congrArg Sockaddr.portKey haddr
      · exact hown a ha
    · exact h.sound port hport
  · rw [entryAt, find_place (fun port _ => hdecideKey port) rfl]
    by_cases hkey : sa.portKey = sa'.portKey
    · rw [if_pos hkey, Option.bind_some, find_place (fun a _ => hdecide a) haddr]
      by_cases hsa : sa = sa'
      · subst hsa
        rw [if_pos rfl, Function.update_self]
      · rw [if_neg hsa, Function.update_of_ne (Ne.symm hsa), entryAt, ← hkey, ← haddrs]
        cases ports.find? fun port => port.key = sa.portKey <;> rfl
    · have hsa : sa' ≠ sa := fun he => hkey (he ▸ rfl)
      rw [if_neg hkey, Function.update_of_ne hsa, entryAt]

section Run
variable [DecidableEq S]

theorem newAddr_sockaddr {server : S} {listener : ConfListener O} {addr : ListenAddr S O}
    (h : newAddr server listener = some addr) : addr.sockaddr = listener.sockaddr := by
  rw [newAddr, addServer, if_neg (by simp)] at h
  exact Option.some.inj h ▸ rfl

theorem joinAddr_sockaddr {server : S} {listener : ConfListener O} {addr addr' : ListenAddr S O}
    (haddr : addr.sockaddr = listener.sockaddr) (h : joinAddr server listener addr = some addr') :
    addr'.sockaddr = listener.sockaddr := by
  obtain ⟨joined, hjoined, h⟩ := Option.bind_eq_some_iff.mp h
  have hopt : joined.opt = addr.opt := by
    rw [addServer] at hjoined
    split at hjoined
    · cases hjoined
    · exact Option.some.inj hjoined ▸ rfl
  have hsockaddr : (if listener.set then listener else joined.opt).sockaddr = listener.sockaddr := by
    split
    · rfl
    · exact hopt ▸ haddr
  dsimp only at h
  split at h
  · cases h
  · split at h
    · split at h
      · cases h
      · exact Option.some.inj h ▸ hsockaddr
    · exact Option.some.inj h ▸ hsockaddr

/-- What is put at an address is of this address. -/
theorem putAddr_sockaddr {server : S} {listener : ConfListener O} {entry : Option (ListenAddr S O)}
    {addr : ListenAddr S O} (hentry : ∀ old ∈ entry, old.sockaddr = listener.sockaddr)
    (h : putAddr server listener entry = some addr) : addr.sockaddr = listener.sockaddr := by
  cases entry with
  | none => exact newAddr_sockaddr h
  | some old => exact joinAddr_sockaddr (hentry old rfl) h

/-- The port with the address put in its list, for a port that is there and for one that is new. -/
theorem putPort_eq (server : S) (listener : ConfListener O) {entry : Option (ConfPort S O)}
    (hkey : ∀ port ∈ entry, port.key = listener.sockaddr.portKey)
    (hown : ∀ port ∈ entry, ∀ addr ∈ port.addrs, addr.sockaddr.portKey = port.key) :
    putPort server listener entry =
      (putAddr server listener (entry.bind fun port => port.addrs.find? fun addr => addr.sockaddr = listener.sockaddr)).map
        fun addr => ⟨listener.sockaddr.family, listener.sockaddr.getPort,
          place (fun addr => addr.sockaddr = listener.sockaddr) addr ((entry.map ConfPort.addrs).getD [])⟩ := by
  cases entry with
  | none => rfl
  | some port =>
    have hport := hkey port rfl
    have hsame : ∀ addr ∈ port.addrs, listener.sockaddr.cmp addr.sockaddr false =
        decide (addr.sockaddr = listener.sockaddr) := fun addr haddr =>
      Bool.eq_iff_iff.mpr ((Sockaddr.cmp_iff ((hown port rfl addr haddr).trans hport)).trans decide_eq_true_iff.symm)
    obtain ⟨family, number, addrs⟩ := port
    obtain ⟨rfl, rfl⟩ := Prod.mk.inj hport
    rw [putPort, addAddresses, upsert_eq, find_congr hsame, Option.map_map]
    exact congrArg (fun f => Option.map f _) (funext fun addr => by
      simp only [Function.comp_apply, Option.map_some, Option.getD_some]
      rw [place_congr hsame])

theorem addListen_eq {ports : List (ConfPort S O)} (h : Layout ports) (listen : S × ConfListener O) :
    addListen ports listen = (putAddr listen.1 listen.2 (entryAt ports listen.2.sockaddr)).map fun addr =>
      place (fun port => port.key = listen.2.sockaddr.portKey)
        ⟨listen.2.sockaddr.family, listen.2.sockaddr.getPort,
          place (fun addr => addr.sockaddr = listen.2.sockaddr) addr
            (((ports.find? fun port => port.key = listen.2.sockaddr.portKey).map ConfPort.addrs).getD [])⟩ ports := by
  have hsame : ∀ port ∈ ports, (listen.2.sockaddr.getPort == port.port &&
      listen.2.sockaddr.family == port.family) = decide (port.key = listen.2.sockaddr.portKey) := fun port _ =>
    Bool.eq_iff_iff.mpr (by
      rw [Bool.and_eq_true, beq_iff_eq, beq_iff_eq, decide_eq_true_iff, ConfPort.key, Sockaddr.portKey, Prod.mk.injEq,
        and_comm]
      exact and_congr eq_comm eq_comm)
  rw [addListen, upsert_eq, find_congr hsame, putPort_eq]
  · rw [Option.map_map, entryAt]
    exact congrArg (fun f => Option.map f _) (funext fun addr => place_congr hsame)
  · exact fun port hport => find_key_eq hport
  · exact fun port hport => (h.sound port (List.mem_of_find?_eq_some hport)).own

/-- From outside a listener is a step at its address. -/
theorem addListen_book {ports : List (ConfPort S O)} (h : Layout ports) (listen : S × ConfListener O) :
    (addListen ports listen).map entryAt =
        bookStep (fun listen => listen.2.sockaddr) (fun listen => putAddr listen.1 listen.2) (entryAt ports) listen ∧
      ∀ ports', addListen ports listen = some ports' → Layout ports' := by
  rw [addListen_eq h, bookStep]
  cases hput : putAddr listen.1 listen.2 (entryAt ports listen.2.sockaddr) with
  | none => exact ⟨rfl, fun ports' h' => by cases h'⟩
  | some addr =>
    have haddr := putAddr_sockaddr (fun old hold => entryAt_sockaddr hold) hput
    have hstep := addListen_step h haddr rfl
    exact ⟨congrArg some hstep.2, fun ports' h' => Option.some.inj h' ▸ hstep.1⟩

/-- What the listeners at one address make of it, one after the other. -/
theorem runList_collected {done : List (S × ConfListener O)} (h : Compatible done) (listens : List (S × ConfListener O)) :
    (Compatible (done ++ listens) → runList (entryStep fun listen => putAddr listen.1 listen.2) (collected done) listens =
      some (collected (done ++ listens))) ∧
    (¬ Compatible (done ++ listens) →
      runList (entryStep fun listen => putAddr listen.1 listen.2) (collected done) listens = none) := by
  induction listens generalizing done with
  | nil => exact ⟨fun _ => by rw [List.append_nil, runList], fun hn => absurd h (by rwa [List.append_nil] at hn)⟩
  | cons listen listens ih =>
    have happend : done ++ listen :: listens = done ++ [listen] ++ listens := by simp
    rw [runList, entryStep, putAddr_collected h]
    by_cases hc : Compatible (done ++ [listen])
    · obtain ⟨entry, hentry⟩ : ∃ entry, collected (done ++ [listen]) = some entry := by
        cases done <;> exact ⟨_, rfl⟩
      have hnext := ih hc
      rw [hentry] at hnext
      rw [if_pos ((compatible_concat h listen).mp hc), hentry, Option.map_some, Option.bind_some, happend]
      exact hnext
    · rw [if_neg (mt (compatible_concat h listen).mpr hc)]
      exact ⟨fun hall => absurd (Compatible.front (happend ▸ hall)) hc, fun _ => rfl⟩

/-- The listeners are all added exactly if those of each address go together. -/
theorem addListens_none (listens : List (S × ConfListener O)) :
    addListens listens = none ↔ ∃ sa, ¬ Compatible (listensAt listens sa) := by
  have hsim := runList_simulate
    (fun ports listen h => (addListen_book h listen).1) (fun ports listen ports' h => (addListen_book h listen).2 ports')
    Layout.nil listens
  have hbook : (∃ t', runList (bookStep (fun listen => listen.2.sockaddr) fun listen => putAddr listen.1 listen.2)
      (entryAt []) listens = some t') ↔ ∀ sa, ∃ entry, runList (entryStep fun listen => putAddr listen.1 listen.2)
      (entryAt [] sa) (listens.filter fun listen => listen.2.sockaddr = sa) = some entry := runList_book_some
  rw [← Option.map_eq_none_iff (f := entryAt), addListens, hsim.1, ← Option.not_isSome_iff_eq_none,
    Option.isSome_iff_exists, hbook]
  simp only [not_forall]
  refine exists_congr fun sa => ?_
  have hat := runList_collected Compatible.nil (listensAt listens sa)
  constructor
  · intro hnone hc
    exact hnone ⟨_, hat.1 hc⟩
  · rintro hc ⟨entry, hentry⟩
    have hnone := hat.2 hc
    cases hnone.symm.trans hentry

/-- Then an entry is what its own listeners have made of it. -/
theorem addListens_entries {listens : List (S × ConfListener O)} {ports : List (ConfPort S O)}
    (h : addListens listens = some ports) :
    Layout ports ∧ ∀ sa, entryAt ports sa = collected (listensAt listens sa) := by
  have hsim := runList_simulate
    (fun ports listen h => (addListen_book h listen).1) (fun ports listen ports' h => (addListen_book h listen).2 ports')
    Layout.nil listens
  refine ⟨hsim.2 ports h, fun sa => ?_⟩
  have hrun : runList (bookStep (fun listen => listen.2.sockaddr) (fun listen => putAddr listen.1 listen.2))
      (entryAt []) listens = some (entryAt ports) := by
    rw [← hsim.1]
    exact congrArg (Option.map entryAt) h
  have hentry := runList_book.mp hrun sa
  have hat := runList_collected Compatible.nil (listensAt listens sa)
  by_cases hc : Compatible (listensAt listens sa)
  · exact Option.some.inj (hentry.symm.trans (hat.1 hc))
  · cases (hat.2 hc).symm.trans hentry

/-- **Each address is what its own listeners make of it.** The listeners are turned down exactly if those of some
address do not go together: a server listens there twice, or options are set or a default server is named
twice. Else there is one entry for a port and one for an address, and every address has its servers in their order,
the options of the listener that sets them, or of the first, and the default server that is named, or the first
one; whatever other listeners stand between them. -/
theorem addListens_collected (listens : List (S × ConfListener O)) :
    (addListens listens = none ↔ ∃ sa, ¬ Compatible (listensAt listens sa)) ∧
      ∀ ports, addListens listens = some ports →
        Layout ports ∧ ∀ sa, entryAt ports sa = collected (listensAt listens sa) :=
  ⟨addListens_none listens, fun _ h => addListens_entries h⟩

end Run

end PgRest.Http
