import Mathlib.Data.List.Induction
import PgRest.Http.Ports

/-! Which server serves a local address, from the listeners that are handed over at the start to the
configuration of a connection. Between them are the ports, the order of their addresses, the sockets
and the tables by which `pgrest_http_conn_init` searches. The kernel gives a connection to the
socket that is bound to its local address, or else to the one that is bound to every address. -/
namespace PgRest.Http
open Lib

variable {F : Family} {S H O : Type}

/-- The listener that accepts a connection to a local address. -/
def accepting (listeners : List (Listener F S H)) (a : F.Addr) : Option (Listener F S H) :=
  (listeners.find? fun l => l.sockaddr = a).or (listeners.find? fun l => l.sockaddr = F.any)

/-- The configuration of a connection to a local address of a port. -/
def connConf (addrs : List (ConfAddr F S H)) (a : F.Addr) : Option (AddrConf S H) :=
  (accepting (portListeners addrs) a).bind fun l => connInit l (some a)

/-! ### The sockets of a port -/

/-- An address that is found is found by its key alone. -/
theorem PortAddrs.find_eq {addrs : List (ConfAddr F S H)} (h : PortAddrs addrs) {x : ConfAddr F S H} (hx : x ∈ addrs) :
    addrs.find? (fun y => y.sockaddr = x.sockaddr) = some x := find_of_nodup h.distinct hx

theorem portListeners_nodup {addrs : List (ConfAddr F S H)} (h : PortAddrs addrs) :
    ((portListeners addrs).map Listener.sockaddr).Nodup := by
  rw [(portListeners_addrs h).nodup_iff]
  split
  · exact h.distinct.sublist (List.filter_sublist.map _)
  · exact h.distinct

/-- A listener whose table has the address is the one bound to it, or the one bound to every address. -/
theorem listener_of_addr {addrs : List (ConfAddr F S H)} (h : PortAddrs addrs) {l : Listener F S H}
    (hl : l ∈ portListeners addrs) {a : F.Addr} (ha : a ∈ l.servers.map InAddr.addr) :
    l.sockaddr = a ∨ l.sockaddr = F.any := by
  obtain ⟨front, w, hmem, rfl, hw⟩ := listener_table h hl
  cases front with
  | nil => exact Or.inl (List.mem_singleton.mp ha).symm
  | cons x xs => exact Or.inr ((h.wildcard w (hmem w (by simp))).mp (hw (List.cons_ne_nil x xs)))

/-- The address of a listener is in its own table. -/
theorem listener_own {addrs : List (ConfAddr F S H)} (h : PortAddrs addrs) {l : Listener F S H}
    (hl : l ∈ portListeners addrs) : l.sockaddr ∈ l.servers.map InAddr.addr := by
  obtain ⟨front, w, -, rfl, -⟩ := listener_table h hl
  simp [ConfAddr.inAddr]

/-- An address is in the table of one listener. -/
theorem exists_listener {addrs : List (ConfAddr F S H)} (h : PortAddrs addrs) {x : ConfAddr F S H} (hx : x ∈ addrs) :
    ∃ l ∈ portListeners addrs, x.sockaddr ∈ l.servers.map InAddr.addr ∧
      ∀ m ∈ portListeners addrs, x.sockaddr ∈ m.servers.map InAddr.addr → m = l := by
  have htables : (portListeners addrs).flatMap (fun l => l.servers.map InAddr.addr) =
      (utilSort addrs).map ConfAddr.sockaddr := by
    rw [← List.map_flatMap, portListeners_tables h, List.map_map]
    rfl
  have hin : x.sockaddr ∈ (portListeners addrs).flatMap fun l => l.servers.map InAddr.addr := by
    rw [htables]
    exact List.mem_map_of_mem ((utilSort_perm addrs).mem_iff.mpr hx)
  obtain ⟨k, ⟨l, hk, hl⟩, hunique⟩ := exists_unique_index (htables ▸ h.sorted.distinct) hin
  refine ⟨l, List.mem_of_getElem? hk, hl, fun m hm hxm => ?_⟩
  obtain ⟨j, hj⟩ := List.getElem?_of_mem hm
  obtain rfl := hunique j ⟨m, hj, hxm⟩
  exact Option.some.inj (hj.symm.trans hk)

/-- A listener gives the configuration of an address that is in its table. -/
theorem connInit_mem {addrs : List (ConfAddr F S H)} (h : PortAddrs addrs) {l : Listener F S H}
    (hl : l ∈ portListeners addrs) {x : ConfAddr F S H} (hx : x ∈ addrs)
    (hin : x.sockaddr ∈ l.servers.map InAddr.addr) : connInit l (some x.sockaddr) = some x.inAddr.conf := by
  obtain ⟨front, w, hmem, rfl, hw⟩ := listener_table h hl
  have hwmem : w ∈ addrs := hmem w (by simp)
  rw [connInit_table x.sockaddr fun hne => (h.wildcard w hwmem).mp (hw hne)]
  cases hfind : front.find? fun y => y.sockaddr = x.sockaddr with
  | some y =>
    have hy := hmem y (List.mem_append_left _ (List.mem_of_find?_eq_some hfind))
    rw [h.unique hy hx (find_key_eq hfind)]
    rfl
  | none =>
    -- it is not before the last entry, so that it is the last one
    simp only [List.map_map, List.mem_map, List.mem_append, List.mem_singleton, Function.comp_apply] at hin
    obtain ⟨y, hy | rfl, hya⟩ := hin
    · exact absurd (decide_eq_true hya) (List.find?_eq_none.mp hfind y hy)
    · rw [h.unique hx hwmem hya.symm]
      rfl

/-- **An address of the port is served as it is configured**, whichever socket takes its connections. -/
theorem connConf_mem {addrs : List (ConfAddr F S H)} (h : PortAddrs addrs) {x : ConfAddr F S H} (hx : x ∈ addrs) :
    connConf addrs x.sockaddr = some x.inAddr.conf := by
  obtain ⟨l, hl, hin, hunique⟩ := exists_listener h hx
  have hmine : accepting (portListeners addrs) x.sockaddr = some l := by
    cases hfind : (portListeners addrs).find? fun l => l.sockaddr = x.sockaddr with
    | some m =>
      -- the one that is bound to the address has it in its table, as no other does
      have hm := List.mem_of_find?_eq_some hfind
      have hown := listener_own h hm
      rw [show m.sockaddr = x.sockaddr from find_key_eq hfind] at hown
      rw [accepting, hfind, Option.some_or, hunique m hm hown]
    | none =>
      have hne : l.sockaddr ≠ x.sockaddr := fun he =>
        List.find?_eq_none.mp hfind l hl (decide_eq_true he)
      have hany : l.sockaddr = F.any := (listener_of_addr h hl hin).resolve_left hne
      rw [accepting, hfind, Option.none_or, ← hany]
      exact find_of_nodup (portListeners_nodup h) hl
  rw [connConf, hmine, Option.bind_some]
  exact connInit_mem h hl hx hin

/-- An address the port does not have is served by the wildcard, if there is one. -/
theorem connConf_other {addrs : List (ConfAddr F S H)} (h : PortAddrs addrs) {a : F.Addr}
    (ha : ∀ x ∈ addrs, x.sockaddr ≠ a) :
    connConf addrs a = (addrs.find? fun x => x.sockaddr = F.any).map fun x => x.inAddr.conf := by
  have hlisten (l : Listener F S H) (hl : l ∈ portListeners addrs) : ∃ x ∈ addrs, x.sockaddr = l.sockaddr := by
    obtain ⟨front, w, hmem, rfl, -⟩ := listener_table h hl
    exact ⟨w, hmem w (by simp), rfl⟩
  have hnone : (portListeners addrs).find? (fun l => l.sockaddr = a) = none := by
    refine List.find?_eq_none.mpr fun l hl hla => ?_
    obtain ⟨x, hx, hxl⟩ := hlisten l hl
    exact ha x hx (hxl.trans (of_decide_eq_true hla))
  rw [connConf, accepting, hnone, Option.none_or]
  cases hfind : (portListeners addrs).find? fun l => l.sockaddr = F.any with
  | none =>
    -- the wildcard has a socket wherever it is configured
    have hwild : addrs.find? (fun x => x.sockaddr = F.any) = none := by
      refine List.find?_eq_none.mpr fun x hx hxa => ?_
      have hxw : x.wildcard = true := (h.wildcard x hx).mpr (of_decide_eq_true hxa)
      have hmem : x.sockaddr ∈ (portListeners addrs).map Listener.sockaddr := by
        rw [(portListeners_addrs h).mem_iff, if_pos (List.any_eq_true.mpr ⟨x, hx, hxw⟩)]
        exact List.mem_map_of_mem (List.mem_filter.mpr ⟨hx, by rw [hxw, Bool.or_true]⟩)
      obtain ⟨l, hl, hlx⟩ := List.mem_map.mp hmem
      exact List.find?_eq_none.mp hfind l hl (decide_eq_true (hlx.trans (of_decide_eq_true hxa)))
    rw [hwild]
    rfl
  | some l =>
    have hl := List.mem_of_find?_eq_some hfind
    have hany : l.sockaddr = F.any := find_key_eq hfind
    obtain ⟨x, hx, hxl⟩ := hlisten l hl
    obtain ⟨front, w, hmem, rfl, hw⟩ := listener_table h hl
    have hxw : x = w := h.unique hx (hmem w (by simp)) hxl
    have hfront : front.find? (fun x => x.sockaddr = a) = none :=
      List.find?_eq_none.mpr fun y hy hya => ha y (hmem y (List.mem_append_left _ hy)) (of_decide_eq_true hya)
    rw [Option.bind_some, connInit_table a fun _ => hany, hfront, ← hany, ← hxl, h.find_eq hx, hxw]
    rfl

/-- What a local address of a port is served as. -/
theorem connConf_eq {addrs : List (ConfAddr F S H)} (h : PortAddrs addrs) (a : F.Addr) :
    connConf addrs a = ((addrs.find? fun x => x.sockaddr = a).or (addrs.find? fun x => x.sockaddr = F.any)).map
      fun x => x.inAddr.conf := by
  cases hfind : addrs.find? fun x => x.sockaddr = a with
  | some x =>
    have hxa : x.sockaddr = a := find_key_eq hfind
    rw [← hxa, connConf_mem h (List.mem_of_find?_eq_some hfind)]
    rfl
  | none =>
    rw [Option.none_or]
    exact connConf_other h fun x hx hxa => List.find?_eq_none.mp hfind x hx (decide_eq_true hxa)

/-! ### From the listeners to the connection -/

/-- The address family of a port. -/
def Family.addressFamily : Family → AddressFamily
  | .inet => .inet
  | .inet6 => .inet6

def Family.sockaddr : (F : Family) → UInt16 → F.Addr → Sockaddr
  | .inet, port, addr => .inet port addr
  | .inet6, port, addr => .inet6 port addr

/-- `sin_addr` or `sin6_addr`; in an address of another family there is none to be read. -/
def Sockaddr.addr : (F : Family) → Sockaddr → F.Addr
  | .inet, .inet _ addr => addr
  | .inet6, .inet6 _ addr => addr
  | F, _ => F.any

/-- `pgrest_http_server_names`: where servers have a name in common it stands for the last of them. -/
def serverNames (names : S → List Bytes) (servers : List S) : Bytes → Option S :=
  servers.foldl (fun hash server => (names server).foldl (fun hash name => Function.update hash name (some server)) hash)
    fun _ => none

/-- The table of names is filled where there is more than one server. -/
def ListenAddr.hash (names : S → List Bytes) (addr : ListenAddr S O) : Bytes → Option S :=
  if addr.servers.length > 1 then serverNames names addr.servers else fun _ => none

/-- The address as the listeners are made from it. -/
def ListenAddr.confAddr (F : Family) (names : S → List Bytes) (addr : ListenAddr S O) :
    ConfAddr F S (Bytes → Option S) where
  sockaddr := addr.sockaddr.addr F
  bind := addr.opt.bind
  wildcard := addr.opt.wildcard
  ssl := addr.opt.ssl
  http2 := addr.opt.http2
  defaultServer := addr.defaultServer
  hash := addr.hash names

/-- What the connections to an address are to get: where it has several servers, a name stands for the last of
them that has it. -/
def ListenAddr.addrConf (names : S → List Bytes) (addr : ListenAddr S O) : AddrConf S (Bytes → Option S) where
  defaultServer := addr.defaultServer
  ssl := addr.opt.ssl
  http2 := addr.opt.http2
  virtualNames name :=
    if addr.servers.length > 1 then addr.servers.reverse.find? fun server => name ∈ names server else none

/-- What a connection to a local address gets once `pgrest_http_init` is done with the ports. -/
def served (names : S → List Bytes) (ports : List (ConfPort S O)) (F : Family) (number : UInt16) (a : F.Addr) :
    Option (AddrConf S (Bytes → Option S)) :=
  (ports.find? fun port => port.key = (F.addressFamily, number)).bind fun port =>
    connConf (port.addrs.map (ListenAddr.confAddr F names)) a

theorem Sockaddr.portKey_sockaddr (F : Family) (number : UInt16) (a : F.Addr) :
    (F.sockaddr number a).portKey = (F.addressFamily, number) := by
  cases F <;> rfl

theorem Sockaddr.addr_sockaddr (F : Family) (number : UInt16) (a : F.Addr) : (F.sockaddr number a).addr F = a := by
  cases F <;> rfl

/-- An address of the port is known by `sin_addr` alone. -/
theorem Sockaddr.eq_sockaddr {sa : Sockaddr} {number : UInt16} (h : sa.portKey = (F.addressFamily, number)) :
    F.sockaddr number (sa.addr F) = sa := by
  cases F <;> cases sa <;>
    simp only [portKey, family, getPort, Family.addressFamily, Prod.mk.injEq, reduceCtorEq, false_and] at h
  all_goals
    obtain ⟨-, rfl⟩ := h
    rfl

theorem Sockaddr.addr_iff {sa : Sockaddr} {number : UInt16} (h : sa.portKey = (F.addressFamily, number)) (a : F.Addr) :
    sa.addr F = a ↔ sa = F.sockaddr number a := by
  constructor
  · rintro rfl
    exact (eq_sockaddr h).symm
  · rintro rfl
    exact addr_sockaddr F number a

/-- A name stands for the last server that has it. -/
theorem serverNames_eq (names : S → List Bytes) (servers : List S) (name : Bytes) :
    serverNames names servers name = servers.reverse.find? fun server => name ∈ names server := by
  have hserver (server : S) (texts : List Bytes) (hash : Bytes → Option S) :
      texts.foldl (fun hash name => Function.update hash name (some server)) hash name =
        if name ∈ texts then some server else hash name := by
    induction texts generalizing hash with
    | nil => rfl
    | cons text texts ih =>
      rw [List.foldl_cons, ih]
      by_cases hmem : name ∈ texts
      · simp [hmem]
      · by_cases htext : name = text <;> simp [hmem, htext, Function.update]
  induction servers using List.reverseRecOn with
  | nil => rfl
  | append_singleton servers server ih =>
    rw [serverNames, List.foldl_concat, hserver, List.reverse_append, List.reverse_singleton, List.singleton_append,
      List.find?_cons, ← ih]
    by_cases hmem : name ∈ names server
    · simp [hmem]
    · simp [hmem, serverNames]

theorem ListenAddr.confAddr_conf (names : S → List Bytes) (addr : ListenAddr S O) :
    (addr.confAddr F names).inAddr.conf = addr.addrConf names := by
  have hhash : addr.hash names = (addr.addrConf names).virtualNames := by
    funext name
    rw [hash, addrConf]
    split
    · exact serverNames_eq names addr.servers name
    · rfl
  rw [ConfAddr.inAddr, confAddr, hhash, addrConf]

/-- The options of an address are those of one of its listeners, the merged flags apart. -/
theorem collected_opt {listens : List (S × ConfListener O)} {addr : ListenAddr S O} (h : collected listens = some addr) :
    ∃ listen ∈ listens, addr.opt.wildcard = listen.2.wildcard ∧ addr.sockaddr = listen.2.sockaddr := by
  cases listens with
  | nil => cases h
  | cons first others =>
    cases h
    refine ⟨_, ?_, rfl, rfl⟩
    cases hfind : (first :: others).find? (·.2.set) with
    | none => exact List.mem_cons_self
    | some listen => exact List.mem_of_find?_eq_some hfind

/-- The listeners of a port are set up from addresses as they should be. -/
theorem ConfPort.Sound.portAddrs {port : ConfPort S O} (h : port.Sound) {number : UInt16}
    (hkey : port.key = (F.addressFamily, number)) (names : S → List Bytes)
    (hwild : ∀ addr ∈ port.addrs, addr.opt.wildcard = true ↔ addr.sockaddr = F.sockaddr number F.any) :
    PortAddrs (port.addrs.map (ListenAddr.confAddr F names)) where
  nonempty := mt List.map_eq_nil_iff.mp h.nonempty
  distinct := by
    rw [List.map_map]
    have hinj : ∀ addr ∈ port.addrs, ∀ addr' ∈ port.addrs, addr.sockaddr.addr F = addr'.sockaddr.addr F →
        addr.sockaddr = addr'.sockaddr := by
      intro addr haddr addr' haddr' he
      rw [← Sockaddr.eq_sockaddr ((h.own addr haddr).trans hkey), he,
        Sockaddr.eq_sockaddr ((h.own addr' haddr').trans hkey)]
    refine List.Nodup.map_on (fun addr haddr addr' haddr' he => ?_) h.distinct.of_map
    exact List.inj_on_of_nodup_map h.distinct haddr haddr' (hinj addr haddr addr' haddr' he)
  wildcard := by
    rintro _ hx
    obtain ⟨addr, haddr, rfl⟩ := List.mem_map.mp hx
    exact (hwild addr haddr).trans (Sockaddr.addr_iff ((h.own addr haddr).trans hkey) _).symm

/-- What is found among the addresses of the port. -/
theorem ConfPort.Sound.find_confAddr {port : ConfPort S O} (h : port.Sound) {number : UInt16}
    (hkey : port.key = (F.addressFamily, number)) (names : S → List Bytes) (a : F.Addr) :
    (port.addrs.map (ListenAddr.confAddr F names)).find? (fun x => x.sockaddr = a) =
      (port.addrs.find? fun addr => addr.sockaddr = F.sockaddr number a).map (ListenAddr.confAddr F names) := by
  rw [List.find?_map]
  refine congrArg _ (find_congr fun addr haddr => ?_)
  exact Bool.eq_iff_iff.mpr (by
    rw [Function.comp_apply, decide_eq_true_iff, decide_eq_true_iff]
    exact Sockaddr.addr_iff ((h.own addr haddr).trans hkey) a)

/-- **Every local address is served as the listeners say.** A connection to a local address gets what the listeners at
this address make of it, in their order, whatever else is listened on and whichever socket it comes in by; where no
listener is at this address it gets what those at the any-address make of that, and where there are none either it
gets no configuration. -/
theorem served_eq [DecidableEq S] {listens : List (S × ConfListener O)} {ports : List (ConfPort S O)}
    (h : addListens listens = some ports) (number : UInt16)
    (hwild : ∀ listen ∈ listens, listen.2.sockaddr.portKey = (F.addressFamily, number) →
      (listen.2.wildcard = true ↔ listen.2.sockaddr = F.sockaddr number F.any))
    (names : S → List Bytes) (a : F.Addr) :
    served names ports F number a =
      ((collected (listensAt listens (F.sockaddr number a))).or
        (collected (listensAt listens (F.sockaddr number F.any)))).map (ListenAddr.addrConf names) := by
  obtain ⟨hlayout, hentries⟩ := addListens_entries h
  rw [← hentries, ← hentries, entryAt, entryAt, Sockaddr.portKey_sockaddr, Sockaddr.portKey_sockaddr, served]
  cases hfind : ports.find? fun port => port.key = (F.addressFamily, number) with
  | none => rfl
  | some port =>
    have hport := List.mem_of_find?_eq_some hfind
    have hkey : port.key = (F.addressFamily, number) := find_key_eq hfind
    have hsound := hlayout.sound port hport
    have hflags : ∀ addr ∈ port.addrs, addr.opt.wildcard = true ↔ addr.sockaddr = F.sockaddr number F.any := by
      intro addr haddr
      have hcollected := (hentries addr.sockaddr).symm.trans (hlayout.entryAt_mem hport haddr)
      obtain ⟨listen, hlisten, hw, hsa⟩ := collected_opt hcollected
      rw [hw, hsa]
      refine hwild listen (List.mem_filter.mp hlisten).1 ?_
      rw [← hsa, hsound.own addr haddr, hkey]
    rw [Option.bind_some, Option.bind_some, Option.bind_some,
      connConf_eq (hsound.portAddrs hkey names hflags), hsound.find_confAddr hkey, hsound.find_confAddr hkey,
      ← Option.map_or, Option.map_map]
    exact congrArg (fun f => Option.map f _) (funext (ListenAddr.confAddr_conf names))

/-- 127.0.0.1 and 10.0.0.1 -/
def localhost : Family.inet.Addr := (0x7f000001 : BitVec 32)

def otherHost : Family.inet.Addr := (0x0a000001 : BitVec 32)

/-- Servers 1 and 2 at the any-address, where 2 is the default, and server 3 at 127.0.0.1. -/
def threeListens : List (Nat × ConfListener Unit) :=
  [(1, ⟨.inet 80 Family.inet.any, false, false, false, true, false, false, ()⟩),
    (3, ⟨.inet 80 localhost, false, false, false, false, false, false, ()⟩),
    (2, ⟨.inet 80 Family.inet.any, true, true, true, true, false, true, ()⟩)]

theorem served_three : ∃ ports, addListens threeListens = some ports ∧
    (served (fun _ => []) ports .inet 80 localhost).map AddrConf.defaultServer = some 3 ∧
    (served (fun _ => []) ports .inet 80 otherHost).map AddrConf.defaultServer = some 2 := by
  obtain ⟨ports, hports⟩ : ∃ ports, addListens threeListens = some ports := ⟨_, rfl⟩
  have hwild : ∀ listen ∈ threeListens, listen.2.sockaddr.portKey = (Family.inet.addressFamily, 80) →
      (listen.2.wildcard = true ↔ listen.2.sockaddr = Family.inet.sockaddr 80 Family.inet.any) := by
    unfold threeListens
    decide
  have hserved := served_eq hports 80 hwild fun _ => []
  refine ⟨ports, hports, ?_, ?_⟩
  · rw [hserved localhost]
    rfl
  · rw [hserved otherHost]
    rfl

end PgRest.Http
