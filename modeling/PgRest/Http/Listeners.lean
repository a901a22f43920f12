import PgRest.Lib.Sort
import Mathlib.Data.List.Nodup
import Mathlib.Data.List.Pairwise

/-! The listeners of a port, and the server configuration a connection on one of them gets.
Without a wildcard address every address has a listener of its own. With one, the addresses that
are not bound themselves are served by the listener of the wildcard, whose table holds them before
the wildcard. -/
namespace PgRest.Http
open Lib

/-- `AF_INET` or `AF_INET6`. -/
inductive Family | inet | inet6

/-- `in_addr_t` or `struct in6_addr`. -/
def Family.Addr : Family → Type
  | inet => BitVec 32
  | inet6 => BitVec 128

variable {F : Family}

instance : DecidableEq F.Addr :=
  match F with
  | .inet => inferInstanceAs (DecidableEq (BitVec 32))
  | .inet6 => inferInstanceAs (DecidableEq (BitVec 128))

/-- `INADDR_ANY` or `in6addr_any`. -/
def Family.any : (F : Family) → F.Addr
  | .inet => (0 : BitVec 32)
  | .inet6 => (0 : BitVec 128)

/-- `pgrest_http_conf_addr_t`; `S` is a server configuration and `H` a table of server names. -/
structure ConfAddr (F : Family) (S H : Type) where
  sockaddr : F.Addr
  bind : Bool
  wildcard : Bool
  ssl : Bool
  http2 : Bool
  defaultServer : S
  hash : H

/-- `pgrest_http_addr_conf_t`. -/
structure AddrConf (S H : Type) where
  defaultServer : S
  ssl : Bool
  http2 : Bool
  virtualNames : H

/-- `pgrest_http_in_addr_t`, or `pgrest_http_in6_addr_t`. -/
structure InAddr (F : Family) (S H : Type) where
  addr : F.Addr
  conf : AddrConf S H

/-- The part of `pgrest_listener_t` that connections are set up from: its address, and the
`addrs` of its `servers`. -/
structure Listener (F : Family) (S H : Type) where
  sockaddr : F.Addr
  servers : List (InAddr F S H)

variable {S H : Type}

/-- `pgrest_http_cmp_conf_addrs` -/
def cmpConfAddrs (first second : ConfAddr F S H) : Int :=
  if first.wildcard then 1
  else if second.wildcard then -1
  else if first.bind && !second.bind then -1
  else if !first.bind && second.bind then 1
  else 0

/-- `pgrest_util_sort` of the addresses of a port. -/
def utilSort (addrs : List (ConfAddr F S H)) : List (ConfAddr F S H) := insertionSort cmpConfAddrs addrs

/-- One entry of the table. -/
def ConfAddr.inAddr (a : ConfAddr F S H) : InAddr F S H :=
  ⟨a.sockaddr, a.defaultServer, a.ssl, a.http2, a.hash⟩

/-- `pgrest_http_add_addrs`, and `pgrest_http_add_addrs6`, for a table of `naddrs` entries. -/
def addAddrs (naddrs : Nat) (addr : List (ConfAddr F S H)) : List (InAddr F S H) :=
  (addr.take naddrs).map ConfAddr.inAddr

/-- The loop of `pgrest_http_init_listener`; `addr` moves on and `last` goes down with it, so
what is left of the array is the list. -/
def initListenerLoop (bindWildcard : Bool) (addr : List (ConfAddr F S H)) (i : Nat) :
    List (Listener F S H) :=
  if h : i < addr.length then
    if bindWildcard && !addr[i].bind then initListenerLoop bindWildcard addr (i + 1)
    else ⟨addr[i].sockaddr, addAddrs (i + 1) addr⟩ :: initListenerLoop bindWildcard addr.tail i
  else []
termination_by addr.length - i
decreasing_by all_goals grind

/-- `pgrest_http_init_listener`: the wildcard is bound. -/
def initListener (addr : List (ConfAddr F S H)) : List (Listener F S H) :=
  match addr.getLast? with
  | none => []
  | some last =>
    if last.wildcard then initListenerLoop true (addr.dropLast ++ [{ last with bind := true }]) 0
    else initListenerLoop false addr 0

/-- What `pgrest_http_optimize_servers` does for a port. -/
def portListeners (addrs : List (ConfAddr F S H)) : List (Listener F S H) :=
  initListener (utilSort addrs)

/-- `pgrest_conn_local_sockaddr`: `getsockname` is asked when the listener is on the any-address. -/
def connLocalSockaddr (localSockaddr : F.Addr) (getsockname : Option F.Addr) : Option F.Addr :=
  if localSockaddr = F.any then getsockname else some localSockaddr

/-- The search of `pgrest_http_conn_init`, which never looks at the last entry. -/
def searchAddrs (a : F.Addr) : List (InAddr F S H) → Option (AddrConf S H)
  | [] => none
  | [x] => some x.conf
  | x :: y :: addrs => if x.addr = a then some x.conf else searchAddrs a (y :: addrs)

/-- The configuration `pgrest_http_conn_init` gives a connection, `none` when it closes it. -/
def connInit (listener : Listener F S H) (getsockname : Option F.Addr) : Option (AddrConf S H) :=
  if listener.servers.length > 1 then
    (connLocalSockaddr listener.sockaddr getsockname).bind fun a => searchAddrs a listener.servers
  else listener.servers.head?.map InAddr.conf

/-- The addresses of a port as `pgrest_http_add_listen` leaves them. -/
structure PortAddrs (addrs : List (ConfAddr F S H)) : Prop where
  nonempty : addrs ≠ []
  distinct : (addrs.map ConfAddr.sockaddr).Nodup
  wildcard : ∀ x ∈ addrs, x.wildcard = true ↔ x.sockaddr = F.any

/-! ### The order of the addresses -/

/-- Bound addresses, the others, the wildcard. -/
def ConfAddr.rank (x : ConfAddr F S H) : Nat := if x.wildcard then 2 else if x.bind then 0 else 1

theorem ConfAddr.rank_wildcard (x : ConfAddr F S H) (h : x.wildcard = true) : x.rank = 2 := if_pos h

theorem ConfAddr.rank_open (x : ConfAddr F S H) (h : x.wildcard = false) : x.rank < 2 := by
  rw [rank, h]
  cases x.bind <;> decide

/-- The comparison is not symmetric on two wildcards, and goes by rank on any other two. -/
theorem cmpConfAddrs_byRank {x y : ConfAddr F S H} (h : ¬(x.wildcard = true ∧ y.wildcard = true)) :
    ByRank cmpConfAddrs ConfAddr.rank x y := by
  rw [ByRank, cmpConfAddrs, ConfAddr.rank, ConfAddr.rank]
  cases hx : x.wildcard <;> cases hy : y.wildcard <;> cases x.bind <;> cases y.bind <;> simp_all

theorem PortAddrs.pairwise {addrs : List (ConfAddr F S H)} (h : PortAddrs addrs) :
    addrs.Pairwise fun x y => ¬(x.wildcard = true ∧ y.wildcard = true) := by
  refine (List.pairwise_map.mp h.distinct).imp_of_mem fun {x y} hx hy hne hboth => ?_
  exact hne (((h.wildcard x hx).mp hboth.1).trans ((h.wildcard y hy).mp hboth.2).symm)

theorem utilSort_perm (addrs : List (ConfAddr F S H)) : (utilSort addrs).Perm addrs :=
  insertionSort_perm cmpConfAddrs addrs

/-- Sorting keeps what is known of the addresses. -/
theorem PortAddrs.sorted {addrs : List (ConfAddr F S H)} (h : PortAddrs addrs) :
    PortAddrs (utilSort addrs) where
  nonempty hnil := h.nonempty (List.nil_perm.mp (hnil ▸ utilSort_perm addrs))
  distinct := ((utilSort_perm addrs).map _).nodup_iff.mpr h.distinct
  wildcard x hx := h.wildcard x ((utilSort_perm addrs).mem_iff.mp hx)

theorem PortAddrs.ranked {addrs : List (ConfAddr F S H)} (h : PortAddrs addrs) :
    (utilSort addrs).Pairwise fun x y => x.rank ≤ y.rank :=
  insertionSort_sorted (h.pairwise.imp cmpConfAddrs_byRank)

/-- Bound addresses come first. -/
theorem split_bind {addrs : List (ConfAddr F S H)} (hranked : addrs.Pairwise fun x y => x.rank ≤ y.rank)
    (hwild : ∀ x ∈ addrs, x.wildcard = false) :
    ∃ bound others, addrs = bound ++ others ∧ (∀ x ∈ bound, x.bind = true) ∧
      ∀ x ∈ others, x.bind = false := by
  induction addrs with
  | nil => exact ⟨[], [], rfl, by simp, by simp⟩
  | cons x xs ih =>
    obtain ⟨hx, hxs⟩ := List.pairwise_cons.mp hranked
    obtain ⟨hxw, hxsw⟩ := List.forall_mem_cons.mp hwild
    cases hb : x.bind with
    | true =>
      obtain ⟨bound, others, rfl, hbound, hothers⟩ := ih hxs hxsw
      exact ⟨x :: bound, others, rfl, List.forall_mem_cons.mpr ⟨hb, hbound⟩, hothers⟩
    | false =>
      refine ⟨[], x :: xs, rfl, by simp, List.forall_mem_cons.mpr ⟨hb, fun y hy => ?_⟩⟩
      have hle := hx y hy
      simp only [ConfAddr.rank, hxw, hxsw y hy, hb] at hle
      cases hyb : y.bind <;> simp_all

theorem utilSort_open {addrs : List (ConfAddr F S H)} (hwild : addrs.any ConfAddr.wildcard = false) :
    ∀ x ∈ utilSort addrs, x.wildcard = false :=
  fun x hx => Bool.eq_false_iff.mpr (List.any_eq_false.mp hwild x ((utilSort_perm addrs).mem_iff.mp hx))

/-- **Sorted by the comparison, a wildcard is last and the bound addresses are first.** -/
theorem utilSort_wildcard {addrs : List (ConfAddr F S H)} (h : PortAddrs addrs)
    (hwild : addrs.any ConfAddr.wildcard = true) :
    ∃ bound others w, utilSort addrs = bound ++ others ++ [w] ∧ (∀ x ∈ bound, x.bind = true) ∧
      (∀ x ∈ others, x.bind = false) ∧ (∀ x ∈ bound ++ others, x.wildcard = false) ∧
      w.wildcard = true := by
  obtain ⟨w, hw, hww⟩ := List.any_eq_true.mp hwild
  have hmem : w ∈ utilSort addrs := (utilSort_perm addrs).mem_iff.mpr hw
  obtain ⟨front, back, hsplit⟩ := List.append_of_mem hmem
  have hranked := h.ranked
  have hpair := h.sorted.pairwise
  rw [hsplit] at hranked hpair
  obtain ⟨hfront, hback, hacross⟩ := List.pairwise_append.mp hranked
  -- nothing stands behind the wildcard, as it would be a second one
  have hnil : back = [] := by
    refine List.eq_nil_iff_forall_not_mem.mpr fun y hy => ?_
    have hrank := (List.pairwise_cons.mp hback).1 y hy
    have hne := (List.pairwise_cons.mp (List.pairwise_append.mp hpair).2.1).1 y hy
    have hyw : y.wildcard = false := Bool.eq_false_iff.mpr fun hyw => hne ⟨hww, hyw⟩
    rw [w.rank_wildcard hww] at hrank
    exact absurd (y.rank_open hyw) (by omega)
  subst hnil
  have hopen : ∀ x ∈ front, x.wildcard = false := fun x hx =>
    Bool.eq_false_iff.mpr fun hxw => (List.pairwise_append.mp hpair).2.2 x hx w List.mem_cons_self ⟨hxw, hww⟩
  obtain ⟨bound, others, rfl, hbound, hothers⟩ := split_bind hfront hopen
  exact ⟨bound, others, w, hsplit, hbound, hothers, hopen, hww⟩

/-! ### The listeners -/

/-- A listener with a table of one address. -/
def ConfAddr.listener (x : ConfAddr F S H) : Listener F S H := ⟨x.sockaddr, [x.inAddr]⟩

theorem loop_stands {bindWildcard : Bool} {x : ConfAddr F S H} (addr : List (ConfAddr F S H))
    (hx : (bindWildcard && !x.bind) = false) :
    initListenerLoop bindWildcard (x :: addr) 0 = x.listener :: initListenerLoop bindWildcard addr 0 := by
  rw [initListenerLoop, dif_pos (by simp), List.getElem_cons_zero, hx]
  rfl

theorem loop_bound (bindWildcard : Bool) {bound : List (ConfAddr F S H)} (addr : List (ConfAddr F S H))
    (hbound : ∀ x ∈ bound, (bindWildcard && !x.bind) = false) :
    initListenerLoop bindWildcard (bound ++ addr) 0 =
      bound.map ConfAddr.listener ++ initListenerLoop bindWildcard addr 0 := by
  induction bound with
  | nil => rfl
  | cons x xs ih =>
    obtain ⟨hx, hxs⟩ := List.forall_mem_cons.mp hbound
    rw [List.cons_append, loop_stands _ hx, ih hxs]
    rfl

theorem loop_nil (bindWildcard : Bool) (i : Nat) :
    initListenerLoop bindWildcard ([] : List (ConfAddr F S H)) i = [] := by
  rw [initListenerLoop, dif_neg (by simp)]

/-- The cursor walks over the addresses that are not bound and stays where it is. -/
theorem loop_others (passed others : List (ConfAddr F S H)) {w : ConfAddr F S H}
    (hothers : ∀ x ∈ others, x.bind = false) (hw : w.bind = true) :
    initListenerLoop true (passed ++ others ++ [w]) passed.length =
      [⟨w.sockaddr, (passed ++ others ++ [w]).map ConfAddr.inAddr⟩] := by
  induction others generalizing passed with
  | nil =>
    have hrest : initListenerLoop true (passed ++ [w]).tail passed.length = [] := by
      rw [initListenerLoop, dif_neg (by simp)]
    have htable : addAddrs (passed.length + 1) (passed ++ [w]) = (passed ++ [w]).map ConfAddr.inAddr := by
      rw [addAddrs, List.take_of_length_le (by simp)]
    rw [List.append_nil, initListenerLoop, dif_pos (by simp), hrest, htable]
    simp [hw]
  | cons x xs ih =>
    obtain ⟨hx, hxs⟩ := List.forall_mem_cons.mp hothers
    have hnext := ih (passed ++ [x]) hxs
    rw [List.length_append, List.append_assoc passed] at hnext
    rw [initListenerLoop, dif_pos (by simp)]
    simpa [hx] using hnext

/-- Without a wildcard every address has its own listener. -/
theorem portListeners_open {addrs : List (ConfAddr F S H)} (h : PortAddrs addrs)
    (hwild : addrs.any ConfAddr.wildcard = false) :
    portListeners addrs = (utilSort addrs).map ConfAddr.listener := by
  have hlast := List.getLast?_eq_some_getLast h.sorted.nonempty
  have hopen := utilSort_open hwild _ (List.getLast_mem h.sorted.nonempty)
  rw [portListeners, initListener, hlast]
  simp only [hopen, Bool.false_eq_true, if_false]
  have hloop : initListenerLoop false (utilSort addrs ++ []) 0 = _ := loop_bound false [] (by simp)
  rw [List.append_nil, loop_nil, List.append_nil] at hloop
  exact hloop

/-- With one, its listener has the addresses that are not bound in its table. -/
theorem portListeners_wildcard {addrs bound others : List (ConfAddr F S H)} {w : ConfAddr F S H}
    (hsort : utilSort addrs = bound ++ others ++ [w]) (hbound : ∀ x ∈ bound, x.bind = true)
    (hothers : ∀ x ∈ others, x.bind = false) (hw : w.wildcard = true) :
    portListeners addrs =
      bound.map ConfAddr.listener ++ [⟨w.sockaddr, (others ++ [w]).map ConfAddr.inAddr⟩] := by
  have hloop := loop_others [] others (w := { w with bind := true }) hothers rfl
  rw [portListeners, initListener, hsort, List.getLast?_concat]
  dsimp only
  rw [if_pos hw, List.dropLast_concat, List.append_assoc, loop_bound true _ fun x hx => by simp [hbound x hx]]
  rw [List.map_append] at hloop ⊢
  exact congrArg _ hloop

/-- The listeners there are. -/
theorem portListeners_addrs {addrs : List (ConfAddr F S H)} (h : PortAddrs addrs) :
    ((portListeners addrs).map Listener.sockaddr).Perm
      ((if addrs.any ConfAddr.wildcard then addrs.filter fun x => x.bind || x.wildcard else addrs).map
        ConfAddr.sockaddr) := by
  have hperm := utilSort_perm addrs
  cases hwild : addrs.any ConfAddr.wildcard with
  | false =>
    rw [portListeners_open h hwild, List.map_map]
    exact hperm.map _
  | true =>
    obtain ⟨bound, others, w, hsort, hbound, hothers, hopen, hw⟩ := utilSort_wildcard h hwild
    have hfilter : (utilSort addrs).filter (fun x => x.bind || x.wildcard) = bound ++ [w] := by
      have hb : bound.filter (fun x => x.bind || x.wildcard) = bound :=
        List.filter_eq_self.mpr fun x hx => by rw [hbound x hx, Bool.true_or]
      have ho : others.filter (fun x => x.bind || x.wildcard) = [] :=
        List.filter_eq_nil_iff.mpr fun x hx => by
          rw [hothers x hx, hopen x (List.mem_append_right bound hx)]
          decide
      rw [hsort, List.filter_append, List.filter_append, hb, ho, List.append_nil]
      simp [hw]
    rw [portListeners_wildcard hsort hbound hothers hw, if_pos rfl]
    have hlisted := (hperm.filter fun x => x.bind || x.wildcard).map ConfAddr.sockaddr
    rw [hfilter] at hlisted
    simpa [ConfAddr.listener, Function.comp_def] using hlisted

/-! ### The tables -/

theorem flatMap_listener (addrs : List (ConfAddr F S H)) :
    (addrs.map ConfAddr.listener).flatMap Listener.servers = addrs.map ConfAddr.inAddr := by
  induction addrs with
  | nil => rfl
  | cons x xs ih => rw [List.map_cons, List.flatMap_cons, ih, List.map_cons]; rfl

/-- Together the tables hold the addresses of the port. -/
theorem portListeners_tables {addrs : List (ConfAddr F S H)} (h : PortAddrs addrs) :
    (portListeners addrs).flatMap Listener.servers = (utilSort addrs).map ConfAddr.inAddr := by
  cases hwild : addrs.any ConfAddr.wildcard with
  | false => rw [portListeners_open h hwild, flatMap_listener]
  | true =>
    obtain ⟨bound, others, w, hsort, hbound, hothers, -, hw⟩ := utilSort_wildcard h hwild
    rw [portListeners_wildcard hsort hbound hothers hw, List.flatMap_append, flatMap_listener, hsort]
    simp

/-- A table ends with the address of its listener, which is the wildcard if there are others. -/
theorem listener_table {addrs : List (ConfAddr F S H)} (h : PortAddrs addrs) {l : Listener F S H}
    (hl : l ∈ portListeners addrs) :
    ∃ front w, (∀ x ∈ front ++ [w], x ∈ addrs) ∧ l = ⟨w.sockaddr, (front ++ [w]).map ConfAddr.inAddr⟩ ∧
      (front ≠ [] → w.wildcard = true) := by
  have hmem := fun x => (utilSort_perm addrs).mem_iff (a := x)
  have hsingle : ∀ x ∈ utilSort addrs, x.listener = l → ∃ front w, (∀ x ∈ front ++ [w], x ∈ addrs) ∧
      l = ⟨w.sockaddr, (front ++ [w]).map ConfAddr.inAddr⟩ ∧ (front ≠ [] → w.wildcard = true) := by
    intro x hx hlx
    exact ⟨[], x, by simpa using (hmem x).mp hx, hlx.symm, fun hne => absurd rfl hne⟩
  cases hwild : addrs.any ConfAddr.wildcard with
  | false =>
    rw [portListeners_open h hwild] at hl
    obtain ⟨x, hx, hlx⟩ := List.mem_map.mp hl
    exact hsingle x hx hlx
  | true =>
    obtain ⟨bound, others, w, hsort, hbound, hothers, -, hw⟩ := utilSort_wildcard h hwild
    rw [portListeners_wildcard hsort hbound hothers hw] at hl
    rcases List.mem_append.mp hl with hl | hl
    · obtain ⟨x, hx, hlx⟩ := List.mem_map.mp hl
      exact hsingle x (by simp [hsort, hx]) hlx
    · refine ⟨others, w, fun x hx => (hmem x).mp ?_, List.mem_singleton.mp hl, fun _ => hw⟩
      rw [hsort, List.append_assoc]
      exact List.mem_append_right bound hx

theorem searchAddrs_table (a : F.Addr) (front : List (ConfAddr F S H)) (w : ConfAddr F S H) :
    searchAddrs a ((front ++ [w]).map ConfAddr.inAddr) =
      some ((front.find? fun x => x.sockaddr = a).getD w).inAddr.conf := by
  induction front with
  | nil => rfl
  | cons x xs ih =>
    have hcons : searchAddrs a (((x :: xs) ++ [w]).map ConfAddr.inAddr) =
        if x.sockaddr = a then some x.inAddr.conf
        else searchAddrs a ((xs ++ [w]).map ConfAddr.inAddr) := by
      cases xs <;> rfl
    rw [hcons, ih, List.find?_cons]
    by_cases hx : x.sockaddr = a <;> simp [hx]

/-- The first entry with the address, and the last one when there is none. -/
theorem connInit_table {front : List (ConfAddr F S H)} {w : ConfAddr F S H} (a : F.Addr)
    (hw : front ≠ [] → w.sockaddr = F.any) :
    connInit ⟨w.sockaddr, (front ++ [w]).map ConfAddr.inAddr⟩ (some a) =
      some ((front.find? fun x => x.sockaddr = a).getD w).inAddr.conf := by
  cases front with
  | nil => rfl
  | cons x xs =>
    rw [connInit, if_pos (by simp), connLocalSockaddr, if_pos (hw (by simp)), Option.bind_some,
      searchAddrs_table]

theorem PortAddrs.unique {addrs : List (ConfAddr F S H)} (h : PortAddrs addrs) {x y : ConfAddr F S H}
    (hx : x ∈ addrs) (hy : y ∈ addrs) (hxy : x.sockaddr = y.sockaddr) : x = y :=
  List.inj_on_of_nodup_map h.distinct hx hy hxy

/-- What several lists hold together without repetition is in exactly one of them. -/
theorem exists_unique_index {α β : Type} {lists : List α} {f : α → List β} {b : β}
    (hall : (lists.flatMap f).Nodup) (hb : b ∈ lists.flatMap f) :
    ∃! k : Nat, ∃ l, lists[k]? = some l ∧ b ∈ f l := by
  have hdisjoint : ∀ (j k : Nat) l m, j < k → lists[j]? = some l → lists[k]? = some m → b ∈ f l → b ∉ f m := by
    intro j k l m hjk hl hm hbl hbm
    obtain ⟨hj, rfl⟩ := List.getElem?_eq_some_iff.mp hl
    obtain ⟨hk, rfl⟩ := List.getElem?_eq_some_iff.mp hm
    exact List.pairwise_iff_getElem.mp (List.nodup_flatMap.mp hall).2 j k hj hk hjk hbl hbm
  obtain ⟨l, hl, hbl⟩ := List.mem_flatMap.mp hb
  obtain ⟨k, hk⟩ := List.getElem?_of_mem hl
  refine ⟨k, ⟨l, hk, hbl⟩, fun j hj => ?_⟩
  obtain ⟨m, hm, hbm⟩ := hj
  rcases Nat.lt_trichotomy j k with hlt | heq | hgt
  · exact absurd hbl (hdisjoint j k m l hlt hm hk hbm)
  · exact heq
  · exact absurd hbm (hdisjoint k j l m hgt hk hm hbl)

/-- **Every local address has its configuration.** With a wildcard among the addresses of a port
there are listeners for the bound ones and for the wildcard, without one for all of them. An address
is in the table of exactly one listener. A connection gets the configuration of its local address
if the table of its listener has it, and else that of the last entry, which is the wildcard
wherever there are others. -/
theorem listeners_serve {addrs : List (ConfAddr F S H)} (h : PortAddrs addrs) :
    ((portListeners addrs).map Listener.sockaddr).Perm
      ((if addrs.any ConfAddr.wildcard then addrs.filter fun x => x.bind || x.wildcard else addrs).map
        ConfAddr.sockaddr) ∧
    (∀ x ∈ addrs, ∃! k : Nat, ∃ l : Listener F S H, (portListeners addrs)[k]? = some l ∧
      x.sockaddr ∈ l.servers.map InAddr.addr) ∧
    ∀ l ∈ portListeners addrs, ∀ a : F.Addr,
      (∀ x ∈ addrs, x.sockaddr = a → a ∈ l.servers.map InAddr.addr →
        connInit l (some a) = some x.inAddr.conf) ∧
      (a ∉ l.servers.map InAddr.addr → ∃ w ∈ addrs, l.servers.getLast? = some w.inAddr ∧
        connInit l (some a) = some w.inAddr.conf ∧ (1 < l.servers.length → w.wildcard = true)) := by
  refine ⟨portListeners_addrs h, fun x hx => ?_, fun l hl a => ?_⟩
  · have htables : (portListeners addrs).flatMap (fun l => l.servers.map InAddr.addr) =
        (utilSort addrs).map ConfAddr.sockaddr := by
      rw [← List.map_flatMap, portListeners_tables h, List.map_map]
      rfl
    apply exists_unique_index
    · rw [htables]
      exact h.sorted.distinct
    · rw [htables]
      exact List.mem_map_of_mem ((utilSort_perm addrs).mem_iff.mpr hx)
  · obtain ⟨front, w, hmem, rfl, hw⟩ := listener_table h hl
    have hwmem : w ∈ addrs := hmem w (by simp)
    have hany : front ≠ [] → w.sockaddr = F.any := fun hne => (h.wildcard w hwmem).mp (hw hne)
    have hconn := connInit_table a hany
    dsimp only
    rw [hconn]
    refine ⟨fun x hx hxa ha => ?_, fun ha => ⟨w, hwmem, by simp, ?_, fun hlen => hw ?_⟩⟩
    · have hin : x ∈ front ++ [w] := by
        simp only [List.map_map, List.mem_map, Function.comp_apply] at ha
        obtain ⟨y, hy, hya⟩ := ha
        exact h.unique hx (hmem y hy) (hxa.trans hya.symm) ▸ hy
      cases hfind : front.find? fun x => x.sockaddr = a with
      | some y =>
        have hy := hmem y (List.mem_append_left _ (List.mem_of_find?_eq_some hfind))
        have hya : y.sockaddr = a := by simpa using List.find?_some hfind
        rw [h.unique hy hx (hya.trans hxa.symm)]
        rfl
      | none =>
        rcases List.mem_append.mp hin with hfront | hlast
        · exact absurd (decide_eq_true hxa) (List.find?_eq_none.mp hfind x hfront)
        · rw [List.mem_singleton.mp hlast]
          rfl
    · have hnone : front.find? (fun x => x.sockaddr = a) = none := by
        refine List.find?_eq_none.mpr fun x hx hxa => ha ?_
        have hxa : x.sockaddr = a := of_decide_eq_true hxa
        simp only [List.map_map, List.mem_map, Function.comp_apply]
        exact ⟨x, List.mem_append_left _ hx, hxa⟩
      rw [hnone]
      rfl
    · rintro rfl
      simp at hlen

/-- The any-address and 127.0.0.1, of two servers. -/
def anyAndLocal : List (ConfAddr .inet Nat Unit) :=
  [⟨(0 : BitVec 32), false, true, false, false, 1, ()⟩,
    ⟨(0x0100007f : BitVec 32), false, false, false, false, 2, ()⟩]

theorem listeners_serve_local :
    PortAddrs anyAndLocal ∧ ((portListeners anyAndLocal).map Listener.sockaddr).Perm [(0 : BitVec 32)] := by
  have h : PortAddrs anyAndLocal := by
    refine ⟨by simp [anyAndLocal], ?_, ?_⟩
    · show [(0 : BitVec 32), (0x0100007f : BitVec 32)].Nodup
      decide
    · intro x hx
      rcases List.mem_cons.mp hx with rfl | hx
      · exact ⟨fun _ => rfl, fun _ => rfl⟩
      · obtain rfl := List.mem_singleton.mp hx
        have hne : (0x0100007f : BitVec 32) ≠ 0 := by decide
        exact ⟨fun hw => absurd hw (by decide), fun ha => absurd ha hne⟩
  exact ⟨h, (listeners_serve h).1⟩

end PgRest.Http
