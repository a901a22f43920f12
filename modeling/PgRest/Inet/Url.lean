import Mathlib.Data.List.TakeWhile
import PgRest.Inet.Addr

/-! `pgrest_inet_ntop` and `pgrest_inet_parse_url`, on a platform with IPv6 and Unix sockets.

What `evutil_inet_ntop` writes for an address and what `getaddrinfo` finds for a host are
arguments. A terminated string is the list of its bytes. -/
namespace PgRest.Inet

/-- `struct sockaddr` -/
inductive SockAddr where
  | ip (addr : Addr) (port : UInt16)
  /-- `sun_path`, unless the length of the address leaves it out -/
  | unix (path : Option Bytes)
deriving DecidableEq

/-- `sa_family` -/
inductive Family where
  | inet
  | inet6
  | unix
deriving DecidableEq, Repr

def Addr.family : Addr → Family
  | .inet _ => .inet
  | .inet6 _ => .inet6

/-- What `snprintf` leaves in `size` bytes. -/
def snprintf (size : Nat) (text : Bytes) : Option Bytes :=
  if size = 0 then none else some (text.take (size - 1))

section
variable (ntop : Addr → Bytes)

/-- `evutil_inet_ntop` -/
def evutilInetNtop (addr : Addr) (size : Nat) : Option Bytes :=
  if (ntop addr).length < size then some (ntop addr) else none

/-- `pgrest_inet_ntop`: what the string in `dst` is then. -/
def inetNtop (sa : SockAddr) (size : Nat) (port : Bool) : Option Bytes :=
  match sa with
  | .ip (.inet addr) p =>
    (evutilInetNtop ntop (.inet addr) size).bind fun dst =>
      if port then (snprintf (size - dst.length) (ascii ":" ++ decimal p.toNat)).map (dst ++ ·) else some dst
  | .ip (.inet6 addr) p =>
    (evutilInetNtop ntop (.inet6 addr) size).bind fun dst =>
      if port then
        let dst := dst ++ ascii "["
        (snprintf (size - dst.length) (ascii "]:" ++ decimal p.toNat)).map (dst ++ ·)
      else some dst
  | .unix none => snprintf size (ascii "????")
  | .unix (some path) => snprintf size path

end

/-- The value of a row of digits. -/
def number (text : Bytes) : Nat := text.foldl (fun n c => n * 10 + (c - 48).toNat) 0

/-- `pgrest_atoi`: undefined where the text does not fit into `buff` or its value into an `int`. -/
def atoi (text : Bytes) : Option Int :=
  if 32 ≤ text.length then none
  else
    let text := text.dropWhile fun c => c = 32 ∨ (9 ≤ c ∧ c ≤ 13)
    let minus := text.head? = some 45
    let text := if minus ∨ text.head? = some 43 then text.tail else text
    let n := number (text.takeWhile (Digit ·))
    let value : Int := if minus then -n else n
    if value < -2147483648 ∨ 2147483647 < value then none else some value

/-- `pgrest_strlchr`: the text in front of the byte and behind it. -/
def strlchr (c : UInt8) : Bytes → Option (Bytes × Bytes)
  | [] => none
  | b :: text => if b = c then some ([], text) else (strlchr c text).map fun r => (b :: r.1, r.2)

/-- `pgrest_url_t` -/
structure Url where
  url : Bytes
  listen : Bool := false
  noResolve : Bool := false
  defaultPort : UInt16 := 0
  host : Option Bytes := none
  portText : Option Bytes := none
  port : UInt16 := 0
  family : Option Family := none
  noPort : Bool := false
  wildcard : Bool := false
  sockaddr : Option SockAddr := none
  /-- `addrs`, with their names -/
  addrs : List (SockAddr × Option Bytes) := []
  /-- Whether `pgrest_inet_resolve_host` has been called: not a field of the source. -/
  resolved : Bool := false
deriving DecidableEq

inductive Parsed where
  | ok (u : Url)
  /-- false, with `err` -/
  | fail (err : String)
  | undefined
deriving DecidableEq

def Parsed.bind : Parsed → (Url → Parsed) → Parsed
  | .ok u, f => f u
  | .fail err, _ => .fail err
  | .undefined, _ => .undefined

/-- The port in a text. -/
def parsePort (u : Url) (text : Bytes) : Parsed :=
  match atoi text with
  | none => .undefined
  | some n =>
    if n < 1 ∨ 65535 < n then .fail "invalid port"
    else .ok { u with port := n.toNat.toUInt16, portText := some text }

/-- `sizeof(saun->sun_path)` -/
def sunPathSize : Nat := 108

/-- `pgrest_inet_parse_unix` -/
def parseUnix (u : Url) : Parsed :=
  let path := u.url.drop 5
  if path = [] then .fail "no path in the unix domain socket"
  else if path.length + 1 > sunPathSize then .fail "too long path in the unix domain socket"
  else
    .ok
      { u with
        host := some path, family := some .unix, sockaddr := some (.unix (some path))
        addrs := [(.unix (some path), some u.url)] }

/-- The one address that has been found in the text, named after the host. -/
def Url.found (u : Url) (host : Bytes) (addr : Addr) : Url :=
  { u with
    host := some host, family := some addr.family, sockaddr := some (.ip addr u.port)
    wildcard := u.wildcard || addr.IsAny
    addrs := [(.ip addr u.port, some (host ++ ascii ":" ++ decimal u.port.toNat))] }

/-- `pgrest_inet_parse_inet6` -/
def parseInet6 (u : Url) : Parsed :=
  match strlchr 93 u.url.tail with
  | none => .fail "invalid host"
  | some (host, rest) =>
    let port : Parsed :=
      match rest with
      | [] => .ok { u with noPort := true, port := u.defaultPort }
      | c :: text => if c ≠ colon then .fail "invalid host" else parsePort u text
    port.bind fun u =>
      if host = [] then .fail "no host"
      else
        match inet6Bytes host with
        | none => .fail "invalid IPv6 address"
        | some addr => .ok (u.found (ascii "[" ++ host ++ ascii "]") (.inet6 addr))

section
variable (ntop : Addr → Bytes) (getaddrinfo : Bytes → Option (List Addr))

/-- `pgrest_inet_resolve_host`: addresses of IPv4 come first. -/
def resolveHost (u : Url) (host : Bytes) : Parsed :=
  let u := { u with resolved := true }
  match getaddrinfo host with
  | none => .fail "host not found"
  | some res =>
    if res = [] then .fail "host not found"
    else
      let name := fun addr =>
        (SockAddr.ip addr u.port, inetNtop ntop (.ip addr u.port) (if addr.family = .inet then 22 else 54) true)
      .ok { u with addrs := (res.filter (·.family = .inet) ++ res.filter (·.family = .inet6)).map name }

/-- `pgrest_inet_parse_inet`, behind the port. -/
def parseHost (u : Url) (host : Bytes) : Parsed :=
  if host = [] then .fail "no host"
  else
    let u := { u with host := some host }
    if u.listen ∧ host = [star] then
      .ok { u with sockaddr := some (.ip (.inet 0) u.port), wildcard := true }
    else if inetAddr host ≠ inaddrNone then .ok (u.found host (.inet (inetAddr host)))
    else
      let u := { u with sockaddr := some (.ip (.inet inaddrNone) u.port) }
      if u.noResolve then .ok u
      else
        (resolveHost ntop getaddrinfo u host).bind fun u =>
          match u.addrs.head? with
          | some (.ip addr port, _) =>
            .ok
              { u with
                family := some addr.family, sockaddr := some (.ip addr port)
                wildcard := u.wildcard || addr.IsAny }
          | _ => .undefined

/-- `pgrest_inet_parse_inet` -/
def parseInet (u : Url) : Parsed :=
  let u := { u with family := some .inet }
  match strlchr colon u.url with
  | some (host, text) => (parsePort u text).bind fun u => parseHost ntop getaddrinfo u host
  | none =>
    -- with `listen` the text is the port
    if u.listen then
      (parsePort u u.url).bind fun u => .ok { u with sockaddr := some (.ip (.inet 0) u.port), wildcard := true }
    else parseHost ntop getaddrinfo { u with noPort := true, port := u.defaultPort } u.url

/-- `pgrest_inet_parse_url` -/
def parseUrl (u : Url) : Parsed :=
  if 5 ≤ u.url.length ∧ sameCase (u.url.take 5) (ascii "unix:") then parseUnix u
  else if u.url.head? = some 91 then parseInet6 u
  else parseInet ntop getaddrinfo u

/-- The text that is printed for an address is read as that address, and no host is resolved. -/
def ParsesBack (size : Nat) (noResolve : Bool) (defaultPort : UInt16) (addr : Addr) (port : UInt16) : Prop :=
  ∃ text u, inetNtop ntop (.ip addr port) size true = some text ∧
    parseUrl ntop getaddrinfo { url := text, listen := true, noResolve, defaultPort } = .ok u ∧
    u.resolved = false ∧ u.family = some addr.family ∧ u.sockaddr = some (.ip addr port) ∧ u.port = port ∧
    (u.wildcard = true ↔ addr.IsAny)

end

/-- What the standard says of the texts of addresses. -/
structure Standard (ntop : Addr → Bytes) : Prop where
  inet : ∀ addr, ntop (.inet addr) = dottedQuad addr
  /-- digits of hexadecimal numbers, colons and dots -/
  inet6 : ∀ addr, ntop (.inet6 addr) ≠ [] ∧ ∀ c ∈ ntop (.inet6 addr),
    Digit c ∨ (65 ≤ c ∧ c ≤ 70) ∨ (97 ≤ c ∧ c ≤ 102) ∨ c = colon ∨ c = dot

/-! ### Texts -/

theorem number_decimal (n : Nat) : number (decimal n) = n := by
  induction n using decimal.induct with
  | case1 n h =>
    rw [decimal, if_pos h]
    show 0 * 10 + (48 + n.toUInt8 - 48).toNat = n
    rw [(digit_value h).2, Nat.zero_mul, Nat.zero_add]
  | case2 n h ih =>
    rw [decimal, if_neg h, number, List.foldl_append]
    show number (decimal (n / 10)) * 10 + (48 + (n % 10).toUInt8 - 48).toNat = n
    rw [ih, (digit_value (Nat.mod_lt n (by decide))).2]
    omega

theorem decimal_length {n m : Nat} (h : (decimal (n / 10)).length ≤ m) : (decimal n).length ≤ m + 1 := by
  rw [decimal]
  split
  · exact Nat.le_add_left 1 m
  · rw [List.length_append, List.length_singleton]
    omega

theorem decimal_short {n : Nat} (h : n < 100000) : (decimal n).length ≤ 5 := by
  have hlast : (decimal (n / 10 / 10 / 10 / 10)).length ≤ 1 := by
    rw [decimal, if_pos (by omega)]
    exact Nat.le_refl 1
  exact decimal_length (decimal_length (decimal_length (decimal_length hlast)))

/-- What `atoi` makes of a text, of any length: white space and a sign may come first, and anything last. -/
def leading (text : Bytes) : Int :=
  let text := text.dropWhile fun c => c = 32 ∨ (9 ≤ c ∧ c ≤ 13)
  let minus := text.head? = some 45
  let text := if minus ∨ text.head? = some 43 then text.tail else text
  let n := number (text.takeWhile (Digit ·))
  if minus then -n else n

theorem atoi_eq (text : Bytes) : atoi text =
    if 32 ≤ text.length then none
    else if leading text < -2147483648 ∨ 2147483647 < leading text then none else some (leading text) := rfl

theorem leading_digits {text : Bytes} (h : ∀ c ∈ text, Digit c) : leading text = number text := by
  have hspace : text.dropWhile (fun c => decide (c = 32 ∨ (9 ≤ c ∧ c ≤ 13))) = text := by
    cases text with
    | nil => rfl
    | cons c text =>
      have hc := h c (List.mem_cons_self ..)
      rw [List.dropWhile_cons_of_neg]
      rw [decide_eq_true_iff]
      rintro (rfl | ⟨-, hle⟩)
      · exact absurd hc (by decide)
      · exact absurd (UInt8.le_trans hc.1 hle) (by decide)
  have hhead : ∀ d : UInt8, ¬Digit d → text.head? ≠ some d := fun d hd heq =>
    hd (h d (List.mem_of_mem_head? heq))
  have hdigits : text.takeWhile (Digit ·) = text :=
    List.takeWhile_eq_self_iff.mpr fun c hc => decide_eq_true (h c hc)
  unfold leading
  rw [hspace]
  simp only [hhead 45 (by decide), hhead 43 (by decide), or_self, if_false, hdigits]

/-- The text of a port is read as the port. -/
theorem atoi_decimal {n : Nat} (h : n < 100000) : atoi (decimal n) = some (n : Int) := by
  have hlength := decimal_short h
  rw [atoi_eq, leading_digits (decimal_digits n), number_decimal, if_neg (by omega), if_neg (by omega)]

theorem strlchr_append {c : UInt8} {text : Bytes} (h : c ∉ text) (rest : Bytes) :
    strlchr c (text ++ c :: rest) = some (text, rest) := by
  induction text with
  | nil => exact if_pos rfl
  | cons b text ih =>
    rw [List.mem_cons, not_or] at h
    rw [List.cons_append, strlchr, if_neg (Ne.symm h.1), ih h.2]
    rfl

theorem sameCase_head {c d : UInt8} {s t : Bytes} (h : sameCase (c :: s) (d :: t) = true) (hd : 97 ≤ d) :
    c = d ∨ c + 32 = d := by
  simp only [sameCase, List.map_cons, beq_iff_eq, List.cons.injEq] at h
  obtain ⟨h, -⟩ := h
  have hlower : ¬(65 ≤ d ∧ d ≤ 90) := fun hle => absurd (UInt8.le_trans hd hle.2) (by decide)
  rw [if_neg hlower] at h
  split at h
  · exact Or.inr h
  · exact Or.inl h

/-- A text that begins with neither `[` nor the letter of `unix:`. -/
theorem parseUrl_inet (ntop : Addr → Bytes) (getaddrinfo : Bytes → Option (List Addr)) {u : Url} {c : UInt8}
    {text : Bytes} (hu : u.url = c :: text) (hc : c ≠ 85 ∧ c ≠ 91 ∧ c ≠ 117) :
    parseUrl ntop getaddrinfo u = parseInet ntop getaddrinfo u := by
  unfold parseUrl
  rw [if_neg, if_neg]
  · rw [hu]
    simpa using hc.2.1
  · rintro ⟨-, hsame⟩
    rw [hu, List.take_succ_cons] at hsame
    rcases sameCase_head (d := 117) hsame (by decide) with h | h
    · exact hc.2.2 h
    · refine hc.1 ?_
      rw [← UInt8.add_sub_cancel c 32, h]
      rfl

/-! ### Reading -/

section
variable (ntop : Addr → Bytes) (getaddrinfo : Bytes → Option (List Addr))

theorem parsePort_decimal (u : Url) {port : UInt16} (h : port ≠ 0) : parsePort u (decimal port.toNat) =
    .ok { u with port := port, portText := some (decimal port.toNat) } := by
  have hlt := port.toNat_lt
  have hpos : port.toNat ≠ 0 := fun hzero => h (UInt16.toNat_inj.mp hzero)
  unfold parsePort
  rw [atoi_decimal (by omega)]
  dsimp only
  rw [if_neg (by omega)]
  simp

theorem Parsed.bind_ok {p : Parsed} {f : Url → Parsed} {u : Url} (h : p.bind f = .ok u) :
    ∃ v, p = .ok v ∧ f v = .ok u := by
  cases p with
  | ok v => exact ⟨v, rfl, h⟩
  | fail err => cases h
  | undefined => cases h

theorem parsePort_family {u v : Url} {text : Bytes} (h : parsePort u text = .ok v) : v.family = u.family := by
  unfold parsePort at h
  split at h
  · cases h
  split at h
  · cases h
  · cases h
    rfl

theorem resolveHost_resolved {u v : Url} {host : Bytes} (h : resolveHost ntop getaddrinfo u host = .ok v) :
    v.resolved = true := by
  unfold resolveHost at h
  dsimp only at h
  split at h
  · cases h
  split at h
  · cases h
  · cases h
    rfl

/-- Where no host is resolved the address is one of IPv4. -/
theorem parseHost_family {u v : Url} {host : Bytes} (hu : u.family = some .inet)
    (h : parseHost ntop getaddrinfo u host = .ok v) (hv : v.resolved = false) : v.family = some .inet := by
  unfold parseHost at h
  split at h
  · cases h
  dsimp only at h
  split at h
  · cases h
    exact hu
  split at h
  · cases h
    rfl
  split at h
  · cases h
    exact hu
  · obtain ⟨w, hw, h⟩ := Parsed.bind_ok h
    have hresolved := resolveHost_resolved ntop getaddrinfo hw
    split at h
    · cases h
      exact absurd (hresolved.symm.trans hv) (by decide)
    · cases h

theorem parseInet_family {u v : Url} (h : parseInet ntop getaddrinfo u = .ok v) (hv : v.resolved = false) :
    v.family = some .inet := by
  unfold parseInet at h
  dsimp only at h
  split at h
  · obtain ⟨w, hw, h⟩ := Parsed.bind_ok h
    exact parseHost_family ntop getaddrinfo (parsePort_family hw) h hv
  · split at h
    · obtain ⟨w, hw, h⟩ := Parsed.bind_ok h
      cases h
      show w.family = some .inet
      exact parsePort_family hw
    · exact parseHost_family ntop getaddrinfo rfl h hv

/-! ### Addresses of IPv4 -/

theorem dottedQuad_length (addr : UInt32) : (dottedQuad addr).length ≤ 15 := by
  have hlt : addr.toNat < 4294967296 := addr.toNat_lt
  have hoctet : ∀ n, n < 256 → (decimal n).length ≤ 3 := by
    intro n hn
    have hlast : (decimal (n / 10 / 10)).length ≤ 1 := by
      rw [decimal, if_pos (by omega)]
      exact Nat.le_refl 1
    exact decimal_length (decimal_length hlast)
  have h1 := hoctet (addr.toNat / 16777216) (by omega)
  have h2 := hoctet (addr.toNat / 65536 % 256) (by omega)
  have h3 := hoctet (addr.toNat / 256 % 256) (by omega)
  have h4 := hoctet (addr.toNat % 256) (by omega)
  simp only [dottedQuad, List.length_append, List.length_cons]
  omega

variable {ntop}

theorem inetNtop_inet (hs : Standard ntop) {size : Nat} (hsize : 22 ≤ size) (addr : UInt32) (port : UInt16) :
    inetNtop ntop (.ip (.inet addr) port) size true = some (dottedQuad addr ++ colon :: decimal port.toNat) := by
  have hlength := dottedQuad_length addr
  have hport : (decimal port.toNat).length ≤ 5 := decimal_short (by have := port.toNat_lt; omega)
  simp only [inetNtop, evutilInetNtop, hs.inet, if_true]
  rw [if_pos (by omega), Option.bind_some, snprintf, if_neg (by omega), Option.map_some]
  show some (dottedQuad addr ++ (colon :: decimal port.toNat).take _) = _
  rw [List.take_of_length_le]
  rw [List.length_cons]
  omega

/-- The text of an address and a port is read up to the host. -/
theorem parseUrl_dottedQuad {u : Url} {addr : UInt32} {port : UInt16}
    (hu : u.url = dottedQuad addr ++ colon :: decimal port.toNat) (hport : port ≠ 0) :
    parseUrl ntop getaddrinfo u = parseHost ntop getaddrinfo
      { u with family := some .inet, port := port, portText := some (decimal port.toNat) } (dottedQuad addr) := by
  obtain ⟨c, text, htext, hc⟩ := decimal_head (addr.toNat / 16777216)
  have hhead : ∃ rest, u.url = c :: rest := by
    rw [hu, dottedQuad, htext]
    exact ⟨_, rfl⟩
  obtain ⟨rest, hrest⟩ := hhead
  have hcolon : colon ∉ dottedQuad addr := by
    intro hmem
    rcases dottedQuad_digits addr _ hmem with h | h <;> revert h <;> decide
  have hne : c ≠ 85 ∧ c ≠ 91 ∧ c ≠ 117 := by
    refine ⟨?_, ?_, ?_⟩ <;> rintro rfl <;> exact absurd hc (by decide)
  rw [parseUrl_inet ntop getaddrinfo hrest hne, parseInet]
  dsimp only
  rw [hu, strlchr_append hcolon]
  dsimp only
  rw [parsePort_decimal _ hport]
  rfl

theorem dottedQuad_host (addr : UInt32) : dottedQuad addr ≠ [] ∧ dottedQuad addr ≠ [star] := by
  obtain ⟨c, text, htext, hc⟩ := decimal_head (addr.toNat / 16777216)
  rw [dottedQuad, htext]
  refine ⟨List.cons_ne_nil _ _, fun h => ?_⟩
  rw [List.cons_append, List.cons.injEq] at h
  obtain ⟨rfl, -⟩ := h
  exact absurd hc (by decide)

/-- The text of an address is taken for the address, unless that is all ones. -/
theorem parseHost_found (u : Url) {addr : UInt32} (h : addr ≠ inaddrNone) :
    parseHost ntop getaddrinfo u (dottedQuad addr) = .ok (u.found (dottedQuad addr) (.inet addr)) := by
  obtain ⟨hnil, hstar⟩ := dottedQuad_host addr
  unfold parseHost
  rw [if_neg hnil, if_neg fun hall => hstar hall.2, inetAddr_dottedQuad, if_pos h]
  rfl

theorem parseHost_kept {u : Url} (h : u.noResolve = true) :
    parseHost ntop getaddrinfo u (dottedQuad inaddrNone) =
      .ok { u with host := some (dottedQuad inaddrNone), sockaddr := some (.ip (.inet inaddrNone) u.port) } := by
  obtain ⟨hnil, hstar⟩ := dottedQuad_host inaddrNone
  unfold parseHost
  rw [if_neg hnil, if_neg fun hall => hstar hall.2, inetAddr_dottedQuad, if_neg (not_not_intro rfl), if_pos h]

theorem parseHost_resolved {u v : Url} (hu : u.noResolve = false)
    (h : parseHost ntop getaddrinfo u (dottedQuad inaddrNone) = .ok v) : v.resolved = true := by
  obtain ⟨hnil, hstar⟩ := dottedQuad_host inaddrNone
  unfold parseHost at h
  rw [if_neg hnil, if_neg fun hall => hstar hall.2, inetAddr_dottedQuad, if_neg (not_not_intro rfl),
    if_neg (by simp [hu])] at h
  obtain ⟨w, hw, h⟩ := Parsed.bind_ok h
  have hresolved := resolveHost_resolved ntop getaddrinfo hw
  split at h
  · cases h
    exact hresolved
  · cases h

/-! ### Addresses of IPv6 -/

/-- What is printed for an address of IPv6 begins with the address, not with the bracket. -/
theorem inetNtop_inet6 (hs : Standard ntop) {size : Nat} {addr : Vector UInt8 16} {port : UInt16} {text : Bytes}
    (h : inetNtop ntop (.ip (.inet6 addr) port) size true = some text) :
    ∃ c rest, text = c :: rest ∧ c ≠ 85 ∧ c ≠ 91 ∧ c ≠ 117 := by
  obtain ⟨hnil, hchars⟩ := hs.inet6 addr
  obtain ⟨c, rest, hc⟩ := List.exists_cons_of_ne_nil hnil
  have hne : c ≠ 85 ∧ c ≠ 91 ∧ c ≠ 117 := by
    have hchar := hchars c (hc ▸ List.mem_cons_self ..)
    refine ⟨?_, ?_, ?_⟩ <;> rintro rfl <;> revert hchar <;> decide
  simp only [inetNtop, evutilInetNtop, if_true] at h
  obtain ⟨dst, hdst, h⟩ := Option.bind_eq_some_iff.mp h
  obtain ⟨tail, -, rfl⟩ := Option.map_eq_some_iff.mp h
  split at hdst
  · obtain rfl := Option.some.inj hdst
    rw [hc]
    exact ⟨c, _, rfl, hne⟩
  · cases hdst

/-- **A printed address parses back** exactly when it is one of IPv4 and not the one that stands
for an error, or that may stay without resolution. `PGREST_SOCKADDR_STRLEN` is 22 or more. -/
theorem printed_parsesBack (hs : Standard ntop) {size : Nat} (hsize : 22 ≤ size) (noResolve : Bool)
    (defaultPort : UInt16) (addr : Addr) {port : UInt16} (hport : port ≠ 0) :
    ParsesBack ntop getaddrinfo size noResolve defaultPort addr port ↔
      addr.family = .inet ∧ (addr ≠ .inet inaddrNone ∨ noResolve = true) := by
  cases addr with
  | inet6 addr =>
    refine iff_of_false ?_ (by simp [Addr.family])
    rintro ⟨text, u, htext, hparse, hresolved, hfamily, -⟩
    obtain ⟨c, rest, rfl, hne⟩ := inetNtop_inet6 hs htext
    rw [parseUrl_inet ntop getaddrinfo rfl hne] at hparse
    rw [parseInet_family ntop getaddrinfo hparse hresolved] at hfamily
    cases hfamily
  | inet addr =>
    have hprint := inetNtop_inet hs hsize addr port
    have hread := @parseUrl_dottedQuad ntop getaddrinfo { url := _, listen := true, noResolve, defaultPort } addr port
      rfl hport
    by_cases hnone : addr = inaddrNone
    · subst hnone
      constructor
      · rintro ⟨text, u, htext, hparse, hresolved, -⟩
        refine ⟨rfl, Or.inr ?_⟩
        obtain rfl := Option.some.inj (hprint.symm.trans htext)
        by_contra hnot
        rw [hread] at hparse
        exact absurd (parseHost_resolved getaddrinfo (by simpa using hnot) hparse) (by simp [hresolved])
      · rintro ⟨-, hall | hkeep⟩
        · exact absurd rfl hall
        · exact ⟨_, _, hprint, hread.trans (parseHost_kept getaddrinfo hkeep), rfl, rfl, rfl, rfl,
            by simp [Addr.IsAny, inaddrNone]⟩
    · refine iff_of_true ⟨_, _, hprint, hread.trans (parseHost_found getaddrinfo _ hnone), rfl, rfl, rfl, rfl, ?_⟩
        ⟨rfl, Or.inl fun heq => hnone (Addr.inet.inj heq)⟩
      simp [Url.found]

end

/-! ### Some addresses -/

def hexDigit (n : UInt8) : UInt8 := if n < 10 then 48 + n else 87 + n

/-- The group with the number `i`. -/
def group (addr : Vector UInt8 16) (i : Nat) : Bytes :=
  ((addr.toList.drop (2 * i)).take 2).flatMap fun b : UInt8 => [hexDigit (b / 16), hexDigit (b % 16)]

/-- One of the texts that the standard has for an address: eight groups of four digits. -/
def groups (addr : Vector UInt8 16) : Bytes :=
  (List.range 7).flatMap (fun i => group addr i ++ [colon]) ++ group addr 7

/-- Addresses of IPv4 in dotted quads, those of IPv6 in groups. -/
def texts : Addr → Bytes
  | .inet addr => dottedQuad addr
  | .inet6 addr => groups addr

theorem hexDigit_digit {n : UInt8} (h : n < 16) : Digit (hexDigit n) ∨ (97 ≤ hexDigit n ∧ hexDigit n ≤ 102) := by
  have hn : n.toNat < 16 := h
  simp only [hexDigit, Digit, UInt8.le_iff_toNat_le]
  split
  · next hlt =>
    have hlt : n.toNat < 10 := hlt
    rw [UInt8.toNat_add]
    show (48 ≤ (48 + n.toNat) % 256 ∧ (48 + n.toNat) % 256 ≤ 57) ∨ _
    omega
  · next hge =>
    have hge : ¬n.toNat < 10 := hge
    rw [UInt8.toNat_add]
    show _ ∨ (97 ≤ (87 + n.toNat) % 256 ∧ (87 + n.toNat) % 256 ≤ 102)
    omega

theorem group_digits {addr : Vector UInt8 16} {i : Nat} {c : UInt8} (hc : c ∈ group addr i) :
    Digit c ∨ (97 ≤ c ∧ c ≤ 102) := by
  obtain ⟨b, -, hc⟩ := List.mem_flatMap.mp hc
  have hb : b.toNat < 256 := b.toNat_lt
  rcases List.mem_pair.mp hc with rfl | rfl
  · refine hexDigit_digit ?_
    rw [UInt8.lt_iff_toNat_lt, UInt8.toNat_div]
    show b.toNat / 16 < 16
    omega
  · refine hexDigit_digit ?_
    rw [UInt8.lt_iff_toNat_lt, UInt8.toNat_mod]
    show b.toNat % 16 < 16
    omega

theorem texts_standard : Standard texts := by
  refine ⟨fun _ => rfl, fun addr => ⟨?_, fun c hc => ?_⟩⟩
  · show groups addr ≠ []
    refine List.append_ne_nil_of_left_ne_nil ?_ _
    exact List.ne_nil_of_mem (List.mem_flatMap.mpr ⟨0, by decide, List.mem_append_right _ (List.mem_singleton_self _)⟩)
  · rcases List.mem_append.mp (show c ∈ _ ++ group addr 7 from hc) with hc | hc
    · obtain ⟨i, -, hc⟩ := List.mem_flatMap.mp hc
      rcases List.mem_append.mp hc with hc | hc
      · exact (group_digits hc).imp id fun h => Or.inr (Or.inl h)
      · exact Or.inr (Or.inr (Or.inr (Or.inl (List.mem_singleton.mp hc))))
    · exact (group_digits hc).imp id fun h => Or.inr (Or.inl h)

/-- Port 80 of 127.0.0.1. -/
theorem loopback_parsesBack : ParsesBack texts (fun _ => none) 113 false 8080 (.inet 0x7f000001) 80 ↔
    (Addr.inet 0x7f000001).family = .inet ∧ (Addr.inet 0x7f000001 ≠ .inet inaddrNone ∨ false = true) :=
  printed_parsesBack (fun _ => none) texts_standard (by decide) false 8080 (.inet 0x7f000001) (by decide)

/-- The broadcast address does not, and neither does any of IPv6, such as the loopback. -/
theorem broadcast_not_parsesBack :
    ¬ParsesBack texts (fun _ => none) 113 false 8080 (.inet 0xffffffff) 80 ∧
      ¬ParsesBack texts (fun _ => none) 113 false 8080
        (.inet6 #v[0, 0, 0, 0, 0, 0, 0, 0, 0, 0, 0, 0, 0, 0, 0, 1]) 80 := by
  constructor
  · rintro ⟨text, u, htext, hparse, hresolved, -⟩
    obtain rfl := Option.some.inj ((inetNtop_inet texts_standard (by decide) _ _).symm.trans htext)
    rw [parseUrl_dottedQuad _ rfl (by decide)] at hparse
    exact absurd (parseHost_resolved _ rfl hparse) (by simp [hresolved])
  · rintro ⟨text, u, htext, hparse, hresolved, hfamily, -⟩
    obtain ⟨c, rest, rfl, hne⟩ := inetNtop_inet6 texts_standard htext
    rw [parseUrl_inet _ _ rfl hne] at hparse
    rw [parseInet_family _ _ hparse hresolved] at hfamily
    cases hfamily

end PgRest.Inet
