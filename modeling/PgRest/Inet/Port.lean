import PgRest.Inet.Url

/-! The ports in the texts of addresses: what `pgrest_inet_parse_url` takes for one, and where
`pgrest_atoi` writes to read it. -/
namespace PgRest.Inet

/-- An IPv4 address or the name of a host, and neither an IPv6 address nor the path of a Unix socket. -/
def Url.Host (u : Url) : Prop :=
  u.url.head? ≠ some 91 ∧ ¬(5 ≤ u.url.length ∧ sameCase (u.url.take 5) (ascii "unix:"))

/-- The port in the text of an address. -/
inductive PortPart (u : Url) : Bytes → Prop where
  | inet6 {host part : Bytes} : 93 ∉ host → u.url = 91 :: (host ++ 93 :: colon :: part) → PortPart u part
  | inet {host part : Bytes} : u.Host → colon ∉ host → u.url = host ++ colon :: part → PortPart u part
  | listen : u.Host → colon ∉ u.url → u.listen = true → PortPart u u.url

/-- The offsets in `buff` that `pgrest_atoi` writes: those of the text, and the one behind it. -/
def atoiWrites (text : Bytes) : List Nat := List.range text.length ++ [text.length]

/-- Digits of a port. -/
def Port (part : Bytes) : Prop := (∀ c ∈ part, Digit c) ∧ 1 ≤ number part ∧ number part ≤ 65535

section
variable (ntop : Addr → Bytes) (getaddrinfo : Bytes → Option (List Addr))

/-- It is read as what it is: `buff` is large enough, nothing but a port gets past, and that is the port of the
address. -/
def PortExact (u : Url) : Prop :=
  ∀ part, PortPart u part → (∀ i ∈ atoiWrites part, i < 32) ∧
    (parseUrl ntop getaddrinfo u ≠ .fail "invalid port" → Port part) ∧
    (∀ v, parsePort u part = .ok v → v.port.toNat = number part) ∧
    ∀ v, parseUrl ntop getaddrinfo u = .ok v →
      v.port.toNat = number part ∧ ∃ addr, v.sockaddr = some (.ip addr v.port)

end

/-! ### What is read -/

/-- It fits into `buff`, its value into an `int`, and where that is a port there is nothing else in it. -/
def Plain (part : Bytes) : Prop :=
  part.length ≤ 31 ∧ (-2147483648 ≤ leading part ∧ leading part ≤ 2147483647) ∧
    (1 ≤ leading part ∧ leading part ≤ 65535 → ∀ c ∈ part, Digit c)

theorem atoiWrites_lt (text : Bytes) : (∀ i ∈ atoiWrites text, i < 32) ↔ text.length ≤ 31 := by
  constructor
  · intro h
    have := h text.length (by simp [atoiWrites])
    omega
  · intro h i hi
    rcases List.mem_append.mp hi with hi | hi
    · have := List.mem_range.mp hi
      omega
    · have := List.mem_singleton.mp hi
      omega

/-- What is read of a port. -/
theorem parsePort_eq (u : Url) (part : Bytes) : parsePort u part =
    if 32 ≤ part.length ∨ leading part < -2147483648 ∨ 2147483647 < leading part then .undefined
    else if leading part < 1 ∨ 65535 < leading part then .fail "invalid port"
    else .ok { u with port := (leading part).toNat.toUInt16, portText := some part } := by
  unfold parsePort
  rw [atoi_eq]
  by_cases hlen : 32 ≤ part.length
  · rw [if_pos hlen, if_pos (Or.inl hlen)]
  · by_cases hfit : leading part < -2147483648 ∨ 2147483647 < leading part
    · rw [if_neg hlen, if_pos hfit, if_pos (Or.inr hfit)]
    · rw [if_neg hlen, if_neg hfit, if_neg (not_or.mpr ⟨hlen, hfit⟩)]

theorem parsePort_ok {u v : Url} {part : Bytes} (h : parsePort u part = .ok v) :
    1 ≤ leading part ∧ leading part ≤ 65535 ∧ (v.port.toNat : Int) = leading part := by
  rw [parsePort_eq] at h
  split at h
  · cases h
  split at h
  · cases h
  · cases h
    refine ⟨by omega, by omega, ?_⟩
    have hport : (leading part).toNat.toUInt16.toNat = (leading part).toNat % 65536 := rfl
    rw [hport]
    omega

/-! ### Behind the port -/

/-- It keeps the port, in the address as well. -/
def Keeps (k : Url → Parsed) : Prop :=
  ∀ v, k v ≠ .fail "invalid port" ∧
    ∀ w, k v = .ok w → w.port = v.port ∧ ∃ addr, w.sockaddr = some (.ip addr v.port)

section
variable (ntop : Addr → Bytes) (getaddrinfo : Bytes → Option (List Addr))

theorem resolveHost_keeps (v : Url) (host : Bytes) :
    resolveHost ntop getaddrinfo v host = .fail "host not found" ∨
      ∃ w, resolveHost ntop getaddrinfo v host = .ok w ∧ w.port = v.port ∧
        ∀ a ∈ w.addrs, ∃ addr, a.1 = .ip addr v.port := by
  unfold resolveHost
  dsimp only
  split
  · exact Or.inl rfl
  · split
    · exact Or.inl rfl
    · refine Or.inr ⟨_, rfl, rfl, fun a ha => ?_⟩
      obtain ⟨addr, -, rfl⟩ := List.mem_map.mp ha
      exact ⟨addr, rfl⟩

theorem parseHost_keeps (host : Bytes) : Keeps fun v => parseHost ntop getaddrinfo v host := by
  intro v
  dsimp only
  unfold parseHost
  split
  · exact ⟨by decide, by simp⟩
  dsimp only
  split
  · refine ⟨by simp, fun w hw => ?_⟩
    cases hw
    exact ⟨rfl, _, rfl⟩
  split
  · refine ⟨by simp, fun w hw => ?_⟩
    cases hw
    exact ⟨rfl, _, rfl⟩
  split
  · refine ⟨by simp, fun w hw => ?_⟩
    cases hw
    exact ⟨rfl, _, rfl⟩
  · -- the host is resolved
    obtain h | ⟨w, h, hport, haddrs⟩ := resolveHost_keeps ntop getaddrinfo
      { v with host := some host, sockaddr := some (.ip (.inet inaddrNone) v.port) } host
    · rw [h]
      exact ⟨by simp [Parsed.bind], by simp [Parsed.bind]⟩
    · rw [h]
      dsimp only [Parsed.bind]
      split
      · next addr port name hhead =>
        refine ⟨by simp, fun w' hw => ?_⟩
        cases hw
        obtain ⟨addr', heq⟩ := haddrs _ (List.mem_of_mem_head? hhead)
        obtain ⟨-, rfl⟩ := SockAddr.ip.inj heq
        exact ⟨hport, addr, rfl⟩
      · exact ⟨by simp, by simp⟩

theorem strlchr_none {c : UInt8} {text : Bytes} (h : c ∉ text) : strlchr c text = none := by
  induction text with
  | nil => rfl
  | cons b text ih =>
    rw [List.mem_cons, not_or] at h
    rw [strlchr, if_neg (Ne.symm h.1), ih h.2]
    rfl

/-- Where there is a port it is read first, and what comes behind keeps it. -/
theorem parseUrl_port {u : Url} {part : Bytes} (h : PortPart u part) :
    ∃ u' k, parseUrl ntop getaddrinfo u = (parsePort u' part).bind k ∧ Keeps k := by
  cases h with
  | @inet6 host part hhost hurl =>
    have hunix : ¬(5 ≤ u.url.length ∧ sameCase (u.url.take 5) (ascii "unix:")) := by
      rintro ⟨-, hsame⟩
      rw [hurl, List.take_succ_cons] at hsame
      rcases sameCase_head (d := 117) hsame (by decide) with h | h
      · exact absurd h (by decide)
      · exact absurd h (by decide)
    refine ⟨u, ?behind, ?read, fun v => ?_⟩
    case read =>
      unfold parseUrl parseInet6
      rw [if_neg hunix, if_pos (by rw [hurl]; rfl), hurl, List.tail_cons, strlchr_append hhost]
      dsimp only
      rw [if_neg (not_not_intro rfl)]
    · split
      · exact ⟨by decide, by simp⟩
      split
      · exact ⟨by decide, by simp⟩
      · refine ⟨by simp, fun w hw => ?_⟩
        cases hw
        exact ⟨rfl, _, rfl⟩
  | @inet host part hu hhost hurl =>
    refine ⟨{ u with family := some .inet }, fun v => parseHost ntop getaddrinfo v host, ?_,
      parseHost_keeps ntop getaddrinfo host⟩
    unfold parseUrl parseInet
    dsimp only
    rw [if_neg hu.2, if_neg hu.1, hurl, strlchr_append hhost]
  | listen hu hcolon hlisten =>
    refine ⟨{ u with family := some .inet },
      fun v => .ok { v with sockaddr := some (.ip (.inet 0) v.port), wildcard := true }, ?_, fun v => ?_⟩
    · unfold parseUrl parseInet
      dsimp only
      rw [if_neg hu.2, if_neg hu.1, strlchr_none hcolon]
      exact if_pos hlisten
    · refine ⟨by simp, fun w hw => ?_⟩
      cases hw
      exact ⟨rfl, _, rfl⟩

/-- **Ports are read exactly** where they are plain. -/
theorem portExact_iff (u : Url) : PortExact ntop getaddrinfo u ↔ ∀ part, PortPart u part → Plain part := by
  constructor
  · intro h part hpart
    obtain ⟨hwrites, hpast, -⟩ := h part hpart
    obtain ⟨u', k, hparse, hkeeps⟩ := parseUrl_port ntop getaddrinfo hpart
    have hlen := (atoiWrites_lt part).mp hwrites
    rw [hparse, parsePort_eq] at hpast
    refine ⟨hlen, ?_, ?_⟩
    · by_contra hfit
      rw [if_pos (by omega)] at hpast
      obtain ⟨hdigits, hlow, hhigh⟩ := hpast (by simp [Parsed.bind])
      rw [leading_digits hdigits] at hfit
      omega
    · rintro ⟨hlow, hhigh⟩
      rw [if_neg (by omega), if_neg (by omega)] at hpast
      exact (hpast (hkeeps _).1).1
  · intro h part hpart
    obtain ⟨hlen, hfit, hdigits⟩ := h part hpart
    have hport : ∀ {v w : Url}, parsePort w part = .ok v → Port part ∧ v.port.toNat = number part := by
      intro v w hv
      obtain ⟨hlow, hhigh, hvalue⟩ := parsePort_ok hv
      have hall := hdigits ⟨hlow, hhigh⟩
      rw [leading_digits hall] at hlow hhigh hvalue
      exact ⟨⟨hall, by omega, by omega⟩, by omega⟩
    obtain ⟨u', k, hparse, hkeeps⟩ := parseUrl_port ntop getaddrinfo hpart
    refine ⟨(atoiWrites_lt part).mpr hlen, fun hpast => ?_, fun v hv => (hport hv).2, fun w hw => ?_⟩
    · rw [hparse] at hpast
      cases hread : parsePort u' part with
      | ok v => exact (hport hread).1
      | fail err =>
        rw [hread] at hpast
        rw [parsePort_eq, if_neg (by omega)] at hread
        split at hread
        · cases hread
          exact absurd rfl hpast
        · cases hread
      | undefined =>
        rw [parsePort_eq, if_neg (by omega)] at hread
        split at hread
        · cases hread
        · cases hread
    · rw [hparse] at hw
      obtain ⟨v, hv, hk⟩ := Parsed.bind_ok hw
      obtain ⟨hsame, haddr⟩ := (hkeeps v).2 w hk
      rw [hsame]
      exact ⟨(hport hv).2, haddr⟩

end

/-- The letters behind the digits are passed over. -/
theorem letters_passed : ¬PortExact texts (fun _ => none) { url := ascii "127.0.0.1:80abc" } := by
  intro h
  have hhost : Url.Host { url := ascii "127.0.0.1:80abc" } := by
    unfold Url.Host
    decide
  have hpart : PortPart { url := ascii "127.0.0.1:80abc" } (ascii "80abc") :=
    @PortPart.inet _ (ascii "127.0.0.1") _ hhost (by decide) (by decide)
  obtain ⟨-, hpast, -⟩ := h _ hpart
  have hdigits := (hpast (by decide)).1
  exact absurd (hdigits 97 (by decide)) (by decide)

end PgRest.Inet
