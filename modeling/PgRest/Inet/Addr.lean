import PgRest.Bytes

/-! Addresses and their texts: `pgrest_inet_inet_addr` and `pgrest_inet_inet6_addr`.

An `in_addr_t` stands here for its value in the order of the host: `htonl` and `ntohl` go
from one to the other, and `INADDR_NONE` and `INADDR_ANY` are the same in both. -/
namespace PgRest.Inet

/-- The address in a `sockaddr_in` or a `sockaddr_in6`. -/
inductive Addr where
  | inet (addr : UInt32)
  /-- the 16 bytes of `s6_addr` -/
  | inet6 (addr : Vector UInt8 16)
deriving DecidableEq

/-- All bytes of it are zero. -/
def Addr.IsAny : Addr → Prop
  | .inet addr => addr = 0
  | .inet6 addr => addr = Vector.replicate 16 0

instance (a : Addr) : Decidable a.IsAny := by
  cases a <;> unfold Addr.IsAny <;> infer_instance

/-- `INADDR_NONE` -/
def inaddrNone : UInt32 := 0xffffffff

/-- `c >= '0' && c <= '9'` -/
abbrev Digit (c : UInt8) : Prop := 48 ≤ c ∧ c ≤ 57

/-- `'.'` -/
abbrev dot : UInt8 := 46

/-- The loop of `pgrest_inet_inet_addr`. -/
def inetAddrFrom (addr : UInt32) (octet n : Nat) : Bytes → UInt32
  | [] => if n = 3 then (addr <<< 8) + octet.toUInt32 else inaddrNone
  | c :: text =>
    if Digit c then
      let octet := octet * 10 + (c - 48).toNat
      if octet > 255 then inaddrNone else inetAddrFrom addr octet n text
    else if c = dot then inetAddrFrom ((addr <<< 8) + octet.toUInt32) 0 (n + 1) text
    else inaddrNone

/-- `pgrest_inet_inet_addr` -/
def inetAddr (text : Bytes) : UInt32 := inetAddrFrom 0 0 0 text

/-- What `pgrest_inet_inet6_addr` has written to `addr` and keeps in its variables. -/
structure Inet6 where
  addr : Bytes := []
  /-- how far `zero` lies behind the start of the address -/
  zero : Option Nat := none
  /-- the `len4 - 1` bytes from `digit` on -/
  digit : Option Bytes := none
  nibbles : Nat := 0
  word : Nat := 0
  n : Nat := 8
deriving DecidableEq, Repr

/-- `*addr++ = word >> 8, *addr++ = word & 0xff` -/
def Inet6.put (s : Inet6) : Inet6 :=
  { s with addr := s.addr ++ [(s.word / 256).toUInt8, s.word.toUInt8] }

/-- The loop of `pgrest_inet_inet6_addr`, up to where it ends or breaks. -/
def inet6AddrFrom (s : Inet6) : Bytes → Option Inet6
  | [] => some s
  | c :: text =>
    if c = colon then
      if s.nibbles ≠ 0 then
        let s := { s.put with digit := some text, n := s.n - 1 }
        if s.n ≠ 0 then inet6AddrFrom { s with nibbles := 0, word := 0 } text else none
      else if s.zero = none then
        inet6AddrFrom { s with digit := some text, zero := some s.addr.length } text
      else none
    else if c = dot ∧ s.nibbles ≠ 0 then
      match s.digit with
      | none => none
      | some digit =>
        if s.n < 2 then none
        else
          let word := inetAddr digit
          if word = inaddrNone then none
          else
            some
              { s with
                addr := s.addr ++ [(word >>> 24).toUInt8, (word >>> 16).toUInt8]
                word := word.toNat, n := s.n - 1 }
    else if s.nibbles + 1 > 4 then none
    else
      let s := { s with nibbles := s.nibbles + 1 }
      if Digit c then inet6AddrFrom { s with word := s.word * 16 + (c - 48).toNat } text
      else
        let c := c ||| 0x20
        if 97 ≤ c ∧ c ≤ 102 then inet6AddrFrom { s with word := s.word * 16 + (c - 97).toNat + 10 } text
        else none

/-- `pgrest_inet_inet6_addr`: the 16 bytes it writes, unless it returns false. -/
def inet6Addr (text : Bytes) : Option Bytes :=
  if text = [] then none
  else
    let text := if text.head? = some colon then text.tail else text
    (inet6AddrFrom {} text).bind fun s =>
      if s.nibbles = 0 ∧ s.zero = none then none
      else
        let s := { s.put with n := s.n - 1 }
        match s.zero with
        | some z =>
          -- what lies behind `zero` moves to the end
          if s.n ≠ 0 then some (s.addr.take z ++ List.replicate (2 * s.n) 0 ++ s.addr.drop z) else none
        | none => if s.n ≠ 0 then none else some s.addr

/-! ### The bytes of an IPv6 address -/

/-- Each word that is left to write has its place. -/
def Inet6.Fits (s : Inet6) : Prop := s.addr.length + 2 * s.n = 16 ∧ 1 ≤ s.n ∧ ∀ z ∈ s.zero, z ≤ s.addr.length

theorem Inet6.put_length (s : Inet6) : s.put.addr.length = s.addr.length + 2 := by
  rw [Inet6.put, List.length_append]
  rfl

theorem inet6AddrFrom_fits {s s' : Inet6} {text : Bytes} (hs : s.Fits) (h : inet6AddrFrom s text = some s') :
    s'.Fits := by
  fun_induction inet6AddrFrom s text with
  | case1 s => cases h; exact hs
  | case2 s text hn s₁ hn₁ ih =>
    obtain ⟨hlen, hpos, hzero⟩ := hs
    have hput := s.put_length
    refine ih ⟨?_, Nat.pos_of_ne_zero hn₁, fun z hz => ?_⟩ h
    · show s.put.addr.length + 2 * (s.n - 1) = 16
      omega
    · show z ≤ s.put.addr.length
      have := hzero z hz
      omega
  | case3 => cases h
  | case4 s text hn hzero ih =>
    refine ih ⟨hs.1, hs.2.1, fun z hz => ?_⟩ h
    cases hz
    exact Nat.le_refl _
  | case5 => cases h
  | case6 => cases h
  | case7 => cases h
  | case8 => cases h
  | case9 s c text hc hdot digit hdigit hn word hword =>
    cases h
    obtain ⟨hlen, hpos, hzero⟩ := hs
    refine ⟨?_, ?_, fun z hz => ?_⟩
    · simp only [List.length_append, List.length_cons, List.length_nil]
      omega
    · show 1 ≤ s.n - 1
      omega
    · have := hzero z hz
      simp only [List.length_append]
      omega
  | case10 => cases h
  | case11 s c text hc hdot hn s₁ hd ih => exact ih hs h
  | case12 s c text hc hdot hn s₁ hd c₁ hx ih => exact ih hs h
  | case13 => cases h

/-- What it writes is an address. -/
theorem inet6Addr_length {text addr : Bytes} (h : inet6Addr text = some addr) : addr.length = 16 := by
  unfold inet6Addr at h
  split at h
  · cases h
  obtain ⟨s, hs, h⟩ := Option.bind_eq_some_iff.mp h
  have hfits : s.Fits := inet6AddrFrom_fits (by simp [Inet6.Fits]) hs
  obtain ⟨hlen, hpos, hzero⟩ := hfits
  have hput := s.put_length
  split at h
  · cases h
  dsimp only at h
  split at h
  · next z hz =>
    split at h
    · cases h
      have := hzero z hz
      simp only [List.length_append, List.length_take, List.length_replicate, List.length_drop]
      omega
    · cases h
  · split at h
    · cases h
    · cases h
      omega

/-- The 16 bytes. -/
def inet6Bytes (text : Bytes) : Option (Vector UInt8 16) :=
  (inet6Addr text).attach.map fun addr => ⟨addr.1.toArray, inet6Addr_length addr.2⟩

/-! ### Printing -/

/-- What `%d` prints. -/
def decimal (n : Nat) : Bytes :=
  if n < 10 then [48 + n.toUInt8] else decimal (n / 10) ++ [48 + (n % 10).toUInt8]

theorem digit_value {n : Nat} (h : n < 10) : Digit (48 + n.toUInt8) ∧ (48 + n.toUInt8 - 48).toNat = n := by
  have hmod : n.toUInt8.toNat = n := Nat.mod_eq_of_lt (by omega)
  refine ⟨⟨?_, ?_⟩, ?_⟩
  · rw [UInt8.le_iff_toNat_le, UInt8.toNat_add, hmod]
    show 48 ≤ (48 + n) % 256
    omega
  · rw [UInt8.le_iff_toNat_le, UInt8.toNat_add, hmod]
    show (48 + n) % 256 ≤ 57
    omega
  · rw [UInt8.add_comm, UInt8.add_sub_cancel, hmod]

theorem decimal_digits (n : Nat) : ∀ c ∈ decimal n, Digit c := by
  induction n using decimal.induct with
  | case1 n h =>
    intro c hc
    rw [decimal, if_pos h] at hc
    obtain rfl := List.mem_singleton.mp hc
    exact (digit_value h).1
  | case2 n h ih =>
    intro c hc
    rw [decimal, if_neg h] at hc
    rcases List.mem_append.mp hc with hc | hc
    · exact ih c hc
    · obtain rfl := List.mem_singleton.mp hc
      exact (digit_value (Nat.mod_lt n (by decide))).1

theorem decimal_head (n : Nat) : ∃ c text, decimal n = c :: text ∧ Digit c := by
  cases h : decimal n with
  | nil =>
    rw [decimal] at h
    split at h
    · cases h
    · exact absurd h (List.append_ne_nil_of_right_ne_nil _ (List.cons_ne_nil _ _))
  | cons c text => exact ⟨c, text, rfl, decimal_digits n c (h ▸ List.mem_cons_self ..)⟩

/-- The standard text of an IPv4 address. -/
def dottedQuad (addr : UInt32) : Bytes :=
  let a := addr.toNat
  decimal (a / 16777216) ++ dot :: (decimal (a / 65536 % 256) ++ dot :: (decimal (a / 256 % 256) ++
    dot :: decimal (a % 256)))

/-- A number up to 255 is read as one octet. -/
theorem inetAddrFrom_decimal {k : Nat} (hk : k ≤ 255) (addr : UInt32) (n : Nat) (text : Bytes) :
    inetAddrFrom addr 0 n (decimal k ++ text) = inetAddrFrom addr k n text := by
  induction k using decimal.induct generalizing text with
  | case1 k h =>
    obtain ⟨hdigit, hvalue⟩ := digit_value h
    rw [decimal, if_pos h, List.singleton_append, inetAddrFrom, if_pos hdigit, hvalue]
    simp only [Nat.zero_mul, Nat.zero_add]
    rw [if_neg (by omega)]
  | case2 k h ih =>
    obtain ⟨hdigit, hvalue⟩ := digit_value (Nat.mod_lt k (by decide : 0 < 10))
    have hsum : k / 10 * 10 + k % 10 = k := by omega
    rw [decimal, if_neg h, List.append_assoc, ih (by omega), List.singleton_append, inetAddrFrom, if_pos hdigit,
      hvalue, hsum]
    dsimp only
    rw [if_neg (by omega)]

theorem inetAddrFrom_dot (addr : UInt32) (octet n : Nat) (text : Bytes) :
    inetAddrFrom addr octet n (dot :: text) = inetAddrFrom ((addr <<< 8) + octet.toUInt32) 0 (n + 1) text := by
  rw [inetAddrFrom, if_neg (by decide), if_pos rfl]

/-- While the address has fewer than four octets none of them is lost. -/
theorem shift_octet (addr : UInt32) (octet : Nat) (ha : addr.toNat < 16777216) (ho : octet < 256) :
    ((addr <<< 8) + octet.toUInt32).toNat = addr.toNat * 256 + octet := by
  have hshift : (addr <<< 8).toNat = addr.toNat * 256 := by
    rw [UInt32.toNat_shiftLeft, Nat.shiftLeft_eq]
    show addr.toNat * 256 % 4294967296 = _
    omega
  have hoctet : octet.toUInt32.toNat = octet := Nat.mod_eq_of_lt (by omega)
  rw [UInt32.toNat_add, hshift, hoctet]
  omega

/-- The text of an address is read as the address. -/
theorem inetAddr_dottedQuad (addr : UInt32) : inetAddr (dottedQuad addr) = addr := by
  have hlt : addr.toNat < 4294967296 := addr.toNat_lt
  have h0 : (0 : UInt32).toNat = 0 := rfl
  rw [inetAddr, dottedQuad, inetAddrFrom_decimal (by omega), inetAddrFrom_dot, inetAddrFrom_decimal (by omega),
    inetAddrFrom_dot, inetAddrFrom_decimal (by omega), inetAddrFrom_dot,
    ← List.append_nil (decimal (addr.toNat % 256)), inetAddrFrom_decimal (by omega), inetAddrFrom, if_pos rfl,
    ← UInt32.toNat_inj]
  -- one octet after the other
  have h1 := shift_octet 0 (addr.toNat / 16777216) (by decide) (by omega)
  have h2 := shift_octet _ (addr.toNat / 65536 % 256) (by rw [h1]; omega) (by omega)
  have h3 := shift_octet _ (addr.toNat / 256 % 256) (by rw [h2, h1]; omega) (by omega)
  rw [shift_octet _ _ (by rw [h3, h2, h1]; omega) (by omega), h3, h2, h1]
  omega

theorem dottedQuad_digits (addr : UInt32) : ∀ c ∈ dottedQuad addr, Digit c ∨ c = dot := by
  intro c hc
  simp only [dottedQuad, List.mem_append, List.mem_cons] at hc
  rcases hc with hc | rfl | hc | rfl | hc | rfl | hc
  · exact Or.inl (decimal_digits _ c hc)
  · exact Or.inr rfl
  · exact Or.inl (decimal_digits _ c hc)
  · exact Or.inr rfl
  · exact Or.inl (decimal_digits _ c hc)
  · exact Or.inr rfl
  · exact Or.inl (decimal_digits _ c hc)

end PgRest.Inet
