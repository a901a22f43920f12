import PgRest.Inet.Addr

/-! What `pgrest_inet_inet_addr` reads as an IPv4 address: the dotted quads, and also texts that are
one but for octets that are empty. -/
namespace PgRest.Inet

/-- The number that decimal digits stand for, behind those of `v`. -/
def decimalFrom (v : Nat) (digits : Bytes) : Nat := digits.foldl (fun v c => v * 10 + (c - 48).toNat) v

/-- Digits of a number up to 255, or none. -/
def Octet (digits : Bytes) : Prop := (∀ c ∈ digits, Digit c) ∧ decimalFrom 0 digits ≤ 255

/-- Four octets with dots between them. -/
def quad (a b c d : Bytes) : Bytes := a ++ dot :: (b ++ dot :: (c ++ dot :: d))

/-- The address of four octets. -/
def quadAddr (a b c d : Bytes) : UInt32 :=
  (((decimalFrom 0 a * 256 + decimalFrom 0 b) * 256 + decimalFrom 0 c) * 256 + decimalFrom 0 d).toUInt32

/-- The text of an IPv4 address. -/
def DottedQuad (text : Bytes) (addr : UInt32) : Prop :=
  ∃ a b c d, text = quad a b c d ∧ addr = quadAddr a b c d ∧ (Octet a ∧ a ≠ []) ∧ (Octet b ∧ b ≠ []) ∧
    (Octet c ∧ c ≠ []) ∧ Octet d ∧ d ≠ []

/-- Four octets of which at least one is empty. -/
def Gapped (text : Bytes) : Prop :=
  ∃ a b c d, text = quad a b c d ∧ Octet a ∧ Octet b ∧ Octet c ∧ Octet d ∧ (a = [] ∨ b = [] ∨ c = [] ∨ d = [])

/-- Dotted quads are read as their address, and nothing else is read as one. -/
def ReadExactly (text : Bytes) : Prop :=
  (∀ addr, DottedQuad text addr → inetAddr text = addr) ∧ ((∀ addr, ¬DottedQuad text addr) → inetAddr text = inaddrNone)

/-! ### Octets -/

theorem le_decimalFrom (v : Nat) (digits : Bytes) : v ≤ decimalFrom v digits := by
  induction digits generalizing v with
  | nil => exact Nat.le_refl v
  | cons c digits ih =>
    have := ih (v * 10 + (c - 48).toNat)
    rw [decimalFrom, List.foldl_cons]
    rw [decimalFrom] at this
    omega

theorem digit_ne_dot {c : UInt8} (h : Digit c) : c ≠ dot := by
  rintro rfl
  exact absurd h (by decide)

/-- The digits of an octet are read one after the other. -/
theorem inetAddrFrom_digits {digits : Bytes} (hdigits : ∀ c ∈ digits, Digit c) (addr : UInt32) (v n : Nat) (text : Bytes)
    (h : decimalFrom v digits ≤ 255) :
    inetAddrFrom addr v n (digits ++ text) = inetAddrFrom addr (decimalFrom v digits) n text := by
  induction digits generalizing v with
  | nil => rfl
  | cons c digits ih =>
    have hle := le_decimalFrom (v * 10 + (c - 48).toNat) digits
    have hfold : decimalFrom v (c :: digits) = decimalFrom (v * 10 + (c - 48).toNat) digits := rfl
    rw [hfold] at h
    rw [List.cons_append, inetAddrFrom, if_pos (hdigits c (List.mem_cons_self ..))]
    dsimp only
    rw [if_neg (by omega), ih (fun c hc => hdigits c (List.mem_cons_of_mem _ hc)) _ h, hfold]

/-- One octet, and what is behind it; else there is no address. -/
theorem inetAddrFrom_cases (addr : UInt32) {v : Nat} (hv : v ≤ 255) (n : Nat) (text : Bytes) :
    inetAddrFrom addr v n text = inaddrNone ∨
      ∃ digits, (∀ c ∈ digits, Digit c) ∧ decimalFrom v digits ≤ 255 ∧ (n = 3 ∧ text = digits ∨
        ∃ rest, text = digits ++ dot :: rest ∧ inetAddrFrom addr v n text =
          inetAddrFrom ((addr <<< 8) + (decimalFrom v digits).toUInt32) 0 (n + 1) rest) := by
  induction text generalizing v with
  | nil =>
    by_cases hn : n = 3
    · exact Or.inr ⟨[], by simp, hv, Or.inl ⟨hn, rfl⟩⟩
    · rw [inetAddrFrom, if_neg hn]
      exact Or.inl rfl
  | cons c text ih =>
    rw [inetAddrFrom]
    split
    · next hc =>
      dsimp only
      split
      · exact Or.inl rfl
      · next hle =>
        refine (ih (Nat.le_of_not_lt hle)).imp_right ?_
        rintro ⟨digits, hdigits, hvalue, hrest⟩
        refine ⟨c :: digits, ?_, hvalue, ?_⟩
        · rintro c' (_ | ⟨_, hc'⟩)
          · exact hc
          · exact hdigits _ hc'
        · rcases hrest with ⟨hn, rfl⟩ | ⟨rest, rfl, heq⟩
          · exact Or.inl ⟨hn, rfl⟩
          · exact Or.inr ⟨rest, rfl, heq⟩
    · split
      · next hdot => exact Or.inr ⟨[], by simp, hv, Or.inr ⟨text, by rw [hdot]; rfl, rfl⟩⟩
      · exact Or.inl rfl

/-- No address has more than four octets. -/
theorem inetAddrFrom_many {n : Nat} (hn : 3 < n) (addr : UInt32) (octet : Nat) (text : Bytes) :
    inetAddrFrom addr octet n text = inaddrNone := by
  induction text generalizing addr octet n with
  | nil => rw [inetAddrFrom, if_neg (by omega)]
  | cons c text ih =>
    rw [inetAddrFrom]
    split
    · dsimp only
      split
      · rfl
      · exact ih hn _ _
    · split
      · exact ih (by omega) _ _
      · rfl

/-! ### Quads -/

/-- What is read as an address is four octets, of which some may be empty. -/
theorem octets_of_read {text : Bytes} (h : inetAddr text ≠ inaddrNone) :
    ∃ a b c d, text = quad a b c d ∧ Octet a ∧ Octet b ∧ Octet c ∧ Octet d := by
  have hstep : ∀ {addr : UInt32} {n : Nat} {text : Bytes}, n < 3 → inetAddrFrom addr 0 n text ≠ inaddrNone →
      ∃ digits rest addr', Octet digits ∧ text = digits ++ dot :: rest ∧
        inetAddrFrom addr' 0 (n + 1) rest ≠ inaddrNone := by
    intro addr n text hn h
    obtain ⟨digits, hdigits, hvalue, ⟨hn', -⟩ | ⟨rest, htext, heq⟩⟩ :=
      (inetAddrFrom_cases addr (by omega) n text).resolve_left h
    · omega
    · rw [heq] at h
      exact ⟨digits, rest, _, ⟨hdigits, hvalue⟩, htext, h⟩
  obtain ⟨a, rest₁, addr₁, ha, rfl, h₁⟩ := hstep (by omega) h
  obtain ⟨b, rest₂, addr₂, hb, rfl, h₂⟩ := hstep (by omega) h₁
  obtain ⟨c, rest₃, addr₃, hc, rfl, h₃⟩ := hstep (by omega) h₂
  obtain ⟨d, hd, hvalue, ⟨-, rfl⟩ | ⟨rest, -, heq⟩⟩ :=
    (inetAddrFrom_cases addr₃ (by omega) 3 rest₃).resolve_left h₃
  · exact ⟨a, b, c, rest₃, rfl, ha, hb, hc, hd, hvalue⟩
  · rw [heq, inetAddrFrom_many (by omega)] at h₃
    exact absurd rfl h₃

/-- Four octets are read as their address. -/
theorem inetAddr_quad {a b c d : Bytes} (ha : Octet a) (hb : Octet b) (hc : Octet c) (hd : Octet d) :
    inetAddr (quad a b c d) = quadAddr a b c d := by
  rw [inetAddr, quad, inetAddrFrom_digits ha.1 _ _ _ _ ha.2, inetAddrFrom_dot, inetAddrFrom_digits hb.1 _ _ _ _ hb.2,
    inetAddrFrom_dot, inetAddrFrom_digits hc.1 _ _ _ _ hc.2, inetAddrFrom_dot, ← List.append_nil d,
    inetAddrFrom_digits hd.1 _ _ _ _ hd.2, inetAddrFrom, if_pos rfl, ← UInt32.toNat_inj, List.append_nil]
  have ha := ha.2
  have hb := hb.2
  have hc := hc.2
  have hd := hd.2
  -- one octet after the other
  have h0 : (0 : UInt32).toNat = 0 := rfl
  have h1 := shift_octet 0 (decimalFrom 0 a) (by decide) (by omega)
  have h2 := shift_octet _ (decimalFrom 0 b) (by rw [h1]; omega) (by omega)
  have h3 := shift_octet _ (decimalFrom 0 c) (by rw [h2, h1]; omega) (by omega)
  rw [shift_octet _ _ (by rw [h3, h2, h1]; omega) (by omega), h3, h2, h1, quadAddr, h0, Nat.zero_mul, Nat.zero_add]
  exact (Nat.mod_eq_of_lt (by omega)).symm

/-- A list is cut at its first `x` in one way only. -/
theorem cut_inj {α : Type*} {x : α} {a b s t : List α} (ha : x ∉ a) (hb : x ∉ b) (h : a ++ x :: s = b ++ x :: t) :
    a = b ∧ s = t := by
  induction a generalizing b with
  | nil =>
    cases b with
    | nil => exact ⟨rfl, (List.cons.inj h).2⟩
    | cons y b => exact absurd ((List.cons.inj h).1 ▸ List.mem_cons_self ..) hb
  | cons y a ih =>
    cases b with
    | nil => exact absurd ((List.cons.inj h).1 ▸ List.mem_cons_self ..) ha
    | cons z b =>
      obtain ⟨rfl, htail⟩ := List.cons.inj h
      obtain ⟨rfl, rfl⟩ := ih (fun hx => ha (List.mem_cons_of_mem _ hx)) (fun hx => hb (List.mem_cons_of_mem _ hx)) htail
      exact ⟨rfl, rfl⟩

theorem Octet.dot_not_mem {digits : Bytes} (h : Octet digits) : dot ∉ digits :=
  fun hdot => digit_ne_dot (h.1 dot hdot) rfl

/-- A text is a quad in one way only. -/
theorem quad_inj {a b c d a' b' c' d' : Bytes} (ha : Octet a) (hb : Octet b) (hc : Octet c) (ha' : Octet a')
    (hb' : Octet b') (hc' : Octet c') (h : quad a b c d = quad a' b' c' d') : a = a' ∧ b = b' ∧ c = c' ∧ d = d' := by
  obtain ⟨rfl, h₁⟩ := cut_inj ha.dot_not_mem ha'.dot_not_mem h
  obtain ⟨rfl, h₂⟩ := cut_inj hb.dot_not_mem hb'.dot_not_mem h₁
  obtain ⟨rfl, h₃⟩ := cut_inj hc.dot_not_mem hc'.dot_not_mem h₂
  exact ⟨rfl, rfl, rfl, h₃⟩

/-- An empty octet is read as zero. -/
theorem Gapped.read {text : Bytes} (h : Gapped text) : inetAddr text ≠ inaddrNone := by
  obtain ⟨a, b, c, d, rfl, ha, hb, hc, hd, hempty⟩ := h
  have hsmall : ((decimalFrom 0 a * 256 + decimalFrom 0 b) * 256 + decimalFrom 0 c) * 256 + decimalFrom 0 d <
      4294967295 := by
    have ha := ha.2
    have hb := hb.2
    have hc := hc.2
    have hd := hd.2
    have hzero : decimalFrom 0 [] = 0 := rfl
    rcases hempty with rfl | rfl | rfl | rfl
    all_goals omega
  rw [inetAddr_quad ha hb hc hd, quadAddr, ne_eq, ← UInt32.toNat_inj]
  generalize ((decimalFrom 0 a * 256 + decimalFrom 0 b) * 256 + decimalFrom 0 c) * 256 + decimalFrom 0 d = v at hsmall
  have hv : v.toUInt32.toNat = v := Nat.mod_eq_of_lt (by omega)
  rw [hv]
  exact Nat.ne_of_lt hsmall

/-- **Texts are read exactly** where no octet is empty. -/
theorem readExactly_iff (text : Bytes) : ReadExactly text ↔ ¬Gapped text := by
  constructor
  · rintro ⟨-, hnone⟩ hgap
    refine hgap.read (hnone fun addr hquad => ?_)
    obtain ⟨a, b, c, d, rfl, ha, hb, hc, hd, hempty⟩ := hgap
    obtain ⟨a', b', c', d', heq, -, ⟨ha', hane⟩, ⟨hb', hbne⟩, ⟨hc', hcne⟩, hd', hdne⟩ := hquad
    obtain ⟨rfl, rfl, rfl, rfl⟩ := quad_inj ha hb hc ha' hb' hc' heq
    rcases hempty with h | h | h | h
    · exact hane h
    · exact hbne h
    · exact hcne h
    · exact hdne h
  · intro hgap
    refine ⟨?_, fun hnone => ?_⟩
    · rintro addr ⟨a, b, c, d, rfl, rfl, ha, hb, hc, hd⟩
      exact inetAddr_quad ha.1 hb.1 hc.1 hd.1
    · by_contra hread
      obtain ⟨a, b, c, d, rfl, ha, hb, hc, hd⟩ := octets_of_read hread
      by_cases hempty : a = [] ∨ b = [] ∨ c = [] ∨ d = []
      · exact hgap ⟨a, b, c, d, rfl, ha, hb, hc, hd, hempty⟩
      · simp only [not_or] at hempty
        exact hnone _ ⟨a, b, c, d, rfl, rfl, ⟨ha, hempty.1⟩, ⟨hb, hempty.2.1⟩, ⟨hc, hempty.2.2.1⟩, hd, hempty.2.2.2⟩

/-- The text of three dots is read as an address. -/
theorem dots_read : ¬∀ text, text ≠ ascii "255.255.255.255" → ReadExactly text := by
  intro h
  obtain ⟨-, hnone⟩ := h (ascii "...") (by decide)
  have hread : inetAddr (ascii "...") = 0 := by decide
  refine absurd (hread.symm.trans (hnone fun addr hquad => ?_)) (by decide)
  obtain ⟨a, b, c, d, heq, -, ⟨ha, hane⟩, -⟩ := hquad
  have htext : ascii "..." = dot :: [dot, dot] := by decide
  cases a with
  | nil => exact hane rfl
  | cons c' a => exact digit_ne_dot (ha.1 c' (List.mem_cons_self ..)) (List.cons.inj (htext.symm.trans heq)).1.symm

end PgRest.Inet
