import PgRest.Inet.Quad

/-! The texts of IPv6 addresses: eight groups of up to four hexadecimal digits with colons between
them, where `::` stands for groups of zeros, and the last two groups may be a dotted quad. The
grammar comes first, then what `pgrest_inet_inet6_addr` makes of the pieces of a text, and then
the texts for which the two differ. -/
namespace PgRest.Inet

/-- A hexadecimal digit. -/
abbrev Hex (c : UInt8) : Prop := Digit c ∨ (97 ≤ c ∧ c ≤ 102) ∨ (65 ≤ c ∧ c ≤ 70)

/-- What a hexadecimal digit stands for. -/
def hexValue (c : UInt8) : Nat := if Digit c then (c - 48).toNat else ((c ||| 0x20) - 97).toNat + 10

/-- The number that hexadecimal digits stand for, behind those of `v`. -/
def hexFrom (v : Nat) (digits : Bytes) : Nat := digits.foldl (fun v c => v * 16 + hexValue c) v

/-- One group of an address. -/
def Group (digits : Bytes) : Prop := digits ≠ [] ∧ digits.length ≤ 4 ∧ ∀ c ∈ digits, Hex c

/-- A word in network order. -/
def wordBytes (word : Nat) : Bytes := [(word / 256).toUInt8, word.toUInt8]

/-- The bytes of some groups. -/
def groupBytes (groups : List Bytes) : Bytes := groups.flatMap fun g => wordBytes (hexFrom 0 g)

/-- Groups with a colon behind each of them. -/
def pieces (groups : List Bytes) : Bytes := groups.flatMap fun g => g ++ [colon]

/-- The last group, or the last two as a dotted quad, and their bytes. -/
inductive Tail : Bytes → Bytes → Prop where
  | group {g} : Group g → Tail g (wordBytes (hexFrom 0 g))
  | quad {a b c d} : Octet a → a ≠ [] → Octet b → b ≠ [] → Octet c → c ≠ [] → Octet d → d ≠ [] →
      Tail (quad a b c d) [(decimalFrom 0 a).toUInt8, (decimalFrom 0 b).toUInt8, (decimalFrom 0 c).toUInt8,
        (decimalFrom 0 d).toUInt8]

/-- The text of an IPv6 address, and the 16 bytes of the address. -/
inductive Address : Bytes → Bytes → Prop where
  | full {left tail last} : (∀ g ∈ left, Group g) → Tail tail last → 2 * left.length + last.length = 16 →
      Address (pieces left ++ tail) (groupBytes left ++ last)
  | gap {left right tail last} : (∀ g ∈ left, Group g) → (∀ g ∈ right, Group g) → Tail tail last →
      2 * left.length + 2 * right.length + last.length ≤ 14 →
      Address (List.intercalate [colon] left ++ colon :: colon :: (pieces right ++ tail))
        (groupBytes left ++ List.replicate (16 - 2 * left.length - 2 * right.length - last.length) 0 ++
          (groupBytes right ++ last))
  | open {left} : (∀ g ∈ left, Group g) → left.length ≤ 7 →
      Address (List.intercalate [colon] left ++ [colon, colon])
        (groupBytes left ++ List.replicate (16 - 2 * left.length) 0)

/-- It is read as what it is. -/
def ReadExactly6 (text : Bytes) : Prop := ∀ addr, inet6Addr text = some addr ↔ Address text addr

/-! ### The pieces of a text -/

/-- What is behind the last colon. -/
inductive Last where
  | none
  | group (g : Bytes)
  | quad (a b c d : Bytes)

/-- The groups of a text in front of the two colons that are next to each other, if there are two, and
behind them. -/
structure Body where
  left : List Bytes
  right : Option (List Bytes)
  last : Last

def Last.text : Last → Bytes
  | .none => []
  | .group g => g
  | .quad a b c d => Inet.quad a b c d

/-- Octets may be empty here. -/
def Last.Formed : Last → Prop
  | .none => True
  | .group g => Group g
  | .quad a b c d => Octet a ∧ Octet b ∧ Octet c ∧ Octet d

def Body.text (b : Body) : Bytes :=
  pieces b.left ++ (b.right.elim [] fun right => colon :: pieces right) ++ b.last.text

structure Body.Formed (b : Body) : Prop where
  left : ∀ g ∈ b.left, Group g
  right : ∀ right ∈ b.right, ∀ g ∈ right, Group g
  last : b.last.Formed

/-- The words of the last piece, where nothing is a word as well. -/
def Last.words : Last → Nat
  | .none => 1
  | .group _ => 1
  | .quad _ _ _ _ => 2

/-- What the last piece writes. -/
def Last.bytes : Last → Bytes
  | .none => [0, 0]
  | .group g => wordBytes (hexFrom 0 g)
  | .quad a b c d => [(decimalFrom 0 a).toUInt8, (decimalFrom 0 b).toUInt8, (decimalFrom 0 c).toUInt8,
      (decimalFrom 0 d).toUInt8]

/-- A quad is read where its first octet has one to four digits, and it is not the address that is all ones. -/
def Last.Plain : Last → Prop
  | .quad a b c d => a ≠ [] ∧ a.length ≤ 4 ∧ quadAddr a b c d ≠ inaddrNone
  | _ => True

/-- There are as many words as an address has, or fewer where two colons are next to each other. -/
def Body.Counted (b : Body) : Prop :=
  match b.right with
  | none => b.last.text ≠ [] ∧ b.left.length + b.last.words = 8
  | some right => b.left.length + right.length + b.last.words ≤ 7

/-- What is written for a body. -/
def Body.bytes (b : Body) : Bytes :=
  match b.right with
  | none => groupBytes b.left ++ b.last.bytes
  | some right => groupBytes b.left ++ List.replicate (2 * (8 - b.left.length - right.length - b.last.words)) 0 ++
      (groupBytes right ++ b.last.bytes)

/-! ### Reading a piece -/

theorem hex_cases {c : UInt8} (h : Hex c) : c ≠ colon ∧ c ≠ dot := by
  constructor
  · rintro rfl
    exact absurd h (by decide)
  · rintro rfl
    exact absurd h (by decide)

theorem forall_byte {P : UInt8 → Prop} (h : ∀ n : Fin 256, P (UInt8.ofFin n)) (c : UInt8) : P c := by
  simpa using h c.toFin

theorem lower_hex (c : UInt8) : ¬Digit c → ((97 ≤ c ||| 0x20 ∧ c ||| 0x20 ≤ 102) ↔ Hex c) :=
  forall_byte (P := fun c => ¬Digit c → ((97 ≤ c ||| 0x20 ∧ c ||| 0x20 ≤ 102) ↔ Hex c)) (by decide +kernel) c

/-- The digits of a group are read one after the other. -/
theorem inet6AddrFrom_group {g : Bytes} (hg : ∀ c ∈ g, Hex c) (s : Inet6) (text : Bytes)
    (hlen : s.nibbles + g.length ≤ 4) :
    inet6AddrFrom s (g ++ text) =
      inet6AddrFrom { s with nibbles := s.nibbles + g.length, word := hexFrom s.word g } text := by
  induction g generalizing s with
  | nil => rfl
  | cons c g ih =>
    have hc := hg c (List.mem_cons_self ..)
    obtain ⟨hcolon, hdot⟩ := hex_cases hc
    have hlen' : s.nibbles + 1 + g.length ≤ 4 := by
      rw [List.length_cons] at hlen
      omega
    have hrest := ih (fun c hc => hg c (List.mem_cons_of_mem _ hc))
      { s with nibbles := s.nibbles + 1, word := s.word * 16 + hexValue c } hlen'
    have hcount : s.nibbles + 1 + g.length = s.nibbles + (c :: g).length := by
      rw [List.length_cons]
      omega
    have hword : hexFrom (s.word * 16 + hexValue c) g = hexFrom s.word (c :: g) := rfl
    rw [List.cons_append, inet6AddrFrom, if_neg hcolon, if_neg fun h => hdot h.1, if_neg (by omega)]
    simp only [hcount, hword] at hrest
    dsimp only
    split
    · next hdigit =>
      rw [← hrest, hexValue, if_pos hdigit]
    · next hdigit =>
      rw [if_pos ((lower_hex c hdigit).mpr hc), ← hrest, hexValue, if_neg hdigit]
      rfl

/-- A colon behind a group writes the group. -/
theorem inet6AddrFrom_colon {s : Inet6} (hs : s.nibbles ≠ 0) (text : Bytes) :
    inet6AddrFrom s (colon :: text) =
      if s.n - 1 ≠ 0 then
        inet6AddrFrom { s.put with digit := some text, n := s.n - 1, nibbles := 0, word := 0 } text
      else none := by
  rw [inet6AddrFrom, if_pos rfl, if_pos hs]

/-- A colon behind a colon is where the zeros are. -/
theorem inet6AddrFrom_gap {s : Inet6} (hs : s.nibbles = 0) (text : Bytes) :
    inet6AddrFrom s (colon :: text) =
      if s.zero = none then inet6AddrFrom { s with digit := some text, zero := some s.addr.length } text
      else none := by
  rw [inet6AddrFrom, if_pos rfl, if_neg (not_not_intro hs)]

/-- Groups are read one after the other, while there is room for one more. -/
theorem inet6AddrFrom_pieces {groups : List Bytes} (hgroups : ∀ g ∈ groups, Group g) {s : Inet6}
    (hnibbles : s.nibbles = 0) (hword : s.word = 0) (hn : 1 ≤ s.n) (text : Bytes) :
    inet6AddrFrom s (pieces groups ++ text) =
      if groups.length < s.n then
        inet6AddrFrom { s with
          addr := s.addr ++ groupBytes groups
          digit := if groups = [] then s.digit else some text
          n := s.n - groups.length } text
      else none := by
  induction groups generalizing s with
  | nil =>
    rw [if_pos (show [].length < s.n from hn)]
    simp [pieces, groupBytes]
  | cons g groups ih =>
    obtain ⟨hne, hlen, hhex⟩ := hgroups g (List.mem_cons_self ..)
    have hpos : g.length ≠ 0 := fun h => hne (List.length_eq_zero_iff.mp h)
    have htext : pieces (g :: groups) ++ text = g ++ colon :: (pieces groups ++ text) := by simp [pieces]
    rw [htext, inet6AddrFrom_group hhex s _ (by omega), inet6AddrFrom_colon (by rw [hnibbles]; simpa using hpos)]
    by_cases hroom : s.n - 1 ≠ 0
    · rw [if_pos hroom, ih (fun g hg => hgroups g (List.mem_cons_of_mem _ hg)) rfl rfl (Nat.one_le_iff_ne_zero.mpr hroom)]
      by_cases hlt : (g :: groups).length < s.n
      · rw [if_pos hlt, if_pos (show groups.length < s.n - 1 by rw [List.length_cons] at hlt; omega)]
        have hdigit : (if groups = [] then some (pieces groups ++ text) else some text) = some text := by
          split
          · next hnil => rw [hnil]; rfl
          · rfl
        have hcount : s.n - 1 - groups.length = s.n - (g :: groups).length := by
          rw [List.length_cons]
          omega
        simp [hdigit, hcount, hnibbles, hword, Inet6.put, groupBytes, wordBytes]
      · rw [if_neg hlt, if_neg (show ¬groups.length < s.n - 1 by rw [List.length_cons] at hlt; omega)]
    · rw [if_neg hroom, if_neg (by rw [List.length_cons]; omega)]

/-! ### Reading a body -/

/-- What is left to do at the end of the text. -/
def Inet6.finish (s : Inet6) : Option Bytes :=
  if s.nibbles = 0 ∧ s.zero = none then none
  else
    let s := { s.put with n := s.n - 1 }
    match s.zero with
    | some z => if s.n ≠ 0 then some (s.addr.take z ++ List.replicate (2 * s.n) 0 ++ s.addr.drop z) else none
    | none => if s.n ≠ 0 then none else some s.addr

/-- The text without the colon that is skipped. -/
def readBody (text : Bytes) : Option Bytes := (inet6AddrFrom {} text).bind Inet6.finish

theorem inet6Addr_eq {text : Bytes} (h : text ≠ []) :
    inet6Addr text = readBody (if text.head? = some colon then text.tail else text) := by
  rw [inet6Addr, if_neg h]
  rfl

/-- The words that the last piece adds: where it is a quad it is read by another function. -/
structure Inet6.Ready (s : Inet6) (last : Bytes) : Prop where
  nibbles : s.nibbles = 0
  word : s.word = 0
  digit : ∀ text ∈ s.digit, text = last

theorem quad_bytes {a b c d : Bytes} (ha : Octet a) (hb : Octet b) (hc : Octet c) (hd : Octet d) :
    (quadAddr a b c d >>> 24).toUInt8 = (decimalFrom 0 a).toUInt8 ∧
      (quadAddr a b c d >>> 16).toUInt8 = (decimalFrom 0 b).toUInt8 ∧
      ((quadAddr a b c d).toNat / 256).toUInt8 = (decimalFrom 0 c).toUInt8 ∧
      (quadAddr a b c d).toNat.toUInt8 = (decimalFrom 0 d).toUInt8 := by
  have ha := ha.2
  have hb := hb.2
  have hc := hc.2
  have hd := hd.2
  have hvalue : (quadAddr a b c d).toNat =
      ((decimalFrom 0 a * 256 + decimalFrom 0 b) * 256 + decimalFrom 0 c) * 256 + decimalFrom 0 d :=
    Nat.mod_eq_of_lt (by omega)
  have hbyte : ∀ n : Nat, n.toUInt8.toNat = n % 256 := fun _ => rfl
  refine ⟨?_, ?_, ?_, ?_⟩
  · rw [← UInt8.toNat_inj, UInt32.toNat_toUInt8, UInt32.toNat_shiftRight, hvalue, hbyte, Nat.shiftRight_eq_div_pow]
    show _ / 16777216 % 256 = _
    omega
  · rw [← UInt8.toNat_inj, UInt32.toNat_toUInt8, UInt32.toNat_shiftRight, hvalue, hbyte, Nat.shiftRight_eq_div_pow]
    show _ / 65536 % 256 = _
    omega
  · rw [← UInt8.toNat_inj, hvalue, hbyte, hbyte]
    omega
  · rw [← UInt8.toNat_inj, hvalue, hbyte, hbyte]
    omega

/-- A group has no more than four digits. -/
theorem inet6AddrFrom_long {g : Bytes} (hg : ∀ c ∈ g, Hex c) (s : Inet6) (text : Bytes) (hle : s.nibbles ≤ 4)
    (hlen : 4 < s.nibbles + g.length) : inet6AddrFrom s (g ++ text) = none := by
  have hcut : g = g.take (4 - s.nibbles) ++ g.drop (4 - s.nibbles) := (List.take_append_drop ..).symm
  have htake : (g.take (4 - s.nibbles)).length = 4 - s.nibbles := by
    rw [List.length_take]
    omega
  obtain ⟨c, rest, hrest⟩ : ∃ c rest, g.drop (4 - s.nibbles) = c :: rest := by
    refine List.exists_cons_of_length_pos ?_
    rw [List.length_drop]
    omega
  have hc : Hex c := hg c (List.mem_of_mem_drop (hrest ▸ List.mem_cons_self ..))
  obtain ⟨hcolon, hdot⟩ := hex_cases hc
  rw [hcut, hrest, List.append_assoc, inet6AddrFrom_group (fun c hc => hg c (List.mem_of_mem_take hc)) s _ (by omega),
    List.cons_append, inet6AddrFrom, if_neg hcolon, if_neg fun h => hdot h.1, if_pos]
  show s.nibbles + (g.take (4 - s.nibbles)).length + 1 > 4
  omega

/-- A dotted quad at the end: its first octet is read as a group, and all of it by `inetAddr`. -/
theorem inet6AddrFrom_quad {a b c d : Bytes} (ha : Octet a) (hb : Octet b) (hc : Octet c) (hd : Octet d) {s : Inet6}
    (hs : s.Ready (quad a b c d)) :
    inet6AddrFrom s (quad a b c d) =
      if (a ≠ [] ∧ a.length ≤ 4 ∧ quadAddr a b c d ≠ inaddrNone) ∧ 2 ≤ s.n ∧ s.digit ≠ none then
        some { s with
          nibbles := a.length
          addr := s.addr ++ [(decimalFrom 0 a).toUInt8, (decimalFrom 0 b).toUInt8]
          word := (quadAddr a b c d).toNat
          n := s.n - 1 }
      else none := by
  have hhex : ∀ c ∈ a, Hex c := fun c hc => Or.inl (ha.1 c hc)
  by_cases hne : a = []
  · subst hne
    rw [if_neg fun h => h.1.1 rfl, quad, List.nil_append, inet6AddrFrom, if_neg (by decide),
      if_neg fun h => h.2 hs.nibbles]
    split
    · rfl
    · dsimp only
      rw [if_neg (by decide), if_neg (by decide)]
  by_cases hlong : a.length ≤ 4
  · rw [quad, inet6AddrFrom_group hhex s _ (by rw [hs.nibbles]; omega), inet6AddrFrom, if_neg (by decide),
      if_pos ⟨rfl, by rw [hs.nibbles]; simpa using hne⟩]
    dsimp only
    cases hdigit : s.digit with
    | none => rw [if_neg fun h => h.2.2 rfl]
    | some text =>
      obtain rfl := hs.digit text hdigit
      dsimp only
      rw [inetAddr_quad ha hb hc hd]
      obtain ⟨h24, h16, -⟩ := quad_bytes ha hb hc hd
      by_cases hn : s.n < 2
      · rw [if_pos hn, if_neg fun h => absurd h.2.1 (by omega)]
      · rw [if_neg hn]
        by_cases hnone : quadAddr a b c d = inaddrNone
        · rw [if_pos hnone, if_neg fun h => h.1.2.2 hnone]
        · rw [if_neg hnone, if_pos ⟨⟨hne, hlong, hnone⟩, by omega, by simp⟩, h24, h16, hs.nibbles, Nat.zero_add]
  · rw [if_neg fun h => hlong h.1.2.1, quad, inet6AddrFrom_long hhex s _ (by rw [hs.nibbles]; omega) (by omega)]

end PgRest.Inet
