import Mathlib
import PgRest.Bytes

/-! UTF-8 as the JSON library reads and writes it. A sequence is checked as a whole when its first byte is
read; what passes is the encoding of one character, and of nothing but a character. -/
namespace PgRest.Jansson

/-- `utf8_encode`: the bytes it writes, `none` where it returns -1. -/
def utf8Encode (codepoint : Int) : Option Bytes :=
  if codepoint < 0 then none
  else
    let c := codepoint.toNat
    if c < 0x80 then some [c.toUInt8]
    else if c < 0x800 then some [(0xC0 + ((c &&& 0x7C0) >>> 6)).toUInt8, (0x80 + (c &&& 0x03F)).toUInt8]
    else if c < 0x10000 then
      some [(0xE0 + ((c &&& 0xF000) >>> 12)).toUInt8, (0x80 + ((c &&& 0x0FC0) >>> 6)).toUInt8,
        (0x80 + (c &&& 0x003F)).toUInt8]
    else if c ≤ 0x10FFFF then
      some [(0xF0 + ((c &&& 0x1C0000) >>> 18)).toUInt8, (0x80 + ((c &&& 0x03F000) >>> 12)).toUInt8,
        (0x80 + ((c &&& 0x000FC0) >>> 6)).toUInt8, (0x80 + (c &&& 0x00003F)).toUInt8]
    else none

/-- `utf8_check_first` -/
def utf8CheckFirst (u : UInt8) : Nat :=
  if u < 0x80 then 1
  else if 0x80 ≤ u && u ≤ 0xBF then 0
  else if u == 0xC0 || u == 0xC1 then 0
  else if 0xC2 ≤ u && u ≤ 0xDF then 2
  else if 0xE0 ≤ u && u ≤ 0xEF then 3
  else if 0xF0 ≤ u && u ≤ 0xF4 then 4
  else 0

/-- The loop of `utf8_check_full`. -/
def continuation (value : Nat) : Bytes → Option Nat
  | [] => some value
  | u :: buffer =>
    if u < 0x80 || u > 0xBF then none
    else continuation ((value <<< 6) + (u.toNat &&& 0x3F)) buffer

/-- `utf8_check_full`: the code point, `none` where it returns 0. -/
def utf8CheckFull (buffer : Bytes) (size : Nat) : Option Nat :=
  let u := (buffer.headD 0).toNat
  let first :=
    if size = 2 then some (u &&& 0x1F)
    else if size = 3 then some (u &&& 0xF)
    else if size = 4 then some (u &&& 0x7)
    else none
  first.bind fun value => (continuation value (buffer.take size).tail).bind fun value =>
    if value > 0x10FFFF then none
    else if 0xD800 ≤ value ∧ value ≤ 0xDFFF then none
    else if (size = 2 ∧ value < 0x80) ∨ (size = 3 ∧ value < 0x800) ∨ (size = 4 ∧ value < 0x10000) then none
    else some value

/-- `utf8_iterate`: the code point, if there is a byte to be read, and the buffer behind it; `none` where it
returns NULL. -/
def utf8Iterate (buffer : Bytes) : Option (Option Nat × Bytes) :=
  match buffer with
  | [] => some (none, [])
  | byte :: _ =>
    let count := utf8CheckFirst byte
    if count = 0 then none
    else if count = 1 then some (some byte.toNat, buffer.drop 1)
    else if count > buffer.length then none
    else (utf8CheckFull buffer count).map fun value => (some value, buffer.drop count)

/-- `utf8_check_string` -/
def utf8CheckString : Bytes → Bool
  | [] => true
  | byte :: string =>
    let count := utf8CheckFirst byte
    if count = 0 then false
    else if count > 1 then
      if count > string.length + 1 then false
      else if (utf8CheckFull (byte :: string) count).isNone then false
      else utf8CheckString (string.drop (count - 1))
    else utf8CheckString string
termination_by string => string.length

/-! ### Sequences -/

/-- The text of some characters. -/
def utf8 (cs : List Char) : Bytes := cs.flatMap String.utf8EncodeChar

theorem utf8_cons (c : Char) (cs : List Char) : utf8 (c :: cs) = String.utf8EncodeChar c ++ utf8 cs := List.flatMap_cons

theorem checkFirst_one {u : UInt8} : utf8CheckFirst u = 1 ↔ u < 0x80 := by
  unfold utf8CheckFirst
  grind

theorem checkFirst_two {u : UInt8} : utf8CheckFirst u = 2 ↔ 0xC2 ≤ u ∧ u ≤ 0xDF := by
  unfold utf8CheckFirst
  grind

theorem checkFirst_three {u : UInt8} : utf8CheckFirst u = 3 ↔ 0xE0 ≤ u ∧ u ≤ 0xEF := by
  unfold utf8CheckFirst
  grind

theorem checkFirst_four {u : UInt8} : utf8CheckFirst u = 4 ↔ 0xF0 ≤ u ∧ u ≤ 0xF4 := by
  unfold utf8CheckFirst
  grind

theorem checkFirst_cases (u : UInt8) : utf8CheckFirst u = 0 ∨ utf8CheckFirst u = 1 ∨ utf8CheckFirst u = 2 ∨
    utf8CheckFirst u = 3 ∨ utf8CheckFirst u = 4 := by
  unfold utf8CheckFirst
  grind

/-- A code point that is no surrogate is a character. -/
theorem exists_char (value : Nat) (h : value ≤ 0x10FFFF) (hs : ¬(0xD800 ≤ value ∧ value ≤ 0xDFFF)) :
    ∃ c : Char, c.val.toNat = value := by
  refine ⟨⟨UInt32.ofNat value, ?_⟩, ?_⟩
  · show (UInt32.ofNat value).toNat < 0xD800 ∨ _
    rw [UInt32.toNat_ofNat_of_lt' (by simp [UInt32.size]; omega)]
    omega
  · exact UInt32.toNat_ofNat_of_lt' (by simp [UInt32.size]; omega)

/-- The bytes that continue a sequence. -/
def IsTail (u : UInt8) : Prop := 0x80 ≤ u.toNat ∧ u.toNat ≤ 0xBF

theorem continuation_nil {value v : Nat} : continuation value [] = some v ↔ v = value := by
  rw [continuation, Option.some.injEq, eq_comm]

theorem continuation_cons {value v : Nat} {u : UInt8} {buffer : Bytes} :
    continuation value (u :: buffer) = some v ↔
      IsTail u ∧ continuation (value * 64 + u.toNat % 64) buffer = some v := by
  have hmask : u.toNat &&& 0x3F = u.toNat % 64 := Nat.and_two_pow_sub_one_eq_mod u.toNat 6
  rw [continuation, IsTail, hmask, Nat.shiftLeft_eq]
  have hlow : u < 0x80 ↔ u.toNat < 0x80 := UInt8.lt_iff_toNat_lt
  have hhigh : u > 0xBF ↔ 0xBF < u.toNat := UInt8.lt_iff_toNat_lt
  simp only [Bool.or_eq_true, decide_eq_true_eq, hlow, hhigh]
  split
  · exact iff_of_false (by simp) fun h => by omega
  · exact ⟨fun h => ⟨by omega, h⟩, fun h => h.2⟩

section Full
variable {a b c d : UInt8} {rest : Bytes} {v : Nat}

theorem checkFull_two : utf8CheckFull (a :: b :: rest) 2 = some v ↔
    IsTail b ∧ v = a.toNat % 32 * 64 + b.toNat % 64 ∧ 0x80 ≤ v := by
  have hmask : a.toNat &&& 0x1F = a.toNat % 32 := Nat.and_two_pow_sub_one_eq_mod a.toNat 5
  simp only [utf8CheckFull, List.headD_cons, if_true, hmask, Option.bind_some, Option.bind_eq_some_iff,
    List.take_succ_cons, List.take_zero, List.tail_cons, continuation_cons, continuation_nil]
  constructor
  · rintro ⟨w, ⟨hb, rfl⟩, h⟩
    split_ifs at h
    simp_all
  · rintro ⟨hb, rfl, hv⟩
    refine ⟨_, ⟨hb, rfl⟩, ?_⟩
    split_ifs <;> first | rfl | omega

theorem checkFull_three : utf8CheckFull (a :: b :: c :: rest) 3 = some v ↔
    IsTail b ∧ IsTail c ∧ v = (a.toNat % 16 * 64 + b.toNat % 64) * 64 + c.toNat % 64 ∧ 0x800 ≤ v ∧
      ¬(0xD800 ≤ v ∧ v ≤ 0xDFFF) := by
  have hmask : a.toNat &&& 0xF = a.toNat % 16 := Nat.and_two_pow_sub_one_eq_mod a.toNat 4
  simp only [utf8CheckFull, List.headD_cons, if_true, hmask, Option.bind_some, Option.bind_eq_some_iff,
    List.take_succ_cons, List.take_zero, List.tail_cons, continuation_cons, continuation_nil,
    show ((3 : Nat) = 2) = False by simp, if_false]
  constructor
  · rintro ⟨w, ⟨hb, hc, rfl⟩, h⟩
    split_ifs at h
    simp_all
  · rintro ⟨hb, hc, rfl, hv, hs⟩
    refine ⟨_, ⟨hb, hc, rfl⟩, ?_⟩
    split_ifs <;> first | rfl | omega

theorem checkFull_four : utf8CheckFull (a :: b :: c :: d :: rest) 4 = some v ↔
    IsTail b ∧ IsTail c ∧ IsTail d ∧
      v = ((a.toNat % 8 * 64 + b.toNat % 64) * 64 + c.toNat % 64) * 64 + d.toNat % 64 ∧
      0x10000 ≤ v ∧ v ≤ 0x10FFFF := by
  have hmask : a.toNat &&& 0x7 = a.toNat % 8 := Nat.and_two_pow_sub_one_eq_mod a.toNat 3
  simp only [utf8CheckFull, List.headD_cons, if_true, hmask, Option.bind_some, Option.bind_eq_some_iff,
    List.take_succ_cons, List.take_zero, List.tail_cons, continuation_cons, continuation_nil,
    show ((4 : Nat) = 2) = False by simp, show ((4 : Nat) = 3) = False by simp, if_false]
  constructor
  · rintro ⟨w, ⟨hb, hc, hd, rfl⟩, h⟩
    split_ifs at h
    simp_all
  · rintro ⟨hb, hc, hd, rfl, hv, hs⟩
    refine ⟨_, ⟨hb, hc, hd, rfl⟩, ?_⟩
    split_ifs <;> first | rfl | omega

end Full

/-- The bytes of a character, by how many there are. -/
theorem encodeChar_cases (c : Char) :
    let v := c.val.toNat
    (v < 0x80 ∧ String.utf8EncodeChar c = [v.toUInt8]) ∨
    (0x80 ≤ v ∧ v < 0x800 ∧ String.utf8EncodeChar c = [(v / 64 + 0xC0).toUInt8, (v % 64 + 0x80).toUInt8]) ∨
    (0x800 ≤ v ∧ v < 0x10000 ∧ ¬(0xD800 ≤ v ∧ v ≤ 0xDFFF) ∧
      String.utf8EncodeChar c =
        [(v / 4096 + 0xE0).toUInt8, (v / 64 % 64 + 0x80).toUInt8, (v % 64 + 0x80).toUInt8]) ∨
    (0x10000 ≤ v ∧ v ≤ 0x10FFFF ∧
      String.utf8EncodeChar c =
        [(v / 262144 + 0xF0).toUInt8, (v / 4096 % 64 + 0x80).toUInt8, (v / 64 % 64 + 0x80).toUInt8,
          (v % 64 + 0x80).toUInt8]) := by
  have hvalid : c.val.toNat < 0xD800 ∨ (0xDFFF < c.val.toNat ∧ c.val.toNat < 0x110000) := c.valid
  simp only [String.utf8EncodeChar]
  generalize c.val.toNat = v at hvalid ⊢
  by_cases h1 : v ≤ 0x7F
  · exact Or.inl ⟨by omega, by rw [if_pos h1]⟩
  by_cases h2 : v ≤ 0x7FF
  · refine Or.inr (Or.inl ⟨by omega, by omega, ?_⟩)
    rw [if_neg h1, if_pos h2, Nat.mod_eq_of_lt (show v / 64 < 0x20 by omega)]
  by_cases h3 : v ≤ 0xFFFF
  · refine Or.inr (Or.inr (Or.inl ⟨by omega, by omega, by omega, ?_⟩))
    rw [if_neg h1, if_neg h2, if_pos h3, Nat.mod_eq_of_lt (show v / 4096 < 0x10 by omega)]
  · refine Or.inr (Or.inr (Or.inr ⟨by omega, by omega, ?_⟩))
    rw [if_neg h1, if_neg h2, if_neg h3, Nat.mod_eq_of_lt (show v / 262144 < 0x08 by omega)]

theorem toNat_byte {n : Nat} (h : n < 256) : n.toUInt8.toNat = n := by
  rw [Nat.toUInt8_eq, UInt8.toNat_ofNat']
  exact Nat.mod_eq_of_lt h

theorem byte_eq {u : UInt8} {n : Nat} (h : u.toNat = n) : u = n.toUInt8 :=
  UInt8.toNat_inj.mp (h.trans (toNat_byte (h ▸ u.toNat_lt)).symm)

/-- A sequence as it is read: a first byte, and the others if they are checked. -/
inductive Sequence : Bytes → Nat → Prop
  | one {u : UInt8} : utf8CheckFirst u = 1 → Sequence [u] u.toNat
  | full {u : UInt8} {us : Bytes} {value : Nat} : 1 < utf8CheckFirst u → us.length + 1 = utf8CheckFirst u →
    utf8CheckFull (u :: us) (us.length + 1) = some value → Sequence (u :: us) value

/-- **A sequence is the encoding of a character.** -/
theorem sequence_iff {seq : Bytes} {value : Nat} :
    Sequence seq value ↔ ∃ c : Char, c.val.toNat = value ∧ seq = String.utf8EncodeChar c := by
  constructor
  · intro h
    cases h with
    | @one u h =>
      have hu : u.toNat < 0x80 := UInt8.lt_iff_toNat_lt.mp (checkFirst_one.mp h)
      obtain ⟨c, hc⟩ := exists_char u.toNat (by omega) (by omega)
      refine ⟨c, hc, ?_⟩
      rcases encodeChar_cases c with ⟨-, he⟩ | ⟨hlow, -⟩ | ⟨hlow, -⟩ | ⟨hlow, -⟩
      · rw [he, ← byte_eq hc.symm]
      all_goals omega
    | @full u us value hfirst hlen hfull =>
      rcases checkFirst_cases u with h | h | h | h | h <;> rw [h] at hfirst hlen
      · omega
      · omega
      · match us, hlen with
        | [b], _ =>
          obtain ⟨hb, hv, hlow⟩ := checkFull_two.mp hfull
          obtain ⟨hu, hu'⟩ := checkFirst_two.mp h
          have hu := UInt8.le_iff_toNat_le.mp hu
          have hu' := UInt8.le_iff_toNat_le.mp hu'
          have hb := hb
          simp only [IsTail, UInt8.reduceToNat] at hb hu hu'
          obtain ⟨c, hc⟩ := exists_char value (by omega) (by omega)
          refine ⟨c, hc, ?_⟩
          rcases encodeChar_cases c with ⟨hlt, -⟩ | ⟨-, -, he⟩ | ⟨hle, -⟩ | ⟨hle, -⟩ <;> try omega
          rw [he, ← byte_eq (u := u) (by omega), ← byte_eq (u := b) (by omega)]
      · match us, hlen with
        | [b, d], _ =>
          obtain ⟨hb, hd, hv, hlow, hs⟩ := checkFull_three.mp hfull
          obtain ⟨hu, hu'⟩ := checkFirst_three.mp h
          have hu := UInt8.le_iff_toNat_le.mp hu
          have hu' := UInt8.le_iff_toNat_le.mp hu'
          simp only [IsTail, UInt8.reduceToNat] at hb hd hu hu'
          obtain ⟨c, hc⟩ := exists_char _ (by omega) hs
          refine ⟨c, hc, ?_⟩
          rcases encodeChar_cases c with ⟨hlt, -⟩ | ⟨-, hlt, -⟩ | ⟨-, -, -, he⟩ | ⟨hle, -⟩ <;> try omega
          rw [he, ← byte_eq (u := u) (by omega), ← byte_eq (u := b) (by omega), ← byte_eq (u := d) (by omega)]
      · match us, hlen with
        | [b, d, e], _ =>
          obtain ⟨hb, hd, he', hv, hlow, hhigh⟩ := checkFull_four.mp hfull
          obtain ⟨hu, hu'⟩ := checkFirst_four.mp h
          have hu := UInt8.le_iff_toNat_le.mp hu
          have hu' := UInt8.le_iff_toNat_le.mp hu'
          simp only [IsTail, UInt8.reduceToNat] at hb hd he' hu hu'
          obtain ⟨c, hc⟩ := exists_char _ hhigh (by omega)
          refine ⟨c, hc, ?_⟩
          rcases encodeChar_cases c with ⟨hlt, -⟩ | ⟨-, hlt, -⟩ | ⟨-, hlt, -⟩ | ⟨-, -, he⟩ <;> try omega
          rw [he, ← byte_eq (u := u) (by omega), ← byte_eq (u := b) (by omega), ← byte_eq (u := d) (by omega),
            ← byte_eq (u := e) (by omega)]
  · rintro ⟨c, rfl, rfl⟩
    rcases encodeChar_cases c with ⟨hlt, he⟩ | ⟨hle, hlt, he⟩ | ⟨hle, hlt, hs, he⟩ | ⟨hle, hlt, he⟩
    all_goals
      rw [he]
      generalize c.val.toNat = v at *
    · have hu := toNat_byte (n := v) (by omega)
      have h := Sequence.one (checkFirst_one.mpr (UInt8.lt_iff_toNat_lt.mpr (by rw [hu]; exact hlt)))
      rwa [hu] at h
    · have ha := toNat_byte (n := v / 64 + 0xC0) (by omega)
      have hb := toNat_byte (n := v % 64 + 0x80) (by omega)
      have hfirst : utf8CheckFirst (v / 64 + 0xC0).toUInt8 = 2 := by
        rw [checkFirst_two, UInt8.le_iff_toNat_le, UInt8.le_iff_toNat_le, ha]
        simp only [UInt8.reduceToNat]
        omega
      refine .full (by rw [hfirst]; omega) (by rw [hfirst]; rfl) (checkFull_two.mpr ?_)
      rw [IsTail, ha, hb]
      omega
    · have ha := toNat_byte (n := v / 4096 + 0xE0) (by omega)
      have hb := toNat_byte (n := v / 64 % 64 + 0x80) (by omega)
      have hd := toNat_byte (n := v % 64 + 0x80) (by omega)
      have hfirst : utf8CheckFirst (v / 4096 + 0xE0).toUInt8 = 3 := by
        rw [checkFirst_three, UInt8.le_iff_toNat_le, UInt8.le_iff_toNat_le, ha]
        simp only [UInt8.reduceToNat]
        omega
      refine .full (by rw [hfirst]; omega) (by rw [hfirst]; rfl) (checkFull_three.mpr ?_)
      rw [IsTail, IsTail, ha, hb, hd]
      omega
    · have ha := toNat_byte (n := v / 262144 + 0xF0) (by omega)
      have hb := toNat_byte (n := v / 4096 % 64 + 0x80) (by omega)
      have hd := toNat_byte (n := v / 64 % 64 + 0x80) (by omega)
      have he := toNat_byte (n := v % 64 + 0x80) (by omega)
      have hfirst : utf8CheckFirst (v / 262144 + 0xF0).toUInt8 = 4 := by
        rw [checkFirst_four, UInt8.le_iff_toNat_le, UInt8.le_iff_toNat_le, ha]
        simp only [UInt8.reduceToNat]
        omega
      refine .full (by rw [hfirst]; omega) (by rw [hfirst]; rfl) (checkFull_four.mpr ?_)
      rw [IsTail, IsTail, IsTail, ha, hb, hd, he]
      omega

/-! ### Texts -/

/-- Only the sequence itself is looked at. -/
theorem checkFull_append (u : UInt8) (us rest : Bytes) :
    utf8CheckFull (u :: us ++ rest) (us.length + 1) = utf8CheckFull (u :: us) (us.length + 1) := by
  have htake : (u :: us ++ rest).take (us.length + 1) = u :: us := by simp
  rw [utf8CheckFull, utf8CheckFull, htake, List.take_of_length_le (by simp)]
  rfl

/-- What is checked at the front of a text is a sequence. -/
theorem sequence_of_full {u : UInt8} {text : Bytes} {value : Nat} (hfirst : 1 < utf8CheckFirst u)
    (hlen : utf8CheckFirst u ≤ text.length + 1) (hfull : utf8CheckFull (u :: text) (utf8CheckFirst u) = some value) :
    Sequence (u :: text.take (utf8CheckFirst u - 1)) value := by
  have htake : (text.take (utf8CheckFirst u - 1)).length + 1 = utf8CheckFirst u := by
    rw [List.length_take]
    omega
  refine .full hfirst htake ?_
  rw [← checkFull_append _ _ (text.drop (utf8CheckFirst u - 1)), htake, List.cons_append, List.take_append_drop]
  exact hfull

/-- One round of `utf8_check_string`. -/
theorem checkString_cons {u : UInt8} {text : Bytes} : utf8CheckString (u :: text) = true ↔
    (utf8CheckFirst u = 1 ∧ utf8CheckString text = true) ∨
    (1 < utf8CheckFirst u ∧ utf8CheckFirst u ≤ text.length + 1 ∧
      (∃ value, utf8CheckFull (u :: text) (utf8CheckFirst u) = some value) ∧
      utf8CheckString (text.drop (utf8CheckFirst u - 1)) = true) := by
  rw [utf8CheckString]
  generalize utf8CheckFirst u = count
  by_cases h0 : count = 0
  · simp [h0]
  by_cases h1 : count = 1
  · simp [h1]
  have hmany : 1 < count := by omega
  rw [if_neg h0, if_pos hmany]
  cases hfull : utf8CheckFull (u :: text) count with
  | none => simp [h1]
  | some value =>
    by_cases hlen : count ≤ text.length + 1
    · simp [h1, hmany, hlen]
    · simp [h1, hlen]

theorem checkString_sequence {seq : Bytes} {value : Nat} (h : Sequence seq value) {rest : Bytes}
    (hrest : utf8CheckString rest = true) : utf8CheckString (seq ++ rest) = true := by
  cases h with
  | @one u h => exact checkString_cons.mpr (Or.inl ⟨h, hrest⟩)
  | @full u us value hfirst hlen hfull =>
    rw [List.cons_append, checkString_cons, ← hlen, Nat.add_sub_cancel, List.drop_left]
    refine Or.inr ⟨by omega, by simp, ⟨value, ?_⟩, hrest⟩
    rw [← List.cons_append, checkFull_append, hfull]

theorem checkString_text (cs : List Char) : utf8CheckString (utf8 cs) = true := by
  induction cs with
  | nil => rw [utf8, List.flatMap_nil, utf8CheckString]
  | cons c cs ih => exact checkString_sequence (sequence_iff.mpr ⟨c, rfl, rfl⟩) ih

theorem text_of_checkString {text : Bytes} (h : utf8CheckString text = true) : ∃ cs, text = utf8 cs := by
  induction hlen : text.length using Nat.strongRecOn generalizing text with
  | ind n ih =>
  subst hlen
  cases text with
  | nil => exact ⟨[], rfl⟩
  | cons u text =>
    rcases checkString_cons.mp h with ⟨hone, hrest⟩ | ⟨hmany, hlen, ⟨value, hfull⟩, hrest⟩
    · obtain ⟨c, -, hseq⟩ := sequence_iff.mp (.one hone)
      obtain ⟨cs, rfl⟩ := ih text.length (by simp) hrest rfl
      exact ⟨c :: cs, by rw [utf8_cons, ← hseq]; rfl⟩
    · obtain ⟨c, -, hseq⟩ := sequence_iff.mp (sequence_of_full hmany hlen hfull)
      obtain ⟨cs, hcs⟩ := ih _ (by rw [List.length_drop, List.length_cons]; omega) hrest rfl
      refine ⟨c :: cs, ?_⟩
      rw [utf8_cons, ← hseq, ← hcs, List.cons_append, List.take_append_drop]

/-! ### Reading and writing a character -/

theorem iterate_sequence {seq : Bytes} {value : Nat} (h : Sequence seq value) (rest : Bytes) :
    utf8Iterate (seq ++ rest) = some (some value, rest) := by
  cases h with
  | @one u h =>
    rw [List.singleton_append, utf8Iterate, h]
    simp
  | @full u us value hfirst hlen hfull =>
    have hchecked := checkFull_append u us rest
    rw [hfull, List.cons_append] at hchecked
    rw [List.cons_append, utf8Iterate, ← hlen, if_neg (by omega), if_neg (by omega), if_neg (by simp), hchecked]
    simp

theorem sequence_of_iterate {buffer rest : Bytes} {value : Nat}
    (h : utf8Iterate buffer = some (some value, rest)) : ∃ seq, Sequence seq value ∧ buffer = seq ++ rest := by
  cases buffer with
  | nil => cases h
  | cons u text =>
    rw [utf8Iterate] at h
    split at h
    · cases h
    split at h
    · next hone =>
      cases h
      exact ⟨[u], .one hone, rfl⟩
    split at h
    · cases h
    next h0 h1 hlen =>
    obtain ⟨v, hfull, heq⟩ := Option.map_eq_some_iff.mp h
    cases heq
    have hmany : 1 < utf8CheckFirst u := by omega
    refine ⟨_, sequence_of_full hmany (by simpa using hlen) hfull, ?_⟩
    obtain ⟨n, hn⟩ : ∃ n, utf8CheckFirst u = n + 1 := ⟨utf8CheckFirst u - 1, by omega⟩
    rw [hn, Nat.add_sub_cancel, List.drop_succ_cons, List.cons_append, List.take_append_drop]

/-- The bits of a field. -/
theorem field_bits (n k w : Nat) : (n &&& ((2 ^ w - 1) <<< k)) >>> k = n / 2 ^ k % 2 ^ w := by
  rw [Nat.shiftRight_and_distrib, Nat.shiftLeft_shiftRight, Nat.and_two_pow_sub_one_eq_mod, Nat.shiftRight_eq_div_pow]

/-- The bytes that are written, as numbers. -/
theorem utf8Encode_eq (v : Nat) : utf8Encode v =
    if v < 0x80 then some [v.toUInt8]
    else if v < 0x800 then some [(v / 64 + 0xC0).toUInt8, (v % 64 + 0x80).toUInt8]
    else if v < 0x10000 then
      some [(v / 4096 + 0xE0).toUInt8, (v / 64 % 64 + 0x80).toUInt8, (v % 64 + 0x80).toUInt8]
    else if v ≤ 0x10FFFF then
      some [(v / 262144 + 0xF0).toUInt8, (v / 4096 % 64 + 0x80).toUInt8, (v / 64 % 64 + 0x80).toUInt8,
        (v % 64 + 0x80).toUInt8]
    else none := by
  have hlow (n : Nat) : n &&& 0x3F = n % 64 := Nat.and_two_pow_sub_one_eq_mod n 6
  have htwo (n : Nat) : (n &&& 0x7C0) >>> 6 = n / 64 % 32 := field_bits n 6 5
  have hmid (n : Nat) : (n &&& 0xFC0) >>> 6 = n / 64 % 64 := field_bits n 6 6
  have hthree (n : Nat) : (n &&& 0xF000) >>> 12 = n / 4096 % 16 := field_bits n 12 4
  have hhigh (n : Nat) : (n &&& 0x3F000) >>> 12 = n / 4096 % 64 := field_bits n 12 6
  have hfour (n : Nat) : (n &&& 0x1C0000) >>> 18 = n / 262144 % 8 := field_bits n 18 3
  rw [utf8Encode, if_neg (by omega)]
  simp only [Int.toNat_natCast, hlow, htwo, hmid, hthree, hhigh, hfour, Nat.add_comm 0xC0, Nat.add_comm 0xE0,
    Nat.add_comm 0xF0, Nat.add_comm 0x80]
  split_ifs
  · rfl
  · rw [Nat.mod_eq_of_lt (a := v / 64) (by omega)]
  · rw [Nat.mod_eq_of_lt (a := v / 4096) (by omega)]
  · rw [Nat.mod_eq_of_lt (a := v / 262144) (by omega)]
  · rfl

/-- What is written for a character is its encoding. -/
theorem utf8Encode_char (c : Char) : utf8Encode c.val.toNat = some (String.utf8EncodeChar c) := by
  rw [utf8Encode_eq]
  rcases encodeChar_cases c with ⟨hlt, he⟩ | ⟨hle, hlt, he⟩ | ⟨hle, hlt, -, he⟩ | ⟨hle, hlt, he⟩
  · rw [he, if_pos hlt]
  · rw [he, if_neg (by omega), if_pos hlt]
  · rw [he, if_neg (by omega), if_neg (by omega), if_pos hlt]
  · rw [he, if_neg (by omega), if_neg (by omega), if_neg (by omega), if_pos hlt]

/-- A surrogate is written like a character, but it is not read. -/
theorem iterate_surrogate {v : Nat} (hs : 0xD800 ≤ v ∧ v ≤ 0xDFFF) {seq : Bytes} (h : utf8Encode v = some seq)
    (rest : Bytes) : utf8Iterate (seq ++ rest) = none := by
  rw [utf8Encode_eq, if_neg (by omega), if_neg (by omega), if_pos (by omega)] at h
  obtain rfl := Option.some.inj h
  have ha := toNat_byte (n := v / 4096 + 0xE0) (by omega)
  have hb := toNat_byte (n := v / 64 % 64 + 0x80) (by omega)
  have hd := toNat_byte (n := v % 64 + 0x80) (by omega)
  have hfirst : utf8CheckFirst (v / 4096 + 0xE0).toUInt8 = 3 := by
    rw [checkFirst_three, UInt8.le_iff_toNat_le, UInt8.le_iff_toNat_le, ha]
    simp only [UInt8.reduceToNat]
    omega
  rw [List.cons_append, List.cons_append, List.cons_append, List.nil_append, utf8Iterate, hfirst]
  cases hfull : utf8CheckFull ((v / 4096 + 0xE0).toUInt8 :: (v / 64 % 64 + 0x80).toUInt8 ::
      (v % 64 + 0x80).toUInt8 :: rest) 3 with
  | none => simp
  | some value =>
    obtain ⟨-, -, hv, -, hno⟩ := checkFull_three.mp hfull
    rw [ha, hb, hd] at hv
    omega

/-- **The library reads and writes UTF-8.** A text is accepted exactly if it is the encoding of some characters. What is
read at the front of a buffer is the encoding of a character, with its code point, and every encoding is read
so; what is written for the code point of a character is this encoding, and of other code points it is none that
is read. -/
theorem utf8_exact :
    (∀ text, utf8CheckString text = true ↔ ∃ cs, text = utf8 cs) ∧
    (∀ buffer value rest, utf8Iterate buffer = some (some value, rest) ↔
      ∃ c : Char, c.val.toNat = value ∧ buffer = String.utf8EncodeChar c ++ rest) ∧
    (∀ c : Char, utf8Encode c.val.toNat = some (String.utf8EncodeChar c)) ∧
    ∀ codepoint seq, utf8Encode codepoint = some seq → (∀ c : Char, (c.val.toNat : Int) ≠ codepoint) →
      ∀ rest, utf8Iterate (seq ++ rest) = none := by
  refine ⟨fun text => ⟨text_of_checkString, ?_⟩, fun buffer value rest => ?_, utf8Encode_char, ?_⟩
  · rintro ⟨cs, rfl⟩
    exact checkString_text cs
  · constructor
    · intro h
      obtain ⟨seq, hseq, rfl⟩ := sequence_of_iterate h
      obtain ⟨c, hc, rfl⟩ := sequence_iff.mp hseq
      exact ⟨c, hc, rfl⟩
    · rintro ⟨c, rfl, rfl⟩
      exact iterate_sequence (sequence_iff.mpr ⟨c, rfl, rfl⟩) rest
  · intro codepoint seq h hchar rest
    have hcode : 0 ≤ codepoint := by
      by_contra hneg
      rw [utf8Encode, if_pos (by omega)] at h
      cases h
    obtain ⟨v, rfl⟩ := Int.eq_ofNat_of_zero_le hcode
    have hv : v ≤ 0x10FFFF := by
      by_contra hbig
      rw [utf8Encode_eq, if_neg (by omega), if_neg (by omega), if_neg (by omega), if_neg hbig] at h
      cases h
    refine iterate_surrogate (v := v) (by_contra fun hs => ?_) h rest
    obtain ⟨c, hc⟩ := exists_char _ hv hs
    exact hchar c (by rw [hc])

end PgRest.Jansson
