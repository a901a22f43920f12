import PgRest.Jansson.Dump
import PgRest.Jansson.WellFormed

/-! What has been dumped is loaded again. Whatever the flags are, the text that is written for a well-formed value is a text of
it in the grammar that the loader reads exactly; all that may differ is the order of the members and how reals are spelled. -/
namespace PgRest.Jansson
open Inet (Digit Hex decimalFrom hexFrom hexValue)
open Lib

/-! ### Texts -/

theorem IsText.append {a b : Bytes} (ha : IsText a) (hb : IsText b) : IsText (a ++ b) where
  utf8 := ha.utf8.append hb.utf8
  nul := by simp [ha.nul, hb.nul]

theorem isText_ascii {t : Bytes} (h : ∀ c ∈ t, c < 0x80 ∧ c ≠ 0) : IsText t := by
  refine ⟨?_, fun h0 => (h 0 h0).2 rfl⟩
  induction t with
  | nil => exact isUtf8_nil
  | cons c t ih =>
    obtain ⟨hc, ht⟩ := List.forall_mem_cons.mp h
    exact (isUtf8_byte hc.1).append (ih ht)

theorem isText_all {t : Bytes} (h : t.all (fun c => decide (c < 0x80 ∧ c ≠ 0)) = true) : IsText t :=
  isText_ascii fun c hc => of_decide_eq_true (List.all_eq_true.mp h c hc)

theorem IsText.cons {c : UInt8} {t : Bytes} (hc : c < 0x80 ∧ c ≠ 0) (ht : IsText t) : IsText (c :: t) :=
  (isText_ascii (t := [c]) (by simpa using hc)).append ht

theorem dumpIndent_blank (flags depth : Nat) (space : Bool) : ∀ c ∈ dumpIndent flags depth space, c = 10 ∨ c = 32 := by
  intro c hc
  rw [dumpIndent] at hc
  split at hc
  · exact (List.mem_cons.mp hc).imp_right List.eq_of_mem_replicate
  · split at hc
    · exact Or.inr (List.mem_singleton.mp hc)
    · cases hc

theorem dumpIndent_ws (flags depth : Nat) (space : Bool) : Ws (dumpIndent flags depth space) := by
  intro c hc
  rcases dumpIndent_blank flags depth space c hc with rfl | rfl <;> rfl

theorem dumpIndent_text (flags depth : Nat) (space : Bool) : IsText (dumpIndent flags depth space) := by
  refine isText_ascii fun c hc => ?_
  rcases dumpIndent_blank flags depth space c hc with rfl | rfl <;> decide

/-! ### Strings -/

theorem hex_text {h : Bytes} (hhex : ∀ c ∈ h, Hex c) : IsText h := by
  refine isText_ascii fun c hc => ⟨hex_ascii c (hhex c hc), ?_⟩
  rintro rfl
  exact absurd (hhex 0 hc) (by decide)

/-- `\\u%04X` is four digits of which the number is read again. -/
theorem unicodeEscape_four {n : Nat} (hn : n < 0x10000) :
    ∃ h, unicodeEscape n = backslash :: letterU :: h ∧ Four h n := by
  have hdigit : ∀ d < 16, Hex (upperHex d) ∧ hexValue (upperHex d) = d := by decide
  obtain ⟨hex₁, hv₁⟩ := hdigit (n / 4096) (by omega)
  obtain ⟨hex₂, hv₂⟩ := hdigit (n / 256 % 16) (by omega)
  obtain ⟨hex₃, hv₃⟩ := hdigit (n / 16 % 16) (by omega)
  obtain ⟨hex₄, hv₄⟩ := hdigit (n % 16) (by omega)
  refine ⟨_, rfl, rfl, ?_, ?_⟩
  · simp only [List.forall_mem_cons]
    exact ⟨hex₁, hex₂, hex₃, hex₄, List.forall_mem_nil _⟩
  · simp only [hexFrom, List.foldl_cons, List.foldl_nil, hv₁, hv₂, hv₃, hv₄]
    omega

theorem unicodeEscape_text {n : Nat} (hn : n < 0x10000) : IsText (unicodeEscape n) := by
  obtain ⟨h, he, hfour⟩ := unicodeEscape_four hn
  rw [he]
  exact .cons (by decide) (.cons (by decide) (hex_text hfour.hex))

/-- A character that is one byte. -/
theorem encodeChar_byte {c : Char} {x : UInt8} (hx : x < 0x80) (hc : c.val.toNat = x.toNat) :
    String.utf8EncodeChar c = [x] := by
  have hlt : x.toNat < 0x80 := UInt8.lt_iff_toNat_lt.mp hx
  rcases encodeChar_cases c with ⟨-, he⟩ | ⟨hle, -⟩ | ⟨hle, -⟩ | ⟨hle, -⟩
  · rw [he, hc]
    exact congrArg (fun u => [u]) (byte_eq rfl).symm
  all_goals omega

/-- What may be written for a character within a string. -/
structure Stands (t : Bytes) (c : Char) : Prop where
  body : ∀ rest v, StringBody rest v → StringBody (t ++ rest) (String.utf8EncodeChar c ++ v)
  text : IsText t

theorem stands_escape {c : Char} {e : UInt8} (hlt : c.val.toNat < 0x80) (hmem : (e, c.val.toNat.toUInt8) ∈ escapes) :
    Stands [backslash, e] c := by
  obtain ⟨he, hx⟩ := escape_ascii hmem
  have hnul : escapes.all (fun p => p.1 != 0) = true := by decide
  have hne : e ≠ 0 := bne_iff_ne.mp (List.all_eq_true.mp hnul _ hmem)
  refine ⟨fun rest v h => ?_, .cons (by decide) (.cons ⟨he, hne⟩ ⟨isUtf8_nil, List.not_mem_nil⟩)⟩
  rw [encodeChar_byte hx (toNat_byte (by omega)).symm]
  exact .escape hmem h

theorem stands_unicode {c : Char} (hc : c.val.toNat < 0x10000) : Stands (unicodeEscape c.val.toNat) c := by
  obtain ⟨h, he, hfour⟩ := unicodeEscape_four hc
  refine ⟨fun rest v hrest => ?_, unicodeEscape_text hc⟩
  rw [he]
  exact .unicode hfour hrest

/-- The halves of a surrogate pair, as numbers. -/
theorem surrogates {n : Nat} (hn : n < 2 ^ 20) : 0xD800 ||| ((n &&& 0xFFC00) >>> 10) = 0xD800 + n / 1024 ∧
    0xDC00 ||| (n &&& 0x3FF) = 0xDC00 + n % 1024 := by
  have hhigh : (n &&& 0xFFC00) >>> 10 = n / 1024 % 1024 := field_bits n 10 10
  have hlow : n &&& 0x3FF = n % 1024 := Nat.and_two_pow_sub_one_eq_mod n 10
  rw [hhigh, hlow, Nat.mod_eq_of_lt (a := n / 1024) (by omega)]
  exact ⟨(Nat.shiftLeft_add_eq_or_of_lt (a := 54) (i := 10) (show n / 1024 < 2 ^ 10 by omega)).symm,
    (Nat.shiftLeft_add_eq_or_of_lt (a := 55) (i := 10) (show n % 1024 < 2 ^ 10 by omega)).symm⟩

theorem stands_pair {c : Char} (hc : 0x10000 ≤ c.val.toNat) :
    Stands (unicodeEscape (0xD800 ||| (((c.val.toNat - 0x10000) &&& 0xFFC00) >>> 10)) ++
      unicodeEscape (0xDC00 ||| ((c.val.toNat - 0x10000) &&& 0x3FF))) c := by
  have hmax : c.val.toNat ≤ 0x10FFFF := by
    rcases encodeChar_cases c with ⟨h, -⟩ | ⟨-, h, -⟩ | ⟨-, h, -⟩ | ⟨-, h, -⟩ <;> omega
  obtain ⟨hhigh, hlow⟩ := surrogates (n := c.val.toNat - 0x10000) (by omega)
  rw [hhigh, hlow]
  obtain ⟨h, he, hfour⟩ := unicodeEscape_four (n := 0xD800 + (c.val.toNat - 0x10000) / 1024) (by omega)
  obtain ⟨k, he', hfour'⟩ := unicodeEscape_four (n := 0xDC00 + (c.val.toNat - 0x10000) % 1024) (by omega)
  refine ⟨fun rest v hrest => ?_, (unicodeEscape_text (by omega)).append (unicodeEscape_text (by omega))⟩
  rw [he, he', List.append_assoc]
  exact .pair hfour hfour' (by omega) (by omega) (by omega) hrest

theorem stands_escapeText (c : Char) : Stands (escapeText c.val.toNat) c := by
  unfold escapeText
  split
  case h_9 =>
    dsimp only
    split
    · next hlt => exact stands_unicode hlt
    · next hle => exact stands_pair (Nat.le_of_not_lt hle)
  all_goals
    next hc => exact stands_escape (by omega) (by rw [hc]; decide)

/-- The bytes of other characters are written as they are. -/
theorem stands_self {flags : Nat} {c : Char} (h : mustEscape flags c.val.toNat = false) :
    Stands (String.utf8EncodeChar c) c := by
  simp only [mustEscape, Bool.or_eq_false_iff, beq_eq_false_iff_ne, decide_eq_false_iff_not] at h
  obtain ⟨⟨⟨⟨hslash, hquote⟩, hcontrol⟩, -⟩, -⟩ := h
  have hbytes : ∀ b ∈ String.utf8EncodeChar c, 0x1F < b ∧ b ≠ quote ∧ b ≠ backslash := by
    rcases encodeChar_bytes c with ⟨x, hx, he⟩ | ⟨x, tail, he, hall⟩
    · have hval : x.toNat = c.val.toNat := by
        rcases encodeChar_cases c with ⟨hlt, hc⟩ | ⟨-, -, hc⟩ | ⟨-, -, -, hc⟩ | ⟨-, -, hc⟩ <;> rw [he] at hc <;> cases hc
        exact toNat_byte (by omega)
      rw [he]
      simp only [List.mem_singleton, UInt8.lt_iff_toNat_lt, ne_eq, ← UInt8.toNat_inj, hval, quote, backslash,
        UInt8.reduceToNat]
      omega
    · intro b hb
      have hb := hall b (he ▸ hb)
      simp only [UInt8.lt_iff_toNat_lt, ne_eq, ← UInt8.toNat_inj, quote, backslash, UInt8.reduceToNat] at hb ⊢
      omega
  refine ⟨fun rest v hrest => ?_, ⟨isUtf8_char c, fun h0 => absurd (hbytes 0 h0).1 (by decide)⟩⟩
  generalize String.utf8EncodeChar c = bytes at hbytes
  induction bytes with
  | nil => exact hrest
  | cons b bytes ih =>
    obtain ⟨⟨hb, hb', hb''⟩, hbytes⟩ := List.forall_mem_cons.mp hbytes
    exact .byte hb hb' hb'' (ih hbytes)

/-- The induction is on the characters, and what is still to be written stands in front. -/
theorem dumpText_spec (flags : Nat) (cs : List Char) :
    ∃ t, (∀ pending, dumpText flags pending (utf8 cs) = (pending ++ t, true)) ∧ StringBody t (utf8 cs) ∧ IsText t := by
  induction cs with
  | nil =>
    refine ⟨[], fun pending => ?_, .nil, isUtf8_nil, List.not_mem_nil⟩
    have hiterate : utf8Iterate (utf8 []) = some (none, []) := rfl
    rw [dumpText, List.append_nil]
    split
    · next h => exact absurd (hiterate.symm.trans h) (by simp)
    · rfl
    · next h => exact absurd (hiterate.symm.trans h) (by simp)
  | cons c cs ih =>
    obtain ⟨t, hdump, hbody, htext⟩ := ih
    have hiterate := iterate_sequence (sequence_iff.mpr ⟨c, rfl, rfl⟩) (utf8 cs)
    have hround (pending : Bytes) : dumpText flags pending (utf8 (c :: cs)) =
        if mustEscape flags c.val.toNat then (pending ++ escapeText c.val.toNat ++ t, true)
        else (pending ++ String.utf8EncodeChar c ++ t, true) := by
      rw [utf8_cons, dumpText]
      split
      · next h => rw [hiterate] at h; cases h
      · next h => rw [hiterate] at h; cases h
      · next h =>
        rw [hiterate] at h
        cases h
        have htake : (String.utf8EncodeChar c ++ utf8 cs).take
            ((String.utf8EncodeChar c ++ utf8 cs).length - (utf8 cs).length) = String.utf8EncodeChar c := by
          rw [List.length_append, Nat.add_sub_cancel, List.take_left]
        dsimp only
        rw [hdump, hdump, htake]
        rfl
    cases hmust : mustEscape flags c.val.toNat with
    | true =>
      have hstands := stands_escapeText c
      refine ⟨escapeText c.val.toNat ++ t, fun pending => ?_, ?_, hstands.text.append htext⟩
      · rw [hround, hmust, if_pos rfl, List.append_assoc]
      · rw [utf8_cons]
        exact hstands.body t _ hbody
    | false =>
      have hstands := stands_self hmust
      refine ⟨String.utf8EncodeChar c ++ t, fun pending => ?_, ?_, hstands.text.append htext⟩
      · rw [hround, hmust, if_neg Bool.false_ne_true, List.append_assoc]
      · rw [utf8_cons]
        exact hstands.body t _ hbody

/-- **A string is written as a text of it.** -/
theorem dumpString_spec (flags : Nat) {str : Bytes} (h : IsUtf8 str) :
    ∃ t, dumpString flags str = (quote :: t ++ [quote], true) ∧ StringBody t str ∧ IsText t := by
  obtain ⟨cs, rfl⟩ := h
  obtain ⟨t, hdump, hbody, htext⟩ := dumpText_spec flags cs
  refine ⟨t, ?_, hbody, htext⟩
  rw [dumpString, hdump]
  rfl

/-! ### Numbers -/

theorem digit_text {ds : Bytes} (h : ∀ c ∈ ds, Digit c) : IsText ds := hex_text fun c hc => Or.inl (h c hc)

theorem decimalFrom_decimal (n : Nat) : decimalFrom 0 (Inet.decimal n) = n := by
  induction n using Inet.decimal.induct with
  | case1 n hn =>
    rw [Inet.decimal, if_pos hn, decimalFrom, List.foldl_cons, List.foldl_nil, (Inet.digit_value hn).2, Nat.zero_mul,
      Nat.zero_add]
  | case2 n hn ih =>
    rw [decimalFrom] at ih
    rw [Inet.decimal, if_neg hn, decimalFrom, List.foldl_append, ih, List.foldl_cons, List.foldl_nil,
      (Inet.digit_value (n := n % 10) (by omega)).2]
    omega

/-- A number is printed without a zero in front. -/
theorem decimal_whole (n : Nat) : Whole (Inet.decimal n) := by
  obtain ⟨c, text, hc, -⟩ := Inet.decimal_head n
  refine ⟨⟨by simp [hc], Inet.decimal_digits n⟩, ?_⟩
  induction n using Inet.decimal.induct generalizing c text with
  | case1 n hn =>
    intro hzero
    rw [Inet.decimal, if_pos hn] at hzero ⊢
    exact congrArg (fun c => [c]) (Option.some.inj hzero)
  | case2 n hn ih =>
    intro hzero
    obtain ⟨d, text', hd, -⟩ := Inet.decimal_head (n / 10)
    have hfront : (Inet.decimal (n / 10)).head? = some zero := by
      rw [Inet.decimal, if_neg hn, hd] at hzero
      rw [hd]
      exact hzero
    -- nothing but zero starts with a zero
    have hvalue := decimalFrom_decimal (n / 10)
    rw [ih d text' hd hfront] at hvalue
    have hvalue : 0 = n / 10 := hvalue
    omega

theorem decimal_length_le {k n : Nat} (h : n < 10 ^ (k + 1)) : (Inet.decimal n).length ≤ k + 1 := by
  induction k generalizing n with
  | zero =>
    rw [Inet.decimal, if_pos (by omega)]
    exact Nat.le_refl 1
  | succ k ih =>
    rw [Inet.decimal]
    split
    · simp
    · have hle := ih (n := n / 10) (by rw [Nat.pow_succ] at h; omega)
      rw [List.length_append, List.length_singleton]
      omega

theorem printInteger_spec (v : Int) : IntText (printInteger v) v ∧ IsText (printInteger v) := by
  have hvalue := decimalFrom_decimal v.natAbs
  have htext := digit_text (Inet.decimal_digits v.natAbs)
  rw [printInteger]
  split
  · have hint : IntText (minus :: Inet.decimal v.natAbs) (-decimalFrom 0 (Inet.decimal v.natAbs)) :=
      .neg (decimal_whole v.natAbs)
    rw [hvalue, show -(v.natAbs : Int) = v by omega] at hint
    exact ⟨hint, .cons (by decide) htext⟩
  · have hint : IntText (Inet.decimal v.natAbs) (decimalFrom 0 (Inet.decimal v.natAbs)) := .nat (decimal_whole v.natAbs)
    rw [hvalue, show (v.natAbs : Int) = v by omega] at hint
    exact ⟨hint, htext⟩

theorem printInteger_length {v : Int} (hlow : -2 ^ 63 ≤ v) (hhigh : v < 2 ^ 63) : (printInteger v).length < 100 := by
  have hlen := decimal_length_le (k := 18) (n := v.natAbs) (by omega)
  rw [printInteger]
  split
  · rw [List.length_cons]
    omega
  · omega

/-- What `%.*g` prints of a finite number: no zero is in front of the digits in front of the dot, and an exponent has a sign
and is not zero. -/
inductive Printed : Bytes → Prop
  | mk {i f x v} : IntText i v → (f = [] ∨ Fraction f) → (x = [] ∨ ∃ sign ds, x = 101 :: sign :: ds ∧ isSign sign = true ∧
      Digits ds ∧ ∃ c ∈ ds, c ≠ zero) → (i ++ f ++ x).length < 97 → Printed (i ++ f ++ x)

theorem IntText.plain {i : Bytes} {v : Int} (h : IntText i v) : ∀ c ∈ i, Digit c ∨ c = minus := by
  cases h with
  | nat hds => exact fun c hc => Or.inl (hds.1.2 c hc)
  | neg hds => exact fun c hc => (List.mem_cons.mp hc).elim Or.inr fun hc => Or.inl (hds.1.2 c hc)

theorem Fraction.plain {f : Bytes} (h : Fraction f) : ∀ c ∈ f, Digit c ∨ c = dot := by
  obtain ⟨ds, hds, rfl⟩ := h
  exact fun c hc => (List.mem_cons.mp hc).elim Or.inr fun hc => Or.inl (hds.2 c hc)

theorem IntText.text {i : Bytes} {v : Int} (h : IntText i v) : IsText i := by
  cases h with
  | nat hds => exact digit_text hds.1.2
  | neg hds => exact .cons (by decide) (digit_text hds.1.2)

theorem Fraction.text {f : Bytes} (h : Fraction f) : IsText f := by
  obtain ⟨ds, hds, rfl⟩ := h
  exact .cons (by decide) (digit_text hds.2)

theorem Exponent.text {x : Bytes} (h : Exponent x) : IsText x := by
  have hletter (e : UInt8) (he : isExponent e = true) : e < 0x80 ∧ e ≠ 0 := by
    rcases Bool.or_eq_true _ _ |>.mp he with he | he <;> rw [beq_iff_eq] at he <;> subst he <;> decide
  have hsign (e : UInt8) (he : isSign e = true) : e < 0x80 ∧ e ≠ 0 := by
    rcases Bool.or_eq_true _ _ |>.mp he with he | he <;> rw [beq_iff_eq] at he <;> subst he <;> decide
  cases h with
  | plain he hds => exact .cons (hletter _ he) (digit_text hds.2)
  | signed he hs hds => exact .cons (hletter _ he) (.cons (hsign _ hs) (digit_text hds.2))

theorem RealText.text {t : Bytes} (h : RealText t) : IsText t := by
  cases h with
  | fraction hi hf => exact hi.text.append hf.text
  | exponent hi hx => exact hi.text.append hx.text
  | both hi hf hx => exact (hi.text.append hf.text).append hx.text

/-- Nothing is trimmed where there is no exponent. -/
theorem trimExponent_none {t : Bytes} (h : 101 ∉ t) : trimExponent t = t := by
  have hdrop : t.dropWhile (· ≠ 101) = [] :=
    List.dropWhile_eq_nil_iff.mpr fun c hc => decide_eq_true fun he => h (he ▸ hc)
  rw [trimExponent, hdrop]

/-- An exponent that is not zero is an exponent still. -/
theorem trimExponent_some {t ds : Bytes} {sign : UInt8} (h : 101 ∉ t) (hds : Digits ds)
    (hne : ∃ c ∈ ds, c ≠ zero) : ∃ x, trimExponent (t ++ 101 :: sign :: ds) = t ++ x ∧ Exponent x := by
  have hfront : ∀ c ∈ t, decide (c ≠ 101) = true := fun c hc => decide_eq_true fun he => h (he ▸ hc)
  have htake : (t ++ 101 :: sign :: ds).takeWhile (· ≠ 101) = t := by
    rw [List.takeWhile_append_of_pos hfront, List.takeWhile_cons_of_neg (by simp), List.append_nil]
  have hdrop : (t ++ 101 :: sign :: ds).dropWhile (· ≠ 101) = 101 :: sign :: ds := by
    rw [List.dropWhile_append_of_pos hfront, List.dropWhile_cons_of_neg (by simp)]
  have hdigits : Digits (ds.dropWhile (· = zero)) := by
    refine ⟨fun hnil => ?_, fun c hc => hds.2 c (List.dropWhile_subset _ hc)⟩
    obtain ⟨c, hc, hzero⟩ := hne
    exact hzero (of_decide_eq_true (List.dropWhile_eq_nil_iff.mp hnil c hc))
  rw [trimExponent, htake, hdrop]
  dsimp only
  by_cases hminus : sign = minus
  · rw [if_pos hminus]
    exact ⟨_, rfl, .signed (e := 101) rfl rfl hdigits⟩
  · rw [if_neg hminus]
    exact ⟨_, rfl, .plain (e := 101) rfl hdigits⟩

/-- **A finite number is written as a real.** -/
theorem dtostr_spec {print : Nat → Bytes → Bytes} {value : Bytes} {precision : Nat}
    (h : Printed (print (if precision = 0 then 17 else precision) value)) :
    ∃ s, dtostr print 100 value precision = some s ∧ RealText s := by
  rw [dtostr]
  generalize print (if precision = 0 then 17 else precision) value = buffer at h
  obtain @⟨i, f, x, v, hi, hf, hx, hlen⟩ := h
  have hinot : dot ∉ i ∧ 101 ∉ i := by
    constructor <;> exact fun hmem => (hi.plain _ hmem).elim (by decide) (by decide)
  have hfnot : 101 ∉ f := by
    rcases hf with rfl | hf
    · exact List.not_mem_nil
    · exact fun hmem => (hf.plain _ hmem).elim (by decide) (by decide)
  have hfront : 101 ∉ i ++ f := by simp [hinot.2, hfnot]
  rw [if_neg (by omega)]
  rcases hx with rfl | ⟨sign, ds, rfl, -, hds, hne⟩
  · rw [List.append_nil] at hlen ⊢
    rcases hf with rfl | hf
    · rw [List.append_nil] at hlen ⊢
      rw [if_pos hinot, if_neg (by omega), trimExponent_none (by simp [hinot.2]; decide)]
      exact ⟨_, rfl, .fraction hi ⟨[zero], ⟨by simp, List.forall_mem_singleton.mpr (by decide)⟩, rfl⟩⟩
    · have hdot : dot ∈ f := by
        obtain ⟨ds, -, rfl⟩ := hf
        exact List.mem_cons_self
      rw [if_neg fun h => h.1 (List.mem_append_right i hdot), trimExponent_none hfront]
      exact ⟨_, rfl, .fraction hi hf⟩
  · rw [if_neg fun h => h.2 (by simp)]
    obtain ⟨x, htrim, hx⟩ := trimExponent_some hfront hds hne
    rw [htrim]
    rcases hf with rfl | hf
    · rw [List.append_nil]
      exact ⟨_, rfl, .exponent hi hx⟩
    · exact ⟨_, rfl, .both hi hf hx⟩

/-! ### Items -/

section Items
variable {α : Type} {V : Bytes → Json → Prop} (flags depth : Nat)

theorem joinItems_cons (item item' : Bytes) (items : List Bytes) : joinItems flags depth (item :: item' :: items) =
    item ++ comma :: (dumpIndent flags (depth + 1) true ++ joinItems flags depth (item' :: items)) := by
  rw [joinItems, if_neg (List.cons_ne_nil _ _)]

theorem joinItems_text {items : List Bytes} (h : ∀ item ∈ items, IsText item) : IsText (joinItems flags depth items) := by
  induction items with
  | nil => exact ⟨isUtf8_nil, List.not_mem_nil⟩
  | cons item items ih =>
    obtain ⟨hitem, hitems⟩ := List.forall_mem_cons.mp h
    cases items with
    | nil => exact hitem.append (dumpIndent_text _ _ _)
    | cons item' items =>
      rw [joinItems_cons]
      exact hitem.append (.cons (by decide) ((dumpIndent_text _ _ _).append (ih hitems)))

/-- Blanks may stand in front of the items. -/
theorem joinItems_elems {text : α → Bytes} {value : α → Json} {a : α} {l : List α}
    (h : ∀ b ∈ a :: l, V (text b) (value b)) {w : Bytes} (hw : Ws w) :
    Elems V (w ++ joinItems flags depth ((a :: l).map text)) ((a :: l).map value) := by
  induction l generalizing a w with
  | nil =>
    have ha := h a List.mem_cons_self
    rw [List.map_singleton, joinItems, if_pos rfl, ← List.append_assoc]
    exact .one hw ha (dumpIndent_ws _ _ _)
  | cons b l ih =>
    obtain ⟨ha, hl⟩ := List.forall_mem_cons.mp h
    have hrest := Elems.cons hw ha (List.forall_mem_nil _) (ih hl (dumpIndent_ws flags (depth + 1) true))
    rw [List.append_nil, List.append_assoc] at hrest
    rw [List.map_cons, List.map_cons, joinItems_cons]
    exact hrest

theorem Member.blanks {t w w' : Bytes} {m : Bytes × Json} (h : Member V t m) (hw : Ws w) (hw' : Ws w') :
    Member V (w ++ t ++ w') m := by
  obtain @⟨w₀, k, key, w₁, w₂, t, v, w₃, hw₀, hbody, hnul, hw₁, hw₂, hv, hw₃⟩ := h
  have hall {a b : Bytes} (ha : Ws a) (hb : Ws b) : Ws (a ++ b) :=
    fun c hc => (List.mem_append.mp hc).elim (ha c) (hb c)
  have hmember := Member.mk (hall hw hw₀) hbody hnul hw₁ hw₂ hv (hall hw₃ hw')
  simpa only [List.append_assoc, List.cons_append] using hmember

theorem joinItems_members {text : α → Bytes} {member : α → Bytes × Json} {a : α} {l : List α}
    (h : ∀ b ∈ a :: l, Member V (text b) (member b)) {w : Bytes} (hw : Ws w) :
    Members V (w ++ joinItems flags depth ((a :: l).map text)) ((a :: l).map member) := by
  induction l generalizing a w with
  | nil =>
    have ha := h a List.mem_cons_self
    rw [List.map_singleton, joinItems, if_pos rfl, ← List.append_assoc]
    exact .one (ha.blanks hw (dumpIndent_ws _ _ _))
  | cons b l ih =>
    obtain ⟨ha, hl⟩ := List.forall_mem_cons.mp h
    have hfirst := ha.blanks hw (List.forall_mem_nil _)
    rw [List.append_nil] at hfirst
    rw [List.map_cons, List.map_cons, joinItems_cons, ← List.append_assoc]
    exact .cons hfirst (ih hl (dumpIndent_ws flags (depth + 1) true))

/-- A member is written as a text of it. -/
theorem dumpMember_spec {key t : Bytes} {v : Json} (hkey : IsText key) (hv : V t v) (ht : IsText t) :
    Member V (dumpMember flags (key, t)) (key, v) ∧ IsText (dumpMember flags (key, t)) := by
  obtain ⟨k, hdump, hbody, hk⟩ := dumpString_spec flags hkey.utf8
  have hall : key.takeWhile (· ≠ 0) = key :=
    List.takeWhile_eq_self_iff.mpr fun c hc => decide_eq_true fun he => hkey.nul (he ▸ hc)
  have hseparator : ∃ w, Ws w ∧ (if flagged flags jsonCompact then [colon] else [colon, 32]) = colon :: w := by
    cases flagged flags jsonCompact with
    | true => exact ⟨[], List.forall_mem_nil _, rfl⟩
    | false => exact ⟨[32], by simp [Ws, isBlank], rfl⟩
  obtain ⟨w, hw, hseparator⟩ := hseparator
  have htext : IsText w := isText_ascii fun c hc => ⟨blank_ascii c (hw c hc), fun he => absurd (hw c hc) (he ▸ by decide)⟩
  rw [dumpMember, hall, hdump, hseparator]
  constructor
  · have hmember := Member.mk (w := []) (List.forall_mem_nil _) hbody hkey.nul (List.forall_mem_nil _) hw hv
      (List.forall_mem_nil _)
    simpa only [List.append_assoc, List.cons_append, List.nil_append, List.append_nil] using hmember
  · exact ((IsText.cons (by decide) (hk.append (isText_all (by decide)))).append (.cons (by decide) htext)).append ht

theorem dumpOrder_perm (members : List (Bytes × α)) : (dumpOrder flags members).Perm members := by
  rw [dumpOrder]
  split
  · exact List.mergeSort_perm _ _
  · exact .refl _

/-- The order goes by the keys alone. -/
theorem dumpOrder_map {β : Type} (f : α → β) (members : List (Bytes × α)) :
    dumpOrder flags (members.map fun m => (m.1, f m.2)) = (dumpOrder flags members).map fun m => (m.1, f m.2) := by
  rw [dumpOrder, dumpOrder]
  split
  · have hkeys : ∀ m ∈ members, ∀ m' ∈ members, keyLe m.1 m'.1 = keyLe (m.1, f m.2).1 (m'.1, f m'.2).1 :=
      fun _ _ _ _ => rfl
    exact (List.map_mergeSort (s := fun m m' : Bytes × β => keyLe m.1 m'.1) hkeys).symm
  · rfl

end Items

/-- Members with different keys are all left. -/
theorem kept_of_nodup {ms : List (Bytes × Json)} (h : (ms.map Prod.fst).Nodup) : kept ms = ms := by
  have hfold : ∀ (ms l : List (Bytes × Json)), ((l ++ ms).map Prod.fst).Nodup →
      ms.foldl (fun kept m => objectSet m.1 m.2 kept) l = l ++ ms := by
    intro ms
    induction ms with
    | nil => exact fun l _ => (List.append_nil l).symm
    | cons m ms ih =>
      intro l hl
      have hnew : ∀ b ∈ l, (b.1 == m.1) = false := by
        intro b hb
        rw [List.map_append, List.nodup_append] at hl
        exact beq_eq_false_iff_ne.mpr (hl.2.2 b.1 (List.mem_map_of_mem hb) m.1 (by simp))
      rw [List.foldl_cons, objectSet, place_none hnew, ih _ (by simpa using hl), List.append_assoc]
      rfl
  exact hfold ms [] h

/-! ### Values -/

/-- What is asked of `snprintf` and `strtod` at the precision that the flags ask for. -/
structure Prints (overflows : Bytes → Bool) (print : Nat → Bytes → Bytes) (flags : Nat) : Prop where
  printed : ∀ value, RealText value → overflows value = false →
    Printed (print (if flagsToPrecision flags = 0 then 17 else flagsToPrecision flags) value)
  /-- rounding does not make an infinity of a number -/
  finite : ∀ value, RealText value → overflows value = false →
    ∀ s, dtostr print 100 value (flagsToPrecision flags) = some s → overflows s = false

section Values
variable (print : Nat → Bytes → Bytes) (flags : Nat)

mutual

/-- The value with its members in the order they are written in, and its reals as they are written. -/
def written : Json → Json
  | .real text => .real ((dtostr print 100 text (flagsToPrecision flags)).getD [])
  | .array elems => .array (writtenElems elems)
  | .object members => .object (dumpOrder flags (writtenMembers members))
  | .string value => .string value
  | .integer value => .integer value
  | .true => .true
  | .false => .false
  | .null => .null

def writtenElems : List Json → List Json
  | [] => []
  | elem :: elems => written elem :: writtenElems elems

def writtenMembers : List (Bytes × Json) → List (Bytes × Json)
  | [] => []
  | (key, value) :: members => (key, written value) :: writtenMembers members

end

variable {print flags} {overflows : Bytes → Bool}

theorem writtenElems_eq (elems : List Json) : writtenElems print flags elems = elems.map (written print flags) := by
  induction elems with
  | nil => rw [writtenElems, List.map_nil]
  | cons elem elems ih => rw [writtenElems, ih, List.map_cons]

theorem writtenMembers_eq (members : List (Bytes × Json)) :
    writtenMembers print flags members = members.map fun m => (m.1, written print flags m.2) := by
  induction members with
  | nil => rw [writtenMembers, List.map_nil]
  | cons m members ih => rw [writtenMembers, ih, List.map_cons]

/-- The text of a value that is dumped. -/
def textOf (print : Nat → Bytes → Bytes) (flags depth : Nat) (v : Json) : Bytes := (doDump print flags depth v).getD []

theorem dumpElems_eq {depth : Nat} {elems : List Json}
    (h : ∀ v ∈ elems, doDump print flags depth v = some (textOf print flags depth v)) :
    dumpElems print flags depth elems = some (elems.map (textOf print flags depth)) := by
  induction elems with
  | nil => rw [dumpElems, List.map_nil]
  | cons v elems ih =>
    obtain ⟨hv, helems⟩ := List.forall_mem_cons.mp h
    rw [dumpElems, hv, Option.bind_some, ih helems]
    rfl

theorem dumpMembers_eq {depth : Nat} {members : List (Bytes × Json)}
    (h : ∀ m ∈ members, doDump print flags depth m.2 = some (textOf print flags depth m.2)) :
    dumpMembers print flags depth members = some (members.map fun m => (m.1, textOf print flags depth m.2)) := by
  induction members with
  | nil => rw [dumpMembers, List.map_nil]
  | cons m members ih =>
    obtain ⟨hm, hmembers⟩ := List.forall_mem_cons.mp h
    rw [dumpMembers, hm, Option.bind_some, ih hmembers]
    rfl

/-- What is written for a value. -/
structure Dumped (overflows : Bytes → Bool) (print : Nat → Bytes → Bytes) (flags n depth : Nat) (v : Json) : Prop where
  eq : doDump print flags depth v = some (textOf print flags depth v)
  value : ValueText overflows n (textOf print flags depth v) (written print flags v)
  text : IsText (textOf print flags depth v)

theorem Dumped.of {n depth : Nat} {v : Json} {t : Bytes} (h : doDump print flags depth v = some t)
    (hv : ValueText overflows n t (written print flags v)) (ht : IsText t) : Dumped overflows print flags n depth v := by
  have he : textOf print flags depth v = t := by rw [textOf, h, Option.getD_some]
  exact ⟨he ▸ h, he ▸ hv, he ▸ ht⟩

theorem dumped_array {n depth : Nat} {elems : List Json}
    (h : ∀ v ∈ elems, Dumped overflows print flags n (depth + 1) v) :
    Dumped overflows print flags (n + 1) depth (.array elems) := by
  cases elems with
  | nil =>
    refine .of (t := [leftBracket, rightBracket]) (by rw [doDump]; rfl) ?_ (isText_all (by decide))
    rw [written, writtenElems]
    exact .emptyArray (w := []) (List.forall_mem_nil _)
  | cons v elems =>
    refine .of (by rw [doDump, if_neg (by simp), dumpElems_eq fun v hv => (h v hv).eq]; rfl) ?_ ?_
    · rw [written, writtenElems_eq]
      exact .array (joinItems_elems flags depth (fun v hv => (h v hv).value) (dumpIndent_ws _ _ _))
    · refine IsText.append (.cons (by decide) ((dumpIndent_text _ _ _).append (joinItems_text _ _ ?_)))
        (isText_all (by decide))
      exact List.forall_mem_map.mpr fun v hv => (h v hv).text

theorem dumped_object {n depth : Nat} {members : List (Bytes × Json)} (hnodup : (members.map Prod.fst).Nodup)
    (hkeys : ∀ m ∈ members, IsText m.1) (h : ∀ m ∈ members, Dumped overflows print flags n (depth + 1) m.2) :
    Dumped overflows print flags (n + 1) depth (.object members) := by
  cases hmembers : members with
  | nil =>
    refine .of (t := [leftBrace, rightBrace]) (by rw [doDump]; rfl) ?_ (isText_all (by decide))
    have hnil : dumpOrder flags ([] : List (Bytes × Json)) = [] := List.perm_nil.mp (dumpOrder_perm flags [])
    rw [written, writtenMembers, hnil]
    exact .emptyObject (w := []) (List.forall_mem_nil _)
  | cons m rest =>
    rw [← hmembers]
    -- every member, in the order they are written in
    have hmem (m : Bytes × Json) (hm : m ∈ dumpOrder flags members) :
        Member (ValueText overflows n) (dumpMember flags (m.1, textOf print flags (depth + 1) m.2))
          (m.1, written print flags m.2) ∧ IsText (dumpMember flags (m.1, textOf print flags (depth + 1) m.2)) := by
      have hm := (dumpOrder_perm flags members).mem_iff.mp hm
      exact dumpMember_spec flags (hkeys m hm) (h m hm).value (h m hm).text
    have hne : dumpOrder flags members ≠ [] := fun hnil => by
      have hperm := dumpOrder_perm flags members
      rw [hnil, hmembers] at hperm
      exact absurd (List.nil_perm.mp hperm) (List.cons_ne_nil _ _)
    obtain ⟨a, l, hal⟩ := List.exists_cons_of_ne_nil hne
    refine .of (by
      rw [doDump, if_neg (by simp [hmembers]), dumpMembers_eq fun m hm => (h m hm).eq, Option.map_some, dumpOrder_map,
        List.map_map]) ?_ ?_
    · have hkept : ((dumpOrder flags members).map fun m => (m.1, written print flags m.2)) =
          kept ((dumpOrder flags members).map fun m => (m.1, written print flags m.2)) := by
        refine (kept_of_nodup ?_).symm
        rw [List.map_map]
        exact ((dumpOrder_perm flags members).map Prod.fst).nodup_iff.mpr hnodup
      rw [written, writtenMembers_eq, dumpOrder_map, hkept, hal]
      exact .object (joinItems_members flags depth (fun m hm => (hmem m (hal ▸ hm)).1) (dumpIndent_ws _ _ _))
    · refine IsText.append (.cons (by decide) ((dumpIndent_text _ _ _).append (joinItems_text _ _ ?_)))
        (isText_all (by decide))
      exact List.forall_mem_map.mpr fun m hm => (hmem m hm).2

/-- The induction is on the levels. -/
theorem WellFormed.dumped (hprints : Prints overflows print flags) {n : Nat} {v : Json} (h : WellFormed overflows n v)
    (depth : Nat) : Dumped overflows print flags n depth v := by
  induction n generalizing v depth with
  | zero => exact h.elim
  | succ n ih =>
    cases v with
    | null =>
      have hdump : doDump print flags depth .null = some (ascii "null") := by rw [doDump]
      refine .of hdump ?_ (isText_all (by decide))
      rw [written]
      exact .scalar (.null (Or.inl rfl)) .null
    | true =>
      have hdump : doDump print flags depth .true = some (ascii "true") := by rw [doDump]
      refine .of hdump ?_ (isText_all (by decide))
      rw [written]
      exact .scalar (.true (Or.inl rfl)) .true
    | false =>
      have hdump : doDump print flags depth .false = some (ascii "false") := by rw [doDump]
      refine .of hdump ?_ (isText_all (by decide))
      rw [written]
      exact .scalar (.false (Or.inl rfl)) .false
    | integer i =>
      obtain ⟨hlow, hhigh⟩ := h
      obtain ⟨hint, htext⟩ := printInteger_spec i
      have hlen := printInteger_length hlow hhigh
      refine .of (by rw [doDump, if_neg (by omega)]) ?_ htext
      have htoken : TokenText overflows _ (.integer i) := .number (.integer hint hlow hhigh) (Or.inl rfl)
      rw [List.append_nil] at htoken
      rw [written]
      exact .scalar htoken .integer
    | real text =>
      obtain ⟨hreal, hfinite⟩ := h
      obtain ⟨s, hs, hrealText⟩ := dtostr_spec (hprints.printed text hreal hfinite)
      refine .of (by rw [doDump, hs]) ?_ hrealText.text
      have htoken := TokenText.number (.real hrealText (hprints.finite text hreal hfinite s hs)) (Or.inl rfl)
      rw [List.append_nil] at htoken
      rw [written, hs, Option.getD_some]
      exact .scalar htoken .real
    | string value =>
      obtain ⟨t, hdump, hbody, ht⟩ := dumpString_spec flags h.utf8
      refine .of (by rw [doDump, hdump, if_pos rfl]) ?_ ((IsText.cons (by decide) ht).append (isText_all (by decide)))
      rw [written]
      exact .scalar (.string hbody) (.string h.nul)
    | array elems => exact dumped_array fun v hv => ih (h v hv) (depth + 1)
    | object members =>
      obtain ⟨hnodup, hmembers⟩ := h
      exact dumped_object hnodup (fun m hm => (hmembers m hm).1) fun m hm => ih (hmembers m hm).2 (depth + 1)

end Values

end PgRest.Jansson
