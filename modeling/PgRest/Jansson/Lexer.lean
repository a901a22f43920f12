import PgRest.Jansson.Grammar
import PgRest.Lib.Scan

/-! What `lex_scan` makes of a text. For strings and numbers, what is got off the stream is compared with the grammar piece
by piece; that a token is read for its text and for no other one follows at the end. -/
namespace PgRest.Jansson
open Inet (Digit Hex decimalFrom hexFrom)
open Lib

/-! ### Strings -/

/-- What the first loop passes over. -/
inductive Passes : Within → Bytes → Prop
  | done : Passes .text []
  | byte {c t} : 0x1F < c → c ≠ quote → c ≠ backslash → Passes .text t → Passes .text (c :: t)
  | backslash {t} : Passes .escape t → Passes .text (backslash :: t)
  | letter {e t} : e ∈ escapes.map Prod.fst → Passes .text t → Passes .escape (e :: t)
  | unicode {t} : Passes (.digits 3) t → Passes .escape (letterU :: t)
  | last {c t} : isXDigit c = true → Passes .text t → Passes (.digits 0) (c :: t)
  | digit {c t n} : isXDigit c = true → Passes (.digits n) t → Passes (.digits (n + 1)) (c :: t)

theorem map_cons_ok {c : UInt8} {r : Except LoadError (Bytes × Bytes)} {text rest : Bytes} :
    (r.map fun (text, rest) => (c :: text, rest)) = .ok (text, rest) ↔ ∃ t, r = .ok (t, rest) ∧ text = c :: t := by
  cases r with
  | error e => simp [Except.map]
  | ok p =>
    obtain ⟨t, rest'⟩ := p
    simp only [Except.map, Except.ok.injEq, Prod.mk.injEq]
    constructor
    · rintro ⟨rfl, rfl⟩
      exact ⟨t, ⟨rfl, rfl⟩, rfl⟩
    · rintro ⟨_, ⟨rfl, rfl⟩, rfl⟩
      exact ⟨rfl, rfl⟩

theorem scanText_sound {fails : Option UInt8} {w : Within} {bytes text rest : Bytes}
    (h : scanText fails w bytes = .ok (text, rest)) :
    ∃ t, Passes w t ∧ text = t ++ [quote] ∧ bytes = text ++ rest := by
  -- behind one byte more that is passed over
  have hcons {w w' : Within} {c : UInt8} {bytes text rest : Bytes} (hstep : ∀ {t}, Passes w' t → Passes w (c :: t))
      (ih : ∃ t, Passes w' t ∧ text = t ++ [quote] ∧ bytes = text ++ rest) :
      ∃ t, Passes w t ∧ c :: text = t ++ [quote] ∧ c :: bytes = c :: text ++ rest := by
    obtain ⟨t, ht, rfl, rfl⟩ := ih
    exact ⟨c :: t, hstep ht, rfl, rfl⟩
  induction bytes generalizing w text with
  | nil => cases w <;> cases h
  | cons c bytes ih =>
    cases w with
    | text =>
      rw [scanText] at h
      split at h
      · next hquote =>
        cases h
        exact ⟨[], .done, by rw [hquote]; rfl, rfl⟩
      next hquote =>
      split at h
      · cases h
      next hcontrol =>
      obtain ⟨t, ht, rfl⟩ := map_cons_ok.mp h
      split at ht
      · next hslash =>
        subst hslash
        exact hcons .backslash (ih ht)
      · next hslash => exact hcons (.byte (UInt8.not_le.mp hcontrol) hquote hslash) (ih ht)
    | escape =>
      rw [scanText] at h
      split at h
      · next hu =>
        subst hu
        obtain ⟨t, ht, rfl⟩ := map_cons_ok.mp h
        exact hcons .unicode (ih ht)
      split at h
      · next he =>
        obtain ⟨t, ht, rfl⟩ := map_cons_ok.mp h
        exact hcons (.letter he) (ih ht)
      · cases h
    | digits more =>
      rw [scanText] at h
      split at h
      · next hc =>
        obtain ⟨t, ht, rfl⟩ := map_cons_ok.mp h
        cases more with
        | zero => exact hcons (.last hc) (ih ht)
        | succ n => exact hcons (.digit hc) (ih ht)
      · cases h

theorem scanText_complete (fails : Option UInt8) {w : Within} {t : Bytes} (h : Passes w t) (rest : Bytes) :
    scanText fails w (t ++ quote :: rest) = .ok (t ++ [quote], rest) := by
  induction h with
  | done => rfl
  | @byte c t hcontrol hquote hslash _ ih =>
    rw [List.cons_append, scanText, if_neg hquote, if_neg (UInt8.not_le.mpr hcontrol), if_neg hslash, ih]
    rfl
  | backslash _ ih =>
    rw [List.cons_append, scanText, if_neg (by decide), if_neg (by decide), if_pos rfl, ih]
    rfl
  | @letter e t he _ ih =>
    have hu : e ≠ letterU := by
      rintro rfl
      exact absurd he (by decide)
    rw [List.cons_append, scanText, if_neg hu, if_pos he, ih]
    rfl
  | unicode _ ih =>
    rw [List.cons_append, scanText, if_pos rfl, ih]
    rfl
  | last hc _ ih =>
    rw [List.cons_append, scanText, if_pos hc, if_pos rfl, ih]
    rfl
  | digit hc _ ih =>
    rw [List.cons_append, scanText, if_pos hc, if_neg (Nat.succ_ne_zero _), Nat.add_sub_cancel, ih]
    rfl

theorem hex_iff {c : UInt8} : isXDigit c = true ↔ Hex c := by
  simp only [isXDigit, isDigit, Bool.or_eq_true, Bool.and_eq_true, decide_eq_true_eq, or_assoc]
  tauto

theorem digit_iff {c : UInt8} : isDigit c = true ↔ Digit c := by
  simp only [isDigit, Digit, Bool.and_eq_true, decide_eq_true_eq]

theorem hex_byte (c : UInt8) : Hex c → hexDigit c = some (Inet.hexValue c) ∧ Inet.hexValue c < 16 :=
  Inet.forall_byte (P := fun c => Hex c → hexDigit c = some (Inet.hexValue c) ∧ Inet.hexValue c < 16)
    (by decide +kernel) c

theorem decode_hex {h : Bytes} (hex : ∀ c ∈ h, Hex c) : decodeUnicodeEscape h = some (hexFrom 0 h) := by
  have hfrom (v : Nat) : h.foldlM (fun value c => (hexDigit c).map fun d => value <<< 4 + d) v = some (hexFrom v h) := by
    induction h generalizing v with
    | nil => rfl
    | cons c h ih =>
      obtain ⟨hc, htail⟩ := List.forall_mem_cons.mp hex
      rw [List.foldlM_cons, (hex_byte c hc).1, Nat.shiftLeft_eq]
      exact ih htail _
  exact hfrom 0

theorem Four.decode {h : Bytes} {v : Nat} (hfour : Four h v) : decodeUnicodeEscape h = some v := by
  rw [decode_hex hfour.hex, hfour.value]

/-- Four digits that are passed over, and the text behind them. -/
theorem passes_digits {t : Bytes} (h : Passes .escape (letterU :: t)) :
    ∃ h1 h2 h3 h4 t', t = h1 :: h2 :: h3 :: h4 :: t' ∧ Four [h1, h2, h3, h4] (hexFrom 0 [h1, h2, h3, h4]) ∧
      Passes .text t' := by
  cases h with
  | letter he => exact absurd he (by decide)
  | unicode h =>
  cases h with
  | @digit h1 _ _ hex1 h =>
  cases h with
  | @digit h2 _ _ hex2 h =>
  cases h with
  | @digit h3 _ _ hex3 h =>
  cases h with
  | @last h4 t' hex4 h =>
  refine ⟨h1, h2, h3, h4, t', rfl, ⟨rfl, ?_, rfl⟩, h⟩
  simp only [List.mem_cons, List.not_mem_nil, or_false]
  rintro c (rfl | rfl | rfl | rfl) <;> exact hex_iff.mp ‹_›

theorem Four.cases {h : Bytes} {v : Nat} (hfour : Four h v) : ∃ h1 h2 h3 h4, h = [h1, h2, h3, h4] := by
  match h, hfour.length with
  | [h1, h2, h3, h4], _ => exact ⟨h1, h2, h3, h4, rfl⟩

theorem Four.passes {h t : Bytes} {v : Nat} (hfour : Four h v) (ht : Passes .text t) :
    Passes .text (backslash :: letterU :: h ++ t) := by
  obtain ⟨h1, h2, h3, h4, rfl⟩ := hfour.cases
  have hex : ∀ c ∈ [h1, h2, h3, h4], isXDigit c = true := fun c hc => hex_iff.mpr (hfour.hex c hc)
  simp only [List.mem_cons, List.not_mem_nil, or_false, forall_eq_or_imp, forall_eq] at hex
  obtain ⟨hex1, hex2, hex3, hex4⟩ := hex
  exact .backslash (.unicode (.digit hex1 (.digit hex2 (.digit hex3 (.last hex4 ht)))))

theorem decodeText_quote : decodeText [quote] = .ok [] := rfl

theorem decodeText_byte {c : UInt8} (hquote : c ≠ quote) (hslash : c ≠ backslash) (t : Bytes) :
    decodeText (c :: t) = (decodeText t).map (c :: ·) := by
  rw [decodeText.eq_def]
  exact (if_neg hquote).trans (if_neg hslash)

theorem decodeText_escape {e x : UInt8} (h : (e, x) ∈ escapes) (t : Bytes) :
    decodeText (backslash :: e :: t) = (decodeText t).map (x :: ·) := by
  simp only [escapes, List.mem_cons, Prod.mk.injEq, List.not_mem_nil, or_false] at h
  rcases h with ⟨rfl, rfl⟩ | ⟨rfl, rfl⟩ | ⟨rfl, rfl⟩ | ⟨rfl, rfl⟩ | ⟨rfl, rfl⟩ | ⟨rfl, rfl⟩ | ⟨rfl, rfl⟩ | ⟨rfl, rfl⟩ <;> rfl

/-- An escape with four digits, once these are decoded. -/
theorem decodeText_digits {h1 h2 h3 h4 : UInt8} {value : Nat} (hvalue : decodeUnicodeEscape [h1, h2, h3, h4] = some value)
    (text : Bytes) : decodeText (backslash :: letterU :: h1 :: h2 :: h3 :: h4 :: text) =
      if 0xD800 ≤ value ∧ value ≤ 0xDBFF then
        match text with
        | 92 :: 117 :: k1 :: k2 :: k3 :: k4 :: text =>
          match decodeUnicodeEscape [k1, k2, k3, k4] with
          | none => .error .invalidUnicodeEscape
          | some value2 =>
            if 0xDC00 ≤ value2 ∧ value2 ≤ 0xDFFF then
              (decodeText text).map
                ((utf8Encode ((value - 0xD800) <<< 10 + (value2 - 0xDC00) + 0x10000 : Nat)).getD [] ++ ·)
            else .error (.invalidPair value value2)
        | _ => .error (.invalidUnicode value)
      else if 0xDC00 ≤ value ∧ value ≤ 0xDFFF then .error (.invalidUnicode value)
      else (decodeText text).map ((utf8Encode value).getD [] ++ ·) := by
  rw [decodeText, if_neg (by decide), if_pos rfl]
  simp only [hvalue]
  rfl

/-- An escape that is no high surrogate. -/
theorem decodeText_unicode {h : Bytes} {value : Nat} (hfour : Four h value) (hhigh : ¬(0xD800 ≤ value ∧ value ≤ 0xDBFF))
    (t : Bytes) : decodeText (backslash :: letterU :: h ++ t) =
      if 0xDC00 ≤ value ∧ value ≤ 0xDFFF then .error (.invalidUnicode value)
      else (decodeText t).map ((utf8Encode value).getD [] ++ ·) := by
  obtain ⟨h1, h2, h3, h4, rfl⟩ := hfour.cases
  exact (decodeText_digits hfour.decode t).trans (if_neg hhigh)

/-- A high surrogate. -/
theorem decodeText_high {h : Bytes} {value : Nat} (hfour : Four h value) (hhigh : 0xD800 ≤ value ∧ value ≤ 0xDBFF)
    {t v : Bytes} (hv : decodeText (backslash :: letterU :: h ++ t) = .ok v) :
    ∃ k1 k2 k3 k4 t', t = backslash :: letterU :: k1 :: k2 :: k3 :: k4 :: t' := by
  obtain ⟨h1, h2, h3, h4, rfl⟩ := hfour.cases
  replace hv := ((decodeText_digits hfour.decode t).trans (if_pos hhigh)).symm.trans hv
  split at hv
  · exact ⟨_, _, _, _, _, rfl⟩
  · cases hv

theorem decodeText_pair {h k : Bytes} {value value2 : Nat} (hfour : Four h value)
    (hhigh : 0xD800 ≤ value ∧ value ≤ 0xDBFF) (hfour2 : Four k value2) (t : Bytes) :
    decodeText (backslash :: letterU :: h ++ (backslash :: letterU :: k ++ t)) =
      if 0xDC00 ≤ value2 ∧ value2 ≤ 0xDFFF then
        (decodeText t).map
          ((utf8Encode (((value - 0xD800) * 1024 + (value2 - 0xDC00) + 0x10000 : Nat))).getD [] ++ ·)
      else .error (.invalidPair value value2) := by
  obtain ⟨h1, h2, h3, h4, rfl⟩ := hfour.cases
  obtain ⟨k1, k2, k3, k4, rfl⟩ := hfour2.cases
  have hvalue2 := hfour2.decode
  refine (decodeText_digits hfour.decode (backslash :: letterU :: k1 :: k2 :: k3 :: k4 :: t)).trans
    ((if_pos hhigh).trans ?_)
  simp only [hvalue2, Nat.shiftLeft_eq]

theorem map_ok {α : Type} {f : Bytes → α} {r : Except LoadError Bytes} {v : α} :
    r.map f = .ok v ↔ ∃ u, r = .ok u ∧ v = f u := by
  cases r with
  | error e => simp [Except.map]
  | ok u => simp [Except.map, eq_comm]

/-- A text that goes on with an escape of a code unit. -/
theorem passes_escape {t rest : Bytes} (h : Passes .text t) (ht : t ++ [quote] = backslash :: letterU :: rest) :
    ∃ u, t = backslash :: letterU :: u ∧ Passes .escape (letterU :: u) := by
  cases h with
  | done => exact absurd (List.cons.inj ht).1 (by decide)
  | byte _ _ hslash _ => exact absurd (List.cons.inj ht).1 hslash
  | backslash h =>
    cases h with
    | letter he h =>
      obtain rfl := (List.cons.inj (List.cons.inj ht).2).1
      exact absurd he (by decide)
    | unicode h => exact ⟨_, rfl, .unicode h⟩

theorem Four.lt {h : Bytes} {v : Nat} (hfour : Four h v) : v < 0x10000 := by
  obtain ⟨h1, h2, h3, h4, rfl⟩ := hfour.cases
  have hex : ∀ c ∈ [h1, h2, h3, h4], Inet.hexValue c < 16 := fun c hc => (hex_byte c (hfour.hex c hc)).2
  simp only [List.mem_cons, List.not_mem_nil, or_false, forall_eq_or_imp, forall_eq] at hex
  have hvalue :
      (((0 * 16 + Inet.hexValue h1) * 16 + Inet.hexValue h2) * 16 + Inet.hexValue h3) * 16 + Inet.hexValue h4 = v :=
    hfour.value
  omega

/-- What is appended for the code point of a character. -/
theorem encode_char (c : Char) : (utf8Encode c.val.toNat).getD [] = String.utf8EncodeChar c := by
  rw [utf8Encode_char, Option.getD_some]

/-- What the second loop makes of a text that the first one has passed. -/
theorem decodeText_sound {t v : Bytes} (h : Passes .text t) (hv : decodeText (t ++ [quote]) = .ok v) : StringBody t v := by
  induction hlen : t.length using Nat.strongRecOn generalizing t v with
  | ind n ih =>
  subst hlen
  cases h with
  | done =>
    cases decodeText_quote.symm.trans hv
    exact .nil
  | byte hcontrol hquote hslash h =>
    rw [List.cons_append, decodeText_byte hquote hslash] at hv
    obtain ⟨u, hu, rfl⟩ := map_ok.mp hv
    exact .byte hcontrol hquote hslash (ih _ (by simp) h hu rfl)
  | backslash h =>
    cases h with
    | letter he h =>
      obtain ⟨⟨e, x⟩, hmem, rfl⟩ := List.mem_map.mp he
      rw [List.cons_append, List.cons_append, decodeText_escape hmem] at hv
      obtain ⟨u, hu, rfl⟩ := map_ok.mp hv
      exact .escape hmem (ih _ (by rw [List.length_cons, List.length_cons]; omega) h hu rfl)
    | unicode h =>
      obtain ⟨h1, h2, h3, h4, t', rfl, hfour, ht⟩ := passes_digits (.unicode h)
      generalize hexFrom 0 [h1, h2, h3, h4] = value at hfour
      change decodeText (backslash :: letterU :: [h1, h2, h3, h4] ++ (t' ++ [quote])) = .ok v at hv
      have hvalue := hfour.lt
      by_cases hhigh : 0xD800 ≤ value ∧ value ≤ 0xDBFF
      · obtain ⟨_, _, _, _, _, htail⟩ := decodeText_high hfour hhigh hv
        obtain ⟨u, rfl, hu⟩ := passes_escape ht htail
        obtain ⟨k1, k2, k3, k4, t, rfl, hfour2, ht⟩ := passes_digits hu
        generalize hexFrom 0 [k1, k2, k3, k4] = value2 at hfour2
        change decodeText (backslash :: letterU :: [h1, h2, h3, h4] ++
          (backslash :: letterU :: [k1, k2, k3, k4] ++ (t ++ [quote]))) = .ok v at hv
        rw [decodeText_pair hfour hhigh hfour2] at hv
        split at hv
        · next hlow =>
          obtain ⟨u, hu, hval⟩ := map_ok.mp hv
          obtain ⟨c, hc⟩ := exists_char ((value - 0xD800) * 1024 + (value2 - 0xDC00) + 0x10000)
            (by omega) (by omega)
          rw [hval, ← hc, encode_char]
          exact .pair hfour hfour2 hhigh hlow hc (ih _ (by simp; omega) ht hu rfl)
        · cases hv
      · rw [decodeText_unicode hfour hhigh] at hv
        split at hv
        · cases hv
        next hlow =>
        obtain ⟨u, hu, rfl⟩ := map_ok.mp hv
        obtain ⟨c, rfl⟩ := exists_char value (by omega) (by omega)
        rw [encode_char]
        exact .unicode hfour (ih _ (by simp; omega) ht hu rfl)

/-- The text of a string is passed by the first loop and decoded by the second one. -/
theorem StringBody.read {t v : Bytes} (h : StringBody t v) :
    Passes .text t ∧ decodeText (t ++ [quote]) = .ok v := by
  induction h with
  | nil => exact ⟨.done, decodeText_quote⟩
  | byte hcontrol hquote hslash _ ih =>
    refine ⟨.byte hcontrol hquote hslash ih.1, ?_⟩
    rw [List.cons_append, decodeText_byte hquote hslash, ih.2]
    rfl
  | @escape e x t v hmem _ ih =>
    refine ⟨.backslash (.letter (List.mem_map_of_mem hmem) ih.1), ?_⟩
    rw [List.cons_append, List.cons_append, decodeText_escape hmem, ih.2]
    rfl
  | @unicode h t v c hfour _ ih =>
    refine ⟨hfour.passes ih.1, ?_⟩
    have hvalid : c.val.toNat < 0xD800 ∨ (0xDFFF < c.val.toNat ∧ c.val.toNat < 0x110000) := c.valid
    rw [List.append_assoc, decodeText_unicode hfour (by omega), if_neg (by omega), ih.2, encode_char]
    rfl
  | @pair h k t v high low c hfour hfour2 hhigh hlow hc _ ih =>
    refine ⟨hfour.passes (hfour2.passes ih.1), ?_⟩
    rw [List.append_assoc, List.append_assoc, decodeText_pair hfour hhigh hfour2, if_pos hlow, ih.2, ← hc, encode_char]
    rfl

theorem lexScanString_sound {fails : Option UInt8} {s s' : Lex} {token : Token}
    (h : lexScanString fails s = (token, s')) (hvalid : token ≠ .invalid) :
    ∃ t v, StringBody t v ∧ token = .string v ∧ s.bytes = t ++ [quote] ++ s'.bytes := by
  rw [lexScanString] at h
  split at h
  · cases h
    exact absurd rfl hvalid
  next text rest hscan =>
  obtain ⟨t, ht, rfl, hbytes⟩ := scanText_sound hscan
  dsimp only at h
  split at h
  · cases h
    exact absurd rfl hvalid
  next value hvalue =>
  cases h
  exact ⟨t, value, decodeText_sound ht hvalue, rfl, hbytes⟩

theorem lexScanString_complete (fails : Option UInt8) {t v : Bytes} (h : StringBody t v) (rest : Bytes)
    (e : Option LoadError) : lexScanString fails ⟨t ++ quote :: rest, e⟩ = (.string v, ⟨rest, e⟩) := by
  obtain ⟨hpass, hdecode⟩ := h.read
  simp only [lexScanString, scanText_complete fails hpass, hdecode]

/-! ### Numbers -/

section Pieces
variable {fails : Option UInt8} {saved text rest : Bytes} {e : Option LoadError} {a : Ahead} {c : UInt8}

theorem next_of : (Ahead.of fails saved ⟨c :: text, e⟩).next fails = .of fails (saved ++ [c]) ⟨text, e⟩ := rfl

theorem nextWhile_of (p : UInt8 → Bool) : (Ahead.of fails saved ⟨c :: text, e⟩).nextWhile fails p =
    .of fails (saved ++ c :: text.takeWhile p) ⟨text.dropWhile p, e⟩ := by
  show Ahead.of fails (saved ++ [c] ++ text.takeWhile p) _ = _
  rw [List.append_assoc]
  rfl

theorem satisfies_of (p : UInt8 → Bool) : (Ahead.of fails saved ⟨text, e⟩).c.satisfies p = text.head?.any p := by
  cases text with
  | nil => cases fails <;> rfl
  | cons c text => rfl

theorem byte_of : (Ahead.of fails saved ⟨text, e⟩).c = .byte c ↔ text.head? = some c := by
  cases text with
  | nil => cases fails <;> exact iff_of_false nofun nofun
  | cons c text => simp [Ahead.of, Lex.get]

theorem scanDigits_ok : scanDigits fails (.of fails saved ⟨text, e⟩) = .ok a ↔
    ∃ ds rest, Digits ds ∧ rest.head?.any isDigit = false ∧ text = ds ++ rest ∧ a = .of fails (saved ++ ds) ⟨rest, e⟩ := by
  rw [scanDigits, satisfies_of]
  cases text with
  | nil =>
    refine iff_of_false nofun ?_
    rintro ⟨ds, rest, ⟨hne, -⟩, -, htext, -⟩
    exact hne (List.append_eq_nil_iff.mp htext.symm).1
  | cons c text =>
    rw [List.head?_cons, Option.any_some, nextWhile_of]
    constructor
    · intro h
      split at h
      · next hc =>
        cases h
        obtain ⟨hall, hstop, hspan⟩ := (span_iff (l := text)).mpr ⟨rfl, rfl⟩
        refine ⟨c :: text.takeWhile isDigit, text.dropWhile isDigit, ⟨List.cons_ne_nil _ _, ?_⟩, hstop, ?_, rfl⟩
        · exact List.forall_mem_cons.mpr ⟨digit_iff.mp hc, fun d hd => digit_iff.mp (hall d hd)⟩
        · rw [List.cons_append, ← hspan]
      · cases h
    · rintro ⟨_ | ⟨d, ds⟩, rest, ⟨hne, hall⟩, hstop, htext, rfl⟩
      · exact absurd rfl hne
      rw [List.cons_append, List.cons.injEq] at htext
      obtain ⟨rfl, rfl⟩ := htext
      obtain ⟨hd, hds⟩ := List.forall_mem_cons.mp hall
      obtain ⟨htake, hdrop⟩ := (span_iff (p := isDigit)).mp ⟨fun d hd => digit_iff.mpr (hds d hd), hstop, rfl⟩
      rw [if_pos (digit_iff.mpr hd), ← htake, ← hdrop]

theorem scanWhole_ok : scanWhole fails (.of fails saved ⟨text, e⟩) = .ok a ↔
    ∃ ds rest, Whole ds ∧ rest.head?.any isDigit = false ∧ text = ds ++ rest ∧ a = .of fails (saved ++ ds) ⟨rest, e⟩ := by
  simp only [scanWhole, byte_of]
  by_cases hzero : text.head? = some zero
  · rw [if_pos hzero]
    obtain ⟨text, rfl⟩ : ∃ t, text = zero :: t := ⟨text.tail, (List.cons_head?_tail hzero).symm⟩
    rw [next_of, satisfies_of]
    constructor
    · intro h
      split at h
      · cases h
      · next hstop =>
        cases h
        exact ⟨[zero], text, ⟨⟨by simp, by simp; decide⟩, fun _ => rfl⟩, Bool.eq_false_iff.mpr hstop, rfl, rfl⟩
    · rintro ⟨_ | ⟨d, ds⟩, rest, ⟨⟨hne, -⟩, hwhole⟩, hstop, htext, rfl⟩
      · exact absurd rfl hne
      obtain ⟨rfl, rfl⟩ := List.cons.inj htext
      obtain rfl := (List.cons.inj (hwhole rfl)).2
      exact if_neg (Bool.eq_false_iff.mp hstop)
  · rw [if_neg hzero, scanDigits_ok]
    refine exists_congr fun ds => exists_congr fun rest => ?_
    constructor
    · rintro ⟨hds, hstop, rfl, ha⟩
      refine ⟨⟨hds, fun h => absurd ?_ hzero⟩, hstop, rfl, ha⟩
      rw [List.head?_append_of_ne_nil _ hds.1, h]
    · rintro ⟨hds, h⟩
      exact ⟨hds.1, h⟩

theorem scanFraction_ok : scanFraction fails (.of fails saved ⟨text, e⟩) = .ok a ↔
    (text.head? ≠ some dot ∧ a = .of fails saved ⟨text, e⟩) ∨
      ∃ f rest, Fraction f ∧ rest.head?.any isDigit = false ∧ text = f ++ rest ∧
        a = .of fails (saved ++ f) ⟨rest, e⟩ := by
  simp only [scanFraction, byte_of]
  by_cases hdot : text.head? = some dot
  · rw [if_pos hdot]
    obtain ⟨text, rfl⟩ : ∃ t, text = dot :: t := ⟨text.tail, (List.cons_head?_tail hdot).symm⟩
    rw [next_of, scanDigits_ok]
    constructor
    · rintro ⟨ds, rest, hds, hstop, rfl, rfl⟩
      refine Or.inr ⟨dot :: ds, rest, ⟨ds, hds, rfl⟩, hstop, rfl, ?_⟩
      rw [List.append_assoc]
      rfl
    · rintro (⟨hne, -⟩ | ⟨_, rest, ⟨ds, hds, rfl⟩, hstop, htext, rfl⟩)
      · exact absurd hdot hne
      · refine ⟨ds, rest, hds, hstop, (List.cons.inj htext).2, ?_⟩
        rw [List.append_assoc]
        rfl
  · rw [if_neg hdot, Except.ok.injEq, eq_comm]
    constructor
    · exact fun h => Or.inl ⟨hdot, h⟩
    · rintro (⟨-, h⟩ | ⟨_, rest, ⟨ds, -, rfl⟩, -, rfl, -⟩)
      · exact h
      · exact absurd rfl hdot

theorem isExponent_iff {c : UInt8} : isExponent c = true ↔ c = 69 ∨ c = 101 := by
  simp only [isExponent, Bool.or_eq_true, beq_iff_eq]

theorem isSign_iff {c : UInt8} : isSign c = true ↔ c = plus ∨ c = minus := by
  simp only [isSign, Bool.or_eq_true, beq_iff_eq]

theorem not_digit_exponent (c : UInt8) (h : isExponent c = true) : isDigit c = false := by
  rcases isExponent_iff.mp h with rfl | rfl <;> rfl

theorem not_digit_sign (c : UInt8) (h : isSign c = true) : isDigit c = false := by
  rcases isSign_iff.mp h with rfl | rfl <;> rfl

theorem scanExponent_ok : scanExponent fails (.of fails saved ⟨text, e⟩) = .ok a ↔
    (text.head?.any isExponent = false ∧ a = .of fails saved ⟨text, e⟩) ∨
      ∃ x rest, Exponent x ∧ rest.head?.any isDigit = false ∧ text = x ++ rest ∧
        a = .of fails (saved ++ x) ⟨rest, e⟩ := by
  rw [scanExponent, satisfies_of]
  cases text with
  | nil =>
    rw [List.head?_nil, Option.any_none, if_neg Bool.false_ne_true, Except.ok.injEq, eq_comm]
    constructor
    · exact fun h => Or.inl ⟨rfl, h⟩
    · rintro (⟨-, h⟩ | ⟨x, rest, hx, -, htext, -⟩)
      · exact h
      · cases hx <;> cases htext
  | cons c text =>
  rw [List.head?_cons, Option.any_some]
  by_cases hc : isExponent c = true
  · rw [if_pos hc, next_of]
    simp only [satisfies_of]
    constructor
    · intro h
      refine Or.inr ?_
      cases text with
      | nil =>
        rw [List.head?_nil, Option.any_none, if_neg Bool.false_ne_true] at h
        obtain ⟨ds, rest, ⟨hne, -⟩, -, htext, -⟩ := scanDigits_ok.mp h
        exact absurd (List.append_eq_nil_iff.mp htext.symm).1 hne
      | cons sign text =>
        rw [List.head?_cons, Option.any_some] at h
        split at h
        · next hsign =>
          rw [next_of] at h
          obtain ⟨ds, rest, hds, hstop, rfl, rfl⟩ := scanDigits_ok.mp h
          refine ⟨c :: sign :: ds, rest, .signed hc hsign hds, hstop, rfl, ?_⟩
          simp only [List.append_assoc, List.cons_append, List.nil_append]
        · obtain ⟨ds, rest, hds, hstop, htext, rfl⟩ := scanDigits_ok.mp h
          refine ⟨c :: ds, rest, .plain hc hds, hstop, by rw [htext]; rfl, ?_⟩
          simp only [List.append_assoc, List.cons_append, List.nil_append]
    · rintro (⟨hfalse, -⟩ | ⟨x, rest, hx, hstop, htext, rfl⟩)
      · rw [hc] at hfalse
        cases hfalse
      cases hx with
      | @plain e' ds _ hds =>
        rw [List.cons_append, List.cons.injEq] at htext
        obtain ⟨rfl, rfl⟩ := htext
        obtain ⟨d, ds', rfl⟩ := List.exists_cons_of_ne_nil hds.1
        have hd : isSign d = false := by
          rw [Bool.eq_false_iff]
          intro hsign
          have hdigit := digit_iff.mpr (hds.2 d List.mem_cons_self)
          rw [not_digit_sign d hsign] at hdigit
          cases hdigit
        rw [List.cons_append, List.head?_cons, Option.any_some, if_neg (Bool.eq_false_iff.mp hd), ← List.cons_append,
          scanDigits_ok]
        exact ⟨_, rest, hds, hstop, rfl, by simp only [List.append_assoc, List.cons_append, List.nil_append]⟩
      | @signed e' sign ds _ hsign hds =>
        rw [List.cons_append, List.cons.injEq] at htext
        obtain ⟨rfl, rfl⟩ := htext
        rw [List.cons_append, List.head?_cons, Option.any_some, if_pos hsign, next_of, scanDigits_ok]
        exact ⟨ds, rest, hds, hstop, rfl, by simp only [List.append_assoc, List.cons_append, List.nil_append]⟩
  · rw [if_neg hc, Except.ok.injEq, eq_comm]
    constructor
    · exact fun h => Or.inl ⟨Bool.eq_false_iff.mpr hc, h⟩
    · rintro (⟨-, h⟩ | ⟨x, rest, hx, -, htext, -⟩)
      · exact h
      · cases hx with
        | plain he =>
          obtain ⟨rfl, -⟩ := List.cons.inj htext
          exact absurd he hc
        | signed he =>
          obtain ⟨rfl, -⟩ := List.cons.inj htext
          exact absurd he hc

theorem scanInt_ok : (scanWhole fails (if (Ahead.of fails [] ⟨text, e⟩).c = .byte minus then
      (Ahead.of fails [] ⟨text, e⟩).next fails else .of fails [] ⟨text, e⟩)) = .ok a ↔
    ∃ i v rest, IntText i v ∧ rest.head?.any isDigit = false ∧ text = i ++ rest ∧ a = .of fails i ⟨rest, e⟩ := by
  simp only [byte_of]
  by_cases hminus : text.head? = some minus
  · rw [if_pos hminus]
    obtain ⟨text, rfl⟩ : ∃ t, text = minus :: t := ⟨text.tail, (List.cons_head?_tail hminus).symm⟩
    rw [next_of, scanWhole_ok]
    constructor
    · rintro ⟨ds, rest, hds, hstop, rfl, rfl⟩
      exact ⟨minus :: ds, _, rest, .neg hds, hstop, rfl, rfl⟩
    · rintro ⟨i, v, rest, hi, hstop, htext, rfl⟩
      cases hi with
      | nat hds =>
        obtain ⟨d, ds, rfl⟩ := List.exists_cons_of_ne_nil hds.1.1
        obtain ⟨rfl, -⟩ := List.cons.inj htext
        exact absurd (hds.1.2 minus List.mem_cons_self) (by decide)
      | @neg ds hds =>
        exact ⟨ds, rest, hds, hstop, (List.cons.inj htext).2, rfl⟩
  · rw [if_neg hminus, scanWhole_ok]
    constructor
    · rintro ⟨ds, rest, hds, hstop, rfl, rfl⟩
      exact ⟨ds, _, rest, .nat hds, hstop, rfl, rfl⟩
    · rintro ⟨i, v, rest, hi, hstop, rfl, rfl⟩
      cases hi with
      | nat hds => exact ⟨i, rest, hds, hstop, rfl, rfl⟩
      | neg hds => exact absurd rfl hminus

theorem strtoint_int {i : Bytes} {v : Int} (h : IntText i v) : strtoint i =
    if v < -2 ^ 63 then .error .bigNegative else if 2 ^ 63 ≤ v then .error .bigInteger else .ok v := by
  cases h with
  | nat hds =>
    have hminus : i.head? ≠ some minus := by
      intro h
      exact absurd (hds.1.2 minus (List.mem_of_mem_head? h)) (by decide)
    rw [strtoint, if_neg hminus]
  | neg hds => rfl

theorem except_bind {ε α β : Type} {x : Except ε α} {f : α → Except ε β} {r : β} :
    (x >>= f) = .ok r ↔ ∃ a, x = .ok a ∧ f a = .ok r := by
  cases x with
  | error e => exact iff_of_false nofun nofun
  | ok a => exact ⟨fun h => ⟨a, rfl, h⟩, fun ⟨_, ha, h⟩ => Except.ok.inj ha ▸ h⟩

variable {overflows : Bytes → Bool} {token : Token} {s' : Lex}

theorem scanNumber_sound (h : scanNumber fails overflows (.of fails [] ⟨text, e⟩) = .ok (token, s')) :
    ∃ t rest, NumberText overflows t token ∧ text = t ++ rest ∧ s' = (Ahead.of fails t ⟨rest, e⟩).unget := by
  obtain ⟨a, hint, h⟩ := except_bind.mp h
  obtain ⟨i, v, rest, hi, hstop, rfl, rfl⟩ := scanInt_ok.mp hint
  simp only [ne_eq, byte_of, satisfies_of] at h
  split at h
  · -- an integer
    have hsaved : (Ahead.of fails i ⟨rest, e⟩).saved = i := rfl
    rw [hsaved, strtoint_int hi] at h
    split_ifs at h with hneg hbig
    cases h
    exact ⟨i, rest, .integer hi (by omega) (by omega), rfl, rfl⟩
  next hreal =>
  obtain ⟨a, hfrac, h⟩ := except_bind.mp h
  obtain ⟨a', hexp, h⟩ := except_bind.mp h
  have hdone {t tail : Bytes} (ht : RealText t) (ha : a' = .of fails t ⟨tail, e⟩) (htext : i ++ rest = t ++ tail) :
      ∃ t tail, NumberText overflows t token ∧ i ++ rest = t ++ tail ∧ s' = (Ahead.of fails t ⟨tail, e⟩).unget := by
    subst ha
    have hsaved : (Ahead.of fails t ⟨tail, e⟩).saved = t := rfl
    rw [hsaved] at h
    split at h
    · cases h
    · next hover =>
      cases h
      exact ⟨t, tail, .real ht (Bool.eq_false_iff.mpr hover), htext, rfl⟩
  rcases scanFraction_ok.mp hfrac with ⟨hdot, rfl⟩ | ⟨f, tail, hf, -, rfl, rfl⟩
  · rcases scanExponent_ok.mp hexp with ⟨hx, -⟩ | ⟨x, tail, hx, -, rfl, rfl⟩
    · exact absurd ⟨hdot, hx⟩ hreal
    · exact hdone (.exponent hi hx) rfl (List.append_assoc ..).symm
  · rcases scanExponent_ok.mp hexp with ⟨-, rfl⟩ | ⟨x, tail, hx, -, rfl, rfl⟩
    · exact hdone (.fraction hi hf) rfl (List.append_assoc ..).symm
    · exact hdone (.both hi hf hx) rfl (by simp only [List.append_assoc])

/-- A byte with which a number would go on. -/
def inNumber (c : UInt8) : Bool := isDigit c || c == dot || isExponent c

theorem head_of_inNumber (h : text.head?.any inNumber = false) :
    text.head?.any isDigit = false ∧ text.head? ≠ some dot ∧ text.head?.any isExponent = false := by
  cases text with
  | nil => exact ⟨rfl, nofun, rfl⟩
  | cons c text =>
    simp only [List.head?_cons, Option.any_some, inNumber, Bool.or_eq_false_iff, beq_eq_false_iff_ne] at h
    exact ⟨h.1.1, fun hc => h.1.2 (Option.some.inj hc), h.2⟩

theorem Fraction.head {f : Bytes} (h : Fraction f) (rest : Bytes) : (f ++ rest).head? = some dot := by
  obtain ⟨ds, -, rfl⟩ := h
  rfl

theorem Exponent.head {x : Bytes} (h : Exponent x) (rest : Bytes) : (x ++ rest).head?.any isExponent = true := by
  cases h <;> assumption

theorem not_dot_exponent (c : UInt8) (h : isExponent c = true) : c ≠ dot := by
  rcases isExponent_iff.mp h with rfl | rfl <;> decide

/-- What makes a number a real. -/
def StartsReal (tail : Bytes) : Prop := tail.head? = some dot ∨ tail.head?.any isExponent = true

theorem StartsReal.stops {tail : Bytes} (h : StartsReal tail) : tail.head?.any isDigit = false := by
  cases tail with
  | nil => rfl
  | cons c tail =>
    rcases h with h | h
    · rw [h]
      rfl
    · exact not_digit_exponent c h

theorem Exponent.ne_dot {x : Bytes} (h : Exponent x) (rest : Bytes) : (x ++ rest).head? ≠ some dot := by
  cases h with
  | plain he => exact fun h => not_dot_exponent _ he (Option.some.inj h)
  | signed he => exact fun h => not_dot_exponent _ he (Option.some.inj h)

theorem scanNumber_real {i t tail : Bytes} {v : Int} (hi : IntText i v) (hstart : StartsReal tail)
    (hf : scanFraction fails (.of fails i ⟨tail, e⟩) = .ok a) (hx : scanExponent fails a = .ok (.of fails t ⟨rest, e⟩))
    (hover : overflows t = false) :
    scanNumber fails overflows (.of fails [] ⟨i ++ tail, e⟩) = .ok (.real t, (Ahead.of fails t ⟨rest, e⟩).unget) := by
  refine except_bind.mpr ⟨_, scanInt_ok.mpr ⟨i, v, tail, hi, hstart.stops, rfl, rfl⟩, ?_⟩
  have hreal : ¬((Ahead.of fails i ⟨tail, e⟩).c ≠ .byte dot ∧
      (Ahead.of fails i ⟨tail, e⟩).c.satisfies isExponent = false) := by
    rw [ne_eq, byte_of, satisfies_of]
    rintro ⟨hdot, hexp⟩
    rcases hstart with h | h
    · exact hdot h
    · rw [hexp] at h
      cases h
  rw [if_neg hreal]
  refine except_bind.mpr ⟨_, hf, except_bind.mpr ⟨_, hx, ?_⟩⟩
  have hsaved : (Ahead.of fails t ⟨rest, e⟩).saved = t := rfl
  rw [hsaved, hover]
  rfl

theorem scanNumber_complete {t : Bytes} (h : NumberText overflows t token) (hrest : rest.head?.any inNumber = false) :
    scanNumber fails overflows (.of fails [] ⟨t ++ rest, e⟩) = .ok (token, (Ahead.of fails t ⟨rest, e⟩).unget) := by
  obtain ⟨hdigit, hdot, hexp⟩ := head_of_inNumber hrest
  cases h with
  | integer hi hlow hhigh =>
    refine except_bind.mpr ⟨_, scanInt_ok.mpr ⟨_, _, rest, hi, hdigit, rfl, rfl⟩, ?_⟩
    have hsaved : (Ahead.of fails t ⟨rest, e⟩).saved = t := rfl
    simp only [ne_eq, byte_of, satisfies_of, hdot, hexp, not_false_eq_true, and_self, if_true, hsaved, strtoint_int hi]
    rw [if_neg (by omega), if_neg (by omega)]
  | real hr hover =>
    cases hr with
    | fraction hi hf =>
      rw [List.append_assoc]
      exact scanNumber_real hi (Or.inl (hf.head _)) (scanFraction_ok.mpr (Or.inr ⟨_, rest, hf, hdigit, rfl, rfl⟩))
        (scanExponent_ok.mpr (Or.inl ⟨hexp, rfl⟩)) hover
    | exponent hi hx =>
      rw [List.append_assoc]
      exact scanNumber_real hi (Or.inr (hx.head _)) (scanFraction_ok.mpr (Or.inl ⟨hx.ne_dot _, rfl⟩))
        (scanExponent_ok.mpr (Or.inr ⟨_, rest, hx, hdigit, rfl, rfl⟩)) hover
    | both hi hf hx =>
      rw [List.append_assoc, List.append_assoc]
      exact scanNumber_real hi (Or.inl (hf.head _))
        (scanFraction_ok.mpr (Or.inr ⟨_, _, hf, StartsReal.stops (Or.inr (hx.head rest)), rfl, rfl⟩))
        (scanExponent_ok.mpr (Or.inr ⟨_, rest, hx, hdigit, rfl, rfl⟩)) hover

end Pieces

/-! ### Tokens -/

/-- What may come behind a value. -/
def follows (c : UInt8) : Bool := isBlank c || c == comma || c == rightBracket || c == rightBrace

def Follow (rest : Bytes) : Prop := ∀ c, rest.head? = some c → follows c = true

section Tokens
variable {fails : Option UInt8} {overflows : Bytes → Bool} {saved text rest t z : Bytes} {e : Option LoadError}
  {c : UInt8} {token : Token} {s s' : Lex}

/-- What is put back is there again, but for a NUL. -/
theorem unget_nul : ∃ z, Nul z ∧ text = z ++ (Ahead.of fails saved ⟨text, e⟩).unget.bytes := by
  cases text with
  | nil => exact ⟨[], Or.inl rfl, by cases fails <;> rfl⟩
  | cons c text =>
    show ∃ z, Nul z ∧ c :: text = z ++ (Lex.unget (.byte c) ⟨text, e⟩).bytes
    by_cases hc : c = 0
    · exact ⟨[0], Or.inr rfl, by simp [Lex.unget, hc]⟩
    · exact ⟨[], Or.inl rfl, by simp [Lex.unget, hc]⟩

theorem unget_follow (hz : Nul z) (hrest : Follow rest) : (Ahead.of none saved ⟨z ++ rest, e⟩).unget = ⟨rest, e⟩ := by
  rcases hz with rfl | rfl
  · cases rest with
    | nil => rfl
    | cons c rest =>
      have hnul : c ≠ 0 := by
        rintro rfl
        exact absurd (hrest 0 rfl) (by decide)
      exact if_neg hnul
  · rfl

/-- Behind a value nothing stands that would make it longer. -/
theorem stops_follow {p : UInt8 → Bool} (hp : ∀ c, p c = true → c ≠ 0 ∧ follows c = false) (hz : Nul z)
    (hrest : Follow rest) : (z ++ rest).head?.any p = false := by
  rw [Bool.eq_false_iff]
  intro hany
  obtain ⟨c, hc, hpc⟩ := (Option.any_eq_true _ _).mp hany
  obtain ⟨hnul, hno⟩ := hp c hpc
  rcases hz with rfl | rfl
  · rw [hrest c hc] at hno
    cases hno
  · exact hnul (Option.some.inj hc).symm

/-- What the classes of bytes have in common: those of a number, of a word, at the start of a number, and brackets. -/
def Apart (c : UInt8) : Prop :=
  (inNumber c = true → c ≠ 0 ∧ follows c = false) ∧
  (isAlpha c = true → (c ≠ 0 ∧ follows c = false) ∧ isPunct c = false ∧ c ≠ quote ∧ (isDigit c || c == minus) = false) ∧
  ((isDigit c || c == minus) = true → isPunct c = false ∧ c ≠ quote ∧ isBlank c = false) ∧
  (isPunct c = true → isBlank c = false)

instance (c : UInt8) : Decidable (Apart c) := inferInstanceAs (Decidable (_ ∧ _))

theorem apart (c : UInt8) : Apart c := Inet.forall_byte (P := Apart) (by decide +kernel) c

theorem word_cases (h : word saved = token) (hvalid : token ≠ .invalid) (hz : Nul z) :
    TokenText overflows (saved ++ z) token := by
  subst h
  rw [word] at hvalid ⊢
  split_ifs at hvalid ⊢ with htrue hfalse hnull
  · exact htrue ▸ .true hz
  · exact hfalse ▸ .false hz
  · exact hnull ▸ .null hz
  · exact absurd rfl hvalid

/-- What is not an invalid token is read from its text. -/
theorem lexToken_sound (h : lexToken fails overflows c ⟨text, e⟩ = (token, s')) (hvalid : token ≠ .invalid) :
    ∃ t, TokenText overflows t token ∧ c :: text = t ++ s'.bytes := by
  rw [lexToken] at h
  split at h
  · next hc =>
    cases h
    exact ⟨[c], .punct hc, rfl⟩
  split at h
  · next hquote =>
    obtain ⟨t, v, hbody, rfl, htext⟩ := lexScanString_sound h hvalid
    exact ⟨quote :: t ++ [quote], .string hbody, congrArg₂ List.cons hquote htext⟩
  split at h
  · rw [lexScanNumber] at h
    split at h
    · cases h
      exact absurd rfl hvalid
    · next r hr =>
      subst h
      change scanNumber fails overflows (.of fails [] ⟨c :: text, e⟩) = .ok _ at hr
      obtain ⟨t, rest, ht, htext, rfl⟩ := scanNumber_sound hr
      obtain ⟨z, hz, hrest⟩ := unget_nul (e := e)
      exact ⟨t ++ z, .number ht hz, by rw [htext, List.append_assoc, ← hrest]⟩
  split at h
  · have ha : Ahead.nextWhile fails isAlpha ⟨[], .byte c, ⟨text, e⟩⟩ =
        .of fails (c :: text.takeWhile isAlpha) ⟨text.dropWhile isAlpha, e⟩ := nextWhile_of isAlpha
    rw [ha] at h
    obtain ⟨hword, rfl⟩ := Prod.mk.inj h
    obtain ⟨z, hz, hrest⟩ := unget_nul (e := e)
    refine ⟨_, word_cases hword hvalid hz, ?_⟩
    rw [List.append_assoc, ← hrest]
    exact congrArg (c :: ·) List.takeWhile_append_dropWhile.symm
  · cases h
    exact absurd rfl hvalid

/-- What is not an invalid token is the end, or it is read from its text. -/
theorem lexScan_sound (h : lexScan fails overflows s = (token, s')) (hvalid : token ≠ .invalid) :
    (token = .eof ∧ fails = none ∧ Ws s.bytes ∧ s'.bytes = []) ∨
      ∃ w t, Ws w ∧ TokenText overflows t token ∧ s.bytes = w ++ t ++ s'.bytes := by
  obtain ⟨hblank, -, hspan⟩ := (span_iff (p := isBlank) (l := s.bytes)).mpr ⟨rfl, rfl⟩
  rw [lexScan] at h
  cases hrest : s.bytes.dropWhile isBlank with
  | nil =>
    rw [hrest] at h
    cases fails with
    | some c =>
      cases h
      exact absurd rfl hvalid
    | none =>
      cases h
      rw [hrest, List.append_nil] at hspan
      exact Or.inl ⟨rfl, rfl, by rw [hspan]; exact hblank, rfl⟩
  | cons c rest =>
    rw [hrest] at h
    obtain ⟨t, ht, htext⟩ := lexToken_sound h hvalid
    refine Or.inr ⟨_, t, hblank, ht, ?_⟩
    rw [List.append_assoc, ← htext, ← hrest]
    exact hspan

/-- A number starts with a digit or a sign. -/
theorem NumberText.head (h : NumberText overflows t token) :
    ∃ c t', t = c :: t' ∧ (isDigit c || c == minus) = true := by
  have hint {i : Bytes} {v : Int} (hi : IntText i v) (tail : Bytes) :
      ∃ c t', i ++ tail = c :: t' ∧ (isDigit c || c == minus) = true := by
    cases hi with
    | nat hds =>
      obtain ⟨d, ds, rfl⟩ := List.exists_cons_of_ne_nil hds.1.1
      refine ⟨d, ds ++ tail, rfl, ?_⟩
      rw [digit_iff.mpr (hds.1.2 d List.mem_cons_self), Bool.true_or]
    | neg hds => exact ⟨minus, _, rfl, rfl⟩
  cases h with
  | integer hi => simpa using hint hi []
  | real hr =>
    cases hr with
    | fraction hi => exact hint hi _
    | exponent hi => exact hint hi _
    | both hi =>
      rw [List.append_assoc]
      exact hint hi _

/-- The tokens that end where their text does, whatever comes behind them. -/
def Token.isClosed : Token → Bool
  | .punct _ => Bool.true
  | .string _ => Bool.true
  | _ => Bool.false

theorem lexToken_word {w : Bytes} (hall : (c :: w).all isAlpha = true) (hz : Nul z) (hrest : Follow rest) :
    lexToken none overflows c ⟨w ++ (z ++ rest), e⟩ = (word (c :: w), ⟨rest, e⟩) := by
  obtain ⟨hc, hw⟩ := List.forall_mem_cons.mp (List.all_eq_true.mp hall)
  obtain ⟨-, hpunct, hquote, hdigit⟩ := (apart c).2.1 hc
  have hstop := stops_follow (p := isAlpha) (fun d hd => ((apart d).2.1 hd).1) hz hrest
  obtain ⟨htake, hdrop⟩ := (span_iff (p := isAlpha)).mp ⟨hw, hstop, rfl⟩
  have ha : Ahead.nextWhile none isAlpha ⟨[], .byte c, ⟨w ++ (z ++ rest), e⟩⟩ = .of none (c :: w) ⟨z ++ rest, e⟩ := by
    have h : (Ahead.of none [] ⟨c :: (w ++ (z ++ rest)), e⟩).nextWhile none isAlpha =
        .of none ([] ++ c :: (w ++ (z ++ rest)).takeWhile isAlpha) ⟨(w ++ (z ++ rest)).dropWhile isAlpha, e⟩ :=
      nextWhile_of isAlpha
    rw [← htake, ← hdrop] at h
    exact h
  rw [lexToken, hpunct, if_neg Bool.false_ne_true, if_neg hquote, hdigit, if_neg Bool.false_ne_true, if_pos hc]
  simp only [ha]
  exact congrArg (Prod.mk (word (c :: w))) (unget_follow hz hrest)

/-- The text of a token is read as the token. -/
theorem lexToken_complete (h : TokenText overflows t token) (hrest : token.isClosed = true ∨ Follow rest) :
    ∃ c t', t = c :: t' ∧ isBlank c = false ∧ lexToken none overflows c ⟨t' ++ rest, e⟩ = (token, ⟨rest, e⟩) := by
  have hopen : token.isClosed = false → Follow rest := fun hfalse => hrest.resolve_left (by simp [hfalse])
  cases h with
  | @punct c hc =>
    refine ⟨c, [], rfl, ?_, ?_⟩
    · exact (apart c).2.2.2 hc
    · rw [lexToken, if_pos hc]
      rfl
  | @string t v hbody =>
    refine ⟨quote, t ++ [quote], rfl, rfl, ?_⟩
    rw [List.append_assoc, List.singleton_append]
    exact lexScanString_complete none hbody rest e
  | @number t token z ht hz =>
    have hfollow : Follow rest := hopen (by cases ht <;> rfl)
    obtain ⟨c, t', rfl, hc⟩ := ht.head
    obtain ⟨hpunct, hquote, hblank⟩ := (apart c).2.2.1 hc
    refine ⟨c, t' ++ z, rfl, hblank, ?_⟩
    have hnumber : scanNumber none overflows (.of none [] ⟨c :: t' ++ (z ++ rest), e⟩) =
        .ok (token, (Ahead.of none (c :: t') ⟨z ++ rest, e⟩).unget) :=
      scanNumber_complete ht (stops_follow (fun d => (apart d).1) hz hfollow)
    rw [unget_follow hz hfollow] at hnumber
    rw [lexToken, hpunct, if_neg Bool.false_ne_true, if_neg hquote, if_pos hc, lexScanNumber, List.append_assoc]
    change scanNumber none overflows ⟨[], .byte c, ⟨t' ++ (z ++ rest), e⟩⟩ = _ at hnumber
    rw [hnumber]
  | @true z hz =>
    refine ⟨116, [114, 117, 101] ++ z, rfl, rfl, ?_⟩
    rw [List.append_assoc]
    exact lexToken_word (by decide) hz (hopen rfl)
  | @false z hz =>
    refine ⟨102, [97, 108, 115, 101] ++ z, rfl, rfl, ?_⟩
    rw [List.append_assoc]
    exact lexToken_word (by decide) hz (hopen rfl)
  | @null z hz =>
    refine ⟨110, [117, 108, 108] ++ z, rfl, rfl, ?_⟩
    rw [List.append_assoc]
    exact lexToken_word (by decide) hz (hopen rfl)

/-- The text of a token behind blanks is read as the token. -/
theorem lexScan_complete {w : Bytes} (hw : Ws w) (h : TokenText overflows t token)
    (hrest : token.isClosed = true ∨ Follow rest) :
    lexScan none overflows ⟨w ++ (t ++ rest), e⟩ = (token, ⟨rest, e⟩) := by
  obtain ⟨c, t', rfl, hblank, hread⟩ := lexToken_complete (e := e) h hrest
  obtain ⟨-, hdrop⟩ : w = (w ++ c :: (t' ++ rest)).takeWhile isBlank ∧
      c :: (t' ++ rest) = (w ++ c :: (t' ++ rest)).dropWhile isBlank := span_iff.mp ⟨hw, hblank, rfl⟩
  rw [lexScan, List.cons_append]
  simp only [← hdrop]
  exact hread

/-- Blanks up to the end. -/
theorem lexScan_eof {w : Bytes} (hw : Ws w) : lexScan none overflows ⟨w, e⟩ = (.eof, ⟨[], e⟩) := by
  obtain ⟨-, hdrop⟩ : w = w.takeWhile isBlank ∧ [] = w.dropWhile isBlank :=
    span_iff.mp ⟨hw, rfl, (List.append_nil w).symm⟩
  rw [lexScan]
  simp only [← hdrop]
  rfl

end Tokens

end PgRest.Jansson
