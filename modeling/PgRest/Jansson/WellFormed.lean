import PgRest.Jansson.Accepts

/-! What a document is like that the loader returns. A text that is UTF-8 is cut at bytes that are characters of their own, so
what is between the quotes of a string is UTF-8, and so is what the string stands for. -/
namespace PgRest.Jansson
open Inet (Hex)
open Lib

/-- The text of some characters. -/
def IsUtf8 (t : Bytes) : Prop := ∃ cs, t = utf8 cs

/-- A text that may be handed on as a C string. -/
structure IsText (v : Bytes) : Prop where
  utf8 : IsUtf8 v
  nul : 0 ∉ v

/-- A value of no more than some levels. -/
def WellFormed (overflows : Bytes → Bool) : Nat → Json → Prop
  | 0, _ => False
  | _ + 1, .string v => IsText v
  | _ + 1, .integer i => -2 ^ 63 ≤ i ∧ i < 2 ^ 63
  | _ + 1, .real text => RealText text ∧ overflows text = false
  | depth + 1, .array vs => ∀ v ∈ vs, WellFormed overflows depth v
  | depth + 1, .object ms => (ms.map Prod.fst).Nodup ∧ ∀ m ∈ ms, IsText m.1 ∧ WellFormed overflows depth m.2
  | _ + 1, _ => True

/-! ### Cutting UTF-8 -/

/-- A character is one byte of its own, or none of its bytes is. -/
theorem encodeChar_bytes (ch : Char) : (∃ c, c < 0x80 ∧ String.utf8EncodeChar ch = [c]) ∨
    ∃ c tail, String.utf8EncodeChar ch = c :: tail ∧ ∀ b ∈ c :: tail, ¬b < 0x80 := by
  have hbyte {n : Nat} (h : n < 256) (hn : 0x80 ≤ n) : ¬n.toUInt8 < 0x80 := by
    rw [UInt8.lt_iff_toNat_lt, toNat_byte h]
    simp only [UInt8.reduceToNat]
    omega
  rcases encodeChar_cases ch with ⟨hlt, he⟩ | ⟨hle, hlt, he⟩ | ⟨hle, hlt, -, he⟩ | ⟨hle, hlt, he⟩
  · refine Or.inl ⟨_, ?_, he⟩
    rw [UInt8.lt_iff_toNat_lt, toNat_byte (by omega)]
    exact hlt
  all_goals
    refine Or.inr ⟨_, _, he, ?_⟩
    simp only [List.mem_cons, List.not_mem_nil, or_false, forall_eq_or_imp, forall_eq]
  · exact ⟨hbyte (by omega) (by omega), hbyte (by omega) (by omega)⟩
  · exact ⟨hbyte (by omega) (by omega), hbyte (by omega) (by omega), hbyte (by omega) (by omega)⟩
  · exact ⟨hbyte (by omega) (by omega), hbyte (by omega) (by omega), hbyte (by omega) (by omega),
      hbyte (by omega) (by omega)⟩

theorem isUtf8_nil : IsUtf8 [] := ⟨[], rfl⟩

theorem IsUtf8.append {a b : Bytes} (ha : IsUtf8 a) (hb : IsUtf8 b) : IsUtf8 (a ++ b) := by
  obtain ⟨cs, rfl⟩ := ha
  obtain ⟨ds, rfl⟩ := hb
  exact ⟨cs ++ ds, List.flatMap_append.symm⟩

theorem isUtf8_char (ch : Char) : IsUtf8 (String.utf8EncodeChar ch) := ⟨[ch], by simp [utf8]⟩

theorem isUtf8_byte {c : UInt8} (hc : c < 0x80) : IsUtf8 [c] := by
  obtain ⟨ch, -, hch⟩ := sequence_iff.mp (.one (checkFirst_one.mpr hc))
  exact hch ▸ isUtf8_char ch

/-- A text is cut at a byte that is a character. -/
theorem IsUtf8.cut {a b : Bytes} {c : UInt8} (h : IsUtf8 (a ++ c :: b)) (hc : c < 0x80) : IsUtf8 a ∧ IsUtf8 b := by
  obtain ⟨cs, hcs⟩ := h
  induction cs generalizing a with
  | nil => exact absurd hcs (by simp [utf8])
  | cons ch cs ih =>
    rw [utf8_cons] at hcs
    rcases List.append_eq_append_iff.mp hcs with ⟨d, hd, hrest⟩ | ⟨d, hd, hrest⟩
    · cases d with
      | nil =>
        obtain ⟨-, hb⟩ := ih (a := []) hrest
        rw [List.append_nil] at hd
        exact ⟨hd ▸ isUtf8_char ch, hb⟩
      | cons x d =>
        -- the byte is in the character, so it is all of it
        obtain ⟨rfl, hb⟩ := List.cons.inj hrest
        rcases encodeChar_bytes ch with ⟨y, -, hy⟩ | ⟨y, tail, hy, hall⟩
        · rw [hy] at hd
          obtain ⟨rfl, rfl⟩ : a = [] ∧ d = [] := by
            cases a with
            | nil => exact ⟨rfl, (List.cons.inj hd).2.symm⟩
            | cons z a => exact absurd (List.cons.inj hd).2 (by simp)
          exact ⟨isUtf8_nil, cs, hb⟩
        · rw [hy] at hd
          exact absurd hc (hall c (hd ▸ List.mem_append_right _ List.mem_cons_self))
    · obtain ⟨ha, hb⟩ := ih hrest.symm
      exact ⟨hd ▸ (isUtf8_char ch).append ha, hb⟩

theorem IsUtf8.drop {w t : Bytes} (h : IsUtf8 (w ++ t)) (hw : ∀ c ∈ w, c < 0x80) : IsUtf8 t := by
  induction w with
  | nil => exact h
  | cons c w ih =>
    obtain ⟨hc, hw⟩ := List.forall_mem_cons.mp hw
    exact ih (IsUtf8.cut (a := []) h hc).2 hw

theorem IsUtf8.take {w t : Bytes} (h : IsUtf8 (t ++ w)) (hw : ∀ c ∈ w, c < 0x80) : IsUtf8 t := by
  cases w with
  | nil => rwa [List.append_nil] at h
  | cons c w => exact (h.cut (hw c List.mem_cons_self)).1

/-! ### Strings -/

theorem StringBody.peel {tail t v : Bytes} (h : StringBody (tail ++ t) v) (htail : ∀ b ∈ tail, ¬b < 0x80) :
    ∃ v', v = tail ++ v' ∧ StringBody t v' := by
  induction tail generalizing v with
  | nil => exact ⟨v, rfl, h⟩
  | cons b tail ih =>
    obtain ⟨hb, htail⟩ := List.forall_mem_cons.mp htail
    rw [List.cons_append] at h
    generalize hrest : tail ++ t = rest at h
    cases h with
    | byte _ _ _ h =>
      obtain ⟨v', rfl, hv'⟩ := ih (hrest ▸ h) htail
      exact ⟨v', rfl, hv'⟩
    | escape => exact absurd (by decide) hb
    | unicode => exact absurd (by decide) hb
    | pair => exact absurd (by decide) hb

theorem hex_ascii (c : UInt8) (h : Hex c) : c < 0x80 := by
  rcases h with ⟨-, h⟩ | ⟨-, h⟩ | ⟨-, h⟩ <;> exact UInt8.lt_of_le_of_lt h (by decide)

theorem Four.ascii {h : Bytes} {n : Nat} (hfour : Four h n) : ∀ c ∈ backslash :: letterU :: h, c < 0x80 := by
  simp only [List.mem_cons, forall_eq_or_imp]
  exact ⟨by decide, by decide, fun c hc => hex_ascii c (hfour.hex c hc)⟩

theorem escape_ascii {e x : UInt8} (h : (e, x) ∈ escapes) : e < 0x80 ∧ x < 0x80 := by
  have hall : escapes.all (fun p => decide (p.1 < 0x80 ∧ p.2 < 0x80)) = true := by decide
  exact of_decide_eq_true (List.all_eq_true.mp hall _ h)

/-- The value of a string is UTF-8 if its text is. -/
theorem StringBody.utf8 {t v : Bytes} (h : StringBody t v) (ht : IsUtf8 t) : IsUtf8 v := by
  induction hlen : t.length using Nat.strongRecOn generalizing t v with
  | ind n ih =>
  subst hlen
  -- what is left of the text behind bytes that are characters
  have hrest {w t' v' : Bytes} (hw : ∀ c ∈ w, c < 0x80) (hne : w ≠ []) (htext : t = w ++ t') (h' : StringBody t' v') :
      IsUtf8 v' := by
    subst htext
    have hpos := List.length_pos_of_ne_nil hne
    exact ih t'.length (by rw [List.length_append]; omega) h' (ht.drop hw) rfl
  cases h with
  | nil => exact isUtf8_nil
  | @byte c t v hcontrol hquote hslash h =>
    by_cases hc : c < 0x80
    · exact (isUtf8_byte hc).append (hrest (w := [c]) (by simpa using hc) (by simp) rfl h)
    · obtain ⟨cs, hcs⟩ := ht
      cases cs with
      | nil => exact absurd hcs (by simp [Jansson.utf8])
      | cons ch cs =>
        rw [utf8_cons] at hcs
        rcases encodeChar_bytes ch with ⟨y, hy, he⟩ | ⟨y, tail, he, hall⟩
        · rw [he] at hcs
          exact absurd ((List.cons.inj hcs).1 ▸ hy) hc
        · rw [he] at hcs
          obtain ⟨rfl, rfl⟩ := List.cons.inj hcs
          obtain ⟨v', rfl, hv'⟩ := h.peel (List.forall_mem_cons.mp hall).2
          have hlt : (Jansson.utf8 cs).length < (tail ++ Jansson.utf8 cs).length + 1 := by
            rw [List.length_append]
            omega
          have hrec := ih (Jansson.utf8 cs).length hlt hv' ⟨cs, rfl⟩ rfl
          have hchar := isUtf8_char ch
          rw [he] at hchar
          exact hchar.append hrec
  | @escape e x t v hmem h =>
    obtain ⟨he, hx⟩ := escape_ascii hmem
    exact (isUtf8_byte hx).append (hrest (w := [backslash, e]) (by simpa using ⟨by decide, he⟩) (by simp) rfl h)
  | @unicode h t v c hfour hbody => exact (isUtf8_char c).append (hrest hfour.ascii (by simp) rfl hbody)
  | @pair h k t v high low c hfour hfour2 _ _ _ hbody =>
    refine (isUtf8_char c).append
      (hrest (w := backslash :: letterU :: h ++ (backslash :: letterU :: k)) ?_ (by simp) ?_ hbody)
    · intro b hb
      rcases List.mem_append.mp hb with hb | hb
      · exact hfour.ascii b hb
      · exact hfour2.ascii b hb
    · simp only [List.append_assoc]

/-! ### Values -/

theorem blank_ascii (c : UInt8) : isBlank c = true → c < 0x80 :=
  Inet.forall_byte (P := fun c => isBlank c = true → c < 0x80) (by decide +kernel) c

theorem Ws.ascii {w : Bytes} (hw : Ws w) : ∀ c ∈ w, c < 0x80 := fun c hc => blank_ascii c (hw c hc)

theorem IsUtf8.blanks {w t w' : Bytes} (h : IsUtf8 (w ++ t ++ w')) (hw : Ws w) (hw' : Ws w') : IsUtf8 t :=
  (h.take hw'.ascii).drop hw.ascii

/-- What is between two bytes that are characters. -/
theorem IsUtf8.enclosed {a b : UInt8} {t : Bytes} (h : IsUtf8 (a :: t ++ [b])) (ha : a < 0x80) (hb : b < 0x80) : IsUtf8 t :=
  IsUtf8.drop (w := [a]) (h.take (by simpa using hb)) (by simpa using ha)

section Nested
variable {overflows : Bytes → Bool} {V : Bytes → Json → Prop} {P : Json → Prop}

theorem Scalar.wellFormed {t : Bytes} {token : Token} {v : Json} (h : Scalar token v) (htoken : TokenText overflows t token)
    (ht : IsUtf8 t) (depth : Nat) : WellFormed overflows (depth + 1) v := by
  cases h with
  | string hnul =>
    cases htoken with
    | string hbody => exact ⟨hbody.utf8 (ht.enclosed (by decide) (by decide)), hnul⟩
    | number hnumber => cases hnumber
  | integer =>
    cases htoken with
    | number hnumber =>
      cases hnumber with
      | integer _ hlow hhigh => exact ⟨hlow, hhigh⟩
  | real =>
    cases htoken with
    | number hnumber =>
      cases hnumber with
      | real hreal hfinite => exact ⟨hreal, hfinite⟩
  | true => trivial
  | false => trivial
  | null => trivial

theorem Elems.forall {t : Bytes} {vs : List Json} (h : Elems V t vs) (ht : IsUtf8 t)
    (hV : ∀ t v, V t v → IsUtf8 t → P v) : ∀ v ∈ vs, P v := by
  induction h with
  | one hw hv hw' =>
    rw [List.forall_mem_singleton]
    exact hV _ _ hv (ht.blanks hw hw')
  | cons hw hv hw' _ ih =>
    obtain ⟨hfirst, hrest⟩ := ht.cut (by decide)
    exact List.forall_mem_cons.mpr ⟨hV _ _ hv (hfirst.blanks hw hw'), ih hrest⟩

theorem Member.wellFormed {t : Bytes} {m : Bytes × Json} (h : Member V t m) (ht : IsUtf8 t)
    (hV : ∀ t v, V t v → IsUtf8 t → P v) : IsText m.1 ∧ P m.2 := by
  obtain ⟨hw, hbody, hnul, hw₁, hw₂, hv, hw₃⟩ := h
  obtain ⟨hkey, hvalue⟩ := ht.cut (by decide)
  exact ⟨⟨hbody.utf8 ((hkey.blanks hw hw₁).enclosed (by decide) (by decide)), hnul⟩, hV _ _ hv (hvalue.blanks hw₂ hw₃)⟩

theorem Members.forall {t : Bytes} {ms : List (Bytes × Json)} (h : Members V t ms) (ht : IsUtf8 t)
    (hV : ∀ t v, V t v → IsUtf8 t → P v) : ∀ m ∈ ms, IsText m.1 ∧ P m.2 := by
  induction h with
  | one hm =>
    rw [List.forall_mem_singleton]
    exact hm.wellFormed ht hV
  | cons hm _ ih =>
    obtain ⟨hfirst, hrest⟩ := ht.cut (by decide)
    exact List.forall_mem_cons.mpr ⟨hm.wellFormed hfirst hV, ih hrest⟩

/-- The keys that are left are different, and what is left was there. -/
theorem kept_spec (ms : List (Bytes × Json)) : ((kept ms).map Prod.fst).Nodup ∧ ∀ m ∈ kept ms, m ∈ ms := by
  have hfold : ∀ (ms l : List (Bytes × Json)), (l.map Prod.fst).Nodup →
      ((ms.foldl (fun kept m => objectSet m.1 m.2 kept) l).map Prod.fst).Nodup ∧
        ∀ m ∈ ms.foldl (fun kept m => objectSet m.1 m.2 kept) l, m ∈ l ∨ m ∈ ms := by
    intro ms
    induction ms with
    | nil => exact fun l hl => ⟨hl, fun m hm => Or.inl hm⟩
    | cons m ms ih =>
      intro l hl
      obtain ⟨hnodup, hmem⟩ := ih (objectSet m.1 m.2 l) (nodup_place (fun b _ => beq_iff_eq) rfl hl)
      refine ⟨hnodup, fun m' hm' => ?_⟩
      rcases hmem m' hm' with hm' | hm'
      · rcases mem_place hm' with rfl | hm'
        · exact Or.inr List.mem_cons_self
        · exact Or.inl hm'
      · exact Or.inr (List.mem_cons_of_mem m hm')
  obtain ⟨hnodup, hmem⟩ := hfold ms [] List.nodup_nil
  exact ⟨hnodup, fun m hm => (hmem m hm).resolve_left (List.not_mem_nil)⟩

end Nested

/-- The induction is on the levels: what is nested in a text that is UTF-8 has such a text as well. -/
theorem ValueText.wellFormed {overflows : Bytes → Bool} {depth : Nat} {t : Bytes} {v : Json}
    (h : ValueText overflows depth t v) (ht : IsUtf8 t) : WellFormed overflows depth v := by
  induction depth generalizing t v with
  | zero => exact h.elim
  | succ depth ih =>
    cases h with
    | scalar htoken hscalar => exact hscalar.wellFormed htoken ht depth
    | emptyArray => exact List.forall_mem_nil _
    | array helems => exact helems.forall (ht.enclosed (by decide) (by decide)) fun _ _ => ih
    | emptyObject => exact ⟨List.nodup_nil, List.forall_mem_nil _⟩
    | object hmembers =>
      obtain ⟨hnodup, hmem⟩ := kept_spec _
      exact ⟨hnodup, fun m hm =>
        hmembers.forall (ht.enclosed (by decide) (by decide)) (fun _ _ => ih) m (hmem m hm)⟩

/-- **What is loaded is well formed.** -/
theorem jsonLoadFile_wellFormed {overflows : Bytes → Bool} {data : Bytes} {v : Json}
    (h : jsonLoadFile overflows data = .ok v) : v.isContainer = true ∧ WellFormed overflows maxDepth v := by
  have hsound := jsonLoadFile_sound overflows data
  rw [h] at hsound
  obtain ⟨⟨cs, hdata⟩, hcontainer, w, t, w', hw, ht, hw', rfl⟩ := hsound
  exact ⟨hcontainer, ht.wellFormed (IsUtf8.blanks ⟨cs, hdata⟩ hw hw')⟩

theorem jsonLoadFile_wellFormed_string : (Json.array [.string [120]]).isContainer = true ∧
    WellFormed (fun _ => false) maxDepth (.array [.string [120]]) := by
  have hstring : ValueText (fun _ => false) 2047 (ascii "\"x\"") (.string [120]) :=
    .scalar (.string (.byte (by decide) (by decide) (by decide) .nil)) (.string (by decide))
  have htext : ValueText (fun _ => false) maxDepth (ascii "[\"x\"]") (.array [.string [120]]) :=
    .array (.one (w := []) (List.forall_mem_nil _) hstring (List.forall_mem_nil _))
  exact jsonLoadFile_wellFormed (jsonLoadFile_complete ⟨⟨['[', '"', 'x', '"', ']'], rfl⟩, rfl, [], _, [],
    List.forall_mem_nil _, htext, List.forall_mem_nil _, rfl⟩)

end PgRest.Jansson
