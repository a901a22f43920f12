import PgRest.Jansson.Lexer

/-! What `json_load_file` makes of a file. The values are read as the grammar has them, level by level: the loops of arrays
and objects are compared with their lists for whatever reads the values in them, and the levels come from that by
induction. The fuel of the loops does not run out, since every round reads a token. -/
namespace PgRest.Jansson
open Lib

section Tokens
variable {fails : Option UInt8} {overflows : Bytes → Bool} {s s' : Lex} {c : UInt8} {w rest : Bytes} {e : Option LoadError}

theorem NumberText.not_punct {t : Bytes} : ¬NumberText overflows t (.punct c) := nofun

theorem NumberText.not_string {t v : Bytes} : ¬NumberText overflows t (.string v) := nofun

theorem lexScan_punct (h : lexScan fails overflows s = (.punct c, s')) : ∃ w, Ws w ∧ s.bytes = w ++ c :: s'.bytes := by
  rcases lexScan_sound h nofun with ⟨h, -⟩ | ⟨w, t, hw, ht, hbytes⟩
  · cases h
  · cases ht with
    | punct => exact ⟨w, hw, by rw [hbytes, List.append_assoc]; rfl⟩
    | number ht => exact absurd ht NumberText.not_punct

theorem lexScan_string {v : Bytes} (h : lexScan fails overflows s = (.string v, s')) :
    ∃ w t, Ws w ∧ StringBody t v ∧ s.bytes = w ++ (quote :: t ++ [quote]) ++ s'.bytes := by
  rcases lexScan_sound h nofun with ⟨h, -⟩ | ⟨w, t, hw, ht, hbytes⟩
  · cases h
  · cases ht with
    | string ht => exact ⟨w, _, hw, ht, hbytes⟩
    | number ht => exact absurd ht NumberText.not_string

theorem lexScan_of_punct (hw : Ws w) (hc : isPunct c = true) :
    lexScan none overflows ⟨w ++ c :: rest, e⟩ = (.punct c, ⟨rest, e⟩) :=
  lexScan_complete hw (.punct hc) (Or.inl rfl)

theorem lexScan_of_string {t v : Bytes} (hw : Ws w) (ht : StringBody t v) :
    lexScan none overflows ⟨w ++ (quote :: t ++ [quote] ++ rest), e⟩ = (.string v, ⟨rest, e⟩) :=
  lexScan_complete hw (.string ht) (Or.inl rfl)

end Tokens

/-! ### How a parser ends -/

/-- It returns a value of which something holds, or NULL with an error that is set. -/
def Ends (P : Json → Lex → Prop) : Parses → Prop
  | .ok (v, s) => P v s
  | .error e => e ≠ none

section Ends
variable {P Q : Json → Lex → Prop}

theorem ends_giveUp (e : LoadError) (s : Lex) : Ends P (giveUp e s) := by
  show s.error.or (some e) ≠ none
  cases s.error <;> exact nofun

theorem Ends.bind {r : Parses} {f : Json × Lex → Parses} (h : Ends P r) (hf : ∀ v s, P v s → Ends Q (f (v, s))) :
    Ends Q (r >>= f) := by
  cases r with
  | error e => exact h
  | ok r => exact hf r.1 r.2 h

theorem Ends.imp {r : Parses} (h : Ends P r) (hPQ : ∀ v s, P v s → Q v s) : Ends Q r := by
  cases r with
  | error e => exact h
  | ok r => exact hPQ r.1 r.2 h

theorem Ends.and {r : Parses} (hP : Ends P r) (hQ : Ends Q r) : Ends (fun v s => P v s ∧ Q v s) r := by
  cases r with
  | error e => exact hP
  | ok r => exact ⟨hP, hQ⟩

end Ends

/-! ### Lists of values -/

section Lists
variable (fails : Option UInt8) (overflows : Bytes → Bool)

/-- Whatever is read as a value is the text of the value. -/
def Sound (value : Token → Lex → Parses) (V : Bytes → Json → Prop) : Prop :=
  ∀ s, Ends (fun v s' => ∃ w t, Ws w ∧ V t v ∧ s.bytes = w ++ t ++ s'.bytes)
    (value (lexScan fails overflows s).1 (lexScan fails overflows s).2)

variable {fails overflows} {value : Token → Lex → Parses} {V : Bytes → Json → Prop}

theorem parseElems_sound (hvalue : Sound fails overflows value V) {fuel : Nat} (elems : List Json) {s : Lex}
    (hfuel : s.bytes.length < fuel) :
    Ends (fun v s' => ∃ t vs, Elems V t vs ∧ v = .array (elems ++ vs) ∧ s.bytes = t ++ rightBracket :: s'.bytes)
      (parseElems fails overflows value fuel elems (lexScan fails overflows s).1 (lexScan fails overflows s).2) := by
  induction fuel generalizing s elems with
  | zero => exact absurd hfuel (Nat.not_lt_zero _)
  | succ fuel ih =>
    rw [parseElems]
    split
    · exact ends_giveUp _ _
    refine (hvalue s).bind fun elem s₁ ⟨w, t, hw, ht, hbytes⟩ => ?_
    obtain ⟨⟨token, s₂⟩, hscan⟩ : ∃ r, lexScan fails overflows s₁ = r := ⟨_, rfl⟩
    simp only [hscan]
    split
    · next hcomma =>
      subst hcomma
      obtain ⟨w', hw', hbytes'⟩ := lexScan_punct hscan
      have hless : s₂.bytes.length < fuel := by
        rw [hbytes, hbytes'] at hfuel
        simp only [List.length_append, List.length_cons] at hfuel
        omega
      refine (ih (elems ++ [elem]) hless).imp fun v s' ⟨rest, vs, hrest, hv, hbytes₂⟩ => ?_
      refine ⟨w ++ t ++ w' ++ comma :: rest, elem :: vs, .cons hw ht hw' hrest, ?_, ?_⟩
      · rw [hv, List.append_assoc]
        rfl
      · rw [hbytes, hbytes', hbytes₂]
        simp only [List.append_assoc, List.cons_append]
    split
    · next hclose =>
      subst hclose
      obtain ⟨w', hw', hbytes'⟩ := lexScan_punct hscan
      refine ⟨w ++ t ++ w', [elem], .one hw ht hw', rfl, ?_⟩
      rw [hbytes, hbytes', List.append_assoc _ w']
    · exact ends_giveUp _ _

theorem parseArray_sound (hvalue : Sound fails overflows value V) (s : Lex) :
    Ends (fun v s' => ∃ t, Nested overflows V (leftBracket :: t) v ∧ s.bytes = t ++ s'.bytes)
      (parseArray fails overflows value s) := by
  rw [parseArray]
  obtain ⟨⟨token, s₁⟩, hscan⟩ : ∃ r, lexScan fails overflows s = r := ⟨_, rfl⟩
  have helems := parseElems_sound hvalue [] (Nat.lt_succ_self s.bytes.length)
  rw [hscan] at helems ⊢
  dsimp only
  split
  · next hclose =>
    subst hclose
    obtain ⟨w, hw, hbytes⟩ := lexScan_punct hscan
    refine ⟨w ++ [rightBracket], .emptyArray hw, ?_⟩
    rw [hbytes, List.append_assoc]
    rfl
  · refine helems.imp fun v s' ⟨t, vs, ht, hv, hbytes⟩ => ⟨t ++ [rightBracket], ?_, ?_⟩
    · rw [hv]
      exact .array ht
    · rw [hbytes, List.append_assoc]
      rfl

/-- The members that are there, and one after the other what is set. -/
theorem parseMembers_sound (hvalue : Sound fails overflows value V) {fuel : Nat} (members : List (Bytes × Json)) {s : Lex}
    (hfuel : s.bytes.length < fuel) :
    Ends (fun v s' => ∃ t ms, Members V t ms ∧
        v = .object (ms.foldl (fun kept m => objectSet m.1 m.2 kept) members) ∧ s.bytes = t ++ rightBrace :: s'.bytes)
      (parseMembers fails overflows value fuel members (lexScan fails overflows s).1 (lexScan fails overflows s).2) := by
  induction fuel generalizing s members with
  | zero => exact absurd hfuel (Nat.not_lt_zero _)
  | succ fuel ih =>
    obtain ⟨⟨token, s₀⟩, hkey⟩ : ∃ r, lexScan fails overflows s = r := ⟨_, rfl⟩
    rw [hkey]
    cases token with
    | string key =>
      dsimp only
      rw [parseMembers]
      split
      · exact ends_giveUp _ _
      next hnul =>
      obtain ⟨w, k, hw, hk, hbytes⟩ := lexScan_string hkey
      obtain ⟨⟨token, s₁⟩, hcolon⟩ : ∃ r, lexScan fails overflows s₀ = r := ⟨_, rfl⟩
      simp only [hcolon]
      split
      · next htoken =>
        subst htoken
        obtain ⟨w₁, hw₁, hbytes₁⟩ := lexScan_punct hcolon
        refine (hvalue s₁).bind fun elem s₂ ⟨w₂, t, hw₂, ht, hbytes₂⟩ => ?_
        obtain ⟨⟨token, s₃⟩, hscan⟩ : ∃ r, lexScan fails overflows s₂ = r := ⟨_, rfl⟩
        simp only [hscan]
        have hmember {w₃ : Bytes} (hw₃ : Ws w₃) : Member V (w ++ (quote :: k ++ [quote]) ++ w₁ ++ colon :: (w₂ ++ t ++ w₃))
            (key, elem) := .mk hw hk hnul hw₁ hw₂ ht hw₃
        have hsplit {w₃ tail : Bytes} (h₃ : s₂.bytes = w₃ ++ tail) :
            s.bytes = w ++ (quote :: k ++ [quote]) ++ w₁ ++ colon :: (w₂ ++ t ++ w₃) ++ tail := by
          rw [hbytes, hbytes₁, hbytes₂, h₃]
          simp only [List.append_assoc, List.cons_append]
        split
        · next hcomma =>
          subst hcomma
          obtain ⟨w₃, hw₃, hbytes₃⟩ := lexScan_punct hscan
          have hless : s₃.bytes.length < fuel := by
            rw [hsplit hbytes₃] at hfuel
            simp only [List.length_append, List.length_cons] at hfuel
            omega
          refine (ih (objectSet key elem members) hless).imp fun v s' ⟨rest, ms, hrest, hv, hbytes₄⟩ => ?_
          refine ⟨_, (key, elem) :: ms, .cons (hmember hw₃) hrest, hv, ?_⟩
          rw [hsplit hbytes₃, hbytes₄, List.append_assoc _ (comma :: rest)]
          rfl
        split
        · next hclose =>
          subst hclose
          obtain ⟨w₃, hw₃, hbytes₃⟩ := lexScan_punct hscan
          exact ⟨_, [(key, elem)], .one (hmember hw₃), rfl, hsplit hbytes₃⟩
        · exact ends_giveUp _ _
      · exact ends_giveUp _ _
    | _ => exact ends_giveUp _ _

theorem parseObject_sound (hvalue : Sound fails overflows value V) (s : Lex) :
    Ends (fun v s' => ∃ t, Nested overflows V (leftBrace :: t) v ∧ s.bytes = t ++ s'.bytes)
      (parseObject fails overflows value s) := by
  rw [parseObject]
  obtain ⟨⟨token, s₁⟩, hscan⟩ : ∃ r, lexScan fails overflows s = r := ⟨_, rfl⟩
  have hmembers := parseMembers_sound hvalue [] (Nat.lt_succ_self s.bytes.length)
  rw [hscan] at hmembers ⊢
  dsimp only
  split
  · next hclose =>
    subst hclose
    obtain ⟨w, hw, hbytes⟩ := lexScan_punct hscan
    refine ⟨w ++ [rightBrace], .emptyObject hw, ?_⟩
    rw [hbytes, List.append_assoc]
    rfl
  · refine hmembers.imp fun v s' ⟨t, ms, ht, hv, hbytes⟩ => ⟨t ++ [rightBrace], ?_, ?_⟩
    · rw [hv]
      exact .object ht
    · rw [hbytes, List.append_assoc]
      rfl

theorem parseValue_sound (depth : Nat) :
    Sound fails overflows (parseValue fails overflows depth) (ValueText overflows depth) := by
  induction depth with
  | zero => exact fun s => ends_giveUp _ _
  | succ depth ih =>
    intro s
    obtain ⟨⟨token, s₁⟩, hscan⟩ : ∃ r, lexScan fails overflows s = r := ⟨_, rfl⟩
    rw [hscan]
    -- the token is the value, or the bracket in front of it
    have hscalar {v : Json} (hv : Scalar token v) :
        ∃ w t, Ws w ∧ ValueText overflows (depth + 1) t v ∧ s.bytes = w ++ t ++ s₁.bytes := by
      rcases lexScan_sound hscan (by rintro rfl; cases hv) with ⟨rfl, -⟩ | ⟨w, t, hw, ht, hbytes⟩
      · cases hv
      · exact ⟨w, t, hw, .scalar ht hv, hbytes⟩
    have hnested {c : UInt8} (hc : token = .punct c) {r : Parses}
        (hr : Ends (fun v s' => ∃ t, Nested overflows (ValueText overflows depth) (c :: t) v ∧ s₁.bytes = t ++ s'.bytes) r) :
        Ends (fun v s' => ∃ w t, Ws w ∧ ValueText overflows (depth + 1) t v ∧ s.bytes = w ++ t ++ s'.bytes) r := by
      subst hc
      obtain ⟨w, hw, hbytes⟩ := lexScan_punct hscan
      refine hr.imp fun v s' ⟨t, ht, hbytes'⟩ => ⟨w, c :: t, hw, ht, ?_⟩
      rw [hbytes, hbytes', List.append_assoc]
      rfl
    cases token with
    | string value =>
      dsimp only
      rw [parseValue]
      split
      · exact ends_giveUp _ _
      · next hnul => exact hscalar (.string hnul)
    | integer value => exact hscalar .integer
    | real text => exact hscalar .real
    | true => exact hscalar .true
    | false => exact hscalar .false
    | null => exact hscalar .null
    | punct c =>
      dsimp only
      rw [parseValue]
      split
      · next hc =>
        subst hc
        exact hnested rfl (parseObject_sound ih s₁)
      split
      · next hc =>
        subst hc
        exact hnested rfl (parseArray_sound ih s₁)
      · exact ends_giveUp _ _
    | invalid => exact ends_giveUp _ _
    | eof => exact ends_giveUp _ _

/-- What starts with a bracket is an array or an object. -/
theorem Nested.container {c : UInt8} {t : Bytes} {v : Json} (h : Nested overflows V (c :: t) v)
    (hc : c = leftBracket ∨ c = leftBrace) : v.isContainer = true := by
  have hpunct : isPunct c = true := by rcases hc with rfl | rfl <;> rfl
  cases h with
  | @scalar _ token _ ht hv =>
    obtain ⟨d, t', htext, -, hread⟩ : ∃ d t', c :: t = d :: t' ∧ isBlank d = false ∧
        lexToken none overflows d ⟨t' ++ [], none⟩ = (token, ⟨[], none⟩) := lexToken_complete ht (Or.inr nofun)
    obtain ⟨rfl, -⟩ := List.cons.inj htext
    rw [lexToken, if_pos hpunct] at hread
    obtain ⟨rfl, -⟩ := Prod.mk.inj hread
    cases hv
  | _ => rfl

theorem parseValue_container (depth : Nat) {c : UInt8} (hc : c = leftBracket ∨ c = leftBrace) (s : Lex) :
    Ends (fun v _ => v.isContainer = true) (parseValue fails overflows depth (.punct c) s) := by
  cases depth with
  | zero => exact ends_giveUp _ _
  | succ depth =>
    rw [parseValue]
    split
    · exact (parseObject_sound (parseValue_sound depth) s).imp fun v s' ⟨t, ht, _⟩ => ht.container (Or.inr rfl)
    · next hbrace =>
      rw [if_pos (hc.resolve_right hbrace)]
      exact (parseArray_sound (parseValue_sound depth) s).imp fun v s' ⟨t, ht, _⟩ => ht.container (Or.inl rfl)

/-- What is returned is the value of the text, and the text has been read to its end. -/
theorem parseJson_sound (s : Lex) :
    Ends (fun v _ => fails = none ∧ v.isContainer = true ∧
        ∃ w t w', Ws w ∧ ValueText overflows maxDepth t v ∧ Ws w' ∧ s.bytes = w ++ t ++ w')
      (parseJson fails overflows s) := by
  rw [parseJson]
  have hvalue : Sound fails overflows (parseValue fails overflows maxDepth) (ValueText overflows maxDepth) :=
    parseValue_sound maxDepth
  have hvalue := hvalue s
  obtain ⟨⟨token, s₁⟩, hscan⟩ : ∃ r, lexScan fails overflows s = r := ⟨_, rfl⟩
  simp only [hscan] at hvalue ⊢
  split
  · next htoken =>
    have hcontainer : Ends (fun v _ => v.isContainer = true) (parseValue fails overflows maxDepth token s₁) := by
      rcases htoken with rfl | rfl
      · exact parseValue_container maxDepth (Or.inl rfl) s₁
      · exact parseValue_container maxDepth (Or.inr rfl) s₁
    refine (hvalue.and hcontainer).bind fun v s₂ ⟨⟨w, t, hw, ht, hbytes⟩, hv⟩ => ?_
    obtain ⟨⟨token, s₃⟩, hend⟩ : ∃ r, lexScan fails overflows s₂ = r := ⟨_, rfl⟩
    simp only [hend]
    split
    · next heof =>
      subst heof
      rcases lexScan_sound hend nofun with ⟨-, hfails, hw', -⟩ | ⟨w', t', -, ht', -⟩
      · exact ⟨hfails, hv, w, t, s₂.bytes, hw, ht, hw', hbytes⟩
      · cases ht' with
        | number ht' => cases ht'
    · exact ends_giveUp _ _
  · exact ends_giveUp _ _

end Lists

/-! ### Every value is read -/

section Reads
variable (overflows : Bytes → Bool)

/-- The text of a value is read as the value, and what is read as one does not start with what ends a list. -/
structure Complete (value : Token → Lex → Parses) (V : Bytes → Json → Prop) : Prop where
  reads {w t rest : Bytes} {v : Json} (e : Option LoadError) : Ws w → V t v → Follow rest →
    value (lexScan none overflows ⟨w ++ (t ++ rest), e⟩).1 (lexScan none overflows ⟨w ++ (t ++ rest), e⟩).2 =
      .ok (v, ⟨rest, e⟩)
  starts {token : Token} {s : Lex} {r : Json × Lex} :
    value token s = .ok r → token ≠ .eof ∧ token ≠ .punct rightBracket

variable {overflows} {value : Token → Lex → Parses} {V : Bytes → Json → Prop}

theorem follow_blanks {w : Bytes} {c : UInt8} (hw : Ws w) (hc : follows c = true) (rest : Bytes) :
    Follow (w ++ c :: rest) := by
  intro d hd
  cases w with
  | nil => exact Option.some.inj hd ▸ hc
  | cons b w =>
    obtain rfl := Option.some.inj hd
    rw [follows, hw b List.mem_cons_self]
    rfl

theorem parseElems_complete (hvalue : Complete overflows value V) {t : Bytes} {vs : List Json} (ht : Elems V t vs)
    (elems : List Json) {fuel : Nat} (hfuel : t.length < fuel) (rest : Bytes) (e : Option LoadError) :
    let r := lexScan none overflows ⟨t ++ rightBracket :: rest, e⟩
    r.1 ≠ .punct rightBracket ∧
      parseElems none overflows value fuel elems r.1 r.2 = .ok (.array (elems ++ vs), ⟨rest, e⟩) := by
  obtain ⟨fuel, rfl⟩ : ∃ n, fuel = n + 1 := ⟨fuel - 1, by omega⟩
  induction ht generalizing elems fuel with
  | @one w t w' v hw ht hw' =>
    have helem := hvalue.reads e hw ht (follow_blanks hw' (c := rightBracket) rfl rest)
    simp only [List.append_assoc]
    refine ⟨(hvalue.starts helem).2, ?_⟩
    rw [parseElems, if_neg (hvalue.starts helem).1, helem]
    simp only [bind, Except.bind, lexScan_of_punct hw' (c := rightBracket) rfl]
    rfl
  | @cons w t w' v tail vs hw ht hw' _ ih =>
    have helem := hvalue.reads e hw ht (follow_blanks hw' (c := comma) rfl (tail ++ rightBracket :: rest))
    simp only [List.append_assoc, List.cons_append]
    refine ⟨(hvalue.starts helem).2, ?_⟩
    rw [parseElems, if_neg (hvalue.starts helem).1, helem]
    simp only [List.length_append, List.length_cons] at hfuel
    obtain ⟨fuel, rfl⟩ : ∃ n, fuel = n + 1 := ⟨fuel - 1, by omega⟩
    simp only [bind, Except.bind, lexScan_of_punct hw' (c := comma) rfl, if_true]
    rw [(ih (elems ++ [v]) fuel (by omega)).2, List.append_assoc]
    rfl

theorem parseArray_complete (hvalue : Complete overflows value V) {t : Bytes} {v : Json}
    (ht : (Ws t ∧ v = .array []) ∨ ∃ vs, Elems V t vs ∧ v = .array vs) (rest : Bytes) (e : Option LoadError) :
    parseArray none overflows value ⟨t ++ rightBracket :: rest, e⟩ = .ok (v, ⟨rest, e⟩) := by
  rw [parseArray]
  rcases ht with ⟨hw, rfl⟩ | ⟨vs, ht, rfl⟩
  · rw [lexScan_of_punct hw (c := rightBracket) rfl]
    rfl
  · have hfuel : t.length < (t ++ rightBracket :: rest).length + 1 := by
      rw [List.length_append]
      omega
    obtain ⟨hstart, hread⟩ := parseElems_complete hvalue ht [] hfuel rest e
    exact (if_neg hstart).trans hread

theorem parseMembers_complete (hvalue : Complete overflows value V) {t : Bytes} {ms : List (Bytes × Json)}
    (ht : Members V t ms) (members : List (Bytes × Json)) {fuel : Nat} (hfuel : t.length < fuel) (rest : Bytes)
    (e : Option LoadError) :
    let r := lexScan none overflows ⟨t ++ rightBrace :: rest, e⟩
    r.1 ≠ .punct rightBrace ∧ parseMembers none overflows value fuel members r.1 r.2 =
      .ok (.object (ms.foldl (fun kept m => objectSet m.1 m.2 kept) members), ⟨rest, e⟩) := by
  obtain ⟨fuel, rfl⟩ : ∃ n, fuel = n + 1 := ⟨fuel - 1, by omega⟩
  -- the round that reads a member, with the comma or brace behind it
  have hround {t : Bytes} {m : Bytes × Json} (hm : Member V t m) {c : UInt8} (hc : follows c = true)
      (hpunct : isPunct c = true) (members : List (Bytes × Json)) (fuel : Nat) (tail : Bytes) :
      let r := lexScan none overflows ⟨t ++ c :: tail, e⟩
      r.1 ≠ .punct rightBrace ∧ parseMembers none overflows value (fuel + 1) members r.1 r.2 =
        if c = comma then
          parseMembers none overflows value fuel (objectSet m.1 m.2 members) (lexScan none overflows ⟨tail, e⟩).1
            (lexScan none overflows ⟨tail, e⟩).2
        else if c = rightBrace then .ok (.object (objectSet m.1 m.2 members), ⟨tail, e⟩)
        else giveUp .braceExpected ⟨tail, e⟩ := by
    cases hm with
    | @mk w k key w₁ w₂ t v w₃ hw hk hnul hw₁ hw₂ ht hw₃ =>
      have helem := hvalue.reads e hw₂ ht (follow_blanks hw₃ hc tail)
      have hkey : lexScan none overflows
          ⟨w ++ (quote :: k ++ [quote] ++ (w₁ ++ colon :: (w₂ ++ (t ++ (w₃ ++ c :: tail))))), e⟩ =
          (.string key, ⟨w₁ ++ colon :: (w₂ ++ (t ++ (w₃ ++ c :: tail))), e⟩) := lexScan_of_string hw hk
      have htext : w ++ (quote :: k ++ [quote]) ++ w₁ ++ colon :: (w₂ ++ t ++ w₃) ++ c :: tail =
          w ++ (quote :: k ++ [quote] ++ (w₁ ++ colon :: (w₂ ++ (t ++ (w₃ ++ c :: tail))))) := by
        simp only [List.append_assoc, List.cons_append]
      rw [htext, hkey]
      refine ⟨nofun, ?_⟩
      dsimp only
      rw [parseMembers, if_neg hnul]
      simp only [lexScan_of_punct hw₁ (c := colon) rfl, if_true, helem, bind, Except.bind, lexScan_of_punct hw₃ hpunct,
        Token.punct.injEq]
  induction ht generalizing members fuel with
  | @one t m hm =>
    obtain ⟨hstart, hread⟩ := hround hm (c := rightBrace) rfl rfl members fuel rest
    exact ⟨hstart, hread⟩
  | @cons t m tail ms hm _ ih =>
    obtain ⟨hstart, hread⟩ := hround hm (c := comma) rfl rfl members fuel (tail ++ rightBrace :: rest)
    simp only [List.length_append, List.length_cons] at hfuel
    obtain ⟨fuel, rfl⟩ : ∃ n, fuel = n + 1 := ⟨fuel - 1, by omega⟩
    rw [List.append_assoc, List.cons_append]
    refine ⟨hstart, hread.trans ?_⟩
    rw [if_pos rfl]
    exact (ih (objectSet m.1 m.2 members) fuel (by omega)).2

theorem parseObject_complete (hvalue : Complete overflows value V) {t : Bytes} {v : Json}
    (ht : (Ws t ∧ v = .object []) ∨ ∃ ms, Members V t ms ∧ v = .object (kept ms)) (rest : Bytes) (e : Option LoadError) :
    parseObject none overflows value ⟨t ++ rightBrace :: rest, e⟩ = .ok (v, ⟨rest, e⟩) := by
  rw [parseObject]
  rcases ht with ⟨hw, rfl⟩ | ⟨ms, ht, rfl⟩
  · rw [lexScan_of_punct hw (c := rightBrace) rfl]
    rfl
  · have hfuel : t.length < (t ++ rightBrace :: rest).length + 1 := by
      rw [List.length_append]
      omega
    obtain ⟨hstart, hread⟩ := parseMembers_complete hvalue ht [] hfuel rest e
    exact (if_neg hstart).trans hread

theorem parseValue_starts {depth : Nat} {token : Token} {s : Lex} {r : Json × Lex}
    (h : parseValue none overflows depth token s = .ok r) : token ≠ .eof ∧ token ≠ .punct rightBracket := by
  cases depth with
  | zero => cases h
  | succ depth => constructor <;> rintro rfl <;> cases h

theorem parseValue_complete (depth : Nat) :
    Complete overflows (parseValue none overflows depth) (ValueText overflows depth) := by
  refine ⟨?_, parseValue_starts⟩
  induction depth with
  | zero => exact fun _ _ h => h.elim
  | succ depth ih =>
    have hvalue : Complete overflows (parseValue none overflows depth) (ValueText overflows depth) :=
      ⟨ih, parseValue_starts⟩
    intro w t rest v e hw ht hrest
    -- behind the bracket in front
    have hopen {c d : UInt8} {t : Bytes} (hc : isPunct c = true) :
        lexScan none overflows ⟨w ++ (c :: t ++ [d] ++ rest), e⟩ = (.punct c, ⟨t ++ d :: rest, e⟩) := by
      rw [List.append_assoc, List.singleton_append, List.cons_append]
      exact lexScan_of_punct hw hc
    cases ht with
    | @scalar _ token v ht hv =>
      rw [lexScan_complete hw ht (Or.inr hrest)]
      cases hv with
      | string hnul => exact if_neg hnul
      | _ => rfl
    | emptyArray hw' =>
      rw [hopen (c := leftBracket) rfl]
      exact parseArray_complete hvalue (Or.inl ⟨hw', rfl⟩) rest e
    | array ht =>
      rw [hopen (c := leftBracket) rfl]
      exact parseArray_complete hvalue (Or.inr ⟨_, ht, rfl⟩) rest e
    | emptyObject hw' =>
      rw [hopen (c := leftBrace) rfl]
      exact parseObject_complete hvalue (Or.inl ⟨hw', rfl⟩) rest e
    | object ht =>
      rw [hopen (c := leftBrace) rfl]
      exact parseObject_complete hvalue (Or.inr ⟨_, ht, rfl⟩) rest e

theorem Nested.bracket {t : Bytes} {v : Json} (h : Nested overflows V t v) (hv : v.isContainer = true) :
    ∃ c tail, t = c :: tail ∧ (c = leftBracket ∨ c = leftBrace) := by
  cases h with
  | scalar _ hs => cases hs <;> cases hv
  | emptyArray => exact ⟨_, _, rfl, Or.inl rfl⟩
  | array => exact ⟨_, _, rfl, Or.inl rfl⟩
  | emptyObject => exact ⟨_, _, rfl, Or.inr rfl⟩
  | object => exact ⟨_, _, rfl, Or.inr rfl⟩

theorem parseJson_complete {w t w' : Bytes} {v : Json} (hw : Ws w) (ht : ValueText overflows maxDepth t v)
    (hv : v.isContainer = true) (hw' : Ws w') (e : Option LoadError) :
    parseJson none overflows ⟨w ++ (t ++ w'), e⟩ = .ok (v, ⟨[], e⟩) := by
  have hfollow : Follow w' := by
    intro c hc
    rw [follows, hw' c (List.mem_of_mem_head? hc)]
    rfl
  have hread := (parseValue_complete maxDepth).reads e hw ht hfollow
  obtain ⟨c, tail, rfl, hc⟩ := Nested.bracket (show Nested overflows (ValueText overflows 2047) t v from ht) hv
  have hpunct : isPunct c = true := by rcases hc with rfl | rfl <;> rfl
  have htoken : Token.punct c = .punct leftBracket ∨ Token.punct c = .punct leftBrace :=
    hc.imp (congrArg Token.punct) (congrArg Token.punct)
  rw [List.cons_append, lexScan_of_punct hw hpunct] at hread
  rw [parseJson, List.cons_append, lexScan_of_punct hw hpunct]
  simp only [htoken, if_true, hread, bind, Except.bind, lexScan_eof hw']

end Reads

/-! ### The stream -/

theorem continuation_tails {value v : Nat} {us : Bytes} (h : continuation value us = some v) : ∀ u ∈ us, IsTail u := by
  induction us generalizing value with
  | nil => simp
  | cons u us ih =>
    obtain ⟨hu, hus⟩ := continuation_cons.mp h
    exact List.forall_mem_cons.mpr ⟨hu, ih hus⟩

/-- EOF in the place of a byte ends a sequence. -/
theorem checkFull_eof {u : UInt8} {us : Bytes} (h : 0xFF ∈ us) : utf8CheckFull (u :: us) (us.length + 1) = none := by
  rw [Option.eq_none_iff_forall_ne_some]
  intro value hfull
  rw [utf8CheckFull] at hfull
  obtain ⟨first, -, hfull⟩ := Option.bind_eq_some_iff.mp hfull
  obtain ⟨v, htails, -⟩ := Option.bind_eq_some_iff.mp hfull
  rw [List.take_succ_cons, List.take_length, List.tail_cons] at htails
  exact absurd (continuation_tails htails 0xFF h).2 (by decide)

/-- The stream gives out all of a file that is UTF-8, and it fails for every other file. -/
theorem streamOpen_eq (data : Bytes) :
    if utf8CheckString data then streamOpen data = (data, none) else (streamOpen data).2 ≠ none := by
  induction hlen : data.length using Nat.strongRecOn generalizing data with
  | ind n ih =>
  subst hlen
  cases data with
  | nil => rw [utf8CheckString, if_pos rfl, streamOpen]
  | cons c data =>
    have hcheck := @checkString_cons c data
    rw [streamOpen]
    by_cases hone : utf8CheckFirst c = 1
    · have hc : c < 0x80 := checkFirst_one.mp hone
      rw [if_pos hc]
      have hrest := ih data.length (by simp) data rfl
      have hsame : utf8CheckString (c :: data) = utf8CheckString data := by
        rw [Bool.eq_iff_iff, hcheck, hone]
        simp
      rw [hsame]
      split
      · next hdata =>
        rw [if_pos hdata] at hrest
        rw [hrest]
      · next hdata => rwa [if_neg hdata] at hrest
    have hc : ¬c < 0x80 := mt checkFirst_one.mpr hone
    rw [if_neg hc]
    by_cases hzero : utf8CheckFirst c = 0
    · have hno : utf8CheckString (c :: data) = false := by
        rw [Bool.eq_false_iff, ne_eq, hcheck, hzero]
        omega
      rw [hno, if_neg Bool.false_ne_true]
      simp [hzero]
    have hmany : 1 < utf8CheckFirst c := by omega
    dsimp only
    rw [if_neg hzero]
    by_cases hlen : utf8CheckFirst c ≤ data.length + 1
    · -- the file has all of the sequence
      have htake : (data.take (utf8CheckFirst c - 1)).length + 1 = utf8CheckFirst c := by
        rw [List.length_take]
        omega
      have hfull := checkFull_append c (data.take (utf8CheckFirst c - 1)) (data.drop (utf8CheckFirst c - 1))
      rw [htake, List.cons_append, List.take_append_drop] at hfull
      rw [Nat.sub_eq_zero_of_le (show utf8CheckFirst c - 1 ≤ data.length by omega), List.replicate_zero, List.append_nil,
        ← hfull]
      have hrest := ih _ (by rw [List.length_drop, List.length_cons]; omega) (data.drop (utf8CheckFirst c - 1)) rfl
      cases hvalue : utf8CheckFull (c :: data) (utf8CheckFirst c) with
      | none =>
        have hno : utf8CheckString (c :: data) = false := by
          rw [Bool.eq_false_iff, ne_eq, hcheck, hvalue]
          rintro (⟨h, -⟩ | ⟨-, -, ⟨_, h⟩, -⟩)
          · exact hone h
          · cases h
        rw [hno, if_neg Bool.false_ne_true]
        simp
      | some value =>
        have hsame : utf8CheckString (c :: data) = utf8CheckString (data.drop (utf8CheckFirst c - 1)) := by
          rw [Bool.eq_iff_iff, hcheck, hvalue]
          exact ⟨fun h => (h.resolve_left fun h => hone h.1).2.2.2, fun h => Or.inr ⟨hmany, hlen, ⟨value, rfl⟩, h⟩⟩
        rw [hsame, Option.isNone_some, if_neg Bool.false_ne_true]
        split
        · next hdata =>
          rw [if_pos hdata] at hrest
          rw [hrest, List.cons_append, List.take_append_drop]
        · next hdata => rwa [if_neg hdata] at hrest
    · -- the file ends within the sequence
      have hno : utf8CheckString (c :: data) = false := by
        rw [Bool.eq_false_iff, ne_eq, hcheck]
        exact fun h => h.elim (fun h => hone h.1) fun h => hlen h.2.1
      have hlength : (data.take (utf8CheckFirst c - 1) ++
          List.replicate (utf8CheckFirst c - 1 - data.length) 0xFF).length + 1 = utf8CheckFirst c := by
        rw [List.length_append, List.length_take, List.length_replicate]
        omega
      have hmem : 0xFF ∈ data.take (utf8CheckFirst c - 1) ++ List.replicate (utf8CheckFirst c - 1 - data.length) 0xFF :=
        List.mem_append_right _ (List.mem_replicate.mpr ⟨by omega, rfl⟩)
      have hfull := checkFull_eof (u := c) hmem
      rw [hlength] at hfull
      rw [hno, if_neg Bool.false_ne_true, hfull]
      simp

/-! ### Files -/

/-- What is returned is a value of which the file is the text. Otherwise an error is set. -/
theorem jsonLoadFile_sound (overflows : Bytes → Bool) (data : Bytes) :
    match jsonLoadFile overflows data with
    | .ok v => DocumentText overflows data v
    | .error e => e ≠ none := by
  have hopen := streamOpen_eq data
  obtain ⟨⟨bytes, fails⟩, hstream⟩ : ∃ r, streamOpen data = r := ⟨_, rfl⟩
  have hsound : Ends _ (parseJson fails overflows ⟨bytes, none⟩) := parseJson_sound _
  rw [hstream] at hopen
  rw [jsonLoadFile, hstream]
  dsimp only at hopen ⊢
  cases hr : parseJson fails overflows ⟨bytes, none⟩ with
  | error e =>
    rw [hr] at hsound
    exact hsound
  | ok r =>
    rw [hr] at hsound
    obtain ⟨rfl, hv, w, t, w', hw, ht, hw', hbytes⟩ := hsound
    split at hopen
    · next hdata =>
      cases hopen
      exact ⟨text_of_checkString hdata, hv, w, t, w', hw, ht, hw', hbytes⟩
    · exact absurd rfl hopen

theorem jsonLoadFile_complete {overflows : Bytes → Bool} {data : Bytes} {v : Json} (h : DocumentText overflows data v) :
    jsonLoadFile overflows data = .ok v := by
  obtain ⟨⟨cs, rfl⟩, hv, w, t, w', hw, ht, hw', htext⟩ := h
  have hopen := streamOpen_eq (utf8 cs)
  rw [if_pos (checkString_text cs)] at hopen
  rw [jsonLoadFile, hopen, htext, List.append_assoc]
  dsimp only
  rw [parseJson_complete hw ht hv hw']
  rfl

end PgRest.Jansson
