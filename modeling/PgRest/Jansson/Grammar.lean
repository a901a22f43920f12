import PgRest.Inet.Text6
import PgRest.Jansson.Load

/-! The texts of JSON documents, and what they stand for. The grammar is the common one but for two things: behind a
number and a word one NUL is passed over, and what is nested deeper than `JSON_PARSER_MAX_DEPTH` levels is no document. -/
namespace PgRest.Jansson
open Inet (Digit Hex decimalFrom hexFrom)

/-- Blanks. -/
def Ws (w : Bytes) : Prop := ∀ c ∈ w, isBlank c = true

/-! ### Numbers -/

def Digits (ds : Bytes) : Prop := ds ≠ [] ∧ ∀ c ∈ ds, Digit c

/-- Digits without a zero in front. -/
def Whole (ds : Bytes) : Prop := Digits ds ∧ (ds.head? = some zero → ds = [zero])

/-- The text of an integer. -/
inductive IntText : Bytes → Int → Prop
  | nat {ds} : Whole ds → IntText ds (decimalFrom 0 ds)
  | neg {ds} : Whole ds → IntText (minus :: ds) (-decimalFrom 0 ds)

def Fraction (f : Bytes) : Prop := ∃ ds, Digits ds ∧ f = dot :: ds

inductive Exponent : Bytes → Prop
  | plain {e ds} : isExponent e = true → Digits ds → Exponent (e :: ds)
  | signed {e sign ds} : isExponent e = true → isSign sign = true → Digits ds → Exponent (e :: sign :: ds)

/-- The text of a real: an integer, and behind it a fraction or an exponent. -/
inductive RealText : Bytes → Prop
  | fraction {i f v} : IntText i v → Fraction f → RealText (i ++ f)
  | exponent {i x v} : IntText i v → Exponent x → RealText (i ++ x)
  | both {i f x v} : IntText i v → Fraction f → Exponent x → RealText (i ++ f ++ x)

/-- The text of a number that can be represented. -/
inductive NumberText (overflows : Bytes → Bool) : Bytes → Token → Prop
  | integer {t v} : IntText t v → -2 ^ 63 ≤ v → v < 2 ^ 63 → NumberText overflows t (.integer v)
  | real {t} : RealText t → overflows t = false → NumberText overflows t (.real t)

/-! ### Strings -/

/-- Four hexadecimal digits. -/
structure Four (h : Bytes) (v : Nat) : Prop where
  length : h.length = 4
  hex : ∀ c ∈ h, Hex c
  value : hexFrom 0 h = v

/-- What may be between the quotes, and the string it stands for. -/
inductive StringBody : Bytes → Bytes → Prop
  | nil : StringBody [] []
  | byte {c t v} : 0x1F < c → c ≠ quote → c ≠ backslash → StringBody t v → StringBody (c :: t) (c :: v)
  | escape {e x t v} : (e, x) ∈ escapes → StringBody t v → StringBody (backslash :: e :: t) (x :: v)
  | unicode {h t v} {c : Char} : Four h c.val.toNat → StringBody t v →
      StringBody (backslash :: letterU :: h ++ t) (String.utf8EncodeChar c ++ v)
  | pair {h k t v high low} {c : Char} : Four h high → Four k low → 0xD800 ≤ high ∧ high ≤ 0xDBFF →
      0xDC00 ≤ low ∧ low ≤ 0xDFFF → c.val.toNat = (high - 0xD800) * 1024 + (low - 0xDC00) + 0x10000 → StringBody t v →
      StringBody (backslash :: letterU :: h ++ (backslash :: letterU :: k ++ t)) (String.utf8EncodeChar c ++ v)

/-! ### Tokens -/

/-- At most a NUL. -/
def Nul (z : Bytes) : Prop := z = [] ∨ z = [0]

/-- The text of a token. -/
inductive TokenText (overflows : Bytes → Bool) : Bytes → Token → Prop
  | punct {c} : isPunct c = true → TokenText overflows [c] (.punct c)
  | string {t v} : StringBody t v → TokenText overflows (quote :: t ++ [quote]) (.string v)
  | number {t token z} : NumberText overflows t token → Nul z → TokenText overflows (t ++ z) token
  | true {z} : Nul z → TokenText overflows (ascii "true" ++ z) .true
  | false {z} : Nul z → TokenText overflows (ascii "false" ++ z) .false
  | null {z} : Nul z → TokenText overflows (ascii "null" ++ z) .null

/-! ### Values -/

/-- The value of a token that is one. -/
inductive Scalar : Token → Json → Prop
  | string {v} : 0 ∉ v → Scalar (.string v) (.string v)
  | integer {v} : Scalar (.integer v) (.integer v)
  | real {t} : Scalar (.real t) (.real t)
  | true : Scalar .true .true
  | false : Scalar .false .false
  | null : Scalar .null .null

section Values
variable (overflows : Bytes → Bool) (V : Bytes → Json → Prop)

/-- Values with commas between them. -/
inductive Elems : Bytes → List Json → Prop
  | one {w t w' v} : Ws w → V t v → Ws w' → Elems (w ++ t ++ w') [v]
  | cons {w t w' v rest vs} : Ws w → V t v → Ws w' → Elems rest vs → Elems (w ++ t ++ w' ++ comma :: rest) (v :: vs)

/-- The text of a member: a string without a NUL, a colon, a value, and blanks around all of them. -/
inductive Member : Bytes → Bytes × Json → Prop
  | mk {w k key w₁ w₂ t v w₃} : Ws w → StringBody k key → 0 ∉ key → Ws w₁ → Ws w₂ → V t v → Ws w₃ →
      Member (w ++ (quote :: k ++ [quote]) ++ w₁ ++ colon :: (w₂ ++ t ++ w₃)) (key, v)

/-- Members with commas between them. -/
inductive Members : Bytes → List (Bytes × Json) → Prop
  | one {t m} : Member V t m → Members t [m]
  | cons {t m rest ms} : Member V t m → Members rest ms → Members (t ++ comma :: rest) (m :: ms)

/-- What is left of members some of which may have the same key. -/
def kept (ms : List (Bytes × Json)) : List (Bytes × Json) := ms.foldl (fun kept m => objectSet m.1 m.2 kept) []

/-- The text of a value, of values for what is nested in it. -/
inductive Nested : Bytes → Json → Prop
  | scalar {t token v} : TokenText overflows t token → Scalar token v → Nested t v
  | emptyArray {w} : Ws w → Nested (leftBracket :: w ++ [rightBracket]) (.array [])
  | array {t vs} : Elems V t vs → Nested (leftBracket :: t ++ [rightBracket]) (.array vs)
  | emptyObject {w} : Ws w → Nested (leftBrace :: w ++ [rightBrace]) (.object [])
  | object {t ms} : Members V t ms → Nested (leftBrace :: t ++ [rightBrace]) (.object (kept ms))

/-- The text of a value with no more than some levels. -/
def ValueText : Nat → Bytes → Json → Prop
  | 0 => fun _ _ => False
  | depth + 1 => Nested overflows (ValueText depth)

/-- An array or an object. -/
def Json.isContainer : Json → Bool
  | .array _ => Bool.true
  | .object _ => Bool.true
  | _ => Bool.false

/-- The text of a document: UTF-8, and in it an array or an object with blanks around it. -/
def DocumentText (data : Bytes) (v : Json) : Prop :=
  (∃ cs, data = utf8 cs) ∧ v.isContainer = true ∧
    ∃ w t w', Ws w ∧ ValueText overflows maxDepth t v ∧ Ws w' ∧ data = w ++ t ++ w'

end Values

end PgRest.Jansson
