import PgRest.Inet.Addr
import PgRest.Jansson.Grammar

/-! `json_dumps`. A value is a tree here, so that none contains itself, and memory is taken not to run out; what has been
written of a value that cannot be dumped is dropped. A real is the text it has been read from, and `print` is what
`snprintf` writes with `%.*g` for a precision and a value, its decimal point already a dot. -/
namespace PgRest.Jansson

/-! ### Flags -/

/-- `JSON_COMPACT` -/
abbrev jsonCompact : Nat := 0x20
/-- `JSON_ENSURE_ASCII` -/
abbrev jsonEnsureAscii : Nat := 0x40
/-- `JSON_SORT_KEYS` -/
abbrev jsonSortKeys : Nat := 0x80
/-- `JSON_ENCODE_ANY` -/
abbrev jsonEncodeAny : Nat := 0x200
/-- `JSON_ESCAPE_SLASH` -/
abbrev jsonEscapeSlash : Nat := 0x400

/-- `flags & flag` -/
def flagged (flags flag : Nat) : Bool := flags &&& flag != 0

/-- `FLAGS_TO_INDENT` -/
def flagsToIndent (flags : Nat) : Nat := flags &&& 0x1F

/-- `FLAGS_TO_PRECISION` -/
def flagsToPrecision (flags : Nat) : Nat := (flags >>> 11) &&& 0x1F

/-- `dump_indent`, which writes no more than 32 spaces at a time. -/
def dumpIndent (flags depth : Nat) (space : Bool) : Bytes :=
  if 0 < flagsToIndent flags then 10 :: List.replicate (depth * flagsToIndent flags % 2 ^ 32) 32
  else if space && !flagged flags jsonCompact then [32]
  else []

/-! ### Strings -/

/-- A digit of `%X`. -/
def upperHex (n : Nat) : UInt8 := (if n < 10 then 48 + n else 55 + n).toUInt8

/-- `\\u%04X` -/
def unicodeEscape (n : Nat) : Bytes :=
  [backslash, letterU, upperHex (n / 4096), upperHex (n / 256 % 16), upperHex (n / 16 % 16), upperHex (n % 16)]

/-- The text that stands for a character which is not written as it is. -/
def escapeText : Nat → Bytes
  | 92 => [backslash, backslash]
  | 34 => [backslash, quote]
  | 8 => [backslash, 98]
  | 12 => [backslash, 102]
  | 10 => [backslash, 110]
  | 13 => [backslash, 114]
  | 9 => [backslash, 116]
  | 47 => [backslash, slash]
  | codepoint =>
    if codepoint < 0x10000 then unicodeEscape codepoint
    else
      let codepoint := codepoint - 0x10000
      unicodeEscape (0xD800 ||| ((codepoint &&& 0xFFC00) >>> 10)) ++ unicodeEscape (0xDC00 ||| (codepoint &&& 0x3FF))

/-- The characters at which the inner loop of `dump_string` stops. -/
def mustEscape (flags codepoint : Nat) : Bool :=
  codepoint == 92 || codepoint == 34 || codepoint < 0x20 || (flagged flags jsonEscapeSlash && codepoint == 47) ||
    (flagged flags jsonEnsureAscii && 0x7F < codepoint)

theorem iterate_shorter {str rest : Bytes} {codepoint : Nat} (h : utf8Iterate str = some (some codepoint, rest)) :
    rest.length < str.length := by
  obtain ⟨seq, hseq, rfl⟩ := sequence_of_iterate h
  have hpos : 0 < seq.length := by cases hseq <;> simp
  rw [List.length_append]
  omega

/-- The loops of `dump_string`, with the text that is still to be written as it is: what they write, and whether they
come to the end of the string. -/
def dumpText (flags : Nat) (pending str : Bytes) : Bytes × Bool :=
  match h : utf8Iterate str with
  | none => ([], false)
  | some (none, _) => (pending, true)
  | some (some codepoint, rest) =>
    have := iterate_shorter h
    if mustEscape flags codepoint then
      let (text, ok) := dumpText flags [] rest
      (pending ++ escapeText codepoint ++ text, ok)
    else dumpText flags (pending ++ str.take (str.length - rest.length)) rest
termination_by str.length

/-- `dump_string` -/
def dumpString (flags : Nat) (str : Bytes) : Bytes × Bool :=
  let (text, ok) := dumpText flags [] str
  (quote :: text ++ if ok then [quote] else [], ok)

/-! ### Numbers -/

/-- What `%lld` prints. -/
def printInteger (value : Int) : Bytes :=
  if value < 0 then minus :: Inet.decimal value.natAbs else Inet.decimal value.natAbs

/-- The end of `jsonp_dtostr`: without the sign of a positive exponent and the zeros in front of an exponent. -/
def trimExponent (buffer : Bytes) : Bytes :=
  match buffer.dropWhile (· ≠ 101) with
  | e :: sign :: digits =>
    buffer.takeWhile (· ≠ 101) ++ e :: ((if sign = minus then [minus] else []) ++ digits.dropWhile (· = zero))
  | _ => buffer

/-- `jsonp_dtostr` -/
def dtostr (print : Nat → Bytes → Bytes) (size : Nat) (value : Bytes) (precision : Nat) : Option Bytes :=
  let buffer := print (if precision = 0 then 17 else precision) value
  if size ≤ buffer.length then none
  else if dot ∉ buffer ∧ 101 ∉ buffer then
    -- a real without a dot and an exponent would be read as an integer
    if size ≤ buffer.length + 3 then none else some (trimExponent (buffer ++ [dot, zero]))
  else some (trimExponent buffer)

/-! ### Values -/

/-- The loops over what is in an array or an object: what stands between the items and behind the last one. -/
def joinItems (flags depth : Nat) : List Bytes → Bytes
  | [] => []
  | item :: items =>
    if items = [] then item ++ dumpIndent flags depth false
    else item ++ comma :: (dumpIndent flags (depth + 1) true ++ joinItems flags depth items)

/-- `compare_keys` says that the first does not come behind the second. -/
def keyLe : Bytes → Bytes → Bool
  | [], _ => true
  | _ :: _, [] => false
  | a :: s, b :: t => a < b || (a == b && keyLe s t)

/-- The members in the order they are written in. -/
def dumpOrder {α : Type} (flags : Nat) (members : List (Bytes × α)) : List (Bytes × α) :=
  if flagged flags jsonSortKeys then members.mergeSort fun m m' => keyLe m.1 m'.1 else members

/-- A member with its value dumped. What `dump_string` returns for the key is not looked at. -/
def dumpMember (flags : Nat) (m : Bytes × Bytes) : Bytes :=
  (dumpString flags (m.1.takeWhile (· ≠ 0))).1 ++ (if flagged flags jsonCompact then [colon] else [colon, 32]) ++ m.2

section Values
variable (print : Nat → Bytes → Bytes) (flags : Nat)

mutual

/-- `do_dump` -/
def doDump (depth : Nat) : Json → Option Bytes
  | .null => some (ascii "null")
  | .true => some (ascii "true")
  | .false => some (ascii "false")
  | .integer value => if 100 ≤ (printInteger value).length then none else some (printInteger value)
  | .real text => dtostr print 100 text (flagsToPrecision flags)
  | .string value => if (dumpString flags value).2 then some (dumpString flags value).1 else none
  | .array elems =>
    if elems.isEmpty then some [leftBracket, rightBracket]
    else (dumpElems (depth + 1) elems).map fun items =>
      leftBracket :: (dumpIndent flags (depth + 1) false ++ joinItems flags depth items) ++ [rightBracket]
  | .object members =>
    if members.isEmpty then some [leftBrace, rightBrace]
    else (dumpMembers (depth + 1) members).map fun items =>
      leftBrace :: (dumpIndent flags (depth + 1) false ++
        joinItems flags depth ((dumpOrder flags items).map (dumpMember flags))) ++ [rightBrace]

def dumpElems (depth : Nat) : List Json → Option (List Bytes)
  | [] => some []
  | elem :: elems => (doDump depth elem).bind fun text => (dumpElems depth elems).map (text :: ·)

def dumpMembers (depth : Nat) : List (Bytes × Json) → Option (List (Bytes × Bytes))
  | [] => some []
  | (key, value) :: members =>
    (doDump depth value).bind fun text => (dumpMembers depth members).map ((key, text) :: ·)

end

/-- `json_dumps`, which returns a copy of the buffer up to a NUL. -/
def jsonDumps (v : Json) : Option Bytes :=
  if !flagged flags jsonEncodeAny && !v.isContainer then none
  else (doDump print flags 0 v).map (·.takeWhile (· ≠ 0))

end Values

end PgRest.Jansson
