import PgRest.Inet.Quad
import PgRest.Jansson.Utf
import PgRest.Lib.Table

/-! `json_load_file` with no flags. The stream hands out bytes and decodes a whole sequence when it
comes to its first byte; here it has done so ahead, since nothing else that is read depends on it. A byte
is put back where the lexer has looked one too far, but a NUL that is put back is not read again. What
depends on the position in the text, and on no more than an error message, is left out; memory is taken
not to run out. -/
namespace PgRest.Jansson
open Lib

/-- The `json_t` that come about. A real is the text that `strtod` is given. -/
inductive Json
  | object (members : List (Bytes × Json))
  | array (elems : List Json)
  | string (value : Bytes)
  | integer (value : Int)
  | real (text : Bytes)
  | true
  | false
  | null

/-- The messages of `error_set`. -/
inductive LoadError
  /-- `unable to decode byte 0x%x` -/
  | decodeByte (c : UInt8)
  /-- `premature end of input` -/
  | premature
  /-- `unexpected newline` -/
  | unexpectedNewline
  /-- `control character 0x%x` -/
  | controlCharacter (c : UInt8)
  /-- `invalid escape` -/
  | invalidEscape
  /-- `invalid Unicode escape '%.6s'` -/
  | invalidUnicodeEscape
  /-- `invalid Unicode '\u%04X'` -/
  | invalidUnicode (value : Nat)
  /-- `invalid Unicode '\u%04X\u%04X'` -/
  | invalidPair (value value2 : Nat)
  /-- `too big integer` -/
  | bigInteger
  /-- `too big negative integer` -/
  | bigNegative
  /-- `real number overflow` -/
  | realOverflow
  /-- `string or '\x7d' expected` -/
  | keyExpected
  /-- `NUL byte in object key not supported` -/
  | nulInKey
  /-- `':' expected` -/
  | colonExpected
  /-- `'\x7d' expected` -/
  | braceExpected
  /-- `']' expected` -/
  | bracketExpected
  /-- `maximum parsing depth reached` -/
  | maxDepth
  /-- `\\u0000 is not allowed without JSON_ALLOW_NUL` -/
  | nulNotAllowed
  /-- `invalid token` -/
  | invalidToken
  /-- `unexpected token` -/
  | unexpectedToken
  /-- `'[' or '\x7b' expected` -/
  | rootExpected
  /-- `end of file expected` -/
  | eofExpected
deriving DecidableEq

/-- The tokens; `punct` is one of the characters that stand for themselves. -/
inductive Token
  | invalid
  | eof
  | string (value : Bytes)
  | integer (value : Int)
  | real (text : Bytes)
  | true
  | false
  | null
  | punct (c : UInt8)
deriving DecidableEq

abbrev quote : UInt8 := 34
abbrev backslash : UInt8 := 92
abbrev comma : UInt8 := 44
abbrev leftBracket : UInt8 := 91
abbrev rightBracket : UInt8 := 93
abbrev leftBrace : UInt8 := 123
abbrev rightBrace : UInt8 := 125
abbrev minus : UInt8 := 45
abbrev zero : UInt8 := 48
abbrev dot : UInt8 := 46
abbrev plus : UInt8 := 43
/-- `'u'` -/
abbrev letterU : UInt8 := 117

/-- `l_isdigit` -/
def isDigit (c : UInt8) : Bool := 48 ≤ c && c ≤ 57

/-- `l_isxdigit` -/
def isXDigit (c : UInt8) : Bool := isDigit c || (65 ≤ c && c ≤ 70) || (97 ≤ c && c ≤ 102)

/-- `l_isalpha` -/
def isAlpha (c : UInt8) : Bool := (65 ≤ c && c ≤ 90) || (97 ≤ c && c ≤ 122)

def isBlank (c : UInt8) : Bool := c == 32 || c == 9 || c == 10 || c == 13

def isPunct (c : UInt8) : Bool :=
  c == leftBrace || c == rightBrace || c == leftBracket || c == rightBracket || c == colon || c == comma

/-! ### The stream -/

/-- The bytes that `stream_get` gives out for a file, and the one at which it fails. -/
def streamOpen : Bytes → Bytes × Option UInt8
  | [] => ([], none)
  | c :: data =>
    if c < 0x80 then
      let (bytes, fails) := streamOpen data
      (c :: bytes, fails)
    else
      let count := utf8CheckFirst c
      -- behind the end of the file EOF is stored
      let sequence := c :: (data.take (count - 1) ++ List.replicate (count - 1 - data.length) 0xFF)
      if count = 0 then ([], some c)
      else if (utf8CheckFull sequence count).isNone then ([], some c)
      else
        let (bytes, fails) := streamOpen (data.drop (count - 1))
        (sequence ++ bytes, fails)
termination_by data => data.length

/-- What `stream_get` returns: a byte, STREAM_STATE_EOF or STREAM_STATE_ERROR. -/
inductive Got
  | byte (c : UInt8)
  | eof
  | error
deriving DecidableEq

def Got.satisfies (p : UInt8 → Bool) : Got → Bool
  | .byte c => p c
  | _ => false

/-- What `lex_save` makes of it. -/
def Got.saved : Got → Bytes
  | .byte c => [c]
  | _ => []

/-- `lex_t` and the error: what is still to come of the stream, and what has been set. -/
structure Lex where
  bytes : Bytes
  error : Option LoadError

/-- `error_set`: the first error stays. -/
def Lex.setError (e : LoadError) (s : Lex) : Lex := { s with error := s.error.or (some e) }

/-- The error at the end of what the stream gives out: where it fails, that error comes first. -/
def endError (fails : Option UInt8) (e : LoadError) : LoadError := (fails.map .decodeByte).getD e

section Lexer
variable (fails : Option UInt8) (overflows : Bytes → Bool)

/-- `stream_get` -/
def Lex.get (s : Lex) : Got × Lex :=
  match s.bytes with
  | c :: bytes => (.byte c, { s with bytes })
  | [] =>
    match fails with
    | none => (.eof, s)
    | some c => (.error, s.setError (.decodeByte c))

/-- `stream_unget` of what has just been got: where a NUL stands in the buffer, the buffer is empty. -/
def Lex.unget (g : Got) (s : Lex) : Lex :=
  match g with
  | .byte c => if c = 0 then s else { s with bytes := c :: s.bytes }
  | _ => s

/-- The lexer with what it has got last in `c`, and the saved text in front of that. -/
structure Ahead where
  saved : Bytes
  c : Got
  lex : Lex

def Ahead.of (saved : Bytes) (s : Lex) : Ahead :=
  let (c, s) := s.get fails
  ⟨saved, c, s⟩

/-- `c = lex_get_save(lex)` -/
def Ahead.next (a : Ahead) : Ahead := .of fails (a.saved ++ a.c.saved) a.lex

/-- `do c = lex_get_save(lex); while(p(c));` -/
def Ahead.nextWhile (p : UInt8 → Bool) (a : Ahead) : Ahead :=
  .of fails (a.saved ++ a.c.saved ++ a.lex.bytes.takeWhile p) { a.lex with bytes := a.lex.bytes.dropWhile p }

/-- `lex_unget_unsave(lex, c)` -/
def Ahead.unget (a : Ahead) : Lex := a.lex.unget a.c

/-! ### Strings -/

/-- What an escape of one letter stands for. -/
def escapes : List (UInt8 × UInt8) :=
  [(quote, quote), (backslash, backslash), (slash, slash), (98, 8), (102, 12), (110, 10), (114, 13), (116, 9)]

/-- Where the first loop of `lex_scan_string` stands. -/
inductive Within
  | text
  | escape
  /-- in front of a hexadecimal digit, behind which come as many more -/
  | digits (more : Nat)

/-- The first loop of `lex_scan_string`: the text up to the quote that closes the string, with it, and the bytes
behind it. -/
def scanText : Within → Bytes → Except LoadError (Bytes × Bytes)
  | .text, [] => .error (endError fails .premature)
  | _, [] => .error (endError fails .invalidEscape)
  | .text, c :: bytes =>
    if c = quote then .ok ([c], bytes)
    else if c ≤ 0x1F then .error (if c = 10 then .unexpectedNewline else .controlCharacter c)
    else (scanText (if c = backslash then .escape else .text) bytes).map fun (text, rest) => (c :: text, rest)
  | .escape, c :: bytes =>
    if c = letterU then (scanText (.digits 3) bytes).map fun (text, rest) => (c :: text, rest)
    else if c ∈ escapes.map Prod.fst then (scanText .text bytes).map fun (text, rest) => (c :: text, rest)
    else .error .invalidEscape
  | .digits more, c :: bytes =>
    if isXDigit c then
      (scanText (if more = 0 then .text else .digits (more - 1)) bytes).map fun (text, rest) => (c :: text, rest)
    else .error .invalidEscape

/-- The value of a hexadecimal digit in `decode_unicode_escape`. -/
def hexDigit (c : UInt8) : Option Nat :=
  if isDigit c then some (c.toNat - 48)
  else if 97 ≤ c && c ≤ 122 then some (c.toNat - 97 + 10)
  else if 65 ≤ c && c ≤ 90 then some (c.toNat - 65 + 10)
  else none

/-- `decode_unicode_escape` of the four bytes behind the `u`. -/
def decodeUnicodeEscape (str : Bytes) : Option Nat :=
  str.foldlM (fun value c => (hexDigit c).map fun d => value <<< 4 + d) 0

/-- The second loop of `lex_scan_string`: the value of the text up to the quote. -/
def decodeText : Bytes → Except LoadError Bytes
  | [] => .ok []
  | c :: text =>
    if c = quote then .ok []
    else if c = backslash then
      match text with
      | [] => .ok []
      | 117 :: h1 :: h2 :: h3 :: h4 :: text =>
        match decodeUnicodeEscape [h1, h2, h3, h4] with
        | none => .error .invalidUnicodeEscape
        | some value =>
          if 0xD800 ≤ value ∧ value ≤ 0xDBFF then
            match text with
            | 92 :: 117 :: k1 :: k2 :: k3 :: k4 :: text =>
              match decodeUnicodeEscape [k1, k2, k3, k4] with
              | none => .error .invalidUnicodeEscape
              | some value2 =>
                if 0xDC00 ≤ value2 ∧ value2 ≤ 0xDFFF then
                  let value := (value - 0xD800) <<< 10 + (value2 - 0xDC00) + 0x10000
                  (decodeText text).map ((utf8Encode value).getD [] ++ ·)
                else .error (.invalidPair value value2)
            | _ => .error (.invalidUnicode value)
          else if 0xDC00 ≤ value ∧ value ≤ 0xDFFF then .error (.invalidUnicode value)
          else (decodeText text).map ((utf8Encode value).getD [] ++ ·)
      | e :: text => (decodeText text).map ((escapes.lookup e).getD e :: ·)
    else (decodeText text).map (c :: ·)

/-- `lex_scan_string`, behind the quote. -/
def lexScanString (s : Lex) : Token × Lex :=
  match scanText fails .text s.bytes with
  | .error e => (.invalid, s.setError e)
  | .ok (text, rest) =>
    let s := { s with bytes := rest }
    match decodeText text with
    | .error e => (.invalid, s.setError e)
    | .ok value => (.string value, s)

/-! ### Numbers -/

/-- `json_strtoint` of what has been saved, and what is made of its errors. -/
def strtoint (saved : Bytes) : Except LoadError Int :=
  let value : Int := if saved.head? = some minus then -Inet.decimalFrom 0 saved.tail else Inet.decimalFrom 0 saved
  if value < -2 ^ 63 then .error .bigNegative
  else if 2 ^ 63 ≤ value then .error .bigInteger
  else .ok value

/-- One or more digits. Every piece of a number ends with the next byte got, or with what is put back when the
number is given up. -/
def scanDigits (a : Ahead) : Except Lex Ahead :=
  if a.c.satisfies isDigit then .ok (a.nextWhile fails isDigit) else .error a.unget

def scanWhole (a : Ahead) : Except Lex Ahead :=
  if a.c = .byte zero then
    let a := a.next fails
    if a.c.satisfies isDigit then .error a.unget else .ok a
  else scanDigits fails a

def scanFraction (a : Ahead) : Except Lex Ahead :=
  if a.c = .byte dot then scanDigits fails (a.next fails) else .ok a

def isExponent (c : UInt8) : Bool := c == 69 || c == 101

def isSign (c : UInt8) : Bool := c == plus || c == minus

def scanExponent (a : Ahead) : Except Lex Ahead :=
  if a.c.satisfies isExponent then
    let a := a.next fails
    scanDigits fails (if a.c.satisfies isSign then a.next fails else a)
  else .ok a

/-- `lex_scan_number`; where it gives up, what is left. `overflows` says of which texts `strtod` makes an infinity. -/
def scanNumber (a : Ahead) : Except Lex (Token × Lex) := do
  let a ← scanWhole fails (if a.c = .byte minus then a.next fails else a)
  if a.c ≠ .byte dot ∧ a.c.satisfies isExponent = false then
    match strtoint a.saved with
    | .error e => .error (a.unget.setError e)
    | .ok value => .ok (.integer value, a.unget)
  else
    let a ← scanFraction fails a
    let a ← scanExponent fails a
    if overflows a.saved then .error (a.unget.setError .realOverflow)
    else .ok (.real a.saved, a.unget)

def lexScanNumber (a : Ahead) : Token × Lex :=
  match scanNumber fails overflows a with
  | .error s => (.invalid, s)
  | .ok r => r

/-! ### Tokens -/

/-- What the letters in a row stand for. -/
def word (saved : Bytes) : Token :=
  if saved = ascii "true" then .true
  else if saved = ascii "false" then .false
  else if saved = ascii "null" then .null
  else .invalid

/-- `lex_scan` behind the blanks, of a byte that has been got. -/
def lexToken (c : UInt8) (s : Lex) : Token × Lex :=
  if isPunct c then (.punct c, s)
  else if c = quote then lexScanString fails s
  else if isDigit c || c == minus then lexScanNumber fails overflows ⟨[], .byte c, s⟩
  else if isAlpha c then
    let a := Ahead.nextWhile fails isAlpha ⟨[], .byte c, s⟩
    (word a.saved, a.unget)
  else (.invalid, s)

/-- `lex_scan` -/
def lexScan (s : Lex) : Token × Lex :=
  -- the blanks are got one by one, but none is saved
  let (c, s) := Lex.get fails { s with bytes := s.bytes.dropWhile isBlank }
  match c with
  | .eof => (.eof, s)
  | .error => (.invalid, s)
  | .byte c => lexToken fails overflows c s

/-! ### Values -/

/-- What a parser returns: an error for NULL, which may not be set. -/
abbrev Parses : Type := Except (Option LoadError) (Json × Lex)

def giveUp (e : LoadError) (s : Lex) : Parses := .error (s.setError e).error

/-- The loop of `parse_array`. Nothing is read when the fuel is spent. -/
def parseElems (value : Token → Lex → Parses) : Nat → List Json → Token → Lex → Parses
  | 0, _, _, _ => .error none
  | fuel + 1, elems, token, s =>
    if token = .eof then giveUp .bracketExpected s
    else do
      let (elem, s) ← value token s
      let elems := elems ++ [elem]
      let (token, s) := lexScan fails overflows s
      if token = .punct comma then
        let (token, s) := lexScan fails overflows s
        parseElems value fuel elems token s
      else if token = .punct rightBracket then .ok (.array elems, s)
      else giveUp .bracketExpected s

/-- `parse_array` -/
def parseArray (value : Token → Lex → Parses) (s : Lex) : Parses :=
  let (token, s') := lexScan fails overflows s
  if token = .punct rightBracket then .ok (.array [], s')
  else parseElems fails overflows value (s.bytes.length + 1) [] token s'

/-- `json_object_set_nocheck`: the value of a key that is there is replaced in its place. -/
def objectSet (key : Bytes) (value : Json) (members : List (Bytes × Json)) : List (Bytes × Json) :=
  place (fun m => m.1 == key) (key, value) members

/-- The loop of `parse_object`. -/
def parseMembers (value : Token → Lex → Parses) : Nat → List (Bytes × Json) → Token → Lex → Parses
  | 0, _, _, _ => .error none
  | fuel + 1, members, token, s =>
    match token with
    | .string key =>
      if 0 ∈ key then giveUp .nulInKey s
      else
        let (token, s) := lexScan fails overflows s
        if token = .punct colon then do
          let (token, s) := lexScan fails overflows s
          let (elem, s) ← value token s
          let members := objectSet key elem members
          let (token, s) := lexScan fails overflows s
          if token = .punct comma then
            let (token, s) := lexScan fails overflows s
            parseMembers value fuel members token s
          else if token = .punct rightBrace then .ok (.object members, s)
          else giveUp .braceExpected s
        else giveUp .colonExpected s
    | _ => giveUp .keyExpected s

/-- `parse_object` -/
def parseObject (value : Token → Lex → Parses) (s : Lex) : Parses :=
  let (token, s') := lexScan fails overflows s
  if token = .punct rightBrace then .ok (.object [], s')
  else parseMembers fails overflows value (s.bytes.length + 1) [] token s'

/-- `JSON_PARSER_MAX_DEPTH` -/
def maxDepth : Nat := 2048

/-- `parse_value`, with how many more levels `lex->depth` allows. -/
def parseValue : Nat → Token → Lex → Parses
  | 0, _, s => giveUp .maxDepth s
  | depth + 1, token, s =>
    match token with
    | .string value => if 0 ∈ value then giveUp .nulNotAllowed s else .ok (.string value, s)
    | .integer value => .ok (.integer value, s)
    | .real text => .ok (.real text, s)
    | .true => .ok (.true, s)
    | .false => .ok (.false, s)
    | .null => .ok (.null, s)
    | .punct c =>
      if c = leftBrace then parseObject fails overflows (parseValue depth) s
      else if c = leftBracket then parseArray fails overflows (parseValue depth) s
      else giveUp .unexpectedToken s
    | .invalid => giveUp .invalidToken s
    | .eof => giveUp .unexpectedToken s

/-- `parse_json` -/
def parseJson (s : Lex) : Parses := do
  let (token, s) := lexScan fails overflows s
  if token = .punct leftBracket ∨ token = .punct leftBrace then
    let (result, s) ← parseValue fails overflows maxDepth token s
    let (token, s) := lexScan fails overflows s
    if token = .eof then .ok (result, s) else giveUp .eofExpected s
  else giveUp .rootExpected s

end Lexer

/-- `json_load_file` of a file that can be read. -/
def jsonLoadFile (overflows : Bytes → Bool) (data : Bytes) : Except (Option LoadError) Json :=
  let (bytes, fails) := streamOpen data
  (parseJson fails overflows ⟨bytes, none⟩).map Prod.fst

end PgRest.Jansson
