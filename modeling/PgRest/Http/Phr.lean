import PgRest.Lib.Parse
import PgRest.Http.Chunked

/-! The parser for request heads, `phr_parse_request`. A pointer into the buffer and its
end are the bytes between them; running into the end is `again`. What is found is a state
of the parser: the out parameters, with as many headers as `*num_headers` counts. -/
namespace PgRest.Http
open Lib

/-- `PGREST_HTTP_MAX_HEADERS` -/
def maxHeaders : Nat := 20

/-- `struct phr_header`. A line that continues the one before has no name. -/
structure PhrHeader where
  name : Option Bytes
  value : Bytes
deriving DecidableEq, Repr

/-- The out parameters of `phr_parse_request`. -/
structure PhrRequest where
  method : Bytes := []
  path : Bytes := []
  minorVersion : Int32 := -1
  headers : List PhrHeader := []
deriving DecidableEq, Repr

namespace PhrRequest

def setMethod (method : Bytes) (r : PhrRequest) : PhrRequest := { r with method }
def setPath (path : Bytes) (r : PhrRequest) : PhrRequest := { r with path }
def setMinorVersion (minorVersion : Int32) (r : PhrRequest) : PhrRequest := { r with minorVersion }
def addHeader (header : PhrHeader) (r : PhrRequest) : PhrRequest :=
  { r with headers := r.headers ++ [header] }

end PhrRequest

abbrev Phr (β : Type) := Parser PhrRequest UInt8 β

/-- `' '` -/
abbrev sp : UInt8 := 32
/-- `'\t'` -/
abbrev ht : UInt8 := 9

/-- `token_char_map` -/
def tokenCharMap (c : UInt8) : Bool :=
  c == 33 || (35 ≤ c && c ≤ 39) || c == 42 || c == 43 || c == 45 || c == 46 || (48 ≤ c && c ≤ 57) ||
    (65 ≤ c && c ≤ 90) || (94 ≤ c && c ≤ 122) || c == 124 || c == 126

/-- `ADVANCE_TOKEN` -/
def advanceToken : Phr Bytes :=
  .takeUntil (· == sp) fun c => c < 32 || c == 127

/-- A line's end, or what is done instead where there is none: four of the functions look so. -/
def lineEndOr (other : Phr Unit) : Phr Unit := do
  let c ← .peek
  if c = cr then do
    let _ ← .next
    .expect lf
  else if c = lf then .expect lf
  else other

/-- `get_token_to_eol` -/
def getTokenToEol : Phr Bytes := do
  let token ← .takeUntil (fun c => (c < 32 && c != ht) || c == 127) fun _ => false
  lineEndOr .fail
  pure token

/-- What `is_complete` returns: a pointer, or no pointer and `*ret`. -/
abbrev Completeness := Parsed Unit UInt8 Unit

/-- The loop of `is_complete`. -/
def isComplete (retCnt : Nat) : Bytes → Completeness
  | [] => .again ()
  | c :: l =>
    if c = cr then
      match l with
      | [] => .again ()
      | d :: l =>
        if d = lf then if retCnt + 1 = 2 then .ok () () l else isComplete (retCnt + 1) l
        else .error ()
    else if c = lf then if retCnt + 1 = 2 then .ok () () l else isComplete (retCnt + 1) l
    else isComplete 0 l

theorem isComplete_byte {c : UInt8} (h : c ≠ cr) (h' : c ≠ lf) (n : Nat) (l : Bytes) :
    isComplete n (c :: l) = isComplete 0 l := by
  cases l <;> simp [isComplete, h, h']

theorem isComplete_lf (n : Nat) (l : Bytes) : isComplete n (lf :: l) =
    if n + 1 = 2 then .ok () () l else isComplete (n + 1) l := by
  cases l <;> simp [isComplete, show lf ≠ cr by decide]

theorem isComplete_crlf (n : Nat) (l : Bytes) : isComplete n (cr :: lf :: l) =
    if n + 1 = 2 then .ok () () l else isComplete (n + 1) l := by
  simp [isComplete]

def isDigit (c : UInt8) : Bool := 48 ≤ c && c ≤ 57

/-- `parse_int`. The sum wraps. -/
def parseInt : Phr Int32 := do
  let c ← .peek
  if isDigit c then do
    let digits ← .takeUntil (fun c => !isDigit c) fun _ => false
    pure (digits.foldl (fun v c => v * 10 + c.toNat.toInt32 - 48) 0)
  else .fail

/-- `parse_http_version` -/
def parseHttpVersion : Phr Int32 := do
  .expectAll (ascii "HTTP/1.")
  parseInt

/-- The name of a header, the colon and the blanks behind it. -/
def parseName : Phr Bytes := do
  let name ← .takeUntil (· == colon) fun c => !tokenCharMap c
  if name = [] then .fail
  else do
    let _ ← .next
    let _ ← .takeUntil (fun c => !(c == sp || c == ht)) fun _ => false
    pure name

/-- The name of a line, if it has one: the line continues the one before it if there is
one before and it starts with a blank. -/
def parseLineName : Phr (Option Bytes) := do
  let c ← .peek
  let r ← .get
  if r.headers ≠ [] ∧ (c = sp ∨ c = ht) then pure none
  else do
    let name ← parseName
    pure (some name)

def parseHeader : Phr Unit := do
  let name ← parseLineName
  let value ← getTokenToEol
  .modify (.addHeader ⟨name, value⟩)

/-- `parse_headers`, with the number of headers that there still is room for. -/
def parseHeaders : Nat → Phr Unit
  | 0 => lineEndOr .fail
  | room + 1 => lineEndOr do
    parseHeader
    parseHeaders room

/-- The request line. -/
def parseRequestLine : Phr Unit := do
  let method ← advanceToken
  .modify (.setMethod method)
  let _ ← .next
  let path ← advanceToken
  .modify (.setPath path)
  let _ ← .next
  let minorVersion ← parseHttpVersion
  .modify (.setMinorVersion minorVersion)
  lineEndOr .fail

/-- `parse_request` -/
def parseRequest (maxHeaders : Nat) : Phr Unit := do
  lineEndOr (pure ())
  parseRequestLine
  parseHeaders maxHeaders

/-- What `phr_parse_request` returns: PGREST_AGAIN, PGREST_ERROR or the length of the head. -/
inductive PhrRet where
  | again
  | error
  | complete (n : Nat)
deriving DecidableEq, Repr

/-- `phr_parse_request`, with what `*num_headers` is before. -/
def phrParseRequest (buf : Bytes) (numHeaders lastLen : Nat) : PhrRequest × PhrRet :=
  match (if lastLen = 0 then .ok () () buf else isComplete 0 (buf.drop (lastLen - 3)) : Completeness) with
  | .again _ => ({}, .again)
  | .error _ => ({}, .error)
  | .ok _ _ _ =>
    match parseRequest numHeaders {} buf with
    | .ok r _ rest => (r, .complete (buf.length - rest.length))
    | .again r => (r, .again)
    | .error r => (r, .error)

/-! ### More input -/

theorem stable_lineEndOr {k : Nat} (hk : k ≤ 1) {other : Phr Unit} (h : Parser.Stable k other) :
    Parser.Stable k (lineEndOr other) := by
  refine .bind .peek fun c => ?_
  have hlf : Parser.Stable k (.expect lf : Phr Unit) := (Parser.Stable.expect lf).weaken hk
  split
  · exact .bind (Parser.Stable.next.weaken (Nat.zero_le _)) fun _ => hlf
  split
  · exact hlf
  · exact h

theorem stable_getTokenToEol : Parser.Stable 0 getTokenToEol :=
  .bind (.takeUntil _ _) fun _ => .bind (stable_lineEndOr (Nat.zero_le _) (.fail 0)) fun _ => .pure _

theorem stable_parseInt : Parser.Stable 0 parseInt := by
  refine .bind .peek fun c => ?_
  split
  · exact .bind (.takeUntil _ _) fun _ => .pure _
  · exact .fail 0

theorem stable_parseHttpVersion : Parser.Stable 0 parseHttpVersion :=
  .bind (.expectAll _) fun _ => stable_parseInt

theorem stable_parseName : Parser.Stable 0 parseName := by
  refine .bind (.takeUntil _ _) fun name => ?_
  split
  · exact .fail 0
  · exact .bind (Parser.Stable.next.weaken (Nat.zero_le _)) fun _ => .bind (.takeUntil _ _) fun _ => .pure _

theorem stable_parseLineName : Parser.Stable 0 parseLineName := by
  refine .bind .peek fun c => .bind .get fun r => ?_
  split
  · exact .pure _
  · exact .bind stable_parseName fun _ => .pure _

theorem stable_parseHeader : Parser.Stable 0 parseHeader :=
  .bind stable_parseLineName fun _ => .bind stable_getTokenToEol fun _ => .modify _

theorem stable_parseHeaders (room : Nat) : Parser.Stable 1 (parseHeaders room) := by
  induction room with
  | zero => exact stable_lineEndOr (Nat.le_refl _) (.fail 1)
  | succ room ih => exact stable_lineEndOr (Nat.le_refl _) (.bind stable_parseHeader fun _ => ih)

theorem stable_parseRequestLine : Parser.Stable 0 parseRequestLine := by
  have hnext : Parser.Stable 0 (.next : Phr UInt8) := Parser.Stable.next.weaken (Nat.zero_le _)
  exact .bind (.takeUntil _ _) fun method => .bind (.modify _) fun _ => .bind hnext fun _ =>
    .bind (.takeUntil _ _) fun path => .bind (.modify _) fun _ => .bind hnext fun _ =>
    .bind stable_parseHttpVersion fun minorVersion => .bind (.modify _) fun _ =>
    stable_lineEndOr (Nat.zero_le 1) (.fail 0)

theorem stable_parseRequest (room : Nat) : Parser.Stable 1 (parseRequest room) :=
  .bind (stable_lineEndOr (Nat.zero_le 1) (.pure ())) fun _ => .bind stable_parseRequestLine fun _ =>
    stable_parseHeaders room

end PgRest.Http
