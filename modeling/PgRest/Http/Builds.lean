import PgRest.Http.Phr

/-! The two builds of the parser for request heads. With `__SSE4_2__` it looks for the end of a token in
blocks of 16 bytes first, and without it runs over the bytes of a line eight at a time. Either way the
parser does what it does byte by byte, for every buffer. -/
namespace PgRest.Http
open Lib

/-- Whether `__SSE4_2__` is defined. -/
inductive Build
  | plain
  | sse42

/-- Whether a byte is in one of the ranges, each of which is two bytes. -/
def inRanges : Bytes → UInt8 → Bool
  | first :: last :: ranges, c => (first ≤ c && c ≤ last) || inRanges ranges c
  | _, _ => false

/-- `_mm_cmpestri`: the index of the first of 16 bytes that is in a range, or else 16. -/
def cmpestri (ranges buf : Bytes) : Nat := (buf.take 16).findIdx (inRanges ranges)

/-- The loop of `findchar_fast` while so many blocks are left: how many bytes are passed, and `*found`. -/
def findcharLoop (ranges : Bytes) : Nat → Bytes → Nat × Bool
  | 0, _ => (0, false)
  | left + 1, buf =>
    let r := cmpestri ranges buf
    if r ≠ 16 then (r, true)
    else
      let (n, found) := findcharLoop ranges left (buf.drop 16)
      (16 + n, found)

/-- `findchar_fast` -/
def Build.findcharFast (build : Build) (ranges buf : Bytes) : Nat × Bool :=
  match build with
  | .plain => (0, false)
  | .sse42 => findcharLoop ranges (buf.length / 16) buf

/-- `IS_PRINTABLE_ASCII` -/
def isPrintableAscii (c : UInt8) : Bool := c - 32 < 95

/-- The `ranges2` of `ADVANCE_TOKEN`. -/
def tokenRanges : Bytes := [0, 32, 127, 127]

/-- The `ranges1` of `get_token_to_eol`. -/
def eolRanges : Bytes := [0, 8, 10, 31, 127, 127]

/-- The `ranges1` of `parse_headers`. -/
def nameRanges : Bytes := [0, 32, 34, 34, 40, 41, 44, 44, 47, 47, 58, 64, 91, 93, 123, 255]

/-- The loop of `ADVANCE_TOKEN`. -/
def tokenLoop : Phr Bytes
  | s, [] => .again s
  | s, c :: l =>
    if c = sp then .ok s [] (c :: l)
    else if !isPrintableAscii c && (c < 32 || c == 127) then .error s
    else (tokenLoop s l).map (c :: ·)

/-- What `get_token_to_eol` stops at. -/
def isCtl (c : UInt8) : Bool := (c < 32 && c != ht) || c == 127

/-- The last loop of `get_token_to_eol`. -/
def eolLoop : Phr Bytes
  | s, [] => .again s
  | s, c :: l =>
    if !isPrintableAscii c && isCtl c then .ok s [] (c :: l)
    else (eolLoop s l).map (c :: ·)

/-- `DOIT`, so many times: the bytes that are passed before one that is not printable. -/
def doit : Nat → Bytes → Nat
  | k + 1, c :: l => if isPrintableAscii c then doit k l + 1 else 0
  | _, _ => 0

theorem doit_le (k : Nat) (l : Bytes) : doit k l ≤ k := by
  induction k, l using doit.induct <;> grind [doit]

/-- The loop of `get_token_to_eol` over eight bytes at a time. -/
def eightLoop (s : PhrRequest) (l : Bytes) : Parsed PhrRequest UInt8 Bytes :=
  if h : 8 ≤ l.length then
    let n := doit 8 l
    if hn : n = 8 then (eightLoop s (l.drop 8)).map (l.take 8 ++ ·)
    else
      have hlt : n < l.length := by have := doit_le 8 l; omega
      if isCtl l[n] then .ok s (l.take n) (l.drop n)
      else (eightLoop s (l.drop (n + 1))).map (l.take (n + 1) ++ ·)
  else eolLoop s l
termination_by l.length
decreasing_by all_goals simp only [List.length_drop]; omega

namespace Build
variable (build : Build)

/-- `ADVANCE_TOKEN` -/
def advanceToken : Phr Bytes := fun s l =>
  let (n, found) := build.findcharFast tokenRanges l
  if !found && (l.drop n).isEmpty then .again s
  else (tokenLoop s (l.drop n)).map (l.take n ++ ·)

/-- `get_token_to_eol` up to `FOUND_CTL`. -/
def scanToEol : Phr Bytes := fun s l =>
  match build with
  | .plain => eightLoop s l
  | .sse42 =>
    let (n, found) := sse42.findcharFast eolRanges l
    if found then .ok s (l.take n) (l.drop n)
    else (eolLoop s (l.drop n)).map (l.take n ++ ·)

/-- `get_token_to_eol` -/
def getTokenToEol : Phr Bytes := do
  let token ← build.scanToEol
  lineEndOr .fail
  pure token

/-- The name of a header, up to the colon. -/
def scanName : Phr Bytes := fun s l =>
  let (n, found) := build.findcharFast nameRanges l
  if !found && (l.drop n).isEmpty then .again s
  else (Parser.takeUntil (· == colon) (fun c => !tokenCharMap c) s (l.drop n)).map (l.take n ++ ·)

/-- The name, the colon and the blanks behind it. -/
def parseName : Phr Bytes := do
  let name ← build.scanName
  if name = [] then .fail
  else do
    let _ ← .next
    let _ ← .takeUntil (fun c => !(c == sp || c == ht)) fun _ => false
    pure name

/-- The name of a line, if it has one. -/
def parseLineName : Phr (Option Bytes) := do
  let c ← .peek
  let r ← .get
  if r.headers ≠ [] ∧ (c = sp ∨ c = ht) then pure none
  else do
    let name ← build.parseName
    pure (some name)

def parseHeader : Phr Unit := do
  let name ← build.parseLineName
  let value ← build.getTokenToEol
  .modify (.addHeader ⟨name, value⟩)

/-- `parse_headers` -/
def parseHeaders : Nat → Phr Unit
  | 0 => lineEndOr .fail
  | room + 1 => lineEndOr do
    build.parseHeader
    parseHeaders room

/-- The request line. -/
def parseRequestLine : Phr Unit := do
  let method ← build.advanceToken
  .modify (.setMethod method)
  let _ ← .next
  let path ← build.advanceToken
  .modify (.setPath path)
  let _ ← .next
  let minorVersion ← parseHttpVersion
  .modify (.setMinorVersion minorVersion)
  lineEndOr .fail

/-- `parse_request` -/
def parseRequest (maxHeaders : Nat) : Phr Unit := do
  lineEndOr (pure ())
  build.parseRequestLine
  build.parseHeaders maxHeaders

/-- `phr_parse_request` -/
def phrParseRequest (buf : Bytes) (numHeaders lastLen : Nat) : PhrRequest × PhrRet :=
  match (if lastLen = 0 then .ok () () buf else isComplete 0 (buf.drop (lastLen - 3)) : Completeness) with
  | .again _ => ({}, .again)
  | .error _ => ({}, .error)
  | .ok _ _ _ =>
    match build.parseRequest numHeaders {} buf with
    | .ok r _ rest => (r, .complete (buf.length - rest.length))
    | .again r => (r, .again)
    | .error r => (r, .error)

end Build

/-! ### What is passed -/

/-- What is passed is in the buffer and in no range, and what is found is in one. -/
structure Passed (ranges buf : Bytes) (n : Nat) (found : Bool) : Prop where
  inside : n ≤ buf.length
  clear : ∀ c ∈ buf.take n, inRanges ranges c = false
  found : found = true → ∃ c rest, buf.drop n = c :: rest ∧ inRanges ranges c = true

theorem findcharLoop_passed (ranges : Bytes) (left : Nat) (buf : Bytes) (h : left * 16 ≤ buf.length) :
    Passed ranges buf (findcharLoop ranges left buf).1 (findcharLoop ranges left buf).2 := by
  induction left generalizing buf with
  | zero => exact ⟨Nat.zero_le _, by simp [findcharLoop], by simp [findcharLoop]⟩
  | succ left ih =>
    have hblock : (buf.take 16).length = 16 := by rw [List.length_take]; omega
    rw [findcharLoop]
    dsimp only
    split
    · next hr =>
      have hlt : cmpestri ranges buf < 16 := by
        have : (buf.take 16).findIdx (inRanges ranges) ≤ (buf.take 16).length := List.findIdx_le_length
        rw [cmpestri] at hr ⊢
        omega
      have hin : cmpestri ranges buf < (buf.take 16).length := by omega
      refine ⟨by omega, fun c hc => ?_, fun _ => ?_⟩
      · obtain ⟨i, hi, rfl⟩ := List.mem_take_iff_getElem.mp hc
        have hi' : i < (buf.take 16).findIdx (inRanges ranges) := by
          show i < cmpestri ranges buf
          omega
        have hclear := List.not_of_lt_findIdx hi'
        rw [List.getElem_take] at hclear
        exact hclear
      · refine ⟨_, _, List.drop_eq_getElem_cons (by omega), ?_⟩
        rw [← List.getElem_take (h := hin)]
        exact List.findIdx_getElem (w := hin)
    · next hr =>
      have hall : cmpestri ranges buf = 16 := not_not.mp hr
      have hnext := ih (buf.drop 16) (by rw [List.length_drop]; omega)
      have hlen := hnext.inside
      rw [List.length_drop] at hlen
      refine ⟨by omega, fun c hc => ?_, fun hf => ?_⟩
      · rw [List.take_add] at hc
        rcases List.mem_append.mp hc with hc | hc
        · have hnone := List.findIdx_eq_length.mp (hall.trans hblock.symm)
          exact hnone c hc
        · exact hnext.clear c hc
      · obtain ⟨c, rest, hdrop, hin⟩ := hnext.found hf
        exact ⟨c, rest, by rw [← List.drop_drop]; exact hdrop, hin⟩

theorem Build.findcharFast_passed (build : Build) (ranges buf : Bytes) :
    Passed ranges buf (build.findcharFast ranges buf).1 (build.findcharFast ranges buf).2 := by
  cases build with
  | plain => exact ⟨Nat.zero_le _, by simp [findcharFast], by simp [findcharFast]⟩
  | sse42 => exact findcharLoop_passed ranges (buf.length / 16) buf (Nat.div_mul_le_self _ _)

theorem tokenLoop_eq (s : PhrRequest) (l : Bytes) :
    tokenLoop s l = Parser.takeUntil (· == sp) (fun c => c < 32 || c == 127) s l := by
  induction l with
  | nil => rfl
  | cons c l ih =>
    -- a byte that is printable is not one that is bad
    have hbad : (!isPrintableAscii c && (c < 32 || c == 127)) = (c < 32 || c == 127) := by
      have hprint : (c < 32 || c == 127) = true → isPrintableAscii c = false := by
        rw [isPrintableAscii]
        grind
      cases hc : (decide (c < 32) || c == 127) with
      | false => rw [Bool.and_false]
      | true => rw [hprint hc, Bool.not_false, Bool.true_and]
    rw [tokenLoop, Parser.takeUntil, hbad, ih]
    simp only [beq_iff_eq]

theorem isCtl_not_printable {c : UInt8} (h : isCtl c = true) : isPrintableAscii c = false := by
  rw [isCtl] at h
  rw [isPrintableAscii]
  grind

theorem eolLoop_eq (s : PhrRequest) (l : Bytes) : eolLoop s l = Parser.takeUntil isCtl (fun _ => false) s l := by
  induction l with
  | nil => rfl
  | cons c l ih =>
    have hctl : (!isPrintableAscii c && isCtl c) = isCtl c := by
      cases hc : isCtl c with
      | false => rw [Bool.and_false]
      | true => rw [isCtl_not_printable hc, Bool.not_false, Bool.true_and]
    rw [eolLoop, Parser.takeUntil, hctl, ih]
    rfl

/-- Before the first that is not printable there are none that it stops at. -/
theorem doit_clear (k : Nat) (l : Bytes) : ∀ c ∈ l.take (doit k l), isPrintableAscii c = true := by
  induction k, l using doit.induct with
  | case1 k c l hc ih =>
    rw [doit, if_pos hc, List.take_succ_cons]
    exact List.forall_mem_cons.mpr ⟨hc, ih⟩
  | case2 k c l hc => simp [doit, hc]
  | case3 => simp [doit]

theorem printable_not_ctl {c : UInt8} (h : isPrintableAscii c = true) : isCtl c = false :=
  Bool.eq_false_iff.mpr fun hc => Bool.false_ne_true ((isCtl_not_printable hc).symm.trans h)

/-- **Eight bytes at a time the line ends where it does byte by byte.** -/
theorem eightLoop_eq (s : PhrRequest) (l : Bytes) :
    eightLoop s l = Parser.takeUntil isCtl (fun _ => false) s l := by
  have hskip {n : Nat} {l : Bytes} (h : ∀ c ∈ l.take n, isCtl c = false) :=
    Parser.takeUntil_skip s fun c hc => ⟨h c hc, rfl⟩
  have hclear (l : Bytes) : ∀ c ∈ l.take (doit 8 l), isCtl c = false := fun c hc =>
    printable_not_ctl (doit_clear 8 l c hc)
  induction l using eightLoop.induct with
  | case1 l h n hn ih =>
    have hl := hclear l
    rw [show doit 8 l = 8 from hn] at hl
    rw [eightLoop, dif_pos h, dif_pos hn, ih, hskip hl]
  | case2 l h n hn hlt hctl =>
    have hdrop : l.drop n = l[n] :: l.drop (n + 1) := List.drop_eq_getElem_cons hlt
    rw [eightLoop, dif_pos h, dif_neg hn, if_pos hctl, hskip (hclear l), hdrop, Parser.takeUntil, if_pos hctl]
    simp [Parsed.map, n, ← hdrop]
  | case3 l h n hn hlt hctl ih =>
    have hpass : ∀ c ∈ l.take (n + 1), isCtl c = false := by
      rw [List.take_succ_eq_append_getElem hlt]
      intro c hc
      rcases List.mem_append.mp hc with hc | hc
      · exact hclear l c hc
      · rw [List.mem_singleton.mp hc]
        exact Bool.eq_false_iff.mpr hctl
    rw [eightLoop, dif_pos h, dif_neg hn, if_neg hctl, ih, hskip hpass]
  | case4 l h => rw [eightLoop, dif_neg h, eolLoop_eq]

/-- A search for a superset of where a loop stops, or rejects, leaves the rest to the loop. -/
theorem Build.skip (build : Build) {ranges : Bytes} {stop bad : UInt8 → Bool}
    (h : ∀ c, inRanges ranges c = false → stop c = false ∧ bad c = false) (s : PhrRequest) (l : Bytes) :
    Parser.takeUntil stop bad s l =
      (Parser.takeUntil stop bad s (l.drop (build.findcharFast ranges l).1)).map
        (l.take (build.findcharFast ranges l).1 ++ ·) :=
  Parser.takeUntil_skip s fun c hc => h c ((build.findcharFast_passed ranges l).clear c hc)

namespace Build
variable (build : Build)

/-- At the end of the buffer the loop says so too. -/
theorem empty_again {stop bad : UInt8 → Bool} {s : PhrRequest} {l : Bytes} {n : Nat} {found : Bool} :
    (if !found && (l.drop n).isEmpty then .again s
      else (Parser.takeUntil stop bad s (l.drop n)).map (l.take n ++ ·)) =
      (Parser.takeUntil stop bad s (l.drop n)).map (l.take n ++ ·) := by
  split
  · next h =>
    have hnil : l.drop n = [] := List.isEmpty_iff.mp (Bool.and_eq_true_iff.mp h).2
    rw [hnil]
    rfl
  · rfl

theorem advanceToken_eq : build.advanceToken = Http.advanceToken := by
  funext s l
  have hranges : ∀ c, inRanges tokenRanges c = false → (c == sp) = false ∧ (decide (c < 32) || c == 127) = false := by
    intro c hc
    simp only [tokenRanges, inRanges] at hc
    grind
  rw [Http.advanceToken, build.skip hranges s l, ← empty_again]
  exact if_congr Iff.rfl rfl (congrArg _ (tokenLoop_eq s _))

theorem scanName_eq : build.scanName = Parser.takeUntil (· == colon) fun c => !tokenCharMap c := by
  funext s l
  have hranges : ∀ c, inRanges nameRanges c = false → (c == colon) = false ∧ (!tokenCharMap c) = false := by
    intro c
    have hbyte : ∀ n < 256, inRanges nameRanges (UInt8.ofNat n) = false →
        (UInt8.ofNat n == colon) = false ∧ (!tokenCharMap (UInt8.ofNat n)) = false := by decide +kernel
    simpa only [UInt8.ofNat_toNat] using hbyte c.toNat c.toNat_lt
  rw [build.skip hranges s l, scanName]
  exact empty_again

theorem scanToEol_eq :
    build.scanToEol = Parser.takeUntil (fun c => (c < 32 && c != ht) || c == 127) fun _ => false := by
  funext s l
  have hranges (c : UInt8) : inRanges eolRanges c = isCtl c := by
    simp only [eolRanges, inRanges, isCtl]
    grind
  show _ = Parser.takeUntil isCtl (fun _ => false) s l
  cases build with
  | plain => exact eightLoop_eq s l
  | sse42 =>
    have hpassed := sse42.findcharFast_passed eolRanges l
    rw [sse42.skip (fun c hc => ⟨hranges c ▸ hc, rfl⟩) s l, scanToEol]
    cases hfound : (sse42.findcharFast eolRanges l).2 with
    | true =>
      obtain ⟨c, rest, hdrop, hin⟩ := hpassed.found hfound
      have hctl : isCtl c = true := hranges c ▸ hin
      simp only [hfound, if_true, hdrop, Parser.takeUntil, hctl, Parsed.map, List.append_nil]
    | false => simp only [hfound, Bool.false_eq_true, if_false, eolLoop_eq]

theorem getTokenToEol_eq : build.getTokenToEol = Http.getTokenToEol := by
  rw [getTokenToEol, scanToEol_eq]
  rfl

theorem parseName_eq : build.parseName = Http.parseName := by
  rw [parseName, scanName_eq]
  rfl

theorem parseHeader_eq : build.parseHeader = Http.parseHeader := by
  rw [parseHeader, parseLineName, getTokenToEol_eq, parseName_eq]
  rfl

theorem parseHeaders_eq (room : Nat) : build.parseHeaders room = Http.parseHeaders room := by
  induction room with
  | zero => rfl
  | succ room ih => rw [parseHeaders, Http.parseHeaders, parseHeader_eq, ih]

theorem parseRequest_eq (maxHeaders : Nat) : build.parseRequest maxHeaders = Http.parseRequest maxHeaders := by
  rw [parseRequest, parseRequestLine, advanceToken_eq, parseHeaders_eq]
  rfl

/-- **Every build parses every head alike**, whether it searches in blocks, eight bytes at a time or byte by byte: it
returns the same, with the same in the out parameters, wherever the blocks begin and end in the buffer. -/
theorem parses_alike (buf : Bytes) (numHeaders lastLen : Nat) :
    build.phrParseRequest buf numHeaders lastLen = Http.phrParseRequest buf numHeaders lastLen := by
  rw [phrParseRequest, parseRequest_eq]
  rfl

end Build

end PgRest.Http
