import PgRest.Http.Finalize

/-! The checks that depend on the version of the protocol: that a request names its host, and that
a client which waits for `100 Continue` is answered. `pgrest_http_header_handler` keeps the version as
0x100 or 0x101, the checks compare it with `PGREST_HTTP_VERSION_10` and `_11`. Here the two functions are with what
they log and send. -/
namespace PgRest.Http

/-! ### The functions -/

/-- `client sent HTTP/1.1 request without "Host" header` -/
def missingHost : Bytes := ascii "pg_rest client sent HTTP/1.1 request without \"Host\" header"

def invalidContentLength : Bytes := ascii "pg_rest client sent invalid \"Content-Length\" header"

def traceMethod : Bytes := ascii "pg_rest client sent TRACE method"

def unknownTransferEncoding (value : Bytes) : Bytes :=
  ascii "pg_rest client sent unknown\"Transfer-Encoding\": \"" ++ value ++ ascii "\""

/-- What `pgrest_http_process_header` does with a request. -/
inductive HeaderCheck where
  | passed (contentLengthN : Int) (chunked : Bool)
  /-- the request is finalized with this status, behind this message -/
  | rejected (status : Nat) (errmsg : Bytes)
  /-- the request has been closed -/
  | closed
deriving DecidableEq, Repr

/-- `pgrest_http_set_virtual_server` -/
def setVirtualServer : Bool := true

/-- `pgrest_http_process_header`; `added` says whether all headers could be stored. -/
def checkHeader (added : Bool) (head : TakenHead) (found : HeadersIn) : HeaderCheck :=
  if !added then .closed
  else if !setVirtualServer then .closed
  else if found.host = none ∧ version10 < head.httpVersion then .rejected badRequest missingHost
  else
    match found.contentLength.elim (some (-1)) atoof with
    | none => .rejected badRequest invalidContentLength
    | some contentLengthN =>
      if found.trace then .rejected notAllowed traceMethod
      else
        match found.transferEncoding with
        | none => .passed contentLengthN false
        | some value =>
          if sameCase value (ascii "chunked") then .passed (-1) true
          else if sameCase value (ascii "identity") then .passed contentLengthN false
          else .rejected notImplemented (unknownTransferEncoding value)

/-- The outcome without the message. -/
def HeaderCheck.processed : HeaderCheck → ProcessedHeader
  | .passed contentLengthN chunked => .ok contentLengthN chunked
  | .rejected status _ => .finalize status
  | .closed => .closed

theorem processHeader_checked (added : Bool) (head : TakenHead) (found : HeadersIn) :
    processHeader added head found = (checkHeader added head found).processed := by
  cases added with
  | false => rfl
  | true =>
    simp only [processHeader, checkHeader, setVirtualServer, Bool.not_true, Bool.false_eq_true, if_false]
    split
    · rfl
    cases found.contentLength.elim (some (-1)) atoof with
    | none => rfl
    | some contentLengthN =>
      dsimp only
      split
      · rfl
      cases found.transferEncoding with
      | none => rfl
      | some value =>
        dsimp only
        split
        · rfl
        split <;> rfl

/-- What `pgrest_http_test_expect` answers with. -/
def continueAnswer : Bytes := ascii "HTTP/1.1 100 Continue\r\n\r\n"

structure ExpectTest where
  /-- what is returned -/
  ok : Bool
  /-- `expect_tested` -/
  tested : Bool
  /-- what `pgrest_conn_send` is called with -/
  sent : Option Bytes
deriving DecidableEq, Repr

/-- `pgrest_http_test_expect`; `tested` is `expect_tested`, and `n` what `pgrest_conn_send` returns. -/
def expectTest (tested : Bool) (head : TakenHead) (found : HeadersIn) (n : Int) : ExpectTest :=
  if tested then ⟨true, tested, none⟩
  else
    match found.expect with
    | none => ⟨true, tested, none⟩
    | some value =>
      if head.httpVersion < version11 then ⟨true, tested, none⟩
      else if value.length ≠ 12 ∨ sameCase value (ascii "100-continue") = false then ⟨true, true, none⟩
      else ⟨n == (continueAnswer.length : Int), true, some continueAnswer⟩

theorem sameCase_length {s t : Bytes} (h : sameCase s t = true) : s.length = t.length := by
  have hmap := congrArg List.length (beq_iff_eq.mp h)
  rwa [List.length_map, List.length_map] at hmap

theorem testExpect_tested (head : TakenHead) (found : HeadersIn) (n : Int) :
    testExpect head found (n == (continueAnswer.length : Int)) = (expectTest false head found n).ok := by
  cases hexpect : found.expect with
  | none => simp [testExpect, expectTest, hexpect]
  | some value =>
    simp only [testExpect, expectTest, hexpect, Bool.false_eq_true, if_false]
    split
    · rfl
    cases hsame : sameCase value (ascii "100-continue") with
    | true =>
      have hlen : value.length = 12 := sameCase_length hsame
      simp [hlen]
    | false => simp

/-! ### What the headers are -/

/-- The list has a header of this name, in any case, with this value. -/
def HasHeader (headers : List PhrHeader) (name value : Bytes) : Prop :=
  ∃ h ∈ headers, h.name.any (sameCase · name) = true ∧ h.value = value

/-- A pointer of `headers_in` is to a header of this name, or NULL if there is none. -/
structure PointsTo (headers : List PhrHeader) (name : Bytes) (p : Option Bytes) : Prop where
  has : ∀ v ∈ p, HasHeader headers name v
  null : p = none → ∀ v, ¬HasHeader headers name v

/-- `host` and `expect` are set as the list says. -/
structure Points (headers : List PhrHeader) (found : HeadersIn) : Prop where
  host : PointsTo headers (ascii "host") found.host
  expect : PointsTo headers (ascii "expect") found.expect

/-- The rules of the protocol versions. -/
structure VersionRules (r : PhrRequest) (n : Nat) : Prop where
  missing : 1 ≤ r.minorVersion → (∀ v, ¬HasHeader r.headers (ascii "host") v) →
    ∀ found, Points r.headers found → ∃ errmsg, checkHeader true (takeHead r n) found = .rejected badRequest errmsg
  present : (r.minorVersion = 0 ∨ ∃ v, HasHeader r.headers (ascii "host") v) →
    ∀ found, Points r.headers found → checkHeader true (takeHead r n) found ≠ .rejected badRequest missingHost
  expect : ∀ found, Points r.headers found → ∀ sent,
    (expectTest false (takeHead r n) found sent).sent = some continueAnswer ↔
      1 ≤ r.minorVersion ∧ ∃ v ∈ found.expect, sameCase v (ascii "100-continue") = true

theorem pointsTo_some {headers : List PhrHeader} {name v : Bytes} (hv : HasHeader headers name v) :
    PointsTo headers name (some v) where
  has w hw := by
    cases hw
    exact hv
  null h := by cases h

theorem pointsTo_none {headers : List PhrHeader} {name : Bytes} (h : ∀ v, ¬HasHeader headers name v) :
    PointsTo headers name none where
  has v hv := by cases hv
  null _ := h

theorem exists_pointsTo (headers : List PhrHeader) (name : Bytes) : ∃ p, PointsTo headers name p := by
  by_cases h : ∃ v, HasHeader headers name v
  · obtain ⟨v, hv⟩ := h
    exact ⟨some v, pointsTo_some hv⟩
  · exact ⟨none, pointsTo_none fun v hv => h ⟨v, hv⟩⟩

/-- As it is encoded, no version reaches the ones it is compared with. -/
theorem httpVersion_low (r : PhrRequest) (n : Nat) : (takeHead r n).httpVersion < version10 := by
  show 0x100 ||| (if r.minorVersion ≠ 0 then 1 else 0) < version10
  split <;> decide

/-- No request is rejected for its host. -/
theorem checkHeader_host (r : PhrRequest) (n : Nat) (found : HeadersIn) :
    checkHeader true (takeHead r n) found ≠ .rejected badRequest missingHost := by
  have hlow := httpVersion_low r n
  have hmessage : invalidContentLength ≠ missingHost := by decide
  simp only [checkHeader, setVirtualServer, Bool.not_true, Bool.false_eq_true, if_false]
  rw [if_neg fun h => Nat.lt_asymm h.2 hlow]
  cases found.contentLength.elim (some (-1)) atoof with
  | none => simpa using hmessage
  | some contentLengthN =>
    dsimp only
    split
    · simp [notAllowed, badRequest]
    cases found.transferEncoding with
    | none => simp
    | some value =>
      dsimp only
      split
      · simp
      split
      · simp
      · simp [notImplemented, badRequest]

/-- No client is answered. -/
theorem expectTest_silent (r : PhrRequest) (n : Nat) (found : HeadersIn) (sent : Int) :
    (expectTest false (takeHead r n) found sent).sent = none := by
  have hlow : (takeHead r n).httpVersion < version11 := Nat.lt_trans (httpVersion_low r n) (by decide)
  cases hexpect : found.expect with
  | none => simp [expectTest, hexpect]
  | some value => simp [expectTest, hexpect, hlow]

/-- **The version rules are applied** exactly where they ask for nothing: in HTTP/1.0, and where there is a host
and no client waits. -/
theorem versionRules_iff (r : PhrRequest) (n : Nat) : VersionRules r n ↔
    (1 ≤ r.minorVersion → (∃ v, HasHeader r.headers (ascii "host") v) ∧
      ∀ v, HasHeader r.headers (ascii "expect") v → sameCase v (ascii "100-continue") = false) := by
  constructor
  · intro h hminor
    constructor
    · by_contra hhost
      rw [not_exists] at hhost
      obtain ⟨p, hp⟩ := exists_pointsTo r.headers (ascii "expect")
      have hpoints : Points r.headers { expect := p } := ⟨pointsTo_none hhost, hp⟩
      obtain ⟨errmsg, hrejected⟩ := h.missing hminor hhost _ hpoints
      have hlow := httpVersion_low r n
      simp only [checkHeader, setVirtualServer, Bool.not_true, Bool.false_eq_true, if_false] at hrejected
      rw [if_neg fun h => Nat.lt_asymm h.2 hlow] at hrejected
      cases hrejected
    · intro v hv
      by_contra hsame
      rw [Bool.not_eq_false] at hsame
      obtain ⟨p, hp⟩ := exists_pointsTo r.headers (ascii "host")
      have hpoints : Points r.headers { host := p, expect := some v } := ⟨hp, pointsTo_some hv⟩
      have hsent := (h.expect _ hpoints 0).mpr ⟨hminor, v, rfl, hsame⟩
      rw [expectTest_silent] at hsent
      cases hsent
  · intro h
    refine ⟨fun hminor hhost => ?_, fun _ found _ => checkHeader_host r n found, fun found hpoints sent => ?_⟩
    · obtain ⟨v, hv⟩ := (h hminor).1
      exact absurd hv (hhost v)
    · rw [expectTest_silent]
      refine iff_of_false (by simp) ?_
      rintro ⟨hminor, v, hv, hsame⟩
      rw [(h hminor).2 v (hpoints.expect.has v hv)] at hsame
      cases hsame

/-- A request of HTTP/1.1 without a host is not rejected. -/
theorem versionRules_missed : ¬∀ buf numHeaders lastLen r n,
    phrParseRequest buf numHeaders lastLen = (r, .complete n) → VersionRules r n := by
  intro h
  have hparse : phrParseRequest (ascii "GET / HTTP/1.1\r\n\r\n") maxHeaders 0 =
      ({ method := ascii "GET", path := ascii "/", minorVersion := 1, headers := [] }, .complete 18) := by decide +kernel
  have hnone : ∀ name v, ¬HasHeader [] name v := fun name v ⟨h, hmem, _⟩ => by cases hmem
  obtain ⟨errmsg, hrejected⟩ := (h _ _ _ _ _ hparse).missing (by decide) (hnone _) {}
    ⟨pointsTo_none (hnone _), pointsTo_none (hnone _)⟩
  cases hrejected

end PgRest.Http
