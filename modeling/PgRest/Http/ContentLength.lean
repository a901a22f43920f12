import PgRest.Http.Session

/-! Bodies with a Content-Length. Whatever way their bytes are cut, the parser sees how many
have been received, and the body is complete as soon as there are enough. One body is never
parsed: an empty one behind which nothing has been read ahead. -/
namespace PgRest.Http
open Lib Memory

/-- Reading a body of `N` bytes, `got` received so far. -/
structure LengthReading (h : Head) (N : Nat) (req : Request) (got : Bytes) : Prop where
  framing : req.chunked = false
  content : req.contentLengthN = N
  length : req.requestLength = h.requestLength
  rest : req.requestBody.rest = -1 ∨ req.requestBody.rest = N
  data : req.buf.data = (if req.split then [] else h.head) ++ got
  header : req.split = true → req.headerIn.data = h.head

/-- Not all of the body is there, or there is nothing to wait for. -/
def Waits (N : Nat) (got : Bytes) : Prop := got.length < N ∨ (N = 0 ∧ got = [])

def lengthSpec (conf : Conf) (h : Head) (N : Nat) : Spec where
  reading req got := LengthReading h N req got ∧ got.length ≤ conf.clientMaxBodySize ∧ Waits N got
  ok req got := N ≤ got.length ∧ got.length ≤ conf.clientMaxBodySize ∧
    BodyRead h (got.take N) (got.drop N) req
  finalized status got := status = requestEntityTooLarge ∧ conf.clientMaxBodySize < got.length
  undefined _ := False

/-- What the parser does is decided by how many bytes have been received. -/
theorem bodyLength_spec (conf : Conf) {h : Head} {N : Nat} {req : Request} {got : Bytes}
    (hr : LengthReading h N req got) (calls : Calls) :
    (lengthSpec conf h N).Parses calls got (bodyParser conf calls req) := by
  have hsize : req.buf.size - req.base = got.length := by
    rw [Buffer.size, hr.data, Request.base, hr.length]
    cases req.split <;> simp
  have hrest : lengthRest req = N := by
    rw [lengthRest]
    rcases hr.rest with hrest | hrest
    · rw [if_pos hrest, hr.content]
    · rw [if_neg (by omega), hrest]
  rw [bodyParser, hr.framing, if_neg Bool.false_ne_true, bodyLength]
  simp only [hsize, hrest]
  by_cases hmax : conf.clientMaxBodySize < got.length
  · rw [if_pos hmax]
    exact Or.inl ⟨rfl, hmax⟩
  rw [if_neg hmax]
  by_cases hlt : (got.length : Int) < N
  · rw [if_pos hlt]
    exact ⟨⟨hr.framing, hr.content, hr.length, Or.inr rfl, hr.data, hr.header⟩, Nat.le_of_not_lt hmax,
      Or.inl (by omega)⟩
  rw [if_neg hlt]
  have henough : N ≤ got.length := by omega
  have hlen : (got.take N).length = N := by rw [List.length_take, Nat.min_eq_left henough]
  refine ⟨henough, Nat.le_of_not_lt hmax, ?_, ?_, ?_, ?_, hr.header⟩
  · simp only [hr.length, hr.content, Int.toNat_natCast, hlen]
  · show req.base = if req.split then 0 else h.requestLength
    rw [Request.base, hr.length]
  · simp only [hr.content, Int.toNat_natCast, hlen]
  · rw [List.take_append_drop]
    exact hr.data

theorem LengthReading.setBuf {h : Head} {N : Nat} {req : Request} {got got' : Bytes} {buf : Buffer}
    (hr : LengthReading h N req got) (hdata : buf.data = (if req.split then [] else h.head) ++ got') :
    LengthReading h N (req.setBuf buf) got' where
  framing := hr.framing
  content := hr.content
  length := hr.length
  rest := hr.rest
  data := by rwa [Request.buf_setBuf, Request.split_setBuf]
  header hsplit := by
    rw [Request.split_setBuf] at hsplit
    rw [Request.headerIn_setBuf hsplit, hr.header hsplit]

theorem lengthSpec_sound (conf : Conf) (h : Head) (N : Nat) : (lengthSpec conf h N).Sound conf where
  extend := fun ⟨hr, hmax, hwait⟩ hext => ⟨hr.setBuf (hext.data.trans hr.data), hmax, hwait⟩
  parse := fun calls ⟨hr, _, _⟩ _ _ =>
    bodyLength_spec conf (hr.setBuf (by rw [Buffer.recv, hr.data, List.append_assoc])) calls

theorem bodyLength_again {conf : Conf} {req req' : Request} (h : bodyLength conf req = .again req') :
    ∃ rest, req' = { req with requestBody := { req.requestBody with rest } } := by
  simp only [bodyLength] at h
  split at h
  · cases h
  split at h
  · cases h
    exact ⟨_, rfl⟩
  · cases h

/-- The buffer the body is read to holds what has been read ahead. -/
theorem length_prepared {conf : Conf} {h : Head} {N : Nat} {req : Request}
    (hread : (lengthSpec conf h N).reading req h.preread) (hsplit : req.split = false) {calls : Calls}
    {clean : Prop} (hc : clean → calls.Succeed) (ready : Bool) :
    (lengthSpec conf h N).Holds clean
      ⟨prepareBuffer conf calls ready h.preread.length req, h.preread, false⟩ := by
  obtain ⟨hr, hmax, hwait⟩ := hread
  have hdata : req.headerIn.data = h.head ++ h.preread := by
    have hbuf := hr.data
    have hnone : req.requestBody.buffer = none := by simpa [Request.split] using hsplit
    rwa [hsplit, Request.buf, hnone] at hbuf
  rcases prepareBuffer_cases conf calls ready h.preread.length req with
    ⟨-, hst⟩ | ⟨buf, hpre, hbuf, -, hst⟩ | ⟨buf, -, hbuf, hst⟩ | hbroken
  · rw [hst]
    exact ⟨hr, hmax, hwait⟩
  · rw [hst]
    have hnil : h.preread = [] := List.length_eq_zero_iff.mp hpre
    refine ⟨⟨hr.framing, hr.content, hr.length, hr.rest, by rw [hnil]; exact hbuf, fun _ => ?_⟩, hmax, hwait⟩
    rw [hdata, hnil, List.append_nil]
  · rw [hst]
    refine ⟨⟨hr.framing, hr.content, hr.length, hr.rest, ?_, fun _ => ?_⟩, hmax, hwait⟩
    · show buf.data = h.preread
      rw [hbuf, hdata, hr.length, List.append_assoc, List.drop_left' h.length_head, List.take_left]
    · refine Buffer.data_setSize (b := h.preread ++ req.headerIn.after) ?_ (hr.length.trans h.length_head.symm)
      rw [hdata, List.append_assoc]
  · exact Spec.holds_broken hc hbroken

/-- `pgrest_http_process_entity` starts a session as it goes on. -/
theorem length_start {conf : Conf} {h : Head} {N : Nat} (hch : h.chunked = false)
    (hN : h.contentLengthN = N) {calls : Calls} (clean : Prop) (hc : clean → calls.Succeed) (ready : Bool) :
    (lengthSpec conf h N).Holds clean (start conf calls ready h) := by
  have hread : LengthReading h N h.request h.preread :=
    ⟨hch, hN, rfl, Or.inl rfl, h.head_preread, by simp [Head.request, Request.split]⟩
  rw [start, processEntity_head]
  cases halloc : calls.alloc with
  | false => exact Spec.holds_broken hc ⟨fun hs => by simp [hs.alloc] at halloc, Or.inl rfl⟩
  | true =>
  rw [if_pos rfl]
  by_cases hz : h.preread.length = 0
  · rw [if_pos hz]
    refine length_prepared ⟨hread, by omega, ?_⟩ rfl hc ready
    by_cases hN0 : N = 0
    · exact Or.inr ⟨hN0, List.length_eq_zero_iff.mp hz⟩
    · exact Or.inl (by omega)
  rw [if_neg hz]
  have hparse := bodyLength_spec conf hread calls
  cases hp : bodyParser conf calls h.request with
  | ok req' =>
    rw [hp] at hparse
    exact hparse
  | finalize status =>
    rw [hp] at hparse
    exact hparse.imp id fun hfail => ⟨hfail.1, fun h => absurd (hc h) hfail.2⟩
  | undefined =>
    rw [hp] at hparse
    exact Or.inl hparse
  | again req' =>
    rw [hp] at hparse
    rw [bodyParser, show h.request.chunked = false from hch] at hp
    obtain ⟨rest, rfl⟩ := bodyLength_again hp
    exact length_prepared hparse rfl hc ready

/-! ### When the body is complete -/

/-- With `N` bytes received the body is complete or the request is rejected for its size, and
it is not processed before. -/
def Completes (N : Nat) (s : Session) : Prop :=
  (N ≤ s.received.length → s.state = .finalized requestEntityTooLarge ∨
    ∃ req, s.state = .processed req ∧ req.entity = s.received.take N) ∧
  ∀ req, s.state = .processed req → N ≤ s.received.length

/-- With nothing read ahead the handler always waits for more. -/
theorem reading_start (conf : Conf) {h : Head} (hpre : h.preread = []) {calls : Calls} (hc : calls.Succeed)
    (ready : Bool) : ∃ req, (start conf calls ready h).state = .looping req ready true := by
  rw [start, processEntity_head, if_pos hc.alloc, if_pos (by rw [hpre]; rfl)]
  rcases prepareBuffer_cases conf calls ready h.preread.length h.request with
    ⟨-, hst⟩ | ⟨_, -, -, -, hst⟩ | ⟨_, -, -, hst⟩ | ⟨hfail, -⟩
  · exact ⟨_, hst⟩
  · exact ⟨_, hst⟩
  · exact ⟨_, hst⟩
  · exact absurd hc hfail

/-- A body of a given length is complete when its bytes are there, however they are
delivered, if and only if it is not empty or something has been read ahead. -/
theorem length_completes {conf : Conf} {h : Head} {N : Nat} (hch : h.chunked = false)
    (hN : h.contentLengthN = N) {calls : Calls} (hc : calls.Succeed) (ready : Bool) :
    (∀ s, Run (Session.step conf) Delivers (start conf calls ready h) s → Completes N s) ↔
      ¬(N = 0 ∧ h.preread = []) := by
  constructor
  · rintro hall ⟨rfl, hpre⟩
    obtain ⟨req, hst⟩ := reading_start conf hpre hc ready
    rcases (hall _ .start).1 (Nat.zero_le _) with hfin | ⟨req', hproc, -⟩
    · rw [hst] at hfin
      cases hfin
    · rw [hst] at hproc
      cases hproc
  intro hne s hrun
  have hpre : h.preread <+: s.received := preread_starts hrun
  have hholds := Spec.holds_delivered (lengthSpec_sound conf h N) (length_start hch hN True (fun _ => hc) ready) hrun
  have hwait : ∀ req, (lengthSpec conf h N).reading req s.received → s.received.length < N := by
    rintro req ⟨-, -, hlt | ⟨hN0, hnil⟩⟩
    · exact hlt
    · rw [hnil] at hpre
      exact absurd ⟨hN0, List.prefix_nil.mp hpre⟩ hne
  obtain ⟨state, received, zero⟩ := s
  dsimp only at hwait
  cases state with
  | looping req ready fresh =>
    have := hwait req hholds
    exact ⟨fun hle => absurd hle (by dsimp only; omega), fun _ h => by cases h⟩
  | waiting req =>
    have := hwait req hholds
    exact ⟨fun hle => absurd hle (by dsimp only; omega), fun _ h => by cases h⟩
  | processed req =>
    obtain ⟨henough, -, hread⟩ := hholds
    exact ⟨fun _ => Or.inr ⟨req, rfl, hread.entity_eq⟩, fun _ h => by cases h; exact henough⟩
  | finalized status =>
    rcases hholds with ⟨rfl, -⟩ | ⟨-, hzero⟩
    · exact ⟨fun _ => Or.inl rfl, fun _ h => by cases h⟩
    · obtain ⟨-, req, hread, -⟩ := hzero trivial
      have := hwait req hread
      exact ⟨fun hle => absurd hle (by dsimp only; omega), fun _ h => by cases h⟩
  | undefined => exact absurd trivial (hholds.resolve_left id)

def postBytes (n : Nat) : Bytes :=
  ascii ("POST / HTTP/1.0\r\nContent-Length: " ++ toString n ++ "\r\n\r\n")

/-- A request with a body of `n` bytes that are still to come. -/
def postHead (n : Nat) : Head where
  headerIn := { before := [], data := postBytes n, after := List.replicate (2048 - (postBytes n).length) 0 }
  requestLength := (postBytes n).length
  contentLengthN := n
  chunked := false
  length_pos := by simp [postBytes, ascii]
  length_le := Nat.le_refl _
  framed := by simp

/-- A body of three bytes. -/
theorem length_completes_three : (∀ s, Run (Session.step .default) Delivers
    (start .default {} true (postHead 3)) s → Completes 3 s) ↔ ¬(3 = 0 ∧ (postHead 3).preread = []) :=
  length_completes rfl rfl ⟨rfl, rfl, rfl, rfl⟩ true

/-- An empty body: the handler waits for a byte that need not come. -/
theorem empty_body_waits : ∃ s, Run (Session.step .default) Delivers
    (start .default {} true (postHead 0)) s ∧ ¬Completes 0 s := by
  refine ⟨_, .start, fun h => ?_⟩
  rcases h.1 (Nat.zero_le _) with hfin | ⟨req, hproc, -⟩
  · cases hfin
  · cases hproc

end PgRest.Http
