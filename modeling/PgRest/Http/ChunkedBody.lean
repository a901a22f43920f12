import PgRest.Http.Session
import PgRest.Http.Encoding

/-! Bodies in chunks. What becomes of one is a function of what was read ahead and of what
has been received (`verdict`), whatever way it is delivered: the decoder goes on where it
stopped, and the parser does with its output what the function says. -/
namespace PgRest.Http
open Lib Memory

/-! ### One call of the parser -/

/-- The request after the decoder has written `out` behind the first `pre` bytes. -/
def decoded (req : Request) (d : Decoder) (size : Nat) (buf : Buffer) : Request :=
  ({ req with requestBody := { req.requestBody with chunked := d, decodeLength := size } }).setBuf buf

theorem headerIn_decoded {req : Request} (h : req.split = true) (d : Decoder) (size : Nat) (buf : Buffer) :
    (decoded req d size buf).headerIn = req.headerIn := if_pos h

/-- A call of the parser that finds `enc` to decode behind `pre`. -/
theorem decodeBody_spec (conf : Conf) (req : Request) (pre enc : Bytes) (hdata : req.buf.data = pre ++ enc)
    (hlen : req.requestBody.decodeLength = pre.length) (hne : enc ≠ []) :
    match scan Decoder.move req.requestBody.chunked enc with
    | .fail _ _ => decodeBody conf req = .finalize badRequest
    | .more d out =>
      if chunkedTooLarge conf req (pre.length + out.length) then
        decodeBody conf req = .finalize requestEntityTooLarge
      else
        ∃ buf, buf.data = pre ++ out ∧ buf.data ++ buf.after = pre ++ out ++ enc.drop out.length ++ req.buf.after ∧
          decodeBody conf req = .again (decoded req d (pre.length + out.length) buf)
    | .done out rest =>
      if chunkedTooLarge conf req (pre.length + out.length) then
        decodeBody conf req = .finalize requestEntityTooLarge
      else
        ∃ req', decodeBody conf req = .ok req' ∧ req'.split = req.split ∧
          (req.split = true → req'.headerIn = req.headerIn) ∧ req'.buf.data = pre ++ out ++ rest ∧
          req'.requestLength = req.requestLength + (pre.length + out.length - req.base) ∧
          req'.requestBody.entityBase = req.base ∧
          req'.requestBody.entityLen = pre.length + out.length - req.base := by
  have hsize : req.buf.size = pre.length + enc.length := by rw [Buffer.size, hdata, List.length_append]
  have hpos : enc.length ≠ 0 := fun h0 => hne (List.length_eq_zero_iff.mp h0)
  have henc : req.buf.data.drop pre.length = enc := by rw [hdata, List.drop_left]
  have hpre : req.buf.data.take pre.length = pre := by rw [hdata, List.take_left]
  have hle : ¬req.buf.size < pre.length := by omega
  have hmore : ¬req.buf.size = pre.length := by omega
  unfold decodeBody
  simp only [hlen, henc, hpre, if_neg hle, if_neg hmore, decodeChunked]
  cases scan Decoder.move req.requestBody.chunked enc with
  | fail out rest => rfl
  | more d out =>
    dsimp only
    split
    · rfl
    · refine ⟨_, Buffer.data_setSize (b := enc.drop out.length ++ req.buf.after) ?_ ?_, ?_, rfl⟩
      · simp [Scanned.out, Scanned.rest]
      · simp
      · rw [Buffer.setSize_append]
        simp [Scanned.out, Scanned.rest]
  | done out rest =>
    dsimp only
    split
    · rfl
    · refine ⟨_, rfl, ?_, fun hsplit => Request.headerIn_setBuf hsplit _, ?_, rfl, rfl, rfl⟩
      · rw [Request.split_setBuf]
        rfl
      · rw [Request.buf_setBuf]
        refine Buffer.data_setSize (b := enc.drop (out.length + rest.length) ++ req.buf.after) ?_ ?_
        · simp [Scanned.out, Scanned.rest]
        · simp [Nat.add_assoc]

/-! ### What becomes of a body -/

inductive Verdict where
  | reading
  | ok (b t : Bytes)
  | tooLarge
  | malformed
  | undefined
deriving DecidableEq

/-- What the decoder has come to decides, and whether what it has written is too large. -/
def Verdict.ofScan (large : Bytes → Bool) : Scanned Decoder UInt8 UInt8 → Verdict
  | .fail _ _ => .malformed
  | .more _ out => if large out then .tooLarge else .reading
  | .done out rest => if large out then .tooLarge else .ok out rest

/-- What the pre-read part of a body leads to when it is not all of it. The decoder goes on
`request_length` bytes too far behind what it has written. What it writes there lies behind
bytes that count as body, so a body so long is too large. -/
def skewedVerdict (length : Nat) (preread : Bytes) (d : Decoder) (out got : Bytes) : Verdict :=
  if got = preread ∨ got.length = length + out.length then .reading
  else if got.length < length + out.length then .undefined
  else .ofScan (fun _ => true) (scan Decoder.move d (got.drop (length + out.length)))

/-- What becomes of a body in chunks behind a head of `length` bytes, of which `preread` was
read ahead, when `got` has been received. -/
def verdict (max length : Nat) (preread got : Bytes) : Verdict :=
  if preread = [] then .ofScan (fun out => out ≠ []) (scan Decoder.move .init got)
  else
    match scan Decoder.move .init preread with
    | .more d out =>
      if max ≤ out.length then .tooLarge else skewedVerdict length preread d out got
    | r => .ofScan (fun out => max ≤ out.length) r

/-- Reading a body in chunks. What has been read ahead is decoded where it was read, and what
has not is decoded from the start of a buffer of its own; the rest of a body that was cut by
the end of `header_in` is not decoded where it lies. -/
structure ChunkedReading (max : Nat) (h : Head) (req : Request) (got : Bytes) : Prop where
  framing : req.chunked = true
  split : req.split = true
  length : req.requestLength = h.requestLength
  header : req.headerIn.data = h.head
  decoded : (h.preread = [] ∧ req.buf.data = [] ∧ 0 < req.buf.freeSize ∧
      ((req.requestBody.rest = -1 ∧ got = []) ∨
        (req.requestBody.rest ≠ -1 ∧ req.requestBody.decodeLength = 0 ∧
          scan Decoder.move .init got = .more req.requestBody.chunked []))) ∨
    (h.preread ≠ [] ∧ h.preread <+: got ∧ req.requestBody.rest ≠ -1 ∧ ∃ out,
      scan Decoder.move .init h.preread = .more req.requestBody.chunked out ∧ out.length < max ∧
      out.length ≤ got.length ∧ req.requestBody.decodeLength = h.requestLength + out.length ∧
      req.buf.data = out ++ got.drop out.length)

def chunkedSpec (conf : Conf) (h : Head) : Spec where
  reading req got := ChunkedReading conf.clientMaxBodySize h req got ∧
    verdict conf.clientMaxBodySize h.requestLength h.preread got = .reading
  ok req got := ∃ b t, verdict conf.clientMaxBodySize h.requestLength h.preread got = .ok b t ∧
    BodyRead h b t req
  finalized status got :=
    (status = requestEntityTooLarge ∧
      verdict conf.clientMaxBodySize h.requestLength h.preread got = .tooLarge) ∨
    (status = badRequest ∧ verdict conf.clientMaxBodySize h.requestLength h.preread got = .malformed)
  undefined got := verdict conf.clientMaxBodySize h.requestLength h.preread got = .undefined

/-! ### The parser keeps to it -/

theorem tooLarge_split {conf : Conf} {req : Request} (hsplit : req.split = true) (size : Nat) :
    chunkedTooLarge conf req size = decide (size ≠ 0) := by
  rw [chunkedTooLarge, if_pos hsplit]

theorem base_split {req : Request} (hsplit : req.split = true) : req.base = 0 := if_pos hsplit

/-- Nothing has been read ahead: what is received is decoded from the start of the buffer. -/
theorem parse_inOrder {conf : Conf} {h : Head} {req : Request} {got bs : Bytes} (hpre : h.preread = [])
    (hframing : req.chunked = true) (hsplit : req.split = true) (hlength : req.requestLength = h.requestLength)
    (hheader : req.headerIn.data = h.head) (hrest : req.requestBody.rest ≠ -1)
    (hdecode : req.requestBody.decodeLength = 0)
    (hscan : scan Decoder.move .init got = .more req.requestBody.chunked []) (hdata : req.buf.data = bs)
    (hne : bs ≠ []) (calls : Calls) :
    (chunkedSpec conf h).Parses calls (got ++ bs) (decodeBody conf req) := by
  have hgot : scan Decoder.move .init (got ++ bs) = scan Decoder.move req.requestBody.chunked bs := by
    rw [scan_append, hscan]
    exact Scanned.after_nil _
  have hverdict : verdict conf.clientMaxBodySize h.requestLength h.preread (got ++ bs) =
      .ofScan (fun out => out ≠ []) (scan Decoder.move req.requestBody.chunked bs) := by
    rw [verdict, if_pos hpre, hgot]
  have hspec := decodeBody_spec conf req [] bs hdata hdecode hne
  cases hs : scan Decoder.move req.requestBody.chunked bs with
  | fail out rest =>
    rw [hs] at hspec hverdict
    rw [hspec]
    exact Or.inl (Or.inr ⟨rfl, hverdict⟩)
  | more d out =>
    simp only [hs, tooLarge_split hsplit, List.length_nil, Nat.zero_add, List.nil_append,
      decide_eq_true_eq] at hspec
    rw [hs, Verdict.ofScan] at hverdict
    by_cases hout : out = []
    · subst hout
      rw [if_neg (by simp)] at hspec
      obtain ⟨buf, hbuf, hmem, hdec⟩ := hspec
      rw [hdec]
      refine ⟨⟨hframing, ?_, hlength, ?_, Or.inl ⟨hpre, ?_, ?_, Or.inr ⟨hrest, rfl, ?_⟩⟩⟩, hverdict⟩
      · rw [decoded, Request.split_setBuf]
        exact hsplit
      · rw [headerIn_decoded hsplit, hheader]
      · rw [decoded, Request.buf_setBuf, hbuf]
      · have := List.length_pos_iff.mpr hne
        rw [decoded, Request.buf_setBuf, Buffer.freeSize_eq, ← List.nil_append buf.after, ← hbuf, hmem]
        simp
        omega
      · rw [hgot, hs]
        rfl
    · rw [if_pos (by simpa using hout)] at hspec
      rw [hspec]
      exact Or.inl (Or.inl ⟨rfl, by rw [hverdict, if_pos (by simpa using hout)]⟩)
  | done out rest =>
    simp only [hs, tooLarge_split hsplit, base_split hsplit, List.length_nil, Nat.zero_add, List.nil_append,
      decide_eq_true_eq] at hspec
    rw [hs, Verdict.ofScan] at hverdict
    by_cases hout : out = []
    · subst hout
      rw [if_neg (by simp)] at hspec
      obtain ⟨req', hok, hsplit', hheader', hbuf, hlen, hentity, hlen'⟩ := hspec
      rw [hok]
      refine ⟨[], rest, hverdict, hlen.trans (by rw [hlength]; rfl), ?_, hlen', ?_, fun _ => ?_⟩
      · rw [hentity, hsplit', hsplit]
        rfl
      · rw [hbuf, hsplit', hsplit]
        rfl
      · rw [hheader' hsplit, hheader]
    · rw [if_pos (by simpa using hout)] at hspec
      rw [hspec]
      exact Or.inl (Or.inl ⟨rfl, by rw [hverdict, if_pos (by simpa using hout)]⟩)

/-- Part of the body has been read ahead: what is received is decoded too far behind, if at all. -/
theorem parse_skewed {conf : Conf} {h : Head} {req : Request} {got out : Bytes} (hpre : h.preread ≠ [])
    (hframing : req.chunked = true) (hsplit : req.split = true) (hlength : req.requestLength = h.requestLength)
    (hheader : req.headerIn.data = h.head) (hrest : req.requestBody.rest ≠ -1)
    (hscan : scan Decoder.move .init h.preread = .more req.requestBody.chunked out)
    (hout : out.length < conf.clientMaxBodySize) (hle : out.length ≤ got.length)
    (hdecode : req.requestBody.decodeLength = h.requestLength + out.length)
    (hdata : req.buf.data = out ++ got.drop out.length) (hleads : h.preread <+: got)
    (hnew : got ≠ h.preread) (calls : Calls) :
    (chunkedSpec conf h).Parses calls got (decodeBody conf req) := by
  have hverdict : verdict conf.clientMaxBodySize h.requestLength h.preread got =
      skewedVerdict h.requestLength h.preread req.requestBody.chunked out got := by
    rw [verdict, if_neg hpre, hscan]
    exact if_neg (by omega)
  have hsize : req.buf.size = got.length := by
    rw [Buffer.size, hdata, List.length_append, List.length_drop]
    omega
  rcases Nat.lt_trichotomy got.length (h.requestLength + out.length) with hlt | heq | hgt
  · have hparse : decodeBody conf req = .undefined := by
      unfold decodeBody
      dsimp only
      rw [hdecode, hsize, if_pos hlt]
    rw [hparse]
    show verdict _ _ _ _ = _
    rw [hverdict, skewedVerdict, if_neg (not_or.mpr ⟨hnew, Nat.ne_of_lt hlt⟩), if_pos hlt]
  · have hparse : decodeBody conf req = .again req := by
      unfold decodeBody
      dsimp only
      rw [hdecode, hsize, if_neg (by omega), if_pos heq]
    rw [hparse]
    refine ⟨⟨hframing, hsplit, hlength, hheader,
      Or.inr ⟨hpre, hleads, hrest, out, hscan, hout, hle, hdecode, hdata⟩⟩, ?_⟩
    rw [hverdict, skewedVerdict, if_pos (Or.inr heq)]
  · have hdrop : req.buf.data.drop (h.requestLength + out.length) = got.drop (h.requestLength + out.length) := by
      rw [hdata, List.drop_append, List.drop_eq_nil_of_le (Nat.le_add_left _ _), List.nil_append,
        List.drop_drop, Nat.add_sub_cancel, Nat.add_comm out.length]
    have hcut : req.buf.data = req.buf.data.take (h.requestLength + out.length) ++
        got.drop (h.requestLength + out.length) := by
      rw [← hdrop, List.take_append_drop]
    have htake : (req.buf.data.take (h.requestLength + out.length)).length = h.requestLength + out.length := by
      rw [List.length_take, ← Buffer.size, hsize]
      omega
    have hspec := decodeBody_spec conf req _ _ hcut (hdecode.trans htake.symm)
      (List.length_pos_iff.mp (by rw [List.length_drop]; omega))
    have hne : h.requestLength + out.length ≠ 0 := by have := h.length_pos; omega
    rw [skewedVerdict, if_neg (not_or.mpr ⟨hnew, by omega⟩), if_neg (by omega)] at hverdict
    simp only [tooLarge_split hsplit, htake] at hspec
    cases hs : scan Decoder.move req.requestBody.chunked (got.drop (h.requestLength + out.length)) with
    | fail o rest =>
      rw [hs] at hspec hverdict
      rw [hspec]
      exact Or.inl (Or.inr ⟨rfl, hverdict⟩)
    | more d o =>
      rw [hs] at hspec hverdict
      dsimp only at hspec
      rw [if_pos (decide_eq_true (by omega))] at hspec
      rw [hspec]
      exact Or.inl (Or.inl ⟨rfl, hverdict⟩)
    | done o rest =>
      rw [hs] at hspec hverdict
      dsimp only at hspec
      rw [if_pos (decide_eq_true (by omega))] at hspec
      rw [hspec]
      exact Or.inl (Or.inl ⟨rfl, hverdict⟩)

theorem ChunkedReading.setBuf {max : Nat} {h : Head} {req : Request} {got : Bytes} {buf : Buffer}
    (hr : ChunkedReading max h req got) (hext : Extends req.buf buf) :
    ChunkedReading max h (req.setBuf buf) got := by
  refine ⟨hr.framing, by rw [Request.split_setBuf, hr.split], hr.length, ?_, ?_⟩
  · rw [Request.headerIn_setBuf hr.split, hr.header]
  rw [Request.buf_setBuf, hext.data]
  exact hr.decoded.imp (fun ⟨hpre, hdata, hfree, hdec⟩ => ⟨hpre, hdata, hext.free hfree, hdec⟩) id

theorem chunkedSpec_sound (conf : Conf) (h : Head) : (chunkedSpec conf h).Sound conf where
  extend := fun ⟨hr, hverdict⟩ hext => ⟨hr.setBuf hext, hverdict⟩
  parse {req received bs} calls hread hne _ := by
    obtain ⟨⟨hframing, hsplit, hlength, hheader, hdec⟩, -⟩ := hread
    rw [bodyParser, Request.chunked_setBuf, if_pos hframing, bodyChunked, Request.rest_setBuf]
    have hsplit' : (req.setBuf (req.buf.recv bs)).split = true := by rw [Request.split_setBuf, hsplit]
    have hheader' : (req.setBuf (req.buf.recv bs)).headerIn.data = h.head := by
      rw [Request.headerIn_setBuf hsplit, hheader]
    have hframing' : (req.setBuf (req.buf.recv bs)).chunked = true := hframing
    have hinit : (initChunked (req.setBuf (req.buf.recv bs))).chunked = true := hframing
    rcases hdec with ⟨hpre, hdata, -, hfirst | hnext⟩ | ⟨hpre, hleads, hrest, out, hscan, hout, hle, hdecode, hdata⟩
    · obtain ⟨hrest, rfl⟩ := hfirst
      rw [if_pos hrest]
      split
      · have hbase : (req.setBuf (req.buf.recv bs)).base = 0 := base_split hsplit'
        refine parse_inOrder hpre hinit hsplit' hlength hheader' (by simp [initChunked]) hbase rfl ?_ hne calls
        show (req.setBuf (req.buf.recv bs)).buf.data = bs
        rw [Request.buf_setBuf, Buffer.recv, hdata, List.nil_append]
      · next halloc => exact Or.inr ⟨by decide, fun hc => halloc hc.alloc⟩
    · obtain ⟨hrest, hdecode, hscan⟩ := hnext
      rw [if_neg hrest]
      refine parse_inOrder hpre hframing' hsplit' hlength hheader' hrest hdecode hscan ?_ hne calls
      rw [Request.buf_setBuf, Buffer.recv, hdata, List.nil_append]
    · rw [if_neg hrest]
      refine parse_skewed hpre hframing' hsplit' hlength hheader' hrest hscan hout ?_ hdecode ?_
        (hleads.trans (List.prefix_append _ _)) ?_ calls
      · rw [List.length_append]
        omega
      · rw [Request.buf_setBuf, Buffer.recv, hdata, List.append_assoc, List.drop_append_of_le_length hle]
      · intro heq
        have := hleads.length_le
        have := congrArg List.length heq
        rw [List.length_append] at this
        exact hne (List.length_eq_zero_iff.mp (by omega))

/-- With nothing read ahead, the handler starts with an empty buffer of its own. -/
theorem chunked_start_empty {conf : Conf} {h : Head} (hch : h.chunked = true) (hpre : h.preread = [])
    {calls : Calls} (halloc : calls.alloc = true) {clean : Prop} (hc : clean → calls.Succeed) (ready : Bool) :
    (chunkedSpec conf h).Holds clean (start conf calls ready h) := by
  rw [start, processEntity_head, if_pos halloc, if_pos (by rw [hpre]; rfl)]
  rcases prepareBuffer_cases conf calls ready h.preread.length h.request with
    ⟨hfalse, -⟩ | ⟨buf, -, hbuf, hfree, hst⟩ | ⟨_, hne, -, -⟩ | hbroken
  · rw [show h.request.chunked = true from hch] at hfalse
    cases hfalse
  · rw [hst]
    have hheader : h.headerIn.data = h.head := by rw [h.head_preread, hpre, List.append_nil]
    refine ⟨⟨hch, rfl, rfl, hheader, Or.inl ⟨hpre, hbuf, hfree, Or.inl ⟨rfl, hpre⟩⟩⟩, ?_⟩
    rw [hpre, verdict, if_pos rfl]
    rfl
  · rw [hpre] at hne
    exact absurd rfl hne
  · exact Spec.holds_broken hc hbroken

/-- What has been read ahead is decoded behind the head. -/
theorem chunked_start_preread {conf : Conf} {h : Head} (hch : h.chunked = true) (hpre : h.preread ≠ [])
    {calls : Calls} (halloc : calls.alloc = true) {clean : Prop} (hc : clean → calls.Succeed) (ready : Bool) :
    (chunkedSpec conf h).Holds clean (start conf calls ready h) := by
  have hlen : h.preread.length ≠ 0 := fun h0 => hpre (List.length_eq_zero_iff.mp h0)
  have hbody : bodyParser conf calls h.request = decodeBody conf (initChunked h.request) := by
    rw [bodyParser, if_pos (show h.request.chunked = true from hch), bodyChunked, halloc]
    rfl
  have hlarge : ∀ out : Bytes, chunkedTooLarge conf (initChunked h.request) (h.head.length + out.length) =
      decide (conf.clientMaxBodySize ≤ out.length) := by
    intro out
    rw [chunkedTooLarge, h.length_head]
    show decide (conf.clientMaxBodySize ≤ h.requestLength + out.length - h.requestLength) = _
    rw [Nat.add_sub_cancel_left]
  have hspec := decodeBody_spec conf (initChunked h.request) h.head h.preread
    h.head_preread h.length_head.symm hpre
  have hverdict : ∀ got, verdict conf.clientMaxBodySize h.requestLength h.preread got = _ :=
    fun got => if_neg hpre
  rw [start, processEntity_head, if_pos halloc, if_neg hlen, hbody]
  have hdecoder : (initChunked h.request).requestBody.chunked = .init := rfl
  rw [hdecoder] at hspec
  cases hs : scan Decoder.move .init h.preread with
  | fail out rest =>
    rw [hs] at hspec
    rw [hspec]
    exact Or.inl (Or.inr ⟨rfl, by rw [hverdict, hs]; rfl⟩)
  | more d out =>
    simp only [hs, hlarge, decide_eq_true_eq] at hspec
    by_cases hmax : conf.clientMaxBodySize ≤ out.length
    · rw [if_pos hmax] at hspec
      rw [hspec]
      exact Or.inl (Or.inl ⟨rfl, by rw [hverdict, hs]; exact if_pos hmax⟩)
    rw [if_neg hmax] at hspec
    obtain ⟨buf, hbuf, hmem, hdec⟩ := hspec
    rw [hdec]
    have hout : out.length ≤ h.preread.length := by
      have := scan_length Decoder.move (fun _ _ _ _ => Decoder.move_length) .init h.preread
      rw [hs] at this
      simp only [Scanned.out, Scanned.rest] at this
      omega
    dsimp only
    rcases prepareBuffer_cases conf calls ready h.preread.length
      (decoded (initChunked h.request) d (h.head.length + out.length) buf) with
      ⟨hfalse, -⟩ | ⟨_, hz, -, -, -⟩ | ⟨own, -, hown, hst⟩ | hbroken
    · rw [show (decoded (initChunked h.request) d (h.head.length + out.length) buf).chunked = true from hch]
        at hfalse
      cases hfalse
    · exact absurd hz hlen
    rotate_left
    · exact Spec.holds_broken hc hbroken
    rw [hst]
    refine ⟨⟨hch, rfl, rfl, ?_, Or.inr ⟨hpre, List.prefix_refl _, by simp [decoded, initChunked], out, hs,
      by omega, hout, ?_, ?_⟩⟩, ?_⟩
    · refine Buffer.data_setSize (b := out ++ h.preread.drop out.length ++ h.headerIn.after) ?_ h.length_head.symm
      show buf.data ++ buf.after = _
      rw [hmem, List.append_assoc, List.append_assoc, List.append_assoc]
      rfl
    · show h.head.length + out.length = _
      rw [h.length_head]
    · show own.data = _
      have hcopied : (decoded (initChunked h.request) d (h.head.length + out.length) buf).headerIn = buf := rfl
      have hhead : (decoded (initChunked h.request) d (h.head.length + out.length) buf).requestLength =
          h.head.length := h.length_head.symm
      rw [hown, hcopied, hhead, hmem, List.append_assoc, List.append_assoc, List.drop_left, ← List.append_assoc]
      refine List.take_left' ?_
      rw [List.length_append, List.length_drop]
      omega
    · rw [hverdict, hs]
      exact (if_neg hmax).trans (if_pos (Or.inl rfl))
  | done out rest =>
    simp only [hs, hlarge, decide_eq_true_eq] at hspec
    by_cases hmax : conf.clientMaxBodySize ≤ out.length
    · rw [if_pos hmax] at hspec
      rw [hspec]
      exact Or.inl (Or.inl ⟨rfl, by rw [hverdict, hs]; exact if_pos (decide_eq_true hmax)⟩)
    rw [if_neg hmax] at hspec
    obtain ⟨req', hok, hsplit, -, hbuf, hlength, hbase, hentity⟩ := hspec
    have hstart : (initChunked h.request).base = h.head.length := h.length_head.symm
    rw [hstart, Nat.add_sub_cancel_left] at hlength hentity
    rw [hstart] at hbase
    rw [hok]
    refine ⟨out, rest, ?_, hlength, ?_, hentity, ?_, fun h' => Bool.noConfusion (hsplit.symm.trans h')⟩
    · rw [hverdict, hs]
      exact if_neg (by simpa using hmax)
    · rw [hbase, hsplit]
      exact h.length_head
    · rw [hbuf, hsplit, List.append_assoc]
      rfl

theorem chunked_start {conf : Conf} {h : Head} (hch : h.chunked = true) {calls : Calls} (clean : Prop)
    (hc : clean → calls.Succeed) (ready : Bool) :
    (chunkedSpec conf h).Holds clean (start conf calls ready h) := by
  by_cases halloc : calls.alloc = true
  · by_cases hpre : h.preread = []
    · exact chunked_start_empty hch hpre halloc hc ready
    · exact chunked_start_preread hch hpre halloc hc ready
  · rw [start, processEntity_head, if_neg halloc]
    exact Spec.holds_broken hc ⟨fun hs => halloc hs.alloc, Or.inl rfl⟩

/-- The verdict shows in the session; while it is open, the body is read or `recv` was asked
for no bytes. -/
theorem chunked_shows {conf : Conf} {h : Head} {s : Session} (hs : (chunkedSpec conf h).Holds True s) :
    match verdict conf.clientMaxBodySize h.requestLength h.preread s.received with
    | .reading => (∃ req, s.state.reading = some req) ∨
        (s.zero = true ∧ ∃ req, ChunkedReading conf.clientMaxBodySize h req s.received ∧ req.buf.freeSize = 0)
    | .ok b t => ∃ req, s.state = .processed req ∧ BodyRead h b t req
    | .tooLarge => s.state = .finalized requestEntityTooLarge
    | .malformed => s.state = .finalized badRequest
    | .undefined => s.state = .undefined := by
  obtain ⟨state, received, zero⟩ := s
  cases state with
  | looping req ready fresh =>
    simp only [hs.2]
    exact Or.inl ⟨req, rfl⟩
  | waiting req =>
    simp only [hs.2]
    exact Or.inl ⟨req, rfl⟩
  | processed req =>
    obtain ⟨b, t, hv, hread⟩ := hs
    simp only [hv]
    exact ⟨req, rfl, hread⟩
  | finalized status =>
    rcases hs with (⟨rfl, hv⟩ | ⟨rfl, hv⟩) | ⟨-, hzero⟩
    · simp only [hv]
    · simp only [hv]
    · obtain ⟨hz, req, ⟨hread, hv⟩, hfull⟩ := hzero trivial
      simp only [hv]
      exact Or.inr ⟨hz, req, hread, hfull⟩
  | undefined =>
    have hv := hs.resolve_right fun hfalse => hfalse trivial
    change verdict _ _ _ _ = _ at hv
    simp only [hv]

end PgRest.Http
