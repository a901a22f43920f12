import PgRest.Http.ChunkedBody

/-! A body in chunks does not depend on how its bytes are cut as long as it is read ahead as
a whole, or is empty and none of it is read ahead. Every other one is rejected. -/
namespace PgRest.Http
open Lib Memory

/-! ### Verdicts on an encoding -/

theorem ofScan_ok {large : Bytes → Bool} {r : Scanned Decoder UInt8 UInt8} {b t : Bytes}
    (h : Verdict.ofScan large r = .ok b t) : r = .done b t ∧ large b = false := by
  cases r with
  | fail out rest => cases h
  | more d out =>
    simp only [Verdict.ofScan] at h
    split at h <;> cases h
  | done out rest =>
    simp only [Verdict.ofScan] at h
    split at h
    · cases h
    · next hlarge =>
      cases h
      exact ⟨rfl, by simpa using hlarge⟩

theorem skewedVerdict_not_ok {length : Nat} {preread : Bytes} {d : Decoder} {out got b t : Bytes} :
    skewedVerdict length preread d out got ≠ .ok b t := by
  intro h
  simp only [skewedVerdict] at h
  split at h
  · cases h
  split at h
  · cases h
  · cases (ofScan_ok h).2

/-- Only a body that was read ahead as a whole, or an empty one, is complete. -/
theorem verdict_ok {max length : Nat} {preread got b t : Bytes}
    (h : verdict max length preread got = .ok b t) :
    (preread = [] ∧ b = [] ∧ scan Decoder.move .init got = .done [] t) ∨
      (preread ≠ [] ∧ scan Decoder.move .init preread = .done b t) := by
  rw [verdict] at h
  by_cases hpre : preread = []
  · rw [if_pos hpre] at h
    obtain ⟨hscan, hlarge⟩ := ofScan_ok h
    have hnil : b = [] := by simpa using hlarge
    exact Or.inl ⟨hpre, hnil, hnil ▸ hscan⟩
  · rw [if_neg hpre] at h
    cases hs : scan Decoder.move .init preread with
    | more d out =>
      simp only [hs] at h
      split at h
      · cases h
      · exact absurd h skewedVerdict_not_ok
    | fail out rest =>
      rw [hs] at h
      cases h
    | done out rest =>
      rw [hs] at h
      exact Or.inr ⟨hpre, (ofScan_ok h).1⟩

/-- A part of an encoding does not decode to its end. -/
theorem scan_part {enc b part : Bytes} (henc : Encodes enc b) (hpart : part <+: enc)
    (hlt : part.length < enc.length) :
    ∃ d out, scan Decoder.move .init part = .more d out ∧ out <+: b := by
  obtain ⟨l, rfl⟩ := hpart
  have hscan := scan_encodes henc []
  rw [List.append_nil] at hscan
  rcases scan_prefix Decoder.move hscan with ⟨rest, -, hnil⟩ | ⟨d, o, o', hmore, -, rfl⟩
  · rw [List.length_append] at hlt
    have := congrArg List.length hnil
    simp only [List.length_nil, List.length_append] at this
    omega
  · exact ⟨d, o, hmore, List.prefix_append _ _⟩

theorem processed_of_ok {conf : Conf} {h : Head} {s : Session} {b t : Bytes}
    (hs : (chunkedSpec conf h).Holds True s)
    (hv : verdict conf.clientMaxBodySize h.requestLength h.preread s.received = .ok b t) :
    ∃ req, s.state = .processed req ∧ BodyRead h b t req := by
  have hshows := chunked_shows hs
  rwa [hv] at hshows

/-- With nothing read ahead, there is always room for more. -/
theorem reading_of_reading {conf : Conf} {h : Head} {s : Session} (hpre : h.preread = [])
    (hs : (chunkedSpec conf h).Holds True s)
    (hv : verdict conf.clientMaxBodySize h.requestLength h.preread s.received = .reading) :
    ∃ req, s.state.reading = some req := by
  have hshows := chunked_shows hs
  rw [hv] at hshows
  refine hshows.resolve_right ?_
  rintro ⟨-, req, hread, hfull⟩
  rcases hread.decoded with ⟨-, -, hfree, -⟩ | ⟨hne, -⟩
  · omega
  · exact hne hpre

/-- The body comes out as `b`, whatever has been received of its encoding and what follows. -/
structure Decodes (enc b : Bytes) (s : Session) : Prop where
  complete : enc.length ≤ s.received.length → ∃ req, s.state = .processed req
  entity : ∀ req, s.state = .processed req → req.entity = b
  left : ∀ req, s.state = .processed req → req.left = s.received.drop enc.length
  going : ∀ status, s.state ≠ .finalized status
  /-- no `decode_length` beyond the size -/
  defined : s.state ≠ .undefined

theorem decodes_of_processed {enc b t : Bytes} {h : Head} {s : Session} {req : Request}
    (hs : s.state = .processed req) (hread : BodyRead h b t req) (ht : s.received.drop enc.length = t) :
    Decodes enc b s where
  complete _ := ⟨req, hs⟩
  entity req' hs' := by
    cases hs.symm.trans hs'
    exact hread.entity_eq
  left req' hs' := by
    cases hs.symm.trans hs'
    rw [ht]
    exact hread.left_eq
  going status hs' := by cases hs.symm.trans hs'
  defined hs' := by cases hs.symm.trans hs'

theorem decodes_of_reading {enc b : Bytes} {s : Session} {req : Request} (hs : s.state.reading = some req)
    (hlt : s.received.length < enc.length) : Decodes enc b s where
  complete hle := absurd hlt (Nat.not_lt.mpr hle)
  entity req' hs' := by
    rw [hs'] at hs
    cases hs
  left req' hs' := by
    rw [hs'] at hs
    cases hs
  going status hs' := by
    rw [hs'] at hs
    cases hs
  defined hs' := by
    rw [hs'] at hs
    cases hs

section Cuts
variable {conf : Conf} {h : Head} {enc b t : Bytes} {calls : Calls} {ready : Bool} {s : Session}

/-- All of the encoding has been read ahead: the body is complete without a read. -/
theorem decodes_preread (hch : h.chunked = true) (henc : Encodes enc b)
    (hb : b.length < conf.clientMaxBodySize) (hpre : h.preread <+: enc ++ t) (hc : calls.Succeed)
    (hle : enc.length ≤ h.preread.length)
    (hrun : Run (Session.step conf) Delivers (start conf calls ready h) s) : Decodes enc b s := by
  obtain ⟨t', hpreread⟩ := List.prefix_of_prefix_length_le (List.prefix_append enc t) hpre hle
  have hscan : scan Decoder.move .init h.preread = .done b t' := by rw [← hpreread, scan_encodes henc]
  have hne : h.preread ≠ [] := by
    intro hnil
    rw [hnil] at hscan
    cases hscan
  have hv : ∀ got, verdict conf.clientMaxBodySize h.requestLength h.preread got = .ok b t' := by
    intro got
    rw [verdict, if_neg hne, hscan]
    exact if_neg (by simpa using hb)
  obtain ⟨req, hs, hread⟩ := processed_of_ok (chunked_start hch True (fun _ => hc) ready) (hv _)
  rw [run_ended (by rw [hs]; rfl) hrun]
  refine decodes_of_processed hs hread ?_
  show h.preread.drop enc.length = t'
  rw [← hpreread, List.drop_left]

/-- None of the encoding of an empty body has been read ahead. -/
theorem decodes_empty (hch : h.chunked = true) (henc : Encodes enc []) (hc : calls.Succeed)
    (hpre : h.preread = []) (hrun : Run (Session.step conf) Delivers (start conf calls ready h) s)
    (hstream : s.received <+: enc ++ t) : Decodes enc [] s := by
  have hholds := Spec.holds_delivered (chunkedSpec_sound conf h) (chunked_start hch True (fun _ => hc) ready) hrun
  by_cases hle : enc.length ≤ s.received.length
  · obtain ⟨t', hrecv⟩ := List.prefix_of_prefix_length_le (List.prefix_append enc t) hstream hle
    have hv : verdict conf.clientMaxBodySize h.requestLength h.preread s.received = .ok [] t' := by
      rw [verdict, if_pos hpre, ← hrecv, scan_encodes henc]
      rfl
    obtain ⟨req, hs, hread⟩ := processed_of_ok hholds hv
    exact decodes_of_processed hs hread (by rw [← hrecv, List.drop_left])
  · have hlt := Nat.lt_of_not_le hle
    have hpart : s.received <+: enc :=
      List.prefix_of_prefix_length_le hstream (List.prefix_append enc t) (Nat.le_of_lt hlt)
    obtain ⟨d, out, hscan, hout⟩ := scan_part henc hpart hlt
    have hnil : out = [] := List.prefix_nil.mp hout
    have hv : verdict conf.clientMaxBodySize h.requestLength h.preread s.received = .reading := by
      rw [verdict, if_pos hpre, hscan, hnil]
      rfl
    obtain ⟨req, hs⟩ := reading_of_reading hpre hholds hv
    exact decodes_of_reading hs hlt

/-- Whatever body has been read, an encoding of one has been received. -/
theorem processed_encodes {ok : Session → Event → Prop} {req : Request} (hch : h.chunked = true)
    (hrun : Run (Session.step conf) ok (start conf calls ready h) s) (hs : s.state = .processed req) :
    ∃ enc b t, Encodes enc b ∧ s.received = enc ++ t := by
  have hholds := Spec.holds_run (chunkedSpec_sound conf h) (chunked_start hch False False.elim ready)
    (hrun.mono fun _ _ _ h => h.elim)
  rw [Spec.Holds, hs] at hholds
  obtain ⟨b, t, hv, -⟩ := hholds
  rcases verdict_ok hv with ⟨-, -, hscan⟩ | ⟨-, hscan⟩
  · obtain ⟨enc, henc, hrecv⟩ := encodes_of_scan hscan
    exact ⟨enc, [], t, henc, hrecv⟩
  · obtain ⟨enc, henc, hpre⟩ := encodes_of_scan hscan
    obtain ⟨rest, hrest⟩ : h.preread <+: s.received := preread_starts hrun
    exact ⟨enc, b, t ++ rest, henc, by rw [← hrest, hpre, List.append_assoc]⟩

/-- A session that decodes an encoding to its body decodes no part of it where it was cut. -/
theorem not_decodes (hch : h.chunked = true) (henc : Encodes enc b) (hpre : h.preread <+: enc ++ t)
    (hc : calls.Succeed) (hlt : h.preread.length < enc.length) (hne : ¬(h.preread = [] ∧ b = []))
    (hall : ∀ s, Run (Session.step conf) Delivers (start conf calls ready h) s →
      s.received <+: enc ++ t → Decodes enc b s) : False := by
  have hpart : h.preread <+: enc :=
    List.prefix_of_prefix_length_le hpre (List.prefix_append enc t) (Nat.le_of_lt hlt)
  obtain ⟨l, hl⟩ := hpart
  have hgo : ∀ s, Run (Session.step conf) Delivers (start conf calls ready h) s → s.received <+: enc ++ t →
      (∃ req, s.state.reading = some req) ∨ ∃ req, s.state = .processed req := by
    intro s hrun hrecv
    have hdec := hall s hrun hrecv
    obtain ⟨state, received, zero⟩ := s
    cases state with
    | looping req _ _ => exact Or.inl ⟨req, rfl⟩
    | waiting req => exact Or.inl ⟨req, rfl⟩
    | processed req => exact Or.inr ⟨req, rfl⟩
    | finalized status => exact absurd rfl (hdec.going status)
    | undefined => exact absurd rfl hdec.defined
  have hstream : (start conf calls ready h).received ++ l <+: enc ++ t := by
    show h.preread ++ l <+: _
    rw [hl]
    exact List.prefix_append _ _
  obtain ⟨s, hrun, hs⟩ := reaches hgo hstream
  change s.received = h.preread ++ l ∨ (s.received <+: h.preread ++ l ∧ _) at hs
  rw [hl] at hs
  have hleads : s.received <+: enc ++ t := by
    rcases hs with heq | ⟨hpart, -⟩
    · rw [heq]
      exact List.prefix_append _ _
    · exact hpart.trans (List.prefix_append _ _)
  have hdec := hall s hrun hleads
  obtain ⟨req, hproc⟩ : ∃ req, s.state = .processed req := by
    rcases hs with heq | ⟨-, hproc⟩
    · exact hdec.complete (Nat.le_of_eq (congrArg List.length heq.symm))
    · exact hproc
  have hholds := Spec.holds_delivered (chunkedSpec_sound conf h) (chunked_start hch True (fun _ => hc) ready) hrun
  have hb := hdec.entity req hproc
  obtain ⟨state, received, zero⟩ := s
  cases hproc
  obtain ⟨b', t', hv, hread⟩ := hholds
  have hb' : b' = b := hread.entity_eq.symm.trans hb
  rcases verdict_ok hv with ⟨hnil, hnil', -⟩ | ⟨-, hscan⟩
  · exact hne ⟨hnil, hb'.symm.trans hnil'⟩
  · obtain ⟨d, out, hmore, -⟩ := scan_part henc ⟨l, hl⟩ hlt
    rw [hmore] at hscan
    cases hscan

/-- The body of a chunked request comes out however its encoding is delivered if and only if
all of the encoding was read ahead, or the body is empty and none of it was. -/
theorem chunked_decodes (hch : h.chunked = true) (henc : Encodes enc b)
    (hb : b.length < conf.clientMaxBodySize) (hpre : h.preread <+: enc ++ t) (hc : calls.Succeed) :
    (∀ s, Run (Session.step conf) Delivers (start conf calls ready h) s → s.received <+: enc ++ t →
      Decodes enc b s) ↔ enc.length ≤ h.preread.length ∨ (h.preread = [] ∧ b = []) := by
  constructor
  · intro hall
    by_contra hne
    rw [not_or] at hne
    exact not_decodes hch henc hpre hc (Nat.lt_of_not_le hne.1) hne.2 hall
  · rintro (hle | ⟨hnil, rfl⟩) s hrun hrecv
    · exact decodes_preread hch henc hb hpre hc hle hrun
    · exact decodes_empty hch henc hc hnil hrun hrecv

end Cuts

/-! ### A body of three bytes -/

def chunkedBytes : Bytes := ascii "POST / HTTP/1.0\r\nTransfer-Encoding: chunked\r\n\r\n"

/-- A request with a body in chunks of which `preread` has been read ahead. -/
def chunkedHead (preread : Bytes) : Head where
  headerIn := { before := [], data := chunkedBytes ++ preread, after := List.replicate 1024 0 }
  requestLength := chunkedBytes.length
  contentLengthN := -1
  chunked := true
  length_pos := by decide
  length_le := by simp [Buffer.size]
  framed := by simp

def abcChunks : Bytes := ascii "3\r\nabc\r\n0\r\n\r\n"

theorem encodes_abc : Encodes abcChunks (ascii "abc") := encodes_of_scan_nil rfl

/-- Read ahead as a whole, the body comes out. -/
theorem chunked_decodes_abc : (∀ s, Run (Session.step .default) Delivers
    (start .default {} true (chunkedHead abcChunks)) s → s.received <+: abcChunks ++ ascii "GET" →
      Decodes abcChunks (ascii "abc") s) ↔
    abcChunks.length ≤ (chunkedHead abcChunks).preread.length ∨
      ((chunkedHead abcChunks).preread = [] ∧ ascii "abc" = []) :=
  chunked_decodes rfl encodes_abc (by decide) (by exact List.prefix_append _ _) ⟨rfl, rfl, rfl, rfl⟩

set_option maxRecDepth 20000 in
/-- Received in one read behind the head, it is rejected as too large. -/
theorem chunked_rejects_abc : ∃ s, Run (Session.step .default) Delivers
    (start .default {} true (chunkedHead [])) s ∧ s.received = abcChunks ∧
      ¬Decodes abcChunks (ascii "abc") s :=
  ⟨⟨.finalized requestEntityTooLarge, abcChunks, false⟩,
    .next (a := .recv abcChunks {} false) .start ⟨rfl, rfl, rfl, rfl⟩ rfl, rfl, fun h => h.going _ rfl⟩

end PgRest.Http
