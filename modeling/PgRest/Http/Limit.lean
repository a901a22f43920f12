import PgRest.Http.ContentLength
import PgRest.Http.Cuts

/-! The limit on the size of a body. The two framings test it with expressions that differ,
and that count other bytes than those of the body; here is when a request is rejected for
its size exactly if its body is too large. -/
namespace PgRest.Http
open Lib Memory

/-- A request carries a body of `len` bytes in the first `whole` bytes of what is received
behind its head. -/
inductive Carries (h : Head) (stream : Bytes) : Nat → Nat → Prop
  | length {N : Nat} : h.chunked = false → h.contentLengthN = N → Carries h stream N N
  | chunks {enc b t : Bytes} : h.chunked = true → Encodes enc b → stream = enc ++ t →
      Carries h stream enc.length b.length

/-- All of the body has been received, or it is not read any more. -/
def Complete (whole : Nat) (s : Session) : Prop := whole ≤ s.received.length ∨ s.state.reading = none

/-- The request is rejected for its size exactly if it is larger than it may be. -/
def LimitKept (max len : Nat) (s : Session) : Prop :=
  s.state ≠ .undefined ∧ (s.state = .finalized requestEntityTooLarge ↔ max < len)

/-- When the limit is kept for a body of `len` bytes. -/
def Fits (max : Nat) (h : Head) (len : Nat) (s : Session) : Prop :=
  if s.zero then len ≤ max
  else if h.chunked then
    if h.preread = [] then len = 0 ∨ max < len
    else
      match scan Decoder.move .init h.preread with
      | .more d out =>
        if max ≤ out.length then max < len
        else
          h.requestLength + out.length ≤ s.received.length ∧
            ((h.requestLength + out.length < s.received.length ∧
              (scan Decoder.move d (s.received.drop (h.requestLength + out.length))).isFail = false) ↔
                max < len)
      | _ => len ≠ max
  else max < len ∨ s.received.length ≤ max

/-- Where `recv` has been asked for no bytes, the session has ended, and not for the size. -/
theorem ended_of_zero {conf : Conf} {s s' : Session} (hs : s.zero = false)
    (h : Run (Session.step conf) Delivers s s') (hz : s'.zero = true) :
    ∃ status, s'.state = .finalized status ∧ status ≠ requestEntityTooLarge := by
  refine h.invariant (P := fun u => u.zero = true → ∃ status, u.state = .finalized status ∧
    status ≠ requestEntityTooLarge) (fun hz' => absurd hz' (by simp [hs])) (fun u e u' hu _ hstep => ?_) hz
  intro hz'
  rcases Session.step_cases hstep with ⟨req, fresh, bs, calls, stale, ready, hst, -, -, -, rfl⟩ |
    ⟨req, hst, -, -, hzero⟩ | ⟨req, status, -, hst', hne, -, -⟩
  · obtain ⟨status, hfin, -⟩ := hu hz'
    rw [hst] at hfin
    cases hfin
  · rw [hzero] at hz'
    obtain ⟨status, hfin, -⟩ := hu hz'
    rw [hfin] at hst
    cases hst
  · exact ⟨status, hst', hne⟩

section Limit
variable {conf : Conf} {h : Head} {s : Session} {calls : Calls} {ready : Bool}

theorem limit_zero {max len : Nat} {status : Nat} (hs : s.state = .finalized status)
    (hne : status ≠ requestEntityTooLarge) (hz : s.zero = true) :
    LimitKept max len s ↔ Fits max h len s := by
  rw [LimitKept, Fits, if_pos hz, hs]
  have hstate : ¬State.finalized status = .finalized requestEntityTooLarge := fun heq => by
    cases heq
    exact hne rfl
  simp only [ne_eq, reduceCtorEq, not_false_eq_true, true_and, hstate, false_iff]
  omega

theorem limit_length {N : Nat} (hch : h.chunked = false) (hz : s.zero = false)
    (hs : (lengthSpec conf h N).Holds True s) (hdone : Complete N s) :
    LimitKept conf.clientMaxBodySize N s ↔ Fits conf.clientMaxBodySize h N s := by
  rw [LimitKept, Fits, if_neg (by simp [hz]), if_neg (by simp [hch])]
  obtain ⟨state, received, zero⟩ := s
  have hread : ∀ req, (lengthSpec conf h N).reading req received → N ≤ received.length →
      N = 0 ∧ received.length ≤ conf.clientMaxBodySize := by
    rintro req ⟨-, hmax, hlt | ⟨h0, -⟩⟩ hle
    · omega
    · exact ⟨h0, hmax⟩
  cases state with
  | looping req _ _ =>
    have := hread req hs (hdone.resolve_right (by simp [State.reading]))
    simp
    omega
  | waiting req =>
    have := hread req hs (hdone.resolve_right (by simp [State.reading]))
    simp
    omega
  | processed req =>
    obtain ⟨hle, hmax, -⟩ := hs
    dsimp only at hle hmax ⊢
    simp
    omega
  | finalized status =>
    rcases hs with ⟨rfl, hmax⟩ | ⟨-, hzero⟩
    · dsimp only at hmax ⊢
      simp
      omega
    · obtain ⟨hz', -⟩ := hzero trivial
      rw [hz] at hz'
      cases hz'
  | undefined => exact absurd trivial (hs.resolve_left id)

/-- The verdict on a body in chunks decides. -/
theorem limit_verdict {len : Nat} (hz : s.zero = false) (hs : (chunkedSpec conf h).Holds True s) :
    LimitKept conf.clientMaxBodySize len s ↔
      verdict conf.clientMaxBodySize h.requestLength h.preread s.received ≠ .undefined ∧
        (verdict conf.clientMaxBodySize h.requestLength h.preread s.received = .tooLarge ↔
          conf.clientMaxBodySize < len) := by
  have hshows := chunked_shows hs
  have hne : badRequest ≠ requestEntityTooLarge := by decide
  rw [LimitKept]
  cases hv : verdict conf.clientMaxBodySize h.requestLength h.preread s.received with
  | reading =>
    rw [hv] at hshows
    obtain ⟨req, hread⟩ := hshows.resolve_right fun ⟨hzero, _⟩ => by simp [hz] at hzero
    have hundef : s.state ≠ .undefined := fun heq => by simp [heq, State.reading] at hread
    have hfin : s.state ≠ .finalized requestEntityTooLarge := fun heq => by simp [heq, State.reading] at hread
    simp [hundef, hfin]
  | ok b t =>
    rw [hv] at hshows
    obtain ⟨req, hproc, -⟩ := hshows
    simp [hproc]
  | tooLarge =>
    rw [hv] at hshows
    simp [hshows]
  | malformed =>
    rw [hv] at hshows
    simp [hshows, hne]
  | undefined =>
    rw [hv] at hshows
    simp [hshows]

/-- What the decoder makes of bytes of an encoding that have arrived. -/
theorem scan_arrived {enc b t got : Bytes} (henc : Encodes enc b) (hgot : got <+: enc ++ t) :
    (∃ rest, enc.length ≤ got.length ∧ scan Decoder.move .init got = .done b rest) ∨
      ∃ d out, got.length < enc.length ∧ scan Decoder.move .init got = .more d out ∧ out <+: b := by
  by_cases hle : enc.length ≤ got.length
  · obtain ⟨rest, rfl⟩ := List.prefix_of_prefix_length_le (List.prefix_append enc t) hgot hle
    exact Or.inl ⟨rest, hle, scan_encodes henc rest⟩
  · have hlt := Nat.lt_of_not_le hle
    obtain ⟨d, out, hscan, hout⟩ := scan_part henc
      (List.prefix_of_prefix_length_le hgot (List.prefix_append enc t) (Nat.le_of_lt hlt)) hlt
    exact Or.inr ⟨d, out, hlt, hscan, hout⟩

/-- A body in chunks of which nothing was read ahead is too large when it is not empty. -/
theorem verdict_empty {max length : Nat} {enc b t got : Bytes} (henc : Encodes enc b) (hgot : got <+: enc ++ t)
    (hopen : verdict max length [] got = .reading → enc.length ≤ got.length) :
    verdict max length [] got ≠ .undefined ∧ (verdict max length [] got = .tooLarge ↔ b ≠ []) := by
  rw [verdict, if_pos rfl] at hopen ⊢
  rcases scan_arrived henc hgot with ⟨rest, hle, hscan⟩ | ⟨d, out, hlt, hscan, hout⟩
  · rw [hscan]
    by_cases hb : b = [] <;> simp [Verdict.ofScan, hb]
  · rw [hscan] at hopen ⊢
    by_cases hnil : out = []
    · have := hopen (by simp [Verdict.ofScan, hnil])
      omega
    · have hb : b ≠ [] := by
        rintro rfl
        exact hnil (List.prefix_nil.mp hout)
      simp [Verdict.ofScan, hnil, hb]

/-- One that was cut by the end of `header_in` is never complete. -/
theorem verdict_skewed {length len max : Nat} {preread got : Bytes} {d : Decoder} {out : Bytes}
    (hne : got ≠ preread) :
    (skewedVerdict length preread d out got ≠ .undefined ∧
      (skewedVerdict length preread d out got = .tooLarge ↔ max < len)) ↔
    length + out.length ≤ got.length ∧ ((length + out.length < got.length ∧
      (scan Decoder.move d (got.drop (length + out.length))).isFail = false) ↔ max < len) := by
  rw [skewedVerdict]
  rcases Nat.lt_trichotomy got.length (length + out.length) with hlt | heq | hgt
  · rw [if_neg (not_or.mpr ⟨hne, Nat.ne_of_lt hlt⟩), if_pos hlt]
    simp only [ne_eq, not_true_eq_false, false_and, false_iff, not_and]
    omega
  · rw [if_pos (Or.inr heq)]
    simp [heq]
  · rw [if_neg (not_or.mpr ⟨hne, Nat.ne_of_gt hgt⟩), if_neg (Nat.lt_asymm hgt)]
    cases scan Decoder.move d (got.drop (length + out.length)) <;>
      simp [Verdict.ofScan, Scanned.isFail, hgt, Nat.le_of_lt hgt]

/-- A body in chunks keeps to the limit as its verdict says. -/
theorem limit_chunks {enc b t : Bytes} (henc : Encodes enc b) (hch : h.chunked = true) (hz : s.zero = false)
    (hs : (chunkedSpec conf h).Holds True s) (hpre : h.preread <+: s.received)
    (hstream : s.received <+: enc ++ t) (hdone : Complete enc.length s) :
    LimitKept conf.clientMaxBodySize b.length s ↔ Fits conf.clientMaxBodySize h b.length s := by
  have hopen : verdict conf.clientMaxBodySize h.requestLength h.preread s.received = .reading →
      enc.length ≤ s.received.length := by
    intro hv
    have hshows := chunked_shows hs
    rw [hv] at hshows
    obtain ⟨req, hread⟩ := hshows.resolve_right fun ⟨hzero, _⟩ => by simp [hz] at hzero
    exact hdone.resolve_right (by simp [hread])
  rw [limit_verdict hz hs, Fits, if_neg (by simp [hz]), if_pos hch]
  by_cases hnil : h.preread = []
  · rw [hnil] at hopen ⊢
    obtain ⟨hdef, hlarge⟩ := verdict_empty henc hstream hopen
    have hb : b ≠ [] ↔ b.length ≠ 0 := by simp
    rw [if_pos rfl, hlarge, hb]
    simp only [ne_eq, hdef, not_false_eq_true, true_and]
    omega
  rw [if_neg hnil]
  rw [verdict, if_neg hnil] at hopen ⊢
  rcases scan_arrived henc (hpre.trans hstream) with ⟨rest, -, hscan⟩ | ⟨d, out, hlt, hscan, -⟩
  · simp only [hscan, Verdict.ofScan]
    by_cases hmax : conf.clientMaxBodySize ≤ b.length
    · simp [hmax]
      omega
    · simp [hmax]
      omega
  · simp only [hscan] at hopen ⊢
    by_cases hmax : conf.clientMaxBodySize ≤ out.length
    · simp [hmax]
    · simp only [if_neg hmax] at hopen ⊢
      refine verdict_skewed fun heq => ?_
      have := hopen (by rw [skewedVerdict, if_pos (Or.inl heq)])
      rw [heq] at this
      omega

end Limit

/-- In every run in which the client delivers a body, and at every point at which all of the
body is there or the session has ended, the limit is kept exactly when `Fits` says so. -/
theorem limit_kept {conf : Conf} {h : Head} {stream : Bytes} {whole len : Nat}
    (hcarries : Carries h stream whole len) {calls : Calls} (hc : calls.Succeed) {ready : Bool} {s : Session}
    (hrun : Run (Session.step conf) Delivers (start conf calls ready h) s) (hstream : s.received <+: stream)
    (hdone : Complete whole s) :
    LimitKept conf.clientMaxBodySize len s ↔ Fits conf.clientMaxBodySize h len s := by
  cases hz : s.zero with
  | true =>
    obtain ⟨status, hfin, hne⟩ := ended_of_zero rfl hrun hz
    exact limit_zero hfin hne hz
  | false =>
    cases hcarries with
    | length hch hN =>
      exact limit_length hch hz
        (Spec.holds_delivered (lengthSpec_sound conf h _) (length_start hch hN True (fun _ => hc) ready) hrun) hdone
    | chunks hch henc ht =>
      subst ht
      exact limit_chunks henc hch hz
        (Spec.holds_delivered (chunkedSpec_sound conf h) (chunked_start hch True (fun _ => hc) ready) hrun)
        (preread_starts hrun) hstream hdone

/-- A body of three bytes in chunks that is read ahead as a whole, and a limit of 8192. -/
theorem limit_kept_abc : LimitKept 8192 3 (start .default {} true (chunkedHead abcChunks)) :=
  (limit_kept (.chunks rfl encodes_abc (List.append_nil _).symm) ⟨rfl, rfl, rfl, rfl⟩ .start
    (by exact List.prefix_refl _) (Or.inl (Nat.le_refl _))).mpr (show 3 ≠ 8192 by decide)

set_option maxRecDepth 20000 in
/-- Received in one read behind the head, the same body is rejected as too large. -/
theorem limit_broken_abc : ∃ s, Run (Session.step .default) Delivers
    (start .default {} true (chunkedHead [])) s ∧ s.received = abcChunks ∧ ¬LimitKept 8192 3 s :=
  ⟨⟨.finalized requestEntityTooLarge, abcChunks, false⟩,
    .next (a := .recv abcChunks {} false) .start ⟨rfl, rfl, rfl, rfl⟩ rfl, rfl,
    fun h => absurd (h.2.mp rfl) (by decide)⟩

end PgRest.Http
