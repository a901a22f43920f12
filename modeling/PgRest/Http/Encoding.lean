import PgRest.Http.Chunked

/-! What `phr_decode_chunked` accepts, as a grammar: chunks, the last chunk of size 0 and
the trailer. It is that of the protocol, with the liberties the decoder takes: a line may
end with LF alone, CRs may stand for one, and what follows a size is an extension. The
decoder reads an encoding to its end and writes its body, and accepts nothing else. -/
namespace PgRest.Http
open Lib

/-- The number that hexadecimal digits add up to after `n`. -/
def hexDigits (n : Nat) : Bytes → Option Nat
  | [] => some n
  | c :: l => (decodeHex c).bind fun v => hexDigits (n * 16 + v) l

/-- The line before a chunk: its size in at most 16 digits, and an extension. -/
inductive SizeLine : Bytes → Nat → Prop
  | line {digits ext : Bytes} {n : Nat} : digits ≠ [] → digits.length ≤ 16 → hexDigits 0 digits = some n →
      (∀ c ∈ ext.head?, decodeHex c = none) → lf ∉ ext → SizeLine (digits ++ ext ++ [lf]) n

/-- Lines up to an empty one. -/
inductive Trailer : Bytes → Prop
  | done : Trailer [lf]
  | cr {l : Bytes} : Trailer l → Trailer (cr :: l)
  | line {c : UInt8} {m l : Bytes} : c ≠ cr → c ≠ lf → lf ∉ m → Trailer l → Trailer (c :: m ++ lf :: l)

/-- `Encodes enc b`: `enc` is a complete chunked encoding of `b`. -/
inductive Encodes : Bytes → Bytes → Prop
  | last {line trailer : Bytes} : SizeLine line 0 → Trailer trailer → Encodes (line ++ trailer) []
  | chunk {line data crs enc b : Bytes} : SizeLine line data.length → data ≠ [] → (∀ c ∈ crs, c = cr) →
      Encodes enc b → Encodes (line ++ data ++ crs ++ lf :: enc) (data ++ b)

/-- The decoder as `pgrest_http_body_chunked` sets it up. -/
def Decoder.init : Decoder := { consumeTrailer := true }

theorem lf_notMem_cons {c : UInt8} {l : Bytes} : lf ∉ c :: l ↔ c ≠ lf ∧ lf ∉ l := by
  rw [List.mem_cons, not_or, ne_comm]

/-! ### An encoding is read to its end -/

theorem scan_digits {digits : Bytes} {h n m : Nat} (l : Bytes) (hlen : h + digits.length ≤ 16)
    (hval : hexDigits n digits = some m) :
    scan Decoder.move ⟨n, true, h, .size⟩ (digits ++ l) =
      scan Decoder.move ⟨m, true, h + digits.length, .size⟩ l := by
  induction digits generalizing h n with
  | nil =>
    cases hval
    rfl
  | cons c digits ih =>
    obtain ⟨v, hv, hrest⟩ := Option.bind_eq_some_iff.mp hval
    simp only [List.length_cons] at hlen
    have h16 : h ≠ 16 := by omega
    simp only [List.cons_append, scan, Decoder.move, hv, if_neg h16, Scanned.after_nil]
    rw [ih (by omega) hrest, List.length_cons, Nat.add_right_comm, Nat.add_assoc]

/-- Where the line of a size ends. -/
def Decoder.line (n : Nat) : Decoder :=
  ⟨n, true, 0, if n = 0 then .trailersLineHead else .data⟩

theorem ext_lf (d : Decoder) (h : d.consumeTrailer = true) (hc : d.hexCount = 0) :
    d.ext lf = .next (.line d.bytesLeftInChunk) [] := by
  obtain ⟨n, _, _, _⟩ := d
  cases h
  cases hc
  by_cases hn : n = 0 <;> simp [Decoder.ext, Decoder.line, hn]

theorem scan_ext {ext : Bytes} {n : Nat} (l : Bytes) (hlf : lf ∉ ext) :
    scan Decoder.move ⟨n, true, 0, .ext⟩ (ext ++ lf :: l) = scan Decoder.move (.line n) l := by
  induction ext with
  | nil => simp only [List.nil_append, scan, Decoder.move, ext_lf ⟨n, true, 0, .ext⟩ rfl rfl, Scanned.after_nil]
  | cons c ext ih =>
    obtain ⟨hc, hext⟩ := lf_notMem_cons.mp hlf
    simp only [List.cons_append, scan, Decoder.move, Decoder.ext, if_neg hc, Scanned.after_nil,
      ih hext]

theorem scan_size_line {line : Bytes} {n : Nat} (h : SizeLine line n) (l : Bytes) :
    scan Decoder.move .init (line ++ l) = scan Decoder.move (.line n) l := by
  obtain ⟨hne, hlen, hval, hhead, hlf⟩ := h
  rename_i digits ext
  have hpos : digits.length ≠ 0 := fun h0 => hne (List.length_eq_zero_iff.mp h0)
  rw [Decoder.init, List.append_assoc, List.append_assoc, scan_digits (m := n) _ (by omega) hval]
  cases ext with
  | nil =>
    have hdec : decodeHex lf = none := by decide
    simp only [List.nil_append, List.singleton_append, scan, Decoder.move, hdec, Nat.zero_add, if_neg hpos]
    rw [ext_lf ⟨n, true, 0, .size⟩ rfl rfl]
    exact Scanned.after_nil _
  | cons c ext =>
    have hdec : decodeHex c = none := hhead c rfl
    obtain ⟨hc, hext⟩ := lf_notMem_cons.mp hlf
    simp only [List.cons_append, scan, Decoder.move, hdec, Nat.zero_add, if_neg hpos, Decoder.ext,
      if_neg hc, Scanned.after_nil]
    exact scan_ext l hext

theorem scan_data {data : Bytes} (l : Bytes) (hne : data ≠ []) :
    scan Decoder.move ⟨data.length, true, 0, .data⟩ (data ++ l) =
      (scan Decoder.move ⟨0, true, 0, .crlf⟩ l).after data := by
  induction data with
  | nil => exact absurd rfl hne
  | cons c data ih =>
    simp only [List.cons_append, scan, Decoder.move, List.length_cons, Nat.add_sub_cancel]
    cases data with
    | nil => rfl
    | cons c' data =>
      rw [if_neg (by simp), ih (by simp), Scanned.after_after]
      rfl

theorem scan_crlf {crs : Bytes} (l : Bytes) (hcrs : ∀ c ∈ crs, c = cr) :
    scan Decoder.move ⟨0, true, 0, .crlf⟩ (crs ++ lf :: l) = scan Decoder.move .init l := by
  induction crs with
  | nil =>
    have hne : lf ≠ cr := by decide
    simp [scan, Decoder.move, Decoder.init, hne]
  | cons c crs ih =>
    have hc := hcrs c List.mem_cons_self
    simp only [List.cons_append, scan, Decoder.move, hc, if_true, Scanned.after_nil]
    exact ih fun c' h => hcrs c' (List.mem_cons_of_mem _ h)

theorem scan_middle {m : Bytes} (l : Bytes) (hlf : lf ∉ m) :
    scan Decoder.move ⟨0, true, 0, .trailersLineMiddle⟩ (m ++ lf :: l) =
      scan Decoder.move ⟨0, true, 0, .trailersLineHead⟩ l := by
  induction m with
  | nil => simp [scan, Decoder.move]
  | cons c m ih =>
    obtain ⟨hc, hm⟩ := lf_notMem_cons.mp hlf
    simp only [List.cons_append, scan, Decoder.move, if_neg hc, Scanned.after_nil]
    exact ih hm

theorem scan_trailer {tr : Bytes} (h : Trailer tr) (t : Bytes) :
    scan Decoder.move ⟨0, true, 0, .trailersLineHead⟩ (tr ++ t) = .done [] t := by
  induction h with
  | done => rfl
  | cr _ ih => simpa [scan, Decoder.move] using ih
  | line hcr hlf hm _ ih =>
    simp only [List.append_assoc, List.cons_append, scan, Decoder.move, if_neg hcr, if_neg hlf,
      Scanned.after_nil]
    rw [scan_middle _ hm, ih]

/-- The decoder writes the body of an encoding and leaves what lies behind the encoding. -/
theorem scan_encodes {enc b : Bytes} (h : Encodes enc b) (t : Bytes) :
    scan Decoder.move .init (enc ++ t) = .done b t := by
  induction h with
  | last hline htr =>
    rw [List.append_assoc, scan_size_line hline]
    exact scan_trailer htr t
  | @chunk line data crs enc b hline hne hcrs _ ih =>
    have hpos : data.length ≠ 0 := fun h0 => hne (List.length_eq_zero_iff.mp h0)
    simp only [List.append_assoc, List.cons_append]
    rw [scan_size_line hline, Decoder.line, if_neg hpos, scan_data _ hne, scan_crlf _ hcrs, ih]
    rfl

/-! ### What is read to the end is an encoding -/

/-- What is left of an encoding of `b` in the `n` bytes left of a chunk, before `t`. -/
def InChunk (n : Nat) (l b t : Bytes) : Prop :=
  ∃ data crs enc b', data.length = n ∧ (∀ c ∈ crs, c = cr) ∧ Encodes enc b' ∧
    l = data ++ crs ++ lf :: (enc ++ t) ∧ b = data ++ b'

/-- What is left behind the line of a size. -/
def AfterLine (n : Nat) (l b t : Bytes) : Prop :=
  if n = 0 then ∃ tr, Trailer tr ∧ l = tr ++ t ∧ b = [] else InChunk n l b t

/-- What is left of an encoding of `b` where the decoder stands, before `t`. -/
def Decoder.Accepts (d : Decoder) (l b t : Bytes) : Prop :=
  match d.state with
  | .size => ∃ digits ext n rest, 0 < d.hexCount + digits.length ∧ d.hexCount + digits.length ≤ 16 ∧
      hexDigits d.bytesLeftInChunk digits = some n ∧ (∀ c ∈ ext.head?, decodeHex c = none) ∧ lf ∉ ext ∧
      l = digits ++ ext ++ lf :: rest ∧ AfterLine n rest b t
  | .ext => ∃ ext rest, lf ∉ ext ∧ l = ext ++ lf :: rest ∧ AfterLine d.bytesLeftInChunk rest b t
  | .data => InChunk d.bytesLeftInChunk l b t
  | .crlf => InChunk 0 l b t
  | .trailersLineHead => ∃ tr, Trailer tr ∧ l = tr ++ t ∧ b = []
  | .trailersLineMiddle => ∃ m tr, lf ∉ m ∧ Trailer tr ∧ l = m ++ lf :: (tr ++ t) ∧ b = []

/-- The states a decoder that consumes the trailer comes to. -/
structure Decoder.Valid (d : Decoder) : Prop where
  trailer : d.consumeTrailer = true
  count : d.hexCount ≤ 16
  counting : d.state ≠ .size → d.hexCount = 0
  left : d.state = .data → d.bytesLeftInChunk ≠ 0
  between : d.state = .crlf → d.bytesLeftInChunk = 0

theorem valid_init : Decoder.init.Valid := ⟨rfl, by decide, by decide, by decide, by decide⟩

theorem valid_line (n : Nat) : (Decoder.line n).Valid := by
  by_cases hn : n = 0 <;> constructor <;> simp [Decoder.line, hn]

theorem accepts_line {n : Nat} {l b t : Bytes} (h : (Decoder.line n).Accepts l b t) : AfterLine n l b t := by
  by_cases hn : n = 0
  · simpa [Decoder.line, Decoder.Accepts, AfterLine, hn] using h
  · simpa [Decoder.line, Decoder.Accepts, AfterLine, hn] using h

theorem encodes_of_accepts {l b t : Bytes} (h : Decoder.init.Accepts l b t) :
    ∃ enc, Encodes enc b ∧ l = enc ++ t := by
  obtain ⟨digits, ext, n, rest, hpos, hlen, hval, hhead, hlf, rfl, hrest⟩ := h
  have hne : digits ≠ [] := by
    rintro rfl
    exact absurd hpos (by decide)
  have hline : SizeLine (digits ++ ext ++ [lf]) n := .line hne (by simpa [Decoder.init] using hlen) hval hhead hlf
  by_cases hn : n = 0
  · rw [AfterLine, if_pos hn] at hrest
    obtain ⟨tr, htr, rfl, rfl⟩ := hrest
    exact ⟨_, .last (hn ▸ hline) htr, by simp⟩
  · rw [AfterLine, if_neg hn] at hrest
    obtain ⟨data, crs, enc, b', rfl, hcrs, henc, rfl, rfl⟩ := hrest
    have hdata : data ≠ [] := fun h => hn (h ▸ rfl)
    exact ⟨_, .chunk hline hdata hcrs henc, by simp⟩

/-- One byte in an extension. -/
theorem accepts_ext {n : Nat} {c : UInt8} {l b t : Bytes}
    (ih : ∀ d : Decoder, d.Valid → scan Decoder.move d l = .done b t → d.Accepts l b t)
    (h : scan Decoder.move ⟨n, true, 0, .ext⟩ (c :: l) = .done b t) :
    ∃ ext rest, lf ∉ ext ∧ c :: l = ext ++ lf :: rest ∧ AfterLine n rest b t := by
  by_cases hc : c = lf
  · rw [hc] at h ⊢
    rw [scan, Decoder.move] at h
    rw [ext_lf ⟨n, true, 0, .ext⟩ rfl rfl] at h
    simp only [Scanned.after_nil] at h
    exact ⟨[], l, by simp, rfl, accepts_line (ih _ (valid_line n) h)⟩
  · simp only [scan, Decoder.move, Decoder.ext, if_neg hc, Scanned.after_nil] at h
    obtain ⟨ext, rest, hlf, rfl, hrest⟩ := ih _ ⟨rfl, by simp, by simp, by simp, by simp⟩ h
    exact ⟨c :: ext, rest, lf_notMem_cons.mpr ⟨hc, hlf⟩, rfl, hrest⟩

theorem accepts_of_scan {l b t : Bytes} {d : Decoder} (hd : d.Valid)
    (h : scan Decoder.move d l = .done b t) : d.Accepts l b t := by
  induction l generalizing d b with
  | nil => simp [scan] at h
  | cons c l ih =>
    have ih' := fun d (hd : Decoder.Valid d) => @ih b d hd
    obtain ⟨n, trailer, count, state⟩ := d
    obtain ⟨rfl, hcount, hcounting, hleft, hbetween⟩ := hd
    have h0 : state ≠ .size → count = 0 := hcounting
    cases state with
    | size =>
      simp only [scan, Decoder.move] at h
      cases hdec : decodeHex c with
      | none =>
        simp only [hdec] at h
        by_cases hz : count = 0
        · simp [hz] at h
        · rw [if_neg hz] at h
          obtain ⟨ext, rest, hlf, hl, hrest⟩ := accepts_ext (n := n) ih' h
          refine ⟨[], ext, n, rest, Nat.pos_of_ne_zero hz, hcount, rfl, fun e he => ?_, hlf, hl, hrest⟩
          obtain ⟨ext', rfl⟩ : ∃ ext', ext = e :: ext' := List.head?_eq_some_iff.mp he
          cases hl
          exact hdec
      | some v =>
        simp only [hdec] at h
        by_cases h16 : count = 16
        · simp [h16] at h
        · simp only [if_neg h16, Scanned.after_nil] at h
          have hlt : count < 16 := Nat.lt_of_le_of_ne hcount h16
          obtain ⟨digits, ext, m, rest, -, hle, hval, hhead, hlf, rfl, hrest⟩ :=
            @ih b ⟨n * 16 + v, true, count + 1, .size⟩ ⟨rfl, hlt, by simp, by simp, by simp⟩ h
          refine ⟨c :: digits, ext, m, rest, Nat.succ_pos _, ?_, ?_, hhead, hlf, rfl, hrest⟩
          · simpa [Nat.add_right_comm, Nat.add_assoc] using hle
          · simpa [hexDigits, hdec] using hval
    | ext =>
      cases h0 (by simp)
      exact accepts_ext ih' h
    | data =>
      cases h0 (by simp)
      have hn : n ≠ 0 := hleft rfl
      simp only [scan, Decoder.move] at h
      obtain ⟨b', hscan, rfl⟩ := Scanned.after_eq_done h
      obtain ⟨data, crs, enc, b', hlen, hcrs, henc, rfl, rfl⟩ : InChunk (n - 1) l b' t := by
        by_cases hl : n - 1 = 0
        · rw [hl] at hscan ⊢
          exact ih (d := ⟨0, true, 0, .crlf⟩) ⟨rfl, by simp, by simp, by simp, by simp⟩ hscan
        · rw [if_neg hl] at hscan
          exact ih (d := ⟨n - 1, true, 0, .data⟩) ⟨rfl, by simp, by simp, fun _ => hl, by simp⟩ hscan
      exact ⟨c :: data, crs, enc, b', by simp only [List.length_cons, hlen]; omega, hcrs, henc, rfl, rfl⟩
    | crlf =>
      cases h0 (by simp)
      cases hbetween rfl
      simp only [scan, Decoder.move] at h
      by_cases hcr : c = cr
      · simp only [hcr, if_true, Scanned.after_nil] at h ⊢
        obtain ⟨data, crs, enc, b', hlen, hcrs, henc, rfl, rfl⟩ :=
          ih (d := ⟨0, true, 0, .crlf⟩) ⟨rfl, by simp, by simp, by simp, by simp⟩ h
        cases List.length_eq_zero_iff.mp hlen
        exact ⟨[], cr :: crs, enc, b', rfl, by simpa using hcrs, henc, rfl, rfl⟩
      · rw [if_neg hcr] at h
        by_cases hlf : c = lf
        · simp only [hlf, if_true, Scanned.after_nil] at h ⊢
          obtain ⟨enc, henc, rfl⟩ := encodes_of_accepts (ih valid_init h)
          exact ⟨[], [], enc, b, rfl, by simp, henc, rfl, rfl⟩
        · simp [hlf] at h
    | trailersLineHead =>
      cases h0 (by simp)
      simp only [scan, Decoder.move] at h
      by_cases hcr : c = cr
      · simp only [hcr, if_true, Scanned.after_nil] at h ⊢
        obtain ⟨tr, htr, rfl, rfl⟩ :=
          ih (d := ⟨n, true, 0, .trailersLineHead⟩) ⟨rfl, by simp, by simp, by simp, by simp⟩ h
        exact ⟨cr :: tr, htr.cr, rfl, rfl⟩
      · rw [if_neg hcr] at h
        by_cases hlf : c = lf
        · simp only [hlf, if_true] at h ⊢
          cases h
          exact ⟨[lf], .done, rfl, rfl⟩
        · simp only [if_neg hlf, Scanned.after_nil] at h
          obtain ⟨m, tr, hm, htr, rfl, rfl⟩ :=
            ih (d := ⟨n, true, 0, .trailersLineMiddle⟩) ⟨rfl, by simp, by simp, by simp, by simp⟩ h
          exact ⟨c :: m ++ lf :: tr, .line hcr hlf hm htr, by simp, rfl⟩
    | trailersLineMiddle =>
      cases h0 (by simp)
      simp only [scan, Decoder.move] at h
      by_cases hlf : c = lf
      · simp only [hlf, if_true, Scanned.after_nil] at h ⊢
        obtain ⟨tr, htr, rfl, rfl⟩ :=
          ih (d := ⟨n, true, 0, .trailersLineHead⟩) ⟨rfl, by simp, by simp, by simp, by simp⟩ h
        exact ⟨[], tr, by simp, htr, rfl, rfl⟩
      · simp only [if_neg hlf, Scanned.after_nil] at h
        obtain ⟨m, tr, hm, htr, rfl, rfl⟩ :=
          ih (d := ⟨n, true, 0, .trailersLineMiddle⟩) ⟨rfl, by simp, by simp, by simp, by simp⟩ h
        exact ⟨c :: m, tr, lf_notMem_cons.mpr ⟨hlf, hm⟩, htr, rfl, rfl⟩

/-- Whatever the decoder reads to the end starts with an encoding of what it writes. -/
theorem encodes_of_scan {l b t : Bytes} (h : scan Decoder.move .init l = .done b t) :
    ∃ enc, Encodes enc b ∧ l = enc ++ t :=
  encodes_of_accepts (accepts_of_scan valid_init h)

theorem encodes_of_scan_nil {enc b : Bytes} (h : scan Decoder.move .init enc = .done b []) : Encodes enc b := by
  obtain ⟨enc', henc, rfl⟩ := encodes_of_scan h
  rwa [List.append_nil]

end PgRest.Http
