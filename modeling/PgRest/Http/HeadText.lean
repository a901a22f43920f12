import PgRest.Http.Phr

/-! The text of a request head: lines of which only the last is empty. What the parser
accepts is such a text, the count of line ends in `is_complete` sees where it ends, and so
a head that is cut anywhere is incomplete up to its last byte and then complete. -/
namespace PgRest.Http
open Lib

variable {s s' r : PhrRequest} {l rest v w : Bytes} {c : UInt8} {u : Unit} {n : Nat}

/-- A line ends here. -/
def LineEnd (l rest : Bytes) : Prop := l = cr :: lf :: rest ∨ l = lf :: rest

theorem lineEndOr_end (h : LineEnd l rest) (other : Phr Unit) (s : PhrRequest) :
    lineEndOr other s l = .ok s () rest := by
  rcases h with rfl | rfl <;> rfl

theorem lineEndOr_other (h : c ≠ cr) (h' : c ≠ lf) (other : Phr Unit) (s : PhrRequest) :
    lineEndOr other s (c :: l) = other s (c :: l) := by
  show (if c = cr then _ else if c = lf then _ else other : Phr Unit) s (c :: l) = _
  rw [if_neg h, if_neg h']

theorem lineEndOr_ok {other : Phr Unit} (h : lineEndOr other s l = .ok s' u rest) :
    (s' = s ∧ LineEnd l rest) ∨
      (∃ c t, l = c :: t ∧ c ≠ cr ∧ c ≠ lf) ∧ other s l = .ok s' u rest := by
  cases l with
  | nil => cases h
  | cons c t =>
    by_cases hcr : c = cr
    · subst hcr
      obtain ⟨rfl, rfl⟩ := Parser.expect_ok.mp (h : Parser.expect lf s t = _)
      exact Or.inl ⟨rfl, Or.inl rfl⟩
    by_cases hlf : c = lf
    · subst hlf
      have hlf : lineEndOr other s (lf :: t) = .ok s () t := lineEndOr_end (Or.inr rfl) other s
      rw [hlf] at h
      cases h
      exact Or.inl ⟨rfl, Or.inr rfl⟩
    · rw [lineEndOr_other hcr hlf] at h
      exact Or.inr ⟨⟨c, t, rfl, hcr, hlf⟩, h⟩

/-! ### Lines -/

/-- No line ends in these bytes. -/
def Plain (w : Bytes) : Prop := ∀ c ∈ w, c ≠ cr ∧ c ≠ lf

instance (w : Bytes) : Decidable (Plain w) :=
  List.decidableBAll (fun c => c ≠ cr ∧ c ≠ lf) w

theorem Plain.append (hv : Plain v) (hw : Plain w) : Plain (v ++ w) := fun c hc =>
  (List.mem_append.mp hc).elim (hv c) (hw c)

/-- What a head ends with, behind `n` line ends. -/
inductive HeadText : Nat → Bytes → Prop
  | lf : HeadText 1 [lf]
  | crlf : HeadText 1 [cr, lf]
  | byte {n : Nat} {c : UInt8} {v : Bytes} : c ≠ cr → c ≠ Http.lf → HeadText 0 v → HeadText n (c :: v)
  | lineLf {v : Bytes} : HeadText 1 v → HeadText 0 (Http.lf :: v)
  | lineCrlf {v : Bytes} : HeadText 1 v → HeadText 0 (cr :: Http.lf :: v)

namespace HeadText

theorem plain (hw : Plain w) (hv : HeadText 0 v) : HeadText 0 (w ++ v) := by
  induction w with
  | nil => exact hv
  | cons c w ih =>
    have hc := hw c (List.mem_cons_self ..)
    exact .byte hc.1 hc.2 (ih fun d hd => hw d (List.mem_cons_of_mem c hd))

/-- A line with text in it does not look at what is before it. -/
theorem text (hne : w ≠ []) (hw : Plain w) (hv : HeadText 0 v) : HeadText n (w ++ v) := by
  cases w with
  | nil => exact absurd rfl hne
  | cons c w =>
    have hc := hw c (List.mem_cons_self ..)
    exact .byte hc.1 hc.2 (.plain (fun d hd => hw d (List.mem_cons_of_mem c hd)) hv)

/-- A line ends, and what is behind it is a head's end. -/
theorem ofLineEnd (h : LineEnd l rest) (hv : HeadText 1 v) : ∃ e, l = e ++ rest ∧ HeadText 0 (e ++ v) := by
  rcases h with rfl | rfl
  · exact ⟨[cr, Http.lf], rfl, .lineCrlf hv⟩
  · exact ⟨[Http.lf], rfl, .lineLf hv⟩

/-- An end of a head, but for its last bytes, is one wherever the count of line ends starts. -/
theorem suffix {a : Bytes} (h : HeadText n (a ++ w)) (hw : 3 ≤ w.length) : HeadText 0 w := by
  generalize ht : a ++ w = t at h
  induction h generalizing a with
  | lf =>
    have := congrArg List.length ht
    simp at this
    omega
  | crlf =>
    have := congrArg List.length ht
    simp at this
    omega
  | byte hc hc' hv ih =>
    cases a with
    | nil =>
      cases ht
      exact .byte hc hc' hv
    | cons d a => exact ih (List.cons.inj ht).2
  | lineLf hv ih =>
    cases a with
    | nil =>
      cases ht
      exact .lineLf hv
    | cons d a => exact ih (List.cons.inj ht).2
  | lineCrlf hv ih =>
    cases a with
    | nil =>
      cases ht
      exact .lineCrlf hv
    | cons d a =>
      cases a with
      | nil =>
        obtain ⟨-, rfl⟩ := List.cons.inj ht
        exact .lineLf hv
      | cons e a => exact ih (List.cons.inj (List.cons.inj ht).2).2

/-- The count of line ends comes to two where the head ends. -/
theorem complete (h : HeadText n v) (x : Bytes) : isComplete n (v ++ x) = .ok () () x := by
  induction h with
  | lf => exact isComplete_lf 1 x
  | crlf => exact isComplete_crlf 1 x
  | byte hc hc' _ ih => exact (isComplete_byte hc hc' _ _).trans ih
  | lineLf _ ih => exact (isComplete_lf 0 _).trans ih
  | lineCrlf _ ih => exact (isComplete_crlf 0 _).trans ih

/-- Nowhere before that. -/
theorem incomplete {d x : Bytes} (h : HeadText n v) (hd : d ++ x = v) (hx : x ≠ []) :
    isComplete n d = .again () := by
  have hshort {e : Bytes} (h : e ++ x = []) : False := hx (List.append_eq_nil_iff.mp h).2
  induction h generalizing d with
  | lf =>
    cases d with
    | nil => rfl
    | cons c d => exact (hshort (List.cons.inj hd).2).elim
  | crlf =>
    match d, hd with
    | [], _ => rfl
    | [_], hd =>
      cases hd
      rfl
    | _ :: _ :: d, hd => exact (hshort (List.cons.inj (List.cons.inj hd).2).2).elim
  | byte hc hc' _ ih =>
    cases d with
    | nil => rfl
    | cons e d =>
      obtain ⟨rfl, htail⟩ := List.cons.inj hd
      exact (isComplete_byte hc hc' _ _).trans (ih htail)
  | lineLf _ ih =>
    cases d with
    | nil => rfl
    | cons e d =>
      obtain ⟨rfl, htail⟩ := List.cons.inj hd
      exact (isComplete_lf 0 _).trans (ih htail)
  | lineCrlf _ ih =>
    match d, hd with
    | [], _ => rfl
    | [_], hd =>
      obtain ⟨rfl, -⟩ := List.cons.inj hd
      rfl
    | _ :: _ :: d, hd =>
      obtain ⟨rfl, htail⟩ := List.cons.inj hd
      obtain ⟨rfl, htail'⟩ := List.cons.inj htail
      exact (isComplete_crlf 0 _).trans (ih htail')

end HeadText

/-! ### What is accepted is a head's text -/

theorem plain_of {stop : UInt8 → Bool} (hcr : stop cr = true) (hlf : stop lf = true)
    (h : ∀ c ∈ w, stop c = false) : Plain w := by
  intro c hc
  have hstop := h c hc
  constructor
  · rintro rfl
    simp [hcr] at hstop
  · rintro rfl
    simp [hlf] at hstop

theorem getTokenToEol_ok {token : Bytes} (h : getTokenToEol s l = .ok s' token rest) :
    s' = s ∧ ∃ w e, l = w ++ e ∧ Plain w ∧ LineEnd e rest := by
  obtain ⟨s₁, token, l₁, htoken, h₁⟩ := Parser.bind_ok.mp h
  obtain ⟨s₂, _, l₂, hend, h₂⟩ := Parser.bind_ok.mp h₁
  obtain ⟨rfl, -, rfl⟩ := Parser.pure_ok.mp h₂
  obtain ⟨rfl, rfl, hall, -⟩ := Parser.takeUntil_ok htoken
  rcases lineEndOr_ok hend with ⟨rfl, he⟩ | ⟨-, hfail⟩
  · exact ⟨rfl, token, l₁, rfl, plain_of (by decide) (by decide) fun c hc => (hall c hc).1, he⟩
  · cases hfail

theorem parseName_ok {name : Bytes} (h : parseName s l = .ok s' name rest) :
    s' = s ∧ ∃ w, l = w ++ rest ∧ Plain w := by
  obtain ⟨s₁, name, l₁, hname, h₁⟩ := Parser.bind_ok.mp h
  obtain ⟨rfl, rfl, hall, a, l₂, rfl, hcolon⟩ := Parser.takeUntil_ok hname
  have hplain : Plain name := plain_of (by decide) (by decide) fun c hc => (hall c hc).2
  split at h₁
  · cases h₁
  obtain ⟨s₂, _, l₃, hnext, h₂⟩ := Parser.bind_ok.mp h₁
  obtain ⟨rfl, heq⟩ := Parser.next_ok.mp hnext
  cases heq
  obtain ⟨s₃, blanks, l₄, hblanks, h₃⟩ := Parser.bind_ok.mp h₂
  obtain ⟨rfl, -, rfl⟩ := Parser.pure_ok.mp h₃
  obtain ⟨rfl, rfl, hblank, -⟩ := Parser.takeUntil_ok hblanks
  have hplain' : Plain [a] := by
    rw [beq_iff_eq.mp hcolon]
    exact (by decide : Plain [colon])
  refine ⟨rfl, name ++ ([a] ++ blanks), by simp, hplain.append (hplain'.append ?_)⟩
  exact plain_of (by decide) (by decide) fun c hc => (hblank c hc).1

theorem parseLineName_ok {name : Option Bytes} (h : parseLineName s l = .ok s' name rest) :
    s' = s ∧ ∃ w, l = w ++ rest ∧ Plain w := by
  obtain ⟨s₁, c, l₁, hpeek, h₁⟩ := Parser.bind_ok.mp h
  obtain ⟨rfl, rfl, -⟩ := Parser.peek_ok.mp hpeek
  obtain ⟨s₂, r, l₂, hget, h₂⟩ := Parser.bind_ok.mp h₁
  obtain ⟨⟨rfl, rfl⟩, rfl⟩ := Parser.get_ok.mp hget
  split at h₂
  · obtain ⟨rfl, -, rfl⟩ := Parser.pure_ok.mp h₂
    exact ⟨rfl, [], rfl, by simp [Plain]⟩
  · obtain ⟨s₃, name, l₃, hname, h₃⟩ := Parser.bind_ok.mp h₂
    obtain ⟨rfl, -, rfl⟩ := Parser.pure_ok.mp h₃
    exact parseName_ok hname

/-- A header is a line with text in it. -/
theorem parseHeader_ok (h : parseHeader s l = .ok s' u rest) :
    (∃ header, s' = s.addHeader header) ∧ ∃ w e, l = w ++ e ∧ Plain w ∧ LineEnd e rest := by
  obtain ⟨s₁, name, l₁, hname, h₁⟩ := Parser.bind_ok.mp h
  obtain ⟨rfl, w, rfl, hw⟩ := parseLineName_ok hname
  obtain ⟨s₂, value, l₂, hvalue, h₂⟩ := Parser.bind_ok.mp h₁
  obtain ⟨rfl, w', e, rfl, hw', he⟩ := getTokenToEol_ok hvalue
  obtain ⟨rfl, rfl⟩ := Parser.modify_ok.mp h₂
  exact ⟨⟨_, rfl⟩, w ++ w', e, (List.append_assoc ..).symm, hw.append hw', he⟩

theorem headText_lineEnd (h : LineEnd l rest) : ∃ v, l = v ++ rest ∧ HeadText 1 v := by
  rcases h with rfl | rfl
  · exact ⟨[cr, lf], rfl, .crlf⟩
  · exact ⟨[lf], rfl, .lf⟩

theorem parseHeaders_text {room : Nat} (h : parseHeaders room s l = .ok s' u rest) :
    ∃ v, l = v ++ rest ∧ HeadText 1 v := by
  induction room generalizing s l with
  | zero =>
    rcases lineEndOr_ok h with ⟨-, he⟩ | ⟨-, hfail⟩
    · exact headText_lineEnd he
    · cases hfail
  | succ room ih =>
    rcases lineEndOr_ok h with ⟨-, he⟩ | ⟨⟨c, t, rfl, hcr, hlf⟩, hline⟩
    · exact headText_lineEnd he
    · obtain ⟨s₁, _, l₁, hheader, hmore⟩ := Parser.bind_ok.mp hline
      obtain ⟨v, rfl, hv⟩ := ih hmore
      obtain ⟨-, w, e, heq, hw, he⟩ := parseHeader_ok hheader
      obtain ⟨e', rfl, hev⟩ := HeadText.ofLineEnd he hv
      have hne : w ≠ [] := by
        rintro rfl
        rcases he with he | he
        · exact hcr (List.cons.inj (heq.trans he)).1
        · exact hlf (List.cons.inj (heq.trans he)).1
      exact ⟨w ++ (e' ++ v), by simpa using heq, .text hne hw hev⟩

theorem advanceToken_ok {token : Bytes} (h : advanceToken s l = .ok s' token rest) :
    s' = s ∧ l = token ++ rest ∧ Plain token ∧ ∃ t, rest = sp :: t := by
  obtain ⟨rfl, rfl, hall, a, t, rfl, hstop⟩ := Parser.takeUntil_ok h
  refine ⟨rfl, rfl, plain_of (by decide) (by decide) fun c hc => (hall c hc).2, t, ?_⟩
  rw [beq_iff_eq.mp hstop]

theorem parseInt_ok {v : Int32} (h : parseInt s l = .ok s' v rest) :
    s' = s ∧ ∃ w, l = w ++ rest ∧ Plain w := by
  obtain ⟨s₁, c, l₁, hpeek, h₁⟩ := Parser.bind_ok.mp h
  obtain ⟨rfl, rfl, -⟩ := Parser.peek_ok.mp hpeek
  split at h₁
  · obtain ⟨s₂, digits, l₂, hdigits, h₂⟩ := Parser.bind_ok.mp h₁
    obtain ⟨rfl, -, rfl⟩ := Parser.pure_ok.mp h₂
    obtain ⟨rfl, rfl, hall, -⟩ := Parser.takeUntil_ok hdigits
    exact ⟨rfl, digits, rfl, plain_of (by decide) (by decide) fun c hc => (hall c hc).1⟩
  · cases h₁

theorem parseHttpVersion_ok {v : Int32} (h : parseHttpVersion s l = .ok s' v rest) :
    s' = s ∧ ∃ w, l = w ++ rest ∧ Plain w := by
  obtain ⟨s₁, _, l₁, hhttp, h₁⟩ := Parser.bind_ok.mp h
  obtain ⟨rfl, rfl⟩ := Parser.expectAll_ok hhttp
  obtain ⟨rfl, w, rfl, hw⟩ := parseInt_ok h₁
  exact ⟨rfl, _, (List.append_assoc ..).symm, Plain.append (by decide) hw⟩

/-- The request line has text in it, a blank at least. -/
theorem parseRequestLine_ok (h : parseRequestLine s l = .ok s' u rest) :
    s'.headers = s.headers ∧ ∃ w e, l = w ++ e ∧ w ≠ [] ∧ Plain w ∧ LineEnd e rest := by
  obtain ⟨s₁, method, l₁, hmethod, h₁⟩ := Parser.bind_ok.mp h
  obtain ⟨s₂, _, l₂, hset, h₂⟩ := Parser.bind_ok.mp h₁
  obtain ⟨s₃, _, l₃, hnext, h₃⟩ := Parser.bind_ok.mp h₂
  obtain ⟨s₄, path, l₄, hpath, h₄⟩ := Parser.bind_ok.mp h₃
  obtain ⟨s₅, _, l₅, hset', h₅⟩ := Parser.bind_ok.mp h₄
  obtain ⟨s₆, _, l₆, hnext', h₆⟩ := Parser.bind_ok.mp h₅
  obtain ⟨s₇, version, l₇, hversion, h₇⟩ := Parser.bind_ok.mp h₆
  obtain ⟨s₈, _, l₈, hset'', hend⟩ := Parser.bind_ok.mp h₇
  obtain ⟨rfl, rfl, hm, t, rfl⟩ := advanceToken_ok hmethod
  obtain ⟨rfl, rfl⟩ := Parser.modify_ok.mp hset
  obtain ⟨rfl, heq⟩ := Parser.next_ok.mp hnext
  obtain ⟨-, rfl⟩ := List.cons.inj heq
  obtain ⟨rfl, rfl, hp, t', rfl⟩ := advanceToken_ok hpath
  obtain ⟨rfl, rfl⟩ := Parser.modify_ok.mp hset'
  obtain ⟨rfl, heq'⟩ := Parser.next_ok.mp hnext'
  obtain ⟨-, rfl⟩ := List.cons.inj heq'
  obtain ⟨rfl, w, rfl, hw⟩ := parseHttpVersion_ok hversion
  obtain ⟨rfl, rfl⟩ := Parser.modify_ok.mp hset''
  rcases lineEndOr_ok hend with ⟨rfl, he⟩ | ⟨-, hfail⟩
  · have hsp : Plain [sp] := by decide
    refine ⟨rfl, method ++ ([sp] ++ (path ++ ([sp] ++ w))), l₈, by simp, by simp, ?_, he⟩
    exact hm.append (hsp.append (hp.append (hsp.append hw)))
  · cases hfail

/-- What is accepted is a head's text, with a line end before it or not. -/
theorem parseRequest_text {room : Nat} (h : parseRequest room s l = .ok s' u rest) :
    ∃ v, l = v ++ rest ∧ HeadText 0 v := by
  obtain ⟨s₁, _, l₁, hempty, h₁⟩ := Parser.bind_ok.mp h
  obtain ⟨s₂, _, l₂, hline, hheaders⟩ := Parser.bind_ok.mp h₁
  obtain ⟨v, rfl, hv⟩ := parseHeaders_text hheaders
  obtain ⟨-, w, e, rfl, hne, hw, he⟩ := parseRequestLine_ok hline
  obtain ⟨e', rfl, hev⟩ := HeadText.ofLineEnd he hv
  have htext : ∀ n, HeadText n (w ++ (e' ++ v)) := fun n => .text hne hw hev
  rcases lineEndOr_ok hempty with ⟨-, he⟩ | ⟨-, hno⟩
  · obtain ⟨e₀, rfl, hev⟩ := HeadText.ofLineEnd he (htext 1)
    exact ⟨_, by simp, hev⟩
  · obtain ⟨-, -, rfl⟩ := Parser.pure_ok.mp hno
    exact ⟨_, by simp, htext 0⟩
/-! ### Room for headers -/

theorem parseHeaders_line {room : Nat} (h : c ≠ cr) (h' : c ≠ lf) :
    parseHeaders (room + 1) s (c :: l) = (parseHeader >>= fun _ => parseHeaders room) s (c :: l) :=
  lineEndOr_other h h' _ s

theorem parseHeaders_end {room : Nat} (h : LineEnd l rest) : parseHeaders room s l = .ok s () rest := by
  cases room with
  | zero => exact lineEndOr_end h _ s
  | succ room => exact lineEndOr_end h _ s

/-- Headers that are accepted with some room are accepted with any other that they fit in, and
only with that. -/
theorem parseHeaders_room {room : Nat} (h : parseHeaders room s l = .ok s' u rest) :
    ∃ k, s'.headers.length = s.headers.length + k ∧ ∀ room',
      (k ≤ room' → parseHeaders room' s l = .ok s' u rest) ∧
      (room' < k → ∃ e, parseHeaders room' s l = .error e) := by
  induction room generalizing s l with
  | zero =>
    rcases lineEndOr_ok h with ⟨rfl, he⟩ | ⟨-, hfail⟩
    · exact ⟨0, rfl, fun room' => ⟨fun _ => parseHeaders_end he, fun h => absurd h (Nat.not_lt_zero _)⟩⟩
    · cases hfail
  | succ room ih =>
    rcases lineEndOr_ok h with ⟨rfl, he⟩ | ⟨⟨c, t, rfl, hcr, hlf⟩, hline⟩
    · exact ⟨0, rfl, fun room' => ⟨fun _ => parseHeaders_end he, fun h => absurd h (Nat.not_lt_zero _)⟩⟩
    · obtain ⟨s₁, _, l₁, hheader, hmore⟩ := Parser.bind_ok.mp hline
      obtain ⟨⟨header, rfl⟩, -⟩ := parseHeader_ok hheader
      obtain ⟨k, hk, hroom⟩ := ih hmore
      refine ⟨k + 1, ?_, fun room' => ?_⟩
      · rw [hk]
        simp only [PhrRequest.addHeader, List.length_append, List.length_singleton]
        omega
      cases room' with
      | zero => exact ⟨fun h => by omega, fun _ => ⟨s, lineEndOr_other hcr hlf _ s⟩⟩
      | succ room' =>
        rw [parseHeaders_line hcr hlf, Parser.bind_eq, hheader]
        obtain ⟨hfits, hfull⟩ := hroom room'
        exact ⟨fun h => hfits (by omega), fun h => hfull (by omega)⟩

theorem parseRequest_room {room : Nat} (hs : s.headers = []) (h : parseRequest room s l = .ok s' u rest)
    (room' : Nat) : (s'.headers.length ≤ room' → parseRequest room' s l = .ok s' u rest) ∧
      (room' < s'.headers.length → ∃ e, parseRequest room' s l = .error e) := by
  obtain ⟨s₁, _, l₁, hempty, h₁⟩ := Parser.bind_ok.mp h
  obtain ⟨s₂, _, l₂, hline, hheaders⟩ := Parser.bind_ok.mp h₁
  have hs₁ : s₁ = s := by
    rcases lineEndOr_ok hempty with ⟨rfl, -⟩ | ⟨-, hno⟩
    · rfl
    · exact (Parser.pure_ok.mp hno).1
  have hs₂ : s₂.headers = [] := by rw [(parseRequestLine_ok hline).1, hs₁, hs]
  obtain ⟨k, hk, hroom⟩ := parseHeaders_room hheaders
  rw [hs₂, List.length_nil, Nat.zero_add] at hk
  rw [hk, parseRequest, Parser.bind_eq, hempty]
  dsimp only
  rw [Parser.bind_eq, hline]
  exact hroom room'

/-! ### Heads that are cut -/

/-- A fresh call accepts the head `h` starts with: `n` bytes. -/
def Accepted (h : Bytes) (r : PhrRequest) (n : Nat) : Prop :=
  phrParseRequest h maxHeaders 0 = (r, .complete n)

instance (h : Bytes) (r : PhrRequest) (n : Nat) : Decidable (Accepted h r n) :=
  inferInstanceAs (Decidable (_ = _))

variable {h d : Bytes} {room last : Nat}

theorem accepted_parses (hacc : Accepted h r n) : ∃ rest, parseRequest maxHeaders {} h = .ok r () rest ∧
    n = h.length - rest.length := by
  rw [Accepted, phrParseRequest, if_pos rfl] at hacc
  dsimp only at hacc
  split at hacc
  · next r' u rest hp =>
    simp only [Prod.mk.injEq, PhrRet.complete.injEq] at hacc
    exact ⟨rest, by rw [hp, hacc.1], hacc.2.symm⟩
  · cases hacc
  · cases hacc

theorem phr_passes {lastLen : Nat} {rest : Bytes} (h : lastLen = 0 ∨ isComplete 0 (d.drop (lastLen - 3)) = .ok () () rest)
    (numHeaders : Nat) : phrParseRequest d numHeaders lastLen = phrParseRequest d numHeaders 0 := by
  by_cases h0 : lastLen = 0
  · rw [h0]
  · rw [phrParseRequest, if_neg h0, h.resolve_left h0]
    rfl

/-- What has been received has all of the head, and before it had not: whatever the parser was
told of the call before, it finds the head if there is room for the headers. -/
theorem phr_whole (room : Nat) (hacc : Accepted h r n) (hd : d <+: h) (hn : n ≤ d.length) (hlast : last < n) :
    (r.headers.length ≤ room → phrParseRequest d room last = (r, .complete n)) ∧
      (room < r.headers.length → (phrParseRequest d room last).2 = .error) := by
  obtain ⟨rest, hp, hlen⟩ := accepted_parses hacc
  obtain ⟨x, rfl⟩ := hd
  obtain ⟨v, hv, htext⟩ := parseRequest_text hp
  have hvn : v.length = n := by
    have := congrArg List.length hv
    simp only [List.length_append] at this hlen
    omega
  -- the parser finds the head within `d`
  have hpart : ∃ rest', parseRequest maxHeaders {} d = .ok r () rest' ∧ rest = rest' ++ x := by
    rcases (stable_parseRequest _).cut hp with hwhole | ⟨hlt, -⟩
    · exact hwhole
    · have := congrArg List.length hv
      simp only [List.length_append] at this
      omega
  obtain ⟨rest', hpd, rfl⟩ := hpart
  have hvd : d = v ++ rest' := by
    rw [← List.append_assoc] at hv
    exact List.append_cancel_right hv
  have hquick : last = 0 ∨ isComplete 0 (d.drop (last - 3)) = .ok () () rest' := by
    refine Or.inr ?_
    obtain ⟨a, w, rfl, hw⟩ : ∃ a w, v = a ++ w ∧ a.length = last - 3 :=
      ⟨v.take (last - 3), v.drop (last - 3), (List.take_append_drop _ _).symm, by simp; omega⟩
    have hsuffix : HeadText 0 w := by
      by_cases h3 : last ≤ 3
      · have : a = [] := List.length_eq_zero_iff.mp (by omega)
        rw [this] at htext
        exact htext
      · exact htext.suffix (by simp only [List.length_append] at hvn; omega)
    rw [hvd, List.append_assoc, List.drop_left' hw]
    exact hsuffix.complete rest'
  rw [phr_passes hquick]
  obtain ⟨hfits, hfull⟩ := parseRequest_room rfl hpd room
  rw [phrParseRequest, if_pos rfl]
  constructor
  · intro hle
    simp only [hfits hle, Prod.mk.injEq, PhrRet.complete.injEq, true_and]
    rw [hvd, List.length_append, hvn]
    omega
  · intro hlt
    obtain ⟨e, he⟩ := hfull hlt
    simp only [he]

/-- What has been received does not have all of the head: the first call parses it, and any other
only counts line ends. -/
theorem phr_part (room last : Nat) (hacc : Accepted h r n) (hd : d <+: h) (hn : d.length < n) :
    (phrParseRequest d maxHeaders 0).2 = .again ∧
      (last ≠ 0 → last ≤ d.length → phrParseRequest d room last = ({}, .again)) := by
  obtain ⟨rest, hp, hlen⟩ := accepted_parses hacc
  obtain ⟨x, rfl⟩ := hd
  obtain ⟨v, hv, htext⟩ := parseRequest_text hp
  have hvn : v.length = n := by
    have := congrArg List.length hv
    simp only [List.length_append] at this hlen
    omega
  constructor
  · rw [phrParseRequest, if_pos rfl]
    rcases (stable_parseRequest _).cut hp with ⟨rest', -, rfl⟩ | ⟨-, s, hs⟩
    · simp only [List.length_append] at hlen
      omega
    · simp only [hs]
  · intro hne hle
    obtain ⟨y, hy, rfl⟩ : ∃ y, d ++ y = v ∧ x = y ++ rest := by
      obtain ⟨y, rfl⟩ : d <+: v := List.prefix_of_prefix_length_le (List.prefix_append d x)
        (hv ▸ List.prefix_append v rest) (by omega)
      exact ⟨y, rfl, List.append_cancel_left (by rw [hv, List.append_assoc])⟩
    have hyne : y ≠ [] := by
      rintro rfl
      rw [List.append_nil] at hy
      rw [← hy] at hvn
      omega
    have hquick : isComplete 0 (d.drop (last - 3)) = .again () := by
      obtain ⟨a, w, rfl, hw⟩ : ∃ a w, d = a ++ w ∧ a.length = last - 3 :=
        ⟨d.take (last - 3), d.drop (last - 3), (List.take_append_drop _ _).symm, by simp; omega⟩
      rw [List.append_assoc] at hy
      have hsuffix : HeadText 0 (w ++ y) := by
        rw [← hy] at htext hvn
        by_cases h3 : last ≤ 3
        · have : a = [] := List.length_eq_zero_iff.mp (by omega)
          rw [this] at htext
          exact htext
        · refine htext.suffix ?_
          simp only [List.length_append] at hn hle hvn ⊢
          omega
      rw [List.drop_left' hw]
      exact hsuffix.incomplete rfl hyne
    rw [phrParseRequest, if_neg hne, hquick]

/-! ### More of the stream -/

theorem accepted_le (h : Accepted l r n) : n ≤ l.length := by
  obtain ⟨rest, -, rfl⟩ := accepted_parses h
  exact Nat.sub_le _ _

theorem accepted_append (h : Accepted l r n) (more : Bytes) : Accepted (l ++ more) r n := by
  obtain ⟨rest, hp, rfl⟩ := accepted_parses h
  have hreads := (stable_parseRequest maxHeaders).reads hp
  rw [Accepted, phrParseRequest, if_pos rfl]
  dsimp only
  rw [(stable_parseRequest maxHeaders).ok more hp]
  simp only [List.length_append, Prod.mk.injEq, PhrRet.complete.injEq, true_and]
  omega

theorem accepted_unique {r' : PhrRequest} {n' : Nat} (h : Accepted l r n) (h' : Accepted l r' n') : r = r' ∧ n = n' := by
  have heq := Eq.trans (Eq.symm h) h'
  simp only [Prod.mk.injEq, PhrRet.complete.injEq] at heq
  exact heq

/-! ### Heads that come out of any call -/

/-- `*num_headers` is never more than it was. -/
theorem adds_lineEndOr {k : Nat} {other : Phr Unit} (h : Parser.Adds (·.headers.length) k other) :
    Parser.Adds (·.headers.length) k (lineEndOr other) := by
  refine .andThen .peek fun c => ?_
  split
  · exact .andThen .next fun _ => .weaken (.expect lf) (Nat.zero_le k)
  split
  · exact .weaken (.expect lf) (Nat.zero_le k)
  · exact h

theorem adds_parseHeader : Parser.Adds (·.headers.length) 1 parseHeader := by
  have hname : Parser.Adds (·.headers.length) 0 parseName := by
    refine .andThen (.takeUntil _ _) fun name => ?_
    split
    · exact .fail
    · exact .andThen .next fun _ => .andThen (.takeUntil _ _) fun _ => .pure _
  have hline : Parser.Adds (·.headers.length) 0 parseLineName := by
    refine .andThen .peek fun c => .andThen .get fun r => ?_
    split
    · exact .pure _
    · exact .andThen hname fun _ => .pure _
  have htoken : Parser.Adds (·.headers.length) 0 getTokenToEol :=
    .andThen (.takeUntil _ _) fun _ => .andThen (adds_lineEndOr .fail) fun _ => .pure _
  exact .andThen hline fun _ => .andThen htoken fun _ => .modify fun s => by simp [PhrRequest.addHeader]

theorem adds_parseHeaders (room : Nat) : Parser.Adds (·.headers.length) room (parseHeaders room) := by
  induction room with
  | zero => exact adds_lineEndOr .fail
  | succ room ih =>
    have hadds := adds_lineEndOr (.bind adds_parseHeader fun _ => ih)
    rwa [Nat.add_comm] at hadds

theorem adds_parseRequest (room : Nat) : Parser.Adds (·.headers.length) room (parseRequest room) := by
  have htoken : Parser.Adds (·.headers.length) 0 advanceToken := .takeUntil _ _
  have hversion : Parser.Adds (·.headers.length) 0 parseHttpVersion := by
    refine .andThen (.expectAll _) fun _ => .andThen .peek fun c => ?_
    split
    · exact .andThen (.takeUntil _ _) fun _ => .pure _
    · exact .fail
  have hline : Parser.Adds (·.headers.length) 0 parseRequestLine :=
    .andThen htoken fun _ => .andThen (.modify fun s => Nat.le_refl _) fun _ => .andThen .next fun _ =>
      .andThen htoken fun _ => .andThen (.modify fun s => Nat.le_refl _) fun _ => .andThen .next fun _ =>
      .andThen hversion fun _ => .andThen (.modify fun s => Nat.le_refl _) fun _ => adds_lineEndOr .fail
  exact .andThen (adds_lineEndOr (.weaken (.pure ()) (Nat.le_refl _))) fun _ => .andThen hline fun _ =>
    adds_parseHeaders room

/-- The parser counts no more headers than it has room for. -/
theorem phr_headers_le (l : Bytes) (room last : Nat) : (phrParseRequest l room last).1.headers.length ≤ room := by
  have hadds := adds_parseRequest room {} l
  simp only [List.length_nil, Nat.zero_add] at hadds
  unfold phrParseRequest
  split
  · exact Nat.zero_le _
  · exact Nat.zero_le _
  · cases hp : parseRequest room {} l <;> rw [hp] at hadds <;> exact hadds

/-- What any call accepts is what a fresh one does. -/
theorem accepted_of_complete (h : phrParseRequest l room last = (r, .complete n)) (hroom : room ≤ maxHeaders) :
    Accepted l r n := by
  have hheaders : r.headers.length ≤ room := by
    have := phr_headers_le l room last
    rwa [h] at this
  unfold phrParseRequest at h
  split at h
  · cases h
  · cases h
  cases hp : parseRequest room {} l with
  | again s => simp [hp] at h
  | error s => simp [hp] at h
  | ok s u rest =>
    simp only [hp, Prod.mk.injEq, PhrRet.complete.injEq] at h
    obtain ⟨rfl, rfl⟩ := h
    rw [Accepted, phrParseRequest, if_pos rfl]
    dsimp only
    rw [(parseRequest_room rfl hp maxHeaders).1 (hheaders.trans hroom)]

end PgRest.Http
