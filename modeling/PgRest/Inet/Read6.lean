import PgRest.Inet.Text6

/-! Which texts `pgrest_inet_inet6_addr` reads as IPv6 addresses: what it reads of a text is its body, a
text has one body at most, and the bodies it takes are held against those that an address has. -/
namespace PgRest.Inet

instance (last : Last) : Decidable last.Plain := by
  cases last <;> unfold Last.Plain <;> infer_instance

/-! ### Reading a body -/

/-- What is returned for the bytes that were written, with room for `n` words. -/
def closing (zero : Option Nat) (addr : Bytes) (n : Nat) : Option Bytes :=
  match zero with
  | some z => if n ≠ 0 then some (addr.take z ++ List.replicate (2 * n) 0 ++ addr.drop z) else none
  | none => if n ≠ 0 then none else some addr

theorem finish_eq (s : Inet6) :
    s.finish = if s.nibbles = 0 ∧ s.zero = none then none else closing s.zero s.put.addr (s.n - 1) := rfl

/-- The last piece is read. -/
theorem read_last {last : Last} (hlast : last.Formed) {s : Inet6} (hs : s.Ready last.text) :
    (inet6AddrFrom s last.text).bind Inet6.finish =
      if last.Plain ∧ (last.text = [] → s.zero ≠ none) ∧ (last.words = 2 → 2 ≤ s.n ∧ s.digit ≠ none) then
        closing s.zero (s.addr ++ last.bytes) (s.n - last.words)
      else none := by
  cases last with
  | none =>
    show s.finish = _
    rw [finish_eq]
    by_cases hzero : s.zero = none
    · rw [if_pos ⟨hs.nibbles, hzero⟩, if_neg fun h => h.2.1 rfl hzero]
    · rw [if_neg fun h => hzero h.2, if_pos ⟨trivial, fun _ => hzero, by simp [Last.words]⟩]
      simp [Inet6.put, hs.word, Last.bytes, Last.words]
  | group g =>
    obtain ⟨hne, hlen, hhex⟩ := hlast
    have hread := inet6AddrFrom_group hhex s [] (by rw [hs.nibbles]; omega)
    rw [List.append_nil] at hread
    have hpos : s.nibbles + g.length ≠ 0 := by
      rw [hs.nibbles]
      simpa using hne
    rw [Last.text, hread, inet6AddrFrom, Option.bind_some, finish_eq, if_neg fun h => hpos h.1,
      if_pos ⟨trivial, fun h => absurd h hne, by simp [Last.words]⟩]
    simp [Inet6.put, hs.word, Last.bytes, Last.words, wordBytes]
  | quad a b c d =>
    obtain ⟨ha, hb, hc, hd⟩ := hlast
    rw [Last.text, inet6AddrFrom_quad ha hb hc hd hs]
    have htext : quad a b c d ≠ [] := by simp [quad]
    by_cases hplain : a ≠ [] ∧ a.length ≤ 4 ∧ quadAddr a b c d ≠ inaddrNone
    · by_cases hroom : 2 ≤ s.n ∧ s.digit ≠ none
      · obtain ⟨-, -, hbyte, hbyte'⟩ := quad_bytes ha hb hc hd
        have hpos : a.length ≠ 0 := by simpa using hplain.1
        rw [if_pos ⟨hplain, hroom⟩, if_pos ⟨hplain, fun h => absurd h htext, fun _ => hroom⟩, Option.bind_some,
          finish_eq, if_neg fun h => hpos h.1]
        simp [Inet6.put, Last.bytes, Last.words, hbyte, hbyte', Nat.sub_sub]
      · rw [if_neg fun h => hroom h.2, if_neg fun h => hroom (h.2.2 rfl)]
        rfl
    · rw [if_neg fun h => hplain h.1, if_neg fun h => hplain h.1]
      rfl

theorem Last.words_pos (last : Last) : 1 ≤ last.words ∧ last.words ≤ 2 := by
  cases last with
  | none => exact ⟨Nat.le_refl 1, by decide⟩
  | group g => exact ⟨Nat.le_refl 1, Nat.le_succ 1⟩
  | quad a b c d => exact ⟨Nat.le_succ 1, Nat.le_refl 2⟩

/-- A body without two colons that are next to each other. -/
theorem readBody_full {left : List Bytes} {last : Last} (hleft : ∀ g ∈ left, Group g) (hlast : last.Formed) :
    readBody (pieces left ++ last.text) =
      if (last.text ≠ [] ∧ left.length + last.words = 8) ∧ last.Plain then some (groupBytes left ++ last.bytes)
      else none := by
  have hwords := last.words_pos
  rw [readBody, inet6AddrFrom_pieces hleft rfl rfl (by decide)]
  by_cases hlt : left.length < 8
  · rw [if_pos hlt, read_last hlast ⟨rfl, rfl, ?_⟩]
    · dsimp only
      rw [List.nil_append]
      by_cases hroom : left.length + last.words = 8
      · by_cases htext : last.text = []
        · rw [if_neg fun h => h.2.1 htext rfl, if_neg fun h => h.1.1 htext]
        · have hdigit : last.words = 2 → 2 ≤ 8 - left.length ∧
              (if left = [] then (none : Option Bytes) else some last.text) ≠ none := by
            intro htwo
            rw [htwo] at hroom
            rw [if_neg (by rintro rfl; simp at hroom)]
            exact ⟨by omega, by simp⟩
          have hclosed : closing none (groupBytes left ++ last.bytes) (8 - left.length - last.words) =
              some (groupBytes left ++ last.bytes) := if_neg (by omega)
          rw [hclosed]
          refine if_congr ?_ rfl rfl
          exact ⟨fun h => ⟨⟨htext, hroom⟩, h.1⟩, fun h => ⟨h.2, fun h' => absurd h' htext, hdigit⟩⟩
      · rw [if_neg (fun h => hroom h.1.2 :
          ¬((last.text ≠ [] ∧ left.length + last.words = 8) ∧ last.Plain))]
        by_cases hover : 8 - left.length < last.words
        · exact if_neg fun h => absurd (h.2.2 (by omega)).1 (by omega)
        · have hclosed : closing none (groupBytes left ++ last.bytes) (8 - left.length - last.words) = none :=
            if_pos (by omega)
          rw [hclosed, ite_self]
    · intro text htext
      dsimp only at htext
      split at htext
      · cases htext
      · cases htext
        rfl
  · rw [if_neg hlt, if_neg fun h => absurd h.1.2 (by omega)]
    rfl

/-- A body where two colons are next to each other. -/
theorem readBody_gap {left right : List Bytes} {last : Last} (hleft : ∀ g ∈ left, Group g)
    (hright : ∀ g ∈ right, Group g) (hlast : last.Formed) :
    readBody (pieces left ++ colon :: (pieces right ++ last.text)) =
      if left.length + right.length + last.words ≤ 7 ∧ last.Plain then
        some (groupBytes left ++ List.replicate (2 * (8 - left.length - right.length - last.words)) 0 ++
          (groupBytes right ++ last.bytes))
      else none := by
  have hwords := last.words_pos
  rw [readBody, inet6AddrFrom_pieces hleft rfl rfl (by decide)]
  by_cases hlt : left.length < 8
  · rw [if_pos hlt, inet6AddrFrom_gap rfl, if_pos rfl,
      inet6AddrFrom_pieces hright rfl rfl (by dsimp only; omega)]
    dsimp only
    by_cases hlt' : right.length < 8 - left.length
    · have hdigit :
          (if right = [] then some (pieces right ++ last.text) else some last.text) = some last.text := by
        split
        · next hnil => rw [hnil]; rfl
        · rfl
      rw [if_pos hlt', hdigit, read_last hlast ⟨rfl, rfl, fun text h => (Option.some.inj h).symm⟩]
      dsimp only
      rw [closing, List.nil_append]
      have hsub : 8 - left.length - right.length - last.words ≠ 0 ↔
          left.length + right.length + last.words ≤ 7 := by
        omega
      by_cases hroom : left.length + right.length + last.words ≤ 7
      · rw [if_pos (hsub.mpr hroom)]
        refine if_congr ⟨fun h => ⟨hroom, h.1⟩, fun h => ⟨h.2, by simp, fun htwo => ⟨by omega, by simp⟩⟩⟩ ?_ rfl
        rw [List.append_assoc (groupBytes left), List.take_left', List.drop_left']
        · rfl
        · rfl
      · have hnone : ¬(8 - left.length - right.length - last.words ≠ 0) := fun h => hroom (hsub.mp h)
        rw [if_neg hnone, ite_self, if_neg fun h => hroom h.1]
    · rw [if_neg hlt', if_neg fun h => absurd h.1 (by omega)]
      rfl
  · rw [if_neg hlt, if_neg fun h => absurd h.1 (by omega)]
    rfl

/-- It is taken. -/
def Body.Read (b : Body) : Prop := b.Counted ∧ b.last.Plain

instance (b : Body) : Decidable b.Read := by
  unfold Body.Read Body.Counted
  cases b.right <;> infer_instance

/-- Of any body it is known what is read. -/
theorem readBody_text {b : Body} (hb : b.Formed) : readBody b.text = if b.Read then some b.bytes else none := by
  obtain ⟨left, right, last⟩ := b
  cases right with
  | none =>
    have htext : (Body.mk left none last).text = pieces left ++ last.text := by simp [Body.text]
    rw [htext, readBody_full hb.left hb.last]
    exact if_congr Iff.rfl rfl rfl
  | some right =>
    have htext :
        (Body.mk left (some right) last).text = pieces left ++ colon :: (pieces right ++ last.text) := by
      simp [Body.text]
    rw [htext, readBody_gap hb.left (hb.right right rfl) hb.last]
    exact if_congr Iff.rfl rfl rfl

/-! ### Nothing but a body is read -/

/-- The digits that come first, and what may stand behind them. -/
theorem digits_of_read {s : Inet6} {text : Bytes} (h : inet6AddrFrom s text ≠ none) :
    ∃ g rest, text = g ++ rest ∧ (∀ c ∈ g, Hex c) ∧ (s.nibbles ≤ 4 → s.nibbles + g.length ≤ 4) ∧
      (rest = [] ∨ (∃ behind, rest = colon :: behind) ∨
        (∃ behind, rest = dot :: behind) ∧ s.nibbles + g.length ≠ 0) := by
  induction text generalizing s with
  | nil => exact ⟨[], [], rfl, by simp, fun h => h, Or.inl rfl⟩
  | cons c text ih =>
    by_cases hcolon : c = colon
    · exact ⟨[], c :: text, rfl, by simp, fun h => h, Or.inr (Or.inl ⟨text, by rw [hcolon]⟩)⟩
    by_cases hdot : c = dot ∧ s.nibbles ≠ 0
    · exact ⟨[], c :: text, rfl, by simp, fun h => h, Or.inr (Or.inr ⟨⟨text, by rw [hdot.1]⟩, hdot.2⟩)⟩
    -- one more digit
    rw [inet6AddrFrom, if_neg hcolon, if_neg hdot] at h
    by_cases hlen : s.nibbles + 1 > 4
    · rw [if_pos hlen] at h
      exact absurd rfl h
    rw [if_neg hlen] at h
    obtain ⟨s', hs', hread, hc⟩ :
        ∃ s' : Inet6, s'.nibbles = s.nibbles + 1 ∧ inet6AddrFrom s' text ≠ none ∧ Hex c := by
      dsimp only at h
      split at h
      · next hdigit => exact ⟨_, rfl, h, Or.inl hdigit⟩
      · next hdigit =>
        split at h
        · next hhex => exact ⟨_, rfl, h, (lower_hex c hdigit).mp hhex⟩
        · exact absurd rfl h
    obtain ⟨g, rest, rfl, hg, hcount, hrest⟩ := ih hread
    refine ⟨c :: g, rest, rfl, ?_, fun _ => ?_, ?_⟩
    · rintro c' (_ | ⟨_, hc'⟩)
      · exact hc
      · exact hg c' hc'
    · have := hcount (by omega)
      rw [List.length_cons]
      omega
    · rw [hs'] at hrest
      rw [List.length_cons]
      exact hrest.imp_right fun h => h.imp_right fun h => ⟨h.1, by omega⟩

/-- A text that is read to its end is a body. -/
theorem body_of_read {s : Inet6} {text : Bytes} (hnibbles : s.nibbles = 0)
    (hdigit : ∀ digit ∈ s.digit, digit = text) (h : inet6AddrFrom s text ≠ none) :
    ∃ b : Body, b.Formed ∧ b.text = text ∧ (s.zero ≠ none → b.right = none) := by
  induction hk : text.length using Nat.strongRecOn generalizing s text with | _ k ih
  obtain ⟨g, rest, rfl, hg, hlen, hrest⟩ := digits_of_read h
  have hlen := hlen (by omega)
  rw [hnibbles, Nat.zero_add] at hlen
  have hgroup : g ≠ [] → Group g := fun hne => ⟨hne, hlen, hg⟩
  rw [inet6AddrFrom_group hg s rest (by omega), hnibbles, Nat.zero_add] at h
  rcases hrest with rfl | ⟨behind, rfl⟩ | ⟨⟨behind, rfl⟩, hpos⟩
  · -- the last group
    by_cases hne : g = []
    · exact ⟨⟨[], none, .none⟩, ⟨by simp, by simp, trivial⟩, by rw [hne]; rfl, fun _ => rfl⟩
    · exact ⟨⟨[], none, .group g⟩, ⟨by simp, by simp, hgroup hne⟩, by simp [Body.text, pieces, Last.text],
        fun _ => rfl⟩
  · by_cases hne : g = []
    · -- two colons
      subst hne
      rw [inet6AddrFrom_gap rfl] at h
      by_cases hzero : s.zero = none
      · rw [if_pos hzero] at h
        have hless : behind.length < k := by simp [← hk]
        obtain ⟨b, hb, htext, hright⟩ := ih _ hless rfl (fun digit hd => (Option.some.inj hd).symm) h rfl
        have hnone : b.right = none := hright (by simp)
        refine ⟨⟨[], some b.left, b.last⟩, ⟨by simp, ?_, hb.last⟩, ?_, fun h => absurd hzero h⟩
        · rintro right hr g hmem
          cases hr
          exact hb.left g hmem
        · rw [← htext]
          simp [Body.text, hnone, pieces]
      · rw [if_neg hzero] at h
        exact absurd rfl h
    · -- one more group
      rw [inet6AddrFrom_colon (by simpa using hne)] at h
      split at h
      · have hless : behind.length < k := by
          rw [← hk, List.length_append, List.length_cons]
          omega
        obtain ⟨b, hb, htext, hright⟩ := ih _ hless rfl (fun digit hd => (Option.some.inj hd).symm) h rfl
        refine ⟨⟨g :: b.left, b.right, b.last⟩, ⟨?_, hb.right, hb.last⟩, ?_, hright⟩
        · rintro g' (_ | ⟨_, hg'⟩)
          · exact hgroup hne
          · exact hb.left g' hg'
        · rw [← htext]
          simp [Body.text, pieces]
      · exact absurd rfl h
  · -- the quad
    rw [hnibbles, Nat.zero_add] at hpos
    rw [inet6AddrFrom, if_neg (by decide), if_pos ⟨rfl, hpos⟩] at h
    dsimp only at h
    split at h
    · exact absurd rfl h
    · next digit hd =>
      obtain rfl := hdigit digit hd
      split at h
      · exact absurd rfl h
      · split at h
        · exact absurd rfl h
        · next hread =>
          obtain ⟨a, b, c, d, htext, hquad⟩ := octets_of_read hread
          exact ⟨⟨[], none, .quad a b c d⟩, ⟨by simp, by simp, hquad⟩, by rw [htext]; rfl, fun _ => rfl⟩

/-! ### A text has one body -/

theorem Group.colon_not_mem {g : Bytes} (h : Group g) : colon ∉ g := fun hcolon =>
  (hex_cases (h.2.2 colon hcolon)).1 rfl

theorem Last.Formed.colon_not_mem {last : Last} (h : last.Formed) : colon ∉ last.text := by
  have hdigits : ∀ {digits : Bytes}, Octet digits → colon ∉ digits := fun hd hmem =>
    absurd (hd.1 colon hmem) (by decide)
  cases last with
  | none => simp [Last.text]
  | group g => exact Group.colon_not_mem h
  | quad a b c d =>
    obtain ⟨ha, hb, hc, hd⟩ := h
    have hdot : colon ≠ dot := by decide
    simp [Last.text, Inet.quad, hdigits ha, hdigits hb, hdigits hc, hdigits hd, hdot]

/-- No group is at the front of it. -/
def Stopped (text : Bytes) : Prop := ∀ g behind, Group g → text ≠ g ++ colon :: behind

theorem stopped_gap (behind : Bytes) : Stopped (colon :: behind) := by
  rintro g behind' ⟨hne, -, hhex⟩ heq
  cases g with
  | nil => exact hne rfl
  | cons c g => exact (hex_cases (hhex c (List.mem_cons_self ..))).1 (List.cons.inj heq).1.symm

theorem stopped_last {last : Last} (h : last.Formed) : Stopped last.text := by
  intro g behind _ heq
  refine h.colon_not_mem ?_
  rw [heq]
  simp

/-- Groups are told from what is behind them. -/
theorem pieces_inj {groups groups' : List Bytes} {s t : Bytes} (hgroups : ∀ g ∈ groups, Group g)
    (hgroups' : ∀ g ∈ groups', Group g) (hs : Stopped s) (ht : Stopped t)
    (h : pieces groups ++ s = pieces groups' ++ t) : groups = groups' ∧ s = t := by
  have hcons : ∀ (g : Bytes) (groups : List Bytes) (s : Bytes),
      pieces (g :: groups) ++ s = g ++ colon :: (pieces groups ++ s) := by simp [pieces]
  induction groups generalizing groups' with
  | nil =>
    cases groups' with
    | nil => exact ⟨rfl, h⟩
    | cons g' groups' => exact absurd (h.trans (hcons ..)) (hs g' _ (hgroups' g' (List.mem_cons_self ..)))
  | cons g groups ih =>
    cases groups' with
    | nil => exact absurd (h.symm.trans (hcons ..)) (ht g _ (hgroups g (List.mem_cons_self ..)))
    | cons g' groups' =>
      rw [hcons, hcons] at h
      have hg := (hgroups g (List.mem_cons_self ..)).colon_not_mem
      have hg' := (hgroups' g' (List.mem_cons_self ..)).colon_not_mem
      obtain ⟨rfl, hrest⟩ := cut_inj hg hg' h
      obtain ⟨rfl, rfl⟩ := ih (fun g hg => hgroups g (List.mem_cons_of_mem _ hg))
        (fun g hg => hgroups' g (List.mem_cons_of_mem _ hg)) hrest
      exact ⟨rfl, rfl⟩

theorem Last.text_inj {last last' : Last} (h : last.Formed) (h' : last'.Formed) (heq : last.text = last'.text) :
    last = last' := by
  have hquad : ∀ {g a b c d : Bytes}, Group g → g ≠ Inet.quad a b c d := by
    rintro g a b c d ⟨-, -, hhex⟩ rfl
    exact (hex_cases (hhex dot (by simp [Inet.quad]))).2 rfl
  cases last with
  | none =>
    cases last' with
    | none => rfl
    | group g => exact absurd heq.symm h'.1
    | quad a b c d => simp [Last.text, Inet.quad] at heq
  | group g =>
    cases last' with
    | none => exact absurd heq h.1
    | group g' => exact congrArg Last.group heq
    | quad a b c d => exact absurd heq (hquad h)
  | quad a b c d =>
    cases last' with
    | none => simp [Last.text, Inet.quad] at heq
    | group g => exact absurd heq.symm (hquad h')
    | quad a' b' c' d' =>
      obtain ⟨rfl, rfl, rfl, rfl⟩ := quad_inj h.1 h.2.1 h.2.2.1 h'.1 h'.2.1 h'.2.2.1 heq
      rfl

theorem Body.text_inj {b b' : Body} (h : b.Formed) (h' : b'.Formed) (heq : b.text = b'.text) : b = b' := by
  obtain ⟨left, right, last⟩ := b
  obtain ⟨left', right', last'⟩ := b'
  have hnone : ∀ {left : List Bytes} {last : Last},
      (Body.mk left none last).text = pieces left ++ last.text := by
    simp [Body.text]
  have hsome : ∀ {left right : List Bytes} {last : Last},
      (Body.mk left (some right) last).text = pieces left ++ colon :: (pieces right ++ last.text) := by
    simp [Body.text]
  have hdiffer : ∀ {last : Last} {text : Bytes}, last.Formed → last.text ≠ colon :: text := by
    intro last text hlast heq
    exact hlast.colon_not_mem (heq ▸ List.mem_cons_self ..)
  cases right with
  | none =>
    cases right' with
    | none =>
      rw [hnone, hnone] at heq
      obtain ⟨rfl, hlast⟩ := pieces_inj h.left h'.left (stopped_last h.last) (stopped_last h'.last) heq
      exact congrArg _ (Last.text_inj h.last h'.last hlast)
    | some right' =>
      rw [hnone, hsome] at heq
      exact absurd (pieces_inj h.left h'.left (stopped_last h.last) (stopped_gap _) heq).2 (hdiffer h.last)
  | some right =>
    cases right' with
    | none =>
      rw [hnone, hsome] at heq
      have hrest := (pieces_inj h.left h'.left (stopped_gap _) (stopped_last h'.last) heq).2
      exact absurd hrest.symm (hdiffer h'.last)
    | some right' =>
      rw [hsome, hsome] at heq
      obtain ⟨rfl, hrest⟩ := pieces_inj h.left h'.left (stopped_gap _) (stopped_gap _) heq
      obtain ⟨rfl, hlast⟩ := pieces_inj (h.right right rfl) (h'.right right' rfl) (stopped_last h.last)
        (stopped_last h'.last) (List.cons.inj hrest).2
      exact congrArg _ (Last.text_inj h.last h'.last hlast)

/-! ### The bodies of addresses -/

/-- It starts with two colons. -/
def Body.Led (b : Body) : Prop := b.left = [] ∧ b.right ≠ none

instance (b : Body) : Decidable b.Led := inferInstanceAs (Decidable (_ ∧ _))

/-- The text as it is given: of two colons at the start the first is skipped. -/
def Body.shown (b : Body) : Bytes := if b.Led then colon :: b.text else b.text

/-- No octet is empty. -/
def Last.Full : Last → Prop
  | .quad a b c d => a ≠ [] ∧ b ≠ [] ∧ c ≠ [] ∧ d ≠ []
  | _ => True

/-- It is the body of an address. -/
def Body.Whole (b : Body) : Prop :=
  b.last.Full ∧
    match b.right with
    | none => b.last.text ≠ [] ∧ b.left.length + b.last.words = 8
    | some right =>
      b.last.text ≠ [] ∧ b.left.length + right.length + b.last.words ≤ 7 ∨
        b.last = .none ∧ right = [] ∧ b.left.length ≤ 7

theorem Body.led_iff {b : Body} (hb : b.Formed) : b.Led ↔ ∃ text, b.text = colon :: text := by
  obtain ⟨left, right, last⟩ := b
  have hfirst : ∀ {g : Bytes} {groups : List Bytes} {s t : Bytes}, Group g →
      pieces (g :: groups) ++ s ≠ colon :: t := by
    intro g groups s t hg h
    refine stopped_gap t g (pieces groups ++ s) hg ?_
    rw [← h]
    simp [pieces]
  constructor
  · rintro ⟨hleft, hright⟩
    obtain ⟨right, rfl⟩ := Option.ne_none_iff_exists'.mp hright
    subst hleft
    exact ⟨_, rfl⟩
  · rintro ⟨text, htext⟩
    cases left with
    | nil =>
      refine ⟨rfl, ?_⟩
      rintro rfl
      have hlast : last.text = colon :: text := by simpa [Body.text, pieces] using htext
      exact hb.last.colon_not_mem (hlast ▸ List.mem_cons_self ..)
    | cons g left =>
      rw [Body.text, List.append_assoc] at htext
      exact absurd htext (hfirst (hb.left g (List.mem_cons_self ..)))

theorem Body.shown_inj {b b' : Body} (h : b.Formed) (h' : b'.Formed) (heq : b.shown = b'.shown) : b = b' := by
  unfold Body.shown at heq
  by_cases hled : b.Led
  · rw [if_pos hled] at heq
    by_cases hled' : b'.Led
    · rw [if_pos hled'] at heq
      exact Body.text_inj h h' (List.cons.inj heq).2
    · rw [if_neg hled'] at heq
      exact absurd ((Body.led_iff h').mpr ⟨_, heq.symm⟩) hled'
  · rw [if_neg hled] at heq
    by_cases hled' : b'.Led
    · rw [if_pos hled'] at heq
      exact absurd ((Body.led_iff h).mpr ⟨_, heq⟩) hled
    · rw [if_neg hled'] at heq
      exact Body.text_inj h h' heq

/-- Of a text in front of which no colon stands alone its body is read. -/
theorem inet6Addr_shown {b : Body} (hb : b.Formed) :
    inet6Addr b.shown = if b.Read then some b.bytes else none := by
  rw [← readBody_text hb, Body.shown]
  by_cases hled : b.Led
  · rw [if_pos hled, inet6Addr_eq (by simp)]
    exact congrArg readBody (if_pos rfl)
  · rw [if_neg hled]
    by_cases hempty : b.text = []
    · rw [hempty]
      rfl
    · rw [inet6Addr_eq hempty, if_neg]
      intro hhead
      obtain ⟨text, htext⟩ := List.head?_eq_some_iff.mp hhead
      exact hled ((Body.led_iff hb).mpr ⟨text, htext⟩)

/-- A text that is read is a body, or one with a colon in front. -/
theorem body_of_addr {text addr : Bytes} (h : inet6Addr text = some addr) :
    ∃ b : Body, b.Formed ∧ b.Read ∧ addr = b.bytes ∧ (text = b.shown ∨ text = colon :: b.text ∧ ¬b.Led) := by
  have hne : text ≠ [] := by
    rintro rfl
    exact absurd h (by simp [inet6Addr])
  rw [inet6Addr_eq hne] at h
  have hbody : ∀ {text : Bytes}, readBody text = some addr →
      ∃ b : Body, b.Formed ∧ b.Read ∧ addr = b.bytes ∧ b.text = text := by
    intro text h
    have hread : inet6AddrFrom {} text ≠ none := by
      intro hnone
      rw [readBody, hnone] at h
      cases h
    obtain ⟨b, hb, rfl, -⟩ := body_of_read rfl (by simp) hread
    rw [readBody_text hb] at h
    obtain ⟨hread, hbytes⟩ := Option.ite_none_right_eq_some.mp h
    exact ⟨b, hb, hread, (Option.some.inj hbytes).symm, rfl⟩
  by_cases hcolon : text.head? = some colon
  · obtain ⟨rest, rfl⟩ := List.head?_eq_some_iff.mp hcolon
    rw [if_pos hcolon] at h
    obtain ⟨b, hb, hread, hbytes, rfl⟩ := hbody h
    refine ⟨b, hb, hread, hbytes, ?_⟩
    by_cases hled : b.Led
    · exact Or.inl (by rw [Body.shown, if_pos hled])
    · exact Or.inr ⟨rfl, hled⟩
  · rw [if_neg hcolon] at h
    obtain ⟨b, hb, hread, hbytes, rfl⟩ := hbody h
    refine ⟨b, hb, hread, hbytes, Or.inl ?_⟩
    rw [Body.shown, if_neg]
    intro hled
    obtain ⟨rest, hrest⟩ := (Body.led_iff hb).mp hled
    rw [hrest] at hcolon
    exact hcolon rfl

/-! ### Texts of addresses -/

theorem tail_iff (text bytes : Bytes) :
    Tail text bytes ↔
      ∃ last : Last, last.Formed ∧ last.Full ∧ last.text ≠ [] ∧ text = last.text ∧ bytes = last.bytes := by
  constructor
  · rintro (⟨hg⟩ | ⟨ha, ha', hb, hb', hc, hc', hd, hd'⟩)
    · exact ⟨.group _, hg, trivial, hg.1, rfl, rfl⟩
    · exact ⟨.quad _ _ _ _, ⟨ha, hb, hc, hd⟩, ⟨ha', hb', hc', hd'⟩, by simp [Last.text, Inet.quad], rfl, rfl⟩
  · rintro ⟨last, hlast, hfull, hne, rfl, rfl⟩
    cases last with
    | none => exact absurd rfl hne
    | group g => exact .group hlast
    | quad a b c d =>
      obtain ⟨ha, hb, hc, hd⟩ := hlast
      obtain ⟨ha', hb', hc', hd'⟩ := hfull
      exact .quad ha ha' hb hb' hc hc' hd hd'

theorem Last.bytes_length {last : Last} : last.bytes.length = 2 * last.words := by
  cases last <;> rfl

theorem pieces_intercalate {left : List Bytes} (h : left ≠ []) :
    pieces left = List.intercalate [colon] left ++ [colon] := by
  induction left with
  | nil => exact absurd rfl h
  | cons g left ih =>
    cases left with
    | nil => simp [pieces, List.intercalate]
    | cons g' left =>
      have hcons : pieces (g :: g' :: left) = g ++ colon :: pieces (g' :: left) := by simp [pieces]
      rw [hcons, ih (List.cons_ne_nil _ _)]
      simp [List.intercalate]

/-- Two colons behind some groups. -/
theorem shown_gap (left right : List Bytes) (last : Last) :
    (Body.mk left (some right) last).shown =
      List.intercalate [colon] left ++ colon :: colon :: (pieces right ++ last.text) := by
  by_cases hleft : left = []
  · subst hleft
    rw [Body.shown, if_pos ⟨rfl, by simp⟩]
    simp [Body.text, pieces, List.intercalate]
  · rw [Body.shown, if_neg fun h => hleft h.1, Body.text, pieces_intercalate hleft]
    simp

theorem shown_full (left : List Bytes) (last : Last) :
    (Body.mk left none last).shown = pieces left ++ last.text := by
  rw [Body.shown, if_neg fun h => h.2 rfl]
  simp [Body.text]

/-- The texts of addresses are those of the bodies that are whole. -/
theorem address_iff (text addr : Bytes) :
    Address text addr ↔ ∃ b : Body, b.Formed ∧ b.Whole ∧ text = b.shown ∧ addr = b.bytes := by
  have hzeros : ∀ {left right words : Nat},
      16 - 2 * left - 2 * right - 2 * words = 2 * (8 - left - right - words) := by
    omega
  constructor
  · rintro (⟨hleft, htail, hcount⟩ | ⟨hleft, hright, htail, hcount⟩ | @⟨left, hleft, hcount⟩)
    · obtain ⟨last, hlast, hfull, hne, rfl, rfl⟩ := (tail_iff _ _).mp htail
      rw [Last.bytes_length] at hcount
      refine ⟨⟨_, none, last⟩, ⟨hleft, by simp, hlast⟩, ⟨hfull, hne, ?_⟩, (shown_full ..).symm, rfl⟩
      dsimp only
      omega
    · obtain ⟨last, hlast, hfull, hne, rfl, rfl⟩ := (tail_iff _ _).mp htail
      rw [Last.bytes_length] at hcount
      refine ⟨⟨_, some _, last⟩, ⟨hleft, ?_, hlast⟩, ⟨hfull, Or.inl ⟨hne, ?_⟩⟩, (shown_gap ..).symm, ?_⟩
      · rintro right hr
        cases hr
        exact hright
      · dsimp only
        omega
      · rw [Last.bytes_length, hzeros]
        rfl
    · refine ⟨⟨left, some [], .none⟩, ⟨hleft, ?_, trivial⟩, ⟨trivial, Or.inr ⟨rfl, rfl, hcount⟩⟩, ?_, ?_⟩
      · rintro right hr
        cases hr
        simp
      · rw [shown_gap]
        rfl
      · have hsplit : 16 - 2 * left.length = 2 * (8 - left.length - 0 - 1) + 2 := by omega
        rw [hsplit, List.replicate_add]
        simp [Body.bytes, Last.words, Last.bytes, groupBytes]
  · rintro ⟨⟨left, right, last⟩, hb, ⟨hfull, hwhole⟩, rfl, rfl⟩
    cases right with
    | none =>
      obtain ⟨hne, hcount⟩ := hwhole
      have htail : Tail last.text last.bytes := (tail_iff _ _).mpr ⟨last, hb.last, hfull, hne, rfl, rfl⟩
      rw [shown_full]
      refine .full hb.left htail ?_
      show 2 * left.length + last.bytes.length = 16
      rw [Last.bytes_length]
      dsimp only at hcount
      omega
    | some right =>
      rw [shown_gap]
      obtain ⟨hne, hcount⟩ | ⟨hlast, rfl, hcount⟩ := hwhole
      · have htail : Tail last.text last.bytes := (tail_iff _ _).mpr ⟨last, hb.last, hfull, hne, rfl, rfl⟩
        have haddr := Address.gap hb.left (hb.right right rfl) htail
          (by rw [Last.bytes_length]; dsimp only at hcount ⊢; omega)
        rw [Last.bytes_length, hzeros] at haddr
        exact haddr
      · dsimp only at hlast
        subst hlast
        have haddr := Address.open hb.left hcount
        have hsplit : 16 - 2 * left.length = 2 * (8 - left.length - 0 - 1) + 2 := by
          dsimp only at hcount
          omega
        rw [hsplit, List.replicate_add] at haddr
        simpa [Body.bytes, Last.words, Last.bytes, Last.text, groupBytes, pieces, List.replicate] using haddr

/-! ### Where the two differ -/

/-- The texts that are taken for addresses and are none, and those of addresses that are not taken. -/
inductive Misread : Bytes → Prop where
  /-- a colon that stands alone in front -/
  | lead {b : Body} : b.Formed → b.Read → ¬b.Led → Misread (colon :: b.text)
  /-- a colon that stands alone at the end -/
  | trail {left right} : Body.Formed ⟨left, some right, .none⟩ → Body.Read ⟨left, some right, .none⟩ →
      right ≠ [] → Misread (Body.shown ⟨left, some right, .none⟩)
  /-- a quad with an empty octet -/
  | octet {b : Body} : b.Formed → b.Read → ¬b.last.Full → Misread b.shown
  /-- two colons for one group of zeros at the end -/
  | seven {left} : (∀ g ∈ left, Group g) → left.length = 7 → Misread (Body.shown ⟨left, some [], .none⟩)
  /-- a quad with too many zeros in front, or where all bits are one -/
  | quad {b : Body} : b.Formed → b.Whole → ¬b.last.Plain → Misread b.shown

/-- A body that is whole is read, but for those two kinds. -/
theorem Body.Whole.read {b : Body} (h : b.Whole) (hplain : b.last.Plain)
    (hseven : ¬(b.left.length = 7 ∧ b.right = some [] ∧ b.last = .none)) : b.Read := by
  obtain ⟨left, right, last⟩ := b
  cases right with
  | none => exact ⟨h.2, hplain⟩
  | some right =>
    refine ⟨?_, hplain⟩
    obtain ⟨-, ⟨-, hcount⟩ | ⟨hlast, hright, hcount⟩⟩ := h
    · exact hcount
    · dsimp only at hlast hright hcount
      subst hlast hright
      have hne : left.length ≠ 7 := fun h => hseven ⟨h, rfl, rfl⟩
      show left.length + [].length + 1 ≤ 7
      rw [List.length_nil]
      omega

/-- A body that is read is whole, but for the two colons and the octets. -/
theorem Body.Read.whole {b : Body} (hlast : b.last.Formed) (h : b.Read) (hfull : b.last.Full)
    (htrail : b.last = .none → b.right = some []) : b.Whole := by
  obtain ⟨left, right, last⟩ := b
  refine ⟨hfull, ?_⟩
  cases right with
  | none => exact h.1
  | some right =>
    have hcount : left.length + right.length + last.words ≤ 7 := h.1
    have hpos := last.words_pos
    by_cases htext : last.text = []
    · have hnone : last = .none := Last.text_inj hlast trivial htext
      have hright : right = [] := Option.some.inj (htrail hnone)
      exact Or.inr ⟨hnone, hright, by dsimp only; omega⟩
    · exact Or.inl ⟨htext, hcount⟩

/-- **IPv6 addresses are read exactly** in the texts of all other kinds. -/
theorem readExactly6_iff (text : Bytes) : ReadExactly6 text ↔ ¬Misread text := by
  have hwhole : ∀ {b : Body}, b.Formed → ReadExactly6 b.shown → (b.Read ↔ b.Whole) := by
    intro b hb hread
    have hshown := inet6Addr_shown hb
    constructor
    · intro h
      rw [if_pos h] at hshown
      obtain ⟨b', hb', hwhole, heq, -⟩ := (address_iff _ _).mp ((hread _).mp hshown)
      rw [Body.shown_inj hb hb' heq]
      exact hwhole
    · intro h
      have haddr := (hread b.bytes).mpr ((address_iff _ _).mpr ⟨b, hb, h, rfl, rfl⟩)
      rw [hshown] at haddr
      exact (Option.ite_none_right_eq_some.mp haddr).1
  constructor
  · intro hread hmisread
    cases hmisread with
    | @lead b hb hr hled =>
      have haddr : inet6Addr (colon :: b.text) = some b.bytes := by
        rw [inet6Addr_eq (List.cons_ne_nil _ _)]
        exact (readBody_text hb).trans (if_pos hr)
      obtain ⟨b', hb', -, heq, -⟩ := (address_iff _ _).mp ((hread _).mp haddr)
      unfold Body.shown at heq
      split at heq
      · next hled' =>
        rw [Body.text_inj hb hb' (List.cons.inj heq).2] at hled
        exact hled hled'
      · next hled' => exact hled' ((Body.led_iff hb').mpr ⟨_, heq.symm⟩)
    | @trail left right hb hr hne =>
      obtain ⟨-, ⟨htext, -⟩ | ⟨-, hright, -⟩⟩ := (hwhole hb hread).mp hr
      · exact htext rfl
      · exact hne hright
    | octet hb hr hfull => exact hfull ((hwhole hb hread).mp hr).1
    | @seven left hleft hlen =>
      have hb : Body.Formed ⟨left, some [], .none⟩ := ⟨hleft, by rintro _ ⟨⟩; simp, trivial⟩
      have hr := (hwhole hb hread).mpr ⟨trivial, Or.inr ⟨rfl, rfl, by dsimp only; omega⟩⟩
      have hcount : left.length + 0 + 1 ≤ 7 := hr.1
      omega
    | quad hb hw hplain => exact hplain ((hwhole hb hread).mpr hw).2
  · intro hmisread addr
    rw [address_iff]
    constructor
    · intro h
      obtain ⟨b, hb, hr, rfl, rfl | ⟨rfl, hled⟩⟩ := body_of_addr h
      · refine ⟨b, hb, hr.whole hb.last ?_ ?_, rfl, rfl⟩
        · by_contra hfull
          exact hmisread (.octet hb hr hfull)
        · obtain ⟨left, right, last⟩ := b
          intro hlast
          dsimp only at hlast
          subst hlast
          cases right with
          | none => exact absurd rfl hr.1.1
          | some right =>
            by_contra hne
            exact hmisread (.trail hb hr fun h => hne (congrArg some h))
      · exact absurd (.lead hb hr hled) hmisread
    · rintro ⟨b, hb, hw, rfl, rfl⟩
      have hplain : b.last.Plain := by
        by_contra hplain
        exact hmisread (.quad hb hw hplain)
      have hseven : ¬(b.left.length = 7 ∧ b.right = some [] ∧ b.last = .none) := by
        obtain ⟨left, right, last⟩ := b
        rintro ⟨hlen, hright, hlast⟩
        dsimp only at hlen hright hlast
        subst hright hlast
        exact hmisread (.seven hb.left hlen)
      rw [inet6Addr_shown hb, if_pos (hw.read hplain hseven)]

/-- Seven groups and the two colons that stand for the eighth. -/
theorem seven_not_read : ¬ReadExactly6 (ascii "1:2:3:4:5:6:7::") := by
  intro h
  have hleft :
      ∀ g ∈ [ascii "1", ascii "2", ascii "3", ascii "4", ascii "5", ascii "6", ascii "7"], Group g := by
    unfold Group
    decide +kernel
  have haddr := (h _).mpr (.open hleft (Nat.le_refl 7))
  exact absurd haddr (by decide)

end PgRest.Inet
