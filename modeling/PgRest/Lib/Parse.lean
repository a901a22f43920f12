import Mathlib.Data.List.Basic

/-! Parsers of a list of which only a part may be there yet. A parser keeps a state, also
where it fails. It comes to an end, or it rejects what it reads, or it runs out of input
and can say no more. A stable parser keeps to the first two when more input comes. -/
namespace PgRest.Lib

/-- How a parser leaves its input. -/
inductive Parsed (σ α β : Type) where
  | ok (s : σ) (b : β) (rest : List α)
  /-- there is not enough input -/
  | again (s : σ)
  | error (s : σ)
deriving DecidableEq, Repr

def Parsed.map {σ α β γ : Type} (f : β → γ) : Parsed σ α β → Parsed σ α γ
  | .ok s b rest => .ok s (f b) rest
  | .again s => .again s
  | .error s => .error s

/-- The state that the parser ends in. -/
def Parsed.state {σ α β : Type} : Parsed σ α β → σ
  | .ok s _ _ => s
  | .again s => s
  | .error s => s

theorem Parsed.state_map {σ α β γ : Type} (f : β → γ) (r : Parsed σ α β) : (r.map f).state = r.state := by
  cases r <;> rfl

theorem Parsed.map_id {σ α β : Type} (r : Parsed σ α β) : r.map (fun b => b) = r := by cases r <;> rfl

theorem Parsed.map_map {σ α β γ δ : Type} (r : Parsed σ α β) (f : β → γ) (g : γ → δ) :
    (r.map f).map g = r.map fun b => g (f b) := by cases r <;> rfl

def Parser (σ α β : Type) : Type := σ → List α → Parsed σ α β

namespace Parser
variable {σ α β γ : Type}

instance : Monad (Parser σ α) where
  pure b := fun s l => .ok s b l
  bind p q := fun s l =>
    match p s l with
    | .ok s b rest => q b s rest
    | .again s => .again s
    | .error s => .error s

/-- The next element, which stays. -/
def peek : Parser σ α α
  | s, [] => .again s
  | s, a :: l => .ok s a (a :: l)

/-- The next element. -/
def next : Parser σ α α
  | s, [] => .again s
  | s, a :: l => .ok s a l

def fail : Parser σ α β := fun s _ => .error s

def get : Parser σ α σ := fun s l => .ok s s l

def modify (f : σ → σ) : Parser σ α Unit := fun s l => .ok (f s) () l

def expect [DecidableEq α] (a : α) : Parser σ α Unit := do
  let b ← next
  if b = a then pure () else fail

def expectAll [DecidableEq α] : List α → Parser σ α Unit
  | [] => pure ()
  | a :: l => do
    expect a
    expectAll l

/-- The elements up to one where it stops, which stays. A bad one is rejected. -/
def takeUntil (stop bad : α → Bool) : Parser σ α (List α)
  | s, [] => .again s
  | s, a :: l =>
    if stop a then .ok s [] (a :: l)
    else if bad a then .error s
    else (takeUntil stop bad s l).map (a :: ·)

/-! ### How parsers end -/

variable {p : Parser σ α β} {q : β → Parser σ α γ} {s s' : σ} {l rest : List α}

theorem map_ok {f : β → γ} {r : Parsed σ α β} {c : γ} :
    r.map f = .ok s' c rest ↔ ∃ b, r = .ok s' b rest ∧ c = f b := by
  cases r with
  | ok s b rest =>
    simp only [Parsed.map, Parsed.ok.injEq]
    constructor
    · rintro ⟨rfl, rfl, rfl⟩
      exact ⟨b, ⟨rfl, rfl, rfl⟩, rfl⟩
    · rintro ⟨_, ⟨rfl, rfl, rfl⟩, rfl⟩
      exact ⟨rfl, rfl, rfl⟩
  | again => simp [Parsed.map]
  | error => simp [Parsed.map]

theorem map_again {f : β → γ} {r : Parsed σ α β} : r.map f = .again s' ↔ r = .again s' := by
  cases r <;> simp [Parsed.map]

theorem map_error {f : β → γ} {r : Parsed σ α β} : r.map f = .error s' ↔ r = .error s' := by
  cases r <;> simp [Parsed.map]

theorem bind_eq (p : Parser σ α β) (q : β → Parser σ α γ) (s : σ) (l : List α) : (p >>= q) s l =
    match p s l with
    | .ok s b rest => q b s rest
    | .again s => .again s
    | .error s => .error s := rfl

theorem bind_ok {c : γ} : (p >>= q) s l = .ok s' c rest ↔
    ∃ s₁ b rest₁, p s l = .ok s₁ b rest₁ ∧ q b s₁ rest₁ = .ok s' c rest := by
  rw [bind_eq]
  cases p s l with
  | ok s₁ b rest₁ => simp
  | again => simp
  | error => simp

theorem pure_ok {b c : β} : (pure b : Parser σ α β) s l = .ok s' c rest ↔ s' = s ∧ c = b ∧ rest = l := by
  show Parsed.ok s b l = _ ↔ _
  simp only [Parsed.ok.injEq, eq_comm]

theorem get_ok {r : σ} : (get : Parser σ α σ) s l = .ok s' r rest ↔ (s' = s ∧ r = s) ∧ rest = l := by
  show Parsed.ok s s l = _ ↔ _
  simp only [Parsed.ok.injEq, and_assoc, eq_comm]

theorem modify_ok {f : σ → σ} {c : Unit} :
    (modify f : Parser σ α Unit) s l = .ok s' c rest ↔ s' = f s ∧ rest = l := by
  show Parsed.ok (f s) () l = _ ↔ _
  simp only [Parsed.ok.injEq, true_and, eq_comm]

theorem peek_ok {a : α} : (peek : Parser σ α α) s l = .ok s' a rest ↔
    s' = s ∧ rest = l ∧ ∃ l', l = a :: l' := by
  cases l with
  | nil => simp [peek]
  | cons b l =>
    simp only [peek, Parsed.ok.injEq, List.cons.injEq]
    constructor
    · rintro ⟨rfl, rfl, rfl⟩
      exact ⟨rfl, rfl, l, rfl, rfl⟩
    · rintro ⟨rfl, rfl, _, rfl, rfl⟩
      exact ⟨rfl, rfl, rfl⟩

theorem next_ok {a : α} : (next : Parser σ α α) s l = .ok s' a rest ↔ s' = s ∧ l = a :: rest := by
  cases l with
  | nil => simp [next]
  | cons b l => simp only [next, Parsed.ok.injEq, List.cons.injEq, eq_comm]

theorem expect_cons [DecidableEq α] (a b : α) : (expect a : Parser σ α Unit) s (b :: l) =
    if b = a then .ok s () l else .error s := by
  show (if b = a then pure () else fail : Parser σ α Unit) s l = _
  split <;> rfl

theorem expect_ok [DecidableEq α] {a : α} {c : Unit} : (expect a : Parser σ α Unit) s l = .ok s' c rest ↔
    s' = s ∧ l = a :: rest := by
  cases l with
  | nil => simp [expect, bind_eq, next]
  | cons b l =>
    rw [expect_cons]
    by_cases hb : b = a
    · simp [hb, eq_comm]
    · simp [hb]

theorem expectAll_ok [DecidableEq α] {as : List α} {c : Unit}
    (h : (expectAll as : Parser σ α Unit) s l = .ok s' c rest) : s' = s ∧ l = as ++ rest := by
  induction as generalizing s l with
  | nil =>
    obtain ⟨rfl, -, rfl⟩ := pure_ok.mp h
    exact ⟨rfl, rfl⟩
  | cons a as ih =>
    obtain ⟨s₁, b, rest₁, hfirst, hrest⟩ := bind_ok.mp h
    obtain ⟨rfl, rfl⟩ := expect_ok.mp hfirst
    obtain ⟨rfl, rfl⟩ := ih hrest
    exact ⟨rfl, rfl⟩

/-- What is taken neither stops nor is bad; what it stops at is left. -/
theorem takeUntil_ok {stop bad : α → Bool} {as : List α}
    (h : (takeUntil stop bad : Parser σ α (List α)) s l = .ok s' as rest) :
    s' = s ∧ l = as ++ rest ∧ (∀ a ∈ as, stop a = false ∧ bad a = false) ∧
      ∃ a rest', rest = a :: rest' ∧ stop a = true := by
  induction l generalizing as with
  | nil => cases h
  | cons a l ih =>
    rw [takeUntil] at h
    by_cases hstop : stop a
    · rw [if_pos hstop] at h
      cases h
      exact ⟨rfl, rfl, by simp, a, l, rfl, hstop⟩
    rw [if_neg hstop] at h
    by_cases hbad : bad a
    · rw [if_pos hbad] at h
      cases h
    rw [if_neg hbad] at h
    obtain ⟨as', htake, rfl⟩ := map_ok.mp h
    obtain ⟨rfl, rfl, hall, hend⟩ := ih htake
    refine ⟨rfl, rfl, ?_, hend⟩
    simp only [List.mem_cons, forall_eq_or_imp]
    exact ⟨⟨Bool.eq_false_iff.mpr hstop, Bool.eq_false_iff.mpr hbad⟩, hall⟩

/-- Elements that it passes may be passed before. -/
theorem takeUntil_skip {stop bad : α → Bool} (s : σ) {n : Nat} {l : List α}
    (h : ∀ a ∈ l.take n, stop a = false ∧ bad a = false) :
    takeUntil stop bad s l = (takeUntil stop bad s (l.drop n)).map (l.take n ++ ·) := by
  induction n generalizing l with
  | zero => exact (Parsed.map_id _).symm
  | succ n ih =>
    cases l with
    | nil => rfl
    | cons a l =>
      obtain ⟨⟨hstop, hbad⟩, hl⟩ := List.forall_mem_cons.mp h
      rw [takeUntil, if_neg (Bool.eq_false_iff.mp hstop), if_neg (Bool.eq_false_iff.mp hbad), ih hl, Parsed.map_map]
      rfl

/-! ### Stable parsers -/

/-- Where the parser ends for good, more input changes nothing but what is left, and where
it ran out of input and ends with more, it has read all of it. It reads at least `k`
elements, of the new ones too. -/
structure Stable (k : Nat) (p : Parser σ α β) : Prop where
  ok {s s' : σ} {l rest : List α} {b : β} (l' : List α) :
    p s l = .ok s' b rest → p s (l ++ l') = .ok s' b (rest ++ l')
  error {s s' : σ} {l : List α} (l' : List α) : p s l = .error s' → p s (l ++ l') = .error s'
  again {s s' s'' : σ} {l l' rest : List α} {b : β} :
    p s l = .again s' → p s (l ++ l') = .ok s'' b rest → rest.length + k ≤ l'.length
  reads {s s' : σ} {l rest : List α} {b : β} : p s l = .ok s' b rest → rest.length + k ≤ l.length

namespace Stable

theorem bind {k : Nat} (hp : Stable 0 p) (hq : ∀ b, Stable k (q b)) : Stable k (p >>= q) where
  ok l' h := by
    obtain ⟨s₁, b, rest₁, hfirst, hrest⟩ := bind_ok.mp h
    exact bind_ok.mpr ⟨s₁, b, _, hp.ok l' hfirst, (hq b).ok l' hrest⟩
  error {s s' l} l' h := by
    rw [bind_eq] at h ⊢
    cases hfirst : p s l with
    | ok s₁ b rest₁ =>
      rw [hfirst] at h
      rw [hp.ok l' hfirst]
      exact (hq b).error l' h
    | again s₁ => simp [hfirst] at h
    | error s₁ =>
      rw [hp.error l' hfirst]
      simpa only [hfirst] using h
  again {s s' s'' l l' rest c} h hmore := by
    rw [bind_eq] at h
    obtain ⟨s₁, b, rest₁, hfirst, hrest⟩ := bind_ok.mp hmore
    cases hpart : p s l with
    | ok s₂ b' rest₂ =>
      have hsame := hp.ok l' hpart
      rw [hfirst] at hsame
      cases hsame
      rw [hpart] at h
      exact (hq b).again h hrest
    | again s₂ =>
      have h₁ := hp.again hpart hfirst
      have h₂ := (hq b).reads hrest
      omega
    | error => simp [hpart] at h
  reads h := by
    obtain ⟨s₁, b, rest₁, hfirst, hrest⟩ := bind_ok.mp h
    have h₁ := hp.reads hfirst
    have h₂ := (hq b).reads hrest
    omega

theorem weaken {j k : Nat} (hp : Stable j p) (hk : k ≤ j) : Stable k p where
  ok := hp.ok
  error := hp.error
  again h hmore := by
    have := hp.again h hmore
    omega
  reads h := by
    have := hp.reads h
    omega

theorem pure (b : β) : Stable 0 (pure b : Parser σ α β) where
  ok l' h := by
    obtain ⟨rfl, rfl, rfl⟩ := pure_ok.mp h
    rfl
  error _ h := nomatch h
  again h := nomatch h
  reads h := by
    obtain ⟨rfl, rfl, rfl⟩ := pure_ok.mp h
    exact Nat.le_refl _

theorem fail (k : Nat) : Stable k (fail : Parser σ α β) where
  ok _ h := nomatch h
  error _ h := h
  again h := nomatch h
  reads h := nomatch h

theorem get : Stable 0 (get : Parser σ α σ) where
  ok l' h := by
    cases h
    rfl
  error _ h := nomatch h
  again h := nomatch h
  reads h := by
    cases h
    exact Nat.le_refl _

theorem modify (f : σ → σ) : Stable 0 (modify f : Parser σ α Unit) where
  ok l' h := by
    cases h
    rfl
  error _ h := nomatch h
  again h := nomatch h
  reads h := by
    cases h
    exact Nat.le_refl _

theorem peek : Stable 0 (peek : Parser σ α α) where
  ok {s s' l rest b} l' h := by
    obtain ⟨rfl, rfl, l₁, rfl⟩ := peek_ok.mp h
    rfl
  error {s s' l} _ h := by cases l <;> cases h
  again {s s' s'' l l' rest b} h hmore := by
    cases l with
    | nil =>
      obtain ⟨-, rfl, -⟩ := peek_ok.mp hmore
      exact Nat.le_refl _
    | cons a l => cases h
  reads h := by
    obtain ⟨-, rfl, -⟩ := peek_ok.mp h
    exact Nat.le_refl _

theorem next : Stable 1 (next : Parser σ α α) where
  ok l' h := by
    obtain ⟨rfl, rfl⟩ := next_ok.mp h
    rfl
  error {s s' l} _ h := by cases l <;> cases h
  again {s s' s'' l l' rest b} h hmore := by
    cases l with
    | nil =>
      obtain ⟨-, rfl⟩ := next_ok.mp hmore
      exact Nat.le_refl _
    | cons a l => cases h
  reads h := by
    obtain ⟨-, rfl⟩ := next_ok.mp h
    exact Nat.le_refl _

theorem expect [DecidableEq α] (a : α) : Stable 1 (expect a : Parser σ α Unit) where
  ok l' h := by
    obtain ⟨rfl, rfl⟩ := expect_ok.mp h
    exact expect_ok.mpr ⟨rfl, rfl⟩
  error {s s' l} l' h := by
    cases l with
    | nil => cases h
    | cons b l =>
      rw [expect_cons] at h
      rw [List.cons_append, expect_cons]
      split
      · next hb => simp [hb] at h
      · next hb => simpa [hb] using h
  again {s s' s'' l l' rest b} h hmore := by
    cases l with
    | nil =>
      obtain ⟨-, rfl⟩ := expect_ok.mp hmore
      exact Nat.le_refl _
    | cons b l =>
      rw [expect_cons] at h
      split at h <;> cases h
  reads h := by
    obtain ⟨-, rfl⟩ := expect_ok.mp h
    exact Nat.le_refl _

theorem expectAll [DecidableEq α] (as : List α) : Stable 0 (expectAll as : Parser σ α Unit) := by
  induction as with
  | nil => exact pure ()
  | cons a as ih => exact ((expect a).weaken (Nat.zero_le _)).bind fun _ => ih

theorem takeUntil (stop bad : α → Bool) : Stable 0 (takeUntil stop bad : Parser σ α (List α)) where
  ok {s s' l rest as} l' h := by
    induction l generalizing as with
    | nil => cases h
    | cons a l ih =>
      rw [Parser.takeUntil] at h
      rw [List.cons_append, Parser.takeUntil]
      split
      · next hstop =>
        rw [if_pos hstop] at h
        cases h
        rfl
      next hstop =>
      rw [if_neg hstop] at h
      split
      · next hbad =>
        rw [if_pos hbad] at h
        cases h
      next hbad =>
      rw [if_neg hbad] at h
      obtain ⟨as', htake, rfl⟩ := map_ok.mp h
      exact map_ok.mpr ⟨as', ih htake, rfl⟩
  error {s s' l} l' h := by
    induction l with
    | nil => cases h
    | cons a l ih =>
      rw [Parser.takeUntil] at h
      rw [List.cons_append, Parser.takeUntil]
      split
      · next hstop =>
        rw [if_pos hstop] at h
        cases h
      next hstop =>
      rw [if_neg hstop] at h
      split
      · next hbad => simpa only [if_pos hbad] using h
      next hbad =>
      rw [if_neg hbad] at h
      exact map_error.mpr (ih (map_error.mp h))
  again {s s' s'' l l' rest as} h hmore := by
    induction l generalizing as with
    | nil =>
      obtain ⟨-, rfl, -⟩ := takeUntil_ok hmore
      simp
    | cons a l ih =>
      rw [Parser.takeUntil] at h
      rw [List.cons_append, Parser.takeUntil] at hmore
      split at hmore
      · next hstop =>
        rw [if_pos hstop] at h
        cases h
      next hstop =>
      rw [if_neg hstop] at h
      split at hmore
      · cases hmore
      next hbad =>
      rw [if_neg hbad] at h
      obtain ⟨as', htake, -⟩ := map_ok.mp hmore
      exact ih (map_again.mp h) htake
  reads h := by
    obtain ⟨-, rfl, -⟩ := takeUntil_ok h
    simp

/-- Input that is accepted, cut anywhere: the first part has all that is read, or it is too short. -/
theorem cut {k : Nat} (hp : Stable (k + 1) p) {b : β} {l' : List α} (h : p s (l ++ l') = .ok s' b rest) :
    (∃ rest', p s l = .ok s' b rest' ∧ rest = rest' ++ l') ∨
      (rest.length < l'.length ∧ ∃ s'', p s l = .again s'') := by
  cases hpart : p s l with
  | ok s₁ b₁ rest₁ =>
    have hsame := hp.ok l' hpart
    rw [h] at hsame
    cases hsame
    exact Or.inl ⟨rest₁, rfl, rfl⟩
  | again s₁ =>
    have hlt := hp.again hpart h
    exact Or.inr ⟨by omega, s₁, rfl⟩
  | error s₁ =>
    have hsame := hp.error l' hpart
    rw [h] at hsame
    cases hsame

end Stable

/-! ### How far the state grows -/

/-- Wherever the parser ends, what is measured of its state has grown by `k` at most. -/
def Adds (m : σ → Nat) (k : Nat) (p : Parser σ α β) : Prop :=
  ∀ s l, m (p s l).state ≤ m s + k

namespace Adds
variable {m : σ → Nat} {j k : Nat}

theorem bind (hp : Adds m j p) (hq : ∀ b, Adds m k (q b)) : Adds m (j + k) (p >>= q) := by
  intro s l
  have hfirst := hp s l
  rw [bind_eq]
  cases hps : p s l with
  | ok s₁ b rest =>
    rw [hps] at hfirst
    have hrest := hq b s₁ rest
    simp only [Parsed.state] at hfirst hrest ⊢
    omega
  | again s₁ =>
    rw [hps] at hfirst
    simp only [Parsed.state] at hfirst ⊢
    omega
  | error s₁ =>
    rw [hps] at hfirst
    simp only [Parsed.state] at hfirst ⊢
    omega

/-- Behind a parser that adds nothing. -/
theorem andThen (hp : Adds m 0 p) (hq : ∀ b, Adds m k (q b)) : Adds m k (p >>= q) := by
  have h := hp.bind hq
  rwa [Nat.zero_add] at h

theorem weaken (hp : Adds m j p) (hk : j ≤ k) : Adds m k p := fun s l =>
  Nat.le_trans (hp s l) (Nat.add_le_add_left hk _)

theorem modify {f : σ → σ} (h : ∀ s, m (f s) ≤ m s + k) : Adds m k (modify f : Parser σ α Unit) := fun s _ => h s

/-- The parsers that leave the state alone. -/
theorem of_same (h : ∀ s l, (p s l).state = s) : Adds m 0 p := fun s l => Nat.le_of_eq (congrArg m (h s l))

theorem pure (b : β) : Adds m 0 (pure b : Parser σ α β) := of_same fun _ _ => rfl

theorem fail : Adds m 0 (fail : Parser σ α β) := of_same fun _ _ => rfl

theorem get : Adds m 0 (get : Parser σ α σ) := of_same fun _ _ => rfl

theorem peek : Adds m 0 (peek : Parser σ α α) := of_same fun _ l => by cases l <;> rfl

theorem next : Adds m 0 (next : Parser σ α α) := of_same fun _ l => by cases l <;> rfl

theorem expect [DecidableEq α] (a : α) : Adds m 0 (expect a : Parser σ α Unit) := by
  refine next.andThen fun b => ?_
  split
  · exact pure ()
  · exact fail

theorem expectAll [DecidableEq α] (as : List α) : Adds m 0 (expectAll as : Parser σ α Unit) := by
  induction as with
  | nil => exact pure ()
  | cons a as ih => exact (expect a).andThen fun _ => ih

theorem takeUntil (stop bad : α → Bool) : Adds m 0 (takeUntil stop bad : Parser σ α (List α)) := by
  refine of_same fun s l => ?_
  induction l with
  | nil => rfl
  | cons a l ih =>
    rw [Parser.takeUntil]
    split
    · rfl
    split
    · rfl
    · rw [Parsed.state_map, ih]

end Adds

end Parser

end PgRest.Lib
