import PgRest.Acceptor.Mutex

/-! Mutual exclusion by the accept mutex. A worker gives the spinlock back at the end of
an iteration but keeps `pgrest_acceptor_mutex_held` set and its listeners armed until
the next try of the lock fails. The branch for a worker with too few free
connections tries no lock, so the exclusion is lost when a worker takes that branch
with the flag set, and only then. -/
namespace PgRest.Acceptor
open Lib

/-! ### The listeners -/

@[simp] theorem armed_nil : armed [] = false := rfl

@[simp] theorem armed_cons (l : Listener) (ls : List Listener) :
    armed (l :: ls) = (!l.reuseport && l.pending || armed ls) := rfl

theorem eventDel_spec (l : Listener) (calls : List Bool) :
    (eventDel l calls).2.1.reuseport = l.reuseport ∧
      ((eventDel l calls).2.1.pending = true → l.pending = true) ∧
      ((eventDel l calls).1 = true → (eventDel l calls).2.1.pending = false) := by
  rw [eventDel]
  split
  · next hp => simpa using hp
  · split
    · simp
    · simp

/-- Pausing arms nothing. -/
theorem pause_armed (all : Bool) (ls : List Listener) (calls : List Bool)
    (h : armed (pause all ls calls).2 = true) : armed ls = true := by
  induction ls generalizing calls with
  | nil => simp [pause] at h
  | cons l ls ih =>
    rw [pause] at h
    split at h
    · simp only [armed_cons, Bool.or_eq_true] at h ⊢
      exact h.imp_right (ih _)
    · obtain ⟨hreuse, hpending, -⟩ := eventDel_spec l calls
      dsimp only at h
      split at h
      · simp only [armed_cons, Bool.or_eq_true, Bool.and_eq_true, hreuse] at h ⊢
        exact h.imp (And.imp_right hpending) (ih _)
      · simp only [armed_cons, Bool.or_eq_true, Bool.and_eq_true, hreuse] at h ⊢
        exact h.imp_left (And.imp_right hpending)

/-- Pausing that succeeds leaves nothing armed. -/
theorem pause_disarms (all : Bool) (ls : List Listener) (calls : List Bool)
    (h : (pause all ls calls).1 = true) : armed (pause all ls calls).2 = false := by
  induction ls generalizing calls with
  | nil => rfl
  | cons l ls ih =>
    rw [pause] at h ⊢
    split at h
    · next hskip =>
      have hreuse : l.reuseport = true := (Bool.and_eq_true_iff.mp hskip).1
      rw [if_pos hskip]
      simp [hreuse, ih _ h]
    · next hskip =>
      obtain ⟨-, -, hdel⟩ := eventDel_spec l calls
      rw [if_neg hskip]
      dsimp only at h ⊢
      split at h
      · next hok =>
        rw [if_pos hok]
        simp [hdel hok, ih _ h]
      · cases h

/-! ### One worker -/

/-- What a worker keeps, whatever the others do: with a listener armed it has the flag
set, unless it is on its way out, and without the mutex it has not. -/
structure Worker.Sound (w : Worker) : Prop where
  armed : armed w.listeners = true →
    w.held = true ∨ (w.error = true ∧ (w.pc = .iterated ∨ w.pc = .stopped))
  disabled : w.pc = .dispatch true → w.held = false

/-- Where the worker relies on having the spinlock. -/
def Worker.Claims (w : Worker) : Prop :=
  w.pc = .acquired ∨ (w.held = true ∧ (w.pc = .tried ∨ w.pc = .dispatch false ∨ w.pc = .dispatched))

/-- No iteration takes the branch without the mutex while the flag is set. -/
def Worker.allows (w : Worker) (m : Move) : Bool :=
  !(m == .enter && decide (w.disabled > 0) && w.held)

/-- How a step may change the lock: it is taken only when it is free, given back only by
a worker that relies on it, and relied on only once it is taken. -/
def Lock.Fair (lock : Lock) (free : Bool) (w w' : Worker) : Prop :=
  match lock with
  | .keep => w'.Claims → w.Claims
  | .acquire => free = true
  | .release => w.Claims ∧ ¬w'.Claims

theorem stepWorker_spec {noconn : Nat} {free : Bool} {w w' : Worker} {m : Move} {lock : Lock}
    (h : w.Sound) (hallow : w.allows m = true) (hs : stepWorker noconn free w m = some (lock, w')) :
    w'.Sound ∧ lock.Fair free w w' := by
  obtain ⟨harmed, hdisabled⟩ := h
  unfold stepWorker at hs
  split at hs
  · next hpc =>
    -- at the head of the iteration
    split at hs
    · next hd =>
      cases hs
      have hheld : w.held = false := by simpa [Worker.allows, hd] using hallow
      exact ⟨⟨by simpa [hpc, hheld] using harmed, fun _ => hheld⟩, by simp [Lock.Fair, Worker.Claims]⟩
    · split at hs
      · next hfree =>
        cases hs
        exact ⟨⟨by simpa [hpc] using harmed, by simp⟩, hfree⟩
      · cases hs
        exact ⟨⟨by simpa [hpc] using harmed, by simp⟩, by simp [Lock.Fair, Worker.Claims]⟩
  · next hpc =>
    -- the lock is taken
    have hclaims : w.Claims := Or.inl hpc
    split at hs
    · next hheld =>
      cases hs
      exact ⟨⟨fun _ => Or.inl hheld, by simp⟩, fun _ => hclaims⟩
    · next hheld =>
      split at hs
      · cases hs
        exact ⟨⟨fun _ => Or.inl rfl, by simp⟩, fun _ => hclaims⟩
      · cases hs
        exact ⟨⟨fun _ => Or.inr ⟨rfl, Or.inl rfl⟩, by simp⟩, hclaims, by simp [Worker.Claims]⟩
  · next hpc =>
    -- the lock is refused
    split at hs
    · split at hs
      · next hpause =>
        cases hs
        have hoff := pause_disarms false w.listeners _ (by rw [hpause])
        rw [hpause] at hoff
        exact ⟨⟨by simp [hoff], by simp⟩, by simp [Lock.Fair, Worker.Claims]⟩
      · cases hs
        exact ⟨⟨fun _ => Or.inr ⟨rfl, Or.inl rfl⟩, by simp⟩, by simp [Lock.Fair, Worker.Claims]⟩
    · next hheld =>
      cases hs
      exact ⟨⟨by simpa [hpc] using harmed, by simp⟩, by simp [Lock.Fair, Worker.Claims, hheld]⟩
  · next hpc =>
    split at hs
    · next hheld =>
      cases hs
      have hheld : w.held = false := by simp at hheld; exact hheld.1
      have hoff : armed w.listeners = false := by simpa [hpc, hheld] using harmed
      exact ⟨⟨by simp [hoff], by simp⟩, by simp [Lock.Fair, Worker.Claims]⟩
    · cases hs
      exact ⟨⟨by simpa [hpc] using harmed, by simp⟩, by simp [Lock.Fair, Worker.Claims, hpc]⟩
  · next disabled _ hpc =>
    -- an accepted connection
    split at hs
    · cases hs
      exact ⟨⟨harmed, hdisabled⟩, id⟩
    · cases hs
  · next disabled calls hpc =>
    -- the file limit
    split at hs
    · next hpause =>
      cases hs
      have hless := pause_armed true w.listeners calls
      rw [hpause] at hless
      exact ⟨⟨fun ha => by simpa [hpc] using harmed (hless ha), hdisabled⟩, id⟩
    · next hpause =>
      have hoff := pause_disarms true w.listeners calls (by rw [hpause])
      rw [hpause] at hoff
      dsimp only at hs hoff
      split at hs
      · next hheld =>
        cases hs
        have hmutex : disabled = false := by
          cases disabled with
          | false => rfl
          | true => exact absurd (hdisabled hpc) (by simp [hheld])
        exact ⟨⟨by simp [hoff], fun _ => rfl⟩, Or.inr ⟨hheld, Or.inr (Or.inl (hmutex ▸ hpc))⟩,
          by simp [Worker.Claims, hpc]⟩
      · cases hs
        exact ⟨⟨by simp [hoff], hdisabled⟩, id⟩
  · cases hs
    exact ⟨⟨harmed, hdisabled⟩, id⟩
  · cases hs
    exact ⟨⟨harmed, hdisabled⟩, id⟩
  · next disabled hpc =>
    cases hs
    cases disabled with
    | true =>
      exact ⟨⟨fun ha => Or.inl (by simpa [hpc] using harmed ha), by simp⟩,
        by simp [Lock.Fair, Worker.Claims]⟩
    | false =>
      exact ⟨⟨by simpa [hpc] using harmed, by simp⟩, by simp [Lock.Fair, Worker.Claims, hpc]⟩
  · next hpc =>
    split at hs
    · next hheld =>
      cases hs
      exact ⟨⟨fun _ => Or.inl hheld, by simp⟩, Or.inr ⟨hheld, Or.inr (Or.inr hpc)⟩, by simp [Worker.Claims]⟩
    · have hon : armed w.listeners = true → w.held = true := by simpa [hpc] using harmed
      split at hs
      · cases hs
        exact ⟨⟨fun ha => Or.inl (hon ha), by simp⟩, by simp [Lock.Fair, Worker.Claims]⟩
      · cases hs
        exact ⟨⟨fun ha => Or.inl (hon ha), by simp⟩, by simp [Lock.Fair, Worker.Claims]⟩
  · next terminate hpc =>
    cases hs
    refine ⟨⟨fun ha => ?_, ?_⟩, ?_⟩
    · rcases harmed ha with hheld | ⟨herror, _⟩
      · exact Or.inl hheld
      · exact Or.inr ⟨herror, Or.inr (by simp [herror])⟩
    · dsimp only
      split <;> simp
    · dsimp only [Lock.Fair, Worker.Claims]
      split <;> simp
  · cases hs

/-! ### All workers -/

variable {ι : Type}

/-- Every worker is sound, and one that relies on the lock is its owner. -/
structure Exclusive (s : State ι) : Prop where
  sound : ∀ i, (s.workers i).Sound
  owner : ∀ i, (s.workers i).Claims → s.owner = some i

theorem init_exclusive (listeners : ι → List Bool) : Exclusive (init listeners) where
  sound i := by
    refine ⟨fun h => ?_, by simp [init]⟩
    simp [init, armed] at h
  owner i h := by simp [init, Worker.Claims] at h

variable [DecidableEq ι]

theorem step_exclusive {noconn : Nat} {s s' : State ι} {a : ι × Move} (h : Exclusive s)
    (hallow : (s.workers a.1).allows a.2 = true) (hs : step noconn s a = some s') : Exclusive s' := by
  obtain ⟨i, m⟩ := a
  obtain ⟨⟨lock, w⟩, hw, rfl⟩ := Option.map_eq_some_iff.mp hs
  obtain ⟨hsound, hfair⟩ := stepWorker_spec (h.sound i) hallow hw
  refine ⟨fun j => ?_, fun j hj => ?_⟩
  · by_cases hji : j = i
    · subst hji
      simpa using hsound
    · simpa [hji] using h.sound j
  · by_cases hji : j = i
    · subst hji
      simp only [Function.update_self] at hj
      cases lock with
      | keep => exact h.owner j (hfair hj)
      | acquire => rfl
      | release => exact absurd hj hfair.2
    · simp only [Function.update_of_ne hji] at hj
      have hown := h.owner j hj
      cases lock with
      | keep => exact hown
      | acquire => simp [Lock.Fair, hown] at hfair
      | release =>
        -- the lock is another worker's
        have := h.owner i hfair.1
        rw [hown, Option.some.injEq] at this
        exact absurd this hji

/-- A worker that accepts relies on the lock. -/
theorem Worker.Sound.claims {w : Worker} (h : w.Sound) (ha : w.accepting = true) : w.Claims := by
  simp only [Worker.accepting, Bool.and_eq_true] at ha
  obtain ⟨harmed, hpc⟩ := ha
  split at hpc
  · next disabled heq =>
    have hheld : w.held = true := by simpa [heq] using h.armed harmed
    cases disabled with
    | false => exact Or.inr ⟨hheld, Or.inr (Or.inl heq)⟩
    | true =>
      rw [h.disabled heq] at hheld
      cases hheld
  · cases hpc

/-- In a run in which no worker takes the branch without the mutex while its flag is
set, at most one worker at a time accepts. -/
theorem accepting_unique {noconn : Nat} {listeners : ι → List Bool} {s : State ι}
    (h : Run (step noconn) (fun s a => (s.workers a.1).allows a.2 = true) (init listeners) s) {i j : ι}
    (hi : (s.workers i).accepting = true) (hj : (s.workers j).accepting = true) : i = j := by
  have hinv : Exclusive s :=
    h.invariant (init_exclusive listeners) fun _ _ _ hex hallow hstep => step_exclusive hex hallow hstep
  have hown := (hinv.owner i ((hinv.sound i).claims hi)).symm.trans (hinv.owner j ((hinv.sound j).claims hj))
  exact Option.some.inj hown

/-- One of two workers goes to event dispatch with the lock. -/
theorem accepting_unique_first : ∃ s, Run (step 16) (fun s a => (s.workers a.1).allows a.2 = true)
      (init fun _ : Bool => [false]) s ∧
    (s.workers true).accepting = true ∧ ∀ i, (s.workers i).accepting = true → i = true := by
  have hrun : (runList (fun s a => if (s.workers a.1).allows a.2 = true then step 16 s a else none)
      (init fun _ : Bool => [false]) [(true, .enter), (true, .trylock []), (true, .timer true)]).map
      (fun s => (s.workers true).accepting) = some true := by
    decide
  obtain ⟨s, hs, haccepting⟩ := Option.map_eq_some_iff.mp hrun
  have h := Run.of_runList .start hs
  exact ⟨s, h, haccepting, fun i hi => accepting_unique h hi haccepting⟩

/-- The exclusion is lost when a worker whose connections run short takes the branch
without the mutex: its listeners are still armed. -/
theorem accepting_twice : ∃ s, Run (step 16) (fun _ _ => True) (init fun _ : Bool => [false]) s ∧
    (s.workers true).accepting = true ∧ (s.workers false).accepting = true := by
  have hrun : (runList (fun s a => if True then step 16 s a else none) (init fun _ : Bool => [false])
      [(true, .enter), (true, .trylock []), (true, .timer true), (true, .accept (.connection 1)),
        (true, .leave), (true, .unlock true), (true, .loop false), (true, .enter),
        (false, .enter), (false, .trylock []), (false, .timer true)]).map
      (fun s => ((s.workers true).accepting, (s.workers false).accepting)) = some (true, true) := by
    decide
  obtain ⟨s, hs, haccepting⟩ := Option.map_eq_some_iff.mp hrun
  obtain ⟨h, h'⟩ := Prod.mk.inj haccepting
  exact ⟨s, Run.of_runList .start hs, h, h'⟩

end PgRest.Acceptor
