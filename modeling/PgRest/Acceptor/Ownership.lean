import PgRest.Acceptor.Exclusion

/-! Who releases the accept mutex. The main loop of `pgrest_worker_main` catches an ERROR
that a callback raises, and its handler releases the spinlock whoever has it. The mutex may
also be off: then no worker takes the lock, and the handler releases it all the same. -/
namespace PgRest.Acceptor
open Lib

inductive Event where
  | move (m : Move)
  /-- a callback raises an ERROR -/
  | raise
  /-- EMFILE or ENFILE with the mutex off: the results of the `event_del` calls, and of adding
  `pgrest_acceptor_event_timer` -/
  | fileLimit (calls : List Bool) (added : Bool)
  /-- `pgrest_acceptor_timer_handler` -/
  | resume (calls : List Bool)
deriving DecidableEq, Repr

/-- One step of a worker whose `pgrest_acceptor_use_mutex` is `use`. -/
def stepMain (use : Bool) (noconn : Nat) (free : Bool) (w : Worker) (e : Event) : Option (Lock × Worker) :=
  match w.pc, e with
  | .dispatch _, .raise => some (.release, { w with pc := .stopped })
  | .dispatch _, .fileLimit calls added =>
    if use then none
    else
      match pause true w.listeners calls with
      | (false, ls) => some (.keep, { w with listeners := ls, error := true })
      | (true, ls) => some (.keep, { w with listeners := ls, error := w.error || !added })
  | .dispatch _, .resume calls =>
    -- with the mutex on the timer is never added
    if use then none
    else
      match resume w.listeners calls with
      | (ok, ls) => some (.keep, { w with listeners := ls, error := w.error || !ok })
  | .top, .move .enter =>
    if use then stepWorker noconn free w .enter
    else some (.keep, { w with pc := .dispatch true })
  | _, .move (.accept (.fileLimit calls)) =>
    if use then stepWorker noconn free w (.accept (.fileLimit calls)) else none
  | _, .move m => stepWorker noconn free w m
  | _, _ => none

variable {ι : Type} [DecidableEq ι]

def stepAll (use : Bool) (noconn : Nat) (s : State ι) (a : ι × Event) : Option (State ι) :=
  (stepMain use noconn s.owner.isNone (s.workers a.1) a.2).map fun (lock, w) =>
    { owner := lock.apply a.1 s.owner, workers := Function.update s.workers a.1 w }

/-- The workers have started: with the mutex off, every listener has its event added. -/
def started (use : Bool) (listeners : ι → List Bool) : State ι where
  owner := none
  workers i := { listeners := (listeners i).map fun reuseport => ⟨reuseport, reuseport || !use⟩ }

/-- The step executes `SpinLockRelease`. -/
def releases (use : Bool) (noconn : Nat) (s : State ι) (a : ι × Event) : Bool :=
  (stepMain use noconn s.owner.isNone (s.workers a.1) a.2).any fun r => r.1 == .release

/-- No callback raises an ERROR but between taking the lock and releasing it, and none hits
the file limit, with the flag set, in the branch without the mutex. -/
def Worker.permits (w : Worker) (e : Event) : Bool :=
  match e with
  | .raise => w.pc == .dispatch false && w.held
  | .move (.accept (.fileLimit calls)) => !(w.pc == .dispatch true && w.held && (pause true w.listeners calls).1)
  | _ => true

/-! ### One worker -/

/-- What a step does to the lock is what it does to the reliance of the worker on it. -/
def Lock.Exact (lock : Lock) (free : Bool) (w w' : Worker) : Prop :=
  match lock with
  | .keep => w'.Claims ↔ w.Claims
  | .acquire => free = true ∧ w'.Claims
  | .release => w.Claims ∧ ¬w'.Claims

theorem stepWorker_exact {noconn : Nat} {free : Bool} {w w' : Worker} {m : Move} {lock : Lock}
    (hp : w.permits (.move m) = true) (hs : stepWorker noconn free w m = some (lock, w')) :
    lock.Exact free w w' := by
  unfold stepWorker at hs
  split at hs
  · next hpc =>
    split at hs
    · cases hs
      simp [Lock.Exact, Worker.Claims, hpc]
    · split at hs
      · next hfree =>
        cases hs
        exact ⟨hfree, Or.inl rfl⟩
      · cases hs
        simp [Lock.Exact, Worker.Claims, hpc]
  · next hpc =>
    -- with the lock the flag is set, or the lock is given back
    split at hs
    · next hheld =>
      cases hs
      simp [Lock.Exact, Worker.Claims, hpc, hheld]
    · split at hs
      · cases hs
        simp [Lock.Exact, Worker.Claims, hpc]
      · cases hs
        simp [Lock.Exact, Worker.Claims, hpc]
  · next hpc =>
    split at hs
    · split at hs
      · cases hs
        simp [Lock.Exact, Worker.Claims, hpc]
      · cases hs
        simp [Lock.Exact, Worker.Claims, hpc]
    · next hheld =>
      cases hs
      simp [Lock.Exact, Worker.Claims, hpc, hheld]
  · next hpc =>
    split at hs
    · next hheld =>
      cases hs
      have hheld : w.held = false := by simp at hheld; exact hheld.1
      simp [Lock.Exact, Worker.Claims, hpc, hheld]
    · cases hs
      simp [Lock.Exact, Worker.Claims, hpc]
  · next hpc =>
    split at hs
    · cases hs
      exact Iff.rfl
    · cases hs
  · next disabled calls hpc =>
    split at hs
    · cases hs
      exact Iff.rfl
    · next hpause =>
      dsimp only at hs
      split at hs
      · next hheld =>
        cases hs
        cases disabled with
        | true => simp [Worker.permits, hpc, hheld, hpause] at hp
        | false => simp [Lock.Exact, Worker.Claims, hpc, hheld]
      · cases hs
        exact Iff.rfl
  · cases hs
    exact Iff.rfl
  · cases hs
    exact Iff.rfl
  · next disabled hpc =>
    cases hs
    cases disabled <;> simp [Lock.Exact, Worker.Claims, hpc]
  · next hpc =>
    split at hs
    · next hheld =>
      cases hs
      simp [Lock.Exact, Worker.Claims, hpc, hheld]
    · next hheld =>
      split at hs <;>
      · cases hs
        simp [Lock.Exact, Worker.Claims, hpc, hheld]
  · next terminate hpc =>
    cases hs
    simp only [Lock.Exact, Worker.Claims, hpc]
    split <;> simp
  · cases hs

theorem stepMain_exact {use : Bool} {noconn : Nat} {free : Bool} {w w' : Worker} {e : Event} {lock : Lock}
    (hp : w.permits e = true) (hs : stepMain use noconn free w e = some (lock, w')) : lock.Exact free w w' := by
  unfold stepMain at hs
  split at hs
  · next disabled hpc =>
    cases hs
    have hown : disabled = false ∧ w.held = true := by simpa [Worker.permits, hpc] using hp
    obtain ⟨rfl, hheld⟩ := hown
    exact ⟨Or.inr ⟨hheld, Or.inr (Or.inl hpc)⟩, by simp [Worker.Claims]⟩
  · split at hs
    · cases hs
    · split at hs <;>
      · cases hs
        exact Iff.rfl
  · split at hs
    · cases hs
    · cases hs
      exact Iff.rfl
  · next hpc =>
    split at hs
    · exact stepWorker_exact hp hs
    · cases hs
      simp [Lock.Exact, Worker.Claims, hpc]
  · split at hs
    · exact stepWorker_exact hp hs
    · cases hs
  · exact stepWorker_exact hp hs
  · cases hs

/-- What is not permitted is a release by a worker that does not rely on the lock. -/
theorem stepMain_unpermitted {use : Bool} {noconn : Nat} {free : Bool} {w w' : Worker} {e : Event} {lock : Lock}
    (hp : w.permits e = false) (hs : stepMain use noconn free w e = some (lock, w')) :
    lock = .release ∧ ¬w.Claims := by
  unfold Worker.permits at hp
  split at hp
  · cases hpc : w.pc with
    | dispatch disabled =>
      simp only [stepMain, hpc] at hs
      cases hs
      refine ⟨rfl, ?_⟩
      cases disabled with
      | true => simp [Worker.Claims, hpc]
      | false =>
        have hheld : w.held = false := by simpa [hpc] using hp
        simp [Worker.Claims, hheld, hpc]
    | _ =>
      simp only [stepMain, hpc] at hs
      cases hs
  · next calls =>
    obtain ⟨⟨hpc, hheld⟩, hpause⟩ :
        (w.pc = .dispatch true ∧ w.held = true) ∧ (pause true w.listeners calls).1 = true := by simpa using hp
    simp only [stepMain, hpc] at hs
    split at hs
    · obtain ⟨ls, hls⟩ : ∃ ls, pause true w.listeners calls = (true, ls) := ⟨_, Prod.ext hpause rfl⟩
      simp only [stepWorker, hpc, hls, hheld, if_true, Option.some.injEq, Prod.mk.injEq] at hs
      exact ⟨hs.1.symm, by simp [Worker.Claims, hpc]⟩
    · cases hs
  · cases hp

/-! ### All workers -/

variable {ι : Type}

/-- The owner of the lock is the worker that relies on it. -/
def Owned (s : State ι) : Prop := ∀ i, s.owner = some i ↔ (s.workers i).Claims

theorem started_owned (use : Bool) (listeners : ι → List Bool) : Owned (started use listeners) := fun i => by
  simp [started, Worker.Claims]

variable [DecidableEq ι]

theorem stepAll_owned {use : Bool} {noconn : Nat} {s s' : State ι} {a : ι × Event} (h : Owned s)
    (hp : (s.workers a.1).permits a.2 = true) (hs : stepAll use noconn s a = some s') : Owned s' := by
  obtain ⟨i, e⟩ := a
  obtain ⟨⟨lock, w⟩, hw, rfl⟩ := Option.map_eq_some_iff.mp hs
  have hexact := stepMain_exact hp hw
  intro j
  by_cases hji : j = i
  · subst hji
    simp only [Function.update_self]
    cases lock with
    | keep => exact (h j).trans hexact.symm
    | acquire => exact iff_of_true rfl hexact.2
    | release => exact iff_of_false (by simp [Lock.apply]) hexact.2
  · simp only [Function.update_of_ne hji]
    have hj := h j
    cases lock with
    | keep => exact hj
    | acquire =>
      -- the lock was free, so nobody relied on it
      have hnone : s.owner = none := by simpa using hexact.1
      rw [← hj, hnone]
      simpa [Lock.apply] using Ne.symm hji
    | release =>
      have hown := (h i).mpr hexact.1
      rw [← hj, hown]
      simpa [Lock.apply] using Ne.symm hji

/-- **In a run of permitted steps** the lock is only released by its owner, and a step that is
not permitted would release it for another; a worker at the head of an iteration, or out of its
main loop, has released it. -/
theorem release_by_owner {use : Bool} {noconn : Nat} {listeners : ι → List Bool} {s : State ι}
    (h : Run (stepAll use noconn) (fun s a => (s.workers a.1).permits a.2 = true) (started use listeners) s) :
    (∀ a s', stepAll use noconn s a = some s' →
      ((releases use noconn s a = true → s.owner = some a.1) ↔ (s.workers a.1).permits a.2 = true)) ∧
      ∀ i, (s.workers i).pc = .top ∨ (s.workers i).pc = .stopped → s.owner ≠ some i := by
  have howned : Owned s := h.invariant (started_owned use listeners) fun _ _ _ hown hp hstep =>
    stepAll_owned hown hp hstep
  refine ⟨fun a s' hs => ?_, fun i hpc hi => ?_⟩
  · obtain ⟨⟨lock, w⟩, hw, rfl⟩ := Option.map_eq_some_iff.mp hs
    simp only [releases, hw, Option.any_some, beq_iff_eq, howned a.1]
    constructor
    · intro hrelease
      cases hp : (s.workers a.1).permits a.2 with
      | true => rfl
      | false =>
        obtain ⟨rfl, hno⟩ := stepMain_unpermitted hp hw
        exact absurd (hrelease rfl) hno
    · rintro hp rfl
      exact (stepMain_exact hp hw).1
  · have hclaims := (howned i).mp hi
    rcases hpc with hpc | hpc <;> simp [Worker.Claims, hpc] at hclaims

/-- A worker takes the lock, hits the file limit and releases it. -/
theorem release_by_owner_limit : ∃ s : State Bool,
    Run (stepAll true 16) (fun s a => (s.workers a.1).permits a.2 = true) (started true fun _ => [false]) s ∧
      s.owner = some true ∧
      ((releases true 16 s (true, .move (.accept (.fileLimit []))) = true → s.owner = some true) ↔
        (s.workers true).permits (.move (.accept (.fileLimit []))) = true) := by
  have hrun : ((runList (fun s a => if (s.workers a.1).permits a.2 = true then stepAll true 16 s a else none)
      (started true fun _ : Bool => [false])
      [(true, .move .enter), (true, .move (.trylock [])), (true, .move (.timer true))]).map fun s =>
        (s.owner, (stepAll true 16 s (true, .move (.accept (.fileLimit [])))).isSome)) = some (some true, true) := by
    decide
  obtain ⟨s, hs, hend⟩ := Option.map_eq_some_iff.mp hrun
  obtain ⟨howner, hstep⟩ := Prod.mk.inj hend
  obtain ⟨s', hs'⟩ := Option.isSome_iff_exists.mp hstep
  have h := Run.of_runList .start hs
  exact ⟨s, h, howner, (release_by_owner h).1 _ s' hs'⟩

/-- A callback of a worker without the lock raises an ERROR, and the lock that another worker
has is released. -/
theorem release_by_other : ∃ s : State Bool, Run (stepAll true 16) (fun _ _ => True) (started true fun _ => [false]) s ∧
    s.owner = some true ∧ (stepAll true 16 s (false, .raise)).isSome ∧ releases true 16 s (false, .raise) = true := by
  have hrun : ((runList (fun s a => if True then stepAll true 16 s a else none) (started true fun _ : Bool => [false])
      [(true, .move .enter), (true, .move (.trylock [])), (false, .move .enter), (false, .move (.trylock [])),
        (false, .move (.timer true))]).map fun s =>
        (s.owner, (stepAll true 16 s (false, .raise)).isSome, releases true 16 s (false, .raise))) =
      some (some true, true, true) := by
    decide
  obtain ⟨s, hs, hend⟩ := Option.map_eq_some_iff.mp hrun
  obtain ⟨howner, hend⟩ := Prod.mk.inj hend
  obtain ⟨hstep, hrelease⟩ := Prod.mk.inj hend
  exact ⟨s, Run.of_runList .start hs, howner, hstep, hrelease⟩

end PgRest.Acceptor
