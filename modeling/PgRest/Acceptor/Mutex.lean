import PgRest.Lib.Run

/-! The accept mutex between the workers, with `pgrest_acceptor_use_mutex` on: one
spinlock in shared memory, and in each worker process the flags it keeps about it.

A worker takes one step at a time, each with at most one access to the spinlock, and
the steps of different workers interleave freely. What libevent and the kernel answer is
part of the action: the results of the `event_add` and `event_del` calls in their order
(a call past the end of the list succeeds), what `accept` returns, whether SIGTERM has
come. With the mutex on, `pgrest_acceptor_event_timer` is never added, and the
worker's own timer does nothing when it fires. An `ereport(ERROR)`, which ends the
process, is left out. -/
namespace PgRest.Acceptor

/-- A listening socket with its read event. -/
structure Listener where
  reuseport : Bool
  pending : Bool
deriving DecidableEq, Repr

/-- `pgrest_event_add`, which asks libevent only when the event is not pending yet. -/
def eventAdd (l : Listener) (calls : List Bool) : Bool × Listener × List Bool :=
  if l.pending then (true, l, calls)
  else if calls.headD true then (true, { l with pending := true }, calls.tail)
  else (false, l, calls.tail)

/-- `pgrest_event_del`, which asks libevent only when the event is pending. -/
def eventDel (l : Listener) (calls : List Bool) : Bool × Listener × List Bool :=
  if !l.pending then (true, l, calls)
  else if calls.headD true then (true, { l with pending := false }, calls.tail)
  else (false, l, calls.tail)

/-- `pgrest_listener_resume` -/
def resume : List Listener → List Bool → Bool × List Listener
  | [], _ => (true, [])
  | l :: ls, calls =>
    let (ok, l, calls) := eventAdd l calls
    if ok then
      let (ok, ls) := resume ls calls
      (ok, l :: ls)
    else (false, l :: ls)

/-- `pgrest_listener_pause` -/
def pause (all : Bool) : List Listener → List Bool → Bool × List Listener
  | [], _ => (true, [])
  | l :: ls, calls =>
    if l.reuseport && !all then
      let (ok, ls) := pause all ls calls
      (ok, l :: ls)
    else
      let (ok, l, calls) := eventDel l calls
      if ok then
        let (ok, ls) := pause all ls calls
        (ok, l :: ls)
      else (false, l :: ls)

/-- Where a worker is in `pgrest_worker_event_dispatch`. -/
inductive Pc where
  /-- at its head -/
  | top
  /-- in `pgrest_acceptor_trylock_mutex`, with the lock just taken -/
  | acquired
  /-- in `pgrest_acceptor_trylock_mutex`, with the lock refused -/
  | refused
  /-- behind `pgrest_acceptor_trylock_mutex` -/
  | tried
  /-- inside event dispatch, in the branch without (`true`) or with the mutex -/
  | dispatch (disabled : Bool)
  /-- behind the event dispatch with the mutex -/
  | dispatched
  /-- behind the whole iteration -/
  | iterated
  /-- the worker has left its main loop -/
  | stopped
deriving DecidableEq, Repr

structure Worker where
  pc : Pc := .top
  /-- `pgrest_acceptor_mutex_held` -/
  held : Bool := false
  /-- `pgrest_acceptor_disabled` -/
  disabled : Int := 0
  /-- `pgrest_worker_event_error` -/
  error : Bool := false
  listeners : List Listener
deriving DecidableEq, Repr

/-- What `accept` comes to in `pgrest_acceptor_accept_handler`. -/
inductive Accepted where
  /-- a connection, with `pgrest_conn_free_noconn` connections free -/
  | connection (free : Nat)
  /-- EMFILE or ENFILE, with the results of the `event_del` calls -/
  | fileLimit (calls : List Bool)
  /-- any other error -/
  | failed
deriving DecidableEq, Repr

inductive Move where
  /-- to the test of `pgrest_acceptor_disabled` and `SpinTryLockAcquire` -/
  | enter
  /-- through the rest of `pgrest_acceptor_trylock_mutex` -/
  | trylock (calls : List Bool)
  /-- to the event dispatch, with the result of adding the worker's timer -/
  | timer (added : Bool)
  /-- an accept callback -/
  | accept (result : Accepted)
  /-- any other callback, timers included -/
  | callback
  /-- out of the event dispatch -/
  | leave
  /-- to the end of the iteration, with the result of deleting the worker's timer -/
  | unlock (deleted : Bool)
  /-- round the main loop, or out of it on SIGTERM -/
  | loop (terminate : Bool)
deriving DecidableEq, Repr

/-- What a step does to the spinlock. -/
inductive Lock where
  | keep
  | acquire
  | release
deriving DecidableEq, Repr

/-- One step of a worker, given whether the spinlock is free and the number of
`worker_connections`. -/
def stepWorker (noconn : Nat) (free : Bool) (w : Worker) (m : Move) : Option (Lock × Worker) :=
  match w.pc, m with
  | .top, .enter =>
    if w.disabled > 0 then some (.keep, { w with disabled := w.disabled - 1, pc := .dispatch true })
    else if free then some (.acquire, { w with pc := .acquired })
    else some (.keep, { w with pc := .refused })
  | .acquired, .trylock calls =>
    if w.held then some (.keep, { w with pc := .tried })
    else
      match resume w.listeners calls with
      | (true, ls) => some (.keep, { w with listeners := ls, held := true, pc := .tried })
      | (false, ls) => some (.release, { w with listeners := ls, error := true, pc := .iterated })
  | .refused, .trylock calls =>
    if w.held then
      match pause false w.listeners calls with
      | (true, ls) => some (.keep, { w with listeners := ls, held := false, pc := .tried })
      | (false, ls) => some (.keep, { w with listeners := ls, error := true, pc := .iterated })
    else some (.keep, { w with pc := .tried })
  | .tried, .timer added =>
    if !w.held && !added then some (.keep, { w with pc := .stopped })
    else some (.keep, { w with pc := .dispatch false })
  | .dispatch _, .accept (.connection n) =>
    if n ≤ noconn then some (.keep, { w with disabled := (noconn / 8 : Nat) - (n : Int) }) else none
  | .dispatch _, .accept (.fileLimit calls) =>
    match pause true w.listeners calls with
    | (false, ls) => some (.keep, { w with listeners := ls, error := true })
    | (true, ls) =>
      let w := { w with listeners := ls, disabled := 1 }
      if w.held then some (.release, { w with held := false }) else some (.keep, w)
  | .dispatch _, .accept .failed => some (.keep, w)
  | .dispatch _, .callback => some (.keep, w)
  | .dispatch disabled, .leave =>
    some (.keep, { w with pc := if disabled then .iterated else .dispatched })
  | .dispatched, .unlock deleted =>
    if w.held then some (.release, { w with pc := .iterated })
    else if !deleted then some (.keep, { w with pc := .stopped })
    else some (.keep, { w with pc := .iterated })
  | .iterated, .loop terminate =>
    some (.keep, { w with pc := if terminate || w.error then .stopped else .top })
  | _, _ => none

variable {ι : Type} [DecidableEq ι]

structure State (ι : Type) where
  /-- the worker that took the spinlock last, until it is released -/
  owner : Option ι
  workers : ι → Worker

def Lock.apply (i : ι) (owner : Option ι) : Lock → Option ι
  | .keep => owner
  | .acquire => some i
  | .release => none

def step (noconn : Nat) (s : State ι) (a : ι × Move) : Option (State ι) :=
  (stepWorker noconn s.owner.isNone (s.workers a.1) a.2).map fun (lock, w) =>
    { owner := lock.apply a.1 s.owner, workers := Function.update s.workers a.1 w }

/-- The workers have started: with the mutex on, only `reuseport` listeners have their
event added. -/
def init (listeners : ι → List Bool) : State ι where
  owner := none
  workers i := { listeners := (listeners i).map fun reuseport => ⟨reuseport, reuseport⟩ }

/-- A listener event that the mutex is there for is armed. -/
def armed (ls : List Listener) : Bool := ls.any fun l => !l.reuseport && l.pending

/-- Inside event dispatch with such an event armed. -/
def Worker.accepting (w : Worker) : Bool :=
  armed w.listeners && match w.pc with
    | .dispatch _ => true
    | _ => false

end PgRest.Acceptor
