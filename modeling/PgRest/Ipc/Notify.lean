import PgRest.Lib.Run
import PgRest.Memory.Reserve

/-! Notifications between the workers.

Towards each other worker a worker has a connection on one end of that worker's socketpair; all
of them write into the one stream that the worker reads. A byte in the stream carries the
worker that has written it, and what has been notified and handled is recorded: not data of
the source, and nothing depends on it.

The events are as `pgrest_ipc_setup_handler` leaves them; as in the pool of connections, the
structures are taken to be at hand. What `send` and `recv` come to is part of the action, no
channel fails, and a handler is called whether or not its event is pending: these are more
runs than there are. -/
namespace PgRest.Ipc
open Lib Memory

/-- What an event calls. -/
inductive Handler where
  | read
  | write
deriving DecidableEq, Repr

/-- `struct event`, without a handler until `pgrest_event_assign`. -/
structure Event where
  handler : Option Handler := none
  pending : Bool := false
deriving DecidableEq, Repr

/-- `pgrest_event_add`, with 0 for the timeout. One that has not been assigned has no base to be added to. -/
def eventAdd (ev : Event) : Event :=
  if ev.pending then ev else { ev with pending := ev.handler.isSome }

/-- `pgrest_event_del` -/
def eventDel (ev : Event) : Event := { ev with pending := false }

/-- `pgrest_connection_t` of a channel. -/
structure Connection where
  buffer : Buffer
  rev : Event := {}
  wev : Event := {}
deriving DecidableEq, Repr

/-- `pgrest_ipc_setup_handler` -/
def setupHandler (events : Handler) : Connection :=
  let buffer : Buffer := { before := [], data := [], after := List.replicate 1024 0 }
  match events with
  | .read => { buffer, rev := eventAdd { handler := some .read } }
  | .write => { buffer, wev := { handler := some .write } }

/-- `pgrest_ipc_send_notify`, up to where it has found the channel and returned. `none` when it
writes to no memory. -/
def sendNotify (calls : Calls) (conn : Option Connection) (command : UInt8) : Option (Bool × Option Connection) :=
  match conn with
  | none => some (false, none)
  | some conn =>
    match reserve calls conn.buffer 1 with
    | .crashed => none
    | .failed _ => some (false, some conn)
    | .ok buffer =>
      if buffer.freeSize = 0 then none
      else some (true, some { conn with buffer := buffer.recv [command], rev := eventAdd conn.rev })

/-- What `pgrest_conn_send` returns. -/
inductive Sent where
  | zero
  | again
  | sent (n : Nat)
deriving DecidableEq, Repr

/-- `schedule:` -/
def schedule (conn : Connection) : Connection :=
  if conn.buffer.size ≠ 0 then { conn with rev := eventAdd conn.rev } else conn

/-- `pgrest_ipc_write_handler`: the connection, and what has gone into the socket. The event has
fired, and it is not a persistent one. -/
def writeHandler (conn : Connection) (result : Sent) : Option (Connection × Bytes) :=
  let conn := { conn with wev := eventDel conn.wev }
  if conn.buffer.size = 0 then some ({ conn with wev := eventDel conn.wev }, [])
  else
    match result with
    | .zero => some (schedule conn, [])
    | .again => some (schedule conn, [])
    | .sent n =>
      (conn.buffer.consume n).map fun buffer => (schedule { conn with buffer }, conn.buffer.data.take n)

variable {ι : Type} [DecidableEq ι]

structure Worker (ι : Type) where
  /-- `pgrest_ipc_data[i].conn` -/
  conns : ι → Option Connection
  /-- the commands that `pgrest_ipc_send_notify` has returned true for -/
  notified : ι → Bytes
  /-- the commands that `pgrest_ipc_read_handler` has gone through -/
  handled : List (ι × UInt8)

structure State (ι : Type) where
  workers : ι → Worker ι
  /-- what is in the socketpair of a worker -/
  sockets : ι → List (ι × UInt8)

/-- `pgrest_ipc_worker_init` in every worker. -/
def init : State ι where
  workers w :=
    { conns := fun i => some (setupHandler (if i = w then .read else .write))
      notified := fun _ => []
      handled := [] }
  sockets _ := []

inductive Action (ι : Type) where
  | sendNotify (worker dest : ι) (command : UInt8) (calls : Calls)
  | writeHandler (worker dest : ι) (result : Sent)
  /-- one round of the loop of `pgrest_ipc_read_handler`; zero is EAGAIN, with which it returns -/
  | readHandler (worker : ι) (n : Nat)

def State.set (s : State ι) (w : ι) (x : Worker ι) : State ι :=
  { s with workers := Function.update s.workers w x }

def step (s : State ι) : Action ι → Option (State ι)
  | .sendNotify w d command calls =>
    (sendNotify calls ((s.workers w).conns d) command).map fun r =>
      s.set w
        { s.workers w with
          conns := Function.update (s.workers w).conns d r.2
          notified :=
            if r.1 then Function.update (s.workers w).notified d ((s.workers w).notified d ++ [command])
            else (s.workers w).notified }
  | .writeHandler w d result =>
    if w = d then none
    else
      ((s.workers w).conns d).bind fun conn => (writeHandler conn result).map fun r =>
        { s.set w { s.workers w with conns := Function.update (s.workers w).conns d (some r.1) } with
          sockets := Function.update s.sockets d (s.sockets d ++ r.2.map (w, ·)) }
  | .readHandler w n =>
    if n ≤ 128 ∧ n ≤ (s.sockets w).length then
      some
        { s.set w { s.workers w with handled := (s.workers w).handled ++ (s.sockets w).take n } with
          sockets := Function.update s.sockets w ((s.sockets w).drop n) }
    else none

/-- What of it a worker has sent. -/
def sentBy (w : ι) (bs : List (ι × UInt8)) : Bytes := (bs.filter (·.1 = w)).map (·.2)

/-- What one worker has notified another of has been handled, is in the socket or in the buffer, in
this order. -/
def Ordered (s : State ι) : Prop :=
  ∀ w d, w ≠ d → ∃ conn, (s.workers w).conns d = some conn ∧
    sentBy w (s.workers d).handled ++ sentBy w (s.sockets d) ++ conn.buffer.data = (s.workers w).notified d

/-- The event that calls `pgrest_ipc_write_handler` is pending where there is something to write. -/
def Awake (s : State ι) : Prop :=
  ∀ w d conn, w ≠ d → (s.workers w).conns d = some conn → conn.buffer.size ≠ 0 →
    ∃ ev ∈ [conn.rev, conn.wev], ev.handler = some .write ∧ ev.pending = true

/-- The notification finds the channel to another worker, and memory for the command. -/
def Notifies (s : State ι) : Action ι → Prop
  | .sendNotify w d _ calls =>
    w ≠ d ∧ ∃ conn, (s.workers w).conns d = some conn ∧ ∃ buffer, reserve calls conn.buffer 1 = .ok buffer
  | _ => False

/-! ### What each step changes -/

section
variable {s s' : State ι} {w d : ι}

theorem step_sendNotify {command : UInt8} {calls : Calls} (h : step s (.sendNotify w d command calls) = some s') :
    ∃ r, sendNotify calls ((s.workers w).conns d) command = some r ∧ s'.sockets = s.sockets ∧
      (∀ v, (s'.workers v).handled = (s.workers v).handled) ∧
      (∀ v i, (s'.workers v).conns i = if v = w ∧ i = d then r.2 else (s.workers v).conns i) ∧
      ∀ v i, (s'.workers v).notified i =
        if v = w ∧ i = d ∧ r.1 = true then (s.workers v).notified i ++ [command] else (s.workers v).notified i := by
  obtain ⟨r, hr, rfl⟩ := Option.map_eq_some_iff.mp h
  refine ⟨r, hr, rfl, fun v => ?_, fun v i => ?_, fun v i => ?_⟩
  · by_cases hv : v = w
    · subst hv
      simp [State.set]
    · simp [State.set, hv]
  · by_cases hv : v = w
    · subst hv
      simp [State.set, Function.update_apply]
    · simp [State.set, hv]
  · by_cases hv : v = w
    · subst hv
      cases r.1
      · simp [State.set]
      · by_cases hi : i = d
        · subst hi
          simp [State.set]
        · simp [State.set, hi]
    · simp [State.set, hv]

theorem step_writeHandler {result : Sent} (h : step s (.writeHandler w d result) = some s') :
    w ≠ d ∧ ∃ conn r, (s.workers w).conns d = some conn ∧ writeHandler conn result = some r ∧
      (∀ v, (s'.workers v).handled = (s.workers v).handled) ∧
      (∀ v i, (s'.workers v).notified i = (s.workers v).notified i) ∧
      (∀ v i, (s'.workers v).conns i = if v = w ∧ i = d then some r.1 else (s.workers v).conns i) ∧
      ∀ i, s'.sockets i = if i = d then s.sockets i ++ r.2.map (w, ·) else s.sockets i := by
  simp only [step] at h
  split at h
  · cases h
  next hne =>
  obtain ⟨conn, hconn, h⟩ := Option.bind_eq_some_iff.mp h
  obtain ⟨r, hr, rfl⟩ := Option.map_eq_some_iff.mp h
  refine ⟨hne, conn, r, hconn, hr, fun v => ?_, fun v i => ?_, fun v i => ?_, fun i => ?_⟩
  · by_cases hv : v = w
    · subst hv
      simp [State.set]
    · simp [State.set, hv]
  · by_cases hv : v = w
    · subst hv
      simp [State.set]
    · simp [State.set, hv]
  · by_cases hv : v = w
    · subst hv
      simp [State.set, Function.update_apply]
    · simp [State.set, hv]
  · by_cases hi : i = d
    · subst hi
      simp
    · simp [hi]

theorem step_readHandler {n : Nat} (h : step s (.readHandler w n) = some s') :
    (∀ v, (s'.workers v).conns = (s.workers v).conns) ∧ (∀ v, (s'.workers v).notified = (s.workers v).notified) ∧
      ∀ v, (s'.workers v).handled ++ s'.sockets v = (s.workers v).handled ++ s.sockets v := by
  simp only [step] at h
  split at h
  · cases h
    refine ⟨fun v => ?_, fun v => ?_, fun v => ?_⟩
    all_goals
      by_cases hv : v = w
      · subst hv
        simp [State.set]
      · simp [State.set, hv]
  · cases h

end

/-! ### The functions -/

/-- There is always room for one byte. -/
theorem reserve_one {calls : Calls} {buf buf' : Buffer} (hpos : 0 < buf.capacity)
    (h : reserve calls buf 1 = .ok buf') : buf'.freeSize ≠ 0 := by
  have hroom : ¬Cramped buf 1 := by
    obtain ⟨i, hi, hgrow, -⟩ := grow_shift buf.size 1 buf.capacity hpos
    have htwice := shiftLeft_ge buf.capacity hi
    have hcapacity := buf.capacity_eq
    rw [cramped_iff hpos, hgrow]
    rintro ⟨-, -, hlt⟩
    omega
  exact Nat.ne_of_gt ((reserve_room_iff hpos h).mpr hroom)

theorem sendNotify_spec {calls : Calls} {conn : Connection} {command : UInt8} {r : Bool × Option Connection}
    (h : sendNotify calls (some conn) command = some r) :
    r = (false, some conn) ∨ ∃ conn', r = (true, some conn') ∧ conn'.buffer.data = conn.buffer.data ++ [command] ∧
      conn'.rev = eventAdd conn.rev ∧ conn'.wev = conn.wev := by
  simp only [sendNotify] at h
  split at h
  · cases h
  · cases h
    exact Or.inl rfl
  · next buffer hreserve =>
    split at h
    · cases h
    · cases h
      refine Or.inr ⟨_, rfl, ?_, rfl, rfl⟩
      rw [Buffer.recv, reserve_data hreserve]

theorem sendNotify_notifies {calls : Calls} {conn : Connection} (command : UInt8) (hpos : 0 < conn.buffer.capacity)
    (h : ∃ buffer, reserve calls conn.buffer 1 = .ok buffer) :
    ∃ conn', sendNotify calls (some conn) command = some (true, some conn') := by
  obtain ⟨buffer, hbuffer⟩ := h
  refine ⟨{ conn with buffer := buffer.recv [command], rev := eventAdd conn.rev }, ?_⟩
  simp only [sendNotify, hbuffer]
  rw [if_neg (reserve_one hpos hbuffer)]

/-- What is written and what stays in the buffer is what was in the buffer. -/
theorem writeHandler_spec {conn : Connection} {result : Sent} {r : Connection × Bytes}
    (h : writeHandler conn result = some r) : r.2 ++ r.1.buffer.data = conn.buffer.data ∧
      r.1.buffer.capacity = conn.buffer.capacity ∧ (r.1.rev = conn.rev ∨ r.1.rev = eventAdd conn.rev) ∧
      r.1.wev = eventDel conn.wev := by
  have hschedule : ∀ conn : Connection, (schedule conn).buffer = conn.buffer ∧
      ((schedule conn).rev = conn.rev ∨ (schedule conn).rev = eventAdd conn.rev) ∧
      (schedule conn).wev = conn.wev := by
    intro conn
    unfold schedule
    split
    · exact ⟨rfl, Or.inr rfl, rfl⟩
    · exact ⟨rfl, Or.inl rfl, rfl⟩
  unfold writeHandler at h
  dsimp only at h
  split at h
  · cases h
    exact ⟨rfl, rfl, Or.inl rfl, rfl⟩
  split at h
  · cases h
    obtain ⟨hbuffer, hrev, hwev⟩ := hschedule { conn with wev := eventDel conn.wev }
    exact ⟨congrArg Buffer.data hbuffer, congrArg Buffer.capacity hbuffer, hrev, hwev⟩
  · cases h
    obtain ⟨hbuffer, hrev, hwev⟩ := hschedule { conn with wev := eventDel conn.wev }
    exact ⟨congrArg Buffer.data hbuffer, congrArg Buffer.capacity hbuffer, hrev, hwev⟩
  · next n =>
    obtain ⟨buffer, hconsume, rfl⟩ := Option.map_eq_some_iff.mp h
    obtain ⟨hbuffer, hrev, hwev⟩ := hschedule { buffer, rev := conn.rev, wev := eventDel conn.wev }
    have hn : n ≤ conn.buffer.size := by
      unfold Buffer.consume at hconsume
      split at hconsume
      · omega
      split at hconsume
      · omega
      · cases hconsume
    obtain ⟨buf', heq, hdata, hcap, -⟩ := Buffer.consume_eq hn
    obtain rfl : buffer = buf' := Option.some.inj (hconsume.symm.trans heq)
    refine ⟨?_, (congrArg Buffer.capacity hbuffer).trans hcap, hrev, hwev⟩
    show conn.buffer.data.take n ++ (schedule _).buffer.data = _
    rw [hbuffer, hdata, List.take_append_drop]

/-! ### Channels -/

/-- A channel to another worker. No event of it is ever pending: what is added is `rev`, which has
not been assigned. -/
structure Outgoing (conn : Connection) : Prop where
  capacity : 0 < conn.buffer.capacity
  rev : conn.rev = {}
  wev : conn.wev = { handler := some .write }

theorem Outgoing.awake_iff {conn : Connection} (ho : Outgoing conn) :
    (∃ ev ∈ [conn.rev, conn.wev], ev.handler = some .write ∧ ev.pending = true) ↔ False := by
  rw [ho.rev, ho.wev]
  simp

theorem eventAdd_none : eventAdd {} = {} := rfl

/-- A channel, and the order of what goes through it. -/
def Linked (s : State ι) (w d : ι) : Prop :=
  ∃ conn, (s.workers w).conns d = some conn ∧ Outgoing conn ∧
    sentBy w (s.workers d).handled ++ sentBy w (s.sockets d) ++ conn.buffer.data = (s.workers w).notified d

@[simp] theorem sentBy_append (w : ι) (a b : List (ι × UInt8)) : sentBy w (a ++ b) = sentBy w a ++ sentBy w b := by
  simp only [sentBy, List.filter_append, List.map_append]

theorem sentBy_self (w : ι) (bs : Bytes) : sentBy w (bs.map (w, ·)) = bs := by
  simp [sentBy, List.filter_map, Function.comp_def]

theorem sentBy_other {w v : ι} (h : v ≠ w) (bs : Bytes) : sentBy w (bs.map (v, ·)) = [] := by
  simp [sentBy, List.filter_map, Function.comp_def, h]

theorem linked_init {w d : ι} (h : w ≠ d) : Linked (init : State ι) w d := by
  refine ⟨setupHandler .write, ?_, ⟨?_, rfl, rfl⟩, rfl⟩
  · simp only [init, if_neg (Ne.symm h)]
  · simp only [setupHandler, Buffer.capacity, Buffer.start, List.length_append, List.length_replicate]
    decide

/-- Each step keeps every channel linked. -/
theorem step_linked {s s' : State ι} {w d : ι} (hl : Linked s w d) {a : Action ι}
    (h : step s a = some s') : Linked s' w d := by
  obtain ⟨conn, hconn, ho, heq⟩ := hl
  cases a with
  | sendNotify v i command calls =>
    obtain ⟨r, hr, hsockets, hhandled, hconns, hnotified⟩ := step_sendNotify h
    rw [Linked, hsockets, hhandled, hconns, hnotified]
    by_cases hvi : w = v ∧ d = i
    · obtain ⟨rfl, rfl⟩ := hvi
      rw [hconn] at hr
      rcases sendNotify_spec hr with rfl | ⟨conn', rfl, hdata, hrev, hwev⟩
      · exact ⟨conn, by simp, ho, by simpa using heq⟩
      · refine ⟨conn', by simp, ⟨?_, ?_, hwev.trans ho.wev⟩, ?_⟩
        · have hcapacity := conn'.buffer.capacity_eq
          have hsize : conn'.buffer.size = conn.buffer.data.length + 1 := by
            rw [Buffer.size, hdata, List.length_append, List.length_singleton]
          omega
        · rw [hrev, ho.rev, eventAdd_none]
        · rw [hdata, ← List.append_assoc, heq]
          simp
    · rw [if_neg hvi, if_neg fun hall => hvi ⟨hall.1, hall.2.1⟩]
      exact ⟨conn, hconn, ho, heq⟩
  | writeHandler v i result =>
    obtain ⟨-, conn₁, r, hconn₁, hr, hhandled, hnotified, hconns, hsockets⟩ := step_writeHandler h
    obtain ⟨hdata, hcap, hrev, hwev⟩ := writeHandler_spec hr
    rw [Linked, hsockets, hhandled, hconns, hnotified]
    by_cases hd : d = i
    · subst hd
      by_cases hv : w = v
      · subst hv
        obtain rfl : conn = conn₁ := Option.some.inj (hconn.symm.trans hconn₁)
        refine ⟨r.1, if_pos ⟨rfl, rfl⟩, ⟨hcap ▸ ho.capacity, ?_, ?_⟩, ?_⟩
        · rcases hrev with hrev | hrev
          · exact hrev.trans ho.rev
          · rw [hrev, ho.rev, eventAdd_none]
        · rw [hwev, ho.wev]
          rfl
        · rw [if_pos rfl, sentBy_append, sentBy_self, ← List.append_assoc, List.append_assoc, hdata]
          exact heq
      · refine ⟨conn, (if_neg fun hall => hv hall.1).trans hconn, ho, ?_⟩
        rw [if_pos rfl, sentBy_append, sentBy_other (Ne.symm hv), List.append_nil]
        exact heq
    · rw [if_neg fun hall => hd hall.2, if_neg hd]
      exact ⟨conn, hconn, ho, heq⟩
  | readHandler v n =>
    obtain ⟨hconns, hnotified, hhandled⟩ := step_readHandler h
    refine ⟨conn, (congrFun (hconns w) d).trans hconn, ho, ?_⟩
    rw [← sentBy_append, hhandled, sentBy_append, hnotified]
    exact heq

theorem run_linked {ok : State ι → Action ι → Prop} {t : State ι} (h : Run step ok init t) {w d : ι} (hne : w ≠ d) :
    Linked t w d :=
  h.invariant (P := fun t => Linked t w d) (linked_init hne) fun _ _ _ hl _ hstep => step_linked hl hstep

theorem run_ordered {ok : State ι → Action ι → Prop} {t : State ι} (h : Run step ok init t) : Ordered t := by
  intro w d hne
  obtain ⟨conn, hconn, -, heq⟩ := run_linked h hne
  exact ⟨conn, hconn, heq⟩

/-! ### Waking up -/

/-- There is nothing to write to another worker. -/
def Idle (s : State ι) : Prop :=
  ∀ w d conn, w ≠ d → (s.workers w).conns d = some conn → conn.buffer.data = []

theorem idle_init : Idle (init : State ι) := by
  intro w d conn hne hconn
  simp only [init, if_neg (Ne.symm hne), Option.some.injEq] at hconn
  subst hconn
  rfl

/-- Only a notification puts something into a buffer. -/
theorem step_idle {s s' : State ι} {a : Action ι} (hi : Idle s) (hn : ¬Notifies s a) (h : step s a = some s') :
    Idle s' := by
  intro w d conn hne hconn
  cases a with
  | sendNotify v i command calls =>
    obtain ⟨r, hr, -, -, hconns, -⟩ := step_sendNotify h
    rw [hconns] at hconn
    split at hconn
    · next hvi =>
      obtain ⟨rfl, rfl⟩ := hvi
      cases hold : (s.workers w).conns d with
      | none =>
        rw [hold] at hr
        cases hr
        cases hconn
      | some old =>
        rw [hold] at hr
        simp only [sendNotify] at hr
        split at hr
        · cases hr
        · cases hr
          cases hconn
          exact hi w d conn hne hold
        · next buffer hreserve => exact absurd ⟨hne, old, hold, buffer, hreserve⟩ hn
    · exact hi w d conn hne hconn
  | writeHandler v i result =>
    obtain ⟨-, old, r, hold, hr, -, -, hconns, -⟩ := step_writeHandler h
    rw [hconns] at hconn
    split at hconn
    · next hvi =>
      obtain ⟨rfl, rfl⟩ := hvi
      cases hconn
      have hdata := (writeHandler_spec hr).1
      rw [hi w d old hne hold] at hdata
      exact (List.append_eq_nil_iff.mp hdata).2
    · exact hi w d conn hne hconn
  | readHandler v n =>
    obtain ⟨hconns, -, -⟩ := step_readHandler h
    rw [hconns] at hconn
    exact hi w d conn hne hconn

/-- A notification is not one that wakes its writer up. -/
theorem step_asleep {s : State ι} {a : Action ι} (hl : ∀ w d, w ≠ d → Linked s w d) (hn : Notifies s a) :
    ∃ s', step s a = some s' ∧ ¬Awake s' := by
  cases a with
  | sendNotify w d command calls =>
    obtain ⟨hne, conn, hconn, hbuffer⟩ := hn
    obtain ⟨conn₁, hconn₁, ho, -⟩ := hl w d hne
    obtain rfl : conn = conn₁ := Option.some.inj (hconn.symm.trans hconn₁)
    obtain ⟨conn', hsend⟩ := sendNotify_notifies command ho.capacity hbuffer
    obtain ⟨s', hstep⟩ : ∃ s', step s (.sendNotify w d command calls) = some s' := by
      simp only [step, hconn, hsend, Option.map_some]
      exact ⟨_, rfl⟩
    refine ⟨s', hstep, fun hawake => ?_⟩
    obtain ⟨r, hr, -, -, hconns, -⟩ := step_sendNotify hstep
    obtain rfl : (true, some conn') = r := Option.some.inj (hsend.symm.trans (hconn ▸ hr))
    have hnew : (s'.workers w).conns d = some conn' := by
      rw [hconns, if_pos ⟨rfl, rfl⟩]
    obtain ⟨conn₂, hconn₂, ho', -⟩ := step_linked (hl w d hne) hstep
    obtain rfl : conn' = conn₂ := Option.some.inj (hnew.symm.trans hconn₂)
    refine ho'.awake_iff.mp (hawake w d conn' hne hnew ?_)
    rcases sendNotify_spec hsend with heq | ⟨conn₃, heq, hdata, -, -⟩
    · cases heq
    · cases heq
      rw [Buffer.size, hdata, List.length_append, List.length_singleton]
      exact Nat.succ_ne_zero _
  | writeHandler w d result => exact absurd hn id
  | readHandler w n => exact absurd hn id

/-- **Notifications keep their order in every run. They are never stranded in the runs that notify
nobody**, and in no others: the event that is added is not the one that has been assigned. -/
theorem notify_channels : (∀ t, Run step (fun _ _ => True) (init : State ι) t → Ordered t) ∧
    (∀ t, Run step (fun s a => ¬Notifies s a) (init : State ι) t → Ordered t ∧ Awake t) ∧
    ∀ t a, Run step (fun _ _ => True) (init : State ι) t → Notifies t a →
      ∃ u, step t a = some u ∧ ¬Awake u := by
  refine ⟨fun t h => run_ordered h, fun t h => ⟨run_ordered h, ?_⟩, fun t a h hn => ?_⟩
  · have hidle : Idle t := h.invariant idle_init fun _ _ _ hi hn hstep => step_idle hi hn hstep
    intro w d conn hne hconn hsize
    exact absurd (congrArg List.length (hidle w d conn hne hconn)) hsize
  · exact step_asleep (fun w d hne => run_linked h hne) hn

/-- Of two workers, one notifies the other. -/
theorem notify_asleep : ¬∀ t, Run step (fun _ _ => True) (init : State Bool) t → Ordered t ∧ Awake t := by
  intro h
  have hbuffer : ∃ buffer, reserve {} (setupHandler .write).buffer 1 = .ok buffer := by
    refine ⟨(setupHandler .write).buffer, ?_⟩
    unfold reserve
    rw [if_pos]
    rw [Buffer.freeSize_eq, setupHandler, List.length_replicate]
    decide
  have hn : Notifies (init : State Bool) (.sendNotify false true 0 {}) :=
    ⟨by decide, setupHandler .write, rfl, hbuffer⟩
  obtain ⟨u, hstep, hasleep⟩ := step_asleep (fun w d hne => linked_init hne) hn
  exact hasleep (h u (.next .start trivial hstep)).2

end PgRest.Ipc
