import PgRest.Conn.Partition

/-! The events of the connections. `pgrest_conn_worker_init` creates two for each connection and puts
pointers to them in its record; `pgrest_conn_get` clears the record as a whole. Creating an event is taken
to succeed. -/
namespace PgRest.Conn

/-- The events that `pgrest_conn_worker_init` creates. -/
inductive EventRef where
  | read (conn : Nat)
  | write (conn : Nat)
deriving DecidableEq, Repr

/-- The pool, with the `rev` and the `wev` of its connections. -/
structure Worker where
  pool : Pool
  rev : Nat → Option EventRef
  wev : Nat → Option EventRef

namespace Worker

/-- `pgrest_conn_worker_init` -/
def init (noconn : Nat) : Worker where
  pool := workerInit noconn
  rev i := some (.read i)
  wev i := some (.write i)

/-- `pgrest_conn_get` -/
def get (w : Worker) (fd : Int) : Option (Option Nat × Worker) :=
  (Conn.get w.pool fd).map fun (conn, pool) =>
    match conn with
    | none => (none, { w with pool := pool })
    -- the `MemSet`
    | some i => (some i, ⟨pool, Function.update w.rev i none, Function.update w.wev i none⟩)

/-- `pgrest_conn_free` -/
def free (w : Worker) (i : Nat) : Worker := { w with pool := Conn.free w.pool i }

/-- `pgrest_conn_close`; `none` where `pgrest_event_del` is given NULL. -/
def close (w : Worker) (i : Nat) : Option Worker :=
  if (w.pool.conns i).fd = -1 then some w
  else if w.rev i = none ∨ w.wev i = none then none
  else some { w with pool := Conn.close w.pool i }

end Worker

inductive Call where
  | get (fd : Int)
  | free (i : Nat)
  | close (i : Nat)
deriving DecidableEq, Repr

def Call.isGet : Call → Bool
  | get _ => true
  | _ => false

/-- What is freed or closed is a connection of the pool. -/
def Call.Within (noconn : Nat) : Call → Prop
  | get _ => True
  | free i | close i => i < noconn

/-- A call, with what `pgrest_conn_get` returns. -/
def Worker.step (w : Worker) : Call → Option (Option Nat × Worker)
  | .get fd => w.get fd
  | .free i => some (none, w.free i)
  | .close i => (w.close i).map fun w => (none, w)

/-- A call that has returned. -/
structure Turn where
  call : Call
  before : Worker
  conn : Option Nat
  after : Worker

/-- The calls of a sequence, as far as they return. -/
def turns (w : Worker) : List Call → List Turn
  | [] => []
  | c :: calls => (w.step c).elim [] fun (conn, w') => ⟨c, w, conn, w'⟩ :: turns w' calls

/-- Every connection has its two events. -/
def Worker.Whole (noconn : Nat) (w : Worker) : Prop :=
  ∀ i < noconn, w.rev i = some (.read i) ∧ w.wev i = some (.write i)

/-- The connections keep their events, and NULL is returned only when no connection is free. -/
structure Keeps (noconn : Nat) (calls : List Call) : Prop where
  events : ∀ t ∈ turns (.init noconn) calls, t.after.Whole noconn
  full : ∀ t ∈ turns (.init noconn) calls, t.call.isGet = true → t.conn = none →
    ∀ i < noconn, t.before.pool.inUse i = true

/-! ### Before the first connection is got -/

/-- No connection has been got; freeing some has made nothing of the free list but other links. -/
structure Untouched (noconn : Nat) (w : Worker) : Prop where
  whole : w.Whole noconn
  closed : ∀ i, (w.pool.conns i).fd = -1
  links : ∀ i, ∃ next, (w.pool.conns i).data = .next next
  head : ∃ i < noconn, w.pool.freeConns = some i

variable {noconn : Nat} {w w' : Worker} {c : Call} {calls : List Call} {conn : Option Nat}

theorem Untouched.init (h : 0 < noconn) : Untouched noconn (.init noconn) where
  whole _ _ := ⟨rfl, rfl⟩
  closed _ := rfl
  links _ := ⟨_, rfl⟩
  head := ⟨0, h, rfl⟩

theorem Untouched.free (h : Untouched noconn w) {i : Nat} (hi : i < noconn) : Untouched noconn (w.free i) where
  whole := h.whole
  closed j := by
    by_cases hj : j = i
    · subst hj
      simpa [Worker.free, Conn.free] using h.closed j
    · simpa [Worker.free, Conn.free, hj] using h.closed j
  links j := by
    by_cases hj : j = i
    · subst hj
      exact ⟨w.pool.freeConns, by simp [Worker.free, Conn.free]⟩
    · simpa [Worker.free, Conn.free, hj] using h.links j
  head := ⟨i, hi, rfl⟩

/-- A call other than `pgrest_conn_get` returns, and keeps it so. -/
theorem Untouched.step (h : Untouched noconn w) (hc : c.Within noconn) (hget : c.isGet = false) :
    ∃ w', w.step c = some (none, w') ∧ Untouched noconn w' := by
  cases c with
  | get fd => cases hget
  | free i => exact ⟨w.free i, rfl, h.free hc⟩
  | close i =>
    refine ⟨w, ?_, h⟩
    rw [Worker.step, Worker.close, if_pos (h.closed i)]
    rfl

/-- The first connection that is got loses its events. -/
theorem Untouched.get (h : Untouched noconn w) (fd : Int) :
    ∃ i w', w.get fd = some (some i, w') ∧ i < noconn ∧ w'.rev i = none := by
  obtain ⟨i, hi, hhead⟩ := h.head
  obtain ⟨next, hdata⟩ := h.links i
  have hget : ∃ pool, Conn.get w.pool fd = some (some i, pool) := by
    rw [Conn.get]
    simp [hhead, hdata]
  obtain ⟨pool, hget⟩ := hget
  refine ⟨i, ⟨pool, Function.update w.rev i none, Function.update w.wev i none⟩, ?_, hi, ?_⟩
  · rw [Worker.get, hget]
    rfl
  · exact Function.update_self ..

theorem turns_cons (h : w.step c = some (conn, w')) :
    turns w (c :: calls) = ⟨c, w, conn, w'⟩ :: turns w' calls := by
  rw [turns, h]
  rfl

/-- As long as no connection is got, every turn leaves the events. -/
theorem Untouched.turns (h : Untouched noconn w) (hcalls : ∀ c ∈ calls, c.Within noconn)
    (hget : ∀ c ∈ calls, c.isGet = false) :
    ∀ t ∈ turns w calls, t.call.isGet = false ∧ t.after.Whole noconn := by
  induction calls generalizing w with
  | nil =>
    intro t ht
    cases ht
  | cons c calls ih =>
    have hc := hget c (List.mem_cons_self ..)
    obtain ⟨w', hstep, hnext⟩ := h.step (hcalls c (List.mem_cons_self ..)) hc
    rw [turns_cons hstep]
    intro t ht
    rcases List.mem_cons.mp ht with rfl | ht
    · exact ⟨hc, hnext.whole⟩
    · exact ih hnext (fun c hc => hcalls c (List.mem_cons_of_mem _ hc))
        (fun c hc => hget c (List.mem_cons_of_mem _ hc)) t ht

/-- Where every turn leaves the events, no connection is got. -/
theorem Untouched.not_get (h : Untouched noconn w) (hcalls : ∀ c ∈ calls, c.Within noconn)
    (hwhole : ∀ t ∈ Conn.turns w calls, t.after.Whole noconn) : ∀ c ∈ calls, c.isGet = false := by
  induction calls generalizing w with
  | nil =>
    intro c hc
    cases hc
  | cons c calls ih =>
    have hfirst : c.isGet = false := by
      cases c with
      | get fd =>
        obtain ⟨i, w', hget, hi, hlost⟩ := h.get fd
        rw [turns_cons (show w.step (.get fd) = some (some i, w') from hget)] at hwhole
        have hkept := (hwhole _ (List.mem_cons_self ..) i hi).1
        rw [hlost] at hkept
        cases hkept
      | _ => rfl
    obtain ⟨w', hstep, hnext⟩ := h.step (hcalls c (List.mem_cons_self ..)) hfirst
    rw [turns_cons hstep] at hwhole
    intro c' hc'
    rcases List.mem_cons.mp hc' with rfl | hc'
    · exact hfirst
    · exact ih hnext (fun c hc => hcalls c (List.mem_cons_of_mem _ hc))
        (fun t ht => hwhole t (List.mem_cons_of_mem _ ht)) c' hc'

/-- **Connections keep their events** exactly until one is got. -/
theorem keeps_iff (noconn : Nat) (calls : List Call) (h : 1 ≤ noconn) (hcalls : ∀ c ∈ calls, c.Within noconn) :
    Keeps noconn calls ↔ ∀ c ∈ calls, c.isGet = false := by
  have hinit := Untouched.init h
  constructor
  · intro hkeeps
    exact hinit.not_get hcalls hkeeps.events
  · intro hget
    have hturns := hinit.turns hcalls hget
    refine ⟨fun t ht => (hturns t ht).2, fun t ht hisget => ?_⟩
    rw [(hturns t ht).1] at hisget
    cases hisget

/-- A connection freed and closed that has never been got. -/
theorem keeps_closed : Keeps 2 [.free 1, .close 1] :=
  (keeps_iff 2 [.free 1, .close 1] (by decide) (by simp [Call.Within])).mpr (by decide)

/-- The first connection that a worker gets has no events. -/
theorem got_not_kept : ¬Keeps 1 [.get 5] := by
  intro h
  have hkept := (h.events _ (List.mem_singleton_self _) 0 Nat.one_pos).1
  cases hkept

/-! ### Connections that are held -/

/-- What is freed or closed is in use, and what is got has a descriptor. -/
def Call.Held (w : Worker) : Call → Prop
  | .get fd => fd ≠ -1
  | .free i | .close i => w.pool.inUse i = true

/-- The lists are right, no connection is reusable, and those in use are without events. -/
structure Spent (noconn : Nat) (w : Worker) : Prop where
  lists : Partitioned noconn w.pool
  idle : ∀ i, (w.pool.conns i).reusable = false
  lost : ∀ i, w.pool.inUse i = true → w.rev i = none ∧ w.wev i = none

theorem Spent.init (h : 0 < noconn) : Spent noconn (.init noconn) where
  lists := ⟨_, workerInit_partition noconn h⟩
  idle _ := rfl
  lost i hi := by cases hi

variable {p : Pool} {l : List Nat} {i : Nat}

/-- `pgrest_conn_free` by itself. -/
theorem Partition.freeOnly (h : Partition noconn p l) (hi : p.inUse i = true)
    (hr : (p.conns i).reusable = false) : Partition noconn (Conn.free p i) (i :: l) := by
  have hback : ((Conn.free p i).set i { (Conn.free p i).conns i with fd := -1 }).set i ((Conn.free p i).conns i) =
      Conn.free p i := by
    simp [Pool.set]
  rw [← hback]
  exact (h.free hi hr).write (fun _ => by simp) fun hused => by simp [Conn.free] at hused

/-- With nothing on the reuse list `pgrest_conn_drain` does nothing. -/
theorem Spent.drain (h : Spent noconn w) : Conn.drain w.pool = w.pool := by
  obtain ⟨l, hpart⟩ := h.lists
  have hempty : w.pool.reuseConns = [] := by
    refine List.eq_nil_iff_forall_not_mem.mpr fun i hi => ?_
    have hreusable := ((hpart.mem_reuse i).mp hi).2
    rw [h.idle i] at hreusable
    cases hreusable
  rw [Conn.drain, hempty]
  rfl

/-- `pgrest_conn_get`, of which nothing is left but the head of the free list. -/
theorem Spent.get_eq (h : Spent noconn w) (fd : Int) :
    w.pool.freeConns = none ∧ w.get fd = some (none, w) ∨
      ∃ i pool, w.get fd = some (some i, ⟨pool, Function.update w.rev i none, Function.update w.wev i none⟩) ∧
        Conn.get w.pool fd = some (some i, pool) ∧ pool.conns = Function.update w.pool.conns i { fd := fd } ∧
        pool.inUse = Function.update w.pool.inUse i true := by
  obtain ⟨l, hpart⟩ := h.lists
  have hlinks := hpart.links
  have hstay : (if w.pool.freeConns.isNone then Conn.drain w.pool else w.pool) = w.pool := by
    rw [h.drain, ite_self]
  cases hhead : w.pool.freeConns with
  | none =>
    refine Or.inl ⟨rfl, ?_⟩
    rw [Worker.get, Conn.get, hstay, hhead]
    rfl
  | some i =>
    rw [hhead] at hlinks
    cases hlinks with
    | @cons _ next _ hdata _ =>
    have hget : Conn.get w.pool fd = some (some i, { w.pool with
        freeConns := next, freeNoconn := w.pool.freeNoconn - 1
        conns := Function.update w.pool.conns i { fd := fd }
        inUse := Function.update w.pool.inUse i true }) := by
      rw [Conn.get, hstay, hhead]
      simp only [hdata]
    refine Or.inr ⟨i, _, ?_, hget, rfl, rfl⟩
    rw [Worker.get, hget]
    rfl

theorem Spent.step (h : Spent noconn w) (hc : c.Held w) (hs : w.step c = some (conn, w')) : Spent noconn w' := by
  obtain ⟨l, hpart⟩ := h.lists
  cases c with
  | get fd =>
    rcases h.get_eq fd with ⟨-, hget⟩ | ⟨i, pool, hget, hpool, hconns, hinUse⟩
    · cases hget.symm.trans hs
      exact h
    · cases hget.symm.trans hs
      refine ⟨?_, fun j => ?_, fun j hj => ?_⟩
      · rcases hpart.get fd hc with ⟨q, hq, hpartq⟩ | ⟨k, q, l', hq, hpartq, -⟩
        · cases hpool.symm.trans hq
        · cases hpool.symm.trans hq
          exact ⟨l', hpartq⟩
      · by_cases hj : j = i
        · simp [hconns, hj]
        · simpa [hconns, hj] using h.idle j
      · by_cases hji : j = i
        · simp [hji]
        · simpa [hji] using h.lost j (by simpa [hinUse, hji] using hj)
  | free i =>
    cases hs
    refine ⟨⟨_, hpart.freeOnly hc (h.idle i)⟩, fun j => ?_, fun j hj => h.lost j ?_⟩
    · by_cases hj : j = i
      · subst hj
        simpa [Worker.free, Conn.free] using h.idle j
      · simpa [Worker.free, Conn.free, hj] using h.idle j
    · by_cases hji : j = i
      · subst hji
        exact hc
      · simpa [Worker.free, Conn.free, hji] using hj
  | close i =>
    rw [Worker.step, Worker.close, if_neg (hpart.opened i hc).2, if_pos (Or.inl (h.lost i hc).1)] at hs
    cases hs

/-- A run of the calls. -/
abbrev HeldRun (noconn : Nat) : Worker → Prop :=
  Lib.Run (fun w c => (w.step c).map Prod.snd) (fun w c => c.Held w) (.init noconn)

theorem HeldRun.spent (h : 0 < noconn) (hrun : HeldRun noconn w) : Spent noconn w :=
  hrun.invariant (Spent.init h) fun w c w' hspent hheld hstep => by
    obtain ⟨⟨conn, w''⟩, hs, rfl⟩ := Option.map_eq_some_iff.mp hstep
    exact hspent.step hheld hs

/-- NULL is returned only when every connection is in use. -/
theorem HeldRun.full (h : 0 < noconn) (hrun : HeldRun noconn w) {fd : Int} (hget : w.get fd = some (none, w')) :
    ∀ i < noconn, w.pool.inUse i = true := by
  have hspent := hrun.spent h
  obtain ⟨l, hpart⟩ := hspent.lists
  rcases hspent.get_eq fd with ⟨hhead, -⟩ | ⟨i, pool, hsome, -⟩
  · intro i hi
    by_contra hfree
    have hmem := (hpart.mem_free i).mpr ⟨hi, by simpa using hfree⟩
    have hlinks := hpart.links
    rw [hhead] at hlinks
    cases hlinks
    cases hmem
  · cases hsome.symm.trans hget

/-- Closing a connection in use hands NULL to `pgrest_event_del`. -/
theorem HeldRun.close (h : 0 < noconn) (hrun : HeldRun noconn w) (hi : w.pool.inUse i = true) :
    w.close i = none := by
  have hspent := hrun.spent h
  obtain ⟨l, hpart⟩ := hspent.lists
  rw [Worker.close, if_neg (hpart.opened i hi).2, if_pos (Or.inl (hspent.lost i hi).1)]

end PgRest.Conn
