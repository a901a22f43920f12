import PgRest.Conn.Pool

/-! Every connection of a worker is either free or in use, and the lists say so: the free
list links the free ones, and the reuse list has the reusable ones among those in use.
Each handler keeps this, but for one branch: `pgrest_http_init_handler` puts a
connection on the reuse list after closing it, when it cannot add the read event. -/
namespace PgRest.Conn
open Lib

/-- From `head` on, the links run through the connections of the list. -/
inductive Links (conns : Nat → Connection) : Option Nat → List Nat → Prop
  | nil : Links conns none []
  | cons {i : Nat} {next : Option Nat} {l : List Nat} : (conns i).data = .next next →
      Links conns next l → Links conns (some i) (i :: l)

/-- The pool with its free list. -/
structure Partition (noconn : Nat) (p : Pool) (free : List Nat) : Prop where
  links : Links p.conns p.freeConns free
  nodup : free.Nodup
  mem_free : ∀ i, i ∈ free ↔ i < noconn ∧ p.inUse i = false
  count : p.freeNoconn = free.length
  reuse_nodup : p.reuseConns.Nodup
  mem_reuse : ∀ i, i ∈ p.reuseConns ↔ p.inUse i = true ∧ (p.conns i).reusable = true
  opened : ∀ i, p.inUse i = true → i < noconn ∧ (p.conns i).fd ≠ -1

theorem Links.congr {conns conns' : Nat → Connection} {head : Option Nat} {l : List Nat}
    (h : Links conns head l) (heq : ∀ i ∈ l, (conns' i).data = (conns i).data) : Links conns' head l := by
  induction h with
  | nil => exact .nil
  | cons hdata _ ih =>
    exact .cons ((heq _ (List.mem_cons_self ..)).trans hdata)
      (ih fun i hi => heq i (List.mem_cons_of_mem _ hi))

variable {noconn : Nat} {p : Pool} {l : List Nat} {i : Nat}

theorem Partition.not_mem_free (h : Partition noconn p l) (hi : p.inUse i = true) : i ∉ l := by
  intro hmem
  have := ((h.mem_free i).mp hmem).2
  rw [hi] at this
  cases this

theorem Partition.ne_of_mem (h : Partition noconn p l) (hi : p.inUse i = true) {j : Nat} (hj : j ∈ l) :
    j ≠ i := by
  rintro rfl
  exact h.not_mem_free hi hj

/-! ### The operations of the pool -/

@[simp] theorem set_inUse (p : Pool) (i : Nat) (c : Connection) : (p.set i c).inUse = p.inUse := rfl
@[simp] theorem set_freeConns (p : Pool) (i : Nat) (c : Connection) :
    (p.set i c).freeConns = p.freeConns := rfl
@[simp] theorem set_reuseConns (p : Pool) (i : Nat) (c : Connection) :
    (p.set i c).reuseConns = p.reuseConns := rfl
@[simp] theorem set_self (p : Pool) (i : Nat) (c : Connection) : (p.set i c).conns i = c :=
  Function.update_self ..
@[simp] theorem set_of_ne (p : Pool) {i j : Nat} (h : j ≠ i) (c : Connection) :
    (p.set i c).conns j = p.conns j := Function.update_of_ne h ..

/-- A connection may be written, as far as the lists do not depend on it. -/
theorem Partition.write (h : Partition noconn p l) {c : Connection} (hfree : i ∈ l → c.data = (p.conns i).data)
    (hused : p.inUse i = true → c.fd = (p.conns i).fd ∧ c.reusable = (p.conns i).reusable) :
    Partition noconn (p.set i c) l where
  links := h.links.congr fun j hj => by
    by_cases hji : j = i
    · subst hji
      rw [set_self, hfree hj]
    · rw [set_of_ne p hji]
  nodup := h.nodup
  mem_free := h.mem_free
  count := h.count
  reuse_nodup := h.reuse_nodup
  mem_reuse j := by
    by_cases hj : j = i
    · subst hj
      rw [set_reuseConns, set_inUse, set_self, h.mem_reuse j]
      exact and_congr_right fun hj => by rw [(hused hj).2]
    · simpa [hj] using h.mem_reuse j
  opened j hj := by
    by_cases hji : j = i
    · subst hji
      rw [set_self, (hused hj).1]
      exact h.opened j hj
    · simpa [hji] using h.opened j hj

/-- One that is in use. -/
theorem Partition.set (h : Partition noconn p l) (hi : p.inUse i = true) {c : Connection}
    (hfd : c.fd = (p.conns i).fd) (hr : c.reusable = (p.conns i).reusable) :
    Partition noconn (p.set i c) l :=
  h.write (fun hmem => absurd hmem (h.not_mem_free hi)) fun _ => ⟨hfd, hr⟩

@[simp] theorem reusable_inUse (p : Pool) (i : Nat) (r : Bool) : (reusable p i r).inUse = p.inUse := by
  unfold reusable
  dsimp only
  split <;> split <;> rfl

theorem reusable_conns (p : Pool) (i : Nat) (r : Bool) :
    (reusable p i r).conns = (p.set i { p.conns i with reusable := r }).conns := by
  unfold reusable
  dsimp only
  split <;> split <;> rfl

theorem reusable_reuseConns (p : Pool) (i : Nat) (r : Bool) :
    (reusable p i r).reuseConns =
      (if r then [i] else []) ++ if (p.conns i).reusable then p.reuseConns.erase i else p.reuseConns := by
  unfold reusable
  dsimp only
  split <;> split <;> rfl

theorem reusable_free (p : Pool) (i : Nat) (r : Bool) :
    (reusable p i r).freeConns = p.freeConns ∧ (reusable p i r).freeNoconn = p.freeNoconn := by
  unfold reusable
  dsimp only
  split <;> split <;> exact ⟨rfl, rfl⟩

/-- `pgrest_conn_reusable`, called for a connection in use. -/
theorem Partition.reusable (h : Partition noconn p l) (hi : p.inUse i = true) (r : Bool) :
    Partition noconn (reusable p i r) l := by
  obtain ⟨hfree, hcount⟩ := reusable_free p i r
  -- without the connection the reuse list has the others
  have hothers : ∀ j, j ∈ (if (p.conns i).reusable then p.reuseConns.erase i else p.reuseConns) ↔
      j ≠ i ∧ j ∈ p.reuseConns := by
    intro j
    split
    · exact h.reuse_nodup.mem_erase_iff
    · next hr =>
      refine ⟨fun hj => ⟨?_, hj⟩, And.right⟩
      rintro rfl
      exact hr ((h.mem_reuse j).mp hj).2
  have hnodup : (if (p.conns i).reusable then p.reuseConns.erase i else p.reuseConns).Nodup := by
    split
    · exact h.reuse_nodup.erase i
    · exact h.reuse_nodup
  refine ⟨?_, h.nodup, ?_, by rw [hcount, h.count], ?_, fun j => ?_, fun j hj => ?_⟩
  · rw [hfree, reusable_conns]
    exact h.links.congr fun j hj => by rw [set_of_ne p (h.ne_of_mem hi hj)]
  · simpa using h.mem_free
  · rw [reusable_reuseConns]
    cases r with
    | false => simpa using hnodup
    | true =>
      refine List.nodup_cons.mpr ⟨fun hmem => ((hothers i).mp hmem).1 rfl, hnodup⟩
  · rw [reusable_reuseConns, reusable_conns, List.mem_append, hothers j, reusable_inUse]
    by_cases hj : j = i
    · subst hj
      cases r <;> simp [hi]
    · rw [set_of_ne _ hj, h.mem_reuse j]
      cases r <;> simp [hj]
  · rw [reusable_inUse] at hj
    rw [reusable_conns]
    by_cases hji : j = i
    · subst hji
      simpa using h.opened j hj
    · simpa [hji] using h.opened j hj

/-- A connection in use that is not on the reuse list goes back to the free list. -/
theorem Partition.free (h : Partition noconn p l) (hi : p.inUse i = true)
    (hr : (p.conns i).reusable = false) :
    Partition noconn ((free p i).set i { (free p i).conns i with fd := -1 }) (i :: l) := by
  have hne : ∀ j ∈ l, j ≠ i := fun j hj => h.ne_of_mem hi hj
  refine ⟨@Links.cons _ i p.freeConns l (by simp [Conn.free]) (h.links.congr fun j hj => ?_), ?_, fun j => ?_,
    ?_, h.reuse_nodup, fun j => ?_, fun j hj => ?_⟩
  · simp [Conn.free, hne j hj]
  · exact List.nodup_cons.mpr ⟨h.not_mem_free hi, h.nodup⟩
  · by_cases hj : j = i
    · subst hj
      simpa [Conn.free] using (h.opened j hi).1
    · simpa [Conn.free, hj] using h.mem_free j
  · simp [Conn.free, Pool.set, h.count]
  · by_cases hj : j = i
    · subst hj
      have hout : j ∉ p.reuseConns := fun hmem => by
        have := ((h.mem_reuse j).mp hmem).2
        rw [hr] at this
        cases this
      simpa [Conn.free, Pool.set] using hout
    · simpa [Conn.free, Pool.set, hj] using h.mem_reuse j
  · have hji : j ≠ i := by
      rintro rfl
      simp [Conn.free] at hj
    simpa [Conn.free, hji] using h.opened j (by simpa [Conn.free, hji] using hj)

/-- `pgrest_conn_close`, called for a connection in use. -/
theorem Partition.close (h : Partition noconn p l) (hi : p.inUse i = true) :
    Partition noconn (close p i) (i :: l) := by
  rw [Conn.close, if_neg (h.opened i hi).2]
  refine (h.reusable hi false).free (by simpa using hi) ?_
  simp [reusable_conns]

theorem Partition.drain (h : Partition noconn p l) : Partition noconn (drain p) l := by
  unfold Conn.drain
  split
  · exact h
  · next i hlast =>
    exact h.set ((h.mem_reuse i).mp (List.mem_of_getLast? hlast)).1 rfl rfl

/-- `pgrest_conn_get` finds a link behind the free list's head; the connection it hands
out is on neither list. -/
theorem Partition.get (h : Partition noconn p l) (fd : Int) (hfd : fd ≠ -1) :
    (∃ p', get p fd = some (none, p') ∧ Partition noconn p' l) ∨
      ∃ i p' l', get p fd = some (some i, p') ∧ Partition noconn p' l' ∧ p'.inUse i = true ∧
        (p'.conns i).reusable = false := by
  have hdrained : Partition noconn (if p.freeConns.isNone then Conn.drain p else p) l := by
    split
    · exact h.drain
    · exact h
  unfold Conn.get
  dsimp only
  generalize (if p.freeConns.isNone then Conn.drain p else p) = q at hdrained
  cases l with
  | nil =>
    have hlinks := hdrained.links
    generalize hhead : q.freeConns = head at hlinks
    cases hlinks
    exact Or.inl ⟨q, rfl, hdrained⟩
  | cons i l =>
    have hlinks := hdrained.links
    generalize hhead : q.freeConns = head at hlinks
    cases hlinks with
    | @cons _ next _ hdata hrest =>
    obtain ⟨hout, hnodup⟩ := List.nodup_cons.mp hdrained.nodup
    have hfree : q.inUse i = false := ((hdrained.mem_free i).mp (List.mem_cons_self ..)).2
    have hne : ∀ j ∈ l, j ≠ i := fun j hj hji => hout (hji ▸ hj)
    refine Or.inr ⟨i, { q with
        freeConns := next, freeNoconn := q.freeNoconn - 1
        conns := Function.update q.conns i { fd := fd }, inUse := Function.update q.inUse i true },
      l, by simp only [hdata], ?_, by simp, by simp⟩
    refine ⟨hrest.congr fun j hj => by simp [hne j hj], hnodup, fun j => ?_, ?_, hdrained.reuse_nodup,
      fun j => ?_, fun j hj => ?_⟩
    · by_cases hj : j = i
      · subst hj
        simpa using hout
      · simpa [hj] using hdrained.mem_free j
    · simp [hdrained.count]
    · by_cases hj : j = i
      · subst hj
        have hreuse : j ∉ q.reuseConns := fun hmem => by
          have := ((hdrained.mem_reuse j).mp hmem).1
          rw [hfree] at this
          cases this
        simpa using hreuse
      · simpa [hj] using hdrained.mem_reuse j
    · by_cases hji : j = i
      · subst hji
        simpa [hfd] using ((hdrained.mem_free j).mp (List.mem_cons_self ..)).1
      · simpa [hji] using hdrained.opened j (by simpa [hji] using hj)

/-! ### The handlers -/

/-- The lists partition the connections. -/
def Partitioned (noconn : Nat) (p : Pool) : Prop := ∃ free, Partition noconn p free

theorem Partition.httpConnClose (h : Partition noconn p l) (hi : p.inUse i = true) :
    Partitioned noconn (httpConnClose p i) := ⟨_, h.close hi⟩

theorem Partition.httpConnInit (h : Partition noconn p l) (hi : p.inUse i = true) (calls : Setup) :
    Partitioned noconn (httpConnInit p i calls) := by
  unfold Conn.httpConnInit
  dsimp only
  split
  · exact h.httpConnClose hi
  have hdata := h.set hi (c := { p.conns i with data := .hconn }) rfl rfl
  split
  · exact hdata.httpConnClose hi
  have hhandler := hdata.set hi
    (c := { (p.set i { p.conns i with data := .hconn }).conns i with revHandler := .init }) rfl rfl
  split
  · exact ⟨_, hhandler⟩
  have hreusable := hhandler.reusable hi true
  split
  · exact hreusable.httpConnClose (by simpa using hi)
  split
  · exact hreusable.httpConnClose (by simpa using hi)
  split
  · exact hreusable.httpConnClose (by simpa using hi)
  · exact ⟨_, hreusable⟩

theorem Partition.acceptHandler (h : Partition noconn p l) (fd : Nat) (calls : Setup) :
    ∃ p', acceptHandler p fd calls = some p' ∧ Partitioned noconn p' := by
  rcases h.get fd (by omega) with ⟨p', hget, h'⟩ | ⟨i, p', l', hget, h', hi, hr⟩
  · exact ⟨p', by simp [Conn.acceptHandler, hget], l, h'⟩
  · refine ⟨_, by rw [Conn.acceptHandler, hget]; rfl, ?_⟩
    have hclose : Partitioned noconn (acceptorCloseConn p' i) := ⟨_, h'.free hi hr⟩
    split
    · exact hclose
    split
    · exact hclose
    split
    · exact hclose
    split
    · exact hclose
    · exact h'.httpConnInit hi calls

theorem Partition.readRequest (h : Partition noconn p l) (hi : p.inUse i = true) (created : Bool) :
    Partitioned noconn (readRequest p i created) := by
  unfold Conn.readRequest
  dsimp only
  have hreusable := h.reusable hi false
  have hi' : (Conn.reusable p i false).inUse i = true := by simpa using hi
  split
  · exact ⟨_, hreusable.set hi' rfl rfl⟩
  · exact Partition.httpConnClose (hreusable.set hi' rfl rfl) hi'

/-- The read event is not added after PGREST_AGAIN. -/
def Event.addFails (e : Event) : Bool :=
  !e.timeout && e.buffer && e.recv == .again false

theorem Partition.initHandler (h : Partition noconn p l) (hi : p.inUse i = true) (e : Event)
    (hadd : e.addFails = false ∨ (p.conns i).close = true) : Partitioned noconn (initHandler p i e) := by
  unfold Conn.initHandler
  split
  · exact h.httpConnClose hi
  next htimeout =>
  split
  · exact h.httpConnClose hi
  next hclose =>
  split
  · exact h.httpConnClose hi
  next hbuffer =>
  split
  · next added hrecv =>
    cases added with
    | true => exact ⟨_, h.reusable hi true⟩
    | false =>
      have hbuffer : e.buffer = true := by simpa using hbuffer
      simp [Event.addFails, htimeout, hbuffer, hrecv, hclose] at hadd
  · exact h.httpConnClose hi
  · exact h.httpConnClose hi
  · exact h.readRequest hi _

theorem Partition.keepaliveHandler (h : Partition noconn p l) (hi : p.inUse i = true) (e : Event) :
    Partitioned noconn (keepaliveHandler p i e) := by
  unfold Conn.keepaliveHandler
  split
  · exact h.httpConnClose hi
  split
  · split
    · exact ⟨l, h⟩
    · exact h.httpConnClose hi
  · exact h.httpConnClose hi
  · exact h.httpConnClose hi
  · exact h.readRequest hi _

theorem Partition.setKeepalive (h : Partition noconn p l) (hi : p.inUse i = true) (calls : Keepalive) :
    Partitioned noconn (setKeepalive p i calls) := by
  unfold Conn.setKeepalive
  dsimp only
  split
  · exact h.httpConnClose hi
  have hdata := h.set hi (c := { p.conns i with data := .hconn }) rfl rfl
  split
  · split
    · exact hdata.httpConnClose hi
    · exact ⟨_, hdata.set hi rfl rfl⟩
  have hhandler := hdata.set hi
    (c := { (p.set i { p.conns i with data := .hconn }).conns i with revHandler := .keepalive }) rfl rfl
  split
  · exact hhandler.httpConnClose hi
  split
  · exact hhandler.httpConnClose hi
  split
  · exact hhandler.httpConnClose hi
  have hreusable := hhandler.reusable hi true
  split
  · exact hreusable.httpConnClose (by simpa using hi)
  · exact ⟨_, hreusable⟩

/-! ### Runs -/

theorem workerInit_links (n i k : Nat) (h : i + k = n) :
    Links (workerInit n).conns (if i < n then some i else none) (List.range' i k) := by
  induction k generalizing i with
  | zero =>
    rw [if_neg (by omega)]
    exact .nil
  | succ k ih =>
    rw [if_pos (by omega)]
    exact @Links.cons _ i (if i + 1 < n then some (i + 1) else none) _ rfl (ih (i + 1) (by omega))

theorem workerInit_partition (n : Nat) (h : 0 < n) : Partition n (workerInit n) (List.range' 0 n) := by
  refine ⟨?_, List.nodup_range', fun i => ?_, ?_, List.nodup_nil, fun i => ?_, fun i hi => ?_⟩
  · have hlinks := workerInit_links n 0 n (by omega)
    rwa [if_pos h] at hlinks
  · simp [workerInit, List.mem_range'_1]
  · simp [workerInit]
  · simp [workerInit]
  · cases hi

/-- No read event of a connection that waits for its first request fails to be added. -/
def allows (p : Pool) (a : Action) : Bool :=
  match a with
  | .read i e => !((p.conns i).revHandler == .init && !(p.conns i).close && e.addFails)
  | _ => true

theorem step_partitioned {p' : Pool} {a : Action} (h : Partitioned noconn p) (hallow : allows p a = true)
    (hs : step p a = some p') : Partitioned noconn p' := by
  obtain ⟨l, h⟩ := h
  cases a with
  | accept fd calls =>
    obtain ⟨q, hq, hpart⟩ := h.acceptHandler fd calls
    cases hq.symm.trans hs
    exact hpart
  | read i e =>
    simp only [step] at hs
    split at hs
    · next hi =>
      split at hs
      · next hinit =>
        cases hs
        refine h.initHandler hi e ?_
        simp only [allows, hinit, beq_self_eq_true, Bool.true_and, Bool.not_eq_true', Bool.and_eq_false_iff,
          Bool.not_eq_false'] at hallow
        exact hallow.symm
      · cases hs
        exact h.keepaliveHandler hi e
      · cases hs
    · cases hs
  | keep i calls =>
    simp only [step] at hs
    split at hs
    · next hi =>
      cases hs
      exact h.setKeepalive (Bool.and_eq_true_iff.mp hi).1 calls
    · cases hs
  | close i =>
    simp only [step] at hs
    split at hs
    · next hi =>
      cases hs
      exact h.httpConnClose (Bool.and_eq_true_iff.mp hi).1
    · cases hs

theorem Partition.disjoint (h : Partition noconn p l) : ∀ i ∈ l, i ∉ p.reuseConns := by
  intro i hi hmem
  have hused := ((h.mem_reuse i).mp hmem).1
  exact h.not_mem_free hused hi

/-- In a run in which that never fails, the free list has the connections that are not in
use and `pgrest_conn_free_noconn` counts them, and the reuse list has the reusable
ones of those in use. -/
theorem run_partition (h : 0 < noconn)
    (hrun : Run step (fun p a => allows p a = true) (workerInit noconn) p) :
    ∃ free, Partition noconn p free ∧ ∀ i ∈ free, i ∉ p.reuseConns := by
  have hpart : Partitioned noconn p :=
    hrun.invariant ⟨_, workerInit_partition noconn h⟩ fun _ _ _ hpart hallow hstep =>
      step_partitioned hpart hallow hstep
  obtain ⟨free, hfree⟩ := hpart
  exact ⟨free, hfree, hfree.disjoint⟩

/-- A connection accepted, with its request read. -/
theorem run_partition_request : ∃ p, Run step (fun p a => allows p a = true) (workerInit 2) p ∧
    p.freeConns = some 1 ∧ ∃ free, Partition 2 p free ∧ ∀ i ∈ free, i ∉ p.reuseConns := by
  have hrun : (runList (fun p a => if allows p a = true then step p a else none) (workerInit 2)
      [.accept 5 {}, .read 0 { recv := .again true }, .read 0 {}]).map (·.freeConns) = some (some 1) := by
    decide
  obtain ⟨p, hp, hfree⟩ := Option.map_eq_some_iff.mp hrun
  have h := Run.of_runList .start hp
  exact ⟨p, h, hfree, run_partition (by decide) h⟩

/-- The only connection is closed and then put on the reuse list, because no bytes are
there yet and its read event cannot be added again. -/
theorem run_free_on_reuse : ∃ p, Run step (fun _ _ => True) (workerInit 1) p ∧
    p.freeConns = some 0 ∧ p.reuseConns = [0] ∧
    ¬∃ free, Partition 1 p free ∧ ∀ i ∈ free, i ∉ p.reuseConns := by
  have hrun : (runList (fun p a => if True then step p a else none) (workerInit 1)
      [.accept 5 {}, .read 0 { recv := .again false }]).map (fun p => (p.freeConns, p.reuseConns)) =
      some (some 0, [0]) := by
    decide
  obtain ⟨p, hp, hlists⟩ := Option.map_eq_some_iff.mp hrun
  obtain ⟨hfree, hreuse⟩ := Prod.mk.inj hlists
  refine ⟨p, Run.of_runList .start hp, hfree, hreuse, ?_⟩
  rintro ⟨free, hpart, hdisjoint⟩
  have hlinks := hpart.links
  rw [hfree] at hlinks
  cases hlinks with
  | cons => exact hdisjoint 0 (List.mem_cons_self ..) (by simp [hreuse])

end PgRest.Conn
