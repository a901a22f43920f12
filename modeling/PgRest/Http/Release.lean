import PgRest.Http.Keepalive

/-! The end of a request and of its connection. `pgrest_http_free_request` gives back the pool
the request lies in, and `pgrest_http_conn_close` the connection: after that neither may be touched.
The functions that end a request are modelled by what they do to the two, in order; how the
calls come out that they make is what they are given. -/
namespace PgRest.Http
open Memory

/-- What is done to a request and its connection. -/
inductive Act where
  /-- the request is read or written -/
  | request
  /-- the connection, or its `pgrest_http_connection_t`, is read or written -/
  | connection
  /-- one of its events is added, deleted or made active -/
  | schedule
  /-- the request is released -/
  | free
  /-- the connection is closed and released -/
  | close
deriving DecidableEq, Repr

/-- The request, and what has been done so far. -/
structure Ending where
  /-- `req->count` -/
  count : BitVec 16
  /-- `req->pool` is not NULL -/
  pool : Bool := true
  acts : List Act := []

/-- A request that nothing but the connection holds. -/
def Ending.start : Ending := { count := 1 }

def Ending.act (s : Ending) (a : Act) : Ending := { s with acts := s.acts ++ [a] }

/-- `pgrest_http_free_request` -/
def freeRequest (s : Ending) : Ending :=
  let s := s.act .request
  if s.pool then { (s.act .connection).act .free with pool := false } else s

/-- `pgrest_http_conn_close` -/
def connClose (s : Ending) : Ending := (s.act .connection).act .close

/-- `pgrest_http_close_request` -/
def closeRequest (s : Ending) : Ending :=
  let s := { s.act .request with count := s.count - 1 }
  if s.count = 0 then connClose (freeRequest s) else s

/-! ### Lingering close -/

/-- What `pgrest_conn_recv` returns. -/
inductive Received where
  | bytes
  | again
  | zero
  | error
deriving DecidableEq

structure LingeringCalls where
  eventAdd : Bool := true
  /-- the write event is edge-triggered -/
  writeEt : Bool := false
  eventDel : Bool := true
  shutdown : Bool := true
  /-- `conn->ready` -/
  ready : Bool := false
  /-- the time, in seconds, that the handler sees -/
  now : BitVec 64 := 0
  /-- `req->lingering_time` -/
  lingeringTime : BitVec 64 := 0
  /-- what `recv` returns in the handler, with what it leaves in `conn->ready` -/
  recvs : List (Received × Bool) := []
  /-- the `event_add` at the end of the handler -/
  handlerAdd : Bool := true

/-- The loop of `pgrest_http_lingering_close_handler`; it goes on with the request unless it has
closed it. When there are no more returns it is still in the loop. -/
def lingeringRecv : List (Received × Bool) → Ending → Ending × Bool
  | [], s => (s, false)
  | (ret, ready) :: recvs, s =>
    let s := s.act .connection
    if ret = .error ∨ ret = .zero then (closeRequest s, false)
    else if ready then lingeringRecv recvs s
    else (s, true)

/-- `pgrest_http_lingering_close_handler` -/
def lingeringCloseHandler (calls : LingeringCalls) (timeout : Bool) (s : Ending) : Ending :=
  let s := s.act .connection
  if timeout then closeRequest s
  else
    let s := (s.act .connection).act .request
    if (calls.lingeringTime - calls.now).toInt ≤ 0 then closeRequest s
    else
      match lingeringRecv calls.recvs s with
      | (s, false) => s
      | (s, true) =>
        let s := (s.act .request).act .schedule
        if calls.handlerAdd then s else closeRequest s

/-- `pgrest_http_set_lingering_close`, from `shutdown` on. -/
def shutdownWrite (calls : LingeringCalls) (s : Ending) : Ending :=
  let s := s.act .connection
  if calls.shutdown then
    let s := s.act .connection
    if calls.ready then lingeringCloseHandler calls false s else s
  else closeRequest s

/-- `pgrest_http_set_lingering_close`. It goes on where it has closed the request. -/
def setLingeringClose (calls : LingeringCalls) (s : Ending) : Ending :=
  let s := (s.act .request).act .connection
  let s := (s.act .request).act .schedule
  let s := if calls.eventAdd then s else closeRequest s
  let s := s.act .connection
  if calls.writeEt then shutdownWrite calls s
  else
    let s := s.act .schedule
    shutdownWrite calls (if calls.eventDel then s else closeRequest s)

/-! ### Keep-alive -/

/-- The end of `pgrest_http_set_keepalive` when nothing is left. -/
def waitKeepaliveActs (calls : KeepaliveCalls) (conn : Conn) (ready : Bool) (s : Ending) : Ending :=
  let s := s.act .connection
  let s := if calls.writeEt then s else s.act .schedule
  if !calls.writeEt && !calls.eventDel then connClose s
  else
    let s := s.act .connection
    if conn.tcpNopush = .set ∧ calls.tcpPush = false then connClose s
    else
      let s := s.act .connection
      if setsNodelay calls conn && !calls.setsockopt then connClose s
      else
        let s := (s.act .connection).act .schedule
        let s := if calls.eventAdd then s else connClose s
        let s := s.act .connection
        if ready then s.act .schedule else s

/-- `pgrest_http_set_keepalive`, when `pgrest_http_buffer_left` has returned `left`; `split` is
that of the body and `reserved` says whether there is room for a request behind it. -/
def setKeepaliveActs (calls : KeepaliveCalls) (conn : Conn) (left : Nat) (split reserved ready : Bool)
    (s : Ending) : Ending :=
  let s := (s.act .request).act .connection
  if 0 < left ∧ split = true ∧ reserved = false then closeRequest s
  else
    let s := (freeRequest ((s.act .connection).act .request)).act .connection
    if left = 0 then waitKeepaliveActs calls conn ready s
    else if calls.createRequest then (s.act .connection).act .schedule
    else connClose s

/-- Both are released at most once, and when the connection has been closed nothing more is
done to either. -/
structure Orderly (acts : List Act) : Prop where
  free : acts.count .free ≤ 1
  close : acts.count .close ≤ 1
  last : ∀ before after, acts = before ++ .close :: after → after = []

/-! ### Held, freed, closed -/

/-- Neither has been released. -/
structure Held (s : Ending) : Prop where
  count : s.count = 1
  pool : s.pool = true
  free : .free ∉ s.acts
  close : .close ∉ s.acts

/-- The request has been released, the connection has not. -/
structure Freed (s : Ending) : Prop where
  free : s.acts.count .free = 1
  close : .close ∉ s.acts

/-- Nothing is released. -/
def Act.plain : Act → Bool
  | .free | .close => false
  | _ => true

theorem Act.plain_ne {a : Act} (h : a.plain = true) : .free ≠ a ∧ .close ≠ a := by
  cases a <;> simp_all [plain]

theorem not_mem_act {s : Ending} {a b : Act} (h : b ∉ s.acts) (hne : b ≠ a) : b ∉ (s.act a).acts := by
  simpa [Ending.act, hne] using h

theorem held_start : Held .start := ⟨rfl, rfl, List.not_mem_nil, List.not_mem_nil⟩

section Acts
variable {s : Ending} {a : Act}

theorem Held.act (h : Held s) (ha : a.plain = true) : Held (s.act a) :=
  ⟨h.count, h.pool, not_mem_act h.free (Act.plain_ne ha).1, not_mem_act h.close (Act.plain_ne ha).2⟩

theorem Freed.act (h : Freed s) (ha : a.plain = true) : Freed (s.act a) := by
  refine ⟨?_, not_mem_act h.close (Act.plain_ne ha).2⟩
  rw [Ending.act, List.count_append, h.free, List.count_singleton]
  simp [(Act.plain_ne ha).1.symm]

theorem freed_freeRequest (hpool : s.pool = true) (hf : .free ∉ s.acts) (hc : .close ∉ s.acts) :
    Freed (freeRequest s) := by
  have hf' : .free ∉ ((s.act .request).act .connection).acts :=
    not_mem_act (not_mem_act hf (by decide)) (by decide)
  have hc' : .close ∉ ((s.act .request).act .connection).acts :=
    not_mem_act (not_mem_act hc (by decide)) (by decide)
  have hpool' : (s.act .request).pool = true := hpool
  rw [freeRequest]
  dsimp only
  rw [if_pos hpool']
  refine ⟨?_, not_mem_act hc' (by decide)⟩
  show (((s.act .request).act .connection).acts ++ [Act.free]).count .free = 1
  rw [List.count_append, List.count_eq_zero.mpr hf']
  rfl

theorem orderly_open {acts : List Act} (hf : acts.count .free ≤ 1) (hc : .close ∉ acts) : Orderly acts where
  free := hf
  close := by
    rw [List.count_eq_zero.mpr hc]
    exact Nat.zero_le 1
  last before after heq := absurd (heq ▸ List.mem_append_right before List.mem_cons_self) hc

theorem Held.orderly (h : Held s) : Orderly s.acts := by
  apply orderly_open _ h.close
  rw [List.count_eq_zero.mpr h.free]
  exact Nat.zero_le 1

theorem Freed.orderly (h : Freed s) : Orderly s.acts := orderly_open (Nat.le_of_eq h.free) h.close

/-- The connection is closed last. -/
theorem Freed.connClose (h : Freed s) : Orderly (connClose s).acts := by
  have hs : Freed (s.act .connection) := h.act rfl
  have hacts : (Http.connClose s).acts = (s.act .connection).acts ++ [.close] := rfl
  rw [hacts]
  refine ⟨?_, ?_, fun before after heq => ?_⟩
  · rw [List.count_append, hs.free]
    decide
  · rw [List.count_append, List.count_eq_zero.mpr hs.close]
    decide
  · rcases List.eq_nil_or_concat after with hnil | ⟨after', b, rfl⟩
    · exact hnil
    · rw [List.concat_eq_append, ← List.cons_append, ← List.append_assoc] at heq
      have hsplit := (List.append_inj' heq rfl).1
      exact absurd (hsplit ▸ List.mem_append_right before List.mem_cons_self) hs.close

theorem Held.freeRequest (h : Held s) : Freed (freeRequest s) := freed_freeRequest h.pool h.free h.close

theorem Held.closeRequest (h : Held s) : Orderly (closeRequest s).acts := by
  have hzero : s.count - 1 = 0 := by
    rw [h.count]
    decide
  have hs : Held (s.act .request) := h.act rfl
  rw [Http.closeRequest]
  dsimp only
  rw [if_pos hzero]
  have hfreed := freed_freeRequest (s := { s.act .request with count := s.count - 1 }) hs.pool hs.free hs.close
  exact hfreed.connClose

/-! ### Acts after the connection has been closed -/

/-- The connection has been closed. -/
def Closed (s : Ending) : Prop := .close ∈ s.acts

/-- Something has been done since. -/
def Late (s : Ending) : Prop := ∃ before a after, s.acts = before ++ .close :: a :: after

theorem closed_connClose (s : Ending) : Closed (connClose s) := List.mem_append_right _ List.mem_cons_self

theorem Held.closed (h : Held s) : Closed (Http.closeRequest s) := by
  have hzero : s.count - 1 = 0 := by
    rw [h.count]
    decide
  rw [Http.closeRequest]
  dsimp only
  rw [if_pos hzero]
  exact closed_connClose _

theorem Closed.act (h : Closed s) (a : Act) : Late (s.act a) := by
  obtain ⟨before, after, hsplit⟩ := List.append_of_mem h
  cases after with
  | nil => exact ⟨before, a, [], by rw [Ending.act, hsplit, List.append_assoc]; rfl⟩
  | cons b after => exact ⟨before, b, after ++ [a], by rw [Ending.act, hsplit, List.append_assoc]; rfl⟩

theorem Late.act (h : Late s) (a : Act) : Late (s.act a) := by
  obtain ⟨before, b, after, hsplit⟩ := h
  exact ⟨before, b, after ++ [a], by rw [Ending.act, hsplit, List.append_assoc]; rfl⟩

theorem late_connClose (s : Ending) (a : Act) : Late ((Http.connClose s).act a) := (closed_connClose s).act a

theorem Late.connClose (h : Late s) : Late (connClose s) := (h.act .connection).act .close

theorem Late.freeRequest (h : Late s) : Late (freeRequest s) := by
  have hs := h.act .request
  rw [Http.freeRequest]
  dsimp only
  split
  · exact (hs.act .connection).act .free
  · exact hs

theorem Late.closeRequest (h : Late s) : Late (closeRequest s) := by
  have hs : Late { s.act .request with count := s.count - 1 } := h.act .request
  rw [Http.closeRequest]
  dsimp only
  split
  · exact hs.freeRequest.connClose
  · exact hs

theorem Late.lingeringRecv (h : Late s) (recvs : List (Received × Bool)) :
    Late (lingeringRecv recvs s).1 := by
  induction recvs generalizing s with
  | nil => exact h
  | cons r recvs ih =>
    have hs := h.act .connection
    rw [Http.lingeringRecv]
    split
    · exact hs.closeRequest
    split
    · exact ih hs
    · exact hs

theorem Late.lingeringCloseHandler (h : Late s) (calls : LingeringCalls) (timeout : Bool) :
    Late (lingeringCloseHandler calls timeout s) := by
  have hs := ((h.act .connection).act .connection).act .request
  have hloop := hs.lingeringRecv calls.recvs
  rw [Http.lingeringCloseHandler]
  dsimp only
  split
  · exact (h.act .connection).closeRequest
  split
  · exact hs.closeRequest
  split
  · next heq => rwa [heq] at hloop
  · next heq =>
    rw [heq] at hloop
    split
    · exact (hloop.act .request).act .schedule
    · exact ((hloop.act .request).act .schedule).closeRequest

theorem Late.not_orderly (h : Late s) : ¬Orderly s.acts := by
  obtain ⟨before, a, after, hsplit⟩ := h
  exact fun ho => absurd (ho.last before _ hsplit) (by simp)

end Acts

/-! ### What each function does -/

theorem Held.lingeringRecv {s : Ending} (h : Held s) (recvs : List (Received × Bool)) :
    if (lingeringRecv recvs s).2 then Held (lingeringRecv recvs s).1
    else Orderly (lingeringRecv recvs s).1.acts := by
  induction recvs generalizing s with
  | nil => exact h.orderly
  | cons r recvs ih =>
    have hs : Held (s.act .connection) := h.act rfl
    rw [Http.lingeringRecv]
    split
    · exact hs.closeRequest
    split
    · exact ih hs
    · exact hs

/-- The handler is in order whatever happens. -/
theorem Held.lingeringCloseHandler {s : Ending} (h : Held s) (calls : LingeringCalls) (timeout : Bool) :
    Orderly (lingeringCloseHandler calls timeout s).acts := by
  have hs : Held (((s.act .connection).act .connection).act .request) :=
    ((h.act rfl).act rfl).act rfl
  have hloop := hs.lingeringRecv calls.recvs
  rw [Http.lingeringCloseHandler]
  dsimp only
  split
  · exact Held.closeRequest (h.act rfl)
  split
  · exact hs.closeRequest
  split
  · next heq => simpa [heq] using hloop
  · next s' heq =>
    have hs' : Held s' := by simpa [heq] using hloop
    have hadd : Held ((s'.act .request).act .schedule) := (hs'.act rfl).act rfl
    split
    · exact hadd.orderly
    · exact hadd.closeRequest

theorem Held.shutdownWrite {s : Ending} (h : Held s) (calls : LingeringCalls) :
    Orderly (shutdownWrite calls s).acts := by
  have hs : Held (s.act .connection) := h.act rfl
  rw [Http.shutdownWrite]
  dsimp only
  split
  · have hready : Held ((s.act .connection).act .connection) := hs.act rfl
    split
    · exact hready.lingeringCloseHandler calls false
    · exact hready.orderly
  · exact hs.closeRequest

theorem Late.shutdownWrite {s : Ending} (h : Late s) (calls : LingeringCalls) : Late (shutdownWrite calls s) := by
  have hs := h.act .connection
  rw [Http.shutdownWrite]
  dsimp only
  split
  · split
    · exact (hs.act .connection).lingeringCloseHandler calls false
    · exact hs.act .connection
  · exact hs.closeRequest

theorem Closed.shutdownWrite {s : Ending} (h : Closed s) (calls : LingeringCalls) :
    Late (shutdownWrite calls s) := by
  have hs := h.act .connection
  rw [Http.shutdownWrite]
  dsimp only
  split
  · split
    · exact (hs.act .connection).lingeringCloseHandler calls false
    · exact hs.act .connection
  · exact hs.closeRequest

/-- Setting lingering close is in order when neither call for an event fails. -/
theorem setLingeringClose_orderly (calls : LingeringCalls) {s : Ending} (h : Held s) :
    Orderly (setLingeringClose calls s).acts ↔
      calls.eventAdd = true ∧ (calls.writeEt = true ∨ calls.eventDel = true) := by
  have hs : Held ((((s.act .request).act .connection).act .request).act .schedule) :=
    (((h.act rfl).act rfl).act rfl).act rfl
  rw [setLingeringClose]
  dsimp only
  cases calls.eventAdd with
  | false =>
    have hlate := hs.closed.act .connection
    simp only [Bool.false_eq_true, if_false, false_and, iff_false]
    split
    · exact (hlate.shutdownWrite calls).not_orderly
    · apply Late.not_orderly
      apply Late.shutdownWrite
      split
      · exact hlate.act .schedule
      · exact (hlate.act .schedule).closeRequest
  | true =>
    have hadd := hs.act (a := .connection) rfl
    simp only [if_true, true_and]
    cases calls.writeEt with
    | true => exact iff_of_true (hadd.shutdownWrite calls) (.inl rfl)
    | false =>
      have hdel := hadd.act (a := .schedule) rfl
      cases calls.eventDel with
      | true => exact iff_of_true (hdel.shutdownWrite calls) (.inr rfl)
      | false => exact iff_of_false (hdel.closed.shutdownWrite calls).not_orderly (by simp)

/-- The `event_add` at the end of `pgrest_http_set_keepalive` is called. -/
def WaitsForNext (calls : KeepaliveCalls) (conn : Conn) : Prop :=
  (calls.writeEt = true ∨ calls.eventDel = true) ∧ (conn.tcpNopush = .set → calls.tcpPush = true) ∧
    (setsNodelay calls conn = true → calls.setsockopt = true)

theorem waitKeepalive_orderly (calls : KeepaliveCalls) (conn : Conn) (ready : Bool) {s : Ending} (h : Freed s) :
    Orderly (waitKeepaliveActs calls conn ready s).acts ↔ (WaitsForNext calls conn → calls.eventAdd = true) := by
  have hwrite : Freed (if calls.writeEt then s.act .connection else (s.act .connection).act .schedule) := by
    split
    · exact h.act rfl
    · exact (h.act rfl).act rfl
  have hpush := hwrite.act (a := .connection) rfl
  have hsock := hpush.act (a := .connection) rfl
  have hwait := (hsock.act (a := .connection) rfl).act (a := .schedule) rfl
  rw [waitKeepaliveActs, WaitsForNext]
  dsimp only
  split
  · next hdel =>
    simp only [Bool.and_eq_true, Bool.not_eq_true'] at hdel
    exact iff_of_true hwrite.connClose fun hcond => by simp [hdel] at hcond
  split
  · next hnopush => exact iff_of_true hpush.connClose fun hcond => by simp [hnopush] at hcond
  split
  · next hnodelay =>
    simp only [Bool.and_eq_true, Bool.not_eq_true'] at hnodelay
    exact iff_of_true hsock.connClose fun hcond => by simp [hnodelay] at hcond
  next hdel hnopush hnodelay =>
  cases hadd : calls.eventAdd with
  | true =>
    simp only [if_true, implies_true, iff_true]
    have hend := hwait.act (a := .connection) rfl
    split
    · exact (hend.act (a := .schedule) rfl).orderly
    · exact hend.orderly
  | false =>
    have hcond : (calls.writeEt = true ∨ calls.eventDel = true) ∧ (conn.tcpNopush = .set → calls.tcpPush = true) ∧
        (setsNodelay calls conn = true → calls.setsockopt = true) := by
      refine ⟨?_, fun hset => ?_, fun hset => ?_⟩
      · revert hdel
        cases calls.writeEt <;> cases calls.eventDel <;> simp
      · cases hp : calls.tcpPush with
        | true => rfl
        | false => exact absurd ⟨hset, hp⟩ hnopush
      · cases hp : calls.setsockopt with
        | true => rfl
        | false => exact absurd (by rw [hset, hp]; rfl) hnodelay
    refine iff_of_false ?_ fun himp => by simpa using himp hcond
    simp only [Bool.false_eq_true, if_false]
    split
    · exact Late.not_orderly ((late_connClose _ _).act .schedule)
    · exact Late.not_orderly (late_connClose _ _)

/-- Keeping the connection is in order when the wait for the next request does not fail. -/
theorem setKeepalive_orderly (calls : KeepaliveCalls) (conn : Conn) (left : Nat) (split reserved ready : Bool)
    {s : Ending} (h : Held s) :
    Orderly (setKeepaliveActs calls conn left split reserved ready s).acts ↔
      (left = 0 → WaitsForNext calls conn → calls.eventAdd = true) := by
  have hs : Held ((s.act .request).act .connection) := (h.act rfl).act rfl
  have hfree : Freed
      ((freeRequest (((((s.act .request).act .connection).act .connection).act .request))).act .connection) :=
    (((hs.act rfl).act rfl).freeRequest).act rfl
  rw [setKeepaliveActs]
  dsimp only
  split
  · next hres => exact iff_of_true hs.closeRequest fun hleft => absurd hres.1 (by simp [hleft])
  split
  · next hleft =>
    rw [waitKeepalive_orderly calls conn ready hfree]
    exact ⟨fun hw _ => hw, fun hw => hw hleft⟩
  next hleft =>
  refine iff_of_true ?_ fun hzero => absurd hzero hleft
  split
  · exact ((hfree.act (a := .connection) rfl).act (a := .schedule) rfl).orderly
  · exact hfree.connClose

/-! ### The connection is closed where `pgrest_http_set_keepalive` says so -/

theorem Held.not_closed {s : Ending} (h : Held s) : ¬Closed s := h.close

theorem Freed.not_closed {s : Ending} (h : Freed s) : ¬Closed s := h.close

theorem Late.closed {s : Ending} (h : Late s) : Closed s := by
  obtain ⟨before, a, after, hsplit⟩ := h
  rw [Closed, hsplit]
  exact List.mem_append_right before List.mem_cons_self

theorem waitKeepalive_closed (calls : KeepaliveCalls) (conn : Conn) (ready : Bool) {s : Ending} (h : Freed s) :
    waitKeepalive calls conn = .closed ↔ Closed (waitKeepaliveActs calls conn ready s) := by
  have hwrite : Freed (if calls.writeEt then s.act .connection else (s.act .connection).act .schedule) := by
    split
    · exact h.act rfl
    · exact (h.act rfl).act rfl
  have hend : Freed _ :=
    ((((hwrite.act (a := .connection) rfl).act (a := .connection) rfl).act (a := .connection) rfl).act
      (a := .schedule) rfl).act (a := .connection) rfl
  rw [waitKeepalive, waitKeepaliveActs]
  dsimp only
  split
  · exact iff_of_true rfl (closed_connClose _)
  split
  · exact iff_of_true rfl (closed_connClose _)
  split
  · exact iff_of_true rfl (closed_connClose _)
  cases calls.eventAdd with
  | true =>
    simp only [if_true]
    refine iff_of_false (by simp) ?_
    split
    · exact (hend.act (a := .schedule) rfl).not_closed
    · exact hend.not_closed
  | false =>
    simp only [Bool.false_eq_true, if_false]
    refine iff_of_true trivial ?_
    split
    · exact Late.closed ((late_connClose _ _).act .schedule)
    · exact Late.closed (late_connClose _ _)

/-- Whether `pgrest_buffer_reserve` has made room. -/
def reservedOk : Reserved → Bool
  | .ok _ => true
  | _ => false

theorem setKeepalive_closed {calls : KeepaliveCalls} {conn : Conn} {headerOnly : Bool} {req req' : Request}
    {left : Nat} {s : Ending} (h : Held s) (hleft : bufferLeft headerOnly req = some (req', left))
    (ready : Bool)
    (hdef : setKeepalive calls conn headerOnly req ≠ .undefined) :
    setKeepalive calls conn headerOnly req = .closed ↔
      Closed (setKeepaliveActs calls conn left req'.split
        (reservedOk (reserve calls.reserve req'.headerIn left)) ready s) := by
  have hs : Held ((s.act .request).act .connection) := (h.act rfl).act rfl
  have hfree : Freed ((freeRequest (((((s.act .request).act .connection).act .connection).act
      .request))).act .connection) := (((hs.act rfl).act rfl).freeRequest).act rfl
  rw [setKeepalive, hleft] at hdef ⊢
  rw [setKeepaliveActs]
  dsimp only at hdef ⊢
  by_cases hzero : left = 0
  · subst hzero
    rw [if_pos rfl, if_neg (by simp), if_pos rfl]
    exact waitKeepalive_closed calls _ ready hfree
  rw [if_neg hzero] at hdef ⊢
  have hnew : Freed (((freeRequest (((((s.act .request).act .connection).act .connection).act
      .request))).act .connection).act .connection |>.act .schedule) := (hfree.act rfl).act rfl
  have hpos : 0 < left := Nat.pos_of_ne_zero hzero
  cases hsplit : req'.split with
  | false =>
    simp only [hsplit, Bool.false_eq_true, false_and, and_false, if_false, hzero] at hdef ⊢
    cases calls.createRequest with
    | true => exact iff_of_false (by simp) hnew.not_closed
    | false => exact iff_of_true rfl (closed_connClose _)
  | true =>
    simp only [hsplit, if_true, true_and, hzero, if_false, hpos] at hdef ⊢
    cases hres : reserve calls.reserve req'.headerIn left with
    | failed buf => exact iff_of_true rfl ((hs.closed))
    | crashed => exact absurd (by rw [hres]) hdef
    | ok buf =>
      rw [hres] at hdef
      simp only [reservedOk, Bool.true_eq_false, if_false] at hdef ⊢
      split at hdef
      · exact absurd rfl hdef
      next hroom =>
      rw [if_neg hroom]
      cases calls.createRequest with
      | true => exact iff_of_false (by simp) hnew.not_closed
      | false => exact iff_of_true rfl (closed_connClose _)

/-- **A request is released at most once** and nothing is touched after the connection has been
closed, in the handler whatever its calls return, and in the two others exactly when the calls
after whose failure they go on do not fail. -/
theorem release_once (calls : LingeringCalls) (calls' : KeepaliveCalls) (conn : Conn) (left : Nat)
    (timeout split reserved ready : Bool) :
    (Orderly (setLingeringClose calls .start).acts ↔
      calls.eventAdd = true ∧ (calls.writeEt = true ∨ calls.eventDel = true)) ∧
    Orderly (lingeringCloseHandler calls timeout .start).acts ∧
    (Orderly (setKeepaliveActs calls' conn left split reserved ready .start).acts ↔
      (left = 0 → WaitsForNext calls' conn → calls'.eventAdd = true)) :=
  ⟨setLingeringClose_orderly calls held_start, held_start.lingeringCloseHandler calls timeout,
    setKeepalive_orderly calls' conn left split reserved ready held_start⟩

/-- `event_add` fails in `pgrest_http_set_lingering_close`. -/
theorem release_late : ¬∀ calls, Orderly (setLingeringClose calls .start).acts := by
  intro h
  have hadd := (setLingeringClose_orderly { eventAdd := false } held_start).mp (h _)
  exact absurd hadd.1 (by decide)

end PgRest.Http
