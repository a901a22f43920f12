import PgRest.Lib.Run
import PgRest.Http.HeadHandler

/-! What has been received is parsed before it is waited for more. A head comes to the
header handler with the `parse` flag, from the init handler or from a request before it, or
is read by the handler itself. Only `pgrest_http_keepalive_handler` reads and does not set
the flag: what it has read lies there until more is received. -/
namespace PgRest.Http
open Lib Memory

/-- A connection from its start on, over all of its requests. -/
structure Life where
  state : HeadState
  /-- the keep-alive handler has begun the request, and nothing has been received since -/
  begun : Bool

def Life.start : Life := ⟨.start, false⟩

def HeadState.isIdle : HeadState → Bool
  | .idle _ => true
  | _ => false

def HeadEvent.isRecv : HeadEvent → Bool
  | .recv _ _ _ => true
  | _ => false

def HeadEvent.isAgain : HeadEvent → Bool
  | .again _ => true
  | _ => false

def Life.step (conf : HeadConf) (s : Life) (e : HeadEvent) : Option Life :=
  (s.state.step conf e).map fun state =>
    ⟨state, if e.isRecv then s.state.isIdle else s.begun⟩

/-- Where the header handler waits, it has parsed all that is in its buffer. -/
def HeadParsed (s : Life) : Prop := ∀ conn, s.state = .waiting conn → conn.prevSize = conn.buffer.size

/-- The wait is not for a request that the keep-alive handler has only just begun. -/
def Continues (s : Life) (e : HeadEvent) : Prop := e.isAgain = true → s.begun = false

/-- What holds in every state of a connection. -/
def LifeHolds (s : Life) : Prop :=
  match s.state with
  | .reading conn _ _ | .waiting conn =>
    conn.parse = false ∧ if s.begun then conn.prevSize < conn.buffer.size else conn.prevSize = conn.buffer.size
  | .idle conn => s.begun = false ∧ conn.parse = false ∧ conn.prevSize = 0 ∧ conn.buffer.size = 0
  | .pipelined conn => s.begun = false ∧ conn.parse = true
  | .accepted _ | .processing _ _ => s.begun = false
  | _ => True

section Steps
variable {conf : HeadConf} {s s' : Life} {e : HeadEvent} {conn : Conn}

/-- A parse leaves `prev_size` at what is in the buffer. -/
theorem holds_parseHead {calls : Calls} {ready : Bool} {room : Nat} (h : conn.parse = false) :
    LifeHolds ⟨parseHead conf calls conn ready room, false⟩ := by
  unfold parseHead
  dsimp only
  cases (phrParseRequest conn.buffer.data room conn.prevSize).2 with
  | complete n => rfl
  | error =>
    dsimp only
    split
    · trivial
    · trivial
  | again =>
    dsimp only
    split
    · unfold extendHeaderBuffer
      dsimp only
      split
      · next buf hbuf =>
        split at hbuf
        · cases hbuf
        split at hbuf
        · next buf' hr =>
          cases hbuf
          exact ⟨h, (congrArg List.length (reserve_data hr)).symm⟩
        · cases hbuf
        · cases hbuf
      · trivial
      · trivial
      · trivial
    · exact ⟨h, rfl⟩

theorem holds_headerHandler {calls : Calls} {ready : Bool} (h : conn.parse = true) :
    LifeHolds ⟨headerHandler conf calls conn ready, false⟩ := by
  rw [headerHandler, if_pos h]
  exact holds_parseHead rfl

theorem headerHandler_reads (calls : Calls) (ready : Bool) (h : conn.parse = false) :
    headerHandler conf calls conn ready = .reading conn ready maxHeaders := if_neg (by simp [h])

theorem bufferLeft_size {headerOnly : Bool} {req req' : Request} (h : bufferLeft headerOnly req = some (req', 0)) :
    req'.headerIn.size = 0 := by
  unfold bufferLeft at h
  split at h
  · obtain ⟨buf, -, heq⟩ := Option.map_eq_some_iff.mp h
    obtain ⟨rfl, hsize⟩ := Prod.mk.inj heq
    exact hsize
  · obtain ⟨buf, -, heq⟩ := Option.map_eq_some_iff.mp h
    obtain ⟨rfl, -⟩ := Prod.mk.inj heq
    rfl

/-- A request that is over leaves its connection with a flag for what is left of it. -/
theorem holds_kept {calls : KeepaliveCalls} {headerOnly : Bool} {req : Request} :
    LifeHolds ⟨(setKeepalive calls conn headerOnly req).state, false⟩ := by
  unfold setKeepalive
  cases hleft : bufferLeft headerOnly req with
  | none => trivial
  | some r =>
    obtain ⟨req', left⟩ := r
    dsimp only
    by_cases h0 : left = 0
    · subst h0
      rw [if_pos rfl]
      cases hwait : waitKeepalive calls { conn with buffer := req'.headerIn, prevSize := 0, parse := false } with
      | kept c =>
        obtain ⟨hbuf, hparse, hprev⟩ := waitKeepalive_kept hwait
        rw [Kept.state, hparse, if_neg (by simp)]
        exact ⟨rfl, hparse, hprev, by rw [hbuf]; exact bufferLeft_size hleft⟩
      | closed => trivial
      | undefined => trivial
    · rw [if_neg h0]
      split
      · trivial
      · trivial
      split
      · trivial
      split
      · exact ⟨rfl, rfl⟩
      · trivial

theorem life_recv {bs : Bytes} {calls : Calls} {created : Bool} (h : s.step conf (.recv bs calls created) = some s')
    (hs : LifeHolds s) : LifeHolds s' := by
  obtain ⟨state, begun⟩ := s
  obtain ⟨state', hstate', rfl⟩ := Option.map_eq_some_iff.mp h
  cases state with
  | accepted buffer =>
    simp only [HeadState.step] at hstate'
    split at hstate'
    · cases hstate'
      trivial
    split at hstate'
    · cases hstate'
      split
      · exact holds_headerHandler rfl
      · trivial
    · cases hstate'
  | reading conn ready numHeaders =>
    cases ready with
    | false => cases hstate'
    | true =>
      simp only [HeadState.step] at hstate'
      split at hstate'
      · cases hstate'
        exact holds_parseHead hs.1
      · cases hstate'
  | idle conn =>
    obtain ⟨-, hparse, hprev, hsize⟩ := hs
    simp only [HeadState.step] at hstate'
    split at hstate'
    · next hbs =>
      cases hstate'
      split
      · rw [headerHandler_reads _ _ (by exact hparse)]
        refine ⟨hparse, ?_⟩
        show conn.prevSize < (conn.buffer.recv bs).size
        have := List.length_pos_iff.mpr hbs.1
        rw [hprev, Buffer.size_recv]
        omega
      · trivial
    · cases hstate'
  | _ => cases hstate'

/-- Everything else that may happen ends the connection or the request. -/
theorem step_ends {state state' : HeadState}
    (he : e = .recvZero ∨ e = .recvError ∨ e = .timeout ∨ e = .close) (h : state.step conf e = some state') :
    (∃ status, state' = .finalized status) ∨ state' = .closed := by
  rcases he with rfl | rfl | rfl | rfl <;> cases state with
  | reading conn ready => cases ready <;> cases h <;> simp
  | _ => cases h <;> simp

theorem life_step (h : s.step conf e = some s') (hs : LifeHolds s) : LifeHolds s' := by
  by_cases he : e = .recvZero ∨ e = .recvError ∨ e = .timeout ∨ e = .close
  · obtain ⟨state', hstate', rfl⟩ := Option.map_eq_some_iff.mp h
    rcases step_ends he hstate' with ⟨status, rfl⟩ | rfl <;> trivial
  cases e with
  | recv bs calls created => exact life_recv h hs
  | again added =>
    obtain ⟨state, begun⟩ := s
    obtain ⟨state', hstate', rfl⟩ := Option.map_eq_some_iff.mp h
    cases state with
    | reading conn ready =>
      have hstate : state' = if added then .waiting conn else .closed := by
        cases ready <;> cases hstate' <;> rfl
      rw [hstate]
      cases added with
      | true => exact hs
      | false => trivial
    | accepted =>
      cases hstate'
      cases added with
      | true => exact hs
      | false => trivial
    | idle =>
      cases hstate'
      cases added with
      | true => exact hs
      | false => trivial
    | _ => cases hstate'
  | read calls =>
    obtain ⟨state, begun⟩ := s
    obtain ⟨state', hstate', rfl⟩ := Option.map_eq_some_iff.mp h
    cases state with
    | waiting conn =>
      cases hstate'
      rw [headerHandler_reads _ _ hs.1]
      exact hs
    | pipelined conn =>
      cases hstate'
      obtain ⟨hbegun, hparse⟩ := hs
      cases hbegun
      exact holds_headerHandler hparse
    | reading conn ready => cases ready <;> cases hstate'
    | _ => cases hstate'
  | complete calls headerOnly req =>
    obtain ⟨state, begun⟩ := s
    obtain ⟨state', hstate', rfl⟩ := Option.map_eq_some_iff.mp h
    cases state with
    | processing conn head =>
      cases (hs : begun = false)
      simp only [HeadState.step] at hstate'
      split at hstate'
      · cases hstate'
        exact holds_kept
      · cases hstate'
        exact holds_kept
    | reading conn ready => cases ready <;> cases hstate'
    | _ => cases hstate'
  | recvZero => exact absurd (by simp) he
  | recvError => exact absurd (by simp) he
  | timeout => exact absurd (by simp) he
  | close => exact absurd (by simp) he

theorem life_run {ok : Life → HeadEvent → Prop} (h : Run (Life.step conf) ok .start s) : LifeHolds s :=
  h.invariant rfl fun _ _ _ hu _ hstep => life_step hstep hu

theorem parseHead_goes {calls : Calls} {ready : Bool} {room : Nat} {conn' : Conn} :
    parseHead conf calls conn ready room ≠ .waiting conn' := by
  unfold parseHead
  dsimp only
  repeat' split
  all_goals exact nofun

theorem headerHandler_goes {calls : Calls} {ready : Bool} {conn' : Conn} :
    headerHandler conf calls conn ready ≠ .waiting conn' := by
  unfold headerHandler
  split
  · exact parseHead_goes
  · exact nofun

theorem kept_goes {kept : Kept} : kept.state ≠ .waiting conn := by
  unfold Kept.state
  repeat' split
  all_goals exact nofun

/-- The header handler waits where there is nothing to be read. -/
theorem waits_again {state : HeadState} (h : state.step conf e = some (.waiting conn)) : e.isAgain = true := by
  cases e with
  | again => rfl
  | recv bs calls created =>
    exfalso
    cases state with
    | accepted buffer =>
      simp only [HeadState.step] at h
      split at h
      · cases h
      split at h
      · split at h
        · exact headerHandler_goes (Option.some.inj h)
        · cases h
      · cases h
    | reading conn ready =>
      cases ready with
      | false => cases h
      | true =>
        simp only [HeadState.step] at h
        split at h
        · exact parseHead_goes (Option.some.inj h)
        · cases h
    | idle =>
      simp only [HeadState.step] at h
      split at h
      · split at h
        · exact headerHandler_goes (Option.some.inj h)
        · cases h
      · cases h
    | _ => cases h
  | read calls =>
    exfalso
    cases state with
    | waiting => exact headerHandler_goes (Option.some.inj h)
    | pipelined => exact headerHandler_goes (Option.some.inj h)
    | reading conn ready => cases ready <;> cases h
    | _ => cases h
  | complete calls headerOnly req =>
    exfalso
    cases state with
    | processing =>
      simp only [HeadState.step] at h
      split at h
      · exact kept_goes (Option.some.inj h)
      · exact kept_goes (Option.some.inj h)
    | reading conn ready => cases ready <;> cases h
    | _ => cases h
  | _ =>
    rcases step_ends (by simp) h with ⟨status, heq⟩ | heq
    · cases heq
    · cases heq

theorem waiting_continues (h : Run (Life.step conf) Continues .start s) (hs : s.state = .waiting conn) :
    s.begun = false := by
  refine h.invariant (P := fun u => ∀ conn, u.state = .waiting conn → u.begun = false)
    (fun conn hconn => nomatch hconn) (fun u e u' hu hok hstep conn hconn => ?_) conn hs
  obtain ⟨state', hstate', rfl⟩ := Option.map_eq_some_iff.mp hstep
  cases (hconn : state' = .waiting conn)
  have hagain := waits_again hstate'
  cases e with
  | again added => exact hok rfl
  | _ => cases hagain

end Steps

variable (conf : HeadConf)

/-- In every life of a connection in which the header handler never waits for the rest of what
the keep-alive handler has just received, it has parsed all there is wherever it waits; and
where it does wait so, it has not. -/
theorem head_parsed :
    (∀ s, Run (Life.step conf) Continues .start s → HeadParsed s) ∧
      ∀ s e s', Run (Life.step conf) (fun _ _ => True) .start s → Life.step conf s e = some s' →
        ¬Continues s e → s'.state = .closed ∨ ¬HeadParsed s' := by
  constructor
  · intro s hrun conn hconn
    have hholds := life_run hrun
    have hbegun := waiting_continues hrun hconn
    obtain ⟨state, begun⟩ := s
    cases hconn
    cases hbegun
    exact hholds.2
  · intro s e s' hrun hstep hno
    have hholds := life_run hrun
    obtain ⟨hagain, hbegun⟩ := Classical.not_imp.mp hno
    obtain ⟨state, begun⟩ := s
    cases (Bool.not_eq_false _ ▸ hbegun : begun = true)
    obtain ⟨state', hstate', rfl⟩ := Option.map_eq_some_iff.mp hstep
    cases e with
    | again added =>
      cases state with
      | reading conn ready =>
        have hstate : state' = if added then .waiting conn else .closed := by
          cases ready <;> cases hstate' <;> rfl
        rw [hstate]
        cases added with
        | false => exact Or.inl rfl
        | true => exact Or.inr fun hparsed => absurd (hparsed conn rfl) (Nat.ne_of_lt hholds.2)
      | accepted => cases hholds
      | idle => cases hholds.1
      | _ => cases hstate'
    | _ => cases hagain

/-! ### A request on a connection that has been kept -/

def keptHead : Bytes := ascii "GET / HTTP/1.0\r\nConnection: keep-alive\r\n\r\n"

/-- A whole second request is received at once, and the header handler waits with none of it parsed. -/
theorem head_unparsed : ∃ s, Run (Life.step .least) (fun _ _ => True) .start s ∧ ¬HeadParsed s := by
  let waits : Life → Bool := fun s =>
    match s.state with
    | .waiting conn => conn.prevSize == 0 && conn.buffer.data == keptHead
    | _ => false
  obtain ⟨s, hs, hcheck⟩ := (Option.any_eq_true _ _).mp (show (runList (Life.step .least) .start
    [.recv keptHead {} true, .complete {} true pipelined, .recv keptHead {} true, .again true]).any waits = true
    by decide +kernel)
  refine ⟨s, .of_runList .start (by simpa using hs), fun hparsed => ?_⟩
  obtain ⟨state, begun⟩ := s
  cases state with
  | waiting conn =>
    simp only [waits, Bool.and_eq_true, beq_iff_eq] at hcheck
    have hsize := hparsed conn rfl
    rw [hcheck.1, Buffer.size, hcheck.2] at hsize
    exact absurd hsize (by decide +kernel)
  | _ => cases hcheck

end PgRest.Http
