import PgRest.Lib.Run
import PgRest.Http.HeadText
import PgRest.Http.HeadHandler

/-! Heads that are delivered in parts. The parse that sees the whole head for the first time
has room for the headers that `num_headers` says: all that there may be where the handler has
just been called, and where it has not, what the parse before has counted. That is nothing,
as that parse only counts line ends, but for the first parse of the connection. -/
namespace PgRest.Http
open Lib Memory

/-- Reading a head from the start of a connection. -/
structure Delivery where
  state : HeadState
  received : Bytes
  /-- how often the connection has been read -/
  reads : Nat
  /-- how often by this call of the handler -/
  turn : Nat

def Delivery.start : Delivery := ⟨.start, [], 0, 0⟩

def Delivery.step (conf : HeadConf) (s : Delivery) (e : HeadEvent) : Option Delivery :=
  (s.state.step conf e).map fun state =>
    match e with
    | .recv bs _ _ => ⟨state, s.received ++ bs, s.reads + 1, s.turn + 1⟩
    | .read _ => ⟨state, s.received, s.reads, 0⟩
    | _ => ⟨state, s.received, s.reads, s.turn⟩

/-- Bytes are delivered, with or without waiting, and no call fails. -/
def HeadEvent.Delivers : HeadEvent → Prop
  | .recv _ calls created => calls.Succeed ∧ created = true
  | .again added => added = true
  | .read calls => calls.Succeed
  | _ => False

instance : (e : HeadEvent) → Decidable e.Delivers
  | .recv _ calls created => inferInstanceAs (Decidable (calls.Succeed ∧ created = true))
  | .again added => inferInstanceAs (Decidable (added = true))
  | .read calls => inferInstanceAs (Decidable calls.Succeed)
  | .recvZero => isFalse id
  | .recvError => isFalse id
  | .timeout => isFalse id
  | .close => isFalse id
  | .complete _ _ _ => isFalse id

/-- The header buffer may not grow any more. -/
def HeadState.refused : HeadState → Bool
  | .finalized status => status == requestHeaderTooLarge
  | _ => false

/-- A step of the delivery that is not refused. -/
def DeliversHead (conf : HeadConf) (s : Delivery) (e : HeadEvent) : Prop :=
  e.Delivers ∧ (s.state.step conf e).any HeadState.refused = false

instance (conf : HeadConf) (s : Delivery) (e : HeadEvent) : Decidable (DeliversHead conf s e) :=
  inferInstanceAs (Decidable (_ ∧ _))

/-- The number of headers that a fresh parse finds in a part of a head. -/
def headerLines (d : Bytes) : Nat := (phrParseRequest d maxHeaders 0).1.headers.length

/-- The read that completes the head of `n` bytes is the first in its call of the handler, or
there are no headers, or it is the second read of the connection and the first has had them all. -/
def MeetsHead (r : PhrRequest) (n : Nat) (s : Delivery) : HeadEvent → Prop
  | .recv bs _ _ => s.received.length < n → n ≤ s.received.length + bs.length →
    s.turn = 0 ∨ r.headers = [] ∨ (s.reads = 1 ∧ r.headers.length ≤ headerLines s.received)
  | _ => True

instance (r : PhrRequest) (n : Nat) (s : Delivery) : (e : HeadEvent) → Decidable (MeetsHead r n s e)
  | .recv bs _ _ => inferInstanceAs (Decidable (s.received.length < n → n ≤ s.received.length + bs.length →
      s.turn = 0 ∨ r.headers = [] ∨ (s.reads = 1 ∧ r.headers.length ≤ headerLines s.received)))
  | .again _ => isTrue trivial
  | .recvZero => isTrue trivial
  | .recvError => isTrue trivial
  | .read _ => isTrue trivial
  | .timeout => isTrue trivial
  | .close => isTrue trivial
  | .complete _ _ _ => isTrue trivial

/-- The head is waited for until it is there, and then it is the one that a fresh parse finds. -/
def Takes (r : PhrRequest) (n : Nat) (s : Delivery) : Prop :=
  match s.state with
  | .accepted _ => s.received.length < n
  | .reading _ _ _ => s.received.length < n
  | .waiting _ => s.received.length < n
  | .processing _ head => head = takeHead r n
  | _ => False

/-- Nothing is read any more. -/
def HeadState.ended : HeadState → Bool
  | .finalized _ => true
  | .http2 => true
  | .closed => true
  | .undefined => true
  | _ => false

theorem step_ended {conf : HeadConf} {state : HeadState} {e : HeadEvent} (h : state.ended = true) :
    state.step conf e = none := by
  cases state <;> cases h <;> cases e <;> rfl

/-! ### One parse -/

section Parse
variable {conf : HeadConf} {calls : Calls} {h : Bytes} {r : PhrRequest} {n room : Nat} {conn : Conn} {ready : Bool}

theorem accepted_pos (hacc : Accepted h r n) : 0 < n := by
  obtain ⟨rest, hp, hlen⟩ := accepted_parses hacc
  obtain ⟨v, rfl, htext⟩ := parseRequest_text hp
  have hv : v ≠ [] := by
    rintro rfl
    cases htext
  have := List.length_pos_iff.mpr hv
  simp only [List.length_append] at hlen
  omega

theorem accepted_headers (hacc : Accepted h r n) : r.headers.length ≤ maxHeaders := by
  obtain ⟨rest, hp, -⟩ := accepted_parses hacc
  by_contra hlt
  obtain ⟨e, he⟩ := (parseRequest_room rfl hp maxHeaders).2 (Nat.lt_of_not_le hlt)
  rw [hp] at he
  cases he

/-- The head is there. -/
theorem parseHead_whole (conf : HeadConf) (calls : Calls) (ready : Bool) (room : Nat) (hacc : Accepted h r n)
    (hd : conn.buffer.data <+: h) (hn : n ≤ conn.buffer.data.length) (hprev : conn.prevSize < n) :
    (r.headers.length ≤ room → ∃ conn', parseHead conf calls conn ready room = .processing conn' (takeHead r n)) ∧
      (room < r.headers.length → (parseHead conf calls conn ready room).ended = true) := by
  obtain ⟨hfits, hfull⟩ := phr_whole room hacc hd hn hprev
  constructor
  · intro hle
    refine ⟨{ conn with prevSize := conn.buffer.size }, ?_⟩
    simp only [parseHead, hfits hle]
  · intro hlt
    simp only [parseHead, hfull hlt]
    split <;> rfl

/-- The buffer that is read into next. -/
structure Refilled (buf buf' : Buffer) : Prop where
  data : buf'.data = buf.data
  before : buf'.before = []
  free : 0 < buf'.freeSize

/-- A full buffer gets room, or it is too large. -/
theorem extendHeaderBuffer_full (conf : HeadConf) {buf : Buffer} (hc : calls.Succeed) (hbefore : buf.before = [])
    (hfull : buf.freeSize = 0) (hpos : 0 < buf.size) :
    extendHeaderBuffer conf calls buf = .declined ∨
      ∃ buf', extendHeaderBuffer conf calls buf = .ok buf' ∧ Refilled buf buf' := by
  have hcap : buf.capacity = buf.size := by
    rw [buf.capacity_eq, Buffer.pos, hbefore, hfull, List.length_nil]
    omega
  unfold extendHeaderBuffer
  split
  · exact Or.inl rfl
  · obtain ⟨buf', hbuf⟩ := reserve_succeeds hc buf allocsetBufferMinsize
    have hroom := reserve_room (by omega) hbefore hbuf
    rw [if_pos (by omega)]
    dsimp only
    rw [hbuf]
    exact Or.inr ⟨buf', rfl, reserve_data hbuf, hroom.2, Nat.lt_of_lt_of_le (by decide) hroom.1⟩

/-- The head is not there yet: the parse leaves its count, and what is received stays. -/
theorem parseHead_part (hc : calls.Succeed) (hbefore : conn.buffer.before = []) (hne : conn.buffer.data ≠ [])
    (hnot : (parseHead conf calls conn ready room).refused = false)
    (hp : (phrParseRequest conn.buffer.data room conn.prevSize).2 = .again) :
    ∃ buf, Refilled conn.buffer buf ∧ parseHead conf calls conn ready room =
      .reading { conn with buffer := buf, prevSize := conn.buffer.size } ready
        (phrParseRequest conn.buffer.data room conn.prevSize).1.headers.length := by
  simp only [parseHead, hp] at hnot ⊢
  by_cases hfree : conn.buffer.freeSize < 1
  · rw [if_pos hfree] at hnot ⊢
    rcases extendHeaderBuffer_full conf hc hbefore (by omega) (List.length_pos_iff.mpr hne) with
      hdec | ⟨buf, hbuf, hrefilled⟩
    · rw [hdec] at hnot
      cases hnot
    · rw [hbuf]
      exact ⟨buf, hrefilled, rfl⟩
  · rw [if_neg hfree]
    exact ⟨conn.buffer, ⟨rfl, hbefore, by omega⟩, rfl⟩

end Parse

/-! ### Deliveries -/

section Deliveries
variable {conf : HeadConf} {h : Bytes} {r : PhrRequest} {n : Nat} {s s' : Delivery} {e : HeadEvent}

/-- The room for headers that the next parse has. -/
def Delivery.room (s : Delivery) : Nat :=
  if s.turn = 0 then maxHeaders else if s.reads = 1 then headerLines s.received else 0

/-- What the handler has when it reads or waits, part of the head being there. -/
structure Holds (received : Bytes) (reads : Nat) (conn : Conn) : Prop where
  data : conn.buffer.data = received
  before : conn.buffer.before = []
  free : 0 < conn.buffer.freeSize
  prevSize : conn.prevSize = received.length
  parse : conn.parse = false
  read : received ≠ [] ∧ reads ≠ 0

/-- What holds of a delivery all of whose steps meet the condition. -/
def Delivering (conf : HeadConf) (r : PhrRequest) (n : Nat) (s : Delivery) : Prop :=
  match s.state with
  | .accepted buffer => s.received = [] ∧ s.reads = 0 ∧ s.turn = 0 ∧ 0 < n ∧
    ∀ buf ∈ buffer, buf.data = [] ∧ buf.before = [] ∧ buf.freeSize = conf.clientHeaderBufferSize
  | .reading conn _ numHeaders => Holds s.received s.reads conn ∧ s.received.length < n ∧ numHeaders = s.room
  | .waiting conn => Holds s.received s.reads conn ∧ s.received.length < n
  | .processing _ head => head = takeHead r n
  | _ => False

theorem Delivering.takes (h : Delivering conf r n s) : Takes r n s := by
  obtain ⟨state, received, reads, turn⟩ := s
  cases state with
  | accepted =>
    obtain ⟨hrecv, -, -, hpos, -⟩ := h
    show received.length < n
    rw [show received = [] from hrecv]
    exact hpos
  | reading => exact h.2.1
  | waiting => exact h.2
  | processing => exact h
  | _ => exact h.elim

theorem Takes.going (h : Takes r n s) : s.state.ended = false := by
  obtain ⟨state, received, reads, turn⟩ := s
  cases state with
  | finalized => exact h.elim
  | http2 => exact h.elim
  | closed => exact h.elim
  | undefined => exact h.elim
  | _ => rfl

/-- What a parse leads to, in a call of the handler that has read. -/
theorem delivering_parseHead (s : Delivery) {calls : Calls} (conn : Conn) (ready : Bool) (room : Nat)
    (hacc : Accepted h r n)
    (hread : s.reads ≠ 0) (hturn : s.turn ≠ 0) (hrecv : s.received ≠ []) (hpre : s.received <+: h)
    (hdata : conn.buffer.data = s.received) (hbefore : conn.buffer.before = []) (hparse : conn.parse = false)
    (hprev : conn.prevSize < n) (hle : conn.prevSize ≤ s.received.length)
    (hfirst : if conn.prevSize = 0 then room = maxHeaders ∧ s.reads = 1 else s.reads ≠ 1)
    (hc : calls.Succeed) (hstate : s.state = parseHead conf calls conn ready room)
    (hnot : s.state.refused = false) :
    (r.headers.length ≤ room ∨ s.received.length < n → Delivering conf r n s) ∧
      (room < r.headers.length ∧ n ≤ s.received.length → s.state.ended = true) := by
  by_cases hn : n ≤ s.received.length
  · obtain ⟨hfits, hfull⟩ := parseHead_whole conf calls ready room hacc (hdata ▸ hpre) (hdata ▸ hn) hprev
    refine ⟨fun hroom => ?_, fun hroom => hstate ▸ hfull hroom.1⟩
    obtain ⟨conn', hconn'⟩ := hfits (hroom.resolve_right (by omega))
    simp only [Delivering, hstate, hconn']
  · refine ⟨fun _ => ?_, fun hroom => absurd hroom.2 hn⟩
    obtain ⟨hagain, hquick⟩ := phr_part room conn.prevSize hacc hpre (Nat.lt_of_not_le hn)
    have hret : (phrParseRequest conn.buffer.data room conn.prevSize).2 = .again ∧
        (phrParseRequest conn.buffer.data room conn.prevSize).1.headers.length = s.room := by
      rw [hdata, Delivery.room, if_neg hturn]
      by_cases h0 : conn.prevSize = 0
      · rw [if_pos h0] at hfirst
        rw [h0, hfirst.1, if_pos hfirst.2]
        exact ⟨hagain, rfl⟩
      · rw [if_neg h0] at hfirst
        rw [hquick h0 hle, if_neg hfirst]
        exact ⟨rfl, rfl⟩
    rw [hstate] at hnot
    obtain ⟨buf, hbuf, heq⟩ := parseHead_part hc hbefore (hdata ▸ hrecv) hnot hret.1
    simp only [Delivering, hstate, heq]
    refine ⟨⟨hbuf.data.trans hdata, hbuf.before, hbuf.free, congrArg List.length hdata, hparse, hrecv, hread⟩,
      Nat.lt_of_not_le hn, hret.2⟩

theorem delivering_recv {bs : Bytes} {calls : Calls} {created : Bool} (hacc : Accepted h r n)
    (hd : DeliversHead conf s (.recv bs calls created)) (hstep : s.step conf (.recv bs calls created) = some s')
    (hpre : s'.received <+: h) (hs : Delivering conf r n s) :
    (MeetsHead r n s (.recv bs calls created) → Delivering conf r n s') ∧
      (¬MeetsHead r n s (.recv bs calls created) → s'.state.ended = true) := by
  obtain ⟨state, received, reads, turn⟩ := s
  obtain ⟨⟨hc, rfl⟩, hnot⟩ := hd
  obtain ⟨state', hstate', rfl⟩ := Option.map_eq_some_iff.mp hstep
  dsimp only at hstate' hnot hpre ⊢
  rw [hstate', Option.any_some] at hnot
  cases state with
  | accepted buffer =>
    obtain ⟨hrecv, hreads, hturn, hpos, hbuffer⟩ := hs
    dsimp only at hrecv hreads hturn
    subst hrecv hreads hturn
    simp only [HeadState.step] at hstate'
    have hmeets : MeetsHead r n ⟨.accepted buffer, [], 0, 0⟩ (.recv bs calls true) := fun _ _ => Or.inl rfl
    obtain ⟨buf, hbuf, hdata, hbefore, hfree⟩ : ∃ buf,
        (buffer <|> bufferCreate calls conf.clientHeaderBufferSize) = some buf ∧ buf.data = [] ∧
        buf.before = [] ∧ buf.freeSize = conf.clientHeaderBufferSize := by
      cases buffer with
      | none => exact ⟨_, by simp [bufferCreate, hc.alloc]; rfl, rfl, rfl, by simp⟩
      | some buf => exact ⟨buf, rfl, hbuffer buf rfl⟩
    rw [hbuf] at hstate'
    dsimp only at hstate'
    split at hstate'
    · next hbs =>
      cases hstate'
      refine ⟨fun _ => ?_, fun hno => absurd hmeets hno⟩
      refine (delivering_parseHead _ ⟨buf.recv bs, 0, false, .unset, .unset, false⟩
        (conf.ready bs.length conf.clientHeaderBufferSize) maxHeaders hacc (by simp) (by simp) hbs.1 hpre
        (by simp [Buffer.recv, hdata]) hbefore rfl hpos (Nat.zero_le _) (by simp) hc rfl
        hnot).1 (Or.inl (accepted_headers hacc))
    · cases hstate'
  | reading conn ready numHeaders =>
    obtain ⟨hholds, hlt, hroom⟩ := hs
    dsimp only at hlt hroom
    cases ready with
    | false => cases hstate'
    | true =>
      simp only [HeadState.step] at hstate'
      split at hstate'
      · next hbs =>
        cases hstate'
        have hlen : 0 < received.length := List.length_pos_iff.mpr hholds.read.1
        have hprev : conn.prevSize = received.length := hholds.prevSize
        have hreads : reads ≠ 0 := hholds.read.2
        have hprev0 : conn.prevSize ≠ 0 := by omega
        obtain ⟨hok, hfail⟩ := delivering_parseHead
          ⟨parseHead conf calls { conn with buffer := conn.buffer.recv bs }
            (conf.ready bs.length conn.buffer.freeSize) numHeaders, received ++ bs, reads + 1, turn + 1⟩
          { conn with buffer := conn.buffer.recv bs } (conf.ready bs.length conn.buffer.freeSize) numHeaders hacc
          (by simp) (by simp) (by simp [hbs.1]) hpre
          (by simp only [Buffer.recv, hholds.data]) hholds.before hholds.parse (by rw [hprev]; exact hlt)
          (by simp only [List.length_append]; omega) (by rw [if_neg hprev0]; show reads + 1 ≠ 1; omega) hc rfl
          hnot
        simp only [List.length_append] at hok hfail
        have hslots : r.headers.length ≤ numHeaders ↔ turn = 0 ∨ r.headers = [] ∨
            (reads = 1 ∧ r.headers.length ≤ headerLines received) := by
          have hmax := accepted_headers hacc
          rw [hroom, Delivery.room]
          dsimp only
          by_cases ht : turn = 0
          · simp [ht, hmax]
          · by_cases hr : reads = 1
            · simp only [ht, hr, if_true, if_false, false_or, true_and]
              refine ⟨Or.inr, fun h => h.elim (fun h => ?_) id⟩
              rw [h]
              exact Nat.zero_le _
            · simp [ht, hr]
        constructor
        · intro hmeets
          refine hok ?_
          by_cases hn : n ≤ received.length + bs.length
          · exact Or.inl (hslots.mpr (hmeets hlt hn))
          · exact Or.inr (by omega)
        · intro hno
          refine hfail ?_
          simp only [MeetsHead, Classical.not_imp] at hno
          exact ⟨Nat.lt_of_not_le fun hle => hno.2.2 (hslots.mp hle), hno.2.1⟩
      · cases hstate'
  | waiting => cases hstate'
  | processing => cases hstate'
  | _ => exact hs.elim

/-- The steps that only wait. -/
theorem delivering_wait (he : ∀ bs calls created, e ≠ .recv bs calls created)
    (hd : DeliversHead conf s e) (hstep : s.step conf e = some s') (hs : Delivering conf r n s) :
    s'.received = s.received ∧ Delivering conf r n s' := by
  obtain ⟨state, received, reads, turn⟩ := s
  obtain ⟨hde, hnot⟩ := hd
  obtain ⟨state', hstate', rfl⟩ := Option.map_eq_some_iff.mp hstep
  cases e with
  | recv bs calls created => exact absurd rfl (he bs calls created)
  | again added =>
    refine ⟨rfl, ?_⟩
    cases (hde : added = true)
    cases state with
    | accepted buffer =>
      cases hstate'
      obtain ⟨hrecv, hreads, hturn, hpos, hbuffer⟩ := hs
      refine ⟨hrecv, hreads, hturn, hpos, fun buf hbuf => ?_⟩
      cases buffer with
      | none =>
        cases hbuf
        exact ⟨rfl, rfl, by simp⟩
      | some b => exact hbuffer buf hbuf
    | reading conn ready numHeaders =>
      cases ready <;> cases hstate' <;> exact ⟨hs.1, hs.2.1⟩
    | waiting => cases hstate'
    | processing => cases hstate'
    | _ => exact hs.elim
  | read calls =>
    refine ⟨rfl, ?_⟩
    cases state with
    | waiting conn =>
      cases hstate'
      obtain ⟨hholds, hlt⟩ := hs
      have hparse : conn.parse = false := hholds.parse
      simp only [Delivering, headerHandler, hparse, Bool.false_eq_true, if_false]
      exact ⟨⟨hholds.data, hholds.before, hholds.free, hholds.prevSize, hparse, hholds.read⟩, hlt, rfl⟩
    | reading conn ready numHeaders => cases ready <;> cases hstate'
    | accepted => cases hstate'
    | processing => cases hstate'
    | _ => exact hs.elim
  | _ => exact hde.elim

theorem received_grows (hstep : s.step conf e = some s') : s.received <+: s'.received := by
  obtain ⟨state', -, rfl⟩ := Option.map_eq_some_iff.mp hstep
  cases e with
  | recv bs calls created => exact List.prefix_append _ _
  | _ => exact List.prefix_refl _

theorem delivering_start (hacc : Accepted h r n) : Delivering conf r n .start :=
  ⟨rfl, rfl, rfl, accepted_pos hacc, nofun⟩

/-- A delivery goes on in steps that meet the condition, or has ended where one did not. -/
theorem delivering_run (hacc : Accepted h r n) (hrun : Run (Delivery.step conf) (DeliversHead conf) .start s)
    (hpre : s.received <+: h) :
    (Run (Delivery.step conf) (fun t e => DeliversHead conf t e ∧ MeetsHead r n t e) .start s ∧
      Delivering conf r n s) ∨ s.state.ended = true := by
  refine hrun.invariant (P := fun u => u.received <+: h →
      (Run (Delivery.step conf) (fun t e => DeliversHead conf t e ∧ MeetsHead r n t e) .start u ∧
        Delivering conf r n u) ∨ u.state.ended = true)
    (fun _ => Or.inl ⟨.start, delivering_start hacc⟩) (fun u e u' hu hd hstep hpre' => ?_) hpre
  rcases hu ((received_grows hstep).trans hpre') with ⟨hgood, hs⟩ | hend
  · by_cases hrecv : ∃ bs calls created, e = .recv bs calls created
    · obtain ⟨bs, calls, created, rfl⟩ := hrecv
      obtain ⟨hok, hfail⟩ := delivering_recv hacc hd hstep hpre' hs
      by_cases hmeets : MeetsHead r n u (.recv bs calls created)
      · exact Or.inl ⟨.next hgood ⟨hd, hmeets⟩ hstep, hok hmeets⟩
      · exact Or.inr (hfail hmeets)
    · have hwait := delivering_wait (r := r) (n := n)
        (fun bs calls created heq => hrecv ⟨bs, calls, created, heq⟩) hd hstep hs
      refine Or.inl ⟨.next hgood ⟨hd, ?_⟩ hstep, hwait.2⟩
      cases e with
      | recv bs calls created => exact absurd ⟨bs, calls, created, rfl⟩ hrecv
      | _ => trivial
  · obtain ⟨state', hstate', -⟩ := Option.map_eq_some_iff.mp hstep
    rw [step_ended hend] at hstate'
    cases hstate'

/-- However a head is delivered that one call accepts, it is taken as that call finds it if and
only if no read completes it where there is too little room left for its headers. -/
theorem head_taken (hacc : Accepted h r n) (hrun : Run (Delivery.step conf) (DeliversHead conf) .start s)
    (hpre : s.received <+: h) :
    Takes r n s ↔ Run (Delivery.step conf) (fun t e => DeliversHead conf t e ∧ MeetsHead r n t e) .start s := by
  constructor
  · intro htakes
    rcases delivering_run hacc hrun hpre with ⟨hgood, -⟩ | hend
    · exact hgood
    · exact absurd hend (by simp [htakes.going])
  · intro hgood
    have hs : s.received <+: h → Delivering conf r n s := by
      refine hgood.invariant (P := fun u => u.received <+: h → Delivering conf r n u)
        (fun _ => delivering_start hacc) fun u e u' hu hd hstep hpre' => ?_
      have hs := hu ((received_grows hstep).trans hpre')
      by_cases hrecv : ∃ bs calls created, e = .recv bs calls created
      · obtain ⟨bs, calls, created, rfl⟩ := hrecv
        exact (delivering_recv hacc hd.1 hstep hpre' hs).1 hd.2
      · exact (delivering_wait (fun bs calls created heq => hrecv ⟨bs, calls, created, heq⟩) hd.1 hstep hs).2
    exact (hs hpre).takes

end Deliveries

/-! ### A head of one line -/

def getHead : Bytes := ascii "GET / HTTP/1.0\r\nA: b\r\n\r\n"

def getRequest : PhrRequest where
  method := ascii "GET"
  path := ascii "/"
  minorVersion := 0
  headers := [⟨some (ascii "A"), ascii "b"⟩]

/-- A run by these events, and what can be checked where it ends. -/
theorem exists_run (conf : HeadConf) (ok : Delivery → HeadEvent → Prop) [∀ s e, Decidable (ok s e)]
    (es : List HeadEvent) (check : Delivery → Bool)
    (h : (runList (fun s e => if ok s e then Delivery.step conf s e else none) .start es).any check = true) :
    ∃ s, Run (Delivery.step conf) ok .start s ∧ check s = true := by
  obtain ⟨s, hs, hcheck⟩ := (Option.any_eq_true _ _).mp h
  exact ⟨s, .of_runList .start hs, hcheck⟩

/-- Read in two parts, the handler waiting for the second, the head is taken. -/
theorem head_taken_get : ∃ s, s.received = getHead ∧ Takes getRequest 24 s := by
  obtain ⟨s, hrun, hcheck⟩ := exists_run .least
    (fun t e => DeliversHead .least t e ∧ MeetsHead getRequest 24 t e)
    [.recv (getHead.take 20) {} true, .again true, .read {}, .recv (getHead.drop 20) {} true]
    (fun s => s.received == getHead) (by decide +kernel)
  have hrecv : s.received = getHead := beq_iff_eq.mp hcheck
  exact ⟨s, hrecv, (head_taken (h := getHead) (by decide +kernel) (hrun.mono fun _ _ h => h.1)
    (hrecv ▸ List.prefix_refl _)).mpr hrun⟩

/-- A head of 1028 bytes. The first 1024 are all but the last two line ends. -/
def longHead : Bytes := ascii "GET /" ++ List.replicate 1004 97 ++ ascii " HTTP/1.0\r\nA: b\r\n\r\n"

def longRequest : PhrRequest where
  method := ascii "GET"
  path := slash :: List.replicate 1004 97
  minorVersion := 0
  headers := [⟨some (ascii "A"), ascii "b"⟩]

/-- When the buffer is full with the first 1024 bytes, and the rest is read at once, the head
is rejected. -/
theorem head_rejected : Accepted longHead longRequest 1028 ∧
    ∃ s, Run (Delivery.step .least) (DeliversHead .least) .start s ∧
      s.received = longHead ∧ ¬Takes longRequest 1028 s := by
  refine ⟨by decide +kernel, ?_⟩
  obtain ⟨s, hrun, hcheck⟩ := exists_run .least (DeliversHead .least)
    [.recv (longHead.take 1024) {} true, .recv (longHead.drop 1024) {} true]
    (fun s => s.received == longHead && s.state.ended) (by decide +kernel)
  simp only [Bool.and_eq_true, beq_iff_eq] at hcheck
  exact ⟨s, hrun, hcheck.1, fun htakes => by simp [htakes.going] at hcheck⟩

end PgRest.Http
