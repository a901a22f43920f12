import PgRest.Inet.Text6

/-! `pgrest_inet_inet6_addr` over memory: where its pointers are in the text and in the 16 bytes at
`addr`, and what it reads and writes there. It stays inside of both, and what it leaves at `addr` is
what `inet6Addr` says.

A pointer is its distance from the start of what it points into. -/
namespace PgRest.Inet

/-- What is read and written. -/
inductive Access where
  /-- `*p` -/
  | read (p : Nat)
  /-- `pgrest_inet_inet_addr(digit, len)` once `p` bytes have been read -/
  | tail (p digit len : Nat)
  /-- `*addr++ = ` and `*d-- = ` -/
  | write (addr : Nat)
  /-- `*s--` -/
  | load (addr : Nat)
  /-- `MemSet(zero, 0, n)` -/
  | fill (z n : Nat)
deriving DecidableEq, Repr

/-- It lies inside of the text, or of the 16 bytes; of the tail it lies behind the colon that was read last. -/
def Access.Inside (text : Bytes) : Access → Prop
  | .read p => p < text.length
  | .tail p digit len =>
    digit + len ≤ text.length ∧
      ∃ before digits, text.take p = before ++ colon :: digits ∧ colon ∉ digits ∧ digit = before.length + 1
  | .write addr => addr < 16
  | .load addr => addr < 16
  | .fill z n => z + n ≤ 16

/-- The variables of the function, the bytes at `addr`, and what has been read and written. -/
structure Pass where
  mem : Bytes
  addr : Nat := 0
  zero : Option Nat := none
  digit : Option Nat := none
  len4 : Nat := 0
  nibbles : Nat := 0
  word : Nat := 0
  n : Nat := 8
  log : List Access := []

namespace Pass

/-- `*addr++ = b` -/
def write (s : Pass) (b : UInt8) : Pass :=
  { s with mem := s.mem.set s.addr b, addr := s.addr + 1, log := s.log ++ [.write s.addr] }

/-- `*addr++ = word >> 8, *addr++ = word & 0xff` -/
def put (s : Pass) : Pass := (s.write (s.word / 256).toUInt8).write s.word.toUInt8

def note (s : Pass) (a : Access) : Pass := { s with log := s.log ++ [a] }

/-- At the first dot, where `digit` is not NULL. -/
def quad (text : Bytes) (s : Pass) (p digit : Nat) : Pass × Bool :=
  if s.n < 2 then (s, false)
  else
    let word := inetAddr ((text.drop digit).take (s.len4 - 1))
    let s := s.note (.tail p digit (s.len4 - 1))
    if word = inaddrNone then (s, false)
    else
      let s := (s.write (word >>> 24).toUInt8).write (word >>> 16).toUInt8
      ({ s with word := word.toNat, n := s.n - 1 }, true)

/-- The loop, with `len` bytes left from `p` on: false where the function returns. -/
def loop (text : Bytes) (s : Pass) (p : Nat) : Nat → Pass × Bool
  | 0 => (s, true)
  | len + 1 =>
    let c := text.getD p 0
    let s := s.note (.read p)
    let p := p + 1
    if c = colon then
      if s.nibbles ≠ 0 then
        let s := { s with digit := some p, len4 := len + 1 }.put
        let s := { s with n := s.n - 1 }
        if s.n ≠ 0 then loop text { s with nibbles := 0, word := 0 } p len else (s, false)
      else if s.zero = none then
        loop text { s with digit := some p, len4 := len + 1, zero := some s.addr } p len
      else (s, false)
    else if c = dot ∧ s.nibbles ≠ 0 then
      match s.digit with
      | none => (s, false)
      | some digit => s.quad text p digit
    else if s.nibbles + 1 > 4 then (s, false)
    else
      let s := { s with nibbles := s.nibbles + 1 }
      if Digit c then loop text { s with word := s.word * 16 + (c - 48).toNat } p len
      else
        let c := c ||| 0x20
        if 97 ≤ c ∧ c ≤ 102 then loop text { s with word := s.word * 16 + (c - 97).toNat + 10 } p len
        else (s, false)

/-- `*d-- = *s--`, for the `k` bytes from `z` on: `d` is `n` behind `s`. -/
def moveBack (z n : Nat) (s : Pass) : Nat → Pass
  | 0 => s
  | k + 1 =>
    moveBack z n
      { s with
        mem := s.mem.set (z + k + n) (s.mem.getD (z + k) 0)
        log := s.log ++ [.load (z + k), .write (z + k + n)] } k

/-- `MemSet(zero, 0, n)` -/
def fill (z n : Nat) (s : Pass) : Pass :=
  { s with mem := s.mem.take z ++ List.replicate n 0 ++ s.mem.drop (z + n), log := s.log ++ [.fill z n] }

/-- Behind the loop. -/
def finish (s : Pass) : Pass × Bool :=
  if s.nibbles = 0 ∧ s.zero = none then (s, false)
  else
    let s := s.put
    let s := { s with n := s.n - 1 }
    if s.n ≠ 0 then
      match s.zero with
      | some z => ((s.moveBack z (s.n * 2) (s.addr - z)).fill z (s.n * 2), true)
      | none => (s, false)
    else (s, s.zero = none)

/-- `pgrest_inet_inet6_addr` -/
def inet6Addr (text mem : Bytes) : Pass × Bool :=
  if text = [] then ({ mem := mem }, false)
  else
    let s := Pass.note { mem := mem } (.read 0)
    let r := if text.getD 0 0 = colon then loop text s 1 (text.length - 1) else loop text s 0 text.length
    if r.2 then r.1.finish else r

/-! ### The invariant of the loop -/

/-- The variables as those of the model over lists. -/
def abs (text : Bytes) (s : Pass) : Inet6 :=
  { addr := s.mem.take s.addr, zero := s.zero, digit := s.digit.map (text.drop ·), nibbles := s.nibbles,
    word := s.word, n := s.n }

/-- There is room for `n` words behind `addr`. -/
structure Room (text : Bytes) (s : Pass) : Prop where
  mem : s.mem.length = 16
  addr : s.addr + 2 * s.n = 16
  pos : 1 ≤ s.n
  gap : ∀ z ∈ s.zero, z ≤ s.addr
  log : ∀ a ∈ s.log, a.Inside text

/-- What `digit` and `len4` are once `p` bytes have been read. -/
def Tail (text : Bytes) (p : Nat) (s : Pass) : Prop :=
  ∀ digit ∈ s.digit, digit + (s.len4 - 1) = text.length ∧
    ∃ before digits, text.take p = before ++ colon :: digits ∧ colon ∉ digits ∧ digit = before.length + 1

/-- What has come out for a text is what the model over lists says, and nothing outside has been touched. -/
def Agrees (text : Bytes) (r : Pass × Bool) (o : Option Inet6) : Prop :=
  (∀ a ∈ r.1.log, a.Inside text) ∧ if r.2 then Room text r.1 ∧ o = some (r.1.abs text) else o = none

theorem Room.stop {text : Bytes} {s : Pass} (h : Room text s) : Agrees text (s, false) none := ⟨h.log, rfl⟩

theorem Room.done {text : Bytes} {s : Pass} (h : Room text s) : Agrees text (s, true) (some (s.abs text)) :=
  ⟨h.log, h, rfl⟩

theorem Room.note {text : Bytes} {s : Pass} (h : Room text s) {a : Access} (ha : a.Inside text) :
    Room text (s.note a) where
  mem := h.mem
  addr := h.addr
  pos := h.pos
  gap := h.gap
  log := by
    intro a' ha'
    rcases List.mem_append.mp ha' with h' | h'
    · exact h.log a' h'
    · rw [List.mem_singleton.mp h']
      exact ha

theorem take_write {s : Pass} (h : s.addr < s.mem.length) (b : UInt8) :
    (s.write b).mem.take (s.addr + 1) = s.mem.take s.addr ++ [b] := by
  have hget : (s.mem.set s.addr b)[s.addr]? = some b := List.getElem?_set_self h
  have htake : (s.mem.set s.addr b).take s.addr = s.mem.take s.addr := List.take_set_of_le (Nat.le_refl _)
  show (s.mem.set s.addr b).take (s.addr + 1) = _
  rw [List.take_add_one, hget, htake]
  rfl

/-- Two bytes are written where there is room for a word. -/
theorem Room.word {text : Bytes} {s : Pass} (h : Room text s) (b b' : UInt8) :
    ((s.write b).write b').mem.length = 16 ∧
      ((s.write b).write b').mem.take (s.addr + 2) = s.mem.take s.addr ++ [b, b'] ∧
      ∀ a ∈ ((s.write b).write b').log, a.Inside text := by
  have hmem := h.mem
  have haddr := h.addr
  have hpos := h.pos
  have hlen : (s.write b).mem.length = 16 := (List.length_set ..).trans hmem
  refine ⟨(List.length_set ..).trans hlen, ?_, ?_⟩
  · rw [show s.addr + 2 = (s.write b).addr + 1 from rfl, take_write (by rw [hlen]; show s.addr + 1 < 16; omega)]
    show (s.write b).mem.take (s.addr + 1) ++ [b'] = _
    rw [take_write (by omega), List.append_assoc]
    rfl
  · intro a ha
    simp only [write, List.append_assoc, List.mem_append, List.mem_singleton] at ha
    rcases ha with ha | rfl | rfl
    · exact h.log a ha
    · show s.addr < 16
      omega
    · show s.addr + 1 < 16
      omega

/-- There is still room behind the word unless it is the last. -/
theorem Room.behind {text : Bytes} {s t : Pass} (h : Room text s) (hn : 2 ≤ s.n) (b b' : UInt8)
    (hmem : t.mem = ((s.write b).write b').mem) (haddr : t.addr = s.addr + 2) (hn' : t.n = s.n - 1)
    (hzero : t.zero = s.zero) (hlog : t.log = ((s.write b).write b').log) : Room text t := by
  obtain ⟨hlen, -, hinside⟩ := h.word b b'
  have hroom := h.addr
  refine ⟨hmem ▸ hlen, by omega, by omega, fun z hz => ?_, hlog ▸ hinside⟩
  have := h.gap z (hzero ▸ hz)
  omega

/-- A colon is what the tail is behind. -/
theorem tail_colon {text : Bytes} {p len : Nat} {s : Pass} (hp : p + (len + 1) = text.length)
    (hc : text.getD p 0 = colon) (hdigit : s.digit = some (p + 1)) (hlen : s.len4 = len + 1) :
    Tail text (p + 1) s := by
  intro digit hd
  rw [hdigit] at hd
  obtain rfl := Option.some.inj hd
  refine ⟨by rw [hlen]; omega, text.take p, [], ?_, by simp, ?_⟩
  · have hget : text[p]? = some colon := by
      rw [List.getD_eq_getElem?_getD] at hc
      rw [List.getElem?_eq_getElem (by omega)] at hc ⊢
      exact congrArg some hc
    rw [List.take_add_one, hget]
    rfl
  · rw [List.length_take]
    omega

theorem tail_next {text : Bytes} {p len : Nat} {s t : Pass} (h : Tail text p s)
    (hp : p + (len + 1) = text.length) (hc : text.getD p 0 ≠ colon) (hdigit : t.digit = s.digit)
    (hlen : t.len4 = s.len4) : Tail text (p + 1) t := by
  intro digit hd
  rw [hdigit] at hd
  obtain ⟨hend, before, digits, htake, hfree, hbefore⟩ := h digit hd
  refine ⟨by rw [hlen]; exact hend, before, digits ++ [text.getD p 0], ?_, ?_, hbefore⟩
  · have hget : text[p]? = some (text.getD p 0) := by
      rw [List.getD_eq_getElem?_getD, List.getElem?_eq_getElem (by omega)]
      rfl
    rw [List.take_add_one, hget, htake]
    simp
  · rw [List.mem_append, List.mem_singleton]
    rintro (hmem | heq)
    · exact hfree hmem
    · exact hc heq.symm

theorem drop_cons {text : Bytes} {p len : Nat} (hp : p + (len + 1) = text.length) :
    text.drop p = text.getD p 0 :: text.drop (p + 1) := by
  have hlt : p < text.length := by omega
  rw [List.drop_eq_getElem_cons hlt, List.getD_eq_getElem?_getD, List.getElem?_eq_getElem hlt]
  rfl

/-- Both decide the same way. -/
theorem Agrees.ite {text : Bytes} {c : Prop} [Decidable c] {r r' : Pass × Bool} {o o' : Option Inet6}
    (hpos : c → Agrees text r o) (hneg : ¬c → Agrees text r' o') :
    Agrees text (if c then r else r') (if c then o else o') := by
  by_cases hc : c
  · rw [if_pos hc, if_pos hc]
    exact hpos hc
  · rw [if_neg hc, if_neg hc]
    exact hneg hc

/-- The dotted quad is written where there is room for two words. -/
theorem quad_agrees {text : Bytes} {s : Pass} {p digit : Nat} (hs : Room text s) (ht : Tail text p s)
    (hdigit : s.digit = some digit) :
    Agrees text (s.quad text p digit)
      (if s.n < 2 then none
      else if inetAddr (text.drop digit) = inaddrNone then none
      else
        some
          { s.abs text with
            addr := (s.abs text).addr ++
              [(inetAddr (text.drop digit) >>> 24).toUInt8, (inetAddr (text.drop digit) >>> 16).toUInt8]
            digit := some (text.drop digit), word := (inetAddr (text.drop digit)).toNat, n := s.n - 1 }) := by
  obtain ⟨hend, hbefore⟩ := ht digit hdigit
  have hall : (text.drop digit).take (s.len4 - 1) = text.drop digit :=
    List.take_of_length_le (by rw [List.length_drop]; omega)
  have htail := hs.note (a := .tail p digit (s.len4 - 1)) ⟨Nat.le_of_eq hend, hbefore⟩
  rw [quad, hall]
  refine .ite (fun _ => hs.stop) fun hn => .ite (fun _ => htail.stop) fun _ => ?_
  generalize inetAddr (text.drop digit) = word
  obtain ⟨-, htake, -⟩ := htail.word (word >>> 24).toUInt8 (word >>> 16).toUInt8
  have hroom := htail.behind (show 2 ≤ s.n by omega) (word >>> 24).toUInt8 (word >>> 16).toUInt8
    (t := { ((s.note (.tail p digit (s.len4 - 1))).write (word >>> 24).toUInt8).write (word >>> 16).toUInt8 with
      word := word.toNat, n := s.n - 1 }) rfl rfl rfl rfl rfl
  have hmap : some (text.drop digit) = s.digit.map (text.drop ·) := by
    rw [hdigit]
    rfl
  exact ⟨hroom.log, hroom, congrArg₂ (fun addr digit' => some
    { s.abs text with addr, digit := digit', word := word.toNat, n := s.n - 1 }) htake.symm hmap⟩

/-- The loop does what the model over lists does, and touches nothing outside. -/
theorem loop_agrees {text : Bytes} {s : Pass} {p len : Nat} (hs : Room text s) (ht : Tail text p s)
    (hp : p + len = text.length) :
    Agrees text (loop text s p len) (inet6AddrFrom (s.abs text) (text.drop p)) := by
  induction len generalizing s p with
  | zero =>
    rw [List.drop_eq_nil_of_le (by omega)]
    exact hs.done
  | succ len ih =>
    have hread : Room text (s.note (.read p)) := hs.note (show p < text.length by omega)
    have hnext : ∀ {s' : Pass} {t : Inet6}, Room text s' → Tail text (p + 1) s' → t = s'.abs text →
        Agrees text (loop text s' (p + 1) len) (inet6AddrFrom t (text.drop (p + 1))) := by
      intro s' t hroom htail heq
      rw [heq]
      exact ih hroom htail (by omega)
    rw [drop_cons hp, loop, inet6AddrFrom]
    dsimp only
    refine .ite
      (fun hcolon => .ite (fun hnibbles => ?_) fun hnibbles => .ite (fun hzero => ?_) fun _ => hread.stop)
      fun hcolon => ?_
    · -- the group is written
      have htail := fun s' => tail_colon (s := s') hp hcolon
      obtain ⟨-, htake, hlog⟩ := hread.word (s.word / 256).toUInt8 s.word.toUInt8
      refine .ite (fun hn : s.n - 1 ≠ 0 => ?_) fun _ => ⟨hlog, rfl⟩
      have hroom := hread.behind (show 2 ≤ s.n by omega) (s.word / 256).toUInt8 s.word.toUInt8
        (t := { { s.note (.read p) with digit := some (p + 1), len4 := len + 1 }.put with
          n := s.n - 1, nibbles := 0, word := 0 }) rfl rfl rfl rfl rfl
      exact hnext hroom (htail _ rfl rfl) (congrArg (fun addr =>
        ({ addr, zero := s.zero, digit := some (text.drop (p + 1)), n := s.n - 1 } : Inet6)) htake.symm)
    · -- the zeros start here
      have hroom : Room text
          { s.note (.read p) with digit := some (p + 1), len4 := len + 1, zero := some s.addr } :=
        ⟨hs.mem, hs.addr, hs.pos, fun z hz => (Option.some.inj hz) ▸ Nat.le_refl _, hread.log⟩
      have haddr : (s.mem.take s.addr).length = s.addr := by
        rw [List.length_take, hs.mem]
        have := hs.addr
        omega
      exact hnext hroom (tail_colon hp hcolon rfl rfl) (congrArg (fun z => ({ s.abs text with
        digit := some (text.drop (p + 1)), zero := some z } : Inet6)) haddr)
    · have htail := fun s' => tail_next (t := s') ht hp hcolon
      have hroom : ∀ word, Room text { s.note (.read p) with nibbles := s.nibbles + 1, word } := fun word =>
        ⟨hs.mem, hs.addr, hs.pos, hs.gap, hread.log⟩
      refine .ite (fun _ => ?_) fun _ => .ite (fun _ => hread.stop) fun _ =>
        .ite (fun _ => hnext (hroom _) (htail _ rfl rfl) rfl) fun _ =>
        .ite (fun _ => hnext (hroom _) (htail _ rfl rfl) rfl) fun _ => (hroom s.word).stop
      cases hdigit : s.digit with
      | none =>
        have hmap : (s.abs text).digit = none := by
          rw [abs, hdigit]
          rfl
        rw [show (s.note (.read p)).digit = none from hdigit, hmap]
        exact hread.stop
      | some digit =>
        have hmap : (s.abs text).digit = some (text.drop digit) := by
          rw [abs, hdigit]
          rfl
        rw [show (s.note (.read p)).digit = some digit from hdigit, hmap]
        exact quad_agrees hread (htail _ rfl rfl) hdigit

/-! ### The zeros -/

/-- The bytes that have been moved, and the others. -/
theorem moveBack_mem {z n k : Nat} {s : Pass} (hfit : z + n + k ≤ s.mem.length) (i : Nat) :
    (s.moveBack z n k).mem[i]? =
      if z + n ≤ i ∧ i < z + n + k then s.mem[i - n]? else s.mem[i]? := by
  induction k generalizing s with
  | zero =>
    rw [if_neg (by omega)]
    rfl
  | succ k ih =>
    have hset : ∀ j, (s.mem.set (z + k + n) (s.mem.getD (z + k) 0))[j]? =
        if z + k + n = j then s.mem[z + k]? else s.mem[j]? := by
      intro j
      rw [List.getElem?_set]
      split
      · rw [if_pos (by omega), List.getD_eq_getElem?_getD, List.getElem?_eq_getElem (by omega)]
        rfl
      · rfl
    rw [moveBack, ih (by rw [List.length_set]; omega)]
    dsimp only
    rw [hset, hset]
    by_cases hin : z + n ≤ i ∧ i < z + n + k
    · rw [if_pos hin, if_neg (by omega), if_pos (by omega)]
    · rw [if_neg hin]
      by_cases hlast : z + k + n = i
      · rw [if_pos hlast, if_pos (by omega)]
        congr 1
        omega
      · rw [if_neg hlast, if_neg (by omega)]

theorem moveBack_length (z n : Nat) (s : Pass) (k : Nat) : (s.moveBack z n k).mem.length = s.mem.length := by
  induction k generalizing s with
  | zero => rfl
  | succ k ih => rw [moveBack, ih, List.length_set]

theorem moveBack_log {text : Bytes} {z n k : Nat} {s : Pass} (hlog : ∀ a ∈ s.log, a.Inside text)
    (hfit : z + n + k ≤ 16) : ∀ a ∈ (s.moveBack z n k).log, a.Inside text := by
  induction k generalizing s with
  | zero => exact hlog
  | succ k ih =>
    rw [moveBack]
    refine ih (fun a ha => ?_) (by omega)
    simp only [List.mem_append, List.mem_cons, List.not_mem_nil, or_false] at ha
    rcases ha with ha | rfl | rfl
    · exact hlog a ha
    · show z + k < 16
      omega
    · show z + k + n < 16
      omega

/-- What is behind the zeros moves to the end, and the zeros are put in its place. -/
theorem fill_mem {z n k : Nat} {s : Pass} (hfit : z + n + k = s.mem.length) :
    ((s.moveBack z n k).fill z n).mem =
      s.mem.take z ++ List.replicate n 0 ++ (s.mem.drop z).take k := by
  have hlen := moveBack_length z n s k
  have hmoved : (s.moveBack z n k).mem.take z = s.mem.take z := by
    apply List.ext_getElem?
    intro i
    by_cases hi : i < z
    · rw [List.getElem?_take_of_lt hi, List.getElem?_take_of_lt hi, moveBack_mem (Nat.le_of_eq hfit),
        if_neg (by omega)]
    · rw [List.getElem?_eq_none (by rw [List.length_take]; omega),
        List.getElem?_eq_none (by rw [List.length_take]; omega)]
  have hend : (s.moveBack z n k).mem.drop (z + n) = (s.mem.drop z).take k := by
    apply List.ext_getElem?
    intro i
    rw [List.getElem?_drop, moveBack_mem (Nat.le_of_eq hfit)]
    by_cases hi : i < k
    · rw [if_pos (by omega), List.getElem?_take_of_lt hi, List.getElem?_drop]
      congr 1
      omega
    · rw [if_neg (by omega), List.getElem?_eq_none (by omega),
        List.getElem?_eq_none (by rw [List.length_take]; omega)]
  rw [fill, hmoved, hend]

/-! ### The whole pass -/

/-- What has been returned for a text, with the address in memory. -/
def Returns (text : Bytes) (r : Pass × Bool) (o : Option Bytes) : Prop :=
  (∀ a ∈ r.1.log, a.Inside text) ∧ o = if r.2 then some r.1.mem else none

/-- The zeros fill what is left of the 16 bytes. -/
theorem zeros_returns {text : Bytes} {s : Pass} {z : Nat} (hmem : s.mem.length = 16)
    (hlog : ∀ a ∈ s.log, a.Inside text) (hz : z ≤ s.addr) (haddr : s.addr + 2 * s.n = 16) :
    Returns text ((s.moveBack z (s.n * 2) (s.addr - z)).fill z (s.n * 2), true)
      (some ((s.mem.take s.addr).take z ++ List.replicate (2 * s.n) 0 ++ (s.mem.take s.addr).drop z)) := by
  have hfit : z + s.n * 2 + (s.addr - z) = 16 := by omega
  refine ⟨fun a ha => ?_, ?_⟩
  · rcases List.mem_append.mp ha with ha | ha
    · exact moveBack_log hlog (Nat.le_of_eq hfit) a ha
    · rw [List.mem_singleton.mp ha]
      show z + s.n * 2 ≤ 16
      omega
  · show _ = some ((s.moveBack z (s.n * 2) (s.addr - z)).fill z (s.n * 2)).mem
    rw [fill_mem (hfit.trans hmem.symm), List.take_take, List.drop_take, Nat.min_eq_left hz, Nat.mul_comm 2]

theorem finish_returns {text : Bytes} {s : Pass} (hs : Room text s) :
    Returns text s.finish (s.abs text).finish := by
  obtain ⟨hmem, htake, hlog⟩ := hs.word (s.word / 256).toUInt8 s.word.toUInt8
  have haddr := hs.addr
  have hpos := hs.pos
  have hput : (s.abs text).put.addr = s.put.mem.take (s.addr + 2) := htake.symm
  unfold finish Inet6.finish
  by_cases hnone : s.nibbles = 0 ∧ s.zero = none
  · rw [if_pos hnone, if_pos (show (s.abs text).nibbles = 0 ∧ (s.abs text).zero = none from hnone)]
    exact ⟨hs.log, rfl⟩
  rw [if_neg hnone, if_neg (show ¬((s.abs text).nibbles = 0 ∧ (s.abs text).zero = none) from hnone)]
  dsimp only
  rw [hput, show s.put.n = s.n from rfl, show (s.abs text).n = s.n from rfl, show s.put.zero = s.zero from rfl,
    show (s.abs text).put.zero = s.zero from rfl]
  have hgap := hs.gap
  revert hgap
  cases s.zero with
  | none =>
    intro _
    dsimp only
    by_cases hn : s.n - 1 ≠ 0
    · rw [if_pos hn, if_pos hn]
      exact ⟨hlog, rfl⟩
    · have hlen : s.put.mem.length = 16 := hmem
      rw [if_neg hn, if_neg hn, List.take_of_length_le (by omega)]
      exact ⟨hlog, rfl⟩
  | some z =>
    intro hgap
    dsimp only
    by_cases hn : s.n - 1 ≠ 0
    · rw [if_pos hn, if_pos hn]
      refine zeros_returns (s := { s.put with n := s.n - 1, zero := some z }) (z := z) hmem hlog ?_ ?_
      · have hz := hgap z rfl
        show z ≤ s.addr + 2
        omega
      · show s.addr + 2 + 2 * (s.n - 1) = 16
        omega
    · rw [if_neg hn, if_neg hn]
      exact ⟨hlog, rfl⟩

/-- **The pass stays inside** of the text and the 16 bytes, and what it leaves there is the address. -/
theorem inet6Addr_returns (text : Bytes) (mem : Vector UInt8 16) :
    Returns text (inet6Addr text mem.toList) (Inet.inet6Addr text) := by
  by_cases hempty : text = []
  · subst hempty
    exact ⟨by simp [inet6Addr], rfl⟩
  obtain ⟨c, rest, rfl⟩ := List.exists_cons_of_ne_nil hempty
  have hroom : Room (c :: rest) (Pass.note { mem := mem.toList } (.read 0)) := by
    refine ⟨by simp [note], rfl, Nat.succ_pos 7, by simp [note], fun a ha => ?_⟩
    rw [List.mem_singleton.mp ha]
    exact Nat.succ_pos _
  have hreturns : ∀ {r : Pass × Bool} {text' : Bytes}, Agrees (c :: rest) r (inet6AddrFrom {} text') →
      Returns (c :: rest) (if r.2 then r.1.finish else r) (readBody text') := by
    rintro ⟨s, ok⟩ text' ⟨hlog, hr⟩
    cases ok with
    | false => exact ⟨hlog, by rw [readBody, show inet6AddrFrom {} text' = none from hr]; rfl⟩
    | true =>
      obtain ⟨hs, hread⟩ := (hr : Room _ _ ∧ _)
      rw [readBody, hread]
      exact finish_returns hs
  have habs : Pass.abs (c :: rest) (Pass.note { mem := mem.toList } (.read 0)) = {} := by simp [abs, note]
  have hloop : ∀ p, p ≤ (c :: rest).length → Agrees (c :: rest)
      (loop (c :: rest) (Pass.note { mem := mem.toList } (.read 0)) p ((c :: rest).length - p))
      (inet6AddrFrom {} ((c :: rest).drop p)) := by
    intro p hp
    rw [← habs]
    exact loop_agrees hroom (by simp [Tail, note]) (by omega)
  rw [inet6Addr_eq hempty, inet6Addr, if_neg hempty]
  dsimp only
  by_cases hcolon : c = colon
  · rw [if_pos (show (c :: rest).head? = some colon from congrArg some hcolon),
      if_pos (show (c :: rest).getD 0 0 = colon from hcolon)]
    exact hreturns (hloop 1 (by simp))
  · rw [if_neg (show ¬(c :: rest).head? = some colon from fun h => hcolon (Option.some.inj h)),
      if_neg (show ¬(c :: rest).getD 0 0 = colon from hcolon)]
    exact hreturns (hloop 0 (by simp))

/-- Nothing outside is read or written. -/
theorem inet6Addr_inside (text : Bytes) (mem : Vector UInt8 16) :
    ∀ a ∈ (inet6Addr text mem.toList).1.log, a.Inside text := (inet6Addr_returns text mem).1

/-- The last byte that is written for `::1`. -/
theorem inet6Addr_inside_loopback : Access.Inside (ascii "::1") (.write 15) :=
  inet6Addr_inside (ascii "::1") (Vector.replicate 16 0) (.write 15) (by decide +kernel)

end Pass

end PgRest.Inet
