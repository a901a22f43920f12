import Mathlib.Logic.Function.Basic
import PgRest.Memory.Buffer

/-! `pgrest_chain_update_sent`, which accounts for the bytes of a chain that have been sent. It writes the
buffers and none of the links, so a chain is the list of the buffers of its links here, and the buffers are
a memory of their own. -/
namespace PgRest.Memory

namespace Buffer

/-- `pos += n` and `size -= n`, for at most `size` bytes. -/
def advance (buf : Buffer) (n : Nat) : Buffer :=
  { buf with before := buf.before ++ buf.data.take n, data := buf.data.drop n }

@[simp] theorem data_advance (buf : Buffer) (n : Nat) : (buf.advance n).data = buf.data.drop n := rfl
@[simp] theorem data_reset (buf : Buffer) : buf.reset.data = [] := rfl
@[simp] theorem size_reset (buf : Buffer) : buf.reset.size = 0 := rfl
@[simp] theorem pos_reset (buf : Buffer) : buf.reset.pos = 0 := rfl

end Buffer

variable {β : Type} [DecidableEq β]

/-- `pgrest_chain_update_sent`: the buffers as they are then, and the chain that is returned. -/
def chainUpdateSent (bufs : β → Buffer) : List β → Nat → (β → Buffer) × List β
  | [], _ => (bufs, [])
  | b :: chain, sent =>
    if sent = 0 then (bufs, b :: chain)
    else
      let size := (bufs b).size
      if sent ≥ size then chainUpdateSent (Function.update bufs b (bufs b).reset) chain (sent - size)
      else (Function.update bufs b ((bufs b).advance sent), b :: chain)

/-- The bytes that are still to be sent. -/
def unread (bufs : β → Buffer) (chain : List β) : Bytes := chain.flatMap fun b => (bufs b).data

/-- The first `sent` bytes are accounted for, by `bufs'` and the chain `rest` that is returned. -/
structure Accounted (bufs : β → Buffer) (chain : List β) (sent : Nat) (bufs' : β → Buffer) (rest : List β) :
    Prop where
  unread : unread bufs' rest = (unread bufs chain).drop sent
  done : ∃ done, chain = done ++ rest ∧ ∀ b ∈ done, (bufs' b).size = 0 ∧ (bufs' b).pos = 0
  behind : ∀ b ∈ rest.tail, bufs' b = bufs b
  others : ∀ b, b ∉ chain → bufs' b = bufs b

/-- The bytes may be sent in two parts: accounting for the one and then for the other is accounting for both. -/
def AddsUp (bufs : β → Buffer) (chain : List β) (a b : Nat) : Prop :=
  let first := chainUpdateSent bufs chain a
  let second := chainUpdateSent first.1 first.2 b
  let both := chainUpdateSent bufs chain (a + b)
  Memory.unread second.1 second.2 = Memory.unread both.1 both.2

theorem unread_update {bufs : β → Buffer} {b : β} {chain : List β} (h : b ∉ chain) (buf : Buffer) :
    unread (Function.update bufs b buf) chain = unread bufs chain := by
  refine List.flatMap_congr fun c hc => ?_
  have hne : c ≠ b := by
    rintro rfl
    exact h hc
  rw [Function.update_of_ne hne]

omit [DecidableEq β] in
theorem unread_cons (bufs : β → Buffer) (b : β) (chain : List β) :
    unread bufs (b :: chain) = (bufs b).data ++ unread bufs chain := rfl

theorem chainUpdateSent_accounted (bufs : β → Buffer) {chain : List β} (h : chain.Nodup) (sent : Nat) :
    Accounted bufs chain sent (chainUpdateSent bufs chain sent).1 (chainUpdateSent bufs chain sent).2 := by
  induction chain generalizing bufs sent with
  | nil => exact ⟨(List.drop_nil).symm, ⟨[], rfl, by simp⟩, by simp [chainUpdateSent], fun _ _ => rfl⟩
  | cons b chain ih =>
    obtain ⟨hb, hchain⟩ := List.nodup_cons.mp h
    have hne : ∀ c ∈ chain, c ≠ b := by
      rintro c hc rfl
      exact hb hc
    rw [chainUpdateSent]
    split
    · next hzero =>
      subst hzero
      exact ⟨rfl, ⟨[], rfl, by simp⟩, fun _ _ => rfl, fun _ _ => rfl⟩
    dsimp only
    split
    · next hall =>
      -- the buffer is sent as a whole
      obtain ⟨hunread, ⟨done, hdone, hempty⟩, hbehind, hothers⟩ :=
        ih (Function.update bufs b (bufs b).reset) hchain (sent - (bufs b).size)
      have hkept : ∀ c, c ≠ b → Function.update bufs b (bufs b).reset c = bufs c := fun c hc =>
        Function.update_of_ne hc _ _
      refine ⟨?_, ⟨b :: done, congrArg _ hdone, List.forall_mem_cons.mpr ⟨?_, hempty⟩⟩, fun c hc => ?_,
        fun c hc => ?_⟩
      · rw [hunread, unread_update hb, unread_cons, List.drop_append, List.drop_eq_nil_of_le hall, List.nil_append]
        rfl
      · rw [hothers b hb, Function.update_self]
        exact ⟨Buffer.size_reset _, Buffer.pos_reset _⟩
      · rw [hbehind c hc]
        have hmem : c ∈ chain := by
          rw [hdone]
          exact List.mem_append_right _ (List.mem_of_mem_tail hc)
        exact hkept c (hne c hmem)
      · rw [List.mem_cons, not_or] at hc
        rw [hothers c hc.2, hkept c hc.1]
    · next hpart =>
      refine ⟨?_, ⟨[], rfl, by simp⟩, fun c hc => ?_, fun c hc => ?_⟩
      · dsimp only
        rw [unread_cons, unread_cons, Function.update_self, unread_update hb, Buffer.data_advance,
          List.drop_append_of_le_length (Nat.le_of_lt (Nat.lt_of_not_le hpart))]
      · exact Function.update_of_ne (hne c hc) _ _
      · rw [List.mem_cons, not_or] at hc
        exact Function.update_of_ne hc.1 _ _

/-- **Bytes that are sent are accounted for** exactly, in one part or in two. -/
theorem sent_accounted {chain : List β} (h : chain.Nodup) (bufs : β → Buffer) :
    (∀ sent, Accounted bufs chain sent (chainUpdateSent bufs chain sent).1 (chainUpdateSent bufs chain sent).2) ∧
      ∀ a b, AddsUp bufs chain a b := by
  refine ⟨chainUpdateSent_accounted bufs h, fun a b => ?_⟩
  have hfirst := chainUpdateSent_accounted bufs h a
  obtain ⟨done, hdone, -⟩ := hfirst.done
  have hrest : (chainUpdateSent bufs chain a).2.Nodup := (List.nodup_append.mp (hdone ▸ h)).2.1
  rw [AddsUp, (chainUpdateSent_accounted _ hrest b).unread, hfirst.unread, List.drop_drop,
    (chainUpdateSent_accounted _ h (a + b)).unread]

/-- Two buffers, the first of them empty. -/
theorem sent_accounted_pair : AddsUp (fun b : Bool => ⟨[], if b then [1, 2] else [], [], none⟩) [false, true] 1 1 :=
  (sent_accounted (by decide) _).2 1 1

end PgRest.Memory
