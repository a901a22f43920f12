import PgRest.Http.Finalize
import PgRest.Inet.Quad

/-! `pgrest_atoof` and `pgrest_atotm`, which read a decimal number. They are the same code for two
types, an `off_t` of 64 bits and a `time_t` of the size of a pointer; each has a largest value, and stops in
front of the step that would exceed it. The products and sums that are computed on the way are kept here. -/
namespace PgRest.Decimal
open Inet

/-- `PGREST_ERROR` -/
def error : Int := -1

/-- `PGREST_MAX_OFF_T_VALUE` -/
def maxOffT : Nat := 9223372036854775807

/-- `PGREST_MAX_TIME_T_VALUE`, by the size of a pointer. -/
def maxTimeT (sizeofVoidP : Nat) : Nat := if sizeofVoidP = 4 then 2147483647 else 9223372036854775807

structure Conversion where
  result : Int
  /-- each product and each sum, in turn -/
  computed : List Int
deriving DecidableEq, Repr

/-- The loop, with the value there is so far. -/
def convert (cutoff cutlim value : Int) : Bytes → Conversion
  | [] => ⟨value, []⟩
  | c :: line =>
    if c < 48 ∨ 57 < c then ⟨error, []⟩
    else
      let digit : Int := c.toNat - 48
      if cutoff ≤ value ∧ (cutoff < value ∨ cutlim < digit) then ⟨error, []⟩
      else
        let rest := convert cutoff cutlim (value * 10 + digit) line
        ⟨rest.result, value * 10 :: (value * 10 + digit) :: rest.computed⟩

/-- What both do with their largest value. -/
def convertUpTo (max : Nat) (line : Bytes) : Conversion :=
  if line = [] then ⟨error, []⟩ else convert ((max / 10 : Nat) : Int) ((max % 10 : Nat) : Int) 0 line

/-- `pgrest_atoof` -/
def atoof (line : Bytes) : Conversion := convertUpTo maxOffT line

/-- `pgrest_atotm` -/
def atotm (sizeofVoidP : Nat) (line : Bytes) : Conversion := convertUpTo (maxTimeT sizeofVoidP) line

/-- The text is a decimal number. -/
def IsDecimal (line : Bytes) : Prop := line ≠ [] ∧ ∀ c ∈ line, Digit c

/-- Numbers up to the largest value are read, everything else is an error, and no step exceeds it. -/
structure Exact (max : Nat) (line : Bytes) (r : Conversion) : Prop where
  reads : IsDecimal line → decimalFrom 0 line ≤ max → r.result = decimalFrom 0 line
  rejects : ¬(IsDecimal line ∧ decimalFrom 0 line ≤ max) → r.result = error
  bounded : ∀ x ∈ r.computed, x ≤ max

/-- The step is refused exactly when it would exceed the largest value. -/
theorem cut_iff (max v d : Nat) (hd : d ≤ 9) :
    ((max / 10 : Nat) : Int) ≤ v ∧ (((max / 10 : Nat) : Int) < v ∨ ((max % 10 : Nat) : Int) < d) ↔ max < v * 10 + d := by
  omega

theorem digit_sub {c : UInt8} (h : Digit c) : (c.toNat : Int) - 48 = ((c - 48).toNat : Nat) ∧ (c - 48).toNat ≤ 9 := by
  have hlow : 48 ≤ c.toNat := UInt8.le_iff_toNat_le.mp h.1
  have hhigh : c.toNat ≤ 57 := UInt8.le_iff_toNat_le.mp h.2
  have hsub : (c - 48).toNat = c.toNat - 48 := UInt8.toNat_sub_of_le _ _ h.1
  omega

theorem decimalFrom_cons (v : Nat) (c : UInt8) (line : Bytes) :
    decimalFrom v (c :: line) = decimalFrom (v * 10 + (c - 48).toNat) line := rfl

/-- One round of the loop. -/
theorem convert_cons (max v : Nat) {c : UInt8} (hc : Digit c) (line : Bytes) :
    convert ((max / 10 : Nat) : Int) ((max % 10 : Nat) : Int) v (c :: line) =
      if max < v * 10 + (c - 48).toNat then ⟨error, []⟩
      else
        let rest := convert ((max / 10 : Nat) : Int) ((max % 10 : Nat) : Int) ((v * 10 + (c - 48).toNat : Nat) : Int) line
        ⟨rest.result, ((v * 10 : Nat) : Int) :: ((v * 10 + (c - 48).toNat : Nat) : Int) :: rest.computed⟩ := by
  obtain ⟨hsub, hnine⟩ := digit_sub hc
  have hdigit : ¬(c < 48 ∨ 57 < c) := not_or.mpr ⟨UInt8.not_lt.mpr hc.1, UInt8.not_lt.mpr hc.2⟩
  rw [convert, if_neg hdigit, hsub]
  simp only [cut_iff max v _ hnine]
  split
  · rfl
  · push_cast
    rfl

theorem convert_other (cutoff cutlim v : Int) {c : UInt8} (hc : ¬Digit c) (line : Bytes) :
    convert cutoff cutlim v (c :: line) = ⟨error, []⟩ := by
  have hdigit : c < 48 ∨ 57 < c := by
    rw [Digit, not_and_or, UInt8.not_le, UInt8.not_le] at hc
    exact hc
  rw [convert, if_pos hdigit]

/-- What the loop makes of a line, behind a value that does not exceed the largest one. -/
theorem convert_spec (max : Nat) {v : Nat} (hv : v ≤ max) (line : Bytes) :
    let r := convert ((max / 10 : Nat) : Int) ((max % 10 : Nat) : Int) v line
    ((∀ c ∈ line, Digit c) → decimalFrom v line ≤ max → r.result = decimalFrom v line) ∧
      (¬((∀ c ∈ line, Digit c) ∧ decimalFrom v line ≤ max) → r.result = error) ∧ ∀ x ∈ r.computed, x ≤ max := by
  induction line generalizing v with
  | nil =>
    refine ⟨fun _ _ => rfl, fun h => absurd ⟨by simp, hv⟩ h, ?_⟩
    simp [convert]
  | cons c line ih =>
    by_cases hc : Digit c
    · dsimp only
      rw [convert_cons max v hc, decimalFrom_cons]
      split
      · next hcut =>
        have hle := le_decimalFrom (v * 10 + (c - 48).toNat) line
        exact ⟨fun _ h => absurd h (by omega), fun _ => rfl, by simp⟩
      · next hcut =>
        obtain ⟨hreads, hrejects, hbounded⟩ := ih (v := v * 10 + (c - 48).toNat) (by omega)
        refine ⟨fun hall => hreads fun d hd => hall d (List.mem_cons_of_mem _ hd), fun h => hrejects fun hrest => ?_, ?_⟩
        · exact h ⟨List.forall_mem_cons.mpr ⟨hc, hrest.1⟩, hrest.2⟩
        · intro x hx
          rcases List.mem_cons.mp hx with rfl | hx
          · omega
          rcases List.mem_cons.mp hx with rfl | hx
          · omega
          · exact hbounded x hx
    · dsimp only
      rw [convert_other _ _ _ hc]
      exact ⟨fun hall => absurd (hall c (List.mem_cons_self ..)) hc, fun _ => rfl, by simp⟩

theorem convertUpTo_exact (max : Nat) (line : Bytes) : Exact max line (convertUpTo max line) := by
  rw [convertUpTo]
  split
  · next hempty => exact ⟨fun h => absurd hempty h.1, fun _ => rfl, by simp⟩
  · next hne =>
    obtain ⟨hreads, hrejects, hbounded⟩ := convert_spec max (Nat.zero_le max) line
    exact ⟨fun h => hreads h.2, fun h => hrejects fun hall => h ⟨⟨hne, hall.1⟩, hall.2⟩, hbounded⟩

/-- **Decimal numbers are read exactly** up to the largest value of their type. -/
theorem atoof_atotm_exact (sizeofVoidP : Nat) (line : Bytes) :
    Exact maxOffT line (atoof line) ∧ Exact (maxTimeT sizeofVoidP) line (atotm sizeofVoidP line) :=
  ⟨convertUpTo_exact _ line, convertUpTo_exact _ line⟩

/-! ### `Content-Length` -/

theorem convert_foldlM (max v : Nat) (line : Bytes) :
    line.foldlM (fun (value : Int) c =>
      if c < 48 ∨ 57 < c then none
      else if ((max / 10 : Nat) : Int) ≤ value ∧ (((max / 10 : Nat) : Int) < value ∨ max % 10 < c.toNat - 48) then none
      else some (value * 10 + (c.toNat - 48 : Nat))) (v : Int) =
    let r := (convert ((max / 10 : Nat) : Int) ((max % 10 : Nat) : Int) v line).result
    if r = error then none else some r := by
  induction line generalizing v with
  | nil =>
    have hne : (v : Int) ≠ error := by
      rw [error]
      omega
    simp [convert, hne]
  | cons c line ih =>
    rw [List.foldlM_cons]
    by_cases hc : Digit c
    · obtain ⟨hsub, hnine⟩ := digit_sub hc
      have hdigit : ¬(c < 48 ∨ 57 < c) := not_or.mpr ⟨UInt8.not_lt.mpr hc.1, UInt8.not_lt.mpr hc.2⟩
      have hnat : c.toNat - 48 = (c - 48).toNat := by omega
      have hcut := cut_iff max v _ hnine
      rw [Int.ofNat_lt (n := max % 10)] at hcut
      rw [convert_cons max v hc, if_neg hdigit, hnat]
      simp only [hcut]
      split
      · rfl
      · exact ih (v * 10 + (c - 48).toNat)
    · have hdigit : c < 48 ∨ 57 < c := by
        rw [Digit, not_and_or, UInt8.not_le, UInt8.not_le] at hc
        exact hc
      rw [convert_other _ _ _ hc, if_pos hdigit]
      rfl

/-- This is how the lengths of bodies are read. -/
theorem contentLength_atoof (line : Bytes) :
    Http.atoof line = if (atoof line).result = error then none else some (atoof line).result := by
  rw [Http.atoof, atoof, convertUpTo]
  split
  · rfl
  · exact convert_foldlM maxOffT 0 line

end PgRest.Decimal
