import Mathlib.Data.List.Basic

/-! Byte strings. A `pgrest_string_t` is a base pointer and a length; here it is
the list of the bytes it covers. -/
namespace PgRest

abbrev Bytes := List UInt8

/-- The bytes of an ASCII string. -/
def ascii (s : String) : Bytes := s.toList.map fun c => c.toNat.toUInt8

/-- `'/'` -/
abbrev slash : UInt8 := 47
/-- `':'` -/
abbrev colon : UInt8 := 58
/-- `'*'` -/
abbrev star : UInt8 := 42

/-- `strncasecmp` of two strings of one length is 0. -/
def sameCase (s t : Bytes) : Bool :=
  let lower := fun c : UInt8 => if 65 ≤ c ∧ c ≤ 90 then c + 32 else c
  s.map lower == t.map lower

/-- `pgrest_param_t` -/
structure Param where
  key : Bytes
  value : Bytes
deriving DecidableEq, Repr

/-- `!strncmp(a, b, n)`: the first `n` bytes agree, as far as the first NUL. -/
def strncmp : Bytes → Bytes → Nat → Bool
  | _, _, 0 => true
  | a :: s, b :: t, n + 1 => a == b && (a == 0 || strncmp s t n)
  | [], [], _ + 1 => true
  | _, _, _ + 1 => false

/-- With no NUL in one of the strings, `strncmp` over the length of the second tests a prefix. -/
theorem strncmp_iff_starts {s t : Bytes} (h : (0 : UInt8) ∉ s ∨ (0 : UInt8) ∉ t)
    (hlen : t.length ≤ s.length) : strncmp s t t.length = true ↔ t <+: s := by
  induction t generalizing s with
  | nil => simp [strncmp]
  | cons b t ih =>
    cases s with
    | nil => simp at hlen
    | cons a s =>
      simp only [List.mem_cons, not_or] at h
      simp only [List.length_cons, Nat.add_le_add_iff_right] at hlen
      simp only [List.length_cons, strncmp, Bool.and_eq_true, beq_iff_eq, Bool.or_eq_true,
        List.cons_prefix_cons]
      have htail := ih (h.imp And.right And.right) hlen
      constructor
      · rintro ⟨rfl, h0 | hs⟩
        · exact absurd h0.symm (h.elim And.left And.left)
        · exact ⟨rfl, htail.mp hs⟩
      · rintro ⟨rfl, hs⟩
        exact ⟨rfl, Or.inr (htail.mpr hs)⟩

theorem strncmp_comm (s t : Bytes) (n : Nat) : strncmp s t n = strncmp t s n := by
  induction n generalizing s t with
  | zero => simp [strncmp]
  | succ n ih =>
    cases s with
    | nil => cases t <;> rfl
    | cons a s =>
      cases t with
      | nil => rfl
      | cons b t =>
        by_cases h : a = b
        · subst h
          simp [strncmp, ih s t]
        · have hab : (a == b) = false := beq_eq_false_iff_ne.mpr h
          have hba : (b == a) = false := beq_eq_false_iff_ne.mpr (Ne.symm h)
          simp [strncmp, hab, hba]

theorem strncmp_iff_eq {s t : Bytes} (h : (0 : UInt8) ∉ s) (hlen : s.length = t.length) :
    strncmp s t s.length = true ↔ s = t := by
  rw [hlen, strncmp_iff_starts (Or.inl h) (Nat.le_of_eq hlen.symm)]
  exact ⟨fun hp => (hp.eq_of_length hlen.symm).symm, fun he => he ▸ List.prefix_refl _⟩

end PgRest
