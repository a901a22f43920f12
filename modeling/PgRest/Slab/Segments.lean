import PgRest.Slab.Links

/-! The pages of a pool as a sequence of segments: free runs, runs in use, and pages cut into
chunks. What the page headers show of a segment is what the code reads there, and no more. -/
namespace PgRest.Slab

inductive Seg where
  | free (n : Nat)
  /-- A run that is being freed, between the rings. -/
  | loose (n : Nat)
  | run (n : Nat)
  | chunks (shift : Nat)
deriving DecidableEq, Repr

def Seg.len : Seg → Nat
  | .free n => n
  | .loose n => n
  | .run n => n
  | .chunks _ => 1

def Seg.isFree : Seg → Bool
  | .free _ => true
  | _ => false

def total : List Seg → Nat
  | [] => 0
  | s :: segs => s.len + total segs

@[simp] theorem total_append (a b : List Seg) : total (a ++ b) = total a + total b := by
  induction a with
  | nil => simp [total]
  | cons s a ih => simp only [List.cons_append, total, ih, Nat.add_assoc]

/-- No run is being freed. -/
def Settled (segs : List Seg) : Prop := ∀ n, Seg.loose n ∉ segs

/-- No two free runs are next to each other. -/
def Apart (segs : List Seg) : Prop := segs.IsChain fun s t => ¬(s.isFree = true ∧ t.isFree = true)

/-- A page behind the first of a run that is not in use. -/
def Inner (h : Header) : Prop := h.slab = 0 ∧ h.next = none ∧ h.kind = .page

/-- A page behind the first of a run that is in use. -/
def Taken (h : Header) : Prop := h.slab = busy ∧ h.next = none ∧ h.kind = .page

/-- What the headers `h` show of a segment at the page `i`. Of a free run the last page leads
back to the first, but not always where it is the last page of all. -/
def Shown (kindOf : Nat → Kind) (pages : Nat) (h : Nat → Header) (i : Nat) : Seg → Prop
  | .free n => 0 < n ∧ (h i).slab = n ∧ (h i).kind = .page ∧ (∀ j, i < j → j < i + n → Inner (h j)) ∧
      (1 < n → i + n < pages → (h (i + n - 1)).prev = some (.page i))
  | .loose n => 0 < n ∧ (h i).slab = n ∧ ∀ j, i < j → j < i + n → Inner (h j)
  | .run n => 0 < n ∧ (h i).slab = n ||| pageStart ∧ (h i).next = none ∧ (h i).kind = .page ∧
      ∀ j, i < j → j < i + n → Taken (h j)
  | .chunks shift => (h i).kind = kindOf shift ∧ (h i).kind ≠ .page

variable {kindOf : Nat → Kind} {pages : Nat} {h h' : Nat → Header}

/-- A header that is as it was, but for the links of a page in a ring. -/
def Keeps (a b : Header) : Prop := b.slab = a.slab ∧ b.kind = a.kind ∧ (a.next = none → b = a)

theorem Keeps.refl (a : Header) : Keeps a a := ⟨rfl, rfl, fun _ => rfl⟩

theorem Keeps.of_eq {a b : Header} (h : b = a) : Keeps a b := h ▸ .refl a

theorem Keeps.inner {a b : Header} (h : Keeps a b) (ha : Inner a) : Inner b := by
  rw [h.2.2 ha.2.1]
  exact ha

theorem Shown.keeps {i : Nat} {s : Seg} (hs : Shown kindOf pages h i s)
    (hk : ∀ j, i ≤ j → j < i + s.len → Keeps (h j) (h' j)) : Shown kindOf pages h' i s := by
  cases s with
  | free n =>
    obtain ⟨hn, hslab, hkind, hin, hlast⟩ := hs
    have hi := hk i (Nat.le_refl i) (by show i < i + n; omega)
    refine ⟨hn, hi.1.trans hslab, hi.2.1.trans hkind, fun j hj hjn => ?_, fun h1 hend => ?_⟩
    · exact (hk j (Nat.le_of_lt hj) hjn).inner (hin j hj hjn)
    · have hl : i < i + n - 1 ∧ i + n - 1 < i + n := by omega
      rw [(hk (i + n - 1) (Nat.le_of_lt hl.1) hl.2).2.2 (hin _ hl.1 hl.2).2.1]
      exact hlast h1 hend
  | loose n =>
    obtain ⟨hn, hslab, hin⟩ := hs
    have hi := hk i (Nat.le_refl i) (by show i < i + n; omega)
    exact ⟨hn, hi.1.trans hslab, fun j hj hjn => (hk j (Nat.le_of_lt hj) hjn).inner (hin j hj hjn)⟩
  | run n =>
    obtain ⟨hn, hslab, hnext, hkind, hin⟩ := hs
    have hi := hk i (Nat.le_refl i) (by show i < i + n; omega)
    rw [Shown, hi.2.2 hnext]
    refine ⟨hn, hslab, hnext, hkind, fun j hj hjn => ?_⟩
    rw [(hk j (Nat.le_of_lt hj) hjn).2.2 (hin j hj hjn).2.1]
    exact hin j hj hjn
  | chunks shift =>
    have hi := hk i (Nat.le_refl i) (by show i < i + 1; omega)
    rw [Shown, hi.2.1]
    exact hs

/-! ### Where the segments are -/

/-- The segments with the pages they start at. -/
def placed : Nat → List Seg → List (Nat × Seg)
  | _, [] => []
  | i, s :: segs => (i, s) :: placed (i + s.len) segs

@[simp] theorem placed_nil (i : Nat) : placed i [] = [] := rfl

@[simp] theorem placed_cons (i : Nat) (s : Seg) (segs : List Seg) :
    placed i (s :: segs) = (i, s) :: placed (i + s.len) segs := rfl

@[simp] theorem placed_append (i : Nat) (a b : List Seg) :
    placed i (a ++ b) = placed i a ++ placed (i + total a) b := by
  induction a generalizing i with
  | nil => simp [total]
  | cons s a ih => simp only [List.cons_append, placed_cons, ih, total, Nat.add_assoc]

theorem placed_bounds {i : Nat} {segs : List Seg} {p : Nat × Seg} (hp : p ∈ placed i segs) :
    i ≤ p.1 ∧ p.1 + p.2.len ≤ i + total segs := by
  induction segs generalizing i with
  | nil => simp at hp
  | cons s segs ih =>
    rw [total]
    rcases List.mem_cons.mp hp with rfl | hp
    · exact ⟨Nat.le_refl i, by simp only; omega⟩
    · have := ih hp
      omega

theorem mem_placed {i : Nat} {segs : List Seg} {p : Nat × Seg} :
    p ∈ placed i segs ↔ ∃ a b, segs = a ++ p.2 :: b ∧ p.1 = i + total a := by
  induction segs generalizing i with
  | nil => simp
  | cons s segs ih =>
    rw [placed_cons, List.mem_cons, ih]
    constructor
    · rintro (rfl | ⟨a, b, rfl, hi⟩)
      · exact ⟨[], segs, rfl, rfl⟩
      · exact ⟨s :: a, b, rfl, by rw [hi, total, Nat.add_assoc]⟩
    · rintro ⟨a, b, heq, hi⟩
      cases a with
      | nil =>
        obtain ⟨rfl, rfl⟩ := List.cons.inj heq
        exact Or.inl (Prod.ext hi rfl)
      | cons s' a =>
        obtain ⟨rfl, rfl⟩ := List.cons.inj heq
        exact Or.inr ⟨a, b, rfl, by rw [hi, total, Nat.add_assoc]⟩

/-- A page is in one segment only. -/
theorem placed_unique {i : Nat} {segs : List Seg} {p q : Nat × Seg} (hp : p ∈ placed i segs)
    (hq : q ∈ placed i segs) {j : Nat} (hpj : p.1 ≤ j) (hpj' : j < p.1 + p.2.len) (hqj : q.1 ≤ j)
    (hqj' : j < q.1 + q.2.len) : p = q := by
  induction segs generalizing i with
  | nil => simp at hp
  | cons s segs ih =>
    rcases List.mem_cons.mp hp with rfl | hp
    · rcases List.mem_cons.mp hq with rfl | hq
      · rfl
      · have := placed_bounds hq
        simp only at hpj'
        omega
    · rcases List.mem_cons.mp hq with rfl | hq
      · have := placed_bounds hp
        simp only at hqj'
        omega
      · exact ih hp hq

/-- A page is in some segment. -/
theorem placed_cover {i j : Nat} {segs : List Seg} (hlo : i ≤ j) (hhi : j < i + total segs) :
    ∃ k s, (k, s) ∈ placed i segs ∧ k ≤ j ∧ j < k + s.len := by
  induction segs generalizing i with
  | nil => exact absurd hhi (by simp only [total]; omega)
  | cons s segs ih =>
    rw [total] at hhi
    rcases Nat.lt_or_ge j (i + s.len) with hlt | hge
    · exact ⟨i, s, List.mem_cons_self .., hlo, hlt⟩
    · obtain ⟨k, t, hmem, hk⟩ := ih hge (by omega)
      exact ⟨k, t, List.mem_cons_of_mem _ hmem, hk⟩

/-- The headers show all segments. -/
def ShownAll (kindOf : Nat → Kind) (pages : Nat) (h : Nat → Header) (segs : List Seg) : Prop :=
  ∀ p ∈ placed 0 segs, Shown kindOf pages h p.1 p.2

/-- Some segments are replaced by others of as many pages. -/
theorem ShownAll.replace {a m m' b : List Seg} (hs : ShownAll kindOf pages h (a ++ m ++ b)) (ht : total m' = total m)
    (hk : ∀ j, j < total a ∨ total a + total m ≤ j → j < total (a ++ m ++ b) → Keeps (h j) (h' j))
    (hm : ∀ p ∈ placed (total a) m', Shown kindOf pages h' p.1 p.2) : ShownAll kindOf pages h' (a ++ m' ++ b) := by
  intro p hp
  simp only [placed_append, total_append, List.mem_append, Nat.zero_add] at hp
  have hold : ∀ q, q ∈ placed 0 a ∨ q ∈ placed (total a + total m) b → Shown kindOf pages h q.1 q.2 := fun q hq =>
    hs q (by
      simp only [placed_append, total_append, List.mem_append, Nat.zero_add]
      tauto)
  rw [ht] at hp
  simp only [total_append] at hk
  rcases hp with (hp | hp) | hp
  · have := placed_bounds hp
    exact (hold p (Or.inl hp)).keeps fun j _ hj => hk j (by omega) (by omega)
  · exact hm p hp
  · have := placed_bounds hp
    exact (hold p (Or.inr hp)).keeps fun j hj hj' => hk j (by omega) (by omega)

theorem Shown.pos {i : Nat} {s : Seg} (hs : Shown kindOf pages h i s) : 0 < s.len := by
  cases s with
  | free n => exact hs.1
  | loose n => exact hs.1
  | run n => exact hs.1
  | chunks shift => exact Nat.one_pos

end PgRest.Slab
