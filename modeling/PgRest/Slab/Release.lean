import PgRest.Slab.Pages

/-! `pgrest_slab_free_pages`: a run, or a page that was cut into chunks, is taken out of the ring it
is in, joined with the free runs next to it, and put in front of the ring of free runs. -/
namespace PgRest.Slab
open Lib

/-- The pages are counted and cleared, and the first is taken out of its ring. -/
def detach (pool : Pool) (i pages : Nat) : Option Pool := do
  let pool ← pool.modify (.page i) fun page => { page with slab := pages }
  let pool ← clearPages (i + 1) (pages - 1) pool
  let page ← pool.get (.page i)
  if page.next ≠ none then unlink pool (.page i) else some pool

/-- The last page leads back to the first, and the run becomes the first of the free ones. -/
def hang (pool : Pool) (i left : Nat) : Option Pool := do
  let pool ←
    if left ≠ 0 then pool.modify (.page (i + left)) fun h => { h with prev := some (.page i), kind := .page }
    else some pool
  pushFree pool i

theorem freePages_eq {pool : Pool} {i pages : Nat} (h : pages ≠ 0) :
    freePages pool i pages = (detach pool i pages).bind fun pool => (joinNext pool i (pages - 1)).bind fun r =>
      (joinPrev r.1 i r.2).bind fun r => hang r.1 r.2.1 r.2.2 := by
  simp only [freePages, if_neg h, detach, hang, Option.bind_eq_bind, Option.bind_assoc]
  apply congrArg
  funext pool
  apply congrArg
  funext pool
  apply congrArg
  funext page
  split
  · rfl
  · rfl

variable {kindOf : Nat → Kind} {pool : Pool} {segs : List Seg} {free : List Nat} {a b : List Seg} {n : Nat}

theorem Pages.loose {pages : Nat} {header : Ref → Header} (P : Pages kindOf header pages segs free)
    (hsegs : segs = a ++ [.loose n] ++ b) :
    0 < n ∧ total a + n + total b = pages ∧ (total a, .loose n) ∈ placed 0 segs ∧ total a ∉ free ∧
      (header (.page (total a))).slab = n := by
  have hmem : (total a, .loose n) ∈ placed 0 segs := by simp [hsegs]
  obtain ⟨hn, hslab, -⟩ := P.shown _ hmem
  refine ⟨hn, ?_, hmem, fun hi => ?_, hslab⟩
  · rw [← P.count, hsegs]
    simp [total, Seg.len, Nat.add_assoc]
  · exact absurd (P.eq_head hmem hi (Nat.le_refl _) (by simp only [Seg.len]; omega)).2 (by simp [Seg.isFree])

/-- What is neither in the free runs nor in the run that is being freed. -/
def Beyond (header : Ref → Header) (i : Nat) (r : Ref) : Prop := Outside header r ∧ r ≠ .page i

/-! ### Joining with the run behind -/

/-- What comes of a run in front of some segments: its length, and what is behind it then. -/
inductive JoinsNext : Nat → List Seg → Nat → List Seg → Prop where
  | alone {k c} : (∀ m t, c ≠ .free m :: t) → JoinsNext k c k c
  | joined {k m c} : JoinsNext k (.free m :: c) (k + m) c

/-- What follows is not free. -/
theorem Pages.not_free {header : Ref → Header} {pages : Nat} (P : Pages kindOf header pages segs free)
    {i : Nat} {s : Seg} (hs : (i, s) ∈ placed 0 segs) (hfree : s.isFree = false) (hloose : ∀ n, s ≠ .loose n) :
    ¬((header (.page i)).kind = .page ∧ (header (.page i)).next ≠ none) := by
  have hshown := P.shown _ hs
  rintro ⟨hkind, hnext⟩
  cases s with
  | free => cases hfree
  | loose n => exact hloose n rfl
  | run n => exact hnext hshown.2.2.1
  | chunks shift => exact hshown.2 hkind

/-- A free run leaves the ring, for a run that is `m` pages long then. -/
theorem absorb_spec (P : Pages kindOf pool.header pool.pages segs free) {f x y : Nat} (hf : f ∈ free)
    (hy : y ∈ free → y = f) (m : Nat) :
    ∃ header, unlink (pool.put (.page x) { pool.header (.page x) with slab := m }) (.page f) =
        some (pool.withHeader header) ∧
      Linked (Function.update header (.page y) {}) .free ((free.erase f).map .page) ∧
      (header (.page x)).slab = m ∧
      (∀ j, j ≠ x → j ≠ y → Keeps (pagesOf pool.header j) (pagesOf (Function.update header (.page y) {}) j)) ∧
      ∀ r, r ∉ Ref.free :: free.map .page → r ≠ .page x → header r = pool.header r := by
  have hlinks : ∀ r, ((pool.put (.page x) { pool.header (.page x) with slab := m }).header r).next =
      (pool.header r).next ∧ ((pool.put (.page x) { pool.header (.page x) with slab := m }).header r).prev =
      (pool.header r).prev ∧ ((pool.put (.page x) { pool.header (.page x) with slab := m }).header r).kind =
      (pool.header r).kind := by
    intro r
    by_cases hr : r = .page x
    · subst hr
      rw [put_self]
      exact ⟨rfl, rfl, rfl⟩
    · rw [put_of_ne _ _ _ hr]
      exact ⟨rfl, rfl, rfl⟩
  have hring : Linked (pool.put (.page x) { pool.header (.page x) with slab := m }).header .free (free.map .page) :=
    Ring.congr P.ring (fun r _ => (hlinks r).1) fun r _ => (hlinks r).2.1
  obtain ⟨header, hunlink, hlinked, hre, -⟩ := unlink_spec hring (List.mem_map_of_mem hf)
    (fun r hr => by
      obtain ⟨j, hj, rfl⟩ := List.mem_map.mp hr
      rw [(hlinks _).2.2, (hlinks _).2.2, P.free_kind hj, P.free_kind hf])
    (fun r hr => by rw [put_has]; exact has_ring P r hr)
  rw [← List.map_erase page_injective] at hlinked
  refine ⟨header, hunlink, hlinked.congr fun r hr => Function.update_of_ne ?_ .., ?_, fun j hjx hjy => ?_,
    fun r hr hrx => ?_⟩
  · rintro rfl
    have hmem : y ∈ free.erase f := by simpa using hr
    obtain ⟨hne, hmem⟩ := P.nodup.mem_erase_iff.mp hmem
    exact hne (hy hmem)
  · rw [hre.slab, put_self]
  · have hpage : Ref.page j ≠ .page y := by simpa using hjy
    have hkeeps := hre.keeps hring (by simp) j
    rw [pagesOf, put_of_ne _ _ _ (by simpa using hjx)] at hkeeps
    rwa [pagesOf, pagesOf, Function.update_of_ne hpage]
  · rw [hre.others r hr, put_of_ne _ _ _ hrx]

/-- Some segments, of which one is a free run, have become one run that is being freed. -/
theorem Pages.merged {pages : Nat} {header header' : Ref → Header} {m : List Seg}
    (P : Pages kindOf header pages (a ++ m ++ b) free) {f : Nat} (hm : total m = n) (hn : 0 < n)
    (hf : heads (total a) m = [f]) (ring : Linked header' .free ((free.erase f).map .page))
    (keeps : ∀ j, j < total a ∨ total a + n ≤ j → Slab.Keeps (pagesOf header j) (pagesOf header' j))
    (slab : (header' (.page (total a))).slab = n)
    (inner : ∀ j, total a < j → j < total a + n → Inner (pagesOf header' j)) :
    Pages kindOf header' pages (a ++ [.loose n] ++ b) (free.erase f) := by
  have hlen : total [.loose n] = n := rfl
  constructor
  · rw [← P.count]
    simp only [total_append, hlen, hm]
  · refine P.shown.replace (by rw [hlen, hm]) (fun j hj _ => keeps j (by omega)) fun p hp => ?_
    obtain rfl := List.mem_singleton.mp hp
    exact ⟨hn, slab, inner⟩
  · exact ring
  · have hruns := P.runs
    simp only [heads_append, hm, hf, Nat.zero_add, List.append_assoc, List.singleton_append, heads_loose] at hruns ⊢
    exact erase_middle hruns

theorem joinNext_joined {m : Nat} (P : Pages kindOf pool.header pool.pages (a ++ [.loose n] ++ .free m :: b) free) :
    ∃ header, joinNext pool (total a) (n - 1) = some (pool.withHeader header, n + m - 1) ∧
      Pages kindOf header pool.pages (a ++ [.loose (n + m)] ++ b) (free.erase (total a + n)) ∧
      ∀ r, Beyond pool.header (total a) r → header r = pool.header r := by
  obtain ⟨hn, htotal, hplaced, hout, hslab⟩ := P.loose rfl
  have hmem : (total a + n, .free m) ∈ placed 0 (a ++ [.loose n] ++ .free m :: b) := by simp [Seg.len]
  obtain ⟨hm, hslab', hkind, hin, -⟩ := P.shown _ hmem
  obtain ⟨-, -, hin'⟩ := P.shown _ hplaced
  have hslab' : (pool.header (.page (total a + n))).slab = m := hslab'
  have hjoin : total a + n ∈ free := P.mem.mpr ⟨m, hmem⟩
  have hlt := P.free_lt hjoin
  have hne : Ref.page (total a) ≠ .page (total a + n) := by simp only [ne_eq, Ref.page.injEq]; omega
  obtain ⟨header, hunlink, hring, hslab₂, hkeeps, hsame⟩ :=
    absorb_spec P hjoin (x := total a) (y := total a + n) (fun _ => rfl) (n + m)
  refine ⟨Function.update header (.page (total a + n)) {}, ?_, ?_, fun r hr => ?_⟩
  · have hfree : (pool.header (.page (total a + n))).kind = .page ∧ (pool.header (.page (total a + n))).next ≠ none :=
      ⟨hkind, P.ring.next_ne (List.mem_map_of_mem hjoin)⟩
    simp only [joinNext, Pool.get_eq (Pool.has_page (Nat.lt_of_le_of_lt (Nat.le_add_right _ n) hlt)), Option.bind_eq_bind,
      Option.bind_some, hslab, if_pos hlt, Pool.get_eq (Pool.has_page hlt), if_pos hfree]
    rw [Pool.modify_eq (Pool.has_page (by omega)), Option.bind_some, hslab, hslab', hunlink, Option.bind_some,
      Pool.modify_eq (by simpa using Pool.has_page hlt), Option.bind_some, withHeader_put]
    rw [show n - 1 + m = n + m - 1 by omega]
    rfl
  · have P' : Pages kindOf pool.header pool.pages (a ++ [.loose n, .free m] ++ b) free := by simpa using P
    refine P'.merged (by simp [total, Seg.len]) (by omega) (by simp) hring (fun j hj => hkeeps j (by omega) (by omega)) ?_
      fun j hlo hhi => ?_
    · rw [Function.update_of_ne hne]
      exact hslab₂
    · by_cases hj : j = total a + n
      · subst hj
        rw [pagesOf, Function.update_self]
        exact ⟨rfl, rfl, rfl⟩
      · refine (hkeeps j (by omega) hj).inner ?_
        rcases Nat.lt_or_ge j (total a + n) with hlt | hge
        · exact hin' j hlo hlt
        · exact hin j (by simp only; omega) (by simp only; omega)
  · have hout := outside_free P hr.1 hmem
    rw [Function.update_of_ne, hsame r (outside_ring P hr.1) hr.2]
    rintro rfl
    have := hout _ rfl
    omega

theorem joinNext_spec (P : Pages kindOf pool.header pool.pages (a ++ [.loose n] ++ b) free) (hb : Settled b) :
    ∃ header free' n' b', joinNext pool (total a) (n - 1) = some (pool.withHeader header, n' - 1) ∧
      JoinsNext n b n' b' ∧ Pages kindOf header pool.pages (a ++ [.loose n'] ++ b') free' ∧
      ∀ r, Beyond pool.header (total a) r → header r = pool.header r := by
  obtain ⟨hn, htotal, hplaced, hout, hslab⟩ := P.loose rfl
  have hhas : pool.has (.page (total a)) = true := Pool.has_page (by omega)
  -- nothing is joined
  have halone : (∀ m t, b ≠ .free m :: t) → joinNext pool (total a) (n - 1) = some (pool, n - 1) →
      ∃ header free' n' b', joinNext pool (total a) (n - 1) = some (pool.withHeader header, n' - 1) ∧
        JoinsNext n b n' b' ∧ Pages kindOf header pool.pages (a ++ [.loose n'] ++ b') free' ∧
        ∀ r, Beyond pool.header (total a) r → header r = pool.header r :=
    fun hb heq => ⟨pool.header, free, n, b, heq, .alone hb, P, fun _ _ => rfl⟩
  cases b with
  | nil =>
    refine halone (by simp) ?_
    have hend : ¬total a + n < pool.pages := by
      simp only [total] at htotal
      omega
    simp only [joinNext, Pool.get_eq hhas, Option.bind_eq_bind, Option.bind_some, hslab, if_neg hend]
    rfl
  | cons s b =>
    have hmem : (total a + n, s) ∈ placed 0 (a ++ [.loose n] ++ s :: b) := by simp [Seg.len]
    have hpos := (P.shown _ hmem).pos
    have hlt : total a + n < pool.pages := by
      simp only [total] at htotal hpos
      omega
    by_cases hfree : s.isFree = true
    · cases s with
      | free m =>
        obtain ⟨header, hjoin, hpages, hsame⟩ := joinNext_joined P
        exact ⟨header, _, n + m, b, hjoin, .joined, hpages, hsame⟩
      | loose => cases hfree
      | run => cases hfree
      | chunks => cases hfree
    · refine halone (by rintro m t ⟨⟩; exact hfree rfl) ?_
      have hnot := P.not_free hmem (by simpa using hfree) fun k hk => hb k (by simp [hk])
      simp only [joinNext, Pool.get_eq hhas, Option.bind_eq_bind, Option.bind_some, hslab, if_pos hlt,
        Pool.get_eq (Pool.has_page hlt), if_neg hnot]
      rfl

/-! ### Joining with the run in front -/

/-- What comes of a run behind some segments: what is in front of it then, and its length. -/
inductive JoinsPrev : List Seg → Nat → List Seg → Nat → Prop where
  | alone {c k} : (∀ m t, c ≠ t ++ [.free m]) → JoinsPrev c k c k
  | joined {c m k} : JoinsPrev (c ++ [.free m]) k c (m + k)

/-- What is in front is not free. -/
theorem Pages.not_free_last {header : Ref → Header} {pages : Nat} (P : Pages kindOf header pages segs free)
    {i : Nat} {s : Seg} (hs : (i, s) ∈ placed 0 segs) (hfree : s.isFree = false) (hloose : ∀ n, s ≠ .loose n)
    (hkind : (header (.page (i + s.len - 1))).kind = .page) :
    (header (.page (i + s.len - 1))).slab ≠ 0 ∧ (header (.page (i + s.len - 1))).next = none := by
  have hshown := P.shown _ hs
  cases s with
  | free => cases hfree
  | loose n => exact absurd rfl (hloose n)
  | run n =>
    obtain ⟨hn, hslab, hnext, -, hin⟩ := hshown
    by_cases h1 : n = 1
    · subst h1
      rw [Seg.len, Nat.add_sub_cancel]
      refine ⟨?_, hnext⟩
      rw [show (header (.page i)).slab = 1 ||| pageStart from hslab]
      decide
    · have hlen : (Seg.run n).len = n := rfl
      have htaken : Taken (header (.page (i + n - 1))) := hin (i + n - 1) (by simp only; omega) (by simp only; omega)
      rw [hlen, htaken.1]
      exact ⟨by decide, htaken.2.1⟩
  | chunks shift => exact absurd hkind hshown.2

theorem joinPrev_joined {m : Nat} (P : Pages kindOf pool.header pool.pages (a ++ [.free m] ++ [.loose n] ++ b) free) :
    ∃ header, joinPrev pool (total a + m) (n - 1) = some (pool.withHeader header, total a, m + n - 1) ∧
      Pages kindOf header pool.pages (a ++ [.loose (m + n)] ++ b) (free.erase (total a)) ∧
      ∀ r, Beyond pool.header (total a + m) r → header r = pool.header r := by
  obtain ⟨hn, htotal, hplaced, hout, hslab⟩ := P.loose rfl
  have hlen : total (a ++ [.free m]) = total a + m := by simp [total, Seg.len]
  rw [hlen] at htotal hplaced hout hslab
  have hmem : (total a, .free m) ∈ placed 0 (a ++ [.free m] ++ [.loose n] ++ b) := by simp
  obtain ⟨hm, hslab', hkind, hin, hlast⟩ := P.shown _ hmem
  obtain ⟨-, -, hin'⟩ := P.shown _ hplaced
  have hslab' : (pool.header (.page (total a))).slab = m := hslab'
  have hjoin : total a ∈ free := P.mem.mpr ⟨m, hmem⟩
  have hne : Ref.page (total a) ≠ .page (total a + m) := by simp only [ne_eq, Ref.page.injEq]; omega
  obtain ⟨header, hunlink, hring, hslab₂, hkeeps, hsame⟩ :=
    absorb_spec P hjoin (x := total a) (y := total a + m) (fun hy => absurd hy hout) (m + n)
  refine ⟨Function.update header (.page (total a + m)) {}, ?_, ?_, fun r hr => ?_⟩
  · have hpage : (pool.header (.page (total a + m - 1))).kind = .page :=
      P.kind_free hmem (by omega) (by omega)
    have hnext : (pool.header (.page (total a))).next ≠ none := P.ring.next_ne (List.mem_map_of_mem hjoin)
    have hpos : 0 < total a + m := by omega
    have hhas : ∀ j, j ≤ total a + m → pool.has (.page j) = true := fun j hj => Pool.has_page (by omega)
    have hleft : n - 1 + m = m + n - 1 := by omega
    by_cases h1 : m = 1
    · subst h1
      rw [Nat.add_sub_cancel] at hpage
      simp only [joinPrev, if_pos hpos, Nat.add_sub_cancel, Pool.get_eq (hhas (total a) (by omega)),
        Option.bind_eq_bind, Option.bind_some, if_pos hpage, hslab', if_neg Nat.one_ne_zero, if_pos hnext,
        Pool.get_eq (hhas (total a + 1) (Nat.le_refl _)), hslab, hleft]
      rw [Pool.modify_eq (hhas _ (by omega)), Option.bind_some, hslab', hunlink, Option.bind_some,
        Pool.modify_eq (by simpa using hhas _ (Nat.le_refl _)), Option.bind_some, withHeader_put]
      rfl
    · -- the last page of the run in front leads to its first
      have hinner : Inner (pool.header (.page (total a + m - 1))) :=
        hin (total a + m - 1) (by simp only; omega) (by simp only; omega)
      have hback : (pool.header (.page (total a + m - 1))).prev = some (.page (total a)) :=
        hlast (by omega) (by simp only; omega)
      simp only [joinPrev, if_pos hpos, Pool.get_eq (hhas (total a + m - 1) (by omega)), Option.bind_eq_bind,
        Option.bind_some, if_pos hpage, if_pos hinner.1, hback, Pool.get_eq (hhas (total a) (by omega)), if_pos hnext,
        Pool.get_eq (hhas (total a + m) (Nat.le_refl _)), hslab, hslab', hleft]
      rw [Pool.modify_eq (hhas _ (by omega)), Option.bind_some, hslab', hunlink, Option.bind_some,
        Pool.modify_eq (by simpa using hhas _ (Nat.le_refl _)), Option.bind_some, withHeader_put]
      rfl
  · have P' : Pages kindOf pool.header pool.pages (a ++ [.free m, .loose n] ++ b) free := by simpa using P
    refine P'.merged (by simp [total, Seg.len]) (by omega) (by simp) hring (fun j hj => hkeeps j (by omega) (by omega)) ?_
      fun j hlo hhi => ?_
    · rw [Function.update_of_ne hne]
      exact hslab₂
    · by_cases hj : j = total a + m
      · subst hj
        rw [pagesOf, Function.update_self]
        exact ⟨rfl, rfl, rfl⟩
      · refine (hkeeps j (by omega) hj).inner ?_
        rcases Nat.lt_or_ge j (total a + m) with hlt | hge
        · exact hin j hlo hlt
        · exact hin' j (by simp only; omega) (by simp only; omega)
  · have hout := outside_free P hr.1 hmem
    rw [Function.update_of_ne hr.2, hsame r (outside_ring P hr.1)]
    rintro rfl
    have := hout _ rfl
    omega

theorem joinPrev_spec (P : Pages kindOf pool.header pool.pages (a ++ [.loose n] ++ b) free) (ha : Settled a) :
    ∃ header free' a' n', joinPrev pool (total a) (n - 1) = some (pool.withHeader header, total a', n' - 1) ∧
      JoinsPrev a n a' n' ∧ Pages kindOf header pool.pages (a' ++ [.loose n'] ++ b) free' ∧
      ∀ r, Beyond pool.header (total a) r → header r = pool.header r ∧ r ≠ .page (total a') := by
  obtain ⟨hn, htotal, hplaced, hout, hslab⟩ := P.loose rfl
  -- nothing is joined
  have halone : (∀ m t, a ≠ t ++ [.free m]) → joinPrev pool (total a) (n - 1) = some (pool, total a, n - 1) →
      ∃ header free' a' n', joinPrev pool (total a) (n - 1) = some (pool.withHeader header, total a', n' - 1) ∧
        JoinsPrev a n a' n' ∧ Pages kindOf header pool.pages (a' ++ [.loose n'] ++ b) free' ∧
        ∀ r, Beyond pool.header (total a) r → header r = pool.header r ∧ r ≠ .page (total a') :=
    fun ha heq => ⟨pool.header, free, a, n, heq, .alone ha, P, fun _ hr => ⟨rfl, hr.2⟩⟩
  rcases List.eq_nil_or_concat a with rfl | ⟨a, s, rfl⟩
  · refine halone (by simp) ?_
    simp only [joinPrev, total, Nat.lt_irrefl, if_false]
    rfl
  · rw [List.concat_eq_append] at *
    have hmem : (total a, s) ∈ placed 0 (a ++ [s] ++ [.loose n] ++ b) := by simp
    have hslen : 0 < s.len := (P.shown _ hmem).pos
    have hlen : total (a ++ [s]) = total a + s.len := by simp [total]
    simp only [hlen] at halone htotal ⊢
    by_cases hfree : s.isFree = true
    · cases s with
      | free m =>
        obtain ⟨header, hjoin, hpages, hsame⟩ := joinPrev_joined P
        refine ⟨header, _, a, m + n, hjoin, .joined, hpages, fun r hr => ⟨hsame r hr, ?_⟩⟩
        rintro rfl
        have := outside_free P hr.1 hmem _ rfl
        simp only [Seg.len] at hslen
        omega
      | loose => cases hfree
      | run => cases hfree
      | chunks => cases hfree
    · refine halone ?_ ?_
      · rintro m t heq
        obtain rfl := List.singleton_inj.mp (List.append_inj_right' heq rfl)
        exact hfree rfl
      have hlast := P.not_free_last hmem (by simpa using hfree) fun k hk => ha k (by simp [hk])
      have hpos : 0 < total a + s.len := by omega
      have hhas : pool.has (.page (total a + s.len - 1)) = true := Pool.has_page (by omega)
      simp only [joinPrev, if_pos hpos, Pool.get_eq hhas, Option.bind_eq_bind, Option.bind_some]
      split
      · next hkind =>
        obtain ⟨hslab, hnext⟩ := hlast hkind
        rw [if_neg hslab, if_neg (by simp [hnext])]
        rfl
      · rfl

/-! ### Putting the run in front of the free ones -/

/-- The headers when the last of `n` pages leads back to the first. -/
def lastBack (header : Ref → Header) (i n : Nat) : Ref → Header :=
  if n - 1 ≠ 0 then
    Function.update header (.page (i + (n - 1))) { header (.page (i + (n - 1))) with prev := some (.page i), kind := .page }
  else header

theorem hang_eq {i : Nat} (h : i + n ≤ pool.pages) :
    hang pool i (n - 1) = pushFree (pool.withHeader (lastBack pool.header i n)) i := by
  unfold hang lastBack
  split
  · rw [Pool.modify_eq (Pool.has_page (by omega))]
    rfl
  · rfl

theorem lastBack_of_ne {header : Ref → Header} {i : Nat} {r : Ref} (h : 1 < n → r ≠ .page (i + (n - 1))) :
    lastBack header i n r = header r := by
  unfold lastBack
  split
  · exact Function.update_of_ne (h (by omega)) ..
  · rfl

theorem hang_spec (P : Pages kindOf pool.header pool.pages (a ++ [.loose n] ++ b) free) :
    ∃ header, hang pool (total a) (n - 1) = some (pool.withHeader header) ∧
      Pages kindOf header pool.pages (a ++ [.free n] ++ b) (total a :: free) ∧
      ∀ r, Beyond pool.header (total a) r → header r = pool.header r := by
  obtain ⟨hn, htotal, hplaced, hout, hslab⟩ := P.loose rfl
  obtain ⟨-, -, hin⟩ := P.shown _ hplaced
  -- of the pages of the run none is in the ring
  have hring : ∀ j, total a ≤ j → j < total a + n → Ref.page j ∉ Ref.free :: free.map .page := by
    intro j hlo hhi hm
    have hm : j ∈ free := by simpa using hm
    exact absurd (P.eq_head hplaced hm hlo hhi).2 (by simp [Seg.isFree])
  have hback : ∀ r ∈ Ref.free :: free.map .page, lastBack pool.header (total a) n r = pool.header r := fun r hr =>
    lastBack_of_ne fun h1 he => hring (total a + (n - 1)) (by omega) (by omega) (he ▸ hr)
  have hlinked : Linked (lastBack pool.header (total a) n) .free (free.map .page) := P.ring.congr hback
  obtain ⟨first, hfirst, hmem, hpushed, hslabs, hkind, hkinds, hothers⟩ :=
    pushed_spec hlinked (hring _ (Nat.le_refl _) (by omega)) (k := .page) fun r hr => by
      rw [hback r (List.mem_cons_of_mem _ hr)]
      obtain ⟨j, hj, rfl⟩ := List.mem_map.mp hr
      exact P.free_kind hj
  have hlast : 1 < n → Inner (pool.header (.page (total a + (n - 1)))) := fun h1 =>
    hin (total a + (n - 1)) (by simp only; omega) (by simp only; omega)
  refine ⟨pushed (lastBack pool.header (total a) n) .free (.page (total a)) first .page, ?_, ?_, fun r hr => ?_⟩
  · rw [hang_eq (by omega), pushFree_eq (by rw [withHeader_header]; exact hfirst)]
    · rfl
    · simpa using Pool.has_page (show total a < pool.pages by omega)
    · simpa using has_ring P first hmem
    · rintro rfl
      exact hring _ (Nat.le_refl _) (by omega) hmem
  · -- the pages of the run but the first are not linked
    have hinner : ∀ j, total a < j → j < total a + n →
        pushed (lastBack pool.header (total a) n) .free (.page (total a)) first .page (.page j) =
          lastBack pool.header (total a) n (.page j) := fun j hlo hhi => hothers _ (by
      have hj := hring j (Nat.le_of_lt hlo) hhi
      simp only [List.mem_cons, not_or, Ref.page.injEq] at hj ⊢
      exact ⟨hj.1, by omega, hj.2⟩)
    have hsame : ∀ j, j ≠ total a + (n - 1) → lastBack pool.header (total a) n (.page j) = pool.header (.page j) :=
      fun j hj => lastBack_of_ne fun _ => by simpa using hj
    constructor
    · simpa [total, Seg.len] using P.count
    · refine P.shown.replace rfl (fun j hj _ => ?_) fun p hp => ?_
      · simp only [total, Seg.len] at hj
        have hjl : j ≠ total a + (n - 1) := by omega
        have hji : Ref.page j ≠ .page (total a) := by simp only [ne_eq, Ref.page.injEq]; omega
        refine ⟨?_, ?_, fun hnone => ?_⟩
        · rw [pagesOf, pagesOf, hslabs, hsame j hjl]
        · rw [pagesOf, pagesOf, hkinds _ (by simp) hji, hsame j hjl]
        · rw [pagesOf, pagesOf, hothers, hsame j hjl]
          simp only [List.mem_cons, not_or]
          exact ⟨by simp, hji, fun hm => P.ring.next_ne hm hnone⟩
      · obtain rfl := List.mem_singleton.mp hp
        refine ⟨hn, ?_, hkind, fun j hlo hhi => ?_, fun h1 _ => ?_⟩
        · rw [pagesOf, hslabs, ← hslab]
          simp only [lastBack]
          split
          · rw [Function.update_of_ne (by simp only [ne_eq, Ref.page.injEq]; omega)]
          · rfl
        · simp only at hlo hhi
          rw [pagesOf, hinner j hlo hhi]
          by_cases hj : j = total a + (n - 1)
          · have hlast := hlast (by omega)
            rw [hj, lastBack, if_pos (by omega), Function.update_self]
            exact ⟨hlast.1, hlast.2.1, rfl⟩
          · rw [hsame j hj]
            exact hin j hlo hhi
        · rw [pagesOf, show total a + n - 1 = total a + (n - 1) by omega, hinner _ (by omega) (by omega), lastBack,
            if_pos (by omega), Function.update_self]
    · exact hpushed
    · have hruns := P.runs
      simp only [heads_append, Nat.zero_add, List.append_assoc, List.singleton_append, heads_loose, heads_free] at hruns ⊢
      exact (hruns.cons _).trans List.perm_middle.symm
  · have hrl : 1 < n → r ≠ .page (total a + (n - 1)) := by
      rintro h1 rfl
      rcases hr.1 with ⟨_, hs⟩ | ⟨_, -, hk⟩
      · cases hs
      · exact hk (hlast h1).2.2
    have hne := outside_ring P hr.1
    simp only [List.mem_cons, not_or] at hne
    rw [hothers r (by simp only [List.mem_cons, not_or]; exact ⟨hne.1, hr.2, hne.2⟩), lastBack_of_ne hrl]

/-! ### `pgrest_slab_free_pages` -/

/-- The segments when `n` pages between `a` and `b` have become free. -/
def Freed (a : List Seg) (n : Nat) (b segs : List Seg) : Prop :=
  ∃ k a' n' b', JoinsNext n b k b' ∧ JoinsPrev a k a' n' ∧ segs = a' ++ [.free n'] ++ b'

theorem rejoin_spec (P : Pages kindOf pool.header pool.pages (a ++ [.loose n] ++ b) free) (ha : Settled a)
    (hb : Settled b) :
    ∃ header segs free', ((joinNext pool (total a) (n - 1)).bind fun r => (joinPrev r.1 (total a) r.2).bind fun r =>
        hang r.1 r.2.1 r.2.2) = some (pool.withHeader header) ∧
      Freed a n b segs ∧ Pages kindOf header pool.pages segs free' ∧
      ∀ r, Beyond pool.header (total a) r → header r = pool.header r := by
  obtain ⟨header₁, free₁, k, b', hnext, hjoins, P₁, hsame₁⟩ := joinNext_spec P hb
  obtain ⟨header₂, free₂, a', n', hprev, hjoins', P₂, hsame₂⟩ :=
    joinPrev_spec P₁.over ha
  obtain ⟨header₃, hhang, P₃, hsame₃⟩ := hang_spec P₂.over
  refine ⟨header₃, _, _, ?_, ⟨k, a', n', b', hjoins, hjoins', rfl⟩, P₃, fun r hr => ?_⟩
  · rw [hnext, Option.bind_some, hprev, Option.bind_some]
    exact hhang
  · have h₁ := hsame₁ r hr
    have hr₁ : Beyond header₁ (total a) r := ⟨hr.1.imp_right fun ⟨j, hj, hk⟩ => ⟨j, hj, h₁ ▸ hk⟩, hr.2⟩
    obtain ⟨h₂, hne⟩ := hsame₂ r hr₁
    have h₂ : header₂ r = header₁ r := h₂
    have hr₂ : Beyond header₂ (total a') r := ⟨hr₁.1.imp_right fun ⟨j, hj, hk⟩ => ⟨j, hj, h₂ ▸ hk⟩, hne⟩
    rw [hsame₃ r hr₂]
    exact h₂.trans h₁

/-- The headers when the pages have been counted and cleared. -/
def cleared (header : Ref → Header) (i n : Nat) : Ref → Header :=
  spread header i n { header (.page i) with slab := n } {}

theorem detach_eq {i : Nat} (hn : 0 < n) (h : i + n ≤ pool.pages) :
    detach pool i n =
      if (pool.header (.page i)).next ≠ none then unlink (pool.withHeader (cleared pool.header i n)) (.page i)
      else some (pool.withHeader (cleared pool.header i n)) := by
  have hspread := spread_eq hn h (fun page => { page with slab := n }) {}
  rw [Option.bind_eq_some_iff] at hspread
  obtain ⟨pool₁, hmodify, hclear⟩ := hspread
  have hhas : (pool.withHeader (cleared pool.header i n)).has (.page i) = true := by
    simpa using Pool.has_page (show i < pool.pages by omega)
  unfold detach
  rw [hmodify, Option.bind_eq_bind, Option.bind_some, clearPages, hclear, Option.bind_eq_bind, Option.bind_some]
  show Option.bind ((pool.withHeader (cleared pool.header i n)).get (.page i)) _ = _
  rw [Pool.get_eq hhas, Option.bind_some]
  simp only [withHeader_header, cleared, spread_first]

theorem cleared_inner {header : Ref → Header} {i j : Nat} (hlo : i < j) (hhi : j < i + n) :
    Inner (pagesOf (cleared header i n) j) := by
  rw [pagesOf, cleared, spread_rest hlo hhi]
  exact ⟨rfl, rfl, rfl⟩

/-- Between the rings. -/
theorem Pages.loosened {pages : Nat} {header header' : Ref → Header} {s : Seg} {free' : List Nat}
    (P : Pages kindOf header pages (a ++ [s] ++ b) free) (hn : 0 < n) (hlen : s.len = n)
    (ring : Linked header' .free (free'.map .page)) (runs : free'.Perm (heads 0 (a ++ [.loose n] ++ b)))
    (keeps : ∀ j, j < total a ∨ total a + n ≤ j → Slab.Keeps (pagesOf header j) (pagesOf header' j))
    (slab : (header' (.page (total a))).slab = n)
    (inner : ∀ j, total a < j → j < total a + n → Inner (pagesOf header' j)) :
    Pages kindOf header' pages (a ++ [.loose n] ++ b) free' := by
  have htotal : total [.loose n] = total [s] := by
    show n + 0 = s.len + 0
    rw [hlen]
  constructor
  · rw [← P.count]
    simp only [total_append, htotal]
  · refine P.shown.replace htotal (fun j hj _ => ?_) fun p hp => ?_
    · simp only [total, hlen] at hj
      exact keeps j (by omega)
    · obtain rfl := List.mem_singleton.mp hp
      exact ⟨hn, slab, inner⟩
  · exact ring
  · exact runs

theorem detach_run (P : Pages kindOf pool.header pool.pages (a ++ [.run n] ++ b) free) :
    ∃ header, detach pool (total a) n = some (pool.withHeader header) ∧
      Pages kindOf header pool.pages (a ++ [.loose n] ++ b) free ∧
      ∀ r, Outside pool.header r → header r = pool.header r := by
  have hplaced : (total a, .run n) ∈ placed 0 (a ++ [.run n] ++ b) := by simp
  obtain ⟨hn, hslab, hnext, hkind, hin⟩ := P.shown _ hplaced
  have hbounds := placed_bounds hplaced
  rw [P.count] at hbounds
  simp only [Seg.len] at hbounds
  have houtside : ∀ r, (∀ j, r = .page j → j < total a ∨ total a + n ≤ j) →
      cleared pool.header (total a) n r = pool.header r := fun r hr => spread_of_outside hr hn
  refine ⟨cleared pool.header (total a) n, ?_, ?_, fun r hr => houtside r fun j hj => ?_⟩
  · rw [detach_eq hn (by omega), if_neg]
    exact fun hne => hne hnext
  · refine P.loosened hn rfl (P.ring.congr fun r hr => houtside r fun j hj => ?_) ?_ (fun j hj => ?_) ?_
      fun j hlo hhi => cleared_inner hlo hhi
    · subst hj
      by_contra hcon
      have hj : j ∈ free := by simpa using hr
      exact absurd (P.eq_head hplaced hj (by omega) (by simp only [Seg.len]; omega)).2 (by simp [Seg.isFree])
    · simpa [Seg.len] using P.runs
    · exact Keeps.of_eq (houtside _ (by rintro _ ⟨⟩; exact hj))
    · rw [cleared, spread_first]
  · exact hr.not_whole (fun _ => P.kind_run hplaced) j hj

/-- A free run is detached too, where it is freed once more. -/
theorem detach_free (P : Pages kindOf pool.header pool.pages (a ++ [.free n] ++ b) free) :
    ∃ header, detach pool (total a) n = some (pool.withHeader header) ∧
      Pages kindOf header pool.pages (a ++ [.loose n] ++ b) (free.erase (total a)) ∧
      ∀ r, Outside pool.header r → header r = pool.header r := by
  obtain ⟨hn, htotal, hplaced, hmem, hheads⟩ := P.around rfl
  have houtside : ∀ r, (∀ j, r = .page j → j < total a ∨ total a + n ≤ j) →
      cleared pool.header (total a) n r = pool.header r := fun r hr => spread_of_outside hr hn
  have hring : ∀ r ∈ Ref.free :: free.map .page, (cleared pool.header (total a) n r).next = (pool.header r).next ∧
      (cleared pool.header (total a) n r).prev = (pool.header r).prev ∧
      (cleared pool.header (total a) n r).kind = (pool.header r).kind := by
    intro r hr
    by_cases hr' : r = .page (total a)
    · subst hr'
      rw [cleared, spread_first]
      exact ⟨rfl, rfl, rfl⟩
    · rw [houtside r]
      · exact ⟨rfl, rfl, rfl⟩
      · rintro j rfl
        by_contra hcon
        have hj : j ∈ free := by simpa using hr
        exact hr' (congrArg Ref.page (P.eq_head hplaced hj (by omega) (by simp only [Seg.len]; omega)).1)
  have hlinked : Linked (pool.withHeader (cleared pool.header (total a) n)).header .free (free.map .page) :=
    Ring.congr P.ring (fun r hr => (hring r hr).1) fun r hr => (hring r (List.mem_cons_of_mem _ hr)).2.1
  obtain ⟨header, hunlink, hlinked', hre, hx⟩ := unlink_spec hlinked (List.mem_map_of_mem hmem)
    (fun r hr => by
      rw [withHeader_header, (hring r (List.mem_cons_of_mem _ hr)).2.2,
        (hring _ (List.mem_cons_of_mem _ (List.mem_map_of_mem hmem))).2.2, P.free_kind hmem]
      obtain ⟨j, hj, rfl⟩ := List.mem_map.mp hr
      exact P.free_kind hj)
    (fun r hr => by rw [withHeader_has]; exact has_ring P r hr)
  rw [← List.map_erase page_injective] at hlinked'
  refine ⟨header, ?_, ?_, fun r hr => ?_⟩
  · rw [detach_eq hn (by omega), if_pos (P.ring.next_ne (List.mem_map_of_mem hmem)), hunlink, withHeader_withHeader]
  · refine P.loosened hn rfl hlinked' ?_ (fun j hj => ?_) ?_ fun j hlo hhi => ?_
    · simpa [Seg.len, total] using erase_middle hheads
    · have hkeeps := hre.keeps hlinked (by simp) j
      rwa [withHeader_header, pagesOf, houtside _ (by rintro _ ⟨⟩; exact hj)] at hkeeps
    · rw [hre.slab, withHeader_header, cleared, spread_first]
    · exact (hre.keeps hlinked (by simp) j).inner (cleared_inner hlo hhi)
  · rw [hre.others r (outside_ring P hr), withHeader_header, houtside r (outside_free P hr hplaced)]

/-- A page that was cut into chunks leaves the ring of its slot. -/
theorem detach_chunks {shift slot : Nat} {l : List Nat}
    (P : Pages kindOf pool.header pool.pages (a ++ [.chunks shift] ++ b) free)
    (L : Linked pool.header (.slot slot) (l.map .page)) (hl : total a ∈ l)
    (hkinds : ∀ j ∈ l, (pool.header (.page j)).kind = (pool.header (.page (total a))).kind)
    (hhas : ∀ r ∈ Ref.slot slot :: l.map .page, pool.has r = true) :
    ∃ header, detach pool (total a) 1 = some (pool.withHeader header) ∧
      Pages kindOf header pool.pages (a ++ [.loose 1] ++ b) free ∧
      Linked header (.slot slot) ((l.erase (total a)).map .page) ∧
      (∀ r, r ≠ .page (total a) → (header r).slab = (pool.header r).slab) ∧
      (∀ r, r ≠ .slot slot → (header r).kind = (pool.header r).kind) ∧
      ∀ r, r ∉ Ref.slot slot :: l.map .page → header r = pool.header r := by
  have hplaced : (total a, .chunks shift) ∈ placed 0 (a ++ [.chunks shift] ++ b) := by simp
  obtain ⟨-, hkind⟩ := P.shown _ hplaced
  have hbounds := placed_bounds hplaced
  rw [P.count] at hbounds
  simp only [Seg.len] at hbounds
  have hne : ∀ r, r ≠ .page (total a) → cleared pool.header (total a) 1 r = pool.header r := fun r hr =>
    spread_of_outside (by rintro j rfl; have : j ≠ total a := by simpa using hr
                          omega) Nat.one_pos
  have hsame : ∀ r, (cleared pool.header (total a) 1 r).next = (pool.header r).next ∧
      (cleared pool.header (total a) 1 r).prev = (pool.header r).prev ∧
      (cleared pool.header (total a) 1 r).kind = (pool.header r).kind := by
    intro r
    by_cases hr : r = .page (total a)
    · rw [hr, cleared, spread_first]
      exact ⟨rfl, rfl, rfl⟩
    · rw [hne r hr]
      exact ⟨rfl, rfl, rfl⟩
  have hlinked : Linked (pool.withHeader (cleared pool.header (total a) 1)).header (.slot slot) (l.map .page) :=
    Ring.congr L (fun r _ => (hsame r).1) fun r _ => (hsame r).2.1
  obtain ⟨header, hunlink, hlinked', hre, hx⟩ := unlink_spec hlinked (List.mem_map_of_mem hl)
    (fun r hr => by
      obtain ⟨j, hj, rfl⟩ := List.mem_map.mp hr
      rw [withHeader_header, (hsame _).2.2, (hsame _).2.2]
      exact hkinds j hj)
    (fun r hr => by rw [withHeader_has]; exact hhas r hr)
  rw [← List.map_erase page_injective] at hlinked'
  have hothers : ∀ r, r ∉ Ref.slot slot :: l.map .page → header r = pool.header r := by
    intro r hr
    rw [hre.others r hr, withHeader_header, hne r]
    rintro rfl
    exact hr (List.mem_cons_of_mem _ (List.mem_map_of_mem hl))
  refine ⟨header, ?_, ?_, hlinked', fun r hr => ?_, fun r hr => ?_, hothers⟩
  · rw [detach_eq Nat.one_pos (by omega), if_pos (L.next_ne (List.mem_map_of_mem hl)), hunlink, withHeader_withHeader]
  · refine P.loosened Nat.one_pos rfl (P.ring.congr fun r hr => hothers r ?_) ?_ (fun j hj => ?_) ?_
      fun j hlo hhi => absurd hhi (by omega)
    · intro hm
      rcases List.mem_cons.mp hm with rfl | hm
      · simp at hr
      · obtain ⟨j, hj, rfl⟩ := List.mem_map.mp hm
        have hfree := P.free_kind (i := j) (by simpa using hr)
        exact hkind ((hkinds j hj).symm.trans hfree)
    · simpa [Seg.len] using P.runs
    · have hkeeps := hre.keeps hlinked (by simp) j
      rwa [withHeader_header, pagesOf, hne _ (by simp only [ne_eq, Ref.page.injEq]; omega)] at hkeeps
    · rw [hre.slab, withHeader_header, cleared, spread_first]
  · rw [hre.slab, withHeader_header, hne r hr]
  · rw [hre.kind r hr, withHeader_header, (hsame r).2.2]

theorem JoinsNext.placed {k : Nat} {b' : List Seg} (h : JoinsNext n b k b') (i : Nat) {p : Nat × Seg}
    (hp : p.2.isFree = false) : p ∈ placed (i + k) b' ↔ p ∈ placed (i + n) b := by
  cases h with
  | alone => rfl
  | @joined m =>
    rw [placed_cons, List.mem_cons, or_iff_right, Seg.len, Nat.add_assoc]
    rintro rfl
    cases hp

theorem JoinsPrev.placed {a' : List Seg} {n' : Nat} (h : JoinsPrev a n a' n') {p : Nat × Seg} (hp : p.2.isFree = false) :
    total a' + n' = total a + n ∧ (p ∈ placed 0 a' ↔ p ∈ placed 0 a) := by
  cases h with
  | alone => exact ⟨rfl, Iff.rfl⟩
  | @joined m =>
    refine ⟨by simp [total, Seg.len, Nat.add_assoc], ?_⟩
    rw [placed_append, List.mem_append, or_iff_left]
    rintro hm
    obtain rfl := List.mem_singleton.mp hm
    cases hp

/-- What is not free stays where it is. -/
theorem Freed.placed {segs : List Seg} (h : Freed a n b segs) {p : Nat × Seg} (hp : p.2.isFree = false) :
    p ∈ placed 0 segs ↔ p ∈ placed 0 a ∨ p ∈ placed (total a + n) b := by
  obtain ⟨k, a', n', b', hnext, hprev, rfl⟩ := h
  obtain ⟨htotal, hmem⟩ := hprev.placed hp
  have hfree : p ∉ Slab.placed (total a') [.free n'] := by
    intro hm
    obtain rfl := List.mem_singleton.mp hm
    cases hp
  rw [placed_append, placed_append, List.mem_append, List.mem_append, Nat.zero_add, or_iff_left hfree, hmem,
    ← hnext.placed (total a) hp]
  simp only [total_append, total, Seg.len, Nat.zero_add, Nat.add_zero, htotal]

theorem Freed.settled {segs : List Seg} (h : Freed a n b segs) (ha : Settled a) (hb : Settled b) : Settled segs := by
  obtain ⟨k, a', n', b', hnext, hprev, rfl⟩ := h
  have ha' : Settled a' := by
    cases hprev with
    | alone => exact ha
    | joined => exact fun m hm => ha m (List.mem_append_left _ hm)
  have hb' : Settled b' := by
    cases hnext with
    | alone => exact hb
    | joined => exact fun m hm => hb m (List.mem_cons_of_mem _ hm)
  intro m hm
  simp only [List.mem_append, List.mem_singleton, reduceCtorEq, or_false] at hm
  exact hm.elim (ha' m) (hb' m)

/-- The run that has been freed has no free neighbours. -/
theorem Freed.apart {segs : List Seg} (h : Freed a n b segs) (ha : Apart a) (hb : Apart b) : Apart segs := by
  obtain ⟨k, a', n', b', hnext, hprev, rfl⟩ := h
  have ha' : Apart a' ∧ ∀ s ∈ a'.getLast?, s.isFree = false := by
    cases hprev with
    | alone hne =>
      refine ⟨ha, fun s hs => ?_⟩
      obtain ⟨t, rfl⟩ := List.getLast?_eq_some_iff.mp hs
      cases s with
      | free m => exact absurd rfl (hne m t)
      | loose => rfl
      | run => rfl
      | chunks => rfl
    | joined =>
      obtain ⟨hl, -, hends⟩ := List.isChain_append.mp ha
      exact ⟨hl, fun s hs => by simpa [Seg.isFree] using hends s hs _ rfl⟩
  have hb' : Apart b' ∧ ∀ s ∈ b'.head?, s.isFree = false := by
    cases hnext with
    | alone hne =>
      refine ⟨hb, fun s hs => ?_⟩
      obtain ⟨t, rfl⟩ := List.head?_eq_some_iff.mp hs
      cases s with
      | free m => exact absurd rfl (hne m t)
      | loose => rfl
      | run => rfl
      | chunks => rfl
    | joined =>
      obtain ⟨-, hr, hends⟩ := List.isChain_append.mp (show Apart ([.free _] ++ _) from hb)
      exact ⟨hr, fun s hs => by simpa [Seg.isFree] using hends _ rfl s hs⟩
  rw [Apart, List.append_assoc, List.isChain_append, List.singleton_append, List.isChain_cons]
  refine ⟨ha'.1, ⟨fun s hs => ?_, hb'.1⟩, fun s hs t ht => ?_⟩
  · rw [hb'.2 s hs]
    simp
  · rw [ha'.2 s hs]
    simp

/-- A run that is free already stays as it is. -/
theorem Freed.again {segs : List Seg} (h : Freed a n b segs) (hapart : Apart (a ++ [.free n] ++ b)) :
    segs = a ++ [.free n] ++ b := by
  obtain ⟨k, a', n', b', hnext, hprev, rfl⟩ := h
  rw [Apart, List.append_assoc, List.isChain_append] at hapart
  obtain ⟨-, hb, ha⟩ := hapart
  cases hnext with
  | alone =>
    cases hprev with
    | alone => rfl
    | @joined m => exact absurd ⟨rfl, rfl⟩ (ha (.free _) (List.getLast?_concat ..) _ rfl)
  | joined =>
    have := (List.isChain_cons_cons.mp hb).1
    exact absurd ⟨rfl, rfl⟩ this

section
variable (ha : Settled a) (hb : Settled b)
include ha hb

theorem freePages_run (P : Pages kindOf pool.header pool.pages (a ++ [.run n] ++ b) free) :
    ∃ header segs free', freePages pool (total a) n = some (pool.withHeader header) ∧ Freed a n b segs ∧
      Pages kindOf header pool.pages segs free' ∧ ∀ r, Outside pool.header r → header r = pool.header r := by
  obtain ⟨header₁, hdetach, P₁, hsame₁⟩ := detach_run P
  obtain ⟨header, segs, free', hrejoin, hfreed, P', hsame⟩ := rejoin_spec P₁.over ha hb
  have hplaced : (total a, .run n) ∈ placed 0 (a ++ [.run n] ++ b) := by simp
  have hn : 0 < n := (P.shown _ hplaced).1
  refine ⟨header, segs, free', ?_, hfreed, P', fun r hr => ?_⟩
  · rw [freePages_eq (by omega), hdetach, Option.bind_some, hrejoin, withHeader_withHeader]
  · have h₁ := hsame₁ r hr
    have hbeyond : Beyond header₁ (total a) r := by
      refine ⟨hr.imp_right fun ⟨j, hj, hk⟩ => ⟨j, hj, h₁ ▸ hk⟩, ?_⟩
      rintro rfl
      have := hr.not_whole (fun _ => P.kind_run hplaced) _ rfl
      omega
    exact (hsame r hbeyond).trans h₁

theorem freePages_free (P : Pages kindOf pool.header pool.pages (a ++ [.free n] ++ b) free) :
    ∃ header segs free', freePages pool (total a) n = some (pool.withHeader header) ∧ Freed a n b segs ∧
      Pages kindOf header pool.pages segs free' ∧ ∀ r, Outside pool.header r → header r = pool.header r := by
  obtain ⟨header₁, hdetach, P₁, hsame₁⟩ := detach_free P
  obtain ⟨header, segs, free', hrejoin, hfreed, P', hsame⟩ := rejoin_spec P₁.over ha hb
  have hplaced : (total a, .free n) ∈ placed 0 (a ++ [.free n] ++ b) := by simp
  have hn : 0 < n := (P.shown _ hplaced).1
  refine ⟨header, segs, free', ?_, hfreed, P', fun r hr => ?_⟩
  · rw [freePages_eq (by omega), hdetach, Option.bind_some, hrejoin, withHeader_withHeader]
  · have h₁ := hsame₁ r hr
    have hbeyond : Beyond header₁ (total a) r := by
      refine ⟨hr.imp_right fun ⟨j, hj, hk⟩ => ⟨j, hj, h₁ ▸ hk⟩, ?_⟩
      rintro rfl
      have := outside_free P hr hplaced _ rfl
      omega
    exact (hsame r hbeyond).trans h₁

theorem freePages_chunks {shift slot : Nat} {l : List Nat}
    (P : Pages kindOf pool.header pool.pages (a ++ [.chunks shift] ++ b) free)
    (L : Linked pool.header (.slot slot) (l.map .page)) (hl : total a ∈ l)
    (hkinds : ∀ j ∈ l, (pool.header (.page j)).kind = (pool.header (.page (total a))).kind)
    (hhas : ∀ r ∈ Ref.slot slot :: l.map .page, pool.has r = true) :
    ∃ header segs free', freePages pool (total a) 1 = some (pool.withHeader header) ∧ Freed a 1 b segs ∧
      Pages kindOf header pool.pages segs free' ∧ Linked header (.slot slot) ((l.erase (total a)).map .page) ∧
      (∀ r, Beyond pool.header (total a) r → (header r).slab = (pool.header r).slab ∧
        (r ≠ .slot slot → (header r).kind = (pool.header r).kind)) ∧
      ∀ r, Beyond pool.header (total a) r → r ∉ Ref.slot slot :: l.map .page → header r = pool.header r := by
  obtain ⟨header₁, hdetach, P₁, L₁, hslab₁, hkind₁, hsame₁⟩ := detach_chunks P L hl hkinds hhas
  obtain ⟨header, segs, free', hrejoin, hfreed, P', hsame⟩ := rejoin_spec P₁.over ha hb
  have hplaced : (total a, .chunks shift) ∈ placed 0 (a ++ [.chunks shift] ++ b) := by simp
  obtain ⟨-, hkind⟩ := P.shown _ hplaced
  have hkind : (pool.header (.page (total a))).kind ≠ .page := hkind
  have hbeyond : ∀ r, Beyond pool.header (total a) r → header r = header₁ r := fun r hr => by
    refine hsame r ⟨hr.1.imp_right ?_, hr.2⟩
    rintro ⟨j, rfl, hk⟩
    exact ⟨j, rfl, by rwa [withHeader_header, hkind₁ _ (by simp)]⟩
  refine ⟨header, segs, free', ?_, hfreed, P', L₁.congr fun r hr => hbeyond r ⟨?_, ?_⟩, fun r hr => ⟨?_, fun hs => ?_⟩,
    fun r hr hm => ?_⟩
  · rw [freePages_eq Nat.one_ne_zero, hdetach, Option.bind_some, hrejoin, withHeader_withHeader]
  · rcases List.mem_cons.mp hr with rfl | hr
    · exact Or.inl ⟨_, rfl⟩
    · obtain ⟨j, hj, rfl⟩ := List.mem_map.mp hr
      exact Or.inr ⟨j, rfl, by rw [hkinds j (List.mem_of_mem_erase hj)]; exact hkind⟩
  · rintro rfl
    have hnodup : l.Nodup := (List.nodup_map_iff page_injective).mp (List.nodup_cons.mp L.nodup).2
    exact (hnodup.mem_erase_iff.mp (by simpa using hr : total a ∈ l.erase (total a))).1 rfl
  · rw [hbeyond r hr, hslab₁ r hr.2]
  · rw [hbeyond r hr, hkind₁ r hs]
  · rw [hbeyond r hr, hsame₁ r hm]

end

end PgRest.Slab
