import Mathlib.Data.List.Basic

/-! Streams of items. A relation says with which item a stream starts and what lies behind the item. If an
item ends in the same place whatever follows, a stream has its items one way only, and more of the stream
brings more items behind them. -/
namespace PgRest.Lib

variable {α β : Type} {first : List α → β → List α → Prop} {l rest rest' : List α} {b : β} {bs bs' : List β}

/-- The stream starts with these items, and `rest` lies behind the last one. -/
inductive Framed (first : List α → β → List α → Prop) : List α → List β → List α → Prop
  | nil (l : List α) : Framed first l [] l
  | cons {l rest rest' : List α} {b : β} {bs : List β} : first l b rest → Framed first rest bs rest' →
      Framed first l (b :: bs) rest'

/-- Where the first item ends does not depend on what follows, and nor does which item it is. -/
structure Separates (first : List α → β → List α → Prop) : Prop where
  extend {l rest : List α} {b : β} (more : List α) : first l b rest → first (l ++ more) b (rest ++ more)
  unique {l rest rest' : List α} {b b' : β} : first l b rest → first l b' rest' → b = b' ∧ rest = rest'

namespace Framed

theorem concat (h : Framed first l bs rest) (hb : first rest b rest') : Framed first l (bs ++ [b]) rest' := by
  induction h with
  | nil l => exact .cons hb (.nil rest')
  | cons hfirst _ ih => exact .cons hfirst (ih hb)

theorem extend (hf : Separates first) (h : Framed first l bs rest) (more : List α) :
    Framed first (l ++ more) bs (rest ++ more) := by
  induction h with
  | nil l => exact .nil (l ++ more)
  | cons hfirst _ ih => exact .cons (hf.extend more hfirst) ih

/-- Two framings of one stream go as far together as the shorter one. -/
theorem comparable (hf : Separates first) (h : Framed first l bs rest) (h' : Framed first l bs' rest') :
    bs <+: bs' ∨ bs' <+: bs := by
  induction h generalizing bs' with
  | nil l => exact Or.inl List.nil_prefix
  | cons hfirst _ ih =>
    cases h' with
    | nil => exact Or.inr List.nil_prefix
    | cons hfirst' hrest' =>
      obtain ⟨rfl, rfl⟩ := hf.unique hfirst hfirst'
      exact (ih hrest').imp (List.prefix_cons_inj _).mpr (List.prefix_cons_inj _).mpr

end Framed

end PgRest.Lib
