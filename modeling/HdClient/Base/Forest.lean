-- SUMMARY: Forests as relations: what is below one node and what is below another one next to it have nothing in common.
import Mathlib.Logic.Relation
import Mathlib.Order.Defs.PartialOrder

/-! # Forests

A relation between parents and children is a forest when nobody has two parents
and children are larger than their parents. -/

/-- The relation `r`, from parents to children, is a forest. -/
structure Forest {α : Type*} [Preorder α] (r : α → α → Prop) : Prop where
  lt : ∀ a b, r a b → a < b
  unique : ∀ a a' b, r a b → r a' b → a = a'

namespace Forest

variable {α : Type*} [Preorder α] {r : α → α → Prop} {a b b' c : α}

theorem le (h : Forest r) (hab : Relation.ReflTransGen r a b) : a ≤ b := by
  induction hab with
  | refl => exact le_refl a
  | tail _ hstep ih => exact le_trans ih (le_of_lt (h.lt _ _ hstep))

/-- Nothing below a child is its parent. -/
theorem not_above (h : Forest r) (hab : r a b) : ¬ Relation.ReflTransGen r b a := fun hba =>
  lt_irrefl a (lt_of_lt_of_le (h.lt a b hab) (h.le hba))

/-- What has something below it in common is on one path. -/
theorem total (h : Forest r) (hb : Relation.ReflTransGen r b c) (hb' : Relation.ReflTransGen r b' c) :
    Relation.ReflTransGen r b b' ∨ Relation.ReflTransGen r b' b := by
  have hswap : Relator.RightUnique (Function.swap r) := fun x y z hxy hxz => h.unique y z x hxy hxz
  rcases Relation.ReflTransGen.total_of_right_unique hswap (Relation.reflTransGen_swap.mpr hb)
    (Relation.reflTransGen_swap.mpr hb') with hpath | hpath
  · exact .inr (Relation.reflTransGen_swap.mp hpath)
  · exact .inl (Relation.reflTransGen_swap.mp hpath)

/-- A child is not below another child of its parent. -/
theorem eq_of_path (h : Forest r) (hab : r a b) (hab' : r a b') (hpath : Relation.ReflTransGen r b b') :
    b = b' := by
  rcases Relation.ReflTransGen.cases_tail hpath with heq | ⟨p, hbp, hpb'⟩
  · exact heq.symm
  · rw [h.unique p a b' hpb' hab'] at hbp
    exact absurd hbp (h.not_above hab)

/-- What is below two children of one parent is below one of them only. -/
theorem disjoint (h : Forest r) (hab : r a b) (hab' : r a b') (hne : b ≠ b')
    (hbc : Relation.ReflTransGen r b c) : ¬ Relation.ReflTransGen r b' c := by
  intro hbc'
  rcases h.total hbc hbc' with hpath | hpath
  · exact hne (h.eq_of_path hab hab' hpath)
  · exact hne (h.eq_of_path hab' hab hpath).symm

end Forest
