import Mathlib.Logic.Relation

/-! # What can be reached in a graph -/

namespace AetherOs.Base

open Relation

variable {α : Type*} {r r' : α → α → Prop} {root leaf x : α}

theorem reach_mono (h : ∀ a b, ReflTransGen r root a → r a b → r' a b) (hx : ReflTransGen r root x) :
    ReflTransGen r' root x := by
  induction hx with
  | refl => exact .refl
  | tail hreach hedge ih => exact ih.tail (h _ _ hreach hedge)

theorem reach_congr (h : ∀ a b, ReflTransGen r root a → (r' a b ↔ r a b)) :
    ReflTransGen r' root x ↔ ReflTransGen r root x := by
  constructor
  · intro hx
    induction hx with
    | refl => exact .refl
    | tail _ hedge ih => exact ih.tail ((h _ _ ih).mp hedge)
  · exact reach_mono fun a b hreach => (h a b hreach).mpr

theorem reach_or_leaf (h : ∀ a b, ReflTransGen r root a → r' a b → r a b ∨ b = leaf) (hleaf : ∀ b, ¬ r' leaf b)
    (hx : ReflTransGen r' root x) : ReflTransGen r root x ∨ x = leaf := by
  induction hx with
  | refl => exact .inl .refl
  | tail _ hedge ih =>
    rcases ih with hreach | rfl
    · exact (h _ _ hreach hedge).imp_left hreach.tail
    · exact absurd hedge (hleaf _)

end AetherOs.Base
