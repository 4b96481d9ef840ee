import Mathlib

/-!
# Products of lists

`itertools.product`: one choice from each list, the last list fastest.
-/

namespace Lib

variable {α : Type*}

def cartesian : List (List α) → List (List α)
  | [] => [[]]
  | choices :: rest => choices.flatMap fun choice => (cartesian rest).map (choice :: ·)

theorem mem_cartesian {choices : List (List α)} {combo : List α} :
    combo ∈ cartesian choices ↔ List.Forall₂ (· ∈ ·) combo choices := by
  induction choices generalizing combo with
  | nil => simp [cartesian]
  | cons first rest inductionHypothesis =>
      rw [cartesian, List.mem_flatMap]
      constructor
      · rintro ⟨choice, isChoice, isCombo⟩
        obtain ⟨others, isOthers, rfl⟩ := List.mem_map.mp isCombo
        exact .cons isChoice (inductionHypothesis.mp isOthers)
      · rintro (_ | ⟨isChoice, isOthers⟩)
        exact ⟨_, isChoice, List.mem_map.mpr ⟨_, inductionHypothesis.mpr isOthers, rfl⟩⟩

/-- A choice made for each item is in the product. -/
theorem map_mem_cartesian {Item : Type*} {items : List Item} {choices : Item → List α}
    {choice : Item → α} (chosen : ∀ item ∈ items, choice item ∈ choices item) :
    items.map choice ∈ cartesian (items.map choices) := by
  rw [mem_cartesian, List.forall₂_map_left_iff, List.forall₂_map_right_iff, List.forall₂_same]
  exact chosen

theorem nodup_cartesian {choices : List (List α)} (distinct : ∀ items ∈ choices, items.Nodup) :
    (cartesian choices).Nodup := by
  induction choices with
  | nil => simp [cartesian]
  | cons first rest inductionHypothesis =>
      obtain ⟨firstDistinct, restDistinct⟩ := List.forall_mem_cons.mp distinct
      rw [cartesian, List.nodup_flatMap]
      refine ⟨fun choice _ => (inductionHypothesis restDistinct).map List.cons_injective, ?_⟩
      refine firstDistinct.imp fun different => ?_
      intro combo isLeft isRight
      obtain ⟨left, -, rfl⟩ := List.mem_map.mp isLeft
      obtain ⟨right, -, same⟩ := List.mem_map.mp isRight
      exact different (List.cons.inj same).1.symm

end Lib
