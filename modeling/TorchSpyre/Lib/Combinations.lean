import Mathlib

/-!
# Combinations

`itertools.combinations`: the sublists of one length, in the order of their positions.
-/

namespace Lib

variable {α : Type*}

def combinations : ℕ → List α → List (List α)
  | 0, _ => [[]]
  | _ + 1, [] => []
  | length + 1, item :: rest =>
      (combinations length rest).map (item :: ·) ++ combinations (length + 1) rest

theorem mem_combinations {items combo : List α} {length : ℕ} :
    combo ∈ combinations length items ↔ combo.Sublist items ∧ combo.length = length := by
  induction items generalizing length combo with
  | nil => cases length <;> simp +contextual [combinations]
  | cons item rest inductionHypothesis =>
      cases length with
      | zero => simp +contextual [combinations, List.length_eq_zero_iff]
      | succ length =>
          rw [combinations, List.mem_append, List.mem_map, inductionHypothesis, List.sublist_cons_iff]
          constructor
          · rintro (⟨others, isOthers, rfl⟩ | ⟨inRest, sized⟩)
            · obtain ⟨inRest, sized⟩ := inductionHypothesis.mp isOthers
              exact ⟨.inr ⟨others, rfl, inRest⟩, by rw [List.length_cons, sized]⟩
            · exact ⟨.inl inRest, sized⟩
          · rintro ⟨inRest | ⟨others, rfl, inRest⟩, sized⟩
            · exact .inr ⟨inRest, sized⟩
            · exact .inl ⟨others, inductionHypothesis.mpr ⟨inRest, Nat.succ.inj sized⟩, rfl⟩

theorem nodup_combinations {items : List α} (distinct : items.Nodup) (length : ℕ) :
    (combinations length items).Nodup := by
  induction items generalizing length with
  | nil => cases length <;> simp [combinations]
  | cons item rest inductionHypothesis =>
      obtain ⟨fresh, restDistinct⟩ := List.nodup_cons.mp distinct
      cases length with
      | zero => simp [combinations]
      | succ length =>
          rw [combinations, List.nodup_append]
          refine ⟨(inductionHypothesis restDistinct length).map (List.cons_injective),
            inductionHypothesis restDistinct (length + 1), ?_⟩
          rintro first isFirst second isSecond rfl
          obtain ⟨others, -, rfl⟩ := List.mem_map.mp isFirst
          exact fresh ((mem_combinations.1 isSecond).1.subset List.mem_cons_self)

end Lib
