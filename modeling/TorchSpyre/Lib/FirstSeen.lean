import Mathlib

/-!
# First-seen order

A list that an element joins at its end unless it is there already.
-/

namespace Lib

variable {Item Other : Type*} [DecidableEq Item] [DecidableEq Other]

def addNew (seen : List Item) (item : Item) : List Item := if item ∈ seen then seen else seen ++ [item]

/-- The elements behind those seen, each at its first occurrence. -/
def addAll (seen items : List Item) : List Item := items.foldl addNew seen

@[simp]
theorem addAll_nil (seen : List Item) : addAll seen [] = seen := rfl

@[simp]
theorem addAll_cons (seen : List Item) (item : Item) (items : List Item) :
    addAll seen (item :: items) = addAll (addNew seen item) items := rfl

@[simp]
theorem addAll_append (seen first second : List Item) :
    addAll seen (first ++ second) = addAll (addAll seen first) second :=
  List.foldl_append

@[simp]
theorem mem_addNew {seen : List Item} {item other : Item} :
    other ∈ addNew seen item ↔ other ∈ seen ∨ other = item := by
  unfold addNew
  split
  next inside => simp; rintro rfl; exact inside
  next => simp

@[simp]
theorem mem_addAll {seen items : List Item} {other : Item} :
    other ∈ addAll seen items ↔ other ∈ seen ∨ other ∈ items := by
  induction items generalizing seen with
  | nil => simp
  | cons item items inductionHypothesis => simp [inductionHypothesis, or_assoc]

theorem nodup_addNew {seen : List Item} (distinct : seen.Nodup) (item : Item) : (addNew seen item).Nodup := by
  unfold addNew
  split
  next => exact distinct
  next fresh => exact List.nodup_append_comm.mp (List.nodup_cons.mpr ⟨fresh, distinct⟩)

theorem nodup_addAll {seen : List Item} (distinct : seen.Nodup) (items : List Item) :
    (addAll seen items).Nodup := by
  induction items generalizing seen with
  | nil => exact distinct
  | cons item items inductionHypothesis => exact inductionHypothesis (nodup_addNew distinct item)

/-- An injective map keeps the order. -/
theorem addAll_map {rename : Item → Other} {seen items : List Item}
    (injective : ∀ one ∈ seen ++ items, ∀ other ∈ seen ++ items, rename one = rename other → one = other) :
    addAll (seen.map rename) (items.map rename) = (addAll seen items).map rename := by
  induction items generalizing seen with
  | nil => rfl
  | cons item items inductionHypothesis =>
      have step : addNew (seen.map rename) (rename item) = (addNew seen item).map rename := by
        have listed : rename item ∈ seen.map rename ↔ item ∈ seen := by
          constructor
          · intro inside
            obtain ⟨other, isOther, same⟩ := List.mem_map.mp inside
            rw [injective item (by simp) other (by simp [isOther]) same.symm]
            exact isOther
          · exact List.mem_map_of_mem
        simp only [addNew, listed]
        split <;> simp
      rw [List.map_cons, addAll_cons, step, addAll_cons]
      apply inductionHypothesis
      intro one isOne other isOther
      apply injective
      · simpa [or_assoc] using isOne
      · simpa [or_assoc] using isOther

end Lib
