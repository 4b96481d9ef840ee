import TorchSpyre.LoopNode.Node

/-!
# The flat view of a nested list

Passes edit the nested list through a view that shows the operations in program order.
Every edit acts on the list that holds the operation at its position, and on the flat
order it does what the same edit does on a plain list.
-/

namespace TorchSpyre.LoopNode

open Lib

variable {Expr : Type}

/-- The edits of the view: `insert`, `append`, `remove`, `del` and item assignment. -/
inductive Edit (Expr : Type) where
  | insert (index : ℤ) (operation : Operation Expr)
  | append (operation : Operation Expr)
  | remove (operation : Operation Expr)
  | delete (index : ℤ)
  | replace (index : ℤ) (operation : Operation Expr)
  deriving DecidableEq, Repr

/-- Where `list.insert` puts an element: an index beyond an end means that end. -/
def insertPosition (length : ℕ) (index : ℤ) : ℕ :=
  min (if index < 0 then max (index + length) 0 else index).toNat length

/-- The position of an index, counted from the end when negative; none when the index is
out of range. -/
def itemPosition (length : ℕ) (index : ℤ) : Option ℕ :=
  if 0 ≤ index ∧ index < length then some index.toNat
  else if -length ≤ index ∧ index < 0 then some (index + length).toNat
  else none

section Edits

variable [DecidableEq Expr]

/-- An edit of the nested list; none when it raises. -/
def applyEdit (entries : List (Entry Expr)) : Edit Expr → Option (List (Entry Expr))
  | .insert index operation =>
      let position := insertPosition (expand entries).length index
      if position = (expand entries).length then some (entries ++ [.leaf operation])
      else some (RoseTree.substitute (fun beside => [.leaf operation, .leaf beside]) position entries)
  | .append operation => some (entries ++ [.leaf operation])
  | .remove operation => ((expand entries).idxOf? operation).map fun position =>
      RoseTree.substitute (fun _ => []) position entries
  | .delete index => (itemPosition (expand entries).length index).map fun position =>
      RoseTree.substitute (fun _ => []) position entries
  | .replace index operation => (itemPosition (expand entries).length index).map fun position =>
      RoseTree.substitute (fun _ => [.leaf operation]) position entries

/-- The same edit of a plain list. -/
def flatEdit (operations : List (Operation Expr)) : Edit Expr → Option (List (Operation Expr))
  | .insert index operation =>
      let position := insertPosition operations.length index
      some (operations.take position ++ operation :: operations.drop position)
  | .append operation => some (operations ++ [operation])
  | .remove operation => (operations.idxOf? operation).map fun position =>
      operations.take position ++ operations.drop (position + 1)
  | .delete index => (itemPosition operations.length index).map fun position =>
      operations.take position ++ operations.drop (position + 1)
  | .replace index operation => (itemPosition operations.length index).map fun position =>
      operations.take position ++ operation :: operations.drop (position + 1)

def editAll (entries : List (Entry Expr)) (edits : List (Edit Expr)) :
    Option (List (Entry Expr)) :=
  edits.foldlM applyEdit entries

def flatEditAll (operations : List (Operation Expr)) (edits : List (Edit Expr)) :
    Option (List (Operation Expr)) :=
  edits.foldlM flatEdit operations

end Edits

theorem insertPosition_le (length : ℕ) (index : ℤ) : insertPosition length index ≤ length :=
  min_le_right _ _

theorem itemPosition_lt {length position : ℕ} {index : ℤ}
    (found : itemPosition length index = some position) : position < length := by
  unfold itemPosition at found
  split_ifs at found
  · cases found
    omega
  · cases found
    omega

theorem expand_substitute {entries : List (Entry Expr)}
    {replacement : Operation Expr → List (Entry Expr)} {position : ℕ}
    (bounded : position < (expand entries).length) :
    ∃ operation, (expand entries)[position]? = some operation ∧
      expand (RoseTree.substitute replacement position entries) =
        (expand entries).take position ++ expand (replacement operation) ++
          (expand entries).drop (position + 1) := by
  have located := List.getElem?_eq_getElem bounded
  exact ⟨_, located, RoseTree.leaves_substitute located⟩

variable [DecidableEq Expr]

/-- Through the view a pass edits the flat list. -/
theorem applyEdit_expand (entries : List (Entry Expr)) (edit : Edit Expr) :
    (applyEdit entries edit).map expand = flatEdit (expand entries) edit := by
  cases edit with
  | insert index operation =>
      simp only [applyEdit, flatEdit]
      split
      next atEnd =>
        rw [atEnd]
        simp [expand]
      next inside =>
        have bounded := lt_of_le_of_ne (insertPosition_le _ index) inside
        obtain ⟨beside, located, expanded⟩ := @expand_substitute _ entries
          (fun beside => [.leaf operation, .leaf beside]) _ bounded
        have isBeside : (expand entries).drop (insertPosition (expand entries).length index) =
            beside :: (expand entries).drop (insertPosition (expand entries).length index + 1) := by
          rw [List.drop_eq_getElem_cons bounded, (List.getElem?_eq_some_iff.mp located).2]
        rw [Option.map_some, expanded, isBeside]
        simp [expand]
  | append operation => simp [applyEdit, flatEdit, expand]
  | remove operation =>
      simp only [applyEdit, flatEdit, Option.map_map]
      apply Option.map_congr
      intro position found
      obtain ⟨bounded, -⟩ := List.idxOf?_eq_some_iff.mp found
      obtain ⟨-, -, expanded⟩ := @expand_substitute _ entries (fun _ => []) _ bounded
      simpa [expand] using expanded
  | delete index =>
      simp only [applyEdit, flatEdit, Option.map_map]
      apply Option.map_congr
      intro position found
      obtain ⟨-, -, expanded⟩ := @expand_substitute _ entries (fun _ => []) _
        (itemPosition_lt found)
      simpa [expand] using expanded
  | replace index operation =>
      simp only [applyEdit, flatEdit, Option.map_map]
      apply Option.map_congr
      intro position found
      obtain ⟨-, -, expanded⟩ := @expand_substitute _ entries (fun _ => [.leaf operation]) _
        (itemPosition_lt found)
      simpa [expand] using expanded

/-- A sequence of edits through the view is the same sequence on the flat list. -/
theorem editAll_expand (entries : List (Entry Expr)) (edits : List (Edit Expr)) :
    (editAll entries edits).map expand = flatEditAll (expand entries) edits := by
  induction edits generalizing entries with
  | nil => rfl
  | cons edit rest inductionHypothesis =>
      unfold editAll flatEditAll at inductionHypothesis ⊢
      rw [List.foldlM_cons, List.foldlM_cons, ← applyEdit_expand]
      cases applyEdit entries edit with
      | none => rfl
      | some next => exact inductionHypothesis next

end TorchSpyre.LoopNode
