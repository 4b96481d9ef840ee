import Mathlib

/-!
# Straight-line programs

A list of items, each with a name and the names it reads.  Running the list in order solves
its equations: every item's name holds the item's value at the end.
-/

namespace Lib.StraightLine

variable {Name Item Value : Type}

section Order

variable (name : Item → Name) (reads : Item → List Name)

/-- Every name an item reads is available before it. -/
def Ordered (available : Name → Prop) : List Item → Prop
  | [] => True
  | item :: rest =>
      (∀ other ∈ reads item, available other) ∧
        Ordered (fun other => available other ∨ other = name item) rest

variable {name reads}

theorem Ordered.mono {fewer more : Name → Prop} (included : ∀ other, fewer other → more other)
    {items : List Item} (ordered : Ordered name reads fewer items) :
    Ordered name reads more items := by
  induction items generalizing fewer more with
  | nil => trivial
  | cons item rest inductionHypothesis =>
      refine ⟨fun other isRead => included other (ordered.1 other isRead), ?_⟩
      exact inductionHypothesis (fun other => Or.imp_left (included other)) ordered.2

/-- Items that read nothing may stand first. -/
theorem ordered_append {available : Name → Prop} {first second : List Item}
    (closed : ∀ item ∈ first, reads item = [])
    (rest : Ordered name reads (fun other => available other ∨ other ∈ first.map name) second) :
    Ordered name reads available (first ++ second) := by
  induction first generalizing available with
  | nil => exact rest.mono (by simp)
  | cons item first inductionHypothesis =>
      refine ⟨by simp [closed item List.mem_cons_self], ?_⟩
      refine inductionHypothesis (fun other inside => closed other (List.mem_cons_of_mem _ inside)) ?_
      refine rest.mono fun other => ?_
      simp only [List.map_cons, List.mem_cons]
      tauto

/-- What holds of the available names, and of an item once it holds of the names it reads,
holds of every item. -/
theorem ordered_induction {motive : Name → Prop} {available : Name → Prop} {items : List Item}
    (ordered : Ordered name reads available items) (base : ∀ other, available other → motive other)
    (step : ∀ item ∈ items, (∀ other ∈ reads item, motive other) → motive (name item)) :
    ∀ item ∈ items, motive (name item) := by
  induction items generalizing available with
  | nil => exact fun item inside => absurd inside List.not_mem_nil
  | cons first rest inductionHypothesis =>
      have firstHolds : motive (name first) :=
        step first List.mem_cons_self fun other isRead => base other (ordered.1 other isRead)
      intro item inside
      rcases List.mem_cons.mp inside with rfl | later
      · exact firstHolds
      · refine inductionHypothesis ordered.2 ?_
          (fun other isLater => step other (List.mem_cons_of_mem _ isLater)) item later
        rintro other (before | rfl)
        · exact base other before
        · exact firstHolds

end Order

section Evaluation

variable [DecidableEq Name] (name : Item → Name) (reads : Item → List Name)
  (value : Item → List Value → Value)

def evaluate : List Item → (Name → Value) → Name → Value
  | [], store => store
  | item :: rest, store =>
      evaluate rest (Function.update store (name item) (value item ((reads item).map store)))

variable {name reads value}

theorem evaluate_of_not_mem {items : List Item} {other : Name} (notWritten : other ∉ items.map name)
    (store : Name → Value) : evaluate name reads value items store other = store other := by
  induction items generalizing store with
  | nil => rfl
  | cons item rest inductionHypothesis =>
      simp only [List.map_cons, List.mem_cons, not_or] at notWritten
      rw [evaluate, inductionHypothesis notWritten.2, Function.update_of_ne notWritten.1]

/-- The final store solves the equations of the program. -/
theorem evaluate_solves {available : Name → Prop} {items : List Item}
    (ordered : Ordered name reads available items) (distinct : (items.map name).Nodup)
    (fresh : ∀ item ∈ items, ¬ available (name item)) (store : Name → Value) {item : Item}
    (inside : item ∈ items) :
    evaluate name reads value items store (name item) =
      value item ((reads item).map (evaluate name reads value items store)) := by
  induction items generalizing available store with
  | nil => cases inside
  | cons first rest inductionHypothesis =>
      rw [List.map_cons, List.nodup_cons] at distinct
      have freshRest : ∀ other ∈ rest, ¬ (available (name other) ∨ name other = name first) := by
        intro other later isAvailable
        rcases isAvailable with before | same
        · exact fresh other (List.mem_cons_of_mem _ later) before
        · exact distinct.1 (same ▸ List.mem_map_of_mem later)
      rcases List.mem_cons.mp inside with rfl | later
      · rw [evaluate, evaluate_of_not_mem distinct.1, Function.update_self]
        congr 1
        refine List.map_congr_left fun other isRead => ?_
        have readable := ordered.1 other isRead
        have notLater : other ∉ rest.map name := by
          intro written
          obtain ⟨writer, isLater, rfl⟩ := List.mem_map.mp written
          exact freshRest writer isLater (.inl readable)
        have notHere : other ≠ name item := by
          rintro rfl
          exact fresh item List.mem_cons_self readable
        rw [evaluate_of_not_mem notLater, Function.update_of_ne notHere]
      · exact inductionHypothesis ordered.2 distinct.2 freshRest _ later

end Evaluation

end Lib.StraightLine
