import Mathlib
import TorchSpyre.Lib.RoseTree

/-!
# The list that holds an operation

`owning_list` searches a nested list for an operation by identity, and an edit changes the list it
finds. Each operation is listed here with the nodes around it, so that an edit is known by what it
does to the flat order and by which list it does it in.
-/

namespace TorchSpyre.LoopNode

open Lib

variable {Label Op : Type}

/-- One entry further along the list that is searched. -/
def nextEntry : List ℕ × ℕ → List ℕ × ℕ
  | ([], index) => ([], index + 1)
  | (entry :: path, index) => ((entry + 1) :: path, index)

section Search

variable [DecidableEq Op]

mutual

def owningBody (op : Op) : RoseTree Label Op → Option (List ℕ × ℕ)
  | .leaf item => if item = op then some ([], 0) else none
  | .node _ body => (owningList op body).map fun (path, index) => (0 :: path, index)

/-- `owning_list`: the entries to descend into and the index in the list reached. -/
def owningList (op : Op) : List (RoseTree Label Op) → Option (List ℕ × ℕ)
  | [] => none
  | entry :: rest =>
      match owningBody op entry with
      | some found => some found
      | none => (owningList op rest).map nextEntry

end

end Search

/-- Change the list that a path leads to. -/
def editAt (edit : List (RoseTree Label Op) → List (RoseTree Label Op)) :
    List ℕ → List (RoseTree Label Op) → List (RoseTree Label Op)
  | [], forest => edit forest
  | entry :: path, forest => forest.modify entry fun
      | .leaf item => .leaf item
      | .node label body => .node label (editAt edit path body)

/-! ## Operations with the nodes around them -/

mutual

def holdersOf (outer : List Label) : RoseTree Label Op → List (List Label × Op)
  | .leaf item => [(outer, item)]
  | .node label body => holders (outer ++ [label]) body

/-- Every operation in program order, with the nodes whose bodies it is in. -/
def holders (outer : List Label) : List (RoseTree Label Op) → List (List Label × Op)
  | [] => []
  | entry :: rest => holdersOf outer entry ++ holders outer rest

end

@[simp]
theorem holders_nil (outer : List Label) : holders outer ([] : List (RoseTree Label Op)) = [] := rfl

@[simp]
theorem holders_leaf_cons (outer : List Label) (item : Op) (rest : List (RoseTree Label Op)) :
    holders outer (.leaf item :: rest) = (outer, item) :: holders outer rest := rfl

@[simp]
theorem holders_node_cons (outer : List Label) (label : Label) (body rest : List (RoseTree Label Op)) :
    holders outer (.node label body :: rest) = holders (outer ++ [label]) body ++ holders outer rest := rfl

@[simp]
theorem holders_append (outer : List Label) (first second : List (RoseTree Label Op)) :
    holders outer (first ++ second) = holders outer first ++ holders outer second := by
  induction first with
  | nil => rfl
  | cons entry rest inductionHypothesis =>
      cases entry with
      | leaf item => simp [inductionHypothesis]
      | node label body => simp [inductionHypothesis]

@[simp]
theorem map_snd_holders (outer : List Label) (forest : List (RoseTree Label Op)) :
    (holders outer forest).map Prod.snd = RoseTree.leaves forest := by
  induction forest using RoseTree.forest_induction generalizing outer with
  | nil => rfl
  | leaf item rest inductionHypothesis => simp [inductionHypothesis]
  | node label body rest bodyHypothesis restHypothesis => simp [bodyHypothesis, restHypothesis]

/-! ## Edits in the list found -/

section Found

variable [DecidableEq Op]

@[simp]
theorem owningList_leaf_cons (op item : Op) (rest : List (RoseTree Label Op)) :
    owningList op (.leaf item :: rest) =
      if item = op then some ([], 0) else (owningList op rest).map nextEntry := by
  conv_lhs => unfold owningList owningBody
  by_cases same : item = op <;> simp [same]

@[simp]
theorem owningList_node_cons (op : Op) (label : Label) (body rest : List (RoseTree Label Op)) :
    owningList op (.node label body :: rest) =
      match owningList op body with
      | some (path, index) => some (0 :: path, index)
      | none => (owningList op rest).map nextEntry := by
  conv_lhs => unfold owningList owningBody
  cases owningList op body <;> rfl

theorem isSome_owningList_iff {op : Op} {forest : List (RoseTree Label Op)} :
    (owningList op forest).isSome = true ↔ op ∈ RoseTree.leaves forest := by
  induction forest using RoseTree.forest_induction with
  | nil => simp [owningList]
  | leaf item rest inductionHypothesis =>
      rw [owningList_leaf_cons]
      split
      next same => simp [same]
      next different =>
        rw [Option.isSome_map, inductionHypothesis]
        simp [Ne.symm different]
  | node label body rest bodyHypothesis restHypothesis =>
      rw [owningList_node_cons]
      cases found : owningList op body with
      | some location =>
          have inBody : op ∈ RoseTree.leaves body := bodyHypothesis.mp (by rw [found]; rfl)
          simp [inBody]
      | none =>
          have notInBody : op ∉ RoseTree.leaves body := fun inside => by
            have isSome := bodyHypothesis.mpr inside
            rw [found] at isSome
            cases isSome
          rw [Option.isSome_map, restHypothesis]
          simp [notInBody]

/-- The list found holds the first occurrence of the operation, and an edit of that list keeps what is
around it. -/
structure Located (op : Op) (outer : List Label) (forest : List (RoseTree Label Op)) (path : List ℕ)
    (index : ℕ) where
  inner : List Label
  before : List (List Label × Op)
  front : List (RoseTree Label Op)
  back : List (RoseTree Label Op)
  after : List (List Label × Op)
  atIndex : front.length = index
  notBefore : op ∉ before.map Prod.snd
  notInFront : op ∉ RoseTree.leaves front
  whole : holders outer forest = before ++ holders inner (front ++ .leaf op :: back) ++ after
  edited : ∀ edit, holders outer (editAt edit path forest) =
    before ++ holders inner (edit (front ++ .leaf op :: back)) ++ after
  /-- The list found is the one searched if the path is empty. -/
  here : path = [] → inner = outer ∧ before = [] ∧ after = [] ∧ forest = front ++ .leaf op :: back

theorem exists_located {op : Op} {forest : List (RoseTree Label Op)} {path : List ℕ} {index : ℕ}
    (found : owningList op forest = some (path, index)) (outer : List Label) :
    Nonempty (Located op outer forest path index) := by
  induction forest using RoseTree.forest_induction generalizing outer path index with
  | nil => cases found
  | leaf item rest inductionHypothesis =>
      rw [owningList_leaf_cons] at found
      split at found
      next same =>
        cases found
        subst same
        exact ⟨⟨outer, [], [], rest, [], rfl, by simp, by simp, by simp, by simp [editAt], fun _ => ⟨rfl, rfl, rfl, rfl⟩⟩⟩
      next different =>
        obtain ⟨⟨innerPath, innerIndex⟩, innerFound, shifted⟩ := Option.map_eq_some_iff.mp found
        obtain ⟨located⟩ := inductionHypothesis innerFound outer
        cases innerPath with
        | nil =>
            cases shifted
            obtain ⟨sameOuter, beforeNil, afterNil, isRest⟩ := located.here rfl
            refine ⟨⟨outer, [], .leaf item :: located.front, located.back, [], ?_, by simp, ?_, ?_, ?_, ?_⟩⟩
            · simp [located.atIndex]
            · simp [Ne.symm different, located.notInFront]
            · simp [located.whole, sameOuter, beforeNil, afterNil]
            · intro edit
              simp [editAt, isRest]
            · exact fun _ => ⟨rfl, rfl, rfl, congrArg (.leaf item :: ·) isRest⟩
        | cons entry innerPath =>
            cases shifted
            refine ⟨⟨located.inner, (outer, item) :: located.before, located.front, located.back, located.after,
              located.atIndex, ?_, located.notInFront, ?_, ?_, fun empty => by cases empty⟩⟩
            · simp [Ne.symm different, located.notBefore]
            · simp [located.whole]
            · intro edit
              have inRest := located.edited edit
              simp only [editAt] at inRest
              simp [editAt, inRest]
  | node label body rest bodyHypothesis restHypothesis =>
      rw [owningList_node_cons] at found
      cases inBody : owningList op body with
      | some location =>
          obtain ⟨innerPath, innerIndex⟩ := location
          simp only [inBody, Option.some.injEq] at found
          cases found
          obtain ⟨located⟩ := bodyHypothesis inBody (outer ++ [label])
          refine ⟨⟨located.inner, located.before, located.front, located.back, located.after ++ holders outer rest,
            located.atIndex, located.notBefore, located.notInFront, ?_, ?_, fun empty => by cases empty⟩⟩
          · simp [located.whole]
          intro edit
          simp [editAt, located.edited]
      | none =>
          simp only [inBody] at found
          have absent : op ∉ RoseTree.leaves body := by
            rw [← isSome_owningList_iff, inBody]
            simp
          obtain ⟨⟨innerPath, innerIndex⟩, innerFound, shifted⟩ := Option.map_eq_some_iff.mp found
          obtain ⟨located⟩ := restHypothesis innerFound outer
          cases innerPath with
          | nil =>
              cases shifted
              obtain ⟨sameOuter, beforeNil, afterNil, isRest⟩ := located.here rfl
              refine ⟨⟨outer, [], .node label body :: located.front, located.back, [], ?_, by simp, ?_, ?_, ?_, ?_⟩⟩
              · simp [located.atIndex]
              · simp [absent, located.notInFront]
              · simp [located.whole, sameOuter, beforeNil, afterNil]
              · intro edit
                simp [editAt, isRest]
              · exact fun _ => ⟨rfl, rfl, rfl, congrArg (.node label body :: ·) isRest⟩
          | cons entry innerPath =>
              cases shifted
              refine ⟨⟨located.inner, holders (outer ++ [label]) body ++ located.before, located.front,
                located.back, located.after, located.atIndex, ?_, located.notInFront, ?_, ?_, fun empty => by cases empty⟩⟩
              · simp [absent, located.notBefore]
              · simp [located.whole]
              · intro edit
                have inRest := located.edited edit
                simp only [editAt] at inRest
                simp [editAt, inRest]

theorem insertIdx_length_append {α : Type} (front : List α) (element : α) (back : List α) :
    (front ++ back).insertIdx front.length element = front ++ element :: back := by
  induction front with
  | nil => simp
  | cons head tail inductionHypothesis => simp [inductionHypothesis]

/-- An edit that puts other operations in the place of one, in the list found, does so in program
order. -/
theorem exists_split {op : Op} {forest : List (RoseTree Label Op)} (inside : op ∈ RoseTree.leaves forest) :
    ∃ path index inner before after, owningList op forest = some (path, index) ∧
      holders [] forest = before ++ (inner, op) :: after ∧
      ∀ (edit : ℕ → List (RoseTree Label Op) → List (RoseTree Label Op)) (replacement : List Op),
        (∀ front back, edit front.length (front ++ .leaf op :: back) =
          front ++ replacement.map .leaf ++ back) →
        holders [] (editAt (edit index) path forest) =
          before ++ replacement.map (fun new => (inner, new)) ++ after := by
  obtain ⟨⟨path, index⟩, found⟩ := Option.isSome_iff_exists.mp (isSome_owningList_iff.2 inside)
  obtain ⟨inner, before, front, back, after, rfl, -, -, whole, edited, -⟩ :=
    exists_located found ([] : List Label)
  refine ⟨path, front.length, inner, before ++ holders inner front, holders inner back ++ after, found,
    by simp [whole], fun edit replacement replaces => ?_⟩
  have leavesHeld : holders inner (replacement.map .leaf : List (RoseTree Label Op)) =
      replacement.map fun new => (inner, new) := by
    clear replaces
    induction replacement with
    | nil => rfl
    | cons new rest inductionHypothesis => simp [inductionHypothesis]
  rw [edited, replaces]
  simp [leavesHeld]

end Found

end TorchSpyre.LoopNode
