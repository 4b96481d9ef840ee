import Mathlib

/-!
# Forests

Ordered trees whose leaves are the items of a flat list.  A forest is a list of
trees; `leaves` flattens it.
-/

namespace Lib

inductive RoseTree (Label Item : Type) where
  | leaf (item : Item)
  | node (label : Label) (body : List (RoseTree Label Item))

namespace RoseTree

variable {Label Item : Type}

/-- Induction over a forest: its first tree is a leaf or a node with a body. -/
theorem forest_induction {motive : List (RoseTree Label Item) → Prop} (nil : motive [])
    (leaf : ∀ item rest, motive rest → motive (.leaf item :: rest))
    (node : ∀ label body rest, motive body → motive rest → motive (.node label body :: rest)) :
    ∀ forest, motive forest
  | [] => nil
  | .leaf item :: rest => leaf item rest (forest_induction nil leaf node rest)
  | .node label body :: rest =>
      node label body rest (forest_induction nil leaf node body)
        (forest_induction nil leaf node rest)

mutual

def leavesOf : RoseTree Label Item → List Item
  | .leaf item => [item]
  | .node _ body => leaves body

def leaves : List (RoseTree Label Item) → List Item
  | [] => []
  | tree :: rest => leavesOf tree ++ leaves rest

end

@[simp]
theorem leaves_nil : leaves ([] : List (RoseTree Label Item)) = [] := rfl

@[simp]
theorem leaves_leaf_cons (item : Item) (rest : List (RoseTree Label Item)) :
    leaves (.leaf item :: rest) = item :: leaves rest := rfl

@[simp]
theorem leaves_node_cons (label : Label) (body rest : List (RoseTree Label Item)) :
    leaves (.node label body :: rest) = leaves body ++ leaves rest := rfl

@[simp]
theorem leaves_append (first second : List (RoseTree Label Item)) :
    leaves (first ++ second) = leaves first ++ leaves second := by
  induction first with
  | nil => simp
  | cons head tail inductionHypothesis =>
      cases head with
      | leaf item => simp [inductionHypothesis]
      | node label body => simp [inductionHypothesis]

@[simp]
theorem leaves_map_leaf (items : List Item) :
    leaves (items.map (.leaf : Item → RoseTree Label Item)) = items := by
  induction items with
  | nil => simp
  | cons item rest inductionHypothesis => simp [inductionHypothesis]

/-- The nodes some levels down, with the leaves below each. -/
def nodesAt : ℕ → List (RoseTree Label Item) → List (Label × List Item)
  | 0, forest => forest.flatMap fun
      | .leaf _ => []
      | .node label body => [(label, leaves body)]
  | below + 1, forest => forest.flatMap fun
      | .leaf _ => []
      | .node _ body => nodesAt below body

/-- The leaves that are trees of the forest themselves. -/
def topLeaves (forest : List (RoseTree Label Item)) : List Item :=
  forest.filterMap fun
    | .leaf item => some item
    | .node _ _ => none

theorem nodesAt_append (below : ℕ) (first second : List (RoseTree Label Item)) :
    nodesAt below (first ++ second) = nodesAt below first ++ nodesAt below second := by
  cases below with
  | zero => exact List.flatMap_append
  | succ below => exact List.flatMap_append

theorem nodesAt_map_leaf (below : ℕ) (items : List Item) :
    nodesAt below (items.map (.leaf : Item → RoseTree Label Item)) = [] := by
  cases below with
  | zero => simp [nodesAt, List.flatMap_map]
  | succ below => simp [nodesAt, List.flatMap_map]

theorem topLeaves_append (first second : List (RoseTree Label Item)) :
    topLeaves (first ++ second) = topLeaves first ++ topLeaves second :=
  List.filterMap_append

theorem topLeaves_map_leaf (items : List Item) :
    topLeaves (items.map (.leaf : Item → RoseTree Label Item)) = items := by
  simp [topLeaves, List.filterMap_map, Function.comp_def]

/-! ## Forests of one shape -/

/-- Two forests with the same labels whose leaves are related one to one. -/
inductive Matches {First Second : Type} (related : First → Second → Prop) :
    List (RoseTree Label First) → List (RoseTree Label Second) → Prop where
  | nil : Matches related [] []
  | leaf {one : First} {other : Second} {rest : List (RoseTree Label First)}
      {otherRest : List (RoseTree Label Second)} (here : related one other)
      (behind : Matches related rest otherRest) : Matches related (.leaf one :: rest) (.leaf other :: otherRest)
  | node {label : Label} {body rest : List (RoseTree Label First)}
      {otherBody otherRest : List (RoseTree Label Second)} (inside : Matches related body otherBody)
      (behind : Matches related rest otherRest) :
      Matches related (.node label body :: rest) (.node label otherBody :: otherRest)

theorem Matches.append {First Second : Type} {related : First → Second → Prop}
    {front rest : List (RoseTree Label First)} {otherFront otherRest : List (RoseTree Label Second)}
    (first : Matches related front otherFront) (behind : Matches related rest otherRest) :
    Matches related (front ++ rest) (otherFront ++ otherRest) := by
  induction first with
  | nil => exact behind
  | leaf here _ inductionHypothesis => exact .leaf here inductionHypothesis
  | node inside _ _ inductionHypothesis => exact .node inside inductionHypothesis

theorem Matches.leaves {First Second : Type} {related : First → Second → Prop} {items : List First}
    {others : List Second} (front : List.Forall₂ related items others) :
    Matches related (items.map .leaf : List (RoseTree Label First)) (others.map .leaf) := by
  induction front with
  | nil => exact .nil
  | cons here _ inductionHypothesis => exact .leaf here inductionHypothesis

/-! ## Height -/

mutual

def heightOf : RoseTree Label Item → ℕ
  | .leaf _ => 0
  | .node _ body => height body + 1

/-- How deep nodes are nested in the forest. -/
def height : List (RoseTree Label Item) → ℕ
  | [] => 0
  | tree :: rest => max (heightOf tree) (height rest)

end

theorem heightOf_le_height {tree : RoseTree Label Item} {forest : List (RoseTree Label Item)}
    (inside : tree ∈ forest) : heightOf tree ≤ height forest := by
  induction forest with
  | nil => cases inside
  | cons head rest inductionHypothesis =>
      rcases List.mem_cons.mp inside with rfl | inRest
      · exact le_max_left _ _
      · exact le_trans (inductionHypothesis inRest) (le_max_right _ _)

theorem height_le_iff {forest : List (RoseTree Label Item)} {bound : ℕ} :
    height forest ≤ bound ↔ ∀ tree ∈ forest, heightOf tree ≤ bound := by
  constructor
  · exact fun small tree inside => le_trans (heightOf_le_height inside) small
  · intro small
    induction forest with
    | nil => exact Nat.zero_le _
    | cons head rest inductionHypothesis =>
        refine max_le (small head List.mem_cons_self) ?_
        exact inductionHypothesis fun tree inside => small tree (List.mem_cons_of_mem _ inside)

/-! ## The forest without its labels -/

mutual

def nestingOf : RoseTree Label Item → RoseTree Unit Item
  | .leaf item => .leaf item
  | .node _ body => .node () (nesting body)

def nesting : List (RoseTree Label Item) → List (RoseTree Unit Item)
  | [] => []
  | tree :: rest => nestingOf tree :: nesting rest

end

@[simp]
theorem nesting_nil : nesting ([] : List (RoseTree Label Item)) = [] := rfl

@[simp]
theorem nesting_leaf_cons (item : Item) (rest : List (RoseTree Label Item)) :
    nesting (.leaf item :: rest) = .leaf item :: nesting rest := rfl

@[simp]
theorem nesting_node_cons (label : Label) (body rest : List (RoseTree Label Item)) :
    nesting (.node label body :: rest) = .node () (nesting body) :: nesting rest := rfl

theorem leaves_nesting (forest : List (RoseTree Label Item)) : leaves (nesting forest) = leaves forest := by
  induction forest using forest_induction with
  | nil => rfl
  | leaf item rest inductionHypothesis => simp [inductionHypothesis]
  | node label body rest bodyHypothesis restHypothesis => simp [bodyHypothesis, restHypothesis]

/-! ## Replacing one leaf -/

mutual

def substituteOf (replacement : Item → List (RoseTree Label Item)) : ℕ → RoseTree Label Item →
    List (RoseTree Label Item)
  | _, .leaf item => replacement item
  | position, .node label body => [.node label (substitute replacement position body)]

/-- Put other trees in place of the leaf at a position, in the list that holds it. -/
def substitute (replacement : Item → List (RoseTree Label Item)) : ℕ → List (RoseTree Label Item) →
    List (RoseTree Label Item)
  | _, [] => []
  | position, tree :: rest =>
      if position < (leavesOf tree).length then substituteOf replacement position tree ++ rest
      else tree :: substitute replacement (position - (leavesOf tree).length) rest

end

theorem leaves_substitute {replacement : Item → List (RoseTree Label Item)} {position : ℕ}
    {forest : List (RoseTree Label Item)} {item : Item} (located : (leaves forest)[position]? = some item) :
    leaves (substitute replacement position forest) =
      (leaves forest).take position ++ leaves (replacement item) ++
        (leaves forest).drop (position + 1) := by
  induction forest using forest_induction generalizing position with
  | nil => cases located
  | leaf other rest inductionHypothesis =>
      cases position with
      | zero =>
          cases located
          simp [substitute, substituteOf, leavesOf]
      | succ position =>
          have found := inductionHypothesis (show (leaves rest)[position]? = some item from located)
          simpa [substitute, leavesOf] using found
  | node label body rest bodyHypothesis restHypothesis =>
      rw [leaves_node_cons] at located ⊢
      rw [substitute]
      split
      next inBody =>
        have inside : position < (leaves body).length := inBody
        rw [List.getElem?_append_left inside] at located
        rw [substituteOf, List.singleton_append, leaves_node_cons, bodyHypothesis located,
          List.take_append_of_le_length (le_of_lt inside), List.drop_append_of_le_length inside]
        simp [List.append_assoc]
      next notInBody =>
        have outside : (leaves body).length ≤ position := not_lt.mp notInBody
        rw [List.getElem?_append_right outside] at located
        rw [leaves_node_cons, show leavesOf (.node label body) = leaves body from rfl,
          restHypothesis located, List.take_append, List.drop_append,
          List.take_of_length_le outside,
          List.drop_of_length_le (le_trans outside (Nat.le_succ _)),
          show position + 1 - (leaves body).length = position - (leaves body).length + 1 by omega]
        simp [List.append_assoc]

end RoseTree

/-! ## Lists related item by item -/

section Related

variable {First Second : Type*} {related : First → Second → Prop}

theorem exists_append_of_forall₂ {front back : List First}
    {items : List Second} (paired : List.Forall₂ related (front ++ back) items) :
    ∃ one two, List.Forall₂ related front one ∧ List.Forall₂ related back two ∧ items = one ++ two := by
  induction front generalizing items with
  | nil => exact ⟨[], items, .nil, paired, rfl⟩
  | cons first front inductionHypothesis =>
      cases paired with
      | cons here others =>
          obtain ⟨one, two, pairedFront, pairedBack, rfl⟩ := inductionHypothesis others
          exact ⟨_ :: one, two, .cons here pairedFront, pairedBack, rfl⟩

theorem map_eq_of_forall₂ {Value : Type*} {one : First → Value} {other : Second → Value}
    (same : ∀ first second, related first second → one first = other second)
    {firsts : List First} {seconds : List Second} (paired : List.Forall₂ related firsts seconds) :
    firsts.map one = seconds.map other := by
  induction paired with
  | nil => rfl
  | cons here _ inductionHypothesis => rw [List.map_cons, List.map_cons, same _ _ here, inductionHypothesis]

theorem exists_related {firsts : List First} {seconds : List Second}
    (paired : List.Forall₂ related firsts seconds) {first : First}
    (listed : first ∈ firsts) : ∃ second ∈ seconds, related first second := by
  induction paired with
  | nil => cases listed
  | cons here _ inductionHypothesis =>
      rcases List.mem_cons.mp listed with rfl | later
      · exact ⟨_, List.mem_cons_self, here⟩
      · obtain ⟨second, inside, isRelated⟩ := inductionHypothesis later
        exact ⟨second, List.mem_cons_of_mem _ inside, isRelated⟩

/-- What holds of the related items holds of the items. -/
theorem forall₂_of_related {related : First → First → Prop} {fits : First → Second → Prop}
    (back : ∀ one other, related one other → ∀ second, fits other second → fits one second)
    {ones others : List First} (paired : List.Forall₂ related ones others) {seconds : List Second}
    (fit : List.Forall₂ fits others seconds) : List.Forall₂ fits ones seconds := by
  induction paired generalizing seconds with
  | nil => exact fit
  | cons here _ inductionHypothesis =>
      cases fit with
      | cons first behind => exact .cons (back _ _ here _ first) (inductionHypothesis behind)

theorem forall₂_and {one other : First → Second → Prop} {firsts : List First} {seconds : List Second}
    (here : List.Forall₂ one firsts seconds) (there : List.Forall₂ other firsts seconds) :
    List.Forall₂ (fun first second => one first second ∧ other first second) firsts seconds := by
  induction here with
  | nil => exact .nil
  | cons first _ inductionHypothesis =>
      cases there with
      | cons second behind => exact .cons ⟨first, second⟩ (inductionHypothesis behind)

end Related

end Lib
