import TorchSpyre.LoopNode.Node

/-!
# The nesting of a flat list

The nesting `collapse` builds is the only one of the flat list in which every node spans
from a first to a last member of its loop, holds all of them that follow, and no member
of an inner loop stands beside the nodes.
-/

namespace TorchSpyre.LoopNode

open Lib

variable {Expr Label Other : Type}

theorem memberOf_iff {loop : List ℤ} {operation : Operation Expr} :
    memberOf loop operation ↔ loop <+: groupPath operation := by
  unfold memberOf
  rw [decide_eq_true_eq, List.prefix_iff_eq_take]
  exact eq_comm

/-- The operation is in a loop directly inside the given one. -/
def Enters (outer : List ℤ) (operation : Operation Expr) : Prop :=
  outer.length < (groupPath operation).length ∧ outer <+: groupPath operation

/-- The operations start and end with members of the loop. -/
structure Spans (key : List ℤ) (operations : List (Operation Expr)) : Prop where
  first : ∃ operation, operations.head? = some operation ∧ memberOf key operation
  last : ∃ operation, operations.getLast? = some operation ∧ memberOf key operation

/-- The nesting of the operations of a loop. -/
inductive Canonical : List ℤ → List (RoseTree Label (Operation Expr)) → Prop
  | nil {outer} : Canonical outer []
  | leaf {outer operation rest} : ¬ Enters outer operation → Canonical outer rest →
      Canonical outer (.leaf operation :: rest)
  | node {outer key label body rest} : key.length = outer.length + 1 → outer <+: key →
      Spans key (RoseTree.leaves body) →
      (∀ operation ∈ RoseTree.leaves rest, ¬ memberOf key operation) →
      Canonical key body → Canonical outer rest → Canonical outer (.node label body :: rest)

/-! ## Uniqueness -/

theorem enters_of_memberOf {outer key : List ℤ} {operation : Operation Expr}
    (level : key.length = outer.length + 1) (inside : outer <+: key)
    (isMember : memberOf key operation) : Enters outer operation := by
  rw [memberOf_iff] at isMember
  refine ⟨?_, inside.trans isMember⟩
  have long := isMember.length_le
  omega

theorem key_eq_take {outer key : List ℤ} {operation : Operation Expr}
    (level : key.length = outer.length + 1) (isMember : memberOf key operation) :
    key = (groupPath operation).take (outer.length + 1) := by
  rw [memberOf_iff] at isMember
  rw [← level]
  exact List.prefix_iff_eq_take.mp isMember

/-- Up to its last member a loop is determined by the operations after it. -/
theorem rdropWhile_of_spans {key : List ℤ} {span after : List (Operation Expr)}
    (spans : Spans key span) (outside : ∀ operation ∈ after, ¬ memberOf key operation) :
    (span ++ after).rdropWhile (fun operation => ¬ memberOf key operation) = span := by
  obtain ⟨last, isLast, isMember⟩ := spans.last
  obtain ⟨front, rfl⟩ := List.getLast?_eq_some_iff.mp isLast
  induction after using List.reverseRecOn with
  | nil => 
      rw [List.append_nil, List.rdropWhile_concat_neg]
      simpa using isMember
  | append_singleton after operation inductionHypothesis =>
      rw [← List.append_assoc, List.rdropWhile_concat_pos]
      · exact inductionHypothesis fun other inside => outside other (List.mem_append_left _ inside)
      · simpa using outside operation (by simp)

theorem spans_unique {key : List ℤ} {span after span' after' : List (Operation Expr)}
    (spans : Spans key span) (outside : ∀ operation ∈ after, ¬ memberOf key operation)
    (spans' : Spans key span') (outside' : ∀ operation ∈ after', ¬ memberOf key operation)
    (same : span ++ after = span' ++ after') : span = span' ∧ after = after' := by
  have sameSpan : span = span' := by
    rw [← rdropWhile_of_spans spans outside, same, rdropWhile_of_spans spans' outside']
  subst sameSpan
  exact ⟨rfl, List.append_cancel_left same⟩

theorem Spans.head_append {key : List ℤ} {span after : List (Operation Expr)}
    (spans : Spans key span) :
    ∃ operation, (span ++ after).head? = some operation ∧ memberOf key operation := by
  obtain ⟨operation, isFirst, isMember⟩ := spans.first
  exact ⟨operation, by rw [List.head?_append, isFirst]; rfl, isMember⟩

theorem Canonical.unique {outer : List ℤ} {entries : List (RoseTree Label (Operation Expr))}
    {entries' : List (RoseTree Other (Operation Expr))} (canonical : Canonical outer entries)
    (canonical' : Canonical outer entries')
    (same : RoseTree.leaves entries = RoseTree.leaves entries') :
    RoseTree.nesting entries = RoseTree.nesting entries' := by
  induction canonical generalizing entries' with
  | nil =>
      cases canonical' with
      | nil => rfl
      | leaf => cases same
      | node _ _ spans =>
          obtain ⟨operation, isFirst, -⟩ := spans.head_append
          rw [RoseTree.leaves_node_cons, RoseTree.leaves_nil] at same
          rw [← same] at isFirst
          cases isFirst
  | leaf stays _ inductionHypothesis =>
      cases canonical' with
      | nil => cases same
      | leaf stays' rest' =>
          rw [RoseTree.leaves_leaf_cons, RoseTree.leaves_leaf_cons, List.cons.injEq] at same
          obtain ⟨rfl, same⟩ := same
          rw [RoseTree.nesting_leaf_cons, RoseTree.nesting_leaf_cons, inductionHypothesis rest' same]
      | node level inside spans =>
          obtain ⟨operation, isFirst, isMember⟩ := spans.head_append
          rw [RoseTree.leaves_node_cons, RoseTree.leaves_leaf_cons] at same
          rw [← same, List.head?_cons] at isFirst
          cases isFirst
          exact absurd (enters_of_memberOf level inside isMember) stays
  | node level inside spans outside _ _ bodyHypothesis restHypothesis =>
      obtain ⟨operation, isFirst, isMember⟩ := spans.head_append
      cases canonical' with
      | nil =>
          rw [RoseTree.leaves_node_cons, RoseTree.leaves_nil] at same
          rw [same] at isFirst
          cases isFirst
      | leaf stays' =>
          rw [RoseTree.leaves_node_cons, RoseTree.leaves_leaf_cons] at same
          rw [same, List.head?_cons] at isFirst
          cases isFirst
          exact absurd (enters_of_memberOf level inside isMember) stays'
      | node level' inside' spans' outside' body' rest' =>
          obtain ⟨operation', isFirst', isMember'⟩ := spans'.head_append
          rw [RoseTree.leaves_node_cons, RoseTree.leaves_node_cons] at same
          rw [same] at isFirst
          cases isFirst.symm.trans isFirst'
          have sameKey := (key_eq_take level isMember).trans (key_eq_take level' isMember').symm
          subst sameKey
          obtain ⟨sameBody, sameRest⟩ := spans_unique spans outside spans' outside' same
          rw [RoseTree.nesting_node_cons, RoseTree.nesting_node_cons, bodyHypothesis body' sameBody,
            restHypothesis rest' sameRest]

/-- Whether a nesting is canonical does not depend on the labels of its nodes. -/
theorem canonical_nesting_iff {outer : List ℤ} {entries : List (RoseTree Label (Operation Expr))} :
    Canonical outer (RoseTree.nesting entries) ↔ Canonical outer entries := by
  induction entries using RoseTree.forest_induction generalizing outer with
  | nil => exact ⟨fun _ => .nil, fun _ => .nil⟩
  | leaf operation rest inductionHypothesis =>
      rw [RoseTree.nesting_leaf_cons]
      constructor
      · rintro (_ | ⟨stays, canonical⟩)
        exact .leaf stays (inductionHypothesis.mp canonical)
      · rintro (_ | ⟨stays, canonical⟩)
        exact .leaf stays (inductionHypothesis.mpr canonical)
  | node label body rest bodyHypothesis restHypothesis =>
      rw [RoseTree.nesting_node_cons]
      constructor
      · intro canonical
        cases canonical with
        | node level inside spans outside inBody inRest =>
            rw [RoseTree.leaves_nesting] at spans outside
            exact .node level inside spans outside (bodyHypothesis.mp inBody)
              (restHypothesis.mp inRest)
      · intro canonical
        cases canonical with
        | node level inside spans outside inBody inRest =>
            rw [← RoseTree.leaves_nesting] at spans
            refine .node level inside spans ?_ (bodyHypothesis.mpr inBody)
              (restHypothesis.mpr inRest)
            rwa [RoseTree.leaves_nesting]

/-! ## Collapsing -/

/-- The span of a loop that starts at a member. -/
theorem span_spec {key : List ℤ} {operation : Operation Expr} {rest : List (Operation Expr)}
    (isMember : memberOf key operation) :
    Spans key ((operation :: rest).rdropWhile fun other => ¬ memberOf key other) ∧
      (∀ other ∈ (operation :: rest).rtakeWhile fun other => ¬ memberOf key other,
        ¬ memberOf key other) ∧
      ((operation :: rest).rtakeWhile fun other => ¬ memberOf key other).length ≤ rest.length := by
  have split : ((operation :: rest).rdropWhile fun other => ¬ memberOf key other) ++
      ((operation :: rest).rtakeWhile fun other => ¬ memberOf key other) = operation :: rest :=
    List.rdropWhile_append_rtakeWhile
  have nonempty : ((operation :: rest).rdropWhile fun other => ¬ memberOf key other) ≠ [] := by
    intro isEmpty
    have dropped := List.rdropWhile_eq_nil_iff.mp isEmpty operation List.mem_cons_self
    simp [isMember] at dropped
  have last := List.rdropWhile_last_not _ _ nonempty
  obtain ⟨first, others, isCons⟩ := List.exists_cons_of_ne_nil nonempty
  refine ⟨⟨?_, ?_⟩, ?_, ?_⟩
  · rw [isCons, List.cons_append, List.cons.injEq] at split
    exact ⟨operation, by rw [isCons, List.head?_cons, split.1], isMember⟩
  · exact ⟨_, List.getLast?_eq_some_getLast nonempty, by simpa using last⟩
  · intro other inside
    simpa using List.mem_rtakeWhile_imp inside
  · rw [isCons] at split
    have lengths := congrArg List.length split
    simp only [List.cons_append, List.length_cons, List.length_append] at lengths
    omega

variable {inductions : ℤ → Option String}

/-- One level of wrapping is canonical when the levels below are. -/
theorem wrapSpans_spec {inner : List (Operation Expr) → List ℤ → ℕ → List (Entry Expr) × ℕ}
    {outer : List ℤ} {size counter : ℕ} {operations : List (Operation Expr)}
    (enough : operations.length ≤ size)
    (canonical : ∀ span key counter, span ⊆ operations → key.length = outer.length + 1 →
      Canonical key (inner span key counter).1 ∧ RoseTree.leaves (inner span key counter).1 = span) :
    Canonical outer (wrapSpans inductions inner outer size operations counter).1 ∧
      RoseTree.leaves (wrapSpans inductions inner outer size operations counter).1 = operations := by
  induction size generalizing operations counter with
  | zero =>
      rw [List.length_eq_zero_iff.mp (Nat.le_zero.mp enough)]
      exact ⟨.nil, rfl⟩
  | succ size inductionHypothesis =>
      cases operations with
      | nil => exact ⟨.nil, rfl⟩
      | cons operation rest =>
          rw [wrapSpans]
          split
          next stays =>
            obtain ⟨tail, tailLeaves⟩ := @inductionHypothesis counter rest
              (Nat.le_of_succ_le_succ enough)
              fun span key counter subset => canonical span key counter
                (List.subset_cons_of_subset _ subset)
            refine ⟨.leaf ?_ tail, congrArg (operation :: ·) tailLeaves⟩
            rintro ⟨deep, inside⟩
            rcases stays with shallow | differs
            · omega
            · exact differs (List.prefix_iff_eq_take.mp inside).symm
          next enters =>
            rw [not_or, not_le, not_not] at enters
            obtain ⟨deep, inside⟩ := enters
            set key := (groupPath operation).take (outer.length + 1) with isKey
            have level : key.length = outer.length + 1 := by
              rw [isKey, List.length_take, min_eq_left deep]
            have isMember : memberOf key operation := memberOf_iff.mpr (List.take_prefix _ _)
            have outerInside : outer <+: key := by
              rw [List.prefix_iff_eq_take, isKey, List.take_take, min_eq_left (Nat.le_succ _)]
              exact inside.symm
            have split : ((operation :: rest).rdropWhile fun other => ¬ memberOf key other) ++
                ((operation :: rest).rtakeWhile fun other => ¬ memberOf key other) =
                  operation :: rest := List.rdropWhile_append_rtakeWhile
            obtain ⟨spans, outside, shorter⟩ := @span_spec _ _ _ rest isMember
            set span := (operation :: rest).rdropWhile fun other => ¬ memberOf key other
            set after := (operation :: rest).rtakeWhile fun other => ¬ memberOf key other
            obtain ⟨inBody, bodyLeaves⟩ := canonical span key (counter + 1)
              (split ▸ List.subset_append_left _ _) level
            obtain ⟨inAfter, afterLeaves⟩ :=
              @inductionHypothesis (inner span key (counter + 1)).2 after
                (le_trans shorter (Nat.le_of_succ_le_succ enough))
                fun span' key' counter' subset => canonical span' key' counter'
                  (List.Subset.trans subset (split ▸ List.subset_append_right _ _))
            constructor
            · refine .node level outerInside ?_ ?_ inBody inAfter
              · change Spans key (RoseTree.leaves (inner span key (counter + 1)).1)
                rwa [bodyLeaves]
              · change ∀ other ∈ RoseTree.leaves (wrapSpans inductions inner outer size after
                  (inner span key (counter + 1)).2).1, _
                rwa [afterLeaves]
            · change RoseTree.leaves (inner span key (counter + 1)).1 ++ RoseTree.leaves _ = _
              rw [bodyLeaves, afterLeaves, split]

theorem wrap_spec {levels counter : ℕ} {outer : List ℤ} {operations : List (Operation Expr)}
    (enough : ∀ operation ∈ operations, (groupPath operation).length ≤ outer.length + levels) :
    Canonical outer (wrap inductions levels operations outer counter).1 ∧
      RoseTree.leaves (wrap inductions levels operations outer counter).1 = operations := by
  induction levels generalizing operations outer counter with
  | zero =>
      refine ⟨?_, RoseTree.leaves_map_leaf _⟩
      change Canonical outer (operations.map .leaf)
      induction operations with
      | nil => exact .nil
      | cons operation rest inductionHypothesis =>
          refine .leaf ?_ (inductionHypothesis fun other inside =>
            enough other (List.mem_cons_of_mem _ inside))
          rintro ⟨deep, -⟩
          have bound := enough operation List.mem_cons_self
          omega
  | succ levels inductionHypothesis =>
      apply wrapSpans_spec (le_refl _)
      intro span key counter subset level
      apply inductionHypothesis
      intro operation inside
      have bound := enough operation (subset inside)
      omega

theorem length_le_deepest {operations : List (Operation Expr)} {operation : Operation Expr}
    (inside : operation ∈ operations) : (groupPath operation).length ≤ deepest operations := by
  unfold deepest
  apply le_foldr_max
  exact List.mem_map_of_mem inside

/-- `collapse` builds the nesting of the flat list. -/
theorem collapse_spec (operations : List (Operation Expr)) :
    Canonical [] (collapse inductions operations) ∧
      expand (collapse inductions operations) = operations := by
  unfold collapse
  split
  next =>
    apply wrap_spec
    intro operation inside
    rw [List.length_nil, Nat.zero_add]
    exact length_le_deepest inside
  next noLoops =>
    have flat : ∀ operation ∈ operations,
        (groupPath operation).length ≤ ([] : List ℤ).length + 0 := by
      intro operation inside
      rw [Bool.not_eq_true, List.any_eq_false] at noLoops
      have isEmpty := noLoops operation inside
      simp only [decide_eq_true_eq, ne_eq, not_not] at isEmpty
      rw [isEmpty]
      exact le_refl _
    exact @wrap_spec _ inductions 0 0 [] operations flat

end TorchSpyre.LoopNode
