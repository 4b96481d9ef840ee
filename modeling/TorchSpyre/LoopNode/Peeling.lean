import TorchSpyre.LoopNode.Nesting
import TorchSpyre.LoopNode.View

/-!
# What peeling settles

Peeling moves an operation at the edge of a body out of one node only.  It gives the
nesting of the flat list exactly when one level is enough everywhere and every loop is
inside its node.
-/

namespace TorchSpyre.LoopNode

open Lib

variable {Expr : Type}

/-! ## The parts of a body -/

section Parts

theorem eq_map_leaf_of_not_belongs {key : List ℤ} {entries : List (Entry Expr)}
    (outside : ∀ entry ∈ entries, ¬ belongs key entry) :
    entries = (expand entries).map .leaf ∧
      ∀ operation ∈ expand entries, ¬ memberOf key operation := by
  induction entries with
  | nil => exact ⟨rfl, by simp [expand]⟩
  | cons entry rest inductionHypothesis =>
      obtain ⟨same, restOutside⟩ := inductionHypothesis fun other inside =>
        outside other (List.mem_cons_of_mem _ inside)
      cases entry with
      | node facts body => exact absurd rfl (outside _ List.mem_cons_self)
      | leaf operation =>
          have here : ¬ memberOf key operation := outside _ List.mem_cons_self
          refine ⟨congrArg (.leaf operation :: ·) same, fun other inside => ?_⟩
          rcases List.mem_cons.mp inside with rfl | inRest
          · exact here
          · exact restOutside other inRest

theorem lead_spec (key : List ℤ) (body : List (Entry Expr)) :
    lead key body = (expand (lead key body)).map .leaf ∧
      ∀ operation ∈ expand (lead key body), ¬ memberOf key operation := by
  apply eq_map_leaf_of_not_belongs
  intro entry inside
  simpa using List.mem_takeWhile_imp inside

theorem trail_spec (key : List ℤ) (body : List (Entry Expr)) :
    trail key body = (expand (trail key body)).map .leaf ∧
      ∀ operation ∈ expand (trail key body), ¬ memberOf key operation := by
  apply eq_map_leaf_of_not_belongs
  intro entry inside
  simpa using List.mem_rtakeWhile_imp inside

theorem lead_middle_trail (key : List ℤ) (body : List (Entry Expr)) :
    lead key body ++ (middle key body ++ trail key body) = body := by
  unfold lead middle trail
  rw [List.rdropWhile_append_rtakeWhile, List.takeWhile_append_dropWhile]

theorem expand_parts (key : List ℤ) (body : List (Entry Expr)) :
    expand (lead key body) ++ (expand (middle key body) ++ expand (trail key body)) =
      expand body := by
  conv_rhs => rw [← lead_middle_trail key body]
  simp [expand]

theorem height_middle_le (key : List ℤ) (body : List (Entry Expr)) :
    RoseTree.height (middle key body) ≤ RoseTree.height body := by
  rw [RoseTree.height_le_iff]
  intro entry inside
  apply RoseTree.heightOf_le_height
  rw [← lead_middle_trail key body]
  exact List.mem_append_right _ (List.mem_append_left _ inside)

end Parts

/-! ## Peeling keeps the flat order -/

section Equations

variable {height depth : ℕ} {facts : LoopFacts Expr} {body rest : List (Entry Expr)}

theorem peel_leaf_cons (operation : Operation Expr) :
    peel (height + 1) (.leaf operation :: rest) depth =
      .leaf operation :: peel (height + 1) rest depth := rfl

theorem peel_node_of_none (noKey : nodeKey body depth = none) :
    peel (height + 1) (.node facts body :: rest) depth =
      .node facts body :: peel (height + 1) rest depth := by
  simp [peel, noKey]

theorem peel_node_of_some {key : List ℤ} (found : nodeKey body depth = some key) :
    peel (height + 1) (.node facts body :: rest) depth =
      lead key body ++ .node facts (peel height (middle key body) (depth + 1)) ::
        (trail key body ++ peel (height + 1) rest depth) := by
  simp [peel, found]

end Equations

theorem expand_peel (height : ℕ) (entries : List (Entry Expr)) (depth : ℕ) :
    expand (peel height entries depth) = expand entries := by
  unfold expand
  induction height generalizing entries depth with
  | zero => rfl
  | succ height inductionHypothesis =>
      induction entries with
      | nil => rfl
      | cons entry rest restHypothesis =>
          cases entry with
          | leaf operation =>
              rw [peel_leaf_cons, RoseTree.leaves_leaf_cons, restHypothesis,
                RoseTree.leaves_leaf_cons]
          | node facts body =>
              rw [RoseTree.leaves_node_cons]
              cases found : nodeKey body depth with
              | none => rw [peel_node_of_none found, RoseTree.leaves_node_cons, restHypothesis]
              | some key =>
                  have parts : RoseTree.leaves (lead key body) ++ (RoseTree.leaves (middle key body) ++
                    RoseTree.leaves (trail key body)) = RoseTree.leaves body := expand_parts key body
                  rw [peel_node_of_some found, RoseTree.leaves_append, RoseTree.leaves_node_cons,
                    RoseTree.leaves_append, inductionHypothesis, restHypothesis, ← parts]
                  simp only [List.append_assoc]

/-! ## The key of a node -/

theorem nodeKey_length {body : List (Entry Expr)} {depth : ℕ} {key : List ℤ}
    (found : nodeKey body depth = some key) : key.length = depth + 1 := by
  obtain ⟨operation, -, isKey⟩ := List.exists_of_findSome?_eq_some found
  split at isKey
  next deep =>
    cases isKey
    rw [List.length_take, min_eq_left deep]
  next => cases isKey

/-- The key of a node is the loop of the first operation that stays, if that is in a loop
at this depth at all. -/
theorem nodeKey_eq_of_first {body : List (Entry Expr)} {depth : ℕ} {key other : List ℤ}
    (found : nodeKey body depth = some key) (level : other.length = depth + 1)
    {operation : Operation Expr} (isFirst : (expand (middle key body)).head? = some operation)
    (isMember : memberOf other operation) : other = key := by
  unfold nodeKey at found
  rw [← expand_parts key body, List.findSome?_append] at found
  have noneInLead : (expand (lead key body)).findSome? (fun operation =>
      if depth < (groupPath operation).length then some ((groupPath operation).take (depth + 1))
      else none) = none := by
    rw [Option.eq_none_iff_forall_ne_some]
    intro early isEarly
    rw [isEarly, Option.some_or, Option.some_inj] at found
    subst found
    obtain ⟨popped, inLead, isKey⟩ := List.exists_of_findSome?_eq_some isEarly
    split at isKey
    next =>
      cases isKey
      exact (lead_spec _ body).2 popped inLead (memberOf_iff.mpr (List.take_prefix _ _))
    next => cases isKey
  obtain ⟨rest, isCons⟩ := List.head?_eq_some_iff.mp isFirst
  have deep : depth < (groupPath operation).length := by
    have long := (memberOf_iff.mp isMember).length_le
    omega
  rw [noneInLead, Option.none_or, isCons, List.cons_append, List.findSome?_cons, if_pos deep,
    Option.some_inj] at found
  rw [← found, ← level]
  exact List.prefix_iff_eq_take.mp (memberOf_iff.mp isMember)

theorem nodeKey_ne_none {body : List (Entry Expr)} {depth : ℕ} {key : List ℤ}
    (level : key.length = depth + 1) (spans : Spans key (expand body)) :
    nodeKey body depth ≠ none := by
  obtain ⟨operation, isFirst, isMember⟩ := spans.first
  obtain ⟨rest, isCons⟩ := List.head?_eq_some_iff.mp isFirst
  have deep : depth < (groupPath operation).length := by
    have long := (memberOf_iff.mp isMember).length_le
    omega
  unfold nodeKey
  rw [isCons, List.findSome?_cons, if_pos deep]
  exact Option.some_ne_none _

/-! ## Settled nestings -/

/-- Each node holds, between the operations that peeling takes from its edges, a span of
its loop, all later members of the loop among it; and the operations beside the nodes,
those taken from their edges among them, are in no loop of this level. -/
inductive Settled : List ℤ → List (Entry Expr) → Prop
  | nil {outer} : Settled outer []
  | leaf {outer operation rest} : ¬ Enters outer operation → Settled outer rest →
      Settled outer (.leaf operation :: rest)
  | node {outer key facts body rest} : nodeKey body outer.length = some key → outer <+: key →
      (∀ operation ∈ expand (lead key body) ++ expand (trail key body), ¬ Enters outer operation) →
      Spans key (expand (middle key body)) →
      (∀ operation ∈ expand rest, ¬ memberOf key operation) →
      Settled key (middle key body) → Settled outer rest → Settled outer (.node facts body :: rest)

theorem canonical_map_leaf_append_iff {Label : Type} {outer : List ℤ}
    {operations : List (Operation Expr)} {entries : List (RoseTree Label (Operation Expr))} :
    Canonical outer (operations.map .leaf ++ entries) ↔
      (∀ operation ∈ operations, ¬ Enters outer operation) ∧ Canonical outer entries := by
  induction operations with
  | nil => simp
  | cons operation rest inductionHypothesis =>
      rw [List.forall_mem_cons, and_assoc, ← inductionHypothesis]
      constructor
      · rintro (_ | ⟨stays, canonical⟩)
        exact ⟨stays, canonical⟩
      · rintro ⟨stays, canonical⟩
        exact .leaf stays canonical

/-- A peeled node is canonical exactly when the node was settled, provided this is so of
what it keeps and of what follows it. -/
theorem canonical_peeled_node_iff {outer key : List ℤ} {facts : LoopFacts Expr}
    {body rest inner after : List (Entry Expr)} (found : nodeKey body outer.length = some key)
    (innerLeaves : expand inner = expand (middle key body)) (afterLeaves : expand after = expand rest)
    (innerIff : Canonical key inner ↔ Settled key (middle key body))
    (afterIff : Canonical outer after ↔ Settled outer rest) :
    Canonical outer (lead key body ++ .node facts inner :: (trail key body ++ after)) ↔
      Settled outer (.node facts body :: rest) := by
  obtain ⟨leadLeaves, -⟩ := lead_spec key body
  obtain ⟨trailLeaves, trailOutside⟩ := trail_spec key body
  rw [leadLeaves, canonical_map_leaf_append_iff]
  constructor
  · rintro ⟨leadStays, canonical⟩
    cases canonical with
    | node level inside spans outside inBody inAfter =>
        change Spans _ (expand inner) at spans
        rw [innerLeaves] at spans
        obtain ⟨operation, isFirst, isMember⟩ := spans.first
        have sameKey := nodeKey_eq_of_first found level isFirst isMember
        subst sameKey
        rw [trailLeaves, canonical_map_leaf_append_iff] at inAfter
        refine .node found inside ?_ spans ?_ (innerIff.mp inBody) (afterIff.mp inAfter.2)
        · intro popped isPopped
          rcases List.mem_append.mp isPopped with inLead | inTrail
          · exact leadStays popped inLead
          · exact inAfter.1 popped inTrail
        · rw [RoseTree.leaves_append] at outside
          intro other inRest
          rw [← afterLeaves] at inRest
          exact outside other (List.mem_append_right _ inRest)
  · intro settled
    cases settled with
    | node found' inside popped spans outside inBody inRest =>
        cases found.symm.trans found'
        refine ⟨fun operation inLead => popped operation (List.mem_append_left _ inLead), ?_⟩
        rw [← innerLeaves] at spans
        refine .node (nodeKey_length found) inside spans ?_ (innerIff.mpr inBody) ?_
        · intro operation isLater
          rw [RoseTree.leaves_append] at isLater
          rcases List.mem_append.mp isLater with inTrail | inAfter
          · exact trailOutside operation inTrail
          · exact outside operation (afterLeaves ▸ inAfter)
        · rw [trailLeaves, canonical_map_leaf_append_iff]
          exact ⟨fun operation inTrail => popped operation (List.mem_append_right _ inTrail),
            afterIff.mpr inRest⟩

/-- Peeling gives a canonical nesting exactly from a settled one. -/
theorem canonical_peel_iff {height : ℕ} {outer : List ℤ} {entries : List (Entry Expr)}
    (enough : RoseTree.height entries ≤ height) :
    Canonical outer (peel height entries outer.length) ↔ Settled outer entries := by
  induction height generalizing outer entries with
  | zero =>
      change Canonical outer entries ↔ _
      induction entries with
      | nil => exact ⟨fun _ => .nil, fun _ => .nil⟩
      | cons entry rest restHypothesis =>
          have small := RoseTree.height_le_iff.mp enough
          have restSmall : RoseTree.height rest ≤ 0 := RoseTree.height_le_iff.mpr
            fun other inside => small other (List.mem_cons_of_mem _ inside)
          cases entry with
          | node facts body => cases small _ List.mem_cons_self
          | leaf operation =>
              constructor
              · rintro (_ | ⟨stays, canonical⟩)
                exact .leaf stays ((restHypothesis restSmall).mp canonical)
              · rintro (_ | ⟨stays, settled⟩)
                exact .leaf stays ((restHypothesis restSmall).mpr settled)
  | succ height inductionHypothesis =>
      induction entries with
      | nil => exact ⟨fun _ => .nil, fun _ => .nil⟩
      | cons entry rest restHypothesis =>
          have small := RoseTree.height_le_iff.mp enough
          have restIff := restHypothesis (RoseTree.height_le_iff.mpr
            fun other inside => small other (List.mem_cons_of_mem _ inside))
          cases entry with
          | leaf operation =>
              rw [peel_leaf_cons]
              constructor
              · rintro (_ | ⟨stays, canonical⟩)
                exact .leaf stays (restIff.mp canonical)
              · rintro (_ | ⟨stays, settled⟩)
                exact .leaf stays (restIff.mpr settled)
          | node facts body =>
              have bodySmall : RoseTree.height body ≤ height :=
                Nat.le_of_succ_le_succ (small _ List.mem_cons_self)
              cases found : nodeKey body outer.length with
              | none =>
                  rw [peel_node_of_none found]
                  constructor
                  · intro canonical
                    cases canonical with
                    | node level _ spans => exact absurd found (nodeKey_ne_none level spans)
                  · intro settled
                    cases settled with
                    | node found' => cases found.symm.trans found'
              | some key =>
                  have middleIff := @inductionHypothesis key (middle key body)
                    (le_trans (height_middle_le key body) bodySmall)
                  rw [nodeKey_length found] at middleIff
                  rw [peel_node_of_some found]
                  exact canonical_peeled_node_iff found (expand_peel _ _ _) (expand_peel _ _ _)
                    middleIff restIff

/-! ## Edited nestings -/

theorem Canonical.edges {Label : Type} {outer : List ℤ}
    {entries : List (RoseTree Label (Operation Expr))} (canonical : Canonical outer entries)
    {below : ℕ} {node : Label × List (Operation Expr)}
    (isNode : node ∈ RoseTree.nodesAt below entries) :
    ∃ key : List ℤ, key.length = outer.length + below + 1 ∧ Spans key node.2 := by
  induction canonical generalizing below with
  | nil => cases below <;> cases isNode
  | leaf _ _ inductionHypothesis =>
      apply inductionHypothesis
      cases below <;> exact isNode
  | node level _ spans _ _ _ bodyHypothesis restHypothesis =>
      cases below with
      | zero =>
          rcases List.mem_append.mp isNode with isHere | isLater
          · rw [List.mem_singleton.mp isHere]
            exact ⟨_, level, spans⟩
          · exact @restHypothesis 0 isLater
      | succ below =>
          rcases List.mem_append.mp isNode with isHere | isLater
          · obtain ⟨key, keyLevel, keySpans⟩ := bodyHypothesis isHere
            exact ⟨key, by omega, keySpans⟩
          · exact @restHypothesis (below + 1) isLater

section Edited

variable [DecidableEq Expr]

/-- Peeling the edited list keeps the flat order of the edits, gives the nesting of the
flat list, and leaves no operation at an edge of a body that is not a member. -/
structure Peels (inductions : ℤ → Option String) (operations : List (Operation Expr))
    (edits : List (Edit Expr)) (edited : List (Entry Expr)) : Prop where
  order : flatEditAll operations edits = some (expand (peelNonMembers edited))
  nesting : RoseTree.nesting (peelNonMembers edited) =
    RoseTree.nesting (collapse inductions (expand edited))
  edges : ∀ below, ∀ node ∈ RoseTree.nodesAt below (peelNonMembers edited),
    ∃ key : List ℤ, key.length = below + 1 ∧ Spans key node.2

/-- After any sequence of edits, peeling gives each loop the members of the flat path
exactly when the edited nesting is settled. -/
theorem peelNonMembers_peels_iff {inductions : ℤ → Option String}
    {operations : List (Operation Expr)} {edits : List (Edit Expr)} {edited : List (Entry Expr)}
    (reached : editAll (collapse inductions operations) edits = some edited) :
    Peels inductions operations edits edited ↔ Settled [] edited := by
  have order : expand (peelNonMembers edited) = expand edited := expand_peel _ _ _
  have isCanonical : Canonical [] (peelNonMembers edited) ↔ Settled [] edited :=
    canonical_peel_iff (le_refl _)
  obtain ⟨collapsed, collapsedLeaves⟩ := @collapse_spec _ inductions (expand edited)
  rw [← isCanonical]
  constructor
  · intro peels
    rw [← canonical_nesting_iff, peels.nesting, canonical_nesting_iff]
    exact collapsed
  · intro canonical
    constructor
    case order =>
      have flat := editAll_expand (collapse inductions operations) edits
      rw [reached, (collapse_spec operations).2] at flat
      rw [← flat, order]
      rfl
    case nesting => exact canonical.unique collapsed (order.trans collapsedLeaves.symm)
    case edges =>
      intro below node isNode
      obtain ⟨key, level, spans⟩ := canonical.edges isNode
      rw [List.length_nil, Nat.zero_add] at level
      exact ⟨key, level, spans⟩

end Edited

section Cases

/-- An operation in loops of four trips each. -/
def inLoops (name : String) (path : List ℤ) : Operation ℕ :=
  { name, isExtern := false, levels := path.map fun group => ⟨group, 4⟩, carry := none }

/-- A member of the outer loop inserted at the head of the inner one moves to where it
belongs. -/
theorem insert_outer_member_peels :
    ∃ edited, editAll (collapse (fun _ => none)
        [inLoops "b" [0], inLoops "c" [0, 0], inLoops "d" [0, 0]])
        [.insert 1 (inLoops "x" [0])] = some edited ∧
      Peels (fun _ => none) [inLoops "b" [0], inLoops "c" [0, 0], inLoops "d" [0, 0]]
        [.insert 1 (inLoops "x" [0])] edited := by
  refine ⟨[.node ⟨0, none, some 4, []⟩ [.leaf (inLoops "b" [0]),
    .node ⟨1, none, some 4, []⟩ [.leaf (inLoops "x" [0]), .leaf (inLoops "c" [0, 0]),
      .leaf (inLoops "d" [0, 0])]]], rfl, (peelNonMembers_peels_iff rfl).mpr ?_⟩
  have inner : Settled [0] [.leaf (inLoops "b" [0]), .node ⟨1, none, some 4, []⟩
      [.leaf (inLoops "x" [0]), .leaf (inLoops "c" [0, 0]), .leaf (inLoops "d" [0, 0])]] := by
    refine .leaf (by unfold Enters; decide) ?_
    refine @Settled.node _ [0] [0, 0] _ _ _ rfl (by decide) (by unfold Enters; decide)
      ⟨⟨inLoops "c" [0, 0], rfl, rfl⟩, ⟨inLoops "d" [0, 0], rfl, rfl⟩⟩ (by decide) ?_ .nil
    exact .leaf (by unfold Enters; decide) (.leaf (by unfold Enters; decide) .nil)
  exact @Settled.node _ [] [0] _ _ _ rfl List.nil_prefix (by unfold Enters; decide)
    ⟨⟨inLoops "b" [0], rfl, rfl⟩, ⟨inLoops "d" [0, 0], rfl, rfl⟩⟩ (by decide) inner .nil

/-- The two operations of a nested loop, with an operation of no loop inserted before
them, which lands in the inner body. -/
theorem insert_before_nested_not_peeled :
    ∃ edited, editAll (collapse (fun _ => none) [inLoops "c" [0, 0], inLoops "d" [0, 0]])
        [.insert 0 (inLoops "y" [])] = some edited ∧
      (∀ below, ∀ node ∈ RoseTree.nodesAt below edited,
        ∃ operation ∈ node.2, below < (groupPath operation).length) ∧
      ¬ Peels (fun _ => none) [inLoops "c" [0, 0], inLoops "d" [0, 0]]
        [.insert 0 (inLoops "y" [])] edited := by
  refine ⟨[.node ⟨0, none, some 4, []⟩ [.node ⟨1, none, some 4, []⟩ [.leaf (inLoops "y" []),
    .leaf (inLoops "c" [0, 0]), .leaf (inLoops "d" [0, 0])]]], rfl, ?_, ?_⟩
  · intro below node isNode
    match below, isNode with
    | 0, isNode =>
        rw [List.mem_singleton.mp isNode]
        decide
    | 1, isNode =>
        rw [List.mem_singleton.mp isNode]
        decide
    | below + 2, isNode =>
        cases below with
        | zero => cases isNode
        | succ below => cases isNode
  · intro peels
    obtain ⟨key, level, ⟨operation, isFirst, isMember⟩, -⟩ :=
      peels.edges 0 (⟨0, none, some 4, []⟩, [inLoops "y" [], inLoops "c" [0, 0], inLoops "d" [0, 0]])
        (List.mem_singleton.mpr rfl)
    cases isFirst
    rw [memberOf_iff] at isMember
    have short := isMember.length_le
    rw [level] at short
    cases short

end Cases

end TorchSpyre.LoopNode
