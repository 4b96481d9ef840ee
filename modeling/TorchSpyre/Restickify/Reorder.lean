import Mathlib
import TorchSpyre.Restickify.Costs

/-!
# Moving any-input nodes

An any-input node moves to just before its first consumer, so that the beam need not carry its
layout. The result is a permutation, and producers still come before their readers.
-/

namespace TorchSpyre.Restickify

variable {Layout : Type} (operations : List (Operation Layout))

/-- The first later operation whose edge costs read a name. -/
def firstConsumerPos (position : ℕ) (name : String) : Option ℕ :=
  (List.range operations.length).find? fun other =>
    position < other && operations[other]?.any fun operation => name ∈ operation.deps

/-- Where an operation moves to: before its first consumer, unless it is there already. -/
def insertBefore (position : ℕ) : Option ℕ :=
  (operations[position]?.filter Operation.isAnyIn).bind fun operation =>
    (firstConsumerPos operations position operation.name).filter (position + 1 < ·)

/-- The positions of the operations that move. -/
def toMove : List ℕ :=
  (List.range operations.length).filter fun position => (insertBefore operations position).isSome

/-- The old positions, in their new order. -/
def newOrder : List ℕ :=
  (List.range operations.length).flatMap fun position =>
    if position ∈ toMove operations then []
    else (toMove operations).filter (fun moved => insertBefore operations moved = some position) ++
      [position]

def reorderAnyInNodes : List (Operation Layout) :=
  if toMove operations = [] then operations
  else (newOrder operations).filterMap (operations[·]?)

variable {operations}

theorem insertBefore_eq_some {position target : ℕ}
    (moves : insertBefore operations position = some target) :
    ∃ operation consumer, operations[position]? = some operation ∧ operation.isAnyIn = true ∧
      position < target ∧ operations[target]? = some consumer ∧ operation.name ∈ consumer.deps ∧
      ∀ other, position < other → other < target →
        ∀ between, operations[other]? = some between → operation.name ∉ between.deps := by
  obtain ⟨operation, isOperation, found⟩ := Option.bind_eq_some_iff.mp moves
  obtain ⟨here, anyIn⟩ := Option.filter_eq_some_iff.mp isOperation
  obtain ⟨isFirst, -⟩ := Option.filter_eq_some_iff.mp found
  rw [firstConsumerPos, List.find?_range_eq_some] at isFirst
  obtain ⟨reads, -, least⟩ := isFirst
  rw [Bool.and_eq_true, decide_eq_true_eq, Option.any_eq_true] at reads
  obtain ⟨later, consumer, isConsumer, isDep⟩ := reads
  refine ⟨operation, consumer, here, anyIn, later, isConsumer, of_decide_eq_true isDep, ?_⟩
  intro other after before between isBetween reads
  have notReads := least other before
  simp [isBetween, after, reads] at notReads

theorem mem_toMove {position : ℕ} :
    position ∈ toMove operations ↔ ∃ target, insertBefore operations position = some target := by
  rw [toMove, List.mem_filter, List.mem_range, Option.isSome_iff_exists]
  constructor
  · exact And.right
  · rintro ⟨target, moves⟩
    obtain ⟨operation, -, here, -⟩ := insertBefore_eq_some moves
    exact ⟨(List.getElem?_eq_some_iff.mp here).1, target, moves⟩

/-- An operation that reads something stays, so nothing moves before one that moves. -/
theorem not_mem_toMove {position : ℕ} {operation : Operation Layout}
    (here : operations[position]? = some operation) {name : String}
    (reads : name ∈ operation.deps) : position ∉ toMove operations := by
  intro moved
  obtain ⟨target, moves⟩ := mem_toMove.1 moved
  obtain ⟨other, -, isOther, anyIn, -⟩ := insertBefore_eq_some moves
  obtain rfl : operation = other := Option.some.inj (here.symm.trans isOther)
  rw [Operation.deps_of_isAnyIn anyIn] at reads
  cases reads

/-! ## A permutation -/

/-- The block of positions that end up at one of the positions that stay. -/
def block (operations : List (Operation Layout)) (position : ℕ) : List ℕ :=
  if position ∈ toMove operations then []
  else (toMove operations).filter (fun moved => insertBefore operations moved = some position) ++
    [position]

theorem newOrder_eq : newOrder operations = (List.range operations.length).flatMap (block operations) :=
  rfl

theorem mem_block {position other : ℕ} :
    other ∈ block operations position ↔ position ∉ toMove operations ∧
      (insertBefore operations other = some position ∨ other = position) := by
  unfold block
  split
  next moved => simp [moved]
  next stays =>
    rw [List.mem_append, List.mem_filter, List.mem_singleton, decide_eq_true_eq]
    constructor
    · rintro (⟨-, moves⟩ | here)
      · exact ⟨stays, .inl moves⟩
      · exact ⟨stays, .inr here⟩
    · rintro ⟨-, moves | here⟩
      · exact .inl ⟨mem_toMove.2 ⟨position, moves⟩, moves⟩
      · exact .inr here

theorem nodup_block (position : ℕ) : (block operations position).Nodup := by
  unfold block
  split
  next => exact List.nodup_nil
  next stays =>
    rw [List.nodup_append]
    refine ⟨(List.nodup_range.filter _).filter _, List.nodup_singleton _, ?_⟩
    intro moved isMoved other isOther same
    obtain rfl := List.mem_singleton.mp isOther
    exact stays (same ▸ (List.mem_filter.mp isMoved).1)

theorem block_disjoint {first second other : ℕ} (inFirst : other ∈ block operations first)
    (inSecond : other ∈ block operations second) : first = second := by
  obtain ⟨firstStays, firstMoves | rfl⟩ := mem_block.1 inFirst
  · obtain ⟨secondStays, secondMoves | rfl⟩ := mem_block.1 inSecond
    · exact Option.some.inj (firstMoves.symm.trans secondMoves)
    · exact absurd (mem_toMove.2 ⟨first, firstMoves⟩) secondStays
  · obtain ⟨-, secondMoves | rfl⟩ := mem_block.1 inSecond
    · exact absurd (mem_toMove.2 ⟨second, secondMoves⟩) firstStays
    · rfl

theorem nodup_newOrder : (newOrder operations).Nodup := by
  rw [newOrder_eq, List.nodup_flatMap]
  refine ⟨fun position _ => nodup_block position, ?_⟩
  apply List.nodup_range.imp
  intro first second different other inFirst inSecond
  exact different (block_disjoint inFirst inSecond)

theorem mem_newOrder {other : ℕ} : other ∈ newOrder operations ↔ other < operations.length := by
  rw [newOrder_eq, List.mem_flatMap]
  constructor
  · rintro ⟨position, inside, isBlock⟩
    obtain ⟨-, moves | rfl⟩ := mem_block.1 isBlock
    · obtain ⟨operation, -, here, -⟩ := insertBefore_eq_some moves
      exact (List.getElem?_eq_some_iff.mp here).1
    · exact List.mem_range.mp inside
  · intro inside
    by_cases moved : other ∈ toMove operations
    · obtain ⟨target, moves⟩ := mem_toMove.1 moved
      obtain ⟨operation, consumer, -, -, -, isConsumer, reads, -⟩ := insertBefore_eq_some moves
      refine ⟨target, List.mem_range.mpr (List.getElem?_eq_some_iff.mp isConsumer).1, ?_⟩
      exact mem_block.2 ⟨not_mem_toMove isConsumer reads, .inl moves⟩
    · exact ⟨other, List.mem_range.mpr inside, mem_block.2 ⟨moved, .inr rfl⟩⟩

theorem newOrder_perm : (newOrder operations).Perm (List.range operations.length) := by
  rw [List.perm_ext_iff_of_nodup nodup_newOrder List.nodup_range]
  intro other
  rw [mem_newOrder, List.mem_range]

theorem filterMap_range (operations : List (Operation Layout)) :
    (List.range operations.length).filterMap (operations[·]?) = operations := by
  have mapped : (List.range operations.length).map (operations[·]?) = operations.map some := by
    apply List.ext_getElem
    · simp
    · intro position inRange inList
      simp
  calc (List.range operations.length).filterMap (operations[·]?)
      = ((List.range operations.length).map (operations[·]?)).filterMap id := by
        rw [List.filterMap_map]
        rfl
    _ = operations := by
        rw [mapped, List.filterMap_map]
        exact List.filterMap_some

theorem reorderAnyInNodes_perm : (reorderAnyInNodes operations).Perm operations := by
  unfold reorderAnyInNodes
  split
  next => exact List.Perm.refl _
  next =>
    have moved := List.Perm.filterMap (operations[·]?) (@newOrder_perm Layout operations)
    rwa [filterMap_range] at moved

/-! ## Producers stay before their readers -/

theorem range_split {position length : ℕ} (inside : position < length) :
    ∃ rest, List.range length = List.range position ++ position :: rest := by
  obtain ⟨more, rfl⟩ := Nat.exists_eq_add_of_lt inside
  refine ⟨(List.range more).map (position + 1 + ·), ?_⟩
  rw [show position + more + 1 = position + 1 + more by omega, List.range_add, List.range_succ,
    List.append_assoc]
  rfl

theorem newOrder_before {first second : ℕ} {operation consumer : Operation Layout}
    (isFirst : operations[first]? = some operation)
    (isSecond : operations[second]? = some consumer) (earlier : first < second)
    (reads : operation.name ∈ consumer.deps) :
    ∃ before after, newOrder operations = before ++ second :: after ∧ first ∈ before := by
  have stays := not_mem_toMove isSecond reads
  obtain ⟨rest, isRange⟩ := range_split (List.getElem?_eq_some_iff.mp isSecond).1
  have isBlock : block operations second =
      (toMove operations).filter (fun moved => insertBefore operations moved = some second) ++
        [second] := if_neg stays
  refine ⟨(List.range second).flatMap (block operations) ++ (toMove operations).filter fun moved =>
    insertBefore operations moved = some second, rest.flatMap (block operations), ?_, ?_⟩
  · rw [newOrder_eq, isRange, List.flatMap_append, List.flatMap_cons, isBlock]
    simp only [List.append_assoc, List.singleton_append]
  · cases moves : insertBefore operations first with
    | none =>
        apply List.mem_append_left
        refine List.mem_flatMap.mpr ⟨first, List.mem_range.mpr earlier, ?_⟩
        refine mem_block.2 ⟨fun moved => ?_, .inr rfl⟩
        obtain ⟨target, isTarget⟩ := mem_toMove.1 moved
        rw [moves] at isTarget
        cases isTarget
    | some target =>
        obtain ⟨mover, firstReader, isMover, -, -, isReader, firstReads, none⟩ :=
          insertBefore_eq_some moves
        obtain rfl : operation = mover := Option.some.inj (isFirst.symm.trans isMover)
        have atMost : target ≤ second := by
          by_contra after
          exact none second earlier (not_le.mp after) consumer isSecond reads
        rcases atMost.lt_or_eq with before | rfl
        · apply List.mem_append_left
          refine List.mem_flatMap.mpr ⟨target, List.mem_range.mpr before, ?_⟩
          exact mem_block.2 ⟨not_mem_toMove isReader firstReads, .inl moves⟩
        · apply List.mem_append_right
          exact List.mem_filter.mpr ⟨mem_toMove.2 ⟨target, moves⟩, by simpa using moves⟩

/-- Every layout an operation's edge costs read is a graph input's or an earlier operation's. -/
def Ordered (inputs : List String) (operations : List (Operation Layout)) : Prop :=
  ∀ before operation after, operations = before ++ operation :: after →
    ∀ name ∈ operation.deps, name ∈ inputs ∨ ∃ producer ∈ laidOperations before, producer.name = name

theorem ordered_reorderAnyInNodes {inputs : List String} (ordered : Ordered inputs operations) :
    Ordered inputs (reorderAnyInNodes operations) := by
  unfold reorderAnyInNodes
  split
  next => exact ordered
  next =>
    intro newBefore consumer newAfter isSplit name reads
    obtain ⟨first, last, isOrder, rfl, isLast⟩ := List.filterMap_eq_append_iff.mp isSplit
    obtain ⟨skipped, position, rest, rfl, none, here, -⟩ := List.filterMap_eq_cons_iff.mp isLast
    obtain ⟨inside, atPosition⟩ := List.getElem?_eq_some_iff.mp here
    have oldSplit : operations = operations.take position ++ consumer ::
        operations.drop (position + 1) := by
      rw [← atPosition, List.cons_getElem_drop_succ, List.take_append_drop]
    rcases ordered _ _ _ oldSplit name reads with isInput | ⟨producer, isProducer, rfl⟩
    · exact .inl isInput
    · obtain ⟨operation, isTaken, isLaid⟩ := List.mem_filterMap.mp isProducer
      obtain ⟨old, bound, isOld⟩ := List.mem_take_iff_getElem.mp isTaken
      have atOld : operations[old]? = some operation := by
        rw [← isOld]
        exact List.getElem?_eq_getElem _
      have named : producer.name = operation.name := by
        cases operation with
        | plain name => cases isLaid
        | laid laid =>
            cases isLaid
            rfl
      obtain ⟨before, after, otherSplit, isBefore⟩ := newOrder_before atOld here
        (lt_of_lt_of_le bound (min_le_left _ _)) (named ▸ reads)
      rw [← List.append_assoc] at isOrder
      have distinct : (first ++ skipped ++ position :: rest).Nodup := isOrder ▸ nodup_newOrder
      rw [List.nodup_middle, List.nodup_cons, List.mem_append, not_or] at distinct
      have sameBefore : first ++ skipped = before :=
        ((List.append_cons_inj_of_notMem distinct.1.1 distinct.1.2).mp
          (isOrder.symm.trans otherSplit)).1
      have isSkipped : old ∉ skipped := by
        intro isSkipped
        have nothing := none old isSkipped
        rw [atOld] at nothing
        cases nothing
      rw [← sameBefore] at isBefore
      have isFirst : old ∈ first := (List.mem_append.mp isBefore).resolve_right isSkipped
      refine .inr ⟨producer, List.mem_filterMap.mpr ⟨operation, ?_, isLaid⟩, rfl⟩
      exact List.mem_filterMap.mpr ⟨old, isFirst, atOld⟩

end TorchSpyre.Restickify
