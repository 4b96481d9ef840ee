import TorchSpyre.DedupConstants.Pass

/-!
# What the merging loop leaves

The operation list after the duplicates are merged: the repeated constants are gone and
every other operation carries one name swap for each repeated constant it reads.
-/

namespace TorchSpyre.DedupConstants

open Lib

/-- An operation list as the pass gets it: in topological order, with distinct names, whose
constants are read by computed buffers only. -/
structure WellFormed (graph : Graph) : Prop where
  ordered : StraightLine.Ordered Operation.name Operation.reads (· ∈ graph.graphInputs)
    graph.operations
  distinct : (graph.operations.map Operation.name).Nodup
  fresh : ∀ operation ∈ graph.operations, operation.name ∉ graph.graphInputs
  outputs : ∀ name ∈ graph.outputNames,
    name ∈ graph.graphInputs ∨ name ∈ graph.operations.map Operation.name
  consumers : ∀ constant ∈ graph.operations, constant.isConstant = true →
    ∀ operation ∈ graph.operations, constant.name ∈ operation.reads →
      operation.kind = .computedBuffer

/-- The constant is not the first of its key. -/
structure Repeats (operations : List Operation) (dup first : Operation) : Prop where
  inside : dup ∈ operations
  constant : dup.isConstant = true
  found : operations.find? (fun operation => operation.key = dup.key) = some first
  later : dup ≠ first

theorem reads_of_isConstant {operation : Operation} (constant : operation.isConstant = true) :
    operation.reads = [] := by
  unfold Operation.isConstant Operation.key at constant
  unfold Operation.reads
  split
  next => rfl
  next notConstant =>
    split at constant
    next isConstant => exact absurd isConstant (notConstant _)
    next => cases constant

theorem eq_of_name_eq {operations : List Operation} (distinct : (operations.map Operation.name).Nodup)
    {first second : Operation} (firstInside : first ∈ operations) (secondInside : second ∈ operations)
    (same : first.name = second.name) : first = second :=
  List.inj_on_of_nodup_map distinct firstInside secondInside same

section Repeats

variable {operations : List Operation} {dup first : Operation}

theorem Repeats.first_mem (repeats : Repeats operations dup first) : first ∈ operations :=
  List.mem_of_find?_eq_some repeats.found

theorem Repeats.key_eq (repeats : Repeats operations dup first) : first.key = dup.key := by
  have hasKey := List.find?_some repeats.found
  simpa using hasKey

theorem Repeats.first_constant (repeats : Repeats operations dup first) :
    first.isConstant = true := by
  unfold Operation.isConstant
  rw [repeats.key_eq]
  exact repeats.constant

theorem Repeats.unique {other : Operation} (repeats : Repeats operations dup first)
    (again : Repeats operations dup other) : first = other :=
  Option.some.inj (repeats.found.symm.trans again.found)

/-- The first constant of a key repeats none. -/
theorem Repeats.not_repeats {other : Operation} (repeats : Repeats operations dup first) :
    ¬ Repeats operations first other := by
  intro again
  have found := again.found
  rw [repeats.key_eq, repeats.found] at found
  exact again.later (Option.some.inj found)

theorem mem_duplicates (distinct : (operations.map Operation.name).Nodup) :
    (dup, first) ∈ duplicates operations ↔ Repeats operations dup first := by
  have nodup : operations.Nodup := distinct.of_map
  simp only [duplicates, groups, List.flatMap_map, List.mem_flatMap, List.mem_eraseDups,
    List.mem_filterMap]
  constructor
  · rintro ⟨key, -, member⟩
    split at member
    next => cases member
    next canonical repeated isGroup =>
      obtain ⟨other, isRepeated, same⟩ := List.mem_map.mp member
      cases same
      have inGroup : dup ∈ operations.filter fun operation => operation.key = some key :=
        isGroup ▸ List.mem_cons_of_mem _ isRepeated
      have hasKey : dup.key = some key := decide_eq_true_eq.mp (List.mem_filter.mp inGroup).2
      refine ⟨(List.mem_filter.mp inGroup).1, ?_, ?_, ?_⟩
      · rw [Operation.isConstant, hasKey]
        rfl
      · rw [hasKey, ← List.head?_filter, isGroup]
        rfl
      · rintro rfl
        exact (List.nodup_cons.mp (isGroup ▸ nodup.filter _)).1 isRepeated
  · intro repeats
    obtain ⟨key, hasKey⟩ := Option.isSome_iff_exists.mp repeats.constant
    refine ⟨key, ⟨dup, repeats.inside, hasKey⟩, ?_⟩
    have head := repeats.found
    rw [hasKey, ← List.head?_filter] at head
    obtain ⟨repeated, isGroup⟩ := List.head?_eq_some_iff.mp head
    have inGroup : dup ∈ operations.filter fun operation => operation.key = some key :=
      List.mem_filter.mpr ⟨repeats.inside, decide_eq_true hasKey⟩
    rw [isGroup] at inGroup ⊢
    exact List.mem_map.mpr ⟨dup, (List.mem_cons.mp inGroup).resolve_left repeats.later, rfl⟩

end Repeats

/-! ## Swaps -/

theorem resolve_append (inner outer : List (String × String)) (name : String) :
    resolve (inner ++ outer) name = resolve outer (resolve inner name) :=
  List.foldl_append

theorem resolve_of_untouched {swaps : List (String × String)} {name : String}
    (untouched : ∀ swap ∈ swaps, swap.1 ≠ name) : resolve swaps name = name := by
  induction swaps with
  | nil => rfl
  | cons swap swaps inductionHypothesis =>
      have here : resolve (swap :: swaps) name = resolve swaps name := by
        rw [resolve, List.foldl_cons, if_neg (untouched swap List.mem_cons_self).symm]
        rfl
      rw [here]
      exact inductionHypothesis fun other later => untouched other (List.mem_cons_of_mem _ later)

theorem resolve_of_mem {swaps : List (String × String)} {name target : String}
    (listed : (name, target) ∈ swaps) (unique : ∀ swap ∈ swaps, swap.1 = name → swap.2 = target)
    (settled : ∀ swap ∈ swaps, swap.1 ≠ target) : resolve swaps name = target := by
  induction swaps with
  | nil => cases listed
  | cons swap swaps inductionHypothesis =>
      have laterSettled : ∀ other ∈ swaps, other.1 ≠ target := fun other later =>
        settled other (List.mem_cons_of_mem _ later)
      rw [resolve, List.foldl_cons]
      split
      next here =>
        rw [unique swap List.mem_cons_self here.symm]
        exact resolve_of_untouched laterSettled
      next notHere =>
        refine inductionHypothesis ?_ (fun other later =>
          unique other (List.mem_cons_of_mem _ later)) laterSettled
        refine (List.mem_cons.mp listed).resolve_left ?_
        rintro rfl
        exact notHere rfl

/-! ## The loop -/

/-- The swaps an operation gets for the merged duplicates. -/
def newSwaps (outputNames : List String) (merged : List (Operation × Operation))
    (operation : Operation) : List (String × String) :=
  merged.filterMap fun pair =>
    if pair.1.name ∉ outputNames ∧ pair.1.name ∈ operation.reads then
      some (pair.1.name, pair.2.name)
    else none

def patched (outputNames : List String) (merged : List (Operation × Operation))
    (operation : Operation) : Operation :=
  { operation with swaps := operation.swaps ++ newSwaps outputNames merged operation }

/-- The operations that stay after some duplicates are merged. -/
def remaining (operations : List Operation) (merged : List (Operation × Operation)) :
    List Operation :=
  operations.filter fun operation => operation.name ∉ merged.map fun pair => pair.1.name

/-- The state of the loop after some duplicates are merged. -/
structure Merged (graph : Graph) (merged : List (Operation × Operation)) (state : Graph) : Prop where
  outputNames : state.outputNames = graph.outputNames
  graphInputs : state.graphInputs = graph.graphInputs
  operations : state.operations =
    (remaining graph.operations merged).map (patched graph.outputNames merged)

theorem newSwaps_append (outputNames : List String) (merged : List (Operation × Operation))
    (pair : Operation × Operation) (operation : Operation) :
    newSwaps outputNames (merged ++ [pair]) operation =
      newSwaps outputNames merged operation ++
        if pair.1.name ∉ outputNames ∧ pair.1.name ∈ operation.reads then
          [(pair.1.name, pair.2.name)]
        else [] := by
  rw [newSwaps, List.filterMap_append]
  congr 1
  rw [List.filterMap_cons]
  split
  next notReading =>
    split at notReading
    next => cases notReading
    next other => rw [if_neg other, List.filterMap_nil]
  next swap reading =>
    split at reading
    next here =>
      cases reading
      rw [if_pos here, List.filterMap_nil]
    next => cases reading

theorem remaining_append (operations : List Operation) (merged : List (Operation × Operation))
    (pair : Operation × Operation) :
    remaining operations (merged ++ [pair]) =
      (remaining operations merged).filter fun operation => operation.name ≠ pair.1.name := by
  rw [remaining, remaining, List.filter_filter]
  refine List.filter_congr fun operation _ => ?_
  rw [List.map_append, Bool.eq_iff_iff]
  simp [and_comm, not_or]

section Loop

variable {graph : Graph} (wellFormed : WellFormed graph)

include wellFormed in
/-- The consumers of a duplicate are operations other than the pair. -/
theorem consumers_of_repeats {dup first : Operation} (repeats : Repeats graph.operations dup first)
    {operation : Operation} (inside : operation ∈ graph.operations)
    (isRead : dup.name ∈ operation.reads) :
    operation.kind = .computedBuffer ∧ operation.name ≠ dup.name ∧ operation.name ≠ first.name := by
  have notConstant : ∀ constant ∈ graph.operations, constant.isConstant = true →
      operation.name ≠ constant.name := by
    intro constant constantInside isConstant same
    have isSame := eq_of_name_eq wellFormed.distinct inside constantInside same
    rw [isSame, reads_of_isConstant isConstant] at isRead
    cases isRead
  exact ⟨wellFormed.consumers dup repeats.inside repeats.constant operation inside isRead,
    notConstant dup repeats.inside repeats.constant,
    notConstant first repeats.first_mem repeats.first_constant⟩

include wellFormed in
theorem redirectConsumers_merged {dup first : Operation}
    (repeats : Repeats graph.operations dup first) {merged : List (Operation × Operation)}
    {state : Graph} (before : Merged graph merged state) :
    ∃ redirected, redirectConsumers state
        (reverseConsumerIndex graph.operations (duplicateNames graph) dup.name) dup first =
          .ok redirected ∧
      redirected.outputNames = graph.outputNames ∧ redirected.graphInputs = graph.graphInputs ∧
      redirected.operations = (remaining graph.operations merged).map
        (patched graph.outputNames (merged ++ [(dup, first)])) := by
  unfold redirectConsumers
  rw [before.outputNames]
  split
  next isOutput =>
    refine ⟨state, rfl, before.outputNames, before.graphInputs, ?_⟩
    rw [before.operations]
    refine List.map_congr_left fun operation _ => ?_
    rw [patched, patched, newSwaps_append, if_neg (fun both => both.1 isOutput), List.append_nil]
  next notOutput =>
    have indexed : dup.name ∈ duplicateNames graph := by
      refine List.mem_filter.mpr ⟨List.mem_map.mpr ⟨(dup, first), ?_, rfl⟩, by simpa using notOutput⟩
      exact (mem_duplicates wellFormed.distinct).mpr repeats
    have isOthers : (reverseConsumerIndex graph.operations (duplicateNames graph) dup.name).filter
        (fun operation => operation.name ≠ dup.name ∧ operation.name ≠ first.name) =
          graph.operations.filter fun operation => dup.name ∈ operation.reads := by
      rw [reverseConsumerIndex, if_pos indexed]
      refine List.filter_eq_self.mpr fun operation member => ?_
      obtain ⟨inside, isRead⟩ := List.mem_filter.mp member
      have consumer := consumers_of_repeats wellFormed repeats inside (decide_eq_true_eq.mp isRead)
      exact decide_eq_true consumer.2
    have allComputed : (graph.operations.filter fun operation => dup.name ∈ operation.reads).find?
        (fun operation => operation.kind ≠ .computedBuffer) = none := by
      refine List.find?_eq_none.mpr fun operation member => ?_
      obtain ⟨inside, isRead⟩ := List.mem_filter.mp member
      have consumer := consumers_of_repeats wellFormed repeats inside (decide_eq_true_eq.mp isRead)
      simp [consumer.1]
    rw [isOthers]
    simp only [allComputed]
    refine ⟨_, rfl, rfl, before.graphInputs, ?_⟩
    simp only [before.operations, List.map_map]
    refine List.map_congr_left fun operation member => ?_
    have inside : operation ∈ graph.operations := (List.mem_filter.mp member).1
    have named : operation.name ∈ (graph.operations.filter fun operation =>
        dup.name ∈ operation.reads).map Operation.name ↔ dup.name ∈ operation.reads := by
      constructor
      · intro listed
        obtain ⟨other, isConsumer, same⟩ := List.mem_map.mp listed
        obtain ⟨otherInside, isRead⟩ := List.mem_filter.mp isConsumer
        rw [← eq_of_name_eq wellFormed.distinct otherInside inside same]
        exact decide_eq_true_eq.mp isRead
      · exact fun isRead =>
          List.mem_map.mpr ⟨operation, List.mem_filter.mpr ⟨inside, decide_eq_true isRead⟩, rfl⟩
    have sameName : (patched graph.outputNames merged operation).name = operation.name := rfl
    rw [Function.comp_apply, sameName, patched, patched, newSwaps_append]
    by_cases isRead : dup.name ∈ operation.reads
    · rw [if_pos (named.mpr isRead), if_pos ⟨notOutput, isRead⟩, patchInnerFn, List.append_assoc]
    · rw [if_neg (fun listed => isRead (named.mp listed)), if_neg (fun both => isRead both.2),
        List.append_nil]

include wellFormed in
theorem mergeDuplicate_merged {dup first : Operation}
    (repeats : Repeats graph.operations dup first) {merged : List (Operation × Operation)}
    {state : Graph} (before : Merged graph merged state) :
    ∃ next, mergeDuplicate (reverseConsumerIndex graph.operations (duplicateNames graph)) state
        (dup, first) = .ok next ∧ Merged graph (merged ++ [(dup, first)]) next := by
  obtain ⟨redirected, succeeds, outputs, inputs, operations⟩ :=
    redirectConsumers_merged wellFormed repeats before
  refine ⟨dropConstant redirected dup first, ?_, outputs, inputs, ?_⟩
  · simp only [mergeDuplicate, succeeds]
    rfl
  · change redirected.operations.filter (fun operation => operation.name ≠ dup.name) = _
    rw [operations, List.filter_map, remaining_append]
    rfl

include wellFormed in
theorem foldlM_merged {pairs merged : List (Operation × Operation)}
    (repeats : ∀ pair ∈ pairs, Repeats graph.operations pair.1 pair.2) {state : Graph}
    (before : Merged graph merged state) :
    ∃ final, pairs.foldlM
        (mergeDuplicate (reverseConsumerIndex graph.operations (duplicateNames graph))) state =
          .ok final ∧ Merged graph (merged ++ pairs) final := by
  induction pairs generalizing merged state with
  | nil => exact ⟨state, rfl, (List.append_nil merged).symm ▸ before⟩
  | cons pair pairs inductionHypothesis =>
      obtain ⟨next, stepped, after⟩ :=
        mergeDuplicate_merged wellFormed (repeats pair List.mem_cons_self) before
      obtain ⟨final, succeeds, merged'⟩ := inductionHypothesis
        (fun other later => repeats other (List.mem_cons_of_mem _ later)) after
      refine ⟨final, ?_, ?_⟩
      · rw [List.foldlM_cons, stepped]
        exact succeeds
      · rwa [List.append_assoc, List.singleton_append] at merged'

include wellFormed in
/-- What the pass returns. -/
theorem dedupAndPromoteConstants_eq :
    ∃ result, dedupAndPromoteConstants graph = .ok result ∧
      result.outputNames = graph.outputNames ∧ result.graphInputs = graph.graphInputs ∧
      result.operations = frontLoad ((remaining graph.operations (duplicates graph.operations)).map
        (patched graph.outputNames (duplicates graph.operations))) := by
  have start : Merged graph [] graph := by
    have unpatched : patched graph.outputNames [] = id := by
      funext operation
      simp [patched, newSwaps]
    refine ⟨rfl, rfl, ?_⟩
    simp [remaining, unpatched]
  obtain ⟨final, succeeds, merged⟩ := foldlM_merged wellFormed
    (fun pair member => (mem_duplicates wellFormed.distinct).mp member) start
  refine ⟨{ final with operations := frontLoad final.operations }, ?_, merged.outputNames,
    merged.graphInputs, ?_⟩
  · simp only [dedupAndPromoteConstants, succeeds]
    rfl
  · rw [merged.operations, List.nil_append]

end Loop

end TorchSpyre.DedupConstants
