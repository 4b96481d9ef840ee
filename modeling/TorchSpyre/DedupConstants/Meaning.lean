import TorchSpyre.DedupConstants.Merging

/-!
# When deduplication keeps the meaning

The operation list before and after the pass solve the same equations up to the names of
repeated constants, as long as no repeated constant is an output.
-/

namespace TorchSpyre.DedupConstants

open Lib

/-! ## Evaluating an operation list -/

/-- What a constant puts into its buffer: the number, and the sign of a floating zero. -/
structure Quantity where
  magnitude : Magnitude
  negativeZero : Bool
  deriving DecidableEq

/-- One `nan` is as good as another once it is in a buffer. -/
def Magnitude.stored : Magnitude → Magnitude
  | .nan _ => .nan 0
  | magnitude => magnitude

def quantity (constant : Constant) : Quantity where
  magnitude := constant.value.magnitude.stored
  negativeZero := constant.dtype.isFloatingPoint && constant.value.isNegativeZero

section Evaluation

variable {Value : Type} (constant : Quantity → DType → Device → Value)
  (compute : String → List Value → Value)

def valueOf (operation : Operation) (values : List Value) : Value :=
  match operation.kind with
  | .spyreConstantFallback literal => constant (quantity literal) literal.dtype literal.device
  | _ => compute operation.operationName values

def evaluate (operations : List Operation) (inputs : String → Value) : String → Value :=
  StraightLine.evaluate Operation.name Operation.reads (valueOf constant compute) operations inputs

end Evaluation

/-- Every read and every output is an input or is produced, a read before its reader. -/
structure Produced (graph : Graph) : Prop where
  ordered : StraightLine.Ordered Operation.name Operation.reads (· ∈ graph.graphInputs)
    graph.operations
  outputs : ∀ name ∈ graph.outputNames,
    name ∈ graph.graphInputs ∨ name ∈ graph.operations.map Operation.name

/-- The outputs have the same values, whatever the operations compute. -/
def SameOutputs (graph result : Graph) : Prop :=
  ∀ (Value : Type) (constant : Quantity → DType → Device → Value)
    (compute : String → List Value → Value) (inputs : String → Value),
    ∀ name ∈ graph.outputNames,
      evaluate constant compute result.operations inputs name =
        evaluate constant compute graph.operations inputs name

/-- An output depends on the buffer. -/
inductive Needed (graph : Graph) : String → Prop
  | output {name : String} : name ∈ graph.outputNames → Needed graph name
  | read {operation : Operation} {name : String} : operation ∈ graph.operations →
      Needed graph operation.name → name ∈ operation.reads → Needed graph name

/-- The constant is a negative zero of a floating-point type. -/
def holdsNegativeZero (operation : Operation) : Bool :=
  match operation.kind with
  | .spyreConstantFallback literal => (quantity literal).negativeZero
  | _ => false

/-! ## The name that stands for a buffer -/

/-- The first constant's name for a repeated constant, any other name itself. -/
def canonicalName (operations : List Operation) (name : String) : String :=
  ((duplicates operations).find? fun pair => pair.1.name = name).elim name fun pair => pair.2.name

section Names

variable {operations : List Operation} (distinct : (operations.map Operation.name).Nodup)

include distinct in
theorem canonicalName_of_repeats {dup first : Operation} (repeats : Repeats operations dup first) :
    canonicalName operations dup.name = first.name := by
  unfold canonicalName
  cases found : (duplicates operations).find? fun pair => pair.1.name = dup.name with
  | none =>
      have listed := (mem_duplicates distinct).mpr repeats
      simpa using List.find?_eq_none.mp found (dup, first) listed
  | some pair =>
      have listed := (mem_duplicates distinct).mp (List.mem_of_find?_eq_some found)
      have sameName : pair.1.name = dup.name := by simpa using List.find?_some found
      have sameDup := eq_of_name_eq distinct listed.inside repeats.inside sameName
      rw [sameDup] at listed
      exact congrArg Operation.name (listed.unique repeats)

include distinct in
theorem canonicalName_of_single {name : String}
    (single : ∀ dup first, Repeats operations dup first → dup.name ≠ name) :
    canonicalName operations name = name := by
  have notFound : ((duplicates operations).find? fun pair => pair.1.name = name) = none := by
    refine List.find?_eq_none.mpr fun pair listed => ?_
    simpa using single pair.1 pair.2 ((mem_duplicates distinct).mp listed)
  rw [canonicalName, notFound]
  rfl

include distinct in
theorem canonicalName_of_not_constant {operation : Operation} (inside : operation ∈ operations)
    (notConstant : operation.isConstant = false) :
    canonicalName operations operation.name = operation.name := by
  refine canonicalName_of_single distinct fun dup first repeats same => ?_
  rw [← eq_of_name_eq distinct repeats.inside inside same, repeats.constant] at notConstant
  cases notConstant

include distinct in
/-- A constant has the first constant of its key as its canonical one. -/
theorem exists_canonical {operation : Operation} (inside : operation ∈ operations)
    (constant : operation.isConstant = true) :
    ∃ first, canonicalName operations operation.name = first.name ∧ first ∈ operations ∧
      first.key = operation.key ∧ (∀ other, ¬ Repeats operations first other) ∧
      (first = operation ∨ Repeats operations operation first) := by
  cases found : operations.find? fun other => other.key = operation.key with
  | none => simpa using List.find?_eq_none.mp found operation inside
  | some first =>
      by_cases same : operation = first
      · subst same
        have single : ∀ other, ¬ Repeats operations operation other := fun other repeats =>
          repeats.later (Option.some.inj (found.symm.trans repeats.found))
        refine ⟨operation, ?_, inside, rfl, single, .inl rfl⟩
        refine canonicalName_of_single distinct fun dup other repeats sameName => ?_
        rw [eq_of_name_eq distinct repeats.inside inside sameName] at repeats
        exact single other repeats
      · have repeats : Repeats operations operation first := ⟨inside, constant, found, same⟩
        exact ⟨first, canonicalName_of_repeats distinct repeats, repeats.first_mem, repeats.key_eq,
          fun _ => repeats.not_repeats, .inr repeats⟩

end Names

/-! ## The operations that stay -/

section Result

variable {graph : Graph} (wellFormed : WellFormed graph)
  (hidden : ∀ dup first, Repeats graph.operations dup first → dup.name ∉ graph.outputNames)

/-- The operation as the pass leaves it. -/
def patchedIn (graph : Graph) (operation : Operation) : Operation :=
  patched graph.outputNames (duplicates graph.operations) operation

def resultOperations (graph : Graph) : List Operation :=
  frontLoad ((remaining graph.operations (duplicates graph.operations)).map (patchedIn graph))

theorem frontLoad_perm (operations : List Operation) : (frontLoad operations).Perm operations := by
  have split := List.filter_append_perm Operation.isConstant operations
  simpa [frontLoad] using split

include wellFormed in
theorem mem_remaining {operation : Operation} :
    operation ∈ remaining graph.operations (duplicates graph.operations) ↔
      operation ∈ graph.operations ∧ ∀ other, ¬ Repeats graph.operations operation other := by
  rw [remaining, List.mem_filter, decide_eq_true_eq]
  refine and_congr_right fun inside => ?_
  constructor
  · intro notDropped other repeats
    exact notDropped (List.mem_map.mpr ⟨(operation, other),
      (mem_duplicates wellFormed.distinct).mpr repeats, rfl⟩)
  · intro single dropped
    obtain ⟨pair, listed, sameName⟩ := List.mem_map.mp dropped
    have repeats := (mem_duplicates wellFormed.distinct).mp listed
    rw [eq_of_name_eq wellFormed.distinct repeats.inside inside sameName] at repeats
    exact single pair.2 repeats

include wellFormed in
theorem patchedIn_mem_result {operation : Operation} (inside : operation ∈ graph.operations)
    (single : ∀ other, ¬ Repeats graph.operations operation other) :
    patchedIn graph operation ∈ resultOperations graph :=
  (frontLoad_perm _).mem_iff.mpr
    (List.mem_map_of_mem ((mem_remaining wellFormed).mpr ⟨inside, single⟩))

include wellFormed in
theorem mem_result {operation : Operation} (inside : operation ∈ resultOperations graph) :
    ∃ original ∈ graph.operations, (∀ other, ¬ Repeats graph.operations original other) ∧
      patchedIn graph original = operation := by
  obtain ⟨original, isRemaining, same⟩ := List.mem_map.mp ((frontLoad_perm _).mem_iff.mp inside)
  obtain ⟨isOriginal, single⟩ := (mem_remaining wellFormed).mp isRemaining
  exact ⟨original, isOriginal, single, same⟩

include wellFormed in
theorem result_distinct : ((resultOperations graph).map Operation.name).Nodup := by
  have sameNames : ((remaining graph.operations (duplicates graph.operations)).map
      (patchedIn graph)).map Operation.name =
        (remaining graph.operations (duplicates graph.operations)).map Operation.name := by
    rw [List.map_map]
    rfl
  refine ((frontLoad_perm _).map Operation.name).nodup_iff.mpr ?_
  rw [sameNames]
  exact wellFormed.distinct.sublist (List.filter_sublist.map _)

include wellFormed hidden in
/-- A patched operation reads the canonical names of what it read. -/
theorem reads_patchedIn {operation : Operation} :
    (patchedIn graph operation).reads = operation.reads.map (canonicalName graph.operations) := by
  have resolved : ∀ name ∈ operation.reads,
      resolve (newSwaps graph.outputNames (duplicates graph.operations) operation) name =
        canonicalName graph.operations name := by
    intro name isRead
    have ofSwap : ∀ swap ∈ newSwaps graph.outputNames (duplicates graph.operations) operation,
        ∃ dup first, Repeats graph.operations dup first ∧ swap = (dup.name, first.name) := by
      intro swap listed
      obtain ⟨pair, isPair, isSwap⟩ := List.mem_filterMap.mp listed
      split at isSwap
      next =>
        exact ⟨pair.1, pair.2, (mem_duplicates wellFormed.distinct).mp isPair,
          (Option.some.inj isSwap).symm⟩
      next => cases isSwap
    by_cases isDuplicate : ∃ dup first, Repeats graph.operations dup first ∧ dup.name = name
    · obtain ⟨dup, first, repeats, rfl⟩ := isDuplicate
      rw [canonicalName_of_repeats wellFormed.distinct repeats]
      refine resolve_of_mem (List.mem_filterMap.mpr ⟨(dup, first),
        (mem_duplicates wellFormed.distinct).mpr repeats, ?_⟩) ?_ ?_
      · exact if_pos ⟨hidden dup first repeats, isRead⟩
      · intro swap listed sameName
        obtain ⟨other, target, again, rfl⟩ := ofSwap swap listed
        have same := eq_of_name_eq wellFormed.distinct again.inside repeats.inside sameName
        rw [same] at again
        rw [again.unique repeats]
      · intro swap listed sameName
        obtain ⟨other, target, again, rfl⟩ := ofSwap swap listed
        have same := eq_of_name_eq wellFormed.distinct again.inside repeats.first_mem sameName
        rw [same] at again
        exact repeats.not_repeats again
    · rw [canonicalName_of_single wellFormed.distinct fun dup first repeats sameName =>
        isDuplicate ⟨dup, first, repeats, sameName⟩]
      refine resolve_of_untouched fun swap listed sameName => ?_
      obtain ⟨dup, first, repeats, rfl⟩ := ofSwap swap listed
      exact isDuplicate ⟨dup, first, repeats, sameName⟩
  have isPatched : (patchedIn graph operation).kind = operation.kind := rfl
  have reads : operation.reads.map (canonicalName graph.operations) = operation.reads.map
      (resolve (newSwaps graph.outputNames (duplicates graph.operations) operation)) :=
    List.map_congr_left fun name isRead => (resolved name isRead).symm
  rw [reads, Operation.reads, Operation.reads, isPatched]
  split
  next => rfl
  next =>
    rw [List.map_map]
    refine List.map_congr_left fun name _ => ?_
    rw [Function.comp_apply, ← resolve_append]
    rfl

include wellFormed hidden in
/-- The names a part of the list makes available, renamed, let the operations of the rest
that are no constants run after the constants. -/
theorem ordered_rest {available provided : String → Prop} {rest : List Operation}
    (inside : rest ⊆ graph.operations)
    (ordered : StraightLine.Ordered Operation.name Operation.reads available rest)
    (renamed : ∀ name, available name → provided (canonicalName graph.operations name))
    (constants : ∀ operation ∈ graph.operations, operation.isConstant = true →
      provided (canonicalName graph.operations operation.name)) :
    StraightLine.Ordered Operation.name Operation.reads provided
      ((remaining rest (duplicates graph.operations)).map (patchedIn graph) |>.filter
        fun operation => ¬ operation.isConstant) := by
  induction rest generalizing available provided with
  | nil => trivial
  | cons operation rest inductionHypothesis =>
      have here := inside List.mem_cons_self
      have later : rest ⊆ graph.operations := fun other isLater =>
        inside (List.mem_cons_of_mem _ isLater)
      cases constant : operation.isConstant with
      | true =>
          have skipped : ((remaining (operation :: rest) (duplicates graph.operations)).map
              (patchedIn graph) |>.filter fun operation => ¬ operation.isConstant) =
                ((remaining rest (duplicates graph.operations)).map (patchedIn graph) |>.filter
                  fun operation => ¬ operation.isConstant) := by
            have stillConstant : (patchedIn graph operation).isConstant = true := constant
            rw [remaining, List.filter_cons]
            split
            next =>
              rw [List.map_cons, List.filter_cons_of_neg (by simp [stillConstant])]
              rfl
            next => rfl
          rw [skipped]
          refine inductionHypothesis later ordered.2 ?_ constants
          rintro name (before | rfl)
          · exact renamed name before
          · exact constants operation here constant
      | false =>
          have single : ∀ other, ¬ Repeats graph.operations operation other := fun other repeats =>
            absurd (repeats.constant.symm.trans constant) (by decide)
          have kept : ((remaining (operation :: rest) (duplicates graph.operations)).map
              (patchedIn graph) |>.filter fun operation => ¬ operation.isConstant) =
                patchedIn graph operation ::
                  ((remaining rest (duplicates graph.operations)).map (patchedIn graph) |>.filter
                    fun operation => ¬ operation.isConstant) := by
            have isRemaining := (mem_remaining wellFormed).mpr ⟨here, single⟩
            have notDropped := (List.mem_filter.mp isRemaining).2
            have notConstant : (patchedIn graph operation).isConstant = false := constant
            rw [remaining, List.filter_cons, if_pos notDropped, List.map_cons,
              List.filter_cons_of_pos (by simp [notConstant])]
            rfl
          rw [kept]
          refine ⟨?_, inductionHypothesis later ordered.2 ?_ fun constant inGraph isConstant =>
            .inl (constants constant inGraph isConstant)⟩
          · intro name isRead
            rw [reads_patchedIn wellFormed hidden] at isRead
            obtain ⟨original, wasRead, rfl⟩ := List.mem_map.mp isRead
            exact renamed original (ordered.1 original wasRead)
          · rintro name (before | rfl)
            · exact .inl (renamed name before)
            · exact .inr (canonicalName_of_not_constant wellFormed.distinct here constant)

include wellFormed in
theorem canonicalName_of_input {name : String} (isInput : name ∈ graph.graphInputs) :
    canonicalName graph.operations name = name :=
  canonicalName_of_single wellFormed.distinct fun dup _ repeats sameName =>
    wellFormed.fresh dup repeats.inside (sameName ▸ isInput)

include wellFormed hidden in
theorem result_ordered :
    StraightLine.Ordered Operation.name Operation.reads (· ∈ graph.graphInputs)
      (resultOperations graph) := by
  refine StraightLine.ordered_append (fun operation isConstant =>
    reads_of_isConstant (List.mem_filter.mp isConstant).2) ?_
  refine ordered_rest wellFormed hidden (List.Subset.refl _) wellFormed.ordered ?_ ?_
  · intro name isInput
    rw [canonicalName_of_input wellFormed isInput]
    exact .inl isInput
  · intro operation inside constant
    obtain ⟨first, isCanonical, firstInside, sameKey, single, -⟩ :=
      exists_canonical wellFormed.distinct inside constant
    have firstConstant : first.isConstant = true := by
      rw [Operation.isConstant, sameKey]
      exact constant
    have listed := List.mem_map_of_mem (f := patchedIn graph)
      ((mem_remaining wellFormed).mpr ⟨firstInside, single⟩)
    rw [isCanonical]
    exact .inr (List.mem_map.mpr
      ⟨patchedIn graph first, List.mem_filter.mpr ⟨listed, firstConstant⟩, rfl⟩)

include wellFormed in
theorem result_fresh : ∀ operation ∈ resultOperations graph, operation.name ∉ graph.graphInputs := by
  intro operation inside
  obtain ⟨original, isOriginal, -, rfl⟩ := mem_result wellFormed inside
  exact wellFormed.fresh original isOriginal

/-! ## The two evaluations -/

variable {Value : Type} {constant : Quantity → DType → Device → Value}
  {compute : String → List Value → Value} {inputs : String → Value}

include wellFormed in
theorem evaluate_operation {operation : Operation} (inside : operation ∈ graph.operations) :
    evaluate constant compute graph.operations inputs operation.name =
      valueOf constant compute operation
        (operation.reads.map (evaluate constant compute graph.operations inputs)) :=
  StraightLine.evaluate_solves wellFormed.ordered wellFormed.distinct wellFormed.fresh inputs inside

include wellFormed hidden in
theorem evaluate_result {operation : Operation} (inside : operation ∈ graph.operations)
    (single : ∀ other, ¬ Repeats graph.operations operation other) :
    evaluate constant compute (resultOperations graph) inputs operation.name =
      valueOf constant compute operation ((operation.reads.map (canonicalName graph.operations)).map
        (evaluate constant compute (resultOperations graph) inputs)) := by
  rw [← reads_patchedIn wellFormed hidden]
  exact StraightLine.evaluate_solves (result_ordered wellFormed hidden)
    (result_distinct wellFormed) (result_fresh wellFormed) inputs
    (patchedIn_mem_result wellFormed inside single)

theorem evaluate_input {operations : List Operation} {name : String}
    (notWritten : ∀ operation ∈ operations, operation.name ≠ name) :
    evaluate constant compute operations inputs name = inputs name := by
  refine StraightLine.evaluate_of_not_mem ?_ inputs
  intro written
  obtain ⟨operation, inside, same⟩ := List.mem_map.mp written
  exact notWritten operation inside same

theorem exists_literal {operation : Operation} (isConstant : operation.isConstant = true) :
    ∃ literal, operation.kind = .spyreConstantFallback literal := by
  unfold Operation.isConstant Operation.key at isConstant
  split at isConstant
  next literal isLiteral => exact ⟨literal, isLiteral⟩
  next => cases isConstant

/-- Constants of one key differ at most in the sign of a zero. -/
theorem literals_of_repeats {operations : List Operation} {dup first : Operation}
    (repeats : Repeats operations dup first) :
    ∃ literal other, dup.kind = .spyreConstantFallback literal ∧
      first.kind = .spyreConstantFallback other ∧ other.dtype = literal.dtype ∧
      other.device = literal.device ∧
      (quantity other).magnitude = (quantity literal).magnitude := by
  obtain ⟨literal, isLiteral⟩ := exists_literal repeats.constant
  obtain ⟨other, isOther⟩ := exists_literal repeats.first_constant
  have sameKey := repeats.key_eq
  rw [Operation.key, Operation.key, isLiteral, isOther] at sameKey
  simp only [Option.some.injEq, constantKey, Prod.mk.injEq] at sameKey
  exact ⟨literal, other, isLiteral, isOther, sameKey.2.1, sameKey.2.2,
    congrArg Magnitude.stored sameKey.1⟩

theorem valueOf_of_repeats {operations : List Operation} {dup first : Operation}
    (repeats : Repeats operations dup first)
    (sameSign : holdsNegativeZero dup = holdsNegativeZero first) (values others : List Value) :
    valueOf constant compute first values = valueOf constant compute dup others := by
  obtain ⟨literal, other, isLiteral, isOther, sameDtype, sameDevice, sameMagnitude⟩ :=
    literals_of_repeats repeats
  simp only [holdsNegativeZero, isLiteral, isOther] at sameSign
  have sameQuantity : quantity other = quantity literal :=
    Quantity.mk.injEq .. ▸ ⟨sameMagnitude, sameSign.symm⟩
  simp only [valueOf, isLiteral, isOther, sameQuantity, sameDtype, sameDevice]

include wellFormed hidden in
/-- Every buffer an output depends on has the value of its canonical buffer. -/
theorem evaluate_canonical
    (signs : ∀ dup first, Repeats graph.operations dup first → Needed graph dup.name →
      holdsNegativeZero dup = holdsNegativeZero first) {operation : Operation}
    (inside : operation ∈ graph.operations) (needed : Needed graph operation.name) :
    evaluate constant compute (resultOperations graph) inputs
        (canonicalName graph.operations operation.name) =
      evaluate constant compute graph.operations inputs operation.name := by
  revert needed
  refine StraightLine.ordered_induction (motive := fun name => Needed graph name →
    evaluate constant compute (resultOperations graph) inputs
        (canonicalName graph.operations name) =
      evaluate constant compute graph.operations inputs name) wellFormed.ordered ?_ ?_ operation inside
  · intro name isInput _
    rw [canonicalName_of_input wellFormed isInput,
      evaluate_input fun other written same => result_fresh wellFormed other written (same ▸ isInput),
      evaluate_input fun other written same => wellFormed.fresh other written (same ▸ isInput)]
  · intro operation inside readsAgree needed
    cases isConstant : operation.isConstant with
    | true =>
        obtain ⟨first, isCanonical, firstInside, -, single, same | repeats⟩ :=
          exists_canonical wellFormed.distinct inside isConstant
        · subst same
          rw [isCanonical, evaluate_result wellFormed hidden firstInside single,
            evaluate_operation wellFormed firstInside, reads_of_isConstant isConstant]
          rfl
        · rw [isCanonical, evaluate_result wellFormed hidden firstInside single,
            evaluate_operation wellFormed inside]
          exact valueOf_of_repeats repeats (signs operation first repeats needed) _ _
    | false =>
        have single : ∀ other, ¬ Repeats graph.operations operation other := fun other repeats =>
          absurd (repeats.constant.symm.trans isConstant) (by decide)
        rw [canonicalName_of_not_constant wellFormed.distinct inside isConstant,
          evaluate_result wellFormed hidden inside single, evaluate_operation wellFormed inside,
          List.map_map]
        congr 1
        exact List.map_congr_left fun name isRead =>
          readsAgree name isRead (.read inside needed isRead)

include wellFormed hidden in
theorem canonicalName_of_output {name : String} (isOutput : name ∈ graph.outputNames) :
    canonicalName graph.operations name = name :=
  canonicalName_of_single wellFormed.distinct fun dup first repeats sameName =>
    hidden dup first repeats (sameName ▸ isOutput)

end Result

/-! ## The reading that computes nothing -/

/-- Values that say how they were computed. -/
inductive Trace where
  | input (name : String)
  | constant (quantity : Quantity) (dtype : DType) (device : Device)
  | apply (operationName : String) (arguments : List Trace)

section Result

variable {graph : Graph} (wellFormed : WellFormed graph)
  (hidden : ∀ dup first, Repeats graph.operations dup first → dup.name ∉ graph.outputNames)

include wellFormed hidden in
/-- Traces that agree on the outputs agree on everything the outputs depend on. -/
theorem traces_agree (same : SameOutputs graph { graph with operations := resultOperations graph })
    {name : String} (needed : Needed graph name) :
    evaluate Trace.constant Trace.apply (resultOperations graph) Trace.input
        (canonicalName graph.operations name) =
      evaluate Trace.constant Trace.apply graph.operations Trace.input name := by
  induction needed with
  | output isOutput =>
      rw [canonicalName_of_output wellFormed hidden isOutput]
      exact same Trace Trace.constant Trace.apply Trace.input _ isOutput
  | @read operation name inside _ isRead inductionHypothesis =>
      have notConstant : operation.isConstant = false := by
        rw [← Bool.not_eq_true]
        intro isConstant
        rw [reads_of_isConstant isConstant] at isRead
        cases isRead
      have single : ∀ other, ¬ Repeats graph.operations operation other := fun other repeats =>
        absurd (repeats.constant.symm.trans notConstant) (by decide)
      have applied : ∀ values : List Trace, valueOf Trace.constant Trace.apply operation values =
          .apply operation.operationName values := by
        intro values
        unfold Operation.isConstant Operation.key at notConstant
        unfold valueOf
        split
        next isLiteral => simp [isLiteral] at notConstant
        next => rfl
      rw [canonicalName_of_not_constant wellFormed.distinct inside notConstant,
        evaluate_result wellFormed hidden inside single, evaluate_operation wellFormed inside,
        applied, applied, List.map_map] at inductionHypothesis
      exact List.map_inj_left.mp (Trace.apply.inj inductionHypothesis).2 name isRead

include wellFormed hidden in
theorem sign_eq_of_sameOutputs
    (same : SameOutputs graph { graph with operations := resultOperations graph })
    {dup first : Operation} (repeats : Repeats graph.operations dup first)
    (needed : Needed graph dup.name) : holdsNegativeZero dup = holdsNegativeZero first := by
  have agree := traces_agree wellFormed hidden same needed
  obtain ⟨literal, other, isLiteral, isOther, -⟩ := literals_of_repeats repeats
  rw [canonicalName_of_repeats wellFormed.distinct repeats,
    evaluate_result wellFormed hidden repeats.first_mem fun _ => repeats.not_repeats,
    evaluate_operation wellFormed repeats.inside] at agree
  simp only [valueOf, isLiteral, isOther, Trace.constant.injEq] at agree
  simp only [holdsNegativeZero, isLiteral, isOther, agree.1]

include wellFormed in
/-- A repeated constant that is an output is dropped, and its name with it. -/
theorem hidden_of_produced {result : Graph} (outputs : result.outputNames = graph.outputNames)
    (inputs : result.graphInputs = graph.graphInputs)
    (operations : result.operations = resultOperations graph) (produced : Produced result) :
    ∀ dup first, Repeats graph.operations dup first → dup.name ∉ graph.outputNames := by
  intro dup first repeats isOutput
  rcases produced.outputs dup.name (outputs.symm ▸ isOutput) with isInput | written
  · exact wellFormed.fresh dup repeats.inside (inputs ▸ isInput)
  · rw [operations] at written
    obtain ⟨operation, inside, sameName⟩ := List.mem_map.mp written
    obtain ⟨original, isOriginal, single, rfl⟩ := mem_result wellFormed inside
    have same : original = dup :=
      eq_of_name_eq wellFormed.distinct isOriginal repeats.inside sameName
    exact single first (same ▸ repeats)

include wellFormed hidden in
theorem produced_of_hidden {result : Graph} (outputs : result.outputNames = graph.outputNames)
    (inputs : result.graphInputs = graph.graphInputs)
    (operations : result.operations = resultOperations graph) : Produced result := by
  refine ⟨?_, fun name isOutput => ?_⟩
  · rw [inputs, operations]
    exact result_ordered wellFormed hidden
  · rw [outputs] at isOutput
    rw [inputs, operations]
    refine (wellFormed.outputs name isOutput).imp_right fun written => ?_
    obtain ⟨operation, inside, rfl⟩ := List.mem_map.mp written
    have single : ∀ other, ¬ Repeats graph.operations operation other := fun other repeats =>
      hidden operation other repeats isOutput
    exact List.mem_map.mpr
      ⟨patchedIn graph operation, patchedIn_mem_result wellFormed inside single, rfl⟩

include wellFormed hidden in
theorem sameOutputs_of_signs
    (signs : ∀ dup first, Repeats graph.operations dup first → Needed graph dup.name →
      holdsNegativeZero dup = holdsNegativeZero first) :
    SameOutputs graph { graph with operations := resultOperations graph } := by
  intro Value constant compute inputs name isOutput
  rcases wellFormed.outputs name isOutput with isInput | written
  · rw [evaluate_input fun other written same =>
        result_fresh wellFormed other written (same ▸ isInput),
      evaluate_input fun other written same => wellFormed.fresh other written (same ▸ isInput)]
  · obtain ⟨operation, inside, rfl⟩ := List.mem_map.mp written
    have agree : evaluate constant compute (resultOperations graph) inputs
        (canonicalName graph.operations operation.name) =
          evaluate constant compute graph.operations inputs operation.name :=
      evaluate_canonical wellFormed hidden signs inside (.output isOutput)
    rwa [canonicalName_of_output wellFormed hidden isOutput] at agree

end Result

/-- The pass keeps every read and every output produced, and the values of the outputs,
exactly when no repeated constant is an output and none an output depends on is a zero of
the other sign. -/
theorem dedupAndPromoteConstants_preserves_iff {graph : Graph} (wellFormed : WellFormed graph) :
    (∃ result, dedupAndPromoteConstants graph = .ok result ∧ Produced result ∧
        SameOutputs graph result) ↔
      (∀ dup first, Repeats graph.operations dup first → dup.name ∉ graph.outputNames) ∧
        ∀ dup first, Repeats graph.operations dup first → Needed graph dup.name →
          holdsNegativeZero dup = holdsNegativeZero first := by
  obtain ⟨result, succeeds, outputs, inputs, operations⟩ := dedupAndPromoteConstants_eq wellFormed
  have sameOutputs_iff : SameOutputs graph result ↔
      SameOutputs graph { graph with operations := resultOperations graph } := by
    unfold SameOutputs
    rw [operations]
    rfl
  constructor
  · rintro ⟨other, again, produced, same⟩
    have isResult : other = result := Except.ok.inj (again.symm.trans succeeds)
    subst isResult
    have hidden := hidden_of_produced wellFormed outputs inputs operations produced
    exact ⟨hidden, fun dup first repeats needed =>
      sign_eq_of_sameOutputs wellFormed hidden (sameOutputs_iff.mp same) repeats needed⟩
  · rintro ⟨hidden, signs⟩
    exact ⟨result, succeeds, produced_of_hidden wellFormed hidden outputs inputs operations,
      sameOutputs_iff.mpr (sameOutputs_of_signs wellFormed hidden signs)⟩

def half : DType := ⟨"float16", true⟩

def onSpyre (value : Number) : Kind :=
  .spyreConstantFallback ⟨value, half, ⟨"spyre", none⟩⟩

/-- Two readers of the same constant; the second copy of it comes between them. -/
def readersOfOne : List Operation :=
  [⟨"op0", "buf0", onSpyre (.float (.finite 1)), [], []⟩,
    ⟨"op1", "buf1", .computedBuffer, ["arg0", "buf0"], []⟩,
    ⟨"op2", "buf2", onSpyre (.integer 1), [], []⟩,
    ⟨"op3", "buf3", .computedBuffer, ["buf1", "buf2"], []⟩]

def twoReaders (outputNames : List String) : Graph where
  operations := readersOfOne
  outputNames := outputNames
  graphInputs := ["arg0"]
  removedBuffers := []
  nameToBuffer := ["buf0", "buf1", "buf2", "buf3"]
  nameToOp := ["op0", "op1", "op2", "op3"]
  nameToUsers := fun _ => none

theorem twoReaders_wellFormed {outputNames : List String}
    (named : ∀ name ∈ outputNames, name ∈ ["arg0", "buf0", "buf1", "buf2", "buf3"]) :
    WellFormed (twoReaders outputNames) := by
  have distinct : (readersOfOne.map Operation.name).Nodup := by decide
  have fresh : ∀ operation ∈ readersOfOne, operation.name ∉ ["arg0"] := by decide
  have consumers : ∀ constant ∈ readersOfOne, constant.isConstant = true →
      ∀ operation ∈ readersOfOne, constant.name ∈ operation.reads →
        operation.kind = .computedBuffer := by decide
  refine ⟨?_, distinct, fresh, fun name isOutput => ?_, consumers⟩
  · simp [twoReaders, readersOfOne, StraightLine.Ordered, Operation.reads, onSpyre, resolve]
  · exact List.mem_cons.mp (named name isOutput) |>.imp_left List.mem_singleton.mpr

theorem twoReaders_preserved :
    ∃ result, dedupAndPromoteConstants (twoReaders ["buf3"]) = .ok result ∧ Produced result ∧
      SameOutputs (twoReaders ["buf3"]) result := by
  have wellFormed : WellFormed (twoReaders ["buf3"]) := twoReaders_wellFormed (by decide)
  have only : ∀ dup first, Repeats (twoReaders ["buf3"]).operations dup first →
      dup.name = "buf2" ∧ holdsNegativeZero dup = holdsNegativeZero first := by
    intro dup first repeats
    have listed := (mem_duplicates wellFormed.distinct).mpr repeats
    have pairs : ∀ pair ∈ duplicates (twoReaders ["buf3"]).operations,
        pair.1.name = "buf2" ∧ holdsNegativeZero pair.1 = holdsNegativeZero pair.2 := by decide
    exact pairs (dup, first) listed
  refine (dedupAndPromoteConstants_preserves_iff wellFormed).mpr ⟨?_, ?_⟩
  · intro dup first repeats isOutput
    rw [(only dup first repeats).1] at isOutput
    revert isOutput
    decide
  · exact fun dup first repeats _ => (only dup first repeats).2

/-- With the copy an output, the pass drops it: the output's buffer is produced no more. -/
theorem twoReaders_output_dropped :
    WellFormed (twoReaders ["buf3", "buf2"]) ∧
      ¬ ∃ result, dedupAndPromoteConstants (twoReaders ["buf3", "buf2"]) = .ok result ∧
        Produced result ∧ SameOutputs (twoReaders ["buf3", "buf2"]) result := by
  have wellFormed : WellFormed (twoReaders ["buf3", "buf2"]) := twoReaders_wellFormed (by decide)
  refine ⟨wellFormed, ?_⟩
  rintro ⟨result, succeeds, produced, -⟩
  obtain ⟨expected, isExpected, outputs, inputs, operations⟩ := dedupAndPromoteConstants_eq wellFormed
  have isResult : result = expected := Except.ok.inj (succeeds.symm.trans isExpected)
  subst isResult
  have kept := produced.outputs "buf2" (by rw [outputs]; decide)
  rw [inputs, operations] at kept
  revert kept
  decide

end TorchSpyre.DedupConstants
