import Mathlib
import TorchSpyre.Bundle.Runs
import TorchSpyre.Bundle.Sharing

/-!
# The operands of a bundle

Each core reads its part of each tensor at the tensor's own address exactly if the tensors of an
operation that share a symbol agree.
-/

namespace TorchSpyre.Bundle

open Lib

variable {Body DebugHandle : Type}

/-! ## The operand of a key -/

section Operand

variable {spec : SDSCSpec Body DebugHandle} {offset : ℕ} {result : Compilation Body DebugHandle}

theorem Reads.exists_addressed {tensor : SDSCArgs} {core : ℕ} (reads : Reads spec tensor core) :
    ∃ tensorIdx, Addressed spec tensorIdx core tensor := by
  obtain ⟨tensorIdx, located⟩ := List.mem_iff_getElem?.mp reads.inside
  exact ⟨tensorIdx, located, reads.inHbm, reads.core⟩

theorem Addressed.reads {tensor : SDSCArgs} {tensorIdx core : ℕ}
    (addressed : Addressed spec tensorIdx core tensor) :
    Reads spec tensor core :=
  ⟨List.mem_of_getElem? addressed.located, addressed.inHbm, addressed.core⟩

theorem startAddrKey_ne_symbolic (concrete : spec.Concrete) {tensor : SDSCArgs} (inside : tensor ∈ spec.args)
    (core : ℕ) (argIndex : ℤ) (coreIdx : ℕ) :
        startAddrKey tensor core ≠ .kernelDerivedSymbolic argIndex coreIdx := by
  unfold startAddrKey SDSCArgs.slicedBaseKey
  rw [concrete.unsplit tensor inside]
  simp only [Option.isSome_none, Bool.false_eq_true, if_false]
  split_ifs <;> simp

/-- The tensors that advance and have a symbol are those that move its key. -/
theorem Generated.advancing_iff (generated : Generated spec offset result) {key : SymbolKey}
    (known : key ∈ (spec.localSymbols offset).keys) {strides : List (List ℤ)} :
    (∃ tensorIdx core, Advancing result.sdscJson result.affineStrides
        (-((keyIdx spec offset key : ℤ) + 1)) strides
      tensorIdx core) ↔ ∃ tensor, Moves spec key tensor ∧ strides = tensor.affineStrides := by
  constructor
  · rintro ⟨tensorIdx, core, advancing⟩
    obtain ⟨tensor, addressed⟩ := generated.addressed_of_tensorCoreSymId advancing.symbol
    obtain ⟨listed, isSymbol⟩ := generated.tensorCoreSymId_of_addressed addressed
    rw [advancing.symbol, Option.some.injEq] at isSymbol
    have sameIdx : keyIdx spec offset key = keyIdx spec offset (startAddrKey tensor core) := by omega
    have isKey : startAddrKey tensor core = key :=
      (List.idxOf_inj listed).mp (Nat.add_left_cancel sameIdx).symm
    have isStrides : strides = tensor.affineStrides := by
      have located := advancing.located
      rw [generated.affineStrides, List.getElem?_map, addressed.located, Option.map_some,
        Option.some.injEq] at located
      exact located.symm
    refine ⟨tensor, ⟨isStrides ▸ advancing.advances, core, ?_, addressed.reads, isKey⟩, isStrides⟩
    exact generated.numCoresUsed ▸ advancing.used
  · rintro ⟨tensor, moves, rfl⟩
    obtain ⟨core, used, reads, rfl⟩ := moves.reads
    obtain ⟨tensorIdx, addressed⟩ := reads.exists_addressed
    refine ⟨tensorIdx, core, generated.numCoresUsed ▸ used,
      (generated.tensorCoreSymId_of_addressed addressed).2,
      ?_, moves.advances⟩
    rw [generated.affineStrides, List.getElem?_map, addressed.located, Option.map_some]

theorem Generated.shifts_of_advances (generated : Generated spec offset result) {key : SymbolKey}
    (known : key ∈ (spec.localSymbols offset).keys) {values : List ℕ} {amount : ℤ}
    (advances : Advances result.sdscJson result.affineStrides values
        (-((keyIdx spec offset key : ℤ) + 1)) amount) :
    Shifts spec values key amount := by
  rcases advances with ⟨strides, tensorIdx, core, advancing, isAmount⟩ | ⟨still, isAmount⟩
  · obtain ⟨tensor, moves, rfl⟩ := (generated.advancing_iff known).mp ⟨tensorIdx, core, advancing⟩
    exact .inl ⟨tensor, moves, isAmount⟩
  · refine .inr ⟨?_, isAmount⟩
    rintro ⟨tensor, moves⟩
    obtain ⟨tensorIdx, core, advancing⟩ := (generated.advancing_iff known).mpr ⟨tensor, moves, rfl⟩
    exact still ⟨_, tensorIdx, core, advancing⟩

end Operand

section Address

variable {specs : List (SpecTree Body DebugHandle)} {bundle : SdscBundle Body DebugHandle}
  {state : CompileState Body DebugHandle} {preamble : Preamble}

theorem address_slicedBaseKind (tensor : SDSCArgs) (arguments : Arguments) :
    (baseName tensor.slicedBaseKind).address arguments =
      some (arguments.arg tensor.argIndex + max tensor.totalSliceOffset 0) := by
  unfold SDSCArgs.slicedBaseKind
  split
  next sliced =>
    rw [max_eq_left (le_of_lt sliced)]
    rfl
  next unsliced =>
    rw [max_eq_right (not_lt.mp unsliced), add_zero]
    rfl

/-- The name of a symbol has the address behind the symbol's key. -/
theorem Means.holds {spec : SDSCSpec Body DebugHandle} {base symIdx : ℕ}
    {kindsOfSdscs : List (List SymbolKind)}
    {earlier : List SymbolKind} {value : ℤ} {kind : SymbolKind}
        (means : Means spec.args spec.numCores base earlier value kind)
    (located : ∀ position other, earlier[position]? = some other →
        kindsOfSdscs.flatten[base + position]? = some other)
    (plain : ∀ argIndex coreIdx, symbolKey value kind ≠ .kernelDerivedSymbolic argIndex coreIdx)
    (arguments : Arguments) : ∃ address, Holds spec arguments (symbolKey value kind) address ∧
      (symName kindsOfSdscs value symIdx kind).address arguments = some address := by
  cases means with
  | kernel nonneg => exact ⟨_, .kernel nonneg, rfl⟩
  | kernelSlice _ offset nonneg isBase => exact ⟨_, .kernelSlice offset nonneg, rfl⟩
  | @kernelDerived tensor core position inside isArgument below apart isBase =>
      refine ⟨_, .address inside isArgument below apart, ?_⟩
      rw [symName, located _ _ isBase, Option.map_some, Option.getD_some, SsaName.address,
        address_slicedBaseKind]
      rfl
  | kernelDerivedSymbolic => exact absurd rfl (plain _ _)
  | pool => exact ⟨_, .pool _, rfl⟩
  | shardKernel => exact ⟨_, .shardKernel _ _, rfl⟩

theorem Emission.declared_eq_address (emission : Emission specs bundle state preamble) {arguments : Arguments}
    {name : SsaName} {address : ℤ} (listed : name ∈ preamble.names)
    (isAddress : name.address arguments = some address) : bundle.declared arguments name = some address := by
  rw [SdscBundle.declared, emission.declarations]
  exact emission.named.declared.values_eq_address listed isAddress

/-- A key resolves to a name with the address behind the key. -/
theorem Emission.holds (emission : Emission specs bundle state preamble) {spec : SDSCSpec Body DebugHandle}
    {offset : ℕ} {result : Compilation Body DebugHandle} (generated : Generated spec offset result)
    (values : ∀ position value, result.symbolValues[position]? = some value →
      state.symbols[offset + position]? = some value)
    (kinds : ∀ position kind, result.symbolKinds[position]? = some kind →
      state.kinds[offset + position]? = some kind) {key : SymbolKey}
    (known : key ∈ (spec.localSymbols offset).keys)
    (plain : ∀ argIndex coreIdx, key ≠ .kernelDerivedSymbolic argIndex coreIdx) (arguments : Arguments) :
    ∃ address, Holds spec arguments key address ∧
      bundle.declared arguments (resolveSym state.kinds preamble (-((keyIdx spec offset key : ℤ) + 1))) =
        some address := by
  have registry := registry_localSymbols spec offset
  obtain ⟨value, kind, isValue, isKind, rfl, means⟩ := registry.located (List.getElem?_idxOf known)
  -- The addresses stand behind the dimensions.
  have located : ∀ position other, (spec.localSymbols offset).kinds[position]? = some other →
      state.kinds[spec.addressBase offset + position]? = some other := by
    intro position other isOther
    have whole := kinds (spec.dimensionKinds.length + position) other (by
      rw [generated.kinds, List.getElem?_append_right (Nat.le_add_right _ _), Nat.add_sub_cancel_left]
      exact isOther)
    rwa [← Nat.add_assoc, ← spec.addressBase_eq] at whole
  have isOwnKind : state.kinds[keyIdx spec offset (symbolKey value kind)]? = some kind := located _ _ isKind
  have isOwnValue : state.symbols[keyIdx spec offset (symbolKey value kind)]? = some value := by
    have whole :=
      values (spec.dimensionKinds.length + (spec.localSymbols offset).keys.idxOf
        (symbolKey value kind)) value (by
      rw [generated.values, List.getElem?_append_right (by simp [SDSCSpec.dimensionKinds])]
      simpa [SDSCSpec.dimensionKinds] using isValue)
    rwa [← Nat.add_assoc, ← spec.addressBase_eq] at whole
  obtain ⟨other, isOther, isName, listed⟩ :=
    resolveSym_named (emission.aligned.symbols.trans emission.aligned.kinds.symm) emission.named isOwnKind
  rw [isOwnValue, Option.some.injEq] at isOther
  subst isOther
  obtain ⟨address, holds, isAddress⟩ := @Means.holds _ _ spec _ (keyIdx spec offset (symbolKey value kind))
    (state.compiled.map CompiledEntry.symbolKinds) _ _ _ means (by
      intro position other isOther
      rw [List.getElem?_take] at isOther
      split at isOther
      next => exact located position other isOther
      next => cases isOther) plain arguments
  refine ⟨address, holds, ?_⟩
  have resolved := emission.declared_eq_address listed isAddress
  rw [← isName] at resolved
  exact resolved

end Address

/-! ## Own addresses -/

/-- At the iteration of a call each core reads its part of each tensor at the tensor's own address. -/
structure OwnAddresses (arguments : Arguments) (execution : Execution Body DebugHandle)
    (call : OpSpec Body DebugHandle × List ℕ) : Prop where
  iteration : execution.iteration.map Prod.snd = call.2
  operands : ∀ tensorIdx core tensor, Addressed call.1.sdscSpec tensorIdx core tensor →
    execution.operand tensorIdx core = some (tensor.ownAddress arguments core call.2)

section OwnAddresses

variable {specs : List (SpecTree Body DebugHandle)} {bundle : SdscBundle Body DebugHandle}
  {state : CompileState Body DebugHandle} {preamble : Preamble} {arguments : Arguments}
  {execution : Execution Body DebugHandle} {call : OpSpec Body DebugHandle × List ℕ}

/-- The operands of one call are told by the keys of the tensors. -/
theorem Emission.exists_bound (emission : Emission specs bundle state preamble)
    (concrete : call.1.sdscSpec.Concrete)
    (runs : Runs (Stands state) bundle (resolveSym state.kinds preamble) arguments execution call) :
    ∃ base amount, Bound call.1.sdscSpec arguments call.2 base amount ∧
      ∀ tensorIdx core tensor, Addressed call.1.sdscSpec tensorIdx core tensor →
        execution.operand tensorIdx core =
          some (base (startAddrKey tensor core) + amount (startAddrKey tensor core)) := by
  obtain ⟨entry, stands, executes⟩ := runs
  obtain ⟨offset, result, generated, isJson, isStrides, kinds, values⟩ := stands.generated
  have perKey : ∀ key, ∃ base amount, ∀ tensorIdx core tensor,
    Addressed call.1.sdscSpec tensorIdx core tensor →
      startAddrKey tensor core = key → Holds call.1.sdscSpec arguments key base ∧
        Shifts call.1.sdscSpec call.2 key amount ∧
          execution.operand tensorIdx core = some (base + amount) := by
    intro key
    by_cases known : (∃ tensor core, Reads call.1.sdscSpec tensor core ∧ startAddrKey tensor core = key)
    · obtain ⟨tensor, core, reads, rfl⟩ := known
      obtain ⟨tensorIdx, addressed⟩ := reads.exists_addressed
      obtain ⟨known, isSymbol⟩ := generated.tensorCoreSymId_of_addressed addressed
      obtain ⟨base, holds, isBase⟩ := emission.holds generated values kinds known
        (startAddrKey_ne_symbolic concrete reads.inside core) arguments
      have listed := mem_extractSymbolIds isSymbol (generated.tensorCoreSymId_neg isSymbol)
      obtain ⟨amount, advances, isBinding⟩ := executes.operands _ (isJson ▸ listed)
      rw [isJson, isStrides] at advances
      refine ⟨base, amount, ?_⟩
      intro otherIdx otherCore other otherAddressed sameKey
      have otherSymbol := (generated.tensorCoreSymId_of_addressed otherAddressed).2
      refine ⟨holds, generated.shifts_of_advances known advances, ?_⟩
      rw [Execution.operand, executes.program, Option.bind_some, isJson, otherSymbol, Option.bind_some,
        sameKey,
        isBinding, isBase]
      rfl
    · refine ⟨0, 0, ?_⟩
      intro tensorIdx core tensor addressed isKey
      exact absurd ⟨tensor, core, addressed.reads, isKey⟩ known
  choose base amount facts using perKey
  refine ⟨base, amount, ?_, ?_⟩
  · intro tensor core reads
    obtain ⟨tensorIdx, addressed⟩ := reads.exists_addressed
    obtain ⟨holds, shifts, -⟩ := facts _ tensorIdx core tensor addressed rfl
    exact ⟨holds, shifts⟩
  · intro tensorIdx core tensor addressed
    exact (facts _ tensorIdx core tensor addressed rfl).2.2

theorem SameExecution.ownAddresses_iff {cached fresh : Execution Body DebugHandle}
    (same : SameExecution cached fresh)
    (arguments : Arguments) (call : OpSpec Body DebugHandle × List ℕ) :
    OwnAddresses arguments cached call ↔ OwnAddresses arguments fresh call := by
  constructor
  · rintro ⟨iteration, operands⟩
    exact ⟨same.iteration ▸ iteration, fun tensorIdx core tensor addressed => same.operand tensorIdx core ▸
      operands tensorIdx core tensor addressed⟩
  · rintro ⟨iteration, operands⟩
    exact ⟨same.iteration ▸ iteration, fun tensorIdx core tensor addressed => same.operand tensorIdx core ▸
      operands tensorIdx core tensor addressed⟩

/-- A call of an emitted bundle reads every tensor at its own address exactly if its symbols do. -/
theorem ownAddresses_iff
    (runs : Runs (Stands state) bundle (resolveSym state.kinds preamble) arguments execution call)
    {base amount : SymbolKey → ℤ}
    (operands : ∀ tensorIdx core tensor, Addressed call.1.sdscSpec tensorIdx core tensor →
      execution.operand tensorIdx core = some (base (startAddrKey tensor core) + amount
        (startAddrKey tensor core))) :
    OwnAddresses arguments execution call ↔ ReadsOwn call.1.sdscSpec arguments call.2 base amount := by
  constructor
  · intro own tensor core reads
    obtain ⟨tensorIdx, addressed⟩ := reads.exists_addressed
    apply Option.some.inj
    rw [← operands tensorIdx core tensor addressed, own.operands tensorIdx core tensor addressed]
  · intro own
    obtain ⟨entry, -, executes⟩ := runs
    refine ⟨executes.iteration, ?_⟩
    intro tensorIdx core tensor addressed
    rw [operands tensorIdx core tensor addressed, own tensor core addressed.reads]

end OwnAddresses

/-! ## Iterations -/

theorem advance_of_zeros (strides : List (List ℤ)) {values : List ℕ} (zeros : ∀ value ∈ values, value = 0) :
    advance strides values = 0 := by
  induction strides generalizing values with
  | nil => rfl
  | cons level strides inductionHypothesis =>
      cases values with
      | nil => exact advance_nil_right _
      | cons value values =>
          obtain ⟨isZero, others⟩ := List.forall_mem_cons.mp zeros
          rw [advance_cons, isZero, inductionHypothesis others]
          simp

/-- An operation that runs at all runs in an iteration that advances nothing. -/
theorem exists_first_call (specs : List (SpecTree Body DebugHandle)) {front : List ℕ}
    {call : OpSpec Body DebugHandle × List ℕ} (made : call ∈ calls specs front) (other : List ℕ) :
    call.1 ∈ operations specs ∧ ∃ zeros : List ℕ, (∀ value ∈ zeros, value = 0) ∧
      (call.1, other ++ zeros) ∈ calls specs other := by
  induction specs using RoseTree.forest_induction generalizing front other with
  | nil => cases made
  | leaf item rest inductionHypothesis =>
      cases item with
      | none => exact inductionHypothesis made other
      | some op =>
          rcases List.mem_cons.mp made with rfl | later
          · refine ⟨List.mem_cons_self, [], List.forall_mem_nil _, ?_⟩
            rw [List.append_nil]
            exact List.mem_cons_self
          · obtain ⟨inside, zeros, areZero, first⟩ := inductionHypothesis later other
            exact ⟨List.mem_cons_of_mem _ inside, zeros, areZero, List.mem_cons_of_mem _ first⟩
  | node count body rest bodyHypothesis restHypothesis =>
      rw [operations, RoseTree.leaves_node_cons, List.reduceOption_append]
      rcases List.mem_append.mp made with inBody | later
      · obtain ⟨value, inRange, inside⟩ := List.mem_flatMap.mp inBody
        obtain ⟨listed, zeros, areZero, first⟩ := bodyHypothesis inside (other ++ [0])
        have positive : 0 < count := Nat.zero_lt_of_lt (List.mem_range.mp inRange)
        refine ⟨List.mem_append_left _ listed, 0 :: zeros, List.forall_mem_cons.mpr ⟨rfl, areZero⟩, ?_⟩
        refine List.mem_append_left _ (List.mem_flatMap.mpr ⟨0, List.mem_range.mpr positive, ?_⟩)
        rwa [List.append_assoc, List.singleton_append] at first
      · obtain ⟨inside, zeros, areZero, first⟩ := restHypothesis later other
        exact ⟨List.mem_append_right _ inside, zeros, areZero, List.mem_append_right _ first⟩

/-! ## The bundle -/

section Bundle

variable {specs : List (SpecTree Body DebugHandle)} {bundle : SdscBundle Body DebugHandle}

theorem Emission.ownAddresses_iff {state : CompileState Body DebugHandle} {preamble : Preamble}
    (emission : Emission specs bundle state preamble) (concrete : ∀ op ∈ operations specs,
        op.sdscSpec.Concrete) :
    (∀ arguments, List.Forall₂ (OwnAddresses arguments) (bundle.executions arguments) (calls specs [])) ↔
      ∀ call ∈ calls specs [], KeepsApart call.1.sdscSpec call.2 := by
  constructor
  · intro own call made
    obtain ⟨inside, zeros, areZero, first⟩ := exists_first_call specs made []
    have isConcrete := concrete call.1 inside
    have readsOwn : ∀ arguments values, (call.1, values) ∈ calls specs [] → ∃ base amount,
        Bound call.1.sdscSpec arguments values base amount ∧
          ReadsOwn call.1.sdscSpec arguments values base amount := by
      intro arguments values isCall
      obtain ⟨execution, -, runs, isOwn⟩ :=
        exists_related (forall₂_and (emission.runs arguments) (own arguments)).flip isCall
      obtain ⟨base, amount, bound, operands⟩ :=
        @Emission.exists_bound _ _ _ _ _ _ _ _ (call.1, values) emission isConcrete runs
      exact ⟨base, amount, bound, (Bundle.ownAddresses_iff runs operands).mp isOwn⟩
    -- The addresses are told by the first iteration, the strides by this one.
    obtain ⟨base, amount, bound, firstOwn⟩ := readsOwn spreadArguments zeros first
    have placed := placed_of_readsOwn isConcrete (fun tensor _ => advance_of_zeros _ areZero) bound firstOwn
    obtain ⟨base, amount, bound, isOwn⟩ := readsOwn spreadArguments call.2 made
    exact keepsApart_of_readsOwn placed isConcrete bound isOwn
  · intro keepsApart arguments
    have fine : ∀ call ∈ calls specs [], KeepsApart call.1.sdscSpec call.2 ∧ call.1.sdscSpec.Concrete := by
      intro call made
      exact ⟨keepsApart call made, concrete call.1 (exists_first_call specs made []).1⟩
    apply ((List.forall₂_and_left _ _).mpr ⟨fine, (emission.runs arguments).flip⟩).flip.imp
    rintro execution call ⟨⟨apart, isConcrete⟩, isRun⟩
    obtain ⟨base, amount, bound, operands⟩ := emission.exists_bound isConcrete isRun
    exact (Bundle.ownAddresses_iff isRun operands).mpr (apart.readsOwn isConcrete bound)

/-- Each core of each call reads every tensor in HBM at the tensor's own address exactly if the tensors
that share a symbol agree. -/
theorem generateBundle_ownAddresses_iff [DecidableEq Body] {useCache : Bool} {poolSize : ℕ}
    (concrete : ∀ op ∈ operations specs, op.sdscSpec.Concrete)
    (generated : generateBundle useCache poolSize specs = some bundle) :
    (∀ arguments, List.Forall₂ (OwnAddresses arguments) (bundle.executions arguments) (calls specs [])) ↔
      ∀ call ∈ calls specs [], KeepsApart call.1.sdscSpec call.2 := by
  obtain ⟨fresh, isFresh, same⟩ := exists_fresh generated
  obtain ⟨state, preamble, emission⟩ := exists_emission isFresh
  rw [← emission.ownAddresses_iff concrete]
  apply forall_congr'
  intro arguments
  constructor
  · exact forall₂_of_related (fun _ _ related call => (related.ownAddresses_iff arguments call).mp)
      (same arguments).flip
  · exact forall₂_of_related (fun _ _ related call => (related.ownAddresses_iff arguments call).mpr)
      (same arguments)

end Bundle

theorem rowCopy_keepsApart (values : List ℕ) : KeepsApart rowCopy.sdscSpec values := by
  have isRow : ∀ tensor core, Reads rowCopy.sdscSpec tensor core →
      core < 2 ∧ (tensor = rowTensor 0 256 ∨ tensor = rowTensor 1 512) := by
    intro tensor core reads
    refine ⟨reads.core, ?_⟩
    simpa [rowCopy] using reads.inside
  have address : ∀ argIndex rowBytes core,
    (rowTensor argIndex rowBytes).coreAddress core = argIndex + 128 * core :=
    fun _ _ _ => rfl
  constructor
  · constructor
    · intro tensor reads isArgument
      rcases (isRow tensor 0 reads).2 with rfl | rfl <;> decide
    · intro tensor core other otherCore reads otherReads _ _ _ _ same
      have one := isRow tensor core reads
      have two := isRow other otherCore otherReads
      rcases one.2 with rfl | rfl <;> rcases two.2 with rfl | rfl <;> rw [address, address] at same <;>
        first | rfl | omega
  · intro tensor core other otherCore reads otherReads same
    obtain ⟨below, isTensor⟩ := isRow tensor core reads
    obtain ⟨otherBelow, isOther⟩ := isRow other otherCore otherReads
    rcases isTensor with rfl | rfl <;> rcases isOther with rfl | rfl
    · rfl
    · interval_cases core <;> interval_cases otherCore <;> exact absurd same (by decide)
    · interval_cases core <;> interval_cases otherCore <;> exact absurd same (by decide)
    · rfl
  · intro tensor core reads _
    refine ⟨tensor, ?_, core, reads.core, reads, rfl⟩
    rcases (isRow tensor core reads).2 with rfl | rfl <;> decide

theorem rowCopy_ownAddresses :
    ∃ bundle, generateBundle true 0 [.node 3 [.leaf (some rowCopy)]] = some bundle ∧
    ∀ arguments, List.Forall₂ (OwnAddresses arguments) (bundle.executions arguments)
      (calls [.node 3 [.leaf (some rowCopy)]] []) := by
  have produced : (generateBundle true 0 [.node 3 [.leaf (some rowCopy)]]).isSome = true := by decide
  obtain ⟨bundle, isBundle⟩ := Option.isSome_iff_exists.mp produced
  have concrete : ∀ op ∈ operations [.node 3 [.leaf (some rowCopy)]], op.sdscSpec.Concrete := by
    intro op inside
    obtain rfl : op = rowCopy := List.mem_singleton.mp inside
    constructor <;> intro tensor listed <;> rcases List.mem_pair.mp listed with rfl | rfl <;> rfl
  refine ⟨bundle, isBundle, (generateBundle_ownAddresses_iff concrete isBundle).mpr ?_⟩
  intro call made
  have isOp : call.1 ∈ operations [.node 3 [.leaf (some rowCopy)]] := (exists_first_call _ made []).1
  rw [List.mem_singleton.mp isOp]
  exact rowCopy_keepsApart call.2

end TorchSpyre.Bundle
