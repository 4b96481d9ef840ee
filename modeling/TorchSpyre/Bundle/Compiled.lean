import Mathlib
import TorchSpyre.Bundle.Correspondence
import TorchSpyre.Bundle.Names
import TorchSpyre.Bundle.Sdsc

/-!
# What compiling without the cache leaves

Every symbol is a kernel argument, a slice of one, a core's part of a tensor, a place in the pool or a
shard, and a key is registered once, behind the symbol that its address is derived from.  Each operation
has an entry, and its symbols stand in the symbol list from its offset on.
-/

namespace TorchSpyre.Bundle

open Lib

namespace SDSCArgs

variable (tensor : SDSCArgs)

/-- In a kernel argument, each core's part at an offset. -/
structure InArgument : Prop where
  unified : tensor.nonUnified = false
  outside : tensor.inLx = false
  nonneg : 0 ≤ tensor.argIndex

/-- The core's address is not that of core zero. -/
def Apart (core : ℕ) : Prop := ¬(core = 0 ∨ tensor.coreAddress core = tensor.coreAddress 0)

def slicedBaseKind : SymbolKind :=
  if 0 < tensor.totalSliceOffset then .kernelSlice tensor.argIndex tensor.totalSliceOffset
  else .kernel tensor.argIndex

end SDSCArgs

/-- What a symbol may be behind the earlier ones. -/
inductive Means (tensors : List SDSCArgs) (numCores base : ℕ) (earlier : List SymbolKind) :
    ℤ → SymbolKind → Prop where
  | kernel {argIndex : ℤ} (nonneg : 0 ≤ argIndex) :
    Means tensors numCores base earlier argIndex (.kernel argIndex)
  | kernelSlice (value : ℤ) {argIndex : ℤ} (offset : ℤ) (nonneg : 0 ≤ argIndex)
      (isBase : SymbolKind.kernel argIndex ∈ earlier) :
        Means tensors numCores base earlier value (.kernelSlice argIndex offset)
  | kernelDerived {tensor : SDSCArgs} {core position : ℕ} (inside : tensor ∈ tensors)
      (isArgument : tensor.InArgument) (below : core < numCores) (apart : tensor.Apart core)
      (isBase : earlier[position]? = some tensor.slicedBaseKind) :
      Means tensors numCores base earlier (tensor.coreAddress core)
        (.kernelDerived (base + position) (tensor.coreAddress core - tensor.coreAddress 0) tensor.argIndex)
  | kernelDerivedSymbolic (value argIndex : ℤ) (coreIdx splitCount baseSymIdx : ℕ) (pytorchSym : String) :
      Means tensors numCores base earlier value
        (.kernelDerivedSymbolic argIndex coreIdx splitCount baseSymIdx pytorchSym)
  | pool (value : ℤ) : Means tensors numCores base earlier value .pool
  | shardKernel (value argIndex : ℤ) (coreIdx numShards shardBytes : ℕ) :
      Means tensors numCores base earlier value (.shardKernel argIndex coreIdx numShards shardBytes)

/-- The symbols of one program in step, each key once. -/
structure Registry (tensors : List SDSCArgs) (numCores base : ℕ) (symbols : LocalSymbols) : Prop where
  nodup : symbols.keys.Nodup
  values : symbols.values.length = symbols.keys.length
  kinds : symbols.kinds.length = symbols.keys.length
  means : ∀ idx value kind, symbols.values[idx]? = some value → symbols.kinds[idx]? = some kind →
    symbols.keys[idx]? = some (symbolKey value kind) ∧
      Means tensors numCores base (symbols.kinds.take idx) value kind

section Registration

variable {tensors : List SDSCArgs} {numCores base : ℕ} {symbols : LocalSymbols}

theorem getElem?_append_singleton_eq_some {Item : Type} {items : List Item} {last found : Item} {idx : ℕ}
    (located : (items ++ [last])[idx]? = some found) :
    items[idx]? = some found ∨ idx = items.length ∧ last = found := by
  rcases lt_or_ge idx items.length with inside | beyond
  · rw [List.getElem?_append_left inside] at located
    exact .inl located
  · rw [List.getElem?_append_right beyond, List.getElem?_singleton] at located
    split at located
    next atEnd => exact .inr ⟨le_antisymm (Nat.sub_eq_zero_iff_le.mp atEnd) beyond, Option.some.inj located⟩
    next => cases located

theorem getElem?_of_prefix {Item : Type} {items more : List Item} {found : Item} {idx : ℕ}
    (kept : items <+: more)
    (located : items[idx]? = some found) : more[idx]? = some found := by
  obtain ⟨behind, rfl⟩ := kept
  obtain ⟨inside, -⟩ := List.getElem?_eq_some_iff.mp located
  rwa [List.getElem?_append_left inside]

theorem prefix_offsetAsSymbol (symbols : LocalSymbols) (value : ℤ) (kind : SymbolKind) :
    symbols.keys <+: (offsetAsSymbol symbols value kind).keys := by
  unfold offsetAsSymbol
  split
  next => exact List.prefix_refl _
  next => exact List.prefix_append _ _

theorem symbolKey_mem_offsetAsSymbol (symbols : LocalSymbols) (value : ℤ) (kind : SymbolKind) :
    symbolKey value kind ∈ (offsetAsSymbol symbols value kind).keys := by
  unfold offsetAsSymbol
  split
  next listed => exact listed
  next => simp

theorem slicedBaseKey_mem_registerKernel (tensor : SDSCArgs) (symbols : LocalSymbols) :
    tensor.slicedBaseKey ∈ (registerKernel tensor symbols).keys := by
  unfold SDSCArgs.slicedBaseKey registerKernel
  dsimp only
  split
  next => exact symbolKey_mem_offsetAsSymbol _ _ (.kernelSlice _ _)
  next => exact symbolKey_mem_offsetAsSymbol _ _ (.kernel _)

theorem prefix_registerCore (tensor : SDSCArgs) (slicedBase : ℕ) (symbols : LocalSymbols) (core : ℕ) :
    symbols.keys <+: (registerCore tensor slicedBase symbols core).keys := by
  unfold registerCore
  split
  next => exact prefix_offsetAsSymbol _ _ _
  next =>
    split
    next => exact List.prefix_refl _
    next => exact prefix_offsetAsSymbol _ _ _

theorem Registry.empty : Registry tensors numCores base .empty :=
  ⟨List.nodup_nil, rfl, rfl, fun _ _ _ listed => by simp [LocalSymbols.empty] at listed⟩

namespace Registry

variable (registry : Registry tensors numCores base symbols)

include registry

theorem offsetAsSymbol {value : ℤ} {kind : SymbolKind}
    (means : Means tensors numCores base symbols.kinds value kind) :
    Registry tensors numCores base (offsetAsSymbol symbols value kind) := by
  unfold Bundle.offsetAsSymbol
  split
  next => exact registry
  next fresh =>
    refine ⟨List.nodup_append_comm.mp (List.nodup_cons.mpr ⟨fresh, registry.nodup⟩), ?_, ?_, ?_⟩
    · simp [registry.values]
    · simp [registry.kinds]
    · intro idx other otherKind isValue isKind
      dsimp only at isValue isKind ⊢
      rcases getElem?_append_singleton_eq_some isValue with earlier | ⟨rfl, rfl⟩
      · obtain ⟨inside, -⟩ := List.getElem?_eq_some_iff.mp earlier
        have known : symbols.kinds[idx]? = some otherKind := by
          rwa [List.getElem?_append_left (by rw [registry.kinds, ← registry.values]; exact inside)] at isKind
        obtain ⟨isKey, old⟩ := registry.means idx other otherKind earlier known
        rw [registry.values] at inside
        refine ⟨by rwa [List.getElem?_append_left inside], ?_⟩
        rwa [List.take_append_of_le_length (by rw [registry.kinds]; exact le_of_lt inside)]
      · rw [registry.values, ← registry.kinds, List.getElem?_concat_length] at isKind
        cases isKind
        rw [registry.values]
        refine ⟨List.getElem?_concat_length, ?_⟩
        rwa [← registry.kinds, List.take_left]

theorem located {position : ℕ} {key : SymbolKey} (isKey : symbols.keys[position]? = some key) :
    ∃ value kind, symbols.values[position]? = some value ∧ symbols.kinds[position]? = some kind ∧
      symbolKey value kind = key ∧
        Means tensors numCores base (symbols.kinds.take position) value kind := by
  obtain ⟨inside, -⟩ := List.getElem?_eq_some_iff.mp isKey
  obtain ⟨value, isValue⟩ : ∃ value, symbols.values[position]? = some value :=
    ⟨_, List.getElem?_eq_getElem (by rw [registry.values]; exact inside)⟩
  obtain ⟨kind, isKind⟩ : ∃ kind, symbols.kinds[position]? = some kind :=
    ⟨_, List.getElem?_eq_getElem (by rw [registry.kinds]; exact inside)⟩
  obtain ⟨same, means⟩ := registry.means position value kind isValue isKind
  rw [isKey, Option.some.injEq] at same
  exact ⟨value, kind, isValue, isKind, same.symm, means⟩

/-- A base address is told by its key. -/
theorem slicedBase {tensor : SDSCArgs} {position : ℕ}
    (isKey : symbols.keys[position]? = some tensor.slicedBaseKey) :
    symbols.kinds[position]? = some tensor.slicedBaseKind := by
  obtain ⟨value, kind, -, isKind, same, -⟩ := registry.located isKey
  rw [isKind]
  unfold SDSCArgs.slicedBaseKey at same
  unfold SDSCArgs.slicedBaseKind
  split at same
  next sliced =>
    rw [if_pos sliced]
    cases kind <;> simp [symbolKey] at same
    rw [same.1, same.2]
  next unsliced =>
    rw [if_neg unsliced]
    cases kind <;> simp [symbolKey] at same
    rw [same]

theorem kernel_mem {argIndex : ℤ} (listed : .kernel argIndex ∈ symbols.keys) :
    SymbolKind.kernel argIndex ∈ symbols.kinds := by
  obtain ⟨position, isKey⟩ := List.mem_iff_getElem?.mp listed
  obtain ⟨value, kind, -, isKind, same, -⟩ := registry.located isKey
  cases kind <;> simp [symbolKey] at same
  rw [← same]
  exact List.mem_of_getElem? isKind

theorem registerKernel {tensor : SDSCArgs} (nonneg : 0 ≤ tensor.argIndex) :
    Registry tensors numCores base (registerKernel tensor symbols) := by
  have kernel := registry.offsetAsSymbol (.kernel nonneg)
  unfold Bundle.registerKernel
  dsimp only
  split
  next =>
    have listed := symbolKey_mem_offsetAsSymbol symbols tensor.argIndex (.kernel tensor.argIndex)
    exact kernel.offsetAsSymbol (.kernelSlice _ _ nonneg (kernel.kernel_mem listed))
  next => exact kernel

theorem registerCore {tensor : SDSCArgs} {position core : ℕ} (inside : tensor ∈ tensors)
    (unified : tensor.nonUnified = false) (outside : tensor.inLx = false)
    (isBase : 0 ≤ tensor.argIndex → symbols.keys[position]? = some tensor.slicedBaseKey)
    (below : core < numCores) :
    Registry tensors numCores base (registerCore tensor (base + position) symbols core) := by
  unfold Bundle.registerCore
  split
  next => exact registry.offsetAsSymbol (.pool _)
  next argument =>
    have nonneg := not_lt.mp argument
    split
    next => exact registry
    next apart =>
      unfold derivedKind
      split
      next => exact registry.offsetAsSymbol (.kernelDerivedSymbolic _ _ _ _ _ _)
      next =>
        exact registry.offsetAsSymbol
          (.kernelDerived inside ⟨unified, outside, nonneg⟩ below apart (registry.slicedBase (isBase nonneg)))

theorem registerTensor {tensor : SDSCArgs} (inside : tensor ∈ tensors) :
    Registry tensors numCores base (registerTensor numCores base symbols tensor) := by
  unfold Bundle.registerTensor
  split
  next =>
    exact List.foldlRecOn _ _ registry fun _ earlier _ _ => earlier.offsetAsSymbol (.shardKernel _ _ _ _ _)
  next unified =>
    rw [Bool.not_eq_true] at unified
    split
    next => exact registry
    next outside =>
      rw [Bool.not_eq_true] at outside
      dsimp only
      generalize isRegistered :
        (if tensor.argIndex < 0 then symbols else Bundle.registerKernel tensor symbols) =
        registered
      have start : Registry tensors numCores base registered ∧ (0 ≤ tensor.argIndex →
          registered.keys[registered.keys.idxOf tensor.slicedBaseKey]? = some tensor.slicedBaseKey) := by
        subst isRegistered
        split
        next pool => exact ⟨registry, fun nonneg => absurd pool (not_lt.mpr nonneg)⟩
        next argument =>
          refine ⟨registry.registerKernel (not_lt.mp argument), fun _ => List.getElem?_idxOf ?_⟩
          exact slicedBaseKey_mem_registerKernel tensor symbols
      refine (List.foldlRecOn (motive := fun (symbols : LocalSymbols) =>
        Registry tensors numCores base symbols ∧
        (0 ≤ tensor.argIndex → symbols.keys[registered.keys.idxOf tensor.slicedBaseKey]? =
          some tensor.slicedBaseKey)) _ _ start ?_).1
      rintro earlier ⟨before, isBase⟩ core inRange
      refine ⟨before.registerCore inside unified outside isBase (List.mem_range.mp inRange), ?_⟩
      exact fun nonneg => getElem?_of_prefix (prefix_registerCore _ _ _ _) (isBase nonneg)

end Registry

theorem registry_localSymbols {Body DebugHandle : Type} (spec : SDSCSpec Body DebugHandle) (offset : ℕ) :
    Registry spec.args spec.numCores (spec.addressBase offset) (spec.localSymbols offset) :=
  List.foldlRecOn _ _ .empty fun _ earlier _ inside => earlier.registerTensor inside

end Registration

variable {Body DebugHandle : Type}

/-! ## One operation's symbols -/

theorem isBase_slicedBaseKind (tensor : SDSCArgs) : tensor.slicedBaseKind.IsBase := by
  unfold SDSCArgs.slicedBaseKind
  split
  next => exact .inr ⟨_, _, rfl⟩
  next => exact .inl ⟨_, rfl⟩

theorem Means.based {tensors : List SDSCArgs} {numCores : ℕ} {front earlier : List SymbolKind} {value : ℤ}
    {kind : SymbolKind} (means : Means tensors numCores front.length earlier value kind) :
    Based (front ++ earlier) kind := by
  cases means with
  | kernel nonneg => exact .kernel _
  | kernelSlice value offset nonneg isBase => exact .kernelSlice _ (List.mem_append_right _ isBase)
  | @kernelDerived tensor core position inside isArgument below apart isBase =>
      have located : (front ++ earlier)[front.length + position]? = some tensor.slicedBaseKind := by
        rw [List.getElem?_append_right (Nat.le_add_right _ _), Nat.add_sub_cancel_left]
        exact isBase
      exact .kernelDerived _ _ located (isBase_slicedBaseKind _)
  | kernelDerivedSymbolic value argIndex coreIdx splitCount baseSymIdx pytorchSym =>
      exact .kernelDerivedSymbolic _ _ _ _ _
  | pool value => exact .pool
  | shardKernel value argIndex coreIdx numShards shardBytes => exact .shardKernel _ _ _ _

/-- The kinds that come first are those of dimensions. -/
def SDSCSpec.dimensionKinds (spec : SDSCSpec Body DebugHandle) : List SymbolKind :=
  spec.registeredDims.map fun dim => .dimension dim.granularity dim.maxValue dim.pytorchSym

theorem SDSCSpec.addressBase_eq (spec : SDSCSpec Body DebugHandle) (offset : ℕ) :
    spec.addressBase offset = offset + spec.dimensionKinds.length := by
  simp [SDSCSpec.addressBase, SDSCSpec.dimSyms, SDSCSpec.dimensionKinds]

/-- The parts of a compilation that have to do with symbols. -/
structure Generated (spec : SDSCSpec Body DebugHandle) (offset : ℕ)
    (result : Compilation Body DebugHandle) : Prop where
  scheduleTree : spec.args.mapM (spec.scheduleNode offset) = some result.sdscJson.scheduleTree
  numCoresUsed : result.sdscJson.numCoresUsed = spec.numCoresUsed
  values : result.symbolValues = spec.registeredDims.map (fun _ => 0) ++ (spec.localSymbols offset).values
  kinds : result.symbolKinds = spec.dimensionKinds ++ (spec.localSymbols offset).kinds
  affineStrides : result.affineStrides = spec.args.map SDSCArgs.affineStrides
  dimensions : result.sdscJson.dimToSymbolMapping = spec.symbolicDims.entries.map fun entry =>
    (entry.1, spec.dimSymbolId offset entry.2.pytorchSym)

theorem generated_of_eq_some {spec : SDSCSpec Body DebugHandle} {idx offset : ℕ}
    {result : Compilation Body DebugHandle} (isResult : generateSdsc idx spec offset = some result) :
    Generated spec offset result := by
  unfold generateSdsc at isResult
  split at isResult
  next =>
    obtain ⟨scheduleTree, isTree, isRest⟩ := Option.bind_eq_some_iff.mp isResult
    cases isRest
    exact ⟨isTree, rfl, rfl, rfl, rfl, rfl⟩
  next => cases isResult

theorem Generated.length_eq {spec : SDSCSpec Body DebugHandle} {offset : ℕ}
    {result : Compilation Body DebugHandle} (generated : Generated spec offset result) :
    result.symbolKinds.length = result.symbolValues.length := by
  have registry := registry_localSymbols spec offset
  rw [generated.kinds, generated.values, SDSCSpec.dimensionKinds]
  simp [registry.kinds, registry.values]

theorem Generated.based {spec : SDSCSpec Body DebugHandle} {before : List SymbolKind}
    {result : Compilation Body DebugHandle} (generated : Generated spec before.length result)
    (based : ∀ symIdx kind, before[symIdx]? = some kind → Based (before.take symIdx) kind) :
    ∀ symIdx kind, (before ++ result.symbolKinds)[symIdx]? = some kind →
      Based ((before ++ result.symbolKinds).take symIdx) kind := by
  intro symIdx kind isKind
  have registry := registry_localSymbols spec before.length
  have base : spec.addressBase before.length = (before ++ spec.dimensionKinds).length := by
    rw [spec.addressBase_eq, List.length_append]
  rcases lt_or_ge symIdx before.length with earlier | own
  · rw [List.getElem?_append_left earlier] at isKind
    rw [List.take_append_of_le_length (le_of_lt earlier)]
    exact based symIdx kind isKind
  · rw [generated.kinds, ← List.append_assoc] at isKind ⊢
    rcases lt_or_ge symIdx (before ++ spec.dimensionKinds).length with isDimension | isAddress
    · rw [List.getElem?_append_left isDimension, List.getElem?_append_right own] at isKind
      obtain ⟨dim, -, rfl⟩ := List.mem_map.mp (List.mem_of_getElem? isKind)
      exact .dimension _ _ _
    · obtain ⟨position, rfl⟩ := Nat.exists_eq_add_of_le isAddress
      rw [List.getElem?_append_right isAddress, Nat.add_sub_cancel_left] at isKind
      obtain ⟨inside, -⟩ := List.getElem?_eq_some_iff.mp isKind
      obtain ⟨value, isValue⟩ : ∃ value, (spec.localSymbols before.length).values[position]? = some value :=
        ⟨_, List.getElem?_eq_getElem (by rw [registry.values, ← registry.kinds]; exact inside)⟩
      have means := (registry.means position value kind isValue isKind).2
      rw [base] at means
      rw [List.take_length_add_append]
      exact means.based

/-! ## All operations -/

def CompileState.kinds (state : CompileState Body DebugHandle) : List SymbolKind :=
  (state.compiled.map CompiledEntry.symbolKinds).flatten

/-- The symbols so far, as many as the offset counts. -/
structure Aligned (state : CompileState Body DebugHandle) : Prop where
  uncached : state.sdscCache = none
  symbols : state.symbols.length = state.symbolIdOffsetCounter
  kinds : state.kinds.length = state.symbolIdOffsetCounter
  based : ∀ symIdx kind, state.kinds[symIdx]? = some kind → Based (state.kinds.take symIdx) kind
  files : FilesNumbered state

/-- The entry of an operation. -/
structure Stands (state : CompileState Body DebugHandle) (op : OpSpec Body DebugHandle)
    (entry : CompiledEntry Body DebugHandle) : Prop where
  located : ∃ offset result, Generated op.sdscSpec offset result ∧
    (∀ position value, result.symbolValues[position]? = some value →
      state.symbols[offset + position]? = some value) ∧
    (∀ position kind, result.symbolKinds[position]? = some kind →
      state.kinds[offset + position]? = some kind) ∧
    entry = ⟨result.sdscJson, result.symbolValues, result.affineStrides, result.symbolKinds, result.sdscJson⟩
  written : (entry.cachedJson.idx, entry.sdscJson) ∈ state.files
  compiled : ∃ idx offset result, generateSdsc idx op.sdscSpec offset = some result ∧
    entry.sdscJson = result.sdscJson

/-- What later operations keep. -/
structure Grows (state next : CompileState Body DebugHandle) : Prop where
  symbols : state.symbols <+: next.symbols
  kinds : state.kinds <+: next.kinds
  files : state.files ⊆ next.files

theorem Grows.refl (state : CompileState Body DebugHandle) : Grows state state :=
  ⟨List.prefix_refl _, List.prefix_refl _, List.Subset.refl _⟩

theorem Grows.trans {state next last : CompileState Body DebugHandle} (first : Grows state next)
    (second : Grows next last) : Grows state last :=
  ⟨first.symbols.trans second.symbols, first.kinds.trans second.kinds,
    List.Subset.trans first.files second.files⟩

theorem Stands.mono {state next : CompileState Body DebugHandle} {op : OpSpec Body DebugHandle}
    {entry : CompiledEntry Body DebugHandle} (stands : Stands state op entry) (grows : Grows state next) :
    Stands next op entry where
  located := by
    obtain ⟨offset, result, generated, values, kinds, isEntry⟩ := stands.located
    refine ⟨offset, result, generated, ?_, ?_, isEntry⟩
    · exact fun position value isValue => getElem?_of_prefix grows.symbols (values position value isValue)
    · exact fun position kind isKind => getElem?_of_prefix grows.kinds (kinds position kind isKind)
  written := grows.files stands.written
  compiled := stands.compiled

theorem idx_of_generateSdsc {spec : SDSCSpec Body DebugHandle} {idx offset : ℕ}
    {result : Compilation Body DebugHandle} (isResult : generateSdsc idx spec offset = some result) :
    result.sdscJson.idx = idx := by
  unfold generateSdsc at isResult
  split at isResult
  next =>
    obtain ⟨scheduleTree, -, isRest⟩ := Option.bind_eq_some_iff.mp isResult
    cases isRest
    rfl
  next => cases isResult

theorem compileOp_aligned [DecidableEq Body] {state next : CompileState Body DebugHandle}
    (aligned : Aligned state)
    {op : OpSpec Body DebugHandle} (compiled : state.compileOp op = some next) :
    Aligned next ∧ Grows state next ∧
      ∃ entry, next.compiled = state.compiled ++ [entry] ∧ Stands next op entry := by
  unfold CompileState.compileOp at compiled
  rw [aligned.uncached] at compiled
  obtain ⟨result, isResult, rfl⟩ := Option.map_eq_some_iff.mp compiled
  have generated := generated_of_eq_some isResult
  rw [← aligned.kinds] at generated
  have kinds : (state.kinds ++ result.symbolKinds).length =
      state.symbolIdOffsetCounter + result.symbolValues.length := by
    rw [List.length_append, aligned.kinds, generated.length_eq]
  have isKinds : CompileState.kinds { state.append result result.sdscJson with
      sdscCounter := state.sdscCounter + 1
      sdscCache := state.sdscCache
      files := state.files ++ [(state.sdscCounter, result.sdscJson)] } = state.kinds ++
        result.symbolKinds := by
    simp [CompileState.kinds, CompileState.append]
  refine ⟨⟨aligned.uncached, ?_, ?_, ?_, aligned.files.extend rfl rfl⟩, ⟨?_, ?_, ?_⟩, _, rfl, ?_, ?_,
    ⟨_, _, _, isResult, rfl⟩⟩
  · simp [CompileState.append, aligned.symbols]
  · rw [isKinds, kinds]
    rfl
  · rw [isKinds]
    exact generated.based aligned.based
  · exact List.prefix_append _ _
  · rw [isKinds]
    exact List.prefix_append _ _
  · exact List.subset_append_left _ _
  · refine ⟨state.kinds.length, result, generated, ?_, ?_, rfl⟩
    · intro position value isValue
      rw [aligned.kinds, ← aligned.symbols]
      dsimp only [CompileState.append]
      rwa [List.getElem?_append_right (Nat.le_add_right _ _), Nat.add_sub_cancel_left]
    · intro position kind isKind
      rwa [isKinds, List.getElem?_append_right (Nat.le_add_right _ _), Nat.add_sub_cancel_left]
  · dsimp only
    rw [idx_of_generateSdsc isResult]
    simp

/-- The operations in the order of the text. -/
def operations (specs : List (SpecTree Body DebugHandle)) : List (OpSpec Body DebugHandle) :=
  (RoseTree.leaves specs).reduceOption

theorem compileSpecs_aligned [DecidableEq Body] (specs : List (SpecTree Body DebugHandle))
    {state next : CompileState Body DebugHandle} (aligned : Aligned state)
    (compiled : compileSpecs specs state = some next) :
    Aligned next ∧ Grows state next ∧
      ∃ entries, next.compiled = state.compiled ++ entries ∧
        List.Forall₂ (Stands next) (operations specs) entries := by
  induction specs using RoseTree.forest_induction generalizing state next with
  | nil =>
      cases compiled
      exact ⟨aligned, .refl _, [], (List.append_nil _).symm, .nil⟩
  | leaf item rest inductionHypothesis =>
      cases item with
      | none => exact inductionHypothesis aligned compiled
      | some op =>
          obtain ⟨middle, isMiddle, isNext⟩ := Option.bind_eq_some_iff.mp compiled
          obtain ⟨middleAligned, toMiddle, entry, isEntry, stands⟩ := compileOp_aligned aligned isMiddle
          obtain ⟨nextAligned, toNext, entries, isEntries, others⟩ := inductionHypothesis middleAligned isNext
          refine ⟨nextAligned, toMiddle.trans toNext, entry :: entries, ?_, ?_⟩
          · rw [isEntries, isEntry, List.append_assoc, List.singleton_append]
          · exact .cons (stands.mono toNext) others
  | node count body rest bodyHypothesis restHypothesis =>
      obtain ⟨middle, isMiddle, isNext⟩ := Option.bind_eq_some_iff.mp compiled
      obtain ⟨middleAligned, toMiddle, inside, isInside, standInside⟩ := bodyHypothesis aligned isMiddle
      obtain ⟨nextAligned, toNext, behind, isBehind, standBehind⟩ := restHypothesis middleAligned isNext
      refine ⟨nextAligned, toMiddle.trans toNext, inside ++ behind, ?_, ?_⟩
      · rw [isBehind, isInside, List.append_assoc]
      · rw [operations, RoseTree.leaves_node_cons, List.reduceOption_append]
        exact List.rel_append (standInside.imp fun _ _ stands => stands.mono toNext) standBehind

theorem aligned_initial : Aligned (.initial false : CompileState Body DebugHandle) where
  uncached := rfl
  symbols := rfl
  kinds := rfl
  based := fun _ _ impossible => by cases impossible
  files := ⟨fun _ listed => absurd listed List.not_mem_nil, List.nodup_nil⟩

end TorchSpyre.Bundle
