import TorchSpyre.Bundle.Compile

/-!
# What the offset does to a program

An offset shifts the numbers of the symbols and does nothing else. So programs with the same text at
offset zero are one program up to the numbers, and these come in the same order.
-/

namespace TorchSpyre.Bundle

open Lib

/-! ## Renaming -/

/-- Only negative numbers are symbols. -/
def shiftId (offset : ℕ) (symId : ℤ) : ℤ := if symId < 0 then symId - offset else symId

@[simp]
theorem shiftId_neg_iff {offset : ℕ} {symId : ℤ} : shiftId offset symId < 0 ↔ symId < 0 := by
  unfold shiftId
  split <;> omega

theorem shiftId_injective (offset : ℕ) : Function.Injective (shiftId offset) := by
  intro one other same
  unfold shiftId at same
  split at same <;> split at same <;> omega

theorem shiftId_shiftId {first second : ℕ} (symId : ℤ) :
    shiftId second (shiftId first symId) = shiftId (first + second) symId := by
  by_cases isSymbol : symId < 0
  · have stays : symId - first < 0 := by omega
    simp only [shiftId, if_pos isSymbol, if_pos stays]
    omega
  · simp only [shiftId, if_neg isSymbol]

def ScheduleNode.rename (rename : ℤ → ℤ) (node : ScheduleNode) : ScheduleNode :=
  if node.component = .hbm then { node with data := node.data.map rename } else node

variable {Body DebugHandle : Type}

def SdscJson.rename (rename : ℤ → ℤ) (json : SdscJson Body DebugHandle) : SdscJson Body DebugHandle :=
  { json with
    dimToSymbolMapping := json.dimToSymbolMapping.map fun entry => (entry.1, rename entry.2)
    scheduleTree := json.scheduleTree.map (ScheduleNode.rename rename)
    inputSymbolsAndTags := json.inputSymbolsAndTags.map fun tag => (rename tag.1, tag.2) }

/-! ## Registration does not look at the offset -/

theorem keys_offsetAsSymbol (symbols : LocalSymbols) (address : ℤ) (kind : SymbolKind) :
    (offsetAsSymbol symbols address kind).keys = addNew symbols.keys (symbolKey address kind) := by
  unfold offsetAsSymbol addNew
  split <;> rfl

theorem keys_foldl {Item : Type} {first second : LocalSymbols → Item → LocalSymbols} {items : List Item}
    (step : ∀ one other item, one.keys = other.keys → (first one item).keys = (second other item).keys)
    {one other : LocalSymbols} (same : one.keys = other.keys) :
    (items.foldl first one).keys = (items.foldl second other).keys := by
  induction items generalizing one other with
  | nil => exact same
  | cons item items inductionHypothesis => exact inductionHypothesis (step one other item same)

theorem keys_registerKernel {tensor : SDSCArgs} {one other : LocalSymbols} (same : one.keys = other.keys) :
    (registerKernel tensor one).keys = (registerKernel tensor other).keys := by
  unfold registerKernel
  dsimp only
  split <;> simp only [keys_offsetAsSymbol, same]

theorem symbolKey_derivedKind (address : ℤ) (tensor : SDSCArgs) (slicedBase otherBase core : ℕ) :
    symbolKey address (derivedKind tensor slicedBase core) =
      symbolKey address (derivedKind tensor otherBase core) := by
  unfold derivedKind
  split <;> rfl

theorem keys_registerCore {tensor : SDSCArgs} {slicedBase otherBase : ℕ} {one other : LocalSymbols}
    (core : ℕ) (same : one.keys = other.keys) :
    (registerCore tensor slicedBase one core).keys = (registerCore tensor otherBase other core).keys := by
  unfold registerCore
  split
  next => simp only [keys_offsetAsSymbol, same]
  next =>
    split
    next => exact same
    next => rw [keys_offsetAsSymbol, keys_offsetAsSymbol, same, symbolKey_derivedKind]

theorem keys_registerTensor {numCores base otherBase : ℕ} {one other : LocalSymbols} (tensor : SDSCArgs)
    (same : one.keys = other.keys) :
    (registerTensor numCores base one tensor).keys = (registerTensor numCores otherBase other tensor).keys := by
  unfold registerTensor
  split
  next =>
    apply keys_foldl _ same
    intro first second core agree
    unfold registerShard
    rw [keys_offsetAsSymbol, keys_offsetAsSymbol, agree]
  next =>
    split
    next => exact same
    next =>
      apply keys_foldl
      · exact fun first second core agree => keys_registerCore core agree
      · split
        next => exact same
        next => exact keys_registerKernel same

variable (spec : SDSCSpec Body DebugHandle)

theorem keys_localSymbols (offset : ℕ) : (spec.localSymbols offset).keys = (spec.localSymbols 0).keys :=
  keys_foldl (fun _ _ tensor same => keys_registerTensor tensor same) rfl

theorem symbolId_localSymbols (offset : ℕ) (key : SymbolKey) :
    (spec.localSymbols offset).symbolId (spec.addressBase offset) key =
      ((spec.localSymbols 0).symbolId (spec.addressBase 0) key).map (shiftId offset) := by
  unfold LocalSymbols.symbolId LocalSymbols.symIdx
  rw [keys_localSymbols]
  split
  next =>
    simp only [Option.map_some, SDSCSpec.addressBase, shiftId]
    rw [if_pos (by omega)]
    congr 1
    omega
  next => rfl

theorem dimSymbolId_offset (offset : ℕ) (pytorchSym : String) :
    spec.dimSymbolId offset pytorchSym = shiftId offset (spec.dimSymbolId 0 pytorchSym) := by
  unfold SDSCSpec.dimSymbolId shiftId
  rw [if_pos (by omega)]
  omega

theorem mapM_map {Item First Second : Type} (read : Item → Option First) (rename : First → Second)
    (items : List Item) :
    (items.mapM fun item => (read item).map rename) = (items.mapM read).map (List.map rename) := by
  induction items with
  | nil => rfl
  | cons item items inductionHypothesis =>
      rw [List.mapM_cons, List.mapM_cons, inductionHypothesis]
      cases read item with
      | none => rfl
      | some first => cases items.mapM read <;> rfl

theorem scheduleNode_offset (offset : ℕ) (tensor : SDSCArgs) :
    spec.scheduleNode offset tensor =
      (spec.scheduleNode 0 tensor).map (ScheduleNode.rename (shiftId offset)) := by
  unfold SDSCSpec.scheduleNode SDSCSpec.startAddrData
  by_cases inScratchpad : ¬tensor.nonUnified ∧ tensor.inLx
  · rw [if_pos inScratchpad, if_pos inScratchpad]
    simp only [Option.map_some, inScratchpad.2, if_true, ScheduleNode.rename, reduceCtorEq, if_false]
  · have inHbm : tensor.inLx = false := by
      by_cases sharded : tensor.nonUnified = true
      · exact tensor.shardsInHbm (of_decide_eq_true sharded)
      · simpa [sharded] using inScratchpad
    rw [if_neg inScratchpad, if_neg inScratchpad]
    simp only [symbolId_localSymbols spec offset]
    rw [mapM_map, Option.map_map, Option.map_map]
    congr 1
    funext data
    simp [ScheduleNode.rename, inHbm]

/-- The program at an offset is the one at offset zero with its symbols shifted. -/
theorem generateSdsc_offset (idx offset : ℕ) :
    (generateSdsc idx spec offset).map Compilation.sdscJson =
      (generateSdsc 0 spec 0).map fun canonical =>
        { canonical.sdscJson.rename (shiftId offset) with idx := idx } := by
  unfold generateSdsc
  split
  next =>
    have nodes : spec.args.mapM (spec.scheduleNode offset) =
        (spec.args.mapM (spec.scheduleNode 0)).map (List.map (ScheduleNode.rename (shiftId offset))) := by
      rw [← mapM_map]
      congr 1
      funext tensor
      exact scheduleNode_offset spec offset tensor
    rw [nodes]
    cases spec.args.mapM (spec.scheduleNode 0) with
    | none => rfl
    | some scheduleTree => simp [SdscJson.rename, dimSymbolId_offset spec offset]
  next => rfl

/-- Nothing but the name depends on the number. -/
theorem generateSdsc_idx (idx otherIdx offset : ℕ) :
    generateSdsc idx spec offset = (generateSdsc otherIdx spec offset).map fun result =>
      { result with sdscJson := { result.sdscJson with idx := idx } } := by
  unfold generateSdsc
  split
  next => cases spec.args.mapM (spec.scheduleNode offset) <;> rfl
  next => rfl

end TorchSpyre.Bundle
