import TorchSpyre.Bundle.Compile

/-!
# The bundle

The text that calls the programs: declarations of the symbols, maps for the addresses that advance
with a loop, and the specification tree again with a call for each operation.
-/

namespace TorchSpyre.Bundle

open Lib

/-! ## Names -/

inductive SsaName where
  | arg (argIndex : ℤ)
  | shard (argIndex : ℤ) (coreIdx : ℕ)
  | dimension (sdscIdx ordinal : ℕ)
  | slice (argIndex offset : ℤ)
  | core (base : SsaName) (offset : ℤ)
  | poolAddr (offset : ℤ)
  | sym (number : ℕ)
  | addr (number : ℕ)
  deriving DecidableEq, Repr

inductive Definition where
  | argExtract (argIndex : ℤ)
  | shardExtract (argIndex : ℤ) (coreIdx : ℕ)
  | dimensionExtract (pytorchSym : String)
  | constant (value : ℤ)
  | addi (base : SsaName) (offset : ℤ)
  | poolAddi (offset : ℤ)
  deriving DecidableEq, Repr

section Symbols

/-- `_dedup_syms`: the first symbol with the same key. -/
def canonicalIdx {Key : Type} [DecidableEq Key] (key : SymbolKind → Option Key) (kinds : List SymbolKind)
    (symIdx : ℕ) : Option ℕ :=
  (kinds[symIdx]?).bind fun kind =>
    (key kind).bind fun value => kinds.findIdx? fun other => key other = some value

def canonicalSyms {Key : Type} [DecidableEq Key] (key : SymbolKind → Option Key)
    (kinds : List SymbolKind) : List ℕ :=
  (List.range kinds.length).filter fun symIdx => canonicalIdx key kinds symIdx = some symIdx

def kernelKey : SymbolKind → Option ℤ
  | .kernel argIndex => some argIndex
  | _ => none

def shardKey : SymbolKind → Option (ℤ × ℕ)
  | .shardKernel argIndex coreIdx _ _ => some (argIndex, coreIdx)
  | _ => none

def dimensionKey : SymbolKind → Option String
  | .dimension _ _ pytorchSym => some pytorchSym
  | _ => none

def localOrigins (sdscIdx : ℕ) : ℕ → List SymbolKind → List (Option (ℕ × ℕ))
  | _, [] => []
  | ordinal, kind :: kinds =>
      if (dimensionKey kind).isSome then some (sdscIdx, ordinal + 1) :: localOrigins sdscIdx (ordinal + 1) kinds
      else none :: localOrigins sdscIdx ordinal kinds

/-- For each symbol of a dimension its program and its place among the dimensions there. -/
def dimOrigins (kindsOfSdscs : List (List SymbolKind)) : List (Option (ℕ × ℕ)) :=
  kindsOfSdscs.zipIdx.flatMap fun kinds => localOrigins kinds.2 0 kinds.1

def kernelName (kinds : List SymbolKind) (symIdx : ℕ) : Option SsaName :=
  (canonicalIdx kernelKey kinds symIdx).bind fun canonical =>
    ((kinds[canonical]?).bind kernelKey).map .arg

def shardName (kinds : List SymbolKind) (symIdx : ℕ) : Option SsaName :=
  (canonicalIdx shardKey kinds symIdx).bind fun canonical =>
    ((kinds[canonical]?).bind shardKey).map fun key => .shard key.1 key.2

def dimensionName (kindsOfSdscs : List (List SymbolKind)) (symIdx : ℕ) : Option SsaName :=
  (canonicalIdx dimensionKey kindsOfSdscs.flatten symIdx).bind fun canonical =>
    ((dimOrigins kindsOfSdscs)[canonical]?).join.map fun origin => .dimension origin.1 origin.2

/-! ## Declarations -/

structure Preamble where
  symCanonical : ℕ → Option SsaName
  declarations : List (SsaName × Definition)

namespace Preamble

/-- What the function's parameters give. -/
def extracted (kindsOfSdscs : List (List SymbolKind)) : Preamble where
  symCanonical symIdx := shardName kindsOfSdscs.flatten symIdx <|> dimensionName kindsOfSdscs symIdx
  declarations :=
    let kinds := kindsOfSdscs.flatten
    ((canonicalSyms kernelKey kinds).filterMap fun symIdx => (kinds[symIdx]?).bind fun kind =>
        (kernelKey kind).map fun argIndex => (.arg argIndex, .argExtract argIndex)) ++
      ((canonicalSyms shardKey kinds).filterMap fun symIdx => (kinds[symIdx]?).bind fun kind =>
        (shardKey kind).map fun key => (.shard key.1 key.2, .shardExtract key.1 key.2)) ++
      ((canonicalSyms dimensionKey kinds).filterMap fun symIdx => (kinds[symIdx]?).bind fun kind =>
        (dimensionKey kind).bind fun pytorchSym => (dimensionName kindsOfSdscs symIdx).map fun name =>
          (name, .dimensionExtract pytorchSym))

variable (preamble : Preamble)

/-- A name is declared once. -/
def declare (name : SsaName) (definition : Definition) : Preamble :=
  if name ∈ preamble.declarations.map Prod.fst then preamble
  else { preamble with declarations := preamble.declarations ++ [(name, definition)] }

def resolve (symIdx : ℕ) (name : SsaName) : Preamble :=
  { preamble with symCanonical := Function.update preamble.symCanonical symIdx (some name) }

def declareSymbol (kinds : List SymbolKind) (symbol : ℤ × ℕ) : Preamble :=
  let (value, symIdx) := symbol
  match kinds[symIdx]? with
  | some (.kernel _) => preamble
  | some (.kernelSlice argIndex offset) =>
      (preamble.declare (.slice argIndex offset) (.addi (.arg argIndex) offset)).resolve symIdx
        (.slice argIndex offset)
  | some (.kernelDerived baseSymIdx offset _) =>
      match preamble.symCanonical baseSymIdx <|> kernelName kinds baseSymIdx with
      | some base => (preamble.declare (.core base offset) (.addi base offset)).resolve symIdx (.core base offset)
      | none => preamble.declare (.sym (symIdx + 1)) (.constant value)
  | some .pool => (preamble.declare (.poolAddr value) (.poolAddi value)).resolve symIdx (.poolAddr value)
  | some (.dimension _ _ _) => preamble
  | some (.shardKernel _ _ _ _) => preamble
  | some (.kernelDerivedSymbolic _ _ _ _ _) => preamble.declare (.sym (symIdx + 1)) (.constant value)
  | none => preamble.declare (.sym (symIdx + 1)) (.constant value)

end Preamble

def declareSymbols (symbols : List ℤ) (kindsOfSdscs : List (List SymbolKind)) : Preamble :=
  symbols.zipIdx.foldl (fun preamble symbol => preamble.declareSymbol kindsOfSdscs.flatten symbol)
    (.extracted kindsOfSdscs)

/-- `_resolve_sym` -/
def resolveSym (kinds : List SymbolKind) (preamble : Preamble) (symId : ℤ) : SsaName :=
  ((kernelName kinds (symId.natAbs - 1)) <|> (preamble.symCanonical (symId.natAbs - 1))).getD
    (.sym symId.natAbs)

end Symbols

/-! ## Loops and maps -/

variable {Body DebugHandle : Type}

mutual

def collectLoopBoundsOf : SpecTree Body DebugHandle → List ℕ
  | .leaf _ => []
  | .node count body => count :: collectLoopBounds body

def collectLoopBounds : List (SpecTree Body DebugHandle) → List ℕ
  | [] => []
  | entry :: rest => collectLoopBoundsOf entry ++ collectLoopBounds rest

end

/-- The stride keys in the order of their numbers, and for each operation and tensor the loops that
its strides belong to. -/
structure AffineMaps where
  affineMapIndex : List (List ℤ)
  loopVarIndices : List (List (List ℕ))
  deriving DecidableEq, Repr

/-- One loop for each stride; a level with strides has to be that of a loop around. -/
def tensorLoopVars (depth : ℕ) (perLevelStrides : List (List ℤ)) : Option (List ℕ) :=
  (perLevelStrides.zipIdx.mapM fun level =>
    if level.1 = [] then some []
    else if level.2 < depth then some (level.1.map fun _ => level.2) else none).map List.flatten

def collectTensor (depth : ℕ) (collected : List (List ℤ) × List (List ℕ)) (perLevelStrides : List (List ℤ)) :
    Option (List (List ℤ) × List (List ℕ)) :=
  (tensorLoopVars depth perLevelStrides).map fun loopVars =>
    if perLevelStrides.flatten = [] then (collected.1, collected.2 ++ [[]])
    else (addNew collected.1 perLevelStrides.flatten, collected.2 ++ [loopVars])

def collectOp (depth : ℕ) (maps : AffineMaps) (affineStrides : List (List (List ℤ))) : Option AffineMaps :=
  (affineStrides.foldlM (collectTensor depth) (maps.affineMapIndex, [])).map fun collected =>
    ⟨collected.1, maps.loopVarIndices ++ [collected.2]⟩

mutual

def collectAffineMapsOf : SpecTree Body DebugHandle → ℕ → List (List (List (List ℤ))) × AffineMaps →
    Option (List (List (List (List ℤ))) × AffineMaps)
  | .node _ body, depth, state => collectAffineMaps body (depth + 1) state
  | .leaf none, _, state => some state
  | .leaf (some _), depth, (affineStrides :: compiled, maps) =>
      (collectOp depth maps affineStrides).map fun maps => (compiled, maps)
  | .leaf (some _), _, ([], _) => none

def collectAffineMaps : List (SpecTree Body DebugHandle) → ℕ → List (List (List (List ℤ))) × AffineMaps →
    Option (List (List (List (List ℤ))) × AffineMaps)
  | [], _, state => some state
  | entry :: rest, depth, state =>
      (collectAffineMapsOf entry depth state).bind (collectAffineMaps rest depth)

end

/-! ## Calls -/

/-- `%addr_result = affine.apply #map (loopVars)[base]` -/
structure AffineApply where
  result : ℕ
  map : ℕ
  loopVars : List ℕ
  base : SsaName
  deriving DecidableEq, Repr

inductive Statement where
  | affineApply (apply : AffineApply)
  | sdscExecute (operands : List SsaName) (sdscFile : ℕ) (symbolIds : List ℤ)
  deriving DecidableEq, Repr

/-- What the calls refer to. -/
structure Tables where
  affineMapIndex : List (List ℤ)
  resolve : ℤ → SsaName

structure ApplyState where
  symIdToOperand : List (ℤ × SsaName)
  addrCounter : ℕ
  applies : List AffineApply

/-- The address of one core's part of a tensor that advances. -/
def applyCore (tables : Tables) (json : SdscJson Body DebugHandle) (tensorIdx : ℕ) (strideKey : List ℤ)
    (loopVars : List ℕ) (state : ApplyState) (core : ℕ) : ApplyState :=
  match json.tensorCoreSymId tensorIdx core with
  | none => state
  | some symId =>
      if (state.symIdToOperand.lookup symId).isSome then state
      else
        { symIdToOperand := (symId, .addr state.addrCounter) :: state.symIdToOperand
          addrCounter := state.addrCounter + 1
          applies := state.applies ++ [⟨state.addrCounter, tables.affineMapIndex.idxOf strideKey, loopVars,
            tables.resolve symId⟩] }

def applyTensor (tables : Tables) (json : SdscJson Body DebugHandle) (loopVars : List ℕ)
    (perTensorLoopVars : List (List ℕ)) (state : ApplyState) (tensor : List (List ℤ) × ℕ) : ApplyState :=
  if tensor.1.flatten = [] then state
  else
    let applied := ((perTensorLoopVars[tensor.2]?).getD []).filterMap fun level => loopVars[level]?
    (List.range json.numCoresUsed).foldl (applyCore tables json tensor.2 tensor.1.flatten applied) state

/-- The operands come from the program compiled for this operation, the file and the printed numbers from
the program that is called. -/
def emitOp (tables : Tables) (loopVars : List ℕ) (perTensorLoopVars : List (List ℕ)) (addrCounter : ℕ)
    (entry : CompiledEntry Body DebugHandle) : List Statement × ℕ :=
  let applied := entry.affineStrides.zipIdx.foldl
    (applyTensor tables entry.sdscJson loopVars perTensorLoopVars) ⟨[], addrCounter, []⟩
  let operands := entry.sdscJson.extractSymbolIds.map fun symId =>
    (applied.symIdToOperand.lookup symId).getD (tables.resolve symId)
  (applied.applies.map .affineApply ++ [.sdscExecute operands entry.cachedJson.idx entry.cachedJson.extractSymbolIds],
    applied.addrCounter)

structure EmitState (Body DebugHandle : Type) where
  compiled : List (CompiledEntry Body DebugHandle)
  loopVarIndices : List (List (List ℕ))
  loopBoundIdx : ℕ
  addrCounter : ℕ

abbrev StatementTree := RoseTree ℕ Statement

mutual

/-- Loops are numbered as they are met. -/
def emitSpec (tables : Tables) : SpecTree Body DebugHandle → List ℕ → EmitState Body DebugHandle →
    Option (List StatementTree × EmitState Body DebugHandle)
  | .node _ body, loopVars, state =>
      (emitSpecs tables body (loopVars ++ [state.loopBoundIdx])
          { state with loopBoundIdx := state.loopBoundIdx + 1 }).map fun inner =>
        ([.node state.loopBoundIdx inner.1], inner.2)
  | .leaf none, _, state => some ([], state)
  | .leaf (some _), loopVars, state =>
      match state.compiled, state.loopVarIndices with
      | entry :: compiled, perTensorLoopVars :: loopVarIndices =>
          let emitted := emitOp tables loopVars perTensorLoopVars state.addrCounter entry
          some (emitted.1.map .leaf, ⟨compiled, loopVarIndices, state.loopBoundIdx, emitted.2⟩)
      | _, _ => none

def emitSpecs (tables : Tables) : List (SpecTree Body DebugHandle) → List ℕ → EmitState Body DebugHandle →
    Option (List StatementTree × EmitState Body DebugHandle)
  | [], _, state => some ([], state)
  | entry :: rest, loopVars, state =>
      (emitSpec tables entry loopVars state).bind fun first =>
        (emitSpecs tables rest loopVars first.2).map fun behind => (first.1 ++ behind.1, behind.2)

end

structure SdscBundle (Body DebugHandle : Type) where
  declarations : List (SsaName × Definition)
  loopBounds : List ℕ
  affineMaps : List (List ℤ)
  body : List StatementTree
  files : List (ℕ × SdscJson Body DebugHandle)

def segmentSize : ℕ := 0x400000000

def maxPoolSizeBytes : ℕ := segmentSize - 2 * 1024 ^ 3

/-- The text for what was compiled. -/
def emitBundle (poolSize : ℕ) (specs : List (SpecTree Body DebugHandle)) (state : CompileState Body DebugHandle) :
    Option (SdscBundle Body DebugHandle) :=
  let kindsOfSdscs := state.compiled.map CompiledEntry.symbolKinds
  let preamble := declareSymbols state.symbols kindsOfSdscs
  if SymbolKind.pool ∈ kindsOfSdscs.flatten ∧ ¬(0 < poolSize ∧ poolSize ≤ maxPoolSizeBytes) then none
  else
    (collectAffineMaps specs 0 (state.compiled.map CompiledEntry.affineStrides, ⟨[], []⟩)).bind fun collected =>
      (emitSpecs ⟨collected.2.affineMapIndex, resolveSym kindsOfSdscs.flatten preamble⟩ specs []
          ⟨state.compiled, collected.2.loopVarIndices, 0, 0⟩).map fun emitted =>
        { declarations := preamble.declarations
          loopBounds := collectLoopBounds specs
          affineMaps := collected.2.affineMapIndex
          body := emitted.1
          files := state.files }

def generateBundle [DecidableEq Body] (useCache : Bool) (poolSize : ℕ)
    (specs : List (SpecTree Body DebugHandle)) : Option (SdscBundle Body DebugHandle) :=
  (compileSpecs specs (.initial useCache)).bind (emitBundle poolSize specs)

end TorchSpyre.Bundle
