import TorchSpyre.Lib.Dict
import TorchSpyre.Lib.FirstSeen

/-!
# One program and its symbols

An operation specification becomes a program in which addresses are symbols: negative numbers
counted from an offset, dimension symbols before address symbols.
-/

namespace TorchSpyre.Bundle

open Lib

inductive SymbolKind where
  | kernel (argIndex : ℤ)
  | kernelSlice (argIndex offset : ℤ)
  | kernelDerived (baseSymIdx : ℕ) (offset argIndex : ℤ)
  | kernelDerivedSymbolic (argIndex : ℤ) (coreIdx splitCount baseSymIdx : ℕ) (pytorchSym : String)
  | shardKernel (argIndex : ℤ) (coreIdx numShards shardBytes : ℕ)
  | pool
  | dimension (granularity maxValue : ℕ) (pytorchSym : String)
  deriving DecidableEq, Repr

/-- The namespaced keys of `local_symbols`. -/
inductive SymbolKey where
  | pool (address : ℤ)
  | kernel (argIndex : ℤ)
  | kernelSlice (argIndex offset : ℤ)
  | shardKernel (argIndex : ℤ) (coreIdx : ℕ)
  | kernelDerivedSymbolic (argIndex : ℤ) (coreIdx : ℕ)
  | address (value : ℤ)
  deriving DecidableEq, Repr

structure SymbolicDim where
  pytorchSym : String
  granularity : ℕ
  maxValue : ℕ
  deriving DecidableEq, Repr

/-- A tensor as `parse_op_spec` reads it; only a tensor in HBM is sharded. `coreOffsetBytes` is what `core_idx_to_slice_offset`
gives for a core, `symbolicSplit` the split count and shape symbol that `_symbolic_split_info`
finds, and `levelStrides` has, for each loop level from the outermost, the byte strides of the
symbols by which the tensor advances there. -/
structure SDSCArgs where
  argIndex : ℤ
  nonUnifiedShardBytes : ℕ
  inLx : Bool
  inHbmPool : Bool
  startAddress : ℤ
  sliceOffsetBytes : ℤ
  coreOffsetBytes : ℕ → ℤ
  symbolicSplit : Option (ℕ × String)
  levelStrides : List (List ℤ)
  shardsInHbm : 0 < nonUnifiedShardBytes → inLx = false

/-- An operation as `parse_op_spec` reads it. The checks that raise look at no symbol, and `accepted`
says that they pass; `body` is the part of the program without symbols. -/
structure SDSCSpec (Body DebugHandle : Type) where
  opfunc : String
  numCores : ℕ
  completedProducerCores : List ℕ
  symbolicDims : Dict String SymbolicDim
  args : List SDSCArgs
  debugHandle : Option DebugHandle
  accepted : Bool
  body : Body

namespace SDSCArgs

def nonUnified (tensor : SDSCArgs) : Bool := 0 < tensor.nonUnifiedShardBytes

def coreAddress (tensor : SDSCArgs) (core : ℕ) : ℤ := tensor.startAddress + tensor.coreOffsetBytes core

def totalSliceOffset (tensor : SDSCArgs) : ℤ :=
  tensor.startAddress - tensor.argIndex + tensor.sliceOffsetBytes

/-- The key of the address that the cores' offsets are added to. -/
def slicedBaseKey (tensor : SDSCArgs) : SymbolKey :=
  if 0 < tensor.totalSliceOffset then .kernelSlice tensor.argIndex tensor.totalSliceOffset
  else .kernel tensor.argIndex

def affineStrides (tensor : SDSCArgs) : List (List ℤ) :=
  if tensor.nonUnified ∨ tensor.inLx then tensor.levelStrides.map fun _ => [] else tensor.levelStrides

end SDSCArgs

/-! ## Registration -/

def symbolKey (address : ℤ) : SymbolKind → SymbolKey
  | .pool => .pool address
  | .kernel argIndex => .kernel argIndex
  | .kernelSlice argIndex offset => .kernelSlice argIndex offset
  | .shardKernel argIndex coreIdx _ _ => .shardKernel argIndex coreIdx
  | .kernelDerivedSymbolic argIndex coreIdx _ _ _ => .kernelDerivedSymbolic argIndex coreIdx
  | .kernelDerived _ _ _ => .address address
  | .dimension _ _ _ => .address address

/-- The symbols of one program's addresses, in the order of their numbers. -/
structure LocalSymbols where
  keys : List SymbolKey
  values : List ℤ
  kinds : List SymbolKind
  deriving DecidableEq, Repr

def LocalSymbols.empty : LocalSymbols := ⟨[], [], []⟩

def offsetAsSymbol (symbols : LocalSymbols) (address : ℤ) (kind : SymbolKind) : LocalSymbols :=
  if symbolKey address kind ∈ symbols.keys then symbols
  else ⟨symbols.keys ++ [symbolKey address kind], symbols.values ++ [address], symbols.kinds ++ [kind]⟩

/-- The index in the bundle's symbol list, of which `base` symbols come first. -/
def LocalSymbols.symIdx (symbols : LocalSymbols) (base : ℕ) (key : SymbolKey) : ℕ :=
  base + symbols.keys.idxOf key

/-- The number under which a key was registered. -/
def LocalSymbols.symbolId (symbols : LocalSymbols) (base : ℕ) (key : SymbolKey) : Option ℤ :=
  if key ∈ symbols.keys then some (-(symbols.symIdx base key + 1)) else none

/-- The base address of a kernel tensor, and its sliced base if that is another one. -/
def registerKernel (tensor : SDSCArgs) (symbols : LocalSymbols) : LocalSymbols :=
  let symbols := offsetAsSymbol symbols tensor.argIndex (.kernel tensor.argIndex)
  if 0 < tensor.totalSliceOffset then
    offsetAsSymbol symbols (tensor.coreAddress 0)
      (.kernelSlice tensor.argIndex tensor.totalSliceOffset)
  else symbols

def derivedKind (tensor : SDSCArgs) (slicedBase core : ℕ) : SymbolKind :=
  match tensor.symbolicSplit with
  | some (splitCount, pytorchSym) =>
      .kernelDerivedSymbolic tensor.argIndex core splitCount slicedBase pytorchSym
  | none =>
      .kernelDerived slicedBase (tensor.coreAddress core - tensor.coreAddress 0) tensor.argIndex

/-- The address of one core, where it is not the sliced base. -/
def registerCore (tensor : SDSCArgs) (slicedBase : ℕ) (symbols : LocalSymbols) (core : ℕ) : LocalSymbols :=
  if tensor.argIndex < 0 then offsetAsSymbol symbols (tensor.coreAddress core) .pool
  else if core = 0 ∨ tensor.coreAddress core = tensor.coreAddress 0 then symbols
  else offsetAsSymbol symbols (tensor.coreAddress core) (derivedKind tensor slicedBase core)

def registerShard (tensor : SDSCArgs) (numCores : ℕ) (symbols : LocalSymbols) (core : ℕ) : LocalSymbols :=
  offsetAsSymbol symbols tensor.argIndex
    (.shardKernel tensor.argIndex core numCores tensor.nonUnifiedShardBytes)

def registerTensor (numCores base : ℕ) (symbols : LocalSymbols) (tensor : SDSCArgs) : LocalSymbols :=
  if tensor.nonUnified then (List.range numCores).foldl (registerShard tensor numCores) symbols
  else if tensor.inLx then symbols
  else
    let registered := if tensor.argIndex < 0 then symbols else registerKernel tensor symbols
    (List.range numCores).foldl
      (registerCore tensor (registered.symIdx base tensor.slicedBaseKey)) registered

/-- The key that a core's start address was registered under. -/
def startAddrKey (tensor : SDSCArgs) (core : ℕ) : SymbolKey :=
  if tensor.nonUnified then .shardKernel tensor.argIndex core
  else if tensor.argIndex < 0 ∧ tensor.inHbmPool then .pool (tensor.coreAddress core)
  else if core = 0 ∨ tensor.coreAddress core = tensor.coreAddress 0 then tensor.slicedBaseKey
  else if tensor.symbolicSplit.isSome then .kernelDerivedSymbolic tensor.argIndex core
  else .address (tensor.coreAddress core)

/-! ## Programs -/

inductive Component where
  | hbm
  | lx
  deriving DecidableEq, Repr

/-- A tensor's place, with its start address for each core in turn: in `hbm` a symbol's number. -/
structure ScheduleNode where
  component : Component
  data : List ℤ
  deriving DecidableEq, Repr

/-- A program, its fields with symbols apart from the rest. The rest is compared as dictionaries are,
without regard to the order of their keys. -/
structure SdscJson (Body DebugHandle : Type) where
  idx : ℕ
  opfunc : String
  debugHandle : Option DebugHandle
  numCoresUsed : ℕ
  dimToSymbolMapping : List (String × ℤ)
  scheduleTree : List ScheduleNode
  inputSymbolsAndTags : List (ℤ × String)
  body : Body
  deriving DecidableEq, Repr

/-- What compiling an operation returns. -/
structure Compilation (Body DebugHandle : Type) where
  sdscJson : SdscJson Body DebugHandle
  symbolValues : List ℤ
  affineStrides : List (List (List ℤ))
  symbolKinds : List SymbolKind

variable {Body DebugHandle : Type}

namespace SDSCSpec

variable (spec : SDSCSpec Body DebugHandle)

def addDimension (registered : List SymbolicDim) (dim : SymbolicDim) : List SymbolicDim :=
  if dim.pytorchSym ∈ registered.map SymbolicDim.pytorchSym then registered else registered ++ [dim]

/-- One dimension for each shape symbol. -/
def registeredDims : List SymbolicDim := spec.symbolicDims.values.foldl addDimension []

def dimSyms : List String := spec.registeredDims.map SymbolicDim.pytorchSym

/-- The number of a shape symbol. -/
def dimSymbolId (offset : ℕ) (pytorchSym : String) : ℤ := -((offset + spec.dimSyms.idxOf pytorchSym : ℕ) + 1)

def addressBase (offset : ℕ) : ℕ := offset + spec.dimSyms.length

def localSymbols (offset : ℕ) : LocalSymbols :=
  spec.args.foldl (registerTensor spec.numCores (spec.addressBase offset)) .empty

def startAddrData (offset : ℕ) (tensor : SDSCArgs) : Option (List ℤ) :=
  if ¬tensor.nonUnified ∧ tensor.inLx then
    some ((List.range spec.numCores).map fun _ => tensor.startAddress)
  else
    (List.range spec.numCores).mapM fun core =>
      (spec.localSymbols offset).symbolId (spec.addressBase offset) (startAddrKey tensor core)

def scheduleNode (offset : ℕ) (tensor : SDSCArgs) : Option ScheduleNode :=
  (spec.startAddrData offset tensor).map fun data => ⟨if tensor.inLx then .lx else .hbm, data⟩

def numCoresUsed : ℕ :=
  if spec.completedProducerCores = [] then spec.numCores else spec.completedProducerCores.length

end SDSCSpec

def generateSdsc (idx : ℕ) (spec : SDSCSpec Body DebugHandle) (symbolIdOffset : ℕ) :
    Option (Compilation Body DebugHandle) :=
  if spec.accepted then do
    let scheduleTree ← spec.args.mapM (spec.scheduleNode symbolIdOffset)
    return {
      sdscJson := {
        idx := idx
        opfunc := spec.opfunc
        debugHandle := spec.debugHandle
        numCoresUsed := spec.numCoresUsed
        dimToSymbolMapping := spec.symbolicDims.entries.map fun entry =>
          (entry.1, spec.dimSymbolId symbolIdOffset entry.2.pytorchSym)
        scheduleTree := scheduleTree
        inputSymbolsAndTags := spec.dimSyms.map fun pytorchSym =>
          (spec.dimSymbolId symbolIdOffset pytorchSym, pytorchSym)
        body := spec.body }
      symbolValues := spec.registeredDims.map (fun _ => 0) ++ (spec.localSymbols symbolIdOffset).values
      affineStrides := spec.args.map SDSCArgs.affineStrides
      symbolKinds := spec.registeredDims.map (fun dim =>
        .dimension dim.granularity dim.maxValue dim.pytorchSym) ++
          (spec.localSymbols symbolIdOffset).kinds }
  else none

/-! ## Reading a program's symbols -/

def addSymbolId (ids : List ℤ) (symId : ℤ) : List ℤ := if symId < 0 then addNew ids symId else ids

namespace SdscJson

variable (json : SdscJson Body DebugHandle)

def hbmData : List ℤ := json.scheduleTree.flatMap fun node => if node.component = .hbm then node.data else []

/-- `_extract_symbol_ids`: those of dimensions first. -/
def extractSymbolIds : List ℤ := (json.dimToSymbolMapping.map Prod.snd ++ json.hbmData).foldl addSymbolId []

/-- `_get_tensor_core_sym_id` -/
def tensorCoreSymId (tensorIdx core : ℕ) : Option ℤ :=
  (json.scheduleTree[tensorIdx]?).bind fun node => if node.component = .hbm then node.data[core]? else none

end SdscJson

end TorchSpyre.Bundle
