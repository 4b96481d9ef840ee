import Mathlib
import TorchSpyre.Bundle.Sdsc
import TorchSpyre.Lib.RoseTree

/-!
# Compiling the specifications of a bundle

With a cache an operation whose program has the same text as an earlier one reuses its file.
-/

namespace TorchSpyre.Bundle

open Lib

structure OpSpec (Body DebugHandle : Type) where
  sdscSpec : SDSCSpec Body DebugHandle
  /-- The argument indices of `args`, which a layout may drop. -/
  argIndices : List ℤ

/-- Operations and loops with their trip counts; other entries are skipped. -/
abbrev SpecTree (Body DebugHandle : Type) := RoseTree ℕ (Option (OpSpec Body DebugHandle))

/-- A program's text with sorted keys, without its debug handle, and the argument indices. -/
structure CacheKey (Body : Type) where
  idx : ℕ
  opfunc : String
  numCoresUsed : ℕ
  dimToSymbolMapping : List (String × ℤ)
  scheduleTree : List ScheduleNode
  inputSymbolsAndTags : List (ℤ × String)
  body : Body
  argIndices : List ℤ
  deriving DecidableEq

structure CompiledEntry (Body DebugHandle : Type) where
  sdscJson : SdscJson Body DebugHandle
  symbolValues : List ℤ
  affineStrides : List (List (List ℤ))
  symbolKinds : List SymbolKind
  cachedJson : SdscJson Body DebugHandle

structure CompileState (Body DebugHandle : Type) where
  symbols : List ℤ
  compiled : List (CompiledEntry Body DebugHandle)
  sdscCounter : ℕ
  symbolIdOffsetCounter : ℕ
  sdscCache : Option (List (CacheKey Body × ℕ × SdscJson Body DebugHandle))
  /-- The files `sdsc_N.json` that are written. -/
  files : List (ℕ × SdscJson Body DebugHandle)

variable {Body DebugHandle : Type}

def sortDims (mapping : List (String × ℤ)) : List (String × ℤ) :=
  mapping.insertionSort fun one other => one.1 ≤ other.1

/-- The keys are numbers, written as texts. -/
def sortTags (tags : List (ℤ × String)) : List (ℤ × String) :=
  tags.insertionSort fun one other => toString one.1 ≤ toString other.1

def SdscJson.cacheKey (json : SdscJson Body DebugHandle) (argIndices : List ℤ) : CacheKey Body where
  idx := json.idx
  opfunc := json.opfunc
  numCoresUsed := json.numCoresUsed
  dimToSymbolMapping := sortDims json.dimToSymbolMapping
  scheduleTree := json.scheduleTree
  inputSymbolsAndTags := sortTags json.inputSymbolsAndTags
  body := json.body
  argIndices := argIndices

/-- The key is that of the program compiled with number and offset zero. -/
def OpSpec.cacheKey (op : OpSpec Body DebugHandle) : Option (CacheKey Body) :=
  (generateSdsc 0 op.sdscSpec 0).map fun canonical => canonical.sdscJson.cacheKey op.argIndices

namespace CompileState

variable (state : CompileState Body DebugHandle)

def initial (useCache : Bool) : CompileState Body DebugHandle :=
  ⟨[], [], 0, 0, if useCache then some [] else none, []⟩

def append (result : Compilation Body DebugHandle) (cachedJson : SdscJson Body DebugHandle) :
    CompileState Body DebugHandle :=
  { state with
    symbols := state.symbols ++ result.symbolValues
    compiled := state.compiled ++ [⟨result.sdscJson, result.symbolValues, result.affineStrides,
      result.symbolKinds, cachedJson⟩]
    symbolIdOffsetCounter := state.symbolIdOffsetCounter + result.symbolValues.length }

/-- A program of its own, with the next number. -/
def compileMiss (op : OpSpec Body DebugHandle) (cacheKey : Option (CacheKey Body)) :
    Option (CompileState Body DebugHandle) :=
  (generateSdsc state.sdscCounter op.sdscSpec state.symbolIdOffsetCounter).map fun result =>
    { state.append result result.sdscJson with
      sdscCounter := state.sdscCounter + 1
      sdscCache := match cacheKey with
        | some key => state.sdscCache.map ((key, state.sdscCounter, result.sdscJson) :: ·)
        | none => state.sdscCache
      files := state.files ++ [(state.sdscCounter, result.sdscJson)] }

/-- The program of an earlier operation; the symbols are registered anew. -/
def compileHit (op : OpSpec Body DebugHandle) (idx : ℕ) (cachedJson : SdscJson Body DebugHandle) :
    Option (CompileState Body DebugHandle) :=
  (generateSdsc idx op.sdscSpec state.symbolIdOffsetCounter).map fun result =>
    state.append result cachedJson

variable [DecidableEq Body]

def compileOp (op : OpSpec Body DebugHandle) : Option (CompileState Body DebugHandle) :=
  match state.sdscCache with
  | none => state.compileMiss op none
  | some cache =>
      op.cacheKey.bind fun key =>
        match cache.lookup key with
        | some (idx, cachedJson) => state.compileHit op idx cachedJson
        | none => state.compileMiss op (some key)

end CompileState

variable [DecidableEq Body]

mutual

def compileSpec : SpecTree Body DebugHandle → CompileState Body DebugHandle →
    Option (CompileState Body DebugHandle)
  | .leaf none, state => some state
  | .leaf (some op), state => state.compileOp op
  | .node _ body, state => compileSpecs body state

def compileSpecs : List (SpecTree Body DebugHandle) → CompileState Body DebugHandle →
    Option (CompileState Body DebugHandle)
  | [], state => some state
  | entry :: rest, state => (compileSpec entry state).bind (compileSpecs rest)

end

end TorchSpyre.Bundle
