import TorchSpyre.Bundle.Correspondence
import TorchSpyre.Bundle.Execution

/-!
# The cache does not change what is executed

The bundles with and without the cache have the same statements, up to the file and the symbol numbers
of each call, and so run the same programs on the same addresses.
-/

namespace TorchSpyre.Bundle

open Lib

variable {Body DebugHandle : Type}

/-! ## The same statements -/

inductive SameStatement (cachedFiles freshFiles : List (ℕ × SdscJson Body DebugHandle)) :
    Statement → Statement → Prop where
  | affineApply (apply : AffineApply) :
      SameStatement cachedFiles freshFiles (.affineApply apply) (.affineApply apply)
  | sdscExecute (operands : List SsaName) {cached fresh : ℕ × List ℤ}
      (call : SameCall cachedFiles freshFiles cached fresh) :
      SameStatement cachedFiles freshFiles (.sdscExecute operands cached.1 cached.2)
        (.sdscExecute operands fresh.1 fresh.2)

section Statements

variable {cachedFiles freshFiles : List (ℕ × SdscJson Body DebugHandle)}

theorem emitOp_same (tables : Tables) (loopVars : List ℕ) (perTensorLoopVars : List (List ℕ)) (addrCounter : ℕ)
    {cached fresh : CompiledEntry Body DebugHandle} (same : SameEntry cachedFiles freshFiles cached fresh) :
    List.Forall₂ (SameStatement cachedFiles freshFiles)
        (emitOp tables loopVars perTensorLoopVars addrCounter cached).1
        (emitOp tables loopVars perTensorLoopVars addrCounter fresh).1 ∧
      (emitOp tables loopVars perTensorLoopVars addrCounter cached).2 =
        (emitOp tables loopVars perTensorLoopVars addrCounter fresh).2 := by
  unfold emitOp
  rw [same.affineStrides, same.sdscJson]
  -- Nothing reads the number of the program compiled for the operation.
  refine ⟨?_, rfl⟩
  apply List.rel_append
  · apply List.forall₂_map_left_iff.mpr
    apply List.forall₂_map_right_iff.mpr
    exact List.forall₂_same.mpr fun apply _ => .affineApply apply
  · exact .cons (.sdscExecute _ same.call) .nil

/-- The places in the two compilations at which the emission stands. -/
structure SamePlace (cachedFiles freshFiles : List (ℕ × SdscJson Body DebugHandle))
    (cached fresh : EmitState Body DebugHandle) : Prop where
  compiled : List.Forall₂ (SameEntry cachedFiles freshFiles) cached.compiled fresh.compiled
  loopVarIndices : cached.loopVarIndices = fresh.loopVarIndices
  loopBoundIdx : cached.loopBoundIdx = fresh.loopBoundIdx
  addrCounter : cached.addrCounter = fresh.addrCounter

theorem emitSpec_same (tables : Tables) (op : OpSpec Body DebugHandle) (loopVars : List ℕ)
    {cached fresh : EmitState Body DebugHandle} (place : SamePlace cachedFiles freshFiles cached fresh) :
    Option.Rel (fun one other => RoseTree.Matches (SameStatement cachedFiles freshFiles) one.1 other.1 ∧
        SamePlace cachedFiles freshFiles one.2 other.2)
      (emitSpec tables (.leaf (some op)) loopVars cached)
      (emitSpec tables (.leaf (some op)) loopVars fresh) := by
  obtain ⟨compiled, loopVarIndices, loopBoundIdx, addrCounter⟩ := cached
  obtain ⟨freshCompiled, freshIndices, freshBoundIdx, freshCounter⟩ := fresh
  obtain ⟨entries, rfl, rfl, rfl⟩ := place
  cases entries with
  | nil => exact .none
  | cons same entries =>
      cases loopVarIndices with
      | nil => exact .none
      | cons perTensorLoopVars loopVarIndices =>
          obtain ⟨statements, counter⟩ := emitOp_same tables loopVars perTensorLoopVars addrCounter same
          exact .some ⟨.leaves statements, entries, rfl, rfl, counter⟩

theorem emitSpecs_same (tables : Tables) (specs : List (SpecTree Body DebugHandle)) (loopVars : List ℕ)
    {cached fresh : EmitState Body DebugHandle} (place : SamePlace cachedFiles freshFiles cached fresh) :
    Option.Rel (fun one other => RoseTree.Matches (SameStatement cachedFiles freshFiles) one.1 other.1 ∧
        SamePlace cachedFiles freshFiles one.2 other.2)
      (emitSpecs tables specs loopVars cached) (emitSpecs tables specs loopVars fresh) := by
  induction specs using RoseTree.forest_induction generalizing loopVars cached fresh with
  | nil => exact .some ⟨.nil, place⟩
  | leaf item rest inductionHypothesis =>
      have first : Option.Rel (fun one other =>
          RoseTree.Matches (SameStatement cachedFiles freshFiles) one.1 other.1 ∧
            SamePlace cachedFiles freshFiles one.2 other.2)
          (emitSpec tables (.leaf item) loopVars cached) (emitSpec tables (.leaf item) loopVars fresh) := by
        cases item with
        | none => exact .some ⟨.nil, place⟩
        | some op => exact emitSpec_same tables op loopVars place
      apply rel_bind first
      rintro one other ⟨front, next⟩
      apply rel_map (inductionHypothesis loopVars next)
      rintro _ _ ⟨behind, last⟩
      exact ⟨front.append behind, last⟩
  | node count body rest bodyHypothesis restHypothesis =>
      have inner := @bodyHypothesis (loopVars ++ [fresh.loopBoundIdx])
        { cached with loopBoundIdx := fresh.loopBoundIdx + 1 }
        { fresh with loopBoundIdx := fresh.loopBoundIdx + 1 }
        ⟨place.compiled, place.loopVarIndices, rfl, place.addrCounter⟩
      rw [emitSpecs, emitSpecs, emitSpec, emitSpec, place.loopBoundIdx, Option.bind_map, Option.bind_map]
      apply rel_bind inner
      rintro one other ⟨inside, next⟩
      apply rel_map (restHypothesis loopVars next)
      rintro _ _ ⟨behind, last⟩
      exact ⟨.node inside behind, last⟩

end Statements

/-! ## The same executions -/

/-- At the same iteration the same program, its symbols renamed, with the same address for each. -/
structure SameExecution (cached fresh : Execution Body DebugHandle) : Prop where
  iteration : cached.iteration = fresh.iteration
  program : ∃ called own rename, Function.Injective rename ∧ cached.program = some called ∧
    fresh.program = some own ∧ SameProgram rename called own ∧
      cached.bindings.map (fun binding => (rename binding.1, binding.2)) = fresh.bindings

section Executions

variable {cached fresh : SdscBundle Body DebugHandle}

theorem run_same (loopBounds : cached.loopBounds = fresh.loopBounds)
    (affineMaps : cached.affineMaps = fresh.affineMaps)
    (cachedLookup : ∀ file ∈ cached.files, cached.files.lookup file.1 = some file.2)
    (freshLookup : ∀ file ∈ fresh.files, fresh.files.lookup file.1 = some file.2)
    {statements others : List StatementTree}
    (same : RoseTree.Matches (SameStatement cached.files fresh.files) statements others)
    (iteration : List (ℕ × ℕ)) (env : Env) :
    List.Forall₂ SameExecution (cached.run statements iteration env) (fresh.run others iteration env) := by
  induction same generalizing iteration env with
  | nil => exact .nil
  | leaf here behind inductionHypothesis =>
      cases here with
      | affineApply apply =>
          have value : cached.affineValue apply iteration = fresh.affineValue apply iteration := by
            unfold SdscBundle.affineValue
            rw [affineMaps]
          simp only [SdscBundle.run, SdscBundle.runStatement, value]
          exact inductionHypothesis _ _
      | sdscExecute operands call =>
          obtain ⟨called, own, later, inCached, inFresh, sameProgram, ids⟩ := call
          refine .cons ⟨rfl, called, own, shiftId later, shiftId_injective later, cachedLookup _ inCached,
            freshLookup _ inFresh, sameProgram, ?_⟩ (inductionHypothesis _ _)
          dsimp only
          rw [← ids, List.zip_map_left]
          rfl
  | node inside behind insideHypothesis behindHypothesis =>
      simp only [SdscBundle.run, SdscBundle.runStatement, loopBounds]
      apply List.rel_append _ (behindHypothesis _ _)
      apply List.rel_flatMap (List.forall₂_same.mpr fun _ _ => rfl)
      rintro value _ rfl
      exact insideHypothesis _ _

theorem executions_same (declarations : cached.declarations = fresh.declarations)
    (loopBounds : cached.loopBounds = fresh.loopBounds) (affineMaps : cached.affineMaps = fresh.affineMaps)
    (cachedLookup : ∀ file ∈ cached.files, cached.files.lookup file.1 = some file.2)
    (freshLookup : ∀ file ∈ fresh.files, fresh.files.lookup file.1 = some file.2)
    (same : RoseTree.Matches (SameStatement cached.files fresh.files) cached.body fresh.body)
    (arguments : Arguments) :
    List.Forall₂ SameExecution (cached.executions arguments) (fresh.executions arguments) := by
  have declared : cached.declared arguments = fresh.declared arguments := by
    unfold SdscBundle.declared
    rw [declarations]
  unfold SdscBundle.executions
  rw [declared]
  exact run_same loopBounds affineMaps cachedLookup freshLookup same _ _

end Executions

/-- With the cache a bundle calls at every iteration the same programs as without it, up to the numbers
of the symbols, the number in a program's name and its debug handle, and binds each symbol to the same
address. One is produced exactly if the other is. -/
theorem generateBundle_cache_agrees [DecidableEq Body] (poolSize : ℕ)
    (specs : List (SpecTree Body DebugHandle)) :
    Option.Rel (fun cached fresh => ∀ arguments,
        List.Forall₂ SameExecution (cached.executions arguments) (fresh.executions arguments))
      (generateBundle true poolSize specs) (generateBundle false poolSize specs) := by
  apply rel_bind (corresponds_compileSpecs specs corresponds_initial)
  intro cached fresh corresponds
  have kinds : cached.compiled.map CompiledEntry.symbolKinds = fresh.compiled.map CompiledEntry.symbolKinds :=
    List.forall₂_eq_eq_eq ▸ (List.forall₂_map_left_iff.mpr (List.forall₂_map_right_iff.mpr
      (corresponds.compiled.imp fun _ _ same => same.symbolKinds)))
  have strides : cached.compiled.map CompiledEntry.affineStrides =
      fresh.compiled.map CompiledEntry.affineStrides :=
    List.forall₂_eq_eq_eq ▸ (List.forall₂_map_left_iff.mpr (List.forall₂_map_right_iff.mpr
      (corresponds.compiled.imp fun _ _ same => same.affineStrides)))
  unfold emitBundle
  rw [kinds, strides, corresponds.symbols]
  dsimp only
  split
  next => exact .none
  next =>
    cases collectAffineMaps specs 0 (fresh.compiled.map CompiledEntry.affineStrides, ⟨[], []⟩) with
    | none => exact .none
    | some collected =>
        have place : SamePlace cached.files fresh.files ⟨cached.compiled, collected.2.loopVarIndices, 0, 0⟩
            ⟨fresh.compiled, collected.2.loopVarIndices, 0, 0⟩ := ⟨corresponds.compiled, rfl, rfl, rfl⟩
        apply rel_map (emitSpecs_same _ specs [] place)
        rintro one other ⟨statements, -⟩ arguments
        apply executions_same
        · rfl
        · rfl
        · rfl
        · exact fun file written => corresponds.cachedFiles.lookup written
        · exact fun file written => corresponds.freshFiles.lookup written
        · exact statements

/-! ## What the cache does change -/

def scalarAdd (debugHandle : ℕ) : OpSpec Unit ℕ where
  sdscSpec := {
    opfunc := "add"
    numCores := 1
    completedProducerCores := []
    symbolicDims := .empty
    args := [⟨0, 0, false, false, 0, 0, fun _ => 0, none, [], by decide⟩]
    debugHandle := some debugHandle
    accepted := true
    body := () }
  argIndices := [0]

def noArguments : Arguments := ⟨fun _ => 0, fun _ _ => 0, fun _ => 0, 0⟩

/-- The debug handles of the programs that a bundle calls. -/
def calledHandles (bundle : Option (SdscBundle Unit ℕ)) : Option (List (Option (Option ℕ))) :=
  bundle.map fun bundle =>
    (bundle.executions noArguments).map fun call => call.program.map SdscJson.debugHandle

/-- The second call runs the program with the debug handle of the first. -/
theorem generateBundle_cache_debugHandle :
    ¬∀ (poolSize : ℕ) (specs : List (SpecTree Unit ℕ)),
      Option.Rel (fun cached fresh => ∀ arguments, List.Forall₂ (fun one other =>
          SameExecution one other ∧
            one.program.map SdscJson.debugHandle = other.program.map SdscJson.debugHandle)
          (cached.executions arguments) (fresh.executions arguments))
        (generateBundle true poolSize specs) (generateBundle false poolSize specs) := by
  intro agrees
  have both := agrees 0 [.leaf (some (scalarAdd 7)), .leaf (some (scalarAdd 8))]
  have same : calledHandles (generateBundle true 0 [.leaf (some (scalarAdd 7)), .leaf (some (scalarAdd 8))]) =
      calledHandles (generateBundle false 0 [.leaf (some (scalarAdd 7)), .leaf (some (scalarAdd 8))]) := by
    cases both with
    | some calls =>
        apply congrArg some
        apply List.forall₂_eq_eq_eq ▸ List.forall₂_map_left_iff.mpr (List.forall₂_map_right_iff.mpr _)
        exact (calls noArguments).imp fun _ _ call => call.2
  have reused : calledHandles (generateBundle true 0
      [.leaf (some (scalarAdd 7)), .leaf (some (scalarAdd 8))]) = some [some (some 7), some (some 7)] := by
    decide
  have apart : calledHandles (generateBundle false 0
      [.leaf (some (scalarAdd 7)), .leaf (some (scalarAdd 8))]) = some [some (some 7), some (some 8)] := by
    decide
  rw [reused, apart] at same
  exact absurd same (by decide)

end TorchSpyre.Bundle
