import Mathlib
import TorchSpyre.Bundle.CacheAgrees
import TorchSpyre.Bundle.Calls

/-!
# The calls of a bundle are those of its tree

With and without the cache a bundle runs the operations of its tree in the order of its loops, each with
the program compiled for it and with an address for each symbol of the program.
-/

namespace TorchSpyre.Bundle

open Lib

variable {Body DebugHandle : Type}

/-! ## With the cache -/

/-- Bundles with the same text up to the file and the symbol numbers of each call. -/
structure SameBundle (cached fresh : SdscBundle Body DebugHandle) : Prop where
  declarations : cached.declarations = fresh.declarations
  loopBounds : cached.loopBounds = fresh.loopBounds
  affineMaps : cached.affineMaps = fresh.affineMaps
  cachedLookup : ∀ file ∈ cached.files, cached.files.lookup file.1 = some file.2
  freshLookup : ∀ file ∈ fresh.files, fresh.files.lookup file.1 = some file.2
  body : RoseTree.Matches (SameStatement cached.files fresh.files) cached.body fresh.body

theorem SameBundle.executions {cached fresh : SdscBundle Body DebugHandle} (same : SameBundle cached fresh)
    (arguments : Arguments) :
    List.Forall₂ SameExecution (cached.executions arguments) (fresh.executions arguments) :=
  executions_same same.declarations same.loopBounds same.affineMaps same.cachedLookup same.freshLookup
    same.body
    arguments

theorem emitBundle_same {cached fresh : CompileState Body DebugHandle}
    (corresponds : Corresponds cached fresh)
    (poolSize : ℕ) (specs : List (SpecTree Body DebugHandle)) :
    Option.Rel SameBundle (emitBundle poolSize specs cached) (emitBundle poolSize specs fresh) := by
  have kinds := map_eq_of_forall₂ (fun _ _ same => SameEntry.symbolKinds same) corresponds.compiled
  have strides := map_eq_of_forall₂ (fun _ _ same => SameEntry.affineStrides same) corresponds.compiled
  unfold emitBundle
  rw [kinds, strides, corresponds.symbols]
  dsimp only
  split
  next => exact .none
  next =>
    generalize collectAffineMaps specs 0 (fresh.compiled.map CompiledEntry.affineStrides,
      ⟨[], []⟩) = collected
    cases collected with
    | none => exact .none
    | some collected =>
        have place : SamePlace cached.files fresh.files ⟨cached.compiled, collected.2.loopVarIndices, 0, 0⟩
            ⟨fresh.compiled, collected.2.loopVarIndices, 0, 0⟩ := ⟨corresponds.compiled, rfl, rfl, rfl⟩
        apply rel_map (emitSpecs_same _ specs [] place)
        rintro one other ⟨statements, -⟩
        exact ⟨rfl, rfl, rfl, fun _ written => corresponds.cachedFiles.lookup written,
          fun _ written => corresponds.freshFiles.lookup written, statements⟩

theorem rename_id (json : SdscJson Body DebugHandle) : json.rename id = json := by
  have node : ScheduleNode.rename id = id := by
    funext node
    simp [ScheduleNode.rename]
  simp [SdscJson.rename, node]

theorem rename_rename (first second : ℤ → ℤ) (json : SdscJson Body DebugHandle) :
    (json.rename first).rename second = json.rename (second ∘ first) := by
  have node : ScheduleNode.rename second ∘ ScheduleNode.rename first = ScheduleNode.rename
    (second ∘ first) := by
    funext node
    by_cases inHbm : node.component = .hbm <;> simp [ScheduleNode.rename, inHbm]
  simp [SdscJson.rename, node, Function.comp_def]

theorem SameProgram.refl (json : SdscJson Body DebugHandle) : SameProgram id json json :=
  ⟨rfl, rfl, by rw [rename_id], by rw [rename_id], by rw [rename_id], rfl⟩

theorem SameProgram.trans {first second : ℤ → ℤ} {called middle own : SdscJson Body DebugHandle}
    (one : SameProgram first called middle) (other : SameProgram second middle own) :
    SameProgram (second ∘ first) called own where
  opfunc := one.opfunc.trans other.opfunc
  numCoresUsed := one.numCoresUsed.trans other.numCoresUsed
  dimToSymbolMapping := by
    rw [← rename_rename]
    exact (one.dimToSymbolMapping.map _).trans other.dimToSymbolMapping
  scheduleTree := by
    rw [← rename_rename, ← other.scheduleTree, SdscJson.rename, one.scheduleTree]
    rfl
  inputSymbolsAndTags := by
    rw [← rename_rename]
    exact (one.inputSymbolsAndTags.map _).trans other.inputSymbolsAndTags
  body := one.body.trans other.body

theorem SameExecution.refl {execution : Execution Body DebugHandle} {json : SdscJson Body DebugHandle}
    (isProgram : execution.program = some json) : SameExecution execution execution :=
  ⟨rfl, json, json, id, Function.injective_id, isProgram, isProgram, .refl json, by simp⟩

theorem lookup_map_injective {Key Value : Type} [DecidableEq Key] {rename : Key → Key}
    (injective : Function.Injective rename) (entries : List (Key × Value)) (key : Key) :
    (entries.map fun entry => (rename entry.1, entry.2)).lookup (rename key) = entries.lookup key := by
  induction entries with
  | nil => rfl
  | cons entry entries inductionHypothesis =>
      by_cases here : key = entry.1
      · subst here
        rw [List.map_cons, List.lookup_cons_self, List.lookup_cons_self]
      · rw [List.map_cons, List.lookup_cons, List.lookup_cons, beq_false_of_ne here,
          beq_false_of_ne fun same => here (injective same), inductionHypothesis]

theorem tensorCoreSymId_rename (rename : ℤ → ℤ) (json : SdscJson Body DebugHandle) (tensorIdx core : ℕ) :
    (json.rename rename).tensorCoreSymId tensorIdx core =
        (json.tensorCoreSymId tensorIdx core).map rename := by
  unfold SdscJson.tensorCoreSymId SdscJson.rename
  dsimp only
  rw [List.getElem?_map]
  cases json.scheduleTree[tensorIdx]? with
  | none => rfl
  | some node => by_cases inHbm : node.component = .hbm <;> simp [ScheduleNode.rename, inHbm]

/-- The value of the operand that a program has for a core's part of a tensor. -/
def Execution.operand (execution : Execution Body DebugHandle) (tensorIdx core : ℕ) : Option ℤ :=
  (execution.program.bind fun json => json.tensorCoreSymId tensorIdx core).bind fun symId =>
    (execution.bindings.lookup symId).join

theorem SameExecution.operand {cached fresh : Execution Body DebugHandle} (same : SameExecution cached fresh)
    (tensorIdx core : ℕ) : cached.operand tensorIdx core = fresh.operand tensorIdx core := by
  obtain ⟨called, own, rename, injective, isCalled, isOwn, program, bindings⟩ := same.program
  have renamed : own.tensorCoreSymId tensorIdx core = (called.tensorCoreSymId tensorIdx core).map rename := by
    rw [← tensorCoreSymId_rename, SdscJson.tensorCoreSymId, SdscJson.tensorCoreSymId, program.scheduleTree]
  rw [Execution.operand, Execution.operand, isCalled, isOwn, Option.bind_some, Option.bind_some, renamed,
    ← bindings]
  cases called.tensorCoreSymId tensorIdx core with
  | none => rfl
  | some symId =>
      rw [Option.map_some, Option.bind_some, Option.bind_some, lookup_map_injective injective]

/-- With and without the cache a bundle makes the calls of the bundle without it. -/
theorem exists_fresh [DecidableEq Body] {useCache : Bool} {poolSize : ℕ}
    {specs : List (SpecTree Body DebugHandle)} {bundle : SdscBundle Body DebugHandle}
    (generated : generateBundle useCache poolSize specs = some bundle) :
    ∃ fresh, generateBundle false poolSize specs = some fresh ∧ ∀ arguments,
      List.Forall₂ SameExecution (bundle.executions arguments) (fresh.executions arguments) := by
  cases useCache with
  | true =>
      have rel := rel_bind (corresponds_compileSpecs specs corresponds_initial)
        fun _ _ corresponds => emitBundle_same corresponds poolSize specs
      have related : Option.Rel SameBundle (some bundle) (generateBundle false poolSize specs) :=
        generated ▸ rel
      generalize generateBundle false poolSize specs = other at related
      cases related with
      | some same => exact ⟨_, rfl, same.executions⟩
  | false =>
      refine ⟨bundle, generated, ?_⟩
      intro arguments
      obtain ⟨state, preamble, emission⟩ := exists_emission generated
      apply List.forall₂_same.mpr
      intro execution made
      obtain ⟨call, -, entry, -, executes⟩ := exists_related (emission.runs arguments) made
      exact .refl executes.program

/-! ## Each call runs its operation -/

/-- A call runs the program of its operation, up to the numbers of the symbols, and binds each symbol that
the program names. -/
structure RunsOperation (execution : Execution Body DebugHandle) (call : OpSpec Body DebugHandle × List ℕ) :
    Prop where
  iteration : execution.iteration.map Prod.snd = call.2
  program : ∃ called idx offset result rename, execution.program = some called ∧
    generateSdsc idx call.1.sdscSpec offset = some result ∧ Function.Injective rename ∧
      SameProgram rename called result.sdscJson
  dimensions : ∀ called, execution.program = some called → ∀ entry ∈ called.dimToSymbolMapping,
    ∃ value, execution.bindings.lookup entry.2 = some (some value)
  addresses : ∀ called, execution.program = some called → ∀ tensorIdx core symId,
    called.tensorCoreSymId tensorIdx core = some symId →
      ∃ value, execution.bindings.lookup symId = some (some value)

section Calls

variable {specs : List (SpecTree Body DebugHandle)} {bundle : SdscBundle Body DebugHandle}

theorem SameExecution.runsOperation {cached fresh : Execution Body DebugHandle}
    (same : SameExecution cached fresh)
    {call : OpSpec Body DebugHandle × List ℕ} (runs : RunsOperation fresh call) :
        RunsOperation cached call := by
  obtain ⟨called, own, rename, injective, isCalled, isOwn, program, bindings⟩ := same.program
  have lookup : ∀ symId, fresh.bindings.lookup (rename symId) = cached.bindings.lookup symId := by
    intro symId
    rw [← bindings, lookup_map_injective injective]
  constructor
  · rw [same.iteration, runs.iteration]
  · obtain ⟨other, idx, offset, result, earlier, isOther, isResult, injectiveEarlier, sameProgram⟩ :=
      runs.program
    cases isOwn.symm.trans isOther
    exact ⟨called, idx, offset, result, earlier ∘ rename, isCalled, isResult, injectiveEarlier.comp injective,
      program.trans sameProgram⟩
  · intro other isOther entry listed
    cases isCalled.symm.trans isOther
    have renamed : (entry.1, rename entry.2) ∈ own.dimToSymbolMapping :=
      program.dimToSymbolMapping.mem_iff.mp (List.mem_map.mpr ⟨entry, listed, rfl⟩)
    rw [← lookup]
    exact runs.dimensions own isOwn _ renamed
  · intro other isOther tensorIdx core symId isSymbol
    cases isCalled.symm.trans isOther
    rw [← lookup]
    apply runs.addresses own isOwn tensorIdx core
    rw [SdscJson.tensorCoreSymId, ← program.scheduleTree, ← SdscJson.tensorCoreSymId, tensorCoreSymId_rename,
      isSymbol, Option.map_some]

/-- A symbol that a program names has a declared name. -/
theorem Emission.exists_value {state : CompileState Body DebugHandle} {preamble : Preamble}
    (emission : Emission specs bundle state preamble) {op : OpSpec Body DebugHandle}
    {entry : CompiledEntry Body DebugHandle} (stands : Stands state op entry) {symId : ℤ}
    (listed : symId ∈ entry.sdscJson.extractSymbolIds) (arguments : Arguments) :
    ∃ value, bundle.declared arguments (resolveSym state.kinds preamble symId) = some value := by
  obtain ⟨-, -, -, -, -, known⟩ := resolveSym_of_stands emission.aligned emission.named stands listed
  rw [SdscBundle.declared, emission.declarations]
  exact emission.named.declared.isSome_values known

theorem Emission.runsOperation {state : CompileState Body DebugHandle} {preamble : Preamble}
    (emission : Emission specs bundle state preamble) {arguments : Arguments}
    {execution : Execution Body DebugHandle} {call : OpSpec Body DebugHandle × List ℕ}
    (runs : Runs (Stands state) bundle (resolveSym state.kinds preamble) arguments execution call) :
    RunsOperation execution call := by
  obtain ⟨entry, stands, executes⟩ := runs
  obtain ⟨offset, compilation, generated, isJson, -, -, -⟩ := stands.generated
  obtain ⟨idx, otherOffset, result, isResult, isOwn⟩ := stands.compiled
  have bound : ∀ symId ∈ entry.sdscJson.extractSymbolIds,
      ∃ value, execution.bindings.lookup symId = some (some value) := by
    intro symId listed
    obtain ⟨amount, -, isBinding⟩ := executes.operands symId listed
    obtain ⟨value, isValue⟩ := emission.exists_value stands listed arguments
    exact ⟨value + amount, by rw [isBinding, isValue, Option.map_some]⟩
  constructor
  · exact executes.iteration
  · exact ⟨_, idx, otherOffset, result, id, executes.program, isResult, Function.injective_id,
      isOwn ▸ .refl _⟩
  · intro called isCalled dim listed
    cases executes.program.symm.trans isCalled
    apply bound
    rw [extractSymbolIds_eq, mem_addAll, mem_addAll]
    refine .inl (.inr (List.mem_filter.mpr ⟨List.mem_map.mpr ⟨dim, listed, rfl⟩, ?_⟩))
    rw [isJson, generated.dimensions] at listed
    obtain ⟨entry, -, rfl⟩ := List.mem_map.mp listed
    exact decide_eq_true (dimSymbolId_neg _ _ _)
  · intro called isCalled tensorIdx core symId isSymbol
    cases executes.program.symm.trans isCalled
    apply bound
    apply mem_extractSymbolIds isSymbol
    rw [isJson] at isSymbol
    exact generated.tensorCoreSymId_neg isSymbol

/-- A bundle runs the operations of its tree in the order of its loops and binds every symbol of each. -/
theorem generateBundle_runs_operations [DecidableEq Body] {useCache : Bool} {poolSize : ℕ}
    (generated : generateBundle useCache poolSize specs = some bundle) (arguments : Arguments) :
    List.Forall₂ RunsOperation (bundle.executions arguments) (calls specs []) := by
  obtain ⟨fresh, isFresh, same⟩ := exists_fresh generated
  obtain ⟨state, preamble, emission⟩ := exists_emission isFresh
  have runs : List.Forall₂ RunsOperation (fresh.executions arguments) (calls specs []) :=
    (emission.runs arguments).imp fun _ _ runs => emission.runsOperation runs
  exact forall₂_of_related (fun _ _ related call => related.runsOperation) (same arguments) runs

end Calls

/-- A tensor of rows for two cores. -/
def rowTensor (argIndex rowBytes : ℤ) : SDSCArgs :=
  ⟨argIndex, 0, false, false, argIndex, 0, fun core => 128 * core, none, [[rowBytes]], fun _ => rfl⟩

/-- Each row of the first argument is copied to the second one. -/
def rowCopy : OpSpec Unit ℕ where
  sdscSpec := {
    opfunc := "identity"
    numCores := 2
    completedProducerCores := []
    symbolicDims := .empty
    args := [rowTensor 0 256, rowTensor 1 512]
    debugHandle := none
    accepted := true
    body := () }
  argIndices := [0, 1]

theorem rowCopy_runs : ∃ bundle, generateBundle true 0 [.node 3 [.leaf (some rowCopy)]] = some bundle ∧
    List.Forall₂ RunsOperation (bundle.executions noArguments)
        (calls [.node 3 [.leaf (some rowCopy)]] []) := by
  have produced : (generateBundle true 0 [.node 3 [.leaf (some rowCopy)]]).isSome = true := by decide
  obtain ⟨bundle, isBundle⟩ := Option.isSome_iff_exists.mp produced
  exact ⟨bundle, isBundle, generateBundle_runs_operations isBundle noArguments⟩

end TorchSpyre.Bundle
