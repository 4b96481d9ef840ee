import Mathlib
import TorchSpyre.Bundle.Compiled
import TorchSpyre.Bundle.Operands
import TorchSpyre.Lib.RoseTree

/-!
# The calls of a bundle

A bundle without the cache executes the operations of the tree as its loops say, each with its own
program.  A program's symbols resolve to declared names, and with concrete dimensions each address symbol
to the base, the slice or the core's part that its key says.
-/

namespace TorchSpyre.Bundle

open Lib

variable {Body DebugHandle : Type}

mutual

def callsOf : SpecTree Body DebugHandle → List ℕ → List (OpSpec Body DebugHandle × List ℕ)
  | .leaf none, _ => []
  | .leaf (some op), values => [(op, values)]
  | .node count body, values => (List.range count).flatMap fun value => calls body (values ++ [value])

/-- The operations in the order in which they run, each with the values of the loops around it. -/
def calls : List (SpecTree Body DebugHandle) → List ℕ → List (OpSpec Body DebugHandle × List ℕ)
  | [], _ => []
  | entry :: rest, values => callsOf entry values ++ calls rest values

end

/-- An operation's compiled entry and the loops of its tensors. -/
abbrev Emitted (Body DebugHandle : Type) := CompiledEntry Body DebugHandle × List (List ℕ)

/-- The entries of the operations of a tree, each fit for the depth at which its operation stands. -/
inductive Prepared (fit : ℕ → OpSpec Body DebugHandle → Emitted Body DebugHandle → Prop) :
    ℕ → List (SpecTree Body DebugHandle) → List (Emitted Body DebugHandle) → Prop where
  | nil (depth : ℕ) : Prepared fit depth [] []
  | skip {depth : ℕ} {rest : List (SpecTree Body DebugHandle)} {entries : List (Emitted Body DebugHandle)}
      (behind : Prepared fit depth rest entries) : Prepared fit depth (.leaf none :: rest) entries
  | op {depth : ℕ} {op : OpSpec Body DebugHandle} {rest : List (SpecTree Body DebugHandle)}
      {entry : Emitted Body DebugHandle} {entries : List (Emitted Body DebugHandle)}
        (here : fit depth op entry)
      (behind : Prepared fit depth rest entries) :
        Prepared fit depth (.leaf (some op) :: rest) (entry :: entries)
  | loop {depth count : ℕ} {body rest : List (SpecTree Body DebugHandle)}
      {inner entries : List (Emitted Body DebugHandle)} (inside : Prepared fit (depth + 1) body inner)
      (behind : Prepared fit depth rest entries) :
        Prepared fit depth (.node count body :: rest) (inner ++ entries)

theorem Prepared.imp {fit other : ℕ → OpSpec Body DebugHandle → Emitted Body DebugHandle → Prop}
    (weaker : ∀ depth op entry, fit depth op entry → other depth op entry) {depth : ℕ}
    {specs : List (SpecTree Body DebugHandle)} {entries : List (Emitted Body DebugHandle)}
    (prepared : Prepared fit depth specs entries) : Prepared other depth specs entries := by
  induction prepared with
  | nil depth => exact .nil depth
  | skip _ inductionHypothesis => exact .skip inductionHypothesis
  | op here _ inductionHypothesis => exact .op (weaker _ _ _ here) inductionHypothesis
  | loop _ _ insideHypothesis behindHypothesis => exact .loop insideHypothesis behindHypothesis

/-! ## Collecting the maps -/

theorem Mapped.mono {affineMapIndex more : List (List ℤ)} {depth : ℕ} {strides : List (List ℤ)}
    {loopVars : List ℕ} (mapped : Mapped affineMapIndex depth strides loopVars)
        (kept : affineMapIndex ⊆ more) :
    Mapped more depth strides loopVars :=
  ⟨mapped.levels, fun advances => kept (mapped.indexed advances)⟩

theorem collectTensor_mapped {depth : ℕ} {collected next : List (List ℤ) × List (List ℕ)}
    {strides : List (List ℤ)} (isNext : collectTensor depth collected strides = some next) :
    collected.1 ⊆ next.1 ∧ ∃ loopVars, next.2 = collected.2 ++ [loopVars] ∧
        Mapped next.1 depth strides loopVars := by
  obtain ⟨loopVars, isLoopVars, isCollected⟩ := Option.map_eq_some_iff.mp isNext
  split at isCollected
  next still =>
    subst isCollected
    exact ⟨List.Subset.refl _, [], rfl, fun advances => absurd still advances, fun advances =>
      absurd still advances⟩
  next =>
    subst isCollected
    refine ⟨fun _ known => mem_addNew.mpr (.inl known), loopVars, rfl, fun _ => isLoopVars, ?_⟩
    exact fun _ => mem_addNew.mpr (.inr rfl)

theorem collectTensors_mapped {depth : ℕ} {collected next : List (List ℤ) × List (List ℕ)}
    {affineStrides : List (List (List ℤ))}
        (isNext : affineStrides.foldlM (collectTensor depth) collected = some next) :
    collected.1 ⊆ next.1 ∧ ∃ perTensor, next.2 = collected.2 ++ perTensor ∧
      List.Forall₂ (Mapped next.1 depth) affineStrides perTensor := by
  induction affineStrides generalizing collected with
  | nil =>
      cases isNext
      exact ⟨List.Subset.refl _, [], (List.append_nil _).symm, .nil⟩
  | cons strides affineStrides inductionHypothesis =>
      rw [List.foldlM_cons] at isNext
      obtain ⟨middle, isMiddle, isLater⟩ := Option.bind_eq_some_iff.mp isNext
      obtain ⟨keptFirst, loopVars, isFirst, mapped⟩ := collectTensor_mapped isMiddle
      obtain ⟨keptLater, perTensor, isRest, others⟩ := inductionHypothesis isLater
      refine ⟨List.Subset.trans keptFirst keptLater, loopVars :: perTensor, ?_,
        .cons (mapped.mono keptLater) others⟩
      rw [isRest, isFirst, List.append_assoc, List.singleton_append]

theorem collectOp_mapped {depth : ℕ} {maps next : AffineMaps} {affineStrides : List (List (List ℤ))}
    (isNext : collectOp depth maps affineStrides = some next) :
    maps.affineMapIndex ⊆ next.affineMapIndex ∧ ∃ perTensor,
      next.loopVarIndices = maps.loopVarIndices ++ [perTensor] ∧
        List.Forall₂ (Mapped next.affineMapIndex depth) affineStrides perTensor := by
  obtain ⟨collected, isCollected, rfl⟩ := Option.map_eq_some_iff.mp isNext
  obtain ⟨kept, perTensor, isPerTensor, mapped⟩ := collectTensors_mapped isCollected
  exact ⟨kept, perTensor, by rw [isPerTensor, List.nil_append], mapped⟩

/-- An entry with its loops collected. -/
def Collected (stands : OpSpec Body DebugHandle → CompiledEntry Body DebugHandle → Prop)
    (affineMapIndex : List (List ℤ)) (depth : ℕ) (op : OpSpec Body DebugHandle)
        (entry : Emitted Body DebugHandle) :
    Prop :=
  stands op entry.1 ∧ List.Forall₂ (Mapped affineMapIndex depth) entry.1.affineStrides entry.2

theorem collectAffineMaps_prepared {stands : OpSpec Body DebugHandle → CompiledEntry Body DebugHandle → Prop}
    (specs : List (SpecTree Body DebugHandle)) {depth : ℕ}
        {entries more : List (CompiledEntry Body DebugHandle)}
    (stand : List.Forall₂ stands (operations specs) entries) {maps : AffineMaps}
    {next : List (List (List (List ℤ))) × AffineMaps}
    (isNext : collectAffineMaps specs depth ((entries ++ more).map CompiledEntry.affineStrides,
        maps) = some next) :
    next.1 = more.map CompiledEntry.affineStrides ∧ maps.affineMapIndex ⊆ next.2.affineMapIndex ∧
      ∃ emitted : List (Emitted Body DebugHandle), emitted.map Prod.fst = entries ∧
        next.2.loopVarIndices = maps.loopVarIndices ++ emitted.map Prod.snd ∧
          Prepared (Collected stands next.2.affineMapIndex) depth specs emitted := by
  induction specs using RoseTree.forest_induction generalizing depth entries more maps next with
  | nil =>
      cases stand
      cases isNext
      exact ⟨rfl, List.Subset.refl _, [], rfl, (List.append_nil _).symm, .nil _⟩
  | leaf item rest inductionHypothesis =>
      cases item with
      | none =>
          obtain ⟨isMore, kept, emitted, isEmitted, isIndices, prepared⟩ := inductionHypothesis stand isNext
          exact ⟨isMore, kept, emitted, isEmitted, isIndices, .skip prepared⟩
      | some op =>
          cases stand with
          | @cons _ entry _ entries here others =>
              obtain ⟨⟨strides, middle⟩, isMiddle, isLater⟩ := Option.bind_eq_some_iff.mp isNext
              obtain ⟨ownMaps, isOwn, isPair⟩ := Option.map_eq_some_iff.mp isMiddle
              cases isPair
              obtain ⟨keptFirst, perTensor, isPerTensor, mapped⟩ := collectOp_mapped isOwn
              obtain ⟨isMore, keptLater, emitted, isEmitted, isIndices, prepared⟩ :=
                inductionHypothesis others isLater
              refine ⟨isMore, List.Subset.trans keptFirst keptLater, (entry, perTensor) :: emitted, ?_, ?_,
                .op ⟨here, ?_⟩ prepared⟩
              · rw [List.map_cons, isEmitted]
              · rw [isIndices, isPerTensor, List.append_assoc, List.map_cons, List.singleton_append]
              · exact mapped.imp fun _ _ own => own.mono keptLater
  | node count body rest bodyHypothesis restHypothesis =>
      rw [operations, RoseTree.leaves_node_cons, List.reduceOption_append] at stand
      obtain ⟨inner, behind, standInner, standBehind, rfl⟩ := exists_append_of_forall₂ stand
      obtain ⟨middle, isMiddle, isLater⟩ := Option.bind_eq_some_iff.mp isNext
      rw [List.append_assoc] at isMiddle
      obtain ⟨isBehind, keptInner, emittedInner, isInner, innerIndices, preparedInner⟩ :=
        bodyHypothesis standInner isMiddle
      obtain ⟨strides, middleMaps⟩ := middle
      dsimp only at isBehind
      subst isBehind
      obtain ⟨isMore, keptLater, emitted, isEmitted, laterIndices, prepared⟩ :=
        restHypothesis standBehind isLater
      refine ⟨isMore, List.Subset.trans keptInner keptLater, emittedInner ++ emitted, ?_, ?_,
        .loop ?_ prepared⟩
      · rw [List.map_append, isInner, isEmitted]
      · rw [laterIndices, innerIndices, List.map_append, List.append_assoc]
      · apply preparedInner.imp
        exact fun _ _ _ collected => ⟨collected.1, collected.2.imp fun _ _ own => own.mono keptLater⟩

/-! ## Running what was emitted -/

/-- An execution is that of an operation's entry. -/
def Runs (stands : OpSpec Body DebugHandle → CompiledEntry Body DebugHandle → Prop)
    (bundle : SdscBundle Body DebugHandle) (resolve : ℤ → SsaName) (arguments : Arguments)
    (execution : Execution Body DebugHandle) (call : OpSpec Body DebugHandle × List ℕ) : Prop :=
  ∃ entry, stands call.1 entry ∧ Executes bundle resolve arguments entry call.2 execution

theorem run_node (bundle : SdscBundle Body DebugHandle) (loop : ℕ) (body rest : List StatementTree)
    (iteration : List (ℕ × ℕ)) (env : Env) : bundle.run (.node loop body :: rest) iteration env =
      ((List.range ((bundle.loopBounds[loop]?).getD 0)).flatMap fun value =>
        bundle.run body (iteration ++ [(loop, value)]) env) ++ bundle.run rest iteration env := rfl

theorem emitSpecs_run {stands : OpSpec Body DebugHandle → CompiledEntry Body DebugHandle → Prop}
    {bundle : SdscBundle Body DebugHandle} {tables : Tables} {arguments : Arguments}
    (maps : bundle.affineMaps = tables.affineMapIndex) {depth : ℕ} {specs : List (SpecTree Body DebugHandle)}
    {entries : List (Emitted Body DebugHandle)}
    (prepared : Prepared (fun depth op entry => stands op entry.1 ∧ Ready bundle tables depth entry.1 entry.2)
      depth specs entries) {loopVars : List ℕ} (isDepth : loopVars.length = depth) (distinct : loopVars.Nodup)
    {state : EmitState Body DebugHandle} (below : ∀ loopVar ∈ loopVars, loopVar < state.loopBoundIdx)
    {moreCompiled : List (CompiledEntry Body DebugHandle)} {moreIndices : List (List (List ℕ))}
    (isCompiled : state.compiled = entries.map Prod.fst ++ moreCompiled)
    (isIndices : state.loopVarIndices = entries.map Prod.snd ++ moreIndices) {front back : List ℕ}
    (bounds : bundle.loopBounds = front ++ collectLoopBounds specs ++ back)
    (isFront : front.length = state.loopBoundIdx) :
    ∃ statements next, emitSpecs tables specs loopVars state = some (statements, next) ∧
      next.compiled = moreCompiled ∧ next.loopVarIndices = moreIndices ∧
      next.loopBoundIdx = state.loopBoundIdx + (collectLoopBounds specs).length ∧
      ∀ values env, values.length = loopVars.length → Agrees bundle arguments env → ∃ env' executions,
        Agrees bundle arguments env' ∧
        List.Forall₂ (Runs stands bundle tables.resolve arguments) executions (calls specs values) ∧ ∀ rest,
          bundle.run (statements ++ rest) (loopVars.zip values) env =
            executions ++ bundle.run rest (loopVars.zip values) env' := by
  induction prepared generalizing loopVars state moreCompiled moreIndices front back with
  | nil depth =>
      refine ⟨[], state, rfl, isCompiled, isIndices, rfl, ?_⟩
      exact fun values env _ agrees => ⟨env, [], agrees, .nil, fun _ => rfl⟩
  | @skip depth rest entries behind inductionHypothesis =>
      obtain ⟨statements, next, isNext, facts⟩ :=
        inductionHypothesis isDepth distinct below isCompiled isIndices bounds isFront
      refine ⟨statements, next, ?_, facts⟩
      rw [emitSpecs, emitSpec, Option.bind_some, isNext]
      rfl
  | @op depth op rest entry entries here behind inductionHypothesis =>
      obtain ⟨compiled, loopVarIndices, loopBoundIdx, addrCounter⟩ := state
      dsimp only at isCompiled isIndices below isFront
      subst isCompiled isIndices
      obtain ⟨statements, next, isNext, isMore, isMoreIndices, isCount, run⟩ :=
        @inductionHypothesis loopVars isDepth distinct
          ⟨entries.map Prod.fst ++ moreCompiled, entries.map Prod.snd ++ moreIndices, loopBoundIdx,
            (emitOp tables loopVars entry.2 addrCounter entry.1).2⟩ below _ _ rfl rfl front back bounds
              isFront
      refine ⟨(emitOp tables loopVars entry.2 addrCounter entry.1).1.map .leaf ++ statements, next, ?_,
        isMore,
        isMoreIndices, isCount, ?_⟩
      · rw [List.map_cons, List.cons_append, List.map_cons, List.cons_append, emitSpecs, emitSpec,
          Option.bind_some, isNext]
        rfl
      · intro values env sameLength agrees
        have ready := here.2
        rw [← isDepth] at ready
        obtain ⟨middle, execution, agreesMiddle, executes, isRun⟩ :=
          run_emitOp maps distinct sameLength ready agrees addrCounter
        obtain ⟨last, executions, agreesLast, others, isRest⟩ := run values middle sameLength agreesMiddle
        refine ⟨last, execution :: executions, agreesLast, .cons ⟨entry.1, here.1, executes⟩ others, ?_⟩
        intro rest
        rw [List.append_assoc, isRun, isRest, List.cons_append]
  | @loop depth count body rest inner entries inside behind insideHypothesis behindHypothesis =>
      have isBounds : bundle.loopBounds = (front ++ [count]) ++ collectLoopBounds body ++
          (collectLoopBounds rest ++ back) := by
        rw [bounds]
        simp [collectLoopBounds, collectLoopBoundsOf]
      have isLater :
        bundle.loopBounds = (front ++ [count] ++ collectLoopBounds body) ++ collectLoopBounds rest ++
          back := by
        rw [isBounds]
        simp
      rw [List.map_append, List.append_assoc] at isCompiled isIndices
      have fresh : state.loopBoundIdx ∉ loopVars := fun known => absurd (below _ known) (lt_irrefl _)
      obtain ⟨innerStatements, middle, isMiddle, innerCompiled, innerIndices, innerCount, innerRun⟩ :=
        @insideHypothesis (loopVars ++ [state.loopBoundIdx])
          (by rw [List.length_append, isDepth, List.length_singleton])
          (List.nodup_append_comm.mp (List.nodup_cons.mpr ⟨fresh, distinct⟩))
          { state with loopBoundIdx := state.loopBoundIdx + 1 }
          (by
            intro loopVar known
            rcases List.mem_append.mp known with outer | own
            · exact Nat.lt_succ_of_lt (below loopVar outer)
            · rw [List.mem_singleton.mp own]
              exact Nat.lt_succ_self _)
          _ _ isCompiled isIndices _ _ isBounds (by rw [List.length_append, isFront, List.length_singleton])
      dsimp only at innerCount
      obtain ⟨statements, next, isNext, isMore, isMoreIndices, isCount, run⟩ :=
        @behindHypothesis loopVars isDepth distinct middle
          (by
            intro loopVar known
            have outer := below loopVar known
            omega)
          _ _ innerCompiled innerIndices _ _ isLater
          (by
            rw [List.length_append, List.length_append, List.length_singleton, isFront, innerCount])
      refine ⟨.node state.loopBoundIdx innerStatements :: statements, next, ?_, isMore, isMoreIndices, ?_, ?_⟩
      · rw [emitSpecs, emitSpec, isMiddle, Option.map_some, Option.bind_some, isNext]
        rfl
      · rw [isCount, innerCount]
        simp [collectLoopBounds, collectLoopBoundsOf]
        omega
      · intro values env sameLength agrees
        obtain ⟨last, executions, agreesLast, others, isRest⟩ := run values env sameLength agrees
        have bound : bundle.loopBounds[state.loopBoundIdx]? = some count := by
          rw [isBounds, ← isFront]
          simp
        have inner : ∀ value, ∃ executions,
            List.Forall₂ (Runs stands bundle tables.resolve arguments) executions
              (calls body (values ++ [value])) ∧
              bundle.run innerStatements
                (loopVars.zip values ++ [(state.loopBoundIdx, value)]) env = executions := by
          intro value
          obtain ⟨_, executions, -, runs, isInner⟩ :=
            innerRun (values ++ [value]) env (by simp [sameLength]) agrees
          refine ⟨executions, runs, ?_⟩
          have whole := isInner []
          rw [List.append_nil, List.zip_append sameLength.symm] at whole
          exact whole.trans (List.append_nil _)
        choose innerExecutions innerRuns isInner using inner
        refine ⟨last, (List.range count).flatMap innerExecutions ++ executions, agreesLast, ?_, ?_⟩
        · apply List.rel_append _ others
          exact List.rel_flatMap (List.forall₂_same.mpr fun _ _ => rfl) fun value _ same =>
            same ▸ innerRuns value
        · intro behind
          rw [List.cons_append, run_node, bound, Option.getD_some, isRest, List.append_assoc]
          congr 2
          funext value
          exact isInner value

/-! ## The symbols of a program -/

theorem getElem?_mapM {Item Result : Type} {step : Item → Option Result} {items : List Item}
    {results : List Result}
    (succeeds : items.mapM step = some results) (idx : ℕ) :
    results[idx]? = (items[idx]?).bind step := by
  induction items generalizing results idx with
  | nil =>
      cases succeeds
      rfl
  | cons item items inductionHypothesis =>
      rw [List.mapM_cons] at succeeds
      obtain ⟨result, isResult, rest⟩ := Option.bind_eq_some_iff.mp succeeds
      obtain ⟨results, isResults, whole⟩ := Option.bind_eq_some_iff.mp rest
      cases whole
      cases idx with
      | zero => exact isResult.symm
      | succ idx => exact inductionHypothesis isResults idx

section Program

variable {spec : SDSCSpec Body DebugHandle} {offset : ℕ} {result : Compilation Body DebugHandle}

/-- The index of a tensor's key for a core among the symbols of all operations. -/
def keyIdx (spec : SDSCSpec Body DebugHandle) (offset : ℕ) (key : SymbolKey) : ℕ :=
  (spec.localSymbols offset).symIdx (spec.addressBase offset) key

/-- What a tensor's core reads through a symbol. -/
structure Addressed (spec : SDSCSpec Body DebugHandle) (tensorIdx core : ℕ) (tensor : SDSCArgs) : Prop where
  located : spec.args[tensorIdx]? = some tensor
  inHbm : tensor.inLx = false
  core : core < spec.numCores

variable (generated : Generated spec offset result)

include generated

theorem Generated.getElem?_scheduleTree (tensorIdx : ℕ) :
    result.sdscJson.scheduleTree[tensorIdx]? = (spec.args[tensorIdx]?).bind (spec.scheduleNode offset) :=
  getElem?_mapM generated.scheduleTree tensorIdx

theorem Generated.tensorCoreSymId_of_addressed {tensorIdx core : ℕ} {tensor : SDSCArgs}
    (addressed : Addressed spec tensorIdx core tensor) :
    startAddrKey tensor core ∈ (spec.localSymbols offset).keys ∧
      result.sdscJson.tensorCoreSymId tensorIdx core = some
        (-((keyIdx spec offset (startAddrKey tensor core) : ℤ) + 1)) := by
  have isNode := generated.getElem?_scheduleTree tensorIdx
  rw [addressed.located, Option.bind_some] at isNode
  obtain ⟨inside, -⟩ := List.getElem?_eq_some_iff.mp addressed.located
  have present : tensorIdx < result.sdscJson.scheduleTree.length := by
    rw [← (forall₂_of_mapM_some generated.scheduleTree).length_eq]
    exact inside
  rw [List.getElem?_eq_getElem present] at isNode
  obtain ⟨data, isData, whole⟩ := Option.map_eq_some_iff.mp isNode.symm
  unfold SDSCSpec.startAddrData at isData
  rw [if_neg (by simp [addressed.inHbm])] at isData
  have isDatum := getElem?_mapM isData core
  have inRange : (List.range spec.numCores)[core]? = some core := by simp [addressed.core]
  rw [inRange, Option.bind_some] at isDatum
  have known : startAddrKey tensor core ∈ (spec.localSymbols offset).keys := by
    by_contra unknown
    rw [LocalSymbols.symbolId, if_neg unknown] at isDatum
    have short : data.length ≤ core := List.getElem?_eq_none_iff.mp isDatum
    have long := (forall₂_of_mapM_some isData).length_eq
    rw [List.length_range] at long
    exact absurd addressed.core (not_lt.mpr (long ▸ short))
  refine ⟨known, ?_⟩
  rw [LocalSymbols.symbolId, if_pos known] at isDatum
  rw [SdscJson.tensorCoreSymId, List.getElem?_eq_getElem present, ← whole, Option.bind_some,
    if_pos (by simp [addressed.inHbm]), isDatum]
  rfl

theorem Generated.addressed_of_tensorCoreSymId {tensorIdx core : ℕ} {symId : ℤ}
    (isSymbol : result.sdscJson.tensorCoreSymId tensorIdx core = some symId) :
    ∃ tensor, Addressed spec tensorIdx core tensor := by
  obtain ⟨node, isNode, isDatum⟩ := Option.bind_eq_some_iff.mp isSymbol
  rw [generated.getElem?_scheduleTree] at isNode
  obtain ⟨tensor, isTensor, isScheduled⟩ := Option.bind_eq_some_iff.mp isNode
  obtain ⟨data, isData, rfl⟩ := Option.map_eq_some_iff.mp isScheduled
  dsimp only at isDatum
  cases inLx : tensor.inLx with
  | true => simp [inLx] at isDatum
  | false =>
      rw [inLx] at isDatum
      simp only [Bool.false_eq_true, if_false, if_true] at isDatum
      refine ⟨tensor, isTensor, inLx, ?_⟩
      unfold SDSCSpec.startAddrData at isData
      rw [if_neg (by simp [inLx])] at isData
      have long := (forall₂_of_mapM_some isData).length_eq
      rw [List.length_range] at long
      obtain ⟨inside, -⟩ := List.getElem?_eq_some_iff.mp isDatum
      rw [long]
      exact inside

theorem Generated.tensorCoreSymId_neg {tensorIdx core : ℕ} {symId : ℤ}
    (isSymbol : result.sdscJson.tensorCoreSymId tensorIdx core = some symId) : symId < 0 := by
  obtain ⟨tensor, addressed⟩ := generated.addressed_of_tensorCoreSymId isSymbol
  rw [(generated.tensorCoreSymId_of_addressed addressed).2, Option.some.injEq] at isSymbol
  omega

theorem Generated.exists_kind_of_key {key : SymbolKey} (known : key ∈ (spec.localSymbols offset).keys) :
    ∃ position kind, keyIdx spec offset key = offset + position ∧
        result.symbolKinds[position]? = some kind := by
  have registry := registry_localSymbols spec offset
  obtain ⟨value, kind, -, isKind, -⟩ := registry.located (List.getElem?_idxOf known)
  refine ⟨spec.dimensionKinds.length + (spec.localSymbols offset).keys.idxOf key, kind, ?_, ?_⟩
  · rw [keyIdx, LocalSymbols.symIdx, spec.addressBase_eq, Nat.add_assoc]
  · rw [generated.kinds, List.getElem?_append_right (Nat.le_add_right _ _), Nat.add_sub_cancel_left]
    exact isKind

/-- Every symbol that a program names is one that its compilation registered. -/
theorem Generated.exists_kind {symId : ℤ} (listed : symId ∈ result.sdscJson.extractSymbolIds) :
    ∃ position kind, symId = -((offset + position : ℕ) + 1) ∧ result.symbolKinds[position]? = some kind := by
  rw [extractSymbolIds_eq, mem_addAll, mem_addAll] at listed
  rcases listed with (impossible | isDimension) | isAddress
  · cases impossible
  · obtain ⟨inMapping, -⟩ := List.mem_filter.mp isDimension
    rw [generated.dimensions, List.map_map] at inMapping
    obtain ⟨entry, isEntry, rfl⟩ := List.mem_map.mp inMapping
    have known : entry.2.pytorchSym ∈ spec.dimSyms := by
      rw [mem_dimSyms]
      exact List.mem_map.mpr ⟨entry.2, List.mem_map.mpr ⟨entry, isEntry, rfl⟩, rfl⟩
    have below : spec.dimSyms.idxOf entry.2.pytorchSym < spec.dimensionKinds.length := by
      have bounded := List.idxOf_lt_length_iff.mpr known
      have sameLength : spec.dimSyms.length = spec.dimensionKinds.length := by
        simp [SDSCSpec.dimSyms, SDSCSpec.dimensionKinds]
      exact sameLength ▸ bounded
    refine ⟨spec.dimSyms.idxOf entry.2.pytorchSym,
      spec.dimensionKinds[spec.dimSyms.idxOf entry.2.pytorchSym], rfl, ?_⟩
    rw [generated.kinds, List.getElem?_append_left below, List.getElem?_eq_getElem below]
  · obtain ⟨inHbmData, -⟩ := List.mem_filter.mp isAddress
    obtain ⟨node, isNode, isDatum⟩ := List.mem_flatMap.mp inHbmData
    split at isDatum
    next inHbm =>
      obtain ⟨tensorIdx, isTensorIdx⟩ := List.mem_iff_getElem?.mp isNode
      obtain ⟨core, isCore⟩ := List.mem_iff_getElem?.mp isDatum
      have isSymbol : result.sdscJson.tensorCoreSymId tensorIdx core = some symId := by
        rw [SdscJson.tensorCoreSymId, isTensorIdx, Option.bind_some, if_pos inHbm, isCore]
      obtain ⟨tensor, addressed⟩ := generated.addressed_of_tensorCoreSymId isSymbol
      obtain ⟨known, isId⟩ := generated.tensorCoreSymId_of_addressed addressed
      obtain ⟨position, kind, isIdx, isKind⟩ := generated.exists_kind_of_key known
      rw [isSymbol, Option.some.injEq, isIdx] at isId
      exact ⟨position, kind, isId, isKind⟩
    next => cases isDatum

end Program

/-! ## The bundle without the cache -/

theorem symName_ne_addr (kindsOfSdscs : List (List SymbolKind)) (value : ℤ) (symIdx : ℕ) (kind : SymbolKind)
    (number : ℕ) : symName kindsOfSdscs value symIdx kind ≠ .addr number := by
  cases kind with
  | dimension granularity maxValue pytorchSym =>
      rw [symName, dimensionName]
      cases canonicalIdx dimensionKey kindsOfSdscs.flatten symIdx with
      | none => simp
      | some canonical =>
          rw [Option.bind_some]
          cases ((dimOrigins kindsOfSdscs)[canonical]?).join <;> simp
  | _ => simp [symName]

theorem Stands.generated {state : CompileState Body DebugHandle} {op : OpSpec Body DebugHandle}
    {entry : CompiledEntry Body DebugHandle} (stands : Stands state op entry) :
    ∃ offset result, Generated op.sdscSpec offset result ∧ entry.sdscJson = result.sdscJson ∧
      entry.affineStrides = result.affineStrides ∧
      (∀ position kind, result.symbolKinds[position]? = some kind →
        state.kinds[offset + position]? = some kind) ∧
      ∀ position value, result.symbolValues[position]? = some value →
        state.symbols[offset + position]? = some value := by
  obtain ⟨offset, result, generated, values, kinds, rfl⟩ := stands.located
  exact ⟨offset, result, generated, rfl, rfl, kinds, values⟩

/-- What running a bundle relies on. -/
structure Emission (specs : List (SpecTree Body DebugHandle)) (bundle : SdscBundle Body DebugHandle)
    (state : CompileState Body DebugHandle) (preamble : Preamble) : Prop where
  aligned : Aligned state
  named : NamedBelow (state.compiled.map CompiledEntry.symbolKinds) state.symbols state.symbols.length
      preamble
  declarations : bundle.declarations = preamble.declarations
  runs : ∀ arguments, List.Forall₂ (Runs (Stands state) bundle (resolveSym state.kinds preamble) arguments)
    (bundle.executions arguments) (calls specs [])

section Emission

variable {specs : List (SpecTree Body DebugHandle)} {bundle : SdscBundle Body DebugHandle}
  {state : CompileState Body DebugHandle} {preamble : Preamble}

theorem resolveSym_of_stands (aligned : Aligned state)
    (named : NamedBelow (state.compiled.map CompiledEntry.symbolKinds) state.symbols state.symbols.length
        preamble)
    {op : OpSpec Body DebugHandle} {entry : CompiledEntry Body DebugHandle} (stands : Stands state op entry)
    {symId : ℤ} (listed : symId ∈ entry.sdscJson.extractSymbolIds) :
    ∃ value symIdx kind, state.kinds[symIdx]? = some kind ∧ resolveSym state.kinds preamble symId =
      symName (state.compiled.map CompiledEntry.symbolKinds) value symIdx kind ∧
        resolveSym state.kinds preamble symId ∈ preamble.names := by
  obtain ⟨offset, result, generated, isJson, -, kinds, -⟩ := stands.generated
  rw [isJson] at listed
  obtain ⟨position, kind, rfl, isKind⟩ := generated.exists_kind listed
  obtain ⟨value, -, isName, known⟩ :=
    resolveSym_named (aligned.symbols.trans aligned.kinds.symm) named (kinds position kind isKind)
  refine ⟨value, offset + position, kind, kinds position kind isKind, isName, ?_⟩
  rw [← isName] at known
  exact known

theorem ready_of_stands (aligned : Aligned state)
    (named : NamedBelow (state.compiled.map CompiledEntry.symbolKinds) state.symbols state.symbols.length
        preamble)
    (files : bundle.files = state.files) {affineMapIndex : List (List ℤ)} {depth : ℕ}
        {op : OpSpec Body DebugHandle}
    {entry : Emitted Body DebugHandle} (collected : Collected (Stands state) affineMapIndex depth op entry) :
    Ready bundle ⟨affineMapIndex, resolveSym state.kinds preamble⟩ depth entry.1 entry.2 := by
  obtain ⟨stands, mapped⟩ := collected
  obtain ⟨offset, result, generated, -, -, isEntry⟩ := stands.located
  have own : entry.1.cachedJson = entry.1.sdscJson := by rw [isEntry]
  have isJson : entry.1.sdscJson = result.sdscJson := by rw [isEntry]
  refine ⟨own, ?_, mapped, ?_, ?_⟩
  · rw [files, ← own, aligned.files.lookup stands.written, own]
  · intro tensorIdx core symId isSymbol
    rw [isJson] at isSymbol
    exact generated.tensorCoreSymId_neg isSymbol
  · intro symId listed number
    obtain ⟨value, symIdx, kind, -, isName, -⟩ := resolveSym_of_stands aligned named stands listed
    dsimp only
    rw [isName]
    exact symName_ne_addr _ _ _ _ _

theorem exists_emission [DecidableEq Body] {poolSize : ℕ}
    (generated : generateBundle false poolSize specs = some bundle) :
    ∃ state preamble, Emission specs bundle state preamble := by
  obtain ⟨state, isState, isBundle⟩ := Option.bind_eq_some_iff.mp generated
  obtain ⟨aligned, -, entries, isEntries, stand⟩ := compileSpecs_aligned specs aligned_initial isState
  have isCompiled : state.compiled = entries := isEntries
  unfold emitBundle at isBundle
  dsimp only at isBundle
  split at isBundle
  next => cases isBundle
  next =>
    obtain ⟨collected, isCollected, isEmitted⟩ := Option.bind_eq_some_iff.mp isBundle
    obtain ⟨emitted, isStatements, isWhole⟩ := Option.map_eq_some_iff.mp isEmitted
    have named := declareSymbols_named (aligned.symbols.trans aligned.kinds.symm) aligned.based
    have files : bundle.files = state.files := by rw [← isWhole]
    have maps : bundle.affineMaps = collected.2.affineMapIndex := by rw [← isWhole]
    have bounds : bundle.loopBounds = [] ++ collectLoopBounds specs ++ [] := by simp [← isWhole]
    refine ⟨state, _, aligned, named, by rw [← isWhole], ?_⟩
    intro arguments
    rw [isCompiled, ← List.append_nil entries] at isCollected
    obtain ⟨-, -, emission, isEmission, indices, prepared⟩ :=
      collectAffineMaps_prepared specs stand isCollected
    rw [List.nil_append] at indices
    have ready := prepared.imp fun depth op entry collected =>
      And.intro collected.1 (ready_of_stands aligned named files collected)
    obtain ⟨statements, next, isNext, -, -, -, run⟩ := @emitSpecs_run _ _ (Stands state) bundle
      ⟨collected.2.affineMapIndex, resolveSym state.kinds
        (declareSymbols state.symbols (state.compiled.map CompiledEntry.symbolKinds))⟩ arguments maps _ _ _
          ready []
      rfl .nil ⟨state.compiled, collected.2.loopVarIndices, 0, 0⟩ (by simp) [] []
        (by simp [isEmission, isCompiled])
      (by simp [indices]) [] [] bounds rfl
    obtain rfl := Option.some.inj (isNext.symm.trans isStatements)
    obtain ⟨env, executions, -, runs, isRun⟩ := run [] (bundle.declared arguments) rfl fun _ _ => rfl
    have whole := isRun []
    rw [List.append_nil, List.zip_nil_left] at whole
    have isBody : bundle.body = statements := by rw [← isWhole]
    rw [SdscBundle.executions, isBody, whole, SdscBundle.run, List.append_nil]
    exact runs

end Emission

end TorchSpyre.Bundle
