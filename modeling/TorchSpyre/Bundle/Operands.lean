import Mathlib
import TorchSpyre.Bundle.Execution
import TorchSpyre.Bundle.SameProgram
import TorchSpyre.Lib.Saturation

/-!
# The operands of one call

An operand is the address that a symbol resolves to, or that address advanced by the strides of the
first tensor that advances and has the symbol.
-/

namespace TorchSpyre.Bundle

open Lib

variable {Body DebugHandle : Type}

/-! ## Strides and loops -/

/-- How far a tensor has advanced in an iteration. -/
def advance (strides : List (List ℤ)) (values : List ℕ) : ℤ :=
  (List.zipWith (fun (level : List ℤ) (value : ℕ) => level.sum * value) strides values).sum

@[simp]
theorem advance_nil_left (values : List ℕ) : advance [] values = 0 := rfl

@[simp]
theorem advance_nil_right (strides : List (List ℤ)) : advance strides [] = 0 := by
  rw [advance, List.zipWith_nil_right, List.sum_nil]

@[simp]
theorem advance_cons (level : List ℤ) (strides : List (List ℤ)) (value : ℕ) (values : List ℕ) :
    advance (level :: strides) (value :: values) = level.sum * value + advance strides values := rfl

theorem lookup_zip {loopVars values : List ℕ} (distinct : loopVars.Nodup) {level loopVar value : ℕ}
    (isVar : loopVars[level]? = some loopVar) (isValue : values[level]? = some value) :
    (loopVars.zip values).lookup loopVar = some value := by
  induction loopVars generalizing values level with
  | nil => cases isVar
  | cons first loopVars inductionHypothesis =>
      obtain ⟨fresh, others⟩ := List.nodup_cons.mp distinct
      cases values with
      | nil => cases isValue
      | cons firstValue values =>
          cases level with
          | zero =>
              cases isVar
              cases isValue
              simp
          | succ level =>
              have later : loopVars[level]? = some loopVar := isVar
              have different : loopVar ≠ first := by
                rintro rfl
                exact fresh (List.mem_of_getElem? later)
              rw [List.zip_cons_cons, List.lookup_cons, beq_false_of_ne different]
              exact inductionHypothesis others later isValue

section AffineSum

variable {loopVars values : List ℕ} (distinct : loopVars.Nodup) (sameLength : values.length = loopVars.length)

include distinct sameLength

/-- The strides from a level on, each with the variable of its loop. -/
theorem sum_zipWith_levels {strides : List (List ℤ)} {start : ℕ} {parts : List (List ℕ)}
    (isParts : (strides.zipIdx start).mapM (fun level => if level.1 = [] then some []
      else if level.2 < loopVars.length then some (level.1.map fun _ => level.2) else none) = some parts) :
    (List.zipWith (fun (stride : ℤ) loopVar =>
        stride * ((((loopVars.zip values).lookup loopVar).getD 0 : ℕ) : ℤ))
      strides.flatten (parts.flatten.filterMap fun level => loopVars[level]?)).sum =
        advance strides (values.drop start) := by
  induction strides generalizing start parts with
  | nil => simp
  | cons level strides inductionHypothesis =>
      rw [List.zipIdx_cons, List.mapM_cons] at isParts
      obtain ⟨part, isPart, isRest⟩ := Option.bind_eq_some_iff.mp isParts
      obtain ⟨rest, isLater, isWhole⟩ := Option.bind_eq_some_iff.mp isRest
      cases isWhole
      have later := inductionHypothesis isLater
      split at isPart
      next noStrides =>
        cases isPart
        have noLevel : level = [] := noStrides
        subst noLevel
        rw [List.flatten_cons, List.nil_append, List.flatten_cons, List.nil_append, later]
        cases isDrop : values.drop start with
        | nil =>
            rw [← List.tail_drop, isDrop]
            simp
        | cons value behind =>
            rw [← List.tail_drop, isDrop]
            simp
      next =>
        split at isPart
        next inside =>
          cases isPart
          dsimp only at inside ⊢
          have bounded : start < values.length := sameLength ▸ inside
          have isValue :=
            lookup_zip distinct (List.getElem?_eq_getElem inside) (List.getElem?_eq_getElem bounded)
          rw [List.flatten_cons, List.flatten_cons, List.filterMap_append, List.filterMap_map]
          have vars : List.filterMap ((fun level => loopVars[level]?) ∘ fun _ => start) level =
              level.map fun _ => loopVars[start] := by
            rw [← List.filterMap_eq_map]
            congr 1
            funext _
            simp [inside]
          rw [vars, List.zipWith_append (by simp), List.sum_append, later, List.drop_eq_getElem_cons bounded,
            advance_cons, List.zipWith_map_right]
          congr 1
          simp only [isValue, Option.getD_some]
          rw [List.zipWith_self, List.sum_map_mul_right, List.map_id']
        next => cases isPart

end AffineSum

/-! ## The names that advance -/

/-- A tensor's loops as they were collected, and its map. -/
structure Mapped (affineMapIndex : List (List ℤ)) (depth : ℕ) (strides : List (List ℤ)) (loopVars : List ℕ) :
    Prop where
  levels : strides.flatten ≠ [] → tensorLoopVars depth strides = some loopVars
  indexed : strides.flatten ≠ [] → strides.flatten ∈ affineMapIndex

/-- The names behind some applications. -/
def SdscBundle.applied (bundle : SdscBundle Body DebugHandle) (iteration : List (ℕ × ℕ)) (env : Env)
    (applies : List AffineApply) : Env :=
  applies.foldl (fun env apply => Function.update env (.addr apply.result)
    ((env apply.base).map (bundle.affineValue apply iteration))) env

theorem run_applies (bundle : SdscBundle Body DebugHandle) (iteration : List (ℕ × ℕ)) (env : Env)
    (applies : List AffineApply) (rest : List StatementTree) :
    bundle.run (applies.map (fun apply => .leaf (.affineApply apply)) ++ rest) iteration env =
      bundle.run rest iteration (bundle.applied iteration env applies) := by
  induction applies generalizing env with
  | nil => rfl
  | cons apply applies inductionHypothesis =>
      rw [List.map_cons, List.cons_append, SdscBundle.run, SdscBundle.runStatement, List.nil_append,
        inductionHypothesis]
      rfl

theorem applied_snoc (bundle : SdscBundle Body DebugHandle) (iteration : List (ℕ × ℕ)) (env : Env)
    (applies : List AffineApply) (apply : AffineApply) :
    bundle.applied iteration env (applies ++ [apply]) =
      Function.update (bundle.applied iteration env applies) (.addr apply.result)
        ((bundle.applied iteration env applies apply.base).map (bundle.affineValue apply iteration)) := by
  simp [SdscBundle.applied]

/-- A core's symbol of a tensor that advances. -/
structure Advancing (json : SdscJson Body DebugHandle) (affineStrides : List (List (List ℤ))) (symId : ℤ)
    (strides : List (List ℤ)) (tensorIdx core : ℕ) : Prop where
  used : core < json.numCoresUsed
  symbol : json.tensorCoreSymId tensorIdx core = some symId
  located : affineStrides[tensorIdx]? = some strides
  advances : strides.flatten ≠ []

section Applying

variable {tables : Tables} {bundle : SdscBundle Body DebugHandle} {json : SdscJson Body DebugHandle}
  {affineStrides : List (List (List ℤ))} {perTensorLoopVars : List (List ℕ)} {loopVars values : List ℕ}
      {env : Env}

/-- The table while the addresses of one call are applied. -/
structure Applied (tables : Tables) (bundle : SdscBundle Body DebugHandle) (json : SdscJson Body DebugHandle)
    (affineStrides : List (List (List ℤ))) (iteration : List (ℕ × ℕ)) (values : List ℕ) (env : Env)
    (state : ApplyState) : Prop where
  bounded : ∀ symId operand, (symId, operand) ∈ state.symIdToOperand →
    ∃ number < state.addrCounter, operand = .addr number
  valued : ∀ symId operand, (symId, operand) ∈ state.symIdToOperand → ∃ strides tensorIdx core,
    Advancing json affineStrides symId strides tensorIdx core ∧
      bundle.applied iteration env state.applies operand =
        (env (tables.resolve symId)).map (· + advance strides values)
  kept : ∀ name, (∀ number, name ≠ .addr number) → bundle.applied iteration env state.applies name = env name

/-- A symbol with an operand keeps it. -/
def Covers (state next : ApplyState) : Prop :=
  ∀ symId, (state.symIdToOperand.lookup symId).isSome → (next.symIdToOperand.lookup symId).isSome

theorem applied_initial (iteration : List (ℕ × ℕ)) (addrCounter : ℕ) :
    Applied tables bundle json affineStrides iteration values env ⟨[], addrCounter, []⟩ where
  bounded := fun _ _ listed => absurd listed List.not_mem_nil
  valued := fun _ _ listed => absurd listed List.not_mem_nil
  kept := fun _ _ => rfl

variable (maps : bundle.affineMaps = tables.affineMapIndex) (distinct : loopVars.Nodup)
  (sameLength : values.length = loopVars.length)
  (named : ∀ tensorIdx core symId, json.tensorCoreSymId tensorIdx core = some symId →
    ∀ number, tables.resolve symId ≠ .addr number)

include maps distinct sameLength

theorem affineValue_eq {strides : List (List ℤ)} {levels : List ℕ}
    (mapped : Mapped tables.affineMapIndex loopVars.length strides levels) (advances : strides.flatten ≠ [])
    (result : ℕ) (operand : SsaName) (base : ℤ) :
    bundle.affineValue ⟨result, tables.affineMapIndex.idxOf strides.flatten,
        levels.filterMap fun level => loopVars[level]?, operand⟩ (loopVars.zip values) base =
      base + advance strides values := by
  have isMap : tables.affineMapIndex[tables.affineMapIndex.idxOf strides.flatten]? = some strides.flatten :=
    List.getElem?_idxOf (mapped.indexed advances)
  obtain ⟨parts, isParts, rfl⟩ := Option.map_eq_some_iff.mp (mapped.levels advances)
  have sum := sum_zipWith_levels distinct sameLength isParts
  rw [List.drop_zero] at sum
  rw [SdscBundle.affineValue, maps]
  dsimp only
  rw [isMap, Option.getD_some, sum]

include named

theorem applyCore_applied {strides : List (List ℤ)} {levels : List ℕ} {tensorIdx core : ℕ}
    {state : ApplyState}
    (mapped : Mapped tables.affineMapIndex loopVars.length strides levels) (advances : strides.flatten ≠ [])
    (isStrides : affineStrides[tensorIdx]? = some strides) (used : core < json.numCoresUsed)
    (applied : Applied tables bundle json affineStrides (loopVars.zip values) values env state) :
    Applied tables bundle json affineStrides (loopVars.zip values) values env
        (applyCore tables json tensorIdx strides.flatten (levels.filterMap fun level =>
          loopVars[level]?) state core) ∧
      Covers state (applyCore tables json tensorIdx strides.flatten
        (levels.filterMap fun level => loopVars[level]?) state core) ∧
      ∀ symId, json.tensorCoreSymId tensorIdx core = some symId →
        ((applyCore tables json tensorIdx strides.flatten (levels.filterMap fun level => loopVars[level]?)
          state core).symIdToOperand.lookup symId).isSome := by
  unfold applyCore
  cases isSymbol : json.tensorCoreSymId tensorIdx core with
  | none => exact ⟨applied, fun _ known => known, fun _ impossible => by cases impossible⟩
  | some symId =>
      dsimp only
      split
      next known =>
        refine ⟨applied, fun _ known => known, ?_⟩
        intro other same
        cases same
        exact known
      next fresh =>
        refine ⟨⟨?_, ?_, ?_⟩, ?_, ?_⟩
        · intro other operand listed
          rcases List.mem_cons.mp listed with same | earlier
          · cases same
            exact ⟨_, Nat.lt_succ_self _, rfl⟩
          · obtain ⟨number, below, isOperand⟩ := applied.bounded other operand earlier
            exact ⟨number, Nat.lt_succ_of_lt below, isOperand⟩
        · intro other operand listed
          rw [applied_snoc]
          rcases List.mem_cons.mp listed with same | earlier
          · cases same
            refine ⟨strides, tensorIdx, core, ⟨used, isSymbol, isStrides, advances⟩, ?_⟩
            rw [Function.update_self, applied.kept _ (named _ _ _ isSymbol)]
            congr 1
            funext base
            exact affineValue_eq maps distinct sameLength mapped advances _ _ base
          · obtain ⟨otherStrides, otherTensor, otherCore, advancing, isValue⟩ :=
              applied.valued other operand earlier
            refine ⟨otherStrides, otherTensor, otherCore, advancing, ?_⟩
            obtain ⟨number, below, rfl⟩ := applied.bounded other operand earlier
            -- The new name has a number that no earlier one has.
            rw [Function.update_of_ne (by simpa using ne_of_lt below)]
            exact isValue
        · intro name notAddr
          rw [applied_snoc, Function.update_of_ne (notAddr _)]
          exact applied.kept name notAddr
        · intro other known
          rw [List.lookup_cons]
          split
          next => rfl
          next => exact known
        · intro other same
          cases same
          simp

theorem applyTensor_applied {strides : List (List ℤ)} {tensorIdx : ℕ} {state : ApplyState}
    (mapped : Mapped tables.affineMapIndex loopVars.length strides ((perTensorLoopVars[tensorIdx]?).getD []))
    (isStrides : affineStrides[tensorIdx]? = some strides)
    (applied : Applied tables bundle json affineStrides (loopVars.zip values) values env state) :
    Applied tables bundle json affineStrides (loopVars.zip values) values env
        (applyTensor tables json loopVars perTensorLoopVars state (strides, tensorIdx)) ∧
      Covers state (applyTensor tables json loopVars perTensorLoopVars state (strides, tensorIdx)) ∧
      ∀ symId core, Advancing json affineStrides symId strides tensorIdx core →
        ((applyTensor tables json loopVars perTensorLoopVars state (strides, tensorIdx)).symIdToOperand.lookup
          symId).isSome := by
  unfold applyTensor
  dsimp only
  split
  next still => exact ⟨applied, fun _ known => known, fun _ _ advancing => absurd still advancing.advances⟩
  next advances =>
    have run := @foldl_settles _ _
      (applyCore tables json tensorIdx strides.flatten
        (((perTensorLoopVars[tensorIdx]?).getD []).filterMap fun level => loopVars[level]?))
      (Applied tables bundle json affineStrides (loopVars.zip values) values env) Covers
      (fun core state => ∀ symId, json.tensorCoreSymId tensorIdx core = some symId →
        (state.symIdToOperand.lookup symId).isSome)
      (fun _ _ known => known) (fun _ _ _ first second symId known => second symId (first symId known))
      (fun _ _ _ kept known symId isSymbol => kept symId (known symId isSymbol))
        (List.range json.numCoresUsed)
      (fun state core inRange before =>
        applyCore_applied maps distinct sameLength named mapped advances isStrides
        (List.mem_range.mp inRange) before) state applied
    refine ⟨run.1, run.2.1, ?_⟩
    intro symId core advancing
    exact run.2.2 core (List.mem_range.mpr advancing.used) symId advancing.symbol

theorem applyTensors_applied {addrCounter : ℕ}
    (mapped : List.Forall₂ (Mapped tables.affineMapIndex loopVars.length) affineStrides perTensorLoopVars)
    {applied : ApplyState} (isApplied : affineStrides.zipIdx.foldl
      (applyTensor tables json loopVars perTensorLoopVars) ⟨[], addrCounter, []⟩ = applied) :
    Applied tables bundle json affineStrides (loopVars.zip values) values env applied ∧
      ∀ symId strides tensorIdx core, Advancing json affineStrides symId strides tensorIdx core →
        (applied.symIdToOperand.lookup symId).isSome := by
  have run := @foldl_settles _ _ (applyTensor tables json loopVars perTensorLoopVars)
    (Applied tables bundle json affineStrides (loopVars.zip values) values env) Covers
    (fun tensor state => ∀ symId core, Advancing json affineStrides symId tensor.1 tensor.2 core →
      (state.symIdToOperand.lookup symId).isSome)
    (fun _ _ known => known) (fun _ _ _ first second symId known => second symId (first symId known))
    (fun _ _ _ kept known symId core advancing =>
      kept symId (known symId core advancing)) affineStrides.zipIdx
    (by
      rintro state ⟨strides, tensorIdx⟩ inside before
      have isStrides := List.mem_zipIdx_iff_getElem?.mp inside
      obtain ⟨bounded, isElement⟩ := List.getElem?_eq_some_iff.mp isStrides
      have alike := (List.forall₂_iff_get.mp mapped).2 tensorIdx bounded (mapped.length_eq ▸ bounded)
      rw [List.get_eq_getElem, List.get_eq_getElem, isElement] at alike
      have isLoopVars := List.getElem?_eq_getElem (l := perTensorLoopVars) (mapped.length_eq ▸ bounded)
      apply applyTensor_applied maps distinct sameLength named _ isStrides before
      rw [isLoopVars]
      exact alike)
    ⟨[], addrCounter, []⟩ (applied_initial _ _)
  rw [isApplied] at run
  refine ⟨run.1, ?_⟩
  intro symId strides tensorIdx core advancing
  exact run.2.2 (strides, tensorIdx) (List.mem_zipIdx_iff_getElem?.mpr advancing.located) symId core advancing

end Applying

/-! ## One call -/

/-- How far a symbol has advanced: as far as one of the tensors that advance and have it. -/
def Advances (json : SdscJson Body DebugHandle) (affineStrides : List (List (List ℤ))) (values : List ℕ)
    (symId amount : ℤ) : Prop :=
  (∃ strides tensorIdx core, Advancing json affineStrides symId strides tensorIdx core ∧
      amount = advance strides values) ∨
    ((¬∃ strides tensorIdx core, Advancing json affineStrides symId strides tensorIdx core) ∧ amount = 0)

/-- One execution of an operation's program at the values of the loops around it. -/
structure Executes (bundle : SdscBundle Body DebugHandle) (resolve : ℤ → SsaName) (arguments : Arguments)
    (entry : CompiledEntry Body DebugHandle) (values : List ℕ) (execution : Execution Body DebugHandle) :
        Prop where
  iteration : execution.iteration.map Prod.snd = values
  program : execution.program = some entry.sdscJson
  symbols : execution.bindings.map Prod.fst = entry.sdscJson.extractSymbolIds
  operands : ∀ symId ∈ entry.sdscJson.extractSymbolIds, ∃ amount,
    Advances entry.sdscJson entry.affineStrides values symId amount ∧
      execution.bindings.lookup symId = some ((bundle.declared arguments (resolve symId)).map (· + amount))

/-- An operation's entry is ready to be emitted at a depth. -/
structure Ready (bundle : SdscBundle Body DebugHandle) (tables : Tables) (depth : ℕ)
    (entry : CompiledEntry Body DebugHandle) (perTensorLoopVars : List (List ℕ)) : Prop where
  own : entry.cachedJson = entry.sdscJson
  written : bundle.files.lookup entry.sdscJson.idx = some entry.sdscJson
  mapped : List.Forall₂ (Mapped tables.affineMapIndex depth) entry.affineStrides perTensorLoopVars
  negative : ∀ tensorIdx core symId, entry.sdscJson.tensorCoreSymId tensorIdx core = some symId → symId < 0
  named : ∀ symId ∈ entry.sdscJson.extractSymbolIds, ∀ number, tables.resolve symId ≠ .addr number

theorem mem_extractSymbolIds {json : SdscJson Body DebugHandle} {tensorIdx core : ℕ} {symId : ℤ}
    (isSymbol : json.tensorCoreSymId tensorIdx core = some symId) (negative : symId < 0) :
    symId ∈ json.extractSymbolIds := by
  rw [extractSymbolIds_eq]
  obtain ⟨node, isNode, isDatum⟩ := Option.bind_eq_some_iff.mp isSymbol
  split at isDatum
  next inHbm =>
    have listed : symId ∈ json.hbmData := by
      refine List.mem_flatMap.mpr ⟨node, List.mem_of_getElem? isNode, ?_⟩
      rw [if_pos inHbm]
      exact List.mem_of_getElem? isDatum
    rw [mem_addAll]
    exact .inr (List.mem_filter.mpr ⟨listed, by simpa using negative⟩)
  next => cases isDatum

theorem lookup_zip_map {Key Value : Type} [DecidableEq Key] (value : Key → Value) {keys : List Key}
    {key : Key}
    (listed : key ∈ keys) : (keys.zip (keys.map value)).lookup key = some (value key) := by
  induction keys with
  | nil => cases listed
  | cons first keys inductionHypothesis =>
      rw [List.map_cons, List.zip_cons_cons]
      by_cases here : key = first
      · subst here
        exact List.lookup_cons_self
      · rw [List.lookup_cons, beq_false_of_ne here]
        exact inductionHypothesis ((List.mem_cons.mp listed).resolve_left here)

/-- The names that no application sets have the values of their declarations. -/
def Agrees (bundle : SdscBundle Body DebugHandle) (arguments : Arguments) (env : Env) : Prop :=
  ∀ name, (∀ number, name ≠ .addr number) → env name = bundle.declared arguments name

theorem run_emitOp {bundle : SdscBundle Body DebugHandle} {tables : Tables} {arguments : Arguments}
    {entry : CompiledEntry Body DebugHandle} {perTensorLoopVars : List (List ℕ)} {loopVars values : List ℕ}
    {env : Env} (maps : bundle.affineMaps = tables.affineMapIndex) (distinct : loopVars.Nodup)
    (sameLength : values.length = loopVars.length)
    (ready : Ready bundle tables loopVars.length entry perTensorLoopVars)
        (agrees : Agrees bundle arguments env)
    (addrCounter : ℕ) :
    ∃ env' execution, Agrees bundle arguments env' ∧
      Executes bundle tables.resolve arguments entry values execution ∧ ∀ rest,
        bundle.run ((emitOp tables loopVars perTensorLoopVars addrCounter entry).1.map .leaf ++ rest)
          (loopVars.zip values) env = execution :: bundle.run rest (loopVars.zip values) env' := by
  generalize isApplied : entry.affineStrides.zipIdx.foldl
    (applyTensor tables entry.sdscJson loopVars perTensorLoopVars) ⟨[], addrCounter, []⟩ = state
  have named : ∀ tensorIdx core symId, entry.sdscJson.tensorCoreSymId tensorIdx core = some symId →
      ∀ number, tables.resolve symId ≠ .addr number := by
    intro tensorIdx core symId isSymbol
    exact ready.named symId (mem_extractSymbolIds isSymbol (ready.negative _ _ _ isSymbol))
  obtain ⟨applied, complete⟩ := @applyTensors_applied _ _ tables bundle entry.sdscJson entry.affineStrides
    perTensorLoopVars loopVars values env maps distinct sameLength named addrCounter ready.mapped state
      isApplied
  let operand := fun symId => (state.symIdToOperand.lookup symId).getD (tables.resolve symId)
  let env' := bundle.applied (loopVars.zip values) env state.applies
  refine ⟨env', ⟨loopVars.zip values, bundle.files.lookup entry.cachedJson.idx,
    entry.cachedJson.extractSymbolIds.zip ((entry.sdscJson.extractSymbolIds.map operand).map env')⟩, ?_, ?_,
      ?_⟩
  · intro name notAddr
    exact (applied.kept name notAddr).trans (agrees name notAddr)
  · rw [ready.own, List.map_map]
    refine ⟨?_, ready.written, ?_, ?_⟩
    · exact List.map_snd_zip (le_of_eq sameLength)
    · exact List.map_fst_zip (by rw [List.length_map])
    · intro symId listed
      have value : env (tables.resolve symId) = bundle.declared arguments (tables.resolve symId) :=
        agrees _ (ready.named symId listed)
      rw [lookup_zip_map _ listed]
      dsimp only [Function.comp_apply, operand]
      cases found : state.symIdToOperand.lookup symId with
      | some name =>
          obtain ⟨strides, tensorIdx, core, advancing, isValue⟩ :=
            applied.valued symId name (mem_of_lookup found)
          refine ⟨advance strides values, .inl ⟨strides, tensorIdx, core, advancing, rfl⟩, ?_⟩
          rw [Option.getD_some, ← value]
          exact congrArg some isValue
      | none =>
          refine ⟨0, .inr ⟨?_, rfl⟩, ?_⟩
          · rintro ⟨strides, tensorIdx, core, advancing⟩
            have known := complete symId strides tensorIdx core advancing
            rw [found] at known
            cases known
          · rw [Option.getD_none, ← value]
            simp only [add_zero, Option.map_id']
            exact congrArg some (applied.kept _ (ready.named symId listed))
  · intro rest
    unfold emitOp
    dsimp only
    rw [isApplied, List.map_append, List.map_map, List.map_singleton, List.append_assoc]
    exact run_applies bundle _ _ _ _

end TorchSpyre.Bundle
