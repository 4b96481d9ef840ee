import TorchSpyre.ContextSwitch.Pass
import TorchSpyre.Lib.Outcome

/-!
# The list the pass leaves

Every protected kernel stands between the dumps and the restores of its buffers; the other
operations keep their places.
-/

namespace TorchSpyre.ContextSwitch

open Lib

variable (names : NameSupply)

/-- The dumps of some buffers, numbered from `number`. -/
def dumps : ℕ → List String → List Operation
  | _, [] => []
  | number, buf :: rest => dumpOperation names number buf :: dumps (number + 1) rest

/-- Each buffer with the name of its dump. -/
def dumpNames : ℕ → List String → List (String × String)
  | _, [] => []
  | number, buf :: rest => (buf, names.bufferName number) :: dumpNames (number + 1) rest

/-- The restores, numbered from `number`, of buffers dumped from `dumpNumber` on, last first. -/
def restores : ℕ → ℕ → List String → List Operation
  | _, _, [] => []
  | number, dumpNumber, buf :: rest =>
      restores (number + 1) (dumpNumber + 1) rest ++
        [restoreOperation names number (names.bufferName dumpNumber) buf]

/-- An operation with its dumps and restores around it. -/
def bracket (number : ℕ) (operation : Operation) (bufs : List String) : List Operation :=
  dumps names number bufs ++ operation :: restores names (number + bufs.length) number bufs

/-- The whole list, the numbers handed out in order. -/
def brackets : ℕ → List (Operation × List String) → List Operation
  | _, [] => []
  | number, (operation, bufs) :: rest =>
      bracket names number operation bufs ++ brackets (number + 2 * bufs.length) rest

variable {names}

theorem mem_dumps {number : ℕ} {bufs : List String} {operation : Operation}
    (inside : operation ∈ dumps names number bufs) :
    ∃ offset, number ≤ offset ∧ operation.operationName = names.operationName offset := by
  induction bufs generalizing number with
  | nil => cases inside
  | cons buf rest inductionHypothesis =>
      rcases List.mem_cons.mp inside with rfl | later
      · exact ⟨number, le_rfl, rfl⟩
      · obtain ⟨offset, above, named⟩ := inductionHypothesis later
        exact ⟨offset, by omega, named⟩

theorem mem_restores {number dumpNumber : ℕ} {bufs : List String} {operation : Operation}
    (inside : operation ∈ restores names number dumpNumber bufs) :
    ∃ offset, number ≤ offset ∧ operation.operationName = names.operationName offset := by
  induction bufs generalizing number dumpNumber with
  | nil => cases inside
  | cons buf rest inductionHypothesis =>
      rcases List.mem_append.mp inside with later | here
      · obtain ⟨offset, above, named⟩ := inductionHypothesis later
        exact ⟨offset, by omega, named⟩
      · obtain rfl := List.mem_singleton.mp here
        exact ⟨number, le_rfl, rfl⟩

/-! ## Inserting around a target -/

theorem indexOf_append {before after : List Operation} {target : Operation}
    (fresh : ∀ operation ∈ before, operation.operationName ≠ target.operationName) :
    indexOf (before ++ target :: after) target = before.length := by
  rw [indexOf, List.findIdx_append, List.findIdx_eq_length.mpr]
  · simp [List.findIdx_cons]
  · intro operation inside
    simpa using fresh operation inside

theorem insertIdx_append {before after : List Operation} (operation : Operation) :
    (before ++ after).insertIdx before.length operation = before ++ operation :: after := by
  induction before with
  | nil => rfl
  | cons first rest inductionHypothesis => exact congrArg (first :: ·) inductionHypothesis

variable (names) in
/-- The state of a graph between two insertions: what was inserted lies in HBM. -/
structure Edited (graph : Graph) (number : ℕ) (operations : List Operation) (state : Graph) :
    Prop where
  operations : state.operations = operations
  issued : state.issued = number
  above : graph.issued ≤ number
  buffers : ∀ name, state.getBuffer name = graph.getBuffer name ∨
    (∃ other, graph.issued ≤ other ∧ names.bufferName other = name) ∧
      state.getBuffer name = some ⟨none, true⟩

theorem Edited.insert {graph state : Graph} {number : ℕ} {before after : List Operation}
    (edited : Edited names graph number (before ++ after) state) {operation : Operation}
    (named : operation.name = names.bufferName number) :
    Edited names graph (number + 1) (before ++ operation :: after)
      (insertOperation state operation before.length) := by
  refine ⟨?_, congrArg (· + 1) edited.issued, Nat.le_succ_of_le edited.above, ?_⟩
  · rw [insertOperation, edited.operations, insertIdx_append]
  · intro name
    by_cases same : name = operation.name
    · subst same
      exact .inr ⟨⟨number, edited.above, named.symm⟩, by simp [insertOperation]⟩
    · simp only [insertOperation, Function.update_of_ne same]
      exact edited.buffers name

theorem Edited.isComputed {graph state : Graph} {number : ℕ} {operations : List Operation}
    (edited : Edited names graph number operations state) {name : String}
    (computed : (graph.getBuffer name).any Buffer.isComputedBuffer = true) :
    (state.getBuffer name).any Buffer.isComputedBuffer = true := by
  rcases edited.buffers name with same | ⟨-, isNew⟩
  · rwa [same]
  · rw [isNew]
    rfl

section Target

variable {graph : Graph} {target : Operation} {after : List Operation}

/-- The dumps go before the target, one after the other. -/
theorem foldlM_dumpBuffer {bufs : List String}
    (computed : ∀ buf ∈ bufs, (graph.getBuffer buf).any Buffer.isComputedBuffer = true)
    {before : List Operation} {number : ℕ} {state : Graph} {dumped : List (String × String)}
    (edited : Edited names graph number (before ++ target :: after) state)
    (fresh : ∀ operation ∈ before, operation.operationName ≠ target.operationName)
    (unissued : ∀ other, number ≤ other → names.operationName other ≠ target.operationName) :
    ∃ next, bufs.foldlM (dumpBuffer names target) (state, dumped) =
        .ok (next, dumped ++ dumpNames names number bufs) ∧
      Edited names graph (number + bufs.length) (before ++ dumps names number bufs ++ target :: after)
        next := by
  induction bufs generalizing before number state dumped with
  | nil =>
      refine ⟨state, ?_, ?_⟩
      · rw [List.foldlM_nil, dumpNames, List.append_nil]
        rfl
      · simpa [dumps] using edited
  | cons buf rest inductionHypothesis =>
      have stepped : dumpBuffer names target (state, dumped) buf =
          .ok (insertOperation state (dumpOperation names number buf) before.length,
            dumped ++ [(buf, names.bufferName number)]) := by
        rw [dumpBuffer]
        simp only [edited.isComputed (computed buf List.mem_cons_self), if_true, edited.issued,
          edited.operations, indexOf_append fresh]
        rfl
      have inserted : Edited names graph (number + 1)
          ((before ++ [dumpOperation names number buf]) ++ target :: after)
          (insertOperation state (dumpOperation names number buf) before.length) := by
        rw [List.append_assoc, List.singleton_append]
        exact edited.insert rfl
      have stillFresh : ∀ operation ∈ before ++ [dumpOperation names number buf],
          operation.operationName ≠ target.operationName := by
        intro operation inside
        rcases List.mem_append.mp inside with earlier | here
        · exact fresh operation earlier
        · obtain rfl := List.mem_singleton.mp here
          exact unissued number le_rfl
      obtain ⟨next, succeeds, finished⟩ := @inductionHypothesis
        (fun other later => computed other (List.mem_cons_of_mem _ later)) _ _ _
        (dumped ++ [(buf, names.bufferName number)]) inserted stillFresh
        (fun other above => unissued other (by omega))
      have relisted : dumped ++ dumpNames names number (buf :: rest) =
          dumped ++ [(buf, names.bufferName number)] ++ dumpNames names (number + 1) rest :=
        List.append_cons ..
      refine ⟨next, ?_, ?_⟩
      · rw [List.foldlM_cons, stepped, relisted]
        exact succeeds
      · have counted : number + (buf :: rest).length = number + 1 + rest.length := by
          simp only [List.length_cons]
          omega
        rw [counted]
        simpa [dumps, List.append_assoc] using finished

/-- The restores go right behind the target, so the last one comes first. -/
theorem foldl_restoreBuffer {bufs : List String} {dumped : List (String × String)} {dumpNumber : ℕ}
    (named : ∀ offset buf, bufs[offset]? = some buf →
      dumped.lookup buf = some (names.bufferName (dumpNumber + offset)))
    {before behind : List Operation} {number : ℕ} {state : Graph} {restored : List Operation}
    (edited : Edited names graph number (before ++ target :: behind) state)
    (fresh : ∀ operation ∈ before, operation.operationName ≠ target.operationName) :
    Edited names graph (number + bufs.length)
      (before ++ target :: (restores names number dumpNumber bufs ++ behind))
      (bufs.foldl (restoreBuffer names target dumped) (state, restored)).1 := by
  induction bufs generalizing behind number dumpNumber state restored with
  | nil => simpa [restores] using edited
  | cons buf rest inductionHypothesis =>
      have isDumped : dumped.lookup buf = some (names.bufferName dumpNumber) :=
        named 0 buf rfl
      have stepped : (restoreBuffer names target dumped (state, restored) buf).1 =
          insertOperation state
            (restoreOperation names number (names.bufferName dumpNumber) buf)
            (before.length + 1) := by
        rw [restoreBuffer]
        simp only [isDumped, Option.getD_some, edited.issued, edited.operations,
          indexOf_append fresh]
      have inserted : Edited names graph (number + 1)
          (before ++ target ::
            (restoreOperation names number (names.bufferName dumpNumber) buf :: behind))
          (restoreBuffer names target dumped (state, restored) buf).1 := by
        rw [stepped]
        have split : Edited names graph number ((before ++ [target]) ++ behind) state := by
          rwa [List.append_assoc, List.singleton_append]
        have moved := @Edited.insert names _ _ _ _ _ split
          (restoreOperation names number (names.bufferName dumpNumber) buf) rfl
        rwa [List.append_assoc, List.singleton_append, List.length_append,
          List.length_singleton] at moved
      have laterNamed : ∀ offset other, rest[offset]? = some other →
          dumped.lookup other = some (names.bufferName (dumpNumber + 1 + offset)) := by
        intro offset other isOther
        rw [Nat.add_right_comm, Nat.add_assoc]
        exact named (offset + 1) other isOther
      have finished := @inductionHypothesis _ laterNamed _ _ _
        (restoreBuffer names target dumped (state, restored) buf).2 inserted
      have counted : number + (buf :: rest).length = number + 1 + rest.length := by
        simp only [List.length_cons]
        omega
      rw [counted, restores, List.append_assoc]
      exact finished

theorem map_fst_dumpNames (number : ℕ) (bufs : List String) :
    (dumpNames names number bufs).map Prod.fst = bufs := by
  induction bufs generalizing number with
  | nil => rfl
  | cons buf rest inductionHypothesis =>
      exact congrArg (buf :: ·) (inductionHypothesis (number + 1))

theorem mem_dumpNames {number offset : ℕ} {bufs : List String} {buf : String}
    (here : bufs[offset]? = some buf) :
    (buf, names.bufferName (number + offset)) ∈ dumpNames names number bufs := by
  induction bufs generalizing number offset with
  | nil => cases here
  | cons first rest inductionHypothesis =>
      cases offset with
      | zero =>
          cases here
          exact List.mem_cons_self
      | succ offset =>
          have later : (buf, names.bufferName (number + 1 + offset)) ∈
              dumpNames names (number + 1) rest :=
            inductionHypothesis (show rest[offset]? = some buf from here)
          rw [Nat.add_right_comm] at later
          exact List.mem_cons_of_mem _ later

theorem lookup_dumpNames {bufs : List String} (distinct : bufs.Nodup) {number offset : ℕ}
    {buf : String} (here : bufs[offset]? = some buf) :
    (dumpNames names number bufs).lookup buf = some (names.bufferName (number + offset)) :=
  lookup_of_mem ((map_fst_dumpNames number bufs).symm ▸ distinct) (mem_dumpNames here)

/-- One target: its bracket takes its place. -/
theorem bracketTarget_eq {bufs : List String} (distinct : bufs.Nodup)
    (computed : ∀ buf ∈ bufs, (graph.getBuffer buf).any Buffer.isComputedBuffer = true)
    {before : List Operation} {number : ℕ} {state : Graph}
    (edited : Edited names graph number (before ++ target :: after) state)
    (fresh : ∀ operation ∈ before, operation.operationName ≠ target.operationName)
    (unissued : ∀ other, number ≤ other → names.operationName other ≠ target.operationName) :
    ∃ next, bracketTarget names state (target, bufs) = .ok next ∧
      Edited names graph (number + 2 * bufs.length)
        (before ++ bracket names number target bufs ++ after) next := by
  obtain ⟨dumpedGraph, succeeds, dumpedEdited⟩ :=
    @foldlM_dumpBuffer names graph target after bufs computed before number state [] edited fresh
      unissued
  have stillFresh : ∀ operation ∈ before ++ dumps names number bufs,
      operation.operationName ≠ target.operationName := by
    intro operation inside
    rcases List.mem_append.mp inside with earlier | isDump
    · exact fresh operation earlier
    · obtain ⟨offset, above, isNamed⟩ := mem_dumps isDump
      rw [isNamed]
      exact unissued offset above
  have restoredEdited := @foldl_restoreBuffer names graph target bufs _ number
    (fun offset buf here => lookup_dumpNames distinct here) _ _ _ dumpedGraph [] dumpedEdited stillFresh
  simp only [bracketTarget]
  rw [succeeds]
  refine ⟨_, rfl, ?_⟩
  have counted : number + 2 * bufs.length = number + bufs.length + bufs.length := by omega
  have sameList : before ++ bracket names number target bufs ++ after =
      before ++ dumps names number bufs ++
        target :: (restores names (number + bufs.length) number bufs ++ after) := by
    simp [bracket, List.append_assoc]
  rw [counted, sameList]
  exact ⟨restoredEdited.operations, restoredEdited.issued, restoredEdited.above,
    restoredEdited.buffers⟩

end Target

/-! ## All targets -/

theorem foldlM_bracketTarget {graph : Graph} {plan : List (Operation × List String)}
    (distinct : ∀ entry ∈ plan, entry.2.Nodup)
    (computed : ∀ entry ∈ plan, ∀ buf ∈ entry.2,
      (graph.getBuffer buf).any Buffer.isComputedBuffer = true)
    (operationNames : (plan.map fun entry => entry.1.operationName).Nodup) {number : ℕ}
    (unissued : ∀ entry ∈ plan, ∀ other, number ≤ other →
      names.operationName other ≠ entry.1.operationName)
    {before : List Operation} {state : Graph}
    (edited : Edited names graph number (before ++ plan.map Prod.fst) state)
    (fresh : ∀ operation ∈ before, ∀ entry ∈ plan,
      operation.operationName ≠ entry.1.operationName) :
    ∃ final, (plan.filter fun entry => entry.2 ≠ []).foldlM (bracketTarget names) state = .ok final ∧
      ∃ issued, Edited names graph issued (before ++ brackets names number plan) final := by
  induction plan generalizing number before state with
  | nil => exact ⟨state, rfl, number, edited⟩
  | cons entry rest inductionHypothesis =>
      obtain ⟨target, bufs⟩ := entry
      rw [List.map_cons, List.nodup_cons] at operationNames
      have laterDistinct := fun other later => distinct other (List.mem_cons_of_mem _ later)
      have laterComputed := fun other later => computed other (List.mem_cons_of_mem _ later)
      have targetLater : ∀ other ∈ rest, target.operationName ≠ other.1.operationName := by
        intro other later same
        exact operationNames.1 (List.mem_map.mpr ⟨other, later, same.symm⟩)
      by_cases unprotected : bufs = []
      · subst unprotected
        have moved : Edited names graph number ((before ++ [target]) ++ rest.map Prod.fst) state := by
          simpa [List.append_assoc] using edited
        have stillFresh : ∀ operation ∈ before ++ [target], ∀ entry ∈ rest,
            operation.operationName ≠ entry.1.operationName := by
          intro operation inside other later
          rcases List.mem_append.mp inside with earlier | here
          · exact fresh operation earlier other (List.mem_cons_of_mem _ later)
          · obtain rfl := List.mem_singleton.mp here
            exact targetLater other later
        obtain ⟨final, succeeds, issued, finished⟩ := inductionHypothesis laterDistinct laterComputed
          operationNames.2 (fun other later => unissued other (List.mem_cons_of_mem _ later)) moved
          stillFresh
        refine ⟨final, ?_, ?_⟩
        · rw [List.filter_cons_of_neg (by simp)]
          exact succeeds
        · refine ⟨issued, ?_⟩
          simpa [brackets, bracket, dumps, restores, List.append_assoc] using finished
      · obtain ⟨next, stepped, nextEdited⟩ := bracketTarget_eq
          (distinct (target, bufs) List.mem_cons_self) (computed (target, bufs) List.mem_cons_self)
          edited (fun operation earlier => fresh operation earlier _ List.mem_cons_self)
          (unissued (target, bufs) List.mem_cons_self)
        have stillFresh : ∀ operation ∈ before ++ bracket names number target bufs, ∀ entry ∈ rest,
            operation.operationName ≠ entry.1.operationName := by
          intro operation inside other later
          have notIssued := unissued other (List.mem_cons_of_mem _ later)
          rcases List.mem_append.mp inside with earlier | inBracket
          · exact fresh operation earlier other (List.mem_cons_of_mem _ later)
          · rcases List.mem_append.mp inBracket with isDump | rest'
            · obtain ⟨offset, above, named⟩ := mem_dumps isDump
              rw [named]
              exact notIssued offset above
            · rcases List.mem_cons.mp rest' with rfl | isRestore
              · exact targetLater other later
              · obtain ⟨offset, above, named⟩ := mem_restores isRestore
                rw [named]
                exact notIssued offset (by omega)
        obtain ⟨final, succeeds, issued, finished⟩ := inductionHypothesis laterDistinct laterComputed
          operationNames.2
          (fun other later offset above => unissued other (List.mem_cons_of_mem _ later) offset
            (by omega)) nextEdited stillFresh
        refine ⟨final, ?_, ?_⟩
        · rw [List.filter_cons_of_pos (by simpa using unprotected), List.foldlM_cons, stepped]
          exact succeeds
        · refine ⟨issued, ?_⟩
          simpa [brackets, List.append_assoc] using finished

end TorchSpyre.ContextSwitch
