import Mathlib
import TorchSpyre.Lib.Outcome
import TorchSpyre.Restickify.Tables

/-!
# The search is exact while the beam is not trimmed

Every state of the frontier is a choice of layouts for the operations done, at its cost; and
every choice has a state that costs no more and agrees with it on what is still read.
-/

namespace TorchSpyre.Restickify

open Lib

variable {Layout : Type} [DecidableEq Layout]

/-! ## Assignments -/

/-- The cost of an operation under a choice of layouts. -/
def operationCost (chosen : String → Option Layout) (operation : LaidOperation Layout) : Cost :=
  (chosen operation.name).elim ⊤ (operation.restickCostFn.cost chosen)

def totalCost (chosen : String → Option Layout) (operations : List (LaidOperation Layout)) : Cost :=
  (operations.map (operationCost chosen)).sum

/-- The inputs that have candidate layouts, with these. -/
def seedLayouts (inputs : List (GraphInput Layout)) : List (String × List Layout) :=
  inputs.filterMap fun input =>
    if input.isInputBuffer then input.layouts.map (input.name, ·) else none

/-- One candidate for each operation, and its first layout for each input. -/
structure Assignment (graph : Graph Layout) (chosen : String → Option Layout) : Prop where
  inputs : ∀ seed ∈ seedLayouts graph.graphInputs,
    ∃ stl, seed.2.head? = some stl ∧ chosen seed.1 = some stl
  operations : ∀ operation ∈ laidOperations graph.operations,
    ∃ stl ∈ operation.layouts, chosen operation.name = some stl

/-- The names are distinct, and the operations come in a topological order. -/
structure Dag (graph : Graph Layout) : Prop where
  distinct : ((seedLayouts graph.graphInputs).map Prod.fst ++
    graph.operations.map Operation.name).Nodup
  ordered : Ordered ((seedLayouts graph.graphInputs).map Prod.fst) graph.operations

/-- The beam holds every merged state, at every step. -/
def Untrimmed (graph : Graph Layout) : Prop :=
  let operations := laidOperations (reorderAnyInNodes graph.operations)
  ∀ done operation rest, operations = done ++ operation :: rest → ∀ frontier states,
    searchAfter graph.graphInputs operations done = .ok frontier →
      mergedStates (computeFutureMinCost operations) (computeLastUse operations)
        (frontier.addBuf operation.name) done.length operation = .ok states →
      states.length ≤ beamWidth

section Choice

variable {chosen other : String → Option Layout} {operations : List (LaidOperation Layout)}

theorem totalCost_congr
    (same : ∀ operation ∈ operations, chosen operation.name = other operation.name ∧
      ∀ name ∈ operation.restickCostFn.deps, chosen name = other name) :
    totalCost chosen operations = totalCost other operations := by
  unfold totalCost
  congr 1
  apply List.map_congr_left
  intro operation inside
  obtain ⟨sameName, sameDeps⟩ := same operation inside
  unfold operationCost
  rw [sameName]
  cases other operation.name with
  | none => rfl
  | some stl => exact RestickNodeCost.cost_congr sameDeps stl

theorem totalCost_append (chosen : String → Option Layout)
    (operations : List (LaidOperation Layout)) (operation : LaidOperation Layout) :
    totalCost chosen (operations ++ [operation]) =
      totalCost chosen operations + operationCost chosen operation := by
  simp [totalCost]

theorem totalCost_perm {reordered : List (LaidOperation Layout)} (perm : reordered.Perm operations)
    (chosen : String → Option Layout) : totalCost chosen reordered = totalCost chosen operations :=
  (perm.map _).sum_eq

end Choice

/-! ## States as choices -/

/-- The layouts a state has chosen. -/
def assigned (bufNames : List String) (assignments : List Layout) (name : String) : Option Layout :=
  (bufNames.zip assignments).lookup name

section Assigned

variable {bufNames : List String} {assignments : List Layout} {name other : String}

omit [DecidableEq Layout] in
theorem assigned_isSome (sized : assignments.length = bufNames.length) (known : name ∈ bufNames) :
    ∃ stl, assigned bufNames assignments name = some stl := by
  induction bufNames generalizing assignments with
  | nil => cases known
  | cons first rest inductionHypothesis =>
      cases assignments with
      | nil => cases sized
      | cons stl assignments =>
          by_cases here : name = first
          · subst here
            exact ⟨stl, List.lookup_cons_self⟩
          · obtain ⟨found, isFound⟩ := inductionHypothesis (Nat.succ.inj sized)
              ((List.mem_cons.mp known).resolve_left here)
            refine ⟨found, ?_⟩
            rw [assigned, List.zip_cons_cons, List.lookup_cons, beq_eq_false_iff_ne.mpr here]
            exact isFound

omit [DecidableEq Layout] in
theorem assigned_append (sized : assignments.length = bufNames.length) (stl : Layout)
    (known : name ∈ bufNames) :
    assigned (bufNames ++ [other]) (assignments ++ [stl]) name =
      assigned bufNames assignments name := by
  obtain ⟨found, isFound⟩ := assigned_isSome sized known
  rw [isFound]
  rw [assigned] at isFound ⊢
  rw [List.zip_append sized.symm, List.lookup_append, isFound]
  rfl

omit [DecidableEq Layout] in
theorem assigned_append_self (sized : assignments.length = bufNames.length) (stl : Layout)
    (fresh : other ∉ bufNames) :
    assigned (bufNames ++ [other]) (assignments ++ [stl]) other = some stl := by
  have absent : (bufNames.zip assignments).lookup other = none := by
    rw [List.lookup_eq_none_iff]
    rintro ⟨name, value⟩ inside
    have isName : name ∈ bufNames := (List.of_mem_zip inside).1
    rw [bne_iff_ne]
    rintro rfl
    exact fresh isName
  rw [assigned, List.zip_append sized.symm, List.lookup_append, absent]
  exact List.lookup_cons_self

omit [DecidableEq Layout] in
theorem zip_addBuf (sized : assignments.length = bufNames.length) :
    (bufNames ++ [other]).zip assignments = bufNames.zip assignments := by
  have split := @List.zip_append _ _ bufNames [other] assignments [] sized.symm
  rwa [List.append_nil, List.zip_nil_right, List.append_nil] at split

omit [DecidableEq Layout] in
theorem inputStl_eq {frontier : Frontier Layout} {state : BeamState Layout} {stl : Layout}
    (found : assigned frontier.bufNames state.assignments name = some stl) :
    frontier.inputStl state name = .ok stl := by
  have indexed : ∀ (bufNames : List String) (assignments : List Layout),
      assigned bufNames assignments name = some stl →
        ∃ index, bufNames.idxOf? name = some index ∧ assignments[index]? = some stl := by
    intro bufNames
    induction bufNames with
    | nil =>
        intro assignments isFound
        cases isFound
    | cons first rest inductionHypothesis =>
        intro assignments isFound
        cases assignments with
        | nil => cases isFound
        | cons value assignments =>
            rw [assigned, List.zip_cons_cons, List.lookup_cons] at isFound
            by_cases here : name = first
            · subst here
              rw [beq_self_eq_true] at isFound
              refine ⟨0, ?_, isFound⟩
              rw [List.idxOf?_cons, beq_self_eq_true]
              rfl
            · rw [beq_eq_false_iff_ne.mpr here] at isFound
              obtain ⟨index, isIndex, isValue⟩ := inductionHypothesis assignments isFound
              refine ⟨index + 1, ?_, isValue⟩
              rw [List.idxOf?_cons, beq_eq_false_iff_ne.mpr (Ne.symm here), isIndex]
              rfl
  obtain ⟨index, isIndex, isValue⟩ := indexed _ _ found
  simp only [Frontier.inputStl, isIndex, isValue]

omit [DecidableEq Layout] in
theorem assigned_eq_of_liveKey {lastUse : String → Option ℕ} {step : ℕ} {first second : BeamState Layout}
    (firstSized : first.assignments.length = bufNames.length)
    (secondSized : second.assignments.length = bufNames.length)
    (same : liveKey lastUse bufNames step first = liveKey lastUse bufNames step second)
    (live : (lastUse name).any (step < ·) = true) :
    assigned bufNames first.assignments name = assigned bufNames second.assignments name := by
  unfold liveKey at same
  generalize first.assignments = firstAssignments at *
  generalize second.assignments = secondAssignments at *
  induction bufNames generalizing firstAssignments secondAssignments with
  | nil => rfl
  | cons buf rest inductionHypothesis =>
      obtain ⟨firstStl, firstRest, rfl⟩ := List.exists_cons_of_length_eq_add_one firstSized
      obtain ⟨secondStl, secondRest, rfl⟩ := List.exists_cons_of_length_eq_add_one secondSized
      obtain ⟨sameHead, sameTail⟩ := List.cons.inj same
      rw [assigned, assigned, List.zip_cons_cons, List.zip_cons_cons, List.lookup_cons,
        List.lookup_cons]
      by_cases here : name = buf
      · subst here
        simp only [if_pos live] at sameHead
        rw [beq_self_eq_true]
        exact sameHead
      · rw [beq_eq_false_iff_ne.mpr here]
        exact inductionHypothesis _ (Nat.succ.inj firstSized) _ (Nat.succ.inj secondSized) sameTail

end Assigned

/-! ## Expanding a state -/

/-- The feasible extensions of a state, at the layouts it has chosen. -/
def extensions (future : String → Layout → Cost) (bufNames : List String)
    (operation : LaidOperation Layout) (state : BeamState Layout) : List (BeamState Layout) :=
  operation.layouts.filterMap fun candidate =>
    let extraCost := operation.restickCostFn.cost (assigned bufNames state.assignments) candidate
    if extraCost < ⊤ then
      some ⟨state.assignments ++ [candidate], state.cost + extraCost,
        state.cost + extraCost + future operation.name candidate⟩
    else none

theorem mem_extensions {future : String → Layout → Cost} {bufNames : List String}
    {operation : LaidOperation Layout} {state new : BeamState Layout} :
    new ∈ extensions future bufNames operation state ↔ ∃ candidate ∈ operation.layouts,
      operation.restickCostFn.cost (assigned bufNames state.assignments) candidate ≠ ⊤ ∧
      new = ⟨state.assignments ++ [candidate],
        state.cost + operation.restickCostFn.cost (assigned bufNames state.assignments) candidate,
        state.cost + operation.restickCostFn.cost (assigned bufNames state.assignments) candidate +
          future operation.name candidate⟩ := by
  simp only [extensions, List.mem_filterMap, lt_top_iff_ne_top, Option.ite_none_right_eq_some,
    Option.some.injEq]
  apply exists_congr
  intro candidate
  rw [eq_comm (b := new)]

omit [DecidableEq Layout] in
theorem lookup_of_forall₂ {value : String → Option Layout} {names : List String}
    {entries : List (String × Layout)}
    (related : List.Forall₂ (fun name entry => entry.1 = name ∧ value name = some entry.2) names
      entries) {name : String} (inside : name ∈ names) : entries.lookup name = value name := by
  induction related with
  | nil => cases inside
  | @cons first entry names entries here related inductionHypothesis =>
      obtain ⟨rfl, isValue⟩ := here
      rw [List.lookup_cons]
      by_cases same : name = entry.1
      · subst same
        rw [beq_self_eq_true, isValue]
      · rw [beq_eq_false_iff_ne.mpr same]
        exact inductionHypothesis ((List.mem_cons.mp inside).resolve_left same)

/-- With every layout it reads chosen, an operation's expansion does not raise. -/
theorem expandState_eq {future : String → Layout → Cost} {frontier : Frontier Layout}
    {operation : LaidOperation Layout} {state : BeamState Layout}
    (sized : state.assignments.length = frontier.bufNames.length)
    (known : ∀ dep ∈ operation.restickCostFn.deps, dep ∈ frontier.bufNames) :
    expandState future (frontier.addBuf operation.name) operation state =
      .ok (extensions future frontier.bufNames operation state) := by
  have inputs : ∀ dep ∈ operation.restickCostFn.deps, ∃ entry : String × Layout,
      (do
        let stl ← (frontier.addBuf operation.name).inputStl state dep
        pure (dep, stl)) = Except.ok entry ∧
        entry.1 = dep ∧ assigned frontier.bufNames state.assignments dep = some entry.2 := by
    intro dep isDep
    obtain ⟨stl, isStl⟩ := assigned_isSome sized (known dep isDep)
    have found : (frontier.addBuf operation.name).inputStl state dep = .ok stl := by
      apply inputStl_eq
      rw [assigned, Frontier.addBuf, zip_addBuf sized]
      exact isStl
    refine ⟨(dep, stl), ?_, rfl, isStl⟩
    rw [found]
    rfl
  obtain ⟨inLayouts, succeeds, related⟩ := exists_mapM inputs
  have looked : ∀ dep ∈ operation.restickCostFn.deps,
      inLayouts.lookup dep = assigned frontier.bufNames state.assignments dep :=
    fun dep isDep => lookup_of_forall₂ related isDep
  have sameCost := RestickNodeCost.cost_congr looked
  rw [expandState, succeeds]
  simp only [extensions, ← sameCost]
  rfl

/-! ## One step -/

/-- The inputs at their layouts, and a candidate for each operation done. -/
structure Valid (seeds : List (String × Layout)) (done : List (LaidOperation Layout))
    (chosen : String → Option Layout) : Prop where
  seeds : ∀ seed ∈ seeds, chosen seed.1 = some seed.2
  candidates : ∀ operation ∈ done, ∃ stl ∈ operation.layouts, chosen operation.name = some stl

/-- The names of the buffers that have a layout once some operations are done. -/
def doneNames (seeds : List (String × Layout)) (done : List (LaidOperation Layout)) : List String :=
  seeds.map Prod.fst ++ done.map LaidOperation.name

/-- A state is a choice at its cost. -/
structure Sound (seeds : List (String × Layout)) (done : List (LaidOperation Layout))
    (state : BeamState Layout) : Prop where
  sized : state.assignments.length = (doneNames seeds done).length
  valid : Valid seeds done (assigned (doneNames seeds done) state.assignments)
  cost : state.cost = totalCost (assigned (doneNames seeds done) state.assignments) done
  finite : state.cost ≠ ⊤

/-- A state that costs no more than a choice and agrees with it on what the rest reads. -/
structure Stands (seeds : List (String × Layout)) (done rest : List (LaidOperation Layout))
    (chosen : String → Option Layout) (state : BeamState Layout) : Prop where
  cost : state.cost ≤ totalCost chosen done
  agree : ∀ operation ∈ rest, ∀ name ∈ operation.restickCostFn.deps, name ∈ doneNames seeds done →
    assigned (doneNames seeds done) state.assignments name = chosen name

structure Exact (seeds : List (String × Layout)) (done rest : List (LaidOperation Layout))
    (states : List (BeamState Layout)) : Prop where
  sound : ∀ state ∈ states, Sound seeds done state
  complete : ∀ chosen, Valid seeds done chosen → totalCost chosen done ≠ ⊤ →
    ∃ state ∈ states, Stands seeds done rest chosen state

/-- Every operation reads inputs and operations before it only, and names are distinct. -/
structure Listed (seeds : List (String × Layout)) (operations : List (LaidOperation Layout)) :
    Prop where
  distinct : (doneNames seeds operations).Nodup
  ordered : ∀ done operation rest, operations = done ++ operation :: rest →
    ∀ name ∈ operation.restickCostFn.deps, name ∈ doneNames seeds done

section Step

variable {seeds : List (String × Layout)} {done rest : List (LaidOperation Layout)}
  {operation : LaidOperation Layout} (listed : Listed seeds (done ++ operation :: rest))

omit [DecidableEq Layout] in
theorem doneNames_append (seeds : List (String × Layout)) (done : List (LaidOperation Layout))
    (operation : LaidOperation Layout) :
    doneNames seeds (done ++ [operation]) = doneNames seeds done ++ [operation.name] := by
  simp [doneNames]

omit [DecidableEq Layout] in
include listed in
theorem Listed.fresh : operation.name ∉ doneNames seeds done := by
  have distinct := listed.distinct
  have regroup : doneNames seeds (done ++ operation :: rest) =
      doneNames seeds done ++ operation.name :: rest.map LaidOperation.name := by
    simp [doneNames]
  rw [regroup, List.nodup_middle, List.nodup_cons] at distinct
  exact fun inside => distinct.1 (List.mem_append_left _ inside)

omit [DecidableEq Layout] in
include listed in
/-- What an operation done reads was there before it. -/
theorem Listed.deps_known {earlier : LaidOperation Layout} (inside : earlier ∈ done) {name : String}
    (reads : name ∈ earlier.restickCostFn.deps) : name ∈ doneNames seeds done := by
  obtain ⟨before, after, rfl⟩ := List.append_of_mem inside
  have known := listed.ordered before earlier (after ++ operation :: rest) (by simp) name reads
  rw [doneNames, List.mem_append] at known ⊢
  apply known.imp_right
  intro isDone
  rw [List.map_append]
  exact List.mem_append_left _ isDone

include listed in
/-- Extending a state keeps it sound. -/
theorem sound_extension {future : String → Layout → Cost} {state new : BeamState Layout}
    (sound : Sound seeds done state)
    (isNew : new ∈ extensions future (doneNames seeds done) operation state) :
    Sound seeds (done ++ [operation]) new := by
  obtain ⟨candidate, isCandidate, feasible, rfl⟩ := mem_extensions.1 isNew
  have kept : ∀ name ∈ doneNames seeds done,
      assigned (doneNames seeds done ++ [operation.name]) (state.assignments ++ [candidate]) name =
        assigned (doneNames seeds done) state.assignments name :=
    fun name known => assigned_append sound.sized candidate known
  have here : assigned (doneNames seeds done ++ [operation.name]) (state.assignments ++ [candidate])
      operation.name = some candidate := assigned_append_self sound.sized candidate listed.fresh
  have doneKnown : ∀ earlier ∈ done, earlier.name ∈ doneNames seeds done := fun earlier inside =>
    List.mem_append_right _ (List.mem_map_of_mem inside)
  have sameCost : totalCost (assigned (doneNames seeds done ++ [operation.name])
      (state.assignments ++ [candidate])) done =
        totalCost (assigned (doneNames seeds done) state.assignments) done := by
    apply totalCost_congr
    intro earlier inside
    exact ⟨kept _ (doneKnown earlier inside), fun name reads =>
      kept name (listed.deps_known inside reads)⟩
  have sameExtra : operation.restickCostFn.cost (assigned (doneNames seeds done ++ [operation.name])
      (state.assignments ++ [candidate])) candidate =
        operation.restickCostFn.cost (assigned (doneNames seeds done) state.assignments) candidate :=
    RestickNodeCost.cost_congr
      (fun name reads => kept name (listed.ordered done operation rest rfl name reads)) candidate
  constructor
  · rw [doneNames_append, List.length_append, List.length_append, sound.sized]
    rfl
  · rw [doneNames_append]
    constructor
    · intro seed inside
      rw [kept _ (List.mem_append_left _ (List.mem_map_of_mem inside))]
      exact sound.valid.seeds seed inside
    · intro earlier inside
      rcases List.mem_append.mp inside with isDone | isHere
      · rw [kept _ (doneKnown earlier isDone)]
        exact sound.valid.candidates earlier isDone
      · obtain rfl := List.mem_singleton.mp isHere
        exact ⟨candidate, isCandidate, here⟩
  · rw [doneNames_append, totalCost_append, sameCost, operationCost, here, Option.elim_some,
      sameExtra, ← sound.cost]
  · exact WithTop.add_ne_top.mpr ⟨sound.finite, feasible⟩

include listed in
/-- Expanding every state keeps every choice. -/
theorem exact_extensions {future : String → Layout → Cost} {states : List (BeamState Layout)}
    (exact : Exact seeds done (operation :: rest) states) :
    Exact seeds (done ++ [operation]) rest
      (states.flatMap (extensions future (doneNames seeds done) operation)) := by
  constructor
  · intro new isNew
    obtain ⟨state, isState, isExtension⟩ := List.mem_flatMap.mp isNew
    exact sound_extension listed (exact.sound state isState) isExtension
  · intro chosen valid finite
    rw [totalCost_append, WithTop.add_ne_top] at finite
    have validBefore : Valid seeds done chosen :=
      ⟨valid.seeds, fun earlier inside => valid.candidates earlier (List.mem_append_left _ inside)⟩
    obtain ⟨state, isState, stands⟩ := exact.complete chosen validBefore finite.1
    obtain ⟨candidate, isCandidate, isChosen⟩ := valid.candidates operation (by simp)
    have sized := (exact.sound state isState).sized
    have agreeDeps : ∀ name ∈ operation.restickCostFn.deps,
        assigned (doneNames seeds done) state.assignments name = chosen name := fun name reads =>
      stands.agree operation List.mem_cons_self name reads
        (listed.ordered done operation rest rfl name reads)
    have extra : operationCost chosen operation = operation.restickCostFn.cost
        (assigned (doneNames seeds done) state.assignments) candidate := by
      rw [operationCost, isChosen, Option.elim_some]
      exact (RestickNodeCost.cost_congr agreeDeps candidate).symm
    refine ⟨_, List.mem_flatMap.mpr ⟨state, isState, mem_extensions.mpr
      ⟨candidate, isCandidate, extra ▸ finite.2, rfl⟩⟩, ?_, ?_⟩
    · rw [totalCost_append, extra]
      exact add_le_add_left stands.cost _
    · intro later isLater name reads known
      rw [doneNames_append, List.mem_append, List.mem_singleton] at known
      rw [doneNames_append]
      rcases known with isDone | rfl
      · rw [assigned_append sized candidate isDone]
        exact stands.agree later (List.mem_cons_of_mem _ isLater) name reads isDone
      · rw [assigned_append_self sized candidate listed.fresh, isChosen]

omit [DecidableEq Layout] in
include listed in
theorem Listed.operationNames :
    ((done ++ operation :: rest).map LaidOperation.name).Nodup :=
  (List.nodup_append.mp listed.distinct).2.1

omit [DecidableEq Layout] in
include listed in
/-- Whatever reads an operation comes after it. -/
theorem Listed.reader_later {consumer : LaidOperation Layout}
    (inside : consumer ∈ done ++ operation :: rest)
    (reads : operation.name ∈ consumer.restickCostFn.deps) : consumer ∈ rest := by
  rcases List.mem_append.mp inside with isDone | later
  · exact absurd (listed.deps_known isDone reads) listed.fresh
  · rcases List.mem_cons.mp later with rfl | isRest
    · exact absurd (listed.ordered done consumer rest rfl _ reads) listed.fresh
    · exact isRest

include listed in
/-- Of two extensions with the same live layouts, the one with the lower bound costs less: what
is added to their costs is the same. -/
theorem cost_le_of_lowerBound_le {states : List (BeamState Layout)}
    (exact : Exact seeds done (operation :: rest) states) {first second : BeamState Layout}
    (isFirst : first ∈ states.flatMap (extensions
      (computeFutureMinCost (done ++ operation :: rest)) (doneNames seeds done) operation))
    (isSecond : second ∈ states.flatMap (extensions
      (computeFutureMinCost (done ++ operation :: rest)) (doneNames seeds done) operation))
    (sameKey : liveKey (computeLastUse (done ++ operation :: rest))
        (doneNames seeds (done ++ [operation])) done.length first =
      liveKey (computeLastUse (done ++ operation :: rest))
        (doneNames seeds (done ++ [operation])) done.length second)
    (lower : first.lowerBound ≤ second.lowerBound) : first.cost ≤ second.cost := by
  obtain ⟨state, isState, isExtension⟩ := List.mem_flatMap.mp isFirst
  obtain ⟨other, isOther, isOtherExtension⟩ := List.mem_flatMap.mp isSecond
  have firstSized := (sound_extension listed (exact.sound state isState) isExtension).sized
  have secondSized := (sound_extension listed (exact.sound other isOther) isOtherExtension).sized
  obtain ⟨candidate, -, -, rfl⟩ := mem_extensions.mp isExtension
  obtain ⟨otherCandidate, -, -, rfl⟩ := mem_extensions.mp isOtherExtension
  have sameFuture : computeFutureMinCost (done ++ operation :: rest) operation.name candidate =
      computeFutureMinCost (done ++ operation :: rest) operation.name otherCandidate := by
    by_cases read : ∃ consumer ∈ done ++ operation :: rest,
        operation.name ∈ consumer.restickCostFn.deps
    · obtain ⟨consumer, inside, reads⟩ := read
      have live := live_of_reader listed.operationNames (listed.reader_later inside reads) reads
        (by simp)
      have same := assigned_eq_of_liveKey firstSized secondSized sameKey live
      rw [doneNames_append, assigned_append_self (exact.sound state isState).sized _ listed.fresh,
        assigned_append_self (exact.sound other isOther).sized _ listed.fresh] at same
      rw [Option.some.inj same]
    · have unread : ∀ consumer ∈ done ++ operation :: rest,
          operation.name ∉ consumer.restickCostFn.deps :=
        fun consumer inside reads => read ⟨consumer, inside, reads⟩
      rw [computeFutureMinCost, futureMinCost_eq_zero unread, futureMinCost_eq_zero unread]
  simp only [sameFuture] at lower
  exact (WithTop.add_le_add_iff_right (futureMinCost_ne_top _ _ _ _)).mp lower

include listed in
/-- The merge loses no choice: what it drops has a representative that costs no more and
agrees with it on everything that is still read. -/
theorem exact_keepBest {states : List (BeamState Layout)}
    (exact : Exact seeds done (operation :: rest) states) :
    Exact seeds (done ++ [operation]) rest
      (keepBest (liveKey (computeLastUse (done ++ operation :: rest))
          (doneNames seeds (done ++ [operation])) done.length) BeamState.lowerBound
        (states.flatMap (extensions (computeFutureMinCost (done ++ operation :: rest))
          (doneNames seeds done) operation))) := by
  have expanded := @exact_extensions Layout _ seeds done rest operation listed
    (computeFutureMinCost (done ++ operation :: rest)) states exact
  constructor
  · exact fun kept isKept => expanded.sound kept (mem_of_mem_keepBest isKept)
  · intro chosen valid finite
    obtain ⟨state, isState, stands⟩ := expanded.complete chosen valid finite
    obtain ⟨kept, isKept, sameKey, lower⟩ := @exists_keepBest _ _ _ _ _
      (liveKey (computeLastUse (done ++ operation :: rest))
        (doneNames seeds (done ++ [operation])) done.length) BeamState.lowerBound _ _ isState
    have isExpanded := mem_of_mem_keepBest isKept
    have keptSound := expanded.sound kept isExpanded
    refine ⟨kept, isKept, ?_, ?_⟩
    · exact (cost_le_of_lowerBound_le listed exact isExpanded isState sameKey lower).trans
        stands.cost
    · intro later isLater name reads known
      rcases List.mem_append.mp known with isSeed | isDone
      · obtain ⟨seed, inside, rfl⟩ := List.mem_map.mp isSeed
        rw [keptSound.valid.seeds seed inside, valid.seeds seed inside]
      · have isName : name ∈ (done ++ operation :: rest).map LaidOperation.name := by
          rw [List.append_cons, List.map_append]
          exact List.mem_append_left _ isDone
        have live := live_of_reader listed.operationNames isLater reads isName
        rw [assigned_eq_of_liveKey keptSound.sized (expanded.sound state isState).sized sameKey live]
        exact stands.agree later isLater name reads known

/-- What the loop keeps from one operation to the next. -/
structure Reached (seeds : List (String × Layout)) (done rest : List (LaidOperation Layout))
    (frontier : Frontier Layout) : Prop where
  width : frontier.width = beamWidth
  bufNames : frontier.bufNames = doneNames seeds done
  nonempty : frontier.states ≠ []
  exact : Exact seeds done rest frontier.states

include listed in
theorem mergedStates_eq {frontier : Frontier Layout}
    (reached : Reached seeds done (operation :: rest) frontier) :
    ∃ states, mergedStates (computeFutureMinCost (done ++ operation :: rest))
        (computeLastUse (done ++ operation :: rest)) (frontier.addBuf operation.name) done.length
        operation = .ok states ∧ Exact seeds (done ++ [operation]) rest states := by
  have expanded : frontier.states.mapM (expandState
      (computeFutureMinCost (done ++ operation :: rest)) (frontier.addBuf operation.name)
        operation) =
      .ok (frontier.states.map (extensions (computeFutureMinCost (done ++ operation :: rest))
        frontier.bufNames operation)) := by
    apply mapM_eq_map
    intro state isState
    apply expandState_eq
    · rw [reached.bufNames]
      exact (reached.exact.sound state isState).sized
    · rw [reached.bufNames]
      exact listed.ordered done operation rest rfl
  refine ⟨_, ?_, exact_keepBest listed reached.exact⟩
  rw [mergedStates, Frontier.addBuf]
  rw [Frontier.addBuf] at expanded
  simp only
  rw [expanded, reached.bufNames, ← doneNames_append]
  rfl

include listed in
/-- One operation: the frontier stays exact, or no choice is feasible so far. -/
theorem beamStep_reached {frontier : Frontier Layout}
    (reached : Reached seeds done (operation :: rest) frontier)
    (untrimmed : ∀ states, mergedStates (computeFutureMinCost (done ++ operation :: rest))
      (computeLastUse (done ++ operation :: rest)) (frontier.addBuf operation.name) done.length
      operation = .ok states → states.length ≤ beamWidth) :
    (∃ next, beamStep (computeFutureMinCost (done ++ operation :: rest))
        (computeLastUse (done ++ operation :: rest)) (done ++ operation :: rest) frontier
        operation = .ok next ∧ Reached seeds (done ++ [operation]) rest next) ∨
      (∃ error, beamStep (computeFutureMinCost (done ++ operation :: rest))
        (computeLastUse (done ++ operation :: rest)) (done ++ operation :: rest) frontier
        operation = .error error) ∧
        ∀ chosen, Valid seeds (done ++ [operation]) chosen →
          totalCost chosen (done ++ [operation]) = ⊤ := by
  obtain ⟨states, merged, exact⟩ := mergedStates_eq listed reached
  have isStep : (stepOf (done ++ operation :: rest) operation.name).getD 0 = done.length := by
    rw [stepOf_split listed.operationNames, Option.getD_some]
  have sorted := List.perm_insertionSort (fun first second : BeamState Layout =>
    first.lowerBound ≤ second.lowerBound) states
  have kept : (states.insertionSort fun first second =>
      first.lowerBound ≤ second.lowerBound).take frontier.width =
        states.insertionSort fun first second => first.lowerBound ≤ second.lowerBound := by
    apply List.take_of_length_le
    rw [sorted.length_eq, reached.width]
    exact untrimmed states merged
  have stepped : beamStep (computeFutureMinCost (done ++ operation :: rest))
      (computeLastUse (done ++ operation :: rest)) (done ++ operation :: rest) frontier operation =
        if (states.insertionSort fun first second =>
            first.lowerBound ≤ second.lowerBound).take frontier.width = [] then
          .error (.noFeasibleLayout operation.name)
        else .ok { frontier.addBuf operation.name with
          states := (states.insertionSort fun first second =>
            first.lowerBound ≤ second.lowerBound).take frontier.width } := by
    rw [beamStep, isStep]
    simp only
    rw [merged]
    rfl
  rw [stepped, kept]
  by_cases empty : (states.insertionSort fun first second =>
      first.lowerBound ≤ second.lowerBound) = []
  · rw [if_pos empty]
    refine .inr ⟨⟨_, rfl⟩, fun chosen valid => ?_⟩
    by_contra finite
    obtain ⟨state, isState, -⟩ := exact.complete chosen valid finite
    rw [← sorted.mem_iff, empty] at isState
    cases isState
  · rw [if_neg empty]
    refine .inl ⟨_, rfl, reached.width, ?_, empty, ?_, ?_⟩
    · rw [doneNames_append, ← reached.bufNames]
      rfl
    · intro state isState
      exact exact.sound state (sorted.mem_iff.mp isState)
    · intro chosen valid finite
      obtain ⟨state, isState, stands⟩ := exact.complete chosen valid finite
      exact ⟨state, sorted.mem_iff.mpr isState, stands⟩

end Step

/-! ## The whole search -/

section Search

variable {seeds : List (String × Layout)} {operations : List (LaidOperation Layout)}

theorem totalCost_eq_top {chosen : String → Option Layout}
    {done rest : List (LaidOperation Layout)} (infinite : totalCost chosen done = ⊤) :
    totalCost chosen (done ++ rest) = ⊤ := by
  rw [totalCost, List.map_append, List.sum_append]
  rw [totalCost] at infinite
  rw [infinite, WithTop.top_add]

theorem searchAfter_append (inputs : List (GraphInput Layout))
    (operations done rest : List (LaidOperation Layout)) :
    searchAfter inputs operations (done ++ rest) =
      searchAfter inputs operations done >>= fun frontier =>
        rest.foldlM (beamStep (computeFutureMinCost operations) (computeLastUse operations)
          operations) frontier := by
  simp only [searchAfter, List.foldlM_append, bind_assoc]

/-- The loop over the rest of the operations, one step after the other. -/
theorem foldlM_reached (listed : Listed seeds operations) {inputs : List (GraphInput Layout)}
    (untrimmed : ∀ done operation rest, operations = done ++ operation :: rest →
      ∀ frontier states, searchAfter inputs operations done = .ok frontier →
        mergedStates (computeFutureMinCost operations) (computeLastUse operations)
          (frontier.addBuf operation.name) done.length operation = .ok states →
        states.length ≤ beamWidth)
    {done rest : List (LaidOperation Layout)} (isSplit : operations = done ++ rest)
    {frontier : Frontier Layout} (searched : searchAfter inputs operations done = .ok frontier)
    (reached : Reached seeds done rest frontier) :
    (∃ final, searchAfter inputs operations operations = .ok final ∧
        Reached seeds operations [] final) ∨
      (∃ error, searchAfter inputs operations operations = .error error) ∧
        ∀ chosen, Valid seeds operations chosen → totalCost chosen operations = ⊤ := by
  induction rest generalizing done frontier with
  | nil =>
      rw [List.append_nil] at isSplit
      subst isSplit
      exact .inl ⟨frontier, searched, reached⟩
  | cons operation rest inductionHypothesis =>
      have stepped := @beamStep_reached Layout _ seeds done rest operation (isSplit ▸ listed)
        frontier reached (isSplit ▸ fun states => untrimmed done operation rest isSplit frontier
          states searched)
      have regroup : done ++ operation :: rest = done ++ [operation] ++ rest :=
        List.append_cons done operation rest
      have searchedNext : searchAfter inputs operations (done ++ [operation]) =
          beamStep (computeFutureMinCost operations) (computeLastUse operations) operations frontier
            operation := by
        rw [searchAfter_append, searched]
        simp only [List.foldlM_cons, List.foldlM_nil, bind_pure]
        rfl
      rw [← isSplit] at stepped
      rcases stepped with ⟨next, isNext, nextReached⟩ | ⟨⟨error, fails⟩, infinite⟩
      · exact inductionHypothesis (isSplit.trans regroup) (searchedNext.trans isNext) nextReached
      · refine .inr ⟨⟨error, ?_⟩, fun chosen valid => ?_⟩
        · have whole := searchAfter_append inputs operations (done ++ [operation]) rest
          rw [searchedNext, fails, ← regroup, ← isSplit] at whole
          exact whole
        · rw [isSplit, regroup] at valid ⊢
          apply totalCost_eq_top
          apply infinite
          exact ⟨valid.seeds, fun earlier inside =>
            valid.candidates earlier (List.mem_append_left _ inside)⟩

/-! ### Seeding -/

/-- The first layout of each input; `none` if one has no layout. -/
def firstLayouts (layouts : List (String × List Layout)) : Option (List (String × Layout)) :=
  layouts.mapM fun seed => seed.2.head?.map (seed.1, ·)

omit [DecidableEq Layout] in
theorem foldlM_seedInput (inputs : List (GraphInput Layout)) (width : ℕ) (bufNames : List String)
    (assignments : List Layout) (bound : Cost) :
    (∃ seeds final, firstLayouts (seedLayouts inputs) = some seeds ∧
      inputs.foldlM seedInput ⟨width, bufNames, [⟨assignments, 0, bound⟩]⟩ =
        .ok ⟨width, bufNames ++ seeds.map Prod.fst,
          [⟨assignments ++ seeds.map Prod.snd, 0, final⟩]⟩) ∨
      firstLayouts (seedLayouts inputs) = none ∧
        inputs.foldlM seedInput ⟨width, bufNames, [⟨assignments, 0, bound⟩]⟩ =
          .error .stopIteration := by
  induction inputs generalizing bufNames assignments bound with
  | nil => exact .inl ⟨[], bound, rfl, by simp [pure, Except.pure]⟩
  | cons input inputs inductionHypothesis =>
      obtain ⟨name, isInputBuffer, layouts⟩ := input
      rw [List.foldlM_cons]
      rcases isInputBuffer with _ | _
      · exact inductionHypothesis bufNames assignments bound
      · rcases layouts with _ | _ | ⟨stl, more⟩
        · exact inductionHypothesis bufNames assignments bound
        · exact .inr ⟨rfl, rfl⟩
        · have split : firstLayouts (seedLayouts (⟨name, true, some (stl :: more)⟩ :: inputs)) =
              (firstLayouts (seedLayouts inputs)).map ((name, stl) :: ·) := by
            have grown : seedLayouts (⟨name, true, some (stl :: more)⟩ :: inputs) =
                (name, stl :: more) :: seedLayouts inputs := rfl
            rw [grown, firstLayouts, List.mapM_cons, ← firstLayouts]
            cases firstLayouts (seedLayouts inputs) with
            | none => rfl
            | some seeds => rfl
          rcases inductionHypothesis (bufNames ++ [name]) (assignments ++ [stl]) 0 with
            ⟨seeds, final, isFirst, seeded⟩ | ⟨isNone, fails⟩
          · refine .inl ⟨(name, stl) :: seeds, final, ?_, ?_⟩
            · rw [split, isFirst]
              rfl
            · rw [List.append_assoc, List.append_assoc] at seeded
              exact seeded
          · refine .inr ⟨?_, fails⟩
            rw [split, isNone]
            rfl

omit [DecidableEq Layout] in
theorem map_fst_firstLayouts {layouts : List (String × List Layout)}
    {seeds : List (String × Layout)} (isFirst : firstLayouts layouts = some seeds) :
    seeds.map Prod.fst = layouts.map Prod.fst := by
  have related := forall₂_of_mapM_some isFirst
  clear isFirst
  induction related with
  | nil => rfl
  | @cons seed first layouts seeds here related inductionHypothesis =>
      obtain ⟨stl, -, rfl⟩ := Option.map_eq_some_iff.mp here
      exact congrArg (seed.1 :: ·) inductionHypothesis

omit [DecidableEq Layout] in
/-- A choice gives every input its first layout just if it agrees with the seeds. -/
theorem seeds_iff {layouts : List (String × List Layout)} {seeds : List (String × Layout)}
    (isFirst : firstLayouts layouts = some seeds) (chosen : String → Option Layout) :
    (∀ seed ∈ seeds, chosen seed.1 = some seed.2) ↔
      ∀ seed ∈ layouts, ∃ stl, seed.2.head? = some stl ∧ chosen seed.1 = some stl := by
  have related := forall₂_of_mapM_some isFirst
  clear isFirst
  induction related with
  | nil => simp
  | @cons seed first layouts seeds here related inductionHypothesis =>
      obtain ⟨stl, isHead, rfl⟩ := Option.map_eq_some_iff.mp here
      rw [List.forall_mem_cons, List.forall_mem_cons]
      refine and_congr ?_ inductionHypothesis
      simp [isHead]

omit [DecidableEq Layout] in
theorem exists_of_firstLayouts_none {layouts : List (String × List Layout)}
    (isNone : firstLayouts layouts = none) : ∃ seed ∈ layouts, seed.2.head? = none := by
  induction layouts with
  | nil => cases isNone
  | cons seed layouts inductionHypothesis =>
      cases isHead : seed.2.head? with
      | none => exact ⟨seed, List.mem_cons_self, isHead⟩
      | some stl =>
          rw [firstLayouts, List.mapM_cons, isHead, ← firstLayouts] at isNone
          cases isRest : firstLayouts layouts with
          | none =>
              obtain ⟨other, inside, empty⟩ := inductionHypothesis isRest
              exact ⟨other, List.mem_cons_of_mem _ inside, empty⟩
          | some seeds =>
              rw [isRest] at isNone
              cases isNone

omit [DecidableEq Layout] in
theorem assigned_seeds {seeds : List (String × Layout)} (distinct : (seeds.map Prod.fst).Nodup)
    {seed : String × Layout} (inside : seed ∈ seeds) :
    assigned (seeds.map Prod.fst) (seeds.map Prod.snd) seed.1 = some seed.2 := by
  have joined : (seeds.map Prod.fst).zip (seeds.map Prod.snd) = seeds := by
    have unzipped := List.zip_unzip seeds
    rwa [List.unzip_eq_map] at unzipped
  rw [assigned, joined]
  exact lookup_of_mem distinct inside

omit [DecidableEq Layout] in
theorem seedFrontier_eq (future : String → Layout → Cost) (inputs : List (GraphInput Layout)) :
    (∃ seeds bound, firstLayouts (seedLayouts inputs) = some seeds ∧
      seedFrontier future inputs =
        .ok ⟨beamWidth, seeds.map Prod.fst, [⟨seeds.map Prod.snd, 0, bound⟩]⟩) ∨
      firstLayouts (seedLayouts inputs) = none ∧
        seedFrontier future inputs = .error .stopIteration := by
  rcases foldlM_seedInput inputs beamWidth [] [] 0 with
    ⟨seeds, final, isFirst, seeded⟩ | ⟨isNone, fails⟩
  · refine .inl ⟨seeds, 0 + totalInputFuture future ⟨beamWidth, seeds.map Prod.fst,
      [⟨seeds.map Prod.snd, 0, final⟩]⟩, isFirst, ?_⟩
    rw [seedFrontier, seeded]
    rfl
  · refine .inr ⟨isNone, ?_⟩
    rw [seedFrontier, fails]
    rfl

/-- Before the first operation there is one state, the seeds. -/
theorem reached_seeds {seeds : List (String × Layout)} (distinct : (seeds.map Prod.fst).Nodup)
    (operations : List (LaidOperation Layout)) (bound : Cost) :
    Reached seeds [] operations ⟨beamWidth, seeds.map Prod.fst, [⟨seeds.map Prod.snd, 0, bound⟩]⟩ := by
  have names : doneNames seeds [] = seeds.map Prod.fst := List.append_nil _
  refine ⟨rfl, names.symm, List.cons_ne_nil _ _, ?_, ?_⟩
  · intro state isState
    obtain rfl := List.mem_singleton.mp isState
    constructor
    · rw [names, List.length_map, List.length_map]
    · rw [names]
      exact ⟨fun seed inside => assigned_seeds distinct inside, fun _ inside => by cases inside⟩
    · rfl
    · exact WithTop.zero_ne_top
  · intro chosen valid _
    refine ⟨_, List.mem_singleton_self _, le_rfl, ?_⟩
    intro operation _ name _ known
    rw [names] at known ⊢
    obtain ⟨seed, inside, rfl⟩ := List.mem_map.mp known
    rw [assigned_seeds distinct inside, valid.seeds seed inside]

end Search

/-! ## The pass -/

section Pass

variable {graph : Graph Layout}

omit [DecidableEq Layout] in
theorem laidOperations_perm :
    (laidOperations (reorderAnyInNodes graph.operations)).Perm (laidOperations graph.operations) :=
  List.Perm.filterMap _ reorderAnyInNodes_perm

omit [DecidableEq Layout] in
theorem map_name_laidOperations (operations : List (Operation Layout)) :
    ((laidOperations operations).map LaidOperation.name).Sublist (operations.map Operation.name) := by
  induction operations with
  | nil => exact List.Sublist.slnil
  | cons operation operations inductionHypothesis =>
      cases operation with
      | plain name => exact inductionHypothesis.cons name
      | laid laid => exact inductionHypothesis.cons_cons laid.name

omit [DecidableEq Layout] in
/-- The operations the search goes through are a topological list. -/
theorem listed_reorderAnyInNodes (dag : Dag graph) {seeds : List (String × Layout)}
    (isFirst : firstLayouts (seedLayouts graph.graphInputs) = some seeds) :
    Listed seeds (laidOperations (reorderAnyInNodes graph.operations)) := by
  have sameNames := map_fst_firstLayouts isFirst
  constructor
  · rw [doneNames, sameNames]
    have perm : ((seedLayouts graph.graphInputs).map Prod.fst ++
        (reorderAnyInNodes graph.operations).map Operation.name).Perm
          ((seedLayouts graph.graphInputs).map Prod.fst ++ graph.operations.map Operation.name) :=
      (reorderAnyInNodes_perm.map _).append_left _
    exact (perm.nodup_iff.mpr dag.distinct).sublist
      ((map_name_laidOperations _).append_left _)
  · intro done operation rest isSplit name reads
    obtain ⟨before, after, isReordered, rfl, isAfter⟩ := List.filterMap_eq_append_iff.mp isSplit
    obtain ⟨skipped, laid, more, rfl, noneLaid, isLaid, -⟩ := List.filterMap_eq_cons_iff.mp isAfter
    cases laid with
    | plain name => cases isLaid
    | laid laid =>
        cases isLaid
        have ordered := ordered_reorderAnyInNodes dag.ordered (before ++ skipped) (.laid operation)
          more (by rw [isReordered, List.append_assoc]) name reads
        have sameBefore : laidOperations (before ++ skipped) = laidOperations before := by
          rw [laidOperations, List.filterMap_append, List.filterMap_eq_nil_iff.mpr noneLaid,
            List.append_nil]
          rfl
        rw [sameBefore] at ordered
        rw [doneNames, sameNames, List.mem_append]
        apply ordered.imp_right
        rintro ⟨producer, isProducer, rfl⟩
        exact List.mem_map_of_mem isProducer

omit [DecidableEq Layout] in
theorem valid_iff {seeds : List (String × Layout)}
    (isFirst : firstLayouts (seedLayouts graph.graphInputs) = some seeds)
    (chosen : String → Option Layout) :
    Valid seeds (laidOperations (reorderAnyInNodes graph.operations)) chosen ↔
      Assignment graph chosen := by
  constructor
  · rintro ⟨seeded, candidates⟩
    exact ⟨(seeds_iff isFirst chosen).mp seeded, fun operation inside =>
      candidates operation (laidOperations_perm.mem_iff.mpr inside)⟩
  · rintro ⟨inputs, operations⟩
    exact ⟨(seeds_iff isFirst chosen).mpr inputs, fun operation inside =>
      operations operation (laidOperations_perm.mem_iff.mp inside)⟩

/-- The search commits a best assignment, or raises and there is none. -/
theorem beamGlobalMinCost_cases (dag : Dag graph) (untrimmed : Untrimmed graph) :
    (∃ committed, beamGlobalMinCost graph = .ok committed ∧
      Assignment graph (committed.lookup ·) ∧
      totalCost (committed.lookup ·) (laidOperations graph.operations) ≠ ⊤ ∧
      ∀ chosen, Assignment graph chosen →
        totalCost (committed.lookup ·) (laidOperations graph.operations) ≤
          totalCost chosen (laidOperations graph.operations)) ∨
      (∃ error, beamGlobalMinCost graph = .error error) ∧
        ∀ chosen, Assignment graph chosen →
          totalCost chosen (laidOperations graph.operations) = ⊤ := by
  rcases seedFrontier_eq (computeFutureMinCost
      (laidOperations (reorderAnyInNodes graph.operations))) graph.graphInputs with
    ⟨seeds, bound, isFirst, seeded⟩ | ⟨isNone, fails⟩
  · have listed := listed_reorderAnyInNodes dag isFirst
    have distinct : (seeds.map Prod.fst).Nodup := (List.nodup_append.mp listed.distinct).1
    have sameTotal := @totalCost_perm Layout _ _ _ (@laidOperations_perm Layout graph)
    have searched : searchAfter graph.graphInputs
        (laidOperations (reorderAnyInNodes graph.operations)) [] =
          .ok ⟨beamWidth, seeds.map Prod.fst, [⟨seeds.map Prod.snd, 0, bound⟩]⟩ := by
      rw [searchAfter, seeded]
      rfl
    rcases foldlM_reached listed untrimmed rfl searched (reached_seeds distinct _ bound) with
      ⟨final, isFinal, reached⟩ | ⟨⟨error, isError⟩, infinite⟩
    · left
      cases isBest : final.best with
      | none => exact absurd (List.argmin_eq_none.mp isBest) reached.nonempty
      | some best =>
          have isState : best ∈ final.states := List.argmin_mem isBest
          have sound := reached.exact.sound best isState
          have committedCost : totalCost (assigned final.bufNames best.assignments)
              (laidOperations graph.operations) = best.cost := by
            rw [← sameTotal, reached.bufNames, sound.cost]
          refine ⟨final.bufNames.zip best.assignments, ?_, ?_, ?_, ?_⟩
          · rw [beamGlobalMinCost, isFinal]
            simp [bind, Except.bind, pure, Except.pure, isBest]
          · have valid := (valid_iff isFirst _).mp sound.valid
            rw [← reached.bufNames] at valid
            exact valid
          · exact committedCost ▸ sound.finite
          · intro chosen isAssignment
            by_cases infinite : totalCost chosen (laidOperations graph.operations) = ⊤
            · rw [infinite]
              exact le_top
            · have valid := (valid_iff isFirst chosen).mpr isAssignment
              rw [← sameTotal] at infinite
              obtain ⟨state, isOther, stands⟩ := reached.exact.complete chosen valid infinite
              calc totalCost (assigned final.bufNames best.assignments)
                    (laidOperations graph.operations)
                  = best.cost := committedCost
                _ ≤ state.cost := List.le_of_mem_argmin isOther isBest
                _ ≤ totalCost chosen (laidOperations (reorderAnyInNodes graph.operations)) :=
                    stands.cost
                _ = totalCost chosen (laidOperations graph.operations) := sameTotal chosen
    · refine .inr ⟨⟨error, ?_⟩, fun chosen isAssignment => ?_⟩
      · rw [beamGlobalMinCost, isError]
        rfl
      · rw [← sameTotal]
        exact infinite chosen ((valid_iff isFirst chosen).mpr isAssignment)
  · refine .inr ⟨⟨.stopIteration, ?_⟩, fun chosen isAssignment => ?_⟩
    · rw [beamGlobalMinCost, searchAfter, fails]
      rfl
    · obtain ⟨seed, inside, empty⟩ := exists_of_firstLayouts_none isNone
      obtain ⟨stl, isHead, -⟩ := isAssignment.inputs seed inside
      rw [empty] at isHead
      cases isHead

omit [DecidableEq Layout] in
/-- A reader comes after the operation it reads, also in the new order. -/
theorem producer_before (dag : Dag graph) {before after : List (Operation Layout)}
    {consumer producer : Operation Layout}
    (isSplit : reorderAnyInNodes graph.operations = before ++ consumer :: after)
    (inside : producer ∈ graph.operations) (reads : producer.name ∈ consumer.deps) :
    producer ∈ before := by
  obtain ⟨-, operationNames, apart⟩ := List.nodup_append.mp dag.distinct
  rcases ordered_reorderAnyInNodes dag.ordered before consumer after isSplit _ reads with
    isInput | ⟨laid, isLaid, sameName⟩
  · exact absurd rfl (apart _ isInput _ (List.mem_map_of_mem inside))
  · obtain ⟨other, isBefore, laidOther⟩ := List.mem_filterMap.mp isLaid
    have isOther : other ∈ graph.operations := by
      rw [← reorderAnyInNodes_perm.mem_iff, isSplit]
      exact List.mem_append_left _ isBefore
    have named : other.name = producer.name := by
      rw [← sameName]
      cases other with
      | plain name => cases laidOther
      | laid operation =>
          cases laidOther
          rfl
    rwa [← List.inj_on_of_nodup_map operationNames isOther inside named]

end Pass

/-- Restickifying costs five bytes. -/
def stickEdge (dep : String) (inLayouts : List Bool) : EdgeCostMap Bool :=
  ⟨dep, inLayouts, fun inStl target => if inStl = target then 0 else ((5 : ℕ) : WithTop ℕ)⟩

/-- An any-input node, an operation without layouts, and a reader of the first. -/
def lateConsumer : Graph Bool where
  graphInputs := [⟨"arg0", true, some [false]⟩]
  operations :=
    [.laid ⟨"buf0", [true, false], .anyInNode⟩, .plain "buf1",
     .laid ⟨"buf2", [true, false],
      .allSameNode [stickEdge "arg0" [false], stickEdge "buf0" [true, false]] []⟩]

theorem lateConsumer_dag : Dag lateConsumer where
  distinct := by decide
  ordered := by
    intro before operation after isSplit name reads
    rcases before with _ | ⟨first, _ | ⟨second, _ | ⟨third, before⟩⟩⟩
    · cases isSplit
      cases reads
    · cases isSplit
      cases reads
    · cases isSplit
      obtain rfl | rfl : name = "arg0" ∨ name = "buf0" := by
        simpa [Operation.deps, Operation.laid?, RestickNodeCost.deps, RestickNodeCost.edgeCosts,
          stickEdge] using reads
      · exact .inl (by decide)
      · exact .inr ⟨_, List.mem_singleton_self _, rfl⟩
    · simp [lateConsumer] at isSplit

theorem lateConsumer_untrimmed : Untrimmed lateConsumer := by
  intro done operation rest isSplit frontier states searched merged
  rcases done with _ | ⟨first, _ | ⟨second, done⟩⟩
  · cases isSplit
    cases searched
    cases merged
    decide
  · cases isSplit
    cases searched
    cases merged
    decide
  · have counted := congrArg List.length isSplit
    have two : (laidOperations (reorderAnyInNodes lateConsumer.operations)).length = 2 := rfl
    simp only [two, List.length_append, List.length_cons] at counted
    omega

end TorchSpyre.Restickify
