import TorchSpyre.CoarseTiling.Runs

/-!
# The groups the apply forms

`derive_tiling_groups` streams over the operations with the producers of the current
stretch.  Its state after an operation is the state of the pass over the positions, so its
groups are the tiled runs.
-/

namespace TorchSpyre.CoarseTiling

variable {Index : Type}

/-! ## The stream -/

abbrev Group (Index : Type) := List (Operation Index) × List ℕ

/-- The variables of the loop over the operations. -/
structure Grouping (Index : Type) where
  groups : List (Group Index)
  currentOps : List (Operation Index)
  currentNest : List ℕ
  stretch : List (String × Operation Index)

section Stream

variable (tileMisread : TileMisread Index) (choices : String → Option TileSpec)

def specOf (operation : Operation Index) : TileSpec :=
  (choices operation.operationName).getD .untiled

def stretchMisread (operation : Operation Index) (spec : TileSpec)
    (stretch : List (String × Operation Index)) : Option String :=
  operation.reads.findSome? fun read =>
    match stretch.lookup read.name with
    | none => none
    | some producer => tileMisread producer (specOf choices producer) operation spec read

/-- One turn of the loop; an operation absent from the choices has the empty nest. -/
def groupStep (state : Grouping Index) (operation : Operation Index) : Grouping Index :=
  let spec := specOf choices operation
  let nest := spec.levelCounts
  if nest ≠ [] ∧ nest = state.currentNest then
    let stretch := (operation.name, operation) :: state.stretch
    match stretchMisread tileMisread choices operation spec state.stretch with
    | none =>
        { state with currentOps := state.currentOps ++ [operation], stretch := stretch }
    | some _ =>
        { state with
          groups := state.groups ++ [(state.currentOps, state.currentNest)]
          currentOps := [operation]
          stretch := stretch }
  else
    { groups :=
        if state.currentOps ≠ [] then state.groups ++ [(state.currentOps, state.currentNest)]
        else state.groups
      currentOps := if nest ≠ [] then [operation] else []
      currentNest := nest
      stretch := if nest ≠ [] then [(operation.name, operation)] else [] }

/-- The groups once the last one is closed. -/
def flush (state : Grouping Index) : List (Group Index) :=
  if state.currentOps ≠ [] then state.groups ++ [(state.currentOps, state.currentNest)]
  else state.groups

def deriveTilingGroups (operations : List (Operation Index)) : List (Group Index) :=
  flush (operations.foldl (groupStep tileMisread choices) ⟨[], [], [], []⟩)

end Stream

/-! ## Operations of a run -/

/-- The operations from one position to another, both included. -/
def slice (operations : List (Operation Index)) (low high : ℕ) : List (Operation Index) :=
  (operations.take (high + 1)).drop low

theorem slice_succ {operations : List (Operation Index)} {low last : ℕ} {operation : Operation Index}
    (here : operations[last + 1]? = some operation) (below : low ≤ last + 1) :
    slice operations low (last + 1) = slice operations low last ++ [operation] := by
  have inside : last + 1 < operations.length := (List.getElem?_eq_some_iff.mp here).1
  rw [slice, List.take_add_one, here, List.drop_append_of_le_length (by simp; omega)]
  rfl

theorem slice_single {operations : List (Operation Index)} {position : ℕ}
    {operation : Operation Index} (here : operations[position]? = some operation) :
    slice operations position position = [operation] := by
  have inside : position < operations.length := (List.getElem?_eq_some_iff.mp here).1
  rw [slice, List.take_add_one, here, List.drop_append_of_le_length (by simp; omega)]
  simp

theorem slice_ne_nil {operations : List (Operation Index)} {low last : ℕ} (nonempty : low ≤ last)
    (inside : last < operations.length) : slice operations low last ≠ [] := by
  rw [slice, ne_eq, List.drop_eq_nil_iff, List.length_take]
  omega

theorem drop_take_cons {operations : List (Operation Index)} {position count : ℕ}
    {operation : Operation Index} (here : operations[position]? = some operation)
    (inside : position < count) :
    (operations.take count).drop position =
      operation :: (operations.take count).drop (position + 1) := by
  obtain ⟨bound, same⟩ := List.getElem?_eq_some_iff.mp here
  rw [List.drop_eq_getElem_cons (by simp; omega), List.getElem_take, same]

/-! ## Simulation -/

section Simulation

variable (tileMisread : TileMisread Index) (choices : String → Option TileSpec)
  (operations : List (Operation Index)) (count : ℕ) (nest : ℕ → List ℕ) (breaks : ℕ → ℕ → Bool)

/-- The reader misreads an operation of the stretch. -/
def Misreads (stretch position : ℕ) : Prop :=
  ∃ reader, operations[position]? = some reader ∧
    ∃ producerAt producer, stretch ≤ producerAt ∧ producerAt < position ∧
      operations[producerAt]? = some producer ∧
      ∃ read ∈ reader.reads, read.name = producer.name ∧
        (tileMisread producer (specOf choices producer) reader (specOf choices reader) read).isSome

/-- Positions and stream are about the same tilings and the same reads. -/
structure Agrees : Prop where
  inside : count ≤ operations.length
  distinct : (operations.map Operation.name).Nodup
  nests : ∀ position < count, ∀ operation, operations[position]? = some operation →
    (specOf choices operation).levelCounts = nest position
  untiled : ∀ position stretch, nest position = [] → breaks position stretch = false
  misreads : ∀ position stretch, position < count → stretch ≤ position →
    (∀ other, stretch ≤ other → other ≤ position → nest other = nest position) →
    nest position ≠ [] →
    (breaks position stretch = true ↔ Misreads tileMisread choices operations stretch position)

/-- The stream's state after the operation at `last`. -/
structure Related (stretch low last : ℕ) (state : Grouping Index) : Prop where
  stretch_le : stretch ≤ low
  low_le : low ≤ last
  uniform : ∀ position, stretch ≤ position → position ≤ last → nest position = nest stretch
  currentNest : state.currentNest = nest last
  currentOps : state.currentOps = if nest last = [] then [] else slice operations low last
  producers : nest last ≠ [] → ∀ name producer, state.stretch.lookup name = some producer ↔
    ∃ position, stretch ≤ position ∧ position ≤ last ∧ operations[position]? = some producer ∧
      producer.name = name

/-- The group of a run, if the run is tiled. -/
def groupOf (run : ℕ × ℕ) : List (Group Index) :=
  if nest run.1 = [] then [] else [(slice operations run.1 run.2, nest run.1)]

variable {tileMisread choices operations count nest breaks}

section Step

variable (agrees : Agrees tileMisread choices operations count nest breaks)
  {stretch low last : ℕ} {state : Grouping Index} {operation : Operation Index}

include agrees in
/-- The stream's test is the pass's test. -/
theorem stretchMisread_isSome (related : Related operations nest stretch low last state)
    (inside : last + 1 < count) (here : operations[last + 1]? = some operation)
    (same : nest (last + 1) = nest stretch) (tiled : nest (last + 1) ≠ []) :
    (stretchMisread tileMisread choices operation (specOf choices operation) state.stretch).isSome =
      breaks (last + 1) stretch := by
  have lastTiled : nest last ≠ [] := by
    rw [related.uniform last (le_trans related.stretch_le related.low_le) le_rfl, ← same]
    exact tiled
  have uniform : ∀ other, stretch ≤ other → other ≤ last + 1 → nest other = nest (last + 1) := by
    intro other above below
    rcases Nat.lt_or_ge last other with new | old
    · rw [le_antisymm below new]
    · rw [related.uniform other above old, same]
  have stretchLe : stretch ≤ last + 1 :=
    le_trans (le_trans related.stretch_le related.low_le) (Nat.le_succ last)
  rw [Bool.eq_iff_iff, agrees.misreads (last + 1) stretch inside stretchLe uniform tiled,
    stretchMisread, List.findSome?_isSome_iff]
  constructor
  · rintro ⟨read, isRead, misread⟩
    split at misread
    next => cases misread
    next producer found =>
      obtain ⟨position, above, below, isProducer, named⟩ :=
        (related.producers lastTiled read.name producer).mp found
      exact ⟨operation, here, position, producer, above, by omega, isProducer, read, isRead,
        named.symm, misread⟩
  · rintro ⟨reader, isReader, position, producer, above, below, isProducer, read, isRead, named,
      misread⟩
    obtain rfl : operation = reader := Option.some.inj (here.symm.trans isReader)
    have found := (related.producers lastTiled read.name producer).mpr
      ⟨position, above, by omega, isProducer, named.symm⟩
    refine ⟨read, isRead, ?_⟩
    rw [found]
    exact misread

include agrees in
/-- Entering an operation in the stretch. -/
theorem producers_cons (related : Related operations nest stretch low last state)
    (lastTiled : nest last ≠ []) (here : operations[last + 1]? = some operation) (name : String)
    (producer : Operation Index) :
    ((operation.name, operation) :: state.stretch).lookup name = some producer ↔
      ∃ position, stretch ≤ position ∧ position ≤ last + 1 ∧
        operations[position]? = some producer ∧ producer.name = name := by
  have stretchLe : stretch ≤ last + 1 :=
    le_trans (le_trans related.stretch_le related.low_le) (Nat.le_succ last)
  by_cases isHere : name = operation.name
  · subst isHere
    rw [List.lookup_cons_self]
    constructor
    · rintro ⟨rfl⟩
      exact ⟨last + 1, stretchLe, le_rfl, here, rfl⟩
    · rintro ⟨position, -, -, isProducer, named⟩
      have same : producer = operation := List.inj_on_of_nodup_map agrees.distinct
        (List.mem_of_getElem? isProducer) (List.mem_of_getElem? here) named
      rw [same]
  · have elsewhere : (name == operation.name) = false := by simpa using isHere
    rw [List.lookup_cons, elsewhere]
    refine (related.producers lastTiled name producer).trans ?_
    constructor
    · rintro ⟨position, above, below, isProducer, named⟩
      exact ⟨position, above, by omega, isProducer, named⟩
    · rintro ⟨position, above, below, isProducer, named⟩
      refine ⟨position, above, ?_, isProducer, named⟩
      by_contra beyond
      obtain rfl : position = last + 1 := by omega
      rw [here] at isProducer
      cases isProducer
      exact isHere named.symm

/-- A stretch that starts at the operation. -/
theorem related_start {next : Grouping Index} {position : ℕ}
    (here : operations[position]? = some operation) (currentNest : next.currentNest = nest position)
    (currentOps : next.currentOps = if nest position ≠ [] then [operation] else [])
    (stretch : next.stretch = if nest position ≠ [] then [(operation.name, operation)] else []) :
    Related operations nest position position position next := by
  refine ⟨le_rfl, le_rfl, fun other above below => by rw [le_antisymm below above], currentNest,
    ?_, ?_⟩
  · rw [currentOps, slice_single here]
    split <;> simp_all
  · intro tiled name producer
    rw [stretch, if_pos tiled]
    by_cases isHere : name = operation.name
    · subst isHere
      rw [List.lookup_cons_self]
      constructor
      · rintro ⟨rfl⟩
        exact ⟨position, le_rfl, le_rfl, here, rfl⟩
      · rintro ⟨other, above, below, isProducer, -⟩
        rwa [le_antisymm below above, here] at isProducer
    · have elsewhere : (name == operation.name) = false := by simpa using isHere
      rw [List.lookup_cons, elsewhere]
      constructor
      · intro found
        cases found
      · rintro ⟨other, above, below, isProducer, named⟩
        rw [le_antisymm below above, here] at isProducer
        cases isProducer
        exact absurd named.symm isHere

include agrees in
/-- The nest changes, or stays empty: what is open is closed. -/
theorem groupStep_other (inside : last + 1 < count) (related : Related operations nest stretch low last state)
    (here : operations[last + 1]? = some operation)
    (other : ¬ (nest (last + 1) ≠ [] ∧ nest (last + 1) = nest last)) :
    groupStep tileMisread choices state operation =
      { groups := state.groups ++ groupOf operations nest (low, last)
        currentOps := if nest (last + 1) ≠ [] then [operation] else []
        currentNest := nest (last + 1)
        stretch := if nest (last + 1) ≠ [] then [(operation.name, operation)] else [] } := by
  have lastInside : last < operations.length := by
    have bound := agrees.inside
    omega
  have lowNest : nest low = nest last := by
    rw [related.uniform low related.stretch_le related.low_le,
      related.uniform last (le_trans related.stretch_le related.low_le) le_rfl]
  have closed : (if state.currentOps ≠ [] then
      state.groups ++ [(state.currentOps, state.currentNest)] else state.groups) =
        state.groups ++ groupOf operations nest (low, last) := by
    rw [groupOf, related.currentOps, related.currentNest, lowNest]
    by_cases untiled : nest last = []
    · simp [untiled]
    · rw [if_neg untiled, if_neg untiled, if_pos (slice_ne_nil related.low_le lastInside)]
  simp only [groupStep, agrees.nests (last + 1) inside operation here, related.currentNest,
    if_neg other]
  rw [← closed, related.currentNest]

include agrees in
/-- The nest goes on: the operation joins the open group, or opens the next one. -/
theorem groupStep_same (inside : last + 1 < count) (related : Related operations nest stretch low last state)
    (here : operations[last + 1]? = some operation) (tiled : nest (last + 1) ≠ [])
    (same : nest (last + 1) = nest last) :
    groupStep tileMisread choices state operation =
      if breaks (last + 1) stretch then
        { state with
          groups := state.groups ++ groupOf operations nest (low, last)
          currentOps := [operation]
          stretch := (operation.name, operation) :: state.stretch }
      else
        { state with
          currentOps := state.currentOps ++ [operation]
          stretch := (operation.name, operation) :: state.stretch } := by
  have lastNest := related.uniform last (le_trans related.stretch_le related.low_le) le_rfl
  have lowNest := related.uniform low related.stretch_le related.low_le
  have sameTest := stretchMisread_isSome agrees related inside here (same.trans lastNest) tiled
  have lastTiled : nest last ≠ [] := same ▸ tiled
  simp only [groupStep, agrees.nests (last + 1) inside operation here, related.currentNest,
    if_pos (And.intro tiled same)]
  cases misread : stretchMisread tileMisread choices operation (specOf choices operation)
      state.stretch with
  | none =>
      rw [misread] at sameTest
      rw [if_neg (by simp [← sameTest])]
  | some reason =>
      rw [misread] at sameTest
      rw [if_pos (by simp [← sameTest]), groupOf, lowNest, ← lastNest, if_neg lastTiled,
        related.currentOps, if_neg lastTiled]

end Step

/-- The stream over the operations that are left gives the groups of the runs that are left. -/
theorem foldl_groupStep (agrees : Agrees tileMisread choices operations count nest breaks)
    {stretch low last : ℕ} {state : Grouping Index}
    (related : Related operations nest stretch low last state) {left : ℕ}
    (bound : last + 1 + left = count) :
    flush (((operations.take count).drop (last + 1)).foldl (groupStep tileMisread choices) state) =
      state.groups ++
        (scan nest breaks left stretch low last).flatMap (groupOf operations nest) := by
  have bounded := agrees.inside
  induction left generalizing stretch low last state with
  | zero =>
      have lowNest : nest low = nest last := by
        rw [related.uniform low related.stretch_le related.low_le,
          related.uniform last (le_trans related.stretch_le related.low_le) le_rfl]
      have noneLeft : (operations.take count).drop (last + 1) = [] :=
        List.drop_eq_nil_iff.mpr (by simp; omega)
      rw [noneLeft, scan, List.flatMap_singleton, List.foldl_nil, flush, groupOf,
        related.currentOps, related.currentNest, lowNest]
      by_cases untiled : nest last = []
      · simp [untiled]
      · rw [if_neg untiled, if_neg untiled, if_pos (slice_ne_nil related.low_le (by omega))]
  | succ left inductionHypothesis =>
      have inside : last + 1 < count := by omega
      obtain ⟨operation, here⟩ : ∃ operation, operations[last + 1]? = some operation :=
        ⟨_, List.getElem?_eq_getElem (by omega)⟩
      have next := drop_take_cons here inside
      have lastNest := related.uniform last (le_trans related.stretch_le related.low_le) le_rfl
      have stretchLe : stretch ≤ last + 1 :=
        le_trans (le_trans related.stretch_le related.low_le) (Nat.le_succ last)
      rw [next, List.foldl_cons, scan]
      by_cases same : nest (last + 1) = nest stretch
      · have uniform : ∀ position, stretch ≤ position → position ≤ last + 1 →
            nest position = nest stretch := by
          intro position above below
          rcases Nat.lt_or_ge last position with new | old
          · rw [le_antisymm below new, same]
          · exact related.uniform position above old
        rw [if_pos same]
        by_cases untiled : nest (last + 1) = []
        · -- Both sides pass over an untiled operation: nothing is open and no run is cut.
          rw [groupStep_other agrees inside related here (fun both => both.1 untiled),
            agrees.untiled (last + 1) stretch untiled]
          have lowUntiled : nest low = [] := by
            rw [related.uniform low related.stretch_le related.low_le, ← same, untiled]
          have nothing : groupOf operations nest (low, last) = [] := if_pos lowUntiled
          simp only [nothing, List.append_nil, Bool.false_eq_true, if_false]
          refine inductionHypothesis ⟨related.stretch_le,
            le_trans related.low_le (Nat.le_succ last), uniform, rfl, ?_, ?_⟩ (by omega)
          · simp [untiled]
          · exact fun tiled => absurd untiled tiled
        · have lastTiled : nest last ≠ [] := by
            rw [lastNest, ← same]
            exact untiled
          rw [groupStep_same agrees inside related here untiled (same.trans lastNest.symm)]
          have producers := producers_cons agrees related lastTiled here
          cases cut : breaks (last + 1) stretch with
          | true =>
              simp only [if_true, List.flatMap_cons, ← List.append_assoc]
              refine inductionHypothesis ⟨stretchLe, le_rfl, uniform, ?_, ?_, fun _ => producers⟩
                (by omega)
              · exact related.currentNest.trans (lastNest.trans same.symm)
              · rw [if_neg untiled, slice_single here]
          | false =>
              simp only [Bool.false_eq_true, if_false]
              refine inductionHypothesis ⟨related.stretch_le,
                le_trans related.low_le (Nat.le_succ last), uniform, ?_, ?_, fun _ => producers⟩
                (by omega)
              · exact related.currentNest.trans (lastNest.trans same.symm)
              · rw [if_neg untiled, slice_succ here (le_trans related.low_le (Nat.le_succ last)),
                  related.currentOps, if_neg lastTiled]
      · rw [if_neg same, List.flatMap_cons, ← List.append_assoc,
          groupStep_other agrees inside related here (fun both => same (both.2.trans lastNest))]
        exact inductionHypothesis (related_start here rfl rfl rfl) (by omega)

/-- Operations behind the last position are untiled and only close what is open. -/
theorem flush_foldl_untiled {rest : List (Operation Index)}
    (untiled : ∀ operation ∈ rest, (specOf choices operation).levelCounts = [])
    (state : Grouping Index) :
    flush (rest.foldl (groupStep tileMisread choices) state) = flush state := by
  induction rest generalizing state with
  | nil => rfl
  | cons operation rest inductionHypothesis =>
      rw [List.foldl_cons, inductionHypothesis fun other later =>
        untiled other (List.mem_cons_of_mem _ later)]
      simp [groupStep, untiled operation List.mem_cons_self, flush]

theorem deriveTilingGroups_eq (agrees : Agrees tileMisread choices operations count nest breaks)
    (behind : ∀ operation ∈ operations.drop count, (specOf choices operation).levelCounts = []) :
    deriveTilingGroups tileMisread choices operations =
      (runsFrom count nest breaks count 0).flatMap (groupOf operations nest) := by
  have bounded := agrees.inside
  rw [deriveTilingGroups]
  conv_lhs => rw [← List.take_append_drop count operations]
  rw [List.foldl_append, flush_foldl_untiled behind]
  rcases Nat.eq_zero_or_pos count with isEmpty | isPositive
  · subst isEmpty
    rfl
  · obtain ⟨operation, here⟩ : ∃ operation, operations[0]? = some operation :=
      ⟨_, List.getElem?_eq_getElem (by omega)⟩
    have next : operations.take count = operation :: (operations.take count).drop 1 :=
      drop_take_cons here isPositive
    have started : groupStep tileMisread choices ⟨[], [], [], []⟩ operation =
        { groups := []
          currentOps := if nest 0 ≠ [] then [operation] else []
          currentNest := nest 0
          stretch := if nest 0 ≠ [] then [(operation.name, operation)] else [] } := by
      simp only [groupStep, agrees.nests 0 isPositive operation here]
      rw [if_neg (fun both => both.1 both.2)]
      simp
    rw [next, List.foldl_cons, started, runsFrom_eq_scan isPositive (by omega)]
    exact foldl_groupStep agrees (related_start here rfl rfl rfl) (by omega)

end Simulation

end TorchSpyre.CoarseTiling
