import TorchSpyre.SplitPlanning.Span

/-!
# Splits that bring the spans within the limit

`must_split_vars`: tensors one after another, each with the splits committed so far; for a tensor
over the limit, its device dimensions from the outside, with a joint search over the split
factors of the symbols of one coordinate.
-/

namespace TorchSpyre.SplitPlanning

open Lib

variable {Dim : Type} [DecidableEq Dim]

/-- The 256 MB hardware limit. -/
def maxSpanBytes : ℤ := 256 * 1024 * 1024

structure SpanRequest (Dim : Type) where
  tensors : List (TensorDep Dim)
  ranges : Ranges Dim
  adjusted : Dict Dim ℕ
  stickVars : Dict Dim ℕ
  maxCores : ℕ
  allowedSplits : Domains Dim
  blocked : List Dim

/-- `itertools.product`, the last list fastest. -/
def product : List (List ℕ) → List (List ℕ)
  | [] => [[]]
  | choices :: rest => choices.flatMap fun choice => (product rest).map (choice :: ·)

/-- The best combination within the limit and the best one above it, each with its span. -/
structure Search where
  within : Option (ℤ × List ℕ)
  above : Option (ℤ × List ℕ)

namespace SpanRequest

variable (request : SpanRequest Dim)

def span (splits : Dict Dim ℕ) (tensor : TensorDep Dim) : ℤ :=
  getPerCoreSpan request.ranges splits tensor

def basis (dim : Dim) : Except (SplitError Dim) ℕ :=
  match request.ranges.symbolMeta.lookup dim with
  | some (_, granularity) => .ok granularity
  | none =>
      let size :=
        if (request.stickVars.lookup dim).isSome then request.adjusted.lookup dim
        else request.ranges.iterationSpace.lookup dim
      match size with
      | none => .error (.unknownDim dim)
      | some size => .ok size

def validSplits (accumulated : Dict Dim ℕ) (dim : Dim) : Except (SplitError Dim) (List ℕ) :=
  if dim ∈ request.blocked then .ok [1]
  else do
    let basis ← request.basis dim
    .ok ((legalSplitFactors dim basis request.allowedSplits Dict.empty).filter fun split =>
      (accumulated.lookup dim).getD 1 ≤ split)

def splitVars (coordinate : Coordinate Dim) : List Dim :=
  coordinate.terms.keys.filter fun dim => 1 < request.ranges.effectiveSize dim

/-- The accumulated splits with a combination for some symbols. -/
def trial (accumulated : Dict Dim ℕ) (vars : List Dim) (combo : List ℕ) : Dict Dim ℕ :=
  accumulated.update (vars.zip combo)

def consider (accumulated : Dict Dim ℕ) (tensor : TensorDep Dim) (vars : List Dim) (search : Search)
    (combo : List ℕ) : Search :=
  let trial := trial accumulated vars combo
  if request.maxCores < trial.values.prod then search
  else
    let span := request.span trial tensor
    if span ≤ maxSpanBytes then
      match search.within with
      | none => { search with within := some (span, combo) }
      | some (bestSpan, bestCombo) =>
          if combo.prod < bestCombo.prod ∨ combo.prod = bestCombo.prod ∧ -span < -bestSpan then
            { search with within := some (span, combo) }
          else search
    else
      match search.above with
      | none => { search with above := some (span, combo) }
      | some (bestSpan, _) =>
          if span < bestSpan then { search with above := some (span, combo) } else search

/-- The coordinate at the far corner, plus one. -/
def perCoreCoordSize (splits : Dict Dim ℕ) (coordinate : Coordinate Dim) : ℤ :=
  max (coordinate.value (corner request.ranges splits)) 0 + 1

/-- One device dimension; the flag tells that the search of the tensor is over. -/
def splitDim (accumulated : Dict Dim ℕ) (tensor : TensorDep Dim) (coordinate : Coordinate Dim) :
    Except (SplitError Dim) (Dict Dim ℕ × Bool) :=
  let vars := request.splitVars coordinate
  if vars = [] then .ok (accumulated, false)
  else do
    let candidates ← vars.mapM (request.validSplits accumulated)
    match (vars.zip candidates).find? fun entry => entry.2 = [] with
    | some (dim, _) => .error (.noValidSplit dim)
    | none =>
        let search := (product candidates).foldl (request.consider accumulated tensor vars) ⟨none, none⟩
        match search.within.or search.above with
        | none => .ok (accumulated, true)
        | some (bestSpan, bestCombo) =>
            let committed := trial accumulated vars bestCombo
            .ok (committed, bestSpan ≤ maxSpanBytes ∨ 1 < request.perCoreCoordSize committed coordinate)

def splitDims (accumulated : Dict Dim ℕ) (tensor : TensorDep Dim) :
    List (DeviceDim Dim) → Except (SplitError Dim) (Dict Dim ℕ)
  | [] => .ok accumulated
  | dim :: inner => do
      let (committed, exceeds) ← request.splitDim accumulated tensor dim.coordinate
      if exceeds then .ok committed else splitDims committed tensor inner

/-- The turn of one tensor. -/
def splitTensor (accumulated : Dict Dim ℕ) (tensor : TensorDep Dim) :
    Except (SplitError Dim) (Dict Dim ℕ) :=
  if request.span accumulated tensor ≤ maxSpanBytes then .ok accumulated
  else request.splitDims accumulated tensor tensor.dims.dropLast

end SpanRequest

/-- `must_split_vars` -/
def mustSplitVars (request : SpanRequest Dim) : Except (SplitError Dim) (Dict Dim ℕ) :=
  request.tensors.foldlM request.splitTensor Dict.empty

/-! ## What a committed combination is -/

theorem mem_of_mem_product {choices : List (List ℕ)} {combo : List ℕ} (isCombo : combo ∈ product choices) :
    List.Forall₂ (· ∈ ·) combo choices := by
  induction choices generalizing combo with
  | nil =>
      obtain rfl := List.mem_singleton.mp isCombo
      exact .nil
  | cons first rest inductionHypothesis =>
      obtain ⟨choice, isChoice, isRest⟩ := List.mem_flatMap.mp isCombo
      obtain ⟨others, isOthers, rfl⟩ := List.mem_map.mp isRest
      exact .cons isChoice (inductionHypothesis isOthers)

/-- The splits of two dictionaries, an absent one being one. -/
def Grows (first second : Dict Dim ℕ) : Prop :=
  ∀ dim, (first.lookup dim).getD 1 ≤ (second.lookup dim).getD 1

theorem Grows.trans {first second third : Dict Dim ℕ} (grows : Grows first second)
    (further : Grows second third) : Grows first third :=
  fun dim => (grows dim).trans (further dim)

/-- What holds of the accumulated splits at any time. -/
structure Accumulated (request : SpanRequest Dim) (splits : Dict Dim ℕ) : Prop where
  budget : splits.values.prod ≤ request.maxCores
  factors : ∀ dim split, splits.lookup dim = some split → 0 < split ∧
    if dim ∈ request.blocked then split = 1
    else ∃ basis, request.basis dim = .ok basis ∧ split ∣ basis ∧
      ∀ domain, request.allowedSplits.lookup dim = some domain → split ∈ domain

section Search

variable {request : SpanRequest Dim} {accumulated : Dict Dim ℕ} {tensor : TensorDep Dim}
  {vars : List Dim}

/-- A search has found only combinations of the product that fit the budget. -/
def Found (request : SpanRequest Dim) (accumulated : Dict Dim ℕ) (vars : List Dim)
    (combos : List (List ℕ)) (search : Search) : Prop :=
  ∀ span combo, search.within = some (span, combo) ∨ search.above = some (span, combo) →
    combo ∈ combos ∧ (SpanRequest.trial accumulated vars combo).values.prod ≤ request.maxCores

theorem found_consider {combos : List (List ℕ)} {search : Search} {combo : List ℕ}
    (isCombo : combo ∈ combos) (found : Found request accumulated vars combos search) :
    Found request accumulated vars combos (request.consider accumulated tensor vars search combo) := by
  simp only [SpanRequest.consider]
  split
  next => exact found
  next fits =>
    have here : combo ∈ combos ∧
        (SpanRequest.trial accumulated vars combo).values.prod ≤ request.maxCores :=
      ⟨isCombo, not_lt.mp fits⟩
    have within : ∀ span, Found request accumulated vars combos
        { search with within := some (span, combo) } := by
      rintro span other kept (isWithin | isAbove)
      · obtain ⟨rfl, rfl⟩ := Prod.mk.inj (Option.some.inj isWithin)
        exact here
      · exact found other kept (Or.inr isAbove)
    have above : ∀ span, Found request accumulated vars combos
        { search with above := some (span, combo) } := by
      rintro span other kept (isWithin | isAbove)
      · exact found other kept (Or.inl isWithin)
      · obtain ⟨rfl, rfl⟩ := Prod.mk.inj (Option.some.inj isAbove)
        exact here
    split
    next =>
      split
      next => exact within _
      next =>
        split
        next => exact within _
        next => exact found
    next =>
      split
      next => exact above _
      next =>
        split
        next => exact above _
        next => exact found

theorem found_search (combos tried : List (List ℕ)) {search : Search} (among : ∀ combo ∈ tried, combo ∈ combos)
    (found : Found request accumulated vars combos search) :
    Found request accumulated vars combos
      (tried.foldl (request.consider accumulated tensor vars) search) := by
  induction tried generalizing search with
  | nil => exact found
  | cons combo tried inductionHypothesis =>
      apply inductionHypothesis fun other later => among other (List.mem_cons_of_mem _ later)
      exact found_consider (among combo List.mem_cons_self) found

theorem mem_validSplits_of_zip {candidates : List (List ℕ)} {combo : List ℕ}
    (valid : List.Forall₂ (fun dim choices => request.validSplits accumulated dim = .ok choices)
      vars candidates)
    (chosen : List.Forall₂ (· ∈ ·) combo candidates) {dim : Dim} {split : ℕ}
    (paired : (dim, split) ∈ vars.zip combo) :
    ∃ choices, request.validSplits accumulated dim = .ok choices ∧ split ∈ choices := by
  induction valid generalizing combo with
  | nil => cases paired
  | @cons first choices rest others isValid _ inductionHypothesis =>
      cases chosen with
      | @cons choice _ combo _ isChosen isRest =>
          rcases List.mem_cons.mp paired with here | later
          · obtain ⟨rfl, rfl⟩ := Prod.mk.inj here
            exact ⟨choices, isValid, isChosen⟩
          · exact inductionHypothesis isRest later

/-- A valid split is a legal factor, no smaller than the accumulated one. -/
theorem validSplits_spec (holds : Accumulated request accumulated) {dim : Dim} {choices : List ℕ}
    (valid : request.validSplits accumulated dim = .ok choices) {split : ℕ} (isChoice : split ∈ choices) :
    (accumulated.lookup dim).getD 1 ≤ split ∧ 0 < split ∧
      if dim ∈ request.blocked then split = 1
      else ∃ basis, request.basis dim = .ok basis ∧ split ∣ basis ∧
        ∀ domain, request.allowedSplits.lookup dim = some domain → split ∈ domain := by
  rw [SpanRequest.validSplits] at valid
  split at valid
  next isBlocked =>
    obtain rfl := Except.ok.inj valid
    obtain rfl := List.mem_singleton.mp isChoice
    refine ⟨?_, Nat.one_pos, by rw [if_pos isBlocked]⟩
    cases isSplit : accumulated.lookup dim with
    | none => exact le_rfl
    | some current =>
        have isOne := (holds.factors dim current isSplit).2
        rw [if_pos isBlocked] at isOne
        exact isOne.le
  next notBlocked =>
    obtain ⟨basis, isBasis, valid⟩ := bind_eq_ok_iff.mp valid
    obtain rfl := Except.ok.inj valid
    obtain ⟨isLegal, above⟩ := List.mem_filter.mp isChoice
    obtain ⟨⟨positive, divides⟩, inDomain, -⟩ := mem_legalSplitFactors.mp isLegal
    refine ⟨of_decide_eq_true above, Nat.pos_of_dvd_of_pos divides positive, ?_⟩
    rw [if_neg notBlocked]
    exact ⟨basis, isBasis, divides, inDomain⟩

theorem splitDim_spec (holds : Accumulated request accumulated) {coordinate : Coordinate Dim}
    {committed : Dict Dim ℕ} {exceeds : Bool}
    (succeeds : request.splitDim accumulated tensor coordinate = .ok (committed, exceeds)) :
    Accumulated request committed ∧ Grows accumulated committed := by
  have unchanged : ∀ {flag}, Except.ok (accumulated, flag) =
        (Except.ok (committed, exceeds) : Except (SplitError Dim) _) →
      Accumulated request committed ∧ Grows accumulated committed := by
    intro flag same
    obtain ⟨rfl, -⟩ := Prod.mk.inj (Except.ok.inj same)
    exact ⟨holds, fun _ => le_rfl⟩
  simp only [SpanRequest.splitDim] at succeeds
  split at succeeds
  next => exact unchanged succeeds
  next =>
    obtain ⟨candidates, valid, succeeds⟩ := bind_eq_ok_iff.mp succeeds
    split at succeeds
    next => cases succeeds
    next =>
      split at succeeds
      next => exact unchanged succeeds
      next bestSpan bestCombo isBest =>
        obtain ⟨rfl, -⟩ := Prod.mk.inj (Except.ok.inj succeeds)
        have found : Found request accumulated (request.splitVars coordinate) (product candidates)
            ((product candidates).foldl (request.consider accumulated tensor
              (request.splitVars coordinate)) ⟨none, none⟩) := by
          apply found_search _ _ fun _ isCombo => isCombo
          rintro span combo (impossible | impossible)
          · cases impossible
          · cases impossible
        obtain ⟨isCombo, fits⟩ := found bestSpan bestCombo
          ((Option.or_eq_some_iff.mp isBest).imp_right And.right)
        have factors : ∀ dim split, (dim, split) ∈ (request.splitVars coordinate).zip bestCombo → _ :=
          fun dim split paired =>
            have ⟨_, isValid, isChoice⟩ := mem_validSplits_of_zip (forall₂_of_mapM valid)
              (mem_of_mem_product isCombo) paired
            validSplits_spec holds isValid isChoice
        refine ⟨⟨fits, fun dim split isSplit => ?_⟩, fun dim => ?_⟩
        · rcases Dict.lookup_update isSplit with paired | kept
          · exact (factors dim split paired).2
          · exact holds.factors dim split kept
        · cases isSplit : (SpanRequest.trial accumulated (request.splitVars coordinate)
              bestCombo).lookup dim with
          | none =>
              cases isOld : accumulated.lookup dim with
              | none => exact le_rfl
              | some old =>
                  have kept := Dict.isSome_lookup_update
                    ((request.splitVars coordinate).zip bestCombo) (Option.isSome_of_mem isOld)
                  rw [SpanRequest.trial] at isSplit
                  rw [isSplit] at kept
                  cases kept
          | some split =>
              rcases Dict.lookup_update isSplit with paired | kept
              · exact (factors dim split paired).1
              · rw [kept]

theorem splitDims_spec (holds : Accumulated request accumulated) {dims : List (DeviceDim Dim)}
    {committed : Dict Dim ℕ} (succeeds : request.splitDims accumulated tensor dims = .ok committed) :
    Accumulated request committed ∧ Grows accumulated committed := by
  induction dims generalizing accumulated with
  | nil =>
      obtain rfl := Except.ok.inj succeeds
      exact ⟨holds, fun _ => le_rfl⟩
  | cons dim inner inductionHypothesis =>
      rw [SpanRequest.splitDims] at succeeds
      obtain ⟨⟨next, exceeds⟩, stepped, succeeds⟩ := bind_eq_ok_iff.mp succeeds
      obtain ⟨nextHolds, grows⟩ := splitDim_spec holds stepped
      dsimp only at succeeds
      split at succeeds
      next =>
        obtain rfl := Except.ok.inj succeeds
        exact ⟨nextHolds, grows⟩
      next =>
        obtain ⟨finalHolds, further⟩ := inductionHypothesis nextHolds succeeds
        exact ⟨finalHolds, grows.trans further⟩

theorem splitTensor_spec (holds : Accumulated request accumulated) {committed : Dict Dim ℕ}
    (succeeds : request.splitTensor accumulated tensor = .ok committed) :
    Accumulated request committed ∧ Grows accumulated committed := by
  rw [SpanRequest.splitTensor] at succeeds
  split at succeeds
  next =>
    obtain rfl := Except.ok.inj succeeds
    exact ⟨holds, fun _ => le_rfl⟩
  next => exact splitDims_spec holds succeeds

theorem splitTensors_spec (holds : Accumulated request accumulated) {tensors : List (TensorDep Dim)}
    {committed : Dict Dim ℕ} (succeeds : tensors.foldlM request.splitTensor accumulated = .ok committed) :
    Accumulated request committed ∧ Grows accumulated committed := by
  induction tensors generalizing accumulated with
  | nil =>
      obtain rfl := Except.ok.inj succeeds
      exact ⟨holds, fun _ => le_rfl⟩
  | cons tensor tensors inductionHypothesis =>
      rw [List.foldlM_cons] at succeeds
      obtain ⟨next, stepped, succeeds⟩ := bind_eq_ok_iff.mp succeeds
      obtain ⟨nextHolds, grows⟩ := splitTensor_spec holds stepped
      obtain ⟨finalHolds, further⟩ := inductionHypothesis nextHolds succeeds
      exact ⟨finalHolds, grows.trans further⟩

end Search

/-! ## Over all tensors -/

theorem Accumulated.perCoreRange_le {request : SpanRequest Dim} {splits larger : Dict Dim ℕ}
    (holds : Accumulated request splits) (grows : Grows splits larger) (dim : Dim) :
    perCoreRange request.ranges larger dim ≤ perCoreRange request.ranges splits dim := by
  have positive : 0 < (splits.lookup dim).getD 1 := by
    cases isSplit : splits.lookup dim with
    | none => exact Nat.one_pos
    | some split => exact (holds.factors dim split isSplit).1
  exact Nat.div_le_div_left (grows dim) positive

/-- The returned splits keep the budget and the domains, they only grew, and a tensor that was
within the limit at the end of its turn still is. -/
theorem mustSplitVars_keeps {request : SpanRequest Dim} {splits : Dict Dim ℕ}
    (positive : 0 < request.maxCores)
    (within : ∀ tensor ∈ request.tensors, WithinExtents request.ranges tensor.dims)
    (monotone : ∀ tensor ∈ request.tensors, NonDecreasing tensor.dims)
    (returned : mustSplitVars request = .ok splits) :
    splits.values.prod ≤ request.maxCores ∧
      (∀ dim split, splits.lookup dim = some split →
        if dim ∈ request.blocked then split = 1
        else ∃ basis, request.basis dim = .ok basis ∧ split ∣ basis ∧
          ∀ domain, request.allowedSplits.lookup dim = some domain → split ∈ domain) ∧
      ∀ before tensor after, request.tensors = before ++ tensor :: after →
        ∃ start turned, before.foldlM request.splitTensor Dict.empty = .ok start ∧
          request.splitTensor start tensor = .ok turned ∧ Grows start turned ∧ Grows turned splits ∧
          (request.span turned tensor ≤ maxSpanBytes → request.span splits tensor ≤ maxSpanBytes) := by
  have none : Accumulated request Dict.empty := ⟨positive, fun _ _ impossible => by cases impossible⟩
  obtain ⟨holds, -⟩ := splitTensors_spec none returned
  refine ⟨holds.budget, fun dim split isSplit => (holds.factors dim split isSplit).2, ?_⟩
  intro before tensor after isTensors
  have isTensor : tensor ∈ request.tensors := by simp [isTensors]
  rw [mustSplitVars, isTensors, List.foldlM_append] at returned
  obtain ⟨start, earlier, returned⟩ := bind_eq_ok_iff.mp returned
  rw [List.foldlM_cons] at returned
  obtain ⟨turned, stepped, later⟩ := bind_eq_ok_iff.mp returned
  obtain ⟨startHolds, -⟩ := splitTensors_spec none earlier
  obtain ⟨turnedHolds, grows⟩ := splitTensor_spec startHolds stepped
  obtain ⟨-, further⟩ := splitTensors_spec turnedHolds later
  refine ⟨start, turned, earlier, stepped, grows, further, fun fits => ?_⟩
  have shrinks := spanFrom_mono tensor.itemsize (within tensor isTensor) (monotone tensor isTensor)
    (turnedHolds.perCoreRange_le further)
  exact le_trans shrinks fits

/-- A tensor of 512 MB, which one core may not address whole. -/
def large : TensorDep String where
  itemsize := 2
  dims := [⟨4, coordinateOf "batch" id⟩, ⟨1048576, coordinateOf "row" id⟩,
    ⟨64, coordinateOf "lane" id⟩]

def largeRequest : SpanRequest String where
  tensors := [large]
  ranges := ⟨⟨[("batch", 4), ("row", 1048576), ("lane", 64)], by decide⟩, Dict.empty⟩
  adjusted := ⟨[("batch", 4), ("row", 1048576), ("lane", 1)], by decide⟩
  stickVars := ⟨[("lane", 64)], by decide⟩
  maxCores := 32
  allowedSplits := Dict.empty
  blocked := ["row"]

theorem largeRequest_keeps :
    mustSplitVars largeRequest = .ok ⟨[("batch", 2)], by decide⟩ ∧
      largeRequest.span ⟨[("batch", 2)], by decide⟩ large ≤ maxSpanBytes := by
  have returned : mustSplitVars largeRequest = .ok ⟨[("batch", 2)], by decide⟩ := by decide
  have within : ∀ tensor ∈ largeRequest.tensors,
      WithinExtents largeRequest.ranges tensor.dims := by
    intro tensor isTensor dim isDim point inside
    obtain rfl := List.mem_singleton.mp isTensor
    have batch := inside "batch"
    have row := inside "row"
    have lane := inside "lane"
    have batchSize : largeRequest.ranges.effectiveSize "batch" = 4 := by decide
    have rowSize : largeRequest.ranges.effectiveSize "row" = 1048576 := by decide
    have laneSize : largeRequest.ranges.effectiveSize "lane" = 64 := by decide
    rw [batchSize] at batch
    rw [rowSize] at row
    rw [laneSize] at lane
    simp only [large, List.mem_cons, List.not_mem_nil, or_false] at isDim
    rcases isDim with rfl | rfl | rfl
    · simp [Coordinate.value, coordinateOf]
      omega
    · simp [Coordinate.value, coordinateOf]
      omega
    · simp [Coordinate.value, coordinateOf]
      omega
  have monotone : ∀ tensor ∈ largeRequest.tensors, NonDecreasing tensor.dims := by
    intro tensor isTensor dim isDim entry isEntry
    obtain rfl := List.mem_singleton.mp isTensor
    simp only [large, List.dropLast_cons_cons, List.dropLast_singleton, List.mem_cons,
      List.not_mem_nil, or_false] at isDim
    rcases isDim with rfl | rfl
    · obtain rfl := List.mem_singleton.mp isEntry
      exact monotone_id
    · obtain rfl := List.mem_singleton.mp isEntry
      exact monotone_id
  obtain ⟨-, -, turns⟩ := mustSplitVars_keeps (by decide) within monotone returned
  obtain ⟨start, turned, isStart, isTurned, -, -, stays⟩ := turns [] large [] rfl
  obtain rfl := Except.ok.inj isStart
  refine ⟨returned, stays ?_⟩
  have turn : largeRequest.splitTensor Dict.empty large = .ok ⟨[("batch", 2)], by decide⟩ := by decide
  obtain rfl := Except.ok.inj (isTurned.symm.trans turn)
  decide

end TorchSpyre.SplitPlanning
