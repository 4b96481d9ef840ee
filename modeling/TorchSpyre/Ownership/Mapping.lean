import TorchSpyre.Lib.Outcome
import TorchSpyre.Lib.Symbolic

/-!
# Owner formulas and the canonical core mappings

An owner formula is an expression in `core_id`; its value on a core is the slot
that the core owns along one split dimension.
-/

namespace TorchSpyre.Ownership

open Lib Lib.Symbolic

def coreId : Symbol := "core_id"

def maxOwnerPermutationDims : ℕ := 5

/-- Why a coordinate has no bounds on a loop partition. -/
inductive RegionError where
  /-- A product whose first factor is not a number: `AttributeError`. -/
  | noNumerator
  | notIntegral
  | repeatsElement
  | offAxis
  | notRectangle
  deriving DecidableEq

inductive OwnershipError where
  | coreCount (numCores : ℕ)
  | slotDimensionsDiffer
  | nonIntegralSlot (formula : Expr) (core : ℕ)
  | slotOutsideSplit (slot : ℤ) (split core : ℕ)
  | splitCountDiffers
  | logicalCores (logicalCores numCores : ℕ)
  | ownerCount (ownerCount numCores : ℕ)
  | noCoreDomain
  | rankDiffers
  | duplicateDimensions
  | axisNotDivisible (axis split : ℕ)
  | unmappedAxis (axis : ℕ)
  | extentNotConcrete (extent : Expr)
  | directAxisLimit (extent : ℕ)
  | fusedLimit (states : ℕ)
  | loopNotDivisible (loop : Symbol) (split : ℕ)
  | evaluation (cause : RegionError)
  | partitionCrosses
  | partitionsNotDistinct
  | sliceNotCovered
  | differentOwners
  | noCanonicalMapping
  | recursionLimit
  deriving DecidableEq

/-! ## Owner slots -/

/-- `as_int` of the formula on one core; a formula with other symbols has no value. -/
def ownerAtCore (formula : Expr) (core : ℕ) : Option ℤ := Expr.integerAt coreId formula core

theorem eval_of_ownerAtCore {formula : Expr} {core : ℕ} {slot : ℤ}
    (owned : ownerAtCore formula core = some slot) : formula.eval (fun _ => core) = slot :=
  Expr.eval_of_integerAt owned rfl

section OwnerSlots

variable {Dim : Type}

def ownerSlot (core : ℕ) : Dim × ℕ × Expr → Except OwnershipError (Dim × ℕ)
  | (dim, split, formula) =>
      match ownerAtCore formula core with
      | none => .error (.nonIntegralSlot formula core)
      | some slot =>
          if 0 ≤ slot ∧ slot < split then .ok (dim, slot.toNat)
          else .error (.slotOutsideSplit slot split core)

theorem ownerSlot_value {core : ℕ} {dim : Dim} {split : ℕ} {formula : Expr} {entry : Dim × ℕ}
    (succeeds : ownerSlot core (dim, split, formula) = .ok entry) :
    entry.1 = dim ∧ entry.2 < split ∧ formula.eval (fun _ => core) = entry.2 := by
  simp only [ownerSlot] at succeeds
  split at succeeds
  next => cases succeeds
  next slot owned =>
    split_ifs at succeeds with inside
    cases succeeds
    have nonnegative : ((slot.toNat : ℕ) : ℤ) = slot := Int.toNat_of_nonneg inside.1
    refine ⟨rfl, by omega, ?_⟩
    rw [eval_of_ownerAtCore owned]
    exact_mod_cast nonnegative.symm

variable [DecidableEq Dim]

def ownerFormula (slots : List (Dim × Expr)) :
    Dim × ℕ → Except OwnershipError (Dim × ℕ × Expr)
  | (dim, split) =>
      match slots.lookup dim with
      | none => .error .slotDimensionsDiffer
      | some formula => .ok (dim, split, formula)

def ownerSlots (slots : List (Dim × Expr)) (splits : List (Dim × ℕ)) (numCores : ℕ) :
    Except OwnershipError (List (List (Dim × ℕ))) :=
  if numCores = 0 then .error (.coreCount numCores)
  else do
    let formulas ← splits.mapM (ownerFormula slots)
    (List.range numCores).mapM fun core => formulas.mapM (ownerSlot core)

/-- A row of `ownerSlots`: the formulas' values on a core, each inside its split. -/
structure OwnerRow (slots : List (Dim × Expr)) (splits : List (Dim × ℕ)) (core : ℕ)
    (row : List (Dim × ℕ)) : Prop where
  keys : row.map Prod.fst = splits.map Prod.fst
  value : ∀ dim slot, (dim, slot) ∈ row → ∃ formula split,
    slots.lookup dim = some formula ∧ (dim, split) ∈ splits ∧ slot < split ∧
      formula.eval (fun _ => core) = slot

theorem ownerFormula_eq {slots : List (Dim × Expr)} {dim : Dim} {split : ℕ}
    {entry : Dim × ℕ × Expr} (succeeds : ownerFormula slots (dim, split) = .ok entry) :
    entry.1 = dim ∧ entry.2.1 = split ∧ slots.lookup dim = some entry.2.2 := by
  simp only [ownerFormula] at succeeds
  split at succeeds
  next => cases succeeds
  next formula found =>
    cases succeeds
    exact ⟨rfl, rfl, found⟩

theorem ownerRow_of_mapM {slots : List (Dim × Expr)} {splits : List (Dim × ℕ)} {core : ℕ}
    {formulas : List (Dim × ℕ × Expr)} {row : List (Dim × ℕ)}
    (named : splits.mapM (ownerFormula slots) = .ok formulas)
    (evaluated : formulas.mapM (ownerSlot core) = .ok row) : OwnerRow slots splits core row := by
  constructor
  case keys =>
    have sameDims : formulas.map Prod.fst = splits.map Prod.fst := by
      have paired := forall₂_of_mapM named
      clear named evaluated
      induction paired with
      | nil => rfl
      | @cons entry _ _ _ stepped _ inductionHypothesis =>
          simp only [List.map_cons, inductionHypothesis, (ownerFormula_eq stepped).1]
    have sameRow : row.map Prod.fst = formulas.map Prod.fst := by
      have paired := forall₂_of_mapM evaluated
      clear named evaluated sameDims
      induction paired with
      | nil => rfl
      | @cons entry _ _ _ stepped _ inductionHypothesis =>
          simp only [List.map_cons, inductionHypothesis, (ownerSlot_value stepped).1]
    exact sameRow.trans sameDims
  case value =>
    intro dim slot found
    obtain ⟨⟨other, split, formula⟩, member, owned⟩ := exists_of_mem_mapM evaluated found
    obtain ⟨rfl, below, value⟩ := ownerSlot_value owned
    obtain ⟨⟨name, count⟩, listed, bound⟩ := exists_of_mem_mapM named member
    obtain ⟨sameName, sameCount, lookedUp⟩ := ownerFormula_eq bound
    dsimp only at sameName sameCount lookedUp
    subst sameName sameCount
    exact ⟨formula, split, lookedUp, listed, below, value⟩

theorem ownerSlots_rows {slots : List (Dim × Expr)} {splits : List (Dim × ℕ)} {numCores : ℕ}
    {rows : List (List (Dim × ℕ))} (succeeds : ownerSlots slots splits numCores = .ok rows) :
    0 < numCores ∧ rows.length = numCores ∧
      ∀ core row, rows[core]? = some row → OwnerRow slots splits core row := by
  obtain ⟨positive, succeeds⟩ := of_guard succeeds
  obtain ⟨formulas, named, evaluated⟩ := bind_eq_ok_iff.mp succeeds
  obtain ⟨sameLength, paired⟩ := List.forall₂_iff_get.mp (forall₂_of_mapM evaluated)
  rw [List.length_range] at sameLength
  refine ⟨Nat.pos_of_ne_zero positive, sameLength.symm, ?_⟩
  intro core row found
  obtain ⟨inside, rfl⟩ := List.getElem?_eq_some_iff.mp found
  have stepped := paired core (by rw [List.length_range, sameLength]; exact inside) inside
  apply ownerRow_of_mapM named
  simpa using stepped

end OwnerSlots

/-! ## Comparing owner maps -/

section Comparison

variable {Dim : Type} [DecidableEq Dim]

/-- `core_mappings_equal` -/
def coreMappingsEqual (left right : List (Dim × Expr)) (numCores : ℕ) : Bool :=
  decide (0 < numCores) &&
  left.all (fun entry => (right.map Prod.fst).contains entry.1) &&
  right.all (fun entry => (left.map Prod.fst).contains entry.1) &&
  left.all fun (dim, formula) => (List.range numCores).all fun core =>
    match ownerAtCore formula core, (right.lookup dim).bind (ownerAtCore · core) with
    | some leftSlot, some rightSlot => leftSlot = rightSlot
    | _, _ => false

/-- `same_owner_maps` -/
def sameOwnerMaps (leftSplits : List (Dim × ℕ)) (leftSlots : List (Dim × Expr)) (leftCores : ℕ)
    (rightSplits : List (Dim × ℕ)) (rightSlots : List (Dim × Expr)) (rightCores : ℕ) : Bool :=
  let left := leftSplits.filter fun entry => 1 < entry.2
  let right := rightSplits.filter fun entry => 1 < entry.2
  if leftCores = 0 ∨ leftCores ≠ rightCores then false
  else if left.isEmpty && right.isEmpty then true
  else if !(left.all fun entry => right.contains entry) ||
      !(right.all fun entry => left.contains entry) then false
  else if left.any (fun entry => (leftSlots.lookup entry.1).isNone) ||
      right.any (fun entry => (rightSlots.lookup entry.1).isNone) then false
  else
    coreMappingsEqual
      (left.filterMap fun entry => (leftSlots.lookup entry.1).map (entry.1, ·))
      (right.filterMap fun entry => (rightSlots.lookup entry.1).map (entry.1, ·)) leftCores

end Comparison

/-- Tensor ownership in the symbols of the operation's loops. -/
structure TensorWorkDivision where
  workSlices : List (Symbol × ℕ)
  coreIdToWorkSlice : List (Symbol × Expr)
  numCores : Option ℕ
  deriving DecidableEq

namespace TensorWorkDivision

def physicalCoreCount (division : TensorWorkDivision) : ℕ :=
  division.numCores.getD (division.workSlices.map Prod.snd).prod

def sameOwnership (division other : TensorWorkDivision) : Bool :=
  sameOwnerMaps division.workSlices division.coreIdToWorkSlice division.physicalCoreCount
    other.workSlices other.coreIdToWorkSlice other.physicalCoreCount

end TensorWorkDivision

/-! ## Canonical mappings -/

/-- The owner formulas of dimensions that vary in list order, the first one fastest. -/
def sliceFormulas (stride : ℕ) : List (Symbol × ℕ) → List (Symbol × Expr)
  | [] => []
  | (dim, split) :: rest =>
      let coordinate :=
        if split = 1 then .const 0
        else if stride = 1 then .mod (.sym coreId) split.toPNat'
        else .mod (.floor (.mul (.const (1 / stride)) (.sym coreId))) split.toPNat'
      (dim, coordinate) :: sliceFormulas (stride * split) rest

/-- `core_to_slice_mapping`; `contiguousDim` is the position of the dimension moved first. -/
def coreToSliceMapping (dims : List Symbol) (dimSplits : List ℕ) (numCores : ℕ)
    (contiguousDim : Option ℕ) : Except OwnershipError (List (Symbol × Expr)) :=
  if dims.length ≠ dimSplits.length then .error .splitCountDiffers
  else if numCores < dimSplits.prod ∨ numCores % dimSplits.prod ≠ 0 then
    .error (.logicalCores dimSplits.prod numCores)
  else
    let pairs := dims.zip dimSplits
    match contiguousDim.bind fun position => (pairs[position]?).map (position, ·) with
    | none => .ok (sliceFormulas 1 pairs)
    | some (position, dim, split) =>
        if 1 < split then .ok (sliceFormulas 1 ((dim, split) :: pairs.eraseIdx position))
        else .ok (sliceFormulas 1 pairs)

/-- `derive_partition_mapping` -/
def derivePartitionMapping (sympy : Sympy) (dims : List Symbol) (dimSplits : List ℕ)
    (numCores : ℕ) : Except OwnershipError (List (Symbol × Expr)) :=
  let ownerCount := dimSplits.prod
  if ownerCount = 0 ∨ numCores = 0 ∨ numCores % ownerCount ≠ 0 then
    .error (.ownerCount ownerCount numCores)
  else do
    let groupSize := numCores / ownerCount
    let groupId := sympy.auto (.floor (.mul (.const (1 / groupSize)) (.sym coreId)))
    let mapping ← coreToSliceMapping dims dimSplits ownerCount none
    return mapping.map fun (dim, formula) =>
      (dim, sympy.auto (formula.replaceSymbol coreId groupId))

/-- The first `length` entries chosen in every order, as `itertools.permutations` lists them. -/
def permutationsOf {α : Type} : ℕ → List α → List (List α)
  | 0, _ => [[]]
  | length + 1, items =>
      (List.range items.length).flatMap fun position =>
        match items[position]? with
        | none => []
        | some item => (permutationsOf length (items.eraseIdx position)).map (item :: ·)

/-- The candidates in order; a second accepted owner map is an ambiguity. -/
def acceptUnique (accepts : TensorWorkDivision → Except OwnershipError Bool) :
    Option TensorWorkDivision → List TensorWorkDivision →
      Except OwnershipError (Option TensorWorkDivision)
  | accepted, [] => .ok accepted
  | accepted, candidate :: rest => do
      if ← accepts candidate then
        match accepted with
        | none => acceptUnique accepts (some candidate) rest
        | some previous =>
            if previous.sameOwnership candidate then acceptUnique accepts accepted rest
            else return none
      else acceptUnique accepts accepted rest

/-- `select_unique_partition_division`, without the log of rejections. -/
def selectUniquePartitionDivision (sympy : Sympy) (dimensions : List Symbol)
    (workSlices : List (Symbol × ℕ)) (numCores : ℕ)
    (accepts : TensorWorkDivision → Except OwnershipError Bool) :
    Except OwnershipError (Option TensorWorkDivision) :=
  let splitByDim := dimensions.filterMap fun dim =>
    let split := (workSlices.lookup dim).getD 1
    if 1 < split then some (dim, split) else none
  let wanted := (workSlices.filter fun entry => 1 < entry.2).map Prod.fst
  if !(wanted.all fun dim => (splitByDim.map Prod.fst).contains dim) then .ok none
  else if splitByDim.isEmpty then .ok none
  else if maxOwnerPermutationDims < splitByDim.length then .ok none
  else
    let candidates := (permutationsOf splitByDim.length splitByDim).filterMap fun order =>
      match derivePartitionMapping sympy (order.map Prod.fst) (order.map Prod.snd) numCores with
      | .error _ => none
      | .ok mapping => some {
          workSlices := workSlices
          coreIdToWorkSlice :=
            workSlices.map fun entry => (entry.1, (mapping.lookup entry.1).getD (.const 0))
          numCores := some numCores : TensorWorkDivision }
    acceptUnique accepts none candidates

theorem acceptUnique_accepts {accepts : TensorWorkDivision → Except OwnershipError Bool}
    {accepted : Option TensorWorkDivision} {candidates : List TensorWorkDivision}
    {division : TensorWorkDivision}
    (succeeds : acceptUnique accepts accepted candidates = .ok (some division)) :
    accepted = some division ∨ division ∈ candidates ∧ accepts division = .ok true := by
  induction candidates generalizing accepted with
  | nil =>
      cases succeeds
      exact Or.inl rfl
  | cons candidate rest inductionHypothesis =>
      have later : ∀ {earlier}, acceptUnique accepts earlier rest = .ok (some division) →
          earlier = some division ∨ division ∈ candidate :: rest ∧ accepts division = .ok true := by
        intro earlier remaining
        apply (inductionHypothesis remaining).imp_right
        exact fun found => ⟨List.mem_cons_of_mem _ found.1, found.2⟩
      obtain ⟨verdict, judged, succeeds⟩ := bind_eq_ok_iff.mp succeeds
      cases verdict with
      | false => exact later succeeds
      | true =>
          cases accepted with
          | none =>
              rcases later succeeds with same | found
              · cases same
                exact Or.inr ⟨List.mem_cons_self, judged⟩
              · exact Or.inr found
          | some previous =>
              simp only [↓reduceIte] at succeeds
              split_ifs at succeeds with same
              · exact later succeeds
              · cases succeeds

/-- A selected division has the given splits and was accepted. -/
theorem selectUniquePartitionDivision_accepts {sympy : Sympy} {dimensions : List Symbol}
    {workSlices : List (Symbol × ℕ)} {numCores : ℕ}
    {accepts : TensorWorkDivision → Except OwnershipError Bool} {division : TensorWorkDivision}
    (succeeds : selectUniquePartitionDivision sympy dimensions workSlices numCores accepts =
      .ok (some division)) :
    division.workSlices = workSlices ∧ division.numCores = some numCores ∧
      accepts division = .ok true := by
  simp only [selectUniquePartitionDivision] at succeeds
  split at succeeds
  next => cases succeeds
  next =>
    split at succeeds
    next => cases succeeds
    next =>
      split at succeeds
      next => cases succeeds
      next =>
        rcases acceptUnique_accepts succeeds with impossible | ⟨found, accepted⟩
        · cases impossible
        · obtain ⟨order, -, built⟩ := List.mem_filterMap.mp found
          split at built
          next => cases built
          next mapping derived =>
            cases built
            exact ⟨rfl, rfl, accepted⟩

end TorchSpyre.Ownership
