import TorchSpyre.Ownership.CoreDigits
import TorchSpyre.Ownership.FusedSplit

/-!
# The committed owner of a fused loop

An owner map that matches a canonical division gives each core a slot inside the
split.
-/

namespace TorchSpyre.Ownership

open Lib Lib.Symbolic Lib.Positional

theorem coreToSliceMapping_eq_ok {dims : List Symbol} {splits : List ℕ} {numCores : ℕ}
    {mapping : List (Symbol × Expr)}
    (succeeds : coreToSliceMapping dims splits numCores none = .ok mapping) :
    splits.prod ∣ numCores ∧ mapping = sliceFormulas 1 (dims.zip splits) := by
  obtain ⟨-, succeeds⟩ := of_guard succeeds
  obtain ⟨divides, succeeds⟩ := of_guard succeeds
  rw [not_or, not_not] at divides
  exact ⟨Nat.dvd_of_mod_eq_zero divides.2, (Except.ok.inj succeeds).symm⟩

/-- A canonical formula stays below a split of its dimension. -/
theorem sliceFormulas_bound {order : List (Symbol × ℕ)} (positive : ∀ entry ∈ order, 0 < entry.2)
    {stride : ℕ} {dim : Symbol} {formula : Expr}
    (found : (sliceFormulas stride order).lookup dim = some formula) :
    ∃ split, (dim, split) ∈ order ∧ ∀ point, ∃ slot < split, formula.eval point = (slot : ℕ) := by
  have listed : dim ∈ order.map Prod.fst := by
    rw [← map_fst_sliceFormulas stride]
    exact List.mem_map_of_mem (mem_of_lookup found)
  induction order generalizing stride with
  | nil => cases listed
  | cons entry order inductionHypothesis =>
      obtain ⟨name, split⟩ := entry
      by_cases same : dim = name
      · subst same
        refine ⟨split, List.mem_cons_self, ?_⟩
        obtain ⟨own, foundOwn, -, digit⟩ := sliceFormulas_follows positive stride listed
        rw [found] at foundOwn
        cases foundOwn
        intro point
        refine ⟨_, ?_, digit point⟩
        rw [digitOf, if_pos rfl]
        exact Nat.mod_lt _ (positive _ List.mem_cons_self)
      · have later := (List.mem_cons.mp listed).resolve_left same
        rw [sliceFormulas, List.lookup_cons, beq_eq_false_iff_ne.mpr same] at found
        obtain ⟨other, isOther, bounded⟩ := inductionHypothesis
          (fun entry member => positive entry (List.mem_cons_of_mem _ member)) found later
        exact ⟨other, List.mem_cons_of_mem _ isOther, bounded⟩

theorem derivePartitionMapping_bound {sympy : Sympy} {dims : List Symbol} {splits : List ℕ}
    {numCores : ℕ} {mapping : List (Symbol × Expr)}
    (positive : ∀ entry ∈ dims.zip splits, 0 < entry.2)
    (derived : derivePartitionMapping sympy dims splits numCores = .ok mapping) {dim : Symbol}
    {formula : Expr} (found : mapping.lookup dim = some formula) :
    ∃ split, (dim, split) ∈ dims.zip splits ∧
      ∀ point, ∃ slot < split, formula.eval point = (slot : ℕ) := by
  obtain ⟨-, derived⟩ := of_guard derived
  obtain ⟨canonical, sliced, derived⟩ := bind_eq_ok_iff.mp derived
  obtain ⟨-, rfl⟩ := coreToSliceMapping_eq_ok sliced
  have isMapping : rebased sympy (groupId sympy (numCores / splits.prod))
      (sliceFormulas 1 (dims.zip splits)) = mapping := Except.ok.inj derived
  rw [← isMapping, lookup_rebased] at found
  obtain ⟨own, foundOwn, rfl⟩ := Option.map_eq_some_iff.mp found
  obtain ⟨split, listed, bounded⟩ := sliceFormulas_bound positive foundOwn
  refine ⟨split, listed, ?_⟩
  intro point
  rw [sympy.auto_eval, Expr.eval_replaceSymbol_of_nat (groupId_eval sympy _ point)]
  exact bounded _

/-! ## Matching owners -/

theorem owners_of_coreMappingsEqual {Dim : Type} [DecidableEq Dim] {left right : List (Dim × Expr)}
    {numCores : ℕ} (equal : coreMappingsEqual left right numCores = true) {dim : Dim}
    {formula : Expr} (listed : (dim, formula) ∈ left) {core : ℕ} (inside : core < numCores) :
    ∃ other slot, right.lookup dim = some other ∧ ownerAtCore formula core = some slot ∧
      ownerAtCore other core = some slot := by
  simp only [coreMappingsEqual, Bool.and_eq_true, List.all_eq_true, List.mem_range] at equal
  have here := equal.2 (dim, formula) listed core inside
  dsimp only at here
  cases found : right.lookup dim with
  | none => simp [found] at here
  | some other =>
      rw [found, Option.bind_some] at here
      split at here
      next leftSlot rightSlot leftAt rightAt =>
        rw [← of_decide_eq_true here] at rightAt
        exact ⟨other, leftSlot, rfl, leftAt, rightAt⟩
      next => cases here

/-- Divisions with the same owners give a split dimension the same slots. -/
theorem owners_of_sameOwnership {division other : TensorWorkDivision}
    (same : division.sameOwnership other = true) {dim : Symbol} {split : ℕ}
    (listed : (dim, split) ∈ division.workSlices) (large : 1 < split) {formula : Expr}
    (owned : division.coreIdToWorkSlice.lookup dim = some formula) {core : ℕ}
    (inside : core < division.physicalCoreCount) :
    ∃ theirs slot, other.coreIdToWorkSlice.lookup dim = some theirs ∧
      ownerAtCore formula core = some slot ∧ ownerAtCore theirs core = some slot := by
  simp only [TensorWorkDivision.sameOwnership, sameOwnerMaps] at same
  have isSplit : (dim, split) ∈ division.workSlices.filter fun entry => decide (1 < entry.2) :=
    List.mem_filter.mpr ⟨listed, decide_eq_true large⟩
  split at same
  next => cases same
  next =>
    split at same
    next empty =>
      rw [Bool.and_eq_true, List.isEmpty_iff] at empty
      rw [empty.1] at isSplit
      cases isSplit
    next =>
      split at same
      next => cases same
      next =>
        split at same
        next => cases same
        next =>
          have isEntry : (dim, formula) ∈
              (division.workSlices.filter fun entry => decide (1 < entry.2)).filterMap fun entry =>
                (division.coreIdToWorkSlice.lookup entry.1).map (entry.1, ·) := by
            apply List.mem_filterMap.mpr
            exact ⟨(dim, split), isSplit, by rw [owned, Option.map_some]⟩
          obtain ⟨theirs, slot, found, ours, same⟩ := owners_of_coreMappingsEqual same isEntry inside
          refine ⟨theirs, slot, ?_, ours, same⟩
          obtain ⟨entry, -, paired⟩ := List.mem_filterMap.mp (mem_of_lookup found)
          obtain ⟨_, isTheirs, pair⟩ := Option.map_eq_some_iff.mp paired
          cases pair
          exact isTheirs

/-- A selected division has canonical owners. -/
theorem selectUniquePartitionDivision_canonical {sympy : Sympy} {dimensions : List Symbol}
    {workSlices : List (Symbol × ℕ)} {numCores : ℕ}
    {accepts : TensorWorkDivision → Except OwnershipError Bool} {division : TensorWorkDivision}
    (succeeds : selectUniquePartitionDivision sympy dimensions workSlices numCores accepts =
      .ok (some division)) :
    ∃ (order : List (Symbol × ℕ)) (mapping : List (Symbol × Expr)),
      (∀ entry ∈ order, 1 < entry.2 ∧ entry.2 = (workSlices.lookup entry.1).getD 1) ∧
      derivePartitionMapping sympy (order.map Prod.fst) (order.map Prod.snd) numCores =
        .ok mapping ∧
      division.coreIdToWorkSlice =
        workSlices.map fun entry => (entry.1, (mapping.lookup entry.1).getD (.const 0)) := by
  simp only [selectUniquePartitionDivision] at succeeds
  split at succeeds
  next => cases succeeds
  next =>
    split at succeeds
    next => cases succeeds
    next =>
      split at succeeds
      next => cases succeeds
      next =>
        rcases acceptUnique_accepts succeeds with impossible | ⟨found, -⟩
        · cases impossible
        · obtain ⟨order, isOrder, built⟩ := List.mem_filterMap.mp found
          have permuted := (mem_permutationsOf rfl).mp isOrder
          split at built
          next => cases built
          next mapping derived =>
            cases built
            refine ⟨order, mapping, ?_, derived, rfl⟩
            intro entry listed
            obtain ⟨dim, -, isSplit⟩ := List.mem_filterMap.mp (permuted.mem_iff.mp listed)
            split at isSplit
            next large =>
              cases isSplit
              exact ⟨large, rfl⟩
            next => cases isSplit

section Owner

variable {sympy : Sympy} {fusedSymbol : Symbol} {fusedSplit : ℕ} {fusedSlotExpr : Expr}
  {ownership : TensorWorkDivision} {numCores : ℕ}

/-- Each core owns one of the partitions of the fused loop. -/
theorem ownerIsCanonical_bound (large : 1 < fusedSplit)
    (canonical : ownerIsCanonical sympy fusedSymbol fusedSplit fusedSlotExpr ownership numCores =
      true) {core : ℕ} (inside : core < numCores) :
    ∃ slot < fusedSplit, fusedSlotExpr.eval (fun _ => core) = (slot : ℕ) := by
  simp only [ownerIsCanonical, Bool.and_eq_true, decide_eq_true_eq] at canonical
  obtain ⟨⟨⟨splitAt, rfl⟩, equal⟩, selected⟩ := canonical
  split at equal
  next => cases equal
  next formula owned =>
    split at selected
    next division succeeds =>
      obtain ⟨order, mapping, splits, derived, formulas⟩ :=
        selectUniquePartitionDivision_canonical succeeds
      have same : ownership.sameOwnership division = true :=
        Except.ok.inj (selectUniquePartitionDivision_accepts succeeds).2.2
      have listed : (fusedSymbol, fusedSplit) ∈ ownership.workSlices := by
        cases found : ownership.workSlices.lookup fusedSymbol with
        | none =>
            rw [found, Option.getD_none] at splitAt
            omega
        | some split =>
            rw [found, Option.getD_some] at splitAt
            subst splitAt
            exact mem_of_lookup found
      obtain ⟨theirs, slot, isTheirs, ours, shared⟩ :=
        owners_of_sameOwnership same listed large owned inside
      obtain ⟨other, fusedSlot, isOther, oursToo, fusedAt⟩ :=
        owners_of_coreMappingsEqual equal List.mem_cons_self inside
      rw [List.lookup_cons_self, Option.some.injEq] at isOther
      subst isOther
      rw [ours, Option.some.injEq] at oursToo
      subst oursToo
      rw [formulas] at isTheirs
      obtain ⟨entry, -, paired⟩ := List.mem_map.mp (mem_of_lookup isTheirs)
      cases paired
      have bounded : ∃ bound < fusedSplit,
          ((mapping.lookup entry.1).getD (.const 0)).eval (fun _ => core) = (bound : ℕ) := by
        cases found : mapping.lookup entry.1 with
        | none => exact ⟨0, by omega, by simp [Expr.eval]⟩
        | some canonical =>
            have positive : ∀ pair ∈ (order.map Prod.fst).zip (order.map Prod.snd), 0 < pair.2 := by
              intro pair isPair
              rw [zip_fst_snd] at isPair
              exact Nat.zero_lt_of_lt (splits pair isPair).1
            obtain ⟨split, isSplit, below⟩ := derivePartitionMapping_bound positive derived found
            rw [zip_fst_snd] at isSplit
            have sameSplit := (splits _ isSplit).2
            dsimp only at sameSplit
            rw [splitAt] at sameSplit
            rw [Option.getD_some, ← sameSplit]
            exact below _
      obtain ⟨bound, below, evaluated⟩ := bounded
      rw [eval_of_ownerAtCore shared] at evaluated
      refine ⟨bound, below, ?_⟩
      rw [eval_of_ownerAtCore fusedAt, evaluated]
    next => cases selected

end Owner

end TorchSpyre.Ownership
