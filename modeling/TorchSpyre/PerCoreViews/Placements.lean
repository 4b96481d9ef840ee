import TorchSpyre.Ownership.CanonicalOwner
import TorchSpyre.PerCoreViews.Inverse

/-!
# What a representable view is made of

Without relayouts a representable view has one dimension for each host stride that is split, and
it is the dimension that the inverse would ask for.  Every forward view of positive splits can be
computed, and it is the same partition as itself.
-/

namespace TorchSpyre.PerCoreViews

open Lib Lib.Symbolic Lib.Positional Ownership

/-! ## Splits by stride -/

section Strides

variable {prep : ViewPrep} {splits : Dict Symbol ℕ}

/-- An entry comes from a loop that slices the buffer. -/
structure Slices (prep : ViewPrep) (splits : Dict Symbol ℕ) (entry : ℤ × ℕ × Symbol) : Prop where
  listed : entry.2.2 ∈ prep.iterSpace.keys
  stride : prep.hostStride entry.2.2 = entry.1
  moves : entry.1 ≠ 0
  split : prep.perSym splits entry.2.2 = entry.2.1
  large : 1 < entry.2.1

theorem addSplit_lookup {byStride : Dict ℤ (ℕ × Symbol)} {sym : Symbol} {stride : ℤ}
    {value : ℕ × Symbol} (found : (prep.addSplit splits byStride sym).lookup stride = some value)
    (listed : sym ∈ prep.iterSpace.keys) :
    Slices prep splits (stride, value) ∨ byStride.lookup stride = some value := by
  unfold ViewPrep.addSplit at found
  split at found
  next => exact .inr found
  next slicing =>
    rw [not_or, not_le] at slicing
    by_cases same : stride = prep.hostStride sym
    · subst same
      rw [Dict.lookup_set_self, Option.some.injEq] at found
      subst found
      exact .inl ⟨listed, rfl, slicing.2, rfl, slicing.1⟩
    · rw [Dict.lookup_set_of_ne _ same] at found
      exact .inr found

theorem addSplit_isSome {byStride : Dict ℤ (ℕ × Symbol)} {sym : Symbol} {stride : ℤ}
    (found : (byStride.lookup stride).isSome) :
    ((prep.addSplit splits byStride sym).lookup stride).isSome := by
  unfold ViewPrep.addSplit
  split
  next => exact found
  next =>
    by_cases same : stride = prep.hostStride sym
    · rw [same, Dict.lookup_set_self]
      rfl
    · rwa [Dict.lookup_set_of_ne _ same]

theorem slices_of_splitsByStride {entry : ℤ × ℕ × Symbol}
    (listed : entry ∈ (prep.splitsByStride splits).entries) : Slices prep splits entry := by
  have folded : ∀ (syms : List Symbol) (byStride : Dict ℤ (ℕ × Symbol)),
      (∀ sym ∈ syms, sym ∈ prep.iterSpace.keys) →
      (syms.foldl (prep.addSplit splits) byStride).lookup entry.1 = some entry.2 →
      Slices prep splits entry ∨ byStride.lookup entry.1 = some entry.2 := by
    intro syms
    induction syms with
    | nil => exact fun _ _ found => .inr found
    | cons sym syms inductionHypothesis =>
        intro byStride inside found
        rw [List.forall_mem_cons] at inside
        rcases inductionHypothesis _ inside.2 found with slices | earlier
        · exact .inl slices
        · exact addSplit_lookup earlier inside.1
  rcases folded _ Dict.empty (fun _ inside => inside) (Dict.lookup_eq_some_iff.mpr listed) with
    slices | none
  · exact slices
  · cases none

/-- A loop that slices the buffer has an entry at its stride. -/
theorem exists_splitsByStride {sym : Symbol} (listed : sym ∈ prep.iterSpace.keys)
    (large : 1 < prep.perSym splits sym) (moves : prep.hostStride sym ≠ 0) :
    ∃ value, (prep.hostStride sym, value) ∈ (prep.splitsByStride splits).entries := by
  have kept : ∀ (syms : List Symbol) (byStride : Dict ℤ (ℕ × Symbol)),
      (byStride.lookup (prep.hostStride sym)).isSome →
      ((syms.foldl (prep.addSplit splits) byStride).lookup (prep.hostStride sym)).isSome := by
    intro syms
    induction syms with
    | nil => exact fun _ found => found
    | cons other syms inductionHypothesis =>
        exact fun byStride found => inductionHypothesis _ (addSplit_isSome found)
  have folded : ∀ (syms : List Symbol) (byStride : Dict ℤ (ℕ × Symbol)), sym ∈ syms →
      ((syms.foldl (prep.addSplit splits) byStride).lookup (prep.hostStride sym)).isSome := by
    intro syms
    induction syms with
    | nil => exact fun _ inside => nomatch inside
    | cons other syms inductionHypothesis =>
        intro byStride inside
        rcases List.mem_cons.mp inside with rfl | later
        · apply kept syms
          have slicing : ¬(prep.perSym splits sym ≤ 1 ∨ prep.hostStride sym = 0) := by
            rw [not_or, not_le]
            exact ⟨large, moves⟩
          unfold ViewPrep.addSplit
          rw [if_neg slicing, Dict.lookup_set_self]
          rfl
        · exact inductionHypothesis _ later
  obtain ⟨value, found⟩ := Option.isSome_iff_exists.mp (folded _ Dict.empty listed)
  exact ⟨value, Dict.lookup_eq_some_iff.mp found⟩

end Strides

/-! ## Placing without relayouts -/

/-- A placement that the inverse would ask for. -/
def Serves (prep : ViewPrep) (entry : ℤ × ℕ × Symbol) (pair : ℕ × ℕ) : Prop :=
  ∃ multiplier, 0 < multiplier ∧ viewPlacement prep entry.1 = some (pair.1, multiplier) ∧
    pair.2 = entry.2.1 * multiplier

section Placing

variable {config : ViewConfig} {sympy : Sympy} {concretize : Expr → ℕ} {prep : ViewPrep}
  {splits : Dict Symbol ℕ} {mapping : Except OwnershipError (Option (List (Symbol × Expr)))}
  {numCores : ℕ} (disabled : config.lxPlannerRelayout = false)

include disabled in
theorem repackedDim_disabled (sym : Symbol) (split : ℕ) (dim : Option ℕ) :
    repackedDim config sympy prep splits sym split dim = dim := by
  rw [repackedDim, if_neg]
  rintro ⟨-, enabled, -⟩
  rw [disabled] at enabled
  cases enabled

include disabled in
theorem decomposeSplit_disabled (placed : Placed) (factor : ℕ) (sym : Symbol) :
    decomposeSplit config sympy prep splits mapping numCores placed factor sym = .ok none := by
  rw [decomposeSplit, disabled, Bool.not_false, if_pos rfl]

/-- A direct dimension, or the stick count reached in several sticks. -/
theorem serves_of_rescued {stride : ℤ} {split : ℕ} {sym : Symbol} (moves : stride ≠ 0)
    (large : 1 < split) {dim factor : ℕ}
    (proposed : rescued prep stride split (prep.directDim stride) = (some dim, factor)) :
    Serves prep (stride, split, sym) (dim, factor) := by
  unfold rescued at proposed
  split at proposed
  next covering =>
    obtain ⟨missing, positive, divides, covers⟩ := covering
    rw [Prod.mk.injEq] at proposed
    obtain ⟨counted, rfl⟩ := proposed
    have whole : stride / prep.numStickStride * prep.numStickStride = stride :=
      Int.ediv_mul_cancel (Int.dvd_of_emod_eq_zero divides)
    have notOne : stride / prep.numStickStride ≠ 1 := by
      intro single
      rw [single, one_mul] at whole
      have direct := prep.directDim_numStickStride counted
      rw [whole, missing] at direct
      cases direct
    have notZero : stride / prep.numStickStride ≠ 0 := by
      intro zero
      rw [zero, zero_mul] at whole
      exact moves whole.symm
    have nonnegative : 0 ≤ stride / prep.numStickStride := by
      have counts : (0 : ℤ) ≤ split * (stride / prep.numStickStride) := by
        rw [covers]
        exact Int.natCast_nonneg _
      exact nonneg_of_mul_nonneg_right counts (by exact_mod_cast Nat.zero_lt_of_lt large)
    have several : 1 < stride / prep.numStickStride := by omega
    refine ⟨(stride / prep.numStickStride).toNat, by omega, ?_, ?_⟩
    · rw [viewPlacement, missing]
      dsimp only
      rw [if_pos ⟨positive, divides⟩, counted]
      dsimp only
      rw [if_pos several]
    · rw [Int.toNat_mul (Int.natCast_nonneg _) nonnegative, Int.toNat_natCast]
  next =>
    rw [Prod.mk.injEq] at proposed
    obtain ⟨direct, rfl⟩ := proposed
    exact ⟨1, Nat.one_pos, by rw [viewPlacement, direct], (Nat.mul_one _).symm⟩

include disabled in
theorem placeSplit_eq (placed : Placed) {stride : ℤ} {split : ℕ} {sym : Symbol}
    (moves : stride ≠ 0) (large : 1 < split) :
    placeSplit config sympy concretize prep splits mapping numCores placed (stride, split, sym) =
        .ok none ∨
      ∃ pair, Serves prep (stride, split, sym) pair ∧
        pair.1 ∉ placed.workSliceDims.map Prod.fst ∧
        placeSplit config sympy concretize prep splits mapping numCores placed (stride, split, sym) =
          .ok (some { placed with
            workSliceDims := placed.workSliceDims ++ [pair]
            symToDeviceDim := placed.symToDeviceDim ++ [(sym, pair.1)] }) := by
  simp only [placeSplit]
  split
  next => exact .inl rfl
  next =>
    split
    next => exact .inl (decomposeSplit_disabled disabled _ _ _)
    next dim factor proposed =>
      split
      next => exact .inl rfl
      next =>
        split
        next => exact .inl (decomposeSplit_disabled disabled _ _ _)
        next fits =>
          rw [not_or] at fits
          right
          refine ⟨(dim, factor), ?_, fits.1, rfl⟩
          simp only [proposedDim, repackedDim_disabled disabled, Prod.mk.injEq,
            Option.filter_eq_some_iff] at proposed
          apply serves_of_rescued moves large
          exact Prod.ext proposed.1.1 proposed.2

/-- The placement of all entries: one dimension each, all of them new. -/
theorem placeSplits_eq (disabled : config.lxPlannerRelayout = false)
    {entries : List (ℤ × ℕ × Symbol)} (slices : ∀ entry ∈ entries, Slices prep splits entry)
    (placed : Placed) (distinct : (placed.workSliceDims.map Prod.fst).Nodup) :
    placeSplits config sympy concretize prep splits mapping numCores placed entries = .ok none ∨
      ∃ pairs, List.Forall₂ (Serves prep) entries pairs ∧
        ((placed.workSliceDims ++ pairs).map Prod.fst).Nodup ∧
        placeSplits config sympy concretize prep splits mapping numCores placed entries =
          .ok (some { placed with
            workSliceDims := placed.workSliceDims ++ pairs
            symToDeviceDim := placed.symToDeviceDim ++
              List.zipWith (fun entry pair => (entry.2.2, pair.1)) entries pairs }) := by
  induction entries generalizing placed with
  | nil =>
      refine .inr ⟨[], .nil, by rwa [List.append_nil], ?_⟩
      simp [placeSplits]
  | cons entry entries inductionHypothesis =>
      obtain ⟨stride, split, sym⟩ := entry
      rw [List.forall_mem_cons] at slices
      rw [placeSplits]
      have step := @placeSplit_eq config sympy concretize prep splits mapping numCores disabled placed
        stride split sym slices.1.moves slices.1.large
      rcases step with stuck | ⟨pair, serves, fresh, stepped⟩
      · left
        rw [stuck]
        rfl
      · rw [stepped]
        have grown : ((placed.workSliceDims ++ [pair]).map Prod.fst).Nodup := by
          rw [List.map_append, List.nodup_append]
          refine ⟨distinct, List.nodup_singleton _, ?_⟩
          intro dim isDim other isOther same
          rw [List.map_singleton, List.mem_singleton] at isOther
          exact fresh (isOther ▸ same ▸ isDim)
        rcases inductionHypothesis slices.2 { placed with
            workSliceDims := placed.workSliceDims ++ [pair]
            symToDeviceDim := placed.symToDeviceDim ++ [(sym, pair.1)] } grown with stuck | ⟨pairs, served, allDistinct, run⟩
        · exact .inl stuck
        · right
          refine ⟨pair :: pairs, .cons serves served, ?_, ?_⟩
          · rwa [List.append_assoc] at allDistinct
          · simp only [List.append_assoc, List.singleton_append] at run
            exact run

end Placing

/-! ## Owner formulas -/

/-- A formula with an integer slot on every core. -/
def Evaluates (formula : Expr) : Prop := ∀ core, ∃ slot, ownerAtCore formula core = some slot

theorem sliceFormulas_evaluate {order : List (Symbol × ℕ)} (positive : ∀ entry ∈ order, 0 < entry.2)
    {sym : Symbol} (listed : sym ∈ order.map Prod.fst) :
    ∃ formula, (sliceFormulas 1 order).lookup sym = some formula ∧ Evaluates formula := by
  obtain ⟨formula, found, onlyCore, digit⟩ := sliceFormulas_follows positive 1 listed
  refine ⟨formula, found, ?_⟩
  intro core
  exact ⟨_, Expr.integerAt_of_nat onlyCore (digit fun _ => core)⟩

theorem coreMappingsEqual_self {mapping : List (ℕ × Expr)} {numCores : ℕ} (positive : 0 < numCores)
    (evaluates : ∀ entry ∈ mapping, mapping.lookup entry.1 = some entry.2 ∧ Evaluates entry.2) :
    coreMappingsEqual mapping mapping numCores = true := by
  have keys : (mapping.all fun entry => (mapping.map Prod.fst).contains entry.1) = true := by
    rw [List.all_eq_true]
    intro entry listed
    exact List.contains_iff_mem.mpr (List.mem_map_of_mem listed)
  rw [coreMappingsEqual, keys, decide_eq_true positive, Bool.true_and, Bool.true_and, Bool.true_and,
    List.all_eq_true]
  intro entry listed
  rw [List.all_eq_true]
  intro core _
  obtain ⟨found, owned⟩ := evaluates entry listed
  obtain ⟨slot, isSlot⟩ := owned core
  simp only [isSlot, found, Option.bind_some, decide_true]

theorem lookup_filterMap_lookup {splits : List (ℕ × ℕ)} {slots : List (ℕ × Expr)} {dim : ℕ}
    {formula : Expr} (found : slots.lookup dim = some formula) (listed : dim ∈ splits.map Prod.fst) :
    (splits.filterMap fun entry => (slots.lookup entry.1).map (entry.1, ·)).lookup dim =
      some formula := by
  induction splits with
  | nil => cases listed
  | cons entry splits inductionHypothesis =>
      by_cases same : dim = entry.1
      · subst same
        rw [List.filterMap_cons, found, Option.map_some]
        exact List.lookup_cons_self
      · have later : dim ∈ splits.map Prod.fst := (List.mem_cons.mp listed).resolve_left same
        rw [List.filterMap_cons]
        cases slots.lookup entry.1 with
        | none => exact inductionHypothesis later
        | some other =>
            rw [Option.map_some, List.lookup_cons, beq_false_of_ne same]
            exact inductionHypothesis later

theorem sameOwnerMaps_self {splits : List (ℕ × ℕ)} {slots : List (ℕ × Expr)} {numCores : ℕ}
    (positive : 0 < numCores)
    (owned : ∀ dim ∈ splits.map Prod.fst, ∃ formula, slots.lookup dim = some formula ∧
      Evaluates formula) :
    sameOwnerMaps splits slots numCores splits slots numCores = true := by
  have present : ∀ entry ∈ splits.filter fun entry => 1 < entry.2,
      ∃ formula, slots.lookup entry.1 = some formula ∧ Evaluates formula := by
    intro entry listed
    exact owned entry.1 (List.mem_map_of_mem (List.mem_filter.mp listed).1)
  simp only [sameOwnerMaps]
  generalize splits.filter (fun entry => decide (1 < entry.2)) = split at present ⊢
  have contains : (split.all fun entry => split.contains entry) = true := by
    rw [List.all_eq_true]
    exact fun entry listed => List.contains_iff_mem.mpr listed
  have none : ¬(split.any fun entry => (slots.lookup entry.1).isNone) = true := by
    rw [List.any_eq_true]
    rintro ⟨entry, listed, missing⟩
    obtain ⟨formula, found, -⟩ := present entry listed
    rw [found] at missing
    cases missing
  rw [if_neg (by omega), contains]
  split
  next => rfl
  next =>
    rw [if_neg (by decide), if_neg (by simpa using none)]
    apply coreMappingsEqual_self positive
    intro entry listed
    obtain ⟨source, isSource, kept⟩ := List.mem_filterMap.mp listed
    obtain ⟨formula, found, owns⟩ := present source isSource
    rw [found, Option.map_some, Option.some.injEq] at kept
    subst kept
    exact ⟨lookup_filterMap_lookup found (List.mem_map_of_mem isSource), owns⟩

/-- A view with an owner formula for each dimension is the same partition as itself. -/
theorem samePartition_self {view : PerCoreView} {numCores : ℕ} (positive : 0 < numCores)
    (cores : view.numCores = some numCores)
    (owned : ∀ dim ∈ view.workSliceDims.map Prod.fst, ∃ formula,
      view.coreToSlot.lookup dim = some formula ∧ Evaluates formula) :
    samePartition view view = true := by
  rw [samePartition, cores, Option.getD_some]
  exact sameOwnerMaps_self positive owned

/-! ## Whole divisions -/

/-- A positive split for each loop. -/
structure WholeDivision (prep : ViewPrep) (splits : Dict Symbol ℕ) : Prop where
  keys : splits.keys = prep.iterSpace.keys
  positive : ∀ sym split, splits.lookup sym = some split → 0 < split

section Whole

variable {config : ViewConfig} {sympy : Sympy} {concretize : Expr → ℕ} {prep : ViewPrep}
  {splits : Dict Symbol ℕ} (whole : WholeDivision prep splits)

include whole in
theorem WholeDivision.lookup_eq {sym : Symbol} (listed : sym ∈ prep.iterSpace.keys) :
    splits.lookup sym = some (prep.perSym splits sym) := by
  obtain ⟨split, found⟩ := Option.isSome_iff_exists.mp
    (Dict.lookup_isSome_iff.mpr (whole.keys ▸ listed))
  rw [ViewPrep.perSym, if_pos listed, found, Option.getD_some]

include whole in
theorem WholeDivision.values_eq :
    splits.values = prep.iterSpace.keys.map (prep.perSym splits) := by
  have same : splits = prep.iterSpace.tabulate (prep.perSym splits) := by
    apply Dict.ext_of_lookup
    · rw [Dict.keys_tabulate, whole.keys]
    · intro sym listed
      rw [whole.keys] at listed
      rw [Dict.lookup_tabulate listed, whole.lookup_eq listed]
  conv_lhs => rw [same]
  rw [Dict.values, Dict.tabulate, List.map_map, Dict.keys, List.map_map]
  rfl

include whole in
theorem WholeDivision.prod_pos : 0 < splits.values.prod := by
  apply List.prod_pos
  intro split listed
  obtain ⟨entry, isEntry, rfl⟩ := List.mem_map.mp listed
  exact whole.positive entry.1 entry.2 (Dict.lookup_eq_some_iff.mpr isEntry)

include whole in
/-- Every loop has an owner formula. -/
theorem WholeDivision.mapping :
    ∃ mapping, iterationCoreToSlot config prep splits none splits.values.prod = .ok (some mapping) ∧
      ∀ sym ∈ prep.iterSpace.keys, ∃ formula, mapping.lookup sym = some formula ∧
        Evaluates formula := by
  let pairs := prep.iterSpace.keys.map fun sym => (sym, prep.perSym splits sym)
  have positive : ∀ entry ∈ pairs, 0 < entry.2 := by
    intro entry isEntry
    obtain ⟨sym, listed, rfl⟩ := List.mem_map.mp isEntry
    exact whole.positive sym _ (whole.lookup_eq listed)
  have dims : pairs.map Prod.fst = prep.iterSpace.keys := by
    rw [List.map_map]
    exact List.map_id _
  have factors : pairs.map Prod.snd = prep.iterSpace.keys.map (prep.perSym splits) := by
    rw [List.map_map]
    rfl
  have cores : capacity pairs = splits.values.prod := by
    rw [capacity, factors, whole.values_eq]
  have mapped := @coreToSliceMapping_eq pairs (contiguousDim config prep)
  rw [dims, factors, cores] at mapped
  refine ⟨_, by rw [iterationCoreToSlot, mapped]; rfl, ?_⟩
  intro sym listed
  have moved := contiguousFirst_perm pairs (contiguousDim config prep)
  apply sliceFormulas_evaluate
  · intro entry isEntry
    exact positive entry (moved.mem_iff.mp isEntry)
  · rw [(moved.map Prod.fst).mem_iff, dims]
    exact listed

end Whole

/-! ## Views of whole divisions -/

theorem sortedByKey_perm {Key Value : Type} [LE Key] [DecidableLE Key]
    (entries : List (Key × Value)) : (sortedByKey entries).Perm entries :=
  List.perm_insertionSort _ entries

/-- A representable view: one dimension for each split stride, and the owner formulas. -/
structure Represents (prep : ViewPrep) (splits : Dict Symbol ℕ) (pairs : List (ℕ × ℕ))
    (view : PerCoreView) : Prop where
  served : List.Forall₂ (Serves prep) (sortedByKey (prep.splitsByStride splits).entries) pairs
  distinct : (pairs.map Prod.fst).Nodup
  dims : view.workSliceDims = sortedByKey pairs
  cores : view.numCores = some splits.values.prod
  owned : ∀ dim ∈ view.workSliceDims.map Prod.fst, ∃ formula,
    view.coreToSlot.lookup dim = some formula ∧ Evaluates formula

section Views

variable {config : ViewConfig} {sympy : Sympy} {concretize : Expr → ℕ} {prep : ViewPrep}
  {splits : Dict Symbol ℕ}

theorem splitsByStride_eq_empty (unsplit : ∀ sym ∈ prep.iterSpace.keys, prep.perSym splits sym ≤ 1) :
    (prep.splitsByStride splits).entries = [] := by
  apply List.eq_nil_iff_forall_not_mem.mpr
  intro entry listed
  have slices := slices_of_splitsByStride listed
  have small := unsplit _ slices.listed
  rw [slices.split] at small
  exact absurd slices.large small.not_gt

/-- The slots of the placed loops. -/
theorem exists_slot {mapping : List (Symbol × Expr)} {entries : List (ℤ × ℕ × Symbol)}
    {pairs : List (ℕ × ℕ)} (served : List.Forall₂ (Serves prep) entries pairs)
    (listed : ∀ entry ∈ entries, entry.2.2 ∈ prep.iterSpace.keys)
    (mapped : ∀ sym ∈ prep.iterSpace.keys, ∃ formula, mapping.lookup sym = some formula ∧
      Evaluates formula) {dim : ℕ} (isDim : dim ∈ pairs.map Prod.fst) :
    ∃ formula, (dim, formula) ∈
      (List.zipWith (fun (entry : ℤ × ℕ × Symbol) (pair : ℕ × ℕ) => (entry.2.2, pair.1)) entries
        pairs).filterMap (fun entry => (mapping.lookup entry.1).map (entry.2, ·)) ∧
      Evaluates formula := by
  induction served with
  | nil => cases isDim
  | @cons entry pair entries pairs _ _ inductionHypothesis =>
      rw [List.forall_mem_cons] at listed
      obtain ⟨formula, found, evaluates⟩ := mapped _ listed.1
      rw [List.zipWith_cons_cons, List.filterMap_cons, found, Option.map_some]
      rcases List.mem_cons.mp isDim with rfl | later
      · exact ⟨formula, List.mem_cons_self, evaluates⟩
      · obtain ⟨other, inside, otherEvaluates⟩ := inductionHypothesis listed.2 later
        exact ⟨other, List.mem_cons_of_mem _ inside, otherEvaluates⟩

theorem map_fst_slots {mapping : List (Symbol × Expr)} {entries : List (ℤ × ℕ × Symbol)}
    {pairs : List (ℕ × ℕ)} (served : List.Forall₂ (Serves prep) entries pairs)
    (listed : ∀ entry ∈ entries, entry.2.2 ∈ prep.iterSpace.keys)
    (mapped : ∀ sym ∈ prep.iterSpace.keys, ∃ formula, mapping.lookup sym = some formula ∧
      Evaluates formula) :
    ((List.zipWith (fun (entry : ℤ × ℕ × Symbol) (pair : ℕ × ℕ) => (entry.2.2, pair.1)) entries
      pairs).filterMap (fun entry => (mapping.lookup entry.1).map (entry.2, ·))).map Prod.fst =
      pairs.map Prod.fst := by
  induction served with
  | nil => rfl
  | cons _ _ inductionHypothesis =>
      rw [List.forall_mem_cons] at listed
      obtain ⟨formula, found, -⟩ := mapped _ listed.1
      rw [List.zipWith_cons_cons, List.filterMap_cons, found, Option.map_some, List.map_cons,
        List.map_cons, inductionHypothesis listed.2]

/-- The forward map of a whole division returns, and a representable view has its placements. -/
theorem perCoreViewFromPrep_cases (disabled : config.lxPlannerRelayout = false)
    (whole : WholeDivision prep splits) :
    ∃ view flag representable,
      perCoreViewFromPrep config sympy concretize (some prep) splits Dict.empty none =
        .ok (view, flag, representable) ∧
      (representable = true → ∃ pairs, Represents prep splits pairs view) := by
  obtain ⟨mapping, mapped, evaluates⟩ := @WholeDivision.mapping config prep splits whole
  unfold perCoreViewFromPrep
  dsimp only [Option.elim_none]
  split
  next unsplit =>
    refine ⟨_, _, _, rfl, fun _ => ⟨[], ?_, List.nodup_nil, rfl, rfl, fun dim isDim => nomatch isDim⟩⟩
    rw [splitsByStride_eq_empty]
    · exact .nil
    · intro sym listed
      by_contra large
      rw [not_le] at large
      have isValue : prep.perSym splits sym ∈ splits.values :=
        Dict.mem_values (whole.lookup_eq listed)
      have some : splits.values.any (1 < ·) = true :=
        List.any_eq_true.mpr ⟨_, isValue, decide_eq_true large⟩
      rw [some] at unsplit
      cases unsplit
  next =>
    have entries := sortedByKey_perm (prep.splitsByStride splits).entries
    have slices : ∀ entry ∈ sortedByKey (prep.splitsByStride splits).entries,
        Slices prep splits entry :=
      fun entry listed => slices_of_splitsByStride (entries.mem_iff.mp listed)
    rw [mapped]
    rcases @placeSplits_eq config sympy concretize prep splits (.ok (some mapping))
        splits.values.prod disabled _ slices ⟨[], [], []⟩ List.nodup_nil with
      stuck | ⟨pairs, served, distinct, run⟩
    · rw [stuck]
      exact ⟨_, _, _, rfl, fun impossible => nomatch impossible⟩
    · rw [run]
      refine ⟨_, _, _, rfl, fun _ => ⟨pairs, served, distinct, rfl, rfl, ?_⟩⟩
      intro dim isDim
      have inPairs : dim ∈ pairs.map Prod.fst :=
        ((sortedByKey_perm pairs).map Prod.fst).mem_iff.mp isDim
      have listed := fun entry isEntry => (slices entry isEntry).listed
      obtain ⟨formula, isSlot, owns⟩ := exists_slot served listed evaluates inPairs
      refine ⟨formula, ?_, owns⟩
      dsimp only
      rw [List.nil_append, List.append_nil]
      apply lookup_of_mem
      · rw [((sortedByKey_perm _).map Prod.fst).nodup_iff, map_fst_slots served listed evaluates]
        exact distinct
      · exact (sortedByKey_perm _).mem_iff.mpr isSlot

theorem Represents.samePartition_self {pairs : List (ℕ × ℕ)} {view : PerCoreView}
    (represents : Represents prep splits pairs view) (whole : WholeDivision prep splits) :
    samePartition view view = true :=
  PerCoreViews.samePartition_self whole.prod_pos represents.cores represents.owned

end Views

end TorchSpyre.PerCoreViews
