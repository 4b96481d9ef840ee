import Mathlib
import TorchSpyre.Lib.NestedSteps
import TorchSpyre.Lib.Slice
import TorchSpyre.OverlappingWindows.Domains

/-!
# Reads of one core

Whatever factors are taken from the domains, a nested coordinate has different values at
different points of one core's block: a window is either cut to its place in the coordinate, or
everything outside it has one value on the core.
-/

namespace TorchSpyre.OverlappingWindows

open Lib Lib.Symbolic Lib.NestedSteps SplitPlanning WorkDivConstraintContext

/-! ## Folds that only go one way -/

/-- A fold goes from its start to its end, and every item is on the way. -/
theorem foldlM_reaches {State Item : Type} {related : State → State → Prop}
    {step : State → Item → Except WindowError State} (refl : ∀ state, related state state)
    (trans : ∀ {first second third}, related first second → related second third →
      related first third)
    (forward : ∀ {state item next}, step state item = .ok next → related state next)
    {items : List Item} {start final : State} (run : items.foldlM step start = .ok final) :
    related start final ∧
      ∀ item ∈ items, ∃ before after, step before item = .ok after ∧ related after final := by
  induction items generalizing start with
  | nil =>
      cases run
      exact ⟨refl _, fun item listed => nomatch listed⟩
  | cons item items inductionHypothesis =>
      rw [List.foldlM_cons] at run
      obtain ⟨next, stepped, run⟩ := bind_eq_ok_iff.mp run
      obtain ⟨later, visited⟩ := inductionHypothesis run
      refine ⟨trans (forward stepped) later, ?_⟩
      rw [List.forall_mem_cons]
      exact ⟨⟨start, next, stepped, later⟩, visited⟩

/-! ## Nested coordinates -/

/-- A coordinate with positive steps, of which the smaller ones divide the larger ones. -/
structure NestedCoordinate (ranges : Dict Symbol ℕ) (coordinate : Expr) : Prop where
  affine : ∀ entry ∈ coordinate.coefficients, ∃ (var : Symbol) (step extent : ℕ),
    entry = (.sym var, (step : ℚ)) ∧ 0 < step ∧ ranges.lookup var = some extent
  nested : ∀ (var other : Symbol) (step otherStep extent otherExtent : ℕ),
    (.sym var, (step : ℚ)) ∈ coordinate.coefficients →
    (.sym other, (otherStep : ℚ)) ∈ coordinate.coefficients →
    ranges.lookup var = some extent → 1 < extent →
    ranges.lookup other = some otherExtent → 1 < otherExtent →
    step ≤ otherStep → step ∣ otherStep

theorem truncated_natCast (step : ℕ) : truncated step = step := by
  rw [truncated, Rat.num_natCast, Rat.den_natCast, Nat.div_one, Int.toNat_natCast]

theorem affineTerm?_sym {ranges : Dict Symbol ℕ} {var : Symbol} {step extent : ℕ}
    (positive : 0 < step) (found : ranges.lookup var = some extent) :
    affineTerm? ranges (.sym var, (step : ℚ)) = some ⟨step, extent, var⟩ := by
  have large : ¬(step : ℚ) ≤ 0 := by exact_mod_cast positive.not_ge
  simp only [affineTerm?, found, if_neg large, truncated_natCast]

/-- The terms of a nested coordinate, innermost first. -/
structure Terms (ranges : Dict Symbol ℕ) (coordinate : Expr) (terms : List AffineTerm) : Prop where
  ordered : orderedAffineCoordinateTerms coordinate ranges = some terms
  listed : ∀ term, term ∈ terms ↔ 1 < term.extent ∧ ranges.lookup term.var = some term.extent ∧
    (.sym term.var, (term.step : ℚ)) ∈ coordinate.coefficients
  positive : ∀ term ∈ terms, 0 < term.step
  sorted : terms.Pairwise fun inner outer => inner.step ∣ outer.step
  distinct : (terms.map AffineTerm.var).Nodup
  value : ∀ first second : Point,
    (∀ var ∈ coordinate.freeSymbols, ∀ extent, ranges.lookup var = some extent → extent ≤ 1 →
      first var = second var) →
    coordinate.eval first = coordinate.eval second →
    (terms.map fun term => (term.step : ℤ) * first term.var).sum =
      (terms.map fun term => (term.step : ℤ) * second term.var).sum

section Ordered

variable {ranges : Dict Symbol ℕ} {coordinate : Expr}

/-- The entries of the dictionary as terms. -/
theorem NestedCoordinate.exists_terms (nested : NestedCoordinate ranges coordinate) :
    ∃ all, coordinate.coefficients.mapM (affineTerm? ranges) = some all ∧
      List.Forall₂ (fun entry (term : AffineTerm) => entry = (.sym term.var, (term.step : ℚ)) ∧
        0 < term.step ∧ ranges.lookup term.var = some term.extent) coordinate.coefficients all := by
  have affine := nested.affine
  clear nested
  generalize coordinate.coefficients = entries at affine ⊢
  induction entries with
  | nil => exact ⟨[], rfl, .nil⟩
  | cons entry entries inductionHypothesis =>
      rw [List.forall_mem_cons] at affine
      obtain ⟨⟨var, step, extent, rfl, positive, found⟩, affine⟩ := affine
      obtain ⟨all, mapped, related⟩ := inductionHypothesis affine
      refine ⟨⟨step, extent, var⟩ :: all, ?_, .cons ⟨rfl, positive, found⟩ related⟩
      rw [List.mapM_cons, affineTerm?_sym positive found, mapped]
      rfl

instance : Std.Total AffineTerm.before where
  total first second := by
    have names := String.le_total first.var second.var
    grind [AffineTerm.before]

instance : IsTrans AffineTerm AffineTerm.before where
  trans first second third left right := by
    have names : first.var ≤ second.var → second.var ≤ third.var → first.var ≤ third.var :=
      String.le_trans
    grind [AffineTerm.before]

theorem step_le_of_before {first second : AffineTerm} (before : first.before second) :
    first.step ≤ second.step := by
  rw [AffineTerm.before] at before
  omega

theorem sum_entries {entries : List (Expr × ℚ)} {all : List AffineTerm}
    (related : List.Forall₂ (fun entry (term : AffineTerm) =>
      entry = (.sym term.var, (term.step : ℚ)) ∧ 0 < term.step ∧
        ranges.lookup term.var = some term.extent) entries all) (point : Point) :
    (entries.map fun entry => entry.2 * entry.1.eval point).sum =
      (((all.map fun term => (term.step : ℤ) * point term.var).sum : ℤ) : ℚ) := by
  induction related with
  | nil => rfl
  | cons here _ inductionHypothesis =>
      rw [List.map_cons, List.sum_cons, inductionHypothesis, List.map_cons, List.sum_cons, here.1]
      push_cast
      rfl

/-- The variables that do not move leave the sum alone. -/
theorem sum_moving {all : List AffineTerm} {first second : Point}
    (still : ∀ term ∈ all, ¬1 < term.extent → first term.var = second term.var)
    (same : (all.map fun term => (term.step : ℤ) * first term.var).sum =
      (all.map fun term => (term.step : ℤ) * second term.var).sum) :
    ((all.filter fun term => 1 < term.extent).map fun term => (term.step : ℤ) * first term.var).sum =
      ((all.filter fun term => 1 < term.extent).map fun term =>
        (term.step : ℤ) * second term.var).sum := by
  have difference :
      ((all.filter fun term => 1 < term.extent).map fun term =>
          (term.step : ℤ) * first term.var).sum -
        ((all.filter fun term => 1 < term.extent).map fun term =>
          (term.step : ℤ) * second term.var).sum =
      (all.map fun term => (term.step : ℤ) * first term.var).sum -
        (all.map fun term => (term.step : ℤ) * second term.var).sum := by
    clear same
    induction all with
    | nil => rfl
    | cons term all inductionHypothesis =>
        rw [List.forall_mem_cons] at still
        rw [List.filter_cons]
        have rest := inductionHypothesis still.2
        split
        next =>
          simp only [List.map_cons, List.sum_cons]
          linarith
        next fixed =>
          simp only [List.map_cons, List.sum_cons, still.1 (by simpa using fixed)]
          linarith
  linarith

theorem NestedCoordinate.terms (nested : NestedCoordinate ranges coordinate) :
    ∃ terms, Terms ranges coordinate terms := by
  obtain ⟨all, mapped, related⟩ := nested.exists_terms
  have perm := List.perm_insertionSort AffineTerm.before (all.filter fun term => 1 < term.extent)
  have listed : ∀ term, term ∈ (all.filter fun term => 1 < term.extent).insertionSort
      AffineTerm.before ↔ 1 < term.extent ∧ ranges.lookup term.var = some term.extent ∧
        (.sym term.var, (term.step : ℚ)) ∈ coordinate.coefficients := by
    intro term
    rw [perm.mem_iff, List.mem_filter, decide_eq_true_eq, and_comm]
    apply and_congr_right
    intro _
    constructor
    · intro isTerm
      obtain ⟨entry, isEntry, rfl, -, found⟩ := exists_left_of_forall₂ related isTerm
      exact ⟨found, isEntry⟩
    · rintro ⟨found, isEntry⟩
      obtain ⟨other, isOther, same, -, otherFound⟩ := exists_right_of_forall₂ related isEntry
      simp only [Prod.mk.injEq, Expr.sym.injEq, Nat.cast_inj] at same
      rw [← same.1, found, Option.some.injEq] at otherFound
      have equal : term = other := by
        cases term
        cases other
        simp_all
      exact equal ▸ isOther
  refine ⟨_, by rw [orderedAffineCoordinateTerms, mapped]; rfl, listed, ?_, ?_, ?_, ?_⟩
  · intro term isTerm
    obtain ⟨-, -, isEntry⟩ := (listed term).mp isTerm
    obtain ⟨var, step, extent, same, positive, -⟩ := nested.affine _ isEntry
    simp only [Prod.mk.injEq, Nat.cast_inj] at same
    exact same.2 ▸ positive
  · have sorted := List.pairwise_insertionSort AffineTerm.before
      (all.filter fun term => 1 < term.extent)
    apply sorted.imp_of_mem
    intro inner outer isInner isOuter before
    obtain ⟨innerMoves, innerFound, innerEntry⟩ := (listed inner).mp isInner
    obtain ⟨outerMoves, outerFound, outerEntry⟩ := (listed outer).mp isOuter
    exact nested.nested _ _ _ _ _ _ innerEntry outerEntry innerFound innerMoves outerFound
      outerMoves (step_le_of_before before)
  · rw [(perm.map _).nodup_iff]
    have keys : (all.map fun term => Expr.sym term.var) = coordinate.coefficients.map Prod.fst := by
      symm
      apply List.forall₂_eq_eq_eq ▸ List.forall₂_map_left_iff.mpr (List.forall₂_map_right_iff.mpr _)
      refine related.imp ?_
      rintro entry term ⟨rfl, -, -⟩
      rfl
    have distinct : (all.map AffineTerm.var).Nodup := by
      apply List.Nodup.of_map Expr.sym
      rw [List.map_map]
      exact keys ▸ coordinate.nodup_coefficients
    exact distinct.sublist (List.filter_sublist.map _)
  · intro first second still same
    have difference := coordinate.eval_sub_eval first second
    rw [same, sub_self, sum_entries related, sum_entries related, ← Int.cast_sub] at difference
    rw [(perm.map _).sum_eq, (perm.map _).sum_eq]
    apply sum_moving
    · intro term isTerm fixed
      obtain ⟨entry, isEntry, rfl, -, found⟩ := exists_left_of_forall₂ related isTerm
      exact still _ (Expr.mem_freeSymbols_of_coefficient isEntry (List.mem_singleton_self _)) _ found
        (not_lt.mp fixed)
    · exact sub_eq_zero.mp (by exact_mod_cast difference.symm)

end Ordered

/-! ## Overlaps of neighbours -/

/-- Between nested steps every variable that sweeps more than its size is found. -/
theorem overlapsFrom_found {terms : List AffineTerm} {overlaps : List Overlap}
    (positive : ∀ term ∈ terms, 0 < term.step)
    (sorted : terms.Pairwise fun inner outer => inner.step ∣ outer.step) :
    ∃ found, overlapsFrom overlaps terms = .ok found ∧ overlaps ⊆ found ∧
      ∀ front inner outer back, terms = front ++ inner :: outer :: back →
        outer.step / inner.step < inner.extent →
        ⟨inner.var, outer.step / inner.step, outer.var⟩ ∈ found := by
  induction terms generalizing overlaps with
  | nil => exact ⟨overlaps, rfl, List.Subset.refl _, fun front _ _ _ same => by simp at same⟩
  | cons inner terms inductionHypothesis =>
      cases terms with
      | nil =>
          refine ⟨overlaps, rfl, List.Subset.refl _, ?_⟩
          intro front first second back same
          have lengths := congrArg List.length same
          simp only [List.length_append, List.length_cons, List.length_nil] at lengths
          omega
      | cons outer terms =>
          rw [List.forall_mem_cons] at positive
          rw [List.pairwise_cons] at sorted
          have divides := sorted.1 outer List.mem_cons_self
          rw [overlapsFrom, if_neg positive.1.ne', if_neg (by simpa using Nat.mod_eq_zero_of_dvd divides)]
          dsimp only
          obtain ⟨found, run, kept, later⟩ := @inductionHypothesis
            (if outer.step / inner.step < inner.extent then
              overlaps ++ [⟨inner.var, outer.step / inner.step, outer.var⟩] else overlaps)
            positive.2 sorted.2
          refine ⟨found, run, ?_, ?_⟩
          · apply List.Subset.trans _ kept
            split
            next => exact List.subset_append_left _ _
            next => exact List.Subset.refl _
          · intro front first second back same sweeps
            cases front with
            | nil =>
                rw [List.nil_append, List.cons.injEq, List.cons.injEq] at same
                obtain ⟨rfl, rfl, rfl⟩ := same
                apply kept
                rw [if_pos sweeps]
                exact List.mem_append_right _ (List.mem_singleton_self _)
            | cons head front =>
                rw [List.cons_append, List.cons.injEq] at same
                exact later front first second back same.2 sweeps

/-! ## Restrictions only get tighter -/

namespace WorkDivConstraintContext

variable {ctx : WorkDivConstraintContext}

structure Tighter (loose tight : Restrictions) : Prop where
  caps : ∀ var cap, loose.caps.lookup var = some cap →
    ∃ smaller ≤ cap, tight.caps.lookup var = some smaller
  pinned : loose.pinned ⊆ tight.pinned

theorem Tighter.refl (restrictions : Restrictions) : Tighter restrictions restrictions :=
  ⟨fun _ cap found => ⟨cap, le_rfl, found⟩, List.Subset.refl _⟩

theorem Tighter.trans {first second third : Restrictions} (before : Tighter first second)
    (after : Tighter second third) : Tighter first third := by
  refine ⟨?_, List.Subset.trans before.pinned after.pinned⟩
  intro var cap found
  obtain ⟨middle, below, middleFound⟩ := before.caps var cap found
  obtain ⟨last, lower, lastFound⟩ := after.caps var middle middleFound
  exact ⟨last, lower.trans below, lastFound⟩

theorem restrictOverlap_eq_ok {axes : List (Axis × ℕ)} {axis : Axis × ℕ}
    {ordered : List AffineTerm} {before after : Restrictions} {overlap : Overlap}
    (stepped : ctx.restrictOverlap axes axis ordered before overlap = .ok after) :
    Tighter before after ∧ (∃ cap ≤ overlap.size, after.caps.lookup overlap.var = some cap) ∧
      (overlap.var ∈ ctx.reductionVars →
        ∀ later ∈ ctx.laterVars ordered overlap.var, later ∈ after.pinned) := by
  obtain ⟨-, stepped⟩ := of_guard stepped
  cases stepped
  refine ⟨⟨?_, ?_⟩, ⟨_, min_le_left _ _, Dict.lookup_set_self _ _ _⟩, ?_⟩
  · intro var cap found
    dsimp only
    by_cases same : var = overlap.var
    · subst same
      refine ⟨_, ?_, Dict.lookup_set_self _ _ _⟩
      rw [found, Option.getD_some]
      exact min_le_right _ _
    · rw [Dict.lookup_set_of_ne _ same]
      exact ⟨cap, le_rfl, found⟩
  · dsimp only
    split
    next =>
      intro var listed
      rw [List.mem_union_iff, List.mem_union_iff]
      exact .inl (.inl listed)
    next => exact List.Subset.refl _
  · intro reduced later listed
    dsimp only
    rw [if_pos reduced, List.mem_union_iff, List.mem_union_iff]
    exact .inl (.inr (List.mem_cons_of_mem _ listed))

/-- What the overlaps of an axis leave behind. -/
structure Restricts (ordered : List AffineTerm) (overlaps : List Overlap)
    (restrictions : Restrictions) : Prop where
  capped : ∀ overlap ∈ overlaps,
    ∃ cap ≤ overlap.size, restrictions.caps.lookup overlap.var = some cap
  pinned : ∀ overlap ∈ overlaps, overlap.var ∈ ctx.reductionVars →
    ∀ later ∈ ctx.laterVars ordered overlap.var, later ∈ restrictions.pinned

theorem Restricts.tighter {ordered : List AffineTerm} {overlaps : List Overlap}
    {loose tight : Restrictions} (restricts : ctx.Restricts ordered overlaps loose)
    (tighter : Tighter loose tight) : ctx.Restricts ordered overlaps tight := by
  constructor
  · intro overlap listed
    obtain ⟨cap, below, found⟩ := restricts.capped overlap listed
    obtain ⟨smaller, lower, isSmaller⟩ := tighter.caps _ _ found
    exact ⟨smaller, lower.trans below, isSmaller⟩
  · intro overlap listed reduced later isLater
    exact tighter.pinned (restricts.pinned overlap listed reduced later isLater)

theorem restrictAxis_eq_ok {axes : List (Axis × ℕ)} {before after : Restrictions}
    {axis : Axis × ℕ} (stepped : ctx.restrictAxis axes before axis = .ok after) :
    Tighter before after ∧ ∃ coordRanges overlaps,
      ctx.coordRanges axis.1.coordinate = .ok coordRanges ∧
      overlappingCoordinateExtents axis.1.coordinate coordRanges = .ok overlaps ∧
      ctx.Restricts ((orderedAffineCoordinateTerms axis.1.coordinate coordRanges).getD []) overlaps
        after := by
  obtain ⟨coordRanges, ranged, stepped⟩ := bind_eq_ok_iff.mp stepped
  obtain ⟨overlaps, found, stepped⟩ := bind_eq_ok_iff.mp stepped
  obtain ⟨tighter, visited⟩ := foldlM_reaches Tighter.refl Tighter.trans
    (fun stepped => (restrictOverlap_eq_ok stepped).1) stepped
  refine ⟨tighter, coordRanges, overlaps, ranged, found, ?_, ?_⟩
  · intro overlap listed
    obtain ⟨middle, next, reached, later⟩ := visited overlap listed
    obtain ⟨-, ⟨cap, below, isCap⟩, -⟩ := restrictOverlap_eq_ok reached
    obtain ⟨smaller, lower, isSmaller⟩ := later.caps _ _ isCap
    exact ⟨smaller, lower.trans below, isSmaller⟩
  · intro overlap listed reduced var isLater
    obtain ⟨middle, next, reached, later⟩ := visited overlap listed
    obtain ⟨-, -, pinned⟩ := restrictOverlap_eq_ok reached
    exact later.pinned (pinned reduced var isLater)

theorem restrictTensor_tighter {before after : Restrictions} {tensor : TensorDep}
    (stepped : ctx.restrictTensor before tensor = .ok after) : Tighter before after :=
  (foldlM_reaches Tighter.refl Tighter.trans (fun stepped => (restrictAxis_eq_ok stepped).1)
    stepped).1

/-- Every axis but the sticks has left its restrictions behind. -/
theorem restricts_of_run {start final : Restrictions}
    (run : ctx.inputTds.foldlM ctx.restrictTensor start = .ok final) {tensor : TensorDep}
    (isInput : tensor ∈ ctx.inputTds) {axis : Axis} (isAxis : axis ∈ tensor.axes.dropLast) :
    ∃ coordRanges overlaps, ctx.coordRanges axis.coordinate = .ok coordRanges ∧
      overlappingCoordinateExtents axis.coordinate coordRanges = .ok overlaps ∧
      ctx.Restricts ((orderedAffineCoordinateTerms axis.coordinate coordRanges).getD []) overlaps
        final := by
  obtain ⟨-, visited⟩ := foldlM_reaches Tighter.refl Tighter.trans restrictTensor_tighter run
  obtain ⟨before, after, reached, later⟩ := visited tensor isInput
  obtain ⟨-, visited⟩ := foldlM_reaches Tighter.refl Tighter.trans
    (fun stepped => (restrictAxis_eq_ok stepped).1) reached
  obtain ⟨index, inside, rfl⟩ := List.getElem_of_mem isAxis
  have listed : (tensor.axes.dropLast[index], index) ∈ tensor.axes.dropLast.zipIdx :=
    List.mk_mem_zipIdx_iff_getElem?.mpr (List.getElem?_eq_getElem inside)
  obtain ⟨middle, next, stepped, rest⟩ := visited _ listed
  obtain ⟨-, coordRanges, overlaps, ranged, found, restricts⟩ := restrictAxis_eq_ok stepped
  exact ⟨coordRanges, overlaps, ranged, found, restricts.tighter (rest.trans later)⟩

/-! ## Domains -/

theorem rangeOf_eq_ok {var : Symbol} {range : ℕ} (found : ctx.rangeOf var = .ok range) :
    ctx.ranges.lookup var = some range := by
  unfold rangeOf at found
  split at found
  next => cases found
  next isRange =>
    cases found
    exact isRange

theorem mem_capDomain {var : Symbol} {range size split : ℕ} :
    split ∈ ctx.capDomain var range size ↔ (0 < range ∧ split ∣ range) ∧
      (range / split ≤ size ∨ split = 1 ∧ var ∈ ctx.reductionVars) := by
  rw [capDomain, List.mem_toFinset, List.mem_filter, mem_divisors, decide_eq_true_eq]

theorem allowCap_run {entries : List (Symbol × ℕ)} {start final : Domains Symbol}
    (distinct : (entries.map Prod.fst).Nodup)
    (run : entries.foldlM ctx.allowCap start = .ok final) :
    (∀ var, var ∉ entries.map Prod.fst → final.lookup var = start.lookup var) ∧
      ∀ entry ∈ entries, ∃ range, ctx.ranges.lookup entry.1 = some range ∧
        final.lookup entry.1 = some (ctx.capDomain entry.1 range entry.2) := by
  induction entries generalizing start with
  | nil =>
      cases run
      exact ⟨fun _ _ => rfl, fun entry listed => nomatch listed⟩
  | cons entry entries inductionHypothesis =>
      rw [List.map_cons, List.nodup_cons] at distinct
      rw [List.foldlM_cons] at run
      obtain ⟨next, stepped, run⟩ := bind_eq_ok_iff.mp run
      obtain ⟨range, found, stepped⟩ := bind_eq_ok_iff.mp stepped
      cases stepped
      obtain ⟨kept, later⟩ := inductionHypothesis distinct.2 run
      constructor
      · intro var missing
        rw [List.map_cons, List.mem_cons, not_or] at missing
        rw [kept var missing.2, Dict.lookup_set_of_ne _ missing.1]
      · rw [List.forall_mem_cons]
        refine ⟨⟨range, rangeOf_eq_ok found, ?_⟩, later⟩
        rw [kept entry.1 distinct.1, Dict.lookup_set_self]

/-- Domains only lose factors. -/
def Narrower (wide narrow : Domains Symbol) : Prop :=
  ∀ var domain, wide.lookup var = some domain →
    ∃ smaller ⊆ domain, narrow.lookup var = some smaller

theorem Narrower.refl (domains : Domains Symbol) : Narrower domains domains :=
  fun _ domain found => ⟨domain, subset_rfl, found⟩

theorem Narrower.trans {first second third : Domains Symbol} (before : Narrower first second)
    (after : Narrower second third) : Narrower first third := by
  intro var domain found
  obtain ⟨middle, inside, middleFound⟩ := before var domain found
  obtain ⟨last, lower, lastFound⟩ := after var middle middleFound
  exact ⟨last, lower.trans inside, lastFound⟩

theorem allowPinned_eq_ok {before after : Domains Symbol} {var : Symbol}
    (stepped : ctx.allowPinned before var = .ok after) :
    Narrower before after ∧ ∃ range, ctx.ranges.lookup var = some range ∧
      ∃ domain ⊆ {range}, after.lookup var = some domain := by
  obtain ⟨range, found, stepped⟩ := bind_eq_ok_iff.mp stepped
  cases stepped
  refine ⟨?_, range, rangeOf_eq_ok found, _, Finset.inter_subset_right, Dict.lookup_set_self _ _ _⟩
  intro other domain isDomain
  by_cases same : other = var
  · subst same
    refine ⟨_, ?_, Dict.lookup_set_self _ _ _⟩
    rw [isDomain, Option.getD_some]
    exact Finset.inter_subset_left
  · rw [Dict.lookup_set_of_ne _ same]
    exact ⟨domain, subset_rfl, isDomain⟩

end WorkDivConstraintContext

/-- Factors taken from the domains. -/
def Chosen (domains : Domains Symbol) (split : Symbol → ℕ) : Prop :=
  ∀ var domain, domains.lookup var = some domain → split var ∈ domain

section Chosen

variable {ctx : WorkDivConstraintContext} {domains : Domains Symbol} {split : Symbol → ℕ}

/-- What the domains say of the factors taken from them. -/
theorem exists_restrictions (ordinary : ctx.ownWindows = false)
    (returned : overlappingWindowSplitDomains ctx = .ok domains) (chosen : Chosen domains split) :
    ∃ restrictions, ctx.inputTds.foldlM ctx.restrictTensor ⟨Dict.empty, []⟩ = .ok restrictions ∧
      (∀ var cap, restrictions.caps.lookup var = some cap → ∃ range,
        ctx.ranges.lookup var = some range ∧ split var ∈ ctx.capDomain var range cap) ∧
      ∀ var ∈ restrictions.pinned, ctx.ranges.lookup var = some (split var) := by
  rw [overlappingWindowSplitDomains, if_neg (by simp [ordinary])] at returned
  obtain ⟨restrictions, run, returned⟩ := bind_eq_ok_iff.mp returned
  obtain ⟨allowed, capped, pinned⟩ := bind_eq_ok_iff.mp returned
  obtain ⟨narrower, visited⟩ := foldlM_reaches Narrower.refl Narrower.trans
    (fun stepped => (allowPinned_eq_ok stepped).1) pinned
  refine ⟨restrictions, run, ?_, ?_⟩
  · intro var cap isCap
    obtain ⟨range, isRange, domain⟩ :=
      (allowCap_run restrictions.caps.distinct capped).2 _ (Dict.lookup_eq_some_iff.mp isCap)
    obtain ⟨smaller, inside, isDomain⟩ := narrower var _ domain
    exact ⟨range, isRange, inside (chosen var smaller isDomain)⟩
  · intro var listed
    obtain ⟨before, after, reached, later⟩ := visited var listed
    obtain ⟨-, range, isRange, domain, single, isDomain⟩ := allowPinned_eq_ok reached
    obtain ⟨smaller, inside, found⟩ := later var domain isDomain
    have isSplit := single (inside (chosen var smaller found))
    rw [Finset.mem_singleton.mp isSplit, isRange]

theorem coordRanges_of_concrete (concrete : ∀ entry ∈ ctx.itSpace.entries, entry.2.isSome)
    (coordinate : Expr) : ctx.coordRanges coordinate = .ok ctx.ranges := by
  rw [coordRanges, if_neg]
  intro symbolic
  obtain ⟨var, -, isSymbolic⟩ := List.any_eq_true.mp symbolic
  have listed := Dict.lookup_eq_some_iff.mp (of_decide_eq_true isSymbolic)
  exact absurd (concrete _ listed) Bool.false_ne_true

/-- The steps of one core. -/
def blockStep (split : Symbol → ℕ) (term : AffineTerm) : Step :=
  ⟨term.step, term.extent / split term.var⟩

theorem mem_laterVars {terms front back : List AffineTerm} {inner later : AffineTerm}
    (distinct : (terms.map AffineTerm.var).Nodup) (same : terms = front ++ inner :: back)
    (listed : later ∈ back) (ranged : (ctx.ranges.lookup later.var).isSome) :
    later.var ∈ ctx.laterVars terms inner.var := by
  subst same
  rw [List.map_append, List.map_cons] at distinct
  have apart : ∀ var ∈ front.map AffineTerm.var, decide (var ≠ inner.var) = true := by
    intro var isVar
    exact decide_eq_true ((List.nodup_append.mp distinct).2.2 var isVar _ List.mem_cons_self)
  rw [laterVars, List.mem_filter, List.map_append, List.map_cons, List.dropWhile_append_of_pos apart,
    List.dropWhile_cons_of_neg (by simp), List.drop_one, List.tail_cons]
  exact ⟨List.mem_map_of_mem listed, ranged⟩

/-- On one core the steps do not overlap. -/
theorem separated_of_restricts {coordinate : Expr} {terms : List AffineTerm}
    {restrictions : Restrictions} {overlaps : List Overlap}
    (isTerms : Terms ctx.ranges coordinate terms) (found : overlapsFrom [] terms = .ok overlaps)
    (restricts : ctx.Restricts terms overlaps restrictions)
    (capped : ∀ var cap, restrictions.caps.lookup var = some cap → ∃ range,
      ctx.ranges.lookup var = some range ∧ split var ∈ ctx.capDomain var range cap)
    (pinned : ∀ var ∈ restrictions.pinned, ctx.ranges.lookup var = some (split var)) :
    Separated (terms.map (blockStep split)) := by
  obtain ⟨all, run, -, sweeping⟩ := @overlapsFrom_found terms [] isTerms.positive isTerms.sorted
  rw [found, Except.ok.injEq] at run
  subst run
  have suffixes : ∀ suffix front, terms = front ++ suffix →
      Separated (suffix.map (blockStep split)) := by
    intro suffix
    induction suffix with
    | nil => exact fun _ _ => trivial
    | cons inner suffix inductionHypothesis =>
        intro front same
        have isInner : inner ∈ terms := same ▸ List.mem_append_right _ List.mem_cons_self
        obtain ⟨moves, ranged, -⟩ := (isTerms.listed inner).mp isInner
        refine ⟨isTerms.positive inner isInner, ?_,
          inductionHypothesis (front ++ [inner]) (by rw [same, List.append_cons])⟩
        cases suffix with
        | nil => exact .inl fun other listed => nomatch listed
        | cons outer back =>
            have sorted := same ▸ isTerms.sorted
            have divides : ∀ other ∈ outer :: back, inner.step ∣ other.step :=
              (List.pairwise_cons.mp (List.pairwise_append.mp sorted).2.1).1
            have outerDivides : ∀ other ∈ outer :: back, outer.step ∣ other.step := by
              have tail := (List.pairwise_cons.mp (List.pairwise_append.mp sorted).2.1).2
              rw [List.forall_mem_cons]
              exact ⟨dvd_rfl, (List.pairwise_cons.mp tail).1⟩
            have fits : ∀ extent, extent ≤ outer.step / inner.step →
                inner.step * extent ≤ outer.step := by
              intro extent below
              calc inner.step * extent ≤ inner.step * (outer.step / inner.step) :=
                    Nat.mul_le_mul_left _ below
                _ = outer.step := Nat.mul_div_cancel' (divides outer List.mem_cons_self)
            have modulus : inner.extent / split inner.var ≤ outer.step / inner.step →
                ∃ modulus : ℕ, (blockStep split inner).step * (blockStep split inner).extent ≤ modulus ∧
                  ∀ other ∈ (outer :: back).map (blockStep split), modulus ∣ other.step := by
              intro below
              refine ⟨outer.step, fits _ below, ?_⟩
              rw [List.forall_mem_map]
              exact outerDivides
            by_cases sweeps : outer.step / inner.step < inner.extent
            · have isOverlap := sweeping front inner outer back same sweeps
              obtain ⟨cap, below, isCap⟩ := restricts.capped _ isOverlap
              obtain ⟨range, isRange, isFactor⟩ := capped _ cap isCap
              rw [ranged, Option.some.injEq] at isRange
              subst isRange
              obtain ⟨-, narrow | ⟨whole, reduced⟩⟩ := mem_capDomain.mp isFactor
              · exact .inr (modulus (narrow.trans below))
              · left
                -- A reduced window that is whole on the core: what is outside is pinned.
                rw [List.forall_mem_map]
                intro later isLater
                have isTerm : later ∈ terms :=
                  same ▸ List.mem_append_right _ (List.mem_cons_of_mem _ isLater)
                obtain ⟨-, laterRange, -⟩ := (isTerms.listed later).mp isTerm
                have isPinned := restricts.pinned _ isOverlap reduced _
                  (mem_laterVars isTerms.distinct same isLater (by rw [laterRange]; rfl))
                have single := pinned _ isPinned
                rw [laterRange, Option.some.injEq] at single
                change later.extent / split later.var ≤ 1
                rw [single]
                exact Nat.div_le_of_le_mul (by rw [mul_one])
            · right
              apply modulus
              exact (Nat.div_le_self _ _).trans (not_lt.mp sweeps)
  exact suffixes terms [] rfl

/-- The point lies in the slots' blocks, on every variable of the coordinate. -/
def InBlock (ranges : Dict Symbol ℕ) (split : Symbol → ℕ) (slot : Symbol → ℤ) (coordinate : Expr)
    (point : Point) : Prop :=
  ∀ var ∈ coordinate.freeSymbols, ∀ extent, ranges.lookup var = some extent →
    InSlice (extent / split var : ℕ) (slot var) (point var)

theorem InBlock.apart {ranges : Dict Symbol ℕ} {slot : Symbol → ℤ} {coordinate : Expr}
    {first second : Point} (firstInside : InBlock ranges split slot coordinate first)
    (secondInside : InBlock ranges split slot coordinate second) {var : Symbol}
    (free : var ∈ coordinate.freeSymbols) {extent : ℕ} (found : ranges.lookup var = some extent) :
    |(first var : ℤ) - second var| < (extent / split var : ℕ) := by
  obtain ⟨firstAbove, firstBelow⟩ := firstInside var free extent found
  obtain ⟨secondAbove, secondBelow⟩ := secondInside var free extent found
  rw [add_one_mul] at firstBelow secondBelow
  rw [abs_lt]
  constructor <;> linarith

end Chosen

/-- Outside convolutions and pools, the reads of one core are injective along nested coordinates. -/
theorem overlappingWindowSplitDomains_injective (ctx : WorkDivConstraintContext)
    (concrete : ∀ entry ∈ ctx.itSpace.entries, entry.2.isSome) (ordinary : ctx.ownWindows = false)
    {domains : Domains Symbol} (returned : overlappingWindowSplitDomains ctx = .ok domains)
    {split : Symbol → ℕ} (chosen : Chosen domains split) {tensor : TensorDep}
    (isInput : tensor ∈ ctx.inputTds) {axis : Axis} (nonStick : axis ∈ tensor.axes.dropLast)
    (nested : NestedCoordinate ctx.ranges axis.coordinate) (slot : Symbol → ℤ) {first second : Point}
    (firstInside : InBlock ctx.ranges split slot axis.coordinate first)
    (secondInside : InBlock ctx.ranges split slot axis.coordinate second)
    (same : axis.coordinate.eval first = axis.coordinate.eval second) :
    ∀ var ∈ axis.coordinate.freeSymbols, first var = second var := by
  obtain ⟨terms, isTerms⟩ := nested.terms
  obtain ⟨restrictions, run, capped, pinned⟩ := exists_restrictions ordinary returned chosen
  obtain ⟨coordRanges, overlaps, ranged, found, restricts⟩ :=
    restricts_of_run run isInput nonStick
  rw [coordRanges_of_concrete concrete, Except.ok.injEq] at ranged
  subst ranged
  rw [overlappingCoordinateExtents, isTerms.ordered] at found
  rw [isTerms.ordered, Option.getD_some] at restricts
  have separated := separated_of_restricts isTerms found restricts capped pinned
  have still : ∀ var ∈ axis.coordinate.freeSymbols, ∀ extent, ctx.ranges.lookup var = some extent →
      extent ≤ 1 → first var = second var := by
    intro var free extent isRange small
    have apart := firstInside.apart secondInside free isRange
    have below : extent / split var ≤ 1 := (Nat.div_le_self _ _).trans small
    have zero := Int.abs_lt_one_iff.mp (apart.trans_le (by exact_mod_cast below))
    exact_mod_cast sub_eq_zero.mp zero
  have digits : ∀ term ∈ terms, (first term.var : ℤ) = second term.var := by
    apply eq_of_total separated _ (isTerms.value first second still same)
    intro term isTerm
    obtain ⟨-, isRange, isEntry⟩ := (isTerms.listed term).mp isTerm
    have free : term.var ∈ axis.coordinate.freeSymbols :=
      Expr.mem_freeSymbols_of_coefficient isEntry (List.mem_singleton_self _)
    exact firstInside.apart secondInside free isRange
  intro var free
  obtain ⟨entry, isEntry, inside⟩ := Expr.exists_coefficient free
  obtain ⟨name, step, extent, rfl, -, isRange⟩ := nested.affine entry isEntry
  obtain rfl := List.mem_singleton.mp inside
  rcases Nat.lt_or_ge 1 extent with moves | small
  · have isTerm : ⟨step, extent, var⟩ ∈ terms := (isTerms.listed _).mpr ⟨moves, isRange, isEntry⟩
    exact_mod_cast digits _ isTerm
  · exact still var free extent isRange small

/-- Windows of four values in steps of two. -/
def unfolded (reductionType : Option ReductionType) : WorkDivConstraintContext where
  reductionType := reductionType
  itSpace := ⟨[("w", some 7), ("k", some 4)], by decide⟩
  inputTds := [⟨[⟨.add (.mul (.const 2) (.sym "w")) (.sym "k"), 64⟩, ⟨.const 0, 1⟩]⟩]
  reductionVars := []

theorem unfolded_nested (reductionType : Option ReductionType) :
    NestedCoordinate (unfolded reductionType).ranges
      (.add (.mul (.const 2) (.sym "w")) (.sym "k")) := by
  have coefficients : Expr.coefficients (.add (.mul (.const 2) (.sym "w")) (.sym "k")) =
      [(.sym "w", 2), (.sym "k", 1)] := by
    decide +kernel
  constructor
  · rw [coefficients, List.forall_mem_cons, List.forall_mem_singleton]
    exact ⟨⟨"w", 2, 7, by norm_num, by decide, rfl⟩, ⟨"k", 1, 4, by norm_num, by decide, rfl⟩⟩
  · intro var other step otherStep extent otherExtent isEntry otherEntry _ _ _ _ below
    rw [coefficients] at isEntry otherEntry
    have two : step = 2 ∨ step = 1 := by
      simp only [List.mem_cons, Prod.mk.injEq, List.not_mem_nil, or_false] at isEntry
      exact_mod_cast isEntry.imp And.right And.right
    have otherTwo : otherStep = 2 ∨ otherStep = 1 := by
      simp only [List.mem_cons, Prod.mk.injEq, List.not_mem_nil, or_false] at otherEntry
      exact_mod_cast otherEntry.imp And.right And.right
    rcases two with rfl | rfl
    · rcases otherTwo with rfl | rfl
      · exact dvd_rfl
      · omega
    · exact one_dvd _

/-- A pool has no domains, and one core reads an element of two windows. -/
theorem pooled_not_injective :
    (∀ entry ∈ (unfolded (some .maxpool2d)).itSpace.entries, entry.2.isSome) ∧
    overlappingWindowSplitDomains (unfolded (some .maxpool2d)) = .ok Dict.empty ∧
    Chosen Dict.empty (fun _ => 1) ∧
    NestedCoordinate (unfolded (some .maxpool2d)).ranges
      (.add (.mul (.const 2) (.sym "w")) (.sym "k")) ∧
    ∃ first second : Point,
      InBlock (unfolded (some .maxpool2d)).ranges (fun _ => 1) (fun _ => 0)
        (.add (.mul (.const 2) (.sym "w")) (.sym "k")) first ∧
      InBlock (unfolded (some .maxpool2d)).ranges (fun _ => 1) (fun _ => 0)
        (.add (.mul (.const 2) (.sym "w")) (.sym "k")) second ∧
      Expr.eval first (.add (.mul (.const 2) (.sym "w")) (.sym "k")) =
        Expr.eval second (.add (.mul (.const 2) (.sym "w")) (.sym "k")) ∧
      first "w" ≠ second "w" := by
  have inside : ∀ point : Point, point "w" < 7 → point "k" < 4 →
      InBlock (unfolded (some .maxpool2d)).ranges (fun _ => 1) (fun _ => 0)
        (.add (.mul (.const 2) (.sym "w")) (.sym "k")) point := by
    intro point belowW belowK var free extent found
    have isVar : var = "w" ∨ var = "k" := by
      simpa [Expr.mem_freeSymbols, Expr.occurrences] using free
    rcases isVar with rfl | rfl
    · cases found
      exact ⟨by simp, by simpa using belowW⟩
    · cases found
      exact ⟨by simp, by simpa using belowK⟩
  have nothing : Chosen Dict.empty fun _ => 1 := by
    intro var domain found
    cases found
  refine ⟨by decide, rfl, nothing, unfolded_nested _,
    fun name => if name = "w" then 0 else 2, fun name => if name = "w" then 1 else 0,
    inside _ (by decide) (by decide), inside _ (by decide) (by decide), by decide +kernel, by decide⟩

theorem unfolded_injective :
    overlappingWindowSplitDomains (unfolded none) = .ok (Dict.empty.set "k" {2, 4}) ∧
    ∀ first second : Point,
      InBlock (unfolded none).ranges (fun var => if var = "k" then 2 else 1) (fun _ => 0)
        (.add (.mul (.const 2) (.sym "w")) (.sym "k")) first →
      InBlock (unfolded none).ranges (fun var => if var = "k" then 2 else 1) (fun _ => 0)
        (.add (.mul (.const 2) (.sym "w")) (.sym "k")) second →
      Expr.eval first (.add (.mul (.const 2) (.sym "w")) (.sym "k")) =
        Expr.eval second (.add (.mul (.const 2) (.sym "w")) (.sym "k")) →
      first "w" = second "w" ∧ first "k" = second "k" := by
  have returned :
      overlappingWindowSplitDomains (unfolded none) = .ok (Dict.empty.set "k" {2, 4}) := by
    decide +kernel
  have chosen : Chosen (Dict.empty.set "k" {2, 4}) fun var => if var = "k" then 2 else 1 := by
    intro var domain found
    by_cases same : var = "k"
    · subst same
      cases found
      decide
    · rw [Dict.lookup_set_of_ne _ same] at found
      cases found
  refine ⟨returned, ?_⟩
  intro first second firstInside secondInside same
  have reads := overlappingWindowSplitDomains_injective (unfolded none) (by decide) rfl returned chosen
    List.mem_cons_self List.mem_cons_self (unfolded_nested none) (fun _ => 0) firstInside secondInside
    same
  exact ⟨reads "w" (by decide), reads "k" (by decide)⟩

end TorchSpyre.OverlappingWindows
