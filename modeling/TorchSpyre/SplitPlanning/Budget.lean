import TorchSpyre.SplitPlanning.Distribution

/-!
# What a distribution of cores keeps

Every replacement keeps the maintained product the product of the splits, inside the budget;
a dimension that has had its turn cannot grow later, since the other splits only grow.
-/

namespace TorchSpyre.SplitPlanning

open Lib

variable {Dim : Type} [DecidableEq Dim]

/-! ## The largest factor -/

theorem divisors_sorted (basis : ℕ) : (divisors basis).Pairwise (· < ·) :=
  (List.pairwise_lt_range' (s := 1) (n := basis)).filter _

theorem legalSplitFactors_sorted (dim : Dim) (basis : ℕ) (allowedSplits : Domains Dim)
    (minSplits : Dict Dim ℕ) : (legalSplitFactors dim basis allowedSplits minSplits).Pairwise (· < ·) := by
  rw [legalSplitFactors]
  apply List.Pairwise.filter
  split
  next => exact divisors_sorted basis
  next => exact (divisors_sorted basis).filter _

/-- The last entry of an ascending list that passes a test bounds all that do. -/
theorem le_of_find?_reverse {factors : List ℕ} (sorted : factors.Pairwise (· < ·))
    {test : ℕ → Bool} {best : ℕ} (found : factors.reverse.find? test = some best)
    {factor : ℕ} (listed : factor ∈ factors) (passes : test factor = true) : factor ≤ best := by
  obtain ⟨-, before, after, split, fails⟩ := List.find?_eq_some_iff_append.mp found
  have descending : (before ++ best :: after).Pairwise (· > ·) := by
    rw [← split, List.pairwise_reverse]
    exact sorted
  have member : factor ∈ before ++ best :: after := split ▸ List.mem_reverse.mpr listed
  rcases List.mem_append.mp member with early | late
  · have rejected := fails factor early
    rw [passes] at rejected
    cases rejected
  · rcases List.mem_cons.mp late with same | later
    · exact same.le
    · exact (List.rel_of_pairwise_cons (List.pairwise_append.mp descending).2.1 later).le

section Requests

variable {request : Request Dim} {state : Splitting Dim} {dim : Dim} {split best : ℕ}

/-- The largest factor is the current one, or a larger legal one that fits the budget. -/
theorem largestFrom_fits (found : request.largestFrom state dim split = .ok best)
    (grows : split < best) :
    best ∈ request.legal dim ∧ 0 < split ∧ state.coresUsed / split * best ≤ request.maxCores := by
  obtain ⟨nonzero, value⟩ := of_guard found
  replace value := Except.ok.inj value
  cases isFound : (legalSplitFactors dim (request.basis dim) request.allowedSplits
      request.minSplits).reverse.find? (fun factor =>
        split ≤ factor ∧ state.coresUsed / split * factor ≤ request.maxCores) with
  | none =>
      rw [isFound, Option.getD_none] at value
      omega
  | some factor =>
      rw [isFound, Option.getD_some] at value
      obtain rfl := value
      have listed := List.mem_reverse.mp (List.mem_of_find?_eq_some isFound)
      have passes := List.find?_some isFound
      rw [decide_eq_true_iff] at passes
      refine ⟨listed, ?_, passes.2⟩
      apply Nat.pos_of_ne_zero
      exact fun isZero => nonzero ⟨isZero, List.ne_nil_of_mem listed⟩

theorem largestFrom_largest (found : request.largestFrom state dim split = .ok best) {factor : ℕ}
    (isLegal : factor ∈ request.legal dim) (above : split < factor)
    (fits : state.coresUsed / split * factor ≤ request.maxCores) : 0 < split ∧ factor ≤ best := by
  obtain ⟨nonzero, value⟩ := of_guard found
  replace value := Except.ok.inj value
  have passes : decide (split ≤ factor ∧ state.coresUsed / split * factor ≤ request.maxCores) = true :=
    decide_eq_true ⟨above.le, fits⟩
  refine ⟨?_, ?_⟩
  · apply Nat.pos_of_ne_zero
    exact fun isZero => nonzero ⟨isZero, List.ne_nil_of_mem isLegal⟩
  · cases isFound : (legalSplitFactors dim (request.basis dim) request.allowedSplits
        request.minSplits).reverse.find? (fun factor =>
          split ≤ factor ∧ state.coresUsed / split * factor ≤ request.maxCores) with
    | none =>
        have fails := List.find?_eq_none.mp isFound factor (List.mem_reverse.mpr isLegal)
        exact absurd passes fails
    | some largest =>
        rw [isFound, Option.getD_some] at value
        obtain rfl := value
        exact le_of_find?_reverse (legalSplitFactors_sorted ..) isFound isLegal passes

end Requests

/-! ## Mandatory factors -/

section Mandatory

variable (request : Request Dim)

/-- What the maintained product is. -/
structure Budgeted (state : Splitting Dim) : Prop where
  product : state.coresUsed = state.splits.values.prod
  budget : state.coresUsed ≤ request.maxCores

variable {request}

theorem reserveDomains {entries : List (Dim × Finset ℕ)} {mandatory reserved : Dict Dim ℕ}
    (succeeds : entries.foldlM request.reserveDomain mandatory = .ok reserved)
    (floors : ∀ dim floor, request.minSplits.lookup dim = some floor →
      mandatory.lookup dim = some floor) :
    (∀ dim floor, request.minSplits.lookup dim = some floor → reserved.lookup dim = some floor) ∧
      (∀ dim, (mandatory.lookup dim).isSome → (reserved.lookup dim).isSome) ∧
      ∀ dim domain, (dim, domain) ∈ entries → 1 ∉ domain → (reserved.lookup dim).isSome := by
  induction entries generalizing mandatory with
  | nil =>
      obtain rfl := Except.ok.inj succeeds
      exact ⟨floors, fun _ found => found, fun _ _ isEntry => by cases isEntry⟩
  | cons entry entries inductionHypothesis =>
      rw [List.foldlM_cons] at succeeds
      obtain ⟨next, stepped, rest⟩ := bind_eq_ok_iff.mp succeeds
      have kept : (∀ dim floor, request.minSplits.lookup dim = some floor →
            next.lookup dim = some floor) ∧
          (∀ dim, (mandatory.lookup dim).isSome → (next.lookup dim).isSome) ∧
          (1 ∉ entry.2 → (next.lookup entry.1).isSome) := by
        rw [Request.reserveDomain] at stepped
        split at stepped
        next skipped =>
          obtain rfl := Except.ok.inj stepped
          refine ⟨floors, fun _ found => found, fun without => ?_⟩
          obtain ⟨floor, isFloor⟩ := Option.isSome_iff_exists.mp (skipped.resolve_left without)
          rw [floors _ _ isFloor]
          rfl
        next reserves =>
          push Not at reserves
          split at stepped
          next => cases stepped
          next least _ =>
            obtain rfl := Except.ok.inj stepped
            refine ⟨fun dim floor isFloor => ?_, fun dim found => ?_, fun _ => by simp⟩
            · have different : dim ≠ entry.1 := by
                rintro rfl
                rw [isFloor] at reserves
                exact reserves.2 rfl
              rw [Dict.lookup_set_of_ne _ different]
              exact floors dim floor isFloor
            · by_cases same : dim = entry.1
              · simp [same]
              · rwa [Dict.lookup_set_of_ne _ same]
      obtain ⟨keepsFloors, keepsKeys, reserves⟩ := inductionHypothesis rest kept.1
      refine ⟨keepsFloors, fun dim found => keepsKeys dim (kept.2.1 dim found), ?_⟩
      intro dim domain isEntry without
      rcases List.mem_cons.mp isEntry with rfl | later
      · exact keepsKeys dim (kept.2.2 without)
      · exact reserves dim domain later without

/-- The mandatory factors are entered as they are, each inside its domain. -/
theorem satisfyMandatories {entries : List (Dim × ℕ)} {state reserved : Splitting Dim}
    (distinct : (entries.map Prod.fst).Nodup)
    (succeeds : entries.foldlM request.satisfyMandatory state = .ok reserved)
    (budgeted : Budgeted request state)
    (unsplit : ∀ dim split, dim ∈ entries.map Prod.fst → state.splits.lookup dim = some split →
      split = 1) :
    Budgeted request reserved ∧
      (∀ dim, reserved.splits.lookup dim = (entries.lookup dim).or (state.splits.lookup dim)) ∧
      ∀ dim split, (dim, split) ∈ entries → ∀ domain, request.allowedSplits.lookup dim = some domain →
        split ∈ domain := by
  induction entries generalizing state with
  | nil =>
      obtain rfl := Except.ok.inj succeeds
      exact ⟨budgeted, fun _ => rfl, fun _ _ isEntry => by cases isEntry⟩
  | cons entry entries inductionHypothesis =>
      rw [List.map_cons, List.nodup_cons] at distinct
      rw [List.foldlM_cons] at succeeds
      obtain ⟨next, stepped, rest⟩ := bind_eq_ok_iff.mp succeeds
      obtain ⟨fits, stepped⟩ := of_guard stepped
      obtain ⟨inDomain, stepped⟩ := of_guard stepped
      obtain rfl := Except.ok.inj stepped
      have sameProduct : state.splits.values.prod = state.splits.others entry.1 := by
        cases found : state.splits.lookup entry.1 with
        | none => exact Dict.prod_values_of_none found
        | some split =>
            rw [Dict.prod_values found, unsplit entry.1 split List.mem_cons_self found, one_mul]
      have nextBudgeted : Budgeted request
          ⟨state.splits.set entry.1 entry.2, state.coresUsed * entry.2⟩ := by
        refine ⟨?_, not_lt.mp fits⟩
        show state.coresUsed * entry.2 = (state.splits.set entry.1 entry.2).values.prod
        rw [Dict.prod_set, budgeted.product, sameProduct, mul_comm]
      obtain ⟨finalBudgeted, lookups, domains⟩ := inductionHypothesis distinct.2 rest nextBudgeted
        (by
          intro dim split later found
          have different : dim ≠ entry.1 := by
            rintro rfl
            exact distinct.1 later
          rw [Dict.lookup_set_of_ne _ different] at found
          exact unsplit dim split (List.mem_cons_of_mem _ later) found)
      refine ⟨finalBudgeted, fun dim => ?_, fun dim split isEntry domain isDomain => ?_⟩
      · rw [lookups, List.lookup_cons]
        by_cases same : dim = entry.1
        · have absent : entries.lookup entry.1 = none := by
            rw [List.lookup_eq_none_iff]
            intro other later
            have different : entry.1 ≠ other.1 := fun again =>
              distinct.1 (again ▸ List.mem_map_of_mem later)
            simpa using different
          simp [same, absent]
        · rw [beq_false_of_ne same, Dict.lookup_set_of_ne _ same]
      · rcases List.mem_cons.mp isEntry with rfl | later
        · rw [isDomain, Option.any_some, decide_eq_true_iff, not_not] at inDomain
          exact inDomain
        · exact domains dim split later domain isDomain

end Mandatory

/-! ## Growing the splits -/

/-- The splits against their mandatory values. -/
structure Standing (request : Request Dim) (mandatory : Dict Dim ℕ) (state : Splitting Dim) : Prop where
  budgeted : Budgeted request state
  floors : ∀ dim floor, mandatory.lookup dim = some floor →
    ∃ split, state.splits.lookup dim = some split ∧ floor ≤ split
  domains : ∀ dim domain split, request.allowedSplits.lookup dim = some domain →
    state.splits.lookup dim = some split → split ∈ domain
  divides : ∀ dim split, state.splits.lookup dim = some split →
    (mandatory.lookup dim).getD 1 < split → split ∣ request.basis dim

/-- No legal factor above the split fits beside the other splits. -/
def Tight (request : Request Dim) (state : Splitting Dim) (dim : Dim) : Prop :=
  ∀ split factor, state.splits.lookup dim = some split → factor ∈ request.legal dim →
    split < factor → request.maxCores < (state.splits.set dim factor).values.prod

section Growth

variable {request : Request Dim} {mandatory : Dict Dim ℕ} {state : Splitting Dim} {dim : Dim}
  {split best : ℕ}

theorem coresUsed_div (budgeted : Budgeted request state)
    (current : state.splits.lookup dim = some split) (positive : 0 < split) :
    state.coresUsed / split = state.splits.others dim := by
  rw [budgeted.product, Dict.prod_values current, Nat.mul_div_cancel_left _ positive]

theorem Standing.replace (standing : Standing request mandatory state)
    (current : state.splits.lookup dim = some split)
    (found : request.largestFrom state dim split = .ok best) (grows : split < best) :
    Standing request mandatory (state.replace dim split best) := by
  obtain ⟨isLegal, positive, fits⟩ := largestFrom_fits found grows
  obtain ⟨divides, inDomain, -⟩ := mem_legalSplitFactors.mp isLegal
  refine ⟨⟨?_, fits⟩, fun other floor isFloor => ?_, fun other domain value isDomain isSplit => ?_,
    fun other value isSplit above => ?_⟩
  · show state.coresUsed / split * best = (state.splits.set dim best).values.prod
    rw [coresUsed_div standing.budgeted current positive, Dict.prod_set, mul_comm]
  · obtain ⟨value, isValue, aboveFloor⟩ := standing.floors other floor isFloor
    by_cases same : other = dim
    · subst same
      rw [current] at isValue
      obtain rfl := Option.some.inj isValue
      exact ⟨best, Dict.lookup_set_self .., aboveFloor.trans grows.le⟩
    · exact ⟨value, (Dict.lookup_set_of_ne _ same best).trans isValue, aboveFloor⟩
  · by_cases same : other = dim
    · subst same
      obtain rfl := Option.some.inj ((Dict.lookup_set_self ..).symm.trans isSplit)
      exact inDomain domain isDomain
    · exact standing.domains other domain value isDomain
        ((Dict.lookup_set_of_ne _ same best).symm.trans isSplit)
  · by_cases same : other = dim
    · subst same
      obtain rfl := Option.some.inj ((Dict.lookup_set_self ..).symm.trans isSplit)
      exact divides.2
    · exact standing.divides other value ((Dict.lookup_set_of_ne _ same best).symm.trans isSplit) above

/-- A dimension that cannot grow cannot grow later either. -/
theorem Tight.replace {other : Dim} (tight : Tight request state other)
    (current : state.splits.lookup dim = some split) (grows : split < best) :
    Tight request (state.replace dim split best) other := by
  intro value factor isValue isLegal above
  show request.maxCores < ((state.splits.set dim best).set other factor).values.prod
  rw [Dict.prod_set]
  have before : ∃ old, state.splits.lookup other = some old ∧ old < factor := by
    by_cases same : other = dim
    · subst same
      obtain rfl := Option.some.inj ((Dict.lookup_set_self ..).symm.trans isValue)
      exact ⟨split, current, grows.trans above⟩
    · exact ⟨value, (Dict.lookup_set_of_ne _ same best).symm.trans isValue, above⟩
  obtain ⟨old, isOld, below⟩ := before
  have full := tight old factor isOld isLegal below
  rw [Dict.prod_set] at full
  exact full.trans_le (Nat.mul_le_mul_left _ (Dict.others_le_set current grows.le))

/-- After its turn a dimension is tight. -/
theorem tight_of_largestFrom (budgeted : Budgeted request state)
    (current : state.splits.lookup dim = some split)
    (found : request.largestFrom state dim split = .ok best) :
    ∀ factor ∈ request.legal dim, max split best < factor →
      request.maxCores < (state.splits.set dim factor).values.prod := by
  intro factor isLegal above
  by_contra! fits
  rw [Dict.prod_set] at fits
  have aboveSplit : split < factor := (le_max_left _ _).trans_lt above
  have aboveBest : best < factor := (le_max_right _ _).trans_lt above
  rcases Nat.eq_zero_or_pos split with isZero | positive
  · have fitsZero : state.coresUsed / split * factor ≤ request.maxCores := by
      rw [isZero, Nat.div_zero, Nat.zero_mul]
      exact Nat.zero_le _
    have := (largestFrom_largest found isLegal aboveSplit fitsZero).1
    omega
  · rw [mul_comm, ← coresUsed_div budgeted current positive] at fits
    have := (largestFrom_largest found isLegal aboveSplit fits).2
    omega

/-- With the budget spent every dimension is tight. -/
theorem tight_of_spent (budgeted : Budgeted request state) (positive : 0 < request.maxCores)
    (spent : request.maxCores ≤ state.coresUsed) (dim : Dim) : Tight request state dim := by
  intro split factor current isLegal above
  rw [Dict.prod_set]
  have product : state.coresUsed = split * state.splits.others dim := by
    rw [budgeted.product, Dict.prod_values current]
  have rest : 0 < state.splits.others dim := by
    apply Nat.pos_of_ne_zero
    intro isZero
    rw [isZero, Nat.mul_zero] at product
    omega
  calc request.maxCores ≤ split * state.splits.others dim := product ▸ spent
    _ < factor * state.splits.others dim := Nat.mul_lt_mul_of_pos_right above rest

theorem splitAt_eq_ok {splits : Dict Dim ℕ} (found : Request.splitAt splits dim = .ok split) :
    splits.lookup dim = some split := by
  rw [Request.splitAt] at found
  split at found
  next => cases found
  next value isValue =>
    obtain rfl := Except.ok.inj found
    exact isValue

theorem distributeOutput_spec (positive : 0 < request.maxCores) {dims done : List Dim}
    {final : Splitting Dim} (standing : Standing request mandatory state)
    (tight : ∀ dim ∈ done, Tight request state dim)
    (succeeds : request.distributeOutput state dims = .ok final) :
    Standing request mandatory final ∧ (∀ dim ∈ done ++ dims, Tight request final dim) ∧
      ∀ dim ∉ dims, final.splits.lookup dim = state.splits.lookup dim := by
  induction dims generalizing state done with
  | nil =>
      obtain rfl := Except.ok.inj succeeds
      rw [List.append_nil]
      exact ⟨standing, tight, fun _ _ => rfl⟩
  | cons first rest inductionHypothesis =>
      rw [Request.distributeOutput] at succeeds
      split at succeeds
      next spent =>
        obtain rfl := Except.ok.inj succeeds
        exact ⟨standing, fun dim _ => tight_of_spent standing.budgeted positive spent dim,
          fun _ _ => rfl⟩
      next =>
        obtain ⟨current, isCurrent, succeeds⟩ := bind_eq_ok_iff.mp succeeds
        obtain ⟨largest, found, succeeds⟩ := bind_eq_ok_iff.mp succeeds
        replace isCurrent := splitAt_eq_ok isCurrent
        have full := tight_of_largestFrom standing.budgeted isCurrent found
        rw [List.append_cons]
        split at succeeds
        next grows =>
          have tightNext : ∀ dim ∈ done ++ [first],
              Tight request (state.replace first current largest) dim := by
            intro dim isDone
            rcases List.mem_append.mp isDone with earlier | isFirst
            · exact (tight dim earlier).replace isCurrent grows
            · obtain rfl := List.mem_singleton.mp isFirst
              intro value factor isValue isLegal above
              obtain rfl := Option.some.inj ((Dict.lookup_set_self ..).symm.trans isValue)
              have bound := full factor isLegal (by rwa [max_eq_right grows.le])
              show request.maxCores < ((state.splits.set dim largest).set dim factor).values.prod
              rwa [Dict.prod_set, Dict.others_set_self, ← Dict.prod_set]
          obtain ⟨stands, allTight, unchanged⟩ :=
            inductionHypothesis (standing.replace isCurrent found grows) tightNext succeeds
          refine ⟨stands, allTight, fun dim outside => ?_⟩
          rw [List.mem_cons, not_or] at outside
          rw [unchanged dim outside.2]
          exact Dict.lookup_set_of_ne _ outside.1 largest
        next stays =>
          have tightNext : ∀ dim ∈ done ++ [first], Tight request state dim := by
            intro dim isDone
            rcases List.mem_append.mp isDone with earlier | isFirst
            · exact tight dim earlier
            · obtain rfl := List.mem_singleton.mp isFirst
              intro value factor isValue isLegal above
              rw [isCurrent] at isValue
              obtain rfl := Option.some.inj isValue
              exact full factor isLegal (by rwa [max_eq_left (not_lt.mp stays)])
          obtain ⟨stands, allTight, unchanged⟩ := inductionHypothesis standing tightNext succeeds
          exact ⟨stands, allTight, fun dim outside =>
            unchanged dim fun later => outside (List.mem_cons_of_mem _ later)⟩

theorem mostSplittableDim_spec {dims : List Dim} {chosen result : Option (Dim × ℕ)}
    (succeeds : request.mostSplittableDim state chosen dims = .ok result) {dim : Dim} {best : ℕ}
    (isResult : result = some (dim, best)) :
    chosen = some (dim, best) ∨ dim ∈ dims ∧ ∃ split, state.splits.lookup dim = some split ∧
      request.largestFrom state dim split = .ok best ∧ split < best := by
  induction dims generalizing chosen with
  | nil =>
      obtain rfl := Except.ok.inj succeeds
      exact Or.inl isResult
  | cons first rest inductionHypothesis =>
      rw [Request.mostSplittableDim] at succeeds
      obtain ⟨current, isCurrent, succeeds⟩ := bind_eq_ok_iff.mp succeeds
      obtain ⟨largest, found, succeeds⟩ := bind_eq_ok_iff.mp succeeds
      split at succeeds
      next better =>
        rcases inductionHypothesis succeeds with here | ⟨later, grows⟩
        · obtain ⟨rfl, rfl⟩ := Prod.mk.inj (Option.some.inj here)
          exact Or.inr ⟨List.mem_cons_self, current, splitAt_eq_ok isCurrent, found, better.1⟩
        · exact Or.inr ⟨List.mem_cons_of_mem _ later, grows⟩
      next =>
        rcases inductionHypothesis succeeds with earlier | ⟨later, grows⟩
        · exact Or.inl earlier
        · exact Or.inr ⟨List.mem_cons_of_mem _ later, grows⟩

/-- The reduction pass grows one eligible dimension or none. -/
theorem distributeReduction_cases {final : Splitting Dim} {splitReductionDims : List Dim}
    (succeeds : request.distributeReduction state splitReductionDims = .ok final) :
    final = state ∨ ∃ grown split best,
      grown ∈ (if splitReductionDims = [] then request.reductionDims else splitReductionDims) ∧
      state.splits.lookup grown = some split ∧ request.largestFrom state grown split = .ok best ∧
      split < best ∧ final = state.replace grown split best := by
  rw [Request.distributeReduction] at succeeds
  split at succeeds
  next => exact Or.inl (Except.ok.inj succeeds).symm
  next =>
    obtain ⟨result, chosen, succeeds⟩ := bind_eq_ok_iff.mp succeeds
    cases result with
    | none => exact Or.inl (Except.ok.inj succeeds).symm
    | some entry =>
        obtain ⟨grown, best⟩ := entry
        obtain ⟨split, isCurrent, succeeds⟩ := bind_eq_ok_iff.mp succeeds
        replace isCurrent := splitAt_eq_ok isCurrent
        rcases mostSplittableDim_spec chosen rfl with impossible | ⟨eligible, current, isSplit, found, grows⟩
        · cases impossible
        · rw [isCurrent] at isSplit
          obtain rfl := Option.some.inj isSplit
          exact Or.inr ⟨grown, split, best, eligible, isCurrent, found, grows,
            (Except.ok.inj succeeds).symm⟩

end Growth

/-! ## The whole distribution -/

section Distribution

variable {request : Request Dim} {mandatory : Dict Dim ℕ} {reserved : Splitting Dim}

/-- The state after the mandatory factors. -/
theorem standing_reserved (positive : 0 < request.maxCores)
    (isMandatory : request.mandatorySplits = .ok mandatory)
    (isReserved : mandatory.entries.foldlM request.satisfyMandatory
      ⟨request.ranges.iterationSpace.fromKeys 1, 1⟩ = .ok reserved) :
    Standing request mandatory reserved := by
  obtain ⟨-, -, withDomain⟩ := reserveDomains isMandatory fun _ _ isFloor => isFloor
  have started : Budgeted request ⟨request.ranges.iterationSpace.fromKeys 1, 1⟩ := by
    refine ⟨?_, positive⟩
    show 1 = ((request.ranges.iterationSpace.entries.map fun entry => (entry.1, 1)).map Prod.snd).prod
    rw [List.map_map]
    exact List.prod_map_one.symm
  obtain ⟨budgeted, lookups, inDomain⟩ := satisfyMandatories mandatory.distinct isReserved started
    fun _ _ _ found => Dict.lookup_fromKeys found
  have lookup : ∀ dim, reserved.splits.lookup dim = (mandatory.lookup dim).or
      ((request.ranges.iterationSpace.fromKeys 1).lookup dim) := lookups
  refine ⟨budgeted, fun dim floor isFloor => ?_, fun dim domain split isDomain isSplit => ?_,
    fun dim split isSplit above => ?_⟩
  · exact ⟨floor, by rw [lookup, isFloor, Option.some_or], le_rfl⟩
  · rw [lookup] at isSplit
    cases isFloor : mandatory.lookup dim with
    | some floor =>
        rw [isFloor, Option.some_or] at isSplit
        obtain rfl := Option.some.inj isSplit
        exact inDomain dim floor (Dict.lookup_eq_some_iff.mp isFloor) domain isDomain
    | none =>
        rw [isFloor, Option.none_or] at isSplit
        rw [Dict.lookup_fromKeys isSplit]
        by_contra without
        have reserves := withDomain dim domain (Dict.lookup_eq_some_iff.mp isDomain) without
        rw [isFloor] at reserves
        cases reserves
  · rw [lookup] at isSplit
    cases isFloor : mandatory.lookup dim with
    | some floor =>
        rw [isFloor, Option.some_or] at isSplit
        rw [isFloor, Option.getD_some, Option.some.inj isSplit] at above
        exact absurd above (lt_irrefl _)
    | none =>
        rw [isFloor, Option.none_or] at isSplit
        rw [isFloor, Option.getD_none, Dict.lookup_fromKeys isSplit] at above
        exact absurd above (lt_irrefl _)

theorem mem_splitReductionDims {dims : List Dim} {reductions : List ℕ}
    (looked : dims.mapM (Request.splitAt reserved.splits) = .ok reductions) {dim : Dim}
    {split : ℕ} (isReduction : dim ∈ dims)
    (isSplit : reserved.splits.lookup dim = some split) (above : 1 < split) :
    dim ∈ ((dims.zip reductions).filter fun entry => 1 < entry.2).map Prod.fst := by
  have paired := forall₂_of_mapM looked
  clear looked
  induction paired with
  | nil => cases isReduction
  | @cons first value rest values here _ inductionHypothesis =>
      rw [List.zip_cons_cons, List.filter_cons]
      rcases List.mem_cons.mp isReduction with rfl | later
      · have same := splitAt_eq_ok here
        rw [isSplit] at same
        obtain rfl := Option.some.inj same
        simp [above]
      · have found := inductionHypothesis later
        split
        next => exact List.mem_cons_of_mem _ found
        next => exact found

omit [DecidableEq Dim] in
theorem eq_of_short {items : List Dim} (short : ¬ 1 < items.length) {first second : Dim}
    (firstIn : first ∈ items) (secondIn : second ∈ items) : first = second := by
  match items with
  | [] => cases firstIn
  | [item] => rw [List.mem_singleton.mp firstIn, List.mem_singleton.mp secondIn]
  | _ :: _ :: _ => exact absurd (by simp) short

/-- What every returned distribution keeps. -/
theorem multiDimIterationSpaceSplit_keeps {splits : Dict Dim ℕ} (positive : 0 < request.maxCores)
    (disjoint : ∀ dim ∈ request.outputDims, dim ∉ request.reductionDims)
    (returned : multiDimIterationSpaceSplit request = .ok splits) :
    ∃ mandatory, request.mandatorySplits = .ok mandatory ∧
      splits.values.prod ≤ request.maxCores ∧
      (∀ dim floor, request.minSplits.lookup dim = some floor →
        ∃ split, splits.lookup dim = some split ∧ floor ≤ split) ∧
      (∀ dim domain split, request.allowedSplits.lookup dim = some domain →
        splits.lookup dim = some split → split ∈ domain) ∧
      (∀ dim split, splits.lookup dim = some split → (mandatory.lookup dim).getD 1 < split →
        split ∣ request.basis dim) ∧
      (∀ first ∈ request.reductionDims, ∀ second ∈ request.reductionDims,
        1 < (splits.lookup first).getD 1 → 1 < (splits.lookup second).getD 1 → first = second) ∧
      ∀ dim ∈ request.outputDims, ∀ split factor, splits.lookup dim = some split →
        factor ∈ request.legal dim → split < factor →
        request.maxCores < (splits.set dim factor).values.prod := by
  obtain ⟨mandatory, isMandatory, returned⟩ := bind_eq_ok_iff.mp returned
  obtain ⟨reserved, isReserved, returned⟩ := bind_eq_ok_iff.mp returned
  obtain ⟨reductions, looked, returned⟩ := bind_eq_ok_iff.mp returned
  obtain ⟨single, returned⟩ := of_guard returned
  obtain ⟨distributed, isDistributed, returned⟩ := bind_eq_ok_iff.mp returned
  obtain ⟨final, isFinal, returned⟩ := bind_eq_ok_iff.mp returned
  obtain rfl := Except.ok.inj returned
  obtain ⟨stands, tight, unchanged⟩ := distributeOutput_spec positive
    (standing_reserved positive isMandatory isReserved)
    (fun dim (isDone : dim ∈ []) => absurd isDone List.not_mem_nil) isDistributed
  have keepsFloors := (reserveDomains isMandatory fun _ _ isFloor => isFloor).1
  -- a reduction dimension that is split after the output pass was split by a mandatory factor
  have beforehand : ∀ dim ∈ request.reductionDims, 1 < (distributed.splits.lookup dim).getD 1 →
      dim ∈ ((request.reductionDims.zip reductions).filter fun entry => 1 < entry.2).map Prod.fst := by
    intro dim isReduction above
    rw [unchanged dim fun isOutput => disjoint dim isOutput isReduction] at above
    cases isSplit : reserved.splits.lookup dim with
    | none => simp [isSplit] at above
    | some split =>
        rw [isSplit, Option.getD_some] at above
        exact mem_splitReductionDims looked isReduction isSplit above
  refine ⟨mandatory, isMandatory, ?_⟩
  rcases distributeReduction_cases isFinal with rfl | ⟨grown, split, best, eligible, current, found, grows, rfl⟩
  · refine ⟨stands.budgeted.product ▸ stands.budgeted.budget, fun dim floor isFloor =>
      stands.floors dim floor (keepsFloors dim floor isFloor), stands.domains, stands.divides, ?_,
      fun dim isOutput => tight dim isOutput⟩
    intro first firstIn second secondIn firstSplit secondSplit
    exact eq_of_short single (beforehand first firstIn firstSplit)
      (beforehand second secondIn secondSplit)
  · have standsAfter := stands.replace current found grows
    refine ⟨standsAfter.budgeted.product ▸ standsAfter.budgeted.budget, fun dim floor isFloor =>
      standsAfter.floors dim floor (keepsFloors dim floor isFloor), standsAfter.domains,
      standsAfter.divides, ?_, fun dim isOutput => (tight dim isOutput).replace current grows⟩
    have grownOr : ∀ dim ∈ request.reductionDims,
        1 < ((distributed.splits.set grown best).lookup dim).getD 1 → dim = grown ∨
          dim ∈ ((request.reductionDims.zip reductions).filter fun entry => 1 < entry.2).map Prod.fst := by
      intro dim isReduction above
      by_cases same : dim = grown
      · exact Or.inl same
      · rw [Dict.lookup_set_of_ne _ same] at above
        exact Or.inr (beforehand dim isReduction above)
    intro first firstIn second secondIn firstSplit secondSplit
    have firstGrown := grownOr first firstIn firstSplit
    have secondGrown := grownOr second secondIn secondSplit
    split at eligible
    next none =>
      rw [none] at firstGrown secondGrown
      rw [firstGrown.resolve_right List.not_mem_nil, secondGrown.resolve_right List.not_mem_nil]
    next =>
      have inside : ∀ {dim}, (dim = grown ∨ dim ∈ ((request.reductionDims.zip reductions).filter
          fun entry => 1 < entry.2).map Prod.fst) → dim ∈ ((request.reductionDims.zip
          reductions).filter fun entry => 1 < entry.2).map Prod.fst :=
        fun either => either.elim (fun same => same ▸ eligible) id
      exact eq_of_short single (inside firstGrown) (inside secondGrown)

end Distribution

/-- A matmul on 32 cores: rows with a span floor, columns with a domain, one reduction. -/
def matmulRequest : Request String where
  ranges := ⟨⟨[("row", 12), ("column", 8), ("depth", 6)], by decide⟩, Dict.empty⟩
  maxCores := 32
  outputDims := ["column", "row"]
  reductionDims := ["depth"]
  minSplits := ⟨[("row", 2)], by decide⟩
  allowedSplits := ⟨[("column", {2, 4})], by decide⟩

theorem matmulRequest_keeps :
    multiDimIterationSpaceSplit matmulRequest =
        .ok ⟨[("row", 6), ("column", 4), ("depth", 1)], by decide⟩ ∧
      (6 ∣ matmulRequest.basis "row") := by
  have returned : multiDimIterationSpaceSplit matmulRequest =
      .ok ⟨[("row", 6), ("column", 4), ("depth", 1)], by decide⟩ := by decide
  obtain ⟨mandatory, isMandatory, -, -, -, divides, -, -⟩ :=
    multiDimIterationSpaceSplit_keeps (by decide) (by decide) returned
  refine ⟨returned, divides "row" 6 (by decide) ?_⟩
  have reserved : matmulRequest.mandatorySplits = .ok ⟨[("row", 2), ("column", 2)], by decide⟩ := by
    decide
  obtain rfl := Except.ok.inj (isMandatory.symm.trans reserved)
  decide

end TorchSpyre.SplitPlanning
