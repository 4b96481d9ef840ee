import Mathlib
import TorchSpyre.Lib.Linear
import TorchSpyre.PerCoreViews.Placements

/-!
# The inverse finds a division whenever there is one

The division behind a representable view is among the candidates: its placed loops are options of
their dimensions, its other split loops are hidden, and the rest is unsplit.  Every candidate is a
whole division, so the forward map decides each of them, and the search stops at the division at
the latest.
-/

namespace TorchSpyre.PerCoreViews

open Lib Lib.Symbolic Ownership

/-- The factor of each loop is one or legal. -/
def Legal (domains : FactorDomains) (splits : Dict Symbol ℕ) : Prop :=
  ∀ sym factor, splits.lookup sym = some factor → factor = 1 ∨ factor ∈ domains.legal sym

theorem Legal.whole {prep : ViewPrep} {domains : FactorDomains} {splits : Dict Symbol ℕ}
    (legal : Legal domains splits) (keys : splits.keys = prep.iterSpace.keys) :
    WholeDivision prep splits where
  keys := keys
  positive := by
    intro sym factor found
    rcases legal sym factor found with rfl | listed
    · exact Nat.one_pos
    · exact domains.legal_pos listed

/-! ## Candidates are whole divisions -/

section Candidates

variable {prep : ViewPrep} {domains : FactorDomains} {want : List (ℕ × ℕ)}

theorem mem_optionsOf {dim : ℕ} {serving : Serving} :
    serving ∈ optionsOf prep domains want dim ↔
      ∃ sym ∈ prep.iterSpace.keys, serving? prep domains want sym = some (dim, serving) := by
  rw [optionsOf, List.mem_insertionSort]
  constructor
  · intro listed
    obtain ⟨⟨other, found⟩, isFound, rfl⟩ := List.mem_map.mp listed
    obtain ⟨inList, same⟩ := List.mem_filter.mp isFound
    obtain ⟨sym, isSym, served⟩ := List.mem_filterMap.mp inList
    obtain rfl := of_decide_eq_true same
    exact ⟨sym, isSym, served⟩
  · rintro ⟨sym, isSym, served⟩
    apply List.mem_map.mpr
    refine ⟨(dim, serving), List.mem_filter.mpr ⟨?_, decide_eq_true rfl⟩, rfl⟩
    exact List.mem_filterMap.mpr ⟨sym, isSym, served⟩

/-- An option is a loop with a legal split. -/
theorem legal_of_mem_optionsOf {dim : ℕ} {serving : Serving}
    (listed : serving ∈ optionsOf prep domains want dim) :
    serving.sym ∈ prep.iterSpace.keys ∧ serving.split ∈ domains.legal serving.sym := by
  obtain ⟨sym, isSym, served⟩ := mem_optionsOf.1 listed
  simp only [serving?] at served
  split at served
  next => cases served
  next =>
    split at served
    next => cases served
    next =>
      split at served
      next => cases served
      next =>
        split at served
        next => cases served
        next =>
          split at served
          next legal =>
            cases served
            exact ⟨isSym, legal⟩
          next => cases served

theorem mem_hiddenDomain {sym : Symbol} {factor : ℕ} :
    factor ∈ hiddenDomain domains sym ↔ factor = 1 ∨ factor ∈ domains.legal sym := by
  rw [hiddenDomain, List.mem_insertionSort, List.mem_dedup, List.mem_cons]

theorem mem_hiddenBehind {choice : List Serving} {sym : Symbol} :
    sym ∈ hiddenBehind prep choice ↔
      sym ∈ prep.iterSpace.keys ∧ sym ∉ choice.map Serving.sym ∧
        (prep.hostStride sym = 0 ∨
          prep.hostStride sym ∈ (choice.map Serving.sym).map prep.hostStride) := by
  rw [hiddenBehind, List.mem_filter, decide_eq_true_iff]

theorem nodup_hiddenBehind (choice : List Serving) : (hiddenBehind prep choice).Nodup :=
  prep.iterSpace.distinct.filter _

/-- The division of one choice, with its hidden loops split. -/
def assembled (prep : ViewPrep) (choice : List Serving) (combo : List ℕ) : Dict Symbol ℕ :=
  ((prep.iterSpace.fromKeys 1).update
    (choice.map fun serving => (serving.sym, serving.split))).update
      ((hiddenBehind prep choice).zip combo)

theorem mem_candidatesOf {choice : List Serving} {candidate : Dict Symbol ℕ} :
    candidate ∈ candidatesOf prep domains choice ↔
      (choice.map Serving.sym).Nodup ∧
        ∃ combo, List.Forall₂ (· ∈ ·) combo ((hiddenBehind prep choice).map (hiddenDomain domains)) ∧
          assembled prep choice combo = candidate := by
  rw [candidatesOf]
  split
  next repeated =>
    constructor
    · exact fun listed => nomatch listed
    · exact fun listed => absurd listed.1 repeated
  next distinct =>
    rw [not_not] at distinct
    simp only [List.mem_map, mem_cartesian, distinct, true_and]
    rfl

theorem zip_legal {syms : List Symbol} {combo : List ℕ}
    (chosen : List.Forall₂ (· ∈ ·) combo (syms.map (hiddenDomain domains))) {sym : Symbol}
    {factor : ℕ} (listed : (sym, factor) ∈ syms.zip combo) :
    factor = 1 ∨ factor ∈ domains.legal sym := by
  induction syms generalizing combo with
  | nil => cases listed
  | cons first syms inductionHypothesis =>
      obtain ⟨value, values, isChoice, areChoices, rfl⟩ := List.forall₂_cons_right_iff.mp chosen
      rw [List.zip_cons_cons, List.mem_cons] at listed
      rcases listed with same | later
      · cases same
        exact mem_hiddenDomain.1 isChoice
      · exact inductionHypothesis areChoices later

theorem keys_assembled {choice : List Serving} {combo : List ℕ}
    (placed : ∀ serving ∈ choice, serving.sym ∈ prep.iterSpace.keys) :
    (assembled prep choice combo).keys = prep.iterSpace.keys := by
  have first : ((prep.iterSpace.fromKeys 1).update
      (choice.map fun serving => (serving.sym, serving.split))).keys = prep.iterSpace.keys := by
    rw [Dict.keys_update_of_subset, Dict.keys_fromKeys]
    rw [Dict.keys_fromKeys, List.map_map]
    intro sym listed
    obtain ⟨serving, isServing, rfl⟩ := List.mem_map.mp listed
    exact placed serving isServing
  rw [assembled, Dict.keys_update_of_subset, first]
  rw [first]
  intro sym listed
  obtain ⟨⟨hidden, factor⟩, isPair, rfl⟩ := List.mem_map.mp listed
  exact (mem_hiddenBehind.1 (List.of_mem_zip isPair).1).1

theorem legal_assembled {choice : List Serving} {combo : List ℕ}
    (placed : ∀ serving ∈ choice, serving.split ∈ domains.legal serving.sym)
    (chosen : List.Forall₂ (· ∈ ·) combo
      ((hiddenBehind prep choice).map (hiddenDomain domains))) :
    Legal domains (assembled prep choice combo) := by
  intro sym factor found
  rcases Dict.lookup_update found with isHidden | before
  · exact zip_legal chosen isHidden
  · rcases Dict.lookup_update before with isPlaced | unsplit
    · obtain ⟨serving, isServing, same⟩ := List.mem_map.mp isPlaced
      cases same
      exact .inr (placed serving isServing)
    · exact .inl (Dict.lookup_fromKeys unsplit)

/-- A choice takes one option for each dimension. -/
theorem forall_mem_choice {choice : List Serving} {dims : List ℕ}
    (chosen : List.Forall₂ (· ∈ ·) choice (dims.map (optionsOf prep domains want))) :
    ∀ serving ∈ choice, ∃ dim, serving ∈ optionsOf prep domains want dim := by
  induction dims generalizing choice with
  | nil =>
      cases chosen
      exact List.forall_mem_nil _
  | cons dim dims inductionHypothesis =>
      cases chosen with
      | cons isOption others =>
          exact List.forall_mem_cons.mpr ⟨⟨dim, isOption⟩, inductionHypothesis others⟩

/-- A candidate has the loops of the operation, legal factors and the wanted number of cores. -/
theorem legal_of_candidates {target : PerCoreView} {candidate : Dict Symbol ℕ}
    (listed : candidate ∈ candidates prep domains target) :
    candidate.keys = prep.iterSpace.keys ∧ Legal domains candidate ∧
      ∀ numCores, target.numCores = some numCores → candidate.values.prod = numCores := by
  obtain ⟨inProduct, counted⟩ := List.mem_filter.mp listed
  obtain ⟨choice, isChoice, isCandidate⟩ := List.mem_flatMap.mp inProduct
  have isOption := forall_mem_choice (mem_cartesian.mp isChoice)
  obtain ⟨-, combo, chosen, rfl⟩ := mem_candidatesOf.1 isCandidate
  refine ⟨keys_assembled ?_, legal_assembled ?_ chosen, ?_⟩
  · intro serving isServing
    obtain ⟨dim, option⟩ := isOption serving isServing
    exact (legal_of_mem_optionsOf option).1
  · intro serving isServing
    obtain ⟨dim, option⟩ := isOption serving isServing
    exact (legal_of_mem_optionsOf option).2
  · intro numCores isCount
    rw [isCount, Option.all_some] at counted
    exact of_decide_eq_true counted

end Candidates

/-! ## The search stops at a match -/

section Search

variable {config : ViewConfig} {sympy : Sympy} {concretize : Expr → ℕ} {prep : ViewPrep}
  {target : PerCoreView}

/-- A division whose view is the target. -/
def Matches (config : ViewConfig) (sympy : Sympy) (concretize : Expr → ℕ) (prep : ViewPrep)
    (target : PerCoreView) (splits : Dict Symbol ℕ) : Prop :=
  ∃ view flag,
    perCoreViewFromPrep config sympy concretize (some prep) splits Dict.empty none =
      .ok (view, flag, true) ∧
    samePartition view target = true

theorem firstMatch_finds {divisions : List (Dict Symbol ℕ)}
    (decided : ∀ division ∈ divisions, ∃ decision,
      perCoreViewFromPrep config sympy concretize (some prep) division Dict.empty none = .ok decision)
    {wanted : Dict Symbol ℕ} (listed : wanted ∈ divisions)
    (isMatch : Matches config sympy concretize prep target wanted) (probes : ℕ) :
    ∃ found ∈ divisions,
      firstMatch config sympy concretize prep target (fun _ => true) none probes divisions =
        .ok (some found) ∧
      Matches config sympy concretize prep target found := by
  induction divisions generalizing probes with
  | nil => cases listed
  | cons division divisions inductionHypothesis =>
      rw [List.forall_mem_cons] at decided
      obtain ⟨⟨view, flag, representable⟩, decision⟩ := decided.1
      rw [firstMatch, Option.any_none, if_neg Bool.false_ne_true, Bool.not_true,
        if_neg Bool.false_ne_true, decision]
      show ∃ found ∈ division :: divisions, (if (representable && samePartition view target) = true
        then Except.ok (some division) else _) = _ ∧ _
      split
      next same =>
        rw [Bool.and_eq_true] at same
        obtain ⟨rfl, same⟩ := same
        exact ⟨division, List.mem_cons_self, rfl, view, flag, decision, same⟩
      next different =>
        have later : wanted ∈ divisions := by
          apply (List.mem_cons.mp listed).resolve_left
          rintro rfl
          obtain ⟨other, otherFlag, otherDecision, same⟩ := isMatch
          rw [decision] at otherDecision
          cases otherDecision
          exact different (by rw [same]; rfl)
        obtain ⟨found, isFound, stops, matched⟩ := inductionHypothesis decided.2 later (probes + 1)
        exact ⟨found, List.mem_cons_of_mem _ isFound, stops, matched⟩

end Search

/-! ## The division is a candidate -/

section Wanted

variable {prep : ViewPrep} {domains : FactorDomains} {splits : Dict Symbol ℕ}
  {pairs : List (ℕ × ℕ)} {view : PerCoreView}

/-- The loop of a placement. -/
def Serving.entry (serving : Serving) : ℤ × ℕ × Symbol :=
  (serving.stride, serving.split, serving.sym)

/-- The entries by stride, each with its dimension. -/
def placements (prep : ViewPrep) (splits : Dict Symbol ℕ) (pairs : List (ℕ × ℕ)) :
    List ((ℤ × ℕ × Symbol) × (ℕ × ℕ)) :=
  (sortedByKey (prep.splitsByStride splits).entries).zip pairs

theorem Represents.length_eq (represents : Represents prep splits pairs view) :
    (sortedByKey (prep.splitsByStride splits).entries).length = pairs.length :=
  represents.served.length_eq

/-- One entry for each dimension. -/
theorem Represents.entry_unique (represents : Represents prep splits pairs view)
    {first second : (ℤ × ℕ × Symbol) × (ℕ × ℕ)} (isFirst : first ∈ placements prep splits pairs)
    (isSecond : second ∈ placements prep splits pairs) (same : first.2.1 = second.2.1) :
    first = second := by
  have dims : (placements prep splits pairs).map (fun placement => placement.2.1) =
      pairs.map Prod.fst := by
    have seconds : (placements prep splits pairs).map Prod.snd = pairs :=
      List.map_snd_zip represents.length_eq.ge
    conv_rhs => rw [← seconds, List.map_map]
    rfl
  have distinct := represents.distinct
  rw [← dims] at distinct
  exact List.inj_on_of_nodup_map distinct isFirst isSecond same

theorem Represents.slices_of_placement {entry : ℤ × ℕ × Symbol} {pair : ℕ × ℕ}
    (placed : (entry, pair) ∈ placements prep splits pairs) : Slices prep splits entry :=
  slices_of_splitsByStride ((sortedByKey_perm _).mem_iff.mp (List.of_mem_zip placed).1)

theorem Represents.serves_of_placement (represents : Represents prep splits pairs view)
    {entry : ℤ × ℕ × Symbol} {pair : ℕ × ℕ}
    (placed : (entry, pair) ∈ placements prep splits pairs) : Serves prep entry pair :=
  (List.forall₂_iff_zip.mp represents.served).2 placed

theorem Represents.exists_placement (represents : Represents prep splits pairs view) {dim : ℕ}
    (isDim : dim ∈ pairs.map Prod.fst) :
    ∃ serving : Serving, ∃ factor, (serving.entry, (dim, factor)) ∈ placements prep splits pairs := by
  have seconds : (placements prep splits pairs).map Prod.snd = pairs :=
    List.map_snd_zip represents.length_eq.ge
  rw [← seconds] at isDim
  obtain ⟨pair, isPair, rfl⟩ := List.mem_map.mp isDim
  obtain ⟨⟨⟨stride, split, sym⟩, pair⟩, placed, rfl⟩ := List.mem_map.mp isPair
  exact ⟨⟨stride, sym, split⟩, pair.2, placed⟩

theorem Represents.mem_pairs {entry : ℤ × ℕ × Symbol} {pair : ℕ × ℕ}
    (placed : (entry, pair) ∈ placements prep splits pairs) : pair ∈ pairs :=
  (List.of_mem_zip placed).2

/-- Every entry is placed. -/
theorem Represents.placement_of_entry (represents : Represents prep splits pairs view)
    {entry : ℤ × ℕ × Symbol} (listed : entry ∈ (prep.splitsByStride splits).entries) :
    ∃ pair, (entry, pair) ∈ placements prep splits pairs := by
  have firsts : (placements prep splits pairs).map Prod.fst =
      sortedByKey (prep.splitsByStride splits).entries :=
    List.map_fst_zip represents.length_eq.le
  rw [← (sortedByKey_perm _).mem_iff, ← firsts] at listed
  obtain ⟨⟨_, pair⟩, placed, rfl⟩ := List.mem_map.mp listed
  exact ⟨pair, placed⟩

theorem Represents.lookup_dims (represents : Represents prep splits pairs view) {dim factor : ℕ}
    (isPair : (dim, factor) ∈ pairs) : view.workSliceDims.lookup dim = some factor := by
  rw [represents.dims]
  apply lookup_of_mem
  · rw [((sortedByKey_perm pairs).map Prod.fst).nodup_iff]
    exact represents.distinct
  · exact (sortedByKey_perm pairs).mem_iff.mpr isPair

/-- The loop of a placement is an option of its dimension. -/
theorem Represents.mem_optionsOf (represents : Represents prep splits pairs view)
    (legal : ∀ sym ∈ prep.iterSpace.keys,
      prep.perSym splits sym = 1 ∨ prep.perSym splits sym ∈ domains.legal sym)
    {serving : Serving} {dim factor : ℕ}
    (placed : (serving.entry, (dim, factor)) ∈ placements prep splits pairs) :
    serving ∈ optionsOf prep domains view.workSliceDims dim := by
  have slices := Represents.slices_of_placement placed
  obtain ⟨multiplier, positive, isPlacement, isFactor⟩ := represents.serves_of_placement placed
  replace isFactor : factor = serving.split * multiplier := isFactor
  have wanted := represents.lookup_dims (Represents.mem_pairs placed)
  have whole : factor % multiplier = 0 := by
    rw [isFactor]
    exact Nat.mul_mod_left _ _
  have isSplit : factor / multiplier = serving.split := by
    rw [isFactor]
    exact Nat.mul_div_cancel _ positive
  have isLegal : serving.split ∈ domains.legal serving.sym := by
    have owned : prep.perSym splits serving.sym = serving.split := slices.split
    have large : 1 < serving.split := slices.large
    rw [← owned] at large ⊢
    exact (legal _ slices.listed).resolve_left large.ne'
  apply PerCoreViews.mem_optionsOf.2
  refine ⟨serving.sym, slices.listed, ?_⟩
  have stride : prep.hostStride serving.sym = serving.stride := slices.stride
  simp only [serving?, stride, if_neg (show serving.stride ≠ 0 from slices.moves)]
  rw [show viewPlacement prep serving.stride = some (dim, multiplier) from isPlacement]
  simp only [wanted, whole, isSplit, if_pos isLegal, ne_eq, not_true_eq_false, if_false]

/-- The chosen loops, and the splits of the hidden ones, are the division itself. -/
theorem Represents.assembled_eq (represents : Represents prep splits pairs view)
    (whole : WholeDivision prep splits) {servingOf : ℕ → Serving} {dims : List ℕ}
    (dimsDistinct : dims.Nodup) (allDims : ∀ dim, dim ∈ dims ↔ dim ∈ pairs.map Prod.fst)
    (served : ∀ dim ∈ pairs.map Prod.fst, ∃ factor,
      ((servingOf dim).entry, (dim, factor)) ∈ placements prep splits pairs) :
    ((dims.map servingOf).map Serving.sym).Nodup ∧
      assembled prep (dims.map servingOf)
        ((hiddenBehind prep (dims.map servingOf)).map (prep.perSym splits)) = splits := by
  have placedOnce : ((dims.map servingOf).map Serving.sym).Nodup := by
    rw [List.map_map]
    apply dimsDistinct.map_on
    intro dim isDim other isOther same
    obtain ⟨factor, placed⟩ := served dim ((allDims dim).mp isDim)
    obtain ⟨otherFactor, otherPlaced⟩ := served other ((allDims other).mp isOther)
    have sameStride : (servingOf dim).stride = (servingOf other).stride := by
      have one : prep.hostStride (servingOf dim).sym = (servingOf dim).stride :=
        (slices_of_placement placed).stride
      have two : prep.hostStride (servingOf other).sym = (servingOf other).stride :=
        (slices_of_placement otherPlaced).stride
      rw [← one, ← two]
      exact congrArg prep.hostStride same
    obtain ⟨multiplier, -, isPlacement, -⟩ := represents.serves_of_placement placed
    obtain ⟨otherMultiplier, -, otherPlacement, -⟩ := represents.serves_of_placement otherPlaced
    have both : some (dim, multiplier) = some (other, otherMultiplier) := by
      rw [← show viewPlacement prep (servingOf dim).stride = some (dim, multiplier) from isPlacement,
        sameStride]
      exact otherPlacement
    exact (Prod.mk.inj (Option.some.inj both)).1
  have isLoop : ∀ serving ∈ dims.map servingOf, serving.sym ∈ prep.iterSpace.keys := by
    intro serving listed
    obtain ⟨dim, isDim, rfl⟩ := List.mem_map.mp listed
    obtain ⟨factor, placed⟩ := served dim ((allDims dim).mp isDim)
    exact (slices_of_placement placed).listed
  refine ⟨placedOnce, Dict.ext_of_lookup ((keys_assembled isLoop).trans whole.keys.symm) ?_⟩
  intro sym listed
  rw [keys_assembled isLoop] at listed
  rw [whole.lookup_eq listed]
  have hiddenKeys : ((hiddenBehind prep (dims.map servingOf)).zip
      ((hiddenBehind prep (dims.map servingOf)).map (prep.perSym splits))).map Prod.fst =
      hiddenBehind prep (dims.map servingOf) :=
    List.map_fst_zip (List.length_map _).ge
  rw [assembled]
  by_cases isHidden : sym ∈ hiddenBehind prep (dims.map servingOf)
  · apply Dict.lookup_update_of_mem
    · rw [hiddenKeys]
      exact nodup_hiddenBehind _
    · rw [← List.map_prod_left_eq_zip]
      exact List.mem_map_of_mem isHidden
  · rw [Dict.lookup_update_of_not_mem (by rwa [hiddenKeys])]
    have placedKeys : ((dims.map servingOf).map fun serving => (serving.sym, serving.split)).map
        Prod.fst = (dims.map servingOf).map Serving.sym := by
      rw [List.map_map]
      rfl
    by_cases isPlaced : sym ∈ (dims.map servingOf).map Serving.sym
    · apply Dict.lookup_update_of_mem
      · rwa [placedKeys]
      · obtain ⟨serving, isServing, rfl⟩ := List.mem_map.mp isPlaced
        apply List.mem_map.mpr
        refine ⟨serving, isServing, ?_⟩
        obtain ⟨dim, isDim, rfl⟩ := List.mem_map.mp isServing
        obtain ⟨factor, placed⟩ := served dim ((allDims dim).mp isDim)
        have split : prep.perSym splits (servingOf dim).sym = (servingOf dim).split :=
          (slices_of_placement placed).split
        rw [split]
    · rw [Dict.lookup_update_of_not_mem (by rwa [placedKeys])]
      -- A split loop that moves the buffer is placed, or hidden behind the loop at its stride.
      have unsplit : prep.perSym splits sym = 1 := by
        by_contra notOne
        have large : 1 < prep.perSym splits sym := by
          have positive := whole.positive sym _ (whole.lookup_eq listed)
          omega
        have moves : prep.hostStride sym ≠ 0 := by
          intro still
          exact isHidden (mem_hiddenBehind.mpr ⟨listed, isPlaced, .inl still⟩)
        obtain ⟨value, isEntry⟩ := exists_splitsByStride listed large moves
        obtain ⟨⟨dim, factor⟩, placed⟩ := represents.placement_of_entry isEntry
        have isDim : dim ∈ pairs.map Prod.fst := List.mem_map_of_mem (mem_pairs placed)
        obtain ⟨otherFactor, otherPlaced⟩ := served dim isDim
        have same := represents.entry_unique placed otherPlaced rfl
        have stride : prep.hostStride (servingOf dim).sym = (servingOf dim).stride :=
          (slices_of_placement otherPlaced).stride
        have sameStride : prep.hostStride sym = (servingOf dim).stride :=
          congrArg (fun placement => placement.1.1) same
        apply isHidden
        apply mem_hiddenBehind.mpr
        refine ⟨listed, isPlaced, .inr ?_⟩
        rw [sameStride, ← stride]
        exact List.mem_map_of_mem
          (List.mem_map_of_mem (List.mem_map_of_mem ((allDims dim).mpr isDim)))
      rw [unsplit]
      have found := Dict.lookup_isSome_iff.mpr
        (show sym ∈ (prep.iterSpace.fromKeys 1).keys by rwa [Dict.keys_fromKeys])
      obtain ⟨value, isValue⟩ := Option.isSome_iff_exists.mp found
      rw [isValue, Dict.lookup_fromKeys isValue]

/-- The division behind a representable view is a candidate for it, and each dimension has an
option. -/
theorem Represents.mem_candidates (represents : Represents prep splits pairs view)
    (whole : WholeDivision prep splits)
    (legal : ∀ sym ∈ prep.iterSpace.keys,
      prep.perSym splits sym = 1 ∨ prep.perSym splits sym ∈ domains.legal sym) :
    splits ∈ candidates prep domains view ∧
      ∀ dim ∈ view.workSliceDims.map Prod.fst,
        optionsOf prep domains view.workSliceDims dim ≠ [] := by
  have isDim : ∀ dim, dim ∈ view.workSliceDims.map Prod.fst ↔ dim ∈ pairs.map Prod.fst := by
    intro dim
    rw [represents.dims]
    exact ((sortedByKey_perm pairs).map Prod.fst).mem_iff
  have : Nonempty Serving := ⟨⟨0, "", 0⟩⟩
  have chosen : ∀ dim ∈ pairs.map Prod.fst, ∃ serving : Serving, ∃ factor,
      (serving.entry, (dim, factor)) ∈ placements prep splits pairs :=
    fun dim listed => represents.exists_placement listed
  choose! servingOf served using chosen
  have isOption : ∀ dim ∈ pairs.map Prod.fst,
      servingOf dim ∈ optionsOf prep domains view.workSliceDims dim := by
    intro dim listed
    obtain ⟨factor, placed⟩ := served dim listed
    exact represents.mem_optionsOf legal placed
  refine ⟨?_, ?_⟩
  · let dims := (view.workSliceDims.map Prod.fst).insertionSort (· ≤ ·)
    have allDims : ∀ dim, dim ∈ dims ↔ dim ∈ pairs.map Prod.fst :=
      fun dim => List.mem_insertionSort _ |>.trans (isDim dim)
    have dimsDistinct : dims.Nodup := by
      rw [(List.perm_insertionSort _ _).nodup_iff, represents.dims,
        ((sortedByKey_perm pairs).map Prod.fst).nodup_iff]
      exact represents.distinct
    obtain ⟨placedOnce, isDivision⟩ := represents.assembled_eq whole dimsDistinct allDims served
    apply List.mem_filter.mpr
    refine ⟨List.mem_flatMap.mpr ⟨dims.map servingOf, ?_, ?_⟩, ?_⟩
    · exact map_mem_cartesian fun dim listed => isOption dim ((allDims dim).mp listed)
    · apply mem_candidatesOf.mpr
      refine ⟨placedOnce, _, ?_, isDivision⟩
      rw [List.forall₂_map_left_iff, List.forall₂_map_right_iff, List.forall₂_same]
      intro sym hidden
      exact mem_hiddenDomain.mpr (legal sym (mem_hiddenBehind.mp hidden).1)
    · rw [represents.cores, Option.all_some]
      exact decide_eq_true rfl
  · intro dim listed none
    have option := isOption dim ((isDim dim).mp listed)
    rw [none] at option
    cases option

end Wanted

/-! ## Splits are read loop by loop -/

section Total

variable {prep : ViewPrep} {splits : Dict Symbol ℕ}

/-- The splits with a one for each loop that has none. -/
def total (prep : ViewPrep) (splits : Dict Symbol ℕ) : Dict Symbol ℕ :=
  prep.iterSpace.tabulate (prep.perSym splits)

theorem perSym_total : prep.perSym (total prep splits) = prep.perSym splits := by
  funext sym
  by_cases listed : sym ∈ prep.iterSpace.keys
  · rw [ViewPrep.perSym, if_pos listed, total, Dict.lookup_tabulate listed, Option.getD_some]
  · rw [ViewPrep.perSym, if_neg listed, ViewPrep.perSym, if_neg listed]

theorem perSym_of_lookup {sym : Symbol} {factor : ℕ} (listed : sym ∈ prep.iterSpace.keys)
    (found : splits.lookup sym = some factor) : prep.perSym splits sym = factor := by
  rw [ViewPrep.perSym, if_pos listed, found, Option.getD_some]

theorem perSym_of_missing {sym : Symbol} (missing : sym ∉ splits.keys) :
    prep.perSym splits sym = 1 := by
  have none : splits.lookup sym = none := by
    rw [← Option.not_isSome_iff_eq_none, Dict.lookup_isSome_iff]
    exact missing
  rw [ViewPrep.perSym, none, Option.getD_none, ite_self]

theorem values_total : (total prep splits).values = prep.iterSpace.keys.map (prep.perSym splits) := by
  rw [total, Dict.values, Dict.tabulate, List.map_map, Dict.keys, List.map_map]
  rfl

variable (inside : ∀ sym ∈ splits.keys, sym ∈ prep.iterSpace.keys)

include inside in
theorem values_eq_map : splits.values = splits.keys.map (prep.perSym splits) := by
  rw [Dict.values, Dict.keys, List.map_map]
  apply List.map_congr_left
  rintro ⟨sym, factor⟩ listed
  exact (perSym_of_lookup (inside sym (List.mem_map_of_mem listed))
    (Dict.lookup_eq_some_iff.mpr listed)).symm

include inside in
theorem prod_total : (total prep splits).values.prod = splits.values.prod := by
  have loops : prep.iterSpace.keys.Nodup := prep.iterSpace.distinct
  have keys : splits.keys.Nodup := splits.distinct
  rw [values_total, values_eq_map inside, ← List.prod_toFinset _ loops, ← List.prod_toFinset _ keys]
  symm
  apply Finset.prod_subset
  · intro sym listed
    exact List.mem_toFinset.mpr (inside sym (List.mem_toFinset.mp listed))
  · intro sym _ missing
    exact perSym_of_missing fun listed => missing (List.mem_toFinset.mpr listed)

include inside in
theorem any_total :
    (total prep splits).values.any (1 < ·) = splits.values.any (1 < ·) := by
  rw [values_total, values_eq_map inside, Bool.eq_iff_iff, List.any_eq_true, List.any_eq_true]
  constructor
  · rintro ⟨factor, listed, large⟩
    obtain ⟨sym, -, rfl⟩ := List.mem_map.mp listed
    refine ⟨_, List.mem_map_of_mem ?_, large⟩
    by_contra missing
    rw [perSym_of_missing missing] at large
    cases large
  · rintro ⟨factor, listed, large⟩
    obtain ⟨sym, isSym, rfl⟩ := List.mem_map.mp listed
    exact ⟨_, List.mem_map_of_mem (inside sym isSym), large⟩

variable {config : ViewConfig} {sympy : Sympy} {concretize : Expr → ℕ}

theorem placeSplits_congr {other : Dict Symbol ℕ} (same : prep.perSym splits = prep.perSym other)
    (mapping : Except OwnershipError (Option (List (Symbol × Expr)))) (numCores : ℕ)
    (placed : Placed) (entries : List (ℤ × ℕ × Symbol)) :
    placeSplits config sympy concretize prep splits mapping numCores placed entries =
      placeSplits config sympy concretize prep other mapping numCores placed entries := by
  have owned : prep.tensorOwnedSplitSymbols splits = prep.tensorOwnedSplitSymbols other := by
    simp only [ViewPrep.tensorOwnedSplitSymbols, same]
  have step : placeSplit config sympy concretize prep splits mapping numCores =
      placeSplit config sympy concretize prep other mapping numCores := by
    funext placed entry
    unfold placeSplit proposedDim repackedDim ownsSlices interleaved decomposeSplit
    rw [same, owned]
  induction entries generalizing placed with
  | nil => rfl
  | cons entry entries inductionHypothesis =>
      simp only [placeSplits, step, inductionHypothesis]

include inside in
/-- A loop without a split is split into one. -/
theorem perCoreViewFromPrep_total :
    perCoreViewFromPrep config sympy concretize (some prep) (total prep splits) Dict.empty none =
      perCoreViewFromPrep config sympy concretize (some prep) splits Dict.empty none := by
  have byStride : prep.splitsByStride (total prep splits) = prep.splitsByStride splits := by
    have step : prep.addSplit (total prep splits) = prep.addSplit splits := by
      funext byStride sym
      simp only [ViewPrep.addSplit, perSym_total]
    rw [ViewPrep.splitsByStride, step, ViewPrep.splitsByStride]
  have mapping : iterationCoreToSlot config prep (total prep splits) none =
      iterationCoreToSlot config prep splits none := by
    funext numCores
    simp only [iterationCoreToSlot, perSym_total]
  unfold perCoreViewFromPrep
  dsimp only [Option.elim_none]
  rw [prod_total inside, any_total inside, byStride, mapping, placeSplits_congr perSym_total]

end Total

/-! ## The inverse -/

/-- Without relayouts, filters and limits on probes the inverse finds a division for each view
that a legal division of the loops has. -/
theorem invertPerCoreView_complete {config : ViewConfig} (disabled : config.lxPlannerRelayout = false)
    (sympy : Sympy) (concretize : Expr → ℕ) (prep : ViewPrep) (domains : FactorDomains)
    (splits : Dict Symbol ℕ) (ofLoops : ∀ sym ∈ splits.keys, sym ∈ prep.iterSpace.keys)
    (legal : Legal domains splits) {view : PerCoreView} {flag : Bool}
    (representable : perCoreViewFromPrep config sympy concretize (some prep) splits Dict.empty none =
      .ok (view, flag, true)) :
    ∃ found, invertPerCoreView config sympy concretize (some prep) view domains (fun _ => true) none =
        .ok (some found) ∧
      found.keys = prep.iterSpace.keys ∧ Legal domains found ∧
      found.values.prod = splits.values.prod ∧
      Matches config sympy concretize prep view found := by
  have perLoop : ∀ sym ∈ prep.iterSpace.keys,
      prep.perSym (total prep splits) sym = 1 ∨
        prep.perSym (total prep splits) sym ∈ domains.legal sym := by
    intro sym listed
    rw [perSym_total]
    by_cases present : sym ∈ splits.keys
    · obtain ⟨factor, found⟩ := Option.isSome_iff_exists.mp (Dict.lookup_isSome_iff.mpr present)
      rw [perSym_of_lookup listed found]
      exact legal sym factor found
    · exact .inl (perSym_of_missing present)
  have whole : WholeDivision prep (total prep splits) := by
    have keys : (total prep splits).keys = prep.iterSpace.keys := Dict.keys_tabulate _ _
    have allLegal : Legal domains (total prep splits) := by
      intro sym factor found
      have listed : sym ∈ prep.iterSpace.keys := by
        rw [← keys, ← Dict.lookup_isSome_iff, found]
        rfl
      rw [← perSym_of_lookup listed found]
      exact perLoop sym listed
    exact allLegal.whole keys
  rw [← perCoreViewFromPrep_total ofLoops] at representable
  obtain ⟨other, otherFlag, decision, decided, isView⟩ :=
    @perCoreViewFromPrep_cases config sympy concretize prep _ disabled whole
  rw [representable, Except.ok.injEq, Prod.mk.injEq, Prod.mk.injEq] at decided
  obtain ⟨rfl, rfl, rfl⟩ := decided
  obtain ⟨pairs, represents⟩ := isView rfl
  obtain ⟨isCandidate, hasOptions⟩ := represents.mem_candidates whole perLoop
  have allDecided : ∀ candidate ∈ candidates prep domains view, ∃ decision,
      perCoreViewFromPrep config sympy concretize (some prep) candidate Dict.empty none =
        .ok decision := by
    intro candidate listed
    obtain ⟨keys, isLegal, -⟩ := legal_of_candidates listed
    obtain ⟨_, _, _, decided, -⟩ :=
      @perCoreViewFromPrep_cases config sympy concretize prep _ disabled (isLegal.whole keys)
    exact ⟨_, decided⟩
  obtain ⟨found, isFound, stops, matched⟩ := firstMatch_finds allDecided isCandidate
    ⟨view, flag, representable, represents.samePartition_self whole⟩ 0
  obtain ⟨keys, isLegal, cores⟩ := legal_of_candidates isFound
  refine ⟨found, ?_, keys, isLegal, ?_, matched⟩
  · rw [← stops, invertPerCoreView]
    apply if_neg
    rintro ⟨dim, listed, none⟩
    exact hasOptions dim listed none
  · rw [cores _ represents.cores, prod_total ofLoops]

/-- Rows of one stick; the third loop does not move the buffer. -/
def rowsOfSticks : ViewPrep where
  iterSpace := ⟨[("i", .const 4), ("j", .const 8), ("k", .const 3)], by decide⟩
  depCoeff := ⟨[("i", 8), ("j", 1)], by decide⟩
  depDeviceCoordinates := [.sym "i", .sym "j"]
  deviceSize := [4, 8]
  strideMap := [8, 1]
  elemsPerStick := 8
  isMatmul := true

def withoutRelayouts : ViewConfig := ⟨false, false, true⟩

def constantExtent : Expr → ℕ
  | .const value => value.num.toNat
  | _ => 0

def halvesAndThirds : FactorDomains where
  factors := ⟨[("i", [2]), ("k", [3]), ("q", [2])], by decide⟩
  positive := by
    intro sym legal found
    have listed : (sym, legal) ∈ [("i", [2]), ("k", [3]), ("q", [2])] := Dict.lookup_eq_some_iff.mp found
    rcases List.mem_cons.mp listed with same | listed
    · cases same
      decide
    · rcases List.mem_cons.mp listed with same | listed
      · cases same
        decide
      · cases List.mem_singleton.mp listed
        decide

def halvedRows : Dict Symbol ℕ := ⟨[("k", 3), ("i", 2)], by decide⟩

/-- Two halves of the rows, each on the three cores of the third loop. -/
def halvedRowsView : PerCoreView :=
  ⟨[(0, 2)], [(0, .mod (.floor (.mul (.const (1 / 3)) (.sym coreId))) ⟨2, Nat.succ_pos 1⟩)], some 6⟩

theorem halvedRows_inverted :
    ∃ found, invertPerCoreView withoutRelayouts affineSympy constantExtent (some rowsOfSticks)
        halvedRowsView halvesAndThirds (fun _ => true) none = .ok (some found) ∧
      found.keys = rowsOfSticks.iterSpace.keys ∧ Legal halvesAndThirds found ∧
      found.values.prod = halvedRows.values.prod ∧
      Matches withoutRelayouts affineSympy constantExtent rowsOfSticks halvedRowsView found := by
  have representable : perCoreViewFromPrep withoutRelayouts affineSympy constantExtent
      (some rowsOfSticks) halvedRows Dict.empty none = .ok (halvedRowsView, false, true) := by
    rfl
  have ofLoops : ∀ sym ∈ halvedRows.keys, sym ∈ rowsOfSticks.iterSpace.keys := by decide
  apply invertPerCoreView_complete rfl _ _ _ _ halvedRows ofLoops _ representable
  intro sym factor found
  have listed : (sym, factor) ∈ [("k", 3), ("i", 2)] := Dict.lookup_eq_some_iff.mp found
  rcases List.mem_cons.mp listed with same | listed
  · cases same
    exact .inr (by decide)
  · cases List.mem_singleton.mp listed
    exact .inr (by decide)

/-- Without a layout the view of an undivided buffer is not inverted, nor is a view with the split
of a loop that the operation does not have. -/
theorem invertPerCoreView_incomplete :
    (perCoreViewFromPrep withoutRelayouts affineSympy constantExtent none Dict.empty Dict.empty
        none = .ok (⟨[], [], some 1⟩, false, true) ∧
      invertPerCoreView withoutRelayouts affineSympy constantExtent none ⟨[], [], some 1⟩
        halvesAndThirds (fun _ => true) none = .ok none) ∧
    (perCoreViewFromPrep withoutRelayouts affineSympy constantExtent (some rowsOfSticks)
        ⟨[("q", 2)], by decide⟩ Dict.empty none = .ok (⟨[], [], some 2⟩, false, true) ∧
      invertPerCoreView withoutRelayouts affineSympy constantExtent (some rowsOfSticks)
        ⟨[], [], some 2⟩ halvesAndThirds (fun _ => true) none = .ok none) :=
  ⟨⟨rfl, rfl⟩, rfl, rfl⟩

end TorchSpyre.PerCoreViews
