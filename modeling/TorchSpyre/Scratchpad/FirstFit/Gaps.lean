import TorchSpyre.Lib.Order
import TorchSpyre.Scratchpad.FirstFit.Solver

/-!
# What a gap guarantees

A gap that survives the subtraction lies inside the address range and on one side
of every live buffer subtracted from it; the gap picked by either policy holds the
buffer at its aligned start.
-/

namespace TorchSpyre.Scratchpad.FirstFit

open Lib

theorem mem_allMinus {gaps : List Gap} {low high minimumSize : ℤ} {gap : Gap}
    (membership : gap ∈ allMinus gaps low high minimumSize) :
    ∃ source ∈ gaps, source.start ≤ gap.start ∧ gap.stop ≤ source.stop ∧
      (gap.stop ≤ low ∨ high ≤ gap.start) ∧ gap.inPlaceParents = [] := by
  obtain ⟨source, inside, derived⟩ := List.mem_flatMap.mp membership
  refine ⟨source, inside, ?_⟩
  rcases List.mem_append.mp derived with lower | upper
  · split_ifs at lower <;> simp only [List.mem_singleton, List.not_mem_nil] at lower
    all_goals
      subst lower
      refine ⟨le_rfl, ?_, .inl ?_, rfl⟩ <;> simp only <;> omega
  · split_ifs at upper <;> simp only [List.mem_singleton, List.not_mem_nil] at upper
    all_goals
      subst upper
      refine ⟨?_, le_rfl, .inr ?_, rfl⟩ <;> simp only <;> omega

/-- The buffer has to keep clear of the other one. -/
structure Conflicts (buffer : LifetimeBoundBuffer) (parentNames : List String)
    (other : LifetimeBoundBuffer) (address : ℤ) : Prop where
  located : other.address = some address
  live : other.overlapsInTime buffer
  notParent : other.name ∉ parentNames

theorem subtractPlaced_spec {buffer other : LifetimeBoundBuffer} {parentNames : List String}
    {gaps : List Gap} {gap : Gap}
    (bare : ∀ source ∈ gaps, source.inPlaceParents = [])
    (membership : gap ∈ subtractPlaced buffer parentNames gaps other) :
    gap.inPlaceParents = [] ∧
    ∃ source ∈ gaps, source.start ≤ gap.start ∧ gap.stop ≤ source.stop ∧
      ∀ address, Conflicts buffer parentNames other address →
        gap.stop ≤ address ∨ address + other.size ≤ gap.start := by
  have untouched (inGaps : gap ∈ gaps)
      (free : ∀ address, ¬ Conflicts buffer parentNames other address) :
      gap.inPlaceParents = [] ∧
      ∃ source ∈ gaps, source.start ≤ gap.start ∧ gap.stop ≤ source.stop ∧
        ∀ address, Conflicts buffer parentNames other address →
          gap.stop ≤ address ∨ address + other.size ≤ gap.start :=
    ⟨bare gap inGaps, gap, inGaps, le_rfl, le_rfl,
      fun address conflict => absurd conflict (free address)⟩
  unfold subtractPlaced at membership
  split at membership
  next unplaced =>
    refine untouched membership fun address conflict => ?_
    cases unplaced.symm.trans conflict.located
  next address located =>
    split_ifs at membership with isParent live
    · exact untouched membership fun _ conflict => conflict.notParent isParent
    · obtain ⟨source, inside, lower, upper, clear, noParents⟩ := mem_allMinus membership
      refine ⟨noParents, source, inside, lower, upper, fun other conflict => ?_⟩
      have same : address = other := Option.some.inj (located.symm.trans conflict.located)
      rwa [← same]
    · exact untouched membership fun _ conflict => live conflict.live

theorem foldl_subtractPlaced_spec {buffer : LifetimeBoundBuffer} {parentNames : List String}
    {placed : List LifetimeBoundBuffer} {gaps : List Gap} {gap : Gap}
    (bare : ∀ source ∈ gaps, source.inPlaceParents = [])
    (membership : gap ∈ placed.foldl (subtractPlaced buffer parentNames) gaps) :
    gap.inPlaceParents = [] ∧
    ∃ source ∈ gaps, source.start ≤ gap.start ∧ gap.stop ≤ source.stop ∧
      ∀ other ∈ placed, ∀ address, Conflicts buffer parentNames other address →
        gap.stop ≤ address ∨ address + other.size ≤ gap.start := by
  induction placed generalizing gaps with
  | nil => exact ⟨bare gap membership, gap, membership, le_rfl, le_rfl, by simp⟩
  | cons head tail inductionHypothesis =>
      have nextBare : ∀ source ∈ subtractPlaced buffer parentNames gaps head,
          source.inPlaceParents = [] :=
        fun source inside => (subtractPlaced_spec bare inside).1
      obtain ⟨noParents, middle, inMiddle, lower, upper, clear⟩ :=
        inductionHypothesis nextBare membership
      obtain ⟨-, source, inSource, middleLower, middleUpper, headClear⟩ :=
        subtractPlaced_spec bare inMiddle
      refine ⟨noParents, source, inSource, le_trans middleLower lower,
        le_trans upper middleUpper, ?_⟩
      intro other otherIn address conflict
      rcases List.mem_cons.mp otherIn with rfl | inTail
      · exact (headClear address conflict).imp (le_trans upper) (fun below => le_trans below lower)
      · exact clear other inTail address conflict

theorem mem_parentsWithin {buffer : LifetimeBoundBuffer} {placed : List LifetimeBoundBuffer}
    {gap : Gap} {name : String} (membership : name ∈ parentsWithin buffer placed gap) :
    name ∈ buffer.inPlaceParents ∧ ∃ parent ∈ placed, parent.name = name ∧
      ∃ address, parent.address = some address ∧ gap.start ≤ address ∧
        address + parent.size ≤ gap.stop := by
  obtain ⟨declared, within⟩ := List.mem_filter.mp membership
  refine ⟨declared, ?_⟩
  split at within
  · cases within
  next parent found =>
    split at within
    · cases within
    next address located =>
      obtain ⟨parentIn, named⟩ := mem_of_byName found
      exact ⟨parent, parentIn, named, address, located, of_decide_eq_true within⟩

/-- What is known of a gap offered to a buffer. -/
structure Gap.Offered (limit : ℤ) (buffer : LifetimeBoundBuffer)
    (placed : List LifetimeBoundBuffer) (parentNames : List String) (gap : Gap) : Prop where
  nonneg : 0 ≤ gap.start
  bounded : gap.stop ≤ limit
  clear : ∀ other ∈ placed, ∀ address, Conflicts buffer parentNames other address →
    gap.stop ≤ address ∨ address + other.size ≤ gap.start
  parents : ∀ name ∈ gap.inPlaceParents, name ∈ buffer.inPlaceParents ∧
    ∃ parent ∈ placed, parent.name = name ∧ ∃ address, parent.address = some address ∧
      gap.start ≤ address ∧ address + parent.size ≤ gap.stop

theorem offered_of_mem_buildGaps {limit : ℤ} {buffer : LifetimeBoundBuffer}
    {placed : List LifetimeBoundBuffer} {reuse : Bool} {gap : Gap}
    (membership : gap ∈ buildGaps limit buffer placed reuse) :
    gap.Offered limit buffer placed (if reuse then buffer.inPlaceParents else []) := by
  obtain ⟨bareGap, inFold, rfl⟩ := List.mem_map.mp membership
  obtain ⟨noParents, source, inSource, lower, upper, clear⟩ :=
    foldl_subtractPlaced_spec (by simp) inFold
  rw [List.mem_singleton.mp inSource] at lower upper
  refine ⟨lower, upper, clear, ?_⟩
  intro name isParent
  rw [noParents, List.nil_append] at isParent
  exact mem_parentsWithin isParent

/-! ## Picking a gap -/

/-- The buffer fits at the rounded start of the gap. -/
def Gap.Fits (alignment size : ℤ) (gap : Gap) : Prop :=
  ∃ address, roundUpToAlignment gap.start alignment = .ok address ∧ address + size ≤ gap.stop

theorem pickFirst_some {alignment size : ℤ} {gaps : List Gap} {gap : Gap}
    (picked : pickFirst alignment size gaps = .ok (some gap)) :
    gap ∈ gaps ∧ gap.Fits alignment size := by
  induction gaps with
  | nil => cases picked
  | cons head tail inductionHypothesis =>
      simp only [pickFirst] at picked
      split at picked
      · cases picked
      next address rounded =>
        split_ifs at picked with fits
        · cases picked
          exact ⟨List.mem_cons_self, address, rounded, fits⟩
        · obtain ⟨inTail, tailFits⟩ := inductionHypothesis picked
          exact ⟨List.mem_cons_of_mem _ inTail, tailFits⟩

theorem pickBest_some {alignment size : ℤ} {gaps : List Gap} {best : Option (Gap × ℤ)} {gap : Gap}
    (picked : pickBest alignment size best gaps = .ok (some gap)) :
    (∃ waste, best = some (gap, waste)) ∨ (gap ∈ gaps ∧ gap.Fits alignment size) := by
  induction gaps generalizing best with
  | nil =>
      obtain ⟨⟨_, waste⟩, isBest, rfl⟩ := Option.map_eq_some_iff.mp (Except.ok.inj picked)
      exact .inl ⟨waste, isBest⟩
  | cons head tail inductionHypothesis =>
      have fromTail : gap ∈ tail ∧ gap.Fits alignment size →
          gap ∈ head :: tail ∧ gap.Fits alignment size :=
        fun ⟨inTail, tailFits⟩ => ⟨List.mem_cons_of_mem _ inTail, tailFits⟩
      simp only [pickBest] at picked
      split at picked
      · cases picked
      next address rounded =>
        -- The head replaces the best gap so far, or that one is kept.
        have replaced {waste : ℤ}
            (later : pickBest alignment size (some (head, waste)) tail = .ok (some gap))
            (fits : address + size ≤ head.stop) :
            gap ∈ head :: tail ∧ gap.Fits alignment size := by
          rcases inductionHypothesis later with ⟨_, isHead⟩ | inTail
          · cases isHead
            exact ⟨List.mem_cons_self, address, rounded, fits⟩
          · exact fromTail inTail
        split_ifs at picked with fits
        · split at picked
          · exact .inr (replaced picked fits)
          · split_ifs at picked
            · exact .inr (replaced picked fits)
            · exact (inductionHypothesis picked).imp id fromTail
        · exact (inductionHypothesis picked).imp id fromTail

theorem pickGap_some {policy : Policy} {alignment size : ℤ} {gaps : List Gap} {gap : Gap}
    (picked : pickGap policy alignment size gaps = .ok (some gap)) :
    gap ∈ gaps ∧ gap.Fits alignment size := by
  cases policy with
  | first => exact pickFirst_some picked
  | best =>
      rcases pickBest_some picked with ⟨_, none⟩ | found
      · cases none
      · exact found

section Alignment

variable {alignment : ℤ} (positive : 0 < alignment)

include positive

theorem roundUpToAlignment_eq (arg : ℤ) :
    roundUpToAlignment arg alignment = .ok (roundUp alignment arg) := by
  unfold roundUpToAlignment roundUp
  rw [if_neg (ne_of_gt positive), Int.fdiv_eq_ediv_of_nonneg _ (le_of_lt positive)]

theorem pickGap_total (policy : Policy) (size : ℤ) (gaps : List Gap) :
    ∃ picked, pickGap policy alignment size gaps = .ok picked := by
  cases policy with
  | first =>
      induction gaps with
      | nil => exact ⟨none, rfl⟩
      | cons head tail inductionHypothesis =>
          simp only [pickGap, pickFirst, roundUpToAlignment_eq positive]
          split_ifs
          · exact ⟨_, rfl⟩
          · exact inductionHypothesis
  | best =>
      simp only [pickGap]
      generalize (none : Option (Gap × ℤ)) = best
      induction gaps generalizing best with
      | nil => exact ⟨_, rfl⟩
      | cons head tail inductionHypothesis =>
          simp only [pickBest, roundUpToAlignment_eq positive]
          split_ifs
          · split
            · exact inductionHypothesis _
            · split_ifs <;> exact inductionHypothesis _
          · exact inductionHypothesis _

end Alignment

end TorchSpyre.Scratchpad.FirstFit
