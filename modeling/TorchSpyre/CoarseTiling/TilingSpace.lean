import Mathlib
import TorchSpyre.CoarseTiling.Runs
import TorchSpyre.Lib.Cartesian
import TorchSpyre.Lib.Combinations
import TorchSpyre.Lib.Dict
import TorchSpyre.Lib.FirstSeen

/-!
# The space of coarse tilings

An operation's legal tilings: an increasing choice of tileable dims with a legal count for each.
The space is asked about one spec, listed, and walked one level edit at a time.
-/

namespace TorchSpyre.CoarseTiling

open Lib

/-- The key of `canonical_tiling`. -/
def axisKey (axis : TileAxis) : Bool ×ₗ ℕ := toLex (axis.isReduction, axis.hostDim)

def canonicalTiling (spec : TileSpec) : TileSpec :=
  ⟨spec.axes.insertionSort fun first second => axisKey first ≤ axisKey second⟩

structure TilingSpace where
  maxDims : ℕ
  outputCounts : Dict ℕ (List ℕ)

namespace TilingSpace

variable (space : TilingSpace)

def outputDims : List ℕ := space.outputCounts.keys.insertionSort (· ≤ ·)

def counts (hostDim : ℕ) : List ℕ := (space.outputCounts.lookup hostDim).getD []

def admits (spec : TileSpec) : Bool :=
  if spec.isUntiled then true
  else if spec.axes.any fun axis => axis.isReduction then false
  else if spec.axes.any fun axis => axis.count ∉ space.counts axis.hostDim then false
  else if (spec.axes.zip spec.axes.tail).any fun pair => pair.1.hostDim ≥ pair.2.hostDim then false
  else spec.axes.length ≤ space.maxDims

/-! ## Enumeration -/

def specOf (dims counts : List ℕ) : TileSpec :=
  ⟨List.zipWith (fun hostDim count => ⟨hostDim, count, false⟩) dims counts⟩

/-- The specs over one choice of dims. -/
def specsOver (combo : List (ℕ × List ℕ)) : List TileSpec :=
  (cartesian (combo.map Prod.snd)).map fun counts => specOf (combo.map Prod.fst) counts

def perDim : List (ℕ × List ℕ) := space.outputDims.map fun hostDim => (hostDim, space.counts hostDim)

def enumerate : List TileSpec :=
  TileSpec.untiled ::
    (List.range' 1 (min space.maxDims space.perDim.length)).flatMap fun depth =>
      (combinations depth space.perDim).flatMap specsOver

/-! ## Neighbours -/

/-- One level with another of its dim's counts. -/
def recounted (axes : List TileAxis) : List TileSpec :=
  axes.zipIdx.flatMap fun (axis, i) =>
    ((space.counts axis.hostDim).filter fun count => count ≠ axis.count).map fun count =>
      ⟨axes.take i ++ { axis with count := count } :: axes.drop (i + 1)⟩

def shortened (axes : List TileAxis) : List TileSpec :=
  (List.range axes.length).map fun i => ⟨axes.take i ++ axes.drop (i + 1)⟩

def lengthened (axes : List TileAxis) : List TileSpec :=
  let tiled := (axes.filter fun axis => !axis.isReduction).map TileAxis.hostDim
  (space.outputDims.filter fun hostDim => hostDim ∉ tiled).flatMap fun hostDim =>
    (space.counts hostDim).map fun count => ⟨axes ++ [⟨hostDim, count, false⟩]⟩

def neighbours (spec : TileSpec) : List TileSpec :=
  let out := space.recounted spec.axes ++ shortened spec.axes ++ space.lengthened spec.axes
  (addAll [] (out.map canonicalTiling)).filter fun candidate => candidate ≠ spec && space.admits candidate

/-! ## Admitted specs -/

/-- Output levels with legal counts in ascending order of their dims, not too deep. -/
structure Admissible (axes : List TileAxis) : Prop where
  output : ∀ axis ∈ axes, axis.isReduction = false
  legal : ∀ axis ∈ axes, axis.count ∈ space.counts axis.hostDim
  ordered : axes.Pairwise fun first second => first.hostDim < second.hostDim
  depth : axes.length ≤ space.maxDims

variable {space}

theorem any_zip_tail_eq_false {axes : List TileAxis} :
    ((axes.zip axes.tail).any fun pair => pair.1.hostDim ≥ pair.2.hostDim) = false ↔
      axes.Pairwise fun first second => first.hostDim < second.hostDim := by
  have transitive : IsTrans TileAxis fun first second => first.hostDim < second.hostDim :=
    ⟨fun _ _ _ => lt_trans⟩
  rw [← List.isChain_iff_pairwise]
  induction axes with
  | nil => simp
  | cons first rest inductionHypothesis =>
      cases rest with
      | nil => simp
      | cons second rest =>
          refine Iff.trans ?_ ((and_congr_right fun _ => inductionHypothesis).trans List.isChain_cons_cons.symm)
          simp

theorem admits_iff {spec : TileSpec} : space.admits spec = true ↔ space.Admissible spec.axes := by
  unfold admits
  constructor
  · intro admitted
    split at admitted
    next untiled =>
      have empty : spec.axes = [] := List.isEmpty_iff.mp untiled
      rw [empty]
      exact ⟨by simp, by simp, .nil, Nat.zero_le _⟩
    next =>
      split at admitted
      · cases admitted
      next output =>
        split at admitted
        · cases admitted
        next legal =>
          split at admitted
          · cases admitted
          next ordered =>
            exact ⟨by simpa using output, by simpa using legal,
              any_zip_tail_eq_false.1 (by simpa using ordered), of_decide_eq_true admitted⟩
  · rintro ⟨output, legal, ordered, depth⟩
    split
    · rfl
    · rw [if_neg (by simpa using output), if_neg (by simpa using legal),
        if_neg (by rw [any_zip_tail_eq_false.2 ordered]; simp)]
      exact decide_eq_true depth

theorem Admissible.sublist {axes shorter : List TileAxis} (admissible : space.Admissible axes)
    (isShorter : shorter.Sublist axes) : space.Admissible shorter :=
  ⟨fun axis inside => admissible.output axis (isShorter.subset inside),
    fun axis inside => admissible.legal axis (isShorter.subset inside),
    admissible.ordered.sublist isShorter, isShorter.length_le.trans admissible.depth⟩

theorem mem_outputDims {hostDim : ℕ} : hostDim ∈ space.outputDims ↔ hostDim ∈ space.outputCounts.keys :=
  List.mem_insertionSort _

theorem mem_outputDims_of_mem_counts {hostDim count : ℕ} (inside : count ∈ space.counts hostDim) :
    hostDim ∈ space.outputDims := by
  rw [mem_outputDims, ← Dict.lookup_isSome_iff]
  unfold counts at inside
  cases found : space.outputCounts.lookup hostDim with
  | none => simp [found] at inside
  | some legal => rfl

theorem outputDims_ordered : space.outputDims.Pairwise (· < ·) := by
  have sorted : space.outputDims.Pairwise (· ≤ ·) := List.pairwise_insertionSort _ _
  have distinct : space.outputDims.Nodup :=
    (List.perm_insertionSort (· ≤ ·) _).nodup_iff.mpr space.outputCounts.distinct
  exact (sorted.and distinct).imp fun both => lt_of_le_of_ne both.1 both.2

/-! ## Membership and enumeration agree -/

/-- The specs over a choice of dims have one level for each, with one of its counts. -/
theorem mem_specsOver {combo : List (ℕ × List ℕ)} {spec : TileSpec} :
    spec ∈ specsOver combo ↔ List.Forall₂ (fun axis entry =>
      axis.isReduction = false ∧ axis.hostDim = entry.1 ∧ axis.count ∈ entry.2) spec.axes combo := by
  obtain ⟨axes⟩ := spec
  simp only [specsOver, List.mem_map, mem_cartesian, specOf, TileSpec.mk.injEq]
  induction combo generalizing axes with
  | nil => simp
  | cons entry rest inductionHypothesis =>
      constructor
      · rintro ⟨counts, isChoice, rfl⟩
        cases isChoice with
        | cons isCount others => exact .cons ⟨rfl, rfl, isCount⟩ ((inductionHypothesis _).mp ⟨_, others, rfl⟩)
      · intro related
        cases related with
        | @cons axis _ axes _ matched others =>
            obtain ⟨counts, isChoice, rfl⟩ := (inductionHypothesis _).mpr others
            obtain ⟨hostDim, count, isReduction⟩ := axis
            obtain ⟨rfl, rfl, isCount⟩ := matched
            exact ⟨count :: counts, .cons isCount isChoice, rfl⟩

theorem hostDims_of_mem_specsOver {combo : List (ℕ × List ℕ)} {spec : TileSpec}
    (inside : spec ∈ specsOver combo) : spec.axes.map TileAxis.hostDim = combo.map Prod.fst := by
  have related := mem_specsOver.1 inside
  rw [← List.forall₂_eq_eq_eq, List.forall₂_map_left_iff, List.forall₂_map_right_iff]
  exact related.imp fun _ _ matched => matched.2.1

theorem mem_perDim {entry : ℕ × List ℕ} (inside : entry ∈ space.perDim) : entry.2 = space.counts entry.1 := by
  obtain ⟨hostDim, -, rfl⟩ := List.mem_map.mp inside
  rfl

/-- A choice of dims with their counts is known by its dims. -/
theorem eq_map_of_sublist {combo : List (ℕ × List ℕ)} (isChoice : combo.Sublist space.perDim) :
    combo = (combo.map Prod.fst).map fun hostDim => (hostDim, space.counts hostDim) := by
  rw [List.map_map]
  conv_lhs => rw [← List.map_id combo]
  exact List.map_congr_left fun entry inside =>
    Prod.ext rfl (mem_perDim (isChoice.subset inside))

theorem admissible_of_mem_specsOver {combo : List (ℕ × List ℕ)} (isChoice : combo.Sublist space.perDim)
    (depth : combo.length ≤ space.maxDims) {spec : TileSpec} (inside : spec ∈ specsOver combo) :
    space.Admissible spec.axes := by
  have related := mem_specsOver.1 inside
  have axisSpec : ∀ axis ∈ spec.axes, axis.isReduction = false ∧ axis.count ∈ space.counts axis.hostDim := by
    intro axis isAxis
    obtain ⟨position, bounded, rfl⟩ := List.mem_iff_getElem.mp isAxis
    obtain ⟨sameLength, pointwise⟩ := List.forall₂_iff_get.mp related
    obtain ⟨output, sameDim, legal⟩ := pointwise position bounded (sameLength ▸ bounded)
    refine ⟨output, ?_⟩
    have fromSpace := mem_perDim (isChoice.subset (List.get_mem combo ⟨position, sameLength ▸ bounded⟩))
    rw [fromSpace, ← sameDim] at legal
    exact legal
  refine ⟨fun axis isAxis => (axisSpec axis isAxis).1, fun axis isAxis => (axisSpec axis isAxis).2, ?_, ?_⟩
  · have dims : (spec.axes.map TileAxis.hostDim).Sublist space.outputDims := by
      rw [hostDims_of_mem_specsOver inside]
      have mapped := isChoice.map Prod.fst
      rwa [perDim, List.map_map, show Prod.fst ∘ (fun hostDim => (hostDim, space.counts hostDim)) = id from rfl,
        List.map_id] at mapped
    exact List.pairwise_map.mp (space.outputDims_ordered.sublist dims)
  · rw [related.length_eq]
    exact depth

/-- The dims of an admitted spec are a choice of tileable dims. -/
theorem Admissible.choice {axes : List TileAxis} (admissible : space.Admissible axes) :
    (axes.map fun axis => (axis.hostDim, space.counts axis.hostDim)).Sublist space.perDim := by
  have dims : (axes.map TileAxis.hostDim).Sublist space.outputDims := by
    have ordered := List.pairwise_map.mpr admissible.ordered
    have listed : axes.map TileAxis.hostDim ⊆ space.outputDims := by
      intro hostDim inside
      obtain ⟨axis, isAxis, rfl⟩ := List.mem_map.mp inside
      exact mem_outputDims_of_mem_counts (admissible.legal axis isAxis)
    exact List.sublist_of_subperm_of_pairwise (List.subperm_of_subset (ordered.imp ne_of_lt) listed)
      (ordered.imp le_of_lt) (space.outputDims_ordered.imp le_of_lt)
  have mapped := dims.map fun hostDim => (hostDim, space.counts hostDim)
  rwa [List.map_map] at mapped

theorem mem_enumerate {spec : TileSpec} : spec ∈ space.enumerate ↔ space.admits spec = true := by
  rw [admits_iff]
  simp only [enumerate, List.mem_cons, List.mem_flatMap, List.mem_range'_1, mem_combinations]
  constructor
  · rintro (rfl | ⟨depth, ⟨positive, bounded⟩, combo, ⟨isChoice, rfl⟩, inside⟩)
    · exact ⟨by simp [TileSpec.untiled], by simp [TileSpec.untiled], .nil, Nat.zero_le _⟩
    · exact admissible_of_mem_specsOver isChoice (by omega) inside
  · intro admissible
    rcases spec.axes.eq_nil_or_concat with empty | nonempty
    · exact .inl (by rw [TileSpec.untiled, ← empty])
    · have positive : 0 < spec.axes.length := by
        obtain ⟨front, last, isConcat⟩ := nonempty
        simp [isConcat]
      have choice := admissible.choice
      have depth := admissible.depth
      have narrow := choice.length_le
      rw [List.length_map] at narrow
      refine .inr ⟨spec.axes.length, ⟨positive, by omega⟩, _, ⟨choice, List.length_map _⟩, ?_⟩
      rw [mem_specsOver, List.forall₂_map_right_iff, List.forall₂_same]
      exact fun axis isAxis => ⟨admissible.output axis isAxis, rfl, admissible.legal axis isAxis⟩

/-- No dim lists a count twice. -/
def DistinctCounts (space : TilingSpace) : Prop := ∀ entry ∈ space.outputCounts.entries, entry.2.Nodup

instance (space : TilingSpace) : Decidable space.DistinctCounts :=
  inferInstanceAs (Decidable (∀ entry ∈ space.outputCounts.entries, entry.2.Nodup))

theorem DistinctCounts.counts (distinct : space.DistinctCounts) (hostDim : ℕ) : (space.counts hostDim).Nodup := by
  unfold TilingSpace.counts
  cases found : space.outputCounts.lookup hostDim with
  | none => exact List.nodup_nil
  | some legal => exact distinct (hostDim, legal) (Dict.lookup_eq_some_iff.mp found)

theorem counts_specOf {dims counts : List ℕ} (sameLength : counts.length = dims.length) :
    (specOf dims counts).axes.map TileAxis.count = counts := by
  induction dims generalizing counts with
  | nil => simp [specOf, List.length_eq_zero_iff.mp sameLength]
  | cons hostDim dims inductionHypothesis =>
      cases counts with
      | nil => cases sameLength
      | cons count counts => exact congrArg (count :: ·) (inductionHypothesis (Nat.succ.inj sameLength))

theorem nodup_specsOver {combo : List (ℕ × List ℕ)} (distinct : ∀ entry ∈ combo, entry.2.Nodup) :
    (specsOver combo).Nodup := by
  have choices : (cartesian (combo.map Prod.snd)).Nodup := nodup_cartesian fun items inside => by
    obtain ⟨entry, isEntry, rfl⟩ := List.mem_map.mp inside
    exact distinct entry isEntry
  refine choices.map_on ?_
  intro first isFirst second isSecond same
  have sized : ∀ counts ∈ cartesian (combo.map Prod.snd), counts.length = (combo.map Prod.fst).length := by
    intro counts inside
    rw [(mem_cartesian.mp inside).length_eq, List.length_map, List.length_map]
  rw [← counts_specOf (sized first isFirst), ← counts_specOf (sized second isSecond), same]

theorem nodup_enumerate (distinct : space.DistinctCounts) : space.enumerate.Nodup := by
  have perDimDistinct : space.perDim.Nodup :=
    List.Nodup.map (fun _ _ same => (Prod.ext_iff.mp same).1) (space.outputDims_ordered.imp ne_of_lt)
  have depths : ∀ depth spec, spec ∈ (combinations depth space.perDim).flatMap specsOver →
      spec.axes.length = depth := by
    intro depth spec inside
    obtain ⟨combo, isCombo, isSpec⟩ := List.mem_flatMap.mp inside
    rw [(mem_specsOver.1 isSpec).length_eq, (mem_combinations.mp isCombo).2]
  rw [enumerate, List.nodup_cons, List.nodup_flatMap]
  refine ⟨?_, fun depth _ => ?_, ?_⟩
  · intro inside
    obtain ⟨depth, isDepth, isSpec⟩ := List.mem_flatMap.mp inside
    have shallow := depths depth _ isSpec
    have positive := (List.mem_range'_1.mp isDepth).1
    simp only [TileSpec.untiled, List.length_nil] at shallow
    omega
  · rw [List.nodup_flatMap]
    refine ⟨fun combo isCombo => nodup_specsOver fun entry inside => ?_, ?_⟩
    · rw [mem_perDim ((mem_combinations.mp isCombo).1.subset inside)]
      exact distinct.counts entry.1
    · refine (nodup_combinations perDimDistinct depth).imp_of_mem ?_
      intro first second isFirst isSecond different spec inFirst inSecond
      apply different
      rw [eq_map_of_sublist (mem_combinations.mp isFirst).1, eq_map_of_sublist (mem_combinations.mp isSecond).1,
        ← hostDims_of_mem_specsOver inFirst, hostDims_of_mem_specsOver inSecond]
  · refine (List.nodup_range' ).imp ?_
    intro first second different spec inFirst inSecond
    exact different ((depths first spec inFirst).symm.trans (depths second spec inSecond))

end TilingSpace

end TorchSpyre.CoarseTiling
