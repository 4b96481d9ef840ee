import TorchSpyre.CoarseTiling.TilingSpace

/-!
# Level edits

Two admitted specs are neighbours exactly when they differ in one level: its count, or whether it is
there. So the neighbourhood is symmetric, and dropping levels leads every spec to the untiled one.
-/

namespace TorchSpyre.CoarseTiling

open Lib

namespace TilingSpace

variable {space : TilingSpace}

/-! ## Canonical order -/

theorem Admissible.keys_lt {axes : List TileAxis} (admissible : space.Admissible axes) :
    axes.Pairwise fun first second => axisKey first < axisKey second := by
  refine admissible.ordered.imp_of_mem ?_
  intro first second isFirst isSecond ordered
  have sameKind := (admissible.output first isFirst).trans (admissible.output second isSecond).symm
  exact Prod.Lex.toLex_lt_toLex.mpr (.inr ⟨sameKind, ordered⟩)

/-- Levels in any order are brought into the canonical one. -/
theorem canonicalTiling_eq_of_perm {axes shuffled : List TileAxis} (admissible : space.Admissible axes)
    (permuted : shuffled.Perm axes) : canonicalTiling ⟨shuffled⟩ = ⟨axes⟩ := by
  set sorted := shuffled.insertionSort fun first second => axisKey first ≤ axisKey second with isSorted
  have sortedPerm : sorted.Perm axes := (List.perm_insertionSort _ _).trans permuted
  have ascending : sorted.Pairwise fun first second => axisKey first ≤ axisKey second := by
    have total : Std.Total fun first second : TileAxis => axisKey first ≤ axisKey second :=
      ⟨fun first second => le_total (axisKey first) (axisKey second)⟩
    have transitive : IsTrans TileAxis fun first second => axisKey first ≤ axisKey second :=
      ⟨fun _ _ _ => le_trans⟩
    exact List.pairwise_insertionSort _ _
  have distinct : (sorted.map axisKey).Nodup := by
    rw [(sortedPerm.map axisKey).nodup_iff]
    exact List.pairwise_map.mpr (admissible.keys_lt.imp ne_of_lt)
  have strictly : sorted.Pairwise fun first second => axisKey first < axisKey second :=
    (ascending.and (List.pairwise_map.mp distinct)).imp fun both => lt_of_le_of_ne both.1 both.2
  have same : sorted = axes := List.Perm.eq_of_pairwise
    (fun first second _ _ below above => absurd (below.trans above) (lt_irrefl _)) strictly
    admissible.keys_lt sortedPerm
  rw [canonicalTiling, ← isSorted, same]

/-! ## One edit -/

/-- The nests differ in one level. -/
inductive Edit : List TileAxis → List TileAxis → Prop
  | recount (front : List TileAxis) {first second : TileAxis} (back : List TileAxis)
      (sameDim : first.hostDim = second.hostDim) (different : first.count ≠ second.count) :
      Edit (front ++ first :: back) (front ++ second :: back)
  | remove (front : List TileAxis) (axis : TileAxis) (back : List TileAxis) :
      Edit (front ++ axis :: back) (front ++ back)
  | add (front : List TileAxis) (axis : TileAxis) (back : List TileAxis) :
      Edit (front ++ back) (front ++ axis :: back)

theorem Edit.symm {first second : List TileAxis} (edit : Edit first second) : Edit second first := by
  cases edit with
  | recount front back sameDim different => exact .recount front back sameDim.symm different.symm
  | remove front axis back => exact .add front axis back
  | add front axis back => exact .remove front axis back

theorem Edit.ne {first second : List TileAxis} (edit : Edit first second) : first ≠ second := by
  intro same
  cases edit with
  | recount front back sameDim different =>
      exact different (congrArg TileAxis.count (List.cons.inj (List.append_cancel_left same)).1)
  | remove front axis back => simpa using congrArg List.length same
  | add front axis back => simpa using congrArg List.length same

theorem mem_recounted {axes : List TileAxis} {candidate : TileSpec} :
    candidate ∈ space.recounted axes ↔ ∃ front axis back count, axes = front ++ axis :: back ∧
      count ∈ space.counts axis.hostDim ∧ count ≠ axis.count ∧
      candidate = ⟨front ++ { axis with count := count } :: back⟩ := by
  simp only [recounted, List.mem_flatMap, List.mem_map, List.mem_filter, decide_eq_true_eq, Prod.exists,
    List.mk_mem_zipIdx_iff_getElem?]
  constructor
  · rintro ⟨axis, i, found, count, ⟨legal, different⟩, rfl⟩
    obtain ⟨bounded, rfl⟩ := List.getElem?_eq_some_iff.mp found
    exact ⟨axes.take i, axes[i], axes.drop (i + 1), count, by simp, legal, different, rfl⟩
  · rintro ⟨front, axis, back, count, rfl, legal, different, rfl⟩
    exact ⟨axis, front.length, by simp, count, ⟨legal, different⟩, by simp⟩

theorem mem_shortened {axes : List TileAxis} {candidate : TileSpec} :
    candidate ∈ shortened axes ↔
      ∃ front axis back, axes = front ++ axis :: back ∧ candidate = ⟨front ++ back⟩ := by
  simp only [shortened, List.mem_map, List.mem_range]
  constructor
  · rintro ⟨i, bounded, rfl⟩
    exact ⟨axes.take i, axes[i], axes.drop (i + 1), by simp, rfl⟩
  · rintro ⟨front, axis, back, rfl, rfl⟩
    exact ⟨front.length, by simp, by simp⟩

theorem mem_lengthened {axes : List TileAxis} (output : ∀ axis ∈ axes, axis.isReduction = false)
    {candidate : TileSpec} :
    candidate ∈ space.lengthened axes ↔ ∃ hostDim count, (∀ axis ∈ axes, axis.hostDim ≠ hostDim) ∧
      count ∈ space.counts hostDim ∧ candidate = ⟨axes ++ [⟨hostDim, count, false⟩]⟩ := by
  have allOutput : axes.filter (fun axis => !axis.isReduction) = axes :=
    List.filter_eq_self.mpr fun axis inside => by simp [output axis inside]
  simp only [lengthened, allOutput, List.mem_flatMap, List.mem_filter, List.mem_map, decide_eq_true_eq,
    not_exists, not_and]
  constructor
  · rintro ⟨hostDim, ⟨-, untiled⟩, count, legal, rfl⟩
    exact ⟨hostDim, count, untiled, legal, rfl⟩
  · rintro ⟨hostDim, count, untiled, legal, rfl⟩
    exact ⟨hostDim, ⟨mem_outputDims_of_mem_counts legal, untiled⟩, count, legal, rfl⟩

/-! ## Neighbours of an admitted spec -/

/-- A new level goes somewhere between the levels there are. -/
theorem exists_insert {axes longer : List TileAxis} {axis : TileAxis} (admissible : space.Admissible axes)
    (longerAdmissible : space.Admissible longer) (permuted : longer.Perm (axes ++ [axis])) :
    ∃ front back, axes = front ++ back ∧ longer = front ++ axis :: back := by
  have listed : axis ∈ longer := permuted.mem_iff.mpr (by simp)
  obtain ⟨front, back, rfl⟩ := List.append_of_mem listed
  refine ⟨front, back, ?_, rfl⟩
  have remaining : (front ++ back).Perm axes := by
    have moved := List.perm_middle.symm.trans (permuted.trans (List.perm_append_singleton axis axes))
    exact moved.cons_inv
  have shorter := longerAdmissible.sublist (List.Sublist.append_left (List.sublist_cons_self axis back) front)
  have asSpec := canonicalTiling_eq_of_perm admissible remaining
  rw [canonicalTiling_eq_of_perm shorter (List.Perm.refl _)] at asSpec
  exact (TileSpec.mk.inj asSpec).symm

/-- Another legal count in its place keeps a spec admissible. -/
theorem Admissible.recount {front back : List TileAxis} {axis : TileAxis}
    (admissible : space.Admissible (front ++ axis :: back)) {count : ℕ}
    (legal : count ∈ space.counts axis.hostDim) :
    space.Admissible (front ++ { axis with count := count } :: back) := by
  have fields : ∀ {motive : TileAxis → Prop}, (∀ other ∈ front ++ axis :: back, motive other) →
      motive { axis with count := count } → ∀ other ∈ front ++ { axis with count := count } :: back, motive other := by
    intro motive held changed other inside
    rcases List.mem_append.mp inside with inFront | inRest
    · exact held other (List.mem_append_left _ inFront)
    · rcases List.mem_cons.mp inRest with rfl | inBack
      · exact changed
      · exact held other (List.mem_append_right _ (List.mem_cons_of_mem _ inBack))
  refine ⟨fields admissible.output ?_, fields admissible.legal legal, ?_, ?_⟩
  · exact admissible.output axis (List.mem_append_right _ List.mem_cons_self)
  · have ordered := List.pairwise_map.mpr admissible.ordered
    rw [List.map_append, List.map_cons] at ordered
    apply List.pairwise_map.mp
    rwa [List.map_append, List.map_cons]
  · simpa using admissible.depth

theorem mem_neighbours {spec other : TileSpec} :
    other ∈ space.neighbours spec ↔
      (∃ candidate, (candidate ∈ space.recounted spec.axes ∨ candidate ∈ shortened spec.axes ∨
        candidate ∈ space.lengthened spec.axes) ∧ canonicalTiling candidate = other) ∧
      other ≠ spec ∧ space.Admissible other.axes := by
  simp only [neighbours, List.mem_filter, mem_addAll, List.not_mem_nil, false_or, List.mem_map,
    List.mem_append, Bool.and_eq_true, decide_eq_true_eq, admits_iff, or_assoc]

/-- The neighbours of an admitted spec are the admitted specs one edit away. -/
theorem mem_neighbours_iff {spec other : TileSpec} (admissible : space.Admissible spec.axes) :
    other ∈ space.neighbours spec ↔ space.Admissible other.axes ∧ Edit spec.axes other.axes := by
  obtain ⟨axes⟩ := spec
  obtain ⟨edited⟩ := other
  simp only [mem_neighbours, mem_recounted, mem_shortened, mem_lengthened admissible.output]
  constructor
  · rintro ⟨⟨candidate, isCandidate, canonical⟩, -, editedAdmissible⟩
    refine ⟨editedAdmissible, ?_⟩
    rcases isCandidate with ⟨front, axis, back, count, rfl, legal, different, rfl⟩ |
      ⟨front, axis, back, rfl, rfl⟩ | ⟨hostDim, count, untiled, legal, rfl⟩
    · rw [canonicalTiling_eq_of_perm (admissible.recount legal) (List.Perm.refl _)] at canonical
      cases canonical
      exact .recount front back rfl different.symm
    · rw [canonicalTiling_eq_of_perm (admissible.sublist (List.Sublist.append_left
        (List.sublist_cons_self axis back) front)) (List.Perm.refl _)] at canonical
      cases canonical
      exact .remove front axis back
    · have permuted : edited.Perm (axes ++ [⟨hostDim, count, false⟩]) := by
        rw [← (TileSpec.mk.inj canonical)]
        exact List.perm_insertionSort _ _
      obtain ⟨front, back, rfl, rfl⟩ := exists_insert admissible editedAdmissible permuted
      exact .add front _ back
  · rintro ⟨editedAdmissible, edit⟩
    refine ⟨?_, fun same => edit.ne (TileSpec.mk.inj same).symm, editedAdmissible⟩
    cases edit with
    | @recount front first second back sameDim different =>
        have isSecond : { first with count := second.count } = second := by
          obtain ⟨hostDim, count, isReduction⟩ := second
          have sameKind : first.isReduction = isReduction :=
            (admissible.output first (by simp)).trans (editedAdmissible.output ⟨hostDim, count, isReduction⟩ (by simp)).symm
          rw [← sameKind]
          exact congrArg (fun dim => TileAxis.mk dim count first.isReduction) sameDim
        have legal := editedAdmissible.legal second (by simp)
        refine ⟨⟨front ++ second :: back⟩, .inl ⟨front, first, back, second.count, rfl, ?_, different.symm, ?_⟩,
          canonicalTiling_eq_of_perm editedAdmissible (List.Perm.refl _)⟩
        · rwa [sameDim]
        · rw [isSecond]
    | remove front axis back =>
        exact ⟨⟨front ++ back⟩, .inr (.inl ⟨front, axis, back, rfl, rfl⟩),
          canonicalTiling_eq_of_perm editedAdmissible (List.Perm.refl _)⟩
    | add front axis back =>
        have isOutput := editedAdmissible.output axis (by simp)
        have sameAxis : axis = ⟨axis.hostDim, axis.count, false⟩ := by rw [← isOutput]
        refine ⟨⟨front ++ back ++ [axis]⟩, .inr (.inr ⟨axis.hostDim, axis.count, ?_,
          editedAdmissible.legal axis (by simp), by rw [← sameAxis]⟩), ?_⟩
        · have ordered := List.pairwise_append.mp editedAdmissible.ordered
          intro other inside
          rcases List.mem_append.mp inside with inFront | inBack
          · exact (ordered.2.2 other inFront axis List.mem_cons_self).ne
          · exact (List.rel_of_pairwise_cons ordered.2.1 inBack).ne'
        · apply canonicalTiling_eq_of_perm editedAdmissible
          exact (List.perm_append_singleton axis _).trans List.perm_middle.symm

/-- Dropping the outermost level, again and again. -/
theorem reaches_untiled {axes : List TileAxis} (admissible : space.Admissible axes) :
    Relation.ReflTransGen (fun spec other => other ∈ space.neighbours spec) ⟨axes⟩ TileSpec.untiled := by
  induction axes with
  | nil => exact .refl
  | cons axis rest inductionHypothesis =>
      have shorter := admissible.sublist (List.sublist_cons_self axis rest)
      exact .head ((mem_neighbours_iff admissible).mpr ⟨shorter, .remove [] axis rest⟩)
        (inductionHypothesis shorter)

/-- Membership agrees with the enumeration, and the neighbourhood of the admitted specs is
symmetric and connected. -/
theorem tilingSpace_spec (space : TilingSpace) (distinct : space.DistinctCounts) :
    (∀ spec, space.admits spec = true ↔ spec ∈ space.enumerate) ∧ space.enumerate.Nodup ∧
      ∀ spec, space.admits spec = true →
        (∀ other ∈ space.neighbours spec, space.admits other = true ∧ other ≠ spec) ∧
        (∀ other, space.admits other = true →
          (other ∈ space.neighbours spec ↔ spec ∈ space.neighbours other)) ∧
        Relation.ReflTransGen (fun current next => next ∈ space.neighbours current) spec TileSpec.untiled := by
  refine ⟨fun spec => mem_enumerate.symm, nodup_enumerate distinct, ?_⟩
  intro spec admitted
  have admissible := admits_iff.mp admitted
  refine ⟨?_, ?_, reaches_untiled admissible⟩
  · intro other inside
    obtain ⟨-, different, otherAdmissible⟩ := mem_neighbours.1 inside
    exact ⟨admits_iff.mpr otherAdmissible, different⟩
  · intro other otherAdmitted
    have otherAdmissible := admits_iff.mp otherAdmitted
    rw [mem_neighbours_iff admissible, mem_neighbours_iff otherAdmissible]
    exact ⟨fun both => ⟨admissible, both.2.symm⟩, fun both => ⟨otherAdmissible, both.2.symm⟩⟩

/-- Two tileable dims, nested at most twice. -/
def twoDims : TilingSpace := ⟨2, ⟨[(1, [2, 4]), (0, [3])], by decide⟩⟩

theorem tilingSpace_spec_twoDims :
    twoDims.enumerate.Nodup ∧ Relation.ReflTransGen (fun current next => next ∈ twoDims.neighbours current)
      ⟨[⟨0, 3, false⟩, ⟨1, 4, false⟩]⟩ TileSpec.untiled :=
  have spec := tilingSpace_spec twoDims (by decide)
  ⟨spec.2.1, (spec.2.2 _ (by decide)).2.2⟩

end TilingSpace

end TorchSpyre.CoarseTiling
