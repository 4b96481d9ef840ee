import TorchSpyre.Scratchpad.Greedy.Atomicity

/-!
# A failed group and a barred group

The walk with a group that fails, and the walk with the members of that group barred, agree on
usage, on handed slots and on every address outside the group.
-/

namespace TorchSpyre.Scratchpad.Greedy

open Lib LifetimeBoundBuffer

/-! ## Barred members -/

/-- The buffer with a reason not to reside, if it is one of the members. -/
def bar (reason : String) (barred : List String) (buffer : LifetimeBoundBuffer) :
    LifetimeBoundBuffer :=
  if buffer.name ∈ barred then { buffer with residencyReason := some reason } else buffer

section Bar

variable {reason : String} {barred : List String}

theorem bar_of_not_mem {buffer : LifetimeBoundBuffer} (outside : buffer.name ∉ barred) :
    bar reason barred buffer = buffer := if_neg outside

@[simp]
theorem bar_name (buffer : LifetimeBoundBuffer) : (bar reason barred buffer).name = buffer.name := by
  unfold bar
  split <;> rfl

theorem byName_bar (buffers : List LifetimeBoundBuffer) (name : String) :
    byName (buffers.map (bar reason barred)) name = (byName buffers name).map (bar reason barred) := by
  simp only [byName, ← List.map_reverse, List.find?_map, Function.comp_def, bar_name]

theorem byName_bar_of_not_mem (buffers : List LifetimeBoundBuffer) {name : String}
    (outside : name ∉ barred) :
    byName (buffers.map (bar reason barred)) name = byName buffers name := by
  rw [byName_bar]
  cases found : byName buffers name with
  | none => rfl
  | some buffer =>
      rw [← (mem_of_byName found).2] at outside
      rw [Option.map_some, bar_of_not_mem outside]

theorem checkInPlacePair_bar (child parent : LifetimeBoundBuffer) (parentName : String) :
    checkInPlacePair (bar reason barred child) (bar reason barred parent) parentName =
      checkInPlacePair child parent parentName := by
  unfold bar
  split <;> split <;> rfl

theorem checkInPlaceRelationships_bar (buffers : List LifetimeBoundBuffer) :
    checkInPlaceRelationships (buffers.map (bar reason barred)) =
      checkInPlaceRelationships buffers := by
  have pairs : resolvedPairs (buffers.map (bar reason barred)) =
      (resolvedPairs buffers).map fun pair =>
        (bar reason barred pair.1, bar reason barred pair.2.1, pair.2.2) := by
    rw [resolvedPairs, resolvedPairs, List.flatMap_map, List.map_flatMap]
    congr 1
    funext child
    have parents : (bar reason barred child).inPlaceParents = child.inPlaceParents := by
      unfold bar
      split <;> rfl
    rw [parents, List.map_filterMap]
    congr 1
    funext parentName
    rw [byName_bar]
    cases byName buffers parentName <;> rfl
  rw [checkInPlaceRelationships, pairs, checkInPlaceRelationships]
  generalize resolvedPairs buffers = declared
  induction declared with
  | nil => rfl
  | cons pair rest inductionHypothesis =>
      simp only [List.map_cons, checkPairs, checkInPlacePair_bar, inductionHypothesis]

theorem excluded_bar {limit : ℤ} {buffer : LifetimeBoundBuffer} :
    (excluded limit (bar reason barred buffer)).isSome ↔
      buffer.name ∈ barred ∨ (excluded limit buffer).isSome := by
  by_cases inside : buffer.name ∈ barred
  · simp [bar, inside, excluded]
  · simp [bar_of_not_mem inside, inside]

/-- Barring takes the members out of the placeable buffers. -/
theorem placeable_bar (limit : ℤ) (buffers : List LifetimeBoundBuffer) :
    (partition limit (buffers.map (bar reason barred))).1 =
      (partition limit buffers).1.filter fun buffer => buffer.name ∉ barred := by
  have recorded : ∀ buffer ∈ buffers,
      buffer.name ∈ recordExclusions limit (buffers.map (bar reason barred)) ↔
        buffer.name ∈ barred ∨ buffer.name ∈ recordExclusions limit buffers := by
    intro buffer isBuffer
    simp only [recordExclusions, List.mem_map, List.mem_filter]
    constructor
    · rintro ⟨other, ⟨⟨source, isSource, rfl⟩, isExcluded⟩, sameName⟩
      rw [bar_name] at sameName
      rcases excluded_bar.1 isExcluded with inside | isOld
      · exact .inl (sameName ▸ inside)
      · exact .inr ⟨source, ⟨isSource, isOld⟩, sameName⟩
    · rintro (inside | ⟨source, ⟨isSource, isOld⟩, sameName⟩)
      · exact ⟨bar reason barred buffer, ⟨⟨buffer, isBuffer, rfl⟩, excluded_bar.2 (.inl inside)⟩,
          bar_name buffer⟩
      · exact ⟨bar reason barred source, ⟨⟨source, isSource, rfl⟩, excluded_bar.2 (.inr isOld)⟩,
          (bar_name source).trans sameName⟩
  rw [partition, partition, List.filter_filter, List.filter_map]
  have kept : buffers.filter ((fun buffer => decide (buffer.name ∉
        recordExclusions limit (buffers.map (bar reason barred)))) ∘ bar reason barred) =
      buffers.filter fun buffer => decide (buffer.name ∉ barred) &&
        decide (buffer.name ∉ recordExclusions limit buffers) := by
    apply List.filter_congr
    intro buffer isBuffer
    simp only [Function.comp_apply, bar_name, recorded buffer isBuffer, not_or, Bool.decide_and]
  rw [kept]
  refine (List.map_congr_left fun buffer isKept => ?_).trans (List.map_id _)
  have outside := (List.mem_filter.mp isKept).2
  rw [Bool.and_eq_true, decide_eq_true_iff] at outside
  exact bar_of_not_mem outside.1

end Bar

/-! ## Two walks side by side -/

/-- The states agree but for the barred members, none of which is in use. -/
structure Agree (barred : List String) (first second : State) : Prop where
  usage : first.usage = second.usage
  reused : first.reusedParents = second.reusedParents
  addresses : ∀ name ∉ barred, first.addresses name = second.addresses name
  rejected : ∀ name ∉ barred, name ∈ first.rejected ↔ name ∈ second.rejected
  outside : ∀ placement ∈ first.usage, placement.buffer.name ∉ barred

section Agree

variable {barred : List String} {limit alignment : ℤ} {first second next : State}
  {buffer : LifetimeBoundBuffer}

theorem Agree.place (agree : Agree barred first second) (notBarred : buffer.name ∉ barred)
    (address : ℤ) : Agree barred (first.place buffer address) (second.place buffer address) := by
  refine ⟨?_, agree.reused, fun name notIn => ?_, agree.rejected, ?_⟩
  · simp only [State.place, agree.usage]
  · by_cases same : name = buffer.name
    · simp [State.place, same]
    · simp only [State.place, Function.update_of_ne same]
      exact agree.addresses name notIn
  · intro placement inUse
    rcases List.mem_append.mp inUse with old | new
    · exact agree.outside placement old
    · rw [List.mem_singleton.mp new]
      exact notBarred

theorem Agree.tryAllocateOne (agree : Agree barred first second) (notBarred : buffer.name ∉ barred)
    (allocated : tryAllocateOne limit alignment first buffer = .ok next) :
    ∃ other, Greedy.tryAllocateOne limit alignment second buffer = .ok other ∧
      Agree barred next other := by
  have sameSlot : inPlaceSlot second buffer = inPlaceSlot first buffer := by
    simp only [inPlaceSlot, agree.usage, agree.reused]
  unfold Greedy.tryAllocateOne at allocated ⊢
  rw [sameSlot, ← agree.usage]
  split at allocated
  next parent _ =>
    cases allocated
    have placed := agree.place notBarred parent.address
    refine ⟨_, rfl, placed.usage, ?_, placed.addresses, placed.rejected, placed.outside⟩
    simp only [agree.reused]
  next =>
    split at allocated
    next => cases allocated
    next address _ =>
      cases allocated
      exact ⟨_, rfl, agree.place notBarred address⟩
    next =>
      cases allocated
      refine ⟨_, rfl, rfl, agree.reused, fun name notIn => ?_, agree.rejected, agree.outside⟩
      by_cases same : name = buffer.name
      · simp [same]
      · simp only [Function.update_of_ne same]
        exact agree.addresses name notIn

theorem Agree.allocateGroup {previous restored : State} {group pending : List LifetimeBoundBuffer}
    (before : Agree barred previous restored) (agree : Agree barred first second)
    (notBarred : ∀ member ∈ group, member.name ∉ barred) (among : pending ⊆ group)
    (allocated : allocateGroup limit alignment previous group first pending = .ok next) :
    ∃ other, Greedy.allocateGroup limit alignment restored group second pending = .ok other ∧
      Agree barred next other := by
  induction pending generalizing first second with
  | nil =>
      cases allocated
      exact ⟨second, rfl, agree⟩
  | cons member rest inductionHypothesis =>
      have memberOutside := notBarred member (among List.mem_cons_self)
      unfold Greedy.allocateGroup at allocated ⊢
      split at allocated
      next => cases allocated
      next middle attempted =>
        obtain ⟨other, tried, middleAgree⟩ := agree.tryAllocateOne memberOutside attempted
        simp only [tried, ← middleAgree.addresses member.name memberOutside]
        split at allocated
        next isPlaced =>
          rw [if_pos isPlaced]
          exact inductionHypothesis middleAgree
            (fun _ later => among (List.mem_cons_of_mem _ later)) allocated
        next unplaced =>
          cases allocated
          rw [if_neg unplaced]
          refine ⟨_, rfl, before.usage, before.reused, fun name notIn => ?_, fun name notIn => ?_,
            before.outside⟩
          · simp only [middleAgree.addresses name notIn]
          · simp only [List.mem_append, middleAgree.rejected name notIn]

end Agree

section Walks

variable {buffers : List LifetimeBoundBuffer} {groups : Groups} {limit alignment : ℤ}
  (reason : String) {barred : List String} {first second next : State}
  (apart : ∀ group ∈ groups, ∀ other ∈ groups, ∀ name, name ∈ group → name ∈ other → group = other)
  (isGroup : barred ∈ groups)

include apart isGroup in
theorem Agree.tryAllocate {buffer : LifetimeBoundBuffer} (agree : Agree barred first second)
    (notBarred : buffer.name ∉ barred)
    (allocated : tryAllocate buffers groups limit alignment first buffer = .ok next) :
    ∃ other, Greedy.tryAllocate (buffers.map (bar reason barred)) groups limit alignment second
      buffer = .ok other ∧ Agree barred next other := by
  have sameCondition : ((second.addresses buffer.name).isSome ∨ buffer.name ∈ second.rejected) ↔
      ((first.addresses buffer.name).isSome ∨ buffer.name ∈ first.rejected) := by
    rw [agree.addresses _ notBarred, agree.rejected _ notBarred]
  unfold Greedy.tryAllocate at allocated ⊢
  split at allocated
  next settled =>
    cases allocated
    rw [if_pos (sameCondition.mpr settled)]
    exact ⟨second, rfl, agree⟩
  next unsettled =>
    rw [if_neg fun settled => unsettled (sameCondition.mp settled)]
    split at allocated
    next => exact agree.tryAllocateOne notBarred allocated
    next names found =>
      obtain ⟨isNames, inNames⟩ := groupOf_eq_some found
      have disjoint : ∀ name ∈ names, name ∉ barred := by
        intro name inside isBarred
        rw [apart names isNames barred isGroup name inside isBarred] at inNames
        exact notBarred inNames
      have sameGroup : names.filterMap (byName (buffers.map (bar reason barred))) =
          names.filterMap (byName buffers) :=
        List.filterMap_congr fun name inside => byName_bar_of_not_mem buffers (disjoint name inside)
      simp only [sameGroup]
      apply agree.allocateGroup agree _ (List.Subset.refl _) allocated
      intro member isMember
      obtain ⟨name, inside, isNamed⟩ := List.mem_filterMap.mp isMember
      rw [(mem_of_byName isNamed).2]
      exact disjoint name inside

theorem Agree.deallocateAt (agree : Agree barred first second) (tick : ℤ)
    (placeable : List LifetimeBoundBuffer) :
    Agree barred (deallocateAt tick first placeable)
      (Greedy.deallocateAt tick second (placeable.filter fun buffer => buffer.name ∉ barred)) := by
  unfold Greedy.deallocateAt
  induction placeable generalizing first second with
  | nil => exact agree
  | cons head tail inductionHypothesis =>
      have freed : Agree barred (tryDeallocate first head) (tryDeallocate second head) := by
        refine ⟨?_, agree.reused, agree.addresses, agree.rejected, fun placement inUse => ?_⟩
        · simp only [tryDeallocate, agree.usage]
        · exact agree.outside placement (List.mem_of_mem_eraseP inUse)
      by_cases isBarred : head.name ∈ barred
      · rw [List.filter_cons_of_neg (by simpa using isBarred), List.foldl_cons]
        have untouched : tryDeallocate first head = first := by
          have absent : ∀ placement ∈ first.usage, ¬ placement.buffer = head := by
            rintro placement inUse rfl
            exact agree.outside placement inUse isBarred
          rw [tryDeallocate, List.eraseP_of_forall_not (by simpa using absent)]
        rw [untouched, ite_self]
        exact inductionHypothesis agree
      · rw [List.filter_cons_of_pos (by simpa using isBarred), List.foldl_cons, List.foldl_cons]
        split
        next => exact inductionHypothesis freed
        next => exact inductionHypothesis agree

variable (unique : UniqueNames buffers) {placeableNames rejected initial : List String}
  (registered : Registered buffers placeableNames buffers groups initial)

include isGroup unique registered

/-- The members of a group that ends without addresses leave no trace. -/
theorem Agree.allocateAt {tick : ℤ} {pending : List LifetimeBoundBuffer}
    (agree : Agree barred first second)
    (reached : Reached buffers groups limit alignment rejected first)
    (allocated : allocateAt buffers groups limit alignment tick first pending = .ok next)
    (unplaced : ∀ name ∈ barred, next.addresses name = none) :
    ∃ other, Greedy.allocateAt (buffers.map (bar reason barred)) groups limit alignment tick second
      (pending.filter fun buffer => buffer.name ∉ barred) = .ok other ∧ Agree barred next other := by
  induction pending generalizing first second with
  | nil =>
      cases allocated
      exact ⟨second, rfl, agree⟩
  | cons head tail inductionHypothesis =>
      unfold Greedy.allocateAt at allocated
      by_cases isBarred : head.name ∈ barred
      · rw [List.filter_cons_of_neg (by simpa using isBarred)]
        split at allocated
        next =>
          split at allocated
          next => cases allocated
          next middle tried =>
            have middleReached := reached.attempt tried
            refine inductionHypothesis ?_ middleReached allocated
            have step := attempted unique registered.resolved (reached.whole unique registered) tried
            cases step with
            | settled => exact agree
            | single alone => exact absurd isBarred (alone barred isGroup)
            | @group _ names isNames inNames _ allPlaced =>
                obtain rfl := registered.apart names isNames barred isGroup head.name inNames isBarred
                have stays := allocateAt_persists unique registered middleReached allocated
                  (allPlaced head.name inNames)
                rw [unplaced head.name inNames] at stays
                cases stays
            | @failed names isNames inNames =>
                obtain rfl := registered.apart names isNames barred isGroup head.name inNames isBarred
                refine ⟨agree.usage, agree.reused, agree.addresses, fun name notIn => ?_, agree.outside⟩
                rw [← agree.rejected name notIn, List.mem_append]
                exact or_iff_right notIn
        next => exact inductionHypothesis agree reached allocated
      · rw [List.filter_cons_of_pos (by simpa using isBarred)]
        unfold Greedy.allocateAt
        split at allocated
        next starts =>
          rw [if_pos starts]
          split at allocated
          next => cases allocated
          next middle tried =>
            obtain ⟨other, triedToo, middleAgree⟩ := agree.tryAllocate reason registered.apart
              isGroup isBarred tried
            simp only [triedToo]
            exact inductionHypothesis middleAgree (reached.attempt tried) allocated
        next idle =>
          rw [if_neg idle]
          exact inductionHypothesis agree reached allocated

end Walks

section Ticks

variable {buffers : List LifetimeBoundBuffer} {groups : Groups} {limit alignment : ℤ}

theorem allocateAt_idle {tick : ℤ} {pending : List LifetimeBoundBuffer} {state : State}
    (idle : ∀ buffer ∈ pending, tick ≠ buffer.startTime) :
    allocateAt buffers groups limit alignment tick state pending = .ok state := by
  induction pending with
  | nil => rfl
  | cons head tail inductionHypothesis =>
      rw [allocateAt, if_neg (idle head List.mem_cons_self)]
      exact inductionHypothesis fun buffer later => idle buffer (List.mem_cons_of_mem _ later)

theorem deallocateAt_idle {tick : ℤ} {placeable : List LifetimeBoundBuffer} {state : State}
    (idle : ∀ buffer ∈ placeable, tick ≠ buffer.endTime) : deallocateAt tick state placeable = state := by
  unfold deallocateAt
  induction placeable with
  | nil => rfl
  | cons head tail inductionHypothesis =>
      rw [List.foldl_cons, if_neg (idle head List.mem_cons_self)]
      exact inductionHypothesis fun buffer later => idle buffer (List.mem_cons_of_mem _ later)

theorem mem_sortedTimes {placeable : List LifetimeBoundBuffer} {tick : ℤ} :
    tick ∈ sortedTimes placeable ↔
      ∃ buffer ∈ placeable, tick = buffer.startTime ∨ tick = buffer.endTime := by
  unfold sortedTimes
  rw [(List.perm_insertionSort _ _).mem_iff, List.mem_dedup, List.mem_flatMap]
  simp

/-- The ticks of fewer buffers are some of the ticks. -/
theorem sortedTimes_filter {placeable fewer : List LifetimeBoundBuffer} (subset : fewer ⊆ placeable) :
    sortedTimes fewer = (sortedTimes placeable).filter fun tick => tick ∈ sortedTimes fewer := by
  have nodup : ∀ some : List LifetimeBoundBuffer, (sortedTimes some).Nodup := fun some =>
    (List.perm_insertionSort _ _).nodup_iff.mpr (List.nodup_dedup _)
  apply List.Perm.eq_of_pairwise' (sortedTimes_sorted fewer) ((sortedTimes_sorted placeable).filter _)
  rw [List.perm_ext_iff_of_nodup (nodup fewer) ((nodup placeable).filter _)]
  intro tick
  rw [List.mem_filter, decide_eq_true_iff]
  refine ⟨fun isTick => ⟨?_, isTick⟩, And.right⟩
  obtain ⟨buffer, isFewer, isTime⟩ := mem_sortedTimes.1 isTick
  exact mem_sortedTimes.2 ⟨buffer, subset isFewer, isTime⟩

end Ticks

section Runs

variable {buffers : List LifetimeBoundBuffer} {groups : Groups} {limit alignment : ℤ}
  (reason : String) {barred : List String} {first second final : State}
  (isGroup : barred ∈ groups) (unique : UniqueNames buffers)
  {placeableNames rejected initial : List String}
  (registered : Registered buffers placeableNames buffers groups initial)

include isGroup unique registered

/-- The walks agree, with the ticks of the members left out of the second one. -/
theorem Agree.walk {times : List ℤ} (agree : Agree barred first second)
    (reached : Reached buffers groups limit alignment rejected first)
    (walked : walk buffers groups limit alignment (partition limit buffers).1 first times = .ok final)
    (unplaced : ∀ name ∈ barred, final.addresses name = none) :
    ∃ other, Greedy.walk (buffers.map (bar reason barred)) groups limit alignment
        ((partition limit buffers).1.filter fun buffer => buffer.name ∉ barred) second
        (times.filter fun tick => tick ∈ sortedTimes
          ((partition limit buffers).1.filter fun buffer => buffer.name ∉ barred)) = .ok other ∧
      Agree barred final other := by
  induction times generalizing first second with
  | nil =>
      cases walked
      exact ⟨second, rfl, agree⟩
  | cons tick rest inductionHypothesis =>
      unfold Greedy.walk at walked
      split at walked
      next => cases walked
      next middle allocated =>
        have freed := reached.deallocate tick
        have middleReached := reached_allocateAt freed allocated
        have middleUnplaced : ∀ name ∈ barred, middle.addresses name = none := by
          intro name isBarred
          by_contra isPlaced
          have stays := walk_persists unique registered middleReached walked
            (Option.isSome_iff_ne_none.mpr isPlaced)
          rw [unplaced name isBarred] at stays
          cases stays
        obtain ⟨other, allocatedToo, middleAgree⟩ := (agree.deallocateAt tick
          (partition limit buffers).1).allocateAt reason isGroup unique registered freed allocated
          middleUnplaced
        obtain ⟨last, walkedToo, lastAgree⟩ := inductionHypothesis middleAgree middleReached walked
        by_cases kept : tick ∈ sortedTimes
            ((partition limit buffers).1.filter fun buffer => buffer.name ∉ barred)
        · rw [List.filter_cons_of_pos (by simpa using kept)]
          unfold Greedy.walk
          simp only [allocatedToo]
          exact ⟨last, walkedToo, lastAgree⟩
        · have idle : ∀ buffer ∈ (partition limit buffers).1.filter fun buffer => buffer.name ∉ barred,
              tick ≠ buffer.startTime ∧ tick ≠ buffer.endTime := by
            intro buffer isKept
            rw [← not_or]
            exact fun isTime => kept (mem_sortedTimes.2 ⟨buffer, isKept, isTime⟩)
          rw [deallocateAt_idle fun buffer isKept => (idle buffer isKept).2,
            allocateAt_idle fun buffer isKept => (idle buffer isKept).1] at allocatedToo
          obtain rfl := Except.ok.inj allocatedToo
          rw [List.filter_cons_of_neg (by simpa using kept)]
          exact ⟨last, walkedToo, lastAgree⟩

end Runs

/-! ## Registration -/

section Registration

variable {reason : String} {barred : List String} {buffers : List LifetimeBoundBuffer}
  {placeableNames otherNames : List String}

theorem memberError?_bar (groups : Groups) (name : String) :
    memberError? (buffers.map (bar reason barred)) groups name = memberError? buffers groups name := by
  simp only [memberError?, byName_bar, Option.isNone_map]

/-- Barring changes no group, and rejects no member of another group. -/
theorem registerGroups_bar (sameNames : ∀ name ∉ barred, name ∈ placeableNames ↔ name ∈ otherNames)
    {roots : List LifetimeBoundBuffer} {groups finalGroups : Groups}
    {rejected otherRejected finalRejected : List String}
    (apart : ∀ root ∈ roots, root.pairedWith ≠ [] → root.name :: root.pairedWith = barred ∨
      ∀ name ∈ root.name :: root.pairedWith, name ∉ barred)
    (sameRejected : ∀ name ∉ barred, name ∈ rejected ↔ name ∈ otherRejected)
    (accepted : registerGroups buffers placeableNames groups rejected roots =
      .ok (finalGroups, finalRejected)) :
    ∃ otherFinal, registerGroups (buffers.map (bar reason barred)) otherNames groups otherRejected
        (roots.map (bar reason barred)) = .ok (finalGroups, otherFinal) ∧
      ∀ name ∉ barred, name ∈ finalRejected ↔ name ∈ otherFinal := by
  induction roots generalizing groups rejected otherRejected with
  | nil =>
      cases accepted
      exact ⟨otherRejected, rfl, sameRejected⟩
  | cons root rest inductionHypothesis =>
      have restApart := fun other later => apart other (List.mem_cons_of_mem root later)
      have samePairs : (bar reason barred root).pairedWith = root.pairedWith := by
        unfold bar
        split <;> rfl
      rw [List.map_cons]
      unfold registerGroups at accepted ⊢
      simp only [samePairs, bar_name]
      split at accepted
      next alone =>
        rw [if_pos alone]
        exact inductionHypothesis restApart sameRejected accepted
      next grouped =>
        rw [if_neg grouped]
        simp only at accepted
        split at accepted
        next => cases accepted
        next distinct =>
          rw [if_neg distinct]
          have sameErrors : memberError? (buffers.map (bar reason barred)) groups =
              memberError? buffers groups := funext fun name => memberError?_bar groups name
          rw [sameErrors]
          split at accepted
          next => cases accepted
          next =>
            refine inductionHypothesis restApart (fun name notIn => ?_) accepted
            rcases apart root List.mem_cons_self grouped with isBarred | disjoint
            · rw [isBarred]
              split <;> split <;> simp [notIn, sameRejected name notIn]
            · have sameTest : ((root.name :: root.pairedWith).any fun member =>
                    decide (member ∉ placeableNames)) =
                  (root.name :: root.pairedWith).any fun member => decide (member ∉ otherNames) := by
                rw [Bool.eq_iff_iff, List.any_eq_true, List.any_eq_true]
                refine exists_congr fun member => and_congr_right fun inside => ?_
                rw [decide_eq_true_iff, decide_eq_true_iff, sameNames member (disjoint member inside)]
              rw [sameTest]
              split
              next => simp only [List.mem_append, sameRejected name notIn]
              next => exact sameRejected name notIn

end Registration

/-! ## Plans -/

section Plans

variable {buffers plan : List LifetimeBoundBuffer} {limit alignment : ℤ} {reason : String}
  {barred : List String}

/-- Buffers outside the group are the same in both lists. -/
theorem filter_bar (buffers : List LifetimeBoundBuffer) :
    (buffers.map (bar reason barred)).filter (fun buffer => buffer.name ∉ barred) =
      buffers.filter fun buffer => buffer.name ∉ barred := by
  rw [List.filter_map]
  have same : (fun buffer : LifetimeBoundBuffer => decide (buffer.name ∉ barred)) ∘
      bar reason barred = fun buffer => decide (buffer.name ∉ barred) := by
    funext buffer
    simp
  rw [same]
  refine (List.map_congr_left fun buffer isKept => ?_).trans (List.map_id _)
  exact bar_of_not_mem (of_decide_eq_true (List.mem_filter.mp isKept).2)

theorem filter_located (addresses : String → Option ℤ) (buffers : List LifetimeBoundBuffer) :
    (buffers.map fun buffer => buffer.located (addresses buffer.name)).filter
        (fun buffer => buffer.name ∉ barred) =
      (buffers.filter fun buffer => buffer.name ∉ barred).map fun buffer =>
        buffer.located (addresses buffer.name) := by
  rw [List.filter_map]
  rfl

theorem unplanned_bar (reason : String) (barred : List String)
    (unplanned : ∀ buffer ∈ buffers, buffer.address = none) :
    ∀ buffer ∈ buffers.map (bar reason barred), buffer.address = none := by
  intro buffer isBuffer
  obtain ⟨source, isSource, rfl⟩ := List.mem_map.mp isBuffer
  have sameAddress : (bar reason barred source).address = source.address := by
    unfold bar
    split <;> rfl
  rw [sameAddress, unplanned source isSource]

/-- A plan is the buffers as they were, or located by a walk. -/
theorem planLayout_eq_ok_iff :
    planLayout buffers limit alignment = .ok plan ↔
      (∀ buffer ∈ buffers, buffer.address = none) ∧ checkInPlaceRelationships buffers = .ok () ∧
        (((partition limit buffers).1 = [] ∧ plan = buffers) ∨
          (partition limit buffers).1 ≠ [] ∧ ∃ groups rejected final,
            registerGroups buffers ((partition limit buffers).1.map LifetimeBoundBuffer.name) [] []
              buffers = .ok (groups, rejected) ∧
            walk buffers groups limit alignment (partition limit buffers).1
              ⟨[], fun _ => none, [], rejected⟩ (sortedTimes (partition limit buffers).1) = .ok final ∧
            plan = buffers.map fun buffer => buffer.located (final.addresses buffer.name)) := by
  unfold planLayout
  split
  next empty =>
    subst empty
    constructor
    · intro planned
      cases planned
      exact ⟨fun _ isBuffer => absurd isBuffer List.not_mem_nil, rfl, .inl ⟨rfl, rfl⟩⟩
    · rintro ⟨-, -, ⟨-, rfl⟩ | ⟨someLeft, -⟩⟩
      · rfl
      · exact absurd rfl someLeft
  next =>
    split
    next someLocated =>
      obtain ⟨buffer, isBuffer, isLocated⟩ := List.any_eq_true.mp someLocated
      refine ⟨(fun planned => by cases planned), fun ⟨unplanned, _⟩ => ?_⟩
      rw [unplanned buffer isBuffer] at isLocated
      cases isLocated
    next noneLocated =>
      have unplanned : ∀ buffer ∈ buffers, buffer.address = none := by simpa using noneLocated
      split
      next message unchecked => simp [unchecked]
      next checked =>
        rw [and_iff_right unplanned, and_iff_right checked]
        dsimp only
        split
        next noneLeft =>
          simp only [noneLeft, true_and, ne_eq, not_true_eq_false, false_and, or_false,
            Except.ok.injEq]
          exact eq_comm
        next someLeft =>
          simp only [someLeft, false_and, false_or, ne_eq, not_false_eq_true, true_and]
          split
          next message unregistered =>
            refine ⟨(fun planned => by cases planned), ?_⟩
            rintro ⟨groups, rejected, final, accepted, -⟩
            rw [unregistered] at accepted
            cases accepted
          next groups rejected accepted =>
            simp only [accepted, Except.ok.injEq, Prod.mk.injEq]
            split
            next message failed =>
              refine ⟨(fun planned => by cases planned), ?_⟩
              rintro ⟨_, _, final, ⟨rfl, rfl⟩, walked, -⟩
              rw [failed] at walked
              cases walked
            next final walked =>
              constructor
              · intro planned
                cases planned
                exact ⟨groups, rejected, final, ⟨rfl, rfl⟩, walked, rfl⟩
              · rintro ⟨_, _, other, ⟨rfl, rfl⟩, walkedToo, rfl⟩
                rw [walked] at walkedToo
                cases walkedToo
                rfl

section Group

variable {groups : Groups} {rejected : List String} {final : State} (reason)
  (unique : UniqueNames buffers)
  (accepted : registerGroups buffers ((partition limit buffers).1.map LifetimeBoundBuffer.name) [] []
    buffers = .ok (groups, rejected))

include accepted in
theorem registered_of_accepted :
    Registered buffers ((partition limit buffers).1.map LifetimeBoundBuffer.name) buffers groups
      rejected := by
  have registered := registerGroups_registered (registered_nil _ _) accepted
  rwa [List.nil_append] at registered

include unique accepted in
/-- A walk that leaves a group out is the walk with the group barred. -/
theorem planLayout_bar (unplanned : ∀ buffer ∈ buffers, buffer.address = none)
    (checked : checkInPlaceRelationships buffers = .ok ())
    (walked : walk buffers groups limit alignment (partition limit buffers).1
      ⟨[], fun _ => none, [], rejected⟩ (sortedTimes (partition limit buffers).1) = .ok final)
    (isGroup : barred ∈ groups) (unplaced : ∀ name ∈ barred, final.addresses name = none) :
    ∃ other, planLayout (buffers.map (bar reason barred)) limit alignment = .ok other ∧
      other.filter (fun buffer => buffer.name ∉ barred) =
        (buffers.filter fun buffer => buffer.name ∉ barred).map fun buffer =>
          buffer.located (final.addresses buffer.name) := by
  have registered := registered_of_accepted accepted
  have isPlaceable : (partition limit (buffers.map (bar reason barred))).1 =
      (partition limit buffers).1.filter fun buffer => buffer.name ∉ barred :=
    placeable_bar limit buffers
  have barredUnplanned := unplanned_bar reason barred unplanned
  have barredChecked : checkInPlaceRelationships (buffers.map (bar reason barred)) = .ok () := by
    rw [checkInPlaceRelationships_bar, checked]
  have sameNames : ∀ name ∉ barred,
      name ∈ (partition limit buffers).1.map LifetimeBoundBuffer.name ↔
        name ∈ (partition limit (buffers.map (bar reason barred))).1.map LifetimeBoundBuffer.name := by
    intro name notIn
    rw [isPlaceable, List.mem_map, List.mem_map]
    constructor
    · rintro ⟨buffer, isBuffer, rfl⟩
      exact ⟨buffer, List.mem_filter.mpr ⟨isBuffer, decide_eq_true notIn⟩, rfl⟩
    · rintro ⟨buffer, isBuffer, rfl⟩
      exact ⟨buffer, (List.mem_filter.mp isBuffer).1, rfl⟩
  have apart : ∀ root ∈ buffers, root.pairedWith ≠ [] → root.name :: root.pairedWith = barred ∨
      ∀ name ∈ root.name :: root.pairedWith, name ∉ barred := by
    intro root isRoot paired
    have isOwn := registered.covers root isRoot paired
    by_cases same : root.name :: root.pairedWith = barred
    · exact .inl same
    · exact .inr fun name inside isBarred =>
        same (registered.apart _ isOwn barred isGroup name inside isBarred)
  obtain ⟨otherRejected, otherAccepted, sameRejected⟩ :
      ∃ otherRejected, registerGroups (buffers.map (bar reason barred))
          ((partition limit (buffers.map (bar reason barred))).1.map LifetimeBoundBuffer.name) [] []
          (buffers.map (bar reason barred)) = .ok (groups, otherRejected) ∧
        ∀ name ∉ barred, name ∈ rejected ↔ name ∈ otherRejected :=
    registerGroups_bar sameNames apart (fun _ _ => Iff.rfl) accepted
  have agree : Agree barred ⟨[], fun _ => none, [], rejected⟩ ⟨[], fun _ => none, [], otherRejected⟩ :=
    ⟨rfl, rfl, fun _ _ => rfl, sameRejected, fun _ isUsed => absurd isUsed List.not_mem_nil⟩
  obtain ⟨otherFinal, otherWalked, finalAgree⟩ := agree.walk reason isGroup unique registered .start
    walked unplaced
  have fewer : (partition limit buffers).1.filter (fun buffer => buffer.name ∉ barred) ⊆
      (partition limit buffers).1 := List.filter_subset_self _
  rw [← sortedTimes_filter fewer, ← isPlaceable] at otherWalked
  have sameAddresses : (buffers.filter fun buffer => buffer.name ∉ barred).map (fun buffer =>
        buffer.located (final.addresses buffer.name)) =
      (buffers.filter fun buffer => buffer.name ∉ barred).map fun buffer =>
        buffer.located (otherFinal.addresses buffer.name) := by
    refine List.map_congr_left fun buffer isKept => ?_
    rw [finalAgree.addresses _ (of_decide_eq_true (List.mem_filter.mp isKept).2)]
  by_cases noneLeft : (partition limit (buffers.map (bar reason barred))).1 = []
  · refine ⟨buffers.map (bar reason barred), planLayout_eq_ok_iff.2
      ⟨barredUnplanned, barredChecked, .inl ⟨noneLeft, rfl⟩⟩, ?_⟩
    rw [noneLeft] at otherWalked
    obtain rfl := Except.ok.inj otherWalked
    rw [sameAddresses, filter_bar]
    refine ((List.map_congr_left fun buffer isKept => ?_).trans (List.map_id _)).symm
    exact located_none (unplanned buffer (List.mem_filter.mp isKept).1)
  · refine ⟨_, planLayout_eq_ok_iff.2 ⟨barredUnplanned, barredChecked, .inr ⟨noneLeft, groups,
      otherRejected, otherFinal, otherAccepted, otherWalked, rfl⟩⟩, ?_⟩
    rw [filter_located, filter_bar, sameAddresses]

end Group

/-- Every paired group is placed as a whole or not at all; an attempt that leaves a member without
an address changes nothing but the rejections; and a group without addresses has no influence on
the other buffers. -/
theorem planLayout_groups_atomic (unique : UniqueNames buffers)
    (planned : planLayout buffers limit alignment = .ok plan) {root : LifetimeBoundBuffer}
    (isRoot : root ∈ buffers) (paired : root.pairedWith ≠ []) :
    ((∀ member ∈ plan, member.name ∈ root.name :: root.pairedWith → member.address.isSome) ∨
      ∀ member ∈ plan, member.name ∈ root.name :: root.pairedWith → member.address = none) ∧
    (∀ groups rejected state next buffer,
      registerGroups buffers ((partition limit buffers).1.map LifetimeBoundBuffer.name) [] [] buffers =
        .ok (groups, rejected) →
      Reached buffers groups limit alignment rejected state →
      tryAllocate buffers groups limit alignment state buffer = .ok next →
      buffer.name ∈ root.name :: root.pairedWith →
      (∃ name ∈ root.name :: root.pairedWith, next.addresses name = none) →
      next.usage = state.usage ∧ next.reusedParents = state.reusedParents ∧
        next.addresses = state.addresses) ∧
    ((∃ member ∈ plan, member.name ∈ root.name :: root.pairedWith ∧ member.address = none) →
      ∀ reason, ∃ other,
        planLayout (buffers.map (bar reason (root.name :: root.pairedWith))) limit alignment =
          .ok other ∧
        other.filter (fun buffer => buffer.name ∉ root.name :: root.pairedWith) =
          plan.filter fun buffer => buffer.name ∉ root.name :: root.pairedWith) := by
  obtain ⟨unplanned, checked, outcome⟩ := planLayout_eq_ok_iff.1 planned
  refine ⟨?_, ?_, ?_⟩
  · rcases outcome with ⟨-, rfl⟩ | ⟨-, groups, rejected, final, accepted, walked, rfl⟩
    · exact .inr fun member isMember _ => unplanned member isMember
    · have registered := registered_of_accepted accepted
      have whole := (reached_walk .start walked).whole unique registered
      refine (whole _ (registered.covers root isRoot paired)).imp (fun placed => ?_) fun unplaced => ?_
      · intro member isMember inside
        obtain ⟨buffer, -, rfl⟩ := List.mem_map.mp isMember
        exact placed buffer.name inside
      · intro member isMember inside
        obtain ⟨buffer, -, rfl⟩ := List.mem_map.mp isMember
        exact unplaced buffer.name inside
  · rintro groups rejected state next buffer accepted reached tried inside ⟨name, inGroup, unplaced⟩
    have registered := registered_of_accepted accepted
    have isGroup := registered.covers root isRoot paired
    have step := attempted unique registered.resolved (reached.whole unique registered) tried
    cases step with
    | settled => exact ⟨rfl, rfl, rfl⟩
    | single alone => exact absurd inside (alone _ isGroup)
    | @group _ names isNames inNames _ allPlaced =>
        obtain rfl := registered.apart names isNames _ isGroup buffer.name inNames inside
        have isPlaced := allPlaced name inGroup
        rw [unplaced] at isPlaced
        cases isPlaced
    | failed => exact ⟨rfl, rfl, rfl⟩
  · rintro ⟨member, isMember, inside, unplaced⟩ reason
    rcases outcome with ⟨noneLeft, isPlan⟩ | ⟨-, groups, rejected, final, accepted, walked, rfl⟩
    · rw [isPlan]
      have nonePlaceable : (partition limit (buffers.map
          (bar reason (root.name :: root.pairedWith)))).1 = [] := by
        rw [placeable_bar, noneLeft, List.filter_nil]
      refine ⟨_, planLayout_eq_ok_iff.2 ⟨unplanned_bar reason _ unplanned, ?_,
        .inl ⟨nonePlaceable, rfl⟩⟩, filter_bar buffers⟩
      rw [checkInPlaceRelationships_bar, checked]
    · have registered := registered_of_accepted accepted
      have isGroup := registered.covers root isRoot paired
      have whole := (reached_walk .start walked).whole unique registered
      obtain ⟨buffer, isBuffer, rfl⟩ := List.mem_map.mp isMember
      have allUnplaced := (whole _ isGroup).resolve_left fun placed => by
        have isPlaced := placed buffer.name inside
        rw [show final.addresses buffer.name = none from unplaced] at isPlaced
        cases isPlaced
      obtain ⟨other, plannedToo, same⟩ := planLayout_bar reason unique accepted unplanned checked walked
        isGroup allUnplaced
      exact ⟨other, plannedToo, same.trans (filter_located final.addresses buffers).symm⟩

end Plans

/-- A pair that shares its lifetime and needs twice the scratchpad, and a third buffer. -/
def crowded : List LifetimeBoundBuffer :=
  [{ LifetimeBoundBuffer.usedTwice "root" 8 0 0 with pairedWith := ["partner"] },
    .usedTwice "partner" 8 0 0, .usedTwice "other" 8 0 0]

/-- The slot taken by the root is given back, and the third buffer takes it. -/
theorem crowded_atomic :
    planLayout crowded 8 8 =
        .ok (crowded.map fun buffer =>
          buffer.located (if buffer.name = "other" then some 0 else none)) ∧
      ∀ reason, ∃ other,
        planLayout (crowded.map (bar reason ["root", "partner"])) 8 8 = .ok other ∧
        other.filter (fun buffer => buffer.name ∉ ["root", "partner"]) =
          (crowded.map fun buffer =>
            buffer.located (if buffer.name = "other" then some 0 else none)).filter
              fun buffer => buffer.name ∉ ["root", "partner"] := by
  have planned : planLayout crowded 8 8 = .ok (crowded.map fun buffer =>
      buffer.located (if buffer.name = "other" then some 0 else none)) := by decide +kernel
  have unique : UniqueNames crowded := by decide
  obtain ⟨-, -, barring⟩ := planLayout_groups_atomic unique planned List.mem_cons_self
    (List.cons_ne_nil _ _)
  exact ⟨planned, barring ⟨_, List.mem_cons_self, by decide, rfl⟩⟩

end TorchSpyre.Scratchpad.Greedy
