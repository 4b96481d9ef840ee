import TorchSpyre.Scratchpad.Greedy.Invariant

/-!
# Safety of greedy plans

`safePlan_of_roundsUp` carries the invariant through the walk.  The rounding through a
float quotient is the only obstacle: `planLayout_safe_iff` says that all plans
for a limit and an alignment are safe exactly when no address up to the limit is
rounded below itself.
-/

namespace TorchSpyre.Scratchpad.Greedy

open Lib LifetimeBoundBuffer

/-! ## Paired groups -/

/-- What registration guarantees about the groups of the processed roots. -/
structure Registered (buffers : List LifetimeBoundBuffer) (placeableNames : List String)
    (roots : List LifetimeBoundBuffer) (groups : Groups) (rejected : List String) : Prop where
  apart : ∀ first ∈ groups, ∀ second ∈ groups, ∀ name, name ∈ first → name ∈ second →
    first = second
  resolved : ∀ group ∈ groups, ∀ name ∈ group, ∃ buffer ∈ buffers, buffer.name = name
  distinct : ∀ group ∈ groups, group.Nodup
  rejectedGroup : ∀ name ∈ rejected, ∃ group ∈ groups, name ∈ group ∧ group ⊆ rejected
  status : ∀ group ∈ groups, group ⊆ rejected ∨ group ⊆ placeableNames
  covers : ∀ root ∈ roots, root.pairedWith ≠ [] → (root.name :: root.pairedWith) ∈ groups
  barred : ∀ group ∈ groups, ∀ name ∈ group, name ∉ placeableNames → group ⊆ rejected

theorem groupOf_eq_some {groups : Groups} {name : String} {group : List String}
    (found : groups.groupOf name = some group) : group ∈ groups ∧ name ∈ group :=
  ⟨List.mem_of_find?_eq_some found, by simpa using List.find?_some found⟩

theorem groupOf_eq_none {groups : Groups} {name : String} (missing : groups.groupOf name = none) :
    ∀ group ∈ groups, name ∉ group := by
  intro group membership
  simpa using List.find?_eq_none.mp missing group membership

theorem memberError?_eq_none {buffers : List LifetimeBoundBuffer} {groups : Groups}
    {name : String} (accepted : memberError? buffers groups name = none) :
    (∃ buffer ∈ buffers, buffer.name = name) ∧ ∀ group ∈ groups, name ∉ group := by
  unfold memberError? at accepted
  split_ifs at accepted with missing taken
  constructor
  · cases found : byName buffers name with
    | none => simp [found] at missing
    | some buffer => exact ⟨buffer, mem_of_byName found⟩
  · apply groupOf_eq_none
    simpa using taken

/-- Registering one more group with fresh, known members. -/
theorem Registered.add {buffers done : List LifetimeBoundBuffer}
    {placeableNames rejected : List String} {groups : Groups}
    (registered : Registered buffers placeableNames done groups rejected)
    {root : LifetimeBoundBuffer} {group : List String}
    (isGroup : group = root.name :: root.pairedWith) (nodup : group.Nodup)
    (members : ∀ name ∈ group,
      (∃ buffer ∈ buffers, buffer.name = name) ∧ ∀ other ∈ groups, name ∉ other) :
    Registered buffers placeableNames (done ++ [root]) (group :: groups)
      (if group.any (· ∉ placeableNames) then group ++ rejected else rejected) := by
  have grown : rejected ⊆ if group.any (· ∉ placeableNames) then group ++ rejected else rejected := by
    split_ifs
    · exact List.subset_append_right _ _
    · exact List.Subset.refl _
  have decided : group ⊆ (if group.any (· ∉ placeableNames) then group ++ rejected else rejected) ∨
      group ⊆ placeableNames := by
    by_cases someBarred : group.any (· ∉ placeableNames) = true
    · rw [if_pos someBarred]
      exact .inl (List.subset_append_left _ _)
    · refine .inr fun name membership => ?_
      by_contra barred
      exact someBarred (List.any_eq_true.mpr ⟨name, membership, by simpa using barred⟩)
  constructor
  · intro first firstIn second secondIn name inFirst inSecond
    rcases List.mem_cons.mp firstIn with rfl | firstOld
    · rcases List.mem_cons.mp secondIn with rfl | secondOld
      · rfl
      · exact absurd inSecond ((members name inFirst).2 second secondOld)
    · rcases List.mem_cons.mp secondIn with rfl | secondOld
      · exact absurd inFirst ((members name inSecond).2 first firstOld)
      · exact registered.apart first firstOld second secondOld name inFirst inSecond
  · intro other membership name inside
    rcases List.mem_cons.mp membership with rfl | old
    · exact (members name inside).1
    · exact registered.resolved other old name inside
  · intro other membership
    rcases List.mem_cons.mp membership with rfl | old
    · exact nodup
    · exact registered.distinct other old
  · intro name isRejected
    by_cases someBarred : group.any (· ∉ placeableNames) = true
    · simp only [if_pos someBarred] at isRejected ⊢
      rcases List.mem_append.mp isRejected with inGroup | old
      · exact ⟨group, List.mem_cons_self, inGroup, List.subset_append_left _ _⟩
      · obtain ⟨other, otherIn, inside, included⟩ := registered.rejectedGroup name old
        exact ⟨other, List.mem_cons_of_mem _ otherIn, inside,
          List.Subset.trans included (List.subset_append_right _ _)⟩
    · simp only [if_neg someBarred] at isRejected ⊢
      obtain ⟨other, otherIn, inside, included⟩ := registered.rejectedGroup name isRejected
      exact ⟨other, List.mem_cons_of_mem _ otherIn, inside, included⟩
  · intro other membership
    rcases List.mem_cons.mp membership with rfl | old
    · exact decided
    · exact (registered.status other old).imp (fun included => List.Subset.trans included grown) id
  · intro other membership paired
    rcases List.mem_append.mp membership with old | isRoot
    · exact List.mem_cons_of_mem _ (registered.covers other old paired)
    · rw [List.mem_singleton.mp isRoot, ← isGroup]
      exact List.mem_cons_self
  · intro other membership name inside barred
    rcases List.mem_cons.mp membership with rfl | old
    · exact decided.resolve_right fun included => barred (included inside)
    · exact List.Subset.trans (registered.barred other old name inside barred) grown

theorem registerGroups_registered {buffers roots done : List LifetimeBoundBuffer}
    {placeableNames rejected finalRejected : List String} {groups finalGroups : Groups}
    (registered : Registered buffers placeableNames done groups rejected)
    (accepted : registerGroups buffers placeableNames groups rejected roots =
      .ok (finalGroups, finalRejected)) :
    Registered buffers placeableNames (done ++ roots) finalGroups finalRejected := by
  induction roots generalizing done groups rejected with
  | nil =>
      cases accepted
      rwa [List.append_nil]
  | cons root rest inductionHypothesis =>
      have regrouped : done ++ root :: rest = (done ++ [root]) ++ rest := by simp
      rw [regrouped]
      unfold registerGroups at accepted
      by_cases alone : root.pairedWith = []
      · rw [if_pos alone] at accepted
        refine inductionHypothesis { registered with covers := ?_ } accepted
        intro other membership paired
        rcases List.mem_append.mp membership with old | isRoot
        · exact registered.covers other old paired
        · rw [List.mem_singleton.mp isRoot] at paired
          exact absurd alone paired
      · rw [if_neg alone] at accepted
        simp only at accepted
        by_cases nodup : (root.name :: root.pairedWith).Nodup
        · rw [if_neg (not_not.mpr nodup)] at accepted
          split at accepted
          · simp at accepted
          next valid =>
            exact inductionHypothesis (registered.add rfl nodup fun name membership =>
              memberError?_eq_none (List.findSome?_eq_none_iff.mp valid name membership)) accepted
        · rw [if_pos nodup] at accepted
          simp at accepted

theorem registered_nil (buffers : List LifetimeBoundBuffer) (placeableNames : List String) :
    Registered buffers placeableNames [] [] [] := by
  constructor <;> simp

/-! ## The walk -/

section Walk

variable {buffers : List LifetimeBoundBuffer} {groups : Groups} {limit alignment : ℤ}
  {initial : List String}

/-- The invariant together with the state of every group: placed as a whole,
rejected as a whole, or still untouched with every member `ahead`. -/
structure Walking (buffers : List LifetimeBoundBuffer) (groups : Groups) (limit alignment : ℤ)
    (initial : List String) (ahead : LifetimeBoundBuffer → Prop) (now : ℤ) (state : State) :
    Prop where
  ledger : ∃ ledger, Holds buffers limit alignment now state ledger
  refused : ∀ name ∈ state.rejected, state.addresses name = none
  kept : initial ⊆ state.rejected
  groups : ∀ group ∈ groups,
    (∀ buffer ∈ buffers, buffer.name ∈ group → (state.addresses buffer.name).isSome = true) ∨
    group ⊆ state.rejected ∨
    ∀ buffer ∈ buffers, buffer.name ∈ group →
      excluded limit buffer = none ∧ state.addresses buffer.name = none ∧
        buffer.name ∉ state.rejected ∧ ahead buffer

theorem Walking.mono {ahead other : LifetimeBoundBuffer → Prop} {now : ℤ} {state : State}
    (walking : Walking buffers groups limit alignment initial ahead now state)
    (implied : ∀ buffer ∈ buffers, excluded limit buffer = none → ahead buffer → other buffer) :
    Walking buffers groups limit alignment initial other now state := by
  refine { walking with groups := ?_ }
  intro group membership
  rcases walking.groups group membership with placed | rejected | untouched
  · exact .inl placed
  · exact .inr (.inl rejected)
  · refine .inr (.inr fun buffer inBuffers inGroup => ?_)
    obtain ⟨allowed, unplaced, notRejected, isAhead⟩ := untouched buffer inBuffers inGroup
    exact ⟨allowed, unplaced, notRejected, implied buffer inBuffers allowed isAhead⟩

section Step

variable {ahead : LifetimeBoundBuffer → Prop} {now : ℤ} {state next : State}
  {buffer : LifetimeBoundBuffer}
  (unique : UniqueNames buffers)
  (apart : ∀ first ∈ groups, ∀ second ∈ groups, ∀ name, name ∈ first → name ∈ second →
    first = second)
  (resolved : ∀ group ∈ groups, ∀ name ∈ group, ∃ member ∈ buffers, member.name = name)
  (distinct : ∀ group ∈ groups, group.Nodup)
  (rounds : RoundsUp limit alignment)
  (walking : Walking buffers groups limit alignment initial ahead now state)

include walking

/-- Placing a buffer that belongs to no group. -/
theorem Walking.placeSingle (ready : Ready buffers limit now state buffer)
    (notRejected : buffer.name ∉ state.rejected)
    (single : ∀ group ∈ groups, buffer.name ∉ group) (rounds : RoundsUp limit alignment)
    (allocated : tryAllocateOne limit alignment state buffer = .ok next) :
    Walking buffers groups limit alignment initial ahead now next := by
  obtain ⟨ledger, holds⟩ := walking.ledger
  rcases holds.tryAllocateOne ready rounds allocated with
    ⟨address, nextLedger, nextHolds, updated, sameRejected⟩ | rfl
  · have unchanged : ∀ name, name ≠ buffer.name → next.addresses name = state.addresses name :=
      fun name other => by rw [updated, Function.update_of_ne other]
    refine ⟨⟨nextLedger, nextHolds⟩, ?_, ?_, ?_⟩
    · intro name isRejected
      rw [sameRejected] at isRejected
      rw [unchanged name fun same => notRejected (same ▸ isRejected)]
      exact walking.refused name isRejected
    · rw [sameRejected]
      exact walking.kept
    · intro group membership
      have others : ∀ other ∈ buffers, other.name ∈ group →
          next.addresses other.name = state.addresses other.name :=
        fun other _ inGroup => unchanged _ fun same => single group membership (same ▸ inGroup)
      rw [sameRejected]
      rcases walking.groups group membership with placed | rejected | untouched
      · exact .inl fun other otherIn inGroup => by
          rw [others other otherIn inGroup]
          exact placed other otherIn inGroup
      · exact .inr (.inl rejected)
      · exact .inr (.inr fun other otherIn inGroup => by
          rw [others other otherIn inGroup]
          exact untouched other otherIn inGroup)
  · exact walking

include unique apart resolved distinct rounds

/-- Placing the whole group of a buffer, or rejecting it. -/
theorem Walking.placeGroup {names : List String} (membership : buffer ∈ buffers)
    (unplaced : state.addresses buffer.name = none) (notRejected : buffer.name ∉ state.rejected)
    (isAhead : ∀ member ∈ buffers, ahead member → now ≤ member.startTime)
    (inGroups : names ∈ groups) (inNames : buffer.name ∈ names)
    (allocated : Greedy.allocateGroup limit alignment state (names.filterMap (byName buffers)) state
      (names.filterMap (byName buffers)) = .ok next) :
    Walking buffers groups limit alignment initial
      (fun other => ahead other ∧ other.name ∉ names) now next := by
  obtain ⟨ledger, holds⟩ := walking.ledger
  have untouched : ∀ member ∈ buffers, member.name ∈ names →
      excluded limit member = none ∧ state.addresses member.name = none ∧
        member.name ∉ state.rejected ∧ ahead member := by
    rcases walking.groups names inGroups with placed | rejected | untouched
    · have := placed buffer membership inNames
      rw [unplaced] at this
      cases this
    · exact absurd (rejected inNames) notRejected
    · exact untouched
  have memberIff : ∀ member, member ∈ names.filterMap (byName buffers) ↔
      member ∈ buffers ∧ member.name ∈ names := by
    intro member
    rw [List.mem_filterMap]
    constructor
    · rintro ⟨name, inside, found⟩
      obtain ⟨memberIn, named⟩ := mem_of_byName found
      exact ⟨memberIn, named ▸ inside⟩
    · rintro ⟨memberIn, inside⟩
      exact ⟨member.name, inside, (byName_eq_some_iff unique).mpr ⟨memberIn, rfl⟩⟩
  have memberNames : (names.filterMap (byName buffers)).map LifetimeBoundBuffer.name = names := by
    have found : ∀ name ∈ names, (byName buffers name).map LifetimeBoundBuffer.name = some name := by
      intro name inside
      obtain ⟨member, memberIn, named⟩ := resolved names inGroups name inside
      rw [(byName_eq_some_iff unique).mpr ⟨memberIn, named⟩, Option.map_some, named]
    rw [List.map_filterMap]
    have same := List.filterMap_congr (g := some) found
    rw [same, List.filterMap_some]
  have ready : ∀ member ∈ names.filterMap (byName buffers),
      Ready buffers limit now state member := by
    intro member inside
    obtain ⟨memberIn, named⟩ := (memberIff member).mp inside
    obtain ⟨allowed, memberUnplaced, -, memberAhead⟩ := untouched member memberIn named
    exact ⟨memberIn, allowed, memberUnplaced, isAhead member memberIn memberAhead⟩
  have otherGroups : ∀ group ∈ groups, group ≠ names → ∀ name ∈ group, name ∉ names :=
    fun group groupIn other name inside inOther =>
      other (apart group groupIn names inGroups name inside inOther)
  rcases holds.allocateGroup rounds (by rw [memberNames]; exact distinct names inGroups) ready
      (List.Subset.refl _) (fun _ inside outside => absurd inside outside)
      (fun member inside => (ready member inside).unplaced) (fun _ _ => rfl) rfl allocated with
    ⟨nextLedger, allPlaced, unchanged, sameRejected⟩ | rfl
  · rw [memberNames] at unchanged
    refine ⟨nextLedger, ?_, ?_, ?_⟩
    · intro name isRejected
      rw [sameRejected] at isRejected
      have outside : name ∉ names := by
        intro inside
        obtain ⟨member, memberIn, rfl⟩ := resolved names inGroups name inside
        exact (untouched member memberIn inside).2.2.1 isRejected
      rw [unchanged name outside]
      exact walking.refused name isRejected
    · rw [sameRejected]
      exact walking.kept
    · intro group groupIn
      by_cases isGroup : group = names
      · subst isGroup
        exact .inl fun member memberIn named => allPlaced member ((memberIff member).mpr
          ⟨memberIn, named⟩)
      · have outside := otherGroups group groupIn isGroup
        rw [sameRejected]
        rcases walking.groups group groupIn with placed | rejected | idle
        · exact .inl fun member memberIn named => by
            rw [unchanged _ (outside _ named)]
            exact placed member memberIn named
        · exact .inr (.inl rejected)
        · exact .inr (.inr fun member memberIn named => by
            obtain ⟨allowed, memberUnplaced, memberKept, memberAhead⟩ := idle member memberIn named
            exact ⟨allowed, by rw [unchanged _ (outside _ named), memberUnplaced], memberKept,
              memberAhead, outside _ named⟩)
  · rw [memberNames]
    refine ⟨⟨ledger, holds.withRejected _⟩, ?_, ?_, ?_⟩
    · intro name isRejected
      rcases List.mem_append.mp isRejected with inside | old
      · obtain ⟨member, memberIn, rfl⟩ := resolved names inGroups name inside
        exact (untouched member memberIn inside).2.1
      · exact walking.refused name old
    · exact List.Subset.trans walking.kept (List.subset_append_right _ _)
    · intro group groupIn
      by_cases isGroup : group = names
      · subst isGroup
        exact .inr (.inl (List.subset_append_left _ _))
      · have outside := otherGroups group groupIn isGroup
        rcases walking.groups group groupIn with placed | rejected | idle
        · exact .inl placed
        · exact .inr (.inl (List.Subset.trans rejected (List.subset_append_right _ _)))
        · refine .inr (.inr fun member memberIn named => ?_)
          obtain ⟨allowed, memberUnplaced, memberKept, memberAhead⟩ := idle member memberIn named
          refine ⟨allowed, memberUnplaced, ?_, memberAhead, outside _ named⟩
          rw [List.mem_append, not_or]
          exact ⟨outside _ named, memberKept⟩

/-- After an allocation attempt at its start the buffer is no longer ahead. -/
theorem Walking.tryAllocate (membership : buffer ∈ buffers)
    (allowed : excluded limit buffer = none) (starts : buffer.startTime = now)
    (isAhead : ∀ member ∈ buffers, ahead member → now ≤ member.startTime)
    (allocated : Greedy.tryAllocate buffers groups limit alignment state buffer = .ok next) :
    Walking buffers groups limit alignment initial
      (fun other => ahead other ∧ other ≠ buffer) now next := by
  unfold Greedy.tryAllocate at allocated
  split at allocated
  next settled =>
    cases allocated
    refine { walking with groups := ?_ }
    intro group groupIn
    rcases walking.groups group groupIn with placed | rejected | idle
    · exact .inl placed
    · exact .inr (.inl rejected)
    · refine .inr (.inr fun member memberIn named => ?_)
      obtain ⟨memberAllowed, memberUnplaced, memberKept, memberAhead⟩ := idle member memberIn named
      refine ⟨memberAllowed, memberUnplaced, memberKept, memberAhead, ?_⟩
      rintro rfl
      rcases settled with isPlaced | isRejected
      · rw [memberUnplaced] at isPlaced
        cases isPlaced
      · exact memberKept isRejected
  next open_ =>
    rw [not_or] at open_
    have unplaced : state.addresses buffer.name = none := by simpa using open_.1
    split at allocated
    next single =>
      have alone := groupOf_eq_none single
      have placed := walking.placeSingle
        ⟨membership, allowed, unplaced, le_of_eq starts.symm⟩ open_.2 alone rounds allocated
      refine { placed with groups := ?_ }
      intro group groupIn
      rcases placed.groups group groupIn with done | rejected | idle
      · exact .inl done
      · exact .inr (.inl rejected)
      · refine .inr (.inr fun member memberIn named => ?_)
        obtain ⟨memberAllowed, memberUnplaced, memberKept, memberAhead⟩ :=
          idle member memberIn named
        refine ⟨memberAllowed, memberUnplaced, memberKept, memberAhead, ?_⟩
        rintro rfl
        exact alone group groupIn named
    next names found =>
      obtain ⟨inGroups, inNames⟩ := groupOf_eq_some found
      refine (walking.placeGroup unique apart resolved distinct rounds membership unplaced open_.2
        isAhead inGroups inNames allocated).mono ?_
      rintro member - - ⟨memberAhead, outside⟩
      refine ⟨memberAhead, ?_⟩
      rintro rfl
      exact outside inNames

end Step

theorem deallocateAt_untouched (tick : ℤ) (placeable : List LifetimeBoundBuffer) (state : State) :
    (deallocateAt tick state placeable).addresses = state.addresses ∧
      (deallocateAt tick state placeable).rejected = state.rejected := by
  unfold deallocateAt
  induction placeable generalizing state with
  | nil => exact ⟨rfl, rfl⟩
  | cons head tail inductionHypothesis =>
      rw [List.foldl_cons]
      split
      · exact inductionHypothesis (tryDeallocate state head)
      · exact inductionHypothesis state

section Run

variable (unique : UniqueNames buffers) (rounds : RoundsUp limit alignment)
  {placeableNames rejected : List String}
  (registered : Registered buffers placeableNames buffers groups rejected)

include unique rounds registered

theorem Walking.allocateAt {ahead : LifetimeBoundBuffer → Prop} {now : ℤ} {state next : State}
    {pending : List LifetimeBoundBuffer}
    (walking : Walking buffers groups limit alignment initial ahead now state)
    (isAhead : ∀ member ∈ buffers, ahead member → now ≤ member.startTime)
    (placeable : ∀ buffer ∈ pending, buffer ∈ buffers ∧ excluded limit buffer = none)
    (allocated : Greedy.allocateAt buffers groups limit alignment now state pending = .ok next) :
    Walking buffers groups limit alignment initial
      (fun other => ahead other ∧ ¬ (other ∈ pending ∧ other.startTime = now)) now next := by
  induction pending generalizing ahead state with
  | nil =>
      cases allocated
      exact walking.mono fun _ _ _ isAhead => ⟨isAhead, by simp⟩
  | cons head tail inductionHypothesis =>
      have tailPlaceable := fun buffer membership =>
        placeable buffer (List.mem_cons_of_mem head membership)
      unfold Greedy.allocateAt at allocated
      split at allocated
      next starts =>
        split at allocated
        · simp at allocated
        next middle attempted =>
          obtain ⟨headIn, headAllowed⟩ := placeable head List.mem_cons_self
          have stepped := walking.tryAllocate unique registered.apart registered.resolved
            registered.distinct rounds headIn headAllowed starts.symm isAhead attempted
          refine (inductionHypothesis stepped (fun member memberIn both =>
            isAhead member memberIn both.1) tailPlaceable allocated).mono ?_
          rintro member - - ⟨⟨memberAhead, notHead⟩, notInTail⟩
          refine ⟨memberAhead, ?_⟩
          rintro ⟨inPending, memberStarts⟩
          rcases List.mem_cons.mp inPending with isHead | inTail
          · exact notHead isHead
          · exact notInTail ⟨inTail, memberStarts⟩
      next otherTick =>
        refine (inductionHypothesis walking isAhead tailPlaceable allocated).mono ?_
        rintro member - - ⟨memberAhead, notInTail⟩
        refine ⟨memberAhead, ?_⟩
        rintro ⟨inPending, memberStarts⟩
        rcases List.mem_cons.mp inPending with rfl | inTail
        · exact otherTick memberStarts.symm
        · exact notInTail ⟨inTail, memberStarts⟩

theorem Walking.walk {now : ℤ} {state final : State} {times : List ℤ}
    (sorted : times.Pairwise (· ≤ ·)) (passed : ∀ tick ∈ times, now ≤ tick)
    (walking : Walking buffers groups limit alignment initial
      (fun buffer => buffer.startTime ∈ times) now state)
    (walked : Greedy.walk buffers groups limit alignment (partition limit buffers).1 state times =
      .ok final) :
    ∃ finalNow, Walking buffers groups limit alignment initial (fun _ => False) finalNow final := by
  induction times generalizing now state with
  | nil =>
      cases walked
      exact ⟨now, walking.mono fun _ _ _ inside => absurd inside List.not_mem_nil⟩
  | cons tick rest inductionHypothesis =>
      obtain ⟨tickBelow, restSorted⟩ := List.pairwise_cons.mp sorted
      unfold Greedy.walk at walked
      split at walked
      · simp at walked
      next middle allocated =>
        have atTick : Walking buffers groups limit alignment initial
            (fun buffer => buffer.startTime ∈ tick :: rest) tick
            (deallocateAt tick state (partition limit buffers).1) := by
          obtain ⟨ledger, holds⟩ := walking.ledger
          have freed := (holds.later (passed tick List.mem_cons_self)).deallocateAt
            (partition limit buffers).1
          obtain ⟨sameAddresses, sameRejected⟩ :=
            deallocateAt_untouched tick (partition limit buffers).1 state
          refine ⟨⟨ledger, freed⟩, ?_, ?_, ?_⟩
          · rw [sameAddresses, sameRejected]
            exact walking.refused
          · rw [sameRejected]
            exact walking.kept
          · rw [sameAddresses, sameRejected]
            exact walking.groups
        have reached := atTick.allocateAt unique rounds registered (fun member _ inside => by
            rcases List.mem_cons.mp inside with isTick | inRest
            · exact le_of_eq isTick.symm
            · exact tickBelow _ inRest) (fun _ inPlaceable => mem_placeable inPlaceable) allocated
        refine inductionHypothesis restSorted tickBelow (reached.mono ?_) walked
        rintro buffer membership allowed ⟨inside, notStarting⟩
        refine (List.mem_cons.mp inside).resolve_left fun isTick => notStarting ⟨?_, isTick⟩
        exact placeable_of_allowed unique membership allowed

end Run

end Walk

/-! ## Plans -/

/-- The second buffer holds the first one's slot through a chain of handed slots:
same address, inside it, and alive together for the handoff tick only. -/
structure SharesSlot (taken : List (LifetimeBoundBuffer × LifetimeBoundBuffer))
    (first second : LifetimeBoundBuffer) : Prop where
  chain : Relation.TransGen (fun parent child => (parent, child) ∈ taken) first second
  address : first.address = second.address
  fits : second.size ≤ first.size
  handoff : ∀ tick, ((first.startTime ≤ tick ∧ tick < first.endTime) ∧
    (second.startTime ≤ tick ∧ tick < second.endTime)) ↔ tick = second.startTime

structure SafePlan (buffers : List LifetimeBoundBuffer) (limit alignment : ℤ)
    (plan : List LifetimeBoundBuffer) : Prop where
  sameBuffers : plan.map (fun buffer => buffer.located none) = buffers
  placed : ∀ buffer ∈ plan, ∀ address, buffer.address = some address →
    0 ≤ address ∧ alignment ∣ address ∧ address + buffer.size ≤ limit
  barred : ∀ buffer ∈ plan, excluded limit buffer ≠ none → buffer.address = none
  barredGroup : ∀ root ∈ plan, root.pairedWith ≠ [] →
    ∀ member ∈ plan, member.name ∈ root.name :: root.pairedWith →
      excluded limit member ≠ none →
        ∀ other ∈ plan, other.name ∈ root.name :: root.pairedWith → other.address = none
  separate : ∃ taken : List (LifetimeBoundBuffer × LifetimeBoundBuffer),
    (taken.map fun slot => slot.1.name).Nodup ∧ (taken.map fun slot => slot.2.name).Nodup ∧
    (∀ slot ∈ taken, slot.1 ∈ plan ∧ slot.2 ∈ plan ∧ slot.1.name ∈ slot.2.inPlaceParents) ∧
    ∀ first ∈ plan, ∀ second ∈ plan, first ≠ second → first.overlapsInTime second →
      ∀ firstAddress secondAddress, first.address = some firstAddress →
        second.address = some secondAddress →
          Extent.Disjoint ⟨firstAddress, first.size⟩ ⟨secondAddress, second.size⟩ ∨
            SharesSlot taken first second ∨ SharesSlot taken second first

/-- The planned buffer of a placement. -/
def Placement.planned (placement : Placement) : LifetimeBoundBuffer :=
  placement.buffer.located (some placement.address)

section Plan

variable {buffers : List LifetimeBoundBuffer} {limit alignment now : ℤ} {state : State}
  {ledger : Ledger} (unique : UniqueNames buffers)
  (checked : checkInPlaceRelationships buffers = .ok ())
  (holds : Holds buffers limit alignment now state ledger)

include unique checked holds

/-- Along a chain addresses stay, sizes shrink, and lifetimes follow each other. -/
theorem Holds.chain_spec {first second : Placement} (chain : ledger.Chain first second) :
    first.address = second.address ∧ second.buffer.size ≤ first.buffer.size ∧
      first.buffer.endTime ≤ second.buffer.startTime + 1 ∧
      first.buffer.startTime ≤ second.buffer.startTime := by
  have link : ∀ parent child, (parent, child) ∈ ledger.taken →
      parent.address = child.address ∧ child.buffer.size ≤ parent.buffer.size ∧
        parent.buffer.endTime = child.buffer.startTime + 1 := by
    intro parent child isTaken
    obtain ⟨parentPlaced, childPlaced, declared, sameAddress⟩ := holds.handed _ isTaken
    obtain ⟨handoff, fits⟩ := checked_pair unique checked (holds.known child childPlaced).1
      (holds.known parent parentPlaced).1 declared
    exact ⟨sameAddress, fits, handoff⟩
  induction chain with
  | single isTaken =>
      obtain ⟨sameAddress, fits, handoff⟩ := link _ _ isTaken
      have alive := first.buffer.startTime_lt_endTime
      exact ⟨sameAddress, fits, le_of_eq handoff, by omega⟩
  | tail _ isTaken inductionHypothesis =>
      obtain ⟨sameAddress, fits, handoff⟩ := link _ _ isTaken
      obtain ⟨earlierAddress, earlierFits, earlierEnd, earlierStart⟩ := inductionHypothesis
      rename_i middle last _
      have alive := middle.buffer.startTime_lt_endTime
      exact ⟨earlierAddress.trans sameAddress, le_trans fits earlierFits, by omega, by omega⟩

theorem Holds.sharesSlot {first second : Placement} (chain : ledger.Chain first second)
    (overlap : first.buffer.overlapsInTime second.buffer) :
    SharesSlot (ledger.taken.map fun slot => (slot.1.planned, slot.2.planned))
      first.planned second.planned := by
  obtain ⟨sameAddress, fits, ends, starts⟩ := holds.chain_spec unique checked chain
  refine ⟨?_, congrArg some sameAddress, fits, ?_⟩
  · refine Relation.TransGen.lift Placement.planned ?_ _ _ chain
    exact fun parent child isTaken =>
      List.mem_map_of_mem (f := fun slot => (slot.1.planned, slot.2.planned)) isTaken
  · intro tick
    have secondAlive := second.buffer.startTime_lt_endTime
    have meets := overlap.2
    change ((first.buffer.startTime ≤ tick ∧ tick < first.buffer.endTime) ∧
      (second.buffer.startTime ≤ tick ∧ tick < second.buffer.endTime)) ↔
        tick = second.buffer.startTime
    omega

/-- The addresses of a finished walk make a safe plan. -/
theorem Holds.safePlan (unplanned : ∀ buffer ∈ buffers, buffer.address = none)
    (groupsUnplaced : ∀ root ∈ buffers, root.pairedWith ≠ [] →
      ∀ member ∈ buffers, member.name ∈ root.name :: root.pairedWith →
        excluded limit member ≠ none →
          ∀ name ∈ root.name :: root.pairedWith, state.addresses name = none) :
    SafePlan buffers limit alignment
      (buffers.map fun buffer => buffer.located (state.addresses buffer.name)) := by
  -- A planned buffer with an address comes from exactly one placement.
  have origin : ∀ {planned address}, planned ∈ buffers.map (fun buffer =>
        buffer.located (state.addresses buffer.name)) → planned.address = some address →
      ∃ placement ∈ ledger.placed, placement.planned = planned ∧ placement.address = address := by
    intro planned address membership located
    obtain ⟨buffer, inBuffers, rfl⟩ := List.mem_map.mp membership
    obtain ⟨placement, isPlaced, named, sameAddress⟩ :=
      (holds.addresses buffer.name address).mp located
    have sameBuffer := eq_of_name_eq unique (holds.known placement isPlaced).1 inBuffers named
    refine ⟨placement, isPlaced, ?_, sameAddress⟩
    unfold Placement.planned
    rw [sameBuffer, sameAddress]
    exact congrArg buffer.located located.symm
  have planned : ∀ placement ∈ ledger.placed, placement.planned ∈ buffers.map (fun buffer =>
      buffer.located (state.addresses buffer.name)) := by
    intro placement isPlaced
    have located := (holds.addresses _ _).mpr ⟨placement, isPlaced, rfl, rfl⟩
    refine List.mem_map.mpr ⟨placement.buffer, (holds.known placement isPlaced).1, ?_⟩
    rw [located]
    rfl
  constructor
  · rw [List.map_map]
    exact map_located_none unplanned
  · intro buffer membership address located
    obtain ⟨placement, isPlaced, rfl, rfl⟩ := origin membership located
    exact holds.bounds placement isPlaced
  · intro buffer membership barred
    cases located : buffer.address with
    | none => rfl
    | some address =>
        obtain ⟨placement, isPlaced, rfl, rfl⟩ := origin membership located
        exact absurd (holds.known placement isPlaced).2 barred
  · intro root rootIn paired member memberIn memberNamed memberBarred other otherIn otherNamed
    obtain ⟨rootBuffer, rootBufferIn, rfl⟩ := List.mem_map.mp rootIn
    obtain ⟨memberBuffer, memberBufferIn, rfl⟩ := List.mem_map.mp memberIn
    obtain ⟨otherBuffer, otherBufferIn, rfl⟩ := List.mem_map.mp otherIn
    exact groupsUnplaced rootBuffer rootBufferIn paired memberBuffer memberBufferIn memberNamed
      memberBarred otherBuffer.name otherNamed
  · refine ⟨ledger.taken.map fun slot => (slot.1.planned, slot.2.planned), ?_, ?_, ?_, ?_⟩
    · rw [List.map_map]
      exact holds.parents
    · rw [List.map_map]
      exact holds.children
    · intro slot membership
      obtain ⟨taken, isTaken, rfl⟩ := List.mem_map.mp membership
      obtain ⟨parentPlaced, childPlaced, declared, -⟩ := holds.handed taken isTaken
      exact ⟨planned taken.1 parentPlaced, planned taken.2 childPlaced, declared⟩
    · intro first firstIn second secondIn distinct overlap firstAddress secondAddress
        firstLocated secondLocated
      obtain ⟨firstPlacement, firstPlaced, rfl, rfl⟩ := origin firstIn firstLocated
      obtain ⟨secondPlacement, secondPlaced, rfl, rfl⟩ := origin secondIn secondLocated
      have otherPlacement : firstPlacement ≠ secondPlacement := fun same => distinct (same ▸ rfl)
      rcases holds.separate firstPlacement firstPlaced secondPlacement secondPlaced otherPlacement
          overlap with disjoint | forward | backward
      · exact .inl disjoint
      · exact .inr (.inl (holds.sharesSlot unique checked forward overlap))
      · exact .inr (.inr (holds.sharesSlot unique checked backward
          (LifetimeBoundBuffer.overlapsInTime_symm overlap)))

end Plan

/-- A plan that gives no buffer an address is safe. -/
theorem safePlan_unplanned {buffers : List LifetimeBoundBuffer} (limit alignment : ℤ)
    (unplanned : ∀ buffer ∈ buffers, buffer.address = none) :
    SafePlan buffers limit alignment buffers := by
  constructor
  · exact map_located_none unplanned
  · intro buffer membership address located
    rw [unplanned buffer membership] at located
    cases located
  · exact fun buffer membership _ => unplanned buffer membership
  · exact fun _ _ _ _ _ _ _ other membership _ => unplanned other membership
  · refine ⟨[], by simp, by simp, by simp, ?_⟩
    intro first firstIn _ _ _ _ firstAddress _ located
    rw [unplanned first firstIn] at located
    cases located

theorem sortedTimes_sorted (placeable : List LifetimeBoundBuffer) :
    (sortedTimes placeable).Pairwise (· ≤ ·) :=
  List.pairwise_insertionSort _ _

theorem startTime_mem_sortedTimes {placeable : List LifetimeBoundBuffer}
    {buffer : LifetimeBoundBuffer} (membership : buffer ∈ placeable) :
    buffer.startTime ∈ sortedTimes placeable := by
  unfold sortedTimes
  rw [(List.perm_insertionSort _ _).mem_iff, List.mem_dedup, List.mem_flatMap]
  exact ⟨buffer, membership, List.mem_cons_self⟩

theorem safePlan_of_roundsUp {buffers plan : List LifetimeBoundBuffer} {limit alignment : ℤ}
    (rounds : RoundsUp limit alignment) (unique : UniqueNames buffers)
    (planned : planLayout buffers limit alignment = .ok plan) :
    SafePlan buffers limit alignment plan := by
  unfold planLayout at planned
  split at planned
  next empty =>
    cases planned
    subst empty
    exact safePlan_unplanned limit alignment (by simp)
  next =>
    split at planned
    · simp at planned
    next noneLocated =>
      have unplanned : ∀ buffer ∈ buffers, buffer.address = none := by simpa using noneLocated
      split at planned
      · simp at planned
      next checked =>
        simp only at planned
        split at planned
        next =>
          cases planned
          exact safePlan_unplanned limit alignment unplanned
        next =>
          split at planned
          · simp at planned
          next groups rejected accepted =>
            split at planned
            · simp at planned
            next final walked =>
              cases planned
              have registered := registerGroups_registered (registered_nil _ _) accepted
              rw [List.nil_append] at registered
              have started : Walking buffers groups limit alignment rejected
                  (fun buffer => buffer.startTime ∈ sortedTimes (partition limit buffers).1)
                  ((sortedTimes (partition limit buffers).1).foldl min 0)
                  ⟨[], fun _ => none, [], rejected⟩ := by
                refine ⟨⟨⟨[], []⟩, ?_⟩, fun _ _ => rfl, List.Subset.refl _, ?_⟩
                · constructor <;> simp
                · intro group membership
                  by_cases isRejected : group ⊆ rejected
                  · exact .inr (.inl isRejected)
                  · refine .inr (.inr fun buffer inBuffers inGroup => ?_)
                    have allPlaceable := (registered.status group membership).resolve_left isRejected
                    obtain ⟨other, otherPlaceable, sameName⟩ := List.mem_map.mp (allPlaceable inGroup)
                    obtain ⟨otherIn, otherAllowed⟩ := mem_placeable otherPlaceable
                    have same := eq_of_name_eq unique otherIn inBuffers sameName
                    subst same
                    refine ⟨otherAllowed, rfl, ?_, startTime_mem_sortedTimes otherPlaceable⟩
                    intro inRejected
                    obtain ⟨owner, ownerIn, inOwner, included⟩ :=
                      registered.rejectedGroup _ inRejected
                    rw [registered.apart owner ownerIn group membership _ inOwner inGroup] at included
                    exact isRejected included
              obtain ⟨finalNow, finished⟩ := started.walk unique rounds registered
                (sortedTimes_sorted _) (le_foldl_min_iff.mp (le_refl _)).2 walked
              obtain ⟨ledger, holds⟩ := finished.ledger
              refine holds.safePlan unique checked unplanned ?_
              intro root rootIn paired member memberIn memberNamed barred name named
              have inGroups := registered.covers root rootIn paired
              refine finished.refused name (finished.kept ?_)
              refine registered.barred _ inGroups member.name memberNamed ?_ named
              intro isPlaceable
              obtain ⟨other, otherPlaceable, sameName⟩ := List.mem_map.mp isPlaceable
              obtain ⟨otherIn, otherAllowed⟩ := mem_placeable otherPlaceable
              rw [← eq_of_name_eq unique otherIn memberIn sameName] at barred
              exact barred otherAllowed

/-! ## The rounding is what safety rests on -/

/-- A buffer of the given size under a buffer of one byte, both alive together. -/
def stackedFirst (size : ℕ) : LifetimeBoundBuffer := .usedTwice "first" size 0 0

def stackedSecond : LifetimeBoundBuffer := .usedTwice "second" 1 0 0

def stacked (size : ℕ) : List LifetimeBoundBuffer := [stackedFirst size, stackedSecond]

section Stacked

variable {size : ℕ} {limit alignment address : ℤ}

theorem stacked_unique (size : ℕ) : UniqueNames (stacked size) := by
  change ["first", "second"].Nodup
  decide

theorem stacked_checked (size : ℕ) : checkInPlaceRelationships (stacked size) = .ok () := rfl

theorem sortedTimes_stacked (size : ℕ) : sortedTimes (stacked size) = [0, 2] := rfl

theorem excluded_of_fits {buffer : LifetimeBoundBuffer} (noReason : buffer.residencyReason = none)
    (noBar : buffer.untiledBar = none) (fits : (buffer.size : ℤ) ≤ limit) :
    excluded limit buffer = none := by
  unfold excluded LifetimeBoundBuffer.minFootprint
  simp only [noReason, noBar]
  exact if_neg (not_lt.mpr fits)

theorem partition_stacked (positive : 0 < size) (fits : (size : ℤ) ≤ limit) :
    (partition limit (stacked size)).1 = stacked size := by
  have firstAllowed : excluded limit (stackedFirst size) = none :=
    excluded_of_fits rfl rfl fits
  have secondAllowed : excluded limit stackedSecond = none :=
    excluded_of_fits rfl rfl (le_trans (by exact_mod_cast positive) fits)
  have noneRecorded : recordExclusions limit (stacked size) = [] := by
    simp [recordExclusions, stacked, firstAllowed, secondAllowed]
  simp [partition, noneRecorded]

theorem findFreeBlock_stacked (positive : 0 < size) (fits : (size : ℤ) ≤ limit)
    (rounded : ceilAlign alignment size = .ok address) (room : address + 1 ≤ limit) :
    findFreeBlock limit alignment [⟨stackedFirst size, 0⟩] 1 = .ok (some address) := by
  have high : highestAddrInUse [⟨stackedFirst size, 0⟩] = size := zero_add _
  have low : lowestAddrInUse [⟨stackedFirst size, 0⟩] = 0 := rfl
  have enough : ¬ limit < 1 := by omega
  unfold findFreeBlock
  rw [if_neg enough, if_neg (by rw [low]; simp), high, rounded]
  exact if_pos room

/-- Both buffers are placed at tick zero, the second on top of the first. -/
theorem walk_stacked (positive : 0 < size) (fits : (size : ℤ) ≤ limit)
    (rounded : ceilAlign alignment size = .ok address) (room : address + 1 ≤ limit) :
    ∃ state, walk (stacked size) [] limit alignment (stacked size) ⟨[], fun _ => none, [], []⟩
        [0, 2] = .ok state ∧
      state.addresses "first" = some 0 ∧ state.addresses "second" = some address := by
  have enough : ¬ limit < (stackedFirst size).size := not_lt.mpr fits
  have atBottom : findFreeBlock limit alignment [] (stackedFirst size).size = .ok (some 0) := by
    simp [findFreeBlock, enough]
  have onTop : findFreeBlock limit alignment [⟨stackedFirst size, 0⟩] stackedSecond.size =
      .ok (some address) := findFreeBlock_stacked positive fits rounded room
  have firstStarts : (stackedFirst size).startTime = 0 := rfl
  have firstEnds : (stackedFirst size).endTime = 2 := rfl
  have secondStarts : stackedSecond.startTime = 0 := rfl
  have secondEnds : stackedSecond.endTime = 2 := rfl
  have firstParents : (stackedFirst size).inPlaceParents = [] := rfl
  have secondParents : stackedSecond.inPlaceParents = [] := rfl
  have firstName : (stackedFirst size).name = "first" := rfl
  have secondName : stackedSecond.name = "second" := rfl
  set empty : State := ⟨[], fun _ => none, [], []⟩
  set both := (empty.place (stackedFirst size) 0).place stackedSecond address
  refine ⟨tryDeallocate (tryDeallocate both (stackedFirst size)) stackedSecond, ?_, ?_, ?_⟩
  · simp [walk, stacked, allocateAt, deallocateAt, firstStarts, firstEnds, secondStarts,
      secondEnds, tryAllocate, Groups.groupOf, tryAllocateOne, inPlaceSlot, firstParents,
      secondParents, atBottom, onTop, State.place, firstName, secondName, empty, both]
  · rfl
  · rfl

theorem planLayout_stacked (positive : 0 < size) (fits : (size : ℤ) ≤ limit)
    (rounded : ceilAlign alignment size = .ok address) (room : address + 1 ≤ limit) :
    planLayout (stacked size) limit alignment =
      .ok [(stackedFirst size).located (some 0), stackedSecond.located (some address)] := by
  obtain ⟨state, walked, firstAt, secondAt⟩ := walk_stacked positive fits rounded room
  have registered : registerGroups (stacked size)
      ((stacked size).map LifetimeBoundBuffer.name) [] [] (stacked size) = .ok ([], []) := rfl
  have nonempty : ¬ stacked size = [] := List.cons_ne_nil _ _
  have unplanned : ¬ ((stacked size).any fun buffer => buffer.address.isSome) = true := by
    simp [stacked, stackedFirst, stackedSecond, usedTwice]
  unfold planLayout
  rw [if_neg nonempty, if_neg unplanned, stacked_checked]
  simp only [partition_stacked positive fits, if_neg nonempty, registered, sortedTimes_stacked,
    walked]
  change Except.ok [(stackedFirst size).located (state.addresses "first"),
    stackedSecond.located (state.addresses "second")] = _
  rw [firstAt, secondAt]

/-- The plan is not safe when the rounded address is still inside the first
buffer. -/
theorem stacked_unsafe (nonneg : 0 ≤ address) (short : address < size) :
    ¬ SafePlan (stacked size) limit alignment
      [(stackedFirst size).located (some 0), stackedSecond.located (some address)] := by
  intro safe
  obtain ⟨taken, -, -, declared, separate⟩ := safe.separate
  have noChain : ∀ first second,
      ¬ Relation.TransGen (fun parent child => (parent, child) ∈ taken) first second := by
    intro first second chain
    obtain ⟨child, isTaken, -⟩ := Relation.TransGen.head'_iff.mp chain
    obtain ⟨-, childIn, named⟩ := declared _ isTaken
    simp only [List.mem_cons, List.not_mem_nil, or_false] at childIn
    rcases childIn with rfl | rfl <;> exact List.not_mem_nil named
  have distinct : (stackedFirst size).located (some 0) ≠ stackedSecond.located (some address) := by
    intro same
    have sameName := congrArg LifetimeBoundBuffer.name same
    exact absurd (show "first" = "second" from sameName) (by decide)
  rcases separate _ List.mem_cons_self _ (List.mem_cons_of_mem _ List.mem_cons_self) distinct
      ⟨show (0 : ℤ) < 2 by decide, show (0 : ℤ) < 2 by decide⟩ 0 address rfl rfl with disjoint | shares | shares
  · refine disjoint address ⟨nonneg, ?_⟩ ⟨le_refl _, ?_⟩
    · change address < 0 + (size : ℤ)
      omega
    · change address < address + 1
      omega
  · exact noChain _ _ shares.chain
  · exact noChain _ _ shares.chain

end Stacked

/-- The float quotient loses the last bit of `2 ^ 53 + 1`. -/
theorem ceilAlign_short : ceilAlign 1 (2 ^ 53 + 1 : ℕ) = .ok (2 ^ 53) := by
  have logEq : Int.log 2 (2 ^ 53 + 1 : ℚ) = 53 := by
    apply le_antisymm
    · apply Int.lt_add_one_iff.mp
      rw [← Int.lt_zpow_iff_log_lt (by norm_num) (by norm_num)]
      norm_num
    · rw [← Int.zpow_le_iff_le_log (by norm_num) (by norm_num)]
      norm_num
  have rounded : Binary64.nearest (2 ^ 53 + 1) = 2 ^ 53 := by
    have place : Binary64.lastPlace (2 ^ 53 + 1) = 1 := by
      rw [Binary64.lastPlace, logEq]
      norm_num
    have half : Binary64.roundHalfEven ((2 ^ 53 + 1) / 2) = 2 ^ 52 := by
      have floorEq : ⌊((2 ^ 53 + 1) / 2 : ℚ)⌋ = 2 ^ 52 := by
        rw [Int.floor_eq_iff]
        norm_num
      unfold Binary64.roundHalfEven
      rw [floorEq]
      norm_num
    unfold Binary64.nearest Binary64.roundMagnitude
    rw [if_neg (by norm_num), place, zpow_one, half]
    norm_num
  have quotient : (((2 ^ 53 + 1 : ℕ) : ℤ) : ℚ) / ((1 : ℤ) : ℚ) = 2 ^ 53 + 1 := by norm_num
  have inRange : ¬ (2 : ℚ) ^ 1024 ≤ |2 ^ 53| := by
    rw [abs_of_pos (by positivity), not_le]
    exact pow_lt_pow_right₀ (by norm_num) (by norm_num)
  unfold ceilAlign Binary64.trueDivide
  rw [quotient, rounded, if_neg one_ne_zero, if_neg inRange]
  norm_num

end TorchSpyre.Scratchpad.Greedy
