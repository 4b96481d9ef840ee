import TorchSpyre.Scratchpad.Greedy.Safety

/-!
# Paired groups are placed as a whole

A group that fails midway leaves no trace but its rejection, so the other buffers are placed as
in a run where its members were barred from the start.
-/

namespace TorchSpyre.Scratchpad.Greedy

open Lib LifetimeBoundBuffer

/-! ## One attempt -/

section Attempt

variable {buffers : List LifetimeBoundBuffer} {groups : Groups} {limit alignment : ℤ}
  {state next : State} {buffer : LifetimeBoundBuffer}

/-- An allocation writes one address and rejects nothing. -/
theorem tryAllocateOne_writes (allocated : tryAllocateOne limit alignment state buffer = .ok next) :
    (∃ decision, next.addresses = Function.update state.addresses buffer.name decision) ∧
      next.rejected = state.rejected := by
  unfold tryAllocateOne at allocated
  split at allocated
  next parent _ =>
    cases allocated
    exact ⟨⟨some parent.address, rfl⟩, rfl⟩
  next =>
    split at allocated
    next => cases allocated
    next address _ =>
      cases allocated
      exact ⟨⟨some address, rfl⟩, rfl⟩
    next =>
      cases allocated
      exact ⟨⟨none, rfl⟩, rfl⟩

/-- A group is placed as a whole, or what was before it is restored. -/
theorem allocateGroup_cases {previous : State} {group pending : List LifetimeBoundBuffer}
    (unplaced : ∀ member ∈ group, previous.addresses member.name = none)
    (among : pending ⊆ group)
    (placed : ∀ member ∈ group, member ∉ pending → (state.addresses member.name).isSome)
    (others : ∀ name ∉ group.map LifetimeBoundBuffer.name,
      state.addresses name = previous.addresses name)
    (sameRejected : state.rejected = previous.rejected)
    (allocated : allocateGroup limit alignment previous group state pending = .ok next) :
    ((∀ member ∈ group, (next.addresses member.name).isSome) ∧
        (∀ name ∉ group.map LifetimeBoundBuffer.name,
          next.addresses name = previous.addresses name) ∧
        next.rejected = previous.rejected) ∨
      next = { previous with rejected := group.map LifetimeBoundBuffer.name ++ previous.rejected } := by
  induction pending generalizing state with
  | nil =>
      cases allocated
      exact .inl ⟨fun member inGroup => placed member inGroup List.not_mem_nil, others, sameRejected⟩
  | cons member rest inductionHypothesis =>
      have memberIn : member ∈ group := among List.mem_cons_self
      unfold allocateGroup at allocated
      split at allocated
      next => cases allocated
      next middle attempted =>
        obtain ⟨⟨decision, written⟩, keepsRejected⟩ := tryAllocateOne_writes attempted
        have middleOthers : ∀ name ∉ group.map LifetimeBoundBuffer.name,
            middle.addresses name = previous.addresses name := by
          intro name outside
          have different : name ≠ member.name := by
            rintro rfl
            exact outside (List.mem_map_of_mem memberIn)
          rw [written, Function.update_of_ne different]
          exact others name outside
        split at allocated
        next isPlaced =>
          refine inductionHypothesis (fun _ later => among (List.mem_cons_of_mem _ later)) ?_
            middleOthers (keepsRejected.trans sameRejected) allocated
          intro other inGroup notLater
          by_cases same : other.name = member.name
          · rw [same]
            exact isPlaced
          · rw [written, Function.update_of_ne same]
            refine placed other inGroup fun isPending => ?_
            rcases List.mem_cons.mp isPending with rfl | later
            · exact same rfl
            · exact notLater later
        next =>
          cases allocated
          refine .inr ?_
          have restored : (fun name => if name ∈ group.map LifetimeBoundBuffer.name then none
              else middle.addresses name) = previous.addresses := by
            funext name
            split
            next inside =>
              obtain ⟨other, inGroup, rfl⟩ := List.mem_map.mp inside
              exact (unplaced other inGroup).symm
            next outside => exact middleOthers name outside
          simp only [restored, keepsRejected, sameRejected]

/-- Every group has all of its addresses or none of them. -/
def Whole (groups : Groups) (addresses : String → Option ℤ) : Prop :=
  ∀ group ∈ groups, (∀ name ∈ group, (addresses name).isSome) ∨ ∀ name ∈ group, addresses name = none

theorem memberNames (unique : UniqueNames buffers) {names : List String}
    (resolved : ∀ name ∈ names, ∃ member ∈ buffers, member.name = name) :
    (names.filterMap (byName buffers)).map LifetimeBoundBuffer.name = names := by
  have found : ∀ name ∈ names, (byName buffers name).map LifetimeBoundBuffer.name = some name := by
    intro name inside
    obtain ⟨member, memberIn, named⟩ := resolved name inside
    rw [(byName_eq_some_iff unique).mpr ⟨memberIn, named⟩, Option.map_some, named]
  rw [List.map_filterMap]
  have same := List.filterMap_congr (g := some) found
  rw [same, List.filterMap_some]

/-- What one attempt can do. -/
inductive Attempted (groups : Groups) (limit alignment : ℤ) (state : State)
    (buffer : LifetimeBoundBuffer) : State → Prop where
  | settled : Attempted groups limit alignment state buffer state
  | single {next : State} :
      (∀ group ∈ groups, buffer.name ∉ group) → state.addresses buffer.name = none →
      tryAllocateOne limit alignment state buffer = .ok next →
      Attempted groups limit alignment state buffer next
  | group {next : State} {names : List String} :
      names ∈ groups → buffer.name ∈ names → (∀ name ∈ names, state.addresses name = none) →
      (∀ name ∈ names, (next.addresses name).isSome) →
      (∀ name ∉ names, next.addresses name = state.addresses name) →
      Attempted groups limit alignment state buffer next
  | failed {names : List String} :
      names ∈ groups → buffer.name ∈ names → (∀ name ∈ names, state.addresses name = none) →
      Attempted groups limit alignment state buffer
        { state with rejected := names ++ state.rejected }

theorem attempted (unique : UniqueNames buffers)
    (resolved : ∀ group ∈ groups, ∀ name ∈ group, ∃ member ∈ buffers, member.name = name)
    (whole : Whole groups state.addresses)
    (allocated : tryAllocate buffers groups limit alignment state buffer = .ok next) :
    Attempted groups limit alignment state buffer next := by
  unfold tryAllocate at allocated
  split at allocated
  next =>
    cases allocated
    exact .settled
  next unsettled =>
    rw [not_or] at unsettled
    have unplaced : state.addresses buffer.name = none := by simpa using unsettled.1
    split at allocated
    next none => exact .single (groupOf_eq_none none) unplaced allocated
    next names found =>
      obtain ⟨isGroup, inGroup⟩ := groupOf_eq_some found
      have allUnplaced : ∀ name ∈ names, state.addresses name = none := by
        refine (whole names isGroup).resolve_left fun allPlaced => ?_
        have isPlaced := allPlaced buffer.name inGroup
        rw [unplaced] at isPlaced
        cases isPlaced
      have named := memberNames unique (resolved names isGroup)
      have membersUnplaced : ∀ member ∈ names.filterMap (byName buffers),
          state.addresses member.name = none := by
        intro member isMember
        apply allUnplaced
        rw [← named]
        exact List.mem_map_of_mem isMember
      rcases allocateGroup_cases membersUnplaced (List.Subset.refl _)
          (fun _ isMember notPending => absurd isMember notPending) (fun _ _ => rfl) rfl allocated with
        ⟨allPlaced, others, -⟩ | rfl
      · rw [named] at others
        refine .group isGroup inGroup allUnplaced (fun name inside => ?_) others
        rw [← named] at inside
        obtain ⟨member, isMember, rfl⟩ := List.mem_map.mp inside
        exact allPlaced member isMember
      · rw [named]
        exact .failed isGroup inGroup allUnplaced

variable (apart : ∀ first ∈ groups, ∀ second ∈ groups, ∀ name, name ∈ first → name ∈ second →
  first = second)

include apart

theorem Attempted.whole (attempted : Attempted groups limit alignment state buffer next)
    (whole : Whole groups state.addresses) : Whole groups next.addresses := by
  cases attempted with
  | settled => exact whole
  | single alone unplaced allocated =>
      obtain ⟨⟨decision, written⟩, -⟩ := tryAllocateOne_writes allocated
      have same : ∀ group ∈ groups, ∀ name ∈ group, next.addresses name = state.addresses name := by
        intro group isGroup name inside
        rw [written, Function.update_of_ne]
        rintro rfl
        exact alone group isGroup inside
      intro group isGroup
      exact (whole group isGroup).imp
        (fun allPlaced name inside => by
          rw [same group isGroup name inside]
          exact allPlaced name inside)
        fun nonePlaced name inside => by
          rw [same group isGroup name inside]
          exact nonePlaced name inside
  | @group _ names isNames _ _ allPlaced others =>
      intro group isGroup
      by_cases same : group = names
      · rw [same]
        exact .inl allPlaced
      · have outside : ∀ name ∈ group, name ∉ names := fun name inside inNames =>
          same (apart group isGroup names isNames name inside inNames)
        exact (whole group isGroup).imp
          (fun placed name inside => by
            rw [others name (outside name inside)]
            exact placed name inside)
          fun unplaced name inside => by
            rw [others name (outside name inside)]
            exact unplaced name inside
  | failed => exact whole

omit apart in
/-- An address once given stays. -/
theorem Attempted.persists (attempted : Attempted groups limit alignment state buffer next)
    {name : String} (isPlaced : (state.addresses name).isSome) : (next.addresses name).isSome := by
  cases attempted with
  | settled => exact isPlaced
  | single _ unplaced allocated =>
      obtain ⟨⟨decision, written⟩, -⟩ := tryAllocateOne_writes allocated
      have different : name ≠ buffer.name := by
        rintro rfl
        rw [unplaced] at isPlaced
        cases isPlaced
      rwa [written, Function.update_of_ne different]
  | @group _ names _ _ _ allPlaced others =>
      by_cases inside : name ∈ names
      · exact allPlaced name inside
      · rwa [others name inside]
  | failed => exact isPlaced

end Attempt

/-! ## The states of a walk -/

/-- The states between the attempts of a walk, in any order of ticks. -/
inductive Reached (buffers : List LifetimeBoundBuffer) (groups : Groups) (limit alignment : ℤ)
    (rejected : List String) : State → Prop where
  | start : Reached buffers groups limit alignment rejected ⟨[], fun _ => none, [], rejected⟩
  | deallocate {state : State} (tick : ℤ) :
      Reached buffers groups limit alignment rejected state →
      Reached buffers groups limit alignment rejected
        (deallocateAt tick state (partition limit buffers).1)
  | attempt {state next : State} {buffer : LifetimeBoundBuffer} :
      Reached buffers groups limit alignment rejected state →
      tryAllocate buffers groups limit alignment state buffer = .ok next →
      Reached buffers groups limit alignment rejected next

section Reached

variable {buffers : List LifetimeBoundBuffer} {groups : Groups} {limit alignment : ℤ}
  {rejected : List String}

theorem reached_allocateAt {tick : ℤ} {state next : State} {pending : List LifetimeBoundBuffer}
    (reached : Reached buffers groups limit alignment rejected state)
    (allocated : allocateAt buffers groups limit alignment tick state pending = .ok next) :
    Reached buffers groups limit alignment rejected next := by
  induction pending generalizing state with
  | nil =>
      cases allocated
      exact reached
  | cons head tail inductionHypothesis =>
      unfold allocateAt at allocated
      split at allocated
      next =>
        split at allocated
        next => cases allocated
        next middle attempted => exact inductionHypothesis (reached.attempt attempted) allocated
      next => exact inductionHypothesis reached allocated

theorem reached_walk {times : List ℤ} {state final : State}
    (reached : Reached buffers groups limit alignment rejected state)
    (walked : walk buffers groups limit alignment (partition limit buffers).1 state times = .ok final) :
    Reached buffers groups limit alignment rejected final := by
  induction times generalizing state with
  | nil =>
      cases walked
      exact reached
  | cons tick rest inductionHypothesis =>
      unfold walk at walked
      split at walked
      next => cases walked
      next middle allocated =>
        exact inductionHypothesis (reached_allocateAt (reached.deallocate tick) allocated) walked

variable (unique : UniqueNames buffers) {placeableNames : List String}
  {initial : List String}
  (registered : Registered buffers placeableNames buffers groups initial)

include unique registered

theorem Reached.whole {state : State}
    (reached : Reached buffers groups limit alignment rejected state) :
    Whole groups state.addresses := by
  induction reached with
  | start => exact fun _ _ => .inr fun _ _ => rfl
  | deallocate tick _ inductionHypothesis =>
      rw [(deallocateAt_untouched tick _ _).1]
      exact inductionHypothesis
  | attempt _ allocated inductionHypothesis =>
      exact (attempted unique registered.resolved inductionHypothesis allocated).whole
        registered.apart inductionHypothesis

theorem allocateAt_persists {tick : ℤ} {state next : State} {pending : List LifetimeBoundBuffer}
    (reached : Reached buffers groups limit alignment rejected state)
    (allocated : allocateAt buffers groups limit alignment tick state pending = .ok next)
    {name : String} (isPlaced : (state.addresses name).isSome) : (next.addresses name).isSome := by
  induction pending generalizing state with
  | nil =>
      cases allocated
      exact isPlaced
  | cons head tail inductionHypothesis =>
      unfold allocateAt at allocated
      split at allocated
      next =>
        split at allocated
        next => cases allocated
        next middle tried =>
          have step := attempted unique registered.resolved (reached.whole unique registered) tried
          exact inductionHypothesis (reached.attempt tried) allocated (step.persists isPlaced)
      next => exact inductionHypothesis reached allocated isPlaced

theorem walk_persists {times : List ℤ} {state final : State}
    (reached : Reached buffers groups limit alignment rejected state)
    (walked : walk buffers groups limit alignment (partition limit buffers).1 state times = .ok final)
    {name : String} (isPlaced : (state.addresses name).isSome) : (final.addresses name).isSome := by
  induction times generalizing state with
  | nil =>
      cases walked
      exact isPlaced
  | cons tick rest inductionHypothesis =>
      unfold walk at walked
      split at walked
      next => cases walked
      next middle allocated =>
        have freed := reached.deallocate tick
        refine inductionHypothesis (reached_allocateAt freed allocated) walked ?_
        refine allocateAt_persists unique registered freed allocated ?_
        rwa [(deallocateAt_untouched tick _ _).1]

end Reached

end TorchSpyre.Scratchpad.Greedy
