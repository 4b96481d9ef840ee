import TorchSpyre.Scratchpad.ExhaustiveSearch.Optimal

/-!
# The limit and the alignment of the exhaustive search

Every field of a buffer that bears on its placement reaches the inner solver, and so does the
limit; the alignment does not.
-/

namespace TorchSpyre.Scratchpad.ExhaustiveSearch

open Lib

/-- Where a buffer of the returned plan lives, at the size its chosen division gives. -/
def committedSlot (buffer : CoreDivisionBuffer) : Option Slot :=
  match buffer.address, buffer.chosenDivision with
  | some address, some division =>
      match buffer.perCoreSize division with
      | .error _ => none
      | .ok size =>
          some
            { name := buffer.name
              startTime := buffer.startTime
              endTime := buffer.endTime
              inPlaceParents := buffer.inPlaceParents
              bytes := ⟨address, size⟩ }
  | _, _ => none

/-- The same buffer in the same bytes, of which fewer parents are declared. -/
structure Slot.Narrows (temp slot : Slot) : Prop where
  sameName : temp.name = slot.name
  sameStart : temp.startTime = slot.startTime
  sameEnd : temp.endTime = slot.endTime
  parents : temp.inPlaceParents ⊆ slot.inPlaceParents
  sameBytes : temp.bytes = slot.bytes

theorem Slot.Narrows.inPlaceOf {tempChild child tempParent parent : Slot}
    (narrowsChild : tempChild.Narrows child) (narrowsParent : tempParent.Narrows parent)
    (inPlace : tempChild.InPlaceOf tempParent) : child.InPlaceOf parent := by
  obtain ⟨declared, lower, upper⟩ := inPlace
  rw [narrowsChild.sameBytes, narrowsParent.sameBytes] at lower upper
  rw [narrowsParent.sameName] at declared
  exact ⟨narrowsChild.parents declared, lower, upper⟩

theorem SafeSlots.of_narrows {limit alignment : ℤ} {temps slots : List Slot}
    (safe : SafeSlots limit alignment temps)
    (narrowed : ∀ slot ∈ slots, ∃ temp ∈ temps, temp.Narrows slot) :
    SafeSlots limit alignment slots := by
  constructor
  · intro slot inside
    obtain ⟨temp, isTemp, narrows⟩ := narrowed slot inside
    rw [← narrows.sameBytes]
    exact safe.within temp isTemp
  · intro first firstIn second secondIn different overlap
    obtain ⟨one, isOne, narrowsOne⟩ := narrowed first firstIn
    obtain ⟨other, isOther, narrowsOther⟩ := narrowed second secondIn
    have tempOverlap : one.overlapsInTime other := by
      unfold Slot.overlapsInTime at overlap ⊢
      rw [narrowsOne.sameStart, narrowsOne.sameEnd, narrowsOther.sameStart, narrowsOther.sameEnd]
      exact overlap
    have tempDifferent : one.name ≠ other.name := by
      rw [narrowsOne.sameName, narrowsOther.sameName]
      exact different
    rcases safe.separate one isOne other isOther tempDifferent tempOverlap with
      disjoint | inPlace | inPlace
    · rw [narrowsOne.sameBytes, narrowsOther.sameBytes] at disjoint
      exact .inl disjoint
    · exact .inr (.inl (narrowsOne.inPlaceOf narrowsOther inPlace))
    · exact .inr (.inr (narrowsOther.inPlaceOf narrowsOne inPlace))

theorem SafeSlots.realign {limit alignment : ℤ} {slots : List Slot}
    (safe : SafeSlots limit defaultAlignment slots)
    (fits : alignment ∣ defaultAlignment ∨ (limit < defaultAlignment ∧
      ∀ slot ∈ slots, 0 ≤ slot.bytes.size)) :
    SafeSlots limit alignment slots := by
  refine ⟨?_, safe.separate⟩
  intro slot inside
  obtain ⟨aligned, started, inLimit⟩ := safe.within slot inside
  refine ⟨?_, started, inLimit⟩
  rcases fits with divides | ⟨small, sized⟩
  · exact dvd_trans divides aligned
  · have nonneg := sized slot inside
    have below : slot.bytes.offset < defaultAlignment := by
      unfold Extent.stop at inLimit
      linarith
    rw [Int.eq_zero_of_dvd_of_nonneg_of_lt started below aligned]
    exact dvd_zero alignment

theorem size_nonneg_of_committedSlot {buffer : CoreDivisionBuffer} {slot : Slot}
    (isSlot : committedSlot buffer = some slot) : 0 ≤ slot.bytes.size := by
  unfold committedSlot at isSlot
  split at isSlot
  next =>
    split at isSlot
    next => cases isSlot
    next size _ =>
      cases isSlot
      exact Int.natCast_nonneg size
  next => cases isSlot

namespace ExhaustiveSearchSolver

variable {solver : ExhaustiveSearchSolver} {inner : InnerSolver} {chosen : Chosen}

theorem validInplaceParents_subset {buffer : CoreDivisionBuffer} {ci : ℕ} {valid : List String}
    (found : solver.validInplaceParents chosen buffer ci = .ok valid) :
    valid ⊆ buffer.inPlaceParents := by
  rw [validInplaceParents, bind_eq_ok_iff] at found
  obtain ⟨perCore, -, found⟩ := found
  rw [bind_eq_ok_iff] at found
  obtain ⟨kept, each, found⟩ := found
  cases found
  intro name inside
  obtain ⟨names, isKept, named⟩ := List.mem_flatten.mp inside
  obtain ⟨parentName, isParent, keeps⟩ := exists_of_mem_mapM each isKept
  rw [bind_eq_ok_iff] at keeps
  obtain ⟨keep, -, keeps⟩ := keeps
  cases keeps
  cases keep with
  | false => cases named
  | true => exact List.mem_singleton.mp named ▸ isParent

theorem narrows_committedSlot {buffer : CoreDivisionBuffer} {temp : LifetimeBoundBuffer}
    (built : solver.tempBuf chosen buffer = .ok temp) {allocation : List Allocation} {slot : Slot}
    (isSlot : committedSlot (commit chosen allocation buffer) = some slot) :
    ∃ tempSlot, plannedSlot allocation temp = some tempSlot ∧ tempSlot.Narrows slot := by
  rw [tempBuf, bind_eq_ok_iff] at built
  obtain ⟨size, sized, built⟩ := built
  rw [bind_eq_ok_iff] at built
  obtain ⟨parents, valid, built⟩ := built
  cases built
  have perCore : (commit chosen allocation buffer).perCoreSize (chosen buffer.name) = .ok size := sized
  have addressed : (commit chosen allocation buffer).address = addressOf allocation buffer.name := rfl
  have divided : (commit chosen allocation buffer).chosenDivision = some (chosen buffer.name) := rfl
  unfold committedSlot at isSlot
  rw [addressed, divided] at isSlot
  unfold plannedSlot
  dsimp only
  cases found : addressOf allocation buffer.name with
  | none =>
      rw [found] at isSlot
      cases isSlot
  | some address =>
      rw [found] at isSlot
      simp only [perCore] at isSlot
      cases isSlot
      exact ⟨_, rfl, rfl, rfl, rfl, validInplaceParents_subset valid, rfl⟩

/-- A returned plan is the one of some choice of divisions. -/
theorem exists_leafPlan {placed : List CoreDivisionBuffer}
    (planned : solver.planLayoutAndCoreDivisions inner = .ok placed) :
    ∃ chosen, solver.leafPlan inner chosen = .ok placed := by
  obtain ⟨-, planned⟩ := of_guard planned
  obtain ⟨searched, -, final⟩ := bind_eq_ok_iff.mp planned
  exact ⟨searched.best.chosen, final⟩

/-- The plan is safe for the limit, at the alignment the inner solver was left with. -/
theorem safeSlots_default (unique : solver.UniqueNames) (honours : HonoursParameters inner)
    {placed : List CoreDivisionBuffer}
    (planned : solver.planLayoutAndCoreDivisions inner = .ok placed) :
    SafeSlots solver.limit defaultAlignment (placed.filterMap committedSlot) := by
  obtain ⟨chosen, leaf⟩ := exists_leafPlan planned
  obtain ⟨allocation, ran, rfl⟩ := leafPlan_eq_ok_iff.mp leaf
  obtain ⟨temps, built, handed⟩ := runInner_ok ran
  have uniqueTemps : Scratchpad.UniqueNames temps := by
    rw [Scratchpad.UniqueNames, names_makeTempBufs built]
    exact unique
  apply (honours _ _ (by decide) temps uniqueTemps allocation handed).of_narrows
  intro slot inside
  obtain ⟨committed, isCommitted, isSlot⟩ := List.mem_filterMap.mp inside
  obtain ⟨buffer, isBuffer, rfl⟩ := List.mem_map.mp isCommitted
  obtain ⟨temp, isTemp, tempBuilt⟩ := exists_right_of_forall₂ (forall₂_of_mapM built) isBuffer
  obtain ⟨tempSlot, isTempSlot, narrows⟩ := narrows_committedSlot tempBuilt isSlot
  exact ⟨tempSlot, List.mem_filterMap.mpr ⟨temp, isTemp, isTempSlot⟩, narrows⟩

/-! ## The alignment is not forwarded -/

/-- Every plan found through a solver that honours its own parameters honours these. -/
def Honours (limit alignment : ℤ) : Prop :=
  ∀ inner, HonoursParameters inner → ∀ buffers,
    (buffers.map fun buffer : CoreDivisionBuffer => buffer.name).Nodup → ∀ placed,
      (ExhaustiveSearchSolver.mk buffers limit alignment).planLayoutAndCoreDivisions inner =
        .ok placed →
      SafeSlots limit alignment (placed.filterMap committedSlot)

/-- A stick and an empty buffer that lives at the same time. -/
def stickAndEmpty : List CoreDivisionBuffer :=
  [{ toLifetimeBoundBuffer := .usedTwice "stick" 128 0 0, coreDivisions := [whole] },
    { toLifetimeBoundBuffer := .usedTwice "empty" 0 0 0, coreDivisions := [whole] }]

def stickAndEmptyPlaced : List CoreDivisionBuffer :=
  [{ toLifetimeBoundBuffer := (LifetimeBoundBuffer.usedTwice "stick" 128 0 0).located (some 0)
     coreDivisions := [whole], chosenDivision := some 0 },
    { toLifetimeBoundBuffer := (LifetimeBoundBuffer.usedTwice "empty" 0 0 0).located (some 128)
      coreDivisions := [whole], chosenDivision := some 0 }]

/-- The stack of both, at the default alignment. -/
theorem stickAndEmpty_stacked {limit alignment : ℤ} (roomy : defaultAlignment ≤ limit) :
    (ExhaustiveSearchSolver.mk stickAndEmpty limit alignment).planLayoutAndCoreDivisions stacking =
      .ok stickAndEmptyPlaced := by
  have built : (ExhaustiveSearchSolver.mk stickAndEmpty limit alignment).makeTempBufs (fun _ => 0) =
      .ok [{ name := "stick", size := 128, uses := [0, 1] },
        { name := "empty", size := 0, uses := [0, 1] }] := rfl
  have ran : (ExhaustiveSearchSolver.mk stickAndEmpty limit alignment).runInner stacking
      (fun _ => 0) = .ok [⟨"stick", some 0, none⟩, ⟨"empty", some 128, none⟩] := by
    rw [runInner, built]
    show Except.ok (stackFrom limit 128 0 _) = _
    have enough : (128 : ℤ) ≤ limit := roomy
    simp [stackFrom, ceilDiv, enough]
  have untiled : ∀ buffer ∈ stickAndEmpty, ∀ cd ∈ buffer.coreDivisions,
      cd.tiling.isUntiled = true := by
    decide
  have leaf : (ExhaustiveSearchSolver.mk stickAndEmpty limit alignment).leaves = [fun _ => 0] := rfl
  have final : (ExhaustiveSearchSolver.mk stickAndEmpty limit alignment).leafPlan stacking
      (fun _ => 0) = .ok stickAndEmptyPlaced := by
    rw [leafPlan, ran]
    rfl
  rw [planLayoutAndCoreDivisions_eq untiled, leaf, List.foldlM_cons, keepLeast, scoreLeaf, ran]
  exact final

theorem honours_iff (limit alignment : ℤ) :
    Honours limit alignment ↔ alignment ∣ defaultAlignment ∨ limit < defaultAlignment := by
  constructor
  · intro honours
    by_contra neither
    rw [not_or, not_lt] at neither
    have safe := honours stacking stacking_honoursParameters stickAndEmpty (by decide) _
      (stickAndEmpty_stacked neither.2)
    have aligned := (safe.within ⟨"empty", 0, 2, [], ⟨128, 0⟩⟩ (by decide)).1
    exact neither.1 aligned
  · intro fits inner honours buffers unique placed planned
    have uniqueNames : (ExhaustiveSearchSolver.mk buffers limit alignment).UniqueNames := unique
    apply (safeSlots_default uniqueNames honours planned).realign
    apply fits.imp_right
    intro small
    refine ⟨small, ?_⟩
    intro slot inside
    obtain ⟨buffer, -, isSlot⟩ := List.mem_filterMap.mp inside
    exact size_nonneg_of_committedSlot isSlot

/-- Two sticks that live at the same time. -/
def twoSticks : List CoreDivisionBuffer :=
  [{ toLifetimeBoundBuffer := .usedTwice "first" 128 0 0, coreDivisions := [whole] },
    { toLifetimeBoundBuffer := .usedTwice "second" 128 0 0, coreDivisions := [whole] }]

/-- At an alignment of two sticks the second one is still put right above the first. -/
theorem not_honours_twoSticks : ¬Honours 1024 256 := by
  intro honours
  have planned : ((ExhaustiveSearchSolver.mk twoSticks 1024 256).planLayoutAndCoreDivisions
      stacking).toOption.map (List.filterMap committedSlot) =
        some [⟨"first", 0, 2, [], ⟨0, 128⟩⟩, ⟨"second", 0, 2, [], ⟨128, 128⟩⟩] := by
    decide +kernel
  cases found : (ExhaustiveSearchSolver.mk twoSticks 1024 256).planLayoutAndCoreDivisions stacking with
  | error message =>
      rw [found] at planned
      cases planned
  | ok placed =>
      have safe := honours stacking stacking_honoursParameters twoSticks (by decide) placed found
      rw [found] at planned
      rw [Option.some.inj planned] at safe
      have aligned := (safe.within ⟨"second", 0, 2, [], ⟨128, 128⟩⟩ (by decide)).1
      exact absurd aligned (by decide)

end ExhaustiveSearchSolver

end TorchSpyre.Scratchpad.ExhaustiveSearch
