import Mathlib
import TorchSpyre.Lib.Extent

/-!
# Lifetime-bound buffers

The record every scratchpad plan solver works on.  `uses` lists the operation
indices at which the buffer is accessed; the invariants asserted by
`__post_init__` are fields of the structure.  Every function modelled in this
project reads `start_time` or `end_time`, which index into `uses`, so a buffer
whose uses are not known yet is not represented.
-/

namespace TorchSpyre.Scratchpad

open Lib

structure LifetimeBoundBuffer where
  name : String
  size : ℕ
  uses : List ℤ
  firstUseIsRead : Bool := false
  address : Option ℤ := none
  inPlaceParents : List String := []
  residencyReason : Option String := none
  untiledBar : Option String := none
  lifetimeStartOverride : Option ℤ := none
  lifetimeEndOverride : Option ℤ := none
  /-- The partner list carried by the root of a paired group, by name. -/
  pairedWith : List String := []
  usesNonempty : uses ≠ [] := by decide
  usesIncreasing : uses.Pairwise (· < ·) := by decide
  startOverride_le : ∀ override ∈ lifetimeStartOverride, override ≤ uses.head usesNonempty := by
    decide
  endOverride_ge : ∀ override ∈ lifetimeEndOverride,
    uses.getLast usesNonempty + 1 ≤ override := by decide
  deriving DecidableEq, Repr

namespace LifetimeBoundBuffer

/-- A buffer that is used at `first` and again `gap + 1` ticks later. -/
def usedTwice (name : String) (size : ℕ) (first : ℤ) (gap : ℕ) : LifetimeBoundBuffer where
  name := name
  size := size
  uses := [first, first + (gap + 1)]
  usesNonempty := List.cons_ne_nil _ _
  usesIncreasing := by
    simp only [List.pairwise_pair]
    omega
  startOverride_le := by simp
  endOverride_ge := by simp

def firstUse (buffer : LifetimeBoundBuffer) : ℤ := buffer.uses.head buffer.usesNonempty

def lastUse (buffer : LifetimeBoundBuffer) : ℤ := buffer.uses.getLast buffer.usesNonempty

def startTime (buffer : LifetimeBoundBuffer) : ℤ :=
  min buffer.firstUse (buffer.lifetimeStartOverride.getD buffer.firstUse)

/-- `max(nominal, lifetime_end_override or nominal)`: an override of zero counts
as absent. -/
def endTime (buffer : LifetimeBoundBuffer) : ℤ :=
  let nominal := buffer.lastUse + 1
  max nominal
    (match buffer.lifetimeEndOverride with
      | none => nominal
      | some override => if override = 0 then nominal else override)

def minFootprint (buffer : LifetimeBoundBuffer) : ℤ := buffer.size

def overlapsInTime (first second : LifetimeBoundBuffer) : Prop :=
  first.startTime < second.endTime ∧ second.startTime < first.endTime

instance (first second : LifetimeBoundBuffer) : Decidable (first.overlapsInTime second) :=
  inferInstanceAs (Decidable (_ ∧ _))

theorem overlapsInTime_symm {first second : LifetimeBoundBuffer}
    (overlap : first.overlapsInTime second) : second.overlapsInTime first :=
  ⟨overlap.2, overlap.1⟩

theorem firstUse_le (buffer : LifetimeBoundBuffer) {use : ℤ} (isUse : use ∈ buffer.uses) :
    buffer.firstUse ≤ use := by
  have ordered := buffer.usesIncreasing
  rw [← List.cons_head_tail buffer.usesNonempty] at ordered isUse
  rcases List.mem_cons.mp isUse with rfl | inTail
  · exact le_refl _
  · exact le_of_lt ((List.pairwise_cons.mp ordered).1 _ inTail)

theorem le_lastUse (buffer : LifetimeBoundBuffer) {use : ℤ} (isUse : use ∈ buffer.uses) :
    use ≤ buffer.lastUse := by
  have ordered := buffer.usesIncreasing
  rw [← List.dropLast_append_getLast buffer.usesNonempty] at ordered isUse
  rcases List.mem_append.mp isUse with inFront | isLast
  · exact le_of_lt ((List.pairwise_append.mp ordered).2.2 _ inFront _ List.mem_cons_self)
  · exact le_of_eq (List.mem_singleton.mp isLast)

theorem firstUse_le_lastUse (buffer : LifetimeBoundBuffer) :
    buffer.firstUse ≤ buffer.lastUse :=
  buffer.firstUse_le (List.getLast_mem buffer.usesNonempty)

theorem startTime_le_firstUse (buffer : LifetimeBoundBuffer) :
    buffer.startTime ≤ buffer.firstUse :=
  min_le_left _ _

theorem lastUse_lt_endTime (buffer : LifetimeBoundBuffer) :
    buffer.lastUse < buffer.endTime :=
  lt_of_lt_of_le (lt_add_one _) (le_max_left _ _)

theorem startTime_le_override (buffer : LifetimeBoundBuffer) {override : ℤ}
    (overridden : buffer.lifetimeStartOverride = some override) : buffer.startTime ≤ override := by
  unfold startTime
  rw [overridden, Option.getD_some]
  exact min_le_right _ _

theorem override_le_endTime (buffer : LifetimeBoundBuffer) {override : ℤ} (positive : 0 < override)
    (overridden : buffer.lifetimeEndOverride = some override) : override ≤ buffer.endTime := by
  unfold endTime
  rw [overridden]
  simp only [if_neg (ne_of_gt positive)]
  exact le_max_right _ _

/-- A lifetime is never empty. -/
theorem startTime_lt_endTime (buffer : LifetimeBoundBuffer) :
    buffer.startTime < buffer.endTime :=
  lt_of_le_of_lt
    (le_trans buffer.startTime_le_firstUse buffer.firstUse_le_lastUse)
    buffer.lastUse_lt_endTime

/-- The buffer with its address field written. -/
def located (buffer : LifetimeBoundBuffer) (address : Option ℤ) : LifetimeBoundBuffer :=
  { buffer with address := address }

theorem located_none {buffer : LifetimeBoundBuffer} (unplanned : buffer.address = none) :
    buffer.located none = buffer := by
  cases buffer
  cases unplanned
  rfl

theorem map_located_none {buffers : List LifetimeBoundBuffer}
    (unplanned : ∀ buffer ∈ buffers, buffer.address = none) :
    buffers.map (fun buffer => buffer.located none) = buffers := by
  conv_rhs => rw [← List.map_id buffers]
  apply List.map_congr_left
  exact fun buffer membership => located_none (unplanned buffer membership)

end LifetimeBoundBuffer

end TorchSpyre.Scratchpad
