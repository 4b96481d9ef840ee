import Mathlib
import TorchSpyre.Scratchpad.Buffer

/-!
# What the placement-only plan solvers share

The check of declared in-place pairs and the split of the buffers into placeable
and excluded ones.  Buffers are identified by name, as in the source; a dict
built from a list keeps the last buffer of a name.
-/

namespace TorchSpyre.Scratchpad

def byName (buffers : List LifetimeBoundBuffer) (name : String) : Option LifetimeBoundBuffer :=
  buffers.reverse.find? fun buffer => buffer.name = name

def UniqueNames (buffers : List LifetimeBoundBuffer) : Prop :=
  (buffers.map LifetimeBoundBuffer.name).Nodup

instance (buffers : List LifetimeBoundBuffer) : Decidable (UniqueNames buffers) :=
  inferInstanceAs (Decidable (List.Nodup _))

def showUses (uses : List ℤ) : String := "[" ++ String.intercalate ", " (uses.map toString) ++ "]"

def checkInPlaceParentIsRead (parent : LifetimeBoundBuffer) (childName : String) :
    Except String Unit :=
  if !(parent.firstUseIsRead ||
      decide (1 < parent.uses.length ∧ parent.firstUse < parent.lastUse)) then
    .error ("In-place parent " ++ parent.name ++ " is a computed buffer that is never read (uses=" ++
      showUses parent.uses ++ "), so it cannot hand its storage to child " ++ childName)
  else .ok ()

def checkInPlacePair (child parent : LifetimeBoundBuffer) (parentName : String) :
    Except String Unit :=
  if parent.endTime ≠ child.startTime + 1 then
    .error ("In-place parent " ++ parentName ++ ".end_time=" ++ toString parent.endTime ++
      " must equal child " ++ child.name ++ ".start_time+1=" ++ toString (child.startTime + 1))
  else
    match checkInPlaceParentIsRead parent child.name with
    | .error message => .error message
    | .ok () =>
        if child.size > parent.size then
          .error ("In-place child " ++ child.name ++ ".size=" ++ toString child.size ++
            " must be <= parent " ++ parentName ++ ".size=" ++ toString parent.size)
        else .ok ()

/-- Declared pairs whose parent is in the list, in the order of the check. -/
def resolvedPairs (buffers : List LifetimeBoundBuffer) :
    List (LifetimeBoundBuffer × LifetimeBoundBuffer × String) :=
  buffers.flatMap fun child =>
    child.inPlaceParents.filterMap fun parentName =>
      (byName buffers parentName).map fun parent => (child, parent, parentName)

def checkPairs : List (LifetimeBoundBuffer × LifetimeBoundBuffer × String) → Except String Unit
  | [] => .ok ()
  | (child, parent, parentName) :: rest =>
      match checkInPlacePair child parent parentName with
      | .error message => .error message
      | .ok () => checkPairs rest

/-- `_check_in_place_relationships` on buffers without core divisions. -/
def checkInPlaceRelationships (buffers : List LifetimeBoundBuffer) : Except String Unit :=
  checkPairs (resolvedPairs buffers)

/-- Why a buffer may not reside in LX for a solver that does not pick tilings
from the menu. -/
def excluded (limit : ℤ) (buffer : LifetimeBoundBuffer) : Option String :=
  match buffer.residencyReason with
  | some reason => some reason
  | none =>
      match buffer.untiledBar with
      | some reason => some reason
      | none =>
          if buffer.minFootprint > limit then
            some ("min footprint " ++ toString buffer.minFootprint ++ " B > LX capacity " ++
              toString limit ++ " B")
          else none

/-- Names of the excluded buffers (`record_exclusions`). -/
def recordExclusions (limit : ℤ) (buffers : List LifetimeBoundBuffer) : List String :=
  (buffers.filter fun buffer => (excluded limit buffer).isSome).map LifetimeBoundBuffer.name

def partition (limit : ℤ) (buffers : List LifetimeBoundBuffer) :
    List LifetimeBoundBuffer × List LifetimeBoundBuffer :=
  (buffers.filter fun buffer => buffer.name ∉ recordExclusions limit buffers,
    buffers.filter fun buffer => buffer.name ∈ recordExclusions limit buffers)

/-! ## Looking a buffer up by name -/

theorem mem_of_byName {buffers : List LifetimeBoundBuffer} {name : String}
    {buffer : LifetimeBoundBuffer} (found : byName buffers name = some buffer) :
    buffer ∈ buffers ∧ buffer.name = name := by
  refine ⟨List.mem_reverse.mp (List.mem_of_find?_eq_some found), ?_⟩
  simpa using List.find?_some found

section Unique

variable {buffers : List LifetimeBoundBuffer} (unique : UniqueNames buffers)

include unique

theorem eq_of_name_eq {first second : LifetimeBoundBuffer} (firstIn : first ∈ buffers)
    (secondIn : second ∈ buffers) (sameName : first.name = second.name) : first = second :=
  List.inj_on_of_nodup_map unique firstIn secondIn sameName

theorem byName_eq_some_iff {name : String} {buffer : LifetimeBoundBuffer} :
    byName buffers name = some buffer ↔ buffer ∈ buffers ∧ buffer.name = name := by
  refine ⟨mem_of_byName, ?_⟩
  rintro ⟨membership, named⟩
  cases found : byName buffers name with
  | none =>
      have missing := List.find?_eq_none.mp found buffer (List.mem_reverse.mpr membership)
      simp [named] at missing
  | some other =>
      obtain ⟨otherIn, otherNamed⟩ := mem_of_byName found
      rw [eq_of_name_eq unique otherIn membership (otherNamed.trans named.symm)]

end Unique

/-! ## What the check and the partition guarantee -/

theorem checkPairs_ok {pairs : List (LifetimeBoundBuffer × LifetimeBoundBuffer × String)}
    (accepted : checkPairs pairs = .ok ()) :
    ∀ pair ∈ pairs, checkInPlacePair pair.1 pair.2.1 pair.2.2 = .ok () := by
  induction pairs with
  | nil => simp
  | cons head tail inductionHypothesis =>
      simp only [checkPairs] at accepted
      split at accepted
      · simp at accepted
      next headAccepted =>
        intro pair membership
        rcases List.mem_cons.mp membership with rfl | inTail
        · exact headAccepted
        · exact inductionHypothesis accepted pair inTail

theorem checkInPlacePair_ok {child parent : LifetimeBoundBuffer} {parentName : String}
    (accepted : checkInPlacePair child parent parentName = .ok ()) :
    parent.endTime = child.startTime + 1 ∧ child.size ≤ parent.size := by
  unfold checkInPlacePair at accepted
  split at accepted
  · simp at accepted
  next handoff =>
    split at accepted
    · simp at accepted
    · split at accepted
      · simp at accepted
      next fits => exact ⟨not_not.mp handoff, not_lt.mp fits⟩

/-- A declared parent in the list ends one tick after the child starts and is at
least as large. -/
theorem checked_pair {buffers : List LifetimeBoundBuffer} (unique : UniqueNames buffers)
    (accepted : checkInPlaceRelationships buffers = .ok ()) {child parent : LifetimeBoundBuffer}
    (childIn : child ∈ buffers) (parentIn : parent ∈ buffers)
    (declared : parent.name ∈ child.inPlaceParents) :
    parent.endTime = child.startTime + 1 ∧ child.size ≤ parent.size := by
  have found := (byName_eq_some_iff unique).mpr ⟨parentIn, rfl⟩
  have resolved : (child, parent, parent.name) ∈ resolvedPairs buffers :=
    List.mem_flatMap.mpr ⟨child, childIn, List.mem_filterMap.mpr
      ⟨parent.name, declared, by rw [found, Option.map_some]⟩⟩
  exact checkInPlacePair_ok (checkPairs_ok accepted _ resolved)

theorem mem_placeable {limit : ℤ} {buffers : List LifetimeBoundBuffer}
    {buffer : LifetimeBoundBuffer} (placeable : buffer ∈ (partition limit buffers).1) :
    buffer ∈ buffers ∧ excluded limit buffer = none := by
  obtain ⟨membership, unrecorded⟩ := List.mem_filter.mp placeable
  refine ⟨membership, ?_⟩
  by_contra barred
  have recorded : buffer.name ∈ recordExclusions limit buffers :=
    List.mem_map_of_mem (List.mem_filter.mpr
      ⟨membership, Option.isSome_iff_ne_none.mpr barred⟩)
  simp [recorded] at unrecorded

theorem placeable_of_allowed {limit : ℤ} {buffers : List LifetimeBoundBuffer}
    (unique : UniqueNames buffers) {buffer : LifetimeBoundBuffer} (membership : buffer ∈ buffers)
    (allowed : excluded limit buffer = none) : buffer ∈ (partition limit buffers).1 := by
  refine List.mem_filter.mpr ⟨membership, decide_eq_true ?_⟩
  intro recorded
  obtain ⟨other, barred, sameName⟩ := List.mem_map.mp recorded
  obtain ⟨otherIn, otherBarred⟩ := List.mem_filter.mp barred
  rw [eq_of_name_eq unique otherIn membership sameName, allowed] at otherBarred
  cases otherBarred

end TorchSpyre.Scratchpad
