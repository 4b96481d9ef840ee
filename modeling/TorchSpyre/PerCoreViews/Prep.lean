import TorchSpyre.Lib.Dict
import TorchSpyre.Ownership.FusedSplit

/-!
# What a per-core view is computed from

`_ViewPrep`: the loops of an operation, their strides on one buffer, and the device layout of the
buffer.  What `_prepare_per_core_view` derives from the layout is derived here from the fields.
-/

namespace TorchSpyre.PerCoreViews

open Lib Lib.Symbolic Ownership

structure ViewConfig where
  lxPlannerRelayout : Bool
  lxExtendedOwnership : Bool
  coreIdKFastEmission : Bool

structure ViewPrep where
  /-- The loops with their extents; of a pair only the extent. -/
  iterSpace : Dict Symbol Expr
  /-- The host stride of each loop on the buffer. -/
  depCoeff : Dict Symbol ℤ
  depDeviceCoordinates : List Expr
  deviceSize : List ℕ
  strideMap : List ℤ
  elemsPerStick : ℕ
  isMatmul : Bool

namespace ViewPrep

variable (prep : ViewPrep)

/-! ## The layout -/

/-- One entry of the stride map: ((stride, size), dimension). -/
def addStride (dims : Dict ℤ ℕ) (entry : (ℤ × ℕ) × ℕ) : Dict ℤ ℕ :=
  if entry.1.1 ≤ 0 then dims
  else if dims.lookup entry.1.1 = none ∨ entry.1.2 ≠ 1 then dims.set entry.1.1 entry.2
  else dims

/-- The device dimension of each host stride; a dimension of size one gives way. -/
def deviceStrideToDim : Dict ℤ ℕ :=
  (prep.strideMap.zip prep.deviceSize).zipIdx.foldl addStride Dict.empty

def stickHostStride : Option ℤ := prep.strideMap.getLast?.filter (0 < ·)

/-- The device dimension that counts sticks. -/
def numStickDim : Option ℕ :=
  prep.stickHostStride.bind fun stride => prep.deviceStrideToDim.lookup (stride * prep.elemsPerStick)

def sizeOf (dim : ℕ) : ℕ := prep.deviceSize[dim]?.getD 0

def coordinateOf (dim : ℕ) : Expr := prep.depDeviceCoordinates[dim]?.getD (.const 0)

def numStick : ℕ := prep.numStickDim.elim 0 prep.sizeOf

def numStickStride : ℤ := prep.numStickDim.elim 0 fun dim => prep.strideMap[dim]?.getD 0

/-! ## The loops -/

def hostStride (sym : Symbol) : ℤ := (prep.depCoeff.lookup sym).getD 0

def perSym (splits : Dict Symbol ℕ) (sym : Symbol) : ℕ :=
  if sym ∈ prep.iterSpace.keys then (splits.lookup sym).getD 1 else 1

/-- The split of each host stride; of several loops at one stride the last one stays. -/
def addSplit (splits : Dict Symbol ℕ) (byStride : Dict ℤ (ℕ × Symbol)) (sym : Symbol) :
    Dict ℤ (ℕ × Symbol) :=
  if prep.perSym splits sym ≤ 1 ∨ prep.hostStride sym = 0 then byStride
  else byStride.set (prep.hostStride sym) (prep.perSym splits sym, sym)

def splitsByStride (splits : Dict Symbol ℕ) : Dict ℤ (ℕ × Symbol) :=
  prep.iterSpace.keys.foldl (prep.addSplit splits) Dict.empty

/-- The loops that slice the buffer. -/
def tensorOwnedSplitSymbols (splits : Dict Symbol ℕ) : List Symbol :=
  prep.iterSpace.keys.filter fun sym => 1 < prep.perSym splits sym ∧ prep.hostStride sym ≠ 0

/-! ## Strides and dimensions -/

/-- The dimension at a host stride; the stick stride belongs to the dimension that counts sticks. -/
def directDim (stride : ℤ) : Option ℕ :=
  if prep.stickHostStride = some stride then prep.numStickDim
  else prep.deviceStrideToDim.lookup stride

theorem addStride_inv {dims : Dict ℤ ℕ} {entry : (ℤ × ℕ) × ℕ} {stride : ℤ} {dim : ℕ}
    (found : (addStride dims entry).lookup stride = some dim) :
    stride = entry.1.1 ∧ dim = entry.2 ∨ dims.lookup stride = some dim := by
  unfold addStride at found
  split at found
  next => exact .inr found
  next =>
    split at found
    next =>
      by_cases same : stride = entry.1.1
      · subst same
        rw [Dict.lookup_set_self, Option.some.injEq] at found
        exact .inl ⟨rfl, found.symm⟩
      · rw [Dict.lookup_set_of_ne _ same] at found
        exact .inr found
    next => exact .inr found

/-- A dimension has the stride it is found at. -/
theorem strideMap_of_lookup {stride : ℤ} {dim : ℕ}
    (found : prep.deviceStrideToDim.lookup stride = some dim) : prep.strideMap[dim]? = some stride := by
  have folded : ∀ (entries : List ((ℤ × ℕ) × ℕ)) (dims : Dict ℤ ℕ),
      (entries.foldl addStride dims).lookup stride = some dim →
      (∃ entry ∈ entries, stride = entry.1.1 ∧ dim = entry.2) ∨ dims.lookup stride = some dim := by
    intro entries
    induction entries with
    | nil => exact fun _ isFound => .inr isFound
    | cons entry entries inductionHypothesis =>
        intro dims isFound
        rcases inductionHypothesis _ isFound with ⟨other, listed, same⟩ | earlier
        · exact .inl ⟨other, List.mem_cons_of_mem _ listed, same⟩
        · rcases addStride_inv earlier with same | before
          · exact .inl ⟨entry, List.mem_cons_self, same⟩
          · exact .inr before
  rcases folded _ _ found with ⟨entry, listed, rfl, rfl⟩ | none
  · have position := List.mem_zipIdx_iff_getElem?.mp listed
    exact (List.getElem?_zip_eq_some.mp position).1
  · cases none

/-- The stride of the stick count leads back to it. -/
theorem directDim_numStickStride {dim : ℕ} (counted : prep.numStickDim = some dim) :
    prep.directDim prep.numStickStride = some dim := by
  rw [directDim]
  split
  next => exact counted
  next =>
    obtain ⟨stride, isStick, found⟩ := Option.bind_eq_some_iff.mp counted
    have same := prep.strideMap_of_lookup found
    rw [numStickStride, counted, Option.elim_some, same, Option.getD_some]
    exact found

end ViewPrep

end TorchSpyre.PerCoreViews
