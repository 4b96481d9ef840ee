import Mathlib
import TorchSpyre.Bundle.Calls

/-!
# Tensors that share a symbol

A symbol has one address and advances by one amount, while every tensor that has its key wants its own
address there. All get it exactly if the tensors of a key agree.
-/

namespace TorchSpyre.Bundle

open Lib

/-! ## The addresses that tensors want -/

namespace SDSCArgs

variable (tensor : SDSCArgs)

/-- Where a core's part starts before any loop advances. -/
def ownBase (arguments : Arguments) (core : ℕ) : ℤ :=
  if tensor.nonUnified then arguments.shard tensor.argIndex core
  else if tensor.argIndex < 0 then arguments.pool + tensor.coreAddress core
  else arguments.arg tensor.argIndex + (tensor.coreAddress core - tensor.argIndex)

def ownAddress (arguments : Arguments) (core : ℕ) (values : List ℕ) : ℤ :=
  tensor.ownBase arguments core + advance tensor.affineStrides values

end SDSCArgs

variable {Body DebugHandle : Type}

/-- No split is symbolic, and core zero has the first slot of each. -/
structure SDSCSpec.Concrete (spec : SDSCSpec Body DebugHandle) : Prop where
  unsplit : ∀ tensor ∈ spec.args, tensor.symbolicSplit = none
  first : ∀ tensor ∈ spec.args, tensor.coreOffsetBytes 0 = tensor.sliceOffsetBytes

/-- A core reads a tensor in HBM. -/
structure Reads (spec : SDSCSpec Body DebugHandle) (tensor : SDSCArgs) (core : ℕ) : Prop where
  inside : tensor ∈ spec.args
  inHbm : tensor.inLx = false
  core : core < spec.numCores

/-- A core that is used reads a tensor with strides through the symbol of a key. -/
structure Moves (spec : SDSCSpec Body DebugHandle) (key : SymbolKey) (tensor : SDSCArgs) : Prop where
  advances : tensor.affineStrides.flatten ≠ []
  reads : ∃ core < spec.numCoresUsed, Reads spec tensor core ∧ startAddrKey tensor core = key

section Sharing

variable (spec : SDSCSpec Body DebugHandle)

/-- The address behind a key before any loop advances. -/
inductive Holds (arguments : Arguments) : SymbolKey → ℤ → Prop where
  | kernel {argIndex : ℤ} (nonneg : 0 ≤ argIndex) :
    Holds arguments (.kernel argIndex) (arguments.arg argIndex)
  | kernelSlice {argIndex : ℤ} (offset : ℤ) (nonneg : 0 ≤ argIndex) :
      Holds arguments (.kernelSlice argIndex offset) (arguments.arg argIndex + offset)
  | shardKernel (argIndex : ℤ) (coreIdx : ℕ) :
      Holds arguments (.shardKernel argIndex coreIdx) (arguments.shard argIndex coreIdx)
  | pool (address : ℤ) : Holds arguments (.pool address) (arguments.pool + address)
  | address {tensor : SDSCArgs} {core : ℕ} (inside : tensor ∈ spec.args) (isArgument : tensor.InArgument)
      (below : core < spec.numCores) (apart : tensor.Apart core) :
      Holds arguments (.address (tensor.coreAddress core)) (arguments.arg tensor.argIndex +
        max tensor.totalSliceOffset 0 + (tensor.coreAddress core - tensor.coreAddress 0))

/-- How far the symbol of a key advances: as far as one of the tensors that move it. -/
def Shifts (values : List ℕ) (key : SymbolKey) (amount : ℤ) : Prop :=
  (∃ tensor, Moves spec key tensor ∧ amount = advance tensor.affineStrides values) ∨
    ((¬∃ tensor, Moves spec key tensor) ∧ amount = 0)

/-- No tensor starts before its argument, and one address belongs to one argument. -/
structure Placed : Prop where
  notBelow : ∀ tensor, Reads spec tensor 0 → tensor.InArgument → 0 ≤ tensor.totalSliceOffset
  ownArgument : ∀ tensor core other otherCore, Reads spec tensor core → Reads spec other otherCore →
    tensor.InArgument → other.InArgument → tensor.Apart core → other.Apart otherCore →
      tensor.coreAddress core = other.coreAddress otherCore → tensor.argIndex = other.argIndex

/-- The tensors of a key agree on how far it advances, and a tensor that advances has one that moves
its symbol. -/
structure KeepsApart (values : List ℕ) : Prop where
  placed : Placed spec
  alike : ∀ tensor core other otherCore, Reads spec tensor core → Reads spec other otherCore →
    startAddrKey tensor core = startAddrKey other otherCore →
      advance tensor.affineStrides values = advance other.affineStrides values
  reached : ∀ tensor core, Reads spec tensor core → advance tensor.affineStrides values ≠ 0 →
    ∃ other, Moves spec (startAddrKey tensor core) other

/-- Every core reads each tensor at the tensor's own address. -/
def ReadsOwn (arguments : Arguments) (values : List ℕ) (base amount : SymbolKey → ℤ) : Prop :=
  ∀ tensor core, Reads spec tensor core →
    base (startAddrKey tensor core) + amount
      (startAddrKey tensor core) = tensor.ownAddress arguments core values

/-- What the symbols of the keys that are read have. -/
def Bound (arguments : Arguments) (values : List ℕ) (base amount : SymbolKey → ℤ) : Prop :=
  ∀ tensor core, Reads spec tensor core →
    Holds spec arguments (startAddrKey tensor core) (base (startAddrKey tensor core)) ∧
    Shifts spec values (startAddrKey tensor core) (amount (startAddrKey tensor core))

variable {spec} {arguments : Arguments} {values : List ℕ} {base amount : SymbolKey → ℤ}

/-! ## The base of a key -/

theorem Reads.first {tensor : SDSCArgs} {core : ℕ} (reads : Reads spec tensor core) : Reads spec tensor 0 :=
  ⟨reads.inside, reads.inHbm, Nat.zero_lt_of_lt reads.core⟩

theorem SDSCSpec.Concrete.coreAddress_zero (concrete : spec.Concrete) {tensor : SDSCArgs}
    (inside : tensor ∈ spec.args) : tensor.coreAddress 0 = tensor.argIndex + tensor.totalSliceOffset := by
  rw [SDSCArgs.coreAddress, SDSCArgs.totalSliceOffset, concrete.first tensor inside]
  ring

theorem startAddrKey_of_inArgument {tensor : SDSCArgs} (isArgument : tensor.InArgument) (core : ℕ) :
    startAddrKey tensor core =
      if core = 0 ∨ tensor.coreAddress core = tensor.coreAddress 0 then tensor.slicedBaseKey
      else if tensor.symbolicSplit.isSome then .kernelDerivedSymbolic tensor.argIndex core
      else .address (tensor.coreAddress core) := by
  rw [startAddrKey, if_neg (by simp [isArgument.unified]), if_neg fun pool =>
    absurd pool.1 (not_lt.mpr isArgument.nonneg)]

theorem startAddrKey_of_apart (concrete : spec.Concrete) {tensor : SDSCArgs} {core : ℕ}
    (inside : tensor ∈ spec.args) (isArgument : tensor.InArgument) (apart : tensor.Apart core) :
    startAddrKey tensor core = .address (tensor.coreAddress core) := by
  rw [startAddrKey_of_inArgument isArgument, if_neg apart, concrete.unsplit tensor inside]
  rfl

theorem Holds.slicedBase {tensor : SDSCArgs} {address : ℤ}
    (holds : Holds spec arguments tensor.slicedBaseKey address) :
    0 ≤ tensor.argIndex ∧ address = arguments.arg tensor.argIndex + max tensor.totalSliceOffset 0 := by
  unfold SDSCArgs.slicedBaseKey at holds
  split at holds
  next sliced =>
    cases holds with
    | kernelSlice offset nonneg => exact ⟨nonneg, by rw [max_eq_left (le_of_lt sliced)]⟩
  next unsliced =>
    cases holds with
    | kernel nonneg => exact ⟨nonneg, by rw [max_eq_right (not_lt.mp unsliced), add_zero]⟩

/-- A unified tensor in HBM without an argument is in the pool. -/
theorem Bound.nonneg_or_pool (bound : Bound spec arguments values base amount) {tensor : SDSCArgs} {core : ℕ}
    (reads : Reads spec tensor core) (unified : tensor.nonUnified = false) :
    0 ≤ tensor.argIndex ∨ tensor.argIndex < 0 ∧ tensor.inHbmPool = true := by
  rcases lt_or_ge tensor.argIndex 0 with negative | nonneg
  · refine .inr ⟨negative, ?_⟩
    by_contra noPool
    have holds := (bound tensor 0 reads.first).1
    have isKey : startAddrKey tensor 0 = tensor.slicedBaseKey := by
      rw [startAddrKey, if_neg (by simp [unified]), if_neg fun pool => noPool pool.2, if_pos (.inl rfl)]
    rw [isKey] at holds
    exact absurd holds.slicedBase.1 (not_le.mpr negative)
  · exact .inl nonneg

theorem Placed.ownBase_eq (placed : Placed spec) (concrete : spec.Concrete)
    (bound : Bound spec arguments values base amount) {tensor : SDSCArgs} {core : ℕ}
    (reads : Reads spec tensor core) : tensor.ownBase arguments core = base (startAddrKey tensor core) := by
  have holds := (bound tensor core reads).1
  generalize base (startAddrKey tensor core) = address at holds
  unfold SDSCArgs.ownBase
  cases unified : tensor.nonUnified with
  | true =>
      rw [startAddrKey, if_pos unified] at holds
      cases holds
      rfl
  | false =>
      rw [if_neg Bool.false_ne_true]
      rcases bound.nonneg_or_pool reads unified with nonneg | ⟨negative, inPool⟩
      · have isArgument : tensor.InArgument := ⟨unified, reads.inHbm, nonneg⟩
        rw [if_neg (not_lt.mpr nonneg)]
        by_cases atBase : core = 0 ∨ tensor.coreAddress core = tensor.coreAddress 0
        · rw [startAddrKey_of_inArgument isArgument, if_pos atBase] at holds
          have isBase : tensor.coreAddress core = tensor.coreAddress 0 := by
            rcases atBase with rfl | same
            · rfl
            · exact same
          have notBelow := placed.notBelow tensor reads.first isArgument
          rw [holds.slicedBase.2, isBase, concrete.coreAddress_zero reads.inside, max_eq_left notBelow]
          ring
        · rw [startAddrKey_of_apart concrete reads.inside isArgument atBase] at holds
          generalize isAddress : tensor.coreAddress core = value at holds ⊢
          cases holds with
          | @address other otherCore inside otherArgument below apart =>
              have otherReads : Reads spec other otherCore := ⟨inside, otherArgument.outside, below⟩
              have notBelow := placed.notBelow other otherReads.first otherArgument
              rw [placed.ownArgument tensor core other otherCore reads otherReads isArgument otherArgument
                atBase apart
                isAddress, concrete.coreAddress_zero inside, max_eq_left notBelow]
              ring
      · rw [if_pos negative]
        rw [startAddrKey, if_neg (by simp [unified]), if_pos ⟨negative, inPool⟩] at holds
        cases holds
        rfl

/-! ## When sharing is harmless -/

theorem KeepsApart.readsOwn (keepsApart : KeepsApart spec values) (concrete : spec.Concrete)
    (bound : Bound spec arguments values base amount) : ReadsOwn spec arguments values base amount := by
  intro tensor core reads
  rw [SDSCArgs.ownAddress, keepsApart.placed.ownBase_eq concrete bound reads]
  congr 1
  rcases (bound tensor core reads).2 with ⟨other, moves, isAmount⟩ | ⟨still, isAmount⟩
  · obtain ⟨otherCore, -, otherReads, isKey⟩ := moves.reads
    rw [isAmount]
    exact keepsApart.alike other otherCore tensor core otherReads reads isKey
  · rw [isAmount]
    by_contra moved
    exact still (keepsApart.reached tensor core reads (Ne.symm moved))

theorem Shifts.of_still (still : ∀ tensor ∈ spec.args, advance tensor.affineStrides values = 0)
    {key : SymbolKey}
    {amount : ℤ} (shifts : Shifts spec values key amount) : amount = 0 := by
  rcases shifts with ⟨tensor, moves, rfl⟩ | ⟨-, rfl⟩
  · obtain ⟨core, -, reads, -⟩ := moves.reads
    exact still tensor reads.inside
  · rfl

/-- Arguments of which no two are as far apart as their indices. -/
def spreadArguments : Arguments := ⟨fun argIndex => 2 * argIndex, fun _ _ => 0, fun _ => 0, 0⟩

/-- The condition on the addresses, from an iteration that advances nothing. -/
theorem placed_of_readsOwn (concrete : spec.Concrete)
    (still : ∀ tensor ∈ spec.args, advance tensor.affineStrides values = 0)
    (bound : Bound spec spreadArguments values base amount)
    (own : ReadsOwn spec spreadArguments values base amount) : Placed spec := by
  have isBase : ∀ tensor core, Reads spec tensor core →
      base (startAddrKey tensor core) = tensor.ownBase spreadArguments core := by
    intro tensor core reads
    have isOwn := own tensor core reads
    rwa [(bound tensor core reads).2.of_still still, SDSCArgs.ownAddress, still tensor reads.inside, add_zero,
      add_zero] at isOwn
  have inArgument : ∀ (tensor : SDSCArgs) core, tensor.InArgument → tensor.ownBase spreadArguments core =
      2 * tensor.argIndex + (tensor.coreAddress core - tensor.argIndex) := by
    intro tensor core isArgument
    rw [SDSCArgs.ownBase, if_neg (by simp [isArgument.unified]), if_neg (not_lt.mpr isArgument.nonneg)]
    rfl
  constructor
  · intro tensor reads isArgument
    have holds := (bound tensor 0 reads).1
    have same := isBase tensor 0 reads
    rw [startAddrKey_of_inArgument isArgument, if_pos (.inl rfl)] at holds same
    rw [holds.slicedBase.2, inArgument tensor 0 isArgument, concrete.coreAddress_zero reads.inside] at same
    have positive := le_max_right tensor.totalSliceOffset 0
    simp only [spreadArguments] at same
    omega
  · intro tensor core other otherCore reads otherReads isArgument otherArgument apart otherApart same
    have isKey := startAddrKey_of_apart concrete reads.inside isArgument apart
    have otherKey := startAddrKey_of_apart concrete otherReads.inside otherArgument otherApart
    have first := isBase tensor core reads
    have second := isBase other otherCore otherReads
    rw [isKey, inArgument tensor core isArgument] at first
    rw [otherKey, inArgument other otherCore otherArgument, ← same, first] at second
    omega

theorem keepsApart_of_readsOwn (placed : Placed spec) (concrete : spec.Concrete)
    (bound : Bound spec arguments values base amount) (own : ReadsOwn spec arguments values base amount) :
    KeepsApart spec values := by
  have isAmount : ∀ tensor core, Reads spec tensor core →
      amount (startAddrKey tensor core) = advance tensor.affineStrides values := by
    intro tensor core reads
    have isOwn := own tensor core reads
    rw [SDSCArgs.ownAddress, placed.ownBase_eq concrete bound reads] at isOwn
    exact add_left_cancel isOwn
  refine ⟨placed, ?_, ?_⟩
  · intro tensor core other otherCore reads otherReads same
    rw [← isAmount tensor core reads, same, isAmount other otherCore otherReads]
  · intro tensor core reads moved
    rcases (bound tensor core reads).2 with ⟨other, moves, -⟩ | ⟨-, isZero⟩
    · exact ⟨other, moves⟩
    · rw [isAmount tensor core reads] at isZero
      exact absurd isZero moved

end Sharing

end TorchSpyre.Bundle
