import TorchSpyre.Lib.Linear
import TorchSpyre.Lib.MixedRadix
import TorchSpyre.Lib.Slice
import TorchSpyre.Ownership.Mapping

/-!
# Splits of aligned loops

Tensor alignment cuts a loop into segments, listed innermost first.  A split of
the loop is distributed over its segments, and the owner formulas are rewritten
in the symbols of the segments.
-/

namespace TorchSpyre.Ownership

open Lib Lib.Symbolic

/-- The factors of the segments and what is left, outermost segment first. -/
def distributeOutermost : ℕ → List ℕ → List ℕ × ℕ
  | remaining, [] => ([], remaining)
  | remaining, basis :: inner =>
      let factor := remaining.gcd basis
      let (factors, left) := distributeOutermost (remaining / factor) inner
      (factor :: factors, left)

def distributeAlignedSplit (split : ℕ) (bases : List ℕ) : List ℕ × ℕ :=
  let (factors, left) := distributeOutermost split bases.reverse
  (factors.reverse, left)

/-- No segment inside one that is not split whole is split; outermost segment first. -/
def splitWholeOutside : Bool → List (ℕ × ℕ) → Bool
  | _, [] => true
  | splitInside, (factor, basis) :: inner =>
      if splitInside ∧ 1 < factor then false
      else splitWholeOutside (splitInside || decide (factor < basis)) inner

def alignedSplitKeepsBlocks (split : ℕ) (bases : List ℕ) : Bool :=
  let (factors, remaining) := distributeAlignedSplit split bases
  if remaining ≠ 1 then false
  else splitWholeOutside false (factors.reverse.zip bases.reverse)

/-! ## Remapping a division -/

inductive RemapError where
  | noAlignment (dim : Symbol)
  | cannotNormalize (split : ℕ) (dim : Symbol)
  | noSlot (dim : Symbol)
  | conflicting (dim : Symbol)
  deriving DecidableEq

/-- The new dimensions of an old one, innermost first, with their extents. -/
abbrev DimensionRemap := List (Symbol × List (Symbol × ℕ))

/-- `new_splits` and `new_core_map`, which always have the same keys. -/
abbrev Remapped := List (Symbol × ℕ × Expr)

def Remapped.insert (entries : Remapped) (dim : Symbol) (factor : ℕ) (slot : Expr) : Remapped :=
  if (entries.lookup dim).isSome then
    entries.map fun entry => if entry.1 = dim then (dim, factor, slot) else entry
  else entries ++ [(dim, factor, slot)]

def Remapped.conflicts (entries : Remapped) (numCores : ℕ) (dim : Symbol) (factor : ℕ)
    (slot : Expr) : Bool :=
  match entries.lookup dim with
  | none => false
  | some (previousSplit, previousSlot) =>
      decide (previousSplit ≠ factor) ||
        !coreMappingsEqual [(dim, previousSlot)] [(dim, slot)] numCores

def digitSlot (sympy : Sympy) (slot : Expr) (slotStride factor : ℕ) : Expr :=
  sympy.auto (.mod (.floor (.mul (.const (1 / slotStride)) slot)) factor.toPNat')

def remapSegments (sympy : Sympy) (numCores : ℕ) (slot : Expr) :
    ℕ → List (Symbol × ℕ) → Remapped → Except RemapError Remapped
  | _, [], entries => .ok entries
  | slotStride, (dim, factor) :: outer, entries =>
      if factor = 1 then remapSegments sympy numCores slot slotStride outer entries
      else
        let newSlot := digitSlot sympy slot slotStride factor
        if entries.conflicts numCores dim factor newSlot then .error (.conflicting dim)
        else
          remapSegments sympy numCores slot (slotStride * factor) outer
            (entries.insert dim factor newSlot)

/-- The factor of each new dimension, and what could not be distributed. -/
def segmentFactors (split : ℕ) (newDims : List (Symbol × ℕ)) : List ℕ × ℕ :=
  if newDims.length = 1 then ([split], 1)
  else distributeAlignedSplit split (newDims.map Prod.snd)

def remapDim (sympy : Sympy) (division : TensorWorkDivision) (remap : DimensionRemap)
    (oldDim : Symbol) (split : ℕ) (entries : Remapped) : Except RemapError Remapped :=
  match remap.lookup oldDim with
  | none => .error (.noAlignment oldDim)
  | some newDims =>
      if (segmentFactors split newDims).2 ≠ 1 then .error (.cannotNormalize split oldDim)
      else
        match division.coreIdToWorkSlice.lookup oldDim with
        | none => .error (.noSlot oldDim)
        | some slot =>
            remapSegments sympy division.physicalCoreCount slot 1
              ((newDims.map Prod.fst).zip (segmentFactors split newDims).1) entries

def remapDims (sympy : Sympy) (division : TensorWorkDivision) (remap : DimensionRemap) :
    List (Symbol × ℕ) → Remapped → Except RemapError Remapped
  | [], entries => .ok entries
  | (oldDim, split) :: rest, entries => do
      let entries ← remapDim sympy division remap oldDim split entries
      remapDims sympy division remap rest entries

def remapWorkDivision (sympy : Sympy) (division : TensorWorkDivision) (remap : DimensionRemap) :
    Except RemapError TensorWorkDivision := do
  let entries ← remapDims sympy division remap division.workSlices []
  return {
    workSlices := entries.map fun entry => (entry.1, entry.2.1)
    coreIdToWorkSlice := entries.map fun entry => (entry.1, entry.2.2)
    numCores := some division.physicalCoreCount }

/-! ## The factors -/

theorem distributeOutermost_factors {remaining : ℕ} {bases : List ℕ} (positive : 0 < remaining) :
    List.Forall₂ (fun factor basis => 0 < factor ∧ factor ∣ basis)
        (distributeOutermost remaining bases).1 bases ∧
      (distributeOutermost remaining bases).1.prod * (distributeOutermost remaining bases).2 =
        remaining := by
  induction bases generalizing remaining with
  | nil => exact ⟨.nil, by simp [distributeOutermost]⟩
  | cons basis inner inductionHypothesis =>
      have factorPositive : 0 < remaining.gcd basis := Nat.gcd_pos_of_pos_left basis positive
      have restPositive : 0 < remaining / remaining.gcd basis :=
        Nat.div_pos (Nat.gcd_le_left basis positive) factorPositive
      obtain ⟨factors, product⟩ := inductionHypothesis restPositive
      constructor
      · exact .cons ⟨factorPositive, Nat.gcd_dvd_right remaining basis⟩ factors
      · simp only [distributeOutermost, List.prod_cons]
        rw [mul_assoc, product, Nat.mul_div_cancel' (Nat.gcd_dvd_left remaining basis)]

theorem distributeAlignedSplit_factors {split : ℕ} {bases : List ℕ} (positive : 0 < split) :
    List.Forall₂ (fun factor basis => 0 < factor ∧ factor ∣ basis)
        (distributeAlignedSplit split bases).1 bases ∧
      (distributeAlignedSplit split bases).1.prod * (distributeAlignedSplit split bases).2 =
        split := by
  obtain ⟨factors, product⟩ := @distributeOutermost_factors split bases.reverse positive
  constructor
  · rw [← List.forall₂_reverse_iff]
    simpa [distributeAlignedSplit] using factors
  · simpa [distributeAlignedSplit, List.prod_reverse] using product

theorem splitWholeOutside_iff {splitInside : Bool} {segments : List (ℕ × ℕ)} :
    splitWholeOutside splitInside segments = true ↔
      (splitInside = true → ∀ segment ∈ segments, ¬ 1 < segment.1) ∧
        segments.Pairwise fun outer inner => outer.1 < outer.2 → ¬ 1 < inner.1 := by
  induction segments generalizing splitInside with
  | nil => simp [splitWholeOutside]
  | cons segment inner inductionHypothesis =>
      obtain ⟨factor, basis⟩ := segment
      rw [splitWholeOutside, List.pairwise_cons]
      by_cases breaks : splitInside = true ∧ 1 < factor
      · rw [if_pos breaks]
        simp only [Bool.false_eq_true, false_iff]
        rintro ⟨unsplit, -⟩
        exact unsplit breaks.1 (factor, basis) List.mem_cons_self breaks.2
      · rw [if_neg breaks, inductionHypothesis]
        rw [not_and] at breaks
        simp only [Bool.or_eq_true, decide_eq_true_eq, List.forall_mem_cons]
        constructor
        · rintro ⟨unsplit, pairwise⟩
          exact ⟨fun inside => ⟨breaks inside, unsplit (Or.inl inside)⟩,
            fun other listed partly => unsplit (Or.inr partly) other listed, pairwise⟩
        · rintro ⟨unsplit, partly, pairwise⟩
          refine ⟨?_, pairwise⟩
          rintro (inside | isPart)
          · exact (unsplit inside).2
          · exact fun other listed => partly other listed isPart

/-! ## Blocks -/

/-- Every digit of the flat value lies in the share of the slot's digit; innermost segment first.
The digit of the slot is the slot over the factors inside, modulo the segment's own. -/
def DigitsOwned (slot value : ℕ) : ℕ → ℕ → List (ℕ × ℕ) → Prop
  | _, _, [] => True
  | slotStride, valueStride, (factor, basis) :: outer =>
      InSlice (basis / factor : ℕ) (slot / slotStride % factor : ℕ)
          (value / valueStride % basis : ℕ) ∧
        DigitsOwned slot value (slotStride * factor) (valueStride * basis) outer

def pairOf (segment : MixedRadix.Segment) : ℕ × ℕ := (segment.factor, segment.extent)

theorem exists_segments {factors bases : List ℕ}
    (factored : List.Forall₂ (fun factor basis => 0 < factor ∧ factor ∣ basis) factors bases)
    (positive : ∀ basis ∈ bases, 0 < basis) :
    ∃ segments : List MixedRadix.Segment,
      segments.map MixedRadix.Segment.factor = factors ∧
        segments.map MixedRadix.Segment.extent = bases := by
  induction factored with
  | nil => exact ⟨[], rfl, rfl⟩
  | @cons factor basis _ _ here _ inductionHypothesis =>
      rw [List.forall_mem_cons] at positive
      obtain ⟨segments, rfl, rfl⟩ := inductionHypothesis positive.2
      exact ⟨⟨factor, basis, here.1, positive.1, here.2⟩ :: segments, rfl, rfl⟩

theorem zip_segments (segments : List MixedRadix.Segment) :
    (segments.map MixedRadix.Segment.factor).zip (segments.map MixedRadix.Segment.extent) =
      segments.map pairOf :=
  List.zip_map'

theorem inSlice_natCast_iff {width slot value : ℕ} (positive : 0 < width) :
    InSlice width slot value ↔ value / width = slot := by
  rw [InSlice.iff_ediv_eq (by exact_mod_cast positive)]
  norm_cast

theorem digitsOwned_iff_owned (segments : List MixedRadix.Segment) (slot value : ℕ)
    (slotStride valueStride : ℕ) :
    DigitsOwned slot value slotStride valueStride (segments.map pairOf) ↔
      MixedRadix.Owned segments (slot / slotStride) (value / valueStride) := by
  induction segments generalizing slotStride valueStride with
  | nil => exact Iff.rfl
  | cons segment outer inductionHypothesis =>
      simp only [List.map_cons, pairOf, DigitsOwned, MixedRadix.Owned]
      rw [Nat.div_div_eq_div_mul, Nat.div_div_eq_div_mul]
      apply and_congr
      · exact inSlice_natCast_iff segment.share_pos
      · exact inductionHypothesis _ _

/-- The flag of `alignedSplitKeepsBlocks` says that a split segment has only whole segments
outside. -/
theorem splitWholeOutside_reverse (segments : List MixedRadix.Segment) :
    splitWholeOutside false ((segments.map MixedRadix.Segment.factor).reverse.zip
        (segments.map MixedRadix.Segment.extent).reverse) = true ↔
      segments.Pairwise fun inner outer => 1 < inner.factor → outer.Whole := by
  rw [splitWholeOutside_iff, ← List.map_reverse, ← List.map_reverse, zip_segments,
    List.map_reverse, List.pairwise_reverse, List.pairwise_map]
  simp only [Bool.false_eq_true, false_implies, true_and]
  apply List.Pairwise.iff
  intro inner outer
  have bounded : outer.factor ≤ outer.extent := Nat.le_of_dvd outer.extentPos outer.divides
  unfold MixedRadix.Segment.Whole pairOf
  constructor
  · intro noPart split
    by_contra partly
    exact noPart (lt_of_le_of_ne bounded partly) split
  · intro whole partly split
    exact absurd (whole split) partly.ne

/-- The owners of a distributed split are blocks exactly when the split keeps blocks. -/
theorem alignedSplitKeepsBlocks_iff {split : ℕ} {bases : List ℕ} (positive : 1 ≤ split)
    (basesPositive : ∀ basis ∈ bases, 0 < basis) :
    alignedSplitKeepsBlocks split bases = true ↔
      (distributeAlignedSplit split bases).2 = 1 ∧
        ∀ slot < split, ∀ value < bases.prod,
          DigitsOwned slot value 1 1 ((distributeAlignedSplit split bases).1.zip bases) ↔
            InSlice (bases.prod / split : ℕ) slot value := by
  obtain ⟨factored, product⟩ := @distributeAlignedSplit_factors split bases positive
  obtain ⟨segments, factorsEq, basesEq⟩ := exists_segments factored basesPositive
  unfold alignedSplitKeepsBlocks
  generalize distributeAlignedSplit split bases = distributed at *
  obtain ⟨factors, remaining⟩ := distributed
  dsimp only at *
  subst factorsEq basesEq
  by_cases complete : remaining = 1
  · rw [if_neg (not_not.mpr complete), splitWholeOutside_reverse, ← MixedRadix.blocks_iff,
      and_iff_right complete]
    rw [complete, mul_one] at product
    have countEq : MixedRadix.count segments = split := product
    have extentEq : MixedRadix.extent segments =
        (segments.map MixedRadix.Segment.extent).prod := rfl
    have widthEq : (segments.map MixedRadix.Segment.extent).prod / split =
        MixedRadix.width segments := by
      rw [← extentEq, ← countEq, ← MixedRadix.count_mul_width,
        Nat.mul_div_cancel_left _ (MixedRadix.count_pos segments)]
    unfold MixedRadix.Blocks
    rw [countEq, extentEq]
    apply forall₂_congr
    intro slot slotBelow
    apply forall₂_congr
    intro value valueBelow
    rw [zip_segments, digitsOwned_iff_owned, Nat.div_one, Nat.div_one, widthEq,
      inSlice_natCast_iff (MixedRadix.width_pos segments)]
  · rw [if_pos complete]
    simp [complete]

/-! ## Ownership of points -/

/-- The loop values of the point lie in the shares that the division gives to the core. -/
def TensorWorkDivision.Owns (division : TensorWorkDivision) (extent value : Symbol → ℕ)
    (core : ℕ) : Prop :=
  ∀ loop split, (loop, split) ∈ division.workSlices → ∃ (formula : Expr) (slot : ℕ),
    division.coreIdToWorkSlice.lookup loop = some formula ∧
      formula.eval (fun _ => core) = slot ∧
      InSlice (extent loop / split : ℕ) slot (value loop)

/-- The value of a loop at a point of its segments, innermost first. -/
def segmentValue (point : Point) : List (Symbol × ℕ) → ℕ
  | [] => 0
  | (dim, basis) :: outer => point dim + basis * segmentValue point outer

def DimensionRemap.segments (remap : DimensionRemap) (dim : Symbol) : List (Symbol × ℕ) :=
  (remap.lookup dim).getD []

def DimensionRemap.extent (remap : DimensionRemap) (dim : Symbol) : ℕ :=
  ((remap.segments dim).map Prod.snd).prod

def DimensionRemap.value (remap : DimensionRemap) (point : Point) (dim : Symbol) : ℕ :=
  segmentValue point (remap.segments dim)

section Remapping

variable {sympy : Sympy} (ranges : Symbol → ℕ) (point : Point) (core : ℕ)

def EntryOwns (entry : Symbol × ℕ × Expr) : Prop :=
  ∃ slot : ℕ, entry.2.2.eval (fun _ => core) = slot ∧
    InSlice (ranges entry.1 / entry.2.1 : ℕ) slot (point entry.1)

/-- The point lies in the share of every segment, as the slot's digits say. -/
def SegmentsOwned (slot : ℕ) : ℕ → List (Symbol × ℕ) → Prop
  | _, [] => True
  | slotStride, (dim, factor) :: outer =>
      InSlice (ranges dim / factor : ℕ) (slot / slotStride % factor : ℕ) (point dim) ∧
        SegmentsOwned slot (slotStride * factor) outer

variable {ranges point core}

theorem eval_eq_of_coreMappingsEqual {dim : Symbol} {left right : Expr} {numCores : ℕ}
    (equal : coreMappingsEqual [(dim, left)] [(dim, right)] numCores = true)
    (inCores : core < numCores) : left.eval (fun _ => core) = right.eval fun _ => core := by
  simp only [coreMappingsEqual, List.all_cons, List.all_nil, Bool.and_true, Bool.and_eq_true,
    List.all_eq_true, List.mem_range, List.lookup_cons_self, Option.bind_some] at equal
  have here := equal.2 core inCores
  split at here
  next leftSlot rightSlot leftAt rightAt =>
    rw [eval_of_ownerAtCore leftAt, eval_of_ownerAtCore rightAt, of_decide_eq_true here]
  next => cases here

namespace Remapped

variable {entries : Remapped} {numCores : ℕ} {dim : Symbol} {factor : ℕ} {slot : Expr}

theorem insert_nodup (distinct : (entries.map Prod.fst).Nodup) :
    ((entries.insert dim factor slot).map Prod.fst).Nodup := by
  unfold Remapped.insert
  split
  next =>
    have sameKeys : (entries.map fun entry =>
        if entry.1 = dim then (dim, factor, slot) else entry).map Prod.fst =
        entries.map Prod.fst := by
      rw [List.map_map]
      apply List.map_congr_left
      intro entry _
      simp only [Function.comp_apply]
      split
      next same => exact same.symm
      next => rfl
    rw [sameKeys]
    exact distinct
  next missing =>
    rw [List.map_append, List.nodup_append]
    refine ⟨distinct, List.nodup_singleton _, ?_⟩
    intro key listed other single
    rw [List.map_singleton, List.mem_singleton] at single
    rintro rfl
    apply missing
    rw [List.lookup_isSome_iff]
    obtain ⟨entry, member, same⟩ := List.mem_map.mp listed
    exact ⟨entry, member, by simp [same, single]⟩

/-- Inserting an entry that does not conflict adds the ownership of that entry. -/
theorem insert_owns (distinct : (entries.map Prod.fst).Nodup) (inCores : core < numCores)
    (agrees : entries.conflicts numCores dim factor slot = false) :
    (∀ entry ∈ entries.insert dim factor slot, EntryOwns ranges point core entry) ↔
      (∀ entry ∈ entries, EntryOwns ranges point core entry) ∧
        EntryOwns ranges point core (dim, factor, slot) := by
  unfold Remapped.insert Remapped.conflicts at *
  cases found : entries.lookup dim with
  | none =>
      simp only [Option.isSome_none, Bool.false_eq_true, ↓reduceIte, List.forall_mem_append,
        List.forall_mem_singleton]
  | some previous =>
      obtain ⟨previousSplit, previousSlot⟩ := previous
      rw [found] at agrees
      simp only [ne_eq, decide_not, Bool.or_eq_false_iff, Bool.not_eq_false',
        decide_eq_true_eq] at agrees
      obtain ⟨rfl, equal⟩ := agrees
      have sameValue := eval_eq_of_coreMappingsEqual equal inCores
      have sameOwner : EntryOwns ranges point core (dim, previousSplit, previousSlot) ↔
          EntryOwns ranges point core (dim, previousSplit, slot) := by
        unfold EntryOwns
        dsimp only
        rw [sameValue]
      have isPrevious : ∀ entry ∈ entries, entry.1 = dim →
          entry = (dim, previousSplit, previousSlot) := by
        rintro ⟨key, payload⟩ listed rfl
        rw [lookup_of_mem distinct listed] at found
        rw [Option.some.inj found]
      have listed := mem_of_lookup found
      simp only [Option.isSome_some, ↓reduceIte, List.forall_mem_map]
      constructor
      · intro replaced
        have here : EntryOwns ranges point core (dim, previousSplit, slot) := by
          have updated := replaced _ listed
          rwa [if_pos rfl] at updated
        refine ⟨?_, here⟩
        intro entry member
        by_cases same : entry.1 = dim
        · rw [isPrevious entry member same]
          exact sameOwner.mpr here
        · have kept := replaced entry member
          rwa [if_neg same] at kept
      · rintro ⟨owned, here⟩ entry member
        by_cases same : entry.1 = dim
        · rw [if_pos same]
          exact here
        · rw [if_neg same]
          exact owned entry member

end Remapped

theorem eval_digitSlot {slot : Expr} {slotValue slotStride factor : ℕ} (positive : 0 < factor)
    (owned : slot.eval (fun _ => core) = slotValue) :
    (digitSlot sympy slot slotStride factor).eval (fun _ => core) =
      (slotValue / slotStride % factor : ℕ) := by
  have evaluated := Expr.eval_mod_of_nat factor.toPNat' (Expr.eval_floor_quotient slotStride owned)
  rw [Nat.toPNat'_coe, if_pos positive] at evaluated
  rw [digitSlot, sympy.auto_eval]
  exact evaluated

theorem remapSegments_owns {numCores slotStride slotValue : ℕ} {slot : Expr}
    {segments : List (Symbol × ℕ)} {entries remapped : Remapped} (inCores : core < numCores)
    (owned : slot.eval (fun _ => core) = slotValue)
    (inside : ∀ segment ∈ segments, 0 < segment.2 ∧ point segment.1 < ranges segment.1)
    (distinct : (entries.map Prod.fst).Nodup)
    (succeeds : remapSegments sympy numCores slot slotStride segments entries = .ok remapped) :
    (remapped.map Prod.fst).Nodup ∧
      ((∀ entry ∈ remapped, EntryOwns ranges point core entry) ↔
        (∀ entry ∈ entries, EntryOwns ranges point core entry) ∧
          SegmentsOwned ranges point slotValue slotStride segments) := by
  induction segments generalizing slotStride entries with
  | nil =>
      cases succeeds
      exact ⟨distinct, (and_iff_left trivial).symm⟩
  | cons segment outer inductionHypothesis =>
      obtain ⟨dim, factor⟩ := segment
      rw [List.forall_mem_cons] at inside
      unfold remapSegments at succeeds
      split at succeeds
      next single =>
        subst single
        obtain ⟨nodup, owns⟩ := inductionHypothesis inside.2 distinct succeeds
        refine ⟨nodup, owns.trans ?_⟩
        have trivially : InSlice (ranges dim / 1 : ℕ) (slotValue / slotStride % 1 : ℕ)
            (point dim) := by
          rw [Nat.div_one, Nat.mod_one]
          exact InSlice.first_of_lt inside.1.2
        rw [SegmentsOwned, mul_one]
        exact and_congr_right' (and_iff_right trivially).symm
      next =>
        obtain ⟨agrees, succeeds⟩ := of_guard succeeds
        rw [Bool.not_eq_true] at agrees
        obtain ⟨nodup, owns⟩ :=
          inductionHypothesis inside.2 (Remapped.insert_nodup distinct) succeeds
        refine ⟨nodup, owns.trans ?_⟩
        rw [Remapped.insert_owns distinct inCores agrees, SegmentsOwned, and_assoc]
        apply and_congr_right'
        apply and_congr_left'
        have evaluated := @eval_digitSlot sympy core slot slotValue slotStride factor inside.1.1 owned
        unfold EntryOwns
        constructor
        · rintro ⟨value, same, within⟩
          dsimp only at same within
          rw [evaluated, Nat.cast_inj] at same
          rw [same]
          exact within
        · intro within
          exact ⟨_, evaluated, within⟩

/-- The digits of a loop value are the values of its segments. -/
theorem segmentsOwned_iff_digitsOwned {slot value : ℕ} {newDims : List (Symbol × ℕ)}
    {factors : List ℕ} (consistent : ∀ entry ∈ newDims, ranges entry.1 = entry.2)
    (inside : ∀ entry ∈ newDims, point entry.1 < entry.2) {slotStride valueStride : ℕ}
    (located : value / valueStride = segmentValue point newDims) :
    SegmentsOwned ranges point slot slotStride ((newDims.map Prod.fst).zip factors) ↔
      DigitsOwned slot value slotStride valueStride (factors.zip (newDims.map Prod.snd)) := by
  induction newDims generalizing factors slotStride valueStride with
  | nil => simp [SegmentsOwned, DigitsOwned]
  | cons entry outer inductionHypothesis =>
      obtain ⟨dim, basis⟩ := entry
      rw [List.forall_mem_cons] at consistent inside
      cases factors with
      | nil => simp [SegmentsOwned, DigitsOwned]
      | cons factor factors =>
          simp only [List.map_cons, List.zip_cons_cons, SegmentsOwned, DigitsOwned]
          rw [segmentValue] at located
          have digit : value / valueStride % basis = point dim := by
            rw [located, Nat.add_mul_mod_self_left, Nat.mod_eq_of_lt inside.1]
          have rest : value / (valueStride * basis) = segmentValue point outer := by
            rw [← Nat.div_div_eq_div_mul, located,
              Nat.add_mul_div_left _ _ (Nat.zero_lt_of_lt inside.1),
              Nat.div_eq_of_lt inside.1, zero_add]
          rw [digit, consistent.1, inductionHypothesis consistent.2 inside.2 rest]

theorem segmentValue_lt {newDims : List (Symbol × ℕ)}
    (inside : ∀ entry ∈ newDims, point entry.1 < entry.2) :
    segmentValue point newDims < (newDims.map Prod.snd).prod := by
  induction newDims with
  | nil => exact Nat.zero_lt_one
  | cons entry outer inductionHypothesis =>
      rw [List.forall_mem_cons] at inside
      have rest := inductionHypothesis inside.2
      calc segmentValue point (entry :: outer) = point entry.1 + entry.2 * segmentValue point outer := rfl
        _ < entry.2 + entry.2 * segmentValue point outer := Nat.add_lt_add_right inside.1 _
        _ = entry.2 * (segmentValue point outer + 1) := by ring
        _ ≤ entry.2 * (outer.map Prod.snd).prod := Nat.mul_le_mul_left _ rest
        _ = ((entry :: outer).map Prod.snd).prod := by rw [List.map_cons, List.prod_cons]

/-- The split may be distributed: a loop that is not cut, or a split that keeps blocks. -/
def Admitted (split : ℕ) (newDims : List (Symbol × ℕ)) : Prop :=
  newDims.length = 1 ∨ alignedSplitKeepsBlocks split (newDims.map Prod.snd) = true

theorem segmentFactors_pos {split : ℕ} {newDims : List (Symbol × ℕ)} (positive : 0 < split) :
    ∀ segment ∈ (newDims.map Prod.fst).zip (segmentFactors split newDims).1, 0 < segment.2 := by
  rintro ⟨dim, factor⟩ listed
  have member := (List.of_mem_zip listed).2
  unfold segmentFactors at member
  split at member
  next =>
    rw [List.mem_singleton.mp member]
    exact positive
  next =>
    obtain ⟨basis, -, factorPositive, -⟩ :=
      exists_right_of_forall₂ (distributeAlignedSplit_factors positive).1 member
    exact factorPositive

/-- The shares of the segments are the block of the loop. -/
theorem segmentsOwned_iff_block {split slot : ℕ} {newDims : List (Symbol × ℕ)}
    (admitted : Admitted split newDims) (slotBelow : slot < split)
    (consistent : ∀ entry ∈ newDims, ranges entry.1 = entry.2)
    (inside : ∀ entry ∈ newDims, point entry.1 < entry.2) :
    SegmentsOwned ranges point slot 1
        ((newDims.map Prod.fst).zip (segmentFactors split newDims).1) ↔
      InSlice ((newDims.map Prod.snd).prod / split : ℕ) slot (segmentValue point newDims) := by
  by_cases single : newDims.length = 1
  · obtain ⟨entry, rfl⟩ := List.length_eq_one_iff.mp single
    have sameRange := consistent entry List.mem_cons_self
    simp [segmentFactors, SegmentsOwned, segmentValue, Nat.mod_eq_of_lt slotBelow, sameRange]
  · have keeps := admitted.resolve_left single
    have basesPositive : ∀ basis ∈ newDims.map Prod.snd, 0 < basis := by
      intro basis listed
      obtain ⟨entry, member, rfl⟩ := List.mem_map.mp listed
      exact Nat.zero_lt_of_lt (inside entry member)
    rw [alignedSplitKeepsBlocks_iff (Nat.zero_lt_of_lt slotBelow) basesPositive] at keeps
    rw [segmentFactors, if_neg single,
      segmentsOwned_iff_digitsOwned consistent inside (Nat.div_one _)]
    exact keeps.2 slot slotBelow _ (segmentValue_lt inside)

/-- What the remapping of a division may assume of it and of the aligned iteration space. -/
structure Remappable (division : TensorWorkDivision) (remap : DimensionRemap)
    (ranges : Symbol → ℕ) (core : ℕ) : Prop where
  inCores : core < division.physicalCoreCount
  consistent : ∀ dim split, (dim, split) ∈ division.workSlices →
    ∀ entry ∈ remap.segments dim, ranges entry.1 = entry.2
  admitted : ∀ dim split, (dim, split) ∈ division.workSlices → Admitted split (remap.segments dim)
  owners : ∀ dim split, (dim, split) ∈ division.workSlices → ∃ (formula : Expr) (slot : ℕ),
    division.coreIdToWorkSlice.lookup dim = some formula ∧
      formula.eval (fun _ => core) = slot ∧ slot < split

/-- The core's block of one loop contains the point. -/
def LoopOwns (division : TensorWorkDivision) (remap : DimensionRemap) (point : Point) (core : ℕ)
    (dim : Symbol) (split : ℕ) : Prop :=
  ∃ (formula : Expr) (slot : ℕ), division.coreIdToWorkSlice.lookup dim = some formula ∧
    formula.eval (fun _ => core) = slot ∧
    InSlice (remap.extent dim / split : ℕ) slot (remap.value point dim)

theorem remapDim_owns {division : TensorWorkDivision} {remap : DimensionRemap}
    (remappable : Remappable division remap ranges core) {dim : Symbol} {split : ℕ}
    (listed : (dim, split) ∈ division.workSlices)
    (inside : ∀ entry ∈ remap.segments dim, point entry.1 < entry.2)
    {entries remapped : Remapped} (distinct : (entries.map Prod.fst).Nodup)
    (succeeds : remapDim sympy division remap dim split entries = .ok remapped) :
    (remapped.map Prod.fst).Nodup ∧
      ((∀ entry ∈ remapped, EntryOwns ranges point core entry) ↔
        (∀ entry ∈ entries, EntryOwns ranges point core entry) ∧
          LoopOwns division remap point core dim split) := by
  have consistent := remappable.consistent dim split listed
  have admitted := remappable.admitted dim split listed
  obtain ⟨formula, slot, formulaAt, evaluated, slotBelow⟩ := remappable.owners dim split listed
  unfold remapDim at succeeds
  split at succeeds
  next => cases succeeds
  next newDims found =>
    have segments : remap.segments dim = newDims := by
      rw [DimensionRemap.segments, found, Option.getD_some]
    obtain ⟨-, succeeds⟩ := of_guard succeeds
    rw [formulaAt] at succeeds
    have inSegments : ∀ segment ∈ (newDims.map Prod.fst).zip (segmentFactors split newDims).1,
        0 < segment.2 ∧ point segment.1 < ranges segment.1 := by
      rintro ⟨name, factor⟩ member
      obtain ⟨entry, entryListed, rfl⟩ := List.mem_map.mp (List.of_mem_zip member).1
      rw [← segments] at entryListed
      refine ⟨segmentFactors_pos (Nat.zero_lt_of_lt slotBelow) _ member, ?_⟩
      dsimp only
      rw [consistent entry entryListed]
      exact inside entry entryListed
    obtain ⟨nodup, owns⟩ :=
      remapSegments_owns remappable.inCores evaluated inSegments distinct succeeds
    refine ⟨nodup, owns.trans (and_congr_right' ?_)⟩
    rw [segments] at admitted consistent inside
    rw [segmentsOwned_iff_block admitted slotBelow consistent inside]
    unfold LoopOwns
    rw [DimensionRemap.extent, DimensionRemap.value, segments]
    constructor
    · intro block
      exact ⟨formula, slot, formulaAt, evaluated, block⟩
    · rintro ⟨other, otherSlot, otherAt, otherEvaluated, block⟩
      rw [formulaAt] at otherAt
      cases otherAt
      rw [evaluated, Nat.cast_inj] at otherEvaluated
      rw [otherEvaluated]
      exact block

theorem remapDims_owns {division : TensorWorkDivision} {remap : DimensionRemap}
    (remappable : Remappable division remap ranges core)
    (inside : ∀ dim split, (dim, split) ∈ division.workSlices →
      ∀ entry ∈ remap.segments dim, point entry.1 < entry.2)
    {dims : List (Symbol × ℕ)} (listed : ∀ entry ∈ dims, entry ∈ division.workSlices)
    {entries remapped : Remapped} (distinct : (entries.map Prod.fst).Nodup)
    (succeeds : remapDims sympy division remap dims entries = .ok remapped) :
    (remapped.map Prod.fst).Nodup ∧
      ((∀ entry ∈ remapped, EntryOwns ranges point core entry) ↔
        (∀ entry ∈ entries, EntryOwns ranges point core entry) ∧
          ∀ entry ∈ dims, LoopOwns division remap point core entry.1 entry.2) := by
  induction dims generalizing entries with
  | nil =>
      cases succeeds
      exact ⟨distinct, (and_iff_left fun entry member => absurd member List.not_mem_nil).symm⟩
  | cons dimension rest inductionHypothesis =>
      rw [List.forall_mem_cons] at listed
      obtain ⟨middle, here, succeeds⟩ := bind_eq_ok_iff.mp succeeds
      obtain ⟨middleDistinct, middleOwns⟩ := remapDim_owns remappable listed.1
        (inside dimension.1 dimension.2 listed.1) distinct here
      obtain ⟨nodup, owns⟩ := inductionHypothesis listed.2 middleDistinct succeeds
      refine ⟨nodup, ?_⟩
      rw [owns, middleOwns, and_assoc, List.forall_mem_cons]

/-- Remapping a division to the segments of the aligned loops keeps the points of every core. -/
theorem remapWorkDivision_owns {division remapped : TensorWorkDivision} {remap : DimensionRemap}
    (remappable : Remappable division remap ranges core)
    (inside : ∀ dim split, (dim, split) ∈ division.workSlices →
      ∀ entry ∈ remap.segments dim, point entry.1 < entry.2)
    (succeeds : remapWorkDivision sympy division remap = .ok remapped) :
    remapped.Owns ranges point core ↔ division.Owns remap.extent (remap.value point) core := by
  obtain ⟨entries, mapped, succeeds⟩ := bind_eq_ok_iff.mp succeeds
  cases succeeds
  obtain ⟨distinct, owns⟩ := remapDims_owns remappable inside (fun _ listed => listed)
    (by simp) mapped
  have owned : (∀ entry ∈ entries, EntryOwns ranges point core entry) ↔
      division.Owns remap.extent (remap.value point) core := by
    rw [owns]
    constructor
    · rintro ⟨-, all⟩ dim split listed
      exact all (dim, split) listed
    · intro all
      refine ⟨fun entry member => absurd member List.not_mem_nil, ?_⟩
      rintro ⟨dim, split⟩ listed
      exact all dim split listed
  rw [← owned]
  have formulaAt : ∀ entry ∈ entries,
      (entries.map fun entry => (entry.1, entry.2.2)).lookup entry.1 = some entry.2.2 := by
    intro entry listed
    apply lookup_of_mem
    · rw [List.map_map]
      exact distinct
    · exact List.mem_map_of_mem (f := fun entry : Symbol × ℕ × Expr => (entry.1, entry.2.2)) listed
  constructor
  · intro all entry listed
    obtain ⟨formula, slot, found, evaluated, block⟩ := all entry.1 entry.2.1
      (List.mem_map_of_mem (f := fun entry : Symbol × ℕ × Expr => (entry.1, entry.2.1)) listed)
    rw [formulaAt entry listed] at found
    cases found
    exact ⟨slot, evaluated, block⟩
  · intro all loop split listed
    obtain ⟨entry, member, same⟩ := List.mem_map.mp listed
    cases same
    obtain ⟨slot, evaluated, block⟩ := all entry member
    exact ⟨entry.2.2, slot, formulaAt entry member, evaluated, block⟩

theorem Remapped.lookup_eq_none {entries : Remapped} {dim : Symbol}
    (fresh : dim ∉ entries.map Prod.fst) : entries.lookup dim = none := by
  rw [List.lookup_eq_none_iff]
  intro entry listed
  rw [bne_iff_ne]
  rintro rfl
  exact fresh (List.mem_map_of_mem listed)

theorem remapSegments_returns {numCores slotStride : ℕ} {slot : Expr}
    {segments : List (Symbol × ℕ)} {entries : Remapped}
    (fresh : ∀ segment ∈ segments, segment.1 ∉ entries.map Prod.fst)
    (distinct : (segments.map Prod.fst).Nodup) :
    ∃ remapped, remapSegments sympy numCores slot slotStride segments entries = .ok remapped ∧
      ∀ key ∈ remapped.map Prod.fst, key ∈ entries.map Prod.fst ∨ key ∈ segments.map Prod.fst := by
  induction segments generalizing slotStride entries with
  | nil => exact ⟨entries, rfl, fun key listed => Or.inl listed⟩
  | cons segment outer inductionHypothesis =>
      obtain ⟨dim, factor⟩ := segment
      rw [List.forall_mem_cons] at fresh
      rw [List.map_cons, List.nodup_cons] at distinct
      unfold remapSegments
      split
      next =>
        obtain ⟨remapped, returned, keys⟩ := @inductionHypothesis slotStride _ fresh.2 distinct.2
        refine ⟨remapped, returned, fun key listed => ?_⟩
        exact (keys key listed).imp_right fun found => List.mem_cons_of_mem _ found
      next =>
        have missing := Remapped.lookup_eq_none fresh.1
        have agrees : entries.conflicts numCores dim factor
            (digitSlot sympy slot slotStride factor) = false := by
          rw [Remapped.conflicts, missing]
        have inserted : entries.insert dim factor (digitSlot sympy slot slotStride factor) =
            entries ++ [(dim, factor, digitSlot sympy slot slotStride factor)] := by
          rw [Remapped.insert, missing]
          rfl
        have stillFresh : ∀ segment ∈ outer, segment.1 ∉
            (entries ++ [(dim, factor, digitSlot sympy slot slotStride factor)]).map Prod.fst := by
          intro segment listed found
          rw [List.map_append, List.mem_append] at found
          rcases found with found | found
          · exact fresh.2 segment listed found
          · rw [List.map_singleton, List.mem_singleton] at found
            exact distinct.1 (found ▸ List.mem_map_of_mem listed)
        obtain ⟨remapped, returned, keys⟩ :=
          @inductionHypothesis (slotStride * factor) _ stillFresh distinct.2
        refine ⟨remapped, ?_, fun key listed => ?_⟩
        · simp only [agrees, Bool.false_eq_true, ↓reduceIte, inserted]
          exact returned
        · rcases keys key listed with found | found
          · rw [List.map_append, List.mem_append, List.map_singleton, List.mem_singleton] at found
            rcases found with found | found
            · exact Or.inl found
            · exact Or.inr (found ▸ List.mem_cons_self)
          · exact Or.inr (List.mem_cons_of_mem _ found)

theorem segmentFactors_length {split : ℕ} {newDims : List (Symbol × ℕ)} (positive : 0 < split) :
    (segmentFactors split newDims).1.length = newDims.length := by
  unfold segmentFactors
  split
  next single => exact single.symm
  next =>
    rw [(distributeAlignedSplit_factors positive).1.length_eq, List.length_map]

theorem segmentFactors_complete {split : ℕ} {newDims : List (Symbol × ℕ)}
    (admitted : Admitted split newDims) : (segmentFactors split newDims).2 = 1 := by
  unfold segmentFactors
  split
  next => rfl
  next several =>
    have keeps := admitted.resolve_left several
    unfold alignedSplitKeepsBlocks at keeps
    by_contra incomplete
    simp [incomplete] at keeps

/-- The new symbols of a list of dimensions. -/
def DimensionRemap.symbols (remap : DimensionRemap) (dims : List (Symbol × ℕ)) : List Symbol :=
  dims.flatMap fun entry => (remap.segments entry.1).map Prod.fst

theorem remapDims_returns {division : TensorWorkDivision} {remap : DimensionRemap}
    (remappable : Remappable division remap ranges core)
    (aligned : ∀ dim split, (dim, split) ∈ division.workSlices → (remap.lookup dim).isSome)
    {dims : List (Symbol × ℕ)} (listed : ∀ entry ∈ dims, entry ∈ division.workSlices)
    {entries : Remapped} (fresh : ∀ name ∈ remap.symbols dims, name ∉ entries.map Prod.fst)
    (distinct : (remap.symbols dims).Nodup) :
    ∃ remapped, remapDims sympy division remap dims entries = .ok remapped := by
  induction dims generalizing entries with
  | nil => exact ⟨entries, rfl⟩
  | cons dimension rest inductionHypothesis =>
      obtain ⟨dim, split⟩ := dimension
      rw [List.forall_mem_cons] at listed
      simp only [DimensionRemap.symbols, List.flatMap_cons, List.nodup_append,
        List.mem_append] at distinct fresh
      obtain ⟨newDims, found⟩ := Option.isSome_iff_exists.mp (aligned dim split listed.1)
      have segments : remap.segments dim = newDims := by
        rw [DimensionRemap.segments, found, Option.getD_some]
      obtain ⟨formula, slot, formulaAt, -, slotBelow⟩ := remappable.owners dim split listed.1
      have complete := segmentFactors_complete (remappable.admitted dim split listed.1)
      rw [segments] at distinct fresh complete
      have zipped : ((newDims.map Prod.fst).zip (segmentFactors split newDims).1).map Prod.fst =
          newDims.map Prod.fst := by
        apply List.map_fst_zip
        rw [List.length_map, segmentFactors_length (Nat.zero_lt_of_lt slotBelow)]
      obtain ⟨middle, returned, keys⟩ := @remapSegments_returns sympy division.physicalCoreCount 1
        formula ((newDims.map Prod.fst).zip (segmentFactors split newDims).1) entries
        (fun segment member => fresh segment.1 (Or.inl (List.of_mem_zip member).1))
        (by rw [zipped]; exact distinct.1)
      have here : remapDim sympy division remap dim split entries = .ok middle := by
        simp only [remapDim, found, complete, ne_eq, not_true_eq_false, ↓reduceIte, formulaAt]
        exact returned
      have stillFresh : ∀ name ∈ remap.symbols rest, name ∉ middle.map Prod.fst := by
        intro name member inMiddle
        rcases keys name inMiddle with inEntries | inSegments
        · exact fresh name (Or.inr member) inEntries
        · exact distinct.2.2 name (zipped ▸ inSegments) name member rfl
      obtain ⟨remapped, rest⟩ := inductionHypothesis listed.2 stillFresh distinct.2.1
      exact ⟨remapped, bind_eq_ok_iff.mpr ⟨middle, here, rest⟩⟩

end Remapping

/-- A split keeps blocks exactly when its digit owners own the blocks of the flat range; then
remapping a division changes the symbols and not the points of a core. -/
theorem alignedSplit_keeps_ownership :
    (∀ (split : ℕ) (bases : List ℕ), 1 ≤ split → (∀ basis ∈ bases, 0 < basis) →
      (alignedSplitKeepsBlocks split bases = true ↔
        (distributeAlignedSplit split bases).2 = 1 ∧
          ∀ slot < split, ∀ value < bases.prod,
            DigitsOwned slot value 1 1 ((distributeAlignedSplit split bases).1.zip bases) ↔
              InSlice (bases.prod / split : ℕ) slot value)) ∧
    ∀ (sympy : Sympy) (division : TensorWorkDivision) (remap : DimensionRemap)
      (ranges : Symbol → ℕ),
      (∀ core < division.physicalCoreCount, Remappable division remap ranges core) →
      (∀ remapped, remapWorkDivision sympy division remap = .ok remapped →
        remapped.numCores = some division.physicalCoreCount ∧
          ∀ core < division.physicalCoreCount, ∀ point : Point,
            (∀ dim split, (dim, split) ∈ division.workSlices →
              ∀ entry ∈ remap.segments dim, point entry.1 < entry.2) →
            (remapped.Owns ranges point core ↔
              division.Owns remap.extent (remap.value point) core)) ∧
      (0 < division.physicalCoreCount →
        (∀ dim split, (dim, split) ∈ division.workSlices → (remap.lookup dim).isSome) →
        (remap.symbols division.workSlices).Nodup →
          ∃ remapped, remapWorkDivision sympy division remap = .ok remapped) := by
  refine ⟨fun split bases positive basesPositive =>
    alignedSplitKeepsBlocks_iff positive basesPositive, ?_⟩
  intro sympy division remap ranges remappable
  constructor
  · intro remapped returned
    constructor
    · obtain ⟨entries, -, built⟩ := bind_eq_ok_iff.mp returned
      cases built
      rfl
    · intro core inCores point inside
      exact remapWorkDivision_owns (remappable core inCores) inside returned
  · intro inhabited aligned distinct
    obtain ⟨entries, returned⟩ := @remapDims_returns sympy ranges 0 division remap
      (remappable 0 inhabited) aligned _ (fun _ listed => listed) []
      (fun _ _ found => absurd found List.not_mem_nil) distinct
    exact ⟨_, bind_eq_ok_iff.mpr ⟨entries, returned, rfl⟩⟩

/-- Two cores share `d0 < 8`, which alignment cuts into `inner < 2` and `outer < 4`. -/
def halves : TensorWorkDivision where
  workSlices := [("d0", 2)]
  coreIdToWorkSlice := [("d0", .mod (.sym coreId) 2)]
  numCores := some 2

def halvesRemap : DimensionRemap := [("d0", [("inner", 2), ("outer", 4)])]

def halvesRanges (name : Symbol) : ℕ := if name = "inner" then 2 else 4

theorem halves_remappable (core : ℕ) (inCores : core < halves.physicalCoreCount) :
    Remappable halves halvesRemap halvesRanges core := by
  constructor
  case inCores => exact inCores
  case consistent =>
    intro dim split listed
    cases List.mem_singleton.mp listed
    decide
  case admitted =>
    intro dim split listed
    cases List.mem_singleton.mp listed
    exact Or.inr (by decide)
  case owners =>
    intro dim split listed
    cases List.mem_singleton.mp listed
    have evaluated := @Expr.eval_mod_of_nat (.sym coreId) (fun _ => core) core 2 rfl
    exact ⟨_, core % 2, rfl, evaluated, Nat.mod_lt core (by decide)⟩

theorem alignedSplit_keeps_ownership_halves :
    (distributeAlignedSplit 2 [2, 4]).2 = 1 ∧
      (∀ slot < 2, ∀ value < [2, 4].prod,
        DigitsOwned slot value 1 1 ((distributeAlignedSplit 2 [2, 4]).1.zip [2, 4]) ↔
          InSlice ([2, 4].prod / 2 : ℕ) slot value) ∧
      ∃ remapped, remapWorkDivision affineSympy halves halvesRemap = .ok remapped ∧
        ∀ core < 2, ∀ point : Point,
          (∀ dim split, (dim, split) ∈ halves.workSlices →
            ∀ entry ∈ halvesRemap.segments dim, point entry.1 < entry.2) →
          (remapped.Owns halvesRanges point core ↔
            halves.Owns halvesRemap.extent (halvesRemap.value point) core) := by
  obtain ⟨complete, blocks⟩ :=
    (alignedSplit_keeps_ownership.1 2 [2, 4] (by decide) (by decide)).mp (by decide)
  obtain ⟨kept, returns⟩ :=
    alignedSplit_keeps_ownership.2 affineSympy halves halvesRemap halvesRanges halves_remappable
  have aligned : ∀ dim split, (dim, split) ∈ halves.workSlices →
      (halvesRemap.lookup dim).isSome := by
    intro dim split listed
    cases List.mem_singleton.mp listed
    rfl
  obtain ⟨remapped, returned⟩ := returns (by decide) aligned (by decide)
  exact ⟨complete, blocks, remapped, returned, (kept remapped returned).2⟩

end TorchSpyre.Ownership
