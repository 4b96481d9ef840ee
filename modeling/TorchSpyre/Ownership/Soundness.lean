import Mathlib
import TorchSpyre.Lib.Linear
import TorchSpyre.Ownership.WorkDivision

/-!
# Soundness of `work_division_from_view`

A core that runs its partitions of the loops touches only its slices of the
device axes, and every partition of a loop is run by some core.
-/

namespace TorchSpyre.Ownership

open Lib Lib.Symbolic

variable {sympy : Sympy}

/-! ## Mapped axes -/

/-- A loop decides the slices of an axis: what holds on the line of the loop holds everywhere. -/
structure Decides (space : IterationSpace) (width : ℕ) (coordinate : Expr) (loop : Symbol)
    (proof : Expr) : Prop where
  onLine : ∀ point, proof.eval point = coordinate.eval (line loop (point loop))
  transfers : ∀ point, space.Contains point ∨ (directLoop space coordinate).isSome →
    ∀ (slot value : ℤ), coordinate.eval (line loop (point loop)) = value →
      InSlice width slot value →
        ∃ value : ℤ, coordinate.eval point = value ∧ InSlice width slot value

theorem eval_line_of_directLoop {space : IterationSpace} {coordinate : Expr} {loop : Symbol}
    (direct : directLoop space coordinate = some loop) (point : Point) :
    coordinate.eval (line loop (point loop)) = coordinate.eval point := by
  unfold directLoop at direct
  split at direct
  next name only =>
    split at direct
    next =>
      cases direct
      apply Expr.eval_congr
      intro other free
      rw [only, List.mem_singleton] at free
      simp [line, free]
    next => cases direct
  next => cases direct

theorem decides_of_directLoop {space : IterationSpace} {width : ℕ} {coordinate : Expr}
    {loop : Symbol} (direct : directLoop space coordinate = some loop) :
    Decides space width coordinate loop coordinate := by
  constructor
  case onLine =>
    intro point
    exact (eval_line_of_directLoop direct point).symm
  case transfers =>
    intro point _ slot value evaluated inside
    rw [eval_line_of_directLoop direct] at evaluated
    exact ⟨value, evaluated, inside⟩

/-- The point and its projection lie in the same slice, as they agree on the loop. -/
theorem Projects.decides {space : IterationSpace} {width : ℕ} {coordinate : Expr} {loop : Symbol}
    {projected : Expr} (projects : Projects space width coordinate loop projected)
    (indirect : directLoop space coordinate = none) :
    Decides space width coordinate loop projected := by
  constructor
  case onLine => exact projects.onLine
  case transfers =>
    intro point reached slot value evaluated inside
    have inSpace : space.Contains point := by
      rcases reached with inSpace | direct
      · exact inSpace
      · rw [indirect] at direct
        cases direct
    obtain ⟨loopWidth, sliced⟩ := projects.sliced
    obtain ⟨here, evaluatedHere, insideHere⟩ := sliced point inSpace
    obtain ⟨there, evaluatedThere, insideThere⟩ := sliced _ (inSpace.line loop)
    have sameValue : there = value := by
      rw [evaluated] at evaluatedThere
      exact_mod_cast evaluatedThere.symm
    rw [sameValue] at insideThere
    have sameSlot := inside.unique insideThere
    have sameLoop : line loop (point loop) loop = point loop := if_pos rfl
    rw [sameLoop] at sameSlot
    rw [sameSlot]
    exact ⟨here, evaluatedHere, insideHere⟩

/-- A mapped axis of the frame. -/
structure Mapped (frame : Frame) (space : IterationSpace) (slots : List (ℕ × Expr))
    (axis : MappedAxis) : Prop where
  size : frame.deviceSize[axis.axis]? = some axis.size
  slot : slots.lookup axis.axis = some axis.slot
  divides : axis.split ∣ axis.size
  positive : 0 < axis.size
  decides : ∃ coordinate, frame.deviceCoordinates[axis.axis]? = some coordinate ∧
    Decides space (axis.size / axis.split) coordinate axis.loop axis.proof

theorem mapAxis_mapped {frame : Frame} {space : IterationSpace} {allowExtended : Bool}
    {slots : List (ℕ × Expr)} {axis split : ℕ} {mapped : MappedAxis}
    (succeeds : mapAxis sympy frame space allowExtended slots axis split = .ok (.mapped mapped)) :
    mapped.axis = axis ∧ mapped.split = split ∧ Mapped frame space slots mapped := by
  unfold mapAxis at succeeds
  split at succeeds
  next size coordinate slot sizeAt coordinateAt slotAt =>
    obtain ⟨usable, succeeds⟩ := of_guard succeeds
    rw [not_or, not_not] at usable
    have divides : split ∣ size := Nat.dvd_of_mod_eq_zero usable.2
    have positive := Nat.pos_of_ne_zero usable.1
    split at succeeds
    next loop direct =>
      cases succeeds
      exact ⟨rfl, rfl, sizeAt, slotAt, divides, positive, coordinate, coordinateAt,
        decides_of_directLoop direct⟩
    next indirect =>
      obtain ⟨-, succeeds⟩ := of_guard succeeds
      split at succeeds
      next loop projected found =>
        cases succeeds
        exact ⟨rfl, rfl, sizeAt, slotAt, divides, positive, coordinate, coordinateAt,
          (projectSliceAxis_projects divides found).decides indirect⟩
      next =>
        obtain ⟨-, succeeds⟩ := of_guard succeeds
        split at succeeds
        next => cases succeeds
        next => cases succeeds
  next => cases succeeds

/-- An axis that was factored. -/
structure Factored (sympy : Sympy) (frame : Frame) (space : IterationSpace)
    (slots : List (ℕ × Expr)) (axis split : ℕ) (factors : List AxisFactor) (size : ℕ)
    (coordinate slot : Expr) : Prop where
  sizeAt : frame.deviceSize[axis]? = some size
  coordinateAt : frame.deviceCoordinates[axis]? = some coordinate
  slotAt : slots.lookup axis = some slot
  divides : split ∣ size
  indirect : directLoop space coordinate = none
  notStick : axis ≠ frame.deviceSize.length - 1
  found : factorSliceAxis sympy coordinate size split slot space = some factors

theorem mapAxis_factored {frame : Frame} {space : IterationSpace} {allowExtended : Bool}
    {slots : List (ℕ × Expr)} {axis split : ℕ} {factors : List AxisFactor}
    (succeeds : mapAxis sympy frame space allowExtended slots axis split =
      .ok (.factored factors)) :
    ∃ size coordinate slot,
      Factored sympy frame space slots axis split factors size coordinate slot := by
  unfold mapAxis at succeeds
  split at succeeds
  next size coordinate slot sizeAt coordinateAt slotAt =>
    obtain ⟨usable, succeeds⟩ := of_guard succeeds
    rw [not_or, not_not] at usable
    split at succeeds
    next => cases succeeds
    next indirect =>
      obtain ⟨-, succeeds⟩ := of_guard succeeds
      split at succeeds
      next => cases succeeds
      next =>
        obtain ⟨notStick, succeeds⟩ := of_guard succeeds
        split at succeeds
        next => cases succeeds
        next found =>
          cases succeeds
          exact ⟨size, coordinate, slot, sizeAt, coordinateAt, slotAt,
            Nat.dvd_of_mod_eq_zero usable.2, indirect, notStick, found⟩
  next => cases succeeds

theorem mapAxes_mapped {frame : Frame} {space : IterationSpace} {allowExtended : Bool}
    {slots : List (ℕ × Expr)} {dims : List (ℕ × ℕ)} {axes : List MappedAxis}
    (succeeds : mapAxes sympy frame space allowExtended slots dims = .ok (.mapped axes)) :
    (axes.map fun axis => (axis.axis, axis.split)) = dims ∧
      ∀ axis ∈ axes, Mapped frame space slots axis := by
  induction dims generalizing axes with
  | nil =>
      cases succeeds
      exact ⟨rfl, fun axis listed => nomatch listed⟩
  | cons dim dims inductionHypothesis =>
      obtain ⟨outcome, first, succeeds⟩ := bind_eq_ok_iff.mp succeeds
      cases outcome with
      | factored factors => cases succeeds
      | mapped head =>
          obtain ⟨later, remaining, succeeds⟩ := bind_eq_ok_iff.mp succeeds
          cases later with
          | expand axis factors => cases succeeds
          | mapped tail =>
              cases succeeds
              obtain ⟨sameAxis, sameSplit, mapped⟩ := mapAxis_mapped first
              obtain ⟨dimsEq, allMapped⟩ := inductionHypothesis remaining
              constructor
              · rw [List.map_cons, dimsEq, sameAxis, sameSplit]
              · rintro axis (_ | ⟨_, listed⟩)
                · exact mapped
                · exact allMapped axis listed

theorem mapAxes_expand {frame : Frame} {space : IterationSpace} {allowExtended : Bool}
    {slots : List (ℕ × Expr)} {dims : List (ℕ × ℕ)} {axis : ℕ} {factors : List AxisFactor}
    (succeeds : mapAxes sympy frame space allowExtended slots dims = .ok (.expand axis factors)) :
    ∃ split size coordinate slot, (axis, split) ∈ dims ∧
      Factored sympy frame space slots axis split factors size coordinate slot := by
  induction dims with
  | nil => cases succeeds
  | cons dim dims inductionHypothesis =>
      obtain ⟨outcome, first, succeeds⟩ := bind_eq_ok_iff.mp succeeds
      cases outcome with
      | factored found =>
          cases succeeds
          obtain ⟨size, coordinate, slot, factored⟩ := mapAxis_factored first
          exact ⟨dim.2, size, coordinate, slot, List.mem_cons_self, factored⟩
      | mapped head =>
          obtain ⟨later, remaining, succeeds⟩ := bind_eq_ok_iff.mp succeeds
          cases later with
          | mapped tail => cases succeeds
          | expand other found =>
              cases succeeds
              obtain ⟨split, size, coordinate, slot, listed, factored⟩ :=
                inductionHypothesis remaining
              exact ⟨split, size, coordinate, slot, List.mem_cons_of_mem _ listed, factored⟩

/-! ## The partitions of one loop -/

/-- The slot of a core on an axis. -/
def rowSlot (row : List (ℕ × ℕ)) (axis : MappedAxis) : ℕ := (row.lookup axis.axis).getD 0

theorem bound_of_signature {axes : List MappedAxis} {region : List (ℤ × ℤ)}
    {row : List (ℕ × ℕ)} {related : MappedAxis → ℤ × ℤ → Prop}
    (paired : List.Forall₂ related axes region)
    (same : signature axes region = rowSignature axes row) (straight : crosses axes region = false)
    {axis : MappedAxis} (listed : axis ∈ axes) :
    ∃ bound, related axis bound ∧ bound.1 / (axis.size / axis.split : ℕ) = rowSlot row axis ∧
      bound.2 / (axis.size / axis.split : ℕ) = rowSlot row axis := by
  induction paired with
  | nil => cases listed
  | @cons head bound axes region relates _ inductionHypothesis =>
      simp only [signature, rowSignature, List.zipWith_cons_cons, List.map_cons,
        List.cons.injEq] at same
      simp only [crosses, List.zip_cons_cons, List.any_cons, Bool.or_eq_false_iff,
        decide_eq_false_iff_not, ne_eq, not_not] at straight
      cases listed with
      | head => exact ⟨bound, relates, same.1, straight.1.symm.trans same.1⟩
      | tail _ listed => exact inductionHypothesis same.2 straight.2 listed

theorem signatures_of_ownerTable {axes : List MappedAxis} {signatures : List (List ℤ)}
    {rows : List (List (ℕ × ℕ))} {table : List ℕ}
    (succeeds : ownerTable axes signatures rows = .ok table) :
    table.length = rows.length ∧ ∀ (core : ℕ) (row : List (ℕ × ℕ)) (partition : ℕ),
      rows[core]? = some row → table[core]? = some partition →
        signatures[partition]? = some (rowSignature axes row) := by
  obtain ⟨sameLength, paired⟩ := List.forall₂_iff_get.mp (forall₂_of_mapM succeeds)
  refine ⟨sameLength.symm, ?_⟩
  intro core row partition rowAt partitionAt
  obtain ⟨inRows, rfl⟩ := List.getElem?_eq_some_iff.mp rowAt
  obtain ⟨inTable, rfl⟩ := List.getElem?_eq_some_iff.mp partitionAt
  have looked := paired core inRows inTable
  rw [List.get_eq_getElem, List.get_eq_getElem] at looked
  split at looked
  next => cases looked
  next position found =>
    have samePosition := Except.ok.inj looked
    dsimp only at samePosition
    rw [← samePosition]
    obtain ⟨inside, equal, -⟩ := List.idxOf?_eq_some_iff.mp found
    rw [List.getElem?_eq_getElem inside]
    exact congrArg some (by simpa using equal)

/-- What `partitionOwners` proves of the axes of a loop. -/
structure PartitionsOwned (extent split : ℕ) (axes : List MappedAxis) (anyFused : Bool)
    (rows : List (List (ℕ × ℕ))) (table : List ℕ) : Prop where
  length : table.length = rows.length
  below : ∀ partition ∈ table, partition < split
  covered : ∀ partition < split, partition ∈ table
  plain : anyFused = false → ∀ (core : ℕ) (row : List (ℕ × ℕ)) (partition : ℕ),
    rows[core]? = some row → table[core]? = some partition →
      rowSignature axes row = [(partition : ℤ)]
  contained : ∀ (core : ℕ) (row : List (ℕ × ℕ)) (partition : ℕ), rows[core]? = some row →
    table[core]? = some partition → ∀ value : ℕ, InSlice (extent / split : ℕ) partition value →
      ∀ axis ∈ axes, ∃ coordinate : ℤ, axis.proof.eval (fun _ => value) = coordinate ∧
        InSlice (axis.size / axis.split : ℕ) (rowSlot row axis) coordinate

theorem partitionOwners_owned {extent split : ℕ} {axes : List MappedAxis} {anyFused : Bool}
    {rows : List (List (ℕ × ℕ))} {table : List ℕ} (inhabited : 0 < extent / split)
    (widths : ∀ axis ∈ axes, 0 < axis.size / axis.split)
    (succeeds : partitionOwners sympy extent split axes anyFused rows = .ok table) :
    PartitionsOwned extent split axes anyFused rows table := by
  simp only [partitionOwners] at succeeds
  split at succeeds
  next => cases succeeds
  next regions bounded =>
    obtain ⟨straight, succeeds⟩ := of_guard succeeds
    obtain ⟨-, succeeds⟩ := of_guard succeeds
    obtain ⟨found, looked, succeeds⟩ := bind_eq_ok_iff.mp succeeds
    obtain ⟨owners, succeeds⟩ := of_guard succeeds
    cases succeeds
    rw [not_or, not_not] at owners
    obtain ⟨⟨below, covered⟩, plain⟩ := owners
    obtain ⟨length, located⟩ := signatures_of_ownerTable looked
    obtain ⟨-, regionAt⟩ := loopRegions_regions (by simp) inhabited bounded
    rw [Bool.not_eq_true, List.any_eq_false] at straight
    constructor
    case length => exact length
    case below => simpa using below
    case covered => simpa using covered
    case plain =>
      intro unfused core row partition rowAt partitionAt
      have signatures : regions.map (signature axes) =
          (List.range split).map fun (partition : ℕ) => [(partition : ℤ)] := by
        by_contra different
        exact plain ⟨by simp [unfused], different⟩
      have located := located core row partition rowAt partitionAt
      rw [signatures, List.getElem?_map] at located
      obtain ⟨position, inRange, same⟩ := Option.map_eq_some_iff.mp located
      obtain ⟨_, rfl⟩ := List.getElem?_eq_some_iff.mp inRange
      rw [List.getElem_range] at same
      exact same.symm
    case contained =>
      intro core row partition rowAt partitionAt value inPartition axis listed
      have located := located core row partition rowAt partitionAt
      rw [List.getElem?_map] at located
      obtain ⟨region, regionFound, same⟩ := Option.map_eq_some_iff.mp located
      have bounds := (regionAt partition region regionFound).contains
      rw [List.forall₂_map_left_iff] at bounds
      have straightHere : crosses axes region = false := by
        rw [← Bool.not_eq_true]
        exact straight region (List.mem_of_getElem? regionFound)
      obtain ⟨bound, bounded, low, high⟩ := bound_of_signature bounds same straightHere listed
      -- The partition is read at the point where every symbol has the value of the loop.
      obtain ⟨coordinate, evaluated, above, below⟩ := bounded (fun _ => value)
        (by have lower := inPartition.1; exact_mod_cast lower)
        (by have upper := inPartition.2; exact_mod_cast upper)
      rw [sympy.auto_eval, Expr.eval_replaceSymbol, Function.update_eq_self_iff.mpr rfl] at evaluated
      refine ⟨coordinate, evaluated, ?_⟩
      exact InSlice.of_between (by exact_mod_cast widths axis listed) low high above below

/-- The extent itself, or the extent rounded up to whole sticks. -/
def Padded (deviceSize : List ℕ) (extent padded : ℕ) : Prop :=
  padded = extent ∨ ∃ stick, deviceSize.getLast? = some stick ∧ stick ∣ padded ∧
    extent ≤ padded ∧ padded < extent + stick

theorem stickPadded_padded (frame : Frame) (splits : List (ℕ × ℕ)) (axis : MappedAxis)
    (extent : ℕ) : Padded frame.deviceSize extent (stickPadded frame splits axis extent) := by
  unfold stickPadded
  split
  next stick _ last _ =>
    split
    next applies =>
      obtain ⟨-, -, -, upper, lower⟩ := applies
      exact Or.inr ⟨stick, last, dvd_mul_left stick axis.size, lower, upper⟩
    next => exact Or.inl rfl
  next => exact Or.inl rfl

theorem loopExtent_padded {frame : Frame} {splits : List (ℕ × ℕ)} {first : MappedAxis}
    {axes : List MappedAxis} {split fusedStates extent padded states : ℕ}
    (succeeds : loopExtent frame splits first axes split fusedStates extent =
      .ok (padded, states)) : Padded frame.deviceSize extent padded := by
  unfold loopExtent at succeeds
  split at succeeds
  next =>
    obtain ⟨-, succeeds⟩ := of_guard succeeds
    cases succeeds
    exact stickPadded_padded frame splits first extent
  next =>
    obtain ⟨-, succeeds⟩ := of_guard succeeds
    cases succeeds
    exact Or.inl rfl

theorem Padded.le {deviceSize : List ℕ} {extent padded : ℕ}
    (padding : Padded deviceSize extent padded) : extent ≤ padded := by
  rcases padding with rfl | ⟨_, _, _, lower, _⟩
  · exact le_rfl
  · exact lower

/-- What is proved of a loop and of the axes it decides. -/
structure LoopOwned (frame : Frame) (space : IterationSpace) (anyFused : Bool)
    (rows : List (List (ℕ × ℕ))) (group : MappedAxis × List MappedAxis) (proof : LoopProof) :
    Prop where
  loop : proof.loop = group.1.loop
  owner : proof.owner = group.1.slot
  padded : ∃ extent, space.extent proof.loop = some extent ∧
    Padded frame.deviceSize extent proof.extent
  splitPositive : 0 < proof.split
  divides : proof.split ∣ proof.extent
  owned : PartitionsOwned proof.extent proof.split group.2 anyFused rows proof.table

theorem extent_pos {space : IterationSpace} {loop : Symbol} {extent : ℕ}
    (concrete : space.extent loop = some extent) : 0 < extent := by
  unfold IterationSpace.extent at concrete
  split at concrete
  next => cases concrete
  next value _ =>
    split at concrete
    next positive =>
      cases concrete
      omega
    next => cases concrete

theorem loopSplit_pos {numCores : ℕ} {first : MappedAxis} {axes : List MappedAxis}
    (splits : ∀ axis ∈ axes, 0 < axis.split) (listed : first ∈ axes) :
    0 < loopSplit numCores first axes := by
  unfold loopSplit
  split
  next => exact splits first listed
  next =>
    apply List.prod_pos
    intro split found
    obtain ⟨axis, member, rfl⟩ := List.mem_map.mp found
    exact splits axis member

theorem certifyLoop_owned {frame : Frame} {space : IterationSpace} {splits : List (ℕ × ℕ)}
    {numCores : ℕ} {slots : List (ℕ × Expr)} {rows : List (List (ℕ × ℕ))} {anyFused : Bool}
    {fusedStates states : ℕ} {first : MappedAxis} {axes : List MappedAxis} {proof : LoopProof}
    (listed : first ∈ axes) (mapped : ∀ axis ∈ axes, Mapped frame space slots axis)
    (succeeds : certifyLoop sympy frame space splits numCores rows anyFused fusedStates first axes =
      .ok (proof, states)) :
    LoopOwned frame space anyFused rows (first, axes) proof := by
  unfold certifyLoop at succeeds
  split at succeeds
  next => cases succeeds
  next extent concrete =>
    obtain ⟨⟨padded, counted⟩, extended, succeeds⟩ := bind_eq_ok_iff.mp succeeds
    obtain ⟨divides, succeeds⟩ := of_guard succeeds
    obtain ⟨table, partitioned, succeeds⟩ := bind_eq_ok_iff.mp succeeds
    cases succeeds
    rw [not_not] at divides
    have padding := loopExtent_padded extended
    have splitsPositive : ∀ axis ∈ axes, 0 < axis.split := fun axis member =>
      Nat.pos_of_dvd_of_pos (mapped axis member).divides (mapped axis member).positive
    have splitPositive := @loopSplit_pos numCores first axes splitsPositive listed
    have whole : loopSplit numCores first axes ∣ padded := Nat.dvd_of_mod_eq_zero divides
    have paddedPositive := (extent_pos concrete).trans_le padding.le
    refine ⟨rfl, rfl, ⟨extent, concrete, padding⟩, splitPositive, whole, ?_⟩
    apply partitionOwners_owned _ _ partitioned
    · exact Nat.div_pos (Nat.le_of_dvd paddedPositive whole) splitPositive
    · intro axis member
      exact Nat.div_pos (Nat.le_of_dvd (mapped axis member).positive (mapped axis member).divides)
        (splitsPositive axis member)

theorem certifyLoops_owned {frame : Frame} {space : IterationSpace} {splits : List (ℕ × ℕ)}
    {numCores : ℕ} {slots : List (ℕ × Expr)} {rows : List (List (ℕ × ℕ))} {anyFused : Bool}
    {fusedStates : ℕ} {groups : List (MappedAxis × List MappedAxis)} {proofs : List LoopProof}
    (listed : ∀ group ∈ groups, group.1 ∈ group.2)
    (mapped : ∀ group ∈ groups, ∀ axis ∈ group.2, Mapped frame space slots axis)
    (succeeds : certifyLoops sympy frame space splits numCores rows anyFused fusedStates groups =
      .ok proofs) :
    List.Forall₂ (LoopOwned frame space anyFused rows) groups proofs := by
  induction groups generalizing fusedStates proofs with
  | nil =>
      cases succeeds
      exact .nil
  | cons group groups inductionHypothesis =>
      obtain ⟨⟨proof, states⟩, first, succeeds⟩ := bind_eq_ok_iff.mp succeeds
      obtain ⟨later, remaining, succeeds⟩ := bind_eq_ok_iff.mp succeeds
      cases succeeds
      apply List.Forall₂.cons
      · exact certifyLoop_owned (listed group List.mem_cons_self)
          (mapped group List.mem_cons_self) first
      · exact inductionHypothesis (fun other member => listed other (List.mem_cons_of_mem _ member))
          (fun other member => mapped other (List.mem_cons_of_mem _ member)) remaining

/-! ## Grouping by loop -/

theorem mem_axesByLoop {axes : List MappedAxis} {group : MappedAxis × List MappedAxis} :
    group ∈ axesByLoop axes ↔ ∃ rest, group.2 = group.1 :: rest ∧
      group.2 = axes.filter fun axis => axis.loop = group.1.loop := by
  unfold axesByLoop
  rw [List.mem_filterMap]
  constructor
  · rintro ⟨loop, -, found⟩
    split at found
    next => cases found
    next first rest filtered =>
      cases found
      have kept : first ∈ axes.filter fun axis => axis.loop = loop := by
        rw [filtered]
        exact List.mem_cons_self
      have same : first.loop = loop := of_decide_eq_true (List.mem_filter.mp kept).2
      exact ⟨rest, rfl, by rw [same, filtered]⟩
  · rintro ⟨rest, shape, filtered⟩
    have kept : group.1 ∈ axes.filter fun axis => axis.loop = group.1.loop := by
      rw [← filtered, shape]
      exact List.mem_cons_self
    refine ⟨group.1.loop, ?_, ?_⟩
    · rw [List.mem_reverse, List.mem_dedup, List.mem_reverse]
      exact List.mem_map_of_mem (List.mem_filter.mp kept).1
    · rw [← filtered, shape]
      exact congrArg some (Prod.ext rfl shape.symm)

theorem axesByLoop_head {axes : List MappedAxis} {group : MappedAxis × List MappedAxis}
    (listed : group ∈ axesByLoop axes) : group.1 ∈ group.2 := by
  obtain ⟨rest, shape, -⟩ := mem_axesByLoop.1 listed
  rw [shape]
  exact List.mem_cons_self

theorem mem_of_mem_axesByLoop {axes : List MappedAxis} {group : MappedAxis × List MappedAxis}
    {axis : MappedAxis} (listed : group ∈ axesByLoop axes) (member : axis ∈ group.2) :
    axis ∈ axes ∧ axis.loop = group.1.loop := by
  obtain ⟨-, -, filtered⟩ := mem_axesByLoop.1 listed
  rw [filtered] at member
  obtain ⟨inAxes, same⟩ := List.mem_filter.mp member
  exact ⟨inAxes, of_decide_eq_true same⟩

theorem exists_axesByLoop {axes : List MappedAxis} {axis : MappedAxis} (listed : axis ∈ axes) :
    ∃ group ∈ axesByLoop axes, axis ∈ group.2 := by
  have kept : axis ∈ axes.filter fun other => other.loop = axis.loop :=
    List.mem_filter.mpr ⟨listed, decide_eq_true rfl⟩
  obtain ⟨first, rest, filtered⟩ := List.exists_cons_of_ne_nil (List.ne_nil_of_mem kept)
  have same : first.loop = axis.loop := by
    have inFilter : first ∈ axes.filter fun other => other.loop = axis.loop := by
      rw [filtered]
      exact List.mem_cons_self
    exact of_decide_eq_true (List.mem_filter.mp inFilter).2
  refine ⟨(first, first :: rest), mem_axesByLoop.2 ⟨rest, rfl, ?_⟩, filtered ▸ kept⟩
  rw [← filtered, same]

theorem axesByLoop_nodup (axes : List MappedAxis) :
    ((axesByLoop axes).map fun group => group.1.loop).Nodup := by
  have distinct : (axes.map MappedAxis.loop).reverse.dedup.reverse.Nodup :=
    List.nodup_reverse.mpr (List.nodup_dedup _)
  have kept : ∀ (choose : Symbol → Option (MappedAxis × List MappedAxis)) (loops : List Symbol),
      (∀ loop group, choose loop = some group → group.1.loop = loop) →
        ((loops.filterMap choose).map fun group => group.1.loop).Sublist loops := by
    intro choose loops ofLoop
    induction loops with
    | nil => exact List.Sublist.slnil
    | cons loop loops inductionHypothesis =>
        cases chosen : choose loop with
        | none =>
            rw [List.filterMap_cons_none chosen]
            exact inductionHypothesis.cons loop
        | some group =>
            rw [List.filterMap_cons_some chosen, List.map_cons, ofLoop loop group chosen]
            exact inductionHypothesis.cons_cons loop
  refine distinct.sublist (kept _ _ fun loop group found => ?_)
  split at found
  next => cases found
  next first rest filtered =>
    cases found
    have inFilter : first ∈ axes.filter fun axis => axis.loop = loop := by
      rw [filtered]
      exact List.mem_cons_self
    exact of_decide_eq_true (List.mem_filter.mp inFilter).2

/-! ## The owners of the division -/

/-- Every split axis has a slot in the row of a core. -/
theorem OwnerRow.slotAt {slots : List (ℕ × Expr)} {dims : List (ℕ × ℕ)} {core : ℕ}
    {row : List (ℕ × ℕ)} (ownerRow : OwnerRow slots dims core row)
    (distinct : (dims.map Prod.fst).Nodup) {axis split : ℕ} (listed : (axis, split) ∈ dims) :
    ∃ formula slot, slots.lookup axis = some formula ∧ row.lookup axis = some slot ∧
      formula.eval (fun _ => core) = (slot : ℕ) ∧ slot < split := by
  have inKeys : axis ∈ row.map Prod.fst := by
    rw [ownerRow.keys]
    exact List.mem_map_of_mem listed
  obtain ⟨⟨_, slot⟩, member, rfl⟩ := List.mem_map.mp inKeys
  obtain ⟨formula, other, formulaAt, splitAt, below, evaluated⟩ := ownerRow.value _ _ member
  have sameSplit : other = split := by
    have first := lookup_of_mem distinct splitAt
    have second := lookup_of_mem distinct listed
    exact Option.some.inj (first.symm.trans second)
  refine ⟨formula, slot, formulaAt, ?_, evaluated, sameSplit ▸ below⟩
  apply lookup_of_mem _ member
  rw [ownerRow.keys]
  exact distinct

theorem OwnerRow.rowSlot {slots : List (ℕ × Expr)} {dims : List (ℕ × ℕ)} {core : ℕ}
    {row : List (ℕ × ℕ)} (ownerRow : OwnerRow slots dims core row)
    (distinct : (dims.map Prod.fst).Nodup) {axis : MappedAxis}
    (slotAt : slots.lookup axis.axis = some axis.slot)
    (listed : (axis.axis, axis.split) ∈ dims) :
    axis.slot.eval (fun _ => core) = Ownership.rowSlot row axis ∧
      Ownership.rowSlot row axis < axis.split := by
  obtain ⟨formula, slot, formulaAt, found, evaluated, below⟩ := ownerRow.slotAt distinct listed
  rw [slotAt] at formulaAt
  cases formulaAt
  unfold Ownership.rowSlot
  rw [found, Option.getD_some]
  exact ⟨evaluated, below⟩

/-- The division owns each loop as the table of its proof says. -/
structure Divides (numCores : ℕ) (proofs : List LoopProof) (division : TensorWorkDivision) :
    Prop where
  splits : division.workSlices = proofs.map fun proof => (proof.loop, proof.split)
  cores : division.numCores = some numCores
  owners : ∀ proof ∈ proofs, ∃ formula,
    division.coreIdToWorkSlice.lookup proof.loop = some formula ∧
      ∀ core partition, proof.table[core]? = some partition →
        formula.eval (fun _ => core) = (partition : ℕ)

theorem divide_plain {numCores : ℕ} {proofs : List LoopProof} {rows : List (List (ℕ × ℕ))}
    {slots : List (ℕ × Expr)} {dims : List (ℕ × ℕ)} {frame : Frame} {space : IterationSpace}
    {groups : List (MappedAxis × List MappedAxis)}
    (distinct : (proofs.map LoopProof.loop).Nodup) (dimsDistinct : (dims.map Prod.fst).Nodup)
    (ownerRows : ∀ core row, rows[core]? = some row → OwnerRow slots dims core row)
    (owned : List.Forall₂ (LoopOwned frame space false rows) groups proofs)
    (heads : ∀ group ∈ groups, ∃ rest, group.2 = group.1 :: rest)
    (mapped : ∀ group ∈ groups, Mapped frame space slots group.1 ∧
      (group.1.axis, group.1.split) ∈ dims) :
    Divides numCores proofs ⟨proofs.map fun proof => (proof.loop, proof.split),
      proofs.map fun proof => (proof.loop, proof.owner), some numCores⟩ := by
  refine ⟨rfl, rfl, ?_⟩
  intro proof listed
  obtain ⟨group, inGroups, loopOwned⟩ := exists_left_of_forall₂ owned listed
  refine ⟨proof.owner, ?_, ?_⟩
  · apply lookup_of_mem
    · rw [List.map_map]
      exact distinct
    · exact List.mem_map_of_mem listed
  · intro core partition partitionAt
    obtain ⟨rest, shape⟩ := heads group inGroups
    obtain ⟨mappedHere, inDims⟩ := mapped group inGroups
    have inRows : core < rows.length := by
      rw [← loopOwned.owned.length]
      exact (List.getElem?_eq_some_iff.mp partitionAt).1
    have rowAt := List.getElem?_eq_getElem inRows
    have plain := loopOwned.owned.plain rfl core _ partition rowAt partitionAt
    rw [shape, rowSignature, List.map_cons, List.cons.injEq] at plain
    obtain ⟨evaluated, -⟩ :=
      (ownerRows core _ rowAt).rowSlot dimsDistinct mappedHere.slot inDims
    rw [loopOwned.owner, evaluated]
    exact_mod_cast plain.1

theorem divide_fused {numCores : ℕ} {proofs : List LoopProof} {division : TensorWorkDivision}
    {splits : List (Symbol × ℕ)}
    (lengths : ∀ proof ∈ proofs, proof.table.length = numCores)
    (splitsEq : division.workSlices = proofs.map fun proof => (proof.loop, proof.split))
    (cores : division.numCores = some numCores)
    (accepted : ownerSlots division.coreIdToWorkSlice splits numCores =
      .ok ((List.range numCores).map fun core =>
        proofs.map fun proof => (proof.loop, proof.table.getD core 0))) :
    Divides numCores proofs division := by
  refine ⟨splitsEq, cores, ?_⟩
  obtain ⟨positive, -, ownerRows⟩ := ownerSlots_rows accepted
  have evaluated : ∀ proof ∈ proofs, ∀ core < numCores, ∃ formula,
      division.coreIdToWorkSlice.lookup proof.loop = some formula ∧
        formula.eval (fun _ => core) = (proof.table.getD core 0 : ℕ) := by
    intro proof listed core below
    have ownerRow := ownerRows core (proofs.map fun proof => (proof.loop, proof.table.getD core 0))
      (by rw [List.getElem?_map, List.getElem?_range below]; rfl)
    obtain ⟨formula, _, formulaAt, -, -, value⟩ := ownerRow.value _ _ (List.mem_map_of_mem listed)
    exact ⟨formula, formulaAt, value⟩
  intro proof listed
  obtain ⟨formula, formulaAt, -⟩ := evaluated proof listed 0 positive
  refine ⟨formula, formulaAt, ?_⟩
  intro core partition partitionAt
  have below : core < numCores := by
    rw [← lengths proof listed]
    exact (List.getElem?_eq_some_iff.mp partitionAt).1
  obtain ⟨other, otherAt, value⟩ := evaluated proof listed core below
  rw [formulaAt] at otherAt
  cases otherAt
  rw [value, List.getD_eq_getElem?_getD, partitionAt]
  rfl

/-! ## Soundness -/

/-- The access of a split axis lies in the slice that the view gives to the core. -/
def PerCoreView.Holds (view : PerCoreView) (frame : Frame) (core : ℕ) (point : Point)
    (axis split : ℕ) : Prop :=
  ∃ (size : ℕ) (coordinate formula : Expr) (slot : ℕ) (value : ℤ),
    frame.deviceSize[axis]? = some size ∧ frame.deviceCoordinates[axis]? = some coordinate ∧
      view.coreToSlot.lookup axis = some formula ∧ formula.eval (fun _ => core) = slot ∧
      slot < split ∧ split ∣ size ∧ coordinate.eval point = value ∧
      InSlice (size / split : ℕ) slot value

/-- The value of every split loop lies in the partition that the division gives to the core. -/
def Certificate.Assigns (certificate : Certificate) (core : ℕ) (point : Point) : Prop :=
  ∀ loop split formula extent, (loop, split) ∈ certificate.division.workSlices →
    certificate.division.coreIdToWorkSlice.lookup loop = some formula →
    certificate.extents.lookup loop = some extent →
      ∃ owner : ℕ, formula.eval (fun _ => core) = owner ∧
        InSlice (extent / split : ℕ) owner (point loop)

/-- Every partition of a split loop is assigned to a core. -/
def Certificate.Covers (certificate : Certificate) (deviceSize : List ℕ) (space : IterationSpace)
    (numCores : ℕ) : Prop :=
  ∀ loop split, (loop, split) ∈ certificate.division.workSlices → ∃ formula extent padded,
    certificate.division.coreIdToWorkSlice.lookup loop = some formula ∧
      certificate.extents.lookup loop = some padded ∧ space.extent loop = some extent ∧
      Padded deviceSize extent padded ∧ 0 < split ∧ split ∣ padded ∧
      ∀ partition < split, ∃ core < numCores, formula.eval (fun _ => core) = (partition : ℕ)

/-- The point lies in the iteration space, unless the axis reads a single loop: then also a value
of that loop inside its padded extent is allowed. -/
def Reaches (space : IterationSpace) (frame : Frame) (point : Point) (axis : ℕ) : Prop :=
  space.Contains point ∨
    ∃ coordinate, frame.deviceCoordinates[axis]? = some coordinate ∧
      (directLoop space coordinate).isSome

structure Sound (view : PerCoreView) (frame : Frame) (space : IterationSpace) (numCores : ℕ)
    (certificate : Certificate) : Prop where
  cores : certificate.division.numCores = some numCores
  holds : ∀ core < numCores, ∀ point, certificate.Assigns core point →
    ∀ axis split, (axis, split) ∈ view.workSliceDims → Reaches space frame point axis →
      view.Holds frame core point axis split
  covers : certificate.Covers frame.deviceSize space numCores

theorem loops_of_owned {frame : Frame} {space : IterationSpace} {anyFused : Bool}
    {rows : List (List (ℕ × ℕ))} {groups : List (MappedAxis × List MappedAxis)}
    {proofs : List LoopProof}
    (owned : List.Forall₂ (LoopOwned frame space anyFused rows) groups proofs) :
    proofs.map LoopProof.loop = groups.map fun group => group.1.loop := by
  induction owned with
  | nil => rfl
  | cons here _ inductionHypothesis =>
      rw [List.map_cons, List.map_cons, inductionHypothesis, here.loop]

/-- The proved loops of a frame whose axes were all mapped. -/
structure Proved (view : PerCoreView) (frame : Frame) (space : IterationSpace) (numCores : ℕ)
    (rows : List (List (ℕ × ℕ))) (axes : List MappedAxis) (anyFused : Bool)
    (proofs : List LoopProof) : Prop where
  distinct : (view.workSliceDims.map Prod.fst).Nodup
  rowCount : rows.length = numCores
  ownerRows : ∀ core row, rows[core]? = some row →
    OwnerRow view.coreToSlot view.workSliceDims core row
  dims : (axes.map fun axis => (axis.axis, axis.split)) = view.workSliceDims
  mapped : ∀ axis ∈ axes, Mapped frame space view.coreToSlot axis
  owned : List.Forall₂ (LoopOwned frame space anyFused rows) (axesByLoop axes) proofs

namespace Proved

variable {view : PerCoreView} {frame : Frame} {space : IterationSpace} {numCores : ℕ}
  {rows : List (List (ℕ × ℕ))} {axes : List MappedAxis} {anyFused : Bool}
  {proofs : List LoopProof}

theorem inDims (proved : Proved view frame space numCores rows axes anyFused proofs)
    {axis : MappedAxis} (listed : axis ∈ axes) :
    (axis.axis, axis.split) ∈ view.workSliceDims := by
  rw [← proved.dims]
  exact List.mem_map_of_mem (f := fun axis : MappedAxis => (axis.axis, axis.split)) listed

theorem loopsDistinct (proved : Proved view frame space numCores rows axes anyFused proofs) :
    (proofs.map LoopProof.loop).Nodup := by
  rw [loops_of_owned proved.owned]
  exact axesByLoop_nodup axes

theorem tableLength (proved : Proved view frame space numCores rows axes anyFused proofs)
    {proof : LoopProof} (listed : proof ∈ proofs) : proof.table.length = numCores := by
  obtain ⟨group, -, here⟩ := exists_left_of_forall₂ proved.owned listed
  exact here.owned.length.trans proved.rowCount

theorem divides (proved : Proved view frame space numCores rows axes anyFused proofs)
    {division : TensorWorkDivision}
    (divided : divide sympy space numCores anyFused proofs = .ok division) :
    Divides numCores proofs division := by
  unfold divide at divided
  cases anyFused with
  | false =>
      cases divided
      apply divide_plain proved.loopsDistinct proved.distinct proved.ownerRows proved.owned
      · intro group listed
        obtain ⟨rest, shape, -⟩ := mem_axesByLoop.1 listed
        exact ⟨rest, shape⟩
      · intro group listed
        have inAxes := (mem_of_mem_axesByLoop listed (axesByLoop_head listed)).1
        exact ⟨proved.mapped _ inAxes, proved.inDims inAxes⟩
  | true =>
      obtain ⟨selected, found, divided⟩ := bind_eq_ok_iff.mp divided
      cases selected with
      | none => cases divided
      | some candidate =>
          cases divided
          obtain ⟨splits, cores, accepted⟩ := selectUniquePartitionDivision_accepts found
          obtain ⟨foundRows, evaluated, accepted⟩ := bind_eq_ok_iff.mp accepted
          have sameRows := of_decide_eq_true (Except.ok.inj accepted)
          rw [sameRows] at evaluated
          exact divide_fused (fun proof listed => proved.tableLength listed) splits cores evaluated

theorem extentAt (proved : Proved view frame space numCores rows axes anyFused proofs)
    {proof : LoopProof} (listed : proof ∈ proofs) :
    (proofs.map fun proof => (proof.loop, proof.extent)).lookup proof.loop = some proof.extent := by
  apply lookup_of_mem
  · rw [List.map_map]
    exact proved.loopsDistinct
  · exact List.mem_map_of_mem (f := fun proof : LoopProof => (proof.loop, proof.extent)) listed

theorem holds (proved : Proved view frame space numCores rows axes anyFused proofs)
    {division : TensorWorkDivision} (divides : Divides numCores proofs division) {core : ℕ}
    (inCores : core < numCores) {point : Point}
    (assigned : Certificate.Assigns
      ⟨division, proofs.map fun proof => (proof.loop, proof.extent)⟩ core point)
    {axis split : ℕ} (listed : (axis, split) ∈ view.workSliceDims)
    (reached : Reaches space frame point axis) : view.Holds frame core point axis split := by
  rw [← proved.dims] at listed
  obtain ⟨mapped, inAxes, same⟩ := List.mem_map.mp listed
  cases same
  obtain ⟨group, inGroups, inGroup⟩ := exists_axesByLoop inAxes
  obtain ⟨proof, inProofs, here⟩ := exists_right_of_forall₂ proved.owned inGroups
  have inRows : core < rows.length := proved.rowCount ▸ inCores
  have inTable : core < proof.table.length := here.owned.length ▸ inRows
  obtain ⟨row, rowAt⟩ : ∃ row, rows[core]? = some row := ⟨_, List.getElem?_eq_getElem inRows⟩
  obtain ⟨partition, partitionAt⟩ : ∃ partition, proof.table[core]? = some partition :=
    ⟨_, List.getElem?_eq_getElem inTable⟩
  -- The division assigns the partition of the table.
  have inPartition : InSlice (proof.extent / proof.split : ℕ) partition (point proof.loop) := by
    obtain ⟨formula, formulaAt, evaluated⟩ := divides.owners proof inProofs
    obtain ⟨owner, owns, inside⟩ := assigned proof.loop proof.split formula proof.extent
      (by rw [divides.splits]; exact List.mem_map_of_mem inProofs) formulaAt
      (proved.extentAt inProofs)
    rw [evaluated core partition partitionAt, Nat.cast_inj] at owns
    rw [owns]
    exact inside
  have sameLoop : proof.loop = mapped.loop :=
    here.loop.trans (mem_of_mem_axesByLoop inGroups inGroup).2.symm
  rw [sameLoop] at inPartition
  obtain ⟨value, evaluated, inside⟩ :=
    here.owned.contained core row partition rowAt partitionAt _ inPartition mapped inGroup
  have mappedHere := proved.mapped mapped inAxes
  obtain ⟨slotValue, slotBelow⟩ := (proved.ownerRows core row rowAt).rowSlot proved.distinct
    mappedHere.slot (proved.inDims inAxes)
  obtain ⟨coordinate, coordinateAt, decides⟩ := mappedHere.decides
  rw [decides.onLine] at evaluated
  have direct : space.Contains point ∨ (directLoop space coordinate).isSome := by
    rcases reached with inSpace | ⟨other, otherAt, direct⟩
    · exact Or.inl inSpace
    · rw [coordinateAt] at otherAt
      cases otherAt
      exact Or.inr direct
  obtain ⟨result, evaluatedHere, insideHere⟩ :=
    decides.transfers point direct _ value evaluated inside
  exact ⟨mapped.size, coordinate, mapped.slot, rowSlot row mapped, result, mappedHere.size,
    coordinateAt, mappedHere.slot, slotValue, slotBelow, mappedHere.divides, evaluatedHere,
    insideHere⟩

theorem covers (proved : Proved view frame space numCores rows axes anyFused proofs)
    {division : TensorWorkDivision} (divides : Divides numCores proofs division) :
    Certificate.Covers ⟨division, proofs.map fun proof => (proof.loop, proof.extent)⟩
      frame.deviceSize space numCores := by
  intro loop split listed
  rw [divides.splits] at listed
  obtain ⟨proof, inProofs, same⟩ := List.mem_map.mp listed
  cases same
  obtain ⟨group, -, here⟩ := exists_left_of_forall₂ proved.owned inProofs
  obtain ⟨formula, formulaAt, evaluated⟩ := divides.owners proof inProofs
  obtain ⟨extent, concrete, padded⟩ := here.padded
  refine ⟨formula, extent, proof.extent, formulaAt, proved.extentAt inProofs, concrete, padded,
    here.splitPositive, here.divides, ?_⟩
  intro partition below
  obtain ⟨core, inTable, found⟩ := List.mem_iff_getElem.mp (here.owned.covered partition below)
  refine ⟨core, proved.tableLength inProofs ▸ inTable, ?_⟩
  apply evaluated
  rw [List.getElem?_eq_getElem inTable, found]

end Proved

theorem certifyAxes_sound {view : PerCoreView} {frame : Frame} {space : IterationSpace}
    {numCores : ℕ} {rows : List (List (ℕ × ℕ))} {axes : List MappedAxis}
    {certificate : Certificate} (distinct : (view.workSliceDims.map Prod.fst).Nodup)
    (owners : ownerSlots view.coreToSlot view.workSliceDims numCores = .ok rows)
    (dims : (axes.map fun axis => (axis.axis, axis.split)) = view.workSliceDims)
    (mapped : ∀ axis ∈ axes, Mapped frame space view.coreToSlot axis)
    (succeeds : certifyAxes sympy frame space view.workSliceDims numCores rows axes =
      .ok certificate) : Sound view frame space numCores certificate := by
  obtain ⟨-, rowCount, ownerRows⟩ := ownerSlots_rows owners
  obtain ⟨proofs, certified, succeeds⟩ := bind_eq_ok_iff.mp succeeds
  obtain ⟨division, divided, succeeds⟩ := bind_eq_ok_iff.mp succeeds
  cases succeeds
  have owned := certifyLoops_owned (fun group => axesByLoop_head)
    (fun group listed axis member => mapped axis (mem_of_mem_axesByLoop listed member).1) certified
  have proved : Proved view frame space numCores rows axes _ proofs :=
    ⟨distinct, rowCount, ownerRows, dims, mapped, owned⟩
  have divides := proved.divides divided
  constructor
  case cores => exact divides.cores
  case holds =>
    intro core inCores point assigned axis split listed reached
    exact proved.holds divides inCores assigned listed reached
  case covers => exact proved.covers divides

/-! ## The expanded frame -/

theorem getElem?_replaceAt_inside {α : Type} {axis offset : ℕ} {replacement items : List α}
    (inItems : axis < items.length) (inside : offset < replacement.length) :
    (replaceAt axis replacement items)[axis + offset]? = replacement[offset]? := by
  unfold replaceAt
  rw [List.getElem?_append_left (by simp; omega), List.getElem?_append_right (by simp)]
  congr 1
  simp
  omega

theorem getElem?_replaceAt_shiftAxis {α : Type} {axis other : ℕ} {replacement items : List α}
    (inItems : axis < items.length) (inhabited : 0 < replacement.length)
    (different : other ≠ axis) :
    (replaceAt axis replacement items)[shiftAxis axis (replacement.length - 1) other]? =
      items[other]? := by
  unfold replaceAt shiftAxis
  by_cases after : axis < other
  · rw [if_pos after, List.getElem?_append_right (by simp; omega), List.getElem?_drop]
    congr 1
    simp
    omega
  · rw [if_neg after, List.getElem?_append_left (by simp; omega),
      List.getElem?_append_left (by simp; omega), List.getElem?_take_of_lt (by omega)]

theorem getLast?_replaceAt {α : Type} {axis : ℕ} {replacement items : List α}
    (notLast : axis + 1 < items.length) :
    (replaceAt axis replacement items).getLast? = items.getLast? := by
  unfold replaceAt
  have rest : items.drop (axis + 1) ≠ [] := by
    rw [ne_eq, List.drop_eq_nil_iff]
    omega
  rw [List.getLast?_append_of_ne_nil _ rest, List.getLast?_drop, if_neg (by omega)]

theorem mem_expandEntries {α : Type} {axis shift : ℕ} {entries added : List (ℕ × α)}
    {entry : ℕ × α} : entry ∈ expandEntries axis shift entries added ↔
      (∃ other ∈ entries, other.1 ≠ axis ∧ entry = (shiftAxis axis shift other.1, other.2)) ∨
        entry ∈ added := by
  unfold expandEntries
  rw [List.mem_mergeSort, List.mem_append, List.mem_map]
  apply or_congr_left
  constructor
  · rintro ⟨other, kept, rfl⟩
    obtain ⟨listed, different⟩ := List.mem_filter.mp kept
    exact ⟨other, listed, of_decide_eq_true different, rfl⟩
  · rintro ⟨other, listed, different, rfl⟩
    exact ⟨other, List.mem_filter.mpr ⟨listed, decide_eq_true different⟩, rfl⟩

theorem mem_splitFactors {axis offset : ℕ} {factors : List AxisFactor} {factor : AxisFactor}
    (found : factors[offset]? = some factor) (splits : 1 < factor.count) :
    (axis + offset, factor) ∈ splitFactors axis factors := by
  unfold splitFactors
  rw [List.mem_filterMap]
  refine ⟨(factor, offset), List.mem_zipIdx_iff_getElem?.mpr found, ?_⟩
  simp [splits]

section Expansion

variable {view : PerCoreView} {frame : Frame} {space : IterationSpace} {numCores axis split : ℕ}
  {factors : List AxisFactor} {size : ℕ} {coordinate slot : Expr}

/-- The other axes keep their slices at their new positions. -/
theorem Factored.holds_other
    (factored : Factored sympy frame space view.coreToSlot axis split factors size coordinate slot)
    (slotsDistinct : ((expandView view axis factors).coreToSlot.map Prod.fst).Nodup)
    {core : ℕ} {point : Point} {other count : ℕ} {formula : Expr}
    (listed : (other, count) ∈ view.workSliceDims) (different : other ≠ axis)
    (formulaAt : view.coreToSlot.lookup other = some formula)
    (expanded : (expandView view axis factors).Holds (expandFrame frame axis factors) core point
      (shiftAxis axis (factors.length - 1) other) count) :
    view.Holds frame core point other count := by
  obtain ⟨width, access, found, slotValue, value, widthAt, accessAt, foundAt, rest⟩ := expanded
  have positive := factorSliceAxis_pos factored.found
  have inSizes := (List.getElem?_eq_some_iff.mp factored.sizeAt).1
  have inCoordinates := (List.getElem?_eq_some_iff.mp factored.coordinateAt).1
  have sizes := @getElem?_replaceAt_shiftAxis _ axis other (factors.map AxisFactor.radix)
    frame.deviceSize inSizes (by simpa using positive) different
  have coordinates := @getElem?_replaceAt_shiftAxis _ axis other (factors.map AxisFactor.digit)
    frame.deviceCoordinates inCoordinates (by simpa using positive) different
  rw [List.length_map] at sizes coordinates
  have sameFormula : found = formula := by
    have member : (shiftAxis axis (factors.length - 1) other, formula) ∈
        (expandView view axis factors).coreToSlot := by
      apply mem_expandEntries.2
      refine Or.inl ⟨(other, formula), ?_, different, rfl⟩
      rw [List.mem_filterMap]
      exact ⟨(other, count), listed, by simp [formulaAt]⟩
    rw [lookup_of_mem slotsDistinct member] at foundAt
    exact (Option.some.inj foundAt).symm
  rw [sameFormula] at rest
  exact ⟨width, access, formula, slotValue, value, sizes ▸ widthAt, coordinates ▸ accessAt,
    formulaAt, rest⟩

/-- The slices of the digits put the factored coordinate into its own slice. -/
theorem Factored.holds_axis
    (factored : Factored sympy frame space view.coreToSlot axis split factors size coordinate slot)
    (slotsDistinct : ((expandView view axis factors).coreToSlot.map Prod.fst).Nodup)
    {core slotValue : ℕ} {point : Point} (owned : slot.eval (fun _ => core) = slotValue)
    (slotBelow : slotValue < split) (inSpace : space.Contains point)
    (expanded : ∀ position count, (position, count) ∈ (expandView view axis factors).workSliceDims →
      (expandView view axis factors).Holds (expandFrame frame axis factors) core point position
        count) :
    view.Holds frame core point axis split := by
  have inSizes := (List.getElem?_eq_some_iff.mp factored.sizeAt).1
  have inCoordinates := (List.getElem?_eq_some_iff.mp factored.coordinateAt).1
  have digits : ∀ factor ∈ factors, 1 < factor.count → ∃ value owner : ℕ,
      factor.digit.eval point = value ∧ factor.owner.eval (fun _ => core) = owner ∧
        InSlice (factor.radix / factor.count : ℕ) owner value := by
    intro factor listed splits
    obtain ⟨offset, inFactors, found⟩ := List.mem_iff_getElem.mp listed
    have factorAt : factors[offset]? = some factor := by
      rw [List.getElem?_eq_getElem inFactors, found]
    have placed := @mem_splitFactors axis _ _ _ factorAt splits
    obtain ⟨width, access, formula, owner, value, widthAt, accessAt, formulaAt, evaluated, -, -,
      accessed, inside⟩ := expanded (axis + offset) factor.count
        (mem_expandEntries.2 (Or.inr (List.mem_map.mpr ⟨_, placed, rfl⟩)))
    have ownerAt := lookup_of_mem slotsDistinct
      (mem_expandEntries.2 (Or.inr (List.mem_map.mpr
        ⟨(axis + offset, factor), placed, rfl⟩)))
    have sizes := @getElem?_replaceAt_inside _ axis offset (factors.map AxisFactor.radix)
      frame.deviceSize inSizes (by simpa using inFactors)
    have coordinates := @getElem?_replaceAt_inside _ axis offset (factors.map AxisFactor.digit)
      frame.deviceCoordinates inCoordinates (by simpa using inFactors)
    rw [List.getElem?_map, factorAt] at sizes coordinates
    have sameWidth := Option.some.inj (widthAt.symm.trans sizes)
    have sameAccess := Option.some.inj (accessAt.symm.trans coordinates)
    have sameOwner := Option.some.inj (formulaAt.symm.trans ownerAt)
    subst sameWidth sameAccess sameOwner
    have nonnegative : 0 ≤ value := (by positivity : (0 : ℤ) ≤ _).trans inside.1
    have natural : ((value.toNat : ℕ) : ℤ) = value := Int.toNat_of_nonneg nonnegative
    refine ⟨value.toNat, owner, ?_, evaluated, ?_⟩
    · rw [accessed, ← natural]
      rfl
    · rw [natural]
      exact inside
  obtain ⟨value, evaluated, inside⟩ :=
    factorSliceAxis_inSlice factored.found owned slotBelow inSpace digits
  exact ⟨size, coordinate, slot, slotValue, value, factored.sizeAt, factored.coordinateAt,
    factored.slotAt, owned, slotBelow, factored.divides, evaluated, inside⟩

theorem Factored.sound {rows : List (List (ℕ × ℕ))} {certificate : Certificate}
    (factored : Factored sympy frame space view.coreToSlot axis split factors size coordinate slot)
    (distinct : (view.workSliceDims.map Prod.fst).Nodup)
    (owners : ownerSlots view.coreToSlot view.workSliceDims numCores = .ok rows)
    (listed : (axis, split) ∈ view.workSliceDims)
    (slotsDistinct : ((expandView view axis factors).coreToSlot.map Prod.fst).Nodup)
    (sound : Sound (expandView view axis factors) (expandFrame frame axis factors) space numCores
      certificate) : Sound view frame space numCores certificate := by
  obtain ⟨-, rowCount, ownerRows⟩ := ownerSlots_rows owners
  have inSizes := (List.getElem?_eq_some_iff.mp factored.sizeAt).1
  have inCoordinates := (List.getElem?_eq_some_iff.mp factored.coordinateAt).1
  have positive := factorSliceAxis_pos factored.found
  constructor
  case cores => exact sound.cores
  case covers =>
    intro loop count member
    obtain ⟨formula, extent, padded, formulaAt, paddedAt, concrete, padding, rest⟩ :=
      sound.covers loop count member
    refine ⟨formula, extent, padded, formulaAt, paddedAt, concrete, ?_, rest⟩
    unfold Padded expandFrame at padding
    rw [getLast?_replaceAt (by have := factored.notStick; omega)] at padding
    exact padding
  case holds =>
    intro core inCores point assigned other count otherListed reached
    obtain ⟨row, rowAt⟩ : ∃ row, rows[core]? = some row :=
      ⟨_, List.getElem?_eq_getElem (rowCount ▸ inCores)⟩
    have ownerRow := ownerRows core row rowAt
    by_cases same : other = axis
    · subst same
      obtain ⟨formula, slotValue, formulaAt, -, evaluated, below⟩ :=
        ownerRow.slotAt distinct otherListed
      rw [factored.slotAt] at formulaAt
      cases formulaAt
      have sameSplit : count = split := by
        have first := lookup_of_mem distinct otherListed
        rw [lookup_of_mem distinct listed] at first
        exact (Option.some.inj first).symm
      subst sameSplit
      have inSpace : space.Contains point := by
        rcases reached with inSpace | ⟨access, accessAt, direct⟩
        · exact inSpace
        · rw [factored.coordinateAt] at accessAt
          cases accessAt
          rw [factored.indirect] at direct
          cases direct
      apply factored.holds_axis slotsDistinct evaluated below inSpace
      intro position amount member
      exact sound.holds core inCores point assigned position amount member (Or.inl inSpace)
    · obtain ⟨formula, -, formulaAt, -⟩ := ownerRow.slotAt distinct otherListed
      apply factored.holds_other slotsDistinct otherListed same formulaAt
      apply sound.holds core inCores point assigned
      · exact mem_expandEntries.mpr (Or.inl ⟨(other, count), otherListed, same, rfl⟩)
      · rcases reached with inSpace | ⟨access, accessAt, direct⟩
        · exact Or.inl inSpace
        · refine Or.inr ⟨access, ?_, direct⟩
          have moved := @getElem?_replaceAt_shiftAxis _ axis other (factors.map AxisFactor.digit)
            frame.deviceCoordinates inCoordinates (by simpa using positive) same
          rw [List.length_map] at moved
          exact moved.trans accessAt

end Expansion

theorem certify_checked {space : IterationSpace} {allowExtended : Bool} {depth : ℕ}
    {view : PerCoreView} {frame : Frame} {certificate : Certificate}
    (succeeds : certify sympy space allowExtended (depth + 1) view frame = .ok certificate) :
    ∃ numCores rows outcome, view.numCores = some numCores ∧
      frame.deviceSize.length = frame.deviceCoordinates.length ∧
      (view.workSliceDims.map Prod.fst).Nodup ∧ (view.coreToSlot.map Prod.fst).Nodup ∧
      ownerSlots view.coreToSlot view.workSliceDims numCores = .ok rows ∧
      mapAxes sympy frame space allowExtended view.coreToSlot view.workSliceDims = .ok outcome ∧
      (match outcome with
        | .expand axis factors => certify sympy space allowExtended depth
            (expandView view axis factors) (expandFrame frame axis factors)
        | .mapped axes =>
            certifyAxes sympy frame space view.workSliceDims numCores rows axes) =
          .ok certificate := by
  unfold certify at succeeds
  split at succeeds
  next => cases succeeds
  next numCores cores =>
    obtain ⟨-, succeeds⟩ := of_guard succeeds
    obtain ⟨rank, succeeds⟩ := of_guard succeeds
    obtain ⟨distinct, succeeds⟩ := of_guard succeeds
    rw [not_not] at rank distinct
    obtain ⟨rows, owners, succeeds⟩ := bind_eq_ok_iff.mp succeeds
    obtain ⟨outcome, mapped, succeeds⟩ := bind_eq_ok_iff.mp succeeds
    exact ⟨numCores, rows, outcome, cores, rank, distinct.1, distinct.2, owners, mapped, succeeds⟩

/-- One frame is sound by its mapped axes, or because the expanded frame is. -/
theorem certify_sound {space : IterationSpace} {allowExtended : Bool} {depth : ℕ}
    {view : PerCoreView} {frame : Frame} {certificate : Certificate}
    (succeeds : certify sympy space allowExtended depth view frame = .ok certificate) :
    ∃ numCores, view.numCores = some numCores ∧ Sound view frame space numCores certificate := by
  induction depth generalizing view frame with
  | zero => cases succeeds
  | succ depth inductionHypothesis =>
      obtain ⟨numCores, rows, outcome, cores, -, distinct, -, owners, scanned, succeeds⟩ :=
        certify_checked succeeds
      refine ⟨numCores, cores, ?_⟩
      cases outcome with
      | mapped axes =>
          obtain ⟨dims, mapped⟩ := mapAxes_mapped scanned
          exact certifyAxes_sound distinct owners dims mapped succeeds
      | expand axis factors =>
          obtain ⟨split, size, coordinate, slot, listed, factored⟩ := mapAxes_expand scanned
          obtain ⟨sameCores, coresAgain, sound⟩ := inductionHypothesis succeeds
          have slotsDistinct :
              ((expandView view axis factors).coreToSlot.map Prod.fst).Nodup := by
            cases depth with
            | zero => cases succeeds
            | succ depth =>
                obtain ⟨_, _, _, _, _, _, slotsDistinct, _⟩ := certify_checked succeeds
                exact slotsDistinct
          have same : sameCores = numCores := by
            change view.numCores = some sameCores at coresAgain
            rw [cores] at coresAgain
            exact (Option.some.inj coresAgain).symm
          subst same
          exact factored.sound distinct owners listed slotsDistinct sound

/-- No value of a split loop inside its padded extent is left without a core. -/
theorem Certificate.Covers.owns {certificate : Certificate} {deviceSize : List ℕ}
    {space : IterationSpace} {numCores : ℕ}
    (covers : certificate.Covers deviceSize space numCores) {loop : Symbol} {split padded : ℕ}
    {formula : Expr} (listed : (loop, split) ∈ certificate.division.workSlices)
    (formulaAt : certificate.division.coreIdToWorkSlice.lookup loop = some formula)
    (paddedAt : certificate.extents.lookup loop = some padded) {value : ℕ}
    (below : value < padded) : ∃ core < numCores, ∃ owner : ℕ,
      formula.eval (fun _ => core) = owner ∧ InSlice (padded / split : ℕ) owner value := by
  obtain ⟨other, extent, whole, otherAt, wholeAt, -, -, positive, divides, owned⟩ :=
    covers loop split listed
  rw [formulaAt] at otherAt
  rw [paddedAt] at wholeAt
  cases otherAt
  cases wholeAt
  have partition : value / (padded / split) < split := by
    apply Nat.div_lt_of_lt_mul
    rw [Nat.div_mul_cancel divides]
    exact below
  have width : 0 < padded / split :=
    Nat.div_pos (Nat.le_of_dvd (Nat.zero_lt_of_lt below) divides) positive
  obtain ⟨core, inCores, evaluated⟩ := owned _ partition
  refine ⟨core, inCores, _, evaluated, ?_⟩
  rw [InSlice.iff_ediv_eq (by exact_mod_cast width)]
  norm_cast

/-- Whenever a division is returned, the points of a core's partitions are read inside the slices
that the view gives to the core, and every point of a split loop has a core. -/
theorem workDivisionFromView_sound {view : Option PerCoreView} {deviceSize : List ℕ}
    {deviceCoordinates : List Expr} {space : IterationSpace} {allowExtended : Bool}
    {division : TensorWorkDivision}
    (returned : workDivisionFromView sympy view deviceSize deviceCoordinates space allowExtended =
      .ok (some division)) :
    ∃ (slices : PerCoreView) (numCores : ℕ) (certificate : Certificate), view = some slices ∧
      slices.numCores = some numCores ∧
      certify sympy space allowExtended recursionLimit slices ⟨deviceSize, deviceCoordinates⟩ =
        .ok certificate ∧
      certificate.division = division ∧
      (∀ core < numCores, ∀ point, certificate.Assigns core point →
        ∀ axis split, (axis, split) ∈ slices.workSliceDims →
          Reaches space ⟨deviceSize, deviceCoordinates⟩ point axis →
            slices.Holds ⟨deviceSize, deviceCoordinates⟩ core point axis split) ∧
      certificate.Covers deviceSize space numCores ∧
      ∀ loop split formula padded, (loop, split) ∈ division.workSlices →
        division.coreIdToWorkSlice.lookup loop = some formula →
        certificate.extents.lookup loop = some padded → ∀ value < padded,
          ∃ core < numCores, ∃ owner : ℕ, formula.eval (fun _ => core) = owner ∧
            InSlice (padded / split : ℕ) owner value := by
  unfold workDivisionFromView at returned
  cases view with
  | none => cases returned
  | some slices =>
      obtain ⟨certificate, certified, returned⟩ := bind_eq_ok_iff.mp returned
      cases returned
      obtain ⟨numCores, cores, sound⟩ := certify_sound certified
      refine ⟨slices, numCores, certificate, rfl, cores, certified, rfl, sound.holds,
        sound.covers, ?_⟩
      intro loop split formula padded listed formulaAt paddedAt value below
      exact sound.covers.owns listed formulaAt paddedAt below

/-- Sixteen sticks split four ways, read at `2 * head + pair`. -/
def pairView : PerCoreView where
  workSliceDims := [(0, 4)]
  coreToSlot := [(0, .mod (.sym coreId) 4)]
  numCores := some 4

def pairCoordinates : List Expr :=
  [.add (.mul (.const 2) (.sym "head")) (.sym "pair"), .sym "lane"]

def pairSpace : IterationSpace := [("head", .const 8), ("pair", .const 2), ("lane", .const 64)]

theorem workDivisionFromView_sound_pairs :
    ∃ (slices : PerCoreView) (numCores : ℕ) (certificate : Certificate),
      some pairView = some slices ∧ slices.numCores = some numCores ∧
      certify affineSympy pairSpace true recursionLimit slices ⟨[16, 64], pairCoordinates⟩ =
        .ok certificate ∧
      certificate.division =
        ⟨[("head", 4)], [("head", .mod (.sym coreId) 4)], some 4⟩ ∧
      (∀ core < numCores, ∀ point, certificate.Assigns core point →
        ∀ axis split, (axis, split) ∈ slices.workSliceDims →
          Reaches pairSpace ⟨[16, 64], pairCoordinates⟩ point axis →
            slices.Holds ⟨[16, 64], pairCoordinates⟩ core point axis split) ∧
      certificate.Covers [16, 64] pairSpace numCores ∧
      ∀ loop split formula padded, (loop, split) ∈ [("head", 4)] →
        [("head", Expr.mod (.sym coreId) 4)].lookup loop = some formula →
        certificate.extents.lookup loop = some padded → ∀ value < padded,
          ∃ core < numCores, ∃ owner : ℕ, formula.eval (fun _ => core) = owner ∧
            InSlice (padded / split : ℕ) owner value := by
  exact workDivisionFromView_sound (by decide +kernel)

end TorchSpyre.Ownership
