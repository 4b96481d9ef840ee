import TorchSpyre.Scratchpad.PermLayout.Safety

/-!
# The packer in 64-bit arithmetic

Every addition and rounding of the packer with a check that its result fits `int64_t`; `none` is an
overflow, behind which nothing is promised. Where nothing overflows the packer is the exact one.
-/

namespace TorchSpyre.Scratchpad.PermLayout

open Lib

def checked (value : ℤ) : Option ℤ := if fitsInt64 value then some value else none

/-- `((addr + a - 1) / a) * a` -/
def alignUpChecked (alignment addr : ℤ) : Option ℤ := do
  let sum ← checked (addr + alignment)
  let last ← checked (sum - 1)
  checked (last.tdiv alignment * alignment)

namespace Config

variable (config : Config)

/-- `addr + sizes_[idx] > cap` -/
def fitChecked (address : ℤ) (buffer : ℕ) : Option (Option ℤ) :=
  (checked (address + config.sizes buffer)).map fun top =>
    if top > config.static.capacity then none else some address

def placeDecisionChecked (layout : Layout) (partners : List ℕ) (buffer : ℕ) (candidates : List ℕ) :
    Option (Option ℤ) :=
  if candidates = [] then
    some (if config.sizes buffer > config.static.capacity then none else some 0)
  else if candidates.any fun candidate => !layout.allocated candidate then some none
  else
    (candidates.mapM fun candidate => checked (config.top layout candidate)).bind fun tops =>
      -- The tops that the search for a slot adds up again have been checked.
      match partners.find? (config.slotFits layout buffer candidates) with
      | some partner => config.fitChecked (layout.addr partner) buffer
      | none =>
          (alignUpChecked config.static.alignment (tops.foldl max (-int64Max - 1))).bind fun aligned =>
            config.fitChecked aligned buffer

end Config

namespace Solver

def fastDecisionChecked (solver : Solver) (intervals : Intervals) (buffer : ℕ) : Option (Option ℤ) :=
  match scanIntervals intervals (solver.static.liveIntervals buffer) 0 with
  | none => some none
  | some maxTop =>
      (alignUpChecked solver.static.alignment maxTop).bind fun aligned =>
        solver.config.fitChecked aligned buffer

def visitChecked (solver : Solver) (position : ℕ) (pass : Pass) (buffer : ℕ) : Option Pass :=
  if !solver.eligible buffer then
    some { pass with
      layout :=
        { pass.layout with allocated := Function.update pass.layout.allocated buffer false }
      intervals := commitIntervals solver.static buffer false (-1) pass.intervals }
  else
    let decided :=
      if solver.static.inplacePartners buffer = [] then
        solver.fastDecisionChecked pass.intervals buffer
      else
        solver.config.placeDecisionChecked pass.layout (solver.static.inplacePartners buffer) buffer
          (solver.gatherCandidates buffer position)
    decided.bind fun
      | some address =>
          (checked (address + solver.sizes buffer)).map fun top =>
            { layout := pass.layout.set buffer (some address)
              totalQuality := pass.totalQuality + solver.static.weight buffer * solver.sizes buffer
              totalAllocatedCount := pass.totalAllocatedCount + 1
              intervals := commitIntervals solver.static buffer false top pass.intervals }
      | none =>
          some { pass with
            layout := pass.layout.set buffer none
            intervals := commitIntervals solver.static buffer true (-1) pass.intervals }

def recomputeFromChecked (solver : Solver) (position : ℕ) (pass : Pass) : List ℕ → Option (Pass × List ℕ)
  | [] => some (pass, [])
  | buffer :: rest =>
      if pass.intervals.notDone = 0 then some (pass, buffer :: rest)
      else (solver.visitChecked position pass buffer).bind fun next =>
        solver.recomputeFromChecked (position + 1) next rest

def recomputeAllChecked (solver : Solver) : Option Solver :=
  (solver.recomputeFromChecked 0 ⟨solver.layout, 0, 0, initIntervals solver.static⟩
    solver.permutation).map fun (pass, rest) =>
      { solver with
        layout :=
          { addr := pass.layout.addr
            allocated := rest.foldl (fun allocated buffer => Function.update allocated buffer false)
              pass.layout.allocated }
        totalQuality := pass.totalQuality
        totalAllocatedCount := pass.totalAllocatedCount }

/-! ## Calls -/

def newChecked (shuffle : ℕ → List ℕ → List ℕ) (buffers : List LifetimeBoundBuffer)
    (permutation : List ℤ) (capacity alignment : ℤ) (eligible : Option (List Bool)) :
    Except String (Option Solver) :=
  if alignment ≤ 0 then .error "alignment must be positive"
  else if permutation.insertionSort (· ≤ ·) ≠ (List.range buffers.length).map Int.ofNat then
    .error "permutation must be a permutation of range(len(buffers))"
  else
    match StaticData.build shuffle buffers capacity alignment with
    | .error message => .error message
    | .ok static =>
        let flags := eligible.getD (List.replicate buffers.length true)
        if flags.length ≠ buffers.length then .error "eligible must have one flag per buffer"
        else .ok (recomputeAllChecked (initial static buffers (permutation.map Int.toNat) flags))

/-- The state that a call leaves before the layout is recomputed, and whether it is. -/
def change (solver : Solver) : Call → Except String (Solver × Bool)
  | .swap i =>
      if i < 0 ∨ i ≥ solver.static.n - 1 then .error "swap index out of range"
      else
        let x := solver.permutation.getD i.toNat 0
        let y := solver.permutation.getD (i.toNat + 1) 0
        if !(solver.eligible x && solver.eligible y) then .ok (solver.swapped i.toNat, false)
        else .ok (solver.swapped i.toNat, solver.static.overlaps x y)
  | .rotate i j =>
      let n : ℤ := solver.static.n
      if i < 0 ∨ i ≥ n ∨ j < 0 ∨ j ≥ n then .error "rotate index out of range"
      else if i = j then .ok (solver, false)
      else .ok (solver.moveInPermutation i.toNat j.toNat,
        solver.eligible (solver.permutation.getD i.toNat 0))
  | .resize idx newSize =>
      if idx < 0 ∨ idx ≥ solver.static.n then .error "resize index out of range"
      else if newSize < 0 then .error "resize size must be non-negative"
      else if solver.sizes idx.toNat = newSize then .ok (solver, false)
      else .ok ({ solver with sizes := Function.update solver.sizes idx.toNat newSize },
        solver.eligible idx.toNat)
  | .setEligible idx flag =>
      if idx < 0 ∨ idx ≥ solver.static.n then .error "set_eligible index out of range"
      else if solver.eligible idx.toNat = flag then .ok (solver, false)
      else .ok ({ solver with eligible := Function.update solver.eligible idx.toNat flag }, true)

def callChecked (solver : Solver) (request : Call) : Except String (Option Solver) :=
  (solver.change request).map fun (changed, recomputes) =>
    if recomputes then changed.recomputeAllChecked else some changed

inductive Outcome
  | rejected
  | overflowed
  | finished (family : List Solver)

/-- A call on a missing solver or one that raises is rejected. -/
def actChecked (family : List Solver) : Action → Outcome
  | .call target request =>
      match family[target]? with
      | none => .rejected
      | some solver =>
          match solver.callChecked request with
          | .error _ => .rejected
          | .ok none => .overflowed
          | .ok (some next) => .finished (family.set target next)
  | .copy target =>
      match family[target]? with
      | none => .rejected
      | some solver => .finished (family ++ [solver])

def runChecked : List Action → List Solver → Outcome
  | [], family => .finished family
  | action :: rest, family =>
      match actChecked family action with
      | .rejected => .rejected
      | .overflowed => .overflowed
      | .finished next => runChecked rest next

/-- The unchecked calls change the same state. -/
theorem call_eq_change (solver : Solver) (request : Call) :
    solver.call request = (solver.change request).map fun (changed, recomputes) =>
      if recomputes then changed.recomputed solver.totalQuality else (0, changed) := by
  cases request with
  | swap i =>
      simp only [call, swap, change]
      split
      · rfl
      · split
        · rfl
        · cases solver.static.overlaps (solver.permutation.getD i.toNat 0)
            (solver.permutation.getD (i.toNat + 1) 0) <;> rfl
  | rotate i j =>
      simp only [call, rotate, change]
      split
      · rfl
      · split
        · rfl
        · cases solver.eligible (solver.permutation.getD i.toNat 0) <;> rfl
  | resize idx newSize =>
      simp only [call, resize, change]
      split
      · rfl
      · split
        · rfl
        · split
          · rfl
          · cases solver.eligible idx.toNat <;> rfl
  | setEligible idx flag =>
      simp only [call, setEligible, change]
      split
      · rfl
      · split <;> rfl

end Solver

end TorchSpyre.Scratchpad.PermLayout
