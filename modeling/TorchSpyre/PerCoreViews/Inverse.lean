import TorchSpyre.Lib.Cartesian
import TorchSpyre.PerCoreViews.Forward

/-!
# `invert_per_core_view`

A division of the loops that slices a buffer as a given view does.  The loops that slice the
buffer are placed on the dimensions of the view; the loops that the view does not show are
enumerated; every candidate is confirmed by the forward map.
-/

namespace TorchSpyre.PerCoreViews

open Lib Lib.Symbolic Ownership

/-- The legal split factors of the loops. -/
structure FactorDomains where
  factors : Dict Symbol (List ℕ)
  positive : ∀ sym legal, factors.lookup sym = some legal → ∀ factor ∈ legal, 0 < factor

def FactorDomains.legal (domains : FactorDomains) (sym : Symbol) : List ℕ :=
  (domains.factors.lookup sym).getD []

theorem FactorDomains.legal_pos (domains : FactorDomains) {sym : Symbol} {factor : ℕ}
    (listed : factor ∈ domains.legal sym) : 0 < factor := by
  rw [legal] at listed
  cases found : domains.factors.lookup sym with
  | none =>
      rw [found] at listed
      cases listed
  | some legal =>
      rw [found, Option.getD_some] at listed
      exact domains.positive sym legal found factor listed

/-- `_view_placement`: the dimension and the multiplier of a loop at a host stride. -/
def viewPlacement (prep : ViewPrep) (stride : ℤ) : Option (ℕ × ℕ) :=
  match prep.directDim stride with
  | some dim => some (dim, 1)
  | none =>
      if 0 < prep.numStickStride ∧ stride % prep.numStickStride = 0 then
        match prep.numStickDim with
        | none => none
        | some dim =>
            let multiplier := stride / prep.numStickStride
            if 1 < multiplier then some (dim, multiplier.toNat) else none
      else none

/-- A loop that can serve a dimension, with the split that it needs. -/
structure Serving where
  stride : ℤ
  sym : Symbol
  split : ℕ
  deriving DecidableEq

/-- The order of `(stride, name)`. -/
def Serving.before (first second : Serving) : Prop :=
  first.stride < second.stride ∨ first.stride = second.stride ∧ first.sym ≤ second.sym

instance : DecidableRel Serving.before :=
  fun _ _ => inferInstanceAs (Decidable (_ ∨ _))

section Candidates

variable (prep : ViewPrep) (domains : FactorDomains) (want : List (ℕ × ℕ))

/-- The dimension that a loop can serve. -/
def serving? (sym : Symbol) : Option (ℕ × Serving) :=
  let stride := prep.hostStride sym
  if stride = 0 then none
  else
    match viewPlacement prep stride with
    | none => none
    | some (dim, multiplier) =>
        match want.lookup dim with
        | none => none
        | some factor =>
            if factor % multiplier ≠ 0 then none
            else if factor / multiplier ∈ domains.legal sym then
              some (dim, ⟨stride, sym, factor / multiplier⟩)
            else none

def optionsOf (dim : ℕ) : List Serving :=
  (((prep.iterSpace.keys.filterMap (serving? prep domains want)).filter fun entry =>
    entry.1 = dim).map Prod.snd).insertionSort Serving.before

/-- The loops that a view does not show: without a stride on the buffer, or at the stride of a
placed loop. -/
def hiddenBehind (choice : List Serving) : List Symbol :=
  let placed := choice.map Serving.sym
  prep.iterSpace.keys.filter fun sym =>
    sym ∉ placed ∧ (prep.hostStride sym = 0 ∨ prep.hostStride sym ∈ placed.map prep.hostStride)

def hiddenDomain (sym : Symbol) : List ℕ := (1 :: domains.legal sym).dedup.insertionSort (· ≤ ·)

/-- The divisions of one choice of loops. -/
def candidatesOf (choice : List Serving) : List (Dict Symbol ℕ) :=
  if ¬(choice.map Serving.sym).Nodup then []
  else
    let hidden := hiddenBehind prep choice
    let placed := (prep.iterSpace.fromKeys 1).update
      (choice.map fun serving => (serving.sym, serving.split))
    (cartesian (hidden.map (hiddenDomain domains))).map fun combo => placed.update (hidden.zip combo)

def candidates (target : PerCoreView) : List (Dict Symbol ℕ) :=
  let dims := (target.workSliceDims.map Prod.fst).insertionSort (· ≤ ·)
  ((cartesian (dims.map (optionsOf prep domains target.workSliceDims))).flatMap
    (candidatesOf prep domains)).filter fun candidate =>
      target.numCores.all fun numCores => candidate.values.prod = numCores

end Candidates

section Search

variable (config : ViewConfig) (sympy : Sympy) (concretize : Expr → ℕ) (prep : ViewPrep)
  (target : PerCoreView) (accept : Dict Symbol ℕ → Bool) (maxProbes : Option ℕ)

/-- The first candidate that is accepted and has the target's view; a search beyond the limit on
probes gives up. -/
def firstMatch (probes : ℕ) :
    List (Dict Symbol ℕ) → Except OwnershipError (Option (Dict Symbol ℕ))
  | [] => .ok none
  | candidate :: rest =>
      if maxProbes.any (· < probes + 1) then .ok none
      else if !accept candidate then firstMatch (probes + 1) rest
      else do
        let (view, _, representable) ←
          perCoreViewFromPrep config sympy concretize (some prep) candidate Dict.empty none
        if representable && samePartition view target then return some candidate
        else firstMatch (probes + 1) rest

end Search

/-- The division, or `none` where the buffer cannot be read that way. -/
def invertPerCoreView (config : ViewConfig) (sympy : Sympy) (concretize : Expr → ℕ)
    (prep : Option ViewPrep) (target : PerCoreView) (domains : FactorDomains)
    (accept : Dict Symbol ℕ → Bool) (maxProbes : Option ℕ) :
    Except OwnershipError (Option (Dict Symbol ℕ)) :=
  match prep with
  | none => .ok none
  | some prep =>
      if ∃ dim ∈ target.workSliceDims.map Prod.fst,
          optionsOf prep domains target.workSliceDims dim = [] then .ok none
      else
        firstMatch config sympy concretize prep target accept maxProbes 0
          (candidates prep domains target)

end TorchSpyre.PerCoreViews
