import Mathlib

/-!
# `compute_coordinates`

An index is a constant plus, for each variable, a sum of multiples of digits of
the variable: the form in which sympy keeps the index once
`convert_modular_indexing` has run.  `ModularIndexing(v, d, m)` and
`Mod(FloorDiv(v, d), m)` are the same digit, with divisor one for `Mod(v, m)`.

The coordinate of a dim is a list of summands.  An infinite bound (`math.inf`,
`sympy.oo`) is `none`.
-/

namespace TorchSpyre.Views

inductive Digit where
  | loop
  | floorDiv (divisor : ℕ)
  | modular (divisor modulus : ℕ)
  deriving DecidableEq

def Digit.eval : Digit → ℤ → ℤ
  | .loop, value => value
  | .floorDiv divisor, value => value / divisor
  | .modular divisor modulus, value => value / divisor % modulus

/-- Digits that sympy does not simplify further. -/
def Digit.Reduced : Digit → Prop
  | .loop => True
  | .floorDiv divisor => 2 ≤ divisor
  | .modular divisor modulus => 1 ≤ divisor ∧ 2 ≤ modulus

instance : DecidablePred Digit.Reduced := fun digit =>
  match digit with
  | .loop => inferInstanceAs (Decidable True)
  | .floorDiv _ => inferInstanceAs (Decidable (_ ≤ _))
  | .modular _ _ => inferInstanceAs (Decidable (_ ∧ _))

structure Addend where
  coeff : ℕ
  digit : Digit
  coeffPos : 0 < coeff := by decide
  reduced : digit.Reduced := by decide
  deriving DecidableEq

/-- The addends of one variable. -/
structure Part where
  var : String
  addends : List Addend
  distinct : (addends.map Addend.digit).Nodup := by decide
  deriving DecidableEq

def Part.eval (part : Part) (value : ℤ) : ℤ :=
  (part.addends.map fun addend => (addend.coeff : ℤ) * addend.digit.eval value).sum

structure Index where
  offset : ℕ
  parts : List Part
  varsDistinct : (parts.map Part.var).Nodup := by decide
  deriving DecidableEq

def Index.eval (index : Index) (env : String → ℤ) : ℤ :=
  index.offset + (index.parts.map fun part => part.eval (env part.var)).sum

structure Dim where
  size : ℕ
  stride : ℤ
  sizePos : 0 < size := by decide
  deriving DecidableEq

inductive Unsupported where
  | multipleMods (var : String) (range : ℕ)
  | runsBackwards (step limit : ℤ)
  | indirectMissing (var : String)
  deriving DecidableEq

/-! ## Repeated and mixed-radix variables -/

inductive RepeatInfo where
  | mod (node : Digit) (modulus : ℕ)
  | mulMod (coeff : ℕ) (node : Digit) (modulus : ℕ)
  | mixedRadix (digits : List Addend)
  deriving DecidableEq

def Digit.isMod : Digit → Bool
  | .modular _ _ => true
  | _ => false

/-- The divisor and modulus of a `Mod` node. -/
def Digit.radix : Digit → ℕ × ℕ
  | .modular divisor modulus => (divisor, modulus)
  | _ => (0, 0)

/-- Each digit starts where the one below it ends, and the last one ends at the
range. -/
def closesChain (range : ℕ) : List Addend → Bool
  | [] => false
  | [last] => last.digit.radix.1 * last.digit.radix.2 = range
  | low :: high :: rest =>
      low.digit.radix.1 * low.digit.radix.2 = high.digit.radix.1 &&
        closesChain range (high :: rest)

def mixedRadixDigits (part : Part) (range : ℕ) : Option (List Addend) :=
  let mods := part.addends.filter fun addend => addend.digit.isMod
  if part.addends.length ≠ mods.length then none
  else
    let digits := mods.insertionSort fun low high => low.digit.radix.1 ≤ high.digit.radix.1
    match digits with
    | [] => none
    | lowest :: _ =>
        if lowest.digit.radix.1 = 1 && closesChain range digits then some digits else none

/-- The entry of `find_repeat_vars` for a variable with a range. -/
def repeatInfo (offset : ℕ) (part : Part) (range : ℕ) : Except Unsupported (Option RepeatInfo) :=
  match part.addends.filter fun addend => addend.digit.isMod with
  | [] => .ok none
  | [node] =>
      let modulus := node.digit.radix.2
      if ¬ modulus < range then .ok none
      -- `term` keeps the constant offset of the index.
      else if offset = 0 ∧ part.addends.length = 1 then
        .ok (some (if node.coeff = 1 then .mod node.digit modulus
          else .mulMod node.coeff node.digit modulus))
      else .ok none
  | _ =>
      match mixedRadixDigits part range with
      | none => .error (.multipleMods part.var range)
      | some digits => .ok (some (.mixedRadix digits))

/-- The error `find_repeat_vars` raises, if it does. -/
def repeatError? (ranges : List (String × ℕ)) (index : Index) : Option Unsupported :=
  ranges.findSome? fun (var, range) =>
    match index.parts.find? fun part => part.var = var with
    | none => none
    | some part =>
        match repeatInfo index.offset part range with
        | .error failure => some failure
        | .ok _ => none

/-! ## Adding a term -/

/-- What a coordinate summand reads: a constant or a digit of a variable. -/
inductive Source where
  | constant (value : ℤ)
  | digit (var : String) (digit : Digit)
  deriving DecidableEq

def Source.eval (env : String → ℤ) : Source → ℤ
  | .constant value => value
  | .digit var node => node.eval (env var)

/-- `source * step % modulus // divisor`, without `%` for no modulus. -/
structure Summand where
  source : Source
  step : ℤ
  modulus : Option ℤ
  divisor : ℤ
  deriving DecidableEq

def reduce (modulus : Option ℤ) (value : ℤ) : ℤ :=
  match modulus with
  | none => value
  | some modulus => value % modulus

def Summand.eval (env : String → ℤ) (summand : Summand) : ℤ :=
  reduce summand.modulus (summand.source.eval env * summand.step) / summand.divisor

abbrev Coordinate := List Summand

def Coordinate.eval (env : String → ℤ) (coordinate : Coordinate) : ℤ :=
  (List.map (Summand.eval env) coordinate).sum

/-- Strict comparison of bounds. -/
def less : Option ℤ → Option ℤ → Bool
  | some first, some second => first < second
  | some _, none => true
  | none, _ => false

/-- The stride immediately larger than the one of the dim. -/
def nextStride (dims : List Dim) (dim : Dim) : Option ℤ :=
  dims.foldl
    (fun next other =>
      if less (some other.stride) next ∧ other.stride > dim.stride ∧ other.size > 1 then
        some other.stride
      else next)
    none

/-- Stride and position of the primary dim, with stride zero for none. -/
def findPrimary (dims : List Dim) (step : ℤ) : ℤ × Option ℕ :=
  dims.zipIdx.foldl
    (fun best (dim, position) =>
      if dim.size = 1 then best
      else if dim.stride ≤ step ∧ dim.stride > best.1 then (dim.stride, some position)
      else best)
    (0, none)

section Term

variable (dims : List Dim) (source : Source) (step : ℤ) (limit : Option ℤ)

def summandFor (dim : Dim) : Summand where
  source := source
  step := step
  modulus := if less (nextStride dims dim) limit then nextStride dims dim else none
  divisor := dim.stride

/-- The summands added to a dim the term's range intersects. -/
def spill (dim : Dim) : Coordinate :=
  if dim.size = 1 then []
  else if dim.stride > step ∧ less (some dim.stride) limit then
    [summandFor dims source step limit dim]
  else []

def addTerm (coordinates : List Coordinate) : Except Unsupported (List Coordinate) :=
  if less limit (some step) then .error (.runsBackwards step (limit.getD 0))
  else
    let spread := List.zipWith (fun dim coordinate => coordinate ++ spill dims source step limit dim)
      dims coordinates
    match findPrimary dims step with
    | (_, none) => .ok spread
    | (_, some position) =>
        match dims[position]? with
        | none => .ok spread
        | some dim =>
            .ok (spread.modify position fun coordinate =>
              coordinate ++ [summandFor dims source step limit dim])

end Term

/-! ## The constant offset -/

/-- Peel the offset from the largest stride down; positions with their digits and
the remainder. -/
def peelOffset (remaining : ℤ) : List (Dim × ℕ) → List (ℕ × ℤ) × ℤ
  | [] => ([], remaining)
  | (dim, position) :: rest =>
      if remaining < dim.stride then peelOffset remaining rest
      else
        let digit := remaining / dim.stride
        let (digits, left) := peelOffset (remaining - digit * dim.stride) rest
        ((position, digit) :: digits, left)

def decomposeConstantOffset (offset : ℤ) (dims : List Dim) (coordinates : List Coordinate) :
    Option (List Coordinate) :=
  let ordered := (dims.zipIdx.filter fun entry => entry.1.size > 1 ∧ entry.1.stride > 0).insertionSort
    fun first second => first.1.stride ≥ second.1.stride
  let (digits, remaining) := peelOffset offset ordered
  if remaining ≠ 0 then none
  else
    some (digits.foldl
      (fun coordinates (position, digit) =>
        coordinates.modify position fun coordinate =>
          coordinate ++ [⟨.constant digit, 1, none, 1⟩])
      coordinates)

def addOffset (dims : List Dim) (offset : ℤ) (coordinates : List Coordinate) :
    Except Unsupported (List Coordinate) :=
  if offset > 0 then
    match decomposeConstantOffset offset dims coordinates with
    | some peeled => .ok peeled
    | none => addTerm dims (.constant offset) 1 none coordinates
  else .ok coordinates

/-! ## The whole computation -/

def lookup (ranges : List (String × ℕ)) (var : String) : Option ℕ :=
  (ranges.find? fun entry => entry.1 = var).map Prod.snd

/-- The addends of digits added one after the other. -/
def addDigits (dims : List Dim) (var : String) :
    List Addend → List Coordinate → Except Unsupported (List Coordinate)
  | [], coordinates => .ok coordinates
  | addend :: rest, coordinates =>
      match addTerm dims (.digit var addend.digit) addend.coeff
          (some (addend.coeff * addend.digit.radix.2)) coordinates with
      | .error failure => .error failure
      | .ok next => addDigits dims var rest next

/-- The terms of a variable with an entry in `repeat_info`. -/
def addRepeat (dims : List Dim) (var : String) (info : RepeatInfo)
    (coordinates : List Coordinate) : Except Unsupported (List Coordinate) :=
  match info with
  | .mod node modulus => addTerm dims (.digit var node) 1 (some modulus) coordinates
  | .mulMod coeff node modulus =>
      addTerm dims (.digit var node) coeff (some (coeff * modulus)) coordinates
  | .mixedRadix digits => addDigits dims var digits coordinates

/-- The term of a variable that is not a repeat. -/
def addPart (dims : List Dim) (part : Part) (range : ℕ) (coordinates : List Coordinate) :
    Except Unsupported (List Coordinate) :=
  let step := part.eval 1
  let limit :=
    if step > 0 ∧ part.addends.map Addend.digit = [.loop] then step * (range - 1) + 1
    else part.eval range
  addTerm dims (.digit part.var .loop) step (some limit) coordinates

/-- The body of the loop over the variables, once the range is known. -/
def addRanged (dims : List Dim) (isLoop : Bool) (offset range : ℕ) (part : Part)
    (coordinates : List Coordinate) : Except Unsupported (List Coordinate) :=
  if range ≤ 1 then .ok coordinates
  else
    match if isLoop then repeatInfo offset part range else .ok none with
    | .error failure => .error failure
    | .ok (some info) => addRepeat dims part.var info coordinates
    | .ok none =>
        if (part.addends.filter fun addend => addend.digit.isMod).length > 1 then
          .error (.multipleMods part.var range)
        else addPart dims part range coordinates

def addVar (dims : List Dim) (ranges : List (String × ℕ)) (indirectSizes : Option (List (String × ℕ)))
    (offset : ℕ) (part : Part) (coordinates : List Coordinate) :
    Except Unsupported (List Coordinate) :=
  match lookup ranges part.var with
  | some range => addRanged dims true offset range part coordinates
  | none =>
      match indirectSizes with
      | none => .ok coordinates
      | some sizes =>
          match lookup sizes part.var with
          | some range => addRanged dims false offset range part coordinates
          | none => .error (.indirectMissing part.var)

def addVars (dims : List Dim) (ranges : List (String × ℕ))
    (indirectSizes : Option (List (String × ℕ))) (offset : ℕ) :
    List Part → List Coordinate → Except Unsupported (List Coordinate)
  | [], coordinates => .ok coordinates
  | part :: rest, coordinates =>
      match addVar dims ranges indirectSizes offset part coordinates with
      | .error failure => .error failure
      | .ok next => addVars dims ranges indirectSizes offset rest next

def computeCoordinates (dims : List Dim) (ranges : List (String × ℕ)) (index : Index)
    (indirectSizes : Option (List (String × ℕ))) : Except Unsupported (List Coordinate) :=
  match repeatError? ranges index with
  | some failure => .error failure
  | none =>
      match addOffset dims index.offset (dims.map fun _ => []) with
      | .error failure => .error failure
      | .ok coordinates => addVars dims ranges indirectSizes index.offset index.parts coordinates

end TorchSpyre.Views
