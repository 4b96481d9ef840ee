import TorchSpyre.Lib.Symbolic

/-!
# `Term.from_coordinate`
-/

namespace TorchSpyre.Views

open Lib.Symbolic

/-- A term `num * (var % mod) // den` in a coordinate expression. -/
structure Term where
  num : ℤ
  den : ℕ
  var : Symbol
  mod : ℕ
  dimSize : ℕ
  deriving DecidableEq

inductive TermError where
  | unsupported (term : Expr)
  | nonUnitFraction (term : Expr)
  /-- A product of more than two factors cannot be unpacked: `ValueError`. -/
  | unpack
  /-- The first factor of the product is not a number: `AttributeError`. -/
  | noNumerator
  deriving DecidableEq

/-- The rational coefficient of a product, and the other factor. -/
def splitCoefficient (term : Expr) : Except TermError (ℚ × Expr) :=
  match term with
  | .mul _ _ =>
      match term.factors with
      | [.const coefficient, body] =>
          if coefficient.num = 1 ∨ coefficient.den = 1 then .ok (coefficient, body)
          else .error (.nonUnitFraction term)
      | [_, _] => .error .noNumerator
      | _ => .error .unpack
  | _ => .ok (1, term)

/-- The divisor of the digit and the modulus before the division. -/
def digitBounds (body : Expr) (var : Symbol) (varRange : ℕ) : Except TermError (ℕ × ℕ) :=
  match body with
  | .sym name => if name = var then .ok (1, varRange) else .error (.unsupported body)
  | .floorDiv (.sym name) divisor =>
      if name = var then .ok (divisor, varRange) else .error (.unsupported body)
  | .mod (.sym name) radix => if name = var then .ok (1, radix) else .error (.unsupported body)
  | .mod (.floorDiv (.sym name) divisor) radix =>
      if name = var then .ok (divisor, divisor * radix) else .error (.unsupported body)
  | _ => .error (.unsupported body)

def Term.fromCoordinate (term : Expr) (var : Symbol) (varRange dimSize : ℕ) :
    Except TermError Term := do
  let (coefficient, body) ← splitCoefficient term
  let (divisor, modulus) ← digitBounds body var varRange
  return {
    num := coefficient.num
    den := coefficient.den * divisor
    var := var
    mod := modulus
    dimSize := dimSize }

end TorchSpyre.Views
