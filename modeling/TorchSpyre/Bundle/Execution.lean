import TorchSpyre.Bundle.Emit

/-!
# Running a bundle

A call runs the program in its file with an address for each symbol it names.
-/

namespace TorchSpyre.Bundle

open Lib

/-- What the caller passes. -/
structure Arguments where
  arg : ℤ → ℤ
  shard : ℤ → ℕ → ℤ
  dimension : String → ℤ
  pool : ℤ

abbrev Env := SsaName → Option ℤ

def Definition.value (arguments : Arguments) (env : Env) : Definition → Option ℤ
  | .argExtract argIndex => some (arguments.arg argIndex)
  | .shardExtract argIndex coreIdx => some (arguments.shard argIndex coreIdx)
  | .dimensionExtract pytorchSym => some (arguments.dimension pytorchSym)
  | .constant value => some value
  | .addi base offset => (env base).map (· + offset)
  | .poolAddi offset => some (arguments.pool + offset)

/-- One call: the values of the loop variables around it, the program and the address of each symbol. -/
structure Execution (Body DebugHandle : Type) where
  iteration : List (ℕ × ℕ)
  program : Option (SdscJson Body DebugHandle)
  bindings : List (ℤ × Option ℤ)
  deriving DecidableEq

variable {Body DebugHandle : Type}

namespace SdscBundle

variable (bundle : SdscBundle Body DebugHandle) (arguments : Arguments)

def declared : Env :=
  bundle.declarations.foldl (fun env declaration =>
    Function.update env declaration.1 (declaration.2.value arguments env)) fun _ => none

/-- `s0 + Σ stride * d` -/
def affineValue (apply : AffineApply) (iteration : List (ℕ × ℕ)) (base : ℤ) : ℤ :=
  base + (List.zipWith (fun (stride : ℤ) loopVar => stride * (((iteration.lookup loopVar).getD 0 : ℕ) : ℤ))
    ((bundle.affineMaps[apply.map]?).getD []) apply.loopVars).sum

mutual

/-- A name that a loop's body defines is gone behind the loop. -/
def runStatement : StatementTree → List (ℕ × ℕ) → Env → List (Execution Body DebugHandle) × Env
  | .leaf (.affineApply apply), iteration, env =>
      ([], Function.update env (.addr apply.result)
        ((env apply.base).map (bundle.affineValue apply iteration)))
  | .leaf (.sdscExecute operands sdscFile symbolIds), iteration, env =>
      ([⟨iteration, bundle.files.lookup sdscFile, symbolIds.zip (operands.map env)⟩], env)
  | .node loop body, iteration, env =>
      ((List.range ((bundle.loopBounds[loop]?).getD 0)).flatMap fun value =>
        run body (iteration ++ [(loop, value)]) env, env)

def run : List StatementTree → List (ℕ × ℕ) → Env → List (Execution Body DebugHandle)
  | [], _, _ => []
  | statement :: rest, iteration, env =>
      let first := runStatement statement iteration env
      first.1 ++ run rest iteration first.2

end

def executions : List (Execution Body DebugHandle) := bundle.run bundle.body [] (bundle.declared arguments)

end SdscBundle

end TorchSpyre.Bundle
