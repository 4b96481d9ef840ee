import Mathlib

/-!
# Integer index expressions

The expressions SymPy builds for an index: rational constants, symbols standing
for natural numbers, sums, products, floors, floor divisions and remainders.
Divisors and moduli are positive constants, so an expression has a value at
every point.

Only the structure of an expression is computed here.  What SymPy's rewriting
does to it is a parameter, `Sympy`, of which no more is known than that it keeps
the value of the expression.
-/

namespace Lib.Symbolic

abbrev Symbol := String

/-- The values of the symbols. -/
abbrev Point := Symbol → ℕ

inductive Expr where
  | const (value : ℚ)
  | sym (name : Symbol)
  | add (left right : Expr)
  | mul (left right : Expr)
  | floor (arg : Expr)
  | floorDiv (arg : Expr) (divisor : ℕ+)
  | mod (arg : Expr) (modulus : ℕ+)
  deriving DecidableEq

namespace Expr

def eval (point : Point) : Expr → ℚ
  | const value => value
  | sym name => point name
  | add left right => left.eval point + right.eval point
  | mul left right => left.eval point * right.eval point
  | floor arg => (⌊arg.eval point⌋ : ℤ)
  | floorDiv arg divisor => (⌊arg.eval point / (divisor : ℕ)⌋ : ℤ)
  | mod arg modulus =>
      arg.eval point - (modulus : ℕ) * (⌊arg.eval point / (modulus : ℕ)⌋ : ℤ)

def sub (left right : Expr) : Expr := left.add (mul (const (-1)) right)

@[simp]
theorem eval_sub (left right : Expr) (point : Point) :
    (left.sub right).eval point = left.eval point - right.eval point := by
  simp only [sub, eval]
  ring

def sum (terms : List Expr) : Expr := terms.foldr add (const 0)

@[simp]
theorem eval_sum (terms : List Expr) (point : Point) :
    (sum terms).eval point = (terms.map (eval point)).sum := by
  unfold sum
  induction terms with
  | nil => rfl
  | cons term terms inductionHypothesis =>
      simp [eval, inductionHypothesis]

/-! ## Structure -/

def occurrences : Expr → List Symbol
  | const _ => []
  | sym name => [name]
  | add left right => left.occurrences ++ right.occurrences
  | mul left right => left.occurrences ++ right.occurrences
  | floor arg => arg.occurrences
  | floorDiv arg _ => arg.occurrences
  | mod arg _ => arg.occurrences

def freeSymbols (expr : Expr) : List Symbol := expr.occurrences.dedup

theorem mem_freeSymbols {expr : Expr} {name : Symbol} :
    name ∈ expr.freeSymbols ↔ name ∈ expr.occurrences :=
  List.mem_dedup

/-- `atoms(floor)` -/
def floors : Expr → List Expr
  | const _ => []
  | sym _ => []
  | add left right => left.floors ++ right.floors
  | mul left right => left.floors ++ right.floors
  | floor arg => floor arg :: arg.floors
  | floorDiv arg _ => arg.floors
  | mod arg _ => arg.floors

/-- `Add.make_args` -/
def addends : Expr → List Expr
  | add left right => left.addends ++ right.addends
  | expr => [expr]

/-- `Mul.make_args` -/
def factors : Expr → List Expr
  | mul left right => left.factors ++ right.factors
  | expr => [expr]

def asCoeffMul : Expr → ℚ × Expr
  | mul (const coefficient) rest => (coefficient, rest)
  | const coefficient => (coefficient, const 1)
  | expr => (1, expr)

/-- The value of an expression that `is_Integer`. -/
def asInteger : Expr → Option ℤ
  | const value => if value.den = 1 then some value.num else none
  | _ => none

/-- `subs` and `xreplace` of symbols, before SymPy evaluates the result. -/
def subst (replacement : Symbol → Expr) : Expr → Expr
  | const value => const value
  | sym name => replacement name
  | add left right => add (left.subst replacement) (right.subst replacement)
  | mul left right => mul (left.subst replacement) (right.subst replacement)
  | floor arg => floor (arg.subst replacement)
  | floorDiv arg divisor => floorDiv (arg.subst replacement) divisor
  | mod arg modulus => mod (arg.subst replacement) modulus

/-- Replace one symbol. -/
def replaceSymbol (expr : Expr) (name : Symbol) (value : Expr) : Expr :=
  expr.subst fun other => if other = name then value else sym other

/-- `replace(floor, lambda x: x)` -/
def stripFloors : Expr → Expr
  | const value => const value
  | sym name => sym name
  | add left right => add left.stripFloors right.stripFloors
  | mul left right => mul left.stripFloors right.stripFloors
  | floor arg => arg.stripFloors
  | floorDiv arg divisor => floorDiv arg.stripFloors divisor
  | mod arg modulus => mod arg.stripFloors modulus

/-- `replace(FloorDiv, lambda a, b: floor(a / b))` -/
def spellFloorDiv : Expr → Expr
  | const value => const value
  | sym name => sym name
  | add left right => add left.spellFloorDiv right.spellFloorDiv
  | mul left right => mul left.spellFloorDiv right.spellFloorDiv
  | floor arg => floor arg.spellFloorDiv
  | floorDiv arg divisor => floor (mul (const (1 / (divisor : ℕ))) arg.spellFloorDiv)
  | mod arg modulus => mod arg.spellFloorDiv modulus

/-- `xreplace({Mod(name, modulus): name})` -/
def dropMod (name : Symbol) (modulus : ℕ) : Expr → Expr
  | const value => const value
  | sym other => sym other
  | add left right => add (left.dropMod name modulus) (right.dropMod name modulus)
  | mul left right => mul (left.dropMod name modulus) (right.dropMod name modulus)
  | floor arg => floor (arg.dropMod name modulus)
  | floorDiv arg divisor => floorDiv (arg.dropMod name modulus) divisor
  | mod arg other =>
      if arg = sym name ∧ (other : ℕ) = modulus then sym name
      else mod (arg.dropMod name modulus) other

/-! ## What the structure says about the value -/

theorem eval_of_asInteger {expr : Expr} {value : ℤ} (integer : expr.asInteger = some value)
    (point : Point) : expr.eval point = value := by
  cases expr with
  | const number =>
      simp only [asInteger, Option.ite_none_right_eq_some, Option.some.injEq] at integer
      obtain ⟨denominator, rfl⟩ := integer
      exact (Rat.coe_int_num_of_den_eq_one denominator).symm
  | _ => cases integer

theorem eval_asCoeffMul (term : Expr) (point : Point) :
    term.eval point = term.asCoeffMul.1 * term.asCoeffMul.2.eval point := by
  unfold asCoeffMul
  split <;> simp [eval]

theorem eval_addends (expr : Expr) (point : Point) :
    (expr.addends.map (eval point)).sum = expr.eval point := by
  induction expr with
  | add left right leftHypothesis rightHypothesis =>
      simp only [addends, List.map_append, List.sum_append, leftHypothesis, rightHypothesis, eval]
  | _ => simp [addends]

theorem exists_addend {expr : Expr} {name : Symbol} (found : name ∈ expr.occurrences) :
    ∃ addend ∈ expr.addends, name ∈ addend.occurrences := by
  induction expr with
  | add left right leftHypothesis rightHypothesis =>
      rcases List.mem_append.mp found with inLeft | inRight
      · obtain ⟨addend, listed, inside⟩ := leftHypothesis inLeft
        exact ⟨addend, List.mem_append_left _ listed, inside⟩
      · obtain ⟨addend, listed, inside⟩ := rightHypothesis inRight
        exact ⟨addend, List.mem_append_right _ listed, inside⟩
  | _ => exact ⟨_, List.mem_singleton_self _, found⟩

theorem eval_congr {expr : Expr} {first second : Point}
    (agree : ∀ name ∈ expr.freeSymbols, first name = second name) :
    expr.eval first = expr.eval second := by
  simp only [mem_freeSymbols] at agree
  induction expr with
  | const value => rfl
  | sym name =>
      simp only [eval]
      rw [agree name (by simp [occurrences])]
  | add left right leftHypothesis rightHypothesis =>
      simp only [occurrences, List.mem_append] at agree
      simp only [eval]
      rw [leftHypothesis fun name found => agree name (Or.inl found),
        rightHypothesis fun name found => agree name (Or.inr found)]
  | mul left right leftHypothesis rightHypothesis =>
      simp only [occurrences, List.mem_append] at agree
      simp only [eval]
      rw [leftHypothesis fun name found => agree name (Or.inl found),
        rightHypothesis fun name found => agree name (Or.inr found)]
  | floor arg inductionHypothesis => simp only [eval, inductionHypothesis agree]
  | floorDiv arg divisor inductionHypothesis => simp only [eval, inductionHypothesis agree]
  | mod arg modulus inductionHypothesis => simp only [eval, inductionHypothesis agree]

theorem eval_subst {expr : Expr} {replacement : Symbol → Expr} {point replaced : Point}
    (agree : ∀ name, (replacement name).eval point = replaced name) :
    (expr.subst replacement).eval point = expr.eval replaced := by
  induction expr with
  | const value => rfl
  | sym name => exact agree name
  | add left right leftHypothesis rightHypothesis =>
      simp only [subst, eval, leftHypothesis, rightHypothesis]
  | mul left right leftHypothesis rightHypothesis =>
      simp only [subst, eval, leftHypothesis, rightHypothesis]
  | floor arg inductionHypothesis => simp only [subst, eval, inductionHypothesis]
  | floorDiv arg divisor inductionHypothesis => simp only [subst, eval, inductionHypothesis]
  | mod arg modulus inductionHypothesis => simp only [subst, eval, inductionHypothesis]

theorem eval_replaceSymbol_of_nat {value : Expr} {point : Point} {number : ℕ}
    (natural : value.eval point = number) (expr : Expr) (name : Symbol) :
    (expr.replaceSymbol name value).eval point = expr.eval (Function.update point name number) := by
  unfold replaceSymbol
  apply eval_subst
  intro candidate
  by_cases same : candidate = name
  · subst same
    simp [natural]
  · simp [same, eval]

theorem eval_replaceSymbol (expr : Expr) (name other : Symbol) (point : Point) :
    (expr.replaceSymbol name (sym other)).eval point =
      expr.eval (Function.update point name (point other)) :=
  eval_replaceSymbol_of_nat rfl expr name

theorem mem_freeSymbols_replaceSymbol {expr value : Expr} {name other : Symbol}
    (found : other ∈ (expr.replaceSymbol name value).freeSymbols) :
    other ∈ expr.freeSymbols ∧ other ≠ name ∨ other ∈ value.freeSymbols := by
  simp only [mem_freeSymbols] at found ⊢
  unfold replaceSymbol at found
  induction expr with
  | const number => cases found
  | sym candidate =>
      rw [subst] at found
      split at found
      next => exact .inr found
      next different =>
        rw [occurrences, List.mem_singleton] at found
        subst found
        exact .inl ⟨List.mem_singleton_self _, different⟩
  | add left right leftHypothesis rightHypothesis =>
      simp only [subst, occurrences, List.mem_append] at found ⊢
      rcases found with inLeft | inRight
      · exact (leftHypothesis inLeft).imp_left (And.imp_left Or.inl)
      · exact (rightHypothesis inRight).imp_left (And.imp_left Or.inr)
  | mul left right leftHypothesis rightHypothesis =>
      simp only [subst, occurrences, List.mem_append] at found ⊢
      rcases found with inLeft | inRight
      · exact (leftHypothesis inLeft).imp_left (And.imp_left Or.inl)
      · exact (rightHypothesis inRight).imp_left (And.imp_left Or.inr)
  | floor arg inductionHypothesis => exact inductionHypothesis found
  | floorDiv arg divisor inductionHypothesis => exact inductionHypothesis found
  | mod arg modulus inductionHypothesis => exact inductionHypothesis found

@[simp]
theorem eval_spellFloorDiv (expr : Expr) (point : Point) :
    expr.spellFloorDiv.eval point = expr.eval point := by
  induction expr with
  | const value => rfl
  | sym name => rfl
  | add left right leftHypothesis rightHypothesis =>
      simp only [spellFloorDiv, eval, leftHypothesis, rightHypothesis]
  | mul left right leftHypothesis rightHypothesis =>
      simp only [spellFloorDiv, eval, leftHypothesis, rightHypothesis]
  | floor arg inductionHypothesis => simp only [spellFloorDiv, eval, inductionHypothesis]
  | floorDiv arg divisor inductionHypothesis =>
      simp only [spellFloorDiv, eval, inductionHypothesis, one_div_mul_eq_div]
  | mod arg modulus inductionHypothesis => simp only [spellFloorDiv, eval, inductionHypothesis]

theorem eval_dropMod {expr : Expr} {name : Symbol} {modulus : ℕ} {point : Point}
    (below : point name < modulus) : (expr.dropMod name modulus).eval point = expr.eval point := by
  induction expr with
  | const value => rfl
  | sym other => rfl
  | add left right leftHypothesis rightHypothesis =>
      simp only [dropMod, eval, leftHypothesis, rightHypothesis]
  | mul left right leftHypothesis rightHypothesis =>
      simp only [dropMod, eval, leftHypothesis, rightHypothesis]
  | floor arg inductionHypothesis => simp only [dropMod, eval, inductionHypothesis]
  | floorDiv arg divisor inductionHypothesis => simp only [dropMod, eval, inductionHypothesis]
  | mod arg other inductionHypothesis =>
      simp only [dropMod]
      split
      next found =>
        obtain ⟨rfl, rfl⟩ := found
        have small : ⌊(point name : ℚ) / (other : ℕ)⌋ = 0 := by
          rw [Rat.floor_natCast_div_natCast]
          exact Int.ediv_eq_zero_of_lt (Int.natCast_nonneg _) (Int.ofNat_lt.mpr below)
        simp [eval, small]
      next => simp only [eval, inductionHypothesis]

/-! ## Natural values -/

theorem eval_mod_of_nat {expr : Expr} {point : Point} {value : ℕ} (modulus : ℕ+)
    (natural : expr.eval point = value) : (mod expr modulus).eval point = (value % modulus : ℕ) := by
  have floored : ⌊(value : ℚ) / (modulus : ℕ)⌋ = ((value / modulus : ℕ) : ℤ) := by
    rw [Rat.floor_natCast_div_natCast, Int.natCast_ediv]
  simp only [eval, natural, floored]
  rw [sub_eq_iff_eq_add, Int.cast_natCast, ← Nat.cast_mul, ← Nat.cast_add, Nat.mod_add_div]

theorem eval_floor_quotient {expr : Expr} {point : Point} {value : ℕ} (divisor : ℕ)
    (natural : expr.eval point = value) :
    (floor (mul (const (1 / divisor)) expr)).eval point = (value / divisor : ℕ) := by
  simp only [eval, natural, one_div_mul_eq_div, Rat.floor_natCast_div_natCast]
  norm_cast

/-- The value of an expression in one symbol, where it is an integer. -/
def integerAt (name : Symbol) (expr : Expr) (value : ℕ) : Option ℤ :=
  if ∀ other ∈ expr.freeSymbols, other = name then
    if (expr.eval fun _ => value).den = 1 then some (expr.eval fun _ => value).num else none
  else none

theorem eval_of_integerAt {name : Symbol} {expr : Expr} {value : ℕ} {result : ℤ}
    (found : integerAt name expr value = some result) {point : Point} (bound : point name = value) :
    expr.eval point = result := by
  unfold integerAt at found
  split_ifs at found with only integral
  cases found
  have same : expr.eval point = expr.eval fun _ => value := by
    apply eval_congr
    intro other free
    rw [only other free, bound]
  exact same.trans (Rat.coe_int_num_of_den_eq_one integral).symm

/-- The value of an expression in one symbol, where it is known to be a natural number. -/
theorem integerAt_of_nat {name : Symbol} {expr : Expr} {value result : ℕ}
    (only : ∀ other ∈ expr.freeSymbols, other = name)
    (natural : expr.eval (fun _ => value) = result) :
    integerAt name expr value = some (result : ℤ) := by
  have whole : (expr.eval fun _ => value).den = 1 := by rw [natural, Rat.den_natCast]
  rw [integerAt, if_pos only, if_pos whole, natural, Rat.num_natCast]

end Expr

/-- What is used of SymPy. -/
structure Sympy where
  /-- The evaluation SymPy performs whenever it builds an expression. -/
  auto : Expr → Expr
  expand : Expr → Expr
  simplify : Expr → Expr
  together : Expr → Expr
  asNumerDenom : Expr → Expr × Expr
  coeff : Expr → Symbol → Expr
  auto_eval : ∀ expr point, (auto expr).eval point = expr.eval point
  expand_eval : ∀ expr point, (expand expr).eval point = expr.eval point
  simplify_eval : ∀ expr point, (simplify expr).eval point = expr.eval point
  together_eval : ∀ expr point, (together expr).eval point = expr.eval point
  asNumerDenom_eval : ∀ expr point,
    (asNumerDenom expr).1.eval point = expr.eval point * (asNumerDenom expr).2.eval point

end Lib.Symbolic
