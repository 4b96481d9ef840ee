import Mathlib

/-!
# Expressions with minima and cases

Expressions as SymPy keeps them: a node has a function and a list of arguments.  Symbols stand
for natural numbers and numbers for themselves, so values are real numbers and truth values; an
expression need not have one.  A number with a precision is not the exact number of its value.

What SymPy makes of a node when it is built is a parameter, `Sympy`, of which no more is known
than that it keeps the value and nests no more minima and cases in one another.
-/

namespace Lib.CaseExpr

inductive Sign where
  | unknown
  | nonnegative
  | positive
  deriving DecidableEq

/-- A symbol is its name and what is assumed of it. -/
structure Symbol where
  name : String
  isInteger : Bool
  sign : Sign
  deriving DecidableEq

/-- `sympy.Number`: exact, or a `Float` of some precision.  Numbers of one value are equal only in
one form. -/
structure Number where
  value : ℚ
  precision : Option ℕ
  deriving DecidableEq

def Number.exact (value : ℚ) : Number := ⟨value, none⟩

inductive RelOp where
  | eq | ne | ge | gt | le | lt
  deriving DecidableEq

inductive Func where
  | add | mul | pow | log | min | max | piecewise
  /-- A value and its condition, in a `piecewise`. -/
  | pair
  | rel (op : RelOp)
  | and | or | not
  | fn (name : String)
  deriving DecidableEq

inductive Expr where
  | num (number : Number)
  | boolean (value : Bool)
  | sym (symbol : Symbol)
  | node (func : Func) (args : List Expr)

namespace Expr

mutual

def decEq : (left right : Expr) → Decidable (left = right)
  | num number, num number' => decidable_of_iff (number = number') (by simp)
  | boolean value, boolean value' => decidable_of_iff (value = value') (by simp)
  | sym symbol, sym symbol' => decidable_of_iff (symbol = symbol') (by simp)
  | node func args, node func' args' =>
      have := decEqAll args args'
      decidable_of_iff (func = func' ∧ args = args') (by simp)
  | num _, boolean _ | num _, sym _ | num _, node _ _ => isFalse (by simp)
  | boolean _, num _ | boolean _, sym _ | boolean _, node _ _ => isFalse (by simp)
  | sym _, num _ | sym _, boolean _ | sym _, node _ _ => isFalse (by simp)
  | node _ _, num _ | node _ _, boolean _ | node _ _, sym _ => isFalse (by simp)

def decEqAll : (left right : List Expr) → Decidable (left = right)
  | [], [] => isTrue rfl
  | [], _ :: _ => isFalse (by simp)
  | _ :: _, [] => isFalse (by simp)
  | head :: tail, head' :: tail' =>
      have := decEq head head'
      have := decEqAll tail tail'
      decidable_of_iff (head = head' ∧ tail = tail') (by simp)

end

instance : DecidableEq Expr := decEq

/-- Induction over an expression, with the hypothesis for every argument. -/
theorem induction {motive : Expr → Prop} (num : ∀ number, motive (num number))
    (boolean : ∀ value, motive (boolean value)) (sym : ∀ symbol, motive (sym symbol))
    (node : ∀ func args, (∀ arg ∈ args, motive arg) → motive (node func args)) :
    ∀ expr, motive expr
  | .num number => num number
  | .boolean value => boolean value
  | .sym symbol => sym symbol
  | .node func args => node func args fun arg _ => induction num boolean sym node arg

end Expr

open Expr

/-! ## Values -/

inductive Value where
  | number (value : ℝ)
  | truth (value : Bool)
  /-- A branch of a `piecewise`, whose value may be undefined. -/
  | branch (value : Option ℝ) (taken : Bool)

def Value.asNumber : Value → Option ℝ
  | number value => some value
  | _ => none

def Value.asTruth : Value → Option Bool
  | truth value => some value
  | _ => none

def Value.asBranch : Value → Option (Option ℝ × Bool)
  | branch value taken => some (value, taken)
  | _ => none

noncomputable section

/-- A power is defined for integer exponents, but not of zero for a negative one, and for
positive bases. -/
def power (base exponent : ℝ) : Option ℝ :=
  if exponent = ⌊exponent⌋ then
    if base = 0 ∧ ⌊exponent⌋ < 0 then none else some (base ^ ⌊exponent⌋)
  else if 0 < base then some (base ^ exponent) else none

def RelOp.holds : RelOp → ℝ → ℝ → Prop
  | eq, left, right => left = right
  | ne, left, right => left ≠ right
  | ge, left, right => right ≤ left
  | gt, left, right => right < left
  | le, left, right => left ≤ right
  | lt, left, right => left < right

/-- The value of the first branch that is taken. -/
def firstTaken : List (Option ℝ × Bool) → Option ℝ
  | [] => none
  | (value, true) :: _ => value
  | (_, false) :: rest => firstTaken rest

/-- Functions of numbers. -/
def arithmetic (others : String → List ℝ → Option ℝ) : Func → List ℝ → Option Value
  | .add, values => some (.number values.sum)
  | .mul, values => some (.number values.prod)
  | .pow, [base, exponent] => (power base exponent).map .number
  | .log, [value] => if 0 < value then some (.number (Real.log value)) else none
  | .min, value :: values => some (.number (values.foldl min value))
  | .max, value :: values => some (.number (values.foldl max value))
  | .rel op, [left, right] =>
      open Classical in some (.truth (decide (op.holds left right)))
  | .fn name, values => (others name values).map .number
  | _, _ => none

def connective : Func → List Bool → Option Value
  | .and, values => some (.truth (values.all id))
  | .or, values => some (.truth (values.any id))
  | .not, [value] => some (.truth !value)
  | _, _ => none

/-- A branch that is not taken need not have a value. -/
def pairOf : List (Option Value) → Option Value
  | [value, some (.truth taken)] => some (.branch (value.bind Value.asNumber) taken)
  | _ => none

/-- The values of all arguments, when each has one of the kind that is read. -/
def readAll {Part : Type} (read : Value → Option Part) (values : List (Option Value)) :
    Option (List Part) :=
  values.mapM fun value : Option Value => value.bind read

def apply (others : String → List ℝ → Option ℝ) (func : Func) (values : List (Option Value)) :
    Option Value :=
  match func with
  | .pair => pairOf values
  | .piecewise => (readAll Value.asBranch values).bind fun branches => (firstTaken branches).map .number
  | .and | .or | .not => (readAll Value.asTruth values).bind (connective func)
  | _ => (readAll Value.asNumber values).bind (arithmetic others func)

/-- What an expression is evaluated at: the values of the symbols and the other functions. -/
structure Point where
  value : Symbol → ℕ
  positive : ∀ symbol, symbol.sign = .positive → 0 < value symbol
  others : String → List ℝ → Option ℝ

mutual

def eval (point : Point) : Expr → Option Value
  | num number => some (.number number.value)
  | boolean value => some (.truth value)
  | sym symbol => some (.number (point.value symbol))
  | node func args => apply point.others func (evalAll point args)

def evalAll (point : Point) : List Expr → List (Option Value)
  | [] => []
  | arg :: args => eval point arg :: evalAll point args

end

end

theorem evalAll_eq_map (point : Point) (args : List Expr) :
    evalAll point args = args.map (eval point) := by
  induction args with
  | nil => rfl
  | cons arg args inductionHypothesis => rw [evalAll, inductionHypothesis, List.map_cons]

@[simp]
theorem eval_num (point : Point) (number : Number) :
    eval point (num number) = some (.number number.value) := by
  rw [eval]

@[simp]
theorem eval_boolean (point : Point) (value : Bool) :
    eval point (boolean value) = some (.truth value) := by
  rw [eval]

@[simp]
theorem eval_sym (point : Point) (symbol : Symbol) :
    eval point (sym symbol) = some (.number (point.value symbol)) := by
  rw [eval]

theorem eval_node (point : Point) (func : Func) (args : List Expr) :
    eval point (node func args) = apply point.others func (args.map (eval point)) := by
  rw [eval, evalAll_eq_map]

section Read

variable {Part : Type} {read : Value → Option Part} {make : Part → Value}
  (inverse : ∀ value part, read value = some part ↔ value = make part)

include inverse

theorem readAll_eq_some_iff {values : List (Option Value)} {parts : List Part} :
    readAll read values = some parts ↔
      List.Forall₂ (fun value part => value = some (make part)) values parts := by
  unfold readAll
  induction values generalizing parts with
  | nil =>
      rw [List.mapM_nil, Option.pure_def, Option.some_inj, List.forall₂_nil_left_iff]
      exact eq_comm
  | cons value values inductionHypothesis =>
      rw [List.mapM_cons, Option.bind_eq_bind, Option.bind_eq_some_iff]
      constructor
      · rintro ⟨part, isPart, defined⟩
        rw [Option.bind_eq_bind, Option.bind_eq_some_iff] at defined
        obtain ⟨rest, areRest, isParts⟩ := defined
        cases isParts
        obtain ⟨inner, rfl, isInner⟩ := Option.bind_eq_some_iff.mp isPart
        rw [(inverse inner part).mp isInner]
        exact .cons rfl (inductionHypothesis.mp areRest)
      · rintro (_ | ⟨rfl, rest⟩)
        refine ⟨_, (inverse _ _).mpr rfl, ?_⟩
        rw [inductionHypothesis.mpr rest]
        rfl

end Read

theorem asNumber_eq_some_iff (value : Value) (number : ℝ) :
    value.asNumber = some number ↔ value = .number number := by
  cases value <;> simp [Value.asNumber]

theorem asTruth_eq_some_iff (value : Value) (truth : Bool) :
    value.asTruth = some truth ↔ value = .truth truth := by
  cases value <;> simp [Value.asTruth]

theorem asBranch_eq_some_iff (value : Value) (part : Option ℝ × Bool) :
    value.asBranch = some part ↔ value = .branch part.1 part.2 := by
  cases value <;> simp [Value.asBranch, Prod.ext_iff]

/-- The values of the arguments of a function of numbers. -/
def Numbers (point : Point) (args : List Expr) (numbers : List ℝ) : Prop :=
  List.Forall₂ (fun arg number => eval point arg = some (.number number)) args numbers

@[simp]
theorem numbers_nil {point : Point} {numbers : List ℝ} : Numbers point [] numbers ↔ numbers = [] :=
  List.forall₂_nil_left_iff

@[simp]
theorem numbers_cons {point : Point} {arg : Expr} {args : List Expr} {numbers : List ℝ} :
    Numbers point (arg :: args) numbers ↔ ∃ number rest, eval point arg = some (.number number) ∧
      Numbers point args rest ∧ numbers = number :: rest :=
  List.forall₂_cons_left_iff

theorem numbers_append {point : Point} {args args' : List Expr} {numbers : List ℝ} :
    Numbers point (args ++ args') numbers ↔ ∃ first second, Numbers point args first ∧
      Numbers point args' second ∧ numbers = first ++ second := by
  induction args generalizing numbers with
  | nil => simp
  | cons arg args inductionHypothesis =>
      simp only [List.cons_append, numbers_cons, inductionHypothesis]
      constructor
      · rintro ⟨number, _, isNumber, ⟨first, second, areFirst, areSecond, rfl⟩, rfl⟩
        exact ⟨number :: first, second, ⟨number, first, isNumber, areFirst, rfl⟩, areSecond, rfl⟩
      · rintro ⟨_, second, ⟨number, first, isNumber, areFirst, rfl⟩, areSecond, rfl⟩
        exact ⟨number, first ++ second, isNumber, ⟨first, second, areFirst, areSecond, rfl⟩, rfl⟩

def Truths (point : Point) (args : List Expr) (truths : List Bool) : Prop :=
  List.Forall₂ (fun arg truth => eval point arg = some (.truth truth)) args truths

def Func.isArithmetic : Func → Bool
  | .pair | .piecewise | .and | .or | .not => false
  | _ => true

theorem eval_arithmetic {point : Point} {func : Func} (isArithmetic : func.isArithmetic = true)
    {args : List Expr} {value : Value} :
    eval point (node func args) = some value ↔
      ∃ numbers, Numbers point args numbers ∧
        arithmetic point.others func numbers = some value := by
  have strict : apply point.others func (args.map (eval point)) =
      (readAll Value.asNumber (args.map (eval point))).bind (arithmetic point.others func) := by
    cases func <;> first | rfl | cases isArithmetic
  rw [eval_node, strict, Option.bind_eq_some_iff]
  simp only [readAll_eq_some_iff asNumber_eq_some_iff, List.forall₂_map_left_iff]
  rfl

theorem eval_and {point : Point} {args : List Expr} {value : Value} :
    eval point (node .and args) = some value ↔
      ∃ truths, Truths point args truths ∧ value = .truth (truths.all id) := by
  have strict : apply point.others .and (args.map (eval point)) =
      (readAll Value.asTruth (args.map (eval point))).bind (connective .and) := rfl
  rw [eval_node, strict, Option.bind_eq_some_iff]
  simp only [readAll_eq_some_iff asTruth_eq_some_iff, List.forall₂_map_left_iff, connective,
    Option.some_inj, eq_comm (b := value)]
  rfl

/-! ## Expressions that keep a value -/

/-- The second value is the first, where that is defined. -/
inductive Refines : Option Value → Option Value → Prop where
  | undefined (value : Option Value) : Refines none value
  | number (value : ℝ) : Refines (some (.number value)) (some (.number value))
  | truth (value : Bool) : Refines (some (.truth value)) (some (.truth value))
  | branch {value value' : Option ℝ} (taken : Bool)
      (keeps : ∀ number, value = some number → value' = some number) :
      Refines (some (.branch value taken)) (some (.branch value' taken))

namespace Refines

variable {first second third : Option Value}

theorem refl (value : Option Value) : Refines value value := by
  rcases value with _ | value | value | ⟨value, taken⟩
  · exact .undefined _
  · exact .number _
  · exact .truth _
  · exact .branch taken fun _ defined => defined

theorem of_some (defined : ∀ value, first = some value → second = some value) :
    Refines first second := by
  cases first with
  | none => exact .undefined _
  | some value =>
      rw [defined value rfl]
      exact .refl _

theorem trans (before : Refines first second) (after : Refines second third) :
    Refines first third := by
  cases before with
  | undefined => exact .undefined _
  | number => exact after
  | truth => exact after
  | branch taken keeps =>
      cases after with
      | branch _ keeps' => exact .branch taken fun number defined => keeps' number (keeps number defined)

theorem number_eq (refines : Refines first second) {number : ℝ}
    (defined : first = some (.number number)) : second = some (.number number) := by
  subst defined
  cases refines
  rfl

theorem truth_eq (refines : Refines first second) {truth : Bool}
    (defined : first = some (.truth truth)) : second = some (.truth truth) := by
  subst defined
  cases refines
  rfl

theorem asNumber (refines : Refines first second) {number : ℝ}
    (defined : first.bind Value.asNumber = some number) :
    second.bind Value.asNumber = some number := by
  cases refines with
  | undefined => cases defined
  | number => exact defined
  | truth => cases defined
  | branch => cases defined

theorem asTruth (refines : Refines first second) {truth : Bool}
    (defined : first.bind Value.asTruth = some truth) :
    second.bind Value.asTruth = some truth := by
  cases refines with
  | undefined => cases defined
  | number => cases defined
  | truth => exact defined
  | branch => cases defined

end Refines

section Monotone

variable {values values' : List (Option Value)} (refines : List.Forall₂ Refines values values')

include refines

theorem readAll_mono {Part : Type} {read : Value → Option Part}
    (readMono : ∀ (first second : Option Value) (part : Part), Refines first second →
      first.bind read = some part → second.bind read = some part) {parts : List Part}
    (defined : readAll read values = some parts) : readAll read values' = some parts := by
  unfold readAll at defined ⊢
  induction refines generalizing parts with
  | nil => exact defined
  | cons headRefines _ inductionHypothesis =>
      rw [List.mapM_cons, Option.bind_eq_bind, Option.bind_eq_some_iff] at defined
      obtain ⟨head, isHead, defined⟩ := defined
      rw [Option.bind_eq_bind, Option.bind_eq_some_iff] at defined
      obtain ⟨rest, areRest, defined⟩ := defined
      rw [List.mapM_cons, readMono _ _ _ headRefines isHead, inductionHypothesis areRest]
      exact defined

theorem branches_mono {branches : List (Option ℝ × Bool)}
    (defined : readAll Value.asBranch values = some branches) :
    ∃ branches', readAll Value.asBranch values' = some branches' ∧
      ∀ number, firstTaken branches = some number → firstTaken branches' = some number := by
  unfold readAll at defined ⊢
  induction refines generalizing branches with
  | nil =>
      cases defined
      exact ⟨[], rfl, fun _ taken => taken⟩
  | cons headRefines _ inductionHypothesis =>
      rw [List.mapM_cons, Option.bind_eq_bind, Option.bind_eq_some_iff] at defined
      obtain ⟨head, isHead, defined⟩ := defined
      rw [Option.bind_eq_bind, Option.bind_eq_some_iff] at defined
      obtain ⟨rest, areRest, defined⟩ := defined
      cases defined
      obtain ⟨rest', areRest', restTaken⟩ := inductionHypothesis areRest
      cases headRefines with
      | undefined => cases isHead
      | number => cases isHead
      | truth => cases isHead
      | @branch _ value' taken keeps =>
          cases isHead
          refine ⟨(value', taken) :: rest', ?_, ?_⟩
          · rw [List.mapM_cons, areRest']
            rfl
          · cases taken with
            | true => exact keeps
            | false => exact restTaken

theorem pairOf_mono : Refines (pairOf values) (pairOf values') := by
  unfold pairOf
  cases refines with
  | nil => exact .undefined _
  | cons value refines =>
      cases refines with
      | nil => exact .undefined _
      | cons condition refines =>
          cases refines with
          | cons => cases condition <;> exact .undefined _
          | nil =>
              cases condition with
              | undefined => exact .undefined _
              | number => exact .undefined _
              | truth taken => exact .branch taken fun number => value.asNumber
              | branch => exact .undefined _

theorem apply_mono (others : String → List ℝ → Option ℝ) (func : Func) :
    Refines (apply others func values) (apply others func values') := by
  have strict : ∀ {Part : Type} {parts parts' : Option (List Part)} (next : List Part → Option Value),
      (∀ part, parts = some part → parts' = some part) →
        Refines (parts.bind next) (parts'.bind next) := by
    intro Part parts parts' next keeps
    cases parts with
    | none => exact .undefined _
    | some part =>
        rw [keeps part rfl]
        exact .refl _
  unfold apply
  split
  next => exact pairOf_mono refines
  next =>
    cases isBranches : readAll Value.asBranch values with
    | none => exact .undefined _
    | some branches =>
        obtain ⟨branches', isBranches', taken⟩ := branches_mono refines isBranches
        rw [isBranches', Option.bind_some, Option.bind_some]
        cases isTaken : firstTaken branches with
        | none => exact .undefined _
        | some number =>
            rw [taken number isTaken]
            exact .refl _
  next => exact strict _ fun _ => readAll_mono refines fun _ _ _ kept => kept.asTruth
  next => exact strict _ fun _ => readAll_mono refines fun _ _ _ kept => kept.asTruth
  next => exact strict _ fun _ => readAll_mono refines fun _ _ _ kept => kept.asTruth
  next => exact strict _ fun _ => readAll_mono refines fun _ _ _ kept => kept.asNumber

end Monotone

/-- The second expression has the value of the first, wherever that has one. -/
def Keeps (before after : Expr) : Prop := ∀ point, Refines (eval point before) (eval point after)

theorem Keeps.refl (expr : Expr) : Keeps expr expr := fun _ => .refl _

theorem Keeps.trans {first second third : Expr} (before : Keeps first second)
    (after : Keeps second third) : Keeps first third :=
  fun point => (before point).trans (after point)

theorem refines_node {point : Point} {args args' : List Expr}
    (refines : List.Forall₂ (fun arg arg' => Refines (eval point arg) (eval point arg')) args args')
    (func : Func) : Refines (eval point (node func args)) (eval point (node func args')) := by
  rw [eval_node, eval_node]
  apply apply_mono
  rwa [List.forall₂_map_left_iff, List.forall₂_map_right_iff]

theorem keeps_node {args args' : List Expr} (keeps : List.Forall₂ Keeps args args') (func : Func) :
    Keeps (node func args) (node func args') :=
  fun point => refines_node (keeps.imp fun _ _ keepsArg => keepsArg point) func

/-! ## Values of some nodes -/

section Nodes

variable {point : Point}

theorem eval_log {arg : Expr} {value : Value} :
    eval point (node .log [arg]) = some value ↔
      ∃ number, eval point arg = some (.number number) ∧ 0 < number ∧
        value = .number (Real.log number) := by
  rw [eval_arithmetic rfl]
  constructor
  · rintro ⟨numbers, areNumbers, defined⟩
    simp only [numbers_cons, numbers_nil] at areNumbers
    obtain ⟨number, rest, isNumber, rfl, rfl⟩ := areNumbers
    simp only [arithmetic, Option.ite_none_right_eq_some, Option.some_inj] at defined
    exact ⟨number, isNumber, defined.1, defined.2.symm⟩
  · rintro ⟨number, isNumber, positive, rfl⟩
    exact ⟨[number], .cons isNumber .nil, if_pos positive⟩

theorem eval_mul {args : List Expr} {value : Value} :
    eval point (node .mul args) = some value ↔
      ∃ numbers, Numbers point args numbers ∧ value = .number numbers.prod := by
  rw [eval_arithmetic rfl]
  simp only [arithmetic, Option.some_inj, eq_comm]

theorem eval_mul_pair {left right : Expr} {value : Value} :
    eval point (node .mul [left, right]) = some value ↔
      ∃ first second, eval point left = some (.number first) ∧
        eval point right = some (.number second) ∧ value = .number (first * second) := by
  rw [eval_mul]
  simp only [numbers_cons, numbers_nil]
  constructor
  · rintro ⟨_, ⟨first, _, isFirst, ⟨second, _, isSecond, rfl, rfl⟩, rfl⟩, rfl⟩
    exact ⟨first, second, isFirst, isSecond, by simp⟩
  · rintro ⟨first, second, isFirst, isSecond, rfl⟩
    exact ⟨_, ⟨first, _, isFirst, ⟨second, _, isSecond, rfl, rfl⟩, rfl⟩, by simp⟩

theorem eval_rel {op : RelOp} {left right : Expr} {value : Value} :
    eval point (node (.rel op) [left, right]) = some value ↔
      ∃ first second, eval point left = some (.number first) ∧
        eval point right = some (.number second) ∧
        value = .truth (open Classical in decide (op.holds first second)) := by
  rw [eval_arithmetic rfl]
  simp only [numbers_cons, numbers_nil]
  constructor
  · rintro ⟨_, ⟨first, _, isFirst, ⟨second, _, isSecond, rfl, rfl⟩, rfl⟩, defined⟩
    exact ⟨first, second, isFirst, isSecond, (Option.some_inj.mp defined).symm⟩
  · rintro ⟨first, second, isFirst, isSecond, rfl⟩
    exact ⟨_, ⟨first, _, isFirst, ⟨second, _, isSecond, rfl, rfl⟩, rfl⟩, rfl⟩

/-- Relations between values that hold together have the same truth. -/
theorem refines_rel {op op' : RelOp} {left right left' right' : Expr}
    (same : ∀ first second, eval point left = some (.number first) →
      eval point right = some (.number second) →
      ∃ first' second', eval point left' = some (.number first') ∧
        eval point right' = some (.number second') ∧
        (op.holds first second ↔ op'.holds first' second')) :
    Refines (eval point (node (.rel op) [left, right]))
      (eval point (node (.rel op') [left', right'])) := by
  refine .of_some fun value defined => ?_
  obtain ⟨first, second, isFirst, isSecond, rfl⟩ := eval_rel.1 defined
  obtain ⟨first', second', isFirst', isSecond', iff⟩ := same first second isFirst isSecond
  refine eval_rel.2 ⟨first', second', isFirst', isSecond', ?_⟩
  congr 1
  exact decide_eq_decide.mpr iff

end Nodes

/-! ## Minima and maxima -/

/-- `isinstance(expr, (Min, Max))` -/
def Func.isMinMax : Func → Bool
  | .min | .max => true
  | _ => false

section Image

variable {domain : Set ℝ} {image : ℝ → ℝ}

/-- A function moves into a choice from a list when it moves into a choice of two. -/
theorem foldl_image {choose : ℝ → ℝ → ℝ} (chooses : ∀ first second, choose first second = first ∨
      choose first second = second)
    (moves : ∀ first ∈ domain, ∀ second ∈ domain,
      image (choose first second) = choose (image first) (image second))
    {first : ℝ} {rest : List ℝ} (inside : ∀ value ∈ first :: rest, value ∈ domain) :
    (rest.map image).foldl choose (image first) = image (rest.foldl choose first) ∧
      rest.foldl choose first ∈ domain := by
  induction rest generalizing first with
  | nil => exact ⟨rfl, inside first List.mem_cons_self⟩
  | cons second rest inductionHypothesis =>
      rw [List.forall_mem_cons, List.forall_mem_cons] at inside
      rw [List.map_cons, List.foldl_cons, List.foldl_cons, ← moves first inside.1 second inside.2.1]
      apply inductionHypothesis
      rw [List.forall_mem_cons]
      refine ⟨?_, inside.2.2⟩
      rcases chooses first second with isFirst | isSecond
      · rw [isFirst]
        exact inside.1
      · rw [isSecond]
        exact inside.2.1

theorem numbers_image {point : Point} {args : List Expr} {newArg : Expr → Expr} {numbers : List ℝ}
    (moves : ∀ arg ∈ args, ∀ value, eval point arg = some (.number value) →
      value ∈ domain ∧ eval point (newArg arg) = some (.number (image value)))
    (areNumbers : Numbers point args numbers) :
    (∀ value ∈ numbers, value ∈ domain) ∧
      Numbers point (args.map newArg) (numbers.map image) := by
  induction areNumbers with
  | nil => exact ⟨fun _ impossible => absurd impossible List.not_mem_nil, .nil⟩
  | cons isNumber _ inductionHypothesis =>
      rw [List.forall_mem_cons] at moves
      obtain ⟨inside, isImage⟩ := moves.1 _ isNumber
      obtain ⟨restInside, restImages⟩ := inductionHypothesis moves.2
      exact ⟨List.forall_mem_cons.mpr ⟨inside, restInside⟩, .cons isImage restImages⟩

/-- A monotone function moves into a minimum or maximum. -/
theorem eval_minMax_image (mono : MonotoneOn image domain) {point : Point} {func : Func}
    (isMinMax : func.isMinMax = true) {args : List Expr} {newArg : Expr → Expr}
    (moves : ∀ arg ∈ args, ∀ value, eval point arg = some (.number value) →
      value ∈ domain ∧ eval point (newArg arg) = some (.number (image value)))
    {value : Value} (defined : eval point (node func args) = some value) :
    ∃ number ∈ domain, value = .number number ∧
      eval point (node func (args.map newArg)) = some (.number (image number)) := by
  have isArithmetic : func.isArithmetic = true := by
    cases func <;> first | rfl | cases isMinMax
  obtain ⟨numbers, areNumbers, isValue⟩ := (eval_arithmetic isArithmetic).mp defined
  obtain ⟨inside, images⟩ := numbers_image moves areNumbers
  cases numbers with
  | nil =>
      cases func with
      | min => cases isValue
      | max => cases isValue
      | _ => cases isMinMax
  | cons first rest =>
      cases func with
      | min =>
          cases isValue
          obtain ⟨moved, chosen⟩ := foldl_image min_choice
            (fun first inFirst second inSecond => mono.map_min inFirst inSecond) inside
          exact ⟨_, chosen, rfl, (eval_arithmetic rfl).mpr ⟨_, images, by rw [← moved]; rfl⟩⟩
      | max =>
          cases isValue
          obtain ⟨moved, chosen⟩ := foldl_image max_choice
            (fun first inFirst second inSecond => mono.map_max inFirst inSecond) inside
          exact ⟨_, chosen, rfl, (eval_arithmetic rfl).mpr ⟨_, images, by rw [← moved]; rfl⟩⟩
      | _ => cases isMinMax

end Image

/-! ## Cases -/

theorem arithmetic_ne_branch (others : String → List ℝ → Option ℝ) (func : Func) (numbers : List ℝ)
    (value : Option ℝ) (taken : Bool) :
    arithmetic others func numbers ≠ some (.branch value taken) := by
  unfold arithmetic
  split <;> simp

theorem connective_ne_branch (func : Func) (truths : List Bool) (value : Option ℝ) (taken : Bool) :
    connective func truths ≠ some (.branch value taken) := by
  unfold connective
  split <;> simp

/-- Only a pair has the value of a branch. -/
theorem exists_pair_of_branch {point : Point} {arg : Expr} {value : Option ℝ} {taken : Bool}
    (isBranch : eval point arg = some (.branch value taken)) :
    ∃ result cond, arg = node .pair [result, cond] ∧ eval point cond = some (.truth taken) ∧
      value = (eval point result).bind Value.asNumber := by
  cases arg with
  | num number => simp at isBranch
  | boolean truth => simp at isBranch
  | sym symbol => simp at isBranch
  | node func args =>
      rw [eval_node] at isBranch
      unfold apply at isBranch
      split at isBranch
      next =>
        unfold pairOf at isBranch
        split at isBranch
        next result taken' areArgs =>
          cases isBranch
          obtain ⟨arg, rest, rfl, rfl, single⟩ := List.map_eq_cons_iff.mp areArgs
          obtain ⟨cond, nothing, rfl, isTruth, none⟩ := List.map_eq_cons_iff.mp single
          rw [List.map_eq_nil_iff] at none
          exact ⟨arg, cond, by rw [none], isTruth, rfl⟩
        next => cases isBranch
      next =>
        obtain ⟨_, -, isNumber⟩ := Option.bind_eq_some_iff.mp isBranch
        simp at isNumber
      iterate 3
        next =>
          obtain ⟨truths, -, isConnective⟩ := Option.bind_eq_some_iff.mp isBranch
          exact absurd isConnective (connective_ne_branch _ _ _ _)
      next =>
        obtain ⟨numbers, -, isArithmetic⟩ := Option.bind_eq_some_iff.mp isBranch
        exact absurd isArithmetic (arithmetic_ne_branch _ _ _ _ _)

theorem eval_pair {point : Point} {cond : Expr} {taken : Bool}
    (isTruth : eval point cond = some (.truth taken)) (result : Expr) :
    eval point (node .pair [result, cond]) =
      some (.branch ((eval point result).bind Value.asNumber) taken) := by
  rw [eval_node, List.map_cons, List.map_cons, isTruth]
  rfl

theorem eval_pair_ne_number (point : Point) (args : List Expr) (value : ℝ) :
    eval point (node .pair args) ≠ some (.number value) := by
  rw [eval_node]
  change pairOf _ ≠ _
  unfold pairOf
  split <;> simp

/-- The values and conditions of the branches of a `piecewise`. -/
def Branches (point : Point) (args : List Expr) (branches : List (Option ℝ × Bool)) : Prop :=
  List.Forall₂ (fun arg branch => eval point arg = some (.branch branch.1 branch.2)) args branches

theorem eval_piecewise {point : Point} {args : List Expr} {value : Value} :
    eval point (node .piecewise args) = some value ↔
      ∃ branches, Branches point args branches ∧
        ∃ number, firstTaken branches = some number ∧ value = .number number := by
  have strict : apply point.others .piecewise (args.map (eval point)) =
      (readAll Value.asBranch (args.map (eval point))).bind fun branches =>
        (firstTaken branches).map .number := rfl
  rw [eval_node, strict, Option.bind_eq_some_iff]
  simp only [readAll_eq_some_iff asBranch_eq_some_iff, List.forall₂_map_left_iff,
    Option.map_eq_some_iff, eq_comm (b := value)]
  rfl

/-- A function moves into the values of the branches. -/
theorem eval_piecewise_image {point : Point} {image : ℝ → ℝ} {args : List Expr} {newArg : Expr → Expr}
    (moves : ∀ arg ∈ args, ∀ value taken, eval point arg = some (.branch value taken) →
      ∃ value', eval point (newArg arg) = some (.branch value' taken) ∧
        ∀ number, value = some number → value' = some (image number))
    {value : Value} (defined : eval point (node .piecewise args) = some value) :
    ∃ number, value = .number number ∧
      eval point (node .piecewise (args.map newArg)) = some (.number (image number)) := by
  obtain ⟨branches, areBranches, number, isFirst, rfl⟩ := eval_piecewise.1 defined
  refine ⟨number, rfl, ?_⟩
  have moved : ∃ branches', Branches point (args.map newArg) branches' ∧
      ∀ number, firstTaken branches = some number → firstTaken branches' = some (image number) := by
    clear defined isFirst
    induction areBranches with
    | nil => exact ⟨[], .nil, fun _ impossible => nomatch impossible⟩
    | @cons arg branch args branches isBranch _ inductionHypothesis =>
        rw [List.forall_mem_cons] at moves
        obtain ⟨value', isBranch', images⟩ := moves.1 branch.1 branch.2 isBranch
        obtain ⟨branches', areBranches', restImages⟩ := inductionHypothesis moves.2
        refine ⟨(value', branch.2) :: branches', .cons isBranch' areBranches', ?_⟩
        obtain ⟨value, taken⟩ := branch
        cases taken with
        | true => exact images
        | false => exact restImages
  obtain ⟨branches', areMoved, isMoved⟩ := moved
  exact eval_piecewise.2 ⟨branches', areMoved, image number, isMoved number isFirst, rfl⟩

/-! ## Nesting -/

/-- `Min`, `Max` or `Piecewise` -/
def Func.isCase : Func → Bool
  | .min | .max | .piecewise => true
  | _ => false

mutual

/-- How deep minima and cases are nested. -/
def depth : Expr → ℕ
  | num _ | boolean _ | sym _ => 0
  | node func args => (if func.isCase then 1 else 0) + depthAll args

def depthAll : List Expr → ℕ
  | [] => 0
  | arg :: args => max (depth arg) (depthAll args)

end

@[simp]
theorem depth_num (number : Number) : depth (num number) = 0 := by
  rw [depth]

theorem depthAll_le_iff {args : List Expr} {bound : ℕ} :
    depthAll args ≤ bound ↔ ∀ arg ∈ args, depth arg ≤ bound := by
  induction args with
  | nil => simp [depthAll]
  | cons arg args inductionHypothesis =>
      rw [depthAll, max_le_iff, inductionHypothesis, List.forall_mem_cons]

theorem depth_arg_le {func : Func} {args : List Expr} {arg : Expr} (listed : arg ∈ args) :
    (if func.isCase then 1 else 0) + depth arg ≤ depth (node func args) := by
  rw [depth]
  exact Nat.add_le_add_left (depthAll_le_iff.1 le_rfl arg listed) _

theorem depth_node_mono (func : Func) {args args' : List Expr} (below : depthAll args ≤ depthAll args') :
    depth (node func args) ≤ depth (node func args') := by
  rw [depth, depth]
  exact Nat.add_le_add_left below _

/-! ## What SymPy builds -/

structure Sympy where
  /-- `func(*args)` -/
  build : Func → List Expr → Expr
  /-- `n()`, exact over the reals. -/
  numeric : Expr → Expr
  build_keeps : ∀ func args, Keeps (node func args) (build func args)
  build_depth : ∀ func args, depth (build func args) ≤ depth (node func args)
  numeric_keeps : ∀ expr, Keeps expr (numeric expr)

section Replace

variable (sympy : Sympy) (func : Func) (value : Expr → Expr)

/-- Apply a rewriting to an expression of the function. -/
def rewriteAt (expr : Expr) : Expr :=
  match expr with
  | node func' _ => if func' = func then value expr else expr
  | _ => expr

mutual

/-- `replace(lambda e: e.func == func, value)`: arguments first. -/
def replace : Expr → Expr
  | num number => num number
  | boolean truth => boolean truth
  | sym symbol => sym symbol
  | node func' args =>
      let args' := replaceAll args
      rewriteAt func value (if args' = args then node func' args else sympy.build func' args')

def replaceAll : List Expr → List Expr
  | [] => []
  | arg :: args => replace arg :: replaceAll args

end

variable {sympy func value}

theorem replaceAll_eq_map (args : List Expr) :
    replaceAll sympy func value args = args.map (replace sympy func value) := by
  induction args with
  | nil => rfl
  | cons arg args inductionHypothesis => rw [replaceAll, inductionHypothesis, List.map_cons]

theorem rewriteAt_cases (expr : Expr) :
    rewriteAt func value expr = value expr ∨ rewriteAt func value expr = expr := by
  unfold rewriteAt
  split
  next =>
    split
    next => exact .inl rfl
    next => exact .inr rfl
  next => exact .inr rfl

/-- Replacing keeps the value when every replacement does. -/
theorem replace_keeps (keeps : ∀ expr, Keeps expr (value expr)) (expr : Expr) :
    Keeps expr (replace sympy func value expr) := by
  induction expr using Expr.induction with
  | num number => exact .refl _
  | boolean truth => exact .refl _
  | sym symbol => exact .refl _
  | node func' args inductionHypothesis =>
      rw [replace, replaceAll_eq_map]
      have rewritten : ∀ rebuilt, Keeps rebuilt (rewriteAt func value rebuilt) := by
        intro rebuilt
        rcases rewriteAt_cases rebuilt with isValue | isSame
        · rw [isValue]
          exact keeps rebuilt
        · rw [isSame]
          exact .refl rebuilt
      refine Keeps.trans ?_ (rewritten _)
      split
      next => exact .refl _
      next =>
        refine Keeps.trans (keeps_node ?_ func') (sympy.build_keeps func' _)
        rw [List.forall₂_map_right_iff, List.forall₂_same]
        exact inductionHypothesis

/-- Nor does it nest deeper. -/
theorem depth_replace (flat : ∀ expr, depth (value expr) ≤ depth expr) (expr : Expr) :
    depth (replace sympy func value expr) ≤ depth expr := by
  induction expr using Expr.induction with
  | num number => exact le_rfl
  | boolean truth => exact le_rfl
  | sym symbol => exact le_rfl
  | node func' args inductionHypothesis =>
      rw [replace, replaceAll_eq_map]
      have rewritten : ∀ rebuilt, depth (rewriteAt func value rebuilt) ≤ depth rebuilt := by
        intro rebuilt
        rcases rewriteAt_cases rebuilt with isValue | isSame
        · rw [isValue]
          exact flat rebuilt
        · rw [isSame]
      refine (rewritten _).trans ?_
      split
      next => exact le_rfl
      next =>
        refine (sympy.build_depth func' _).trans (depth_node_mono func' ?_)
        rw [depthAll_le_iff, List.forall_mem_map]
        intro arg listed
        exact (inductionHypothesis arg listed).trans (depthAll_le_iff.1 le_rfl arg listed)

/-- Replacements that agree up to a depth replace alike up to that depth. -/
theorem replace_congr {value' : Expr → Expr} {bound : ℕ}
    (flat : ∀ expr, depth (value expr) ≤ depth expr)
    (same : ∀ expr, depth expr ≤ bound → value expr = value' expr) {expr : Expr}
    (shallow : depth expr ≤ bound) :
    replace sympy func value expr = replace sympy func value' expr := by
  induction expr using Expr.induction with
  | num number => rfl
  | boolean truth => rfl
  | sym symbol => rfl
  | node func' args inductionHypothesis =>
      have below : ∀ arg ∈ args, depth arg ≤ bound := fun arg listed =>
        (Nat.le_add_left _ _).trans ((depth_arg_le listed).trans shallow)
      have sameArgs : args.map (replace sympy func value) = args.map (replace sympy func value') :=
        List.map_congr_left fun arg listed => inductionHypothesis arg listed (below arg listed)
      rw [replace, replace, replaceAll_eq_map, replaceAll_eq_map, ← sameArgs]
      have shallowRebuilt : depth (if args.map (replace sympy func value) = args then node func' args
          else sympy.build func' (args.map (replace sympy func value))) ≤ bound := by
        split
        next => exact shallow
        next =>
          refine ((sympy.build_depth func' _).trans (depth_node_mono func' ?_)).trans shallow
          rw [depthAll_le_iff, List.forall_mem_map]
          intro arg listed
          exact (depth_replace flat arg).trans (depthAll_le_iff.1 le_rfl arg listed)
      generalize (if args.map (replace sympy func value) = args then node func' args
          else sympy.build func' (args.map (replace sympy func value))) = rebuilt at shallowRebuilt ⊢
      unfold rewriteAt
      rw [same rebuilt shallowRebuilt]

end Replace

end Lib.CaseExpr
