import TorchSpyre.Lib.CaseExpr

/-!
# Conjunctions of equations

Equations of a conjunction are resolved against each other and against its inequations.  The numbers
are compared as SymPy compares them, where a `Float` is never equal to an exact number.
-/

namespace TorchSpyre.Scratchpad.CostExpr

open Lib Lib.CaseExpr Expr

variable (sympy : Sympy)

/-! ## Conjunctions of equations -/

/-- `_eq_fact` -/
def eqFact (args : List Expr) : Option (Expr × Number) :=
  match args with
  | [lhs, num value] => some (lhs, value)
  | [num value, rhs] => some (rhs, value)
  | _ => none

def factOf (op : RelOp) (arg : Expr) : Option (Expr × Number) :=
  match arg with
  | node (.rel op') args => if op' = op then eqFact args else none
  | _ => none

/-- The numbers that expressions are equated to; none when one is equated to two. -/
def collectEqs (eqs : List (Expr × Number)) : List Expr → Option (List (Expr × Number))
  | [] => some eqs
  | arg :: args =>
      match factOf .eq arg with
      | none => collectEqs eqs args
      | some (lhs, value) =>
          match eqs.lookup lhs with
          | none => collectEqs (eqs ++ [(lhs, value)]) args
          | some known => if known ≠ value then none else collectEqs eqs args

/-- The number that an inequation's expression is equated to, with the inequation's own. -/
def equated (eqs : List (Expr × Number)) (arg : Expr) : Option (Number × Number) :=
  (factOf .ne arg).bind fun fact => (eqs.lookup fact.1).map fun known => (known, fact.2)

/-- What stays beside the equations; none when an inequation contradicts them. -/
def keptArgs (eqs : List (Expr × Number)) : List Expr → Option (List Expr)
  | [] => some []
  | arg :: args =>
      match equated eqs arg with
      | none => (keptArgs eqs args).map (arg :: ·)
      | some (known, value) => if known = value then none else keptArgs eqs args

/-- `_simplify_eq_conjunction` -/
def simplifyEqConjunction (expr : Expr) : Expr :=
  match expr with
  | node .and args =>
      match collectEqs [] args with
      | none => boolean false
      | some [] => expr
      | some eqs =>
          match keptArgs eqs args with
          | none => boolean false
          | some kept => sympy.build .and kept
  | _ => expr

variable {sympy}

/-! ## Conjunctions keep their truth -/

section Conjunctions

variable {point : Point} {args : List Expr}

def Holds (point : Point) (arg : Expr) : Prop := eval point arg = some (.truth true)

/-- An argument of the conjunction equates the expression to the number. -/
def Equates (args : List Expr) (lhs : Expr) (number : Number) : Prop :=
  ∃ arg ∈ args, factOf .eq arg = some (lhs, number)

/-- An expression is equated to two forms of one number. -/
def MixedEq (args : List Expr) : Prop :=
  ∃ lhs number number', Equates args lhs number ∧ Equates args lhs number' ∧ number ≠ number' ∧
    number.value = number'.value

/-- An inequation with one form of a number beside an equation with the other form. -/
def MixedNe (args : List Expr) (arg : Expr) : Prop :=
  ∃ lhs number number', factOf .ne arg = some (lhs, number') ∧ Equates args lhs number ∧
    number ≠ number' ∧ number.value = number'.value

theorem equates_cons {arg lhs : Expr} {number : Number} :
    Equates (arg :: args) lhs number ↔ factOf .eq arg = some (lhs, number) ∨ Equates args lhs number := by
  simp [Equates]

theorem lookup_added {eqs : List (Expr × Number)} {lhs lhs' : Expr} {value number : Number}
    (unknown : eqs.lookup lhs = none) :
    (eqs ++ [(lhs, value)]).lookup lhs' = some number ↔
      eqs.lookup lhs' = some number ∨ (lhs, value) = (lhs', number) := by
  rw [List.lookup_append, Option.or_eq_some_iff, List.lookup_cons, List.lookup_nil]
  by_cases same : lhs' = lhs
  · subst same
    simp [unknown]
  · have other : (lhs' == lhs) = false := beq_false_of_ne same
    simp [other, Ne.symm same]

theorem collectEqs_none {eqs : List (Expr × Number)} (clash : collectEqs eqs args = none) :
    ∃ lhs number number', number ≠ number' ∧ Equates args lhs number' ∧
      (eqs.lookup lhs = some number ∨ Equates args lhs number) := by
  induction args generalizing eqs with
  | nil => cases clash
  | cons arg args inductionHypothesis =>
      simp only [equates_cons]
      unfold collectEqs at clash
      split at clash
      next notFact =>
        obtain ⟨lhs, number, number', different, equates, before | later⟩ := inductionHypothesis clash
        · exact ⟨lhs, number, number', different, .inr equates, .inl before⟩
        · exact ⟨lhs, number, number', different, .inr equates, .inr (.inr later)⟩
      next lhs value isFact =>
        split at clash
        next unknown =>
          obtain ⟨lhs', number, number', different, equates, before | later⟩ :=
            inductionHypothesis clash
          · rcases (lookup_added unknown).mp before with known | added
            · exact ⟨lhs', number, number', different, .inr equates, .inl known⟩
            · exact ⟨lhs', number, number', different, .inr equates, .inr (.inl (added ▸ isFact))⟩
          · exact ⟨lhs', number, number', different, .inr equates, .inr (.inr later)⟩
        next known isKnown =>
          split at clash
          next different => exact ⟨lhs, known, value, different, .inl isFact, .inl isKnown⟩
          next =>
            obtain ⟨lhs', number, number', different, equates, before | later⟩ :=
              inductionHypothesis clash
            · exact ⟨lhs', number, number', different, .inr equates, .inl before⟩
            · exact ⟨lhs', number, number', different, .inr equates, .inr (.inr later)⟩

theorem collectEqs_some {eqs found : List (Expr × Number)}
    (collected : collectEqs eqs args = some found) (lhs : Expr) (number : Number) :
    found.lookup lhs = some number ↔ eqs.lookup lhs = some number ∨ Equates args lhs number := by
  induction args generalizing eqs with
  | nil =>
      cases collected
      simp [Equates]
  | cons arg args inductionHypothesis =>
      rw [equates_cons]
      unfold collectEqs at collected
      split at collected
      next notFact =>
        rw [inductionHypothesis collected, notFact]
        simp
      next lhs' value isFact =>
        rw [isFact, Option.some_inj]
        split at collected
        next unknown => rw [inductionHypothesis collected, lookup_added unknown, or_assoc]
        next known isKnown =>
          split at collected
          next => cases collected
          next same =>
            rw [inductionHypothesis collected, ← or_assoc]
            refine or_congr_left ⟨.inl, ?_⟩
            rintro (before | fact)
            · exact before
            · cases fact
              rw [isKnown, not_not.mp same]

theorem keptArgs_none {eqs : List (Expr × Number)} (contradicted : keptArgs eqs args = none) :
    ∃ arg ∈ args, ∃ lhs number, factOf .ne arg = some (lhs, number) ∧ eqs.lookup lhs = some number := by
  induction args with
  | nil => cases contradicted
  | cons arg args inductionHypothesis =>
      rw [List.exists_mem_cons_iff]
      unfold keptArgs at contradicted
      split at contradicted
      next =>
        exact .inr (inductionHypothesis (Option.map_eq_none_iff.mp contradicted))
      next known value isEquated =>
        split at contradicted
        next same =>
          obtain ⟨⟨lhs, value'⟩, isFact, isKnown⟩ := Option.bind_eq_some_iff.mp isEquated
          obtain ⟨known', found, pair⟩ := Option.map_eq_some_iff.mp isKnown
          cases pair
          exact .inl ⟨lhs, value', isFact, found.trans (congrArg some same)⟩
        next => exact .inr (inductionHypothesis contradicted)

theorem keptArgs_some {eqs : List (Expr × Number)} {kept : List Expr}
    (keeps : keptArgs eqs args = some kept) :
    kept = args.filter (fun arg => (equated eqs arg).isNone) ∧
      ∀ arg ∈ args, ∀ known value, equated eqs arg = some (known, value) → known ≠ value := by
  induction args generalizing kept with
  | nil =>
      cases keeps
      simp
  | cons arg args inductionHypothesis =>
      rw [List.forall_mem_cons]
      unfold keptArgs at keeps
      split at keeps
      next notEquated =>
        obtain ⟨rest, keepsRest, rfl⟩ := Option.map_eq_some_iff.mp keeps
        obtain ⟨isRest, different⟩ := inductionHypothesis keepsRest
        refine ⟨?_, by simp [notEquated], different⟩
        rw [List.filter_cons_of_pos (by simp [notEquated]), ← isRest]
      next known value isEquated =>
        split at keeps
        next => cases keeps
        next apart =>
          obtain ⟨isRest, different⟩ := inductionHypothesis keeps
          refine ⟨?_, ?_, different⟩
          · rw [List.filter_cons_of_neg (by simp [isEquated]), ← isRest]
          · rw [isEquated]
            rintro _ _ ⟨⟩
            exact apart

/-- An equation or inequation with a number is about the value of its expression. -/
theorem holds_fact {op : RelOp} {arg lhs : Expr} {number : Number}
    (isFact : factOf op arg = some (lhs, number)) {truth : Bool}
    (hasTruth : eval point arg = some (.truth truth))
    (symmetric : ∀ first second, op.holds first second → op.holds second first) :
    ∃ value, eval point lhs = some (.number value) ∧ (Holds point arg ↔ op.holds value number.value) := by
  unfold Holds
  unfold factOf at isFact
  split at isFact
  next op' args =>
    rw [Option.ite_none_right_eq_some] at isFact
    obtain ⟨rfl, isFact⟩ := isFact
    unfold eqFact at isFact
    split at isFact
    next lhs number =>
      cases isFact
      obtain ⟨first, second, isFirst, isSecond, isTruth⟩ := eval_rel.mp hasTruth
      rw [eval_num] at isSecond
      cases isSecond
      refine ⟨first, isFirst, ?_⟩
      rw [hasTruth, isTruth]
      simp
    next number rhs =>
      cases isFact
      obtain ⟨first, second, isFirst, isSecond, isTruth⟩ := eval_rel.mp hasTruth
      rw [eval_num] at isFirst
      cases isFirst
      refine ⟨second, isSecond, ?_⟩
      rw [hasTruth, isTruth]
      simpa using ⟨symmetric _ _, symmetric _ _⟩
    next => cases isFact
  next => cases isFact

/-- The conjunction holds when all its arguments do. -/
theorem eval_and_iff (hasTruth : ∀ arg ∈ args, ∃ truth, eval point arg = some (.truth truth)) :
    ∃ truth, eval point (node .and args) = some (.truth truth) ∧
      (truth = true ↔ ∀ arg ∈ args, Holds point arg) := by
  choose! truth isTruth using hasTruth
  refine ⟨(args.map truth).all id, ?_, ?_⟩
  · refine eval_and.mpr ⟨args.map truth, ?_, rfl⟩
    rw [Truths, List.forall₂_map_right_iff, List.forall₂_same]
    exact isTruth
  · simp only [List.all_map, List.all_eq_true, Function.comp_apply, id_eq]
    apply forall₂_congr
    intro arg listed
    rw [Holds, isTruth arg listed]
    simp

/-- Where the truth of a conjunction is lost: two forms of one number are told apart. -/
def Mixes (point : Point) (args : List Expr) : Prop :=
  (MixedEq args ∧ ∀ arg ∈ args, Holds point arg) ∨
    (¬ MixedEq args ∧ (∃ arg ∈ args, MixedNe args arg) ∧
      ∀ arg ∈ args, ¬ MixedNe args arg → Holds point arg)

section Truth

variable (hasTruth : ∀ arg ∈ args, ∃ truth, eval point arg = some (.truth truth))

theorem factOf_eq_of_ne {arg : Expr} {fact : Expr × Number} (isNe : factOf .ne arg = some fact) :
    factOf .eq arg = none := by
  unfold factOf at isNe ⊢
  split at isNe
  next op' _ =>
    rw [Option.ite_none_right_eq_some] at isNe
    rw [isNe.1]
    rfl
  next => cases isNe

theorem not_mixedNe_of_eq {arg : Expr} {fact : Expr × Number} (isEq : factOf .eq arg = some fact) :
    ¬ MixedNe args arg := by
  rintro ⟨lhs, number, number', isNe, -⟩
  rw [factOf_eq_of_ne isNe] at isEq
  cases isEq

theorem equated_eq_some_iff {eqs : List (Expr × Number)} {arg : Expr} {known value : Number} :
    equated eqs arg = some (known, value) ↔
      ∃ lhs, factOf .ne arg = some (lhs, value) ∧ eqs.lookup lhs = some known := by
  simp [equated, Option.bind_eq_some_iff]

include hasTruth

/-- When the equations hold, an equated expression has the number's value. -/
theorem equates_value {lhs : Expr} {number : Number} (equates : Equates args lhs number)
    (equationsHold : ∀ arg ∈ args, factOf .eq arg ≠ none → Holds point arg) :
    eval point lhs = some (.number number.value) := by
  obtain ⟨arg, listed, isFact⟩ := equates
  obtain ⟨truth, isTruth⟩ := hasTruth arg listed
  obtain ⟨value, isValue, iff⟩ := holds_fact isFact isTruth fun _ _ => Eq.symm
  have same : value = number.value :=
    iff.mp (equationsHold arg listed fun noFact => nomatch isFact.symm.trans noFact)
  rw [isValue, same]

theorem ne_holds_iff {arg lhs : Expr} {number known : Number} (listed : arg ∈ args)
    (isFact : factOf .ne arg = some (lhs, number)) (isValue : eval point lhs = some (.number known.value)) :
    Holds point arg ↔ known.value ≠ number.value := by
  obtain ⟨truth, isTruth⟩ := hasTruth arg listed
  obtain ⟨value, isValue', iff⟩ := holds_fact isFact isTruth fun _ _ => Ne.symm
  rw [isValue] at isValue'
  cases isValue'
  rw [iff]
  exact Rat.cast_injective.ne_iff

/-- Different numbers with one value. -/
theorem mixedEq_of_holds {lhs : Expr} {number number' : Number} (different : number ≠ number')
    (first : Equates args lhs number) (second : Equates args lhs number')
    (equationsHold : ∀ arg ∈ args, factOf .eq arg ≠ none → Holds point arg) : MixedEq args := by
  refine ⟨lhs, number, number', first, second, different, ?_⟩
  have firstValue := equates_value hasTruth first equationsHold
  rw [equates_value hasTruth second equationsHold] at firstValue
  simpa using firstValue.symm

/-- Equations with two numbers: no assignment satisfies them, unless the forms are mixed. -/
theorem mixes_iff_of_clash {lhs : Expr} {number number' : Number} (different : number ≠ number')
    (first : Equates args lhs number) (second : Equates args lhs number') :
    Mixes point args ↔ ∀ arg ∈ args, Holds point arg := by
  constructor
  · rintro (⟨-, allHold⟩ | ⟨notMixed, -, othersHold⟩)
    · exact allHold
    · refine absurd (mixedEq_of_holds hasTruth different first second ?_) notMixed
      intro arg listed isEq
      obtain ⟨fact, isFact⟩ := Option.ne_none_iff_exists'.mp isEq
      exact othersHold arg listed (not_mixedNe_of_eq isFact)
  · intro allHold
    exact .inl ⟨mixedEq_of_holds hasTruth different first second fun arg listed _ =>
      allHold arg listed, allHold⟩

theorem all_hold_iff : (∀ arg ∈ args, Holds point arg) ↔
    (∀ arg ∈ args, ¬ MixedNe args arg → Holds point arg) ∧ ¬ ∃ arg ∈ args, MixedNe args arg := by
  constructor
  · intro allHold
    refine ⟨fun arg listed _ => allHold arg listed, ?_⟩
    rintro ⟨arg, listed, lhs, number, number', isFact, equates, -, sameValue⟩
    have isValue := equates_value hasTruth equates fun other isOther _ => allHold other isOther
    exact (ne_holds_iff hasTruth listed isFact isValue).mp (allHold arg listed) sameValue
  · rintro ⟨othersHold, noMixed⟩ arg listed
    exact othersHold arg listed fun mixed => noMixed ⟨arg, listed, mixed⟩

section Unique

variable {eqs : List (Expr × Number)}
  (collected : ∀ lhs number, eqs.lookup lhs = some number ↔ Equates args lhs number)

omit hasTruth

include collected

theorem not_mixedEq : ¬ MixedEq args := by
  rintro ⟨lhs, number, number', first, second, different, -⟩
  rw [← collected] at first second
  exact different (Option.some_inj.mp (first.symm.trans second))

theorem mixedNe_iff {arg : Expr} : MixedNe args arg ↔
    ∃ known value, equated eqs arg = some (known, value) ∧ known ≠ value ∧ known.value = value.value := by
  simp only [equated_eq_some_iff, collected]
  constructor
  · rintro ⟨lhs, known, value, isFact, equates, apart, sameValue⟩
    exact ⟨known, value, ⟨lhs, isFact, equates⟩, apart, sameValue⟩
  · rintro ⟨known, value, ⟨lhs, isFact, equates⟩, apart, sameValue⟩
    exact ⟨lhs, known, value, isFact, equates, apart, sameValue⟩

include hasTruth

/-- An inequation with the number of the equation cannot hold. -/
theorem not_mixes_of_contradiction {arg : Expr} (listed : arg ∈ args) {lhs : Expr} {number : Number}
    (isFact : factOf .ne arg = some (lhs, number)) (isKnown : eqs.lookup lhs = some number) :
    ¬ Mixes point args ∧ ¬ ∀ arg ∈ args, Holds point arg := by
  have contradiction : ¬ ((∀ arg ∈ args, factOf .eq arg ≠ none → Holds point arg) ∧ Holds point arg) := by
    rintro ⟨equationsHold, holds⟩
    have isValue := equates_value hasTruth ((collected lhs number).mp isKnown) equationsHold
    exact (ne_holds_iff hasTruth listed isFact isValue).mp holds rfl
  constructor
  · rintro (⟨mixed, -⟩ | ⟨-, -, othersHold⟩)
    · exact not_mixedEq collected mixed
    · refine contradiction ⟨fun other isOther isEq => ?_, othersHold arg listed ?_⟩
      · obtain ⟨fact, isEqFact⟩ := Option.ne_none_iff_exists'.mp isEq
        exact othersHold other isOther (not_mixedNe_of_eq isEqFact)
      · rw [mixedNe_iff collected]
        rintro ⟨known, value, isEquated, apart, -⟩
        obtain ⟨lhs', isFact', isKnown'⟩ := equated_eq_some_iff.1 isEquated
        cases isFact.symm.trans isFact'
        exact apart (Option.some_inj.mp (isKnown'.symm.trans isKnown))
  · intro allHold
    exact contradiction ⟨fun other isOther _ => allHold other isOther, allHold arg listed⟩

/-- What is kept says as much as the whole, but for inequations with another form of a number. -/
theorem kept_hold_iff
    (apart : ∀ arg ∈ args, ∀ known value, equated eqs arg = some (known, value) → known ≠ value) :
    (∀ arg ∈ args, (equated eqs arg).isNone → Holds point arg) ↔
      ∀ arg ∈ args, ¬ MixedNe args arg → Holds point arg := by
  constructor
  · intro keptHold arg listed notMixed
    cases isEquated : equated eqs arg with
    | none => exact keptHold arg listed (by rw [isEquated]; rfl)
    | some pair =>
        obtain ⟨known, value⟩ := pair
        obtain ⟨lhs, isFact, isKnown⟩ := equated_eq_some_iff.1 isEquated
        have isValue := equates_value hasTruth ((collected lhs known).mp isKnown)
          fun other isOther isEq => keptHold other isOther (by
            cases isNe : factOf .ne other with
            | none => simp [equated, isNe]
            | some fact => exact absurd (factOf_eq_of_ne isNe) isEq)
        refine (ne_holds_iff hasTruth listed isFact isValue).mpr fun sameValue => notMixed ?_
        exact (mixedNe_iff collected).mpr
          ⟨known, value, isEquated, apart arg listed known value isEquated, sameValue⟩
  · intro othersHold arg listed isNone
    refine othersHold arg listed fun mixed => ?_
    obtain ⟨known, value, isEquated, -⟩ := (mixedNe_iff collected).mp mixed
    rw [isEquated] at isNone
    cases isNone

end Unique

/-- The truth of a conjunction is kept exactly where no two forms of a number are told apart. -/
theorem simplifyEqConjunction_keeps_iff :
    eval point (simplifyEqConjunction sympy (node .and args)) = eval point (node .and args) ↔
      ¬ Mixes point args := by
  obtain ⟨truth, isTruth, truthIff⟩ := eval_and_iff hasTruth
  have refuted : eval point (boolean false) = some (.truth truth) ↔
      ¬ ∀ arg ∈ args, Holds point arg := by
    rw [eval_boolean, ← truthIff]
    simp [eq_comm]
  rw [isTruth]
  unfold simplifyEqConjunction
  cases isCollected : collectEqs [] args with
  | none =>
      obtain ⟨lhs, number, number', different, second, first⟩ := collectEqs_none isCollected
      rw [mixes_iff_of_clash hasTruth different (first.resolve_left (by simp)) second]
      simpa only [isCollected] using refuted
  | some eqs =>
      have collected : ∀ lhs number, eqs.lookup lhs = some number ↔ Equates args lhs number := by
        simpa using collectEqs_some isCollected
      cases eqs with
      | nil =>
          simp only [isCollected]
          refine iff_of_true isTruth ?_
          rintro (⟨mixed, -⟩ | ⟨-, ⟨arg, -, mixed⟩, -⟩)
          · exact not_mixedEq collected mixed
          · obtain ⟨_, _, isEquated, -⟩ := (mixedNe_iff collected).mp mixed
            obtain ⟨_, -, isKnown⟩ := equated_eq_some_iff.1 isEquated
            cases isKnown
      | cons first rest =>
          simp only [isCollected]
          cases isKept : keptArgs (first :: rest) args with
          | none =>
              obtain ⟨arg, listed, lhs, number, isFact, isKnown⟩ := keptArgs_none isKept
              obtain ⟨noMix, fails⟩ := not_mixes_of_contradiction hasTruth collected listed isFact isKnown
              exact iff_of_true (refuted.mpr fails) noMix
          | some kept =>
              obtain ⟨rfl, apart⟩ := keptArgs_some isKept
              obtain ⟨keptTruth, isKeptTruth, keptIff⟩ := eval_and_iff fun arg listed =>
                hasTruth arg (List.mem_of_mem_filter listed)
              simp only [List.mem_filter, and_imp] at keptIff
              rw [kept_hold_iff hasTruth collected apart] at keptIff
              rw [all_hold_iff hasTruth] at truthIff
              have built := (sympy.build_keeps .and _ point).truth_eq isKeptTruth
              simp only [built, Mixes, not_mixedEq collected, Option.some_inj, Value.truth.injEq]
              rw [Bool.eq_iff_iff, keptIff, truthIff]
              generalize (∀ arg ∈ args, ¬ MixedNe args arg → Holds point arg) = othersHold
              generalize (∃ arg ∈ args, MixedNe args arg) = mixed
              tauto

end Truth

end Conjunctions

end TorchSpyre.Scratchpad.CostExpr
