import TorchSpyre.Ownership.OperationMapping

/-!
# Cores as digits

Every mapping that is derived reads the core number as one digit per dimension,
in some order of the dimensions (`Follows`).  So the cores are in bijection with
the slot tuples, and the search over orders is a search over the ways to place
the constrained dimensions outermost.
-/

namespace TorchSpyre.Ownership

open Lib Lib.Symbolic Lib.Positional

/-! ## Orders -/

theorem mem_permutationsOf {α : Type} {items order : List α} {length : ℕ}
    (sameLength : items.length = length) :
    order ∈ permutationsOf length items ↔ order.Perm items := by
  induction length generalizing items order with
  | zero =>
      rw [List.length_eq_zero_iff] at sameLength
      subst sameLength
      rw [permutationsOf, List.mem_singleton, List.perm_nil]
  | succ length inductionHypothesis =>
      simp only [permutationsOf, List.mem_flatMap, List.mem_range]
      have shorter : ∀ position < items.length, (items.eraseIdx position).length = length := by
        intro position inside
        rw [List.length_eraseIdx_of_lt inside, sameLength, Nat.add_sub_cancel]
      constructor
      · rintro ⟨position, inside, found⟩
        rw [List.getElem?_eq_getElem inside] at found
        obtain ⟨rest, isRest, rfl⟩ := List.mem_map.mp found
        have permuted := (inductionHypothesis (shorter position inside)).mp isRest
        exact (permuted.cons _).trans (List.getElem_cons_eraseIdx_perm inside)
      · intro permuted
        rcases order with _ | ⟨item, rest⟩
        · have empty := permuted.length_eq
          rw [sameLength] at empty
          cases empty
        · have listed : item ∈ items := permuted.mem_iff.mp List.mem_cons_self
          obtain ⟨position, inside, rfl⟩ := List.getElem_of_mem listed
          refine ⟨position, inside, ?_⟩
          rw [List.getElem?_eq_getElem inside]
          apply List.mem_map.mpr
          refine ⟨rest, (inductionHypothesis (shorter position inside)).mpr ?_, rfl⟩
          exact (permuted.trans (List.getElem_cons_eraseIdx_perm inside).symm).cons_inv

/-! ## Digits -/

/-- Every formula is a digit of the core, over the dimensions in this order. -/
def Follows (mapping : List (Symbol × Expr)) (order : List (Symbol × ℕ)) : Prop :=
  ∀ dim ∈ order.map Prod.fst, ∃ formula, mapping.lookup dim = some formula ∧
    (∀ name ∈ formula.freeSymbols, name = coreId) ∧
    ∀ point, formula.eval point = digitOf order dim (point coreId)

/-- The slot of a core along a dimension. -/
def slotOf (mapping : List (Symbol × Expr)) (dim : Symbol) (core : ℕ) : Option ℤ :=
  (mapping.lookup dim).bind (ownerAtCore · core)

theorem Follows.slotOf_eq {mapping : List (Symbol × Expr)} {order : List (Symbol × ℕ)}
    (follows : Follows mapping order) {dim : Symbol} (listed : dim ∈ order.map Prod.fst)
    (core : ℕ) : slotOf mapping dim core = some (digitOf order dim core : ℤ) := by
  obtain ⟨formula, found, only, evaluated⟩ := follows dim listed
  rw [slotOf, found, Option.bind_some]
  exact Expr.integerAt_of_nat only (evaluated _)

/-! ## Canonical mappings -/

theorem sliceFormulas_follows {order : List (Symbol × ℕ)} (positive : ∀ entry ∈ order, 0 < entry.2)
    (stride : ℕ) {dim : Symbol} (listed : dim ∈ order.map Prod.fst) :
    ∃ formula, (sliceFormulas stride order).lookup dim = some formula ∧
      (∀ name ∈ formula.freeSymbols, name = coreId) ∧
      ∀ point, formula.eval point = digitOf order dim (point coreId / stride) := by
  induction order generalizing stride with
  | nil => cases listed
  | cons entry order inductionHypothesis =>
      obtain ⟨name, split⟩ := entry
      rw [List.forall_mem_cons] at positive
      have modulus : (split.toPNat' : ℕ) = split := by
        rw [Nat.toPNat'_coe, if_pos positive.1]
      by_cases same : dim = name
      · subst same
        rw [sliceFormulas, List.lookup_cons_self]
        refine ⟨_, rfl, ?_, ?_⟩
        · split
          next => exact fun name free => nomatch free
          next =>
            split <;> exact fun name free => List.mem_singleton.mp (Expr.mem_freeSymbols.mp free)
        · intro point
          have here : (Expr.sym coreId).eval point = (point coreId : ℕ) := rfl
          rw [digitOf, if_pos rfl]
          split
          next single => simp [Expr.eval, single, Nat.mod_one]
          next =>
            split
            next unit => rw [Expr.eval_mod_of_nat _ here, modulus, unit, Nat.div_one]
            next => rw [Expr.eval_mod_of_nat _ (Expr.eval_floor_quotient stride here), modulus]
      · have different : (dim == name) = false := beq_eq_false_iff_ne.mpr same
        have later : dim ∈ order.map Prod.fst := (List.mem_cons.mp listed).resolve_left same
        obtain ⟨formula, found, only, evaluated⟩ :=
          inductionHypothesis positive.2 (stride * split) later
        refine ⟨formula, ?_, only, ?_⟩
        · rw [sliceFormulas, List.lookup_cons, different]
          exact found
        · intro point
          rw [digitOf, if_neg same, evaluated, Nat.div_div_eq_div_mul]

/-- The dimensions in list order, a split dimension moved first. -/
def contiguousFirst (pairs : List (Symbol × ℕ)) (position : Option ℕ) : List (Symbol × ℕ) :=
  match position.bind fun position => (pairs[position]?).map (position, ·) with
  | none => pairs
  | some (position, dim, split) =>
      if 1 < split then (dim, split) :: pairs.eraseIdx position else pairs

theorem contiguousFirst_perm (pairs : List (Symbol × ℕ)) (position : Option ℕ) :
    (contiguousFirst pairs position).Perm pairs := by
  unfold contiguousFirst
  split
  next => exact .refl _
  next index dim split found =>
    split
    next =>
      obtain ⟨_, rfl, found⟩ := Option.bind_eq_some_iff.mp found
      obtain ⟨entry, present, same⟩ := Option.map_eq_some_iff.mp found
      cases same
      obtain ⟨inside, isEntry⟩ := List.getElem?_eq_some_iff.mp present
      have moved := List.getElem_cons_eraseIdx_perm inside
      rwa [isEntry] at moved
    next => exact .refl _

theorem zip_fst_snd (pairs : List (Symbol × ℕ)) :
    (pairs.map Prod.fst).zip (pairs.map Prod.snd) = pairs := by
  rw [← List.unzip_fst, ← List.unzip_snd, List.zip_unzip]

theorem coreToSliceMapping_eq {pairs : List (Symbol × ℕ)} (position : Option ℕ) :
    coreToSliceMapping (pairs.map Prod.fst) (pairs.map Prod.snd) (capacity pairs) position =
      .ok (sliceFormulas 1 (contiguousFirst pairs position)) := by
  unfold coreToSliceMapping contiguousFirst
  have sameLength : ¬ (pairs.map Prod.fst).length ≠ (pairs.map Prod.snd).length := by simp
  have divides : ¬ (capacity pairs < (pairs.map Prod.snd).prod ∨
      capacity pairs % (pairs.map Prod.snd).prod ≠ 0) := by simp [capacity]
  rw [if_neg sameLength, if_neg divides, zip_fst_snd]
  dsimp only
  generalize (position.bind fun position => (pairs[position]?).map (position, ·)) = moved
  rcases moved with _ | ⟨index, dim, split⟩
  · rfl
  · dsimp only
    split <;> rfl

theorem contiguousFirst_follows {pairs : List (Symbol × ℕ)}
    (positive : ∀ entry ∈ pairs, 0 < entry.2) (position : Option ℕ) :
    Follows (sliceFormulas 1 (contiguousFirst pairs position)) (contiguousFirst pairs position) := by
  intro dim listed
  have inOrder : ∀ entry ∈ contiguousFirst pairs position, 0 < entry.2 := fun entry member =>
    positive entry ((contiguousFirst_perm pairs position).mem_iff.mp member)
  obtain ⟨formula, found, only, evaluated⟩ := sliceFormulas_follows inOrder 1 listed
  refine ⟨formula, found, only, ?_⟩
  intro point
  rw [evaluated, Nat.div_one]

/-! ## Derived mappings -/

theorem lookup_rebased (sympy : Sympy) (core : Expr) (mapping : List (Symbol × Expr))
    (dim : Symbol) : (rebased sympy core mapping).lookup dim =
      (mapping.lookup dim).map fun formula => sympy.auto (formula.replaceSymbol coreId core) := by
  induction mapping with
  | nil => rfl
  | cons entry mapping inductionHypothesis =>
      rw [rebased, List.map_cons, List.lookup_cons, List.lookup_cons]
      split
      next => rfl
      next => exact inductionHypothesis

/-- SymPy's evaluation brings no symbols in. -/
def KeepsSymbols (sympy : Sympy) : Prop :=
  ∀ expr name, name ∈ (sympy.auto expr).freeSymbols → name ∈ expr.freeSymbols

section Derived

variable {sympy : Sympy} (keeps : KeepsSymbols sympy) {pairs grouped : List (Symbol × ℕ)}
  {contiguousDim : Option Symbol}

include keeps in
theorem rebased_digit {core : Expr} (only : ∀ name ∈ core.freeSymbols, name = coreId)
    (number : ℕ → ℕ) (evaluated : ∀ point, core.eval point = number (point coreId))
    {mapping : List (Symbol × Expr)} {order : List (Symbol × ℕ)} (follows : Follows mapping order)
    {dim : Symbol} (listed : dim ∈ order.map Prod.fst) :
    ∃ formula, (rebased sympy core mapping).lookup dim = some formula ∧
      (∀ name ∈ formula.freeSymbols, name = coreId) ∧
      ∀ point, formula.eval point = digitOf order dim (number (point coreId)) := by
  obtain ⟨formula, found, formulaOnly, digit⟩ := follows dim listed
  refine ⟨sympy.auto (formula.replaceSymbol coreId core), ?_, ?_, ?_⟩
  · rw [lookup_rebased, found, Option.map_some]
  · intro name free
    rcases Expr.mem_freeSymbols_replaceSymbol (keeps _ _ free) with ⟨kept, -⟩ | brought
    · exact formulaOnly name kept
    · exact only name brought
  · intro point
    rw [sympy.auto_eval, Expr.eval_replaceSymbol_of_nat (evaluated point), digit,
      Function.update_self]

/-- The order of the mapping that no tensor constrains. -/
def defaultOrder (pairs : List (Symbol × ℕ)) (contiguousDim : Option Symbol) :
    List (Symbol × ℕ) :=
  contiguousFirst pairs (positionOf (pairs.map Prod.fst) contiguousDim)

theorem deriveCoreMapping_default (sympy : Sympy) (positive : ∀ entry ∈ pairs, 0 < entry.2) :
    ∃ mapping, deriveCoreMapping sympy (pairs.map Prod.fst) (pairs.map Prod.snd) (capacity pairs)
        contiguousDim [] = .ok mapping ∧
      Follows mapping (defaultOrder pairs contiguousDim) := by
  refine ⟨_, ?_, contiguousFirst_follows positive (positionOf (pairs.map Prod.fst) contiguousDim)⟩
  have sameLength : ¬ (pairs.map Prod.fst).length ≠ (pairs.map Prod.snd).length := by simp
  have sameProduct : ¬ (pairs.map Prod.snd).prod ≠ capacity pairs := fun differs => differs rfl
  rw [deriveCoreMapping, if_neg sameLength, if_neg sameProduct]
  simp [groupedMismatch, sliced, coreToSliceMapping_eq]

/-- The groups are dimensions of the operation, with its splits. -/
structure Groups (pairs grouped : List (Symbol × ℕ)) : Prop where
  distinct : (pairs.map Prod.fst).Nodup
  positive : ∀ entry ∈ pairs, 0 < entry.2
  groupedDistinct : (grouped.map Prod.fst).Nodup
  subset : grouped ⊆ pairs

namespace Groups

theorem perm (groups : Groups pairs grouped) : (localPairs pairs grouped ++ grouped).Perm pairs := by
  have nodupPairs : pairs.Nodup := .of_map _ groups.distinct
  have nodupGrouped : grouped.Nodup := .of_map _ groups.groupedDistinct
  have disjoint : (localPairs pairs grouped).Disjoint grouped := by
    intro entry isLocal isGrouped
    have outside := of_decide_eq_true (List.mem_filter.mp isLocal).2
    exact outside (List.mem_map_of_mem isGrouped)
  apply (List.perm_ext_iff_of_nodup ((nodupPairs.filter _).append nodupGrouped disjoint)
    nodupPairs).mpr
  intro entry
  rw [List.mem_append]
  constructor
  · rintro (isLocal | isGrouped)
    · exact (List.mem_filter.mp isLocal).1
    · exact groups.subset isGrouped
  · intro listed
    by_cases named : entry.1 ∈ grouped.map Prod.fst
    · obtain ⟨other, isGrouped, sameName⟩ := List.mem_map.mp named
      have same : other = entry :=
        List.inj_on_of_nodup_map groups.distinct (groups.subset isGrouped) listed sameName
      exact .inr (same ▸ isGrouped)
    · exact .inl (List.mem_filter.mpr ⟨listed, decide_eq_true named⟩)

theorem capacity_eq (groups : Groups pairs grouped) :
    capacity pairs = capacity (localPairs pairs grouped) * capacity grouped := by
  rw [← capacity_perm groups.perm, capacity_append]

theorem groupedPositive (groups : Groups pairs grouped) : ∀ entry ∈ grouped, 0 < entry.2 :=
  fun entry listed => groups.positive entry (groups.subset listed)

theorem localPositive (groups : Groups pairs grouped) :
    ∀ entry ∈ localPairs pairs grouped, 0 < entry.2 :=
  fun entry listed => groups.positive entry (List.mem_filter.mp listed).1

end Groups

theorem groupedMismatch_eq_none (groups : Groups pairs grouped) :
    groupedMismatch pairs grouped = none := by
  apply List.findSome?_eq_none_iff.mpr
  intro entry listed
  rw [if_pos (lookup_of_mem groups.distinct (groups.subset listed))]

/-- The order inside the groups. -/
def innerOrder (pairs grouped : List (Symbol × ℕ)) (contiguousDim : Option Symbol) :
    List (Symbol × ℕ) :=
  defaultOrder (localPairs pairs grouped) contiguousDim

theorem innerOrder_perm (pairs grouped : List (Symbol × ℕ)) (contiguousDim : Option Symbol) :
    (innerOrder pairs grouped contiguousDim).Perm (localPairs pairs grouped) :=
  contiguousFirst_perm _ _

theorem not_grouped_of_inner {dim : Symbol}
    (listed : dim ∈ (innerOrder pairs grouped contiguousDim).map Prod.fst) :
    dim ∉ grouped.map Prod.fst := by
  obtain ⟨entry, isInner, rfl⟩ := List.mem_map.mp listed
  have isLocal := (innerOrder_perm pairs grouped contiguousDim).mem_iff.mp isInner
  exact of_decide_eq_true (List.mem_filter.mp isLocal).2

theorem map_fst_sliceFormulas (stride : ℕ) (order : List (Symbol × ℕ)) :
    (sliceFormulas stride order).map Prod.fst = order.map Prod.fst := by
  induction order generalizing stride with
  | nil => rfl
  | cons entry order inductionHypothesis =>
      rw [sliceFormulas, List.map_cons, List.map_cons, inductionHypothesis]

theorem lookup_sliceFormulas_eq_none {order : List (Symbol × ℕ)} {dim : Symbol}
    (missing : dim ∉ order.map Prod.fst) (stride : ℕ) :
    (sliceFormulas stride order).lookup dim = none := by
  apply List.lookup_eq_none_iff.mpr
  intro entry listed
  apply bne_iff_ne.mpr
  rintro rfl
  rw [← map_fst_sliceFormulas stride] at missing
  exact missing (List.mem_map_of_mem listed)

include keeps in
theorem groupId_only (groupSize : ℕ) : ∀ name ∈ (groupId sympy groupSize).freeSymbols, name = coreId :=
  fun name free => List.mem_singleton.mp (Expr.mem_freeSymbols.mp
    (keeps (.floor (.mul (.const (1 / groupSize)) (.sym coreId))) name free))

include keeps in
theorem localCoreId_only (groupSize : ℕ) :
    ∀ name ∈ (localCoreId sympy groupSize).freeSymbols, name = coreId :=
  fun name free => List.mem_singleton.mp (Expr.mem_freeSymbols.mp
    (keeps (.mod (.sym coreId) groupSize.toPNat') name free))

theorem groupId_eval (sympy : Sympy) (groupSize : ℕ) (point : Point) :
    (groupId sympy groupSize).eval point = (point coreId / groupSize : ℕ) := by
  rw [groupId, sympy.auto_eval]
  exact Expr.eval_floor_quotient groupSize rfl

theorem localCoreId_eval (sympy : Sympy) {groupSize : ℕ} (positive : 0 < groupSize)
    (point : Point) : (localCoreId sympy groupSize).eval point = (point coreId % groupSize : ℕ) := by
  have here : (Expr.sym coreId).eval point = (point coreId : ℕ) := rfl
  rw [localCoreId, sympy.auto_eval, Expr.eval_mod_of_nat _ here, Nat.toPNat'_coe, if_pos positive]

include keeps in
theorem groupedMapping_follows (groups : Groups pairs grouped) :
    ∃ mapping, groupedMapping sympy (localPairs pairs grouped) grouped
        (capacity (localPairs pairs grouped)) contiguousDim = .ok mapping ∧
      Follows mapping (innerOrder pairs grouped contiguousDim ++ grouped) := by
  have localPositive := capacity_pos groups.localPositive
  have sameCapacity := capacity_perm (innerOrder_perm pairs grouped contiguousDim)
  have owners : coreToSliceMapping (grouped.map Prod.fst) (grouped.map Prod.snd)
      (capacity grouped) none = .ok (sliceFormulas 1 grouped) := coreToSliceMapping_eq none
  have groupFollows : Follows (sliceFormulas 1 grouped) grouped :=
    contiguousFirst_follows groups.groupedPositive none
  refine ⟨_, by rw [groupedMapping, owners, coreToSliceMapping_eq]; rfl, ?_⟩
  intro dim listed
  rw [List.map_append, List.mem_append] at listed
  by_cases isGrouped : dim ∈ grouped.map Prod.fst
  · obtain ⟨formula, found, only, evaluated⟩ := rebased_digit keeps
      (groupId_only keeps _) (fun core => core / capacity (localPairs pairs grouped))
      (groupId_eval sympy _) groupFollows isGrouped
    refine ⟨formula, ?_, only, ?_⟩
    · rw [List.lookup_append, found, Option.some_or]
    · intro point
      rw [evaluated, ← sameCapacity,
        digitOf_append_of_not_mem fun isInner => not_grouped_of_inner isInner isGrouped]
  · have isInner := listed.resolve_right isGrouped
    obtain ⟨formula, found, only, evaluated⟩ := rebased_digit keeps
      (localCoreId_only keeps _) (fun core => core % capacity (localPairs pairs grouped))
      (localCoreId_eval sympy localPositive) (contiguousFirst_follows groups.localPositive _) isInner
    refine ⟨formula, ?_, only, ?_⟩
    · rw [List.lookup_append, lookup_rebased, lookup_sliceFormulas_eq_none isGrouped,
        Option.map_none, Option.none_or]
      exact found
    · intro point
      rw [evaluated, digitOf_append_of_mem isInner, ← sameCapacity]
      exact congrArg _ (digitOf_mod_capacity _ dim _)

include keeps in
theorem deriveCoreMapping_grouped (groups : Groups pairs grouped) (nonempty : grouped ≠ []) :
    ∃ mapping, deriveCoreMapping sympy (pairs.map Prod.fst) (pairs.map Prod.snd) (capacity pairs)
        contiguousDim grouped = .ok mapping ∧
      Follows mapping (innerOrder pairs grouped contiguousDim ++ grouped) := by
  have ownerPositive := capacity_pos groups.groupedPositive
  have groupSize : capacity pairs / capacity grouped = capacity (localPairs pairs grouped) := by
    rw [groups.capacity_eq, Nat.mul_div_cancel _ ownerPositive]
  obtain ⟨mapping, derived, follows⟩ : ∃ mapping, groupedMapping sympy (localPairs pairs grouped)
        grouped (capacity (localPairs pairs grouped)) contiguousDim = .ok mapping ∧
      Follows mapping (innerOrder pairs grouped contiguousDim ++ grouped) :=
    groupedMapping_follows keeps groups
  refine ⟨mapping, ?_, follows⟩
  have sameLength : ¬ (pairs.map Prod.fst).length ≠ (pairs.map Prod.snd).length := by simp
  have sameProduct : ¬ (pairs.map Prod.snd).prod ≠ capacity pairs := fun differs => differs rfl
  have allKnown : ¬ (grouped.map Prod.fst).filter (· ∉ pairs.map Prod.fst) ≠ [] := by
    rw [not_not]
    apply List.filter_eq_nil_iff.mpr
    intro dim listed
    obtain ⟨entry, isGrouped, rfl⟩ := List.mem_map.mp listed
    simpa using ⟨entry.2, groups.subset isGrouped⟩
  have divides : ¬ (capacity grouped = 0 ∨ capacity pairs % capacity grouped ≠ 0) := by
    rw [groups.capacity_eq, Nat.mul_mod_left]
    simpa using ownerPositive.ne'
  have filled : ¬ capacity (localPairs pairs grouped) ≠ capacity pairs / capacity grouped :=
    fun differs => differs groupSize.symm
  unfold deriveCoreMapping
  rw [if_neg sameLength, if_neg sameProduct, if_neg allKnown, zip_fst_snd,
    groupedMismatch_eq_none groups]
  dsimp only
  rw [if_neg nonempty, if_neg divides, if_neg filled, groupSize, derived]

end Derived

end TorchSpyre.Ownership
