import Mathlib

/-!
# Nested strides

Axes listed innermost first are nested when each steps over the whole of the one before it; gaps
between them are allowed.  A number then has greedy digits, read outermost axis first, and digits
below the sizes are the greedy digits of their sum.  Cutting every axis into parts and dividing
each stride by the parts lying inside it keeps the nesting.
-/

namespace Lib.NestedStrides

variable {Key : Type*}

section Nesting

variable (stride size : Key → ℕ)

/-- Each axis, innermost first, steps over the one before it. -/
def Nested (order : List Key) : Prop :=
  order.IsChain fun inner outer => stride inner * size inner ≤ stride outer

variable {stride size}

theorem Nested.pairwise {order : List Key} (nested : Nested stride size order)
    (positive : ∀ key ∈ order, 0 < size key) :
    order.Pairwise fun inner outer => stride inner * size inner ≤ stride outer := by
  induction order with
  | nil => exact .nil
  | cons first rest inductionHypothesis =>
      rw [List.forall_mem_cons] at positive
      have inside := inductionHypothesis nested.tail positive.2
      refine List.pairwise_cons.mpr ⟨?_, inside⟩
      cases rest with
      | nil => simp
      | cons second rest =>
          rw [Nested, List.isChain_cons_cons] at nested
          rw [List.forall_mem_cons] at positive
          intro key listed
          rcases List.mem_cons.mp listed with rfl | later
          · exact nested.1
          · calc stride first * size first ≤ stride second := nested.1
              _ ≤ stride second * size second := Nat.le_mul_of_pos_right _ positive.2.1
              _ ≤ stride key := (List.pairwise_cons.mp inside).1 key later

end Nesting

/-! ## Sums of digits -/

section Totals

variable (stride : Key → ℕ)

def total (order : List Key) (digits : Key → ℕ) : ℕ :=
  (order.map fun key => digits key * stride key).sum

variable {stride} {size : Key → ℕ}

theorem total_congr {order : List Key} {first second : Key → ℕ}
    (same : ∀ key ∈ order, first key = second key) :
    total stride order first = total stride order second := by
  unfold total
  rw [List.map_congr_left fun key listed => by rw [same key listed]]

theorem total_add (order : List Key) (first second : Key → ℕ) :
    total stride order (fun key => first key + second key) =
      total stride order first + total stride order second := by
  simp [total, Nat.add_mul, List.sum_map_add]

theorem total_mul (order : List Key) (digits : Key → ℕ) (factor : ℕ) :
    total stride order (fun key => digits key * factor) = total stride order digits * factor := by
  simp [total, Nat.mul_right_comm _ factor, List.sum_map_mul_right]

theorem total_sum {Part : Type*} (order : List Key) (parts : List Part) (digits : Part → Key → ℕ) :
    total stride order (fun key => (parts.map fun part => digits part key).sum) =
      (parts.map fun part => total stride order (digits part)).sum := by
  induction parts with
  | nil => simp [total]
  | cons part parts inductionHypothesis =>
      simp only [List.map_cons, List.sum_cons, total_add, inductionHypothesis]

theorem total_perm {order other : List Key} (same : order.Perm other) (digits : Key → ℕ) :
    total stride order digits = total stride other digits :=
  (same.map _).sum_eq

theorem total_filter {order : List Key} {digits : Key → ℕ} {keep : Key → Bool}
    (vanish : ∀ key ∈ order, keep key = false → digits key * stride key = 0) :
    total stride (order.filter keep) digits = total stride order digits := by
  induction order with
  | nil => rfl
  | cons key rest inductionHypothesis =>
      rw [List.forall_mem_cons] at vanish
      have inside := inductionHypothesis vanish.2
      cases kept : keep key with
      | true => simpa [total, kept] using inside
      | false => simpa [total, kept, vanish.1 kept] using inside

theorem total_reverse (order : List Key) (digits : Key → ℕ) :
    total stride order.reverse digits = total stride order digits :=
  total_perm order.reverse_perm digits

/-- Digits below the sizes do not reach an axis that lies outside all of theirs. -/
theorem total_lt {order : List Key} {digits : Key → ℕ} {bound : ℕ}
    (nested : order.Pairwise fun outer inner => stride inner * size inner ≤ stride outer)
    (steps : ∀ key ∈ order, 0 < stride key) (below : ∀ key ∈ order, digits key < size key)
    (positive : 0 < bound) (outside : ∀ key ∈ order, stride key * size key ≤ bound) :
    total stride order digits < bound := by
  induction order generalizing bound with
  | nil => exact positive
  | cons outer rest inductionHypothesis =>
      rw [List.pairwise_cons] at nested
      rw [List.forall_mem_cons] at steps below outside
      have inside := inductionHypothesis nested.2 steps.2 below.2 steps.1 nested.1
      calc total stride (outer :: rest) digits
          = digits outer * stride outer + total stride rest digits := by simp [total]
        _ < digits outer * stride outer + stride outer := Nat.add_lt_add_left inside _
        _ = stride outer * (digits outer + 1) := by ring
        _ ≤ stride outer * size outer := Nat.mul_le_mul_left _ below.1
        _ ≤ bound := outside.1

end Totals

/-! ## Greedy digits -/

section Digits

variable [DecidableEq Key] (stride : Key → ℕ)

/-- The digit of an axis; the axes are listed outermost first. -/
def digit : List Key → ℕ → Key → ℕ
  | [], _, _ => 0
  | outer :: rest, value, key =>
      if key = outer then value / stride outer else digit rest (value % stride outer) key

/-- What the digits leave of a value. -/
def remainder : List Key → ℕ → ℕ
  | [], value => value
  | outer :: rest, value => remainder rest (value % stride outer)

variable {stride} {size : Key → ℕ}

theorem total_digit_cons {outer : Key} {rest : List Key} (fresh : outer ∉ rest) (value : ℕ)
    (weight : Key → ℕ) :
    total weight (outer :: rest) (digit stride (outer :: rest) value) =
      value / stride outer * weight outer +
        total weight rest (digit stride rest (value % stride outer)) := by
  have inside : total weight rest (digit stride (outer :: rest) value) =
      total weight rest (digit stride rest (value % stride outer)) := by
    apply total_congr
    intro key listed
    have apart : key ≠ outer := fun same => fresh (same ▸ listed)
    simp [digit, apart]
  rw [← inside]
  simp [total, digit]

theorem total_digit_add_remainder {order : List Key} (distinct : order.Nodup) (value : ℕ) :
    total stride order (digit stride order value) + remainder stride order value = value := by
  induction order generalizing value with
  | nil => simp [total, remainder]
  | cons outer rest inductionHypothesis =>
      rw [List.nodup_cons] at distinct
      rw [total_digit_cons distinct.1, remainder, Nat.add_assoc, inductionHypothesis distinct.2,
        Nat.mul_comm, Nat.div_add_mod]

/-- Digits below the sizes are the greedy digits of their sum. -/
theorem digit_total {order : List Key} {digits : Key → ℕ} (distinct : order.Nodup)
    (nested : order.Pairwise fun outer inner => stride inner * size inner ≤ stride outer)
    (steps : ∀ key ∈ order, 0 < stride key) (below : ∀ key ∈ order, digits key < size key) :
    ∀ key ∈ order, digit stride order (total stride order digits) key = digits key := by
  induction order with
  | nil => exact fun key listed => nomatch listed
  | cons outer rest inductionHypothesis =>
      rw [List.pairwise_cons] at nested
      rw [List.nodup_cons] at distinct
      rw [List.forall_mem_cons] at steps below
      have inside : total stride rest digits < stride outer :=
        total_lt nested.2 steps.2 below.2 steps.1 nested.1
      have sum : total stride (outer :: rest) digits =
          stride outer * digits outer + total stride rest digits := by
        simp [total, Nat.mul_comm]
      intro key listed
      rw [digit, sum]
      split
      next same =>
        subst same
        rw [Nat.mul_add_div steps.1, Nat.div_eq_of_lt inside, Nat.add_zero]
      next different =>
        rw [Nat.mul_add_mod, Nat.mod_eq_of_lt inside]
        have later : key ∈ rest := (List.mem_cons.mp listed).resolve_left different
        exact inductionHypothesis distinct.2 nested.2 steps.2 below.2 key later

/-- Distinct digits below the sizes have distinct sums. -/
theorem eq_of_total {order : List Key} {first second : Key → ℕ} (distinct : order.Nodup)
    (nested : order.Pairwise fun inner outer => stride inner * size inner ≤ stride outer)
    (steps : ∀ key ∈ order, 0 < stride key) (firstBelow : ∀ key ∈ order, first key < size key)
    (secondBelow : ∀ key ∈ order, second key < size key)
    (same : total stride order first = total stride order second) :
    ∀ key ∈ order, first key = second key := by
  intro key listed
  have outermost := List.pairwise_reverse.mpr nested
  rw [← total_reverse, ← total_reverse order second] at same
  rw [← List.nodup_reverse] at distinct
  simp only [← @List.mem_reverse _ _ order] at steps firstBelow secondBelow listed
  rw [← digit_total distinct outermost steps firstBelow key listed, same,
    digit_total distinct outermost steps secondBelow key listed]

end Digits

/-! ## Cutting the axes into parts -/

section Cutting

variable [DecidableEq Key] (stride count : Key → ℕ)

/-- Each stride divided by the parts of the axes inside it; the axes are listed innermost first. -/
def shrunk : ℕ → List Key → Key → ℕ
  | _, [], _ => 0
  | running, inner :: rest, key =>
      if key = inner then stride inner / running else shrunk (running * count inner) rest key

/-- The parts divide the strides. -/
def Exact : ℕ → List Key → Prop
  | _, [] => True
  | running, inner :: rest => running ∣ stride inner ∧ Exact (running * count inner) rest

variable {stride count} {size part : Key → ℕ} {running : ℕ} {order : List Key}

theorem shrunk_cons_of_ne {inner key : Key} (apart : key ≠ inner) :
    shrunk stride count running (inner :: order) key =
      shrunk stride count (running * count inner) order key := by
  simp [shrunk, apart]

theorem shrunk_pos (exact : Exact stride count running order)
    (steps : ∀ key ∈ order, 0 < stride key) :
    ∀ key ∈ order, 0 < shrunk stride count running order key := by
  induction order generalizing running with
  | nil => exact fun key listed => nomatch listed
  | cons inner rest inductionHypothesis =>
      rw [List.forall_mem_cons] at steps
      intro key listed
      rw [shrunk]
      split
      next =>
        have positive : 0 < running := Nat.pos_of_dvd_of_pos exact.1 steps.1
        exact Nat.div_pos (Nat.le_of_dvd steps.1 exact.1) positive
      next different =>
        have later : key ∈ rest := (List.mem_cons.mp listed).resolve_left different
        exact inductionHypothesis exact.2 steps.2 key later

/-- The shrunk strides are nested over the parts. -/
theorem nested_shrunk (nested : Nested stride size order) (distinct : order.Nodup)
    (exact : Exact stride count running order) (steps : ∀ key ∈ order, 0 < stride key)
    (cut : ∀ key ∈ order, part key * count key = size key) :
    Nested (shrunk stride count running order) part order := by
  induction order generalizing running with
  | nil => exact .nil
  | cons first rest inductionHypothesis =>
      rw [List.forall_mem_cons] at steps cut
      rw [List.nodup_cons] at distinct
      have inside := inductionHypothesis nested.tail distinct.2 exact.2 steps.2 cut.2
      have restNested : Nested (shrunk stride count running (first :: rest)) part rest := by
        refine List.IsChain.imp_of_mem_imp ?_ inside
        intro inner outer innerListed outerListed step
        have innerApart : inner ≠ first := fun same => distinct.1 (same ▸ innerListed)
        have outerApart : outer ≠ first := fun same => distinct.1 (same ▸ outerListed)
        rwa [shrunk_cons_of_ne innerApart, shrunk_cons_of_ne outerApart]
      cases rest with
      | nil => exact List.isChain_singleton _
      | cons second rest =>
          refine List.isChain_cons_cons.mpr ⟨?_, restNested⟩
          rw [Nested, List.isChain_cons_cons] at nested
          have apart : second ≠ first := fun same => distinct.1 (same ▸ List.mem_cons_self)
          have positive : 0 < running * count first :=
            Nat.pos_of_dvd_of_pos exact.2.1 (steps.2 second List.mem_cons_self)
          rw [shrunk_cons_of_ne apart, shrunk, if_pos rfl, shrunk,
            if_pos rfl, Nat.le_div_iff_mul_le positive]
          calc stride first / running * part first * (running * count first)
              = stride first / running * running * (part first * count first) := by ring
            _ = stride first * size first := by rw [Nat.div_mul_cancel exact.1, cut.1]
            _ ≤ stride second := nested.1

/-- Cutting in two steps cuts by the product; axes left whole by neither step may be dropped. -/
theorem shrunk_shrunk {first second both cutStride : Key → ℕ} {keep : Key → Bool}
    {firstRunning secondRunning : ℕ} (distinct : order.Nodup)
    (product : ∀ key ∈ order, first key * second key = both key)
    (dropped : ∀ key ∈ order, keep key = false → second key = 1)
    (cutOnce : ∀ key ∈ order, keep key →
      cutStride key = shrunk stride first firstRunning order key) :
    ∀ key ∈ order, keep key → shrunk cutStride second secondRunning (order.filter keep) key =
      shrunk stride both (firstRunning * secondRunning) order key := by
  induction order generalizing firstRunning secondRunning with
  | nil => exact fun key listed => nomatch listed
  | cons inner rest inductionHypothesis =>
      rw [List.nodup_cons] at distinct
      rw [List.forall_mem_cons] at product dropped
      have restCut : ∀ key ∈ rest, keep key →
          cutStride key = shrunk stride first (firstRunning * first inner) rest key := by
        intro key listed kept
        have apart : key ≠ inner := fun same => distinct.1 (same ▸ listed)
        rw [cutOnce key (List.mem_cons_of_mem _ listed) kept, shrunk_cons_of_ne apart]
      intro key listed kept
      by_cases same : key = inner
      · subst same
        rw [List.filter_cons_of_pos kept]
        simp only [shrunk, if_pos]
        rw [cutOnce key List.mem_cons_self kept, shrunk, if_pos rfl, Nat.div_div_eq_div_mul]
      · have later : key ∈ rest := (List.mem_cons.mp listed).resolve_left same
        rw [shrunk_cons_of_ne same, ← product.1]
        cases keptInner : keep inner with
        | true =>
            rw [List.filter_cons_of_pos keptInner, shrunk_cons_of_ne same,
              inductionHypothesis distinct.2 product.2 dropped.2 restCut key later kept,
              Nat.mul_mul_mul_comm]
        | false =>
            rw [List.filter_cons_of_neg (by simp [keptInner]),
              inductionHypothesis distinct.2 product.2 dropped.2 restCut key later kept,
              dropped.1 keptInner]
            congr 1
            ring

end Cutting

end Lib.NestedStrides
