import Mathlib

/-!
# Exchanging neighbours inside a moving window

Neighbours are exchanged when they are out of order by a rank.  A window holds the places that may
be out of order; it steps back after an exchange and grows when the exchange happens at its end.
Every exchange takes one inversion away, so the window closes.
-/

namespace Lib

variable {α Rank : Type*} [LinearOrder Rank]

/-- Pairs in which the later item ranks lower. -/
def inversions (rank : α → Rank) : List α → ℕ
  | [] => 0
  | first :: rest => rest.countP (fun later => rank later < rank first) + inversions rank rest

/-- An exchange of neighbours out of order removes an inversion. -/
theorem inversions_exchange {rank : α → Rank} {first second : α} (lower : rank second < rank first)
    (front back : List α) :
    inversions rank (front ++ second :: first :: back) <
      inversions rank (front ++ first :: second :: back) := by
  induction front with
  | nil =>
      have kept : ¬rank first < rank second := lower.asymm
      simp only [List.nil_append, inversions, List.countP_cons, kept, lower, decide_true,
        decide_false, if_true, Bool.false_eq_true, if_false]
      omega
  | cons head front inductionHypothesis =>
      have moved : (front ++ second :: first :: back).Perm (front ++ first :: second :: back) :=
        List.Perm.append_left front (List.Perm.swap first second back)
      simp only [List.cons_append, inversions, moved.countP_eq]
      exact Nat.add_lt_add_left inductionHypothesis _

/-! ## Exchanges -/

/-- The items with two neighbours exchanged. -/
def exchange (items : List α) (index : ℕ) : List α :=
  match items[index]?, items[index + 1]? with
  | some first, some second => (items.set index second).set (index + 1) first
  | _, _ => items

theorem exchange_eq {items : List α} {index : ℕ} {first second : α}
    (isFirst : items[index]? = some first) (isSecond : items[index + 1]? = some second) :
    exchange items index = (items.set index second).set (index + 1) first := by
  rw [exchange, isFirst, isSecond]

theorem length_exchange (items : List α) (index : ℕ) :
    (exchange items index).length = items.length := by
  rw [exchange]
  split
  next => rw [List.length_set, List.length_set]
  next => rfl

/-- The two neighbours, between what stands before and after them. -/
theorem exists_neighbours {items : List α} {index : ℕ} {first second : α}
    (isFirst : items[index]? = some first) (isSecond : items[index + 1]? = some second) :
    ∃ front back, items = front ++ first :: second :: back ∧
      exchange items index = front ++ second :: first :: back := by
  obtain ⟨inside, here⟩ := List.getElem?_eq_some_iff.mp isFirst
  obtain ⟨nextInside, next⟩ := List.getElem?_eq_some_iff.mp isSecond
  refine ⟨items.take index, items.drop (index + 2), ?_, ?_⟩
  · rw [← here, ← next, List.getElem_cons_drop, List.getElem_cons_drop, List.take_append_drop]
  · have split : items = items.take index ++ first :: second :: items.drop (index + 2) := by
      rw [← here, ← next, List.getElem_cons_drop, List.getElem_cons_drop, List.take_append_drop]
    have length : (items.take index).length = index := by
      rw [List.length_take]
      omega
    rw [exchange_eq isFirst isSecond]
    conv_lhs => rw [split]
    rw [List.set_append_right _ _ (Nat.le_of_eq length), length, Nat.sub_self, List.set_cons_zero,
      List.set_append_right _ _ (by omega), length, Nat.add_sub_cancel_left, List.set_cons_succ,
      List.set_cons_zero]

theorem getElem?_exchange_of_ne {items : List α} {index other : ℕ} (notFirst : other ≠ index)
    (notSecond : other ≠ index + 1) : (exchange items index)[other]? = items[other]? := by
  rw [exchange]
  split
  next => rw [List.getElem?_set_ne notSecond.symm, List.getElem?_set_ne notFirst.symm]
  next => rfl

theorem getElem?_exchange_first {items : List α} {index : ℕ} {first second : α}
    (isFirst : items[index]? = some first) (isSecond : items[index + 1]? = some second) :
    (exchange items index)[index]? = some second := by
  obtain ⟨inside, -⟩ := List.getElem?_eq_some_iff.mp isFirst
  rw [exchange_eq isFirst isSecond, List.getElem?_set_ne (Nat.succ_ne_self index),
    List.getElem?_set_self inside]

theorem getElem?_exchange_second {items : List α} {index : ℕ} {first second : α}
    (isFirst : items[index]? = some first) (isSecond : items[index + 1]? = some second) :
    (exchange items index)[index + 1]? = some first := by
  obtain ⟨inside, -⟩ := List.getElem?_eq_some_iff.mp isSecond
  rw [exchange_eq isFirst isSecond, List.getElem?_set_self (by rwa [List.length_set])]

/-! ## The window -/

/-- The neighbours at a place need no exchange. -/
def CleanAt (disordered : α → α → Bool) (items : List α) (index : ℕ) : Prop :=
  ∀ first second, items[index]? = some first → items[index + 1]? = some second →
    disordered first second = false

theorem CleanAt.congr {disordered : α → α → Bool} {items others : List α} {index : ℕ}
    (clean : CleanAt disordered items index) (sameFirst : others[index]? = items[index]?)
    (sameSecond : others[index + 1]? = items[index + 1]?) : CleanAt disordered others index := by
  intro first second isFirst isSecond
  exact clean first second (sameFirst ▸ isFirst) (sameSecond ▸ isSecond)

/-- The places from `lower` to `upper` may be out of order, all others are clean. -/
def Window (disordered : α → α → Bool) (items : List α) (lower upper : ℕ) : Prop :=
  ∀ index, index < lower ∨ upper < index → CleanAt disordered items index

/-- The lower end after an exchange. -/
def retreat (lower : ℕ) : ℕ := if 0 < lower then lower - 1 else 1

/-- The upper end after an exchange at `lower`. -/
def extend (length lower upper : ℕ) : ℕ :=
  if lower = upper ∧ upper + 2 < length then upper + 1 else upper

theorem extend_inside {length lower upper : ℕ} (inside : upper + 2 ≤ length) :
    extend length lower upper + 2 ≤ length := by
  rw [extend]
  split <;> omega

section Steps

variable {disordered : α → α → Bool} {items : List α} {lower upper : ℕ}
  (inside : upper + 2 ≤ items.length)

include inside in
/-- An open window holds two neighbours at its lower end. -/
theorem exists_neighbours_of_open (isOpen : lower ≤ upper) :
    ∃ first second, items[lower]? = some first ∧ items[lower + 1]? = some second := by
  have first : lower < items.length := by omega
  have second : lower + 1 < items.length := by omega
  exact ⟨_, _, List.getElem?_eq_getElem first, List.getElem?_eq_getElem second⟩

/-- Clean neighbours leave the window. -/
theorem Window.advance (window : Window disordered items lower upper)
    (clean : CleanAt disordered items lower) : Window disordered items (lower + 1) upper := by
  rintro index (before | after)
  · rcases Nat.eq_or_lt_of_le (Nat.le_of_lt_succ before) with rfl | earlier
    · exact clean
    · exact window index (.inl earlier)
  · exact window index (.inr after)

/-- The window after an exchange at its lower end. -/
theorem Window.exchange (window : Window disordered items lower upper) (isOpen : lower ≤ upper)
    {first second : α} (isFirst : items[lower]? = some first)
    (isSecond : items[lower + 1]? = some second) (ordered : disordered second first = false) :
    Window disordered (exchange items lower) (retreat lower) (extend items.length lower upper) := by
  intro index outside
  unfold retreat extend at outside
  -- Only the exchanged neighbours and the pairs on either side of them are new.
  by_cases isExchanged : index = lower
  · subst isExchanged
    intro one other isOne isOther
    rw [getElem?_exchange_first isFirst isSecond, Option.some.injEq] at isOne
    rw [getElem?_exchange_second isFirst isSecond, Option.some.injEq] at isOther
    rw [← isOne, ← isOther]
    exact ordered
  · by_cases isNext : index = lower + 1
    · subst isNext
      intro one other _ isOther
      obtain ⟨bounded, -⟩ := List.getElem?_eq_some_iff.mp isOther
      rw [length_exchange] at bounded
      split at outside <;> split at outside <;> omega
    · have notBefore : index + 1 ≠ lower := by
        intro before
        split at outside <;> split at outside <;> omega
      have unchanged : CleanAt disordered items index := by
        apply window
        split at outside <;> split at outside <;> omega
      apply unchanged.congr
      · exact getElem?_exchange_of_ne isExchanged isNext
      · exact getElem?_exchange_of_ne notBefore (by omega)

/-- Nothing is out of order once the window is closed. -/
theorem Window.closed (window : Window disordered items lower upper) (isClosed : upper < lower)
    (index : ℕ) : CleanAt disordered items index := by
  apply window
  omega

end Steps

end Lib
