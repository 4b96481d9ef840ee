import Mathlib

/-!
# Rounding, running maxima and the elements before a position

Facts about integers and lists used by address planners: rounding an address up
to an alignment, the running maximum of a list, and the part of a list before an
element.
-/

namespace Lib

/-- The order of the integers as a linear order, for definitions that are evaluated. -/
abbrev intOrder : Preorder ℤ := Int.instLinearOrder.toPartialOrder.toPreorder

/-! ## Rounding up -/

/-- The least multiple of a positive `unit` at or above `value`. -/
def roundUp (unit value : ℤ) : ℤ := (value + unit - 1) / unit * unit

section RoundUp

variable {unit : ℤ} (positive : 0 < unit)

theorem dvd_roundUp (unit value : ℤ) : unit ∣ roundUp unit value := Dvd.intro_left _ rfl

include positive

theorem le_roundUp (value : ℤ) : value ≤ roundUp unit value := by
  unfold roundUp
  have quotient := Int.mul_ediv_add_emod (value + unit - 1) unit
  have remainder := Int.emod_lt_of_pos (value + unit - 1) positive
  rw [mul_comm] at quotient
  omega

theorem roundUp_lt (value : ℤ) : roundUp unit value < value + unit := by
  unfold roundUp
  have quotient := Int.mul_ediv_add_emod (value + unit - 1) unit
  have remainder := Int.emod_nonneg (value + unit - 1) (ne_of_gt positive)
  rw [mul_comm] at quotient
  omega

theorem roundUp_zero : roundUp unit 0 = 0 := by
  unfold roundUp
  rw [zero_add, Int.ediv_eq_zero_of_lt (by omega) (by omega), zero_mul]

/-- Rounding up stays below a multiple. -/
theorem roundUp_le {value bound : ℤ} (divides : unit ∣ bound) (below : value ≤ bound) :
    roundUp unit value ≤ bound := by
  obtain ⟨quotient, rfl⟩ := divides
  obtain ⟨rounded, isRounded⟩ := dvd_roundUp unit value
  have close := roundUp_lt positive value
  rw [isRounded] at close ⊢
  apply Int.mul_le_mul_of_nonneg_left _ positive.le
  by_contra above
  have next : unit * (quotient + 1) ≤ unit * rounded :=
    Int.mul_le_mul_of_nonneg_left (by omega) positive.le
  rw [mul_add, mul_one] at next
  omega

theorem roundUp_mono {value bound : ℤ} (below : value ≤ bound) :
    roundUp unit value ≤ roundUp unit bound :=
  roundUp_le positive (dvd_roundUp unit bound) (below.trans (le_roundUp positive bound))

theorem roundUp_nonneg {value : ℤ} (nonnegative : 0 ≤ value) : 0 ≤ roundUp unit value :=
  le_trans nonnegative (le_roundUp positive value)

end RoundUp

/-! ## Running maxima -/

variable {Value : Type*} [LinearOrder Value]

theorem foldl_max_le_iff {values : List Value} {initial bound : Value} :
    values.foldl max initial ≤ bound ↔ initial ≤ bound ∧ ∀ value ∈ values, value ≤ bound := by
  induction values generalizing initial with
  | nil => simp
  | cons head tail inductionHypothesis =>
      rw [List.foldl_cons, inductionHypothesis, max_le_iff]
      simp [and_assoc]

theorem le_foldl_max_initial (values : List Value) (initial : Value) :
    initial ≤ values.foldl max initial :=
  (foldl_max_le_iff.1 (le_refl _)).1

theorem le_foldl_max (initial : Value) {values : List Value} {value : Value} (membership : value ∈ values) :
    value ≤ values.foldl max initial :=
  (foldl_max_le_iff.1 (le_refl _)).2 value membership

theorem le_foldl_min_iff {values : List ℤ} {initial bound : ℤ} :
    bound ≤ values.foldl min initial ↔ bound ≤ initial ∧ ∀ value ∈ values, bound ≤ value := by
  induction values generalizing initial with
  | nil => simp
  | cons head tail inductionHypothesis =>
      rw [List.foldl_cons, inductionHypothesis, le_min_iff]
      simp [and_assoc]

/-- A running maximum depends only on which values occur. -/
theorem foldl_max_congr {first second : List ℤ} (initial : ℤ)
    (sameMembers : ∀ value, value ∈ first ↔ value ∈ second) :
    first.foldl max initial = second.foldl max initial := by
  apply le_antisymm
  · exact foldl_max_le_iff.2 ⟨le_foldl_max_initial _ _,
      fun value membership => le_foldl_max _ ((sameMembers value).mp membership)⟩
  · exact foldl_max_le_iff.2 ⟨le_foldl_max_initial _ _,
      fun value membership => le_foldl_max _ ((sameMembers value).mpr membership)⟩

/-- Lowering the initial value below every element does not change the maximum
of a nonempty list. -/
theorem foldl_max_eq_of_le {values : List ℤ} {low high : ℤ} (ordered : low ≤ high)
    (reached : ∃ value ∈ values, high ≤ value) :
    values.foldl max low = values.foldl max high := by
  obtain ⟨value, membership, above⟩ := reached
  apply le_antisymm
  · exact foldl_max_le_iff.2 ⟨le_trans ordered (le_foldl_max_initial _ _),
      fun _ inside => le_foldl_max _ inside⟩
  · exact foldl_max_le_iff.2 ⟨le_trans above (le_foldl_max _ membership),
      fun _ inside => le_foldl_max _ inside⟩

theorem le_foldr_max {values : List ℕ} {value : ℕ} (inside : value ∈ values) :
    value ≤ values.foldr max 0 := by
  induction values with
  | nil => cases inside
  | cons head tail inductionHypothesis =>
      rw [List.foldr_cons]
      rcases List.mem_cons.mp inside with rfl | inTail
      · exact le_max_left _ _
      · exact le_trans (inductionHypothesis inTail) (le_max_right _ _)

/-! ## Pairwise relations -/

/-- Two members of a pairwise related list are related in one direction. -/
theorem pairwise_or {α : Type*} {relation : α → α → Prop} {list : List α}
    (pairwise : list.Pairwise relation) {first second : α} (firstIn : first ∈ list)
    (secondIn : second ∈ list) (distinct : first ≠ second) :
    relation first second ∨ relation second first := by
  have symmetric : Std.Symm fun left right => relation left right ∨ relation right left :=
    ⟨fun _ _ => Or.symm⟩
  have either : list.Pairwise fun left right => relation left right ∨ relation right left :=
    pairwise.imp Or.inl
  exact either.forall firstIn secondIn distinct

/-! ## The part of a list before an element -/

section Before

variable {α : Type*} [DecidableEq α]

def before (order : List α) (element : α) : List α := order.takeWhile fun other => other ≠ element

theorem before_append {first second : List α} {element : α} (absent : element ∉ first) :
    before (first ++ element :: second) element = first := by
  unfold before
  rw [List.takeWhile_append_of_pos]
  · simp
  · intro other membership
    simp only [ne_eq, decide_eq_true_eq]
    rintro rfl
    exact absent membership

theorem before_append_of_not_mem {first second : List α} {element : α} (absent : element ∉ first) :
    before (first ++ second) element = first ++ before second element := by
  unfold before
  rw [List.takeWhile_append_of_pos]
  intro other membership
  simp only [ne_eq, decide_eq_true_eq]
  rintro rfl
  exact absent membership

theorem before_cons_self (element : α) (rest : List α) : before (element :: rest) element = [] := by
  simp [before]

theorem before_cons_of_ne {head element : α} (distinct : head ≠ element) (rest : List α) :
    before (head :: rest) element = head :: before rest element := by
  simp [before, distinct]

theorem before_subset (order : List α) (element : α) : before order element ⊆ order :=
  (List.takeWhile_sublist _).subset

theorem before_of_mem_left {first second : List α} {element : α} (membership : element ∈ first) :
    before (first ++ second) element = before first element := by
  obtain ⟨left, right, rfl, absent⟩ := List.eq_append_cons_of_mem membership
  rw [List.append_assoc, List.cons_append, before_append absent, before_append absent]

theorem mem_before_of_append {first second : List α} {earlier element : α}
    (nodup : (first ++ second).Nodup) (isEarlier : earlier ∈ first)
    (membership : element ∈ second) : earlier ∈ before (first ++ second) element := by
  obtain ⟨left, right, rfl, absent⟩ := List.eq_append_cons_of_mem membership
  have notInFirst : element ∉ first := fun inside =>
    (List.nodup_append.mp nodup).2.2 element inside element membership rfl
  rw [← List.append_assoc, before_append (by simp [absent, notInFirst])]
  exact List.mem_append_left _ isEarlier

theorem mem_before_or_mem_before {order : List α} {first second : α} (firstIn : first ∈ order)
    (secondIn : second ∈ order) (distinct : first ≠ second) :
    first ∈ before order second ∨ second ∈ before order first := by
  obtain ⟨left, right, rfl, absent⟩ := List.eq_append_cons_of_mem firstIn
  by_cases inLeft : second ∈ left
  · rw [before_append absent]
    exact .inr inLeft
  · rw [before_append_of_not_mem inLeft, before_cons_of_ne distinct]
    exact .inl (by simp)

/-- What is before an earlier element, and the element, come first of what is before a later one. -/
theorem before_extends {order : List α} {earlier element : α} (membership : earlier ∈ before order element) :
    before order earlier ++ [earlier] <+: before order element := by
  have isPrefix : before order element <+: order := List.takeWhile_prefix _
  obtain ⟨rest, split⟩ := isPrefix
  obtain ⟨left, right, leftSplit, absent⟩ := List.eq_append_cons_of_mem membership
  have beforeEq : before order earlier = left := by
    rw [← split, leftSplit, List.append_assoc, List.cons_append, before_append absent]
  rw [beforeEq, leftSplit]
  exact ⟨right, by simp⟩

theorem length_before_lt {order : List α} {earlier element : α}
    (membership : earlier ∈ before order element) :
    (before order earlier).length < (before order element).length := by
  have shorter := (before_extends membership).length_le
  rw [List.length_append, List.length_singleton] at shorter
  omega

/-- What holds of an element as soon as it holds of all elements before it holds
everywhere. -/
theorem before_induction {order : List α} {motive : α → Prop}
    (step : ∀ element ∈ order, (∀ earlier ∈ before order element, motive earlier) →
      motive element) :
    ∀ element ∈ order, motive element := by
  have bounded : ∀ length, ∀ element ∈ order, (before order element).length < length →
      motive element := by
    intro length
    induction length with
    | zero => intro _ _ impossible; omega
    | succ length inductionHypothesis =>
        intro element membership bound
        refine step element membership fun earlier inside => ?_
        have shorter := length_before_lt inside
        exact inductionHypothesis earlier (before_subset _ _ inside) (by omega)
  exact fun element membership => bounded _ element membership (Nat.lt_succ_self _)

/-- The two orders differ by moving one element across a block. -/
def Crosses (moved : α) (block order other : List α) : Prop :=
  ∃ front back,
    (order = front ++ moved :: (block ++ back) ∧ other = front ++ (block ++ moved :: back)) ∨
    (order = front ++ (block ++ moved :: back) ∧ other = front ++ moved :: (block ++ back))

omit [DecidableEq α] in
theorem Crosses.perm {moved : α} {block order other : List α}
    (crosses : Crosses moved block order other) : order.Perm other := by
  obtain ⟨front, back, ⟨rfl, rfl⟩ | ⟨rfl, rfl⟩⟩ := crosses
  · exact (List.perm_middle.symm).append_left front
  · exact List.perm_middle.append_left front

/-- Moving an element across a block changes what is before what only between
the element and the block. -/
theorem mem_before_crosses {moved : α} {block front back : List α}
    (nodup : (front ++ moved :: (block ++ back)).Nodup) {element earlier : α}
    (notMoved : element = moved → earlier ∉ block) (notBlock : earlier = moved → element ∉ block) :
    earlier ∈ before (front ++ moved :: (block ++ back)) element ↔
      earlier ∈ before (front ++ (block ++ moved :: back)) element := by
  by_cases inFront : element ∈ front
  · rw [before_of_mem_left inFront, before_of_mem_left inFront]
  rw [before_append_of_not_mem inFront, before_append_of_not_mem inFront, List.mem_append,
    List.mem_append]
  refine or_congr_right ?_
  obtain ⟨-, movedNodup, -⟩ := List.nodup_append.mp nodup
  obtain ⟨movedFresh, -⟩ := List.nodup_cons.mp movedNodup
  by_cases isMoved : element = moved
  · subst isMoved
    have notInBlock : element ∉ block := fun inside =>
      movedFresh (List.mem_append_left _ inside)
    rw [before_cons_self, before_append notInBlock]
    simpa using notMoved rfl
  rw [before_cons_of_ne (Ne.symm isMoved)]
  by_cases inBlock : element ∈ block
  · have notEarlier : earlier ≠ moved := fun same => notBlock same inBlock
    rw [before_of_mem_left inBlock, before_of_mem_left inBlock, List.mem_cons]
    simp [notEarlier]
  · rw [before_append_of_not_mem inBlock, before_append_of_not_mem inBlock,
      before_cons_of_ne (Ne.symm isMoved)]
    simp only [List.mem_cons, List.mem_append]
    tauto

theorem Crosses.mem_before_iff {moved : α} {block order other : List α}
    (crosses : Crosses moved block order other) (nodup : order.Nodup) {element earlier : α}
    (notMoved : element = moved → earlier ∉ block) (notBlock : earlier = moved → element ∉ block) :
    earlier ∈ before order element ↔ earlier ∈ before other element := by
  have otherNodup := crosses.perm.nodup_iff.mp nodup
  obtain ⟨front, back, ⟨rfl, rfl⟩ | ⟨rfl, rfl⟩⟩ := crosses
  · exact mem_before_crosses nodup notMoved notBlock
  · exact (mem_before_crosses otherNodup notMoved notBlock).symm

end Before

end Lib
