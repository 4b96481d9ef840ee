import Mathlib

/-!
# Positional numerals over mixed radices

A list of radices, written most significant first, numbers the tuples of digits
below them; `number_bijOn` says that it numbers them without gaps.  Where the
digits are named, `digitOf` reads one off a number, the first name listed varying
fastest.
-/

namespace Lib.Positional

/-! ## Numbers from digits -/

def number : List ℕ → List ℕ → ℕ
  | _ :: radices, digit :: digits => digit * radices.prod + number radices digits
  | _, _ => 0

/-- Every digit is below its radix. -/
def Digits (radices digits : List ℕ) : Prop := List.Forall₂ (· < ·) digits radices

theorem number_lt {radices digits : List ℕ} (below : Digits radices digits) :
    number radices digits < radices.prod := by
  induction below with
  | nil => exact Nat.one_pos
  | @cons digit radix digits radices digitBelow _ inductionHypothesis =>
      rw [List.prod_cons]
      calc digit * radices.prod + number radices digits
          < digit * radices.prod + radices.prod := Nat.add_lt_add_left inductionHypothesis _
        _ = (digit + 1) * radices.prod := by ring
        _ ≤ radix * radices.prod := Nat.mul_le_mul_right _ digitBelow

theorem number_injective {radices first second : List ℕ} (firstBelow : Digits radices first)
    (secondBelow : Digits radices second) (same : number radices first = number radices second) :
    first = second := by
  induction firstBelow generalizing second with
  | nil =>
      cases secondBelow
      rfl
  | @cons digit radix digits radices _ below inductionHypothesis =>
      cases secondBelow with
      | @cons other _ others _ _ othersBelow =>
          have innerBelow := number_lt below
          have otherBelow := number_lt othersBelow
          have positive : 0 < radices.prod := Nat.zero_lt_of_lt innerBelow
          simp only [number] at same
          have sameDigit : digit = other := by
            have quotient := congrArg (· / radices.prod) same
            simpa only [Nat.mul_comm _ radices.prod, Nat.mul_add_div positive,
              Nat.div_eq_of_lt innerBelow, Nat.div_eq_of_lt otherBelow, Nat.add_zero] using quotient
          subst sameDigit
          rw [inductionHypothesis othersBelow (Nat.add_left_cancel same)]

theorem exists_number {radices : List ℕ} {value : ℕ} (below : value < radices.prod) :
    ∃ digits, Digits radices digits ∧ number radices digits = value := by
  induction radices generalizing value with
  | nil =>
      rw [List.prod_nil, Nat.lt_one_iff] at below
      exact ⟨[], .nil, below.symm⟩
  | cons radix radices inductionHypothesis =>
      rw [List.prod_cons] at below
      have positive : 0 < radices.prod := Nat.pos_of_mul_pos_left (Nat.zero_lt_of_lt below)
      obtain ⟨digits, inner, remainder⟩ := inductionHypothesis (Nat.mod_lt value positive)
      refine ⟨value / radices.prod :: digits, .cons ?_ inner, ?_⟩
      · apply Nat.div_lt_of_lt_mul
        rwa [Nat.mul_comm]
      · rw [number, remainder, Nat.mul_comm, Nat.div_add_mod]

/-- The tuples of digits are numbered without gaps. -/
theorem number_bijOn (radices : List ℕ) :
    Set.BijOn (number radices) {digits | Digits radices digits} (Set.Iio radices.prod) :=
  ⟨fun _ below => number_lt below, fun _ first _ second => number_injective first second,
    fun _ below => exists_number below⟩

/-- As many distinct tuples as there are tuples are all of them. -/
theorem exists_of_injective {radices : List ℕ} {tuples : ℕ → List ℕ}
    (below : ∀ step < radices.prod, Digits radices (tuples step))
    (injective : ∀ first < radices.prod, ∀ second < radices.prod,
      tuples first = tuples second → first = second)
    {wanted : List ℕ} (wantedBelow : Digits radices wanted) :
    ∃ step < radices.prod, tuples step = wanted := by
  let place : Fin radices.prod → Fin radices.prod := fun step =>
    ⟨number radices (tuples step), number_lt (below step step.isLt)⟩
  have placed : Function.Injective place := by
    intro first second same
    have sameTuple : tuples first = tuples second := number_injective (below first first.isLt)
      (below second second.isLt) (congrArg Fin.val same)
    exact Fin.ext (injective first first.isLt second second.isLt sameTuple)
  obtain ⟨step, found⟩ := (Finite.injective_iff_surjective.mp placed)
    ⟨number radices wanted, number_lt wantedBelow⟩
  refine ⟨step, step.isLt, ?_⟩
  exact number_injective (below step step.isLt) wantedBelow (congrArg Fin.val found)

/-! ## Named digits -/

section Named

variable {Key : Type} {order inner outer : List (Key × ℕ)}

def capacity (order : List (Key × ℕ)) : ℕ := (order.map Prod.snd).prod

theorem capacity_append (inner outer : List (Key × ℕ)) :
    capacity (inner ++ outer) = capacity inner * capacity outer := by
  rw [capacity, List.map_append, List.prod_append]
  rfl

theorem capacity_perm (same : inner.Perm outer) : capacity inner = capacity outer :=
  (same.map Prod.snd).prod_eq

theorem capacity_pos (positive : ∀ entry ∈ order, 0 < entry.2) : 0 < capacity order := by
  apply List.prod_pos
  intro radix found
  obtain ⟨entry, listed, rfl⟩ := List.mem_map.mp found
  exact positive entry listed

variable [DecidableEq Key] {key : Key}

/-- The digit of a name; the first name listed varies fastest. -/
def digitOf : List (Key × ℕ) → Key → ℕ → ℕ
  | [], _, _ => 0
  | (name, radix) :: rest, key, value =>
      if key = name then value % radix else digitOf rest key (value / radix)

theorem digitOf_append_of_mem (listed : key ∈ inner.map Prod.fst) (value : ℕ) :
    digitOf (inner ++ outer) key value = digitOf inner key value := by
  induction inner generalizing value with
  | nil => cases listed
  | cons entry inner inductionHypothesis =>
      simp only [List.cons_append, digitOf]
      split
      next => rfl
      next different =>
        apply inductionHypothesis
        exact (List.mem_cons.mp listed).resolve_left different

theorem digitOf_append_of_not_mem (missing : key ∉ inner.map Prod.fst) (value : ℕ) :
    digitOf (inner ++ outer) key value = digitOf outer key (value / capacity inner) := by
  induction inner generalizing value with
  | nil => simp [capacity]
  | cons entry inner inductionHypothesis =>
      rw [List.map_cons, List.mem_cons, not_or] at missing
      rw [List.cons_append, digitOf, if_neg missing.1, inductionHypothesis missing.2,
        Nat.div_div_eq_div_mul]
      rfl

/-- The digits do not see what is carried past them. -/
theorem digitOf_mod_capacity (order : List (Key × ℕ)) (key : Key) (value : ℕ) :
    digitOf order key (value % capacity order) = digitOf order key value := by
  induction order generalizing value with
  | nil => rfl
  | cons entry order inductionHypothesis =>
      have total : capacity (entry :: order) = entry.2 * capacity order := rfl
      simp only [digitOf, total]
      split
      next => exact Nat.mod_mul_right_mod _ _ _
      next => rw [Nat.mod_mul_right_div_self, inductionHypothesis]

theorem digitOf_lt (distinct : (order.map Prod.fst).Nodup) {radix : ℕ} (positive : 0 < radix)
    (listed : (key, radix) ∈ order) (value : ℕ) : digitOf order key value < radix := by
  induction order generalizing value with
  | nil => cases listed
  | cons entry order inductionHypothesis =>
      rw [List.map_cons, List.nodup_cons] at distinct
      rw [digitOf]
      rcases List.mem_cons.mp listed with same | later
      · subst same
        rw [if_pos rfl]
        exact Nat.mod_lt _ positive
      · have different : key ≠ entry.1 := by
          intro same
          exact distinct.1 (List.mem_map.mpr ⟨_, later, same⟩)
        rw [if_neg different]
        exact inductionHypothesis distinct.2 later _

/-- Every choice of digits is the digits of exactly one number. -/
theorem existsUnique_digits (distinct : (order.map Prod.fst).Nodup) (wanted : Key → ℕ)
    (below : ∀ entry ∈ order, wanted entry.1 < entry.2) :
    ∃! value, value < capacity order ∧
      ∀ entry ∈ order, digitOf order entry.1 value = wanted entry.1 := by
  induction order with
  | nil =>
      refine ⟨0, ⟨Nat.one_pos, fun entry listed => nomatch listed⟩, ?_⟩
      rintro value ⟨inside, -⟩
      exact Nat.lt_one_iff.mp inside
  | cons entry order inductionHypothesis =>
      obtain ⟨name, radix⟩ := entry
      rw [List.map_cons, List.nodup_cons] at distinct
      rw [List.forall_mem_cons] at below
      obtain ⟨value, ⟨inside, digits⟩, unique⟩ := inductionHypothesis distinct.2 below.2
      have positive : 0 < radix := Nat.zero_lt_of_lt below.1
      have total : capacity ((name, radix) :: order) = radix * capacity order := rfl
      have apart : ∀ other ∈ order, other.1 ≠ name := by
        intro other listed same
        exact distinct.1 (List.mem_map.mpr ⟨other, listed, same⟩)
      refine ⟨wanted name + radix * value, ⟨?_, ?_⟩, ?_⟩
      · rw [total]
        calc wanted name + radix * value < radix + radix * value := Nat.add_lt_add_right below.1 _
          _ = radix * (value + 1) := by ring
          _ ≤ radix * capacity order := Nat.mul_le_mul_left _ inside
      · rintro other (_ | ⟨_, listed⟩)
        · rw [digitOf, if_pos rfl, Nat.add_mul_mod_self_left, Nat.mod_eq_of_lt below.1]
        · rw [digitOf, if_neg (apart other listed), Nat.add_mul_div_left _ _ positive,
            Nat.div_eq_of_lt below.1, Nat.zero_add, digits other listed]
      · rintro other ⟨otherInside, otherDigits⟩
        rw [List.forall_mem_cons, digitOf, if_pos rfl] at otherDigits
        have quotient : other / radix = value := by
          apply unique
          refine ⟨Nat.div_lt_of_lt_mul otherInside, ?_⟩
          intro entry listed
          rw [← otherDigits.2 entry listed, digitOf, if_neg (apart entry listed)]
        rw [← quotient, ← otherDigits.1, Nat.mod_add_div]

end Named

end Lib.Positional
