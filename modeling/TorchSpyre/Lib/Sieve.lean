import Mathlib
import TorchSpyre.Lib.FirstSeen

/-!
# A weighted sieve

Every step adds its weight at its multiples, so a position ends up with the weight of the steps
that divide it.
-/

namespace Lib

/-- `counts[step::step] += weight` -/
def addEvery (step weight : ℕ) (counts : List ℕ) : List ℕ :=
  counts.mapIdx fun position count =>
    if step ≤ position ∧ (position - step) % step = 0 then count + weight else count

def sieveStep (size : ℕ) (counts : List ℕ) (entry : ℕ × ℕ) : List ℕ :=
  if entry.1 ≤ size then addEvery entry.1 entry.2 counts else counts

def sieve (size : ℕ) (steps : List (ℕ × ℕ)) : List ℕ :=
  steps.foldl (sieveStep size) (List.replicate (size + 1) 0)

@[simp]
theorem length_addEvery (step weight : ℕ) (counts : List ℕ) :
    (addEvery step weight counts).length = counts.length :=
  List.length_mapIdx

@[simp]
theorem length_sieveStep (size : ℕ) (counts : List ℕ) (entry : ℕ × ℕ) :
    (sieveStep size counts entry).length = counts.length := by
  unfold sieveStep
  split <;> simp

@[simp]
theorem length_sieve (size : ℕ) (steps : List (ℕ × ℕ)) : (sieve size steps).length = size + 1 := by
  unfold sieve
  suffices ∀ counts, (steps.foldl (sieveStep size) counts).length = counts.length by simp [this]
  induction steps with
  | nil => simp
  | cons entry rest inductionHypothesis =>
      intro counts
      simp [inductionHypothesis]

/-- A positive position is reached exactly by the steps that divide it. -/
theorem reaches_iff_dvd {step position : ℕ} (positive : 0 < position) :
    step ≤ position ∧ (position - step) % step = 0 ↔ step ∣ position := by
  constructor
  · rintro ⟨below, aligned⟩
    exact (Nat.dvd_sub_iff_left below (dvd_refl step)).mp (Nat.dvd_of_mod_eq_zero aligned)
  · intro divides
    exact ⟨Nat.le_of_dvd positive divides, Nat.mod_eq_zero_of_dvd (Nat.dvd_sub divides (dvd_refl step))⟩

theorem getD_sieveStep {size : ℕ} {counts : List ℕ} (full : counts.length = size + 1) (entry : ℕ × ℕ)
    {position : ℕ} (positive : 0 < position) (bounded : position ≤ size) :
    (sieveStep size counts entry).getD position 0 =
      counts.getD position 0 + if entry.1 ∣ position then entry.2 else 0 := by
  have inside : position < counts.length := by omega
  unfold sieveStep
  split
  next =>
    simp only [addEvery, List.getD_eq_getElem?_getD, List.getElem?_mapIdx, List.getElem?_eq_getElem inside,
      Option.map_some, Option.getD_some, reaches_iff_dvd positive]
    split <;> rfl
  next tooLarge =>
    rw [if_neg fun divides => tooLarge ((Nat.le_of_dvd positive divides).trans bounded), add_zero]

/-- The count at a position is the total weight of the steps that divide it. -/
theorem getD_sieve {size : ℕ} (steps : List (ℕ × ℕ)) {position : ℕ} (positive : 0 < position)
    (bounded : position ≤ size) :
    (sieve size steps).getD position 0 =
      ((steps.filter fun entry => entry.1 ∣ position).map Prod.snd).sum := by
  have folded : ∀ counts : List ℕ, counts.length = size + 1 →
      (steps.foldl (sieveStep size) counts).getD position 0 =
        counts.getD position 0 + ((steps.filter fun entry => entry.1 ∣ position).map Prod.snd).sum := by
    induction steps with
    | nil => simp
    | cons entry rest inductionHypothesis =>
        intro counts full
        rw [List.foldl_cons, inductionHypothesis _ (by simpa using full),
          getD_sieveStep full entry positive bounded, List.filter_cons]
        by_cases divides : entry.1 ∣ position <;> simp [divides, add_assoc]
  have empty : (List.replicate (size + 1) 0).getD position 0 = 0 := by
    simp [Nat.lt_succ_of_le bounded]
  rw [sieve, folded _ List.length_replicate, empty, zero_add]

/-! ## Weights by multiplicity -/

/-- Each distinct item with the number of times it occurs, in order of first occurrence. -/
def counter (items : List ℕ) : List (ℕ × ℕ) := (addAll [] items).map fun item => (item, items.count item)

/-- The occurrences of the distinct items with a property add up to all that have it. -/
theorem sum_counter (items : List ℕ) (keep : ℕ → Bool) :
    (((counter items).filter fun entry => keep entry.1).map Prod.snd).sum = items.countP keep := by
  have sameItems : (addAll [] items).Perm items.dedup := by
    rw [List.perm_ext_iff_of_nodup (nodup_addAll List.nodup_nil items) (List.nodup_dedup items)]
    simp
  have counted := ((sameItems.filter keep).map fun item => items.count item).sum_eq
  rw [List.sum_map_count_dedup_filter_eq_countP] at counted
  rw [← counted, counter, List.filter_map, List.map_map]
  rfl

end Lib
