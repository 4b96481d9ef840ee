import Mathlib
import TorchSpyre.Lib.Outcome

/-!
# Dictionaries filled on a walk

A walk over a list enters keys with the position at which it meets them.
`setdefault` keeps the first entry of a key, assignment the last one.
-/

namespace Lib

variable {α κ : Type*}

/-- The keys of each element with its position, in the order of the walk. -/
def entries (keys : α → List κ) (list : List α) : List (κ × ℕ) :=
  list.zipIdx.flatMap fun step => (keys step.1).map fun key => (key, step.2)

theorem mem_entries {keys : α → List κ} {list : List α} {key : κ} {index : ℕ} :
    (key, index) ∈ entries keys list ↔
      ∃ element, list[index]? = some element ∧ key ∈ keys element := by
  unfold entries
  rw [List.mem_flatMap]
  constructor
  · rintro ⟨⟨element, position⟩, inList, inKeys⟩
    obtain ⟨other, isKey, same⟩ := List.mem_map.mp inKeys
    cases same
    exact ⟨element, List.mem_zipIdx_iff_getElem?.mp inList, isKey⟩
  · rintro ⟨element, located, isKey⟩
    exact ⟨(element, index), List.mem_zipIdx_iff_getElem?.mpr located,
      List.mem_map_of_mem isKey⟩

theorem entries_ordered (keys : α → List κ) (list : List α) :
    (entries keys list).Pairwise fun first second => first.2 ≤ second.2 := by
  unfold entries
  rw [List.pairwise_flatMap]
  constructor
  · intro step _
    rw [List.pairwise_map]
    exact List.pairwise_of_forall fun _ _ => le_refl _
  · have positions : (list.zipIdx.map Prod.snd).Pairwise (· < ·) := by
      rw [List.zipIdx_map_snd]
      exact List.pairwise_lt_range'
    rw [List.pairwise_map] at positions
    refine positions.imp fun {first second} lower => ?_
    intro entry inFirst entry' inSecond
    obtain ⟨key, -, rfl⟩ := List.mem_map.mp inFirst
    obtain ⟨key', -, rfl⟩ := List.mem_map.mp inSecond
    exact le_of_lt lower

variable [BEq κ] [LawfulBEq κ]

/-- The dictionary filled by `setdefault`. -/
def firstEntry (keys : α → List κ) (list : List α) (key : κ) : Option ℕ :=
  (entries keys list).lookup key

/-- The dictionary filled by assignment. -/
def lastEntry (keys : α → List κ) (list : List α) (key : κ) : Option ℕ :=
  (entries keys list).reverse.lookup key

theorem lookup_isSome {value : Type*} {list : List (κ × value)} {key : κ} {found : value}
    (inside : (key, found) ∈ list) : ∃ result, list.lookup key = some result := by
  cases outcome : list.lookup key with
  | none =>
      rw [List.lookup_eq_none_iff] at outcome
      exact absurd (beq_self_eq_true key) (by simpa using outcome _ inside)
  | some result => exact ⟨result, rfl⟩

theorem le_of_lookup {relation : ℕ → ℕ → Prop} (reflexive : ∀ index, relation index index)
    {list : List (κ × ℕ)} (ordered : list.Pairwise fun first second => relation first.2 second.2)
    {key : κ} {index other : ℕ} (found : list.lookup key = some index)
    (inside : (key, other) ∈ list) : relation index other := by
  obtain ⟨before, after, rfl, fresh⟩ := List.lookup_eq_some_iff.mp found
  rcases List.mem_append.mp inside with inBefore | inAfter
  · exact absurd (beq_self_eq_true key) (by simpa using fresh _ inBefore)
  · obtain ⟨-, tailOrdered, -⟩ := List.pairwise_append.mp ordered
    rcases List.mem_cons.mp inAfter with same | later
    · cases same
      exact reflexive _
    · exact (List.pairwise_cons.mp tailOrdered).1 _ later

section Entries

variable {keys : α → List κ} {list : List α} {key : κ} {index other : ℕ} {element : α}

theorem exists_firstEntry (located : list[other]? = some element) (isKey : key ∈ keys element) :
    ∃ index ≤ other, firstEntry keys list key = some index := by
  have inside := mem_entries.2 ⟨element, located, isKey⟩
  obtain ⟨index, found⟩ := lookup_isSome inside
  exact ⟨index, le_of_lookup le_refl (entries_ordered keys list) found inside, found⟩

theorem exists_lastEntry (located : list[other]? = some element) (isKey : key ∈ keys element) :
    ∃ index ≥ other, lastEntry keys list key = some index := by
  have inside := List.mem_reverse.mpr (mem_entries.2 ⟨element, located, isKey⟩)
  obtain ⟨index, found⟩ := lookup_isSome inside
  have ordered : (entries keys list).reverse.Pairwise fun first second => first.2 ≥ second.2 :=
    List.pairwise_reverse.mpr (entries_ordered keys list)
  exact ⟨index, @le_of_lookup _ _ _ (· ≥ ·) le_refl _ ordered _ _ _ found inside, found⟩

theorem of_firstEntry (found : firstEntry keys list key = some index) :
    ∃ element, list[index]? = some element ∧ key ∈ keys element :=
  mem_entries.1 (mem_of_lookup found)

theorem of_lastEntry (found : lastEntry keys list key = some index) :
    ∃ element, list[index]? = some element ∧ key ∈ keys element :=
  mem_entries.1 (List.mem_reverse.mp (mem_of_lookup found))

theorem firstEntry_le (found : firstEntry keys list key = some index)
    (located : list[other]? = some element) (isKey : key ∈ keys element) : index ≤ other := by
  obtain ⟨first, lower, found'⟩ := exists_firstEntry located isKey
  cases found.symm.trans found'
  exact lower

theorem le_lastEntry (found : lastEntry keys list key = some index)
    (located : list[other]? = some element) (isKey : key ∈ keys element) : other ≤ index := by
  obtain ⟨last, upper, found'⟩ := exists_lastEntry located isKey
  cases found.symm.trans found'
  exact upper

end Entries

/-! ## Elements in the order of their first appearance -/

theorem nodup_eraseDups (list : List κ) : list.eraseDups.Nodup := by
  induction length : list.length using Nat.strong_induction_on generalizing list with
  | _ size inductionHypothesis =>
      cases list with
      | nil => simp
      | cons head tail =>
          rw [List.eraseDups_cons, List.nodup_cons]
          constructor
          · rw [List.mem_eraseDups]
            simp
          · apply inductionHypothesis _ _ _ rfl
            have shorter := List.length_filter_le (fun other => !other == head) tail
            rw [← length, List.length_cons]
            omega

end Lib
