import Mathlib

/-!
# Computations that raise

What a successful run of a computation in `Except` says about its parts, and
about the entries of an association list.
-/

namespace Lib

universe u

variable {ε : Type u} {α β : Type u}

theorem bind_eq_ok_iff {first : Except ε α} {next : α → Except ε β} {result : β} :
    (first >>= next) = .ok result ↔ ∃ value, first = .ok value ∧ next value = .ok result := by
  cases first with
  | error exception => simp [bind, Except.bind]
  | ok value => simp [bind, Except.bind]

theorem forall₂_of_mapM {step : α → Except ε β} {items : List α} {results : List β}
    (succeeds : items.mapM step = .ok results) :
    List.Forall₂ (fun item result => step item = .ok result) items results := by
  induction items generalizing results with
  | nil =>
      cases succeeds
      exact .nil
  | cons item items inductionHypothesis =>
      rw [List.mapM_cons, bind_eq_ok_iff] at succeeds
      obtain ⟨result, stepped, succeeds⟩ := succeeds
      rw [bind_eq_ok_iff] at succeeds
      obtain ⟨rest, remaining, succeeds⟩ := succeeds
      cases succeeds
      exact .cons stepped (inductionHypothesis remaining)

theorem exists_mapM {step : α → Except ε β} {related : α → β → Prop} {items : List α}
    (each : ∀ item ∈ items, ∃ result, step item = .ok result ∧ related item result) :
    ∃ results, items.mapM step = .ok results ∧ List.Forall₂ related items results := by
  induction items with
  | nil => exact ⟨[], rfl, .nil⟩
  | cons item items inductionHypothesis =>
      obtain ⟨result, stepped, here⟩ := each item List.mem_cons_self
      obtain ⟨results, succeeds, there⟩ := inductionHypothesis fun other member =>
        each other (List.mem_cons_of_mem _ member)
      refine ⟨result :: results, ?_, .cons here there⟩
      rw [List.mapM_cons, stepped, succeeds]
      rfl

theorem mapM_eq_map {step : α → Except ε β} {result : α → β} {items : List α}
    (each : ∀ item ∈ items, step item = .ok (result item)) :
    items.mapM step = .ok (items.map result) := by
  induction items with
  | nil => rfl
  | cons item items inductionHypothesis =>
      rw [List.mapM_cons, each item List.mem_cons_self,
        inductionHypothesis fun other member => each other (List.mem_cons_of_mem _ member)]
      rfl

theorem mapM_congr {step other : α → Except ε β} {items : List α}
    (same : ∀ item ∈ items, step item = other item) : items.mapM step = items.mapM other := by
  induction items with
  | nil => rfl
  | cons item items inductionHypothesis =>
      rw [List.mapM_cons, List.mapM_cons, same item List.mem_cons_self,
        inductionHypothesis fun later member => same later (List.mem_cons_of_mem _ member)]

/-- The error of a list of computations is the error of one of them. -/
theorem exists_of_mapM_error {step : α → Except ε β} {items : List α} {exception : ε}
    (fails : items.mapM step = .error exception) : ∃ item ∈ items, step item = .error exception := by
  induction items with
  | nil => cases fails
  | cons item items inductionHypothesis =>
      rw [List.mapM_cons] at fails
      cases stepped : step item with
      | error other =>
          rw [stepped] at fails
          cases fails
          exact ⟨item, List.mem_cons_self, stepped⟩
      | ok result =>
          rw [stepped] at fails
          cases remaining : items.mapM step with
          | error other =>
              rw [remaining] at fails
              cases fails
              obtain ⟨found, member, failed⟩ := inductionHypothesis remaining
              exact ⟨found, List.mem_cons_of_mem _ member, failed⟩
          | ok results =>
              rw [remaining] at fails
              cases fails

theorem exists_left_of_forall₂ {related : α → β → Prop} {items : List α} {results : List β}
    (paired : List.Forall₂ related items results) {result : β} (found : result ∈ results) :
    ∃ item ∈ items, related item result := by
  induction paired with
  | nil => cases found
  | cons here _ inductionHypothesis =>
      cases found with
      | head => exact ⟨_, List.mem_cons_self, here⟩
      | tail _ found =>
          obtain ⟨item, member, there⟩ := inductionHypothesis found
          exact ⟨item, List.mem_cons_of_mem _ member, there⟩

theorem exists_right_of_forall₂ {related : α → β → Prop} {items : List α} {results : List β}
    (paired : List.Forall₂ related items results) {item : α} (found : item ∈ items) :
    ∃ result ∈ results, related item result :=
  exists_left_of_forall₂ paired.flip found

theorem exists_of_mem_mapM {step : α → Except ε β} {items : List α} {results : List β}
    (succeeds : items.mapM step = .ok results) {result : β} (found : result ∈ results) :
    ∃ item ∈ items, step item = .ok result :=
  exists_left_of_forall₂ (forall₂_of_mapM succeeds) found

theorem forall₂_of_mapM_some {step : α → Option β} {items : List α} {results : List β}
    (succeeds : items.mapM step = some results) :
    List.Forall₂ (fun item result => step item = some result) items results := by
  induction items generalizing results with
  | nil =>
      cases succeeds
      exact .nil
  | cons item items inductionHypothesis =>
      simp only [List.mapM_cons, Option.bind_eq_bind, Option.bind_eq_some_iff] at succeeds
      obtain ⟨result, stepped, rest, remaining, succeeds⟩ := succeeds
      cases succeeds
      exact .cons stepped (inductionHypothesis remaining)

/-- A guard that succeeded. -/
theorem of_guard {condition : Prop} [Decidable condition] {exception : ε}
    {rest : Except ε β} {result : β}
    (succeeds : (if condition then .error exception else rest) = Except.ok result) :
    ¬ condition ∧ rest = .ok result := by
  split at succeeds
  next => cases succeeds
  next fails => exact ⟨fails, succeeds⟩

theorem ite_eq_ok_iff {condition : Prop} [Decidable condition] {exception : ε} {value result : α} :
    (if condition then Except.ok value else .error exception) = .ok result ↔
      condition ∧ result = value := by
  split <;> simp [*, eq_comm]

variable {κ ι : Type*} [BEq κ] [LawfulBEq κ]

theorem mem_of_lookup {entries : List (κ × ι)} {key : κ} {value : ι}
    (found : entries.lookup key = some value) : (key, value) ∈ entries := by
  obtain ⟨before, after, rfl, -⟩ := List.lookup_eq_some_iff.mp found
  simp

theorem lookup_of_mem {entries : List (κ × ι)} {key : κ} {value : ι}
    (distinct : (entries.map Prod.fst).Nodup) (found : (key, value) ∈ entries) :
    entries.lookup key = some value := by
  induction entries with
  | nil => cases found
  | cons entry entries inductionHypothesis =>
      rw [List.map_cons, List.nodup_cons] at distinct
      cases found with
      | head => exact List.lookup_cons_self
      | tail _ found =>
          have different : (key == entry.1) = false := by
            rw [beq_eq_false_iff_ne]
            intro same
            exact distinct.1 (same ▸ List.mem_map_of_mem found)
          rw [List.lookup_cons, different]
          exact inductionHypothesis distinct.2 found

/-! ## Related runs -/

/-- Both computations go on from related results, or neither does. -/
theorem rel_bind {First Second FirstNext SecondNext : Type*} {related : First → Second → Prop}
    {relatedNext : FirstNext → SecondNext → Prop} {first : Option First} {second : Option Second}
    {next : First → Option FirstNext} {other : Second → Option SecondNext}
    (both : Option.Rel related first second)
    (step : ∀ one two, related one two → Option.Rel relatedNext (next one) (other two)) :
    Option.Rel relatedNext (first.bind next) (second.bind other) := by
  cases both with
  | none => exact .none
  | some here => exact step _ _ here

theorem rel_map {First Second FirstNext SecondNext : Type*} {related : First → Second → Prop}
    {relatedNext : FirstNext → SecondNext → Prop} {first : Option First} {second : Option Second}
    {next : First → FirstNext} {other : Second → SecondNext} (both : Option.Rel related first second)
    (step : ∀ one two, related one two → relatedNext (next one) (other two)) :
    Option.Rel relatedNext (first.map next) (second.map other) := by
  cases both with
  | none => exact .none
  | some here => exact .some (step _ _ here)

end Lib
