import Mathlib
import TorchSpyre.Lib.Outcome

/-!
# Dictionaries in insertion order

Keys are distinct.  A key that is set again keeps its place; a new one goes last.
-/

namespace Lib

structure Dict (Key Value : Type) where
  entries : List (Key × Value)
  distinct : (entries.map Prod.fst).Nodup
  deriving DecidableEq

namespace Dict

variable {Key Value : Type}

def empty : Dict Key Value := ⟨[], List.nodup_nil⟩

def keys (dict : Dict Key Value) : List Key := dict.entries.map Prod.fst

def values (dict : Dict Key Value) : List Value := dict.entries.map Prod.snd

/-- `dict.fromkeys` -/
def fromKeys (dict : Dict Key Value) {Other : Type} (value : Other) : Dict Key Other where
  entries := dict.entries.map fun entry => (entry.1, value)
  distinct := by
    rw [List.map_map]
    exact dict.distinct

/-- A value computed from each key. -/
def tabulate (dict : Dict Key Value) {Other : Type} (value : Key → Other) : Dict Key Other where
  entries := dict.entries.map fun entry => (entry.1, value entry.1)
  distinct := by
    rw [List.map_map]
    exact dict.distinct

variable [DecidableEq Key]

def lookup (dict : Dict Key Value) (key : Key) : Option Value := dict.entries.lookup key

/-- The keys with a value. -/
def filterValues (dict : Dict Key (Option Value)) : Dict Key Value where
  entries := dict.entries.filterMap fun entry => entry.2.map fun value => (entry.1, value)
  distinct := by
    apply List.pairwise_map.mpr
    apply (List.pairwise_map.mp dict.distinct).filterMap
    intro first second different one isOne other isOther
    obtain ⟨value, -, rfl⟩ := Option.map_eq_some_iff.mp isOne
    obtain ⟨value, -, rfl⟩ := Option.map_eq_some_iff.mp isOther
    exact different

def setEntries (key : Key) (value : Value) : List (Key × Value) → List (Key × Value)
  | [] => [(key, value)]
  | entry :: rest => if entry.1 = key then (key, value) :: rest else entry :: setEntries key value rest

theorem mem_keys_setEntries {key other : Key} {value : Value} {entries : List (Key × Value)} :
    other ∈ (setEntries key value entries).map Prod.fst ↔
      other = key ∨ other ∈ entries.map Prod.fst := by
  induction entries with
  | nil => simp [setEntries]
  | cons entry entries inductionHypothesis =>
      rw [setEntries]
      split
      next same => simp [same]
      next =>
        rw [List.map_cons, List.mem_cons, inductionHypothesis, List.map_cons, List.mem_cons]
        exact or_left_comm

theorem nodup_setEntries {key : Key} {value : Value} {entries : List (Key × Value)}
    (distinct : (entries.map Prod.fst).Nodup) :
    ((setEntries key value entries).map Prod.fst).Nodup := by
  induction entries with
  | nil => simp [setEntries]
  | cons entry entries inductionHypothesis =>
      rw [List.map_cons, List.nodup_cons] at distinct
      rw [setEntries]
      split
      next same =>
        rw [List.map_cons, List.nodup_cons, ← same]
        exact distinct
      next different =>
        rw [List.map_cons, List.nodup_cons, mem_keys_setEntries]
        refine ⟨?_, inductionHypothesis distinct.2⟩
        rintro (same | later)
        · exact different same
        · exact distinct.1 later

def set (dict : Dict Key Value) (key : Key) (value : Value) : Dict Key Value :=
  ⟨setEntries key value dict.entries, nodup_setEntries dict.distinct⟩

/-- Set the keys of some pairs, in order. -/
def update (dict : Dict Key Value) (pairs : List (Key × Value)) : Dict Key Value :=
  pairs.foldl (fun dict pair => dict.set pair.1 pair.2) dict

theorem setEntries_of_not_mem {key : Key} (value : Value) {entries : List (Key × Value)}
    (new : key ∉ entries.map Prod.fst) : setEntries key value entries = entries ++ [(key, value)] := by
  induction entries with
  | nil => rfl
  | cons entry entries inductionHypothesis =>
      rw [List.map_cons, List.mem_cons, not_or] at new
      rw [setEntries, if_neg (Ne.symm new.1), inductionHypothesis new.2, List.cons_append]

/-- New keys go last, in their order. -/
theorem entries_update_of_new {dict : Dict Key Value} {pairs : List (Key × Value)}
    (new : (dict.keys ++ pairs.map Prod.fst).Nodup) :
    (dict.update pairs).entries = dict.entries ++ pairs := by
  induction pairs generalizing dict with
  | nil => exact (List.append_nil _).symm
  | cons pair pairs inductionHypothesis =>
      have missing : pair.1 ∉ dict.entries.map Prod.fst := fun present =>
        (List.nodup_append.mp new).2.2 pair.1 present pair.1 List.mem_cons_self rfl
      have written : (dict.set pair.1 pair.2).entries = dict.entries ++ [pair] :=
        setEntries_of_not_mem pair.2 missing
      show ((dict.set pair.1 pair.2).update pairs).entries = _
      rw [inductionHypothesis, written, List.append_assoc, List.singleton_append]
      rw [keys, written, List.map_append, List.map_singleton, List.append_assoc,
        List.singleton_append]
      exact new

/-! ## Lookups -/

theorem lookup_eq_some_iff {dict : Dict Key Value} {key : Key} {value : Value} :
    dict.lookup key = some value ↔ (key, value) ∈ dict.entries :=
  ⟨mem_of_lookup, lookup_of_mem dict.distinct⟩

theorem mem_values {dict : Dict Key Value} {key : Key} {value : Value}
    (found : dict.lookup key = some value) : value ∈ dict.values :=
  List.mem_map.mpr ⟨(key, value), lookup_eq_some_iff.1 found, rfl⟩

@[simp]
theorem lookup_empty (key : Key) : (empty : Dict Key Value).lookup key = none := rfl

theorem lookup_fromKeys {dict : Dict Key Value} {Other : Type} {value found : Other} {key : Key}
    (isEntry : (dict.fromKeys value).lookup key = some found) : found = value := by
  obtain ⟨entry, -, same⟩ := List.mem_map.mp (lookup_eq_some_iff.1 isEntry)
  exact (Prod.ext_iff.mp same).2.symm

theorem lookup_filterValues {dict : Dict Key (Option Value)} {key : Key} {value : Value} :
    dict.filterValues.lookup key = some value ↔ dict.lookup key = some (some value) := by
  rw [lookup_eq_some_iff, lookup_eq_some_iff]
  constructor
  · intro listed
    obtain ⟨entry, isEntry, kept⟩ := List.mem_filterMap.mp listed
    obtain ⟨found, isFound, same⟩ := Option.map_eq_some_iff.mp kept
    cases same
    exact isFound ▸ isEntry
  · intro listed
    exact List.mem_filterMap.mpr ⟨(key, some value), listed, rfl⟩

@[simp]
theorem lookup_set_self (dict : Dict Key Value) (key : Key) (value : Value) :
    (dict.set key value).lookup key = some value := by
  obtain ⟨entries, distinct⟩ := dict
  show (setEntries key value entries).lookup key = some value
  induction entries with
  | nil => exact List.lookup_cons_self
  | cons entry entries inductionHypothesis =>
      rw [setEntries]
      split
      next => exact List.lookup_cons_self
      next different =>
        rw [List.lookup_cons, beq_false_of_ne (Ne.symm different)]
        exact inductionHypothesis (List.nodup_cons.mp distinct).2

@[simp]
theorem lookup_set_of_ne (dict : Dict Key Value) {key other : Key} (different : other ≠ key)
    (value : Value) : (dict.set key value).lookup other = dict.lookup other := by
  obtain ⟨entries, distinct⟩ := dict
  show (setEntries key value entries).lookup other = entries.lookup other
  induction entries with
  | nil => rw [setEntries, List.lookup_cons, beq_false_of_ne different]
  | cons entry entries inductionHypothesis =>
      rw [setEntries]
      split
      next same =>
        have apart : other ≠ entry.1 := same.symm ▸ different
        rw [List.lookup_cons, List.lookup_cons, beq_false_of_ne different, beq_false_of_ne apart]
      next =>
        rw [List.lookup_cons, List.lookup_cons, inductionHypothesis (List.nodup_cons.mp distinct).2]

theorem lookup_update {dict : Dict Key Value} {pairs : List (Key × Value)} {key : Key} {value : Value}
    (found : (dict.update pairs).lookup key = some value) :
    (key, value) ∈ pairs ∨ dict.lookup key = some value := by
  induction pairs generalizing dict with
  | nil => exact Or.inr found
  | cons pair pairs inductionHypothesis =>
      rcases inductionHypothesis found with later | here
      · exact Or.inl (List.mem_cons_of_mem _ later)
      · by_cases same : key = pair.1
        · rw [same, lookup_set_self] at here
          rw [same, ← Option.some.inj here]
          exact Or.inl List.mem_cons_self
        · rw [lookup_set_of_ne _ same] at here
          exact Or.inr here

theorem isSome_lookup_update {dict : Dict Key Value} (pairs : List (Key × Value)) {key : Key}
    (found : (dict.lookup key).isSome) : ((dict.update pairs).lookup key).isSome := by
  induction pairs generalizing dict with
  | nil => exact found
  | cons pair pairs inductionHypothesis =>
      apply inductionHypothesis
      by_cases same : key = pair.1
      · rw [same, lookup_set_self]
        rfl
      · rwa [lookup_set_of_ne _ same]

theorem lookup_update_of_not_mem {dict : Dict Key Value} {pairs : List (Key × Value)} {key : Key}
    (missing : key ∉ pairs.map Prod.fst) : (dict.update pairs).lookup key = dict.lookup key := by
  induction pairs generalizing dict with
  | nil => rfl
  | cons pair pairs inductionHypothesis =>
      rw [List.map_cons, List.mem_cons, not_or] at missing
      rw [← lookup_set_of_ne dict missing.1 pair.2]
      exact inductionHypothesis missing.2

theorem lookup_update_of_mem {dict : Dict Key Value} {pairs : List (Key × Value)} {key : Key}
    {value : Value} (distinct : (pairs.map Prod.fst).Nodup) (listed : (key, value) ∈ pairs) :
    (dict.update pairs).lookup key = some value := by
  induction pairs generalizing dict with
  | nil => cases listed
  | cons pair pairs inductionHypothesis =>
      rw [List.map_cons, List.nodup_cons] at distinct
      rcases List.mem_cons.mp listed with rfl | later
      · have kept := @lookup_update_of_not_mem _ _ _ (dict.set key value) pairs key distinct.1
        rw [lookup_set_self] at kept
        exact kept
      · exact inductionHypothesis distinct.2 later

theorem keys_set_of_mem {dict : Dict Key Value} {key : Key} (present : key ∈ dict.keys)
    (value : Value) : (dict.set key value).keys = dict.keys := by
  obtain ⟨entries, distinct⟩ := dict
  replace present : key ∈ entries.map Prod.fst := present
  show (setEntries key value entries).map Prod.fst = entries.map Prod.fst
  induction entries with
  | nil => cases present
  | cons entry entries inductionHypothesis =>
      rw [setEntries]
      split
      next same => rw [List.map_cons, List.map_cons, same]
      next different =>
        rcases List.mem_cons.mp present with same | later
        · exact absurd same.symm different
        · rw [List.map_cons, List.map_cons,
            inductionHypothesis (List.nodup_cons.mp distinct).2 later]

theorem keys_update_of_subset {dict : Dict Key Value} {pairs : List (Key × Value)}
    (present : ∀ key ∈ pairs.map Prod.fst, key ∈ dict.keys) :
    (dict.update pairs).keys = dict.keys := by
  induction pairs generalizing dict with
  | nil => rfl
  | cons pair pairs inductionHypothesis =>
      rw [List.map_cons, List.forall_mem_cons] at present
      have same := keys_set_of_mem present.1 pair.2
      rw [← same]
      apply inductionHypothesis
      rw [same]
      exact present.2

theorem lookup_isSome_iff {dict : Dict Key Value} {key : Key} :
    (dict.lookup key).isSome ↔ key ∈ dict.keys := by
  rw [Option.isSome_iff_exists]
  constructor
  · rintro ⟨value, found⟩
    exact List.mem_map_of_mem (lookup_eq_some_iff.1 found)
  · intro present
    obtain ⟨entry, listed, rfl⟩ := List.mem_map.mp present
    exact ⟨entry.2, lookup_eq_some_iff.2 listed⟩

/-- Dictionaries with the same keys in the same order and the same values are the same. -/
theorem ext_of_lookup {first second : Dict Key Value} (sameKeys : first.keys = second.keys)
    (same : ∀ key ∈ first.keys, first.lookup key = second.lookup key) : first = second := by
  obtain ⟨entries, distinct⟩ := first
  obtain ⟨others, otherDistinct⟩ := second
  replace sameKeys : entries.map Prod.fst = others.map Prod.fst := sameKeys
  replace same : ∀ key ∈ entries.map Prod.fst, entries.lookup key = others.lookup key := same
  congr 1
  apply List.ext_getElem
  · simpa using congrArg List.length sameKeys
  · intro position inside otherInside
    have sameKey : entries[position].1 = others[position].1 := by
      have here := congrArg (fun keys => keys[position]?) sameKeys
      simpa [inside, otherInside] using here
    have found := same entries[position].1 (List.mem_map_of_mem (List.getElem_mem inside))
    have here : entries.lookup entries[position].1 = some entries[position].2 :=
      lookup_of_mem distinct (List.getElem_mem inside)
    have there : others.lookup others[position].1 = some others[position].2 :=
      lookup_of_mem otherDistinct (List.getElem_mem otherInside)
    rw [here, sameKey, there] at found
    exact Prod.ext sameKey (Option.some.inj found)

omit [DecidableEq Key] in
@[simp]
theorem keys_fromKeys (dict : Dict Key Value) {Other : Type} (value : Other) :
    (dict.fromKeys value).keys = dict.keys := by
  rw [keys, fromKeys, List.map_map]
  rfl

omit [DecidableEq Key] in
theorem keys_tabulate (dict : Dict Key Value) {Other : Type} (value : Key → Other) :
    (dict.tabulate value).keys = dict.keys := by
  rw [keys, tabulate, List.map_map]
  rfl

theorem lookup_tabulate {dict : Dict Key Value} {Other : Type} {value : Key → Other} {key : Key}
    (present : key ∈ dict.keys) : (dict.tabulate value).lookup key = some (value key) := by
  obtain ⟨entry, listed, rfl⟩ := List.mem_map.mp present
  exact lookup_eq_some_iff.mpr (List.mem_map.mpr ⟨entry, listed, rfl⟩)

/-! ## Products of the values -/

section Products

/-- The product of the values at the other keys. -/
def others (dict : Dict Key ℕ) (key : Key) : ℕ :=
  ((dict.entries.filter fun entry => entry.1 ≠ key).map Prod.snd).prod

variable {dict : Dict Key ℕ} {key : Key}

theorem prod_values {value : ℕ} (found : dict.lookup key = some value) :
    dict.values.prod = value * dict.others key := by
  obtain ⟨entries, distinct⟩ := dict
  replace found : entries.lookup key = some value := found
  show (entries.map Prod.snd).prod =
    value * ((entries.filter fun entry => entry.1 ≠ key).map Prod.snd).prod
  induction entries with
  | nil => cases found
  | cons entry entries inductionHypothesis =>
      rw [List.map_cons, List.nodup_cons] at distinct
      rw [List.lookup_cons] at found
      by_cases same : entry.1 = key
      · rw [same, beq_self_eq_true] at found
        have rest : entries.filter (fun entry => entry.1 ≠ key) = entries := by
          apply List.filter_eq_self.mpr
          intro other later
          rw [decide_eq_true_iff, ← same]
          exact fun again => distinct.1 (again ▸ List.mem_map_of_mem later)
        rw [List.filter_cons_of_neg (by simp [same]), rest, List.map_cons, List.prod_cons,
          Option.some.inj found]
      · rw [beq_false_of_ne (Ne.symm same)] at found
        rw [List.filter_cons_of_pos (by simpa using same), List.map_cons, List.prod_cons,
          List.map_cons, List.prod_cons, inductionHypothesis distinct.2 found, Nat.mul_left_comm]

theorem prod_values_of_none (missing : dict.lookup key = none) :
    dict.values.prod = dict.others key := by
  have all : dict.entries.filter (fun entry => entry.1 ≠ key) = dict.entries := by
    apply List.filter_eq_self.mpr
    intro entry isEntry
    rw [decide_eq_true_iff]
    intro same
    have found : dict.lookup key = some entry.2 := lookup_eq_some_iff.mpr (same ▸ isEntry)
    rw [missing] at found
    cases found
  rw [others, all, values]

theorem others_set_self (dict : Dict Key ℕ) (key : Key) (value : ℕ) :
    (dict.set key value).others key = dict.others key := by
  obtain ⟨entries, distinct⟩ := dict
  show (((setEntries key value entries).filter fun entry => entry.1 ≠ key).map Prod.snd).prod =
    ((entries.filter fun entry => entry.1 ≠ key).map Prod.snd).prod
  induction entries with
  | nil => simp [setEntries]
  | cons entry entries inductionHypothesis =>
      rw [setEntries]
      split
      next same => simp [same]
      next different =>
        rw [List.filter_cons_of_pos (by simpa using different),
          List.filter_cons_of_pos (by simpa using different), List.map_cons, List.prod_cons,
          List.map_cons, List.prod_cons, inductionHypothesis (List.nodup_cons.mp distinct).2]

/-- The product with one value replaced. -/
theorem prod_set (dict : Dict Key ℕ) (key : Key) (value : ℕ) :
    (dict.set key value).values.prod = value * dict.others key := by
  rw [prod_values (lookup_set_self dict key value), others_set_self]

theorem others_le_set {other : Key} {old value : ℕ} (found : dict.lookup other = some old)
    (grows : old ≤ value) : dict.others key ≤ (dict.set other value).others key := by
  obtain ⟨entries, distinct⟩ := dict
  replace found : entries.lookup other = some old := found
  show ((entries.filter fun entry => entry.1 ≠ key).map Prod.snd).prod ≤
    (((setEntries other value entries).filter fun entry => entry.1 ≠ key).map Prod.snd).prod
  induction entries with
  | nil => cases found
  | cons entry entries inductionHypothesis =>
      rw [List.lookup_cons] at found
      rw [setEntries]
      split
      next same =>
        rw [same, beq_self_eq_true] at found
        have isOld := Option.some.inj found
        by_cases isKey : other = key
        · simp [same, isKey]
        · rw [List.filter_cons_of_pos (by simpa [same] using isKey),
            List.filter_cons_of_pos (by simpa using isKey), List.map_cons, List.prod_cons,
            List.map_cons, List.prod_cons, isOld]
          exact Nat.mul_le_mul_right _ grows
      next different =>
        rw [beq_false_of_ne (Ne.symm different)] at found
        have later := inductionHypothesis (List.nodup_cons.mp distinct).2 found
        by_cases isKey : entry.1 = key
        · rw [List.filter_cons_of_neg (by simpa using isKey),
            List.filter_cons_of_neg (by simpa using isKey)]
          exact later
        · rw [List.filter_cons_of_pos (by simpa using isKey),
            List.filter_cons_of_pos (by simpa using isKey), List.map_cons, List.prod_cons,
            List.map_cons, List.prod_cons]
          exact Nat.mul_le_mul_left _ later

end Products

end Dict

end Lib
