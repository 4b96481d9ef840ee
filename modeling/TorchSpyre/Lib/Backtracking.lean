import Mathlib
import TorchSpyre.Lib.Outcome

/-!
# Exhaustive search by backtracking

One assignment of values to slots is written and written back while the search descends
through the variables.  At each leaf it is scored, and the first of least score is kept.
-/

namespace Lib

section Search

variable {ε Variable Slot Value Score : Type}

/-- The least score met so far and the assignment that has it. -/
structure Incumbent (Slot Value Score : Type) where
  total : Option Score
  chosen : Slot → Value

structure Search (Slot Value Score : Type) where
  chosen : Slot → Value
  best : Incumbent Slot Value Score

section Definitions

variable [DecidableEq Slot] [LinearOrder Score]
variable (slot : Variable → Slot) (options : Variable → List Value)
variable (score : (Slot → Value) → Except ε Score)

def Incumbent.beatenBy (best : Incumbent Slot Value Score) (total : Score) : Bool :=
  match best.total with
  | none => true
  | some least => total < least

def keepLeast (best : Incumbent Slot Value Score) (chosen : Slot → Value) :
    Except ε (Incumbent Slot Value Score) :=
  match score chosen with
  | .error exception => .error exception
  | .ok total => .ok (if best.beatenBy total then ⟨some total, chosen⟩ else best)

def backtrack : List Variable → Search Slot Value Score → Except ε (Search Slot Value Score)
  | [], search =>
      match keepLeast score search.best search.chosen with
      | .error exception => .error exception
      | .ok best => .ok { search with best := best }
  | var :: rest, search => do
      let previous := search.chosen (slot var)
      let explored ← (options var).foldlM
        (fun search value =>
          backtrack rest { search with chosen := Function.update search.chosen (slot var) value })
        search
      .ok { explored with chosen := Function.update explored.chosen (slot var) previous }

/-- The leaves in the order in which the search meets them. -/
def assignments : List Variable → (Slot → Value) → List (Slot → Value)
  | [], chosen => [chosen]
  | var :: rest, chosen =>
      (options var).flatMap fun value =>
        assignments rest (Function.update chosen (slot var) value)

end Definitions

section Leaves

variable [DecidableEq Slot] {slot : Variable → Slot} {options : Variable → List Value}

/-- The leaves are the assignments that choose an option for each variable and agree with the
start elsewhere. -/
theorem mem_assignments {unset : List Variable} {start chosen : Slot → Value}
    (distinct : (unset.map slot).Nodup) :
    chosen ∈ assignments slot options unset start ↔
      (∀ var ∈ unset, chosen (slot var) ∈ options var) ∧
        ∀ key, key ∉ unset.map slot → chosen key = start key := by
  induction unset generalizing start with
  | nil => simp [assignments, funext_iff]
  | cons var rest inductionHypothesis =>
      rw [List.map_cons, List.nodup_cons] at distinct
      rw [assignments, List.mem_flatMap]
      constructor
      · rintro ⟨value, isOption, inside⟩
        obtain ⟨chosenLater, unchanged⟩ := (inductionHypothesis distinct.2).mp inside
        have here : chosen (slot var) = value := by
          rw [unchanged _ distinct.1, Function.update_self]
        refine ⟨?_, ?_⟩
        · intro other isOther
          rcases List.mem_cons.mp isOther with rfl | later
          · rw [here]
            exact isOption
          · exact chosenLater other later
        · intro key outside
          rw [List.map_cons, List.mem_cons, not_or] at outside
          rw [unchanged key outside.2, Function.update_of_ne outside.1]
      · rintro ⟨isChoice, unchanged⟩
        refine ⟨chosen (slot var), isChoice var List.mem_cons_self, ?_⟩
        apply (inductionHypothesis distinct.2).mpr
        refine ⟨fun other later => isChoice other (List.mem_cons_of_mem _ later), ?_⟩
        intro key outside
        by_cases same : key = slot var
        · rw [same, Function.update_self]
        · rw [Function.update_of_ne same]
          apply unchanged
          rw [List.map_cons, List.mem_cons, not_or]
          exact ⟨same, outside⟩

theorem assignments_ne_nil {unset : List Variable} {start : Slot → Value}
    (choices : ∀ var ∈ unset, options var ≠ []) :
    assignments slot options unset start ≠ [] := by
  induction unset generalizing start with
  | nil => exact List.cons_ne_nil _ _
  | cons var rest inductionHypothesis =>
      intro empty
      obtain ⟨value, isOption⟩ := List.exists_mem_of_ne_nil _ (choices var List.mem_cons_self)
      exact inductionHypothesis (fun other later => choices other (List.mem_cons_of_mem _ later))
        (List.flatMap_eq_nil_iff.mp empty value isOption)

end Leaves

section Runs

variable [LinearOrder Score]
variable {slot : Variable → Slot} {options : Variable → List Value}
variable {score : (Slot → Value) → Except ε Score}

/-- The assignment is as it was, and the incumbent has met every leaf. -/
theorem backtrack_eq [DecidableEq Slot] (unset : List Variable) (search : Search Slot Value Score) :
    backtrack slot options score unset search =
      (assignments slot options unset search.chosen).foldlM (keepLeast score) search.best >>=
        fun best => .ok ⟨search.chosen, best⟩ := by
  induction unset generalizing search with
  | nil =>
      rw [assignments, backtrack, List.foldlM_cons]
      cases keepLeast score search.best search.chosen with
      | error exception => rfl
      | ok best => rfl
  | cons var rest inductionHypothesis =>
      rw [backtrack, assignments]
      -- Below the first value written, the written slot differs from the start.
      have descends : ∀ (values : List Value) (written : Search Slot Value Score),
          Function.update written.chosen (slot var) (search.chosen (slot var)) = search.chosen →
          (values.foldlM (fun search value => backtrack slot options score rest
              { search with chosen := Function.update search.chosen (slot var) value }) written >>=
            fun explored => Except.ok (Search.mk
              (Function.update explored.chosen (slot var) (search.chosen (slot var)))
              explored.best)) =
          ((values.flatMap fun value => assignments slot options rest
              (Function.update search.chosen (slot var) value)).foldlM
                (keepLeast score) written.best >>=
            fun best => .ok ⟨search.chosen, best⟩) := by
        intro values
        induction values with
        | nil =>
            intro written restored
            show Except.ok _ = Except.ok _
            rw [restored]
        | cons value values innerHypothesis =>
            intro written restored
            have overwritten : Function.update written.chosen (slot var) value =
                Function.update search.chosen (slot var) value := by
              rw [← restored, Function.update_idem]
            rw [List.foldlM_cons, inductionHypothesis, List.flatMap_cons, List.foldlM_append,
              overwritten]
            cases (assignments slot options rest
                (Function.update search.chosen (slot var) value)).foldlM
                  (keepLeast score) written.best with
            | error exception => rfl
            | ok best =>
                apply innerHypothesis
                rw [Function.update_idem, Function.update_eq_self]
      exact descends (options var) search (Function.update_eq_self _ _)

/-- What the incumbent is, after it has met the candidates. -/
structure Least (score : (Slot → Value) → Except ε Score) (candidates : List (Slot → Value))
    (before after : Incumbent Slot Value Score) : Prop where
  origin : after = before ∨
    after.chosen ∈ candidates ∧ ∃ total, score after.chosen = .ok total ∧ after.total = some total
  least : ∀ candidate ∈ candidates, ∃ total least, score candidate = .ok total ∧
    after.total = some least ∧ least ≤ total
  improves : ∀ total, before.total = some total → ∃ least, after.total = some least ∧ least ≤ total

theorem least_keepLeast {before after : Incumbent Slot Value Score} {candidate : Slot → Value}
    (kept : keepLeast score before candidate = .ok after) :
    Least score [candidate] before after := by
  unfold keepLeast at kept
  cases scored : score candidate with
  | error exception =>
      rw [scored] at kept
      cases kept
  | ok total =>
      rw [scored] at kept
      simp only [Except.ok.injEq] at kept
      by_cases beaten : before.beatenBy total = true
      · rw [if_pos beaten] at kept
        subst kept
        refine ⟨.inr ⟨List.mem_singleton_self _, total, scored, rfl⟩, ?_, ?_⟩
        · intro other isOther
          rw [List.mem_singleton.mp isOther]
          exact ⟨total, total, scored, rfl, le_rfl⟩
        · intro earlier isEarlier
          refine ⟨total, rfl, ?_⟩
          unfold Incumbent.beatenBy at beaten
          rw [isEarlier] at beaten
          exact le_of_lt (of_decide_eq_true beaten)
      · rw [if_neg beaten] at kept
        subst kept
        refine ⟨.inl rfl, ?_, fun earlier isEarlier => ⟨earlier, isEarlier, le_rfl⟩⟩
        intro other isOther
        rw [List.mem_singleton.mp isOther]
        unfold Incumbent.beatenBy at beaten
        cases earlier : before.total with
        | none =>
            rw [earlier] at beaten
            exact absurd rfl beaten
        | some least =>
            rw [earlier] at beaten
            refine ⟨total, least, scored, rfl, ?_⟩
            exact not_lt.mp fun better => beaten (decide_eq_true better)

theorem Least.trans {front back : List (Slot → Value)}
    {before between after : Incumbent Slot Value Score}
    (first : Least score front before between) (second : Least score back between after) :
    Least score (front ++ back) before after := by
  refine ⟨?_, ?_, ?_⟩
  · rcases second.origin with rfl | ⟨inBack, scored⟩
    · exact first.origin.imp_right fun inFront => ⟨List.mem_append_left _ inFront.1, inFront.2⟩
    · exact .inr ⟨List.mem_append_right _ inBack, scored⟩
  · intro candidate inside
    rcases List.mem_append.mp inside with inFront | inBack
    · obtain ⟨total, least, scored, isLeast, below⟩ := first.least candidate inFront
      obtain ⟨final, isFinal, better⟩ := second.improves least isLeast
      exact ⟨total, final, scored, isFinal, le_trans better below⟩
    · exact second.least candidate inBack
  · intro total isTotal
    obtain ⟨least, isLeast, below⟩ := first.improves total isTotal
    obtain ⟨final, isFinal, better⟩ := second.improves least isLeast
    exact ⟨final, isFinal, le_trans better below⟩

theorem least_foldlM {candidates : List (Slot → Value)}
    {before after : Incumbent Slot Value Score}
    (kept : candidates.foldlM (keepLeast score) before = .ok after) :
    Least score candidates before after := by
  induction candidates generalizing before with
  | nil =>
      cases kept
      exact ⟨.inl rfl, fun _ inside => absurd inside List.not_mem_nil,
        fun total isTotal => ⟨total, isTotal, le_rfl⟩⟩
  | cons candidate candidates inductionHypothesis =>
      rw [List.foldlM_cons, bind_eq_ok_iff] at kept
      obtain ⟨between, here, there⟩ := kept
      exact (least_keepLeast here).trans (inductionHypothesis there)

theorem exists_foldlM_keepLeast {candidates : List (Slot → Value)}
    (before : Incumbent Slot Value Score)
    (scores : ∀ candidate ∈ candidates, ∃ total, score candidate = .ok total) :
    ∃ after, candidates.foldlM (keepLeast score) before = .ok after := by
  induction candidates generalizing before with
  | nil => exact ⟨before, rfl⟩
  | cons candidate candidates inductionHypothesis =>
      obtain ⟨total, scored⟩ := scores candidate List.mem_cons_self
      rw [List.foldlM_cons, keepLeast, scored]
      exact inductionHypothesis _ fun other inside => scores other (List.mem_cons_of_mem _ inside)

end Runs

end Search

end Lib
