import Mathlib

/-!
# Runs of a list

The runs of a list are its maximal stretches of neighbours in a relation.  On a
symmetric and transitive relation a run is uniform, and related elements are in one
run when everything between them is related to them too.
-/

namespace Lib

variable {α : Type*} {same : α → α → Bool} {list run : List α}

theorem mem_splitBy {element : α} :
    element ∈ list ↔ ∃ run ∈ list.splitBy same, element ∈ run := by
  conv_lhs => rw [← List.flatten_splitBy same list]
  exact List.mem_flatten

theorem infix_flatten {parts : List (List α)} {part : List α} (isPart : part ∈ parts) :
    part <:+: parts.flatten := by
  obtain ⟨front, back, rfl⟩ := List.append_of_mem isPart
  refine ⟨front.flatten, back.flatten, ?_⟩
  rw [List.flatten_append, List.flatten_cons, List.append_assoc]

theorem splitBy_isPart (isRun : run ∈ list.splitBy same) : run <:+: list := by
  have inFlatten := infix_flatten isRun
  rwa [List.flatten_splitBy] at inFlatten

/-- What stands between two elements of a part stands in the part. -/
theorem mem_infix_of_between [Preorder α] {part : List α} (ordered : list.Pairwise (· < ·))
    (isPart : part <:+: list) {first middle last : α} (firstIn : first ∈ part)
    (lastIn : last ∈ part) (middleIn : middle ∈ list) (lower : first < middle)
    (upper : middle < last) : middle ∈ part := by
  obtain ⟨front, back, rfl⟩ := isPart
  rw [List.pairwise_append, List.pairwise_append] at ordered
  obtain ⟨⟨-, -, beforePart⟩, -, beforeBack⟩ := ordered
  rcases List.mem_append.mp middleIn with early | inBack
  · rcases List.mem_append.mp early with inFront | inPart
    · exact absurd (lt_trans lower (beforePart middle inFront first firstIn)) (lt_irrefl _)
    · exact inPart
  · have late := beforeBack last (List.mem_append_right _ lastIn) middle inBack
    exact absurd (lt_trans upper late) (lt_irrefl _)

/-- Counting over parts of which only one can have what is counted. -/
theorem countP_flatMap_of_unique {β : Type*} {parts : List β} (nodup : parts.Nodup)
    {part : β} (isPart : part ∈ parts) {items : β → List α} {counted : α → Prop}
    [DecidablePred counted]
    (unique : ∀ other ∈ parts, other ≠ part → ∀ item ∈ items other, ¬ counted item) :
    ((parts.flatMap items).countP fun item => counted item) =
      (items part).countP fun item => counted item := by
  obtain ⟨front, back, rfl⟩ := List.append_of_mem isPart
  obtain ⟨-, backNodup, apart⟩ := List.nodup_append.mp nodup
  have none : ∀ side ⊆ front ++ part :: back, part ∉ side →
      ((side.flatMap items).countP fun item => counted item) = 0 := by
    intro side subset absent
    refine List.countP_eq_zero.mpr fun item inside => ?_
    obtain ⟨other, isOther, inOther⟩ := List.mem_flatMap.mp inside
    rw [decide_eq_true_eq]
    exact unique other (subset isOther) (fun same => absent (same ▸ isOther)) item inOther
  rw [List.flatMap_append, List.flatMap_cons, List.countP_append, List.countP_append,
    none front (List.subset_append_left _ _)
      (fun inFront => apart part inFront part List.mem_cons_self rfl),
    none back (fun other inBack => List.mem_append_right _ (List.mem_cons_of_mem _ inBack))
      (List.nodup_cons.mp backNodup).1]
  omega

section Uniform

variable (symmetric : ∀ first second, same first second → same second first)
  (transitive : ∀ first second third, same first second → same second third →
    same first third)

include symmetric transitive

/-- Two elements of a run are the same element or related. -/
theorem splitBy_uniform (isRun : run ∈ list.splitBy same) {first second : α}
    (firstIn : first ∈ run) (secondIn : second ∈ run) : first = second ∨ same first second := by
  have isTrans : IsTrans α fun first second => same first second = true :=
    ⟨fun _ _ _ => transitive _ _ _⟩
  have related : run.Pairwise fun first second => same first second = true :=
    List.IsChain.pairwise (List.isChain_of_mem_splitBy isRun)
  have isSymm : Std.Symm fun first second : α => first = second ∨ same first second = true :=
    ⟨fun _ _ => Or.imp Eq.symm (symmetric _ _)⟩
  have either : run.Pairwise fun first second => first = second ∨ same first second = true :=
    related.imp Or.inr
  exact either.forall_of_forall (fun _ _ => .inl rfl) firstIn secondIn

/-- Elements of different runs are not related by a finer relation when what stands
between two related elements is related to them. -/
theorem splitBy_apart [LinearOrder α] (ordered : list.Pairwise (· < ·)) {related : α → α → Prop}
    (finer : ∀ first ∈ list, ∀ second ∈ list, related first second → same first second)
    (contiguous : ∀ first ∈ list, ∀ middle ∈ list, ∀ last ∈ list, first < middle →
      middle < last → related first last → related first middle) :
    (list.splitBy same).Pairwise fun run later =>
      ∀ first ∈ run, ∀ last ∈ later, first < last ∧ ¬ related first last := by
  have inOrder : (list.splitBy same).flatten.Pairwise (· < ·) := by
    rwa [List.flatten_splitBy]
  have inside : ∀ run ∈ list.splitBy same, run ⊆ list := fun run isRun =>
    (splitBy_isPart isRun).subset
  have uniform : ∀ run ∈ list.splitBy same, ∀ first ∈ run, ∀ second ∈ run,
      first = second ∨ same first second :=
    fun run isRun first firstIn second secondIn =>
      splitBy_uniform symmetric transitive isRun firstIn secondIn
  have boundaries := List.isChain_getLast_head_splitBy same list
  generalize list.splitBy same = parts at inOrder inside uniform boundaries
  induction parts with
  | nil => exact List.Pairwise.nil
  | cons run rest inductionHypothesis =>
      rw [List.flatten_cons, List.pairwise_append] at inOrder
      obtain ⟨-, restOrder, across⟩ := inOrder
      refine List.pairwise_cons.mpr ⟨?_, inductionHypothesis restOrder
        (fun part isPart => inside part (List.mem_cons_of_mem _ isPart))
        (fun part isPart => uniform part (List.mem_cons_of_mem _ isPart)) boundaries.of_cons⟩
      intro later isLater first firstIn last lastIn
      refine ⟨across first firstIn last (List.mem_flatten.mpr ⟨later, isLater, lastIn⟩),
        fun areRelated => ?_⟩
      cases rest with
      | nil => cases isLater
      | cons neighbour others =>
          -- The head of the next run stands between both elements, hence is related.
          obtain ⟨nonempty, nonempty', differs⟩ := (List.isChain_cons_cons.mp boundaries).1
          set boundary := neighbour.head nonempty' with isBoundary
          have inNeighbour : boundary ∈ neighbour := List.head_mem nonempty'
          have afterFirst : first < boundary := across first firstIn boundary
            (List.mem_flatten.mpr ⟨neighbour, List.mem_cons_self, inNeighbour⟩)
          have beforeLast : boundary ≤ last := by
            obtain ⟨tail, isCons⟩ : ∃ tail, neighbour = boundary :: tail :=
              ⟨_, (List.cons_head_tail nonempty').symm⟩
            rw [List.flatten_cons, isCons, List.cons_append, List.pairwise_cons] at restOrder
            rcases List.mem_cons.mp isLater with rfl | inOthers
            · rw [isCons] at lastIn
              rcases List.mem_cons.mp lastIn with rfl | inTail
              · exact le_refl _
              · exact le_of_lt (restOrder.1 last (List.mem_append_left _ inTail))
            · exact le_of_lt (restOrder.1 last (List.mem_append_right _
                (List.mem_flatten.mpr ⟨later, inOthers, lastIn⟩)))
          have firstInList := inside run List.mem_cons_self firstIn
          have lastInList := inside later (List.mem_cons_of_mem _ isLater) lastIn
          have boundaryInList := inside neighbour (List.mem_cons_of_mem _ List.mem_cons_self)
            inNeighbour
          have inRun : same first boundary := by
            apply finer first firstInList boundary boundaryInList
            rcases lt_or_eq_of_le beforeLast with strictly | rfl
            · exact contiguous first firstInList boundary boundaryInList last lastInList
                afterFirst strictly areRelated
            · exact areRelated
          have reaches : same (run.getLast nonempty) boundary := by
            rcases uniform run List.mem_cons_self _ (List.getLast_mem nonempty) first
              firstIn with isFirst | toFirst
            · rwa [isFirst]
            · exact transitive _ _ _ toFirst inRun
          rw [reaches] at differs
          cases differs

end Uniform

end Lib
