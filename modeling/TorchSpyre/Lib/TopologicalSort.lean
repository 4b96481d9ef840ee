import Mathlib

/-!
# Kahn's algorithm with the smallest ready index first

Vertices are the indices below `n`; `parents i` lists the predecessors of `i`,
repeated as often as the edge occurs.  Every vertex is emitted at most once, and
all of them are when the graph has no cycle.
-/

namespace Lib.TopologicalSort

variable (n : ℕ) (parents : ℕ → List ℕ)

/-- Successors of a vertex in index order, one entry per edge. -/
def children (vertex : ℕ) : List ℕ :=
  (List.range n).flatMap fun child =>
    (parents child).filterMap fun parent => if parent = vertex then some child else none

structure Frontier where
  inDegree : ℕ → ℤ
  heap : List ℕ

/-- Remove one incoming edge; a vertex without any left becomes ready. -/
def release (frontier : Frontier) (vertex : ℕ) : Frontier :=
  let remaining := frontier.inDegree vertex - 1
  { inDegree := Function.update frontier.inDegree vertex remaining
    heap := if remaining = 0 then vertex :: frontier.heap else frontier.heap }

def loop : ℕ → Frontier → List ℕ → List ℕ
  | 0, _, result => result
  | fuel + 1, frontier, result =>
      match frontier.heap.min? with
      | none => result
      | some vertex =>
          loop fuel
            ((children n parents vertex).foldl release
              { frontier with heap := frontier.heap.erase vertex })
            (result ++ [vertex])

def start : Frontier where
  inDegree := fun vertex => (parents vertex).length
  heap := (List.range n).filter fun vertex => (parents vertex).length = 0

def sort : List ℕ := loop n parents n (start n parents) []

variable {n parents}

theorem count_children {vertex child : ℕ} (bounded : child < n) :
    (children n parents vertex).count child = (parents child).count vertex := by
  have one : ∀ other, ((parents other).filterMap fun parent =>
      if parent = vertex then some other else none).count child =
        if other = child then (parents child).count vertex else 0 := by
    intro other
    by_cases same : other = child
    · subst same
      rw [if_pos rfl]
      induction parents other with
      | nil => rfl
      | cons head tail inductionHypothesis =>
          by_cases isVertex : head = vertex
          · simp [isVertex, inductionHypothesis]
          · simp [isVertex, inductionHypothesis]
    · rw [if_neg same, List.count_eq_zero]
      intro membership
      obtain ⟨parent, -, selected⟩ := List.mem_filterMap.mp membership
      split_ifs at selected
      exact same (Option.some.inj selected)
  unfold children
  rw [List.count_flatMap]
  have summed : ∀ bound, ((List.range bound).map fun other =>
      if other = child then (parents child).count vertex else 0).sum =
        if child < bound then (parents child).count vertex else 0 := by
    intro bound
    induction bound with
    | zero => rfl
    | succ bound inductionHypothesis =>
        rw [List.range_succ, List.map_append, List.sum_append, inductionHypothesis]
        simp only [List.map_cons, List.map_nil, List.sum_cons, List.sum_nil]
        split_ifs <;> omega
  have total := summed n
  rw [if_pos bounded] at total
  rw [← total]
  congr 1
  apply List.map_congr_left
  exact fun other _ => one other

theorem mem_children_lt {vertex child : ℕ} (membership : child ∈ children n parents vertex) :
    child < n := by
  obtain ⟨other, inRange, inside⟩ := List.mem_flatMap.mp membership
  obtain ⟨parent, -, selected⟩ := List.mem_filterMap.mp inside
  split_ifs at selected
  rw [← Option.some.inj selected]
  exact List.mem_range.mp inRange

/-- Removing a list of edges: degrees drop by the multiplicities, and exactly the
vertices that reach zero are pushed, once each. -/
theorem foldl_release {edges : List ℕ} {frontier : Frontier}
    (enough : ∀ vertex ∈ edges, (edges.count vertex : ℤ) ≤ frontier.inDegree vertex) :
    (∀ vertex, (edges.foldl release frontier).inDegree vertex =
      frontier.inDegree vertex - edges.count vertex) ∧
    ∃ pushed, (edges.foldl release frontier).heap = pushed ++ frontier.heap ∧ pushed.Nodup ∧
      ∀ vertex, vertex ∈ pushed ↔
        vertex ∈ edges ∧ frontier.inDegree vertex = edges.count vertex := by
  induction edges generalizing frontier with
  | nil => exact ⟨by simp, [], by simp⟩
  | cons head tail inductionHypothesis =>
      have headEnough := enough head List.mem_cons_self
      rw [List.count_cons_self] at headEnough
      have nextEnough : ∀ vertex ∈ tail,
          (tail.count vertex : ℤ) ≤ (release frontier head).inDegree vertex := by
        intro vertex inTail
        have here := enough vertex (List.mem_cons_of_mem _ inTail)
        by_cases same : vertex = head
        · subst same
          simp only [release, Function.update_self]
          push_cast at headEnough
          omega
        · rw [List.count_cons_of_ne (Ne.symm same)] at here
          simpa only [release, Function.update_of_ne same] using here
      obtain ⟨degrees, pushed, heapEq, nodup, pushedIff⟩ := inductionHypothesis nextEnough
      rw [List.foldl_cons]
      refine ⟨?_, ?_⟩
      · intro vertex
        rw [degrees]
        by_cases same : vertex = head
        · subst same
          rw [List.count_cons_self]
          simp only [release, Function.update_self]
          push_cast
          omega
        · rw [List.count_cons_of_ne (Ne.symm same)]
          simp only [release, Function.update_of_ne same]
      · have others : ∀ vertex, vertex ≠ head → (vertex ∈ pushed ↔
            vertex ∈ head :: tail ∧
              frontier.inDegree vertex = (head :: tail).count vertex) := by
          intro vertex distinct
          rw [pushedIff, List.count_cons_of_ne (Ne.symm distinct), List.mem_cons]
          simp only [release, Function.update_of_ne distinct, distinct, false_or]
        by_cases last : frontier.inDegree head = 1
        · have notLater : head ∉ tail := by
            rw [← List.count_eq_zero]
            omega
          have notPushed : head ∉ pushed := fun inside => notLater ((pushedIff head).mp inside).1
          refine ⟨pushed ++ [head], ?_, ?_, ?_⟩
          · rw [heapEq]
            simp [release, last]
          · exact List.nodup_append.mpr ⟨nodup, by simp, by
              rintro vertex inside other isHead rfl
              rw [List.mem_singleton.mp isHead] at inside
              exact notPushed inside⟩
          · intro vertex
            by_cases same : vertex = head
            · subst same
              simp [last, List.count_eq_zero.mpr notLater]
            · rw [List.mem_append, List.mem_singleton, or_iff_left same, others vertex same]
        · refine ⟨pushed, ?_, nodup, ?_⟩
          · rw [heapEq]
            have stays : ¬ frontier.inDegree head - 1 = 0 := by omega
            simp [release, stays]
          · intro vertex
            by_cases same : vertex = head
            · subst same
              rw [pushedIff, List.count_cons_self]
              simp only [release, Function.update_self, List.mem_cons_self, true_and]
              push_cast
              constructor
              · rintro ⟨-, exhausted⟩
                omega
              · intro exhausted
                refine ⟨?_, by omega⟩
                rw [← List.one_le_count_iff]
                omega
            · exact others vertex same

variable (n parents) in
/-- What holds between two pops: degrees count the edges from vertices not emitted
yet, and a vertex without any is queued or emitted, once. -/
structure Valid (frontier : Frontier) (result : List ℕ) : Prop where
  nodup : (frontier.heap ++ result).Nodup
  bounded : ∀ vertex ∈ frontier.heap ++ result, vertex < n
  degree_eq : ∀ vertex < n,
    frontier.inDegree vertex = (parents vertex).countP fun parent => parent ∉ result
  ready_iff : ∀ vertex < n, vertex ∈ frontier.heap ++ result ↔ frontier.inDegree vertex = 0

theorem start_valid : Valid n parents (start n parents) [] where
  nodup := by
    rw [List.append_nil]
    exact List.nodup_range.filter _
  bounded := by
    intro vertex membership
    rw [List.append_nil] at membership
    exact List.mem_range.mp (List.mem_filter.mp membership).1
  degree_eq := by
    intro vertex _
    simp [start]
  ready_iff := by
    intro vertex bounded
    simp [start, bounded]

theorem countP_not_mem_concat {edges result : List ℕ} {vertex : ℕ} (fresh : vertex ∉ result) :
    (edges.countP fun parent => parent ∉ result) =
      (edges.countP fun parent => parent ∉ result ++ [vertex]) + edges.count vertex := by
  induction edges with
  | nil => rfl
  | cons head tail inductionHypothesis =>
      rw [List.countP_cons, List.countP_cons, List.count_cons, inductionHypothesis]
      by_cases same : head = vertex
      · subst same
        simp [fresh]
        omega
      · simp only [List.mem_append, List.mem_singleton, same, or_false, beq_iff_eq, if_false]
        omega

theorem Valid.pop {frontier : Frontier} {result : List ℕ} (valid : Valid n parents frontier result)
    {vertex : ℕ} (queued : vertex ∈ frontier.heap) :
    Valid n parents
      ((children n parents vertex).foldl release
        { frontier with heap := frontier.heap.erase vertex })
      (result ++ [vertex]) := by
  obtain ⟨heapNodup, resultNodup, apart⟩ := List.nodup_append.mp valid.nodup
  have fresh : vertex ∉ result := fun emitted => apart vertex queued vertex emitted rfl
  have enough : ∀ other ∈ children n parents vertex,
      ((children n parents vertex).count other : ℤ) ≤ frontier.inDegree other := by
    intro other isChild
    have bounded := mem_children_lt isChild
    rw [count_children bounded, valid.degree_eq other bounded, countP_not_mem_concat fresh]
    omega
  obtain ⟨degrees, pushed, heapEq, pushedNodup, pushedIff⟩ :=
    foldl_release (show ∀ other ∈ children n parents vertex, _ ≤
      ({ frontier with heap := frontier.heap.erase vertex } : Frontier).inDegree other from enough)
  -- Emitting the vertex only moves it, so what is queued or emitted grows by `pushed`.
  have regroup : (pushed ++ frontier.heap.erase vertex ++ (result ++ [vertex])).Perm
      (pushed ++ (frontier.heap ++ result)) := by
    rw [List.append_assoc]
    refine List.Perm.append_left _ ?_
    have front : (frontier.heap.erase vertex ++ (result ++ [vertex])).Perm
        (vertex :: frontier.heap.erase vertex ++ result) :=
      (List.perm_append_comm.append_left _).trans List.perm_middle
    exact front.trans ((List.perm_cons_erase queued).symm.append_right _)
  have pushedNew : ∀ other ∈ pushed, other ∉ frontier.heap ++ result := by
    intro other isPushed known
    obtain ⟨isChild, exhausted⟩ := (pushedIff other).mp isPushed
    have zero := (valid.ready_iff other (mem_children_lt isChild)).mp known
    have positive := List.count_pos_iff.mpr isChild
    simp only at exhausted
    omega
  constructor
  case nodup =>
    rw [heapEq, regroup.nodup_iff]
    refine List.nodup_append.mpr ⟨pushedNodup, valid.nodup, ?_⟩
    rintro other isPushed _ known rfl
    exact pushedNew other isPushed known
  case bounded =>
    intro other membership
    rw [heapEq, regroup.mem_iff] at membership
    rcases List.mem_append.mp membership with isPushed | known
    · exact mem_children_lt ((pushedIff other).mp isPushed).1
    · exact valid.bounded other known
  case degree_eq =>
    intro other bounded
    rw [degrees, count_children bounded]
    simp only
    rw [valid.degree_eq other bounded, countP_not_mem_concat fresh]
    push_cast
    omega
  case ready_iff =>
    intro other bounded
    rw [heapEq, regroup.mem_iff, degrees, List.mem_append, pushedIff,
      valid.ready_iff other bounded]
    simp only
    by_cases isChild : other ∈ children n parents vertex
    · have := enough other isChild
      have positive := List.count_pos_iff.mpr isChild
      constructor
      · rintro (⟨-, exhausted⟩ | zero) <;> omega
      · intro exhausted
        exact .inl ⟨isChild, by omega⟩
    · rw [List.count_eq_zero.mpr isChild]
      simp [isChild]

theorem loop_valid {fuel : ℕ} {frontier : Frontier} {result : List ℕ}
    (valid : Valid n parents frontier result) :
    ∃ final, Valid n parents final (loop n parents fuel frontier result) ∧
      (final.heap = [] ∨ result.length + fuel ≤ (loop n parents fuel frontier result).length) := by
  induction fuel generalizing frontier result with
  | zero => exact ⟨frontier, valid, .inr le_rfl⟩
  | succ fuel inductionHypothesis =>
      simp only [loop]
      split
      next empty => exact ⟨frontier, valid, .inl (List.min?_eq_none_iff.mp empty)⟩
      next vertex smallest =>
        obtain ⟨final, finalValid, finished⟩ :=
          inductionHypothesis (valid.pop (List.min?_mem smallest))
        refine ⟨final, finalValid, finished.imp_right fun long => ?_⟩
        rw [List.length_append, List.length_singleton] at long
        omega

theorem sort_valid : ∃ final, Valid n parents final (sort n parents) ∧
    (final.heap = [] ∨ n ≤ (sort n parents).length) := by
  obtain ⟨final, valid, finished⟩ := loop_valid start_valid
  refine ⟨final, valid, finished.imp_right fun long => ?_⟩
  rwa [List.length_nil, Nat.zero_add] at long

theorem sort_nodup : (sort n parents).Nodup := by
  obtain ⟨final, valid, -⟩ := sort_valid
  exact (List.nodup_append.mp valid.nodup).2.1

theorem lt_of_mem_sort {vertex : ℕ} (membership : vertex ∈ sort n parents) : vertex < n := by
  obtain ⟨final, valid, -⟩ := sort_valid
  exact valid.bounded vertex (List.mem_append_right _ membership)

/-- Without a cycle every vertex is emitted: among the missing ones, a vertex with
no missing predecessor would have been queued. -/
theorem mem_sort_of_acyclic
    (acyclic : ∀ vertex : Fin n,
      ¬ Relation.TransGen (fun parent child : Fin n => parent.1 ∈ parents child.1) vertex vertex)
    (parents_lt : ∀ vertex < n, ∀ parent ∈ parents vertex, parent < n)
    {vertex : ℕ} (bounded : vertex < n) : vertex ∈ sort n parents := by
  have subset : sort n parents ⊆ List.range n := fun other membership =>
    List.mem_range.mpr (lt_of_mem_sort membership)
  obtain ⟨final, valid, emptied | long⟩ := sort_valid
  · have wellFounded : WellFounded
        (Relation.TransGen fun parent child : Fin n => parent.1 ∈ parents child.1) :=
      have : Std.Irrefl
          (Relation.TransGen fun parent child : Fin n => parent.1 ∈ parents child.1) := ⟨acyclic⟩
      Finite.wellFounded_of_trans_of_irrefl _
    have emitted : ∀ child : Fin n, child.1 ∈ sort n parents := by
      intro child
      induction child using wellFounded.induction with
      | _ child inductionHypothesis =>
          have noneMissing : (parents child.1).countP (fun parent => parent ∉ sort n parents) = 0 := by
            refine List.countP_eq_zero.mpr fun parent isParent => ?_
            have inside := inductionHypothesis ⟨parent, parents_lt _ child.2 _ isParent⟩
              (Relation.TransGen.single isParent)
            simpa using inside
          have ready := (valid.ready_iff child.1 child.2).mpr (by
            rw [valid.degree_eq child.1 child.2, noneMissing, Nat.cast_zero])
          rwa [emptied, List.nil_append] at ready
    exact emitted ⟨vertex, bounded⟩
  · have permuted : (sort n parents).Perm (List.range n) :=
      (List.subperm_of_subset sort_nodup subset).perm_of_length_le (by simpa using long)
    exact permuted.mem_iff.mpr (List.mem_range.mpr bounded)

end Lib.TopologicalSort
