import Mathlib
import TorchSpyre.Lib.Order

/-!
# Depth-first postorder

A vertex is emitted after the vertices it depends on have been visited.  Nothing
checks for a cycle: every vertex is emitted once on any graph, and after all it
depends on when the graph has no cycle.
-/

namespace Lib.DepthFirst

variable {α : Type*} [DecidableEq α]

structure State (α : Type*) where
  seen : List α
  order : List α

section Search

variable (deps : α → List α)

def visit : ℕ → State α → α → State α
  | 0, state, _ => state
  | fuel + 1, state, vertex =>
      if vertex ∈ state.seen then state
      else
        let visited :=
          (deps vertex).foldl (visit fuel) { state with seen := vertex :: state.seen }
        { visited with order := visited.order ++ [vertex] }

/-- No call nests deeper than there are vertices to see. -/
def search (vertices : List α) : List α :=
  (vertices.foldl (visit deps vertices.length) ⟨[], []⟩).order

def Depends (vertex dependency : α) : Prop := dependency ∈ deps vertex

def Acyclic (vertices : List α) : Prop :=
  ∀ vertex ∈ vertices, ¬ Relation.TransGen (Depends deps) vertex vertex

/-- Every vertex stands after what it depends on. -/
def Ordered (order : List α) : Prop :=
  ∀ vertex ∈ order, ∀ dependency ∈ deps vertex, dependency ∈ before order vertex

end Search

variable {deps : α → List α} {vertices : List α}

def unseen (vertices : List α) (state : State α) : ℕ :=
  (vertices.filter fun vertex => vertex ∉ state.seen).length

/-- What holds between two visits. -/
structure Valid (deps : α → List α) (vertices : List α) (state : State α) : Prop where
  seen_subset : state.seen ⊆ vertices
  order_subset : state.order ⊆ state.seen
  nodup : state.order.Nodup
  ordered : Acyclic deps vertices → Ordered deps state.order

/-- A visit emits exactly the vertices it is the first to see. -/
def Extends (state state' : State α) : Prop :=
  ∃ added, state'.order = state.order ++ added ∧ (∀ vertex ∈ added, vertex ∉ state.seen) ∧
    ∀ vertex, vertex ∈ state'.seen ↔ vertex ∈ state.seen ∨ vertex ∈ added

omit [DecidableEq α] in
theorem Extends.refl (state : State α) : Extends state state :=
  ⟨[], by simp, by simp, by simp⟩

omit [DecidableEq α] in
theorem Extends.trans {first second third : State α} (extends' : Extends first second)
    (extends'' : Extends second third) : Extends first third := by
  obtain ⟨added, order, fresh, seen⟩ := extends'
  obtain ⟨added', order', fresh', seen'⟩ := extends''
  refine ⟨added ++ added', by rw [order', order, List.append_assoc], ?_, fun vertex => ?_⟩
  · intro vertex inside wasSeen
    rcases List.mem_append.mp inside with inFirst | inSecond
    · exact fresh vertex inFirst wasSeen
    · exact fresh' vertex inSecond ((seen vertex).mpr (.inl wasSeen))
  · rw [seen', seen, List.mem_append, or_assoc]

omit [DecidableEq α] in
theorem Extends.seen {state state' : State α} (extended : Extends state state') {vertex : α}
    (isSeen : vertex ∈ state.seen) : vertex ∈ state'.seen := by
  obtain ⟨added, -, -, seen⟩ := extended
  exact (seen vertex).mpr (.inl isSeen)

omit [DecidableEq α] in
/-- The vertices under way are the same before and after a visit. -/
theorem Extends.under_way {state state' : State α} (extended : Extends state state') {vertex : α}
    (isSeen : vertex ∈ state'.seen) (notEmitted : vertex ∉ state'.order) :
    vertex ∈ state.seen ∧ vertex ∉ state.order := by
  obtain ⟨added, order, -, seen⟩ := extended
  rw [order, List.mem_append, not_or] at notEmitted
  exact ⟨((seen vertex).mp isSeen).resolve_right notEmitted.2, notEmitted.1⟩

omit [DecidableEq α] in
theorem Extends.emit {state visited : State α} {vertex : α}
    (extended : Extends { state with seen := vertex :: state.seen } visited)
    (fresh : vertex ∉ state.seen) :
    Extends state { visited with order := visited.order ++ [vertex] } := by
  obtain ⟨added, order, isFresh, seen⟩ := extended
  refine ⟨added ++ [vertex], by rw [order, List.append_assoc], ?_, ?_⟩
  · intro other inside
    rcases List.mem_append.mp inside with inAdded | isVertex
    · exact fun wasSeen => isFresh other inAdded (List.mem_cons_of_mem _ wasSeen)
    · rwa [List.mem_singleton.mp isVertex]
  · intro other
    rw [seen, List.mem_cons, List.mem_append, List.mem_singleton]
    tauto

theorem Extends.unseen_le {state state' : State α} (extended : Extends state state') :
    unseen vertices state' ≤ unseen vertices state := by
  unfold unseen
  apply List.Sublist.length_le
  apply List.monotone_filter_right
  intro vertex isUnseen
  have notSeen : vertex ∉ state'.seen := by simpa using isUnseen
  simpa using fun isSeen => notSeen (extended.seen isSeen)

theorem unseen_cons_lt {state : State α} {vertex : α} (inside : vertex ∈ vertices)
    (fresh : vertex ∉ state.seen) :
    unseen vertices { state with seen := vertex :: state.seen } < unseen vertices state := by
  unfold unseen
  have split : (vertices.filter fun other => other ∉ vertex :: state.seen) =
      (vertices.filter fun other => other ∉ state.seen).filter fun other => other ≠ vertex := by
    rw [List.filter_filter]
    apply List.filter_congr
    intro other _
    simp
  change (vertices.filter fun other => other ∉ vertex :: state.seen).length < _
  rw [split]
  apply List.length_filter_lt_length_iff_exists.mpr
  exact ⟨vertex, List.mem_filter.mpr ⟨inside, by simpa using fresh⟩, by simp⟩

theorem mem_seen_of_unseen_eq_zero {state : State α} {vertex : α} (inside : vertex ∈ vertices)
    (exhausted : unseen vertices state = 0) : vertex ∈ state.seen := by
  by_contra fresh
  have smaller := unseen_cons_lt inside fresh
  omega

section Visits

/-- A visit is made with enough fuel, and every vertex under way depends on what is
visited. -/
structure Enters (deps : α → List α) (vertices : List α) (fuel : ℕ) (state : State α)
    (vertex : α) : Prop where
  inside : vertex ∈ vertices
  enough : unseen vertices state ≤ fuel
  reached : ∀ other ∈ state.seen, other ∉ state.order →
    Relation.TransGen (Depends deps) other vertex

theorem Enters.after {fuel : ℕ} {state state' : State α} {vertex : α}
    (enters : Enters deps vertices fuel state vertex) (extended : Extends state state') :
    Enters deps vertices fuel state' vertex where
  inside := enters.inside
  enough := le_trans extended.unseen_le enters.enough
  reached := by
    intro other isSeen notEmitted
    obtain ⟨wasSeen, wasOpen⟩ := extended.under_way isSeen notEmitted
    exact enters.reached other wasSeen wasOpen

/-- What a visit guarantees carries over to visiting one vertex after the other. -/
theorem foldl_visit {fuel : ℕ}
    (visited : ∀ state vertex, Valid deps vertices state →
      Enters deps vertices fuel state vertex →
        Valid deps vertices (visit deps fuel state vertex) ∧
          Extends state (visit deps fuel state vertex) ∧
          vertex ∈ (visit deps fuel state vertex).seen)
    {pending : List α} {state : State α} (valid : Valid deps vertices state)
    (enters : ∀ vertex ∈ pending, Enters deps vertices fuel state vertex) :
    Valid deps vertices (pending.foldl (visit deps fuel) state) ∧
      Extends state (pending.foldl (visit deps fuel) state) ∧
      ∀ vertex ∈ pending, vertex ∈ (pending.foldl (visit deps fuel) state).seen := by
  induction pending generalizing state with
  | nil => exact ⟨valid, Extends.refl state, by simp⟩
  | cons head tail inductionHypothesis =>
      obtain ⟨headValid, headExtends, headSeen⟩ :=
        visited state head valid (enters head List.mem_cons_self)
      obtain ⟨tailValid, tailExtends, tailSeen⟩ := inductionHypothesis headValid
        fun vertex inTail => (enters vertex (List.mem_cons_of_mem _ inTail)).after headExtends
      rw [List.foldl_cons]
      refine ⟨tailValid, headExtends.trans tailExtends, fun vertex inside => ?_⟩
      rcases List.mem_cons.mp inside with rfl | inTail
      · exact tailExtends.seen headSeen
      · exact tailSeen vertex inTail

theorem Valid.mark {state : State α} {vertex : α} (valid : Valid deps vertices state)
    (inside : vertex ∈ vertices) :
    Valid deps vertices { state with seen := vertex :: state.seen } where
  seen_subset := List.cons_subset.mpr ⟨inside, valid.seen_subset⟩
  order_subset := List.subset_cons_of_subset _ valid.order_subset
  nodup := valid.nodup
  ordered := valid.ordered

/-- Emitting a vertex whose dependencies have all been seen. -/
theorem Valid.emit {state visited : State α} {vertex : α} {fuel : ℕ}
    (enters : Enters deps vertices (fuel + 1) state vertex) (valid : Valid deps vertices state)
    (fresh : vertex ∉ state.seen) (visitedValid : Valid deps vertices visited)
    (extended : Extends { state with seen := vertex :: state.seen } visited)
    (allSeen : ∀ dependency ∈ deps vertex, dependency ∈ visited.seen) :
    Valid deps vertices { visited with order := visited.order ++ [vertex] } := by
  have isSeen : vertex ∈ visited.seen := extended.seen List.mem_cons_self
  have notEmitted : vertex ∉ visited.order := by
    obtain ⟨added, order, isFresh, -⟩ := extended
    rw [order, List.mem_append, not_or]
    exact ⟨fun emitted => fresh (valid.order_subset emitted),
      fun emitted => isFresh vertex emitted List.mem_cons_self⟩
  constructor
  case seen_subset => exact visitedValid.seen_subset
  case order_subset =>
    intro other inside
    rcases List.mem_append.mp inside with inOrder | isVertex
    · exact visitedValid.order_subset inOrder
    · rw [List.mem_singleton.mp isVertex]
      exact isSeen
  case nodup =>
    exact List.nodup_append.mpr ⟨visitedValid.nodup, by simp, by
      rintro other inside _ isVertex rfl
      rw [List.mem_singleton.mp isVertex] at inside
      exact notEmitted inside⟩
  case ordered =>
    intro acyclic other inside dependency isDependency
    rcases List.mem_append.mp inside with inOrder | isVertex
    · rw [before_of_mem_left inOrder]
      exact visitedValid.ordered acyclic other inOrder dependency isDependency
    · rw [List.mem_singleton.mp isVertex] at isDependency ⊢
      rw [before_append notEmitted]
      by_contra notBefore
      -- A dependency still under way would depend on the vertex.
      obtain ⟨wasSeen, wasOpen⟩ := extended.under_way (allSeen _ isDependency) notBefore
      rcases List.mem_cons.mp wasSeen with rfl | earlier
      · exact acyclic _ enters.inside (.single isDependency)
      · exact acyclic _ enters.inside
          (.head isDependency (enters.reached _ earlier wasOpen))

theorem Enters.dependency {fuel : ℕ} {state : State α} {vertex dependency : α}
    (closed : ∀ vertex ∈ vertices, deps vertex ⊆ vertices)
    (enters : Enters deps vertices (fuel + 1) state vertex) (fresh : vertex ∉ state.seen)
    (isDependency : dependency ∈ deps vertex) :
    Enters deps vertices fuel { state with seen := vertex :: state.seen } dependency where
  inside := closed vertex enters.inside isDependency
  enough := by
    have smaller := unseen_cons_lt enters.inside fresh
    have enough := enters.enough
    omega
  reached := by
    intro other isSeen notEmitted
    rcases List.mem_cons.mp isSeen with rfl | earlier
    · exact .single isDependency
    · exact (enters.reached other earlier notEmitted).tail isDependency

theorem visit_spec (closed : ∀ vertex ∈ vertices, deps vertex ⊆ vertices) {fuel : ℕ}
    {state : State α} {vertex : α} (valid : Valid deps vertices state)
    (enters : Enters deps vertices fuel state vertex) :
    Valid deps vertices (visit deps fuel state vertex) ∧
      Extends state (visit deps fuel state vertex) ∧
      vertex ∈ (visit deps fuel state vertex).seen := by
  induction fuel generalizing state vertex with
  | zero =>
      have exhausted : unseen vertices state = 0 := Nat.le_zero.mp enters.enough
      exact ⟨valid, Extends.refl state, mem_seen_of_unseen_eq_zero enters.inside exhausted⟩
  | succ fuel inductionHypothesis =>
      rw [visit]
      split
      next isSeen => exact ⟨valid, Extends.refl state, isSeen⟩
      next fresh =>
        obtain ⟨visitedValid, extended, allSeen⟩ := foldl_visit
          (fun _ _ => inductionHypothesis) (valid.mark enters.inside)
          fun dependency isDependency => enters.dependency closed fresh isDependency
        have isSeen : vertex ∈ _ := extended.seen List.mem_cons_self
        exact ⟨valid.emit enters fresh visitedValid extended allSeen, extended.emit fresh, isSeen⟩

end Visits

/-! ## The search -/

theorem search_spec (closed : ∀ vertex ∈ vertices, deps vertex ⊆ vertices) :
    (search deps vertices).Nodup ∧ (∀ vertex, vertex ∈ search deps vertices ↔ vertex ∈ vertices) ∧
      (Acyclic deps vertices → Ordered deps (search deps vertices)) := by
  have start : Valid deps vertices (⟨[], []⟩ : State α) :=
    ⟨List.nil_subset _, List.nil_subset _, List.nodup_nil, by simp [Ordered]⟩
  have enters : ∀ vertex ∈ vertices,
      Enters deps vertices vertices.length (⟨[], []⟩ : State α) vertex :=
    fun vertex inside => ⟨inside, List.length_filter_le _ _, by simp⟩
  obtain ⟨valid, ⟨added, order, -, seen⟩, allSeen⟩ :=
    foldl_visit (fun _ _ => visit_spec closed) start enters
  refine ⟨valid.nodup, fun vertex => ?_, valid.ordered⟩
  constructor
  · exact fun inside => valid.seen_subset (valid.order_subset inside)
  · intro inside
    have isAdded := (seen vertex).mp (allSeen vertex inside)
    unfold search
    rw [order]
    simpa using isAdded

theorem search_perm (closed : ∀ vertex ∈ vertices, deps vertex ⊆ vertices)
    (nodup : vertices.Nodup) : (search deps vertices).Perm vertices := by
  obtain ⟨searchNodup, sameMembers, -⟩ := search_spec closed
  exact (List.perm_ext_iff_of_nodup searchNodup nodup).mpr sameMembers

/-- An order in which every vertex stands after what it depends on leaves no room for
a cycle. -/
theorem acyclic_of_ordered {order : List α} (ordered : Ordered deps order)
    (complete : vertices ⊆ order) : Acyclic deps vertices := by
  intro vertex inside cycle
  have earlier : ∀ last, Relation.TransGen (Depends deps) vertex last →
      last ∈ order ∧ (before order last).length < (before order vertex).length := by
    intro last path
    induction path with
    | single isDependency =>
        have isBefore := ordered vertex (complete inside) _ isDependency
        exact ⟨before_subset _ _ isBefore, length_before_lt isBefore⟩
    | tail _ isDependency inductionHypothesis =>
        have isBefore := ordered _ inductionHypothesis.1 _ isDependency
        exact ⟨before_subset _ _ isBefore,
          lt_trans (length_before_lt isBefore) inductionHypothesis.2⟩
  exact lt_irrefl _ (earlier vertex cycle).2

/-- Depth-first postorder is a topological order exactly on a graph without a cycle. -/
theorem search_ordered_iff (closed : ∀ vertex ∈ vertices, deps vertex ⊆ vertices) :
    Ordered deps (search deps vertices) ↔ Acyclic deps vertices := by
  obtain ⟨-, sameMembers, ordered⟩ := search_spec closed
  exact ⟨fun isOrdered => acyclic_of_ordered isOrdered fun vertex inside =>
    (sameMembers vertex).mpr inside, ordered⟩

end Lib.DepthFirst
