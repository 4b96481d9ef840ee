import TorchSpyre.Scheduling.UnitRuns

/-!
# The final check

The pass compares the loops of its result by the outermost loop each reports.  It
raises exactly when two units of the input report one outermost loop under different
names; a group reports its loop only through a node at most two loops deep.
-/

namespace TorchSpyre.Scheduling

open Lib LoopNest LoopRuns

variable {Expr : Type} {nodes : List (SchedulerNode Expr)}

section Check

variable (nodes) in
/-- Two loops that report one outermost loop have one name. -/
def AgreeOn (tree other : LoopTree Expr) : Prop :=
  ∀ key, checkedKey nodes tree = some key → checkedKey nodes other = some key →
    getName nodes tree = getName nodes other

variable (nodes) in
/-- The loop has the name already seen for the outermost loop it reports. -/
def Expects (seen : List (ℤ × String)) (tree : LoopTree Expr) : Prop :=
  ∀ key, checkedKey nodes tree = some key →
    ∀ name, seen.lookup key = some name → name = getName nodes tree

theorem expects_cons_iff {seen : List (ℤ × String)} {tree other : LoopTree Expr} {key : ℤ}
    (isKey : checkedKey nodes tree = some key) (expected : Expects nodes seen tree) :
    Expects nodes ((key, getName nodes tree) :: seen) other ↔
      Expects nodes seen other ∧ AgreeOn nodes tree other := by
  constructor
  · intro expects
    refine ⟨fun otherKey isOther name found => ?_, fun otherKey isTree isOther => ?_⟩
    · by_cases same : otherKey = key
      · subst same
        rw [expected otherKey isKey name found]
        exact expects otherKey isOther _ List.lookup_cons_self
      · apply expects otherKey isOther name
        rwa [List.lookup_cons, beq_eq_false_iff_ne.mpr same]
    · cases isKey.symm.trans isTree
      exact expects key isOther _ List.lookup_cons_self
  · rintro ⟨expects, agrees⟩ otherKey isOther name found
    by_cases same : otherKey = key
    · subst same
      rw [List.lookup_cons_self, Option.some_inj] at found
      rw [← found]
      exact agrees otherKey isKey isOther
    · rw [List.lookup_cons, beq_eq_false_iff_ne.mpr same] at found
      exact expects otherKey isOther name found

theorem checkLoops_eq_ok_iff {seen : List (ℤ × String)} {trees : List (LoopTree Expr)} :
    checkLoops nodes seen trees = .ok () ↔
      (∀ tree ∈ trees, Expects nodes seen tree) ∧ trees.Pairwise (AgreeOn nodes) := by
  induction trees generalizing seen with
  | nil => simp [checkLoops]
  | cons tree rest inductionHypothesis =>
      rw [checkLoops, List.pairwise_cons, List.forall_mem_cons]
      split
      next unchecked =>
        have expects : Expects nodes seen tree := by simp [Expects, unchecked]
        have agrees : ∀ other ∈ rest, AgreeOn nodes tree other := by simp [AgreeOn, unchecked]
        rw [inductionHypothesis, and_iff_right expects, and_iff_right agrees]
      next key isKey =>
        have clashes : ((seen.lookup key).any (· ≠ getName nodes tree)) = true ↔
            ¬ Expects nodes seen tree := by
          simp [Expects, isKey, Option.any_eq_true]
        split
        next clash =>
          have unexpected := clashes.mp clash
          simp [unexpected]
        next agrees =>
          have expected : Expects nodes seen tree := by
            by_contra unexpected
            exact agrees (clashes.mpr unexpected)
          rw [inductionHypothesis, and_iff_right expected]
          simp only [expects_cons_iff isKey expected, forall_and, and_assoc]

end Check

section Reported

variable (nodes) in
/-- The outermost loop a unit of the input reports: a structured loop that of its first
member, a group its own if its first inner run has a node at most two loops deep. -/
def reportedKey : LoopUnit → Option ℤ
  | .single index =>
      if isStructured nodes index then (enclosingLoops nodes index).head?.map LoopLevel.group
      else none
  | .group key =>
      if ((unitMembers nodes (.group key)).splitBy (sameRun (loopGroupId nodes) 1)).head?.any
          (·.any fun index => (loopGroupId nodes index).length ≤ 2) then some key
      else none

variable (nodes) in
def unitName (unit : LoopUnit) : String :=
  "_".intercalate ((unitMembers nodes unit).map fun index =>
    (nodes[index]?.map SchedulerNode.name).getD "")

/-- Two units report one outermost loop under different names. -/
def ReportedTwice (nodes : List (SchedulerNode Expr)) : Prop :=
  ∃ unit ∈ units nodes, ∃ other ∈ units nodes, ∃ key,
    reportedKey nodes unit = some key ∧ reportedKey nodes other = some key ∧
      unitName nodes unit ≠ unitName nodes other

/-- A member of a group is not structured, and its outermost loop is the group's. -/
theorem enclosingLoops_of_group {index : ℕ} {key : ℤ}
    (isGroup : unitOfNode nodes index = .group key) :
    ¬ isStructured nodes index ∧ (enclosingLoops nodes index).head?.map LoopLevel.group = some key := by
  rw [unitOfNode_eq_group_iff] at isGroup
  unfold loopGroupId memberLoops at isGroup
  split at isGroup
  next => cases isGroup
  next plain => exact ⟨plain, by rwa [List.head?_map] at isGroup⟩

theorem any_shallow_iff {run : List ℕ} {depth : ℕ} :
    (run.any fun index => (loopGroupId nodes index).length ≤ depth) = true ↔
      ¬ (run.filter fun index => ¬ deepAt nodes depth index) = [] := by
  have shallow : (fun index => decide ((loopGroupId nodes index).length ≤ depth)) =
      fun index => decide (¬ deepAt nodes depth index = true) := by
    funext index
    simp [deepAt]
  rw [shallow, List.any_eq_true, List.filter_eq_nil_iff]
  simp only [not_forall, not_not, exists_prop]

/-- A loop inside a group reports the group's loop through a direct member, if any. -/
theorem schedulerEnclosingLoops_node {count : Expr} {body : List (LoopTree Expr)} {key : ℤ}
    (grouped : ∀ index ∈ RoseTree.topLeaves body, unitOfNode nodes index = .group key) :
    (schedulerEnclosingLoops nodes (.node count body)).head?.map LoopLevel.group =
      if RoseTree.topLeaves body = [] then none else some key := by
  rw [schedulerEnclosingLoops]
  cases isDirect : RoseTree.topLeaves body with
  | nil => rfl
  | cons first rest =>
      rw [isDirect] at grouped
      obtain ⟨plain, isKey⟩ := enclosingLoops_of_group (grouped first List.mem_cons_self)
      have nonempty : enclosingLoops nodes first ≠ [] := by
        intro isEmpty
        rw [isEmpty] at isKey
        cases isKey
      have notSkipped : ¬ (isStructured nodes first = true ∨ enclosingLoops nodes first = []) :=
        not_or.mpr ⟨plain, nonempty⟩
      rw [List.findSome?_cons, if_neg notSkipped, if_neg (List.cons_ne_nil _ _)]
      exact isKey

end Reported

section Trees

variable [DecidableEq Expr]

theorem wrapRun_cases {depth : ℕ} {inner : List ℕ → Except LoopGroupError (List (LoopTree Expr))}
    {first : ℕ} {rest : List ℕ} {forest : List (LoopTree Expr)}
    (wraps : wrapRun nodes depth inner (first :: rest) = .ok forest) :
    ((loopGroupId nodes first).length ≤ depth ∧ forest = (first :: rest).map .leaf) ∨
      ∃ count body, depth < (loopGroupId nodes first).length ∧ inner (first :: rest) = .ok body ∧
        forest = [.node count body] := by
  rw [wrapRun] at wraps
  split at wraps
  next notCounted =>
    cases wraps
    exact .inl ⟨loopCount_eq_none_iff.mp notCounted, rfl⟩
  next count counted =>
    obtain ⟨-, wraps⟩ := of_guard wraps
    obtain ⟨body, built, isForest⟩ := bind_eq_ok_iff.mp wraps
    cases isForest
    refine .inr ⟨count, body, ?_, built, rfl⟩
    by_contra shallow
    rw [loopCount_eq_none_iff.mpr (not_lt.mp shallow)] at counted
    cases counted

/-- The first tree built from a text comes from its first run. -/
theorem buildLoopGroup_head {levels depth : ℕ} {text : List ℕ} {forest : List (LoopTree Expr)}
    (builds : buildLoopGroup nodes (levels + 1) text depth = .ok forest) {run : List ℕ}
    {runs : List (List ℕ)}
    (isSplit : text.splitBy (sameRun (loopGroupId nodes) depth) = run :: runs) :
    ∃ front back, forest = front ++ back ∧
      wrapRun nodes depth (fun run => buildLoopGroup nodes levels run (depth + 1)) run =
        .ok front := by
  rw [buildLoopGroup, isSplit] at builds
  obtain ⟨forests, wraps, isForest⟩ := bind_eq_ok_iff.mp builds
  cases isForest
  cases forall₂_of_mapM wraps with
  | cons here _ => exact ⟨_, _, List.flatten_cons, here⟩

/-- The loop node of a group reports what the group does. -/
theorem checkedKey_group (consistent : ConsistentTripCounts nodes) {levels : ℕ} {key : ℤ}
    (enough : ∀ index, index < nodes.length → (loopGroupId nodes index).length ≤ levels)
    {first : ℕ} {rest : List ℕ} (isCons : unitMembers nodes (.group key) = first :: rest)
    {count : Expr} {body : List (LoopTree Expr)}
    (builds : buildLoopGroup nodes levels (unitMembers nodes (.group key)) 1 = .ok body) :
    checkedKey nodes (.node count body) = reportedKey nodes (.group key) := by
  have grouped : ∀ index ∈ unitMembers nodes (.group key), unitOfNode nodes index = .group key :=
    fun index inside => (mem_unitMembers.mp inside).2
  obtain ⟨run, runs, isSplit⟩ := List.exists_cons_of_ne_nil
    (List.splitBy_ne_nil (r := sameRun (loopGroupId nodes) 1) |>.mpr
      (show unitMembers nodes (.group key) ≠ [] by rw [isCons]; exact List.cons_ne_nil _ _))
  have isPart : run ∈ (unitMembers nodes (.group key)).splitBy (sameRun (loopGroupId nodes) 1) := by
    rw [isSplit]
    exact List.mem_cons_self
  have inGroup := (splitBy_isPart isPart).subset
  obtain ⟨head, tail, rfl⟩ := List.exists_cons_of_ne_nil (List.ne_nil_of_mem_splitBy isPart)
  have headGrouped := grouped head (inGroup List.mem_cons_self)
  obtain ⟨levels, rfl⟩ : ∃ fewer, levels = fewer + 1 := by
    refine Nat.exists_eq_add_one.mpr ?_
    have bound := enough head (mem_unitMembers.mp (inGroup List.mem_cons_self)).1
    have inside := (group_together key head (inGroup List.mem_cons_self) head
      (inGroup List.mem_cons_self)).1
    omega
  have reported : reportedKey nodes (.group key) =
      if (head :: tail).any (fun index => (loopGroupId nodes index).length ≤ 2) then some key
      else none := by
    rw [reportedKey, isSplit]
    rfl
  rw [reported]
  obtain ⟨front, back, rfl, wraps⟩ := buildLoopGroup_head builds isSplit
  rcases wrapRun_cases wraps with ⟨shallow, rfl⟩ | ⟨innerCount, inner, deep, built, rfl⟩
  · -- The first member is in no inner loop and reports for itself.
    have isAny : (head :: tail).any (fun index => (loopGroupId nodes index).length ≤ 2) = true :=
      List.any_eq_true.mpr ⟨head, List.mem_cons_self, by simpa using Nat.le_succ_of_le shallow⟩
    rw [if_pos isAny]
    exact (enclosingLoops_of_group headGrouped).2
  · -- The first member is an inner loop, which reports through its direct members.
    have together := runs_together (group_together key)
      (mem_runs.mpr ⟨isPart, head, List.mem_cons_self, deep⟩)
    obtain ⟨forest, builds', isBuilt⟩ := buildLoopGroup_spec consistent together
      fun index inside => show _ ≤ 2 + levels by
        have bound := enough index (mem_unitMembers.mp (inGroup inside)).1
        omega
    cases built.symm.trans builds'
    have direct := isBuilt.direct
    have keyed := @schedulerEnclosingLoops_node _ nodes innerCount inner key fun index inside => by
      rw [direct] at inside
      exact grouped index (inGroup (List.mem_filter.mp inside).1)
    change (schedulerEnclosingLoops nodes (.node innerCount inner)).head?.map LoopLevel.group = _
    rw [keyed, direct]
    by_cases isAny : (head :: tail).any (fun index => (loopGroupId nodes index).length ≤ 2) = true
    · rw [if_pos isAny, if_neg (any_shallow_iff.1 isAny)]
    · rw [if_neg isAny, if_pos (not_not.mp (mt any_shallow_iff.2 isAny))]

/-- Each unit becomes one tree, with the unit's nodes and report. -/
theorem wrapRun_unit (consistent : ConsistentTripCounts nodes) {levels : ℕ} {unit : LoopUnit}
    (enough : ∀ index, index < nodes.length → (loopGroupId nodes index).length ≤ levels)
    (isUnit : unit ∈ orderedUnits nodes) :
    ∃ tree, wrapRun nodes 0 (fun run => buildLoopGroup nodes levels run 1)
        (unitMembers nodes unit) = .ok [tree] ∧
      checkedKey nodes tree = reportedKey nodes unit ∧ getName nodes tree = unitName nodes unit := by
  have isPart : unitMembers nodes unit ∈
      (regroupByOuterLoopKey nodes).splitBy (sameRun (loopGroupId nodes) 0) := by
    rw [splitBy_regroup]
    exact List.mem_map_of_mem isUnit
  have together : Together (loopGroupId nodes) 0 (regroupByOuterLoopKey nodes) :=
    fun _ _ _ _ => ⟨Nat.zero_le _, rfl⟩
  obtain ⟨forest, wraps, wrapped⟩ : ∃ forest,
      wrapRun nodes 0 (fun run => buildLoopGroup nodes levels run 1) (unitMembers nodes unit) =
        .ok forest ∧ Wrapped nodes 0 (unitMembers nodes unit) forest := by
    apply wrapRun_spec consistent together isPart
    intro inRun
    apply buildLoopGroup_spec consistent inRun
    intro index inside
    have bound := enough index (mem_unitMembers.mp inside).1
    omega
  have named : ∀ tree, forest = [tree] → getName nodes tree = unitName nodes unit := by
    rintro tree rfl
    have sameLeaves : tree.leavesOf = unitMembers nodes unit := by
      have flat := wrapped.leaves
      rwa [show RoseTree.leaves [tree] = tree.leavesOf from List.append_nil _] at flat
    unfold getName unitName
    rw [sameLeaves]
  obtain ⟨first, rest, isCons⟩ := List.exists_cons_of_ne_nil (unitMembers_ne_nil isUnit)
  have firstIn : first ∈ unitMembers nodes unit := by
    rw [isCons]
    exact List.mem_cons_self
  rw [isCons] at wraps
  rcases wrapRun_cases wraps with ⟨outside, rfl⟩ | ⟨count, body, deep, built, rfl⟩
  · have isEmpty : loopGroupId nodes first = [] := List.length_eq_zero_iff.mp (Nat.le_zero.mp outside)
    cases unit with
    | group key =>
        have isGroup := (mem_unitMembers.mp firstIn).2
        rw [unitOfNode_eq_group_iff, isEmpty] at isGroup
        cases isGroup
    | single index =>
        have isIndex := (unitOfNode_eq_single_iff.mp (mem_unitMembers.mp firstIn).2).2
        subst isIndex
        have onlyOne : rest = [] := by
          refine List.eq_nil_iff_forall_not_mem.mpr fun other inRest => ?_
          have otherIn : other ∈ unitMembers nodes (.single first) := by
            rw [isCons]
            exact List.mem_cons_of_mem _ inRest
          have same := (unitOfNode_eq_single_iff.mp (mem_unitMembers.mp otherIn).2).2
          have ordered := @unitMembers_ordered _ nodes (.single first)
          rw [isCons, List.pairwise_cons] at ordered
          exact absurd (ordered.1 other inRest) (by omega)
        subst onlyOne
        refine ⟨.leaf first, ?_, rfl, named _ rfl⟩
        rw [isCons]
        exact wraps
  · cases unit with
    | single index =>
        have isEmpty := (unitOfNode_eq_single_iff.mp (mem_unitMembers.mp firstIn).2).1
        rw [isEmpty] at deep
        cases deep
    | group key =>
        rw [← isCons] at wraps built
        exact ⟨_, wraps, checkedKey_group consistent enough isCons built, named _ rfl⟩


end Trees

end TorchSpyre.Scheduling
