import Mathlib
import TorchSpyre.Lib.Order
import TorchSpyre.Lib.Runs

/-!
# Counted loops over a text

A text of positions is nested into counted loops by the path of each position: the
labels of the loops around it, outermost first.  `unroll` runs the text.  Its
instances are ordered by the first loop level at which they differ.
-/

namespace Lib.LoopNest

/-- One execution of a position, with the iteration of every loop around it. -/
structure Instance where
  index : ℕ
  iters : List ℕ
  deriving DecidableEq, Repr

variable {Label : Type*}

section Text

variable (path : ℕ → List Label) (trips : List Label → ℕ)

def nestingDepth (length : ℕ) : ℕ :=
  ((List.range length).map fun index => (path index).length).foldr max 0

section Execution

variable [DecidableEq Label]

/-- Consecutive positions in the same loop at a depth. -/
def groups (depth : ℕ) (text : List ℕ) : List (List ℕ) :=
  text.splitBy fun index next => (path index).take (depth + 1) = (path next).take (depth + 1)

/-- Run a group: its positions one after the other, or all iterations of their loop. -/
def runGroup (depth : ℕ) (iters : List ℕ) (body : List ℕ → List ℕ → List Instance) :
    List ℕ → List Instance
  | [] => []
  | first :: rest =>
      if (path first).length ≤ depth then (first :: rest).map fun index => ⟨index, iters⟩
      else
        (List.range (trips ((path first).take (depth + 1)))).flatMap fun iter =>
          body (iters ++ [iter]) (first :: rest)

/-- Run positions `depth` loops deep; `levels` bounds the loops below. -/
def unrollAt : ℕ → ℕ → List ℕ → List ℕ → List Instance
  | 0, _, iters, text => text.map fun index => ⟨index, iters⟩
  | levels + 1, depth, iters, text =>
      (groups path depth text).flatMap
        (runGroup path trips depth iters (unrollAt levels (depth + 1)))

/-- The run of a text of the given length. -/
def unroll (length : ℕ) : List Instance :=
  unrollAt path trips (nestingDepth path length) 0 [] (List.range length)

end Execution

/-- Every loop occupies consecutive positions. -/
def Contiguous : Prop :=
  ∀ first middle last, first ≤ middle → middle ≤ last → ∀ loop, loop ≠ [] →
    loop <+: path first → loop <+: path last → loop <+: path middle

/-- The positions are in the same loops down to a depth. -/
def SharesLoops (depth first second : ℕ) : Prop :=
  depth ≤ (path first).length ∧ (path first).take depth = (path second).take depth

structure Valid (run : Instance) : Prop where
  length : run.iters.length = (path run.index).length
  bounded : ∀ level < run.iters.length,
    run.iters.getD level 0 < trips ((path run.index).take (level + 1))

/-- Both instances are in the same iterations of the outer loops. -/
structure Shares (depth : ℕ) (first second : Instance) : Prop where
  loops : SharesLoops path depth first.index second.index
  iters : first.iters.take depth = second.iters.take depth

def Before (first second : Instance) : Prop :=
  ∃ depth, Shares path depth first second ∧
    ((first.index < second.index ∧ ¬ SharesLoops path (depth + 1) first.index second.index) ∨
      (SharesLoops path (depth + 1) first.index second.index ∧
        first.iters.getD depth 0 < second.iters.getD depth 0))

end Text

/-! ## Shared loops -/

section Shared

variable {path : ℕ → List Label}

theorem SharesLoops.le_right {depth first second : ℕ} (shared : SharesLoops path depth first second) :
    depth ≤ (path second).length := by
  have lengths := congrArg List.length shared.2
  rw [List.length_take, List.length_take, min_eq_left shared.1] at lengths
  omega

theorem SharesLoops.symm {depth first second : ℕ} (shared : SharesLoops path depth first second) :
    SharesLoops path depth second first :=
  ⟨shared.le_right, shared.2.symm⟩

theorem SharesLoops.trans {depth first second third : ℕ}
    (shared : SharesLoops path depth first second)
    (shared' : SharesLoops path depth second third) : SharesLoops path depth first third :=
  ⟨shared.1, shared.2.trans shared'.2⟩

theorem take_mono {α : Type*} {shallow deep : ℕ} (below : shallow ≤ deep) {first second : List α}
    (same : first.take deep = second.take deep) : first.take shallow = second.take shallow := by
  have taken := congrArg (List.take shallow) same
  rwa [List.take_take, List.take_take, min_eq_left below] at taken

theorem SharesLoops.mono {shallow deep first second : ℕ} (below : shallow ≤ deep)
    (shared : SharesLoops path deep first second) : SharesLoops path shallow first second :=
  ⟨le_trans below shared.1, take_mono below shared.2⟩

theorem getD_of_take {shallow deep : ℕ} (below : shallow < deep) {first second : List ℕ}
    (same : first.take deep = second.take deep) : first.getD shallow 0 = second.getD shallow 0 := by
  have located := congrArg (fun list => list.getD shallow 0) same
  simpa [List.getD_eq_getElem?_getD, List.getElem?_take, below] using located

theorem Shares.symm {depth : ℕ} {first second : Instance} (shared : Shares path depth first second) :
    Shares path depth second first :=
  ⟨shared.loops.symm, shared.iters.symm⟩

theorem Shares.trans {depth : ℕ} {first second third : Instance}
    (shared : Shares path depth first second) (shared' : Shares path depth second third) :
    Shares path depth first third :=
  ⟨shared.loops.trans shared'.loops, shared.iters.trans shared'.iters⟩

theorem Shares.mono {shallow deep : ℕ} {first second : Instance} (below : shallow ≤ deep)
    (shared : Shares path deep first second) : Shares path shallow first second :=
  ⟨shared.loops.mono below, take_mono below shared.iters⟩

/-- A position between two positions of a loop is in the loop. -/
theorem Contiguous.shares (contiguous : Contiguous path) {depth first middle last : ℕ}
    (lower : first ≤ middle) (upper : middle ≤ last)
    (shared : SharesLoops path depth first last) : SharesLoops path depth first middle := by
  by_cases outermost : (path first).take depth = []
  · have isZero : depth = 0 := by
      have empty := congrArg List.length outermost
      rw [List.length_take, min_eq_left shared.1, List.length_nil] at empty
      exact empty
    subst isZero
    exact ⟨Nat.zero_le _, rfl⟩
  · have inside := contiguous first middle last lower upper _ outermost
      (List.take_prefix _ _) (shared.2 ▸ List.take_prefix _ _)
    refine ⟨shared.1, ?_⟩
    have taken := List.prefix_iff_eq_take.mp inside
    rwa [List.length_take, min_eq_left shared.1] at taken

/-- Instances that differ first at some level cannot share the iterations below it. -/
theorem Before.not_shares {first second : Instance} {depth : ℕ}
    (differs : (first.index < second.index ∧
        ¬ SharesLoops path (depth + 1) first.index second.index) ∨
      (SharesLoops path (depth + 1) first.index second.index ∧
        first.iters.getD depth 0 < second.iters.getD depth 0)) :
    ¬ Shares path (depth + 1) first second := by
  intro shared
  rcases differs with ⟨-, apart⟩ | ⟨-, earlier⟩
  · exact apart shared.loops
  · have same := getD_of_take (Nat.lt_succ_self depth) shared.iters
    omega

theorem Before.asymm {first second : Instance} (before : Before path first second) :
    ¬ Before path second first := by
  rintro ⟨depth', shared', differs'⟩
  obtain ⟨depth, shared, differs⟩ := before
  rcases lt_trichotomy depth depth' with below | rfl | above
  · exact Before.not_shares differs (shared'.symm.mono below)
  · rcases differs with ⟨lower, apart⟩ | ⟨loops, earlier⟩
    · rcases differs' with ⟨lower', -⟩ | ⟨loops', -⟩
      · omega
      · exact apart loops'.symm
    · rcases differs' with ⟨-, apart'⟩ | ⟨-, earlier'⟩
      · exact apart' loops.symm
      · omega
  · exact Before.not_shares differs' (shared.symm.mono above)

/-- An instance between two others shares the iterations these have in common. -/
theorem Shares.between (contiguous : Contiguous path) {depth : ℕ} {first middle last : Instance}
    (shared : Shares path depth first last) (afterFirst : Before path first middle)
    (beforeLast : Before path middle last) :
    Shares path depth first middle ∧ Shares path depth middle last := by
  obtain ⟨left, sharedLeft, differsLeft⟩ := afterFirst
  obtain ⟨right, sharedRight, differsRight⟩ := beforeLast
  suffices bothDeep : depth ≤ left ∧ depth ≤ right from
    ⟨sharedLeft.mono bothDeep.1, sharedRight.mono bothDeep.2⟩
  by_contra shallow
  rcases lt_trichotomy left right with below | rfl | above
  · have covered : left + 1 ≤ depth := by omega
    exact Before.not_shares differsLeft
      ((shared.mono covered).trans (sharedRight.mono below).symm)
  · have covered : left + 1 ≤ depth := by omega
    have loops := (shared.mono covered).loops
    rcases differsLeft with ⟨lower, apart⟩ | ⟨loopsLeft, earlier⟩
    · rcases differsRight with ⟨upper, -⟩ | ⟨loopsRight, -⟩
      · exact apart (contiguous.shares (le_of_lt lower) (le_of_lt upper) loops)
      · exact apart (loops.trans loopsRight.symm)
    · rcases differsRight with ⟨-, apart⟩ | ⟨-, later⟩
      · exact apart (loopsLeft.symm.trans loops)
      · have same := getD_of_take (Nat.lt_succ_self left) (shared.mono covered).iters
        omega
  · have covered : right + 1 ≤ depth := by omega
    exact Before.not_shares differsRight
      ((sharedLeft.mono above).symm.trans (shared.mono covered))

/-- Below the shared iterations an instance comes later in the text or shares one
more loop. -/
theorem Before.later_or_shares {depth : ℕ} {first second : Instance}
    (before : Before path first second) (shared : Shares path depth first second) :
    first.index < second.index ∨ SharesLoops path (depth + 1) first.index second.index := by
  obtain ⟨level, sharedLevel, differs⟩ := before
  rcases lt_or_ge depth level with below | above
  · exact .inr (sharedLevel.loops.mono below)
  · rcases differs with ⟨later, -⟩ | ⟨loops, earlier⟩
    · exact .inl later
    · rcases lt_or_eq_of_le above with strictly | rfl
      · have same := getD_of_take strictly shared.iters
        omega
      · exact .inr loops

end Shared

/-! ## The run -/

section Run

variable [DecidableEq Label] {path : ℕ → List Label} {trips : List Label → ℕ}

section Groups

theorem mem_groups {depth : ℕ} {text : List ℕ} {index : ℕ} :
    index ∈ text ↔ ∃ group ∈ groups path depth text, index ∈ group :=
  mem_splitBy

theorem groups_uniform {depth : ℕ} {text group : List ℕ} {first index : ℕ}
    (isGroup : first :: group ∈ groups path depth text) (inside : index ∈ first :: group) :
    (path first).take (depth + 1) = (path index).take (depth + 1) := by
  have uniform := splitBy_uniform
    (fun _ _ same => by simpa using (of_decide_eq_true same).symm)
    (fun _ _ _ same same' => by
      simpa using (of_decide_eq_true same).trans (of_decide_eq_true same'))
    isGroup List.mem_cons_self inside
  rcases uniform with rfl | same
  · rfl
  · exact of_decide_eq_true same

/-- Positions of different groups are in different loops. -/
theorem groups_apart (contiguous : Contiguous path) {depth : ℕ} {text : List ℕ}
    (ordered : text.Pairwise (· < ·)) :
    (groups path depth text).Pairwise fun group later =>
      ∀ index ∈ group, ∀ next ∈ later,
        index < next ∧ ¬ SharesLoops path (depth + 1) index next := by
  apply splitBy_apart _ _ ordered
  · exact fun _ _ _ _ shared => decide_eq_true shared.2
  · intro first _ middle _ last _ lower upper shared
    exact contiguous.shares (le_of_lt lower) (le_of_lt upper) shared
  · exact fun _ _ same => by simpa using (of_decide_eq_true same).symm
  · exact fun _ _ _ same same' => by
      simpa using (of_decide_eq_true same).trans (of_decide_eq_true same')

end Groups

/-- What the run of a group adds to the run of the text. -/
theorem mem_unrollAt_succ {levels depth : ℕ} {iters text : List ℕ} {run : Instance} :
    run ∈ unrollAt path trips (levels + 1) depth iters text ↔
      ∃ first rest, first :: rest ∈ groups path depth text ∧
        (((path first).length ≤ depth ∧ run.index ∈ first :: rest ∧ run.iters = iters) ∨
          (depth < (path first).length ∧ ∃ iter < trips ((path first).take (depth + 1)),
            run ∈ unrollAt path trips levels (depth + 1) (iters ++ [iter]) (first :: rest))) := by
  rw [unrollAt, List.mem_flatMap]
  constructor
  · rintro ⟨group, isGroup, inside⟩
    cases group with
    | nil => cases inside
    | cons first rest =>
        refine ⟨first, rest, isGroup, ?_⟩
        rw [runGroup] at inside
        split_ifs at inside with shallow
        · obtain ⟨index, inGroup, rfl⟩ := List.mem_map.mp inside
          exact .inl ⟨shallow, inGroup, rfl⟩
        · obtain ⟨iter, inRange, executed⟩ := List.mem_flatMap.mp inside
          exact .inr ⟨not_le.mp shallow, iter, List.mem_range.mp inRange, executed⟩
  · rintro ⟨first, rest, isGroup, ⟨shallow, inGroup, rfl⟩ | ⟨deep, iter, inRange, executed⟩⟩
    · refine ⟨_, isGroup, ?_⟩
      simp only [runGroup, if_pos shallow]
      exact List.mem_map.mpr ⟨run.index, inGroup, rfl⟩
    · refine ⟨_, isGroup, ?_⟩
      simp only [runGroup, if_neg (not_le.mpr deep)]
      exact List.mem_flatMap.mpr ⟨iter, List.mem_range.mpr inRange, executed⟩

theorem length_le_of_group {depth : ℕ} {text rest : List ℕ} {first index : ℕ}
    (isGroup : first :: rest ∈ groups path depth text) (inside : index ∈ first :: rest)
    (shallow : (path first).length ≤ depth) : (path index).length ≤ depth := by
  have lengths := congrArg List.length (groups_uniform isGroup inside)
  rw [List.length_take, List.length_take] at lengths
  omega

theorem lt_length_of_group {depth : ℕ} {text rest : List ℕ} {first index : ℕ}
    (isGroup : first :: rest ∈ groups path depth text) (inside : index ∈ first :: rest)
    (deep : depth < (path first).length) : depth + 1 ≤ (path index).length := by
  have lengths := congrArg List.length (groups_uniform isGroup inside)
  rw [List.length_take, List.length_take] at lengths
  omega

theorem take_succ_getD {list : List ℕ} {depth : ℕ} (inside : depth < list.length) :
    list.take (depth + 1) = list.take depth ++ [list.getD depth 0] := by
  rw [List.take_add_one, List.getElem?_eq_getElem inside]
  simp [List.getD_eq_getElem?_getD, List.getElem?_eq_getElem inside]

/-- What a run of the text is, without the loops already entered. -/
structure Runs (path : ℕ → List Label) (trips : List Label → ℕ) (depth : ℕ)
    (iters text : List ℕ) (run : Instance) : Prop where
  inText : run.index ∈ text
  length : run.iters.length = (path run.index).length
  entered : run.iters.take depth = iters
  bounded : ∀ level, depth ≤ level → level < run.iters.length →
    run.iters.getD level 0 < trips ((path run.index).take (level + 1))

omit [DecidableEq Label] in
theorem runs_flat {depth : ℕ} {iters text : List ℕ} {run : Instance}
    (started : iters.length = depth) (flat : (path run.index).length = depth) :
    Runs path trips depth iters text run ↔ run.index ∈ text ∧ run.iters = iters := by
  constructor
  · intro runs
    refine ⟨runs.inText, ?_⟩
    rw [← runs.entered, List.take_of_length_le (le_of_eq (runs.length.trans flat))]
  · rintro ⟨inText, rfl⟩
    refine ⟨inText, started.trans flat.symm, List.take_of_length_le (le_of_eq started), ?_⟩
    intro level lower upper
    exact absurd (lt_of_lt_of_le upper (started ▸ lower)) (lt_irrefl _)

/-- The run of a text: every position, in every iteration. -/
theorem mem_unrollAt {levels depth : ℕ} {iters text : List ℕ} {run : Instance}
    (started : iters.length = depth)
    (nested : ∀ index ∈ text, depth ≤ (path index).length ∧ (path index).length ≤ depth + levels) :
    run ∈ unrollAt path trips levels depth iters text ↔ Runs path trips depth iters text run := by
  induction levels generalizing depth iters text with
  | zero =>
      simp only [unrollAt, List.mem_map]
      constructor
      · rintro ⟨index, inside, rfl⟩
        exact (runs_flat started (le_antisymm (nested index inside).2 (nested index inside).1)).mpr
          ⟨inside, rfl⟩
      · intro runs
        have within := nested run.index runs.inText
        obtain ⟨inside, rfl⟩ := (runs_flat started (le_antisymm within.2 within.1)).mp runs
        exact ⟨run.index, inside, rfl⟩
  | succ levels inductionHypothesis =>
      have deeper : ∀ {first : ℕ} {rest : List ℕ}, first :: rest ∈ groups path depth text →
          depth < (path first).length → ∀ index ∈ first :: rest,
            depth + 1 ≤ (path index).length ∧ (path index).length ≤ depth + 1 + levels := by
        intro first rest isGroup deep index inside
        have bound := (nested index (mem_groups.2 ⟨_, isGroup, inside⟩)).2
        exact ⟨lt_length_of_group isGroup inside deep, by omega⟩
      have longer : ∀ iter : ℕ, (iters ++ [iter]).length = depth + 1 := by
        intro iter
        rw [List.length_append, started, List.length_singleton]
      rw [mem_unrollAt_succ]
      constructor
      · rintro ⟨first, rest, isGroup, ⟨shallow, inGroup, same⟩ | ⟨deep, iter, inRange, executed⟩⟩
        · have inText := mem_groups.2 ⟨_, isGroup, inGroup⟩
          apply (runs_flat started ?_).mpr ⟨inText, same⟩
          exact le_antisymm (length_le_of_group isGroup inGroup shallow) (nested _ inText).1
        · have runs := (inductionHypothesis (longer iter) (deeper isGroup deep)).mp executed
          refine ⟨mem_groups.2 ⟨_, isGroup, runs.inText⟩, runs.length, ?_, ?_⟩
          · have taken := congrArg (List.take depth) runs.entered
            rwa [List.take_take, min_eq_left (Nat.le_succ depth),
              List.take_append_of_le_length (le_of_eq started.symm),
              List.take_of_length_le (le_of_eq started)] at taken
          · intro level lower upper
            rcases lt_or_eq_of_le lower with below | rfl
            · exact runs.bounded level below upper
            · have entered := runs.entered
              rw [take_succ_getD upper] at entered
              have same := (List.append_inj' entered rfl).2
              rw [List.singleton_inj.mp same, ← groups_uniform isGroup runs.inText]
              exact inRange
      · intro runs
        obtain ⟨group, isGroup, inGroup⟩ : ∃ group ∈ groups path depth text, run.index ∈ group :=
          mem_groups.1 runs.inText
        cases group with
        | nil => cases inGroup
        | cons first rest =>
            refine ⟨first, rest, isGroup, ?_⟩
            rcases le_or_gt (path first).length depth with shallow | deep
            · have flat := le_antisymm (length_le_of_group isGroup inGroup shallow)
                (nested _ runs.inText).1
              exact .inl ⟨shallow, inGroup, ((runs_flat started flat).mp runs).2⟩
            · have inside : depth < run.iters.length := by
                rw [runs.length]
                exact lt_length_of_group isGroup inGroup deep
              refine .inr ⟨deep, run.iters.getD depth 0, ?_, ?_⟩
              · rw [groups_uniform isGroup inGroup]
                exact runs.bounded depth (le_refl _) inside
              · apply (inductionHypothesis (longer _) (deeper isGroup deep)).mpr
                refine ⟨inGroup, runs.length, ?_, fun level lower => runs.bounded level (by omega)⟩
                rw [take_succ_getD inside, runs.entered]

omit [DecidableEq Label] in
theorem map_pairwise_before {depth : ℕ} {text : List ℕ} (iters : List ℕ)
    (ordered : text.Pairwise (· < ·))
    (together : ∀ index ∈ text, ∀ next ∈ text, SharesLoops path depth index next)
    (flat : ∀ index ∈ text, (path index).length ≤ depth) :
    (text.map fun index => Instance.mk index iters).Pairwise (Before path) := by
  rw [List.pairwise_map]
  refine ordered.imp_of_mem fun {index next} inText inText' lower => ?_
  refine ⟨depth, ⟨together index inText next inText', rfl⟩, .inl ⟨lower, fun shared => ?_⟩⟩
  exact absurd shared.1 (not_le.mpr (Nat.lt_succ_of_le (flat index inText)))

/-- The instances of a run come in order. -/
theorem unrollAt_pairwise (contiguous : Contiguous path) {levels depth : ℕ} {iters text : List ℕ}
    (started : iters.length = depth)
    (nested : ∀ index ∈ text, depth ≤ (path index).length ∧ (path index).length ≤ depth + levels)
    (ordered : text.Pairwise (· < ·))
    (together : ∀ index ∈ text, ∀ next ∈ text, SharesLoops path depth index next) :
    (unrollAt path trips levels depth iters text).Pairwise (Before path) := by
  induction levels generalizing depth iters text with
  | zero => exact map_pairwise_before iters ordered together fun index inside =>
      (nested index inside).2
  | succ levels inductionHypothesis =>
      have longer : ∀ iter : ℕ, (iters ++ [iter]).length = depth + 1 := by
        intro iter
        rw [List.length_append, started, List.length_singleton]
      have inText : ∀ {group : List ℕ} {index : ℕ}, group ∈ groups path depth text →
          index ∈ group → index ∈ text :=
        fun isGroup inside => mem_groups.mpr ⟨_, isGroup, inside⟩
      have deeper : ∀ {first : ℕ} {rest : List ℕ}, first :: rest ∈ groups path depth text →
          depth < (path first).length → ∀ index ∈ first :: rest,
            depth + 1 ≤ (path index).length ∧ (path index).length ≤ depth + 1 + levels := by
        intro first rest isGroup deep index inside
        have bound := (nested index (inText isGroup inside)).2
        exact ⟨lt_length_of_group isGroup inside deep, by omega⟩
      -- Every instance of a group is at a position of the group, in the same outer iterations.
      have located : ∀ {group : List ℕ} {run : Instance}, group ∈ groups path depth text →
          run ∈ runGroup path trips depth iters (unrollAt path trips levels (depth + 1)) group →
          run.index ∈ group ∧ run.iters.take depth = iters := by
        intro group run isGroup inside
        have executed : run ∈ unrollAt path trips (levels + 1) depth iters text := by
          exact List.mem_flatMap.mpr ⟨group, isGroup, inside⟩
        refine ⟨?_, ((mem_unrollAt started nested).mp executed).entered⟩
        cases group with
        | nil => cases inside
        | cons first rest =>
            rw [runGroup] at inside
            split_ifs at inside with shallow
            · obtain ⟨index, inGroup, rfl⟩ := List.mem_map.mp inside
              exact inGroup
            · obtain ⟨iter, -, executed⟩ := List.mem_flatMap.mp inside
              exact ((mem_unrollAt (longer iter) (deeper isGroup (not_le.mp shallow))).mp
                executed).inText
      rw [unrollAt, List.pairwise_flatMap]
      constructor
      · intro group isGroup
        have groupOrdered : group.Pairwise (· < ·) := by
          have flattened : (groups path depth text).flatten.Pairwise (· < ·) := by
            unfold groups
            rwa [List.flatten_splitBy]
          exact (List.pairwise_flatten.mp flattened).1 group isGroup
        cases group with
        | nil => exact List.Pairwise.nil
        | cons first rest =>
            rw [runGroup]
            split_ifs with shallow
            · exact map_pairwise_before iters groupOrdered
                (fun index inside next inside' =>
                  together index (inText isGroup inside) next (inText isGroup inside'))
                fun index inside => length_le_of_group isGroup inside shallow
            · have deep := not_le.mp shallow
              have sameLoop : ∀ index ∈ first :: rest, ∀ next ∈ first :: rest,
                  SharesLoops path (depth + 1) index next := fun index inside next inside' =>
                ⟨(deeper isGroup deep index inside).1,
                  (groups_uniform isGroup inside).symm.trans (groups_uniform isGroup inside')⟩
              rw [List.pairwise_flatMap]
              refine ⟨fun iter _ => inductionHypothesis (longer iter) (deeper isGroup deep)
                groupOrdered sameLoop, List.pairwise_lt_range.imp fun {iter later} earlier => ?_⟩
              intro run executed run' executed'
              have runs := (mem_unrollAt (longer iter) (deeper isGroup deep)).mp executed
              have runs' := (mem_unrollAt (longer later) (deeper isGroup deep)).mp executed'
              have loops := sameLoop _ runs.inText _ runs'.inText
              have entered : ∀ {iter : ℕ} {list : List ℕ}, list.take (depth + 1) = iters ++ [iter] →
                  list.take depth = iters ∧ list.getD depth 0 = iter := by
                intro iter list taken
                have same : list.take (depth + 1) = (iters ++ [iter]).take (depth + 1) := by
                  rw [taken, List.take_of_length_le (le_of_eq (longer iter))]
                refine ⟨?_, ?_⟩
                · rw [take_mono (Nat.le_succ depth) same, ← started, List.take_left]
                · rw [getD_of_take (Nat.lt_succ_self depth) same, ← started]
                  simp [List.getD_eq_getElem?_getD]
              obtain ⟨outer, atDepth⟩ := entered runs.entered
              obtain ⟨outer', atDepth'⟩ := entered runs'.entered
              refine ⟨depth, ⟨loops.mono (Nat.le_succ depth), outer.trans outer'.symm⟩,
                .inr ⟨loops, ?_⟩⟩
              rwa [atDepth, atDepth']
      · refine (groups_apart contiguous ordered).imp_of_mem fun {group later} isGroup isLater apart =>
          ?_
        intro run executed run' executed'
        obtain ⟨inGroup, outer⟩ := located isGroup executed
        obtain ⟨inLater, outer'⟩ := located isLater executed'
        obtain ⟨lower, notShared⟩ := apart _ inGroup _ inLater
        exact ⟨depth, ⟨together _ (inText isGroup inGroup) _ (inText isLater inLater),
          outer.trans outer'.symm⟩, .inl ⟨lower, notShared⟩⟩

/-! ### Whole texts -/

omit [DecidableEq Label] in
theorem length_le_nestingDepth {length index : ℕ} (inText : index < length) :
    (path index).length ≤ nestingDepth path length := by
  unfold nestingDepth
  apply le_foldr_max
  exact List.mem_map.mpr ⟨index, List.mem_range.mpr inText, rfl⟩

omit [DecidableEq Label] in
theorem nested_range (length : ℕ) : ∀ index ∈ List.range length,
    0 ≤ (path index).length ∧ (path index).length ≤ 0 + nestingDepth path length := by
  intro index inText
  rw [Nat.zero_add]
  exact ⟨Nat.zero_le _, length_le_nestingDepth (List.mem_range.mp inText)⟩

theorem mem_unroll {length : ℕ} {run : Instance} :
    run ∈ unroll path trips length ↔ run.index < length ∧ Valid path trips run := by
  unfold unroll
  rw [mem_unrollAt List.length_nil (nested_range length)]
  constructor
  · intro runs
    exact ⟨List.mem_range.mp runs.inText, runs.length, fun level inside =>
      runs.bounded level (Nat.zero_le _) inside⟩
  · rintro ⟨inText, valid⟩
    exact ⟨List.mem_range.mpr inText, valid.length, List.take_zero, fun level _ inside =>
      valid.bounded level inside⟩

theorem unroll_pairwise (contiguous : Contiguous path) (length : ℕ) :
    (unroll path trips length).Pairwise (Before path) := by
  apply unrollAt_pairwise contiguous List.length_nil (nested_range length)
  · exact List.pairwise_lt_range
  · exact fun index _ next _ => ⟨Nat.zero_le _, rfl⟩

end Run

/-! ## Stretches of a run -/

section Stretch

variable {path : ℕ → List Label} {trips : List Label → ℕ}

/-- The first instance of a position in given iterations of its outer loops. -/
def enter (path : ℕ → List Label) (index : ℕ) (iters : List ℕ) : Instance :=
  ⟨index, iters ++ List.replicate ((path index).length - iters.length) 0⟩

theorem enter_valid (positive : ∀ loop, 0 < trips loop) {index : ℕ} {iters : List ℕ}
    (within : iters.length ≤ (path index).length)
    (bounded : ∀ level < iters.length,
      iters.getD level 0 < trips ((path index).take (level + 1))) :
    Valid path trips (enter path index iters) := by
  constructor
  · simp only [enter, List.length_append, List.length_replicate]
    omega
  · intro level inside
    rcases lt_or_ge level iters.length with entered | below
    · have same : (enter path index iters).iters.getD level 0 = iters.getD level 0 := by
        simp [enter, List.getD_eq_getElem?_getD, List.getElem?_append_left entered]
      rw [same]
      exact bounded level entered
    · have isZero : (enter path index iters).iters.getD level 0 = 0 := by
        simp only [enter, List.getD_eq_getElem?_getD, List.getElem?_append_right below,
          List.getElem?_replicate]
        split_ifs <;> rfl
      rw [isZero]
      exact positive _

theorem enter_take {index depth : ℕ} {iters : List ℕ} (entered : depth ≤ iters.length) :
    (enter path index iters).iters.take depth = iters.take depth := by
  simp only [enter]
  exact List.take_append_of_le_length entered

theorem enter_getD {index level : ℕ} {iters : List ℕ} (entered : level < iters.length) :
    (enter path index iters).iters.getD level 0 = iters.getD level 0 := by
  simp [enter, List.getD_eq_getElem?_getD, List.getElem?_append_left entered]

/-- A position re-entered in the iterations of a valid instance. -/
theorem enter_shared_valid (positive : ∀ loop, 0 < trips loop) {index depth : ℕ} {run : Instance}
    (valid : Valid path trips run) (shared : SharesLoops path depth index run.index) :
    Valid path trips (enter path index (run.iters.take depth)) := by
  have length : (run.iters.take depth).length = depth := by
    rw [List.length_take, valid.length, min_eq_left shared.le_right]
  apply enter_valid positive
  · rw [length]
    exact shared.1
  · intro level inside
    rw [length] at inside
    rw [getD_of_take inside (List.take_take.trans (by rw [min_self])),
      take_mono (Nat.succ_le_of_lt inside) shared.2]
    apply valid.bounded
    rw [valid.length]
    exact lt_of_lt_of_le inside shared.le_right

/-- A valid instance ordered between two instances of a run lies between them. -/
theorem mem_between [DecidableEq Label] (contiguous : Contiguous path) {length : ℕ} {first middle last : Instance}
    {before between after : List Instance}
    (run : unroll path trips length = before ++ first :: (between ++ last :: after))
    (executed : middle ∈ unroll path trips length) (afterFirst : Before path first middle)
    (beforeLast : Before path middle last) : middle ∈ between := by
  have ordered := (unroll_pairwise contiguous length : (unroll path trips length).Pairwise _)
  rw [run] at ordered executed
  obtain ⟨-, tailOrdered, beforeTail⟩ := List.pairwise_append.mp ordered
  obtain ⟨-, betweenOrdered⟩ := List.pairwise_cons.mp tailOrdered
  obtain ⟨-, lastOrdered, -⟩ := List.pairwise_append.mp betweenOrdered
  rcases List.mem_append.mp executed with inBefore | inTail
  · exact absurd (beforeTail middle inBefore first List.mem_cons_self) afterFirst.asymm
  · rcases List.mem_cons.mp inTail with rfl | inRest
    · exact absurd afterFirst afterFirst.asymm
    · rcases List.mem_append.mp inRest with found | inLast
      · exact found
      · rcases List.mem_cons.mp inLast with rfl | inAfter
        · exact absurd beforeLast beforeLast.asymm
        · exact absurd ((List.pairwise_cons.mp lastOrdered).1 middle inAfter) beforeLast.asymm

theorem mem_before [DecidableEq Label] (contiguous : Contiguous path) {length : ℕ}
    {earlier last : Instance} {before after : List Instance}
    (run : unroll path trips length = before ++ last :: after)
    (executed : earlier ∈ unroll path trips length) (beforeLast : Before path earlier last) :
    earlier ∈ before := by
  have ordered : (unroll path trips length).Pairwise (Before path) :=
    unroll_pairwise contiguous length
  rw [run] at ordered executed
  obtain ⟨-, tailOrdered, -⟩ := List.pairwise_append.mp ordered
  rcases List.mem_append.mp executed with found | inTail
  · exact found
  · rcases List.mem_cons.mp inTail with rfl | inAfter
    · exact absurd beforeLast beforeLast.asymm
    · exact absurd ((List.pairwise_cons.mp tailOrdered).1 earlier inAfter) beforeLast.asymm

end Stretch

end Lib.LoopNest
