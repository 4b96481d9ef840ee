import TorchSpyre.Lib.LoopNest
import TorchSpyre.Lib.Order

/-!
# Loops recovered from runs

The loops of a text are recovered level by level: at each depth the maximal runs of
positions under the same label become loops, and a loop's own text is split at the
next depth.  A loop is recovered whole exactly when nothing else stands between its
positions.
-/

namespace Lib.LoopRuns

open LoopNest

variable {Label : Type*} [DecidableEq Label]

section Definitions

variable (path : ℕ → List Label)

/-- Both positions are in a loop at the depth, under the same label. -/
def sameRun (depth first second : ℕ) : Bool :=
  depth < (path first).length ∧ (path first)[depth]? = (path second)[depth]?

/-- The runs at a depth that are in a loop there. -/
def runs (depth : ℕ) (text : List ℕ) : List (List ℕ) :=
  (text.splitBy (sameRun path depth)).filter fun run => run.any fun index =>
    depth < (path index).length

/-- The runs some levels below a depth. -/
def runsAt : ℕ → ℕ → List ℕ → List (List ℕ)
  | 0, depth, text => runs path depth text
  | below + 1, depth, text => (runs path depth text).flatMap (runsAt below (depth + 1))

/-- All positions of the text are in the same loops down to the depth. -/
def Together (depth : ℕ) (text : List ℕ) : Prop :=
  ∀ first ∈ text, ∀ second ∈ text, SharesLoops path depth first second

/-- The positions of the text in a loop. -/
def members (loop : List Label) (text : List ℕ) : List ℕ :=
  text.filter fun index => loop <+: path index

/-- Within the text, a loop as deep as the bound has nothing else between its positions. -/
def ContiguousFrom (bound : ℕ) (text : List ℕ) : Prop :=
  ∀ loop : List Label, bound ≤ loop.length → ∀ first ∈ text, ∀ middle ∈ text, ∀ last ∈ text,
    first < middle → middle < last → loop <+: path first → loop <+: path last →
      loop <+: path middle

end Definitions

variable {path : ℕ → List Label} {depth below : ℕ} {text run : List ℕ}

theorem mem_members {loop : List Label} {index : ℕ} :
    index ∈ members path loop text ↔ index ∈ text ∧ loop <+: path index := by
  simp [members]

omit [DecidableEq Label] in
theorem take_prefix_iff {first second : ℕ} (deep : depth ≤ (path first).length) :
    (path first).take depth <+: path second ↔ SharesLoops path depth first second := by
  rw [List.prefix_iff_eq_take, List.length_take, min_eq_left deep]
  exact ⟨fun same => ⟨deep, same⟩, fun shared => shared.2⟩

omit [DecidableEq Label] in
theorem prefix_iff {loop : List Label} {first second : ℕ} (inside : loop <+: path first) :
    loop <+: path second ↔ SharesLoops path loop.length first second := by
  rw [← take_prefix_iff inside.length_le, ← List.prefix_iff_eq_take.mp inside]

omit [DecidableEq Label] in
theorem ContiguousFrom.shares {bound : ℕ} (contiguous : ContiguousFrom path bound text)
    (deep : bound ≤ depth) {first middle last : ℕ} (firstIn : first ∈ text)
    (middleIn : middle ∈ text) (lastIn : last ∈ text) (lower : first < middle)
    (upper : middle < last) (shared : SharesLoops path depth first last) :
    SharesLoops path depth first middle := by
  have inside := contiguous ((path first).take depth)
    (by rw [List.length_take, min_eq_left shared.1]; exact deep) first firstIn middle middleIn
    last lastIn lower upper (List.take_prefix _ _) ((take_prefix_iff shared.1).mpr shared)
  exact (take_prefix_iff shared.1).mp inside

omit [DecidableEq Label] in
theorem ContiguousFrom.mono {bound bound' : ℕ} {part : List ℕ} (deeper : bound ≤ bound')
    (subset : part ⊆ text) (contiguous : ContiguousFrom path bound text) :
    ContiguousFrom path bound' part :=
  fun loop deep first firstIn middle middleIn last lastIn =>
    contiguous loop (le_trans deeper deep) first (subset firstIn) middle (subset middleIn)
      last (subset lastIn)

/-! ## One level -/

section OneLevel

theorem sameRun_symm (first second : ℕ) (same : sameRun path depth first second) :
    sameRun path depth second first := by
  obtain ⟨deep, same⟩ := of_decide_eq_true same
  refine decide_eq_true ⟨?_, same.symm⟩
  have located := List.getElem?_eq_getElem deep
  rw [same] at located
  exact (List.getElem?_eq_some_iff.mp located).1

theorem sameRun_trans (first second third : ℕ) (same : sameRun path depth first second)
    (same' : sameRun path depth second third) : sameRun path depth first third := by
  obtain ⟨deep, same⟩ := of_decide_eq_true same
  obtain ⟨-, same'⟩ := of_decide_eq_true same'
  exact decide_eq_true ⟨deep, same.trans same'⟩

theorem sameRun_of_shares {first second : ℕ} (shared : SharesLoops path (depth + 1) first second) :
    sameRun path depth first second := by
  refine decide_eq_true ⟨shared.1, ?_⟩
  have located := congrArg (fun list => list[depth]?) shared.2
  simpa [List.getElem?_take] using located

theorem shares_of_sameRun {first second : ℕ} (shared : SharesLoops path depth first second)
    (same : sameRun path depth first second) : SharesLoops path (depth + 1) first second := by
  obtain ⟨deep, same⟩ := of_decide_eq_true same
  refine ⟨deep, ?_⟩
  rw [List.take_add_one, List.take_add_one, shared.2, same]

theorem mem_runs : run ∈ runs path depth text ↔
    run ∈ text.splitBy (sameRun path depth) ∧ ∃ index ∈ run, depth < (path index).length := by
  unfold runs
  rw [List.mem_filter]
  simp

theorem runs_isPart (isRun : run ∈ runs path depth text) : run <:+: text :=
  splitBy_isPart (mem_runs.1 isRun).1

theorem runs_together (together : Together path depth text) (isRun : run ∈ runs path depth text) :
    Together path (depth + 1) run := by
  obtain ⟨isPart, index, indexIn, deep⟩ := mem_runs.1 isRun
  have inText := (splitBy_isPart isPart).subset
  have related : ∀ other ∈ run, SharesLoops path (depth + 1) index other := by
    intro other otherIn
    rcases splitBy_uniform sameRun_symm sameRun_trans isPart indexIn otherIn with rfl | same
    · exact ⟨deep, rfl⟩
    · exact shares_of_sameRun (together _ (inText indexIn) _ (inText otherIn)) same
  exact fun first firstIn second secondIn =>
    (related first firstIn).symm.trans (related second secondIn)

theorem exists_run {index : ℕ} (inText : index ∈ text) (deep : depth < (path index).length) :
    ∃ run ∈ runs path depth text, index ∈ run := by
  obtain ⟨run, isPart, inside⟩ := mem_splitBy.mp inText
  exact ⟨run, mem_runs.2 ⟨isPart, index, inside, deep⟩, inside⟩

/-- Positions of different runs are not in one loop. -/
theorem runs_apart (ordered : text.Pairwise (· < ·))
    (contiguous : ContiguousFrom path (depth + 1) text) :
    (runs path depth text).Pairwise fun run later =>
      ∀ first ∈ run, ∀ last ∈ later, ¬ SharesLoops path (depth + 1) first last := by
  have apart := splitBy_apart sameRun_symm sameRun_trans ordered
    (fun _ _ _ _ shared => sameRun_of_shares shared)
    (fun first firstIn middle middleIn last lastIn lower upper shared =>
      contiguous.shares le_rfl firstIn middleIn lastIn lower upper shared)
  exact (apart.imp fun separate first firstIn last lastIn =>
    (separate first firstIn last lastIn).2).filter _

end OneLevel

/-! ## All levels -/

theorem runsAt_isPart (isRun : run ∈ runsAt path below depth text) : run <:+: text := by
  induction below generalizing depth text with
  | zero => exact runs_isPart isRun
  | succ below inductionHypothesis =>
      obtain ⟨outer, isOuter, isInner⟩ := List.mem_flatMap.mp isRun
      exact (inductionHypothesis isInner).trans (runs_isPart isOuter)

theorem runsAt_together (together : Together path depth text)
    (isRun : run ∈ runsAt path below depth text) : Together path (depth + below + 1) run := by
  induction below generalizing depth text with
  | zero => exact runs_together together isRun
  | succ below inductionHypothesis =>
      obtain ⟨outer, isOuter, isInner⟩ := List.mem_flatMap.mp isRun
      have inside := inductionHypothesis (runs_together together isOuter) isInner
      rwa [show depth + (below + 1) + 1 = depth + 1 + below + 1 by omega]

theorem exists_runAt {index : ℕ} (inText : index ∈ text)
    (deep : depth + below < (path index).length) :
    ∃ run ∈ runsAt path below depth text, index ∈ run := by
  induction below generalizing depth text with
  | zero => exact exists_run inText deep
  | succ below inductionHypothesis =>
      obtain ⟨outer, isOuter, inOuter⟩ :=
        exists_run inText (show depth < (path index).length by omega)
      obtain ⟨run, isRun, inRun⟩ := inductionHypothesis inOuter
        (show depth + 1 + below < (path index).length by omega)
      exact ⟨run, List.mem_flatMap.mpr ⟨outer, isOuter, isRun⟩, inRun⟩

theorem runsAt_apart (ordered : text.Pairwise (· < ·))
    (contiguous : ContiguousFrom path (depth + 1) text) :
    (runsAt path below depth text).Pairwise fun run later =>
      ∀ first ∈ run, ∀ last ∈ later, ¬ SharesLoops path (depth + below + 1) first last := by
  induction below generalizing depth text with
  | zero => exact runs_apart ordered contiguous
  | succ below inductionHypothesis =>
      rw [runsAt, List.pairwise_flatMap]
      constructor
      · intro outer isOuter
        have part := runs_isPart isOuter
        rw [show depth + (below + 1) + 1 = depth + 1 + below + 1 by omega]
        exact inductionHypothesis (ordered.sublist part.sublist)
          (contiguous.mono (Nat.le_succ _) part.subset)
      · refine (runs_apart ordered contiguous).imp fun {outer outer'} apart => ?_
        intro run isRun later isLater first firstIn last lastIn shared
        exact apart first ((runsAt_isPart isRun).subset firstIn) last
          ((runsAt_isPart isLater).subset lastIn) (shared.mono (by omega))

/-- A run with a position of a loop, at the loop's level, is the whole loop. -/
theorem run_perm_members (ordered : text.Pairwise (· < ·))
    (together : Together path depth text) (contiguous : ContiguousFrom path (depth + 1) text)
    {loop : List Label} (level : loop.length = depth + below + 1)
    (isRun : run ∈ runsAt path below depth text) {index : ℕ} (inRun : index ∈ run)
    (inLoop : loop <+: path index) : run.Perm (members path loop text) := by
  have nodup : text.Nodup := ordered.imp fun lower => ne_of_lt lower
  have membersNodup : (members path loop text).Nodup := nodup.filter _
  refine (List.perm_ext_iff_of_nodup
    (nodup.sublist (runsAt_isPart isRun).sublist) membersNodup).mpr fun other => ?_
  rw [mem_members, prefix_iff inLoop, level]
  constructor
  · intro otherIn
    exact ⟨(runsAt_isPart isRun).subset otherIn,
      runsAt_together together isRun index inRun other otherIn⟩
  · rintro ⟨otherInText, shared⟩
    obtain ⟨run', isRun', inRun'⟩ := exists_runAt otherInText shared.le_right
    by_contra outside
    have distinct : run ≠ run' := fun same => outside (same ▸ inRun')
    rcases pairwise_or (runsAt_apart ordered contiguous) isRun isRun' distinct with apart | apart
    · exact apart index inRun other inRun' shared
    · exact apart other inRun' index inRun shared.symm

/-- A loop with nothing else between its positions is recovered by exactly one run. -/
theorem countP_runsAt_eq_one (ordered : text.Pairwise (· < ·))
    (together : Together path depth text) (contiguous : ContiguousFrom path (depth + 1) text)
    {loop : List Label} (level : loop.length = depth + below + 1) {index : ℕ}
    (inText : index ∈ text) (inLoop : loop <+: path index) :
    ((runsAt path below depth text).countP fun run => run.Perm (members path loop text)) = 1 := by
  have deep : depth + below < (path index).length := by
    have long := inLoop.length_le
    omega
  obtain ⟨run, isRun, inRun⟩ := exists_runAt inText deep
  have whole := run_perm_members ordered together contiguous level isRun inRun inLoop
  have inWhole : ∀ other : List ℕ, other.Perm (members path loop text) → index ∈ other :=
    fun other same => same.mem_iff.mpr (mem_members.mpr ⟨inText, inLoop⟩)
  have shared : SharesLoops path (depth + below + 1) index index := ⟨deep, rfl⟩
  have apart := @runsAt_apart _ _ path depth below text ordered contiguous
  obtain ⟨front, back, split⟩ := List.append_of_mem isRun
  rw [split, List.pairwise_append, List.pairwise_cons] at apart
  have noneInFront : (front.countP fun run => run.Perm (members path loop text)) = 0 := by
    refine List.countP_eq_zero.mpr fun other isOther => ?_
    rw [decide_eq_true_eq]
    intro same
    exact apart.2.2 other isOther run List.mem_cons_self index (inWhole other same) index inRun
      shared
  have noneInBack : (back.countP fun run => run.Perm (members path loop text)) = 0 := by
    refine List.countP_eq_zero.mpr fun other isOther => ?_
    rw [decide_eq_true_eq]
    intro same
    exact apart.2.1.1 other isOther index inRun index (inWhole other same) shared
  rw [split, List.countP_append, List.countP_cons, noneInFront, noneInBack]
  simp [whole]

/-- A loop recovered by a run has nothing else between its positions. -/
theorem prefix_of_run (ordered : text.Pairwise (· < ·)) {loop : List Label}
    (isRun : run ∈ runsAt path below depth text) (whole : run.Perm (members path loop text))
    {first middle last : ℕ} (firstIn : first ∈ text) (middleIn : middle ∈ text)
    (lastIn : last ∈ text) (lower : first < middle) (upper : middle < last)
    (firstInLoop : loop <+: path first) (lastInLoop : loop <+: path last) :
    loop <+: path middle := by
  have inRun : middle ∈ run := by
    apply mem_infix_of_between ordered (runsAt_isPart isRun) _ _ middleIn lower upper
    · exact whole.mem_iff.mpr (mem_members.mpr ⟨firstIn, firstInLoop⟩)
    · exact whole.mem_iff.mpr (mem_members.mpr ⟨lastIn, lastInLoop⟩)
  exact (mem_members.mp (whole.mem_iff.mp inRun)).2

end Lib.LoopRuns
