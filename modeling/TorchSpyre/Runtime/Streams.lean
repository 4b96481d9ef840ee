import Mathlib
import TorchSpyre.Runtime.Launch

/-!
# Launches in order

The steps constructed so far are what the store becomes once the streams have drained and the waiting
corrections are applied.  Between launches nothing waits, so with the streams drained the launches have
acted one by one.
-/

namespace TorchSpyre.Runtime

open Lib

variable {Hcm : Type}

/-! ## Groups of corrections -/

/-- Corrections wait only inside a group whose host computes end at a compute. -/
structure Call.Grouped (call : Call Hcm) : Prop where
  steps : call.launch.steps = call.done ++ call.rest
  tensors : call.context.inputsOutputs = call.launch.tensors
  symbolicArgs : call.context.symbolicArgs = call.launch.symbolicArgs
  positive : call.context.batchProgramCorrections = true → 0 < call.maxCorrections
  consumer : call.context.batchProgramCorrections = true → call.previous = some .hostCompute →
    (call.rest.dropWhile JobPlanStep.isHostCompute).head?.map JobPlanStep.classifyStep = some .compute
  waiting : call.context.programCorrections ≠ [] →
    call.context.batchProgramCorrections = true ∧ call.previous = some .hostCompute

theorem Call.grouped_start (launch : Launch Hcm) (maxCorrections : ℕ) :
    (Call.start launch maxCorrections).Grouped where
  steps := rfl
  tensors := rfl
  symbolicArgs := rfl
  positive := fun batched => by cases batched
  consumer := fun batched => by cases batched
  waiting := fun nonempty => absurd rfl nonempty

/-- The next step of a call with its context. -/
def Call.next (call : Call Hcm) : LaunchContext :=
  call.context.group call.maxCorrections call.previous call.rest

def Call.advance (call : Call Hcm) (step : JobPlanStep Hcm) (rest : List (JobPlanStep Hcm))
    (context : LaunchContext) : Call Hcm :=
  { call with done := call.done ++ [step], rest := rest, context := context }

theorem Call.previous_advance (call : Call Hcm) (step : JobPlanStep Hcm) (rest : List (JobPlanStep Hcm))
    (context : LaunchContext) : (call.advance step rest context).previous = some step.classifyStep := by
  simp [Call.previous, Call.advance]

section Group

variable {call : Call Hcm} {step : JobPlanStep Hcm} {rest : List (JobPlanStep Hcm)}

theorem Call.next_fields (call : Call Hcm) : call.next.inputsOutputs = call.context.inputsOutputs ∧
    call.next.symbolicArgs = call.context.symbolicArgs ∧
    call.next.programCorrections = call.context.programCorrections := by
  unfold Call.next LaunchContext.group
  split <;> exact ⟨rfl, rfl, rfl⟩

/-- A group starts with nothing waiting. -/
theorem Call.Grouped.next_batched (grouped : call.Grouped) (isNext : call.rest = step :: rest)
    (batched : call.next.batchProgramCorrections = true) (isHostCompute : step.classifyStep = .hostCompute) :
    0 < call.maxCorrections ∧
      (rest.dropWhile JobPlanStep.isHostCompute).head?.map JobPlanStep.classifyStep = some .compute := by
  have skipped :
    call.rest.dropWhile JobPlanStep.isHostCompute = rest.dropWhile JobPlanStep.isHostCompute := by
    have isFirst : step.isHostCompute = true := decide_eq_true isHostCompute
    rw [isNext, List.dropWhile_cons_of_pos isFirst]
  rw [Call.next, LaunchContext.group] at batched
  split at batched
  next starts =>
    simp only [batches, Bool.and_eq_true, decide_eq_true_eq, skipped] at batched
    exact ⟨starts.1, batched.2⟩
  next continues =>
    have positive := grouped.positive batched
    have follows : call.previous = some .hostCompute := by
      by_contra other
      exact continues ⟨positive, by rw [isNext]; exact congrArg some isHostCompute, other⟩
    exact ⟨positive, skipped ▸ grouped.consumer batched follows⟩

/-- Without batching nothing waits. -/
theorem Call.Grouped.next_single (grouped : call.Grouped)
    (single : call.next.batchProgramCorrections = false) :
    call.context.programCorrections = [] := by
  by_contra nonempty
  obtain ⟨batched, follows⟩ := grouped.waiting nonempty
  rw [Call.next, LaunchContext.group, if_neg fun starts => starts.2.2 follows, batched] at single
  cases single

/-- Only a host compute or the compute of its group comes while corrections wait. -/
theorem Call.Grouped.next_kind (grouped : call.Grouped) (isNext : call.rest = step :: rest)
    (waiting : call.context.programCorrections ≠ []) :
    step.classifyStep = .hostCompute ∨ step.classifyStep = .compute := by
  obtain ⟨batched, follows⟩ := grouped.waiting waiting
  by_cases isHostCompute : step.classifyStep = .hostCompute
  · exact .inl isHostCompute
  · have consumer := grouped.consumer batched follows
    have isOther : ¬ step.isHostCompute = true := fun isFirst => isHostCompute (of_decide_eq_true isFirst)
    rw [isNext, List.dropWhile_cons_of_neg isOther] at consumer
    exact .inr (Option.some.inj consumer)

/-- Every correction has a compute that takes it. -/
theorem Call.Grouped.consumed (grouped : call.Grouped) (isLast : call.rest = []) :
    call.context.programCorrections = [] := by
  by_contra waiting
  obtain ⟨batched, follows⟩ := grouped.waiting waiting
  have consumer := grouped.consumer batched follows
  rw [isLast] at consumer
  cases consumer

theorem Call.next_positive (grouped : call.Grouped) (batched : call.next.batchProgramCorrections = true) :
    0 < call.maxCorrections := by
  rw [Call.next, LaunchContext.group] at batched
  split at batched
  next starts => exact starts.1
  next => exact grouped.positive batched

end Group

/-! ## A step of a call -/

/-- What constructing a step can do. -/
inductive Constructed (flex : Flex Hcm) (store : Store) (context : LaunchContext) :
    JobPlanStep Hcm → List Operation → LaunchContext → Prop where
  | batched {hcm : Hcm} {correctionSize : ℕ} {deviceAddress : Chunk} {inputBuffer : Option HostBuffer}
      {ishape : List ℤ} {buffer : List Byte} (isBatched : context.batchProgramCorrections = true)
      (computed : launchHostCompute flex store context.inputsOutputs context.symbolicArgs hcm correctionSize
        inputBuffer ishape = .ok buffer) :
      Constructed flex store context (.hostCompute hcm correctionSize deviceAddress inputBuffer ishape) []
        { context with programCorrections := context.programCorrections ++ [⟨buffer, deviceAddress⟩] }
  | uploaded {hcm : Hcm} {correctionSize : ℕ} {deviceAddress : Chunk} {inputBuffer : Option HostBuffer}
      {ishape : List ℤ} {buffer : List Byte} (isSingle : context.batchProgramCorrections = false)
      (computed : launchHostCompute flex store context.inputsOutputs context.symbolicArgs hcm correctionSize
        inputBuffer ishape = .ok buffer) :
      Constructed flex store context (.hostCompute hcm correctionSize deviceAddress inputBuffer ishape)
        [.correction ⟨buffer, deviceAddress⟩] context
  | h2d {hostAddress : HostBuffer} {deviceAddress : Chunk} :
      Constructed flex store context (.h2d hostAddress deviceAddress) [.h2d hostAddress deviceAddress] context
  | d2h {deviceAddress : Chunk ⊕ ℕ} {hostAddress : HostBuffer} {size : ℕ} {chunk : Chunk}
      (found : downloadChunk flex context.inputsOutputs deviceAddress size = .ok chunk) :
      Constructed flex store context (.d2h deviceAddress hostAddress size) [.d2h chunk hostAddress] context
  | compute {programAddress : Chunk} {bindIoAddresses : Bool} {bootstrapOffset : ℕ} {name : String}
      {allocs : List CompositeAddress}
        (bound : tensorAllocs context.inputsOutputs bindIoAddresses = .ok allocs) :
      Constructed flex store context (.compute programAddress bindIoAddresses bootstrapOffset name)
        [.compute programAddress allocs bootstrapOffset name context.programCorrections]
        { context with programCorrections := [] }

section Construct

variable {flex : Flex Hcm} {store : Store} {context next : LaunchContext} {step : JobPlanStep Hcm}
  {operations : List Operation}

theorem construct_cases (constructed : step.construct flex store context = .ok (operations, next)) :
    Constructed flex store context step operations next := by
  cases step with
  | hostCompute hcm correctionSize deviceAddress inputBuffer ishape =>
      rw [JobPlanStep.construct] at constructed
      cases computed : launchHostCompute flex store context.inputsOutputs context.symbolicArgs hcm
          correctionSize inputBuffer ishape with
      | error message =>
          rw [computed] at constructed
          cases constructed
      | ok buffer =>
          rw [computed] at constructed
          simp only [bind, Except.bind] at constructed
          by_cases batched : context.batchProgramCorrections = true
          · rw [if_pos batched] at constructed
            cases constructed
            exact .batched batched computed
          · rw [if_neg batched] at constructed
            cases constructed
            exact .uploaded (Bool.eq_false_of_not_eq_true batched) computed
  | h2d hostAddress deviceAddress =>
      cases constructed
      exact .h2d
  | d2h deviceAddress hostAddress size =>
      rw [JobPlanStep.construct] at constructed
      cases found : downloadChunk flex context.inputsOutputs deviceAddress size with
      | error message =>
          rw [found] at constructed
          cases constructed
      | ok chunk =>
          rw [found] at constructed
          cases constructed
          exact .d2h found
  | compute programAddress bindIoAddresses bootstrapOffset name =>
      rw [JobPlanStep.construct] at constructed
      cases bound : tensorAllocs context.inputsOutputs bindIoAddresses with
      | error message =>
          rw [bound] at constructed
          cases constructed
      | ok allocs =>
          rw [bound] at constructed
          cases constructed
          exact .compute bound

/-- The inputs of a host compute. -/
def JobPlanStep.Reads (step : JobPlanStep Hcm) (buffer : HostBuffer) : Prop :=
  ∃ hcm correctionSize deviceAddress ishape,
    step = .hostCompute hcm correctionSize deviceAddress (some buffer) ishape

/-- A host compute depends on the store only through its input. -/
theorem launchHostCompute_congr {other : Store} {tensors : List Tensor} {symbolicArgs : List SymbolicArg}
    {hcm : Hcm}
    {correctionSize : ℕ} {inputBuffer : Option HostBuffer} {ishape : List ℤ}
    (same : ∀ buffer ∈ inputBuffer, ∀ index, store (.host buffer index) = other (.host buffer index)) :
    launchHostCompute flex store tensors symbolicArgs hcm correctionSize inputBuffer ishape =
      launchHostCompute flex other tensors symbolicArgs hcm correctionSize inputBuffer ishape := by
  unfold launchHostCompute
  cases inputBuffer with
  | none => rfl
  | some buffer =>
      have sameInput : (fun index => store (.host buffer index)) = fun index => other (.host buffer index) :=
        funext (same buffer rfl)
      rw [Option.map_some, Option.map_some, sameInput]

/-- With the waiting corrections applied, the launched operations do what the step does. -/
theorem Constructed.performs (constructed : Constructed flex store context step operations next)
    (drained : Store)
    (sameInputs : ∀ buffer, step.Reads buffer → ∀ index, store (.host buffer index) =
      drain ProgramCorrection.action context.programCorrections drained (.host buffer index))
    (inGroup : context.programCorrections = [] ∨ step.classifyStep = .compute ∨
      context.batchProgramCorrections = true ∧ step.classifyStep = .hostCompute) :
    step.perform flex context.inputsOutputs context.symbolicArgs
        (drain ProgramCorrection.action context.programCorrections drained) =
      .ok (drain ProgramCorrection.action next.programCorrections
        (drain (Operation.action flex) operations drained)) := by
  cases constructed with
  | @batched hcm correctionSize deviceAddress inputBuffer ishape buffer isBatched computed =>
      rw [launchHostCompute_congr fun input isInput =>
        sameInputs input ⟨hcm, correctionSize, deviceAddress, ishape, by rw [isInput]⟩] at computed
      rw [JobPlanStep.perform, computed, drain_append]
      rfl
  | @uploaded hcm correctionSize deviceAddress inputBuffer ishape buffer isSingle computed =>
      have nothing : context.programCorrections = [] := by
        rcases inGroup with nothing | isCompute | ⟨isBatched, -⟩
        · exact nothing
        · cases isCompute
        · rw [isSingle] at isBatched
          cases isBatched
      rw [launchHostCompute_congr fun input isInput =>
        sameInputs input ⟨hcm, correctionSize, deviceAddress, ishape, by rw [isInput]⟩] at computed
      rw [JobPlanStep.perform, computed, nothing]
      rfl
  | h2d =>
      rcases inGroup with nothing | isCompute | ⟨-, isHostCompute⟩
      · rw [nothing]
        rfl
      · cases isCompute
      · cases isHostCompute
  | d2h found =>
      rcases inGroup with nothing | isCompute | ⟨-, isHostCompute⟩
      · rw [JobPlanStep.perform, found, nothing]
        rfl
      · cases isCompute
      · cases isHostCompute
  | @compute programAddress bindIoAddresses bootstrapOffset name allocs bound =>
      rw [JobPlanStep.perform, bound, drain_nil, drain_cons, drain_nil, Operation.action, corrected_effect]
      rfl

theorem Constructed.keeps (constructed : Constructed flex store context step operations next) :
    next.inputsOutputs = context.inputsOutputs ∧ next.symbolicArgs = context.symbolicArgs ∧
      next.batchProgramCorrections = context.batchProgramCorrections := by
  cases constructed <;> exact ⟨rfl, rfl, rfl⟩

theorem Constructed.placed {streams : Streams} {downloaded : Set HostBuffer} {steps : List (JobPlanStep Hcm)}
    (constructed : Constructed flex store context step operations next)
    (feeds : Feeds streams downloaded steps) (inPlan : step ∈ steps) :
    ∀ operation ∈ operations, Queued.Placed streams downloaded ⟨streams.target step.role, operation⟩ := by
  intro operation isLaunched
  cases constructed with
  | batched isBatched computed => cases isLaunched
  | uploaded isSingle computed =>
      cases List.mem_singleton.mp isLaunched
      exact ⟨⟨.prep, rfl, by simp, by simp⟩, by simp, by simp⟩
  | h2d =>
      cases List.mem_singleton.mp isLaunched
      refine ⟨⟨.prep, rfl, fun _ => rfl, by simp⟩, ?_, by simp⟩
      rintro split source target isUpload
      cases isUpload
      exact feeds.uploads split _ _ inPlan
  | d2h found =>
      cases List.mem_singleton.mp isLaunched
      refine ⟨⟨.dev, rfl, by simp, fun _ => rfl⟩, by simp, ?_⟩
      rintro source target isDownload
      cases isDownload
      exact feeds.downloads _ _ _ inPlan
  | compute bound =>
      cases List.mem_singleton.mp isLaunched
      exact ⟨⟨.dev, rfl, by simp, by simp⟩, by simp, by simp⟩

section Advance

variable {call : Call Hcm} {rest : List (JobPlanStep Hcm)}

/-- A step is constructed when nothing waits, or in the group of what waits. -/
theorem Call.Grouped.inGroup (grouped : call.Grouped) (isNext : call.rest = step :: rest) :
    call.next.programCorrections = [] ∨ step.classifyStep = .compute ∨
      call.next.batchProgramCorrections = true ∧ step.classifyStep = .hostCompute := by
  rw [call.next_fields.2.2]
  by_cases nothing : call.context.programCorrections = []
  · exact .inl nothing
  · rcases grouped.next_kind isNext nothing with isHostCompute | isCompute
    · cases batched : call.next.batchProgramCorrections with
      | true => exact .inr (.inr ⟨rfl, isHostCompute⟩)
      | false => exact absurd (grouped.next_single batched) nothing
    · exact .inr (.inl isCompute)

theorem Call.Grouped.advance (grouped : call.Grouped) (isNext : call.rest = step :: rest)
    (constructed : Constructed flex store call.next step operations next) :
    (call.advance step rest next).Grouped where
  steps := by
    rw [Call.advance, grouped.steps, isNext]
    simp
  tensors := constructed.keeps.1.trans (call.next_fields.1.trans grouped.tensors)
  symbolicArgs := constructed.keeps.2.1.trans (call.next_fields.2.1.trans grouped.symbolicArgs)
  positive := by
    intro batched
    exact @Call.next_positive _ call grouped (constructed.keeps.2.2.symm.trans batched)
  consumer := by
    intro batched isLast
    rw [call.previous_advance] at isLast
    exact (grouped.next_batched isNext (constructed.keeps.2.2 ▸ batched) (Option.some.inj isLast)).2
  waiting := by
    intro waiting
    rw [call.previous_advance]
    have inGroup := grouped.inGroup isNext
    cases constructed with
    | batched isBatched computed => exact ⟨isBatched, rfl⟩
    | uploaded isSingle computed =>
        rw [Call.advance, call.next_fields.2.2] at waiting
        exact absurd (grouped.next_single isSingle) waiting
    | h2d =>
        rcases inGroup with nothing | isCompute | ⟨-, isHostCompute⟩
        · exact absurd nothing waiting
        · cases isCompute
        · cases isHostCompute
    | d2h found =>
        rcases inGroup with nothing | isCompute | ⟨-, isHostCompute⟩
        · exact absurd nothing waiting
        · cases isCompute
        · cases isHostCompute
    | compute bound => exact absurd rfl waiting

end Advance

end Construct

/-! ## Runs -/

section Runs

variable (flex : Flex Hcm)

/-- The steps constructed so far, one by one. -/
def Process.sequential (process : Process Hcm) (start : Store) : Except String Store := do
  let store ← performLaunches flex process.launched start
  match process.call with
  | none => return store
  | some call => performSteps flex call.launch.tensors call.launch.symbolicArgs call.done store

def Process.waiting (process : Process Hcm) : List ProgramCorrection :=
  match process.call with
  | none => []
  | some call => call.context.programCorrections

/-- When the queue has drained and the waiting corrections are applied, the steps constructed so far
have acted one by one. -/
structure Process.Orderly (streams : Streams) (plans : Set (List (JobPlanStep Hcm)))
    (downloaded : Set HostBuffer) (start : Store) (process : Process Hcm) : Prop where
  sequential : process.sequential flex start = .ok (drain ProgramCorrection.action process.waiting
    (drain (fun queued => queued.operation.action flex) process.queue.pending process.queue.store))
  grouped : ∀ call ∈ process.call, call.Grouped
  isPlan : ∀ call ∈ process.call, call.launch.steps ∈ plans
  placed : ∀ queued ∈ process.queue.pending, queued.Placed streams downloaded
  unread : ∀ buffer ∉ downloaded, ∀ index,
    process.queue.store (.host buffer index) = start (.host buffer index)

variable {flex} {streams : Streams} {plans : Set (List (JobPlanStep Hcm))} {downloaded : Set HostBuffer}
  {start : Store} {process next : Process Hcm}

theorem performSteps_append (tensors : List Tensor) (symbolicArgs : List SymbolicArg)
    (first second : List (JobPlanStep Hcm)) (store : Store) :
    performSteps flex tensors symbolicArgs (first ++ second) store =
      performSteps flex tensors symbolicArgs first store >>=
        performSteps flex tensors symbolicArgs second :=
  List.foldlM_append

theorem performLaunches_append (first second : List (Launch Hcm)) (store : Store) :
    performLaunches flex (first ++ second) store =
      performLaunches flex first store >>= performLaunches flex second :=
  List.foldlM_append

/-- Nothing in flight touches the pinned buffers that nothing downloads to. -/
theorem Process.Orderly.drained_unread (orderly : process.Orderly flex streams plans downloaded start)
    {buffer : HostBuffer} (isInput : buffer ∉ downloaded) (index : ℕ) :
    process.queue.store (.host buffer index) = drain ProgramCorrection.action process.waiting
      (drain (fun queued => queued.operation.action flex) process.queue.pending process.queue.store)
      (.host buffer index) := by
  rw [drain_frame, drain_frame]
  · intro queued inQueue written
    obtain ⟨source, isDownload⟩ := host_mem_writes written
    exact isInput ((orderly.placed queued inQueue).downloads _ _ isDownload)
  · exact fun correction _ written => host_notMem_correction correction (.inr written)

theorem drain_queued (stream : ℤ) (operations : List Operation) (store : Store) :
    drain (fun queued : Queued => queued.operation.action flex)
        (operations.map fun operation => ⟨stream, operation⟩)
      store = drain (Operation.action flex) operations store :=
  List.foldl_map

theorem Process.Orderly.constructs {pending : List Queued} {store : Store} {launched : List (Launch Hcm)}
    {call : Call Hcm} {step : JobPlanStep Hcm} {rest : List (JobPlanStep Hcm)} {operations : List Operation}
    {context : LaunchContext} (feeds : ∀ steps ∈ plans, Feeds streams downloaded steps)
    (orderly : Process.Orderly flex streams plans downloaded start ⟨⟨pending, store⟩, some call, launched⟩)
    (isNext : call.rest = step :: rest)
    (constructed : step.construct flex store call.next = .ok (operations, context)) :
    Process.Orderly flex streams plans downloaded start
      ⟨⟨pending ++ operations.map fun operation => ⟨streams.target step.role, operation⟩, store⟩,
        some (call.advance step rest context), launched⟩ := by
  have grouped := orderly.grouped call rfl
  have isPlan := orderly.isPlan call rfl
  have plan := feeds _ isPlan
  have inPlan : step ∈ call.launch.steps := by
    rw [grouped.steps, isNext]
    exact List.mem_append_right _ List.mem_cons_self
  have cases := construct_cases constructed
  refine ⟨?_, ?_, ?_, ?_, orderly.unread⟩
  · have before := orderly.sequential
    simp only [Process.sequential, Process.waiting] at before ⊢
    cases performed : performLaunches flex launched start with
    | error message =>
        rw [performed] at before
        cases before
    | ok base =>
        rw [performed] at before
        simp only [bind, Except.bind] at before ⊢
        have sameInputs : ∀ buffer, step.Reads buffer → ∀ index, store (.host buffer index) =
            drain ProgramCorrection.action call.next.programCorrections
              (drain (fun queued => queued.operation.action flex) pending store) (.host buffer index) := by
          rintro buffer ⟨hcm, correctionSize, deviceAddress, ishape, rfl⟩ index
          rw [call.next_fields.2.2]
          exact orderly.drained_unread (plan.inputs _ _ _ _ _ inPlan) index
        have performs := cases.performs _ sameInputs (grouped.inGroup isNext)
        rw [call.next_fields.1, call.next_fields.2.1, call.next_fields.2.2, grouped.tensors,
          grouped.symbolicArgs] at performs
        rw [Call.advance, performSteps_append, before, drain_append, drain_queued]
        simp only [bind, Except.bind, performSteps, List.foldlM_cons, List.foldlM_nil]
        rw [performs]
        rfl
  · rintro other isCall
    cases isCall
    exact grouped.advance isNext cases
  · rintro other isCall
    cases isCall
    exact isPlan
  · intro queued inQueue
    rcases List.mem_append.mp inQueue with earlier | isNew
    · exact orderly.placed queued earlier
    · obtain ⟨operation, isLaunched, rfl⟩ := List.mem_map.mp isNew
      exact cases.placed plan inPlan operation isLaunched

theorem Process.Orderly.advances (feeds : ∀ steps ∈ plans, Feeds streams downloaded steps)
    (ordered : streams.Ordered flex) (orderly : process.Orderly flex streams plans downloaded start)
    (advances : Process.Advances flex streams plans process next) :
    next.Orderly flex streams plans downloaded start := by
  cases advances with
  | @starts queue launched launch maxCorrections isPlan onDevice =>
      refine ⟨?_, ?_, ?_, orderly.placed, orderly.unread⟩
      · exact orderly.sequential
      · rintro call isCall
        cases isCall
        exact Call.grouped_start launch maxCorrections
      · rintro call isCall
        cases isCall
        exact isPlan
  | constructs isNext constructed => exact orderly.constructs feeds isNext constructed
  | @returns queue launched call isLast consumed =>
      have idle : ∀ other : Call Hcm, other ∉ (none : Option (Call Hcm)) :=
        fun other isCall => by cases isCall
      refine ⟨?_, fun other isCall => absurd isCall (idle other),
        fun other isCall => absurd isCall (idle other), orderly.placed, orderly.unread⟩
      have before := orderly.sequential
      have steps := (orderly.grouped call rfl).steps
      rw [isLast, List.append_nil] at steps
      simp only [Process.sequential, Process.waiting, consumed] at before ⊢
      rw [performLaunches_append]
      cases performed : performLaunches flex launched start with
      | error message =>
          rw [performed] at before
          cases before
      | ok base =>
          rw [performed] at before
          simp only [bind, Except.bind] at before ⊢
          simp only [performLaunches, List.foldlM_cons, List.foldlM_nil, steps, before, bind, Except.bind]
          rfl
  | @takes queue taken call launched takes =>
      have orderlyQueue : ∀ earlier ∈ queue.pending, ∀ later ∈ queue.pending, ¬ streams.waits earlier later →
          (earlier.operation.action flex).Apart (later.operation.action flex) :=
        fun earlier inQueue later alsoIn free =>
          ordered.apart (orderly.placed earlier inQueue) (orderly.placed later alsoIn) free
      have drained := takes.drain orderlyQueue
      refine ⟨?_, orderly.grouped, orderly.isPlan, fun queued inQueue =>
        orderly.placed queued (takes.subset inQueue),
        ?_⟩
      · refine Eq.trans orderly.sequential ?_
        dsimp only
        rw [drained]
        rfl
      · intro buffer isInput index
        rw [← orderly.unread buffer isInput index]
        cases takes with
        | @item front queued back store ready =>
            apply Action.frame
            intro written
            obtain ⟨source, isDownload⟩ := host_mem_writes written
            have inQueue : queued ∈ front ++ queued :: back := List.mem_append_right _ List.mem_cons_self
            exact isInput ((orderly.placed queued inQueue).downloads _ _ isDownload)

theorem Process.Reaches.orderly (feeds : ∀ steps ∈ plans, Feeds streams downloaded steps)
    (ordered : streams.Ordered flex) (reaches : process.Reaches flex streams plans start) :
    process.Orderly flex streams plans downloaded start := by
  induction reaches with
  | refl =>
      have idle : ∀ other : Call Hcm, other ∉ (none : Option (Call Hcm)) :=
        fun other isCall => by cases isCall
      exact ⟨rfl, fun other isCall => absurd isCall (idle other),
        fun other isCall => absurd isCall (idle other), List.forall_mem_nil _, fun _ _ _ => rfl⟩
  | tail _ advances inductionHypothesis => exact inductionHypothesis.advances feeds ordered advances

/-- Between launches an empty queue has done what was launched. -/
theorem Process.Orderly.performLaunches (orderly : process.Orderly flex streams plans downloaded start)
    (idle : process.call = none) (drained : process.queue.pending = []) :
    Runtime.performLaunches flex process.launched start = .ok process.queue.store := by
  obtain ⟨⟨pending, store⟩, call, launched⟩ := process
  cases idle
  cases drained
  have sequential := orderly.sequential
  simp only [Process.sequential, Process.waiting, drain_nil] at sequential
  rw [← sequential]
  exact (bind_pure _).symm

/-- Only plans are launched. -/
theorem Process.Reaches.isPlan (reaches : process.Reaches flex streams plans start) :
    (∀ call ∈ process.call, call.launch.steps ∈ plans) ∧ ∀ launch ∈ process.launched,
        launch.steps ∈ plans := by
  induction reaches with
  | refl => exact ⟨(by rintro call isCall; cases isCall), List.forall_mem_nil _⟩
  | tail _ advances inductionHypothesis =>
      obtain ⟨ofCall, ofLaunched⟩ := inductionHypothesis
      cases advances with
      | starts launch maxCorrections isPlan onDevice =>
          refine ⟨?_, ofLaunched⟩
          rintro call isCall
          cases isCall
          exact isPlan
      | @constructs pending store launched call step rest operations context isNext constructed =>
          refine ⟨?_, ofLaunched⟩
          rintro other isCall
          cases isCall
          exact ofCall call rfl
      | @returns queue launched call isLast consumed =>
          refine ⟨(by rintro other isCall; cases isCall), ?_⟩
          intro launch isLaunched
          rcases List.mem_append.mp isLaunched with earlier | isLatest
          · exact ofLaunched launch earlier
          · rw [List.mem_singleton.mp isLatest]
            exact ofCall call rfl
      | takes takes => exact ⟨ofCall, ofLaunched⟩

/-- A queue can always run empty. -/
theorem Queue.empties (flex : Flex Hcm) (waits : Queued → Queued → Prop) (pending : List Queued)
    (store : Store) :
    ∃ queue, Relation.ReflTransGen (Queue.Takes (fun queued => queued.operation.action flex) waits)
      ⟨pending, store⟩ queue ∧ queue.pending = [] := by
  induction pending generalizing store with
  | nil => exact ⟨_, .refl, rfl⟩
  | cons queued pending inductionHypothesis =>
      obtain ⟨queue, takes, isEmpty⟩ := inductionHypothesis _
      exact ⟨queue, .head (Queue.takes_first queued pending store) takes, isEmpty⟩

/-- The runtime works on whatever the caller does. -/
theorem Process.advances_queue {queue last : Queue Queued Place Byte} {streams : Streams}
    (takes : Relation.ReflTransGen (Queue.Takes (fun queued => queued.operation.action flex) streams.waits)
        queue last)
    (plans : Set (List (JobPlanStep Hcm))) (call : Option (Call Hcm)) (launched : List (Launch Hcm)) :
    Relation.ReflTransGen (Process.Advances flex streams plans)
        ⟨queue, call, launched⟩ ⟨last, call, launched⟩ := by
  induction takes with
  | refl => exact .refl
  | tail _ taken inductionHypothesis => exact .tail inductionHypothesis (.takes taken)

/-- Between launches the queue can run empty, and whenever it is empty the launches have acted one by
one.  No correction is ever left without a compute. -/
theorem launches_run_in_order (feeds : ∀ steps ∈ plans, Feeds streams downloaded steps)
    (ordered : streams.Ordered flex) (reaches : process.Reaches flex streams plans start) :
    (∀ call, process.call = some call → call.rest = [] → call.context.programCorrections = []) ∧
      (process.call = none → ∃ final, performLaunches flex process.launched start = .ok final ∧
        (process.queue.pending = [] → process.queue.store = final) ∧
        ∃ last, Relation.ReflTransGen (Process.Advances flex streams plans) process last ∧
          last.queue.pending = [] ∧ last.queue.store = final) := by
  have orderly := reaches.orderly feeds ordered
  refine ⟨fun call isCall isLast => (orderly.grouped call isCall).consumed isLast, ?_⟩
  intro idle
  obtain ⟨queue, call, launched⟩ := process
  cases idle
  obtain ⟨last, takes, isEmpty⟩ := Queue.empties flex streams.waits queue.pending queue.store
  have advances := Process.advances_queue takes plans none launched
  have lastOrderly := Process.Reaches.orderly feeds ordered (reaches.trans advances)
  have final := lastOrderly.performLaunches rfl isEmpty
  refine ⟨last.store, final, ?_, ⟨last, none, launched⟩, advances, isEmpty, rfl⟩
  intro alreadyEmpty
  exact Except.ok.inj ((orderly.performLaunches rfl alreadyEmpty).symm.trans final)

end Runs

/-! ## A corrected kernel -/

/-- A program that copies its first byte. -/
def copyingProgram (chunk : Chunk) : Action Place Byte :=
  .copy fun
    | .device region offset =>
        if region = chunk.region ∧ offset = chunk.offset + 8 then some (.device chunk.region chunk.offset)
        else none
    | .host _ _ => none

theorem copyingProgram_onDevice (chunk : Chunk) (buffer : HostBuffer) (index : ℕ) :
    Place.host buffer index ∉ (copyingProgram chunk).reads ∪ (copyingProgram chunk).writes := by
  rintro (⟨place, isSource⟩ | isWritten)
  · cases place with
    | device region offset =>
        simp only at isSource
        split at isSource <;> cases isSource
    | host other position => cases isSource
  · cases isWritten

def copyingFlex : Flex Unit where
  decodeDevicePointer := fun devicePtr => (7, devicePtr, .program)
  memoryTypeCode := fun _ => 1
  deviceAddress := fun _ => 0
  processComputeOnHost := fun _ correctionSize _ _ => .ok (List.replicate correctionSize 1)
  program := fun chunk _ _ => copyingProgram chunk
  onDevice := fun chunk _ _ => copyingProgram_onDevice chunk

def twoStreams : Streams where
  sDev := 0
  sPrep := 65
  shouldSplit := true
  waits := fun earlier later =>
    earlier.stream = later.stream ∨ Conflicts copyingFlex earlier.operation later.operation

theorem twoStreams_ordered : twoStreams.Ordered copyingFlex where
  fifo := fun _ _ => .inl
  tracked := fun _ _ _ => .inr

/-- A program with a correction in its first bytes. -/
def correctedSteps : List (JobPlanStep Unit) :=
  [.hostCompute () 4 ⟨0, 0, 4, 0⟩ none [0], .compute ⟨0, 0, 64, 0⟩ true 4 "copy"]

/-- The upload and the compute are in flight on their streams. -/
theorem launches_run_in_order_copy :
    ∃ process : Process Unit, process.Reaches copyingFlex twoStreams {correctedSteps} (fun _ => 0) ∧
      process.queue.pending.map Queued.stream = [65, 0] ∧
      ∃ final, performLaunches copyingFlex process.launched (fun _ => 0) = .ok final ∧
        ∃ last, Relation.ReflTransGen (Process.Advances copyingFlex twoStreams
          {correctedSteps}) process last ∧
          last.queue.pending = [] ∧ last.queue.store = final := by
  have feeds : ∀ steps ∈ ({correctedSteps} : Set (List (JobPlanStep Unit))), Feeds twoStreams ∅ steps := by
    rintro steps rfl
    exact ⟨by simp [correctedSteps], by simp, by simp⟩
  have reaches : Process.Reaches copyingFlex twoStreams {correctedSteps} (fun _ => 0)
      ⟨⟨[⟨65, .correction ⟨[1, 1, 1, 1], ⟨0, 0, 4, 0⟩⟩⟩, ⟨0, .compute ⟨0, 0, 64, 0⟩ [] 4 "copy" []⟩],
        fun _ => 0⟩, none, [⟨correctedSteps, [], []⟩]⟩ :=
    .head (.starts ⟨correctedSteps, [], []⟩ 0 rfl (List.forall_mem_nil _))
      (.head (.constructs rfl rfl) (.head (.constructs rfl rfl) (.head (.returns rfl rfl) .refl)))
  obtain ⟨-, between⟩ := launches_run_in_order feeds twoStreams_ordered reaches
  obtain ⟨final, performed, -, last⟩ := between rfl
  exact ⟨_, reaches, rfl, final, performed, last⟩

end TorchSpyre.Runtime
