import Mathlib
import TorchSpyre.Lib.Footprint

/-!
# Launching a job plan

`SpyreStream::launch` turns the steps of a job plan into operations on two streams, in the order of
the plan.  Program corrections either travel on the stream of the preparation or with the compute
they are for.  The caller constructs the steps of one launch after the other while the runtime takes
operations off the streams.  An operation waits for the earlier ones of its stream and, where the launch
is split, for those of the other stream it conflicts with on the device.
-/

namespace TorchSpyre.Runtime

open Lib

abbrev Byte := UInt8

/-- `flex::Chunk` -/
structure Chunk where
  region : ℕ
  offset : ℕ
  size : ℕ
  domain : ℕ
deriving DecidableEq, Repr

/-- `flex::CompositeAddress` -/
abbrev CompositeAddress := List Chunk

def totalSize (address : CompositeAddress) : ℕ := (address.map Chunk.size).sum

/-- The pinned buffer of a handle of a plan. -/
structure HostBuffer where
  plan : ℕ
  handle : String
deriving DecidableEq, Repr

/-- A byte of the device or of a pinned buffer. -/
inductive Place where
  | device (region offset : ℕ)
  | host (buffer : HostBuffer) (index : ℕ)
deriving DecidableEq

abbrev Store := Place → Byte

structure ShardedStorageInfo where
  numShards : ℤ
  shardDeviceBytes : ℤ

structure SharedOwnerCtx where
  compositeAddr : CompositeAddress
  shardAddrs : List CompositeAddress
  sharding : Option ShardedStorageInfo

structure Tensor where
  device : String
  isPrivateuseone : Bool
  hasData : Bool
  context : Option SharedOwnerCtx

inductive SymbolicArgKind where
  | address
  | dimension
  | shardAddress
  | other (value : ℤ)
deriving DecidableEq

structure SymbolicArg where
  kind : SymbolicArgKind
  tensorId : ℤ
  dimIndex : ℤ
  value : ℤ
  numShards : ℤ

/-- `flex::HostComputeArg` -/
inductive HostComputeArg where
  | address (address : CompositeAddress)
  | value (value : ℤ)

inductive MemoryType where
  | tensor
  | program
  | other
deriving DecidableEq

/-- The runtime and the host functions the plans run on. -/
structure Flex (Hcm : Type) where
  decodeDevicePointer : ℕ → ℕ × ℕ × MemoryType
  memoryTypeCode : MemoryType → ℤ
  deviceAddress : CompositeAddress → ℤ
  processComputeOnHost : Hcm → ℕ → Option (ℕ → Byte) → List HostComputeArg → Except String (List Byte)
  program : Chunk → List CompositeAddress → ℕ → Action Place Byte
  onDevice : ∀ chunk tensors entry buffer index,
    Place.host buffer index ∉ (program chunk tensors entry).reads ∪ (program chunk tensors entry).writes

/-! ## Addresses -/

/-- `get_composite_address` -/
def getCompositeAddress (tensor : Tensor) : Except String CompositeAddress :=
  if ¬ tensor.isPrivateuseone then .error "get_composite_address: tensor must be on the Spyre device"
  else if ¬ tensor.hasData then .error "get_composite_address: storage data pointer is null"
  else match tensor.context with
    | none => .error ("get_composite_address: SharedOwnerCtx is null (tensor has no " ++
        "Spyre device allocation)")
    | some owner =>
        match owner.sharding with
        | some _ => .error ("this operation does not support sharded Spyre tensors yet " ++
            "(sharded storage can only be copied to or from the CPU)")
        | none => .ok owner.compositeAddr

/-- `sharding_of` -/
def shardingOf (tensor : Tensor) : Except String (SharedOwnerCtx × ShardedStorageInfo) :=
  if ¬ tensor.isPrivateuseone then .error "expected a Spyre tensor"
  else match tensor.context with
    | none => .error "expected a sharded Spyre tensor"
    | some owner =>
        match owner.sharding with
        | none => .error "expected a sharded Spyre tensor"
        | some info => .ok (owner, info)

variable {Hcm : Type}

section Construct

variable (flex : Flex Hcm)

/-- `shard_device_address` -/
def shardDeviceAddress (sharded : Tensor) (shardIndex expectedNumShards expectedShardBytes : ℤ) :
    Except String ℤ := do
  let (owner, info) ← shardingOf sharded
  if ¬ (info.numShards = expectedNumShards ∧ info.shardDeviceBytes = expectedShardBytes) then
    throw (s!"sharded tensor has {info.numShards} shards of {info.shardDeviceBytes} bytes, but the " ++
      s!"kernel was compiled for {expectedNumShards} shards of {expectedShardBytes} bytes")
  if ¬ (0 ≤ shardIndex ∧ shardIndex < expectedNumShards) then
    throw s!"shard index {shardIndex} is out of range for {expectedNumShards} shards"
  match owner.shardAddrs[shardIndex.toNat]? with
  | none => throw s!"sharded storage has no allocation for shard {shardIndex}"
  | some address =>
      match address with
      | [] => throw ""
      | chunk :: _ =>
          if ¬ info.shardDeviceBytes ≤ chunk.size then
            throw s!"chunk for shard {shardIndex} is not an addressable chunk of one shard"
          return flex.deviceAddress [{ chunk with size := info.shardDeviceBytes.toNat }]

def resolveSymbolicArg (tensors : List Tensor) (arg : SymbolicArg) : Except String HostComputeArg :=
  if arg.tensorId < 0 then .error "symbolic_args tensor_id out of range"
  else match tensors[arg.tensorId.toNat]? with
    | none => .error "symbolic_args tensor_id out of range"
    | some tensor =>
        match arg.kind with
        | .address => (getCompositeAddress tensor).map .address
        | .shardAddress =>
            (shardDeviceAddress flex tensor arg.dimIndex arg.numShards arg.value).map .value
        | .dimension => .error "SymbolicArgKind::kDimension is not yet implemented"
        | .other value => .error s!"Unknown SymbolicArgKind value: {value}"

def resolveSymbolicArgs (tensors : List Tensor) (symbolicArgs : List SymbolicArg) :
    Except String (List HostComputeArg) :=
  symbolicArgs.mapM (resolveSymbolicArg flex tensors)

/-! ## Steps and operations -/

/-- `JobPlanStep` -/
inductive JobPlanStep (Hcm : Type) where
  | hostCompute (hcm : Hcm) (correctionSize : ℕ) (deviceAddress : Chunk)
      (inputBuffer : Option HostBuffer) (ishape : List ℤ)
  | h2d (hostAddress : HostBuffer) (deviceAddress : Chunk)
  | d2h (deviceAddress : Chunk ⊕ ℕ) (hostAddress : HostBuffer) (size : ℕ)
  | compute (programAddress : Chunk) (bindIoAddresses : Bool) (bootstrapOffset : ℕ) (name : String)

inductive StepKind where
  | hostCompute
  | h2d
  | d2h
  | compute
deriving DecidableEq

inductive StreamRole where
  | prep
  | dev
deriving DecidableEq

def JobPlanStep.classifyStep : JobPlanStep Hcm → StepKind
  | .hostCompute .. => .hostCompute
  | .h2d .. => .h2d
  | .d2h .. => .d2h
  | .compute .. => .compute

def JobPlanStep.isHostCompute (step : JobPlanStep Hcm) : Bool := step.classifyStep = .hostCompute

def JobPlanStep.role : JobPlanStep Hcm → StreamRole
  | .hostCompute .. => .prep
  | .h2d .. => .prep
  | .d2h .. => .dev
  | .compute .. => .dev

/-- `flex::ProgramCorrection` -/
structure ProgramCorrection where
  buffer : List Byte
  deviceAddress : Chunk

/-- What a stream is given. -/
inductive Operation where
  | h2d (source : HostBuffer) (target : Chunk)
  | correction (programCorrection : ProgramCorrection)
  | d2h (source : Chunk) (target : HostBuffer)
  | compute (program : Chunk) (tensors : List CompositeAddress) (entry : ℕ) (name : String)
      (programCorrections : List ProgramCorrection)

/-- The bytes of a buffer onto the device. -/
def ProgramCorrection.action (correction : ProgramCorrection) : Action Place Byte :=
  .fill fun
    | .device region offset =>
        if region = correction.deviceAddress.region ∧ correction.deviceAddress.offset ≤ offset then
          correction.buffer[offset - correction.deviceAddress.offset]?
        else none
    | .host _ _ => none

def h2dAction (source : HostBuffer) (target : Chunk) : Action Place Byte :=
  .copy fun
    | .device region offset =>
        if region = target.region ∧ target.offset ≤ offset ∧ offset < target.offset + target.size then
          some (.host source (offset - target.offset))
        else none
    | .host _ _ => none

def d2hAction (source : Chunk) (target : HostBuffer) : Action Place Byte :=
  .copy fun
    | .device _ _ => none
    | .host buffer index =>
        if buffer = target ∧ index < source.size then some (.device source.region (source.offset + index))
        else none

/-- Corrections first, then the program. -/
def corrected (programCorrections : List ProgramCorrection) (program : Action Place Byte) :
    Action Place Byte :=
  programCorrections.foldr (fun correction later => correction.action.andThen later) program

def Operation.action : Operation → Action Place Byte
  | .h2d source target => h2dAction source target
  | .correction programCorrection => programCorrection.action
  | .d2h source target => d2hAction source target
  | .compute program tensors entry _ programCorrections =>
      corrected programCorrections (flex.program program tensors entry)

/-! ## One step of a launch -/

structure LaunchContext where
  inputsOutputs : List Tensor
  symbolicArgs : List SymbolicArg
  batchProgramCorrections : Bool
  programCorrections : List ProgramCorrection

/-- The arguments of a host compute step. -/
def hostComputeArgs (tensors : List Tensor) (symbolicArgs : List SymbolicArg)
    (inputBuffer : Option HostBuffer) (ishape : List ℤ) : Except String (List HostComputeArg) :=
  if inputBuffer = none ∧ ¬ ishape = [0] then
    if symbolicArgs ≠ [] then resolveSymbolicArgs flex tensors symbolicArgs
    else tensors.mapM fun tensor => (getCompositeAddress tensor).map .address
  else .ok []

/-- `launchHostCompute` reads its input buffer at once. -/
def launchHostCompute (store : Store) (tensors : List Tensor) (symbolicArgs : List SymbolicArg) (hcm : Hcm)
    (correctionSize : ℕ) (inputBuffer : Option HostBuffer) (ishape : List ℤ) : Except String (List Byte) := do
  let args ← hostComputeArgs flex tensors symbolicArgs inputBuffer ishape
  flex.processComputeOnHost hcm correctionSize
    (inputBuffer.map fun buffer index => store (.host buffer index)) args

/-- The chunk of the device a download reads. -/
def downloadChunk (tensors : List Tensor) (deviceAddress : Chunk ⊕ ℕ) (size : ℕ) : Except String Chunk :=
  match deviceAddress with
  | .inl chunk => .ok chunk
  | .inr devicePtr =>
      let (segmentId, segmentOffset, _) := flex.decodeDevicePointer devicePtr
      match tensors[segmentId]? with
      | none => .error (s!"D2H tensor-segment lookup out of range: segment {segmentId} but only " ++
          s!"{tensors.length} launch args were provided")
      | some tensor => do
          let tensorAddress ← getCompositeAddress tensor
          match tensorAddress with
          | [chunk] =>
              if ¬ segmentOffset + size ≤ totalSize tensorAddress then
                throw (s!"D2H transfer out of bounds: offset {segmentOffset} + size {size} exceeds " ++
                  s!"tensor allocation size {totalSize tensorAddress}")
              return ⟨chunk.region, chunk.offset + segmentOffset, size, chunk.domain⟩
          | [] => throw "Tensor address must have 1 chunk"
          | _ :: _ :: _ => throw "Tensor address must have 1 chunk"

def tensorAllocs (tensors : List Tensor) (bindIoAddresses : Bool) : Except String (List CompositeAddress) :=
  if bindIoAddresses then tensors.mapM getCompositeAddress else .ok []

/-- `JobPlanStep::construct`: what the step launches, and what it leaves for the next ones. -/
def JobPlanStep.construct (store : Store) (context : LaunchContext) :
    JobPlanStep Hcm → Except String (List Operation × LaunchContext)
  | .hostCompute hcm correctionSize deviceAddress inputBuffer ishape => do
      let buffer ← launchHostCompute flex store context.inputsOutputs context.symbolicArgs hcm
        correctionSize inputBuffer ishape
      if context.batchProgramCorrections then
        return ([], { context with
          programCorrections := context.programCorrections ++ [⟨buffer, deviceAddress⟩] })
      else return ([.correction ⟨buffer, deviceAddress⟩], context)
  | .h2d hostAddress deviceAddress => return ([.h2d hostAddress deviceAddress], context)
  | .d2h deviceAddress hostAddress size => do
      let chunk ← downloadChunk flex context.inputsOutputs deviceAddress size
      return ([.d2h chunk hostAddress], context)
  | .compute programAddress bindIoAddresses bootstrapOffset name => do
      let allocs ← tensorAllocs context.inputsOutputs bindIoAddresses
      return ([.compute programAddress allocs bootstrapOffset name context.programCorrections],
        { context with programCorrections := [] })

/-- The corrections of a group of host computes travel with the compute right after it. -/
def batches (maxCorrections : ℕ) (steps : List (JobPlanStep Hcm)) : Bool :=
  decide ((steps.takeWhile JobPlanStep.isHostCompute).length ≤ maxCorrections) &&
    decide ((steps.dropWhile JobPlanStep.isHostCompute).head?.map JobPlanStep.classifyStep = some .compute)

/-- A group starts at a host compute that follows none. -/
def LaunchContext.group (context : LaunchContext) (maxCorrections : ℕ) (previous : Option StepKind)
    (steps : List (JobPlanStep Hcm)) : LaunchContext :=
  if 0 < maxCorrections ∧ steps.head?.map JobPlanStep.classifyStep = some .hostCompute ∧
      previous ≠ some .hostCompute then
    { context with batchProgramCorrections := batches maxCorrections steps }
  else context

end Construct

/-! ## One step at a time -/

structure Launch (Hcm : Type) where
  steps : List (JobPlanStep Hcm)
  tensors : List Tensor
  symbolicArgs : List SymbolicArg

section Perform

variable (flex : Flex Hcm)

/-- What a step does when nothing is in flight. -/
def JobPlanStep.perform (tensors : List Tensor) (symbolicArgs : List SymbolicArg) (store : Store) :
    JobPlanStep Hcm → Except String Store
  | .hostCompute hcm correctionSize deviceAddress inputBuffer ishape => do
      let buffer ← launchHostCompute flex store tensors symbolicArgs hcm correctionSize inputBuffer ishape
      return (ProgramCorrection.mk buffer deviceAddress).action.effect store
  | .h2d hostAddress deviceAddress => return (h2dAction hostAddress deviceAddress).effect store
  | .d2h deviceAddress hostAddress size => do
      let chunk ← downloadChunk flex tensors deviceAddress size
      return (d2hAction chunk hostAddress).effect store
  | .compute programAddress bindIoAddresses bootstrapOffset _ => do
      let allocs ← tensorAllocs tensors bindIoAddresses
      return (flex.program programAddress allocs bootstrapOffset).effect store

def performSteps (tensors : List Tensor) (symbolicArgs : List SymbolicArg) (steps : List (JobPlanStep Hcm))
    (store : Store) : Except String Store :=
  steps.foldlM (fun store step => step.perform flex tensors symbolicArgs store) store

def performLaunches (launches : List (Launch Hcm)) (store : Store) : Except String Store :=
  launches.foldlM (fun store launch =>
    performSteps flex launch.tensors launch.symbolicArgs launch.steps store)
    store

end Perform

/-! ## The process -/

/-- An operation on its stream. -/
structure Queued where
  stream : ℤ
  operation : Operation

/-- A launch that has constructed some of its steps. -/
structure Call (Hcm : Type) where
  launch : Launch Hcm
  maxCorrections : ℕ
  done : List (JobPlanStep Hcm)
  rest : List (JobPlanStep Hcm)
  context : LaunchContext

def Call.start (launch : Launch Hcm) (maxCorrections : ℕ) : Call Hcm :=
  ⟨launch, maxCorrections, [], launch.steps, ⟨launch.tensors, launch.symbolicArgs, false, []⟩⟩

def Call.previous (call : Call Hcm) : Option StepKind :=
  call.done.getLast?.map JobPlanStep.classifyStep

structure Process (Hcm : Type) where
  queue : Queue Queued Place Byte
  call : Option (Call Hcm)
  launched : List (Launch Hcm)

/-- The streams of a launch and what an operation waits for. -/
structure Streams where
  sDev : ℤ
  sPrep : ℤ
  shouldSplit : Bool
  waits : Queued → Queued → Prop

def Streams.target (streams : Streams) (role : StreamRole) : ℤ :=
  if streams.shouldSplit && decide (role = .prep) then streams.sPrep else streams.sDev

section Process

variable (flex : Flex Hcm) (streams : Streams) (plans : Set (List (JobPlanStep Hcm)))

/-- What the caller and the runtime do. -/
inductive Process.Advances : Process Hcm → Process Hcm → Prop where
  | starts {queue : Queue Queued Place Byte} {launched : List (Launch Hcm)} (launch : Launch Hcm)
      (maxCorrections : ℕ) (isPlan : launch.steps ∈ plans)
      (onDevice : ∀ tensor ∈ launch.tensors, tensor.isPrivateuseone = true) :
      Process.Advances ⟨queue, none, launched⟩ ⟨queue, some (.start launch maxCorrections), launched⟩
  | constructs {pending : List Queued} {store : Store} {launched : List (Launch Hcm)} {call : Call Hcm}
      {step : JobPlanStep Hcm} {rest : List (JobPlanStep Hcm)} {operations : List Operation}
      {context : LaunchContext} (isNext : call.rest = step :: rest)
      (constructed : step.construct flex store
        (call.context.group call.maxCorrections call.previous call.rest) = .ok (operations, context)) :
      Process.Advances ⟨⟨pending, store⟩, some call, launched⟩
        ⟨⟨pending ++ operations.map fun operation => ⟨streams.target step.role, operation⟩, store⟩,
          some { call with done := call.done ++ [step], rest := rest, context := context }, launched⟩
  | returns {queue : Queue Queued Place Byte} {launched : List (Launch Hcm)} {call : Call Hcm}
      (isLast : call.rest = []) (consumed : call.context.programCorrections = []) :
      Process.Advances ⟨queue, some call, launched⟩ ⟨queue, none, launched ++ [call.launch]⟩
  | takes {queue next : Queue Queued Place Byte} {call : Option (Call Hcm)} {launched : List (Launch Hcm)}
      (takes : queue.Takes (fun queued => queued.operation.action flex) streams.waits next) :
      Process.Advances ⟨queue, call, launched⟩ ⟨next, call, launched⟩

/-- The states of a process that starts with nothing in flight. -/
def Process.Reaches (start : Store) (process : Process Hcm) : Prop :=
  Relation.ReflTransGen (Process.Advances flex streams plans) ⟨⟨[], start⟩, none, []⟩ process

/-- A place of the device that one operation writes and the other reads or writes. -/
def Conflicts (first second : Operation) : Prop :=
  ∃ region offset, (.device region offset ∈ (first.action flex).writes ∧
      .device region offset ∈ (second.action flex).reads ∪ (second.action flex).writes) ∨
    (.device region offset ∈ (first.action flex).reads ∧ .device region offset ∈ (second.action flex).writes)

/-- Streams are first in, first out, and the tracker orders what conflicts across them. -/
structure Streams.Ordered : Prop where
  fifo : ∀ earlier later : Queued, earlier.stream = later.stream → streams.waits earlier later
  tracked : streams.shouldSplit = true → ∀ earlier later : Queued,
    Conflicts flex earlier.operation later.operation → streams.waits earlier later

/-- Only downloads write pinned buffers: no host compute takes one as its input and, across streams, no
upload reads one. -/
structure Feeds (downloaded : Set HostBuffer) (steps : List (JobPlanStep Hcm)) : Prop where
  downloads : ∀ deviceAddress hostAddress size, .d2h deviceAddress hostAddress size ∈ steps →
    hostAddress ∈ downloaded
  inputs : ∀ hcm correctionSize deviceAddress inputBuffer ishape,
    .hostCompute hcm correctionSize deviceAddress (some inputBuffer) ishape ∈ steps → inputBuffer ∉ downloaded
  uploads : streams.shouldSplit = true → ∀ hostAddress deviceAddress,
    .h2d hostAddress deviceAddress ∈ steps → hostAddress ∉ downloaded

end Process

/-! ## What the operations touch -/

section Touches

variable {flex : Flex Hcm} {buffer : HostBuffer} {index : ℕ}

theorem host_notMem_correction (correction : ProgramCorrection) :
    Place.host buffer index ∉ correction.action.reads ∪ correction.action.writes := by
  rintro (isRead | isWritten)
  · exact isRead
  · cases isWritten

theorem host_notMem_corrected {program : Action Place Byte}
    (onDevice : Place.host buffer index ∉ program.reads ∪ program.writes)
    (corrections : List ProgramCorrection) :
    Place.host buffer index ∉ (corrected corrections program).reads ∪
        (corrected corrections program).writes := by
  induction corrections with
  | nil => exact onDevice
  | cons correction corrections inductionHypothesis =>
      have apart := @host_notMem_correction buffer index correction
      rintro ((byFirst | later) | (byFirst | later))
      · exact apart (.inl byFirst)
      · exact inductionHypothesis (.inl later)
      · exact apart (.inr byFirst)
      · exact inductionHypothesis (.inr later)

/-- Only uploads read a pinned buffer. -/
theorem host_mem_reads {operation : Operation}
    (isRead : Place.host buffer index ∈ (operation.action flex).reads) :
    ∃ target, operation = .h2d buffer target := by
  cases operation with
  | h2d source target =>
      obtain ⟨place, isSource⟩ := isRead
      cases place with
      | device region offset =>
          simp only at isSource
          split at isSource
          next =>
            cases isSource
            exact ⟨target, rfl⟩
          next => cases isSource
      | host other position => cases isSource
  | correction programCorrection => exact absurd (.inl isRead) (host_notMem_correction programCorrection)
  | d2h source target =>
      obtain ⟨place, isSource⟩ := isRead
      cases place with
      | device region offset => cases isSource
      | host other position =>
          simp only at isSource
          split at isSource <;> cases isSource
  | compute program tensors entry name corrections =>
      exact absurd (.inl isRead)
        (host_notMem_corrected (flex.onDevice program tensors entry buffer index) corrections)

/-- Only downloads write a pinned buffer. -/
theorem host_mem_writes {operation : Operation}
    (isWritten : Place.host buffer index ∈ (operation.action flex).writes) :
    ∃ source, operation = .d2h source buffer := by
  cases operation with
  | h2d source target => cases isWritten
  | correction programCorrection => exact absurd (.inr isWritten) (host_notMem_correction programCorrection)
  | d2h source target =>
      have isSome : (if buffer = target ∧ index < source.size then
          some (Place.device source.region (source.offset + index)) else none).isSome = true := isWritten
      split at isSome
      next isTarget =>
        obtain ⟨rfl, -⟩ := isTarget
        exact ⟨source, rfl⟩
      next => cases isSome
  | compute program tensors entry name corrections =>
      exact absurd (.inr isWritten)
        (host_notMem_corrected (flex.onDevice program tensors entry buffer index) corrections)

theorem corrected_effect (corrections : List ProgramCorrection) (program : Action Place Byte)
    (store : Store) :
    (corrected corrections program).effect store =
      program.effect (drain ProgramCorrection.action corrections store) := by
  induction corrections generalizing store with
  | nil => rfl
  | cons correction corrections inductionHypothesis => exact inductionHypothesis _

end Touches

/-! ## Operations on the streams -/

/-- Where an operation stands, and which pinned buffers it may touch. -/
structure Queued.Placed (streams : Streams) (downloaded : Set HostBuffer) (queued : Queued) : Prop where
  stream : ∃ role, queued.stream = streams.target role ∧
    ((∃ source target, queued.operation = .h2d source target) → role = .prep) ∧
    ((∃ source target, queued.operation = .d2h source target) → role = .dev)
  uploads : streams.shouldSplit = true → ∀ source target, queued.operation = .h2d source target →
    source ∉ downloaded
  downloads : ∀ source target, queued.operation = .d2h source target → target ∈ downloaded

section Placed

variable {flex : Flex Hcm} {streams : Streams} {downloaded : Set HostBuffer}

/-- Operations that do not wait for each other keep apart. -/
theorem Streams.Ordered.apart (ordered : streams.Ordered flex) {earlier later : Queued}
    (earlierPlaced : earlier.Placed streams downloaded) (laterPlaced : later.Placed streams downloaded)
    (free : ¬ streams.waits earlier later) :
    (earlier.operation.action flex).Apart (later.operation.action flex) := by
  have otherStream : earlier.stream ≠ later.stream := fun same => free (ordered.fifo earlier later same)
  obtain ⟨earlierRole, earlierStream, earlierUpload, earlierDownload⟩ := earlierPlaced.stream
  obtain ⟨laterRole, laterStream, laterUpload, laterDownload⟩ := laterPlaced.stream
  have otherRole : earlierRole ≠ laterRole := by
    rintro rfl
    exact otherStream (earlierStream.trans laterStream.symm)
  have split : streams.shouldSplit = true := by
    by_contra single
    apply otherStream
    rw [earlierStream, laterStream, Streams.target, Streams.target, Bool.eq_false_of_not_eq_true single]
    simp
  have noConflict := fun conflicts => free (ordered.tracked split earlier later conflicts)
  -- A download fills no buffer that an upload on the other stream reads.
  have crossed : ∀ {buffer source target}, earlier.operation = .d2h source buffer →
      later.operation = .h2d buffer target → False := by
    intro buffer source target isDownload isUpload
    exact laterPlaced.uploads split _ _ isUpload (earlierPlaced.downloads _ _ isDownload)
  have crossedBack : ∀ {buffer source target}, earlier.operation = .h2d buffer target →
      later.operation = .d2h source buffer → False := by
    intro buffer source target isUpload isDownload
    exact earlierPlaced.uploads split _ _ isUpload (laterPlaced.downloads _ _ isDownload)
  refine ⟨Set.disjoint_left.mpr ?_, Set.disjoint_left.mpr ?_, Set.disjoint_left.mpr ?_⟩
  · intro place byEarlier byLater
    cases place with
    | device region offset => exact noConflict ⟨region, offset, .inl ⟨byEarlier, .inr byLater⟩⟩
    | host buffer index =>
        obtain ⟨source, isEarlier⟩ := host_mem_writes byEarlier
        obtain ⟨other, isLater⟩ := host_mem_writes byLater
        exact otherRole ((earlierDownload ⟨_, _, isEarlier⟩).trans (laterDownload ⟨_, _, isLater⟩).symm)
  · intro place byEarlier byLater
    cases place with
    | device region offset => exact noConflict ⟨region, offset, .inl ⟨byEarlier, .inl byLater⟩⟩
    | host buffer index =>
        obtain ⟨source, isEarlier⟩ := host_mem_writes byEarlier
        obtain ⟨target, isLater⟩ := host_mem_reads byLater
        exact crossed isEarlier isLater
  · intro place byEarlier byLater
    cases place with
    | device region offset => exact noConflict ⟨region, offset, .inr ⟨byEarlier, byLater⟩⟩
    | host buffer index =>
        obtain ⟨target, isEarlier⟩ := host_mem_reads byEarlier
        obtain ⟨source, isLater⟩ := host_mem_writes byLater
        exact crossedBack isEarlier isLater

end Placed

end TorchSpyre.Runtime
