import Mathlib

/-!
# Dump and restore around opaque kernels

`LxContextSwitchingPass` brackets a fallback kernel that may launch another program with a
dump of every scratchpad buffer that is live across it, and a restore after it.
-/

namespace TorchSpyre.ContextSwitch

/-! ## Graphs -/

/-- What a computed buffer computes: a copy of what it reads, or something else. -/
inductive Body where
  | clone
  | compute
  deriving DecidableEq, Repr

/-- What decides whether a fallback kernel is bracketed. -/
structure FallbackFacts where
  isCollective : Bool
  outputs : Option ℕ
  isOpOverload : Bool
  isCpuOnly : Bool
  isLxSafe : Bool
  deriving DecidableEq, Repr

/-- A computed buffer may have a mutation layout, with the buffer it writes into. -/
inductive Kind where
  | computedBuffer (body : Body) (mutates : Option String)
  | fallbackKernel (facts : FallbackFacts)
  | other
  deriving DecidableEq, Repr

structure Operation where
  operationName : String
  name : String
  kind : Kind
  reads : List String
  writes : List String
  deriving DecidableEq, Repr

/-- Rows of the scratchpad. -/
structure Allocation where
  address : ℕ
  size : ℕ
  deriving DecidableEq, Repr

structure Buffer where
  lx : Option Allocation
  isComputedBuffer : Bool
  deriving DecidableEq, Repr

/-- The names the graph hands out when something is registered; none is issued twice. -/
structure NameSupply where
  bufferName : ℕ → String
  operationName : ℕ → String
  bufferName_injective : Function.Injective bufferName
  operationName_injective : Function.Injective operationName

structure Graph where
  inputNames : List String
  operations : List Operation
  getBuffer : String → Option Buffer
  issued : ℕ
  additionalBufferDeps : List (String × String)

def isLxResident (graph : Graph) (name : String) : Bool :=
  ((graph.getBuffer name).bind Buffer.lx).isSome

/-! ## Liveness -/

def Operation.accesses (operation : Operation) : List String := operation.reads ++ operation.writes

/-- The indices of the operations that access a buffer. -/
def usesOf (operations : List Operation) (name : String) : List ℕ :=
  (List.range operations.length).filter fun index =>
    operations[index]?.any fun operation => name ∈ operation.accesses

/-- The entries in the order in which the names first come up. -/
def calculateLiveness (graph : Graph) : List (String × List ℕ) :=
  (graph.inputNames ++ graph.operations.flatMap Operation.accesses).eraseDups.map fun name =>
    (name, usesOf graph.operations name)

/-- The live range strictly straddles an index. -/
def straddles (uses : List ℕ) (index : ℕ) : Bool :=
  match uses.head?, uses.getLast? with
  | some first, some last => first < index ∧ index < last + 1
  | _, _ => false

def atRiskBuffers (graph : Graph) (index : ℕ) : List String :=
  ((calculateLiveness graph).filter fun entry =>
    isLxResident graph entry.1 && straddles entry.2 index).map Prod.fst

/-! ## Targets -/

/-- A kernel that may launch a competing program and whose single output can be ordered. -/
def isOpaque (operation : Operation) : Bool :=
  match operation.kind with
  | .fallbackKernel facts =>
      !facts.isCollective && facts.outputs.any (· ≤ 1) &&
        !(facts.isOpOverload && (facts.isCpuOnly || facts.isLxSafe))
  | _ => false

/-- Each operation with the buffers to protect across it; none where it needs no bracket. -/
def protectedAcross (graph : Graph) : List (Operation × List String) :=
  graph.operations.zipIdx.map fun entry =>
    (entry.1, if isOpaque entry.1 then atRiskBuffers graph entry.2 else [])

def selectBracketTargets (graph : Graph) : List (Operation × List String) :=
  (protectedAcross graph).filter fun target => target.2 ≠ []

/-! ## Brackets -/

section Names

variable (names : NameSupply)

def dumpOperation (number : ℕ) (buf : String) : Operation where
  operationName := names.operationName number
  name := names.bufferName number
  kind := .computedBuffer .clone none
  reads := [buf]
  writes := [names.bufferName number]

def restoreOperation (number : ℕ) (dump buf : String) : Operation where
  operationName := names.operationName number
  name := names.bufferName number
  kind := .computedBuffer .clone (some buf)
  reads := [dump]
  writes := [names.bufferName number]

def indexOf (operations : List Operation) (target : Operation) : ℕ :=
  operations.findIdx fun operation => operation.operationName = target.operationName

/-- Register an operation and move it to an index. -/
def insertOperation (graph : Graph) (operation : Operation) (index : ℕ) : Graph :=
  { graph with
    operations := graph.operations.insertIdx index operation
    getBuffer := Function.update graph.getBuffer operation.name (some ⟨none, true⟩)
    issued := graph.issued + 1 }

def dumpBuffer (target : Operation) (state : Graph × List (String × String)) (buf : String) :
    Except String (Graph × List (String × String)) :=
  let (graph, dumped) := state
  if (graph.getBuffer buf).any Buffer.isComputedBuffer then
    let dump := dumpOperation names graph.issued buf
    .ok (insertOperation graph dump (indexOf graph.operations target),
      dumped ++ [(buf, dump.name)])
  else .error s!"unexpected at-risk buffer type ({buf})"

def restoreBuffer (target : Operation) (dumped : List (String × String))
    (state : Graph × List Operation) (buf : String) : Graph × List Operation :=
  let (graph, restored) := state
  let restore := restoreOperation names graph.issued ((dumped.lookup buf).getD "") buf
  (insertOperation graph restore (indexOf graph.operations target + 1), restored ++ [restore])

/-- The kernel runs after every dump, and every restore after the kernel. -/
def orderAroundBracket (graph : Graph) (target : Operation) (dumps : List String)
    (restores : List Operation) : Graph :=
  { graph with
    additionalBufferDeps := graph.additionalBufferDeps ++
      dumps.map (fun dump => (target.operationName, dump)) ++
      restores.map fun restore => (restore.operationName, target.name) }

def bracketTarget (graph : Graph) (target : Operation × List String) : Except String Graph := do
  let (graph, dumped) ← target.2.foldlM (dumpBuffer names target.1) (graph, [])
  let (graph, restored) := target.2.foldl (restoreBuffer names target.1 dumped) (graph, [])
  pure (orderAroundBracket graph target.1 (dumped.map Prod.snd) restored)

def applyPass (enableLxContextSwitching : Bool) (graph : Graph) : Except String Graph :=
  if enableLxContextSwitching then
    (selectBracketTargets graph).foldlM (bracketTarget names) graph
  else .ok graph

end Names

end TorchSpyre.ContextSwitch
