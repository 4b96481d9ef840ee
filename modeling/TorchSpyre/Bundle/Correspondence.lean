import Mathlib
import TorchSpyre.Bundle.SameProgram

/-!
# Compiling with and without the cache

The two compilations go in step. Their operations have the same symbols, and the programs they call
differ in the symbols' numbers.
-/

namespace TorchSpyre.Bundle

open Lib

variable {Body DebugHandle : Type}

/-- Each number is that of one file. -/
structure FilesNumbered (state : CompileState Body DebugHandle) : Prop where
  below : ∀ file ∈ state.files, file.1 < state.sdscCounter
  distinct : (state.files.map Prod.fst).Nodup

/-- A cached program was written, and is the one of its key at an earlier offset. -/
structure Reusable (state : CompileState Body DebugHandle) (key : CacheKey Body) (idx : ℕ)
    (json : SdscJson Body DebugHandle) : Prop where
  written : (idx, json) ∈ state.files
  compiled : ∃ (spec : SDSCSpec Body DebugHandle) (canonical : Compilation Body DebugHandle)
    (argIndices : List ℤ) (offset : ℕ), generateSdsc 0 spec 0 = some canonical ∧
      canonical.sdscJson.cacheKey argIndices = key ∧ offset ≤ state.symbolIdOffsetCounter ∧
      json = { canonical.sdscJson.rename (shiftId offset) with idx := idx }

/-- Calls of one program under two numberings of its symbols. -/
def SameCall (cachedFiles freshFiles : List (ℕ × SdscJson Body DebugHandle)) (cached fresh : ℕ × List ℤ) : Prop :=
  ∃ called own later, (cached.1, called) ∈ cachedFiles ∧ (fresh.1, own) ∈ freshFiles ∧
    SameProgram (shiftId later) called own ∧ cached.2.map (shiftId later) = fresh.2

def CompiledEntry.call (entry : CompiledEntry Body DebugHandle) : ℕ × List ℤ :=
  (entry.cachedJson.idx, entry.cachedJson.extractSymbolIds)

structure SameEntry (cachedFiles freshFiles : List (ℕ × SdscJson Body DebugHandle))
    (cached fresh : CompiledEntry Body DebugHandle) : Prop where
  sdscJson : cached.sdscJson = { fresh.sdscJson with idx := cached.sdscJson.idx }
  affineStrides : cached.affineStrides = fresh.affineStrides
  symbolKinds : cached.symbolKinds = fresh.symbolKinds
  call : SameCall cachedFiles freshFiles cached.call fresh.call

structure Corresponds (cached fresh : CompileState Body DebugHandle) : Prop where
  symbols : cached.symbols = fresh.symbols
  offset : cached.symbolIdOffsetCounter = fresh.symbolIdOffsetCounter
  compiled : List.Forall₂ (SameEntry cached.files fresh.files) cached.compiled fresh.compiled
  reusable : ∃ cache, cached.sdscCache = some cache ∧
    ∀ key idx json, (key, idx, json) ∈ cache → Reusable cached key idx json
  uncached : fresh.sdscCache = none
  cachedFiles : FilesNumbered cached
  freshFiles : FilesNumbered fresh

/-! ## Files are only added -/

theorem SameEntry.mono {cachedFiles freshFiles moreCached moreFresh : List (ℕ × SdscJson Body DebugHandle)}
    {cached fresh : CompiledEntry Body DebugHandle} (same : SameEntry cachedFiles freshFiles cached fresh)
    (cachedKept : cachedFiles ⊆ moreCached) (freshKept : freshFiles ⊆ moreFresh) :
    SameEntry moreCached moreFresh cached fresh where
  sdscJson := same.sdscJson
  affineStrides := same.affineStrides
  symbolKinds := same.symbolKinds
  call := by
    obtain ⟨called, own, later, inCached, inFresh, rest⟩ := same.call
    exact ⟨called, own, later, cachedKept inCached, freshKept inFresh, rest⟩

theorem Reusable.mono {state next : CompileState Body DebugHandle} {key : CacheKey Body} {idx : ℕ}
    {json : SdscJson Body DebugHandle} (reusable : Reusable state key idx json)
    (kept : state.files ⊆ next.files) (grows : state.symbolIdOffsetCounter ≤ next.symbolIdOffsetCounter) :
    Reusable next key idx json where
  written := kept reusable.written
  compiled := by
    obtain ⟨spec, canonical, argIndices, offset, isCanonical, isKey, earlier, rest⟩ := reusable.compiled
    exact ⟨spec, canonical, argIndices, offset, isCanonical, isKey, le_trans earlier grows, rest⟩

theorem FilesNumbered.lookup {state : CompileState Body DebugHandle} (numbered : FilesNumbered state) {idx : ℕ}
    {json : SdscJson Body DebugHandle} (written : (idx, json) ∈ state.files) :
    state.files.lookup idx = some json := by
  have distinct := numbered.distinct
  revert written distinct
  induction state.files with
  | nil => exact fun written => absurd written List.not_mem_nil
  | cons file files inductionHypothesis =>
      intro written distinct
      rw [List.map_cons, List.nodup_cons] at distinct
      rcases List.mem_cons.mp written with rfl | later
      · simp
      · have different : idx ≠ file.1 := by
          rintro rfl
          exact distinct.1 (List.mem_map.mpr ⟨_, later, rfl⟩)
        rw [List.lookup_cons, beq_false_of_ne different]
        exact inductionHypothesis later distinct.2

theorem FilesNumbered.extend {state next : CompileState Body DebugHandle} (numbered : FilesNumbered state)
    {json : SdscJson Body DebugHandle} (files : next.files = state.files ++ [(state.sdscCounter, json)])
    (counter : next.sdscCounter = state.sdscCounter + 1) : FilesNumbered next where
  below := by
    intro file written
    rw [files] at written
    rw [counter]
    rcases List.mem_append.mp written with earlier | last
    · exact Nat.lt_succ_of_lt (numbered.below file earlier)
    · rw [List.mem_singleton.mp last]
      exact Nat.lt_succ_self _
  distinct := by
    rw [files, List.map_append, List.map_singleton]
    apply List.nodup_append_comm.mp
    apply List.nodup_cons.mpr
    refine ⟨?_, numbered.distinct⟩
    intro taken
    obtain ⟨file, written, same⟩ := List.mem_map.mp taken
    exact absurd same (ne_of_lt (numbered.below file written))

/-! ## One operation -/

section Operation

variable {cached fresh : CompileState Body DebugHandle} {op : OpSpec Body DebugHandle}
  {canonical result : Compilation Body DebugHandle}

/-- The new entries of both compilations. -/
theorem sameEntry_append {cachedFiles freshFiles : List (ℕ × SdscJson Body DebugHandle)}
    {calledIdx cachedIdx freshIdx offset later : ℕ} {calledCanonical : Compilation Body DebugHandle}
    {calledSpec : SDSCSpec Body DebugHandle} {calledArgs : List ℤ}
    (isCalled : generateSdsc 0 calledSpec 0 = some calledCanonical)
    (isCanonical : generateSdsc 0 op.sdscSpec 0 = some canonical)
    (sameKey : calledCanonical.sdscJson.cacheKey calledArgs = canonical.sdscJson.cacheKey op.argIndices)
    (own : result.sdscJson =
      { canonical.sdscJson.rename (shiftId (offset + later)) with idx := freshIdx })
    (inCached : (calledIdx, { calledCanonical.sdscJson.rename (shiftId offset) with idx := calledIdx }) ∈
      cachedFiles)
    (inFresh : (freshIdx, result.sdscJson) ∈ freshFiles) :
    SameEntry cachedFiles freshFiles
      ⟨{ result.sdscJson with idx := cachedIdx }, result.symbolValues, result.affineStrides,
        result.symbolKinds, { calledCanonical.sdscJson.rename (shiftId offset) with idx := calledIdx }⟩
      ⟨result.sdscJson, result.symbolValues, result.affineStrides, result.symbolKinds,
        result.sdscJson⟩ where
  sdscJson := rfl
  affineStrides := rfl
  symbolKinds := rfl
  call := by
    have same := sameProgram_of_cacheKey isCalled isCanonical sameKey calledIdx freshIdx offset later
    rw [← own] at same
    have named : result.sdscJson.idx = freshIdx := by rw [own]
    refine ⟨_, result.sdscJson, later, inCached, ?_, same⟩
    rw [CompiledEntry.call, named]
    exact inFresh

/-- Without a program at offset zero there is none at any. -/
theorem canonical_of_result {idx offset : ℕ} (isResult : generateSdsc idx op.sdscSpec offset = some result) :
    ∃ canonical, generateSdsc 0 op.sdscSpec 0 = some canonical ∧
      result.sdscJson = { canonical.sdscJson.rename (shiftId offset) with idx := idx } := by
  have shifted := generateSdsc_offset op.sdscSpec idx offset
  rw [isResult, Option.map_some] at shifted
  obtain ⟨canonical, isCanonical, same⟩ := Option.map_eq_some_iff.mp shifted.symm
  exact ⟨canonical, isCanonical, same.symm⟩

theorem canonical_eq_none {idx offset : ℕ} (noResult : generateSdsc idx op.sdscSpec offset = none) :
    generateSdsc 0 op.sdscSpec 0 = none := by
  have shifted := generateSdsc_offset op.sdscSpec idx offset
  rw [noResult, Option.map_none] at shifted
  exact Option.map_eq_none_iff.mp shifted.symm

section Step

variable (corresponds : Corresponds cached fresh)
  (isResult : generateSdsc fresh.sdscCounter op.sdscSpec fresh.symbolIdOffsetCounter = some result)

include corresponds isResult

theorem corresponds_hit {idx : ℕ} {json : SdscJson Body DebugHandle}
    (isCanonical : generateSdsc 0 op.sdscSpec 0 = some canonical)
    (own : result.sdscJson = { canonical.sdscJson.rename (shiftId fresh.symbolIdOffsetCounter) with
      idx := fresh.sdscCounter })
    (reusable : Reusable cached (canonical.sdscJson.cacheKey op.argIndices) idx json) :
    Option.Rel Corresponds (cached.compileHit op idx json) (fresh.compileMiss op none) := by
  unfold CompileState.compileHit CompileState.compileMiss
  rw [generateSdsc_idx op.sdscSpec idx fresh.sdscCounter, corresponds.offset, isResult, Option.map_some,
    Option.map_some, Option.map_some]
  apply Option.Rel.some
  obtain ⟨calledSpec, calledCanonical, calledArgs, offset, isCalled, sameKey, earlier, isJson⟩ :=
    reusable.compiled
  obtain ⟨later, total⟩ := Nat.exists_eq_add_of_le earlier
  rw [corresponds.offset] at total
  rw [total] at own
  have kept : fresh.files ⊆ fresh.files ++ [(fresh.sdscCounter, result.sdscJson)] :=
    List.subset_append_left _ _
  constructor
  · simp [CompileState.append, corresponds.symbols]
  · simp [CompileState.append, corresponds.offset]
  · apply List.rel_append
    · exact corresponds.compiled.imp fun _ _ same => same.mono (List.Subset.refl _) kept
    · apply List.Forall₂.cons _ .nil
      subst isJson
      exact sameEntry_append isCalled isCanonical sameKey own reusable.written (by simp)
  · obtain ⟨cache, isCache, sound⟩ := corresponds.reusable
    refine ⟨cache, isCache, ?_⟩
    intro key idx json listed
    exact (sound key idx json listed).mono (List.Subset.refl _) (Nat.le_add_right _ _)
  · exact corresponds.uncached
  · exact ⟨corresponds.cachedFiles.below, corresponds.cachedFiles.distinct⟩
  · exact corresponds.freshFiles.extend rfl rfl

theorem corresponds_miss (isCanonical : generateSdsc 0 op.sdscSpec 0 = some canonical)
    (own : result.sdscJson = { canonical.sdscJson.rename (shiftId fresh.symbolIdOffsetCounter) with
      idx := fresh.sdscCounter }) :
    Option.Rel Corresponds (cached.compileMiss op (some (canonical.sdscJson.cacheKey op.argIndices)))
      (fresh.compileMiss op none) := by
  unfold CompileState.compileMiss
  rw [generateSdsc_idx op.sdscSpec cached.sdscCounter fresh.sdscCounter, corresponds.offset, isResult,
    Option.map_some, Option.map_some, Option.map_some]
  apply Option.Rel.some
  have renamed : ({ result.sdscJson with idx := cached.sdscCounter } : SdscJson Body DebugHandle) =
      { canonical.sdscJson.rename (shiftId fresh.symbolIdOffsetCounter) with
        idx := cached.sdscCounter } := by
    rw [own]
  obtain ⟨cache, isCache, sound⟩ := corresponds.reusable
  constructor
  · simp [CompileState.append, corresponds.symbols]
  · simp [CompileState.append, corresponds.offset]
  · apply List.rel_append
    · exact corresponds.compiled.imp fun _ _ same =>
        same.mono (List.subset_append_left _ _) (List.subset_append_left _ _)
    · apply List.Forall₂.cons _ .nil
      have inCached : (cached.sdscCounter, ({ result.sdscJson with idx := cached.sdscCounter } :
          SdscJson Body DebugHandle)) ∈ cached.files ++ [(cached.sdscCounter, { result.sdscJson with
            idx := cached.sdscCounter })] := by simp
      have inFresh : (fresh.sdscCounter, result.sdscJson) ∈
          fresh.files ++ [(fresh.sdscCounter, result.sdscJson)] := by simp
      rw [renamed] at inCached
      have same := @sameEntry_append _ _ op canonical result _ _ cached.sdscCounter cached.sdscCounter _ _ 0
        _ _ _ isCanonical isCanonical rfl own inCached inFresh
      rw [← renamed] at same
      exact same
  · refine ⟨(canonical.sdscJson.cacheKey op.argIndices, cached.sdscCounter,
      { result.sdscJson with idx := cached.sdscCounter }) :: cache, by simp [isCache], ?_⟩
    intro key idx json listed
    rcases List.mem_cons.mp listed with same | earlier
    · cases same
      refine ⟨by simp, op.sdscSpec, canonical, op.argIndices, fresh.symbolIdOffsetCounter, isCanonical, rfl, ?_,
        renamed⟩
      exact le_trans (le_of_eq corresponds.offset.symm) (Nat.le_add_right _ _)
    · exact (sound key idx json earlier).mono (List.subset_append_left _ _) (Nat.le_add_right _ _)
  · exact corresponds.uncached
  · exact corresponds.cachedFiles.extend rfl rfl
  · exact corresponds.freshFiles.extend rfl rfl

end Step

/-- One operation more keeps both in step, and fails in both or in neither. -/
theorem corresponds_compileOp [DecidableEq Body] (corresponds : Corresponds cached fresh)
    (op : OpSpec Body DebugHandle) :
    Option.Rel Corresponds (cached.compileOp op) (fresh.compileOp op) := by
  obtain ⟨cache, isCache, sound⟩ := corresponds.reusable
  unfold CompileState.compileOp
  rw [corresponds.uncached, isCache]
  dsimp only
  cases isResult : generateSdsc fresh.sdscCounter op.sdscSpec fresh.symbolIdOffsetCounter with
  | none =>
      rw [CompileState.compileMiss, isResult, OpSpec.cacheKey, canonical_eq_none isResult]
      exact .none
  | some result =>
      obtain ⟨canonical, isCanonical, own⟩ := canonical_of_result isResult
      rw [OpSpec.cacheKey, isCanonical, Option.map_some, Option.bind_some]
      cases hit : cache.lookup (canonical.sdscJson.cacheKey op.argIndices) with
      | none => exact corresponds_miss corresponds isResult isCanonical own
      | some reused =>
          obtain ⟨idx, json⟩ := reused
          apply corresponds_hit corresponds isResult isCanonical own
          exact sound _ _ _ (mem_of_lookup hit)

end Operation

/-! ## All operations -/

theorem corresponds_compileSpecs [DecidableEq Body] (specs : List (SpecTree Body DebugHandle))
    {cached fresh : CompileState Body DebugHandle} (corresponds : Corresponds cached fresh) :
    Option.Rel Corresponds (compileSpecs specs cached) (compileSpecs specs fresh) := by
  induction specs using RoseTree.forest_induction generalizing cached fresh with
  | nil => exact .some corresponds
  | leaf item rest inductionHypothesis =>
      cases item with
      | none => exact inductionHypothesis corresponds
      | some op =>
          apply rel_bind (corresponds_compileOp corresponds op)
          exact fun _ _ next => inductionHypothesis next
  | node count body rest bodyHypothesis restHypothesis =>
      apply rel_bind (bodyHypothesis corresponds)
      exact fun _ _ next => restHypothesis next

theorem corresponds_initial : Corresponds (.initial true : CompileState Body DebugHandle) (.initial false) where
  symbols := rfl
  offset := rfl
  compiled := .nil
  reusable := ⟨[], rfl, fun _ _ _ listed => absurd listed List.not_mem_nil⟩
  uncached := rfl
  cachedFiles := ⟨fun _ listed => absurd listed List.not_mem_nil, List.nodup_nil⟩
  freshFiles := ⟨fun _ listed => absurd listed List.not_mem_nil, List.nodup_nil⟩

end TorchSpyre.Bundle
