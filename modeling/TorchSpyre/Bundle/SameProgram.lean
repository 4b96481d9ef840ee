import TorchSpyre.Bundle.Renaming

/-!
# Programs with the same text

Two operations with one cache key have programs that agree up to a renaming of the symbols, and the
symbols are read from both in the same order.
-/

namespace TorchSpyre.Bundle

open Lib

variable {Body DebugHandle : Type}

/-- The same program with its symbols renamed, whatever the name and the debug handle. Key order does
not count. -/
structure SameProgram (rename : ℤ → ℤ) (called own : SdscJson Body DebugHandle) : Prop where
  opfunc : called.opfunc = own.opfunc
  numCoresUsed : called.numCoresUsed = own.numCoresUsed
  dimToSymbolMapping :
    (called.rename rename).dimToSymbolMapping.Perm own.dimToSymbolMapping
  scheduleTree : (called.rename rename).scheduleTree = own.scheduleTree
  inputSymbolsAndTags : (called.rename rename).inputSymbolsAndTags.Perm own.inputSymbolsAndTags
  body : called.body = own.body

/-! ## The order of the symbols -/

theorem foldl_addSymbolId (ids symIds : List ℤ) :
    symIds.foldl addSymbolId ids = addAll ids (symIds.filter (· < 0)) := by
  induction symIds generalizing ids with
  | nil => rfl
  | cons symId symIds inductionHypothesis =>
      rw [List.foldl_cons, inductionHypothesis, addSymbolId]
      by_cases isSymbol : symId < 0 <;> simp [isSymbol]

theorem extractSymbolIds_eq (json : SdscJson Body DebugHandle) :
    json.extractSymbolIds =
      addAll (addAll [] ((json.dimToSymbolMapping.map Prod.snd).filter (· < 0)))
        (json.hbmData.filter (· < 0)) := by
  rw [SdscJson.extractSymbolIds, foldl_addSymbolId, List.filter_append, addAll_append]

theorem hbmData_rename (rename : ℤ → ℤ) (json : SdscJson Body DebugHandle) :
    (json.rename rename).hbmData = json.hbmData.map rename := by
  unfold SdscJson.hbmData SdscJson.rename
  dsimp only
  rw [List.flatMap_map, List.map_flatMap]
  congr 1
  funext node
  by_cases inHbm : node.component = .hbm <;> simp [ScheduleNode.rename, inHbm]

theorem extractSymbolIds_rename (offset : ℕ) (json : SdscJson Body DebugHandle) :
    (json.rename (shiftId offset)).extractSymbolIds = json.extractSymbolIds.map (shiftId offset) := by
  have shifted : ∀ symIds : List ℤ, (symIds.map (shiftId offset)).filter (· < 0) =
      (symIds.filter (· < 0)).map (shiftId offset) := by
    intro symIds
    rw [List.filter_map]
    congr 2
    funext symId
    simp
  have dims : (json.rename (shiftId offset)).dimToSymbolMapping.map Prod.snd =
      (json.dimToSymbolMapping.map Prod.snd).map (shiftId offset) := by
    simp [SdscJson.rename, List.map_map, Function.comp_def]
  rw [extractSymbolIds_eq, extractSymbolIds_eq, dims, hbmData_rename, shifted, shifted]
  have first := @addAll_map ℤ ℤ _ _ (shiftId offset) []
    ((json.dimToSymbolMapping.map Prod.snd).filter (· < 0))
    (fun one _ other _ same => shiftId_injective offset same)
  rw [List.map_nil] at first
  rw [first]
  exact addAll_map fun one _ other _ same => shiftId_injective offset same

/-! ## Dimensions are numbered as they are met -/

section Dimensions

variable (spec : SDSCSpec Body DebugHandle)

def pytorchSyms : List String := spec.symbolicDims.values.map SymbolicDim.pytorchSym

theorem dimSyms_eq : spec.dimSyms = addAll [] (pytorchSyms spec) := by
  have step : ∀ dims registered : List SymbolicDim,
      (dims.foldl SDSCSpec.addDimension registered).map SymbolicDim.pytorchSym =
        addAll (registered.map SymbolicDim.pytorchSym) (dims.map SymbolicDim.pytorchSym) := by
    intro dims
    induction dims with
    | nil => exact fun registered => rfl
    | cons dim dims inductionHypothesis =>
        intro registered
        rw [List.foldl_cons, inductionHypothesis, List.map_cons, addAll_cons]
        congr 1
        unfold SDSCSpec.addDimension addNew
        split <;> simp
  exact step _ []

theorem nodup_dimSyms : spec.dimSyms.Nodup := by
  rw [dimSyms_eq]
  exact nodup_addAll List.nodup_nil _

theorem mem_dimSyms {pytorchSym : String} : pytorchSym ∈ spec.dimSyms ↔ pytorchSym ∈ pytorchSyms spec := by
  rw [dimSyms_eq, mem_addAll]
  simp

theorem dimSymbolId_neg (offset : ℕ) (pytorchSym : String) : spec.dimSymbolId offset pytorchSym < 0 := by
  unfold SDSCSpec.dimSymbolId
  omega

/-- Read first to last, the dimensions' numbers go from one up. -/
theorem addAll_dimSymbolId :
    addAll [] ((pytorchSyms spec).map (spec.dimSymbolId 0)) =
      (List.range spec.dimSyms.length).map fun place : ℕ => -((place : ℤ) + 1) := by
  have injective : ∀ one ∈ [] ++ pytorchSyms spec, ∀ other ∈ [] ++ pytorchSyms spec,
      spec.dimSymbolId 0 one = spec.dimSymbolId 0 other → one = other := by
    intro one isOne other isOther same
    have listed : one ∈ spec.dimSyms := (mem_dimSyms spec).mpr isOne
    apply (List.idxOf_inj listed).mp
    unfold SDSCSpec.dimSymbolId at same
    omega
  have renamed := addAll_map injective
  rw [List.map_nil, ← dimSyms_eq] at renamed
  rw [renamed]
  apply List.ext_getElem
  · simp
  · intro place inside _
    rw [List.length_map] at inside
    simp only [List.getElem_map, List.getElem_range, SDSCSpec.dimSymbolId]
    rw [(nodup_dimSyms spec).idxOf_getElem place inside]
    simp

end Dimensions

/-! ## One key, one order -/

section Canonical

variable {one other : SDSCSpec Body DebugHandle} {first second : Compilation Body DebugHandle}

theorem dimToSymbolMapping_canonical (isFirst : generateSdsc 0 one 0 = some first) :
    (first.sdscJson.dimToSymbolMapping.map Prod.snd).filter (· < 0) =
      (pytorchSyms one).map (one.dimSymbolId 0) := by
  have mapping : first.sdscJson.dimToSymbolMapping = one.symbolicDims.entries.map fun entry =>
      (entry.1, one.dimSymbolId 0 entry.2.pytorchSym) := by
    unfold generateSdsc at isFirst
    split at isFirst
    next =>
      obtain ⟨scheduleTree, -, result⟩ := Option.bind_eq_some_iff.mp isFirst
      cases result
      rfl
    next => cases isFirst
  rw [mapping, List.map_map, pytorchSyms, Dict.values, List.map_map, List.map_map]
  apply List.filter_eq_self.mpr
  intro symId isDim
  obtain ⟨entry, -, rfl⟩ := List.mem_map.mp isDim
  exact decide_eq_true (dimSymbolId_neg one 0 _)

theorem extractSymbolIds_eq_of_cacheKey (isFirst : generateSdsc 0 one 0 = some first)
    (isSecond : generateSdsc 0 other 0 = some second)
    (dims : first.sdscJson.dimToSymbolMapping.Perm second.sdscJson.dimToSymbolMapping)
    (nodes : first.sdscJson.scheduleTree = second.sdscJson.scheduleTree) :
    first.sdscJson.extractSymbolIds = second.sdscJson.extractSymbolIds := by
  rw [extractSymbolIds_eq, extractSymbolIds_eq]
  have sameNodes : first.sdscJson.hbmData = second.sdscJson.hbmData := by
    rw [SdscJson.hbmData, SdscJson.hbmData, nodes]
  have sameIds := (dims.map Prod.snd).filter (· < 0)
  rw [dimToSymbolMapping_canonical isFirst, dimToSymbolMapping_canonical isSecond] at sameIds
  have sameCount : one.dimSyms.length = other.dimSyms.length := by
    have sameMembers := (List.perm_ext_iff_of_nodup
      (nodup_addAll List.nodup_nil ((pytorchSyms one).map (one.dimSymbolId 0)))
      (nodup_addAll List.nodup_nil ((pytorchSyms other).map (other.dimSymbolId 0)))).mpr (by
        intro symId
        simp only [mem_addAll, sameIds.mem_iff])
    rw [addAll_dimSymbolId, addAll_dimSymbolId] at sameMembers
    simpa using sameMembers.length_eq
  rw [sameNodes, dimToSymbolMapping_canonical isFirst, dimToSymbolMapping_canonical isSecond,
    addAll_dimSymbolId, addAll_dimSymbolId, sameCount]

theorem perm_sortDims (mapping : List (String × ℤ)) : (sortDims mapping).Perm mapping :=
  List.perm_insertionSort _ _

theorem perm_sortTags (tags : List (ℤ × String)) : (sortTags tags).Perm tags :=
  List.perm_insertionSort _ _

/-- The called program was compiled at an offset, the own one at the same or a later one, for operations
with one cache key. -/
theorem sameProgram_of_cacheKey (isFirst : generateSdsc 0 one 0 = some first)
    (isSecond : generateSdsc 0 other 0 = some second) {firstArgs secondArgs : List ℤ}
    (sameKey : first.sdscJson.cacheKey firstArgs = second.sdscJson.cacheKey secondArgs)
    (firstIdx secondIdx offset later : ℕ) :
    let called := { first.sdscJson.rename (shiftId offset) with idx := firstIdx }
    let own := { second.sdscJson.rename (shiftId (offset + later)) with idx := secondIdx }
    SameProgram (shiftId later) called own ∧
      called.extractSymbolIds.map (shiftId later) = own.extractSymbolIds := by
  obtain ⟨-, opfunc, numCoresUsed, sortedDims, nodes, sortedTags, body, -⟩ :=
    CacheKey.mk.inj sameKey
  have dims : first.sdscJson.dimToSymbolMapping.Perm second.sdscJson.dimToSymbolMapping :=
    (perm_sortDims _).symm.trans (sortedDims ▸ perm_sortDims _)
  have tags : first.sdscJson.inputSymbolsAndTags.Perm second.sdscJson.inputSymbolsAndTags :=
    (perm_sortTags _).symm.trans (sortedTags ▸ perm_sortTags _)
  constructor
  · constructor
    · exact opfunc
    · exact numCoresUsed
    · simpa [SdscJson.rename, List.map_map, Function.comp_def, shiftId_shiftId] using dims.map _
    · simp only [SdscJson.rename, List.map_map, nodes]
      apply List.map_congr_left
      intro node _
      by_cases inHbm : node.component = .hbm
      · simp [ScheduleNode.rename, inHbm, Function.comp_def, shiftId_shiftId]
      · simp [ScheduleNode.rename, inHbm]
    · simpa [SdscJson.rename, List.map_map, Function.comp_def, shiftId_shiftId] using tags.map _
    · exact body
  · have sameOrder := extractSymbolIds_eq_of_cacheKey isFirst isSecond dims nodes
    show (first.sdscJson.rename (shiftId offset)).extractSymbolIds.map (shiftId later) =
      (second.sdscJson.rename (shiftId (offset + later))).extractSymbolIds
    rw [extractSymbolIds_rename, extractSymbolIds_rename, sameOrder, List.map_map]
    apply List.map_congr_left
    intro symId _
    exact shiftId_shiftId symId

end Canonical

end TorchSpyre.Bundle
