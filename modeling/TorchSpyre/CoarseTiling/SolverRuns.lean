import TorchSpyre.CoarseTiling.Groups
import TorchSpyre.Lib.Order
import TorchSpyre.Lib.Outcome

/-!
# The runs are the groups

The solver's index of positions, read back, and the runs over it compared with the groups
of the operation list the buffers belong to.
-/

namespace TorchSpyre.CoarseTiling

open Lib

variable {Index : Type}

/-! ## The index of positions -/

/-- The buffers that have a position, with it. -/
def positioned (entries : List (CoreDivisionBuffer Index × ℕ)) : List (ℕ × ℕ) :=
  entries.filterMap fun entry => entry.1.opPosition.map fun position => (position, entry.2)

theorem foldlM_claimPosition {bufs : List (CoreDivisionBuffer Index)}
    {entries : List (CoreDivisionBuffer Index × ℕ)} {claimed : List (ℕ × ℕ)}
    (distinct : ((claimed ++ positioned entries).map Prod.fst).Nodup) :
    entries.foldlM (claimPosition bufs) claimed = .ok (claimed ++ positioned entries) := by
  induction entries generalizing claimed with
  | nil => simp [positioned, pure, Except.pure]
  | cons entry entries inductionHypothesis =>
      rw [List.foldlM_cons]
      cases hasPosition : entry.1.opPosition with
      | none =>
          have skipped : positioned (entry :: entries) = positioned entries := by
            simp [positioned, hasPosition]
          have stepped : claimPosition bufs claimed entry = .ok claimed := by
            simp [claimPosition, hasPosition]
          rw [skipped] at distinct ⊢
          rw [stepped]
          exact inductionHypothesis distinct
      | some position =>
          have entered : positioned (entry :: entries) =
              (position, entry.2) :: positioned entries := by
            simp [positioned, hasPosition]
          rw [entered, List.append_cons] at distinct
          have free : claimed.lookup position = none := by
            refine List.lookup_eq_none_iff.mpr fun other inside => ?_
            rw [List.map_append, List.map_append, List.nodup_append] at distinct
            have apart := (List.nodup_append.mp distinct.1).2.2 other.1
              (List.mem_map_of_mem inside) position (by simp)
            simpa using fun same => apart same.symm
          have stepped : claimPosition bufs claimed entry =
              .ok (claimed ++ [(position, entry.2)]) := by
            simp [claimPosition, hasPosition, free]
          rw [stepped, entered]
          exact (inductionHypothesis distinct).trans (congrArg Except.ok (List.append_cons ..).symm)

theorem eq_of_foldlM_claimPosition {bufs : List (CoreDivisionBuffer Index)}
    {entries : List (CoreDivisionBuffer Index × ℕ)} {claimed bufferAt : List (ℕ × ℕ)}
    (accepted : entries.foldlM (claimPosition bufs) claimed = .ok bufferAt) :
    bufferAt = claimed ++ positioned entries := by
  induction entries generalizing claimed with
  | nil =>
      obtain rfl := Except.ok.inj accepted
      exact (List.append_nil claimed).symm
  | cons entry entries inductionHypothesis =>
      rw [List.foldlM_cons] at accepted
      obtain ⟨next, stepped, rest⟩ := bind_eq_ok_iff.mp accepted
      rw [inductionHypothesis rest]
      cases hasPosition : entry.1.opPosition with
      | none =>
          have same : next = claimed := by simpa [claimPosition, hasPosition] using stepped.symm
          simp [same, positioned, hasPosition]
      | some position =>
          rw [claimPosition] at stepped
          simp only [hasPosition] at stepped
          split at stepped
          next =>
            obtain rfl := Except.ok.inj stepped
            simp [positioned, hasPosition]
          next => cases stepped

theorem map_fst_positioned (entries : List (CoreDivisionBuffer Index × ℕ)) :
    (positioned entries).map Prod.fst =
      (entries.map Prod.fst).filterMap CoreDivisionBuffer.opPosition := by
  rw [positioned, List.map_filterMap, List.filterMap_map]
  refine List.filterMap_congr fun entry _ => ?_
  cases hasPosition : entry.1.opPosition with
  | none => simp [hasPosition]
  | some position => simp [hasPosition]

theorem mem_positioned {bufs : List (CoreDivisionBuffer Index)} {position idx : ℕ} :
    (position, idx) ∈ positioned bufs.zipIdx ↔
      ∃ buf, bufs[idx]? = some buf ∧ buf.opPosition = some position := by
  simp only [positioned, List.mem_filterMap, List.mem_zipIdx_iff_getElem?, Option.map_eq_some_iff]
  constructor
  · rintro ⟨⟨buf, other⟩, isBuffer, found, hasPosition, same⟩
    cases same
    exact ⟨buf, isBuffer, hasPosition⟩
  · rintro ⟨buf, isBuffer, hasPosition⟩
    exact ⟨(buf, idx), isBuffer, position, hasPosition, rfl⟩

/-- The index, without the dictionaries. -/
def positionsOf (bufs : List (CoreDivisionBuffer Index)) : Positions Index where
  bufferAt := positioned bufs.zipIdx
  nPositions := ((positioned bufs.zipIdx).map fun entry => entry.1 + 1).foldl max 0
  tileReads := bufs.flatMap (readsOfBuffer bufs)

theorem eq_of_buildOperationPositions {bufs : List (CoreDivisionBuffer Index)}
    {positions : Positions Index} (built : buildOperationPositions bufs = .ok positions) :
    positions = positionsOf bufs := by
  rw [buildOperationPositions] at built
  obtain ⟨bufferAt, accepted, made⟩ := bind_eq_ok_iff.mp built
  obtain rfl := Except.ok.inj made
  have same : bufferAt = positioned bufs.zipIdx := eq_of_foldlM_claimPosition accepted
  rw [same, positionsOf]

/-- Each position of an accepted list is claimed once. -/
theorem distinct_of_foldlM_claimPosition {bufs : List (CoreDivisionBuffer Index)}
    {entries : List (CoreDivisionBuffer Index × ℕ)} {claimed bufferAt : List (ℕ × ℕ)}
    (accepted : entries.foldlM (claimPosition bufs) claimed = .ok bufferAt)
    (distinct : (claimed.map Prod.fst).Nodup) : (bufferAt.map Prod.fst).Nodup := by
  induction entries generalizing claimed with
  | nil =>
      obtain rfl := Except.ok.inj accepted
      exact distinct
  | cons entry entries inductionHypothesis =>
      rw [List.foldlM_cons] at accepted
      obtain ⟨next, stepped, rest⟩ := bind_eq_ok_iff.mp accepted
      apply inductionHypothesis rest
      rw [claimPosition] at stepped
      split at stepped
      next =>
        obtain rfl := Except.ok.inj stepped
        exact distinct
      next position _ =>
        split at stepped
        next free =>
          obtain rfl := Except.ok.inj stepped
          rw [List.map_append, List.nodup_append]
          refine ⟨distinct, List.nodup_singleton _, ?_⟩
          intro key claimedKey other isOther same
          obtain rfl : other = position := List.mem_singleton.mp isOther
          obtain ⟨claim, isClaim, rfl⟩ := List.mem_map.mp claimedKey
          have taken := List.lookup_eq_none_iff.mp free claim isClaim
          simp [same] at taken
        next => cases stepped

theorem single_of_buildOperationPositions {bufs : List (CoreDivisionBuffer Index)}
    {positions : Positions Index} (built : buildOperationPositions bufs = .ok positions) :
    (bufs.filterMap CoreDivisionBuffer.opPosition).Nodup := by
  rw [buildOperationPositions] at built
  obtain ⟨bufferAt, accepted, -⟩ := bind_eq_ok_iff.mp built
  have distinct := distinct_of_foldlM_claimPosition accepted List.nodup_nil
  have same : bufferAt = positioned bufs.zipIdx := eq_of_foldlM_claimPosition accepted
  have names : bufs.zipIdx.map Prod.fst = bufs := List.zipIdx_map_fst 0 bufs
  rwa [same, map_fst_positioned, names] at distinct

section Positions

variable {bufs : List (CoreDivisionBuffer Index)}
  (single : (bufs.filterMap CoreDivisionBuffer.opPosition).Nodup)

include single in
theorem positioned_distinct : ((positioned bufs.zipIdx).map Prod.fst).Nodup := by
  rw [map_fst_positioned]
  have names : bufs.zipIdx.map Prod.fst = bufs := List.zipIdx_map_fst 0 bufs
  rwa [names]

include single in
theorem buildOperationPositions_eq : buildOperationPositions bufs = .ok (positionsOf bufs) := by
  have built : bufs.zipIdx.foldlM (claimPosition bufs) [] = .ok (positioned bufs.zipIdx) :=
    foldlM_claimPosition (positioned_distinct single)
  rw [buildOperationPositions, built]
  rfl

include single in
theorem lookup_bufferAt {position idx : ℕ} :
    (positionsOf bufs).bufferAt.lookup position = some idx ↔
      ∃ buf, bufs[idx]? = some buf ∧ buf.opPosition = some position := by
  rw [← mem_positioned]
  constructor
  · exact mem_of_lookup
  · exact lookup_of_mem (positioned_distinct single)

end Positions

theorem lt_nPositions {bufs : List (CoreDivisionBuffer Index)} {buf : CoreDivisionBuffer Index}
    (inside : buf ∈ bufs) {position : ℕ} (hasPosition : buf.opPosition = some position) :
    position < (positionsOf bufs).nPositions := by
  obtain ⟨idx, isBuffer⟩ := List.mem_iff_getElem?.mp inside
  have entry : (position, idx) ∈ positioned bufs.zipIdx :=
    mem_positioned.2 ⟨buf, isBuffer, hasPosition⟩
  have value : position + 1 ∈ (positioned bufs.zipIdx).map fun entry => entry.1 + 1 :=
    List.mem_map.mpr ⟨(position, idx), entry, rfl⟩
  exact le_foldl_max 0 value

/-- A reader reads earlier positions only. -/
theorem earlier_of_mem_tileReads {bufs : List (CoreDivisionBuffer Index)} {reader producer : ℕ}
    {reads : TileReads Index} (isEdge : (reader, producer, reads) ∈ (positionsOf bufs).tileReads) :
    producer < reader := by
  obtain ⟨buf, -, isEdge⟩ := List.mem_flatMap.mp isEdge
  unfold readsOfBuffer at isEdge
  split at isEdge
  next => cases isEdge
  next =>
    obtain ⟨entry, -, found⟩ := List.mem_filterMap.mp isEdge
    split at found
    next => cases found
    next =>
      split at found
      next => cases found
      next earlier =>
        cases found
        exact not_le.mp earlier

theorem nPositions_le {bufs : List (CoreDivisionBuffer Index)} {bound : ℕ}
    (below : ∀ buf ∈ bufs, ∀ position, buf.opPosition = some position → position < bound) :
    (positionsOf bufs).nPositions ≤ bound := by
  refine foldl_max_le_iff.mpr ⟨Nat.zero_le bound, fun value member => ?_⟩
  obtain ⟨⟨position, idx⟩, entry, rfl⟩ := List.mem_map.mp member
  obtain ⟨buf, isBuffer, hasPosition⟩ := mem_positioned.1 entry
  exact below buf (List.mem_of_getElem? isBuffer) position hasPosition

theorem nameToIdx_eq {bufs : List (CoreDivisionBuffer Index)}
    (distinct : (bufs.map CoreDivisionBuffer.name).Nodup) {name : String} {idx : ℕ} :
    nameToIdx bufs name = some idx ↔ ∃ buf, bufs[idx]? = some buf ∧ buf.name = name := by
  unfold nameToIdx
  rw [Option.map_eq_some_iff]
  constructor
  · rintro ⟨⟨buf, other⟩, found, rfl⟩
    have member := List.mem_reverse.mp (List.mem_of_find?_eq_some found)
    have named := List.find?_some found
    exact ⟨buf, List.mem_zipIdx_iff_getElem?.mp member, by simpa using named⟩
  · rintro ⟨buf, isBuffer, named⟩
    have member : (buf, idx) ∈ bufs.zipIdx.reverse :=
      List.mem_reverse.mpr (List.mem_zipIdx_iff_getElem?.mpr isBuffer)
    cases found : bufs.zipIdx.reverse.find? fun entry => entry.1.name = name with
    | none => simpa [named] using List.find?_eq_none.mp found (buf, idx) member
    | some entry =>
        have isEntry := List.mem_zipIdx_iff_getElem?.mp
          (List.mem_reverse.mp (List.mem_of_find?_eq_some found))
        have sameName : entry.1.name = name := by simpa using List.find?_some found
        refine ⟨entry, rfl, ?_⟩
        obtain ⟨entryBound, -⟩ := List.getElem?_eq_some_iff.mp isEntry
        have sameAt : (bufs.map CoreDivisionBuffer.name)[entry.2]? =
            (bufs.map CoreDivisionBuffer.name)[idx]? := by
          rw [List.getElem?_map, List.getElem?_map, isEntry, isBuffer, Option.map_some,
            Option.map_some, sameName, named]
        exact (List.getElem?_inj (by simpa using entryBound) distinct).mp sameAt

/-- The reads of earlier positions. -/
theorem mem_tileReads {bufs : List (CoreDivisionBuffer Index)}
    (distinct : (bufs.map CoreDivisionBuffer.name).Nodup) {reader producer : ℕ}
    {reads : TileReads Index} :
    (reader, producer, reads) ∈ (positionsOf bufs).tileReads ↔
      ∃ buf ∈ bufs, buf.opPosition = some reader ∧ producer < reader ∧
        ∃ other ∈ bufs, other.opPosition = some producer ∧ (other.name, reads) ∈ buf.tileReads := by
  have ofName : ∀ name, ((nameToIdx bufs name).bind (bufs[·]?)).bind
      CoreDivisionBuffer.opPosition = some producer ↔
        ∃ other ∈ bufs, other.opPosition = some producer ∧ other.name = name := by
    intro name
    simp only [Option.bind_eq_some_iff, nameToIdx_eq distinct]
    constructor
    · rintro ⟨other, ⟨idx, ⟨same, isSame, named⟩, isOther⟩, hasPosition⟩
      cases isSame.symm.trans isOther
      exact ⟨other, List.mem_of_getElem? isOther, hasPosition, named⟩
    · rintro ⟨other, inside, hasPosition, named⟩
      obtain ⟨idx, isOther⟩ := List.mem_iff_getElem?.mp inside
      exact ⟨other, ⟨idx, ⟨other, isOther, named⟩, isOther⟩, hasPosition⟩
  simp only [positionsOf, List.mem_flatMap]
  refine exists_congr fun buf => and_congr_right fun inside => ?_
  unfold readsOfBuffer
  cases hasPosition : buf.opPosition with
  | none => simp
  | some position =>
      simp only [List.mem_filterMap, List.mem_mergeSort, Option.some.injEq]
      constructor
      · rintro ⟨entry, isEntry, found⟩
        split at found
        next => cases found
        next at' isProducer =>
          split at found
          next => cases found
          next earlier =>
            cases found
            obtain ⟨other, otherInside, otherPosition, named⟩ := (ofName entry.1).mp isProducer
            exact ⟨rfl, not_le.mp earlier, other, otherInside, otherPosition, named ▸ isEntry⟩
      · rintro ⟨rfl, earlier, other, otherInside, otherPosition, isEntry⟩
        refine ⟨(other.name, reads), isEntry, ?_⟩
        rw [(ofName other.name).mpr ⟨other, otherInside, otherPosition, rfl⟩]
        exact if_neg (not_le.mpr earlier)

/-! ## Buffers of an operation list -/

/-- The spec in force for a buffer. -/
def specInForce (chosen : ℕ → TileSpec) (override : ℕ → Option TileSpec) (idx : ℕ) : TileSpec :=
  (override idx).getD (chosen idx)

/-- The solver's buffers are outputs of the operations at their positions, the choices hold
the specs in force, and every read of an earlier solver buffer has its `TileReads`. -/
structure Corresponds (bufs : List (CoreDivisionBuffer Index))
    (operations : List (Operation Index)) (choices : String → Option TileSpec)
    (spec : ℕ → TileSpec) : Prop where
  single : (bufs.filterMap CoreDivisionBuffer.opPosition).Nodup
  bufferNames : (bufs.map CoreDivisionBuffer.name).Nodup
  operationNames : (operations.map Operation.name).Nodup
  produced : ∀ buf ∈ bufs, ∀ position, buf.opPosition = some position →
    ∃ operation, operations[position]? = some operation ∧ operation.name = buf.name
  chosen : ∀ idx buf, bufs[idx]? = some buf → ∀ position, buf.opPosition = some position →
    ∀ operation, operations[position]? = some operation → specOf choices operation = spec idx
  others : ∀ position operation, operations[position]? = some operation →
    (∀ buf ∈ bufs, buf.opPosition ≠ some position) → specOf choices operation = .untiled
  reads : ∀ buf ∈ bufs, ∀ reader, buf.opPosition = some reader →
    ∀ other ∈ bufs, ∀ producer, other.opPosition = some producer → producer < reader →
    ∀ consumer, operations[reader]? = some consumer →
    ∀ read ∈ consumer.reads, read.name = other.name →
      ∃ reads, (other.name, reads) ∈ buf.tileReads
  entries : ∀ buf ∈ bufs, ∀ reader, buf.opPosition = some reader →
    ∀ other ∈ bufs, ∀ producer, other.opPosition = some producer →
    ∀ reads, (other.name, reads) ∈ buf.tileReads →
      operations[reader]? = some reads.consumer ∧ operations[producer]? = some reads.producer

section Correspondence

variable {bufs : List (CoreDivisionBuffer Index)} {operations : List (Operation Index)}
  {choices : String → Option TileSpec} {chosen : ℕ → TileSpec} {override : ℕ → Option TileSpec}
  (corresponds : Corresponds bufs operations choices (specInForce chosen override))

include corresponds in
theorem tilingAt_eq {position : ℕ} {operation : Operation Index}
    (here : operations[position]? = some operation) :
    tilingAt (positionsOf bufs) chosen override position = specOf choices operation := by
  unfold tilingAt
  cases found : (positionsOf bufs).bufferAt.lookup position with
  | some idx =>
      obtain ⟨buf, isBuffer, hasPosition⟩ := (lookup_bufferAt corresponds.single).mp found
      exact (corresponds.chosen idx buf isBuffer position hasPosition operation here).symm
  | none =>
      refine (corresponds.others position operation here fun buf inside hasPosition => ?_).symm
      obtain ⟨idx, isBuffer⟩ := List.mem_iff_getElem?.mp inside
      rw [(lookup_bufferAt corresponds.single).mpr ⟨buf, isBuffer, hasPosition⟩] at found
      cases found

include corresponds in
/-- A tiled position has a buffer. -/
theorem exists_buffer {position : ℕ} (tiled : nestAt (positionsOf bufs) chosen override position ≠ []) :
    ∃ buf ∈ bufs, buf.opPosition = some position := by
  cases found : (positionsOf bufs).bufferAt.lookup position with
  | some idx =>
      obtain ⟨buf, isBuffer, hasPosition⟩ := (lookup_bufferAt corresponds.single).mp found
      exact ⟨buf, List.mem_of_getElem? isBuffer, hasPosition⟩
  | none =>
      rw [nestAt, tilingAt, found] at tiled
      exact absurd rfl tiled

variable (tileMisread : TileMisread Index)

include corresponds in
/-- The positions' test is the stream's. -/
theorem breaksAt_iff {position stretch : ℕ}
    (uniform : ∀ other, stretch ≤ other → other ≤ position →
      nestAt (positionsOf bufs) chosen override other =
        nestAt (positionsOf bufs) chosen override position)
    (tiled : nestAt (positionsOf bufs) chosen override position ≠ []) :
    breaksAt tileMisread (positionsOf bufs) chosen override position stretch = true ↔
      Misreads tileMisread choices operations stretch position := by
  have isTiled : (tilingAt (positionsOf bufs) chosen override position).isUntiled = false := by
    rw [← Bool.not_eq_true]
    exact fun untiled => tiled (TileSpec.levelCounts_eq_nil.mpr untiled)
  obtain ⟨buf, bufInside, hasPosition⟩ := exists_buffer corresponds tiled
  obtain ⟨reader, isReader, -⟩ := corresponds.produced buf bufInside position hasPosition
  simp only [breaksAt, isTiled, Bool.false_eq_true, if_false, List.any_eq_true, List.mem_filter,
    decide_eq_true_eq, Bool.and_eq_true, Bool.not_eq_true']
  constructor
  · rintro ⟨⟨at', producerAt, reads⟩, ⟨isEdge, rfl⟩, above, misaligned⟩
    obtain ⟨owner, ownerInside, ownerPosition, earlier, other, otherInside, otherPosition, isEntry⟩ :=
      (mem_tileReads corresponds.bufferNames).mp isEdge
    obtain ⟨isConsumer, isProducer⟩ := corresponds.entries owner ownerInside at' ownerPosition
      other otherInside producerAt otherPosition reads isEntry
    rw [← Bool.not_eq_true, TileReads.aligned, List.all_eq_true] at misaligned
    push Not at misaligned
    obtain ⟨read, isRead, misread⟩ := misaligned
    obtain ⟨inReads, named⟩ := List.mem_filter.mp isRead
    refine ⟨reads.consumer, isConsumer, producerAt, reads.producer, above, earlier, isProducer, read,
      inReads, by simpa using named, ?_⟩
    rw [tilingAt_eq corresponds isProducer, tilingAt_eq corresponds isConsumer] at misread
    exact Option.isSome_iff_ne_none.mpr (by simpa using misread)
  · rintro ⟨consumer, isConsumer, producerAt, producer, above, earlier, isProducer, read, isRead,
      named, misread⟩
    have producerTiled : nestAt (positionsOf bufs) chosen override producerAt ≠ [] := by
      rw [uniform producerAt above (le_of_lt earlier)]
      exact tiled
    obtain ⟨other, otherInside, otherPosition⟩ := exists_buffer corresponds producerTiled
    obtain ⟨output, isOutput, outputName⟩ :=
      corresponds.produced other otherInside producerAt otherPosition
    obtain rfl : producer = output := Option.some.inj (isProducer.symm.trans isOutput)
    obtain ⟨reads, isEntry⟩ := corresponds.reads buf bufInside position hasPosition other otherInside
      producerAt otherPosition earlier consumer isConsumer read isRead (named.trans outputName)
    obtain ⟨sameConsumer, sameProducer⟩ := corresponds.entries buf bufInside position hasPosition
      other otherInside producerAt otherPosition reads isEntry
    have consumerEq : reads.consumer = consumer :=
      Option.some.inj (sameConsumer.symm.trans isConsumer)
    have producerEq : reads.producer = producer :=
      Option.some.inj (sameProducer.symm.trans isProducer)
    refine ⟨(position, producerAt, reads), ⟨(mem_tileReads corresponds.bufferNames).mpr
      ⟨buf, bufInside, hasPosition, earlier, other, otherInside, otherPosition, isEntry⟩, rfl⟩,
      above, ?_⟩
    rw [← Bool.not_eq_true, TileReads.aligned, List.all_eq_true, consumerEq, producerEq,
      tilingAt_eq corresponds isProducer, tilingAt_eq corresponds isConsumer]
    intro aligned
    have noMisread := aligned read (List.mem_filter.mpr ⟨isRead, by simpa using named⟩)
    rw [Option.isNone_iff_eq_none.mp noMisread] at misread
    cases misread

include corresponds in
theorem agrees_of_corresponds :
    Agrees tileMisread choices operations (positionsOf bufs).nPositions
      (nestAt (positionsOf bufs) chosen override)
      (breaksAt tileMisread (positionsOf bufs) chosen override) := by
  refine ⟨?_, corresponds.operationNames, ?_, ?_, ?_⟩
  · refine nPositions_le fun buf inside position hasPosition => ?_
    obtain ⟨operation, here, -⟩ := corresponds.produced buf inside position hasPosition
    exact (List.getElem?_eq_some_iff.mp here).1
  · intro position _ operation here
    rw [nestAt, tilingAt_eq corresponds here]
  · intro position stretch untiled
    rw [breaksAt, if_pos (TileSpec.levelCounts_eq_nil.mp untiled)]
  · exact fun position stretch _ _ uniform tiled => breaksAt_iff corresponds tileMisread uniform tiled

include corresponds in
theorem untiled_behind {operation : Operation Index}
    (behind : operation ∈ operations.drop (positionsOf bufs).nPositions) :
    (specOf choices operation).levelCounts = [] := by
  obtain ⟨offset, here⟩ := List.mem_iff_getElem?.mp behind
  rw [List.getElem?_drop] at here
  rw [corresponds.others _ operation here]
  · rfl
  · intro buf inside hasPosition
    have before := lt_nPositions inside hasPosition
    omega

end Correspondence

/-- The tiled runs are the groups, in order; all runs together partition the positions, and
`_run_bounds` is the run that contains its position. -/
theorem runs_are_groups {bufs : List (CoreDivisionBuffer Index)}
    {operations : List (Operation Index)} {choices : String → Option TileSpec}
    {chosen : ℕ → TileSpec} {override : ℕ → Option TileSpec} (tileMisread : TileMisread Index)
    (corresponds : Corresponds bufs operations choices (specInForce chosen override)) :
    ∃ positions, buildOperationPositions bufs = .ok positions ∧
      let found := runs tileMisread positions chosen override
      let nest := nestAt positions chosen override
      ((found.filter fun run => nest run.1 ≠ []).map fun run =>
          (slice operations run.1 run.2, nest run.1)) =
        deriveTilingGroups tileMisread choices operations ∧
      (∀ run ∈ found, ∀ position, run.1 ≤ position → position ≤ run.2 →
        nest position = nest run.1) ∧
      Covers 0 found positions.nPositions ∧
      ∀ position < positions.nPositions, ∃ run,
        runBounds tileMisread positions chosen override position = some run ∧ run ∈ found ∧
        run.1 ≤ position ∧ position ≤ run.2 ∧
        ∀ other ∈ found, other.1 ≤ position → position ≤ other.2 → other = run := by
  refine ⟨positionsOf bufs, buildOperationPositions_eq corresponds.single, ?_⟩
  intro found nest
  have covers : Covers 0 found (positionsOf bufs).nPositions :=
    runs_cover tileMisread (positionsOf bufs) chosen override
  refine ⟨?_, ?_, covers, ?_⟩
  · rw [deriveTilingGroups_eq (agrees_of_corresponds corresponds tileMisread)
      fun operation behind => untiled_behind corresponds behind]
    change _ = found.flatMap (groupOf operations nest)
    induction found with
    | nil => rfl
    | cons run rest inductionHypothesis =>
        rw [List.flatMap_cons, List.filter_cons, groupOf]
        split <;> simp_all
  · intro run isRun position lower upper
    rcases Nat.eq_zero_or_pos (positionsOf bufs).nPositions with isEmpty | isPositive
    · simp only [found, runs, isEmpty, runsFrom] at isRun
      cases isRun
    · simp only [found, runs] at isRun
      rw [runsFrom_eq_scan isPositive (by omega)] at isRun
      refine scan_uniform (fun other above below => ?_) isRun lower upper
      rw [le_antisymm below above]
  · intro position inside
    obtain ⟨run, isFound, member, lower, upper⟩ := covers_find covers (Nat.zero_le position) inside
    exact ⟨run, isFound, member, lower, upper, fun other isOther above below =>
      covers_unique covers isOther member ⟨above, below⟩ ⟨lower, upper⟩⟩

/-- Two operations on one nest, and one without a buffer. -/
def pairOperations : List (Operation Unit) :=
  [⟨"op0", "buf0", []⟩, ⟨"op1", "buf1", [⟨"buf0", ()⟩]⟩, ⟨"op2", "buf2", [⟨"buf1", ()⟩]⟩]

def pairBuffers : List (CoreDivisionBuffer Unit) :=
  [⟨"buf0", some 0, []⟩,
    ⟨"buf1", some 1, [("buf0", ⟨⟨"op0", "buf0", []⟩, ⟨"op1", "buf1", [⟨"buf0", ()⟩]⟩⟩)]⟩]

def halves : TileSpec := ⟨[⟨0, 2, false⟩]⟩

def pairChoices (name : String) : Option TileSpec := if name = "op2" then none else some halves

/-- The second operation walks the first one's output across its tiles. -/
def pairMisread : TileMisread Unit := fun producer _ consumer _ _ =>
  if producer.name = "buf0" ∧ consumer.name = "buf1" then some "buf1 does not read buf0" else none

theorem pair_corresponds :
    Corresponds pairBuffers pairOperations pairChoices (specInForce (fun _ => halves) fun _ => none) where
  single := by decide
  bufferNames := by decide
  operationNames := by decide
  produced buf inside position hasPosition := by
    simp only [pairBuffers, List.mem_cons, List.not_mem_nil, or_false] at inside
    rcases inside with rfl | rfl
    · cases hasPosition
      exact ⟨_, rfl, rfl⟩
    · cases hasPosition
      exact ⟨_, rfl, rfl⟩
  chosen idx buf isBuffer position hasPosition operation here := by
    have inside := List.mem_of_getElem? isBuffer
    simp only [pairBuffers, List.mem_cons, List.not_mem_nil, or_false] at inside
    rcases inside with rfl | rfl
    · cases hasPosition
      cases here
      rfl
    · cases hasPosition
      cases here
      rfl
  others position operation here free := by
    have notFirst : position ≠ 0 := by
      rintro rfl
      exact free ⟨"buf0", some 0, []⟩ List.mem_cons_self rfl
    have notSecond : position ≠ 1 := by
      rintro rfl
      exact free _ (List.mem_cons_of_mem _ List.mem_cons_self) rfl
    have bound := (List.getElem?_eq_some_iff.mp here).1
    simp only [pairOperations, List.length_cons, List.length_nil] at bound
    obtain rfl : position = 2 := by omega
    cases here
    rfl
  reads buf inside reader hasReader other otherInside producer hasProducer earlier consumer here read
      isRead named := by
    simp only [pairBuffers, List.mem_cons, List.not_mem_nil, or_false] at inside otherInside
    rcases inside with rfl | rfl
    · cases hasReader
      omega
    · rcases otherInside with rfl | rfl
      · exact ⟨_, List.mem_singleton.mpr rfl⟩
      · cases hasReader
        cases hasProducer
        omega
  entries buf inside reader hasReader other otherInside producer hasProducer reads isEntry := by
    simp only [pairBuffers, List.mem_cons, List.not_mem_nil, or_false] at inside otherInside
    rcases inside with rfl | rfl
    · cases isEntry
    · rcases otherInside with rfl | rfl
      · cases hasReader
        cases hasProducer
        cases List.mem_singleton.mp isEntry
        exact ⟨rfl, rfl⟩
      · have sameName : "buf1" = "buf0" := congrArg Prod.fst (List.mem_singleton.mp isEntry)
        exact absurd sameName (by decide)

/-- The misread cuts the pair into two runs. -/
theorem pair_runs :
    ∃ positions, buildOperationPositions pairBuffers = .ok positions ∧
      ((runs pairMisread positions (fun _ => halves) (fun _ => none)).filter (fun run =>
          nestAt positions (fun _ => halves) (fun _ => none) run.1 ≠ [])).map (fun run =>
            (slice pairOperations run.1 run.2).map Operation.name) = [["buf0"], ["buf1"]] := by
  obtain ⟨positions, built, groups, -⟩ := runs_are_groups pairMisread pair_corresponds
  refine ⟨positions, built, ?_⟩
  have named := congrArg (List.map fun group => group.1.map Operation.name) groups
  rw [List.map_map] at named
  refine Eq.trans named ?_
  decide

end TorchSpyre.CoarseTiling
