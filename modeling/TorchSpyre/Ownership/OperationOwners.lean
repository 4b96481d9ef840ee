import TorchSpyre.Lib.Linear
import TorchSpyre.Ownership.CoreDigits

/-!
# Operation mappings agree with the tensors' owners

The owners that the tensors ask for are gathered into one expression per
dimension; a mapping that meets these agrees with every tensor, and the search
over orders of the constrained dimensions misses none.
-/

namespace TorchSpyre.Ownership

open Lib Lib.Symbolic Lib.Positional

/-! ## Owners on every core -/

/-- Two formulas name the same slot on every core. -/
def SameOwner (numCores : ℕ) (left right : Expr) : Prop :=
  ∀ core < numCores, ∃ slot, ownerAtCore left core = some slot ∧ ownerAtCore right core = some slot

theorem coreMappingsEqual_single {numCores : ℕ} (positive : 0 < numCores) (dim : Symbol)
    (left right : Expr) :
    coreMappingsEqual [(dim, left)] [(dim, right)] numCores = true ↔
      SameOwner numCores left right := by
  simp only [coreMappingsEqual, positive, decide_true, Bool.true_and, List.all_cons, List.all_nil,
    List.map_cons, List.map_nil, List.contains_cons, List.contains_nil, beq_self_eq_true,
    Bool.true_or, Bool.and_true, List.lookup_cons_self, Option.bind_some, List.all_eq_true,
    List.mem_range, SameOwner]
  apply forall_congr'
  intro core
  apply imp_congr_right
  intro inside
  cases ownerAtCore left core with
  | none => simp
  | some leftSlot =>
      cases ownerAtCore right core with
      | none => simp
      | some rightSlot => simp [eq_comm]

theorem meets_iff {mapping constrained : List (Symbol × Expr)} {numCores : ℕ}
    (positive : 0 < numCores) :
    meets mapping constrained numCores = true ↔ ∀ entry ∈ constrained, ∃ formula,
      mapping.lookup entry.1 = some formula ∧ SameOwner numCores formula entry.2 := by
  rw [meets, List.all_eq_true]
  apply forall_congr'
  intro entry
  apply imp_congr_right
  intro listed
  cases found : mapping.lookup entry.1 with
  | none => simp
  | some formula =>
      simp only [Option.some.injEq, exists_eq_left']
      exact coreMappingsEqual_single positive entry.1 formula entry.2

/-! ## Gathering the owners -/

/-- An owner slot that a tensor asks for: the tensor, a dimension and its split. -/
abbrev Request := TensorWorkDivision × Symbol × ℕ

def requestsOf (division : TensorWorkDivision) : List Request :=
  division.workSlices.map (division, ·)

def requests (tensorDivisions : List (Option TensorWorkDivision)) : List Request :=
  (tensorDivisions.filterMap id).flatMap requestsOf

/-- One expression per dimension that a tensor splits, with the owners of all the tensors. -/
structure Gathers (pairs : List (Symbol × ℕ)) (numCores : ℕ) (asked : List Request)
    (constrained : List (Symbol × Expr)) : Prop where
  distinct : (constrained.map Prod.fst).Nodup
  named : ∀ dim ∈ constrained.map Prod.fst, ∃ division split, (division, dim, split) ∈ asked ∧
    1 < split
  met : ∀ division dim split, (division, dim, split) ∈ asked → 1 < split →
    pairs.lookup dim = some split ∧ ∃ formula first,
      division.coreIdToWorkSlice.lookup dim = some formula ∧
      constrained.lookup dim = some first ∧ SameOwner numCores first formula

section Gathering

variable {pairs : List (Symbol × ℕ)} {numCores : ℕ} {asked : List Request}
  {constrained next : List (Symbol × Expr)} {division : TensorWorkDivision}

theorem gathers_nil (pairs : List (Symbol × ℕ)) (numCores : ℕ) : Gathers pairs numCores [] [] := by
  refine ⟨List.nodup_nil, ?_, ?_⟩
  · intro dim listed
    cases listed
  · intro division dim split isAsked
    cases isAsked

/-- A request that leaves the gathered owners as they are. -/
theorem Gathers.keep (gathers : Gathers pairs numCores asked constrained) {request : Request}
    (met : 1 < request.2.2 → pairs.lookup request.2.1 = some request.2.2 ∧ ∃ formula first,
      request.1.coreIdToWorkSlice.lookup request.2.1 = some formula ∧
      constrained.lookup request.2.1 = some first ∧ SameOwner numCores first formula) :
    Gathers pairs numCores (asked ++ [request]) constrained := by
  refine ⟨gathers.distinct, ?_, ?_⟩
  · intro dim listed
    obtain ⟨older, split, isAsked, large⟩ := gathers.named dim listed
    exact ⟨older, split, List.mem_append_left _ isAsked, large⟩
  · intro other dim split isAsked large
    rcases List.mem_append.mp isAsked with older | newest
    · exact gathers.met other dim split older large
    · cases List.mem_singleton.mp newest
      exact met large

/-- A request for a dimension of its own. -/
theorem Gathers.add (gathers : Gathers pairs numCores asked constrained) {dim : Symbol} {split : ℕ}
    (large : 1 < split) (known : pairs.lookup dim = some split) {formula : Expr}
    (owned : division.coreIdToWorkSlice.lookup dim = some formula)
    (fresh : constrained.lookup dim = none) (integral : SameOwner numCores formula formula) :
    Gathers pairs numCores (asked ++ [(division, dim, split)]) (constrained ++ [(dim, formula)]) := by
  have missing : dim ∉ constrained.map Prod.fst := by
    intro listed
    obtain ⟨entry, isEntry, rfl⟩ := List.mem_map.mp listed
    rw [lookup_of_mem gathers.distinct isEntry] at fresh
    cases fresh
  refine ⟨?_, ?_, ?_⟩
  · rw [List.map_append, List.map_singleton]
    apply List.Nodup.append gathers.distinct (List.nodup_singleton _)
    rw [List.disjoint_singleton]
    exact missing
  · intro name listed
    rw [List.map_append, List.mem_append] at listed
    rcases listed with older | newest
    · obtain ⟨other, count, isAsked, isLarge⟩ := gathers.named name older
      exact ⟨other, count, List.mem_append_left _ isAsked, isLarge⟩
    · obtain rfl := List.mem_singleton.mp newest
      exact ⟨division, split, List.mem_append_right _ (List.mem_singleton_self _), large⟩
  · intro other name count isAsked isLarge
    rcases List.mem_append.mp isAsked with older | newest
    · obtain ⟨known, theirs, first, ownedToo, kept, agrees⟩ :=
        gathers.met other name count older isLarge
      refine ⟨known, theirs, first, ownedToo, ?_, agrees⟩
      rw [List.lookup_append, kept, Option.some_or]
    · cases List.mem_singleton.mp newest
      refine ⟨known, formula, formula, owned, ?_, integral⟩
      rw [List.lookup_append, fresh, Option.none_or, List.lookup_cons_self]

variable (positive : 0 < numCores)

include positive

/-- A dimension is passed over, adds its owners, or has the owners that are there. -/
theorem constrainDim_eq_ok_iff {entry : Symbol × ℕ} :
    constrainDim pairs numCores division constrained entry = .ok next ↔
      (entry.2 ≤ 1 ∧ next = constrained) ∨
      (1 < entry.2 ∧ pairs.lookup entry.1 = some entry.2 ∧ ∃ formula,
        division.coreIdToWorkSlice.lookup entry.1 = some formula ∧
        ((constrained.lookup entry.1 = none ∧ SameOwner numCores formula formula ∧
            next = constrained ++ [(entry.1, formula)]) ∨
          ∃ first, constrained.lookup entry.1 = some first ∧ SameOwner numCores first formula ∧
            next = constrained)) := by
  unfold constrainDim
  split
  next small =>
    simp only [small, not_lt.mpr small, true_and, false_and, or_false, Except.ok.injEq]
    exact eq_comm
  next large =>
    rw [not_le] at large
    simp only [not_le.mpr large, false_and, false_or, large, true_and]
    cases pairs.lookup entry.1 with
    | none => simp
    | some own =>
        dsimp only
        by_cases same : own = entry.2
        · rw [if_neg (not_not.mpr same), same]
          cases division.coreIdToWorkSlice.lookup entry.1 with
          | none => simp
          | some formula =>
              cases constrained.lookup entry.1 with
              | none => simp [ite_eq_ok_iff, coreMappingsEqual_single positive]
              | some first => simp [ite_eq_ok_iff, coreMappingsEqual_single positive]
        · rw [if_pos same]
          simp [same]

theorem gathers_constrainDim (gathers : Gathers pairs numCores asked constrained)
    {entry : Symbol × ℕ} (stepped : constrainDim pairs numCores division constrained entry = .ok next) :
    Gathers pairs numCores (asked ++ [(division, entry)]) next := by
  rcases (constrainDim_eq_ok_iff positive).mp stepped with
    ⟨small, rfl⟩ | ⟨large, known, formula, owned, ⟨fresh, integral, rfl⟩ | ⟨first, kept, agrees, rfl⟩⟩
  · exact gathers.keep fun large => absurd large (not_lt.mpr small)
  · exact gathers.add large known owned fresh integral
  · exact gathers.keep fun _ => ⟨known, formula, first, owned, kept, agrees⟩

theorem gathers_constrainDims (gathers : Gathers pairs numCores asked constrained)
    {entries : List (Symbol × ℕ)}
    (stepped : entries.foldlM (constrainDim pairs numCores division) constrained = .ok next) :
    Gathers pairs numCores (asked ++ entries.map (division, ·)) next := by
  induction entries generalizing asked constrained with
  | nil =>
      cases stepped
      rwa [List.map_nil, List.append_nil]
  | cons entry entries inductionHypothesis =>
      obtain ⟨middle, first, rest⟩ := bind_eq_ok_iff.mp stepped
      rw [List.map_cons, List.append_cons]
      exact inductionHypothesis (gathers_constrainDim positive gathers first) rest

theorem gathers_constrainDivisions (gathers : Gathers pairs numCores asked constrained)
    {tensorDivisions : List (Option TensorWorkDivision)}
    (stepped : tensorDivisions.foldlM (constrainDivision pairs numCores) constrained = .ok next) :
    Gathers pairs numCores (asked ++ requests tensorDivisions) next := by
  induction tensorDivisions generalizing asked constrained with
  | nil =>
      cases stepped
      rwa [requests, List.filterMap_nil, List.flatMap_nil, List.append_nil]
  | cons tensor tensorDivisions inductionHypothesis =>
      obtain ⟨middle, first, rest⟩ := bind_eq_ok_iff.mp stepped
      cases tensor with
      | none =>
          cases first
          exact inductionHypothesis gathers rest
      | some division =>
          obtain ⟨-, folded⟩ := of_guard first
          have all : asked ++ requests (some division :: tensorDivisions) =
              (asked ++ requestsOf division) ++ requests tensorDivisions := by
            rw [List.append_assoc]
            rfl
          rw [all]
          exact inductionHypothesis (gathers_constrainDims positive gathers folded) rest

/-- The formula names the given slot of its dimension on every core. -/
def Owned (numCores : ℕ) (slots : Symbol → ℕ → ℕ) (dim : Symbol) (formula : Expr) : Prop :=
  ∀ core < numCores, ownerAtCore formula core = some (slots dim core : ℤ)

/-- The dimension is split as the operation splits it, and owned by the given slots. -/
def Serves (pairs : List (Symbol × ℕ)) (numCores : ℕ) (slots : Symbol → ℕ → ℕ)
    (division : TensorWorkDivision) (entry : Symbol × ℕ) : Prop :=
  pairs.lookup entry.1 = some entry.2 ∧ ∃ formula,
    division.coreIdToWorkSlice.lookup entry.1 = some formula ∧ Owned numCores slots entry.1 formula

omit positive in
theorem Owned.same {slots : Symbol → ℕ → ℕ} {dim : Symbol} {left right : Expr}
    (leftOwned : Owned numCores slots dim left) (rightOwned : Owned numCores slots dim right) :
    SameOwner numCores left right :=
  fun core inside => ⟨_, leftOwned core inside, rightOwned core inside⟩

/-- Requests for the slots of one map are gathered without an error. -/
theorem exists_constrainDims {slots : Symbol → ℕ → ℕ}
    (owned : ∀ entry ∈ constrained, Owned numCores slots entry.1 entry.2)
    {entries : List (Symbol × ℕ)}
    (served : ∀ entry ∈ entries, 1 < entry.2 → Serves pairs numCores slots division entry) :
    ∃ next, entries.foldlM (constrainDim pairs numCores division) constrained = .ok next ∧
      ∀ entry ∈ next, Owned numCores slots entry.1 entry.2 := by
  induction entries generalizing constrained with
  | nil => exact ⟨constrained, rfl, owned⟩
  | cons entry entries inductionHypothesis =>
      rw [List.forall_mem_cons] at served
      have step : ∃ middle, constrainDim pairs numCores division constrained entry = .ok middle ∧
          ∀ entry ∈ middle, Owned numCores slots entry.1 entry.2 := by
        rcases Nat.lt_or_ge 1 entry.2 with large | small
        · obtain ⟨known, formula, found, slotOwned⟩ := served.1 large
          cases kept : constrained.lookup entry.1 with
          | none =>
              refine ⟨_, (constrainDim_eq_ok_iff positive).mpr (.inr ⟨large, known, formula, found,
                .inl ⟨kept, slotOwned.same slotOwned, rfl⟩⟩), ?_⟩
              intro other listed
              rcases List.mem_append.mp listed with older | newest
              · exact owned other older
              · cases List.mem_singleton.mp newest
                exact slotOwned
          | some first =>
              have firstOwned := owned _ (mem_of_lookup kept)
              exact ⟨_, (constrainDim_eq_ok_iff positive).mpr (.inr ⟨large, known, formula, found,
                .inr ⟨first, kept, firstOwned.same slotOwned, rfl⟩⟩), owned⟩
        · exact ⟨_, (constrainDim_eq_ok_iff positive).mpr (.inl ⟨small, rfl⟩), owned⟩
      obtain ⟨middle, stepped, middleOwned⟩ := step
      obtain ⟨next, folded, nextOwned⟩ := inductionHypothesis middleOwned served.2
      exact ⟨next, bind_eq_ok_iff.mpr ⟨middle, stepped, folded⟩, nextOwned⟩

theorem exists_constrainDivisions {slots : Symbol → ℕ → ℕ}
    (owned : ∀ entry ∈ constrained, Owned numCores slots entry.1 entry.2)
    {tensorDivisions : List (Option TensorWorkDivision)}
    (served : ∀ division, some division ∈ tensorDivisions →
      division.physicalCoreCount = numCores ∧
      ∀ entry ∈ division.workSlices, 1 < entry.2 → Serves pairs numCores slots division entry) :
    ∃ next, tensorDivisions.foldlM (constrainDivision pairs numCores) constrained = .ok next ∧
      ∀ entry ∈ next, Owned numCores slots entry.1 entry.2 := by
  induction tensorDivisions generalizing constrained with
  | nil => exact ⟨constrained, rfl, owned⟩
  | cons tensor tensorDivisions inductionHypothesis =>
      have step : ∃ middle, constrainDivision pairs numCores constrained tensor = .ok middle ∧
          ∀ entry ∈ middle, Owned numCores slots entry.1 entry.2 := by
        cases tensor with
        | none => exact ⟨constrained, rfl, owned⟩
        | some division =>
            obtain ⟨sameCores, entries⟩ := served division List.mem_cons_self
            obtain ⟨middle, folded, middleOwned⟩ := exists_constrainDims positive owned entries
            refine ⟨middle, ?_, middleOwned⟩
            rw [constrainDivision, if_neg (not_not.mpr sameCores), folded]
      obtain ⟨middle, stepped, middleOwned⟩ := step
      obtain ⟨next, folded, nextOwned⟩ := inductionHypothesis middleOwned
        fun division listed => served division (List.mem_cons_of_mem _ listed)
      exact ⟨next, bind_eq_ok_iff.mpr ⟨middle, stepped, folded⟩, nextOwned⟩

end Gathering

theorem firstMeeting_eq_ok {candidate : List Symbol → Except MappingError (List (Symbol × Expr))}
    {constrained mapping : List (Symbol × Expr)} {numCores : ℕ} {orders : List (List Symbol)}
    (returned : firstMeeting candidate constrained numCores orders = .ok mapping) :
    ∃ order ∈ orders, candidate order = .ok mapping ∧ meets mapping constrained numCores = true := by
  induction orders with
  | nil => cases returned
  | cons order orders inductionHypothesis =>
      obtain ⟨first, derived, returned⟩ := bind_eq_ok_iff.mp returned
      split at returned
      next met =>
        cases returned
        exact ⟨order, List.mem_cons_self, derived, met⟩
      next =>
        obtain ⟨later, listed, found⟩ := inductionHypothesis returned
        exact ⟨later, List.mem_cons_of_mem _ listed, found⟩

theorem exists_firstMeeting {candidate : List Symbol → Except MappingError (List (Symbol × Expr))}
    {constrained : List (Symbol × Expr)} {numCores : ℕ} {orders : List (List Symbol)}
    (derived : ∀ order ∈ orders, ∃ mapping, candidate order = .ok mapping)
    (met : ∃ order ∈ orders, ∃ mapping, candidate order = .ok mapping ∧
      meets mapping constrained numCores = true) :
    ∃ mapping, firstMeeting candidate constrained numCores orders = .ok mapping := by
  induction orders with
  | nil =>
      obtain ⟨order, listed, -⟩ := met
      cases listed
  | cons order orders inductionHypothesis =>
      obtain ⟨first, isFirst⟩ := derived order List.mem_cons_self
      by_cases here : meets first constrained numCores = true
      · refine ⟨first, bind_eq_ok_iff.mpr ⟨first, isFirst, ?_⟩⟩
        rw [if_pos here]
        rfl
      · obtain ⟨mapping, later⟩ := inductionHypothesis
          (fun other listed => derived other (List.mem_cons_of_mem _ listed)) (by
            obtain ⟨other, listed, mapping, isMapping, meetsIt⟩ := met
            rcases List.mem_cons.mp listed with rfl | later
            · rw [isFirst] at isMapping
              cases isMapping
              exact absurd meetsIt here
            · exact ⟨other, later, mapping, isMapping, meetsIt⟩)
        refine ⟨mapping, bind_eq_ok_iff.mpr ⟨first, isFirst, ?_⟩⟩
        rw [if_neg here]
        exact later

/-! ## The operation's mapping -/

section Operation

variable {sympy : Sympy} (keeps : KeepsSymbols sympy) {space : Dict Symbol (Expr × ℕ)}
  {tensorDivisions : List (Option TensorWorkDivision)} {contiguousDim : Option Symbol}
  {constrained : List (Symbol × Expr)}

theorem splitPairs_distinct (space : Dict Symbol (Expr × ℕ)) :
    ((splitPairs space).map Prod.fst).Nodup := by
  rw [splitPairs, List.map_map]
  exact space.distinct

theorem map_fst_groupedBy (pairs : List (Symbol × ℕ)) (order : List Symbol) :
    (groupedBy pairs order).map Prod.fst = order := by
  rw [groupedBy, List.map_map]
  exact List.map_id order

theorem groupedBy_map_fst {pairs outer : List (Symbol × ℕ)}
    (distinct : (pairs.map Prod.fst).Nodup) (listed : ∀ entry ∈ outer, entry ∈ pairs) :
    groupedBy pairs (outer.map Prod.fst) = outer := by
  rw [groupedBy, List.map_map]
  refine (List.map_congr_left fun entry isOuter => ?_).trans (List.map_id outer)
  have known := lookup_of_mem distinct (listed entry isOuter)
  simp [known]

variable (positive : ∀ entry ∈ splitPairs space, 0 < entry.2)
  (gathers : Gathers (splitPairs space) (capacity (splitPairs space)) (requests tensorDivisions)
    constrained)

include positive gathers in
/-- Every order of the constrained dimensions is a grouping of the operation. -/
theorem groups_of_perm {order : List Symbol} (permuted : order.Perm (constrained.map Prod.fst)) :
    Groups (splitPairs space) (groupedBy (splitPairs space) order) := by
  refine ⟨splitPairs_distinct space, positive, ?_, ?_⟩
  · rw [map_fst_groupedBy]
    exact permuted.nodup_iff.mpr gathers.distinct
  · intro entry listed
    obtain ⟨dim, inOrder, rfl⟩ := List.mem_map.mp listed
    obtain ⟨division, split, isAsked, large⟩ := gathers.named dim (permuted.mem_iff.mp inOrder)
    obtain ⟨known, -⟩ := gathers.met division dim split isAsked large
    rw [known, Option.getD_some]
    exact mem_of_lookup known

theorem orders_perm {order : List Symbol} :
    order ∈ permutationsOf constrained.length
      ((constrained.map Prod.fst).insertionSort (· ≤ ·)) ↔
        order.Perm (constrained.map Prod.fst) := by
  have sorted := List.perm_insertionSort (· ≤ ·) (constrained.map Prod.fst)
  have sameLength : ((constrained.map Prod.fst).insertionSort (· ≤ ·)).length =
      constrained.length := by
    rw [sorted.length_eq, List.length_map]
  rw [mem_permutationsOf sameLength]
  exact ⟨fun permuted => permuted.trans sorted, fun permuted => permuted.trans sorted.symm⟩

include keeps positive gathers in
theorem derive_of_perm {order : List Symbol} (permuted : order.Perm (constrained.map Prod.fst))
    (nonempty : constrained ≠ []) :
    ∃ mapping, deriveCoreMapping sympy ((splitPairs space).map Prod.fst)
        ((splitPairs space).map Prod.snd) (capacity (splitPairs space)) contiguousDim
        (groupedBy (splitPairs space) order) = .ok mapping ∧
      Follows mapping (innerOrder (splitPairs space) (groupedBy (splitPairs space) order)
        contiguousDim ++ groupedBy (splitPairs space) order) := by
  apply deriveCoreMapping_grouped keeps (groups_of_perm positive gathers permuted)
  intro empty
  rw [← map_fst_groupedBy (splitPairs space) order, empty] at permuted
  exact nonempty (List.map_eq_nil_iff.mp (List.nil_perm.mp permuted))

include keeps positive in
/-- A returned mapping is a numbering of the cores that meets the gathered owners. -/
theorem deriveOperationMapping_follows {mapping : List (Symbol × Expr)}
    (returned : deriveOperationMapping sympy space tensorDivisions contiguousDim = .ok mapping) :
    ∃ order constrained, order.Perm (splitPairs space) ∧ Follows mapping order ∧
      Gathers (splitPairs space) (capacity (splitPairs space)) (requests tensorDivisions)
        constrained ∧
      meets mapping constrained (capacity (splitPairs space)) = true := by
  have coresPositive := capacity_pos positive
  obtain ⟨constrained, gathered, returned⟩ := bind_eq_ok_iff.mp returned
  have gathers := gathers_constrainDivisions coresPositive (gathers_nil _ _) gathered
  rw [List.nil_append] at gathers
  obtain ⟨default, derived, follows⟩ :=
    @deriveCoreMapping_default (splitPairs space) contiguousDim sympy positive
  have defaultPerm : (defaultOrder (splitPairs space) contiguousDim).Perm (splitPairs space) :=
    contiguousFirst_perm _ _
  split at returned
  next empty =>
    rw [derived] at returned
    cases returned
    exact ⟨_, constrained, defaultPerm, follows, gathers, by rw [empty]; rfl⟩
  next nonempty =>
    rw [derived] at returned
    change (if meets default constrained _ = true then _ else _) = _ at returned
    split at returned
    next met =>
      cases returned
      exact ⟨_, constrained, defaultPerm, follows, gathers, met⟩
    next =>
      split at returned
      next => cases returned
      next =>
        obtain ⟨order, listed, isCandidate, met⟩ := firstMeeting_eq_ok returned
        have permuted := orders_perm.1 listed
        obtain ⟨candidate, derivedToo, candidateFollows⟩ :=
          @derive_of_perm _ keeps _ _ contiguousDim _ positive gathers _ permuted nonempty
        rw [derivedToo] at isCandidate
        cases isCandidate
        refine ⟨_, constrained, ?_, candidateFollows, gathers, met⟩
        exact ((innerOrder_perm _ _ _).append_right _).trans
          (groups_of_perm positive gathers permuted).perm

/-- The dimensions that some tensor splits. -/
def Constrained (tensorDivisions : List (Option TensorWorkDivision)) (dim : Symbol) : Prop :=
  ∃ division, some division ∈ tensorDivisions ∧ ∃ split, (dim, split) ∈ division.workSlices ∧
    1 < split

/-- Numbering the cores in this order gives every tensor its owners. -/
def Satisfies (space : Dict Symbol (Expr × ℕ)) (order : List (Symbol × ℕ))
    (tensorDivisions : List (Option TensorWorkDivision)) : Prop :=
  ∀ division, some division ∈ tensorDivisions →
    division.physicalCoreCount = capacity (splitPairs space) ∧
    ∀ entry ∈ division.workSlices, 1 < entry.2 →
      Serves (splitPairs space) (capacity (splitPairs space)) (digitOf order) division entry

theorem mem_requests {division : TensorWorkDivision} {entry : Symbol × ℕ} :
    (division, entry) ∈ requests tensorDivisions ↔
      some division ∈ tensorDivisions ∧ entry ∈ division.workSlices := by
  simp only [requests, requestsOf, List.mem_flatMap, List.mem_filterMap, id_eq, List.mem_map,
    Prod.mk.injEq]
  constructor
  · rintro ⟨other, ⟨_, listed, rfl⟩, _, isEntry, rfl, rfl⟩
    exact ⟨listed, isEntry⟩
  · rintro ⟨listed, isEntry⟩
    exact ⟨division, ⟨_, listed, rfl⟩, entry, isEntry, rfl, rfl⟩

include gathers in
theorem mem_constrained_iff {dim : Symbol} :
    dim ∈ constrained.map Prod.fst ↔ Constrained tensorDivisions dim := by
  constructor
  · intro listed
    obtain ⟨division, split, isAsked, large⟩ := gathers.named dim listed
    obtain ⟨isTensor, isEntry⟩ := mem_requests.1 isAsked
    exact ⟨division, isTensor, split, isEntry, large⟩
  · rintro ⟨division, isTensor, split, isEntry, large⟩
    obtain ⟨-, -, first, -, kept, -⟩ :=
      gathers.met division dim split (mem_requests.2 ⟨isTensor, isEntry⟩) large
    exact List.mem_map_of_mem (mem_of_lookup kept)

/-- A mapping in an order with the wanted digits meets the owners. -/
theorem Follows.meets {mapping : List (Symbol × Expr)} {order : List (Symbol × ℕ)} {numCores : ℕ}
    {slots : Symbol → ℕ → ℕ} (coresPositive : 0 < numCores) (follows : Follows mapping order)
    (owned : ∀ entry ∈ constrained, Owned numCores slots entry.1 entry.2)
    (listed : ∀ entry ∈ constrained, entry.1 ∈ order.map Prod.fst)
    (digits : ∀ entry ∈ constrained, ∀ core, digitOf order entry.1 core = slots entry.1 core) :
    Ownership.meets mapping constrained numCores = true := by
  apply (meets_iff coresPositive).mpr
  intro entry isEntry
  obtain ⟨formula, found, only, evaluated⟩ := follows entry.1 (listed entry isEntry)
  refine ⟨formula, found, ?_⟩
  have formulaOwned : Owned numCores slots entry.1 formula := by
    intro core inside
    rw [← digits entry isEntry core]
    exact Expr.integerAt_of_nat only (evaluated _)
  exact formulaOwned.same (owned entry isEntry)

include keeps positive in
/-- If some order with the constrained dimensions outermost, or the default one, gives every tensor
its owners, a mapping is returned. -/
theorem deriveOperationMapping_returns {order : List (Symbol × ℕ)}
    (satisfies : Satisfies space order tensorDivisions)
    (admitted : order = defaultOrder (splitPairs space) contiguousDim ∨
      ∃ inner outer, order = inner ++ outer ∧ order.Perm (splitPairs space) ∧
        outer.length ≤ maxOwnerPermutationDims ∧
        ∀ dim, dim ∈ outer.map Prod.fst ↔ Constrained tensorDivisions dim) :
    ∃ mapping, deriveOperationMapping sympy space tensorDivisions contiguousDim = .ok mapping := by
  have coresPositive := capacity_pos positive
  obtain ⟨constrained, gathered, owned⟩ : ∃ constrained,
      tensorDivisions.foldlM
        (constrainDivision (splitPairs space) (capacity (splitPairs space))) [] = .ok constrained ∧
      ∀ entry ∈ constrained, Owned (capacity (splitPairs space)) (digitOf order) entry.1 entry.2 :=
    exists_constrainDivisions coresPositive (fun _ listed => absurd listed List.not_mem_nil) satisfies
  have gathers := gathers_constrainDivisions coresPositive (gathers_nil _ _) gathered
  rw [List.nil_append] at gathers
  obtain ⟨default, derived, follows⟩ :=
    @deriveCoreMapping_default (splitPairs space) contiguousDim sympy positive
  have inPairs : ∀ entry ∈ constrained, entry.1 ∈ (splitPairs space).map Prod.fst := by
    intro entry listed
    obtain ⟨division, split, isAsked, large⟩ := gathers.named entry.1 (List.mem_map_of_mem listed)
    obtain ⟨known, -⟩ := gathers.met division entry.1 split isAsked large
    exact List.mem_map_of_mem (mem_of_lookup known)
  rw [deriveOperationMapping, gathered]
  change ∃ mapping, (if constrained = [] then _ else _) = Except.ok mapping
  split
  next => exact ⟨default, derived⟩
  next nonempty =>
    rw [derived]
    change ∃ mapping, (if meets default constrained _ = true then _ else _) = Except.ok mapping
    split
    next => exact ⟨default, rfl⟩
    next unmet =>
      rcases admitted with rfl | ⟨inner, outer, rfl, permuted, few, outermost⟩
      · refine absurd (follows.meets coresPositive owned ?_ fun _ _ _ => rfl) unmet
        intro entry listed
        exact ((contiguousFirst_perm _ _).map Prod.fst).mem_iff.mpr (inPairs entry listed)
      · have distinct := (permuted.map Prod.fst).nodup_iff.mpr (splitPairs_distinct space)
        rw [List.map_append] at distinct
        have dims : (outer.map Prod.fst).Perm (constrained.map Prod.fst) := by
          apply (List.perm_ext_iff_of_nodup distinct.of_append_right gathers.distinct).mpr
          intro dim
          rw [outermost, mem_constrained_iff gathers]
        have sameLength : constrained.length = outer.length := by
          rw [← List.length_map Prod.fst, ← dims.length_eq, List.length_map]
        rw [if_neg (not_lt.mpr (sameLength ▸ few))]
        apply exists_firstMeeting
        · intro order listed
          obtain ⟨mapping, derivedToo, -⟩ :=
            @derive_of_perm _ keeps _ _ contiguousDim _ positive gathers _ (orders_perm.mp listed)
              nonempty
          exact ⟨mapping, derivedToo⟩
        · have regrouped := groupedBy_map_fst (splitPairs_distinct space) fun entry listed =>
            permuted.mem_iff.mp (List.mem_append_right inner listed)
          obtain ⟨mapping, derivedToo, mappingFollows⟩ :=
            @derive_of_perm _ keeps _ _ contiguousDim _ positive gathers _ dims nonempty
          have groups := groups_of_perm positive gathers dims
          rw [regrouped] at mappingFollows groups
          refine ⟨_, orders_perm.mpr dims, mapping, derivedToo,
            mappingFollows.meets coresPositive owned ?_ ?_⟩
          · intro entry listed
            rw [List.map_append]
            exact List.mem_append_right _ (dims.mem_iff.mpr (List.mem_map_of_mem listed))
          · intro entry listed core
            have isOuter := dims.mem_iff.mpr (List.mem_map_of_mem listed)
            have sameInner : capacity (localPairs (splitPairs space) outer) = capacity inner := by
              apply Nat.eq_of_mul_eq_mul_right (capacity_pos groups.groupedPositive)
              rw [← groups.capacity_eq, ← capacity_append, capacity_perm permuted]
            rw [digitOf_append_of_not_mem fun isInner => not_grouped_of_inner isInner isOuter,
              digitOf_append_of_not_mem fun isInner => List.disjoint_of_nodup_append distinct isInner
                isOuter, capacity_perm (innerOrder_perm _ _ _), sameInner]

end Operation

/-- A returned mapping puts the cores in bijection with the slot tuples and agrees with every
tensor's owners; one is returned whenever the default order, or an order with the constrained
dimensions outermost, gives every tensor its owners. -/
theorem deriveOperationMapping_exact {sympy : Sympy} (keeps : KeepsSymbols sympy)
    (space : Dict Symbol (Expr × ℕ)) (positive : ∀ entry ∈ splitPairs space, 0 < entry.2)
    (tensorDivisions : List (Option TensorWorkDivision)) (contiguousDim : Option Symbol) :
    (∀ mapping, deriveOperationMapping sympy space tensorDivisions contiguousDim = .ok mapping →
      (∀ entry ∈ splitPairs space, ∀ core, ∃ slot < entry.2,
        slotOf mapping entry.1 core = some (slot : ℤ)) ∧
      (∀ wanted : Symbol → ℕ, (∀ entry ∈ splitPairs space, wanted entry.1 < entry.2) →
        ∃! core, core < capacity (splitPairs space) ∧
          ∀ entry ∈ splitPairs space, slotOf mapping entry.1 core = some (wanted entry.1 : ℤ)) ∧
      ∀ division, some division ∈ tensorDivisions → ∀ entry ∈ division.workSlices, 1 < entry.2 →
        ∃ formula, division.coreIdToWorkSlice.lookup entry.1 = some formula ∧
          ∀ core < capacity (splitPairs space), ∃ slot,
            ownerAtCore formula core = some slot ∧ slotOf mapping entry.1 core = some slot) ∧
    ((∃ order, Satisfies space order tensorDivisions ∧
        (order = defaultOrder (splitPairs space) contiguousDim ∨
          ∃ inner outer, order = inner ++ outer ∧ order.Perm (splitPairs space) ∧
            outer.length ≤ maxOwnerPermutationDims ∧
            ∀ dim, dim ∈ outer.map Prod.fst ↔ Constrained tensorDivisions dim)) →
      ∃ mapping, deriveOperationMapping sympy space tensorDivisions contiguousDim =
        .ok mapping) := by
  have distinct := splitPairs_distinct space
  constructor
  · intro mapping returned
    obtain ⟨order, constrained, permuted, follows, gathers, met⟩ :=
      deriveOperationMapping_follows keeps positive returned
    have orderDistinct := (permuted.map Prod.fst).nodup_iff.mpr distinct
    have slots : ∀ entry ∈ splitPairs space, ∀ core,
        slotOf mapping entry.1 core = some (digitOf order entry.1 core : ℤ) := by
      intro entry listed core
      apply follows.slotOf_eq
      exact List.mem_map_of_mem (permuted.mem_iff.mpr listed)
    refine ⟨?_, ?_, ?_⟩
    · intro entry listed core
      refine ⟨_, ?_, slots entry listed core⟩
      exact digitOf_lt orderDistinct (positive entry listed) (permuted.mem_iff.mpr listed) core
    · intro wanted below
      obtain ⟨core, ⟨inside, digits⟩, unique⟩ := existsUnique_digits orderDistinct wanted
        fun entry listed => below entry (permuted.mem_iff.mp listed)
      rw [capacity_perm permuted] at inside
      refine ⟨core, ⟨inside, ?_⟩, ?_⟩
      · intro entry listed
        rw [slots entry listed, digits entry (permuted.mem_iff.mpr listed)]
      · rintro other ⟨otherInside, otherSlots⟩
        apply unique
        refine ⟨(capacity_perm permuted).symm ▸ otherInside, ?_⟩
        intro entry listed
        have isEntry := permuted.mem_iff.mp listed
        have same := (slots entry isEntry other).symm.trans (otherSlots entry isEntry)
        exact_mod_cast Option.some.inj same
    · intro division isTensor entry isEntry large
      obtain ⟨-, formula, first, owned, kept, agrees⟩ := gathers.met division entry.1 entry.2
        (mem_requests.mpr ⟨isTensor, isEntry⟩) large
      obtain ⟨own, found, ownAgrees⟩ :=
        (meets_iff (capacity_pos positive)).mp met _ (mem_of_lookup kept)
      refine ⟨formula, owned, ?_⟩
      intro core inside
      obtain ⟨slot, firstSlot, formulaSlot⟩ := agrees core inside
      obtain ⟨ownSlot, isOwn, sameFirst⟩ := ownAgrees core inside
      rw [firstSlot] at sameFirst
      cases sameFirst
      refine ⟨slot, formulaSlot, ?_⟩
      rw [slotOf, found, Option.bind_some, isOwn]
  · rintro ⟨order, satisfies, admitted⟩
    exact deriveOperationMapping_returns keeps positive satisfies admitted

/-- Eight batches cut in two and sixteen heads cut in four. -/
def attentionSpace : Dict Symbol (Expr × ℕ) :=
  ⟨[("batch", .const 8, 2), ("head", .const 16, 4)], by decide⟩

/-- A tensor whose batches lie in the two halves of the cores. -/
def batchHalves : TensorWorkDivision where
  workSlices := [("batch", 2)]
  coreIdToWorkSlice := [("batch", .floor (.mul (.const (1 / 4)) (.sym coreId)))]
  numCores := some 8

/-- The default order puts neighbouring batches on neighbouring cores; the search does not. -/
theorem attention_exact :
    ∃ mapping, deriveOperationMapping affineSympy attentionSpace [some batchHalves] none =
        .ok mapping ∧
      (∀ wanted : Symbol → ℕ, (∀ entry ∈ splitPairs attentionSpace, wanted entry.1 < entry.2) →
        ∃! core, core < capacity (splitPairs attentionSpace) ∧
          ∀ entry ∈ splitPairs attentionSpace,
            slotOf mapping entry.1 core = some (wanted entry.1 : ℤ)) ∧
      ∀ core < 8, ∃ slot, ownerAtCore (.floor (.mul (.const (1 / 4)) (.sym coreId))) core =
        some slot ∧ slotOf mapping "batch" core = some slot := by
  have keeps : KeepsSymbols affineSympy := fun _ _ found =>
    Expr.mem_freeSymbols_of_affineNormal found
  have sound := (deriveOperationMapping_exact keeps attentionSpace (by decide)
    [some batchHalves] none).1
  have returns : (deriveOperationMapping affineSympy attentionSpace [some batchHalves]
      none).toOption.isSome = true := by decide +kernel
  cases returned : deriveOperationMapping affineSympy attentionSpace [some batchHalves] none with
  | error exception =>
      rw [returned] at returns
      cases returns
  | ok mapping =>
      obtain ⟨-, bijective, agrees⟩ := sound mapping returned
      obtain ⟨formula, found, onCores⟩ := agrees batchHalves List.mem_cons_self ("batch", 2)
        List.mem_cons_self (by decide)
      cases found
      exact ⟨mapping, rfl, bijective, onCores⟩

end TorchSpyre.Ownership
