import Mathlib
import TorchSpyre.Bundle.Execution

/-!
# Every symbol has a name that is declared

Each declaration reads names declared before it, and each symbol resolves to a name whose value is the
address that the symbol stands for.
-/

namespace TorchSpyre.Bundle

open Lib

/-! ## Declarations in order -/

def Definition.uses : Definition → List SsaName
  | .addi base _ => [base]
  | _ => []

/-- The definitions that a name is given. -/
inductive Fits : SsaName → Definition → Prop where
  | arg (argIndex : ℤ) : Fits (.arg argIndex) (.argExtract argIndex)
  | shard (argIndex : ℤ) (coreIdx : ℕ) : Fits (.shard argIndex coreIdx) (.shardExtract argIndex coreIdx)
  | dimension (sdscIdx ordinal : ℕ) (pytorchSym : String) :
      Fits (.dimension sdscIdx ordinal) (.dimensionExtract pytorchSym)
  | slice (argIndex offset : ℤ) : Fits (.slice argIndex offset) (.addi (.arg argIndex) offset)
  | core (base : SsaName) (offset : ℤ) : Fits (.core base offset) (.addi base offset)
  | poolAddr (offset : ℤ) : Fits (.poolAddr offset) (.poolAddi offset)
  | sym (number : ℕ) (value : ℤ) : Fits (.sym number) (.constant value)

abbrev Declarations := List (SsaName × Definition)

/-- Each name is declared once, behind the names that its definition reads. -/
inductive Declared : Declarations → Prop where
  | nil : Declared []
  | snoc {declarations : Declarations} {name : SsaName} {definition : Definition}
      (earlier : Declared declarations) (fresh : name ∉ declarations.map Prod.fst)
        (fits : Fits name definition)
      (known : ∀ used ∈ definition.uses, used ∈ declarations.map Prod.fst) :
      Declared (declarations ++ [(name, definition)])

def Declarations.values (declarations : Declarations) (arguments : Arguments) : Env :=
  declarations.foldl (fun env declaration =>
    Function.update env declaration.1 (declaration.2.value arguments env)) fun _ => none

/-- The address that a name stands for. -/
def SsaName.address (arguments : Arguments) : SsaName → Option ℤ
  | .arg argIndex => some (arguments.arg argIndex)
  | .shard argIndex coreIdx => some (arguments.shard argIndex coreIdx)
  | .slice argIndex offset => some (arguments.arg argIndex + offset)
  | .core base offset => (base.address arguments).map (· + offset)
  | .poolAddr offset => some (arguments.pool + offset)
  | _ => none

section Values

variable {declarations : Declarations} {arguments : Arguments}

theorem values_snoc (declarations : Declarations) (arguments : Arguments) (name : SsaName)
    (definition : Definition) :
    Declarations.values (declarations ++ [(name, definition)]) arguments =
      Function.update (declarations.values arguments) name
        (definition.value arguments (declarations.values arguments)) := by
  simp [Declarations.values]

theorem Declared.isSome_values (declared : Declared declarations) {name : SsaName}
    (listed : name ∈ declarations.map Prod.fst) :
        ∃ value, declarations.values arguments name = some value := by
  induction declared generalizing name with
  | nil => cases listed
  | @snoc declarations last definition _ fresh fits known inductionHypothesis =>
      rw [values_snoc]
      rw [List.map_append, List.mem_append, List.map_singleton, List.mem_singleton] at listed
      by_cases isLast : name = last
      · subst isLast
        rw [Function.update_self]
        cases fits with
        | arg argIndex => exact ⟨_, rfl⟩
        | shard argIndex coreIdx => exact ⟨_, rfl⟩
        | dimension sdscIdx ordinal pytorchSym => exact ⟨_, rfl⟩
        | poolAddr offset => exact ⟨_, rfl⟩
        | sym number value => exact ⟨_, rfl⟩
        | slice argIndex offset =>
            obtain ⟨value, isValue⟩ := inductionHypothesis (known _ (List.mem_singleton_self _))
            exact ⟨value + offset, by rw [Definition.value, isValue, Option.map_some]⟩
        | core base offset =>
            obtain ⟨value, isValue⟩ := inductionHypothesis (known _ (List.mem_singleton_self _))
            exact ⟨value + offset, by rw [Definition.value, isValue, Option.map_some]⟩
      · rw [Function.update_of_ne isLast]
        exact inductionHypothesis (listed.resolve_right isLast)

theorem Declared.values_eq_address (declared : Declared declarations) {name : SsaName} {address : ℤ}
    (listed : name ∈ declarations.map Prod.fst) (isAddress : name.address arguments = some address) :
    declarations.values arguments name = some address := by
  induction declared generalizing name address with
  | nil => cases listed
  | @snoc declarations last definition _ fresh fits known inductionHypothesis =>
      rw [values_snoc]
      rw [List.map_append, List.mem_append, List.map_singleton, List.mem_singleton] at listed
      by_cases isLast : name = last
      · subst isLast
        rw [Function.update_self]
        cases fits with
        | arg argIndex => exact isAddress
        | shard argIndex coreIdx => exact isAddress
        | dimension sdscIdx ordinal pytorchSym => cases isAddress
        | poolAddr offset => exact isAddress
        | sym number value => cases isAddress
        | slice argIndex offset =>
            rw [Definition.value, inductionHypothesis (known _ (List.mem_singleton_self _)) rfl]
            exact isAddress
        | core base offset =>
            obtain ⟨value, isBase, rfl⟩ := Option.map_eq_some_iff.mp isAddress
            rw [Definition.value, inductionHypothesis (known _ (List.mem_singleton_self _)) isBase,
              Option.map_some]
      · rw [Function.update_of_ne isLast]
        exact inductionHypothesis (listed.resolve_right isLast) isAddress

theorem declared_of_nodup (distinct : (declarations.map Prod.fst).Nodup)
    (fits : ∀ declaration ∈ declarations, Fits declaration.1 declaration.2)
    (closed : ∀ declaration ∈ declarations, declaration.2.uses = []) : Declared declarations := by
  induction declarations using List.reverseRecOn with
  | nil => exact .nil
  | append_singleton declarations last inductionHypothesis =>
      rw [List.map_append, List.nodup_append] at distinct
      apply Declared.snoc
      · apply inductionHypothesis distinct.1
        · exact fun declaration inside => fits declaration (List.mem_append_left _ inside)
        · exact fun declaration inside => closed declaration (List.mem_append_left _ inside)
      · exact fun inside => distinct.2.2 _ inside _ (by simp) rfl
      · exact fits last (by simp)
      · rw [closed last (by simp)]
        exact fun _ impossible => absurd impossible List.not_mem_nil

end Values

/-! ## The first symbol of a key -/

section Canonical

variable {Key : Type} [DecidableEq Key] {key : SymbolKind → Option Key} {kinds : List SymbolKind}

variable (key) in
theorem exists_canonicalIdx {symIdx : ℕ} {kind : SymbolKind} {value : Key}
    (isKind : kinds[symIdx]? = some kind)
    (isKey : key kind = some value) :
    ∃ canonical, canonicalIdx key kinds symIdx = some canonical ∧ canonical ∈ canonicalSyms key kinds ∧
      (kinds[canonical]?).bind key = some value := by
  have inside : kind ∈ kinds := List.mem_of_getElem? isKind
  obtain ⟨canonical, found⟩ :
    ∃ canonical, kinds.findIdx? (fun other => key other = some value) = some canonical := by
    apply Option.isSome_iff_exists.mp
    rw [List.findIdx?_isSome, List.any_eq_true]
    exact ⟨kind, inside, by simpa using isKey⟩
  obtain ⟨below, same, -⟩ := List.findIdx?_eq_some_iff_getElem.mp found
  have sameKey : key kinds[canonical] = some value := by simpa using same
  refine ⟨canonical, by simp [canonicalIdx, isKind, isKey, found], ?_, by simp [below, sameKey]⟩
  rw [canonicalSyms, List.mem_filter, List.mem_range]
  exact ⟨below, by simp [canonicalIdx, below, sameKey, found]⟩

theorem canonicalIdx_eq_none {symIdx : ℕ} {kind : SymbolKind} (isKind : kinds[symIdx]? = some kind)
    (noKey : key kind = none) : canonicalIdx key kinds symIdx = none := by
  simp [canonicalIdx, isKind, noKey]

/-- Two canonical symbols have different keys. -/
theorem canonicalSyms_injective {one other : ℕ} {value : Key} (isOne : one ∈ canonicalSyms key kinds)
    (isOther : other ∈ canonicalSyms key kinds) (keyOne : (kinds[one]?).bind key = some value)
    (keyOther : (kinds[other]?).bind key = some value) : one = other := by
  rw [canonicalSyms, List.mem_filter, decide_eq_true_eq] at isOne isOther
  obtain ⟨kind, isKind, isKey⟩ := Option.bind_eq_some_iff.mp keyOne
  obtain ⟨otherKind, isOtherKind, isOtherKey⟩ := Option.bind_eq_some_iff.mp keyOther
  have first := isOne.2
  have second := isOther.2
  simp only [canonicalIdx, isKind, isKey, Option.bind_some] at first
  simp only [canonicalIdx, isOtherKind, isOtherKey, Option.bind_some] at second
  rw [first] at second
  exact Option.some.inj second

theorem nodup_canonical_names {name : ℕ → Option (SsaName × Definition)}
    (keyOf : ∀ symIdx declaration, symIdx ∈ canonicalSyms key kinds → name symIdx = some declaration →
      ∀ otherIdx other, otherIdx ∈ canonicalSyms key kinds → name otherIdx = some other →
        declaration.1 = other.1 → symIdx = otherIdx) :
    (((canonicalSyms key kinds).filterMap name).map Prod.fst).Nodup := by
  have distinct : (canonicalSyms key kinds).Nodup := List.nodup_range.filter _
  rw [List.map_filterMap]
  have apart := List.Pairwise.and_mem.mp distinct
  apply List.Pairwise.filterMap _ _ apart
  rintro one other ⟨isOne, isOther, different⟩ first isFirst second isSecond
  obtain ⟨declaration, isDeclaration, rfl⟩ := Option.map_eq_some_iff.mp isFirst
  obtain ⟨behind, isBehind, rfl⟩ := Option.map_eq_some_iff.mp isSecond
  exact fun same => different (keyOf one declaration isOne isDeclaration other behind isOther isBehind same)

end Canonical

/-! ## Dimensions -/

section Dimensions

theorem mem_localOrigins {sdscIdx ordinal : ℕ} {kinds : List SymbolKind} {origin : ℕ × ℕ}
    (listed : some origin ∈ localOrigins sdscIdx ordinal kinds) : origin.1 = sdscIdx ∧
        ordinal < origin.2 := by
  induction kinds generalizing ordinal with
  | nil => cases listed
  | cons kind kinds inductionHypothesis =>
      rw [localOrigins] at listed
      split at listed
      next =>
        rcases List.mem_cons.mp listed with same | later
        · cases same
          exact ⟨rfl, Nat.lt_succ_self _⟩
        · exact ⟨(inductionHypothesis later).1, Nat.lt_of_succ_lt (inductionHypothesis later).2⟩
      next =>
        rcases List.mem_cons.mp listed with same | later
        · cases same
        · exact inductionHypothesis later

def DifferentOrigins (one other : Option (ℕ × ℕ)) : Prop := ∀ origin, one = some origin → other ≠ some origin

theorem localOrigins_pairwise (sdscIdx ordinal : ℕ) (kinds : List SymbolKind) :
    (localOrigins sdscIdx ordinal kinds).Pairwise DifferentOrigins := by
  induction kinds generalizing ordinal with
  | nil => exact .nil
  | cons kind kinds inductionHypothesis =>
      rw [localOrigins]
      split
      next =>
        refine List.pairwise_cons.mpr ⟨?_, inductionHypothesis _⟩
        rintro other later origin same rfl
        cases same
        exact absurd (mem_localOrigins later).2 (lt_irrefl _)
      next =>
        refine List.pairwise_cons.mpr ⟨?_, inductionHypothesis _⟩
        rintro other later origin same
        cases same

theorem dimOrigins_pairwise (kindsOfSdscs : List (List SymbolKind)) :
    (dimOrigins kindsOfSdscs).Pairwise DifferentOrigins := by
  unfold dimOrigins
  rw [List.pairwise_flatMap]
  refine ⟨fun kinds _ => localOrigins_pairwise _ _ _, ?_⟩
  have distinct : (kindsOfSdscs.zipIdx.map Prod.snd).Nodup := by
    rw [List.zipIdx_map_snd]
    exact List.nodup_range' ..
  apply (List.pairwise_map.mp distinct).imp
  rintro one other different first inFirst second inSecond origin rfl rfl
  exact different ((mem_localOrigins inFirst).1.symm.trans (mem_localOrigins inSecond).1)

theorem dimOrigins_injective {kindsOfSdscs : List (List SymbolKind)} {one other : ℕ} {origin : ℕ × ℕ}
    (isOne : (dimOrigins kindsOfSdscs)[one]? = some (some origin))
    (isOther : (dimOrigins kindsOfSdscs)[other]? = some (some origin)) : one = other := by
  obtain ⟨oneInside, isFirst⟩ := List.getElem?_eq_some_iff.mp isOne
  obtain ⟨otherInside, isSecond⟩ := List.getElem?_eq_some_iff.mp isOther
  have apart := List.pairwise_iff_getElem.mp (dimOrigins_pairwise kindsOfSdscs)
  rcases lt_trichotomy one other with before | same | behind
  · exact absurd isSecond (apart one other oneInside otherInside before origin isFirst)
  · exact same
  · exact absurd isFirst (apart other one otherInside oneInside behind origin isSecond)

def HasOrigin (kind : SymbolKind) (origin : Option (ℕ × ℕ)) : Prop := (dimensionKey kind).isSome →
    origin.isSome

theorem hasOrigin_localOrigins (sdscIdx ordinal : ℕ) (kinds : List SymbolKind) :
    List.Forall₂ HasOrigin kinds (localOrigins sdscIdx ordinal kinds) := by
  induction kinds generalizing ordinal with
  | nil => exact .nil
  | cons kind kinds inductionHypothesis =>
      rw [localOrigins]
      split
      next => exact .cons (fun _ => rfl) (inductionHypothesis _)
      next noKey => exact .cons (fun isKey => absurd isKey noKey) (inductionHypothesis _)

theorem hasOrigin_zipIdx (kindsOfSdscs : List (List SymbolKind)) (start : ℕ) :
    List.Forall₂ HasOrigin kindsOfSdscs.flatten
      ((kindsOfSdscs.zipIdx start).flatMap fun kinds => localOrigins kinds.2 0 kinds.1) := by
  induction kindsOfSdscs generalizing start with
  | nil => exact .nil
  | cons kinds rest inductionHypothesis =>
      rw [List.zipIdx_cons, List.flatMap_cons, List.flatten_cons]
      exact List.rel_append (hasOrigin_localOrigins _ _ _) (inductionHypothesis _)

theorem exists_dimOrigin {kindsOfSdscs : List (List SymbolKind)} {symIdx : ℕ} {kind : SymbolKind}
    (isKind : kindsOfSdscs.flatten[symIdx]? = some kind) (isDimension : (dimensionKey kind).isSome) :
    ∃ origin, (dimOrigins kindsOfSdscs)[symIdx]? = some (some origin) := by
  have aligned := hasOrigin_zipIdx kindsOfSdscs 0
  obtain ⟨inside, same⟩ := List.getElem?_eq_some_iff.mp isKind
  have bounded : symIdx < (dimOrigins kindsOfSdscs).length := aligned.length_eq ▸ inside
  have hasOrigin := List.forall₂_iff_get.mp aligned |>.2 symIdx inside bounded
  rw [List.get_eq_getElem, same] at hasOrigin
  obtain ⟨origin, isOrigin⟩ := Option.isSome_iff_exists.mp (hasOrigin isDimension)
  exact ⟨origin, List.getElem?_eq_some_iff.mpr ⟨bounded, isOrigin⟩⟩

theorem exists_dimensionName {kindsOfSdscs : List (List SymbolKind)} {symIdx : ℕ} {kind : SymbolKind}
    {pytorchSym : String} (isKind : kindsOfSdscs.flatten[symIdx]? = some kind)
    (isDimension : dimensionKey kind = some pytorchSym) :
    ∃ canonical origin, canonical ∈ canonicalSyms dimensionKey kindsOfSdscs.flatten ∧
      (kindsOfSdscs.flatten[canonical]?).bind dimensionKey = some pytorchSym ∧
      (dimOrigins kindsOfSdscs)[canonical]? = some (some origin) ∧
      dimensionName kindsOfSdscs symIdx = some (.dimension origin.1 origin.2) := by
  obtain ⟨canonical, found, isCanonical, sameKey⟩ := exists_canonicalIdx dimensionKey isKind isDimension
  obtain ⟨canonicalKind, isCanonicalKind, isKey⟩ := Option.bind_eq_some_iff.mp sameKey
  obtain ⟨origin, isOrigin⟩ := exists_dimOrigin isCanonicalKind (isKey ▸ rfl)
  refine ⟨canonical, origin, isCanonical, sameKey, isOrigin, ?_⟩
  rw [dimensionName, found, Option.bind_some, isOrigin, Option.join_some, Option.map_some]

end Dimensions

/-! ## What the parameters give -/

section Extracted

variable (kindsOfSdscs : List (List SymbolKind))

def argDeclaration (kinds : List SymbolKind) (symIdx : ℕ) : Option (SsaName × Definition) :=
  (kinds[symIdx]?).bind fun kind => (kernelKey kind).map fun argIndex => (.arg argIndex, .argExtract argIndex)

def shardDeclaration (kinds : List SymbolKind) (symIdx : ℕ) : Option (SsaName × Definition) :=
  (kinds[symIdx]?).bind fun kind =>
    (shardKey kind).map fun key => (.shard key.1 key.2, .shardExtract key.1 key.2)

def dimensionDeclaration (symIdx : ℕ) : Option (SsaName × Definition) :=
  (kindsOfSdscs.flatten[symIdx]?).bind fun kind =>
    (dimensionKey kind).bind fun pytorchSym =>
      (dimensionName kindsOfSdscs symIdx).map fun name => (name, .dimensionExtract pytorchSym)

theorem extracted_declarations : (Preamble.extracted kindsOfSdscs).declarations =
    ((canonicalSyms kernelKey kindsOfSdscs.flatten).filterMap (argDeclaration kindsOfSdscs.flatten)) ++
      ((canonicalSyms shardKey kindsOfSdscs.flatten).filterMap (shardDeclaration kindsOfSdscs.flatten)) ++
      ((canonicalSyms dimensionKey kindsOfSdscs.flatten).filterMap (dimensionDeclaration kindsOfSdscs)) := rfl

variable {kindsOfSdscs}

theorem argDeclaration_eq_some {kinds : List SymbolKind} {symIdx : ℕ} {declaration : SsaName × Definition}
    (found : argDeclaration kinds symIdx = some declaration) : ∃ argIndex,
      (kinds[symIdx]?).bind kernelKey = some argIndex ∧
        declaration = (.arg argIndex, .argExtract argIndex) := by
  obtain ⟨kind, isKind, isKey⟩ := Option.bind_eq_some_iff.mp found
  obtain ⟨argIndex, isArg, rfl⟩ := Option.map_eq_some_iff.mp isKey
  exact ⟨argIndex, by rw [isKind, Option.bind_some, isArg], rfl⟩

theorem shardDeclaration_eq_some {kinds : List SymbolKind} {symIdx : ℕ} {declaration : SsaName × Definition}
    (found : shardDeclaration kinds symIdx = some declaration) : ∃ key,
      (kinds[symIdx]?).bind shardKey = some key ∧
        declaration = (.shard key.1 key.2, .shardExtract key.1 key.2) := by
  obtain ⟨kind, isKind, isKey⟩ := Option.bind_eq_some_iff.mp found
  obtain ⟨key, isShard, rfl⟩ := Option.map_eq_some_iff.mp isKey
  exact ⟨key, by rw [isKind, Option.bind_some, isShard], rfl⟩

theorem dimensionDeclaration_eq_some {symIdx : ℕ} {declaration : SsaName × Definition}
    (canonical : symIdx ∈ canonicalSyms dimensionKey kindsOfSdscs.flatten)
    (found : dimensionDeclaration kindsOfSdscs symIdx = some declaration) : ∃ origin pytorchSym,
      (dimOrigins kindsOfSdscs)[symIdx]? = some (some origin) ∧
        declaration = (.dimension origin.1 origin.2, .dimensionExtract pytorchSym) := by
  obtain ⟨kind, isKind, isRest⟩ := Option.bind_eq_some_iff.mp found
  obtain ⟨pytorchSym, isKey, isName⟩ := Option.bind_eq_some_iff.mp isRest
  obtain ⟨name, named, rfl⟩ := Option.map_eq_some_iff.mp isName
  rw [canonicalSyms, List.mem_filter, decide_eq_true_eq] at canonical
  rw [dimensionName, canonical.2, Option.bind_some] at named
  obtain ⟨origin, isOrigin, rfl⟩ := Option.map_eq_some_iff.mp named
  exact ⟨origin, pytorchSym, Option.join_eq_some_iff.mp isOrigin, rfl⟩

theorem declared_extracted : Declared (Preamble.extracted kindsOfSdscs).declarations := by
  rw [extracted_declarations]
  apply declared_of_nodup
  · rw [List.map_append, List.map_append]
    refine List.nodup_append.mpr ⟨List.nodup_append.mpr ⟨?_, ?_, ?_⟩, ?_, ?_⟩
    · apply nodup_canonical_names
      intro one declaration isOne found other behind isOther foundOther same
      obtain ⟨argIndex, keyOne, rfl⟩ := argDeclaration_eq_some found
      obtain ⟨otherIndex, keyOther, rfl⟩ := argDeclaration_eq_some foundOther
      cases same
      exact canonicalSyms_injective isOne isOther keyOne keyOther
    · apply nodup_canonical_names
      intro one declaration isOne found other behind isOther foundOther same
      obtain ⟨⟨argIndex, core⟩, keyOne, rfl⟩ := shardDeclaration_eq_some found
      obtain ⟨⟨otherIndex, otherCore⟩, keyOther, rfl⟩ := shardDeclaration_eq_some foundOther
      cases same
      exact canonicalSyms_injective isOne isOther keyOne keyOther
    · intro one inArgs other inShards same
      obtain ⟨declaration, isDeclared, rfl⟩ := List.mem_map.mp inArgs
      obtain ⟨behind, isBehind, rfl⟩ := List.mem_map.mp inShards
      obtain ⟨symIdx, -, found⟩ := List.mem_filterMap.mp isDeclared
      obtain ⟨otherIdx, -, foundOther⟩ := List.mem_filterMap.mp isBehind
      obtain ⟨argIndex, -, rfl⟩ := argDeclaration_eq_some found
      obtain ⟨key, -, rfl⟩ := shardDeclaration_eq_some foundOther
      cases same
    · apply nodup_canonical_names
      intro one declaration isOne found other behind isOther foundOther same
      obtain ⟨⟨sdscIdx, ordinal⟩, pytorchSym, originOne, rfl⟩ := dimensionDeclaration_eq_some isOne found
      obtain ⟨⟨otherSdsc, otherOrdinal⟩, otherSym, originOther, rfl⟩ :=
        dimensionDeclaration_eq_some isOther foundOther
      cases same
      exact dimOrigins_injective originOne originOther
    · intro one before other inDimensions same
      obtain ⟨behind, isBehind, rfl⟩ := List.mem_map.mp inDimensions
      obtain ⟨otherIdx, isOther, foundOther⟩ := List.mem_filterMap.mp isBehind
      obtain ⟨origin, pytorchSym, -, rfl⟩ := dimensionDeclaration_eq_some isOther foundOther
      rcases List.mem_append.mp before with inArgs | inShards
      · obtain ⟨declaration, isDeclared, rfl⟩ := List.mem_map.mp inArgs
        obtain ⟨symIdx, -, found⟩ := List.mem_filterMap.mp isDeclared
        obtain ⟨argIndex, -, rfl⟩ := argDeclaration_eq_some found
        cases same
      · obtain ⟨declaration, isDeclared, rfl⟩ := List.mem_map.mp inShards
        obtain ⟨symIdx, -, found⟩ := List.mem_filterMap.mp isDeclared
        obtain ⟨key, -, rfl⟩ := shardDeclaration_eq_some found
        cases same
  all_goals
    intro declaration inside
    rcases List.mem_append.mp inside with before | inDimensions
    · rcases List.mem_append.mp before with inArgs | inShards
      · obtain ⟨symIdx, -, found⟩ := List.mem_filterMap.mp inArgs
        obtain ⟨argIndex, -, rfl⟩ := argDeclaration_eq_some found
        first | exact .arg _ | rfl
      · obtain ⟨symIdx, -, found⟩ := List.mem_filterMap.mp inShards
        obtain ⟨key, -, rfl⟩ := shardDeclaration_eq_some found
        first | exact .shard _ _ | rfl
    · obtain ⟨symIdx, canonical, found⟩ := List.mem_filterMap.mp inDimensions
      obtain ⟨origin, pytorchSym, -, rfl⟩ := dimensionDeclaration_eq_some canonical found
      first | exact .dimension _ _ _ | rfl

end Extracted

/-! ## Resolution -/

def SymbolKind.IsBase (kind : SymbolKind) : Prop :=
  (∃ argIndex, kind = .kernel argIndex) ∨ ∃ argIndex offset, kind = .kernelSlice argIndex offset

/-- The earlier symbols that a symbol of a kind needs. -/
inductive Based (earlier : List SymbolKind) : SymbolKind → Prop where
  | kernel (argIndex : ℤ) : Based earlier (.kernel argIndex)
  | kernelSlice {argIndex : ℤ} (offset : ℤ) (isBase : SymbolKind.kernel argIndex ∈ earlier) :
      Based earlier (.kernelSlice argIndex offset)
  | kernelDerived {baseSymIdx : ℕ} {base : SymbolKind} (offset argIndex : ℤ)
      (located : earlier[baseSymIdx]? = some base) (isBase : base.IsBase) :
      Based earlier (.kernelDerived baseSymIdx offset argIndex)
  | kernelDerivedSymbolic (argIndex : ℤ) (coreIdx splitCount baseSymIdx : ℕ) (pytorchSym : String) :
      Based earlier (.kernelDerivedSymbolic argIndex coreIdx splitCount baseSymIdx pytorchSym)
  | shardKernel (argIndex : ℤ) (coreIdx numShards shardBytes : ℕ) :
      Based earlier (.shardKernel argIndex coreIdx numShards shardBytes)
  | pool : Based earlier .pool
  | dimension (granularity maxValue : ℕ) (pytorchSym : String) :
      Based earlier (.dimension granularity maxValue pytorchSym)

def baseName : SymbolKind → SsaName
  | .kernel argIndex => .arg argIndex
  | .kernelSlice argIndex offset => .slice argIndex offset
  | _ => .sym 0

/-- The name of a symbol. -/
def symName (kindsOfSdscs : List (List SymbolKind)) (value : ℤ) (symIdx : ℕ) : SymbolKind → SsaName
  | .kernel argIndex => .arg argIndex
  | .kernelSlice argIndex offset => .slice argIndex offset
  | .kernelDerived baseSymIdx offset _ =>
      .core (((kindsOfSdscs.flatten[baseSymIdx]?).map baseName).getD (.sym 0)) offset
  | .kernelDerivedSymbolic _ _ _ _ _ => .sym (symIdx + 1)
  | .shardKernel argIndex coreIdx _ _ => .shard argIndex coreIdx
  | .pool => .poolAddr value
  | .dimension _ _ _ => (dimensionName kindsOfSdscs symIdx).getD (.sym 0)

section Resolution

variable {kindsOfSdscs : List (List SymbolKind)} {symIdx : ℕ} {kind : SymbolKind}

theorem kernelName_of_kernel {kinds : List SymbolKind} {argIndex : ℤ}
    (isKind : kinds[symIdx]? = some (.kernel argIndex)) : kernelName kinds symIdx = some (.arg argIndex) := by
  obtain ⟨canonical, found, -, sameKey⟩ := exists_canonicalIdx kernelKey isKind rfl
  rw [kernelName, found, Option.bind_some, sameKey, Option.map_some]

theorem kernelName_of_noKey {kinds : List SymbolKind} (isKind : kinds[symIdx]? = some kind)
    (noKey : kernelKey kind = none) : kernelName kinds symIdx = none := by
  rw [kernelName, canonicalIdx_eq_none isKind noKey, Option.bind_none]

theorem shardName_of_shard {kinds : List SymbolKind} {argIndex : ℤ} {coreIdx numShards shardBytes : ℕ}
    (isKind : kinds[symIdx]? = some (.shardKernel argIndex coreIdx numShards shardBytes)) :
    shardName kinds symIdx = some (.shard argIndex coreIdx) := by
  obtain ⟨canonical, found, -, sameKey⟩ := exists_canonicalIdx shardKey isKind rfl
  rw [shardName, found, Option.bind_some, sameKey, Option.map_some]

theorem shardName_of_noKey {kinds : List SymbolKind} (isKind : kinds[symIdx]? = some kind)
    (noKey : shardKey kind = none) : shardName kinds symIdx = none := by
  rw [shardName, canonicalIdx_eq_none isKind noKey, Option.bind_none]

theorem dimensionName_of_noKey (isKind : kindsOfSdscs.flatten[symIdx]? = some kind)
    (noKey : dimensionKey kind = none) : dimensionName kindsOfSdscs symIdx = none := by
  rw [dimensionName, canonicalIdx_eq_none isKind noKey, Option.bind_none]

namespace Preamble

/-- The names that are declared. -/
def names (preamble : Preamble) : List SsaName := preamble.declarations.map Prod.fst

/-- A symbol resolves to a declared name. -/
def Resolves (kinds : List SymbolKind) (preamble : Preamble) (symIdx : ℕ) (name : SsaName) : Prop :=
  (kernelName kinds symIdx <|> preamble.symCanonical symIdx).getD (.sym (symIdx + 1)) = name ∧
    name ∈ preamble.names

theorem names_declare (preamble : Preamble) (name : SsaName) (definition : Definition) :
    preamble.names ⊆ (preamble.declare name definition).names := by
  unfold declare
  split
  next => exact List.Subset.refl _
  next =>
    unfold names
    rw [List.map_append]
    exact List.subset_append_left _ _

theorem mem_names_declare (preamble : Preamble) (name : SsaName) (definition : Definition) :
    name ∈ (preamble.declare name definition).names := by
  unfold declare
  split
  next listed => exact listed
  next => simp [names]

theorem declared_declare {preamble : Preamble} (declared : Declared preamble.declarations) {name : SsaName}
    {definition : Definition} (fits : Fits name definition) (known : ∀ used ∈ definition.uses,
        used ∈ preamble.names) :
    Declared (preamble.declare name definition).declarations := by
  unfold declare
  split
  next => exact declared
  next fresh => exact .snoc declared fresh fits known

@[simp]
theorem symCanonical_declare (preamble : Preamble) (name : SsaName) (definition : Definition) :
    (preamble.declare name definition).symCanonical = preamble.symCanonical := by
  unfold declare
  split <;> rfl

@[simp]
theorem symCanonical_resolve (preamble : Preamble) (symIdx : ℕ) (name : SsaName) :
    (preamble.resolve symIdx name).symCanonical = Function.update preamble.symCanonical symIdx
        (some name) := rfl

@[simp]
theorem names_resolve (preamble : Preamble) (symIdx : ℕ) (name : SsaName) :
    (preamble.resolve symIdx name).names = preamble.names := rfl

@[simp]
theorem declarations_resolve (preamble : Preamble) (symIdx : ℕ) (name : SsaName) :
    (preamble.resolve symIdx name).declarations = preamble.declarations := rfl

end Preamble

/-- The names when the symbols before a position have been declared. -/
structure NamedBelow (kindsOfSdscs : List (List SymbolKind)) (values : List ℤ) (position : ℕ)
    (preamble : Preamble) : Prop where
  declared : Declared preamble.declarations
  kept : (Preamble.extracted kindsOfSdscs).names ⊆ preamble.names
  untouched : ∀ symIdx, position ≤ symIdx →
    preamble.symCanonical symIdx = (Preamble.extracted kindsOfSdscs).symCanonical symIdx
  ofKernel : ∀ symIdx argIndex, kindsOfSdscs.flatten[symIdx]? = some (.kernel argIndex) →
    preamble.symCanonical symIdx = none
  resolves : ∀ symIdx < position, ∀ value kind, values[symIdx]? = some value →
    kindsOfSdscs.flatten[symIdx]? = some kind →
      preamble.Resolves kindsOfSdscs.flatten symIdx (symName kindsOfSdscs value symIdx kind)

end Resolution

section Declaring

variable {kindsOfSdscs : List (List SymbolKind)} {values : List ℤ} {position : ℕ} {preamble next : Preamble}
  {kind : SymbolKind} {value : ℤ}

theorem Preamble.Resolves.mono {kinds : List SymbolKind} {symIdx : ℕ} {name : SsaName}
    (resolves : preamble.Resolves kinds symIdx name)
    (same : next.symCanonical symIdx = preamble.symCanonical symIdx) (kept : preamble.names ⊆ next.names) :
    next.Resolves kinds symIdx name :=
  ⟨same ▸ resolves.1, kept resolves.2⟩

theorem symCanonical_extracted (kindsOfSdscs : List (List SymbolKind)) (symIdx : ℕ) :
    (Preamble.extracted kindsOfSdscs).symCanonical symIdx =
      (shardName kindsOfSdscs.flatten symIdx <|> dimensionName kindsOfSdscs symIdx) := rfl

theorem symCanonical_extracted_of_noKey (isKind : kindsOfSdscs.flatten[position]? = some kind)
    (noShard : shardKey kind = none) (noDimension : dimensionKey kind = none) :
    (Preamble.extracted kindsOfSdscs).symCanonical position = none := by
  rw [symCanonical_extracted, shardName_of_noKey isKind noShard, dimensionName_of_noKey isKind noDimension]
  rfl

theorem arg_mem_extracted {argIndex : ℤ} (isKind : kindsOfSdscs.flatten[position]? = some
    (.kernel argIndex)) :
    .arg argIndex ∈ (Preamble.extracted kindsOfSdscs).names := by
  obtain ⟨canonical, -, isCanonical, sameKey⟩ := exists_canonicalIdx kernelKey isKind rfl
  obtain ⟨other, isOther, isKey⟩ := Option.bind_eq_some_iff.mp sameKey
  rw [Preamble.names, extracted_declarations, List.map_append, List.map_append]
  apply List.mem_append_left
  apply List.mem_append_left
  refine List.mem_map.mpr ⟨(.arg argIndex, .argExtract argIndex),
    List.mem_filterMap.mpr ⟨canonical, isCanonical, ?_⟩, rfl⟩
  rw [argDeclaration, isOther, Option.bind_some, isKey, Option.map_some]

theorem shard_mem_extracted {argIndex : ℤ} {coreIdx numShards shardBytes : ℕ}
    (isKind : kindsOfSdscs.flatten[position]? = some (.shardKernel argIndex coreIdx numShards shardBytes)) :
    .shard argIndex coreIdx ∈ (Preamble.extracted kindsOfSdscs).names := by
  obtain ⟨canonical, -, isCanonical, sameKey⟩ := exists_canonicalIdx shardKey isKind rfl
  obtain ⟨other, isOther, isKey⟩ := Option.bind_eq_some_iff.mp sameKey
  rw [Preamble.names, extracted_declarations, List.map_append, List.map_append]
  apply List.mem_append_left
  apply List.mem_append_right
  refine List.mem_map.mpr ⟨(.shard argIndex coreIdx, .shardExtract argIndex coreIdx),
    List.mem_filterMap.mpr ⟨canonical, isCanonical, ?_⟩, rfl⟩
  rw [shardDeclaration, isOther, Option.bind_some, isKey, Option.map_some]

theorem dimension_mem_extracted {granularity maxValue : ℕ} {pytorchSym : String}
    (isKind : kindsOfSdscs.flatten[position]? = some (.dimension granularity maxValue pytorchSym)) :
    ∃ name, dimensionName kindsOfSdscs position = some name ∧
        name ∈ (Preamble.extracted kindsOfSdscs).names := by
  obtain ⟨_, _, -, -, -, named⟩ := exists_dimensionName isKind rfl
  refine ⟨_, named, ?_⟩
  obtain ⟨canonical, found, isCanonical, sameKey⟩ := exists_canonicalIdx dimensionKey isKind rfl
  obtain ⟨other, isOther, isKey⟩ := Option.bind_eq_some_iff.mp sameKey
  have own : canonicalIdx dimensionKey kindsOfSdscs.flatten canonical = some canonical := by
    rw [canonicalSyms, List.mem_filter, decide_eq_true_eq] at isCanonical
    exact isCanonical.2
  have same : dimensionName kindsOfSdscs canonical = dimensionName kindsOfSdscs position := by
    rw [dimensionName, dimensionName, found, own]
  rw [Preamble.names, extracted_declarations, List.map_append, List.map_append]
  apply List.mem_append_right
  refine List.mem_map.mpr ⟨(_, .dimensionExtract pytorchSym),
    List.mem_filterMap.mpr ⟨canonical, isCanonical, ?_⟩, rfl⟩
  rw [dimensionDeclaration, isOther, Option.bind_some, isKey, Option.bind_some, same, named, Option.map_some]

theorem namedBelow_zero (kindsOfSdscs : List (List SymbolKind)) (values : List ℤ) :
    NamedBelow kindsOfSdscs values 0 (.extracted kindsOfSdscs) where
  declared := declared_extracted
  kept := List.Subset.refl _
  untouched := fun _ _ => rfl
  ofKernel := fun _ _ isKind => symCanonical_extracted_of_noKey isKind rfl rfl
  resolves := fun _ below => absurd below (Nat.not_lt_zero _)

namespace NamedBelow

variable (named : NamedBelow kindsOfSdscs values position preamble)
  (isValue : values[position]? = some value) (isKind : kindsOfSdscs.flatten[position]? = some kind)

include named isValue isKind

/-- What a step leaves to be shown of the new symbol. -/
theorem extend (declared : Declared next.declarations) (kept : preamble.names ⊆ next.names)
    (others : ∀ symIdx, symIdx ≠ position → next.symCanonical symIdx = preamble.symCanonical symIdx)
    (ofKernel : kernelKey kind ≠ none → next.symCanonical position = preamble.symCanonical position)
    (resolves : next.Resolves kindsOfSdscs.flatten position (symName kindsOfSdscs value position kind)) :
    NamedBelow kindsOfSdscs values (position + 1) next where
  declared := declared
  kept := List.Subset.trans named.kept kept
  untouched := by
    intro symIdx later
    rw [others symIdx (by omega), named.untouched symIdx (by omega)]
  ofKernel := by
    intro symIdx argIndex isKernel
    by_cases here : symIdx = position
    · subst here
      rw [isKind, Option.some.injEq] at isKernel
      rw [ofKernel (by rw [isKernel]; exact Option.some_ne_none _), named.ofKernel _ argIndex
        (isKernel ▸ isKind)]
    · rw [others symIdx here, named.ofKernel symIdx argIndex isKernel]
  resolves := by
    intro symIdx below other otherKind isOther isOtherKind
    by_cases here : symIdx = position
    · subst here
      rw [isValue, Option.some.injEq] at isOther
      rw [isKind, Option.some.injEq] at isOtherKind
      rw [← isOther, ← isOtherKind]
      exact resolves
    · exact (named.resolves symIdx (by omega) other otherKind isOther isOtherKind).mono
        (others symIdx here) kept

/-- The symbol is known already. -/
theorem unchanged
    (resolves : preamble.Resolves kindsOfSdscs.flatten position (symName kindsOfSdscs value position kind)) :
    NamedBelow kindsOfSdscs values (position + 1) preamble :=
  named.extend isValue isKind named.declared (List.Subset.refl _) (fun _ _ => rfl) (fun _ => rfl) resolves

/-- The symbol gets a name of its own. -/
theorem resolved {definition : Definition} (noKernel : kernelKey kind = none)
    (fits : Fits (symName kindsOfSdscs value position kind) definition)
    (known : ∀ used ∈ definition.uses, used ∈ preamble.names) :
    NamedBelow kindsOfSdscs values (position + 1)
      ((preamble.declare (symName kindsOfSdscs value position kind) definition).resolve position
        (symName kindsOfSdscs value position kind)) := by
  apply named.extend isValue isKind
  · exact Preamble.declared_declare named.declared fits known
  · exact Preamble.names_declare _ _ _
  · intro symIdx elsewhere
    rw [Preamble.symCanonical_resolve, Function.update_of_ne elsewhere, Preamble.symCanonical_declare]
  · exact fun isKernel => absurd noKernel isKernel
  · refine ⟨?_, Preamble.mem_names_declare _ _ _⟩
    rw [kernelName_of_noKey isKind noKernel, Preamble.symCanonical_resolve, Function.update_self]
    rfl

/-- The symbol is a constant. -/
theorem constant (noKernel : kernelKey kind = none) (noShard : shardKey kind = none)
    (noDimension : dimensionKey kind = none)
    (isSym : symName kindsOfSdscs value position kind = .sym (position + 1)) :
    NamedBelow kindsOfSdscs values (position + 1)
      (preamble.declare (.sym (position + 1)) (.constant value)) := by
  apply named.extend isValue isKind
  · exact Preamble.declared_declare named.declared (.sym _ _) fun _ impossible =>
      absurd impossible List.not_mem_nil
  · exact Preamble.names_declare _ _ _
  · exact fun _ _ => by rw [Preamble.symCanonical_declare]
  · exact fun isKernel => absurd noKernel isKernel
  · rw [isSym]
    refine ⟨?_, Preamble.mem_names_declare _ _ _⟩
    rw [kernelName_of_noKey isKind noKernel, Preamble.symCanonical_declare, named.untouched position le_rfl,
      symCanonical_extracted_of_noKey isKind noShard noDimension]
    rfl

omit isValue isKind

theorem resolves_base (aligned : values.length = kindsOfSdscs.flatten.length) {baseSymIdx : ℕ}
    {base : SymbolKind}
    (located : (kindsOfSdscs.flatten.take position)[baseSymIdx]? = some base) (isBase : base.IsBase) :
    (preamble.symCanonical baseSymIdx <|> kernelName kindsOfSdscs.flatten baseSymIdx) = some (baseName base) ∧
      baseName base ∈ preamble.names := by
  rw [List.getElem?_take] at located
  split at located
  next below =>
    obtain ⟨inside, -⟩ := List.getElem?_eq_some_iff.mp located
    obtain ⟨baseValue, isBaseValue⟩ : ∃ baseValue, values[baseSymIdx]? = some baseValue :=
      ⟨_, List.getElem?_eq_getElem (aligned ▸ inside)⟩
    have resolves := named.resolves baseSymIdx below baseValue base isBaseValue located
    rcases isBase with ⟨argIndex, rfl⟩ | ⟨argIndex, offset, rfl⟩
    · rw [named.ofKernel baseSymIdx argIndex located, kernelName_of_kernel located]
      exact ⟨rfl, resolves.2⟩
    · refine ⟨?_, resolves.2⟩
      have isName := resolves.1
      rw [kernelName_of_noKey located rfl] at isName ⊢
      cases isCanonical : preamble.symCanonical baseSymIdx with
      | none =>
          rw [isCanonical] at isName
          cases isName
      | some name =>
          rw [isCanonical] at isName
          exact congrArg some isName
  next => cases located

include isValue isKind

theorem step (aligned : values.length = kindsOfSdscs.flatten.length)
    (based : Based (kindsOfSdscs.flatten.take position) kind) :
    NamedBelow kindsOfSdscs values (position + 1)
      (preamble.declareSymbol kindsOfSdscs.flatten (value, position)) := by
  unfold Preamble.declareSymbol
  simp only [isKind]
  cases based with
  | kernel argIndex =>
      apply named.unchanged isValue isKind
      refine ⟨?_, named.kept (arg_mem_extracted isKind)⟩
      rw [kernelName_of_kernel isKind]
      rfl
  | kernelSlice offset isBase =>
      apply named.resolved isValue isKind rfl (.slice _ _)
      intro used isUsed
      obtain rfl := List.mem_singleton.mp isUsed
      obtain ⟨baseSymIdx, located⟩ := List.mem_iff_getElem?.mp isBase
      exact (named.resolves_base aligned located (.inl ⟨_, rfl⟩)).2
  | @kernelDerived baseSymIdx base offset argIndex located isBase =>
      obtain ⟨isName, listed⟩ := named.resolves_base aligned located isBase
      have whole : kindsOfSdscs.flatten[baseSymIdx]? = some base := by
        rw [List.getElem?_take] at located
        split at located
        next => exact located
        next => cases located
      have isSymName : symName kindsOfSdscs value position (.kernelDerived baseSymIdx offset argIndex) =
          .core (baseName base) offset := by
        rw [symName, whole, Option.map_some, Option.getD_some]
      have known : ∀ used ∈ (Definition.addi (baseName base) offset).uses, used ∈ preamble.names := by
        intro used isUsed
        obtain rfl := List.mem_singleton.mp isUsed
        exact listed
      have extended := named.resolved isValue isKind rfl (isSymName ▸ Fits.core _ _) known
      rw [isSymName] at extended
      dsimp only
      rw [isName]
      exact extended
  | kernelDerivedSymbolic argIndex coreIdx splitCount baseSymIdx pytorchSym =>
      exact named.constant isValue isKind rfl rfl rfl rfl
  | shardKernel argIndex coreIdx numShards shardBytes =>
      apply named.unchanged isValue isKind
      refine ⟨?_, named.kept (shard_mem_extracted isKind)⟩
      rw [kernelName_of_noKey isKind rfl, named.untouched position le_rfl, symCanonical_extracted,
        shardName_of_shard isKind]
      rfl
  | pool =>
      exact named.resolved isValue isKind rfl (.poolAddr _) fun _ impossible =>
        absurd impossible List.not_mem_nil
  | dimension granularity maxValue pytorchSym =>
      apply named.unchanged isValue isKind
      obtain ⟨name, isName, listed⟩ := dimension_mem_extracted isKind
      rw [symName, isName]
      refine ⟨?_, named.kept listed⟩
      rw [kernelName_of_noKey isKind rfl, named.untouched position le_rfl, symCanonical_extracted,
        shardName_of_noKey isKind rfl, isName]
      rfl

end NamedBelow

theorem foldl_declareSymbol (aligned : values.length = kindsOfSdscs.flatten.length)
    (based : ∀ symIdx kind, kindsOfSdscs.flatten[symIdx]? = some kind →
      Based (kindsOfSdscs.flatten.take symIdx) kind) {before rest : List ℤ} (split : values = before ++ rest)
    (named : NamedBelow kindsOfSdscs values before.length preamble) :
    NamedBelow kindsOfSdscs values values.length ((rest.zipIdx before.length).foldl
      (fun preamble symbol => preamble.declareSymbol kindsOfSdscs.flatten symbol) preamble) := by
  induction rest generalizing before preamble with
  | nil =>
      rw [List.append_nil] at split
      subst split
      exact named
  | cons value rest inductionHypothesis =>
      have isValue : values[before.length]? = some value := by
        rw [split, List.getElem?_append_right le_rfl, Nat.sub_self, List.getElem?_cons_zero]
      obtain ⟨inside, -⟩ := List.getElem?_eq_some_iff.mp isValue
      obtain ⟨kind, isKind⟩ : ∃ kind, kindsOfSdscs.flatten[before.length]? = some kind :=
        ⟨_, List.getElem?_eq_getElem (aligned ▸ inside)⟩
      have stepped := named.step isValue isKind aligned (based _ kind isKind)
      rw [List.zipIdx_cons, List.foldl_cons]
      have behind := @inductionHypothesis
        (preamble.declareSymbol kindsOfSdscs.flatten (value, before.length)) (before ++ [value])
          (by rw [split, List.append_assoc]; rfl)
      rw [List.length_append, List.length_singleton] at behind
      exact behind stepped

/-- All symbols are named when all have been declared. -/
theorem declareSymbols_named (aligned : values.length = kindsOfSdscs.flatten.length)
    (based : ∀ symIdx kind, kindsOfSdscs.flatten[symIdx]? = some kind →
      Based (kindsOfSdscs.flatten.take symIdx) kind) :
    NamedBelow kindsOfSdscs values values.length (declareSymbols values kindsOfSdscs) :=
  foldl_declareSymbol aligned based (List.nil_append _).symm (namedBelow_zero _ _)

theorem resolveSym_named (aligned : values.length = kindsOfSdscs.flatten.length)
    (named : NamedBelow kindsOfSdscs values values.length preamble) {symIdx : ℕ}
    (isKind : kindsOfSdscs.flatten[symIdx]? = some kind) :
    ∃ value, values[symIdx]? = some value ∧
      resolveSym kindsOfSdscs.flatten preamble (-(symIdx + 1)) = symName kindsOfSdscs value symIdx kind ∧
      symName kindsOfSdscs value symIdx kind ∈ preamble.names := by
  obtain ⟨inside, -⟩ := List.getElem?_eq_some_iff.mp isKind
  rw [← aligned] at inside
  obtain ⟨isName, listed⟩ :=
    named.resolves symIdx inside values[symIdx] kind (List.getElem?_eq_getElem inside) isKind
  refine ⟨values[symIdx], List.getElem?_eq_getElem inside, ?_, listed⟩
  have number : (-((symIdx : ℤ) + 1)).natAbs = symIdx + 1 := by omega
  rw [resolveSym, number, Nat.add_sub_cancel]
  exact isName

end Declaring

end TorchSpyre.Bundle
