import Egregore.Base.Traverse
import Egregore.Languages.CallTargetsSpec

/-!
# Confined calls

A call that names its own crate, its own type or a type of its crate is to bind nothing outside
that crate. Two of the arms compare names only, and a third one paths: `siteConfined_iff` says
when that is enough.
-/

namespace Egregore

open Base

/-! ## Edges of a call site -/

section Collect

variable {env : CallEnv} {index : DefinitionIndex} {path callerRoot : String} {facts : FileFacts}

theorem mem_recordPair {key : String × String} {source target summary : String}
    {resolution : CallResolution} {span : CallSpan} {edges : CallEdges} :
    key ∈ recordPair source target summary resolution span edges ↔
      (source, target) = key ∨ key ∈ edges := by
  rw [Std.ExtTreeMap.mem_iff_isSome_getElem?, Std.ExtTreeMap.mem_iff_isSome_getElem?, recordPair,
    Std.ExtTreeMap.getElem?_alter]
  by_cases same : (source, target) = key
  · simp [same]
  · simp only [Std.LawfulEqCmp.compare_eq_iff_eq, same, if_false, false_or]

theorem mem_recordCandidateEdge {key : String × String} {call : CallSiteFact} {count : Nat}
    {allowSameFile : Bool} {edges : CallEdges} {candidate : DefinitionFact} :
    key ∈ recordCandidateEdge path call count allowSameFile edges candidate ↔
      key ∈ edges ∨ (call.callerId, candidate.id) = key ∧
        (allowSameFile = true ∨ candidate.repoRelativePath ≠ path) ∧
          candidate.id ≠ call.callerId := by
  unfold recordCandidateEdge
  split
  · next sameFile => simp_all
  · next otherFile =>
      split
      · next itself => simp [itself]
      · next other =>
          rw [mem_recordPair, or_comm]
          refine or_congr_right (and_iff_left ⟨?_, other⟩).symm
          cases allowSameFile with
          | true => exact .inl rfl
          | false => simpa using otherFile

theorem mem_foldl_recordCandidateEdge {key : String × String} {call : CallSiteFact} {count : Nat}
    {allowSameFile : Bool} {edges : CallEdges} {candidates : List DefinitionFact} :
    key ∈ candidates.foldl (recordCandidateEdge path call count allowSameFile) edges ↔
      key ∈ edges ∨ ∃ candidate ∈ candidates, (call.callerId, candidate.id) = key ∧
        (allowSameFile = true ∨ candidate.repoRelativePath ≠ path) ∧
          candidate.id ≠ call.callerId := by
  induction candidates generalizing edges with
  | nil => simp
  | cons candidate candidates ih =>
      rw [List.foldl_cons, ih, mem_recordCandidateEdge, or_assoc]
      simp only [List.mem_cons, exists_eq_or_imp]

/-- No call site takes an edge away. -/
theorem recordCall_keeps_edge {key : String × String} (records : CallRecords)
    (call : CallSiteFact) (recorded : key ∈ records.edges) :
    key ∈ (recordCall env index path callerRoot facts records call).edges := by
  unfold recordCall
  split
  · exact recorded
  · simp only
    split
    · refine foldl_keeps (P := fun edges : CallEdges => key ∈ edges) ?_ _ recorded
      intro edges definition recorded
      unfold recordBlockLocalEdge
      split
      · exact recorded
      · exact mem_recordPair.mpr (.inr recorded)
    · unfold recordCandidates
      split
      · split
        · exact recorded
        · unfold recordUnresolved
          split
          · exact recorded
          · split
            · exact recorded
            · exact recorded
      · exact mem_foldl_recordCandidateEdge.mpr (.inl recorded)

end Collect

section Site

variable (env : CallEnv) (factsByFile : StrMap FileFacts) (path : String) (facts : FileFacts)
variable (call : CallSiteFact) (simpleName : String)

/-- A definition to which the pass records an edge for a call site. -/
def BindsTo (definition : DefinitionFact) : Prop :=
  definition ∈ (callIndex factsByFile).candidates call simpleName
      (callerCrateRoot factsByFile path) ∧
    ((call.dispatchTrait.isSome || dispatchSuppressed facts call.callerId simpleName) = true ∨
      definition.repoRelativePath ≠ path) ∧
    definition.id ≠ call.callerId

variable {env factsByFile path facts call simpleName}

/-- The edges of the pass include those of each call site. -/
theorem exists_edge_of_bindsTo {definition : DefinitionFact}
    (scanned : factsByFile[path]? = some facts) (site : call ∈ facts.callSites)
    (named : call.calleeSegments.getLast? = some simpleName) (notDirect : call.callKind ≠ .direct)
    (binds : BindsTo factsByFile path facts call simpleName definition) :
    ∃ edge, .edge edge ∈ crossFileCallRecords env factsByFile ∧ edge.label = .calls ∧
      edge.source = call.callerId ∧ edge.target = definition.id := by
  obtain ⟨candidate, emits⟩ := binds
  have noLocal : (callIndex factsByFile).blockLocalCandidates call simpleName = [] := by
    simp [DefinitionIndex.blockLocalCandidates, notDirect]
  have recorded : (call.callerId, definition.id) ∈ (collectCalls factsByFile env).edges := by
    obtain ⟨facts', scanned', -, sites⟩ := exists_reassignedFacts factsByFile scanned
    have listed := Std.ExtTreeMap.mem_toList_iff_getElem?_eq_some.mpr scanned'
    have suppressed : dispatchSuppressed facts' = dispatchSuppressed facts := by
      funext callerId name
      rw [dispatchSuppressed, dispatchSuppressed, sites]
    rw [collectCalls]
    refine foldl_of_mem (P := fun records : CallRecords =>
        (call.callerId, definition.id) ∈ records.edges)
      (fun records entry recorded => ?_) listed (fun records => ?_) {}
    · exact foldl_keeps (fun records call => recordCall_keeps_edge records call) _ recorded
    · refine foldl_of_mem (fun records call => recordCall_keeps_edge records call)
        (sites ▸ site) (fun records => ?_) records
      simp only [recordCall, named, noLocal, ne_eq, not_true, if_false, recordCandidates,
        List.ne_nil_of_mem candidate, suppressed]
      exact mem_foldl_recordCandidateEdge.mpr (.inr ⟨definition, candidate, rfl, emits⟩)
  obtain ⟨entry, found⟩ : ∃ entry,
      (collectCalls factsByFile env).edges[(call.callerId, definition.id)]? = some entry :=
    ⟨_, Std.ExtTreeMap.getElem?_eq_some_getElem recorded⟩
  refine ⟨emitCallEdge env ((call.callerId, definition.id), entry), ?_, rfl, rfl, rfl⟩
  simp only [crossFileCallRecords, CallRecords.emit, List.mem_append, List.append_assoc]
  exact .inl (List.mem_map.mpr
    ⟨_, Std.ExtTreeMap.mem_toList_iff_getElem?_eq_some.mpr found, rfl⟩)

end Site

/-! ## The arms -/

section Arms

variable (factsByFile : StrMap FileFacts) (callerRoot : String) (call : CallSiteFact)
variable (simpleName : String)

/-- A call that is confined to the crate of its caller. -/
inductive ConfinedCall : Prop
  | currentCrate (kind : call.callKind = .path) (root : call.pathRoot = .currentCrate)
  | selfOwner (owner : String) (kind : call.callKind = .selfMethod)
      (owned : call.receiverOwner = some owner)
  | receiver (receiverType owner : String) (kind : call.callKind = .method)
      (typed : call.receiverType = some receiverType)
      (resolved : (callIndex factsByFile).resolveReceiverTypeOwner callerRoot receiverType =
        some owner)

/-- The owner to whose methods a call narrows. -/
def narrowingOwner : Option String :=
  match call.callKind with
  | .selfMethod => call.receiverOwner
  | .method =>
      call.receiverType.bind ((callIndex factsByFile).resolveReceiverTypeOwner callerRoot)
  | _ => none

/-- What a confined call compares with a definition, apart from its crate: the name, where its
path has no other segment; the owner and the name; or the path of the file, where it dispatches
through a trait. -/
def ComparesEqual (definition : DefinitionFact) : Prop :=
  (call.callKind = .path ∧ call.calleeSegments.length ≤ 1 ∧ isFreeFunction definition = true) ∨
  ((call.callKind = .selfMethod ∨ call.callKind = .method ∧ call.dispatchTrait = none) ∧
    isReceiverCallable definition = true ∧
    ∃ owner, narrowingOwner factsByFile callerRoot call = some owner ∧
      [owner, simpleName] <:+ definition.matchSegments) ∨
  (call.callKind = .method ∧ definition.symbolKind = "method" ∧
    crateRootId definition.repoRelativePath = callerRoot ∧
    ∃ traitPath traitName owner, call.dispatchTrait = some traitPath ∧
      (callIndex factsByFile).resolveDispatchTrait callerRoot traitPath = some traitName ∧
      ownerSegment definition.matchSegments = some owner ∧
      RecordedImplementor factsByFile callerRoot owner traitName)

variable {factsByFile callerRoot call simpleName}

theorem mem_narrowMethodsToOwner {index : DefinitionIndex} {owner : String}
    {methods : List DefinitionFact} {definition : DefinitionFact}
    (member : definition ∈ index.narrowMethodsToOwner owner methods simpleName callerRoot) :
    definition ∈ methods ∧ ([owner, simpleName] <:+ definition.matchSegments ∨
      index.definitionCrateRoot definition = callerRoot) := by
  unfold DefinitionIndex.narrowMethodsToOwner at member
  simp only at member
  split at member
  · obtain ⟨inside, owned⟩ := List.mem_filter.mp member
    exact ⟨inside, .inl (List.isSuffixOf_iff_suffix.mp owned)⟩
  · split at member
    · cases member
    · split at member
      · cases member
      · obtain ⟨inside, gated⟩ := List.mem_filter.mp member
        simp only [decide_eq_true_eq] at gated
        exact ⟨inside, .inr gated.2.1⟩

theorem narrowMethodsToOwner_mem {index : DefinitionIndex} {owner : String}
    {methods : List DefinitionFact} {definition : DefinitionFact} (member : definition ∈ methods)
    (owned : [owner, simpleName] <:+ definition.matchSegments) :
    definition ∈ index.narrowMethodsToOwner owner methods simpleName callerRoot := by
  have inherent : definition ∈ methods.filter fun definition =>
      [owner, simpleName].isSuffixOf definition.matchSegments :=
    List.mem_filter.mpr ⟨member, List.isSuffixOf_iff_suffix.mpr owned⟩
  unfold DefinitionIndex.narrowMethodsToOwner
  simp only
  rw [if_pos (List.ne_nil_of_mem inherent)]
  exact inherent

/-- What a confined call finds is in the crate, or compares equal. -/
theorem of_mem_candidates {definition : DefinitionFact}
    (confined : ConfinedCall factsByFile callerRoot call)
    (member : definition ∈ (callIndex factsByFile).candidates call simpleName callerRoot) :
    definition ∈ sortDefinitions (definitionsNamed factsByFile simpleName) ∧
      (reassignedRoot (reassignAuxHelperCrateRoots factsByFile) definition.repoRelativePath =
          callerRoot ∨
        ComparesEqual factsByFile callerRoot call simpleName definition) := by
  -- Both arms that narrow to an owner find its methods or those of its traits.
  have ofOwner : ∀ owner, narrowingOwner factsByFile callerRoot call = some owner →
      (call.callKind = .selfMethod ∨ call.callKind = .method ∧ call.dispatchTrait = none) →
      definition ∈ (callIndex factsByFile).narrowMethodsToOwner owner
        (((callIndex factsByFile).bySimpleName.getD simpleName []).filter isReceiverCallable)
        simpleName callerRoot →
      definition ∈ sortDefinitions (definitionsNamed factsByFile simpleName) ∧
        (reassignedRoot (reassignAuxHelperCrateRoots factsByFile) definition.repoRelativePath =
            callerRoot ∨
          ComparesEqual factsByFile callerRoot call simpleName definition) := by
    intro owner narrows kind member
    obtain ⟨inside, found⟩ := mem_narrowMethodsToOwner member
    rw [getD_bySimpleName] at inside
    obtain ⟨pooled, callable⟩ := List.mem_filter.mp inside
    refine ⟨pooled, ?_⟩
    rcases found with owned | root
    · exact .inr (.inr (.inl ⟨kind, callable, owner, narrows, owned⟩))
    · exact .inl root
  cases confined with
  | currentCrate kind root =>
      simp only [DefinitionIndex.candidates, kind, DefinitionIndex.pathTarget, root,
        getD_bySimpleName] at member
      split at member
      · next single =>
          obtain ⟨pooled, free⟩ := List.mem_filter.mp member
          exact ⟨pooled, .inr (.inl ⟨kind, single, free⟩)⟩
      · obtain ⟨pooled, matched⟩ := List.mem_filter.mp member
        simp only [Option.all_some, decide_eq_true_eq] at matched
        exact ⟨pooled, .inl matched.1⟩
  | selfOwner owner kind owned =>
      simp only [DefinitionIndex.candidates, kind, owned] at member
      exact ofOwner owner (by simp only [narrowingOwner, kind, owned]) (.inl kind) member
  | receiver receiverType owner kind typed resolved =>
      cases dispatch : call.dispatchTrait with
      | none =>
          simp only [DefinitionIndex.candidates, kind, dispatch, typed, Option.bind_some,
            resolved] at member
          exact ofOwner owner (by simp only [narrowingOwner, kind, typed, Option.bind_some, resolved])
            (.inr ⟨kind, dispatch⟩) member
      | some traitPath =>
          simp only [DefinitionIndex.candidates, kind, dispatch,
            DefinitionIndex.dispatchCandidates, getD_bySimpleName] at member
          split at member
          · cases member
          · next traitName resolvedTrait =>
              obtain ⟨pooled, matched⟩ := List.mem_filter.mp member
              simp only [decide_eq_true_eq, Option.any_eq_true, mem_implementors] at matched
              obtain ⟨method, root, owner, owned, recorded⟩ := matched
              exact ⟨pooled, .inr (.inr (.inr ⟨kind, method, root, traitPath, traitName, owner,
                dispatch, resolvedTrait, owned, recorded⟩))⟩

/-- What compares equal is found. -/
theorem mem_candidates_of_comparesEqual {definition : DefinitionFact}
    (pooled : definition ∈ sortDefinitions (definitionsNamed factsByFile simpleName))
    (equal : ComparesEqual factsByFile callerRoot call simpleName definition) :
    definition ∈ (callIndex factsByFile).candidates call simpleName callerRoot := by
  rw [← getD_bySimpleName] at pooled
  rcases equal with ⟨kind, single, free⟩ | ⟨kind, callable, owner, narrows, owned⟩ |
    ⟨kind, method, root, traitPath, traitName, owner, dispatch, resolved, owned, recorded⟩
  · simp only [DefinitionIndex.candidates, kind, single, if_true]
    exact List.mem_filter.mpr ⟨pooled, free⟩
  · have inside : definition ∈ ((callIndex factsByFile).bySimpleName.getD simpleName []).filter
        isReceiverCallable := List.mem_filter.mpr ⟨pooled, callable⟩
    rcases kind with kind | ⟨kind, dispatch⟩
    · simp only [narrowingOwner, kind] at narrows
      simp only [DefinitionIndex.candidates, kind, narrows]
      exact narrowMethodsToOwner_mem inside owned
    · simp only [narrowingOwner, kind] at narrows
      simp only [DefinitionIndex.candidates, kind, dispatch, narrows]
      exact narrowMethodsToOwner_mem inside owned
  · simp only [DefinitionIndex.candidates, kind, dispatch, DefinitionIndex.dispatchCandidates,
      resolved]
    refine List.mem_filter.mpr ⟨pooled, ?_⟩
    simp only [decide_eq_true_eq, Option.any_eq_true, mem_implementors]
    exact ⟨method, root, owner, owned, recorded⟩

end Arms

/-! ## Confinement to a crate -/

section Confined

variable (env : CallEnv) (factsByFile : StrMap FileFacts) (path : String) (facts : FileFacts)
variable (call : CallSiteFact) (simpleName : String)

/-- Every edge of the site goes to a definition in the crate of the caller. -/
def SiteConfined : Prop :=
  ∀ edge definition, .edge edge ∈ crossFileCallRecords env factsByFile → edge.label = .calls →
    edge.source = call.callerId → edge.target = definition.id →
    BindsTo factsByFile path facts call simpleName definition →
    reassignedRoot (reassignAuxHelperCrateRoots factsByFile) definition.repoRelativePath =
      callerCrateRoot factsByFile path

/-- What compares equal, other than the caller itself, is in the crate of the caller. -/
def ComparisonsConfined : Prop :=
  ∀ definition ∈ definitionsNamed factsByFile simpleName,
    ¬ RepeatsId (definitionsNamed factsByFile simpleName) definition →
    definition.id ≠ call.callerId →
    ComparesEqual factsByFile (callerCrateRoot factsByFile path) call simpleName definition →
    reassignedRoot (reassignAuxHelperCrateRoots factsByFile) definition.repoRelativePath =
      callerCrateRoot factsByFile path

variable {env factsByFile path facts call simpleName}

/-- A confined call stays in its crate where the comparisons of its arm do. -/
theorem siteConfined_iff (scanned : factsByFile[path]? = some facts)
    (site : call ∈ facts.callSites) (named : call.calleeSegments.getLast? = some simpleName)
    (confined : ConfinedCall factsByFile (callerCrateRoot factsByFile path) call) :
    SiteConfined env factsByFile path facts call simpleName ↔
      ComparisonsConfined factsByFile path call simpleName := by
  have notDirect : call.callKind ≠ .direct := by
    cases confined with
    | currentCrate kind => simp [kind]
    | selfOwner _ kind => simp [kind]
    | receiver _ _ kind => simp [kind]
  constructor
  · intro stays definition listed once other equal
    by_cases sameFile : definition.repoRelativePath = path
    · rw [sameFile, callerCrateRoot]
    · have binds : BindsTo factsByFile path facts call simpleName definition :=
        ⟨mem_candidates_of_comparesEqual (mem_sortDefinitions.mpr ⟨listed, once⟩) equal,
          .inr sameFile, other⟩
      obtain ⟨edge, emitted, label, source, target⟩ :=
        exists_edge_of_bindsTo scanned site named notDirect binds
      exact stays edge definition emitted label source target binds
  · rintro compare edge definition - - - - ⟨candidate, -, other⟩
    obtain ⟨pooled, root | equal⟩ := of_mem_candidates confined candidate
    · exact root
    · obtain ⟨listed, once⟩ := mem_sortDefinitions.mp pooled
      exact compare definition listed once other equal

end Confined

section Crates

/-- A call of `crate::helper()`, in a crate that has no such function. -/
def crateCall : CallSiteFact where
  callerId := "run"
  callerName := "run"
  calleeDisplay := "crate::helper"
  calleeSegments := ["helper"]
  callKind := .path
  pathRoot := .currentCrate
  span := { startByte := 11, endByte := 26, startLine := 1, endLine := 1 }

/-- The function of another crate. -/
def foreignHelper : DefinitionFact where
  id := "helper"
  qualifiedName := "helper"
  simpleName := "helper"
  matchSegments := ["helper"]
  symbolKind := "function"
  repoRelativePath := "crates/b/src/lib.rs"

def cratesFacts : StrMap FileFacts :=
  ((∅ : StrMap FileFacts).insert "crates/a/src/lib.rs" { callSites := [crateCall] }).insert
    "crates/b/src/lib.rs" { definitions := [foreignHelper] }

theorem siteConfined_crates_iff :
    SiteConfined shownEnv cratesFacts "crates/a/src/lib.rs" { callSites := [crateCall] }
        crateCall "helper" ↔
      ComparisonsConfined cratesFacts "crates/a/src/lib.rs" crateCall "helper" :=
  siteConfined_iff (by decide) (List.mem_singleton.mpr rfl) rfl (.currentCrate rfl rfl)

/-- The call binds the function of the other crate. -/
theorem siteConfined_crates :
    ¬ SiteConfined shownEnv cratesFacts "crates/a/src/lib.rs" { callSites := [crateCall] }
        crateCall "helper" := by
  intro stays
  have binds : BindsTo cratesFacts "crates/a/src/lib.rs" { callSites := [crateCall] } crateCall
      "helper" foreignHelper := ⟨by decide, .inr (by decide), by decide⟩
  obtain ⟨edge, emitted, label, source, target⟩ :=
    exists_edge_of_bindsTo (by decide) (List.mem_singleton.mpr rfl) rfl (by decide) binds
  have root := stays edge foreignHelper emitted label source target binds
  exact absurd root (by decide)

end Crates

end Egregore
