import Egregore.Base.Traverse
import Egregore.Languages.CallTargetsSpec

/-!
# Trait dispatch

A call through a trait is to bind the methods of the types that its crate records as implementing
the trait. The index asks for the crate of a method by the path of its file, where every other
lookup asks for the crate after the reassignment of the helpers: `dispatchExact_iff` says when
that makes no difference.
-/

namespace Egregore

open Base

/-! ## The candidates -/

section Candidates

variable (factsByFile : StrMap FileFacts) (crateRoot simpleName traitName : String)

/-- A method of a name whose owner the crate records as implementing the trait. -/
def ImplementorMethod (definition : DefinitionFact) : Prop :=
  definition ∈ definitionsNamed factsByFile simpleName ∧ definition.symbolKind = "method" ∧
    ∃ owner, ownerSegment definition.matchSegments = some owner ∧
      RecordedImplementor factsByFile crateRoot owner traitName

/-- Such a method in the crate, after the reassignment. -/
def DispatchMethod (definition : DefinitionFact) : Prop :=
  ImplementorMethod factsByFile crateRoot simpleName traitName definition ∧
    reassignedRoot (reassignAuxHelperCrateRoots factsByFile) definition.repoRelativePath =
      crateRoot

/-- What the index finds for a call through a trait. -/
theorem mem_candidates_iff {call : CallSiteFact} {traitPath : String}
    (definition : DefinitionFact) (method : call.callKind = .method)
    (dispatch : call.dispatchTrait = some traitPath)
    (resolved : (callIndex factsByFile).resolveDispatchTrait crateRoot traitPath =
      some traitName) :
    definition ∈ (callIndex factsByFile).candidates call simpleName crateRoot ↔
      ImplementorMethod factsByFile crateRoot simpleName traitName definition ∧
        crateRootId definition.repoRelativePath = crateRoot ∧
          ¬ RepeatsId (definitionsNamed factsByFile simpleName) definition := by
  simp only [DefinitionIndex.candidates, method, dispatch, DefinitionIndex.dispatchCandidates,
    resolved, getD_bySimpleName, List.mem_filter, mem_sortDefinitions, decide_eq_true_eq,
    Option.any_eq_true, mem_implementors, ImplementorMethod]
  constructor
  · rintro ⟨⟨named, once⟩, kind, root, owner⟩
    exact ⟨⟨named, kind, owner⟩, root, once⟩
  · rintro ⟨⟨named, kind, owner⟩, root, once⟩
    exact ⟨⟨named, once⟩, kind, root, owner⟩

end Candidates

/-! ## The marker -/

section Marker

variable {env : CallEnv} {index : DefinitionIndex} {path callerRoot : String} {facts : FileFacts}

/-- No call site takes a marker away. -/
theorem recordCall_keeps_marker {key : String × String × String × String} (records : CallRecords)
    (call : CallSiteFact) (marked : key ∈ records.dispatchDiagnosticEdges) :
    key ∈ (recordCall env index path callerRoot facts records call).dispatchDiagnosticEdges := by
  unfold recordCall
  split
  · exact marked
  · simp only
    split
    · exact marked
    · unfold recordCandidates
      split
      · split
        · exact Std.ExtTreeMap.mem_insertIfNew.mpr (.inr marked)
        · unfold recordUnresolved
          split
          · exact marked
          · split
            · exact marked
            · exact marked
      · exact marked

/-- A call through a trait that binds nothing is marked. -/
theorem recordCall_marks {call : CallSiteFact} {simpleName traitPath : String}
    (method : call.callKind = .method) (dispatch : call.dispatchTrait = some traitPath)
    (named : call.calleeSegments.getLast? = some simpleName)
    (nothing : index.candidates call simpleName callerRoot = []) (records : CallRecords) :
    (path, traitPath, simpleName, call.callerId) ∈
      (recordCall env index path callerRoot facts records call).dispatchDiagnosticEdges := by
  have noLocal : index.blockLocalCandidates call simpleName = [] := by
    simp [DefinitionIndex.blockLocalCandidates, method]
  simp only [recordCall, named, noLocal, nothing, recordCandidates, dispatch,
    recordUnresolvedDispatch, Option.getD_some, ne_eq, not_true, if_true, if_false,
    Std.ExtTreeMap.mem_insertIfNew]
  exact .inl Std.ReflCmp.compare_self

/-- The one marker edge of a call through a trait that binds nothing. -/
theorem exists_marker {factsByFile : StrMap FileFacts} {call : CallSiteFact}
    {simpleName traitPath : String} (scanned : factsByFile[path]? = some facts)
    (site : call ∈ facts.callSites) (method : call.callKind = .method)
    (dispatch : call.dispatchTrait = some traitPath)
    (named : call.calleeSegments.getLast? = some simpleName)
    (nothing : (callIndex factsByFile).candidates call simpleName
      (callerCrateRoot factsByFile path) = []) :
    ∃ callerName,
      ((collectCalls factsByFile env).dispatchDiagnosticEdges.toList.filter fun entry =>
        entry.1 = (path, traitPath, simpleName, call.callerId)) =
          [((path, traitPath, simpleName, call.callerId), callerName)] ∧
      .edge (unresolvedDispatchEdge env
        ((path, traitPath, simpleName, call.callerId), callerName)) ∈
          crossFileCallRecords env factsByFile := by
  have marked : (path, traitPath, simpleName, call.callerId) ∈
      (collectCalls factsByFile env).dispatchDiagnosticEdges := by
    obtain ⟨facts', scanned', -, sites⟩ := exists_reassignedFacts factsByFile scanned
    have listed := Std.ExtTreeMap.mem_toList_iff_getElem?_eq_some.mpr scanned'
    rw [collectCalls]
    refine foldl_of_mem (P := fun records : CallRecords =>
        (path, traitPath, simpleName, call.callerId) ∈ records.dispatchDiagnosticEdges)
      (fun records entry marked => ?_) listed (fun records => ?_) {}
    · exact foldl_keeps (fun records call => recordCall_keeps_marker records call) _ marked
    · exact foldl_of_mem (fun records call => recordCall_keeps_marker records call)
        (sites ▸ site) (recordCall_marks method dispatch named nothing) records
  obtain ⟨callerName, found⟩ : ∃ callerName,
      (collectCalls factsByFile env).dispatchDiagnosticEdges[
        (path, traitPath, simpleName, call.callerId)]? = some callerName :=
    ⟨_, Std.ExtTreeMap.getElem?_eq_some_getElem marked⟩
  refine ⟨callerName, filter_toList_eq found, ?_⟩
  rw [crossFileCallRecords, CallRecords.emit]
  exact List.mem_append_right _ (List.mem_map.mpr
    ⟨_, Std.ExtTreeMap.mem_toList_iff_getElem?_eq_some.mpr found, rfl⟩)

end Marker

/-! ## What a call binds -/

section Exact

variable (env : CallEnv) (factsByFile : StrMap FileFacts) (path : String) (call : CallSiteFact)
variable (simpleName traitPath traitName : String)

/-- A call binds the methods of the implementors in its crate and nothing else, and has one marker
where there are none. -/
def DispatchExact : Prop :=
  (∀ definition,
    definition ∈ (callIndex factsByFile).candidates call simpleName
        (callerCrateRoot factsByFile path) ↔
      DispatchMethod factsByFile (callerCrateRoot factsByFile path) simpleName traitName
        definition) ∧
  ((∀ definition, ¬ DispatchMethod factsByFile (callerCrateRoot factsByFile path) simpleName
      traitName definition) →
    ∃ callerName,
      ((collectCalls factsByFile env).dispatchDiagnosticEdges.toList.filter fun entry =>
        entry.1 = (path, traitPath, simpleName, call.callerId)) =
          [((path, traitPath, simpleName, call.callerId), callerName)] ∧
      .edge (unresolvedDispatchEdge env
        ((path, traitPath, simpleName, call.callerId), callerName)) ∈
          crossFileCallRecords env factsByFile)

/-- The implementors' methods that are in the crate by their paths, and are not lost to another
definition with their ID, are those that are in it after the reassignment. -/
def DispatchRootsAgree (crateRoot : String) : Prop :=
  ∀ definition, ImplementorMethod factsByFile crateRoot simpleName traitName definition →
    ((crateRootId definition.repoRelativePath = crateRoot ∧
        ¬ RepeatsId (definitionsNamed factsByFile simpleName) definition) ↔
      reassignedRoot (reassignAuxHelperCrateRoots factsByFile) definition.repoRelativePath =
        crateRoot)

variable {factsByFile path call simpleName traitPath traitName}

/-- A call through a trait of its crate binds exactly the methods of its implementors where the
paths of their files tell their crates. -/
theorem dispatchExact_iff {facts : FileFacts} (scanned : factsByFile[path]? = some facts)
    (site : call ∈ facts.callSites) (method : call.callKind = .method)
    (dispatch : call.dispatchTrait = some traitPath)
    (named : call.calleeSegments.getLast? = some simpleName)
    (resolved : (callIndex factsByFile).resolveDispatchTrait (callerCrateRoot factsByFile path)
      traitPath = some traitName) :
    DispatchExact env factsByFile path call simpleName traitPath traitName ↔
      DispatchRootsAgree factsByFile simpleName traitName (callerCrateRoot factsByFile path) := by
  have found : ∀ definition, _ := fun definition =>
    mem_candidates_iff factsByFile (callerCrateRoot factsByFile path) simpleName traitName
      definition method dispatch resolved
  constructor
  · rintro ⟨exact_, -⟩ definition implementor
    have same := (found definition).symm.trans (exact_ definition)
    rw [DispatchMethod, and_congr_right_iff] at same
    exact same implementor
  · intro agree
    have exact_ : ∀ definition, _ := fun definition =>
      (found definition).trans (and_congr_right (agree definition))
    refine ⟨exact_, fun none => ?_⟩
    refine exists_marker scanned site method dispatch named ?_
    exact List.eq_nil_iff_forall_not_mem.mpr fun definition member =>
      none definition ((exact_ definition).mp member)

end Exact

section Helper

def helperCall : CallSiteFact where
  callerId := "run"
  callerName := "run"
  calleeDisplay := "device.go"
  calleeSegments := ["go"]
  callKind := .method
  dispatchTrait := some "Device"
  span := { startByte := 40, endByte := 51, startLine := 3, endLine := 3 }

/-- A test calls a method through its trait. -/
def helperEntryFacts : FileFacts where
  callSites := [helperCall]
  outOfLineMods := [{ name := "common" }]
  implTargets :=
    [{ id := "device", qualifiedName := "Device", crateRoot := "test:it", symbolKind := "trait" }]

def helperMethod : DefinitionFact where
  id := "go"
  qualifiedName := "Probe::go"
  simpleName := "go"
  matchSegments := ["Probe", "go"]
  symbolKind := "method"
  repoRelativePath := "tests/common/mod.rs"

/-- The helper that the test includes implements the trait. -/
def helperModuleFacts (crateRoot : String) : FileFacts where
  definitions := [helperMethod]
  implTargets :=
    [{ id := "probe", qualifiedName := "Probe", crateRoot := crateRoot, symbolKind := "struct" }]
  implTraitRelations :=
    [{ implType := "Probe", implTypePath := "Probe", traitPath := "crate::Device",
       crateRoot := crateRoot }]

def helperFacts : StrMap FileFacts :=
  ((∅ : StrMap FileFacts).insert "tests/it.rs" helperEntryFacts).insert "tests/common/mod.rs"
    (helperModuleFacts "test:common")

theorem dispatchExact_helper_iff :
    DispatchExact shownEnv helperFacts "tests/it.rs" helperCall "go" "Device" "Device" ↔
      DispatchRootsAgree helperFacts "go" "Device" (callerCrateRoot helperFacts "tests/it.rs") :=
  dispatchExact_iff shownEnv
    (by decide : helperFacts["tests/it.rs"]? = some helperEntryFacts)
    (List.mem_singleton.mpr rfl) rfl rfl rfl (by decide +kernel)

/-- The method of the helper is in the crate of the test, and the call does not find it. -/
theorem dispatchExact_helper :
    (callIndex helperFacts).resolveDispatchTrait (callerCrateRoot helperFacts "tests/it.rs")
        "Device" = some "Device" ∧
      ¬ DispatchExact shownEnv helperFacts "tests/it.rs" helperCall "go" "Device" "Device" := by
  refine ⟨by decide +kernel, fun ⟨exact_, _⟩ => ?_⟩
  have moved : (reassignedFacts helperFacts)["tests/common/mod.rs"]? =
      some (helperModuleFacts "test:it") := by decide +kernel
  have recorded : RecordedImplementor helperFacts (callerCrateRoot helperFacts "tests/it.rs")
      "Probe" "Device" :=
    ⟨_, Std.ExtTreeMap.mem_toList_iff_getElem?_eq_some.mpr moved, _, List.mem_singleton.mpr rfl,
      by decide +kernel, rfl, by decide +kernel⟩
  have member := (exact_ helperMethod).mpr
    ⟨⟨by decide, rfl, "Probe", rfl, recorded⟩, by decide +kernel⟩
  have missed : (callIndex helperFacts).candidates helperCall "go"
      (callerCrateRoot helperFacts "tests/it.rs") = [] := by decide +kernel
  rw [missed] at member
  cases member

end Helper

end Egregore
