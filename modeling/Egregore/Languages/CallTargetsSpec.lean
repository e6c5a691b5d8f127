import Egregore.Languages.CrateRootsSpec
import Egregore.Languages.CrossFileCalls

/-!
# What the index of calls holds

The pool of a simple name holds the definitions that have it, and the `implemented` join what the
relations of the files prove. `mem_implementors` is what a call through a trait may bind.
-/

namespace Egregore

open Base

/-- An environment that shows its values, for the examples. -/
def shownEnv : CallEnv where
  stableId := String.join
  isUppercase := Char.isUpper
  spanText span := toString span.startByte
  spansText spans := toString (spans.map CallSpan.startByte)
  repositoryId := "repo"

section Pool

variable (factsByFile : StrMap FileFacts)

/-- The reassignment changes no definition and no call site. -/
theorem exists_reassignedFacts {path : String} {facts : FileFacts}
    (scanned : factsByFile[path]? = some facts) :
    ∃ facts', (reassignedFacts factsByFile)[path]? = some facts' ∧
      facts'.definitions = facts.definitions ∧ facts'.callSites = facts.callSites := by
  rw [reassignedFacts, applyCrateRootRemap, Std.ExtTreeMap.getElem?_map, scanned]
  refine ⟨_, rfl, ?_⟩
  unfold remapFacts
  split
  · exact ⟨rfl, rfl⟩
  · exact ⟨rfl, rfl⟩

/-- The definitions of the repository that have a simple name, file by file. -/
def definitionsNamed (simpleName : String) : List DefinitionFact :=
  (factsByFile.toList.flatMap fun entry => entry.2.definitions).filter fun definition =>
    definition.simpleName = simpleName

theorem definitionsNamed_reassigned (simpleName : String) :
    definitionsNamed (reassignedFacts factsByFile) simpleName =
      definitionsNamed factsByFile simpleName := by
  have unchanged : ∀ entry : String × FileFacts,
      (remapFacts (reassignAuxHelperCrateRoots factsByFile) entry.1 entry.2).definitions =
        entry.2.definitions := by
    intro entry
    unfold remapFacts
    split
    · rfl
    · rfl
  rw [definitionsNamed, definitionsNamed, reassignedFacts, applyCrateRootRemap,
    Std.ExtTreeMap.toList_map, List.flatMap_map]
  simp only [unchanged]

/-- The pool of a name. -/
theorem getD_bySimpleName (simpleName : String) :
    (callIndex factsByFile).bySimpleName.getD simpleName [] =
      sortDefinitions (definitionsNamed factsByFile simpleName) := by
  have named : ∀ definitions : List DefinitionFact,
      ((definitions.filterMap fun definition => some (definition.simpleName, definition)).filter
        fun pair => pair.1 = simpleName).map Prod.snd =
        definitions.filter fun definition => definition.simpleName = simpleName := by
    intro definitions
    rw [List.filterMap_eq_map', List.filter_map, List.map_map]
    exact List.map_id _
  have group : (((reassignedFacts factsByFile).toList.flatMap fun entry =>
      entry.2.definitions).foldl (pushEntry fun definition =>
        some (definition.simpleName, definition)) (∅ : StrMap (List DefinitionFact))).getD
          simpleName [] = _ :=
    getD_foldl_pushEntry _ _ simpleName
  rw [named] at group
  rw [← definitionsNamed_reassigned, definitionsNamed, ← group, callIndex, DefinitionIndex.build]
  simp only [Std.ExtTreeMap.getD_eq_getD_getElem?, Std.ExtTreeMap.getElem?_map]
  cases (((reassignedFacts factsByFile).toList.flatMap fun entry => entry.2.definitions).foldl
    (pushEntry fun definition => some (definition.simpleName, definition))
      (∅ : StrMap (List DefinitionFact)))[simpleName]? with
  | none => rfl
  | some definitions => rfl

/-- A definition that follows another one of its ID wherever the sorted definitions have it. -/
def RepeatsId (definitions : List DefinitionFact) (definition : DefinitionFact) : Prop :=
  ∀ before after,
    (definitions.insertionSort fun definition other =>
      definitionOrder definition other ≠ .gt) = before ++ definition :: after →
    ∃ previous ∈ before.getLast?, previous.id = definition.id

theorem mem_sortDefinitions {definitions : List DefinitionFact} {definition : DefinitionFact} :
    definition ∈ sortDefinitions definitions ↔
      definition ∈ definitions ∧ ¬ RepeatsId definitions definition := by
  have sameId : ∀ previous : DefinitionFact,
      compareOn (fun definition => asBytes definition.id) previous definition = .eq ↔
        previous.id = definition.id := fun _ => byteOrder_eq_iff
  rw [sortDefinitions, mem_dedupBy_iff, RepeatsId]
  simp only [ne_eq, sameId, not_forall, not_exists, not_and, exists_prop]
  refine (and_iff_right_of_imp ?_).symm
  rintro ⟨before, after, sorted, -⟩
  have member : definition ∈ definitions.insertionSort fun definition other =>
      definitionOrder definition other ≠ .gt := by
    rw [sorted]
    simp
  exact (List.perm_insertionSort _ definitions).mem_iff.mp member

end Pool

section Implemented

variable (factsByFile : StrMap FileFacts)

/-- A trait that the map has for a type of a crate. -/
def Implemented (implemented : ImplementedTraits) (crateRoot owner traitName : String) : Prop :=
  ∃ traits, implemented[(crateRoot, owner)]? = some traits ∧ traitName ∈ traits

theorem addImplemented_iff (implIndex : ImplTargetIndex) (useImports : List UseImportFact)
    (implemented : ImplementedTraits) (relation : ImplTraitRelationFact)
    {crateRoot owner traitName : String} :
    Implemented (addImplemented implIndex useImports implemented relation)
        crateRoot owner traitName ↔
      Implemented implemented crateRoot owner traitName ∨
        relation.crateRoot = crateRoot ∧ relation.implType = owner ∧
          provenTrait implIndex useImports relation = some traitName := by
  unfold addImplemented
  cases proven : provenTrait implIndex useImports relation with
  | none => simp
  | some proved =>
      simp only [Implemented, Std.ExtTreeMap.getElem?_alter, Std.LawfulEqCmp.compare_eq_iff_eq,
        Prod.mk.injEq, Option.some.injEq]
      by_cases here : relation.crateRoot = crateRoot ∧ relation.implType = owner
      · obtain ⟨rfl, rfl⟩ := here
        simp only [and_self, if_true, Option.some.injEq, exists_eq_left', true_and,
          Std.ExtTreeSet.mem_insert, byteOrder_eq_iff]
        cases implemented[(relation.crateRoot, relation.implType)]? with
        | none => simp
        | some traits => simp [or_comm]
      · simp only [if_neg here]
        constructor
        · exact .inl
        · rintro (old | ⟨root, owned, -⟩)
          · exact old
          · exact absurd ⟨root, owned⟩ here

/-- The map has the traits that the relations prove. -/
theorem buildImplemented_iff (implIndex : ImplTargetIndex) {crateRoot owner traitName : String} :
    Implemented (buildImplemented factsByFile implIndex) crateRoot owner traitName ↔
      ∃ entry ∈ factsByFile.toList, ∃ relation ∈ entry.2.implTraitRelations,
        relation.crateRoot = crateRoot ∧ relation.implType = owner ∧
          provenTrait implIndex entry.2.useTraitImports relation = some traitName := by
  have ofFile : ∀ (useImports : List UseImportFact) (relations : List ImplTraitRelationFact)
      (implemented : ImplementedTraits),
      Implemented (relations.foldl (addImplemented implIndex useImports) implemented)
          crateRoot owner traitName ↔
        Implemented implemented crateRoot owner traitName ∨ ∃ relation ∈ relations,
          relation.crateRoot = crateRoot ∧ relation.implType = owner ∧
            provenTrait implIndex useImports relation = some traitName := by
    intro useImports relations
    induction relations with
    | nil => simp
    | cons relation relations ih =>
        intro implemented
        rw [List.foldl_cons, ih, addImplemented_iff, or_assoc]
        simp only [List.mem_cons, exists_eq_or_imp]
  have ofFiles : ∀ (entries : List (String × FileFacts)) (implemented : ImplementedTraits),
      Implemented (entries.foldl (fun implemented entry =>
          entry.2.implTraitRelations.foldl (addImplemented implIndex entry.2.useTraitImports)
            implemented) implemented) crateRoot owner traitName ↔
        Implemented implemented crateRoot owner traitName ∨ ∃ entry ∈ entries,
          ∃ relation ∈ entry.2.implTraitRelations,
            relation.crateRoot = crateRoot ∧ relation.implType = owner ∧
              provenTrait implIndex entry.2.useTraitImports relation = some traitName := by
    intro entries
    induction entries with
    | nil => simp
    | cons entry entries ih =>
        intro implemented
        rw [List.foldl_cons, ih, ofFile, or_assoc]
        simp only [List.mem_cons, exists_eq_or_imp]
  rw [buildImplemented, ofFiles]
  exact or_iff_right (by simp [Implemented])

/-- A type that a crate records as implementing a trait. -/
def RecordedImplementor (crateRoot owner traitName : String) : Prop :=
  ∃ entry ∈ (reassignedFacts factsByFile).toList, ∃ relation ∈ entry.2.implTraitRelations,
    relation.crateRoot = crateRoot ∧ relation.implType = owner ∧
      provenTrait (ImplTargetIndex.build (reassignedFacts factsByFile)) entry.2.useTraitImports
        relation = some traitName

theorem mem_implementors {crateRoot owner traitName : String} :
    owner ∈ (callIndex factsByFile).implementors crateRoot traitName ↔
      RecordedImplementor factsByFile crateRoot owner traitName := by
  rw [RecordedImplementor, ← buildImplemented_iff]
  simp only [DefinitionIndex.implementors, callIndex, DefinitionIndex.build, List.mem_map,
    List.mem_filter, decide_eq_true_eq, Implemented]
  constructor
  · rintro ⟨⟨⟨root, type⟩, traits⟩, ⟨listed, rfl, member⟩, rfl⟩
    exact ⟨traits, Std.ExtTreeMap.mem_toList_iff_getElem?_eq_some.mp listed, member⟩
  · rintro ⟨traits, found, member⟩
    exact ⟨((crateRoot, owner), traits),
      ⟨Std.ExtTreeMap.mem_toList_iff_getElem?_eq_some.mpr found, rfl, member⟩, rfl⟩

end Implemented

end Egregore
