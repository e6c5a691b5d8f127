import Egregore.Adapters.Sink
import Egregore.Query.Liveness

/-!
# Evidence citations

The checked evidence vocabulary of `evidence_link_audit.rs` and the citations an
ingest collects from a batch, with what is left out: an inline link is recognised
through a list of labels that misses `DependsOn`.
-/

namespace Egregore

open Base

/-- `ALL_EDGE_LABELS`, as the source lists it. -/
def allEdgeLabels : List EdgeLabel := [
  .contains, .defines, .imports, .references, .calls, .implements, .mentions, .changedIn,
  .parentOf, .driftsFrom, .driftsPrior, .measuredBy, .sessionOf, .authoredBy, .hasEvidence,
  .observes, .mentionsSymbol, .touchedFile, .producedPatch, .producedEvidence, .validatedBy,
  .closesAcceptanceCriterion, .ownedByTask, .externalHandle, .touchesFile, .mergedAs,
  .reviewsCommit, .reviewedBy, .requestedReviewFrom, .transitionsReview, .failedOn,
  .explainsChange, .referencesTask, .contradicts, .supersedes, .proposedBy, .promptedFor,
  .decidedOn, .materializedAs, .revokedBy, .scopedToRepo, .relatesTo, .fingerprintedAs,
  .capturedFrom, .aggregates, .frameResolvesTo, .emittedDuring]

/-- `is_integrity_checked_evidence_edge`. -/
def isIntegrityCheckedEvidenceEdge : EdgeLabel → Bool
  | .hasEvidence | .observes | .mentionsSymbol | .touchedFile | .producedPatch
  | .producedEvidence | .validatedBy | .closesAcceptanceCriterion | .ownedByTask
  | .externalHandle | .dependsOn | .touchesFile | .mergedAs | .reviewsCommit | .reviewedBy
  | .requestedReviewFrom | .transitionsReview | .failedOn | .explainsChange | .referencesTask
  | .contradicts | .supersedes | .relatesTo | .frameResolvesTo | .emittedDuring
  | .materializedAs | .proposedBy | .promptedFor | .decidedOn | .revokedBy | .scopedToRepo
  | .fingerprintedAs | .capturedFrom | .aggregates => true
  | .contains | .defines | .imports | .references | .calls | .constructs | .registersRoute
  | .implements | .mentions | .changedIn | .parentOf | .driftsFrom | .driftsPrior | .measuredBy
  | .sessionOf | .authoredBy => false

/-- `edge_label_from_wire`. -/
def edgeLabelFromWire (wire : String) : Option EdgeLabel :=
  allEdgeLabels.find? fun label => label.asStr = wire

/-- `EvidenceCitation`. -/
structure EvidenceCitation where
  citingRecordId : String
  targetRecordId : String
  relation : String
  targetDomain : String
  deriving DecidableEq, Repr

/-- The inline links of a node, in the order they are read. -/
def NodeRecord.inlineLinks (record : NodeRecord) : List EvidenceLink :=
  record.evidenceLinks.getD [] ++ record.userContext.supportingEvidence.getD [] ++
    record.userContext.contradictingEvidence.getD []

/-- What `collect_evidence_citations` takes from one inline link. -/
def inlineCitation (citer : String) (link : EvidenceLink) : Option EvidenceCitation :=
  match edgeLabelFromWire link.relation with
  | none => none
  | some label =>
      if isIntegrityCheckedEvidenceEdge label then
        match link.targetRecordId.filter fun target => target ≠ "" with
        | some target => some ⟨citer, target, link.relation, link.targetDomain⟩
        | none => none
      else none

/-- What `collect_evidence_citations` takes from one record. -/
def citationsOf : GraphRecord → List EvidenceCitation
  | .edge record =>
      if isIntegrityCheckedEvidenceEdge record.label then
        [⟨record.id, record.target, record.label.asStr,
          (domainFromRecordId record.target).getD "unknown"⟩]
      else []
  | .node record => record.inlineLinks.filterMap (inlineCitation record.id)
  | .tombstone _ => []

/-- `collect_evidence_citations`. -/
def collectEvidenceCitations (records : List GraphRecord) : List EvidenceCitation :=
  records.flatMap citationsOf

/-- What a citation is: a checked edge, or an inline link whose relation names a checked label
and whose target is given. -/
inductive Cites : GraphRecord → EdgeLabel → String → Prop where
  | edge (record : EdgeRecord) (checked : isIntegrityCheckedEvidenceEdge record.label = true) :
      Cites (.edge record) record.label record.target
  | inline (record : NodeRecord) (link : EvidenceLink) (label : EdgeLabel) (target : String)
      (carried : link ∈ record.inlineLinks) (names : link.relation = label.asStr)
      (checked : isIntegrityCheckedEvidenceEdge label = true)
      (given : link.targetRecordId = some target) (nonempty : target ≠ "") :
      Cites (.node record) label target

/-- An inline link of a label that `edge_label_from_wire` does not know. -/
def Overlooked (record : GraphRecord) (label : EdgeLabel) : Prop :=
  (∃ node, record = .node node) ∧ label = .dependsOn

/-- The list misses one checked label. -/
theorem edgeLabelFromWire_asStr {label : EdgeLabel}
    (checked : isIntegrityCheckedEvidenceEdge label = true) :
    edgeLabelFromWire label.asStr = if label = .dependsOn then none else some label := by
  revert checked
  cases label <;> decide

theorem citingRecordId_of_mem {record : GraphRecord} {citation : EvidenceCitation}
    (member : citation ∈ citationsOf record) : citation.citingRecordId = record.id := by
  cases record with
  | tombstone record => simp [citationsOf] at member
  | edge record =>
      simp only [citationsOf] at member
      split at member
      · rw [List.mem_singleton.mp member]
        rfl
      · simp at member
  | node record =>
      obtain ⟨link, -, found⟩ := List.mem_filterMap.mp member
      unfold inlineCitation at found
      split at found
      · contradiction
      · split at found
        · split at found
          · rw [← Option.some.inj found]
            rfl
          · contradiction
        · contradiction

theorem edgeLabelFromWire_eq_some {wire : String} {label : EdgeLabel}
    (found : edgeLabelFromWire wire = some label) : wire = label.asStr := by
  have := List.find?_some found
  exact (of_decide_eq_true this).symm

/-- The targets collected from a record are its citations, but for the overlooked ones. -/
theorem cites_of_mem_citationsOf {record : GraphRecord} {citation : EvidenceCitation}
    (member : citation ∈ citationsOf record) :
    ∃ label, Cites record label citation.targetRecordId ∧ ¬ Overlooked record label := by
  cases record with
  | tombstone record => simp [citationsOf] at member
  | edge record =>
      simp only [citationsOf] at member
      split at member
      · next checked =>
          rw [List.mem_singleton.mp member]
          exact ⟨record.label, .edge record checked, by simp [Overlooked]⟩
      · simp at member
  | node record =>
      obtain ⟨link, carried, found⟩ := List.mem_filterMap.mp member
      unfold inlineCitation at found
      split at found
      · contradiction
      · next label wire =>
          split at found
          · next checked =>
              split at found
              · next target given =>
                  rw [← Option.some.inj found]
                  obtain ⟨given, nonempty⟩ := Option.filter_eq_some_iff.mp given
                  refine ⟨label, .inline record link label target carried
                    (edgeLabelFromWire_eq_some wire) checked given (by simpa using nonempty), ?_⟩
                  rintro ⟨-, rfl⟩
                  have missing := edgeLabelFromWire_asStr checked
                  rw [← edgeLabelFromWire_eq_some wire, wire] at missing
                  simp at missing
              · contradiction
          · contradiction

theorem exists_mem_citationsOf {record : GraphRecord} {label : EdgeLabel} {target : String}
    (cites : Cites record label target) (seen : ¬ Overlooked record label) :
    ∃ citation ∈ citationsOf record, citation.targetRecordId = target := by
  cases cites with
  | edge record checked =>
      rw [citationsOf, if_pos checked]
      exact ⟨_, List.mem_singleton_self _, rfl⟩
  | inline record link label target carried names checked given nonempty =>
      have listed : label ≠ .dependsOn := fun same => seen ⟨⟨record, rfl⟩, same⟩
      refine ⟨⟨record.id, target, link.relation, link.targetDomain⟩, ?_, rfl⟩
      refine List.mem_filterMap.mpr ⟨link, carried, ?_⟩
      simp [inlineCitation, names, edgeLabelFromWire_asStr checked, listed, checked, given,
        nonempty, Option.filter_some]

end Egregore
