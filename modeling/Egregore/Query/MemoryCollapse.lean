import Egregore.Base.Binary32
import Egregore.Base.SliceSort
import Egregore.Base.Tally
import Egregore.Base.UnionFind
import Egregore.Query.TxDelta

/-!
# Collapse of near-duplicate memories

A recall that finds several observations about the same code shows one of each cluster of similar
ones. Candidates are known by their positions. Those that cite the same code at the same commit
form a group; within a group a union-find joins the similar ones, and its components are the
clusters.
-/

namespace Egregore

open Base

/-- `CollapseMode`. -/
inductive CollapseMode where
  | embeddingCosine | normalizedText
  deriving DecidableEq, Repr

/-- `TrustClass`. -/
inductive TrustClass where
  | sourceDerived | verificationEvidence | agentVerified | agentUnverified | agentContradicted
  | projectState | artifact | runtimeObservation | other
  deriving DecidableEq, Repr

def TrustClass.asStr : TrustClass → String
  | sourceDerived => "source_derived"
  | verificationEvidence => "verification_evidence"
  | agentVerified => "agent_verified"
  | agentUnverified => "agent_unverified"
  | agentContradicted => "agent_contradicted"
  | projectState => "project_state"
  | artifact => "artifact"
  | runtimeObservation => "runtime_observation"
  | other => "other"

/-- The code that a memory cites. -/
structure PrimaryCitedTarget where
  targetRecordId : String
  relation : String
  asOfCommit : Option String
  deriving DecidableEq, Repr

/-- A row of the recall. -/
structure CollapseCandidate where
  recordId : String
  kind : String
  trustClass : TrustClass
  agentAuthored : Bool
  primaryTarget : Option PrimaryCitedTarget
  bodyText : String
  confidence : Option F32
  observedAt : Option String
  vector : Option (List F32)
  retrievalScore : Option F32
  deriving DecidableEq, Repr

structure CollapseConfig where
  mode : CollapseMode
  similarityThreshold : F32

/-- A cluster, its representative first. -/
structure CollapsedCluster where
  representative : CollapseCandidate
  members : List CollapseCandidate
  observedAtMin : Option String
  observedAtMax : Option String
  trustSpread : StrMap Nat

structure CollapseOutcome where
  mode : CollapseMode
  threshold : F32
  sourceCandidateCount : Nat
  clusters : List CollapsedCluster

/-- What the collapse uses of Unicode and of floating-point arithmetic. -/
structure Similarity where
  normalizeMemoryText : String → String
  cosineSimilarity : List F32 → List F32 → Option F32

/-- The order of two stamps: of their instants if both are RFC 3339, else of their texts. -/
def stampOrder (chrono : Chrono) (first second : String) : Ordering :=
  match chrono.parseFromRfc3339 first, chrono.parseFromRfc3339 second with
  | .ok left, .ok right => cmp left right
  | _, _ => byteOrder first second

/-- The order of two stamps of which each may be missing. -/
def observedOrder (chrono : Chrono) : Option String → Option String → Ordering
  | some first, some second => stampOrder chrono first second
  | some _, none => .lt
  | none, some _ => .gt
  | none, none => .eq

/-- Highest confidence first, then the earliest observation, then the smallest record id. -/
def representativeOrder (chrono : Chrono) (first second : CollapseCandidate) : Ordering :=
  ((second.confidence.getD F32.negInfinity).totalCmp (first.confidence.getD F32.negInfinity)).then
    ((observedOrder chrono first.observedAt second.observedAt).then
      (byteOrder first.recordId second.recordId))

/-- Whether two candidates of a group are similar enough. -/
def aboveThreshold (similarity : Similarity) (config : CollapseConfig)
    (first second : CollapseCandidate) : Bool :=
  match config.mode with
  | .embeddingCosine =>
      match first.vector, second.vector with
      | some firstVector, some secondVector =>
          (similarity.cosineSimilarity firstVector secondVector).any
            fun cosine => cosine.ge config.similarityThreshold
      | _, _ => false
  | .normalizedText =>
      similarity.normalizeMemoryText first.bodyText = similarity.normalizeMemoryText second.bodyText

/-- A cited record and the commit it is cited at, in the order of the groups. -/
abbrev citedOrder : String × Option String → String × Option String → Ordering :=
  compareLex (compareOn fun key => asBytes key.1) (compareOn fun key => key.2.map asBytes)

instance : Std.LawfulEqCmp citedOrder where
  eq_of_compare {left right} same := by
    obtain ⟨first, second⟩ := left
    obtain ⟨first', second'⟩ := right
    simp only [citedOrder, compareLex, compareOn, Ordering.then_eq_eq,
      Std.LawfulEqCmp.compare_eq_iff_eq] at same
    obtain ⟨sameRecord, sameCommit⟩ := same
    rw [asBytes_injective sameRecord, Option.map_injective (fun _ _ => asBytes_injective) sameCommit]

section Clustering

variable {size : Nat} (candidate : Fin size → CollapseCandidate)

/-- The positions of the candidates that cite the same record at the same commit. -/
def targetGroups : Std.ExtTreeMap (String × Option String) (List (Fin size)) citedOrder :=
  (List.finRange size).foldl (pushEntry fun index =>
    (candidate index).primaryTarget.map fun target =>
      ((target.targetRecordId, target.asOfCommit), index)) ∅

variable (above : CollapseCandidate → CollapseCandidate → Bool)

/-- The condition under which two members of a group are joined. -/
def mayMerge (first second : CollapseCandidate) : Bool :=
  first.agentAuthored && second.agentAuthored && first.kind = second.kind && above first second

/-- Joins the similar pairs of a group. -/
def joinGroup (forest : UnionFind size) : List (Fin size) → UnionFind size
  | [] => forest
  | first :: rest =>
      joinGroup (rest.foldl (fun forest second =>
        if mayMerge above (candidate first) (candidate second) then forest.union first second
        else forest) forest) rest

/-- The union-find after all groups. -/
def joinGroups : UnionFind size :=
  ((targetGroups candidate).toList.map Prod.snd).foldl (joinGroup candidate above)
    (UnionFind.new size)

/-- Lists a position under the root that `find` returns for it. -/
def pushComponent
    (state : UnionFind size × Std.ExtTreeMap (Fin size) (List (Fin size)) compare)
    (index : Fin size) : UnionFind size × Std.ExtTreeMap (Fin size) (List (Fin size)) compare :=
  let (forest, root) := state.1.find index
  (forest, pushEntry some state.2 (root.1, index))

/-- The positions by their roots. -/
def components (forest : UnionFind size) :
    Std.ExtTreeMap (Fin size) (List (Fin size)) compare :=
  ((List.finRange size).foldl pushComponent (forest, ∅)).2

end Clustering

/-- The cluster of some positions. A sort that panics has no result, nor have no positions. -/
def collapsedCluster (sort : SliceSort) (chrono : Chrono) {size : Nat}
    (candidate : Fin size → CollapseCandidate) (positions : List (Fin size)) :
    Option CollapsedCluster := do
  let positions ← sort.run (fun first second =>
    representativeOrder chrono (candidate first) (candidate second)) positions
  let members := positions.map candidate
  let observed ← sort.run (stampOrder chrono) (members.filterMap CollapseCandidate.observedAt)
  let representative ← members.head?
  return {
    representative := representative
    members := members
    observedAtMin := observed.head?
    observedAtMax := observed.getLast?
    trustSpread := members.foldl (tally fun member => member.trustClass.asStr) ∅ }

/-- Highest retrieval score first, then the smallest record id. -/
def clusterOrder (first second : CollapsedCluster) : Ordering :=
  ((second.representative.retrievalScore.getD F32.negInfinity).totalCmp
    (first.representative.retrievalScore.getD F32.negInfinity)).then
    (byteOrder first.representative.recordId second.representative.recordId)

/-- `collapse_memory_recall`, with any relation in the place of `above_threshold`. A panic has no
result. -/
def collapseMemoryRecall (sort : SliceSort) (chrono : Chrono)
    (above : CollapseConfig → CollapseCandidate → CollapseCandidate → Bool)
    (candidates : List CollapseCandidate) (config : CollapseConfig) : Option CollapseOutcome := do
  let forest := joinGroups candidates.get (above config)
  let clusters ← ((components forest).toList.map Prod.snd).mapM
    (collapsedCluster sort chrono candidates.get)
  let clusters ← sort.run clusterOrder clusters
  return {
    mode := config.mode
    threshold := config.similarityThreshold
    sourceCandidateCount := candidates.length
    clusters := clusters }

end Egregore
