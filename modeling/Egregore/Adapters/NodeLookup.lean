import Egregore.Base.Champion
import Egregore.Base.OrderedMap
import Egregore.Ir

/-!
# Node lookup index

The maps from stable record IDs to physical nodes that the embedded sink keeps,
and what they hold after any sequence of insertions. Each answer is the best of
a set of candidates, so the order of the insertions does not matter.
-/

namespace Egregore

open Base

/-- `TemporalReadKey`; instants are integers. -/
structure TemporalReadKey where
  validTime : Int
  observedAt : Int
  gitCommit : String
  deriving DecidableEq, Repr

/-- The derived order of `TemporalReadKey`: its fields, first to last. -/
def keyOrder : TemporalReadKey → TemporalReadKey → Ordering :=
  compareLex (compareOn TemporalReadKey.validTime)
    (compareLex (compareOn TemporalReadKey.observedAt)
      (compareOn fun key => asBytes key.gitCommit))

instance : Std.TransCmp keyOrder :=
  inferInstanceAs (Std.TransCmp (compareLex (compareOn TemporalReadKey.validTime)
    (compareLex (compareOn TemporalReadKey.observedAt)
      (compareOn fun key => asBytes key.gitCommit))))

instance : Std.LawfulEqCmp keyOrder where
  eq_of_compare {left right} same := by
    obtain ⟨validTime, observedAt, gitCommit⟩ := left
    obtain ⟨validTime', observedAt', gitCommit'⟩ := right
    simp only [keyOrder, compareLex, compareOn, Ordering.then_eq_eq,
      Std.LawfulEqCmp.compare_eq_iff_eq] at same
    obtain ⟨rfl, rfl, commits⟩ := same
    rw [asBytes_injective commits]

/-- `ReadBackCandidate`. -/
structure ReadBackCandidate where
  storageId : Nat
  temporalKey : Option TemporalReadKey
  deriving DecidableEq, Repr

/-- Keys compared with the missing key below every key. -/
def optionalKeyOrder : Option TemporalReadKey → Option TemporalReadKey → Ordering
  | none, none => .eq
  | none, some _ => .lt
  | some _, none => .gt
  | some key, some other => keyOrder key other

instance : Std.TransCmp optionalKeyOrder where
  eq_swap {left right} := by
    cases left with
    | none => cases right <;> rfl
    | some key =>
        cases right with
        | none => rfl
        | some other =>
            exact (Std.OrientedCmp.eq_swap : keyOrder key other = (keyOrder other key).swap)
  isLE_trans {first second third} below above := by
    cases first <;> cases second <;> cases third <;> simp_all [optionalKeyOrder]
    exact Std.TransCmp.isLE_trans below above

instance : Std.LawfulEqCmp optionalKeyOrder where
  eq_of_compare {left right} same := by
    cases left <;> cases right <;> simp_all [optionalKeyOrder, Std.LawfulEqCmp.compare_eq_iff_eq]

/-- Candidates by temporal key, and by storage id where the keys agree. -/
def candidateOrder : ReadBackCandidate → ReadBackCandidate → Ordering :=
  compareLex (fun candidate other => optionalKeyOrder candidate.temporalKey other.temporalKey)
    (compareOn ReadBackCandidate.storageId)

instance keyOrderOfCandidates : Std.TransCmp fun candidate other : ReadBackCandidate =>
    optionalKeyOrder candidate.temporalKey other.temporalKey where
  eq_swap := Std.OrientedCmp.eq_swap
  isLE_trans := Std.TransCmp.isLE_trans

instance : Std.TransCmp candidateOrder :=
  inferInstanceAs (Std.TransCmp (compareLex
    (fun candidate other : ReadBackCandidate =>
      optionalKeyOrder candidate.temporalKey other.temporalKey)
    (compareOn ReadBackCandidate.storageId)))

/-- Candidates are ranked by their temporal keys, and then by their positions. -/
theorem candidateOrder_eq_lt {candidate other : ReadBackCandidate} :
    candidateOrder candidate other = .lt ↔
      optionalKeyOrder candidate.temporalKey other.temporalKey = .lt ∨
        optionalKeyOrder candidate.temporalKey other.temporalKey = .eq ∧
          candidate.storageId < other.storageId := by
  simp [candidateOrder, compareLex, compareOn, Ordering.then_eq_lt, Nat.compare_eq_lt]

instance : Std.LawfulEqCmp candidateOrder where
  eq_of_compare {left right} same := by
    obtain ⟨storageId, temporalKey⟩ := left
    obtain ⟨storageId', temporalKey'⟩ := right
    simp only [candidateOrder, compareLex, compareOn, Ordering.then_eq_eq,
      Std.LawfulEqCmp.compare_eq_iff_eq] at same
    obtain ⟨rfl, rfl⟩ := same
    rfl

/-- `should_replace_read_back_candidate`. -/
def shouldReplaceReadBackCandidate (current : Option ReadBackCandidate)
    (candidate : ReadBackCandidate) : Bool :=
  match current with
  | none => true
  | some current =>
      match current.temporalKey, candidate.temporalKey with
      | none, none => current.storageId < candidate.storageId
      | none, some _ => true
      | some currentKey, some candidateKey =>
          keyOrder candidateKey currentKey = .gt ||
            (candidateKey = currentKey && current.storageId < candidate.storageId)
      | some _, none => false

/-- The replacement relation is the strict order of the candidates. -/
theorem shouldReplace_some (current candidate : ReadBackCandidate) :
    shouldReplaceReadBackCandidate (some current) candidate =
      decide (candidateOrder current candidate = .lt) := by
  obtain ⟨storageId, temporalKey⟩ := current
  obtain ⟨storageId', temporalKey'⟩ := candidate
  rw [Bool.eq_iff_iff, decide_eq_true_eq, candidateOrder_eq_lt]
  cases temporalKey with
  | none => cases temporalKey' <;> simp [shouldReplaceReadBackCandidate, optionalKeyOrder]
  | some key =>
      cases temporalKey' with
      | none => simp [shouldReplaceReadBackCandidate, optionalKeyOrder]
      | some key' =>
          have swapped : keyOrder key' key = .gt ↔ keyOrder key key' = .lt :=
            Std.OrientedCmp.gt_iff_lt
          have tied : keyOrder key key' = .eq ↔ key' = key :=
            Std.LawfulEqCmp.compare_eq_iff_eq.trans eq_comm
          simp [shouldReplaceReadBackCandidate, optionalKeyOrder, swapped, tied]

/-- Insert a candidate under a key it replaces. -/
def replaceCandidate {κ : Type*} {cmp : κ → κ → Ordering} [Std.TransCmp cmp]
    (candidates : Std.ExtTreeMap κ ReadBackCandidate cmp) (key : κ)
    (candidate : ReadBackCandidate) : Std.ExtTreeMap κ ReadBackCandidate cmp :=
  if shouldReplaceReadBackCandidate candidates[key]? candidate then
    candidates.insert key candidate
  else candidates

/-- Replacing a candidate keeps the better one, and those of other keys. -/
theorem getElem?_replaceCandidate {κ : Type*} {cmp : κ → κ → Ordering} [Std.TransCmp cmp]
    [Std.LawfulEqCmp cmp] [DecidableEq κ] (candidates : Std.ExtTreeMap κ ReadBackCandidate cmp)
    (key other : κ) (candidate : ReadBackCandidate) :
    (replaceCandidate candidates key candidate)[other]? =
      if key = other then keepBest candidateOrder candidates[key]? candidate
      else candidates[other]? := by
  unfold replaceCandidate
  cases held : candidates[key]? with
  | none => simp [shouldReplaceReadBackCandidate, keepBest, getElem?_insert_eq]
  | some current =>
      rw [shouldReplace_some]
      by_cases less : candidateOrder current candidate = .lt
      · simp [less, keepBest, getElem?_insert_eq]
      · by_cases same : key = other
        · subst same
          simp [less, keepBest, held]
        · simp [less, same]

/-- `NodeLookupIndex`. -/
structure NodeLookupIndex where
  latest : StrMap ReadBackCandidate := ∅
  byCommit : StrMap (StrMap ReadBackCandidate) := ∅
  byObservation : StrMap (Std.ExtTreeMap TemporalReadKey ReadBackCandidate keyOrder) := ∅
  nonTemporal : StrMap Nat := ∅
  singleCandidate : StrMap Nat := ∅
  candidateCounts : StrMap Nat := ∅

/-- Keep the greater of a kept node id and a new one. -/
def greaterId (current : Option Nat) (nodeId : Nat) : Nat :=
  match current with
  | some current => if current < nodeId then nodeId else current
  | none => nodeId

/-- Of two positions the later one is kept. -/
theorem keepBest_compare (current : Option Nat) (nodeId : Nat) :
    keepBest compare current nodeId = some (greaterId current nodeId) := by
  cases current with
  | none => rfl
  | some best =>
      simp only [keepBest, greaterId, Nat.compare_eq_lt]
      split <;> rfl

namespace NodeLookupIndex

/-- `NodeLookupIndex::insert`. -/
def insert (index : NodeLookupIndex) (recordId : String) (nodeId : Nat)
    (temporalKey : Option TemporalReadKey) : NodeLookupIndex :=
  let candidate : ReadBackCandidate := ⟨nodeId, temporalKey⟩
  let index := { index with
    candidateCounts :=
      index.candidateCounts.insert recordId (index.candidateCounts.getD recordId 0 + 1)
    singleCandidate := index.singleCandidate.insertIfNew recordId nodeId
    latest := replaceCandidate index.latest recordId candidate }
  match temporalKey with
  | some key =>
      { index with
        byObservation := index.byObservation.insert recordId
          (replaceCandidate (index.byObservation.getD recordId ∅) key candidate)
        byCommit := index.byCommit.insert recordId
          (replaceCandidate (index.byCommit.getD recordId ∅) key.gitCommit candidate) }
  | none =>
      { index with
        nonTemporal := index.nonTemporal.insert recordId
          (greaterId index.nonTemporal[recordId]? nodeId) }

/-- `NodeLookupIndex::latest_node`. -/
def latestNode (index : NodeLookupIndex) (recordId : String) : Option Nat :=
  index.latest[recordId]?.map ReadBackCandidate.storageId

/-- `NodeLookupIndex::node_for_commit`. -/
def nodeForCommit (index : NodeLookupIndex) (recordId gitCommit : String) : Option Nat :=
  (index.byCommit[recordId]?.bind fun commits => commits[gitCommit]?).map
    ReadBackCandidate.storageId

/-- `NodeLookupIndex::node_for_observation`. -/
def nodeForObservation (index : NodeLookupIndex) (recordId : String) (key : TemporalReadKey) :
    Option Nat :=
  (index.byObservation[recordId]?.bind fun observations => observations[key]?).map
    ReadBackCandidate.storageId

/-- `NodeLookupIndex::endpoint_node`. -/
def endpointNode (index : NodeLookupIndex) (recordId : String) (gitCommit : Option String) :
    Except String (Option Nat) :=
  match gitCommit.bind (index.nodeForCommit recordId) with
  | some nodeId => .ok (some nodeId)
  | none =>
      match index.nonTemporal[recordId]? with
      | some nodeId => .ok (some nodeId)
      | none =>
          match index.candidateCounts.getD recordId 0 with
          | 0 => .ok none
          | 1 => .ok index.singleCandidate[recordId]?
          | _ => .error "has multiple temporal observations and no matching edge commit"

end NodeLookupIndex

/-- One insertion into the index. -/
structure IndexedNode where
  recordId : String
  nodeId : Nat
  temporalKey : Option TemporalReadKey
  deriving DecidableEq, Repr

/-- Index nodes in the order given. -/
def NodeLookupIndex.ofNodes (nodes : List IndexedNode) : NodeLookupIndex :=
  nodes.foldl (fun index node => index.insert node.recordId node.nodeId node.temporalKey) {}

/-- The candidates under an ID, in the order of their insertion. -/
def candidatesOf (id : String) (nodes : List IndexedNode) : List ReadBackCandidate :=
  (nodes.filter fun node => node.recordId = id).map fun node => ⟨node.nodeId, node.temporalKey⟩

/-- A new node is a candidate of its own ID. -/
theorem candidatesOf_append_singleton (id : String) (nodes : List IndexedNode)
    (last : IndexedNode) :
    candidatesOf id (nodes ++ [last]) =
      candidatesOf id nodes ++
        if last.recordId = id then [⟨last.nodeId, last.temporalKey⟩] else [] := by
  by_cases same : last.recordId = id <;> simp [candidatesOf, same]

/-- The candidates observed at a commit. -/
def atCommit (commit : String) (candidate : ReadBackCandidate) : Bool :=
  candidate.temporalKey.any fun key => key.gitCommit = commit

/-- The candidates of one observation. -/
def atObservation (key : TemporalReadKey) (candidate : ReadBackCandidate) : Bool :=
  candidate.temporalKey = some key

/-- The candidates that carry no temporal key. -/
def isNonTemporal (candidate : ReadBackCandidate) : Bool := candidate.temporalKey = none

/-- What an index answers, in terms of the nodes inserted. -/
structure NodeLookupIndex.Describes (index : NodeLookupIndex) (nodes : List IndexedNode) :
    Prop where
  latest : ∀ id, index.latest[id]? = bestOf candidateOrder (candidatesOf id nodes)
  byCommit : ∀ id commit, (index.byCommit.getD id ∅)[commit]? =
    bestOf candidateOrder ((candidatesOf id nodes).filter (atCommit commit))
  byObservation : ∀ id key, (index.byObservation.getD id ∅)[key]? =
    bestOf candidateOrder ((candidatesOf id nodes).filter (atObservation key))
  nonTemporal : ∀ id, index.nonTemporal[id]? =
    (bestOf candidateOrder ((candidatesOf id nodes).filter isNonTemporal)).map
      ReadBackCandidate.storageId
  count : ∀ id, index.candidateCounts.getD id 0 = (candidatesOf id nodes).length
  single : ∀ id, index.singleCandidate[id]? =
    (candidatesOf id nodes).head?.map ReadBackCandidate.storageId

/-- The empty index describes no nodes. -/
theorem NodeLookupIndex.describes_empty : NodeLookupIndex.Describes {} [] := by
  constructor <;> intros <;> simp [candidatesOf, Std.ExtTreeMap.getD_eq_getD_getElem?]

/-- The non-temporal candidate kept is the one with the greatest id. -/
theorem keepBest_nonTemporal {current : Option ReadBackCandidate} (nodeId : Nat)
    (plain : ∀ best ∈ current, isNonTemporal best) :
    (keepBest candidateOrder current ⟨nodeId, none⟩).map ReadBackCandidate.storageId =
      some (greaterId (current.map ReadBackCandidate.storageId) nodeId) := by
  cases current with
  | none => rfl
  | some best =>
      obtain ⟨storageId, temporalKey⟩ := best
      obtain rfl : temporalKey = none := by simpa [isNonTemporal] using plain _ rfl
      have less : candidateOrder ⟨storageId, none⟩ ⟨nodeId, none⟩ = .lt ↔ storageId < nodeId := by
        simp [candidateOrder_eq_lt, optionalKeyOrder]
      simp only [keepBest, less, Option.map_some, greaterId]
      split <;> rfl

/-- Inserting a node keeps the index describing. -/
theorem NodeLookupIndex.Describes.insert {index : NodeLookupIndex} {nodes : List IndexedNode}
    (described : index.Describes nodes) (recordId : String) (nodeId : Nat)
    (temporalKey : Option TemporalReadKey) :
    (index.insert recordId nodeId temporalKey).Describes
      (nodes ++ [⟨recordId, nodeId, temporalKey⟩]) where
  latest id := by
    have kept : (index.insert recordId nodeId temporalKey).latest =
        replaceCandidate index.latest recordId ⟨nodeId, temporalKey⟩ := by
      cases temporalKey <;> rfl
    rw [kept, getElem?_replaceCandidate, candidatesOf_append_singleton]
    by_cases same : recordId = id
    · subst same
      simp [bestOf_append_singleton, described.latest]
    · simp [same, described.latest]
  byCommit id commit := by
    rw [candidatesOf_append_singleton, List.filter_append]
    cases temporalKey with
    | none =>
        by_cases same : recordId = id <;>
          simp [NodeLookupIndex.insert, same, atCommit, described.byCommit]
    | some key =>
        simp only [NodeLookupIndex.insert, getD_insert_eq]
        by_cases same : recordId = id
        · subst same
          by_cases at_commit : key.gitCommit = commit
          · subst at_commit
            simp [getElem?_replaceCandidate, atCommit, bestOf_append_singleton,
              described.byCommit]
          · simp [getElem?_replaceCandidate, atCommit, at_commit, described.byCommit]
        · simp [same, described.byCommit]
  byObservation id observation := by
    rw [candidatesOf_append_singleton, List.filter_append]
    cases temporalKey with
    | none =>
        by_cases same : recordId = id <;>
          simp [NodeLookupIndex.insert, same, atObservation, described.byObservation]
    | some key =>
        simp only [NodeLookupIndex.insert, getD_insert_eq]
        by_cases same : recordId = id
        · subst same
          by_cases observed : key = observation
          · subst observed
            simp [getElem?_replaceCandidate, atObservation, bestOf_append_singleton,
              described.byObservation]
          · simp [getElem?_replaceCandidate, atObservation, observed, described.byObservation]
        · simp [same, described.byObservation]
  nonTemporal id := by
    rw [candidatesOf_append_singleton, List.filter_append]
    cases temporalKey with
    | none =>
        by_cases same : recordId = id
        · subst same
          have plain : ∀ best ∈ bestOf candidateOrder
              ((candidatesOf recordId nodes).filter isNonTemporal), isNonTemporal best := by
            intro best found
            exact (List.mem_filter.mp (isBest_of_bestOf found).mem).2
          have kept := keepBest_nonTemporal nodeId plain
          rw [← described.nonTemporal] at kept
          simpa [NodeLookupIndex.insert, getElem?_insert_eq, isNonTemporal,
            bestOf_append_singleton] using kept.symm
        · simp [NodeLookupIndex.insert, getElem?_insert_eq, same, described.nonTemporal]
    | some key =>
        by_cases same : recordId = id <;>
          simp [NodeLookupIndex.insert, same, isNonTemporal, described.nonTemporal]
  count id := by
    have counted : (index.insert recordId nodeId temporalKey).candidateCounts =
        index.candidateCounts.insert recordId (index.candidateCounts.getD recordId 0 + 1) := by
      cases temporalKey <;> rfl
    rw [counted, getD_insert_eq, candidatesOf_append_singleton, described.count]
    by_cases same : recordId = id
    · subst same
      simp
    · simp [same, described.count]
  single id := by
    have kept : (index.insert recordId nodeId temporalKey).singleCandidate =
        index.singleCandidate.insertIfNew recordId nodeId := by
      cases temporalKey <;> rfl
    rw [kept, getElem?_insertIfNew_eq, candidatesOf_append_singleton, described.single]
    by_cases same : recordId = id
    · subst same
      cases candidatesOf recordId nodes <;> simp
    · simp [same]

section Answers

variable {index other : NodeLookupIndex} {nodes nodes' : List IndexedNode}

/-- The latest node is the best candidate of its ID. -/
theorem NodeLookupIndex.Describes.latestNode_eq (described : index.Describes nodes) (id : String) :
    index.latestNode id =
      (bestOf candidateOrder (candidatesOf id nodes)).map ReadBackCandidate.storageId := by
  rw [latestNode, described.latest]

/-- A missing map is an empty one. -/
private theorem bind_getElem?_eq {κ : Type*} {cmp : κ → κ → Ordering} [Std.TransCmp cmp]
    (maps : StrMap (Std.ExtTreeMap κ ReadBackCandidate cmp)) (id : String) (key : κ) :
    (maps[id]?.bind fun candidates => candidates[key]?) = (maps.getD id ∅)[key]? := by
  rw [Std.ExtTreeMap.getD_eq_getD_getElem?]
  cases maps[id]? <;> simp

/-- The node for a commit is the best candidate there. -/
theorem NodeLookupIndex.Describes.nodeForCommit_eq (described : index.Describes nodes)
    (id commit : String) :
    index.nodeForCommit id commit =
      (bestOf candidateOrder ((candidatesOf id nodes).filter (atCommit commit))).map
        ReadBackCandidate.storageId := by
  rw [nodeForCommit, bind_getElem?_eq, described.byCommit]

/-- The node for an observation is the best candidate of it. -/
theorem NodeLookupIndex.Describes.nodeForObservation_eq (described : index.Describes nodes)
    (id : String) (key : TemporalReadKey) :
    index.nodeForObservation id key =
      (bestOf candidateOrder ((candidatesOf id nodes).filter (atObservation key))).map
        ReadBackCandidate.storageId := by
  rw [nodeForObservation, bind_getElem?_eq, described.byObservation]

/-- The order of the nodes is the order of the candidates. -/
theorem candidatesOf_perm (same : nodes.Perm nodes') (id : String) :
    (candidatesOf id nodes).Perm (candidatesOf id nodes') :=
  (same.filter _).map _

/-- Two indexes of the same nodes, inserted in any two orders, give the same answers. -/
structure NodeLookupIndex.Agree (index other : NodeLookupIndex) : Prop where
  latestNode : ∀ id, index.latestNode id = other.latestNode id
  nodeForCommit : ∀ id commit, index.nodeForCommit id commit = other.nodeForCommit id commit
  nodeForObservation : ∀ id key,
    index.nodeForObservation id key = other.nodeForObservation id key
  nonTemporal : ∀ id : String, index.nonTemporal[id]? = other.nonTemporal[id]?
  endpointNode : ∀ id commit, index.endpointNode id commit = other.endpointNode id commit

/-- So indexes of the same nodes in any order agree. -/
theorem NodeLookupIndex.Describes.agree_of_perm (described : index.Describes nodes)
    (described' : other.Describes nodes') (same : nodes.Perm nodes') : index.Agree other := by
  have latest : ∀ id, index.latestNode id = other.latestNode id := fun id => by
    rw [described.latestNode_eq, described'.latestNode_eq, bestOf_perm (candidatesOf_perm same id)]
  have commits : ∀ id commit, index.nodeForCommit id commit = other.nodeForCommit id commit :=
    fun id commit => by
      rw [described.nodeForCommit_eq, described'.nodeForCommit_eq,
        bestOf_perm ((candidatesOf_perm same id).filter _)]
  have plain : ∀ id, index.nonTemporal[id]? = other.nonTemporal[id]? := fun id => by
    rw [described.nonTemporal, described'.nonTemporal,
      bestOf_perm ((candidatesOf_perm same id).filter _)]
  refine ⟨latest, commits, fun id key => ?_, plain, fun id commit => ?_⟩
  · rw [described.nodeForObservation_eq, described'.nodeForObservation_eq,
      bestOf_perm ((candidatesOf_perm same id).filter _)]
  · have counts : index.candidateCounts.getD id 0 = other.candidateCounts.getD id 0 := by
      rw [described.count, described'.count, (candidatesOf_perm same id).length_eq]
    have commitNode : commit.bind (index.nodeForCommit id) =
        commit.bind (other.nodeForCommit id) := by
      cases commit with
      | none => rfl
      | some commit => exact commits id commit
    -- The first candidate is only asked for when it is the only one.
    have single : other.candidateCounts.getD id 0 = 1 →
        index.singleCandidate[id]? = other.singleCandidate[id]? := by
      intro one
      rw [described'.count, List.length_eq_one_iff] at one
      obtain ⟨only, alone⟩ := one
      have permuted := candidatesOf_perm same id
      rw [alone, List.perm_singleton] at permuted
      rw [described.single, described'.single, permuted, alone]
    unfold endpointNode
    rw [commitNode, plain id, counts]
    cases commit.bind (other.nodeForCommit id) with
    | some nodeId => rfl
    | none =>
        cases other.nonTemporal[id]? with
        | some nodeId => rfl
        | none =>
            match counted : other.candidateCounts.getD id 0 with
            | 0 => rfl
            | 1 => exact congrArg Except.ok (single counted)
            | count + 2 => rfl

end Answers

end Egregore
