import Egregore.Base.Recency
import Egregore.Github.Carried

/-!
# The turns of an import

What each turn of a run adds to the graph and keeps in the state, and from the turns what a whole
run does. `Turn.trans` composes them, `Turn.of_changed` and `Turn.of_unchanged` are the two kinds,
and `turn_runImport` is the whole run.
-/

namespace Egregore.Github

open Base

section Kept

/-- The artifact IDs that the state keeps for a slot. -/
def State.kept (state : State) : Slot → List String
  | .merge number => (state.priorMergeArtifact (Resource.pull number).key).toList
  | .requests number => state.priorRequestEdges (Resource.pull number).key
  | .teams number => state.priorTeamDiagnostics (Resource.pull number).key
  | .comment id => (state.priorReviewArtifact (Resource.reviewComment id).key).toList
  | .review number id => (state.priorReviewArtifact (Resource.review number id).key).toList

/-- The parts of a key, which the colons separate. -/
def Resource.keyParts : Resource → List String
  | .issue number => ["issue", toString number]
  | .pull number => ["pr", toString number]
  | .issueComment id => ["issue_comment", toString id]
  | .reviewComment id => ["pr_review_comment", toString id]
  | .review number id => ["pr_review", toString number, toString id]

/-- A key is its kind and its number, as the kind holds no colon. -/
theorem splitOn_colon {kind : String} (plain : ':' ∉ kind.toList) (number : Nat) :
    (kind.toList ++ ':' :: (toString number).toList).splitOn ':' =
      [kind.toList, (toString number).toList] := by
  rw [List.splitOn_append_cons_self_of_not_mem plain,
    List.splitOn_eq_singleton (colon_not_mem_toString number)]

/-- So the key of a resource reads back as the parts it was made of. -/
theorem Resource.splitOn_key (resource : Resource) :
    resource.key.toList.splitOn ':' = resource.keyParts.map String.toList := by
  have single : ∀ (kind mark : String) (number : Nat), mark.toList = kind.toList ++ [':'] →
      ':' ∉ kind.toList → (mark ++ toString number).toList.splitOn ':' =
        [kind, toString number].map String.toList := by
    intro kind mark number marked plain
    rw [String.toList_append, marked, List.append_assoc, List.singleton_append,
      splitOn_colon plain]
    rfl
  cases resource with
  | issue number => exact single "issue" _ number rfl (by decide)
  | pull number => exact single "pr" _ number rfl (by decide)
  | issueComment id => exact single "issue_comment" _ id rfl (by decide)
  | reviewComment id => exact single "pr_review_comment" _ id rfl (by decide)
  | review number id =>
      have native : (Resource.review number id).key = reviewNativeId "pr_review" number id := rfl
      have plain : ':' ∉ "pr_review".toList := by decide
      rw [native, toList_reviewNativeId, List.splitOn_append_cons_self_of_not_mem plain,
        splitOn_colon (colon_not_mem_toString number)]
      rfl

/-- A key tells its resource. -/
theorem Resource.key_inj {resource other : Resource} : resource.key = other.key ↔ resource = other := by
  refine ⟨fun same => ?_, congrArg _⟩
  have parts := congrArg (fun key : String => key.toList.splitOn ':') same
  simp only [Resource.splitOn_key] at parts
  have parts := List.map_injective_iff.mpr (fun _ _ => String.toList_inj.mp) parts
  have digits (number other : Nat) : number.repr = other.repr ↔ number = other :=
    ⟨fun same => toString_injective same, congrArg _⟩
  cases resource <;> cases other <;> simp [Resource.keyParts, digits] at parts ⊢ <;> exact parts

/-- A timeline event shares its key with no resource. -/
theorem timelineKey_ne (eventId : Nat) (resource : Resource) :
    ImportPass.timelineKey eventId ≠ resource.key := by
  intro same
  have parts := congrArg (fun key : String => key.toList.splitOn ':') same
  have marked : "timeline_event:".toList = "timeline_event".toList ++ [':'] := rfl
  have plain : ':' ∉ "timeline_event".toList := by decide
  simp only [Resource.splitOn_key, ImportPass.timelineKey, String.toList_append, marked,
    List.append_assoc, List.singleton_append, splitOn_colon plain] at parts
  cases resource <;> simp [Resource.keyParts] at parts

/-- Setting the artifact of a key leaves those of the other keys. -/
theorem getElem?_setArtifact (artifacts : StrMap String) (key other : String) (id : Option String) :
    (State.setArtifact artifacts key id)[other]? = if key = other then id else artifacts[other]? := by
  cases id with
  | none => rw [State.setArtifact, Std.ExtTreeMap.getElem?_erase]; simp
  | some id => rw [State.setArtifact, getElem?_insert_eq]

/-- So does setting several artifacts of a key. -/
theorem getElem?_setArtifacts (artifacts : StrMap (List String)) (key other : String)
    (ids : List String) :
    (State.setArtifacts artifacts key ids)[other]?.getD [] =
      if key = other then ids else artifacts[other]?.getD [] := by
  cases ids with
  | nil =>
      rw [State.setArtifacts, Std.ExtTreeMap.getElem?_erase]
      by_cases same : key = other <;> simp [same]
  | cons id ids =>
      simp only [State.setArtifacts, getElem?_insert_eq]
      by_cases same : key = other <;> simp [same]

/-- Recording a hash leaves the artifacts. -/
@[simp] theorem State.kept_recordHash (state : State) (key hash : String) (slot : Slot) :
    (state.recordHash key hash).kept slot = state.kept slot := by
  cases slot <;> rfl

/-- The kept artifacts of a pull request, all three set. -/
theorem State.kept_setPull (state : State) (number : Nat) (artifact : Option String)
    (edges diagnostics : List String) (slot : Slot) :
    (((state.setMergeArtifact (Resource.pull number).key artifact).setRequestEdges
        (Resource.pull number).key edges).setTeamDiagnostics (Resource.pull number).key
          diagnostics).kept slot =
      match slot with
      | .merge other => if number = other then artifact.toList else state.kept (.merge other)
      | .requests other => if number = other then edges else state.kept (.requests other)
      | .teams other => if number = other then diagnostics else state.kept (.teams other)
      | slot => state.kept slot := by
  cases slot with
  | merge other =>
      have read := getElem?_setArtifact state.prMergeArtifacts (Resource.pull number).key
        (Resource.pull other).key artifact
      simp only [Resource.key_inj, Resource.pull.injEq] at read
      refine (congrArg Option.toList read).trans ?_
      rw [apply_ite Option.toList]
      rfl
  | requests other =>
      have read := getElem?_setArtifacts state.prRequestEdges (Resource.pull number).key
        (Resource.pull other).key edges
      simp only [Resource.key_inj, Resource.pull.injEq] at read
      exact read
  | teams other =>
      have read := getElem?_setArtifacts state.prTeamDiagnostics (Resource.pull number).key
        (Resource.pull other).key diagnostics
      simp only [Resource.key_inj, Resource.pull.injEq] at read
      exact read
  | comment id => rfl
  | review number id => rfl

/-- A slot of an anchor, which is kept under the key of its resource. -/
def Slot.IsAnchored : Slot → Prop
  | .comment _ => True
  | .review _ _ => True
  | _ => False

/-- An anchored slot keeps the artifact of its comment. -/
theorem State.kept_of_isAnchored (state : State) {slot : Slot} (anchored : slot.IsAnchored) :
    state.kept slot = (state.priorReviewArtifact slot.resource.key).toList := by
  cases slot <;> first | rfl | exact absurd anchored not_false

/-- Setting that artifact leaves every other slot. -/
theorem State.kept_setReviewArtifact (state : State) {slot : Slot} (anchored : slot.IsAnchored)
    (artifact : Option String) (other : Slot) :
    (state.setReviewArtifact slot.resource.key artifact).kept other =
      if other = slot then artifact.toList else state.kept other := by
  have read (resource : Resource) :
      (state.setReviewArtifact slot.resource.key artifact).priorReviewArtifact resource.key =
        if slot.resource = resource then artifact
        else state.priorReviewArtifact resource.key := by
    have read := getElem?_setArtifact state.reviewCommitArtifacts slot.resource.key resource.key
      artifact
    simp only [Resource.key_inj] at read
    exact read
  cases other with
  | comment id =>
      refine (congrArg Option.toList (read (.reviewComment id))).trans ?_
      cases slot with
      | comment other =>
          simp only [Slot.resource, Resource.reviewComment.injEq, Slot.comment.injEq,
            @eq_comm _ other id]
          split <;> rfl
      | review number other => rfl
      | _ => exact absurd anchored not_false
  | review number id =>
      refine (congrArg Option.toList (read (.review number id))).trans ?_
      cases slot with
      | comment other => rfl
      | review number' other =>
          simp only [Slot.resource, Resource.review.injEq, Slot.review.injEq,
            @eq_comm _ number' number, @eq_comm _ other id]
          split <;> rfl
      | _ => exact absurd anchored not_false
  | _ =>
      rw [if_neg (by rintro rfl; exact anchored)]
      rfl

end Kept

section Pushed

/-- Some record writes an ID. -/
def Written (records : List ImportRecord) (id : String) : Prop :=
  ∃ record ∈ records, record.writes id = true

/-- Some record deletes an ID. -/
def Deleted (records : List ImportRecord) (id : String) : Prop :=
  ∃ record ∈ records, record.deletes id = true

/-- Without records nothing is written. -/
@[simp] theorem written_nil (id : String) : ¬ Written [] id := by
  simp [Written]

/-- Without records nothing is deleted. -/
@[simp] theorem deleted_nil (id : String) : ¬ Deleted [] id := by
  simp [Deleted]

/-- Two lists of records write what one of them writes. -/
@[simp] theorem written_append {records others : List ImportRecord} {id : String} :
    Written (records ++ others) id ↔ Written records id ∨ Written others id := by
  simp only [Written, List.mem_append, or_and_right, exists_or]

/-- Two lists of records delete what one of them deletes. -/
@[simp] theorem deleted_append {records others : List ImportRecord} {id : String} :
    Deleted (records ++ others) id ↔ Deleted records id ∨ Deleted others id := by
  simp only [Deleted, List.mem_append, or_and_right, exists_or]

namespace ImportPass

/-- Replacing the state replaces it. -/
@[simp] theorem state_withState (run : ImportPass) (state : State) :
    (run.withState state).state = state :=
  rfl

/-- Replacing the state leaves the graph. -/
@[simp] theorem graph_withState (run : ImportPass) (state : State) :
    (run.withState state).graph = run.graph :=
  rfl

/-- Pushing a record to the graph leaves the state. -/
@[simp] theorem state_pushRecord (run : ImportPass) (record : ImportRecord) :
    (run.pushRecord record).state = run.state := by
  cases record with
  | node node =>
      simp only [pushRecord]
      split <;> rfl
  | edge edge => rfl
  | tombstone tombstone => rfl

/-- A record joins the graph unless it is the node of an account. -/
theorem graph_pushRecord (run : ImportPass) (record : ImportRecord) :
    (run.pushRecord record).graph = run.graph ++ [record] ∨
      (record.isIdentity = true ∧ (run.pushRecord record).graph = run.graph) := by
  cases record with
  | node node =>
      simp only [pushRecord]
      split
      · next seen =>
          rw [Bool.and_eq_true] at seen
          exact Or.inr ⟨seen.1, rfl⟩
      · exact Or.inl rfl
  | edge edge => exact Or.inl rfl
  | tombstone tombstone => exact Or.inl rfl

/-- So does pushing what a payload emits. -/
@[simp] theorem state_pushEmitted (run : ImportPass) (emitted : Emitted) :
    (run.pushEmitted emitted).state = run.state := by
  rw [pushEmitted]
  induction emitted.records generalizing run with
  | nil => rfl
  | cons record records ih => rw [List.foldl_cons, ih, state_pushRecord]

/-- It appends the emitted records, where an identity already pushed may be left out. -/
theorem graph_pushEmitted (run : ImportPass) (emitted : Emitted) :
    ∃ fresh, (run.pushEmitted emitted).graph = run.graph ++ fresh ∧
      (∀ record ∈ fresh, record ∈ emitted.records) ∧
      ∀ record ∈ emitted.records, record.isIdentity = false → record ∈ fresh := by
  rw [pushEmitted]
  induction emitted.records generalizing run with
  | nil => exact ⟨[], by simp⟩
  | cons record records ih =>
      obtain ⟨fresh, graph, fewer, rest⟩ := ih (run.pushRecord record)
      rw [List.foldl_cons]
      rcases graph_pushRecord run record with joined | ⟨identity, same⟩
      · refine ⟨record :: fresh, ?_, ?_, ?_⟩
        · rw [graph, joined, List.append_assoc, List.singleton_append]
        · exact List.forall_mem_cons.mpr ⟨List.mem_cons_self, fun other member =>
            List.mem_cons_of_mem _ (fewer other member)⟩
        · exact List.forall_mem_cons.mpr ⟨fun _ => List.mem_cons_self, fun other member plain =>
            List.mem_cons_of_mem _ (rest other member plain)⟩
      · refine ⟨fresh, ?_, ?_, ?_⟩
        · rw [graph, same]
        · exact fun other member => List.mem_cons_of_mem _ (fewer other member)
        · refine List.forall_mem_cons.mpr ⟨fun plain => ?_, rest⟩
          rw [identity] at plain
          cases plain

/-- Without identities all of them are appended. -/
theorem graph_pushEmitted_of_plain (run : ImportPass) {records : List ImportRecord}
    (plain : ∀ record ∈ records, record.isIdentity = false) :
    (run.pushEmitted { records := records }).graph = run.graph ++ records := by
  rw [pushEmitted]
  induction records generalizing run with
  | nil => simp
  | cons record records ih =>
      obtain ⟨first, rest⟩ := List.forall_mem_cons.mp plain
      rw [List.foldl_cons, ih _ rest]
      rcases graph_pushRecord run record with joined | ⟨identity, -⟩
      · rw [joined, List.append_assoc, List.singleton_append]
      · rw [first] at identity
        cases identity

/-- Records pushed one after the other are pushed together. -/
theorem foldl_pushEmitted {α : Type} (record : α → ImportRecord) (items : List α) (run : ImportPass) :
    items.foldl (fun run item => run.pushEmitted { records := [record item] }) run =
      run.pushEmitted { records := items.map record } := by
  rw [pushEmitted, List.foldl_map]
  rfl

/-- Two pushes are one of the two lists. -/
theorem pushEmitted_pushEmitted (run : ImportPass) (records others : List ImportRecord) :
    (run.pushEmitted { records := records }).pushEmitted { records := others } =
      run.pushEmitted { records := records ++ others } := by
  rw [pushEmitted, pushEmitted, pushEmitted, List.foldl_append]

end ImportPass

/-- What a push adds of the artifacts. -/
theorem Carries.pushed {blake3 : String → String} {repo : String} {emitted : Emitted}
    {owns : Slot → String → Prop} (carries : Carries blake3 repo emitted.records owns)
    (run : ImportPass) :
    ∃ fresh, (run.pushEmitted emitted).graph = run.graph ++ fresh ∧
      ∀ slot : Slot, ∀ id, slot.Artifact blake3 repo id →
        (Written fresh id ↔ owns slot id) ∧ ¬ Deleted fresh id := by
  obtain ⟨fresh, graph, fewer, rest⟩ := run.graph_pushEmitted emitted
  refine ⟨fresh, graph, fun slot id artifact => ⟨?_, ?_⟩⟩
  · rw [← carries.written slot id artifact]
    constructor
    · rintro ⟨record, member, writes⟩
      exact ⟨record, fewer record member, writes⟩
    · rintro ⟨record, member, writes⟩
      refine ⟨record, rest record member ?_, writes⟩
      by_contra identity
      refine carries.identities record member (by simpa using identity) slot ?_
      rwa [record.id_of_writes writes]
  · rintro ⟨record, member, deletes⟩
    rw [carries.additive record (fewer record member)] at deletes
    cases deletes

end Pushed

section Turns

variable (readers : Readers) (blake3 : String → String) (repo : String)

/-- What the state keeps are artifacts, and a hash that it records is of a payload from which
they come. -/
structure State.Coherent (state : State) : Prop where
  owned : ∀ (slot : Slot) (id : String), id ∈ state.kept slot → slot.Artifact blake3 repo id
  hashed : ∀ (resource : Resource) (hash : String),
    state.resourceHashes[resource.key]? = some hash →
      ∃ (ctx : Context) (payload : Payload readers), payload.resource = resource ∧
        payload.hash blake3 ctx = hash ∧ ∀ slot ∈ payload.slots,
          state.kept slot = payload.derived blake3 ctx.commitIndex repo slot

/-- A part of a run in which deliveries derive something for each slot: the graph gains what they
derive and retracts what they drop, and the state keeps what the last one derives. -/
structure Turn (derived : Slot → List (Derivation String)) (run next : ImportPass) : Prop where
  coherent : next.state.Coherent readers blake3 repo
  kept : ∀ slot, next.state.kept slot = keptAfter (run.state.kept slot) (derived slot)
  graph : ∃ fresh, next.graph = run.graph ++ fresh ∧
    ∀ (slot : Slot) (id : String), slot.Artifact blake3 repo id →
      ((Written fresh id ∨ id ∈ run.state.kept slot) ↔ Seen id (run.state.kept slot) (derived slot)) ∧
        (Deleted fresh id ↔ Dropped true id (run.state.kept slot) (derived slot))

variable {readers blake3 repo} {run middle next : ImportPass}
  {derived after : Slot → List (Derivation String)}

/-- A turn that does nothing derives nothing. -/
theorem Turn.refl (coherent : run.state.Coherent readers blake3 repo) :
    Turn readers blake3 repo (fun _ => []) run run where
  coherent := coherent
  kept _ := rfl
  graph := ⟨[], by simp, fun slot id _ => by simp⟩

/-- Only the artifacts that a turn derives for each slot matter. -/
theorem Turn.congr (turn : Turn readers blake3 repo derived run next)
    (same : ∀ slot, after slot = derived slot) : Turn readers blake3 repo after run next := by
  rwa [funext same]

/-- Turns one after the other derive what both do, in order. -/
theorem Turn.trans (first : Turn readers blake3 repo derived run middle)
    (second : Turn readers blake3 repo after middle next) :
    Turn readers blake3 repo (fun slot => derived slot ++ after slot) run next where
  coherent := second.coherent
  kept slot := by rw [second.kept, first.kept, keptAfter_append]
  graph := by
    obtain ⟨fresh, grown, facts⟩ := first.graph
    obtain ⟨later, grown', facts'⟩ := second.graph
    refine ⟨fresh ++ later, by rw [grown', grown, List.append_assoc], fun slot id artifact => ?_⟩
    obtain ⟨seen, dropped⟩ := facts slot id artifact
    obtain ⟨seen', dropped'⟩ := facts' slot id artifact
    rw [first.kept slot] at seen' dropped'
    constructor
    · rw [written_append, seen_append, ← seen]
      have kept : id ∈ keptAfter (run.state.kept slot) (derived slot) →
          Written fresh id ∨ id ∈ run.state.kept slot :=
        fun last => seen.mpr (seen_iff.mpr (Or.inl last))
      constructor
      · rintro ((writes | writes) | earlier)
        · exact Or.inl (Or.inl writes)
        · rcases seen'.mp (Or.inl writes) with last | derives
          · exact Or.inl (kept last)
          · exact Or.inr derives
        · exact Or.inl (Or.inr earlier)
      · rintro ((writes | earlier) | derives)
        · exact Or.inl (Or.inl writes)
        · exact Or.inr earlier
        · rcases seen'.mpr (Or.inr derives) with writes | last
          · exact Or.inl (Or.inr writes)
          · exact (kept last).imp_left Or.inl
    · rw [deleted_append, dropped_append, dropped, dropped']

/-- A fold of turns is a turn. -/
theorem Turn.foldl {α : Type} {step : ImportPass → α → ImportPass}
    {derived : α → Slot → List (Derivation String)} {items : List α}
    (turn : ∀ item ∈ items, ∀ run : ImportPass, run.state.Coherent readers blake3 repo →
      Turn readers blake3 repo (derived item) run (step run item))
    {run : ImportPass} (coherent : run.state.Coherent readers blake3 repo) :
    Turn readers blake3 repo (fun slot => items.flatMap fun item => derived item slot) run
      (items.foldl step run) := by
  induction items generalizing run with
  | nil => exact Turn.refl coherent
  | cons item items ih =>
      have first := turn item List.mem_cons_self run coherent
      have rest := ih (fun item member => turn item (List.mem_cons_of_mem _ member)) first.coherent
      have both := first.trans rest
      simpa only [List.flatMap_cons, List.foldl_cons] using both

/-- A part of a run that concerns no artifacts. -/
theorem Turn.of_carries {emitted : Emitted} {state : State}
    (carries : Carries blake3 repo emitted.records fun _ _ => False)
    (coherent : state.Coherent readers blake3 repo)
    (kept : ∀ slot, state.kept slot = run.state.kept slot) :
    Turn readers blake3 repo (fun _ => []) run ((run.withState state).pushEmitted emitted) where
  coherent := by rwa [ImportPass.state_pushEmitted, ImportPass.state_withState]
  kept slot := by rw [ImportPass.state_pushEmitted, ImportPass.state_withState, kept]; rfl
  graph := by
    obtain ⟨fresh, grown, facts⟩ := carries.pushed (run.withState state)
    refine ⟨fresh, grown, fun slot id artifact => ?_⟩
    obtain ⟨written, deleted⟩ := facts slot id artifact
    simp [written, deleted]

/-- After a payload a slot of its own keeps what the payload derived, and another slot what it had.
-/
theorem keptAfter_derivations {payload : Payload readers} {commitIndex : StrMap (List String)}
    {slot : Slot} {kept : List String} :
    keptAfter kept (payload.derivations blake3 commitIndex repo slot) =
      if slot ∈ payload.slots then payload.derived blake3 commitIndex repo slot else kept := by
  rw [Payload.derivations]
  split <;> rfl

/-- A hash that is recorded under another key says nothing of a resource. -/
theorem State.Coherent.recordHash_other {state : State}
    (coherent : state.Coherent readers blake3 repo) {key hash : String}
    (other : ∀ resource : Resource, key ≠ resource.key) :
    (state.recordHash key hash).Coherent readers blake3 repo where
  owned slot id := by
    rw [State.kept_recordHash]
    exact coherent.owned slot id
  hashed resource recorded found := by
    rw [State.recordHash] at found
    simp only [getElem?_insert_eq, if_neg (other resource)] at found
    simpa only [State.kept_recordHash] using coherent.hashed resource recorded found

/-- A state that records a payload and keeps what it derives. -/
theorem State.Coherent.delivered {ctx : Context} {payload : Payload readers} {state next : State}
    (coherent : state.Coherent readers blake3 ctx.sourceRepo)
    (kept : ∀ slot, next.kept slot = keptAfter (state.kept slot)
      (payload.derivations blake3 ctx.commitIndex ctx.sourceRepo slot))
    (hashes : next.resourceHashes =
      state.resourceHashes.insert payload.resource.key (payload.hash blake3 ctx)) :
    next.Coherent readers blake3 ctx.sourceRepo where
  owned slot id member := by
    rw [kept, keptAfter_derivations] at member
    split at member
    · next isSlot => exact Payload.artifact_of_derived isSlot member
    · exact coherent.owned slot id member
  hashed resource hash found := by
    simp only [hashes, getElem?_insert_eq, Resource.key_inj] at found
    by_cases same : payload.resource = resource
    · rw [if_pos same, Option.some.injEq] at found
      refine ⟨ctx, payload, same, found, fun slot isSlot => ?_⟩
      rw [kept, keptAfter_derivations, if_pos isSlot]
    · rw [if_neg same] at found
      obtain ⟨context, recorded, isResource, isHash, agree⟩ := coherent.hashed resource hash found
      refine ⟨context, recorded, isResource, isHash, fun slot isSlot => ?_⟩
      have notSlot : slot ∉ payload.slots := by
        intro isSlot'
        rw [Payload.mem_slots_iff] at isSlot isSlot'
        rw [← isSlot', isSlot] at same
        exact same isResource
      rw [kept, keptAfter_derivations, if_neg notSlot, agree slot isSlot]

/-- The turn of a payload that is unchanged. -/
theorem Turn.of_unchanged {ctx : Context} (payload : Payload readers) {state : State}
    (legible : Legible blake3 ctx.sourceRepo)
    (coherent : run.state.Coherent readers blake3 ctx.sourceRepo)
    (unchanged : run.state.isUnchanged payload.resource.key (payload.hash blake3 ctx) = true)
    (kept : ∀ slot, state.kept slot = keptAfter (run.state.kept slot)
      (payload.derivations blake3 ctx.commitIndex ctx.sourceRepo slot))
    (hashes : state.resourceHashes = run.state.resourceHashes) :
    Turn readers blake3 ctx.sourceRepo (payload.derivations blake3 ctx.commitIndex ctx.sourceRepo) run
      (run.withState state) := by
  -- What it derives is what the recorded payload derived.
  have same : ∀ slot ∈ payload.slots,
      payload.derived blake3 ctx.commitIndex ctx.sourceRepo slot = run.state.kept slot := by
    intro slot isSlot
    obtain ⟨context, recorded, resource, hash, agree⟩ :=
      coherent.hashed payload.resource _ (of_decide_eq_true unchanged)
    have recordedSlot : slot ∈ recorded.slots := by
      rw [Payload.mem_slots_iff] at isSlot ⊢
      rw [isSlot, resource]
    rw [agree slot recordedSlot]
    exact (Payload.derived_of_hash legible.injective legible.mark _ resource hash slot).symm
  have still : ∀ slot, state.kept slot = run.state.kept slot := by
    intro slot
    rw [kept, keptAfter_derivations]
    split
    · next isSlot => exact same slot isSlot
    · rfl
  refine ⟨⟨?_, ?_⟩, kept, [], by simp, fun slot id _ => ?_⟩
  · intro slot id
    rw [ImportPass.state_withState, still]
    exact coherent.owned slot id
  · intro resource hash
    simp only [ImportPass.state_withState, hashes, still]
    exact coherent.hashed resource hash
  · rw [Payload.derivations]
    split
    · next isSlot => simp [Seen, dropped_singleton, same slot isSlot]
    · simp

/-- The turn of a payload that changed. -/
theorem Turn.of_changed {ctx : Context} (payload : Payload readers) {state : State}
    (tombstones : List ImportRecord) (legible : Legible blake3 ctx.sourceRepo)
    (coherent : run.state.Coherent readers blake3 ctx.sourceRepo)
    (retractions : ∀ record ∈ tombstones, ∃ tombstone, record = .tombstone tombstone)
    (deletes : ∀ id, Deleted tombstones id ↔ payload.retracts = true ∧ ∃ slot ∈ payload.slots,
      id ∈ run.state.kept slot ∧ id ∉ payload.derived blake3 ctx.commitIndex ctx.sourceRepo slot)
    (kept : ∀ slot, state.kept slot = keptAfter (run.state.kept slot)
      (payload.derivations blake3 ctx.commitIndex ctx.sourceRepo slot))
    (hashes : state.resourceHashes =
      run.state.resourceHashes.insert payload.resource.key (payload.hash blake3 ctx)) :
    Turn readers blake3 ctx.sourceRepo (payload.derivations blake3 ctx.commitIndex ctx.sourceRepo) run
      (((run.pushEmitted { records := tombstones }).withState state).pushEmitted
        (payload.emitted blake3 ctx)) where
  coherent := by
    rw [ImportPass.state_pushEmitted, ImportPass.state_withState]
    exact coherent.delivered kept hashes
  kept slot := by
    rw [ImportPass.state_pushEmitted, ImportPass.state_withState]
    exact kept slot
  graph := by
    obtain ⟨fresh, grown, facts⟩ := (Payload.carries_emitted legible).pushed
      ((run.pushEmitted { records := tombstones }).withState state)
    refine ⟨tombstones ++ fresh, ?_, fun slot id artifact => ?_⟩
    · rw [grown, ImportPass.graph_withState, ImportPass.graph_pushEmitted_of_plain,
        List.append_assoc]
      intro record member
      obtain ⟨tombstone, rfl⟩ := retractions record member
      rfl
    obtain ⟨written, deleted⟩ := facts slot id artifact
    have unwritten : ¬ Written tombstones id := by
      rintro ⟨record, member, writes⟩
      obtain ⟨tombstone, rfl⟩ := retractions record member
      cases writes
    constructor
    · rw [written_append, written, Seen, Payload.mem_derivations]
      simp only [unwritten, false_or]
      exact or_comm
    · rw [deleted_append, deletes]
      simp only [deleted, or_false]
      rw [Payload.derivations]
      constructor
      · rintro ⟨retracts, other, isSlot, earlier, dropped⟩
        -- An ID of an artifact is of one slot only.
        obtain rfl := legible.unique artifact (coherent.owned other id earlier)
        rw [if_pos isSlot, dropped_singleton]
        exact ⟨retracts, earlier, dropped⟩
      · split
        · next isSlot =>
            rw [dropped_singleton]
            rintro ⟨retracts, earlier, dropped⟩
            exact ⟨retracts, slot, isSlot, earlier, dropped⟩
        · exact False.elim

end Turns

section Steps

variable {readers : Readers} {blake3 : String → String} {ctx : Context} {run : ImportPass}

/-- A payload without artifacts derives nothing. -/
theorem Payload.derivations_of_nil {payload : Payload readers} (none : payload.slots = [])
    (commitIndex : StrMap (List String)) (repo : String) :
    payload.derivations blake3 commitIndex repo = fun _ => [] := by
  funext slot
  rw [Payload.derivations, none, if_neg List.not_mem_nil]

/-- The turn of a payload without artifacts. -/
theorem Turn.of_nothing (payload : Payload readers) (none : payload.slots = [])
    (legible : Legible blake3 ctx.sourceRepo)
    (coherent : run.state.Coherent readers blake3 ctx.sourceRepo) :
    Turn readers blake3 ctx.sourceRepo
      (payload.derivations blake3 ctx.commitIndex ctx.sourceRepo) run
      (if run.state.isUnchanged payload.resource.key (payload.hash blake3 ctx) then run
      else
        (run.withState (run.state.recordHash payload.resource.key
          (payload.hash blake3 ctx))).pushEmitted (payload.emitted blake3 ctx)) := by
  split
  · rw [Payload.derivations_of_nil none]
    exact Turn.refl coherent
  · refine Turn.of_changed payload [] legible coherent (by simp) (fun id => ?_) (fun slot => ?_) rfl
    · simp [none]
    · rw [State.kept_recordHash, Payload.derivations_of_nil none]
      rfl

/-- Importing an issue is a turn with the derivations of the issue. -/
theorem turn_importIssue (legible : Legible blake3 ctx.sourceRepo)
    (coherent : run.state.Coherent readers blake3 ctx.sourceRepo) (opened : Issue) :
    Turn readers blake3 ctx.sourceRepo
      ((Payload.issue opened : Payload readers).derivations blake3 ctx.commitIndex ctx.sourceRepo) run
      (run.importIssue blake3 ctx opened) := by
  rw [ImportPass.importIssue]
  split
  · rw [Payload.derivations_of_nil rfl]
    exact Turn.refl coherent
  · exact Turn.of_nothing (.issue opened) rfl legible coherent

/-- So is importing a comment on an issue. -/
theorem turn_importIssueComment (legible : Legible blake3 ctx.sourceRepo)
    (coherent : run.state.Coherent readers blake3 ctx.sourceRepo)
    (comment : Parsed readers.issueComment) :
    Turn readers blake3 ctx.sourceRepo
      ((Payload.issueComment comment).derivations blake3 ctx.commitIndex ctx.sourceRepo) run
      (run.importIssueComment blake3 ctx comment) :=
  Turn.of_nothing (.issueComment comment) rfl legible coherent

/-- The turn of a timeline item concerns no artifacts. -/
theorem turn_importTimelineItem (legible : Legible blake3 ctx.sourceRepo)
    (coherent : run.state.Coherent readers blake3 ctx.sourceRepo) (number : Nat)
    (presentReviewIds : List Nat) (item : TimelineItem) :
    Turn readers blake3 ctx.sourceRepo (fun _ => []) run
      (run.importTimelineItem blake3 ctx number presentReviewIds item) := by
  rw [ImportPass.importTimelineItem]
  split
  · exact Turn.refl coherent
  · dsimp only
    split
    · exact Turn.refl coherent
    · apply Turn.of_carries
      · cases item.event with
        | none => exact carries_timelineUnparseable legible _ _ _ _
        | some event => exact carries_timelineTransitionRecords legible _ _ _
      · exact coherent.recordHash_other (timelineKey_ne item.id)
      · exact State.kept_recordHash _ _ _

/-- Each stale artifact is deleted by its own tombstone. -/
theorem deleted_map_tombstones {items : List String} {tombstone : String → ImportRecord}
    (deletes : ∀ item id, (tombstone item).deletes id = decide (item = id)) {id : String} :
    Deleted (items.map tombstone) id ↔ id ∈ items := by
  simp [Deleted, deletes]

/-- The turn of a review or of a review comment. -/
theorem turn_importAnchored (legible : Legible blake3 ctx.sourceRepo)
    (coherent : run.state.Coherent readers blake3 ctx.sourceRepo) (payload : Payload readers)
    {slot : Slot} (anchored : slot.IsAnchored) (only : payload.slots = [slot])
    {native currentArtifact : Option String} (named : native.isSome = payload.retracts)
    (current : payload.derived blake3 ctx.commitIndex ctx.sourceRepo slot = currentArtifact.toList) :
    Turn readers blake3 ctx.sourceRepo
      (payload.derivations blake3 ctx.commitIndex ctx.sourceRepo) run
      (ImportPass.importAnchored blake3 payload.resource.key (payload.hash blake3 ctx) native
        currentArtifact (payload.emitted blake3 ctx) run) := by
  have resource : slot.resource = payload.resource := Payload.mem_slots_iff.mp (by simp [only])
  have kept : ∀ (state : State) other,
      (state.setReviewArtifact payload.resource.key currentArtifact).kept other =
        keptAfter (state.kept other)
          (payload.derivations blake3 ctx.commitIndex ctx.sourceRepo other) := by
    intro state other
    rw [← resource, State.kept_setReviewArtifact state anchored, keptAfter_derivations, only,
      ← current]
    by_cases same : other = slot <;> simp [same]
  rw [ImportPass.importAnchored]
  split
  · next unchanged =>
      exact Turn.of_unchanged payload legible coherent unchanged (kept run.state) rfl
  · dsimp only
    rw [ImportPass.state_pushEmitted]
    refine Turn.of_changed payload _ legible coherent ?_ ?_ ?_ rfl
    · intro record member
      simp only [List.mem_flatMap, List.mem_map] at member
      obtain ⟨prior, -, native, -, rfl⟩ := member
      exact ⟨_, rfl⟩
    · intro id
      have earlier : id ∈ run.state.kept slot ↔
          run.state.priorReviewArtifact payload.resource.key = some id := by
        rw [State.kept_of_isAnchored _ anchored, resource, Option.mem_toList]
      rw [← named]
      simp only [only, List.mem_singleton, exists_eq_left, earlier, current, Option.mem_toList]
      constructor
      · rintro ⟨record, member, deletes⟩
        simp only [List.mem_flatMap, List.mem_map, Option.mem_toList, Option.filter_eq_some_iff,
          decide_eq_true_eq] at member
        obtain ⟨prior, ⟨isPrior, differs⟩, native, isNative, rfl⟩ := member
        obtain rfl : prior = id := of_decide_eq_true deletes
        exact ⟨by rw [isNative]; rfl, isPrior, fun same => differs same.symm⟩
      · rintro ⟨isNative, isPrior, differs⟩
        obtain ⟨native, rfl⟩ := Option.isSome_iff_exists.mp isNative
        refine ⟨reviewArtifactTombstone blake3 native id, ?_, decide_eq_true rfl⟩
        simp only [List.mem_flatMap, List.mem_map, Option.mem_toList, Option.filter_eq_some_iff,
          decide_eq_true_eq]
        exact ⟨id, ⟨isPrior, fun same => differs same.symm⟩, native, rfl, rfl⟩
    · intro other
      rw [kept, State.kept_recordHash]

/-- Importing a comment in a review is a turn with its derivations. -/
theorem turn_importReviewComment (legible : Legible blake3 ctx.sourceRepo)
    (coherent : run.state.Coherent readers blake3 ctx.sourceRepo)
    (comment : Parsed readers.reviewComment) :
    Turn readers blake3 ctx.sourceRepo
      ((Payload.reviewComment comment).derivations blake3 ctx.commitIndex ctx.sourceRepo) run
      (run.importReviewComment blake3 ctx comment) :=
  have anchored : (Slot.comment comment.value.id).IsAnchored := trivial
  turn_importAnchored legible coherent (.reviewComment comment) anchored rfl rfl rfl

/-- So is importing a review. -/
theorem turn_importReview (legible : Legible blake3 ctx.sourceRepo) (number : Nat)
    (progress : ImportPass × List Nat)
    (coherent : progress.1.state.Coherent readers blake3 ctx.sourceRepo)
    (review : Parsed readers.review) :
    Turn readers blake3 ctx.sourceRepo
      ((Payload.review number review).derivations blake3 ctx.commitIndex ctx.sourceRepo) progress.1
      (ImportPass.importReview blake3 ctx number progress review).1 :=
  have anchored : (Slot.review number review.value.id).IsAnchored := trivial
  turn_importAnchored legible coherent (.review number review) anchored rfl rfl rfl

/-- The prior artifacts of one kind that a pull request no longer has. -/
theorem mem_removed {prior current : List String} {id : String} :
    id ∈ ImportPass.removed prior current ↔ id ∈ prior ∧ id ∉ current := by
  simp [ImportPass.removed]

/-- So is importing a pull request. -/
theorem turn_importPull (legible : Legible blake3 ctx.sourceRepo)
    (coherent : run.state.Coherent readers blake3 ctx.sourceRepo) (pr : PullRequest) :
    Turn readers blake3 ctx.sourceRepo
      ((Payload.pull pr : Payload readers).derivations blake3 ctx.commitIndex ctx.sourceRepo) run
      (run.importPull blake3 ctx pr) := by
  have kept : ∀ (state : State) slot,
      (((state.setMergeArtifact (Resource.pull pr.number).key
        (mergeArtifactId blake3 ctx.commitIndex ctx.sourceRepo pr)).setRequestEdges
          (Resource.pull pr.number).key
            (requestedReviewEdgeIds blake3 ctx.sourceRepo pr)).setTeamDiagnostics
              (Resource.pull pr.number).key
                (teamReviewDiagnosticIds blake3 ctx.sourceRepo pr)).kept slot =
        keptAfter (state.kept slot) ((Payload.pull pr : Payload readers).derivations blake3
          ctx.commitIndex ctx.sourceRepo slot) := by
    intro state slot
    rw [State.kept_setPull, keptAfter_derivations]
    cases slot <;> simp [Payload.slots, Payload.derived, @eq_comm _ pr.number]
  rw [ImportPass.importPull]
  dsimp only
  split
  · next unchanged =>
      exact Turn.of_unchanged (.pull pr) legible coherent unchanged (kept run.state) rfl
  · simp only [ImportPass.foldl_pushEmitted, ImportPass.pushEmitted_pushEmitted,
      ImportPass.state_pushEmitted]
    refine Turn.of_changed (.pull pr) _ legible coherent ?_ ?_ ?_ rfl
    · intro record member
      simp only [List.mem_append, List.mem_map] at member
      rcases member with (⟨_, _, rfl⟩ | ⟨_, _, rfl⟩) | ⟨_, _, rfl⟩ <;> exact ⟨_, rfl⟩
    · intro id
      rw [deleted_append, deleted_append, deleted_map_tombstones fun _ _ => rfl,
        deleted_map_tombstones fun _ _ => rfl, deleted_map_tombstones fun _ _ => rfl,
        mem_removed, mem_removed]
      simp only [Payload.retracts, Payload.slots, List.mem_cons, List.not_mem_nil, or_false,
        true_and, exists_eq_or_imp, exists_eq_left, Payload.derived, State.kept]
      rw [or_assoc]
      refine or_congr ?_ Iff.rfl
      simp only [Option.mem_toList, Option.filter_eq_some_iff, decide_eq_true_eq]
      exact and_congr_right fun _ => not_congr eq_comm
    · intro slot
      rw [kept, State.kept_recordHash]

end Steps

section Runs

variable {readers : Readers} {blake3 : String → String} {ctx : Context} {run : ImportPass}

/-- The payloads that a run delivers, in the order of their turns. -/
def Delivery.payloads (delivery : Delivery readers) : List (Payload readers) :=
  delivery.issues.map .issue ++ delivery.pulls.map .pull ++
    delivery.issueComments.map .issueComment ++ delivery.reviewComments.map .reviewComment ++
      (ImportPass.changedPrNumbers delivery).flatMap fun number =>
        (delivery.reviews number).map (.review number)

/-- What a run derives for a slot, delivery by delivery. -/
def Delivery.derivations (blake3 : String → String) (ctx : Context) (delivery : Delivery readers)
    (slot : Slot) : List (Derivation String) :=
  delivery.payloads.flatMap fun payload =>
    payload.derivations blake3 ctx.commitIndex ctx.sourceRepo slot

/-- The reviews of a pull request are imported turn by turn. -/
theorem turn_foldl_importReview (legible : Legible blake3 ctx.sourceRepo) (number : Nat)
    (reviews : List (Parsed readers.review)) (progress : ImportPass × List Nat)
    (coherent : progress.1.state.Coherent readers blake3 ctx.sourceRepo) :
    Turn readers blake3 ctx.sourceRepo
      (fun slot => reviews.flatMap fun review =>
        (Payload.review number review).derivations blake3 ctx.commitIndex ctx.sourceRepo slot)
      progress.1 (reviews.foldl (ImportPass.importReview blake3 ctx number) progress).1 := by
  induction reviews generalizing progress with
  | nil => exact Turn.refl coherent
  | cons review reviews ih =>
      have first := turn_importReview legible number progress coherent review
      have both := first.trans (ih _ first.coherent)
      simpa only [List.flatMap_cons, List.foldl_cons] using both

/-- Its timeline is, and has no artifacts. -/
theorem turn_foldl_importTimelineItem (legible : Legible blake3 ctx.sourceRepo)
    (coherent : run.state.Coherent readers blake3 ctx.sourceRepo) (number : Nat)
    (presentReviewIds : List Nat) (items : List TimelineItem) :
    Turn readers blake3 ctx.sourceRepo (fun _ => []) run
      (items.foldl (ImportPass.importTimelineItem blake3 ctx number presentReviewIds) run) := by
  have turns : Turn readers blake3 ctx.sourceRepo (fun _ => items.flatMap fun _ => []) run
      (items.foldl (ImportPass.importTimelineItem blake3 ctx number presentReviewIds) run) :=
    Turn.foldl (fun item _ run coherent =>
      turn_importTimelineItem legible coherent number presentReviewIds item) coherent
  have nothing : (items.flatMap fun _ => ([] : List (Derivation String))) = [] := by simp
  simpa only [nothing] using turns

/-- The turn of the reviews and of the timeline of a pull request. -/
theorem turn_importReviews (legible : Legible blake3 ctx.sourceRepo) (delivery : Delivery readers)
    (number : Nat) (coherent : run.state.Coherent readers blake3 ctx.sourceRepo) :
    Turn readers blake3 ctx.sourceRepo
      (fun slot => (delivery.reviews number).flatMap fun review =>
        (Payload.review number review).derivations blake3 ctx.commitIndex ctx.sourceRepo slot) run
      (run.importReviews blake3 ctx delivery number) := by
  have reviewed := turn_foldl_importReview legible number (delivery.reviews number) (run, []) coherent
  have both := reviewed.trans (turn_foldl_importTimelineItem legible reviewed.coherent number
    ((delivery.reviews number).foldl (ImportPass.importReview blake3 ctx number) (run, [])).2
    (delivery.timeline number))
  simpa only [List.append_nil, ImportPass.importReviews] using both

/-- What a run does to the artifacts. -/
theorem turn_runImport (legible : Legible blake3 ctx.sourceRepo) {state : State}
    (coherent : state.Coherent readers blake3 ctx.sourceRepo) (delivery : Delivery readers) :
    ∃ last, Turn readers blake3 ctx.sourceRepo (delivery.derivations blake3 ctx)
        { state := state } last ∧
      ImportPass.runImport blake3 ctx delivery state =
        (last.graph ++ [ImportPass.handoffRecord blake3 ctx last.emittedCount], last.state) := by
  have start : ({ state := state } : ImportPass).state.Coherent readers blake3 ctx.sourceRepo :=
    coherent
  have issues := Turn.foldl (fun opened (_ : opened ∈ delivery.issues) (run : ImportPass) coherent =>
    turn_importIssue legible coherent opened) start
  have pulls := Turn.foldl (fun pr (_ : pr ∈ delivery.pulls) (run : ImportPass) coherent =>
    turn_importPull legible coherent pr) issues.coherent
  have issueComments := Turn.foldl (fun comment (_ : comment ∈ delivery.issueComments)
    (run : ImportPass) coherent => turn_importIssueComment legible coherent comment) pulls.coherent
  have reviewComments := Turn.foldl (fun comment (_ : comment ∈ delivery.reviewComments)
    (run : ImportPass) coherent => turn_importReviewComment legible coherent comment)
    issueComments.coherent
  have reviews := Turn.foldl (fun number (_ : number ∈ ImportPass.changedPrNumbers delivery)
    (run : ImportPass) coherent => turn_importReviews legible delivery number coherent)
    reviewComments.coherent
  refine ⟨_, ?_, rfl⟩
  have all := (((issues.trans pulls).trans issueComments).trans reviewComments).trans reviews
  refine all.congr fun slot => ?_
  simp only [Delivery.derivations, Delivery.payloads, List.flatMap_append, List.flatMap_map,
    List.flatMap_assoc]

end Runs

end Egregore.Github
