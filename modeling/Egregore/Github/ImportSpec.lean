import Egregore.Github.ImportTurns

/-!
# What imports leave live

Import runs one after the other, each ingested into a store where the latest write or deletion of
an ID wins. When the evidence that is live, and what the state keeps, is that of the last delivery.
`importAll_current_iff` is over any number of runs. It rests on the turns of one run, each of which
carries the artifacts of one payload to the state that remembers them.
-/

namespace Egregore.Github

open Base

section Store

/-- The records of a graph in the order in which they are ingested. -/
def ingestOrder (records : List ImportRecord) : List ImportRecord :=
  records.filter (fun record => record matches .node _) ++
    records.filter (fun record => record matches .edge _) ++
      records.filter fun record => record matches .tombstone _

/-- The latest event about an ID in a store is a write. -/
def isLive (log : List ImportRecord) (id : String) : Bool :=
  unanswered (ImportRecord.writes id) (ImportRecord.deletes id) log

theorem isLive_ingest {log records : List ImportRecord} {id : String} :
    isLive (log ++ ingestOrder records) id = true ↔
      (Written records id ∨ isLive log id = true) ∧ ¬ Deleted records id := by
  have noDeletion : ∀ record ∈ records.filter (fun record => record matches .node _) ++
      records.filter (fun record => record matches .edge _), record.deletes id = false := by
    intro record member
    cases record <;> simp [ImportRecord.deletes] at member ⊢
  have noWrite : ∀ record ∈ records.filter (fun record => record matches .tombstone _),
      record.writes id = false := by
    intro record member
    cases record <;> simp [ImportRecord.writes] at member ⊢
  rw [isLive, ingestOrder, unanswered_append_batch noDeletion noWrite, Bool.and_eq_true,
    Bool.or_eq_true, Bool.not_eq_true', ← Bool.not_eq_true, List.any_eq_true, List.any_eq_true]
  refine and_congr (or_congr_left ⟨?_, ?_⟩) (not_congr ⟨?_, ?_⟩)
  · rintro ⟨record, member, writes⟩
    refine ⟨record, ?_, writes⟩
    rcases List.mem_append.mp member with member | member <;> exact List.mem_of_mem_filter member
  · rintro ⟨record, member, writes⟩
    refine ⟨record, ?_, writes⟩
    cases record with
    | tombstone tombstone => cases writes
    | _ => simp [member]
  · rintro ⟨record, member, deletes⟩
    exact ⟨record, List.mem_of_mem_filter member, deletes⟩
  · rintro ⟨record, member, deletes⟩
    refine ⟨record, ?_, deletes⟩
    cases record with
    | tombstone tombstone => simp [member]
    | _ => cases deletes

end Store

section Runs

/-- A run: what its records share, and what the endpoints deliver to it. -/
structure ImportCall (readers : Readers) where
  ctx : Context
  delivery : Delivery readers

variable {readers : Readers} (blake3 : String → String)

/-- A run and the ingestion of its graph. -/
def importInto (stored : List ImportRecord × State) (call : ImportCall readers) :
    List ImportRecord × State :=
  let imported := ImportPass.runImport blake3 call.ctx call.delivery stored.2
  (stored.1 ++ ingestOrder imported.1, imported.2)

/-- Runs from a fresh state and an empty store: each takes the state that the one before it left. -/
def importAll (calls : List (ImportCall readers)) : List ImportRecord × State :=
  calls.foldl (importInto blake3) ([], {})

/-- The live artifacts of a slot are those that some records write, and the state keeps these. -/
structure SlotCurrent (repo : String) (slot : Slot) (records : List ImportRecord)
    (stored : List ImportRecord × State) : Prop where
  live : ∀ id, slot.Artifact blake3 repo id → (isLive stored.1 id = true ↔ Written records id)
  kept : ∀ id, id ∈ stored.2.kept slot ↔ slot.Artifact blake3 repo id ∧ Written records id

/-- The evidence of each resource that a run delivered is what the last payload delivered of it
derives. -/
def ImportCall.EvidenceCurrent (call : ImportCall readers) (stored : List ImportRecord × State) :
    Prop :=
  ∀ before payload after, call.delivery.payloads = before ++ payload :: after →
    (∀ later ∈ after, later.resource ≠ payload.resource) → ∀ slot ∈ payload.slots,
      SlotCurrent blake3 call.ctx.sourceRepo slot (payload.emitted blake3 call.ctx).records stored

/-- In every slot, the run retracts nothing that its last delivery derives, and leaves nothing
behind. -/
def ImportCall.Settles (call : ImportCall readers) (state : State) : Prop :=
  ∀ slot, Reconciled (state.kept slot) (call.delivery.derivations blake3 call.ctx slot)

end Runs

section Evidence

variable {readers : Readers} {blake3 : String → String}

/-- The store and the state agree on the artifacts. -/
structure Agree (readers : Readers) (blake3 : String → String) (repo : String)
    (stored : List ImportRecord × State) : Prop where
  coherent : stored.2.Coherent readers blake3 repo
  live : ∀ (slot : Slot) (id : String), slot.Artifact blake3 repo id →
    (isLive stored.1 id = true ↔ id ∈ stored.2.kept slot)

theorem agree_fresh (repo : String) : Agree readers blake3 repo ([], {}) where
  coherent := by
    refine ⟨fun slot id member => ?_, fun resource hash found => ?_⟩
    · cases slot <;> simp [State.kept, State.priorMergeArtifact, State.priorRequestEdges,
        State.priorTeamDiagnostics, State.priorReviewArtifact] at member
    · simp at found
  live slot id _ := by
    cases slot <;> simp [isLive, State.kept, State.priorMergeArtifact, State.priorRequestEdges,
      State.priorTeamDiagnostics, State.priorReviewArtifact]

/-- What a run leaves: the state of its last deliveries, and the artifacts that it has seen and not
retracted live. -/
structure Leaves (readers : Readers) (blake3 : String → String) (repo : String)
    (derived : Slot → List (Derivation String)) (stored next : List ImportRecord × State) : Prop where
  coherent : next.2.Coherent readers blake3 repo
  kept : ∀ slot, next.2.kept slot = keptAfter (stored.2.kept slot) (derived slot)
  live : ∀ (slot : Slot) (id : String), slot.Artifact blake3 repo id →
    (isLive next.1 id = true ↔
      Seen id (stored.2.kept slot) (derived slot) ∧
        ¬ Dropped true id (stored.2.kept slot) (derived slot))

theorem leaves_importInto {call : ImportCall readers} {stored : List ImportRecord × State}
    (legible : Legible blake3 call.ctx.sourceRepo)
    (agree : Agree readers blake3 call.ctx.sourceRepo stored) :
    Leaves readers blake3 call.ctx.sourceRepo (call.delivery.derivations blake3 call.ctx) stored
      (importInto blake3 stored call) := by
  obtain ⟨last, turn, imported⟩ := turn_runImport legible agree.coherent call.delivery
  have ran : importInto blake3 stored call =
      (stored.1 ++ ingestOrder
        (last.graph ++ [ImportPass.handoffRecord blake3 call.ctx last.emittedCount]), last.state) := by
    rw [importInto, imported]
  rw [ran]
  refine ⟨turn.coherent, turn.kept, fun slot id artifact => ?_⟩
  obtain ⟨fresh, grown, facts⟩ := turn.graph
  obtain ⟨seen, dropped⟩ := facts slot id artifact
  have handoff := foreign_handoffRecord legible last.emittedCount
  have unwritten : ¬ Written [ImportPass.handoffRecord blake3 call.ctx last.emittedCount] id := by
    rintro ⟨record, member, writes⟩
    rw [List.mem_singleton] at member
    subst member
    refine handoff.unowned slot ?_
    rwa [ImportRecord.id_of_writes writes]
  have undeleted : ¬ Deleted [ImportPass.handoffRecord blake3 call.ctx last.emittedCount] id := by
    rintro ⟨record, member, deletes⟩
    rw [List.mem_singleton] at member
    subst member
    rw [handoff.additive id] at deletes
    cases deletes
  have grown : last.graph = fresh := by rw [grown]; rfl
  rw [isLive_ingest, written_append, deleted_append, grown, ← seen, ← dropped,
    agree.live slot id artifact]
  simp only [unwritten, undeleted, or_false]

/-- A run from a store and a state that agree settles exactly when they agree after it. -/
theorem Leaves.settles_iff {repo : String} {derived : Slot → List (Derivation String)}
    {stored next : List ImportRecord × State} {slot : Slot}
    (agree : Agree readers blake3 repo stored) (leaves : Leaves readers blake3 repo derived stored next)
    (artifacts : ∀ derivation ∈ derived slot, ∀ id ∈ derivation.artifacts,
      slot.Artifact blake3 repo id) :
    Reconciled (stored.2.kept slot) (derived slot) ↔
      ∀ id, slot.Artifact blake3 repo id → (isLive next.1 id = true ↔ id ∈ next.2.kept slot) := by
  rw [reconciled_iff]
  constructor
  · intro settled id artifact
    rw [leaves.live slot id artifact, settled id, leaves.kept]
  · intro live id
    have seen : Seen id (stored.2.kept slot) (derived slot) → slot.Artifact blake3 repo id := by
      rintro (earlier | ⟨derivation, member, derives⟩)
      · exact agree.coherent.owned slot id earlier
      · exact artifacts derivation member id derives
    constructor
    · rintro ⟨isSeen, standing⟩
      rw [← leaves.kept, ← live id (seen isSeen), leaves.live slot id (seen isSeen)]
      exact ⟨isSeen, standing⟩
    · intro last
      have artifact := seen (seen_iff.mpr (Or.inl last))
      rwa [← leaves.live slot id artifact, live id artifact, leaves.kept]

theorem artifact_of_derivations {ctx : Context} {delivery : Delivery readers} {slot : Slot}
    {derivation : Derivation String} {id : String}
    (member : derivation ∈ delivery.derivations blake3 ctx slot) (derives : id ∈ derivation.artifacts) :
    slot.Artifact blake3 ctx.sourceRepo id := by
  obtain ⟨payload, -, member⟩ := List.mem_flatMap.mp member
  obtain ⟨isSlot, derived⟩ := Payload.mem_derivations.mp ⟨derivation, member, derives⟩
  exact Payload.artifact_of_derived isSlot derived

/-- What is kept for a slot is what the last payload of its resource derives. -/
theorem keptAfter_of_last {ctx : Context} {delivery : Delivery readers} {slot : Slot}
    {before after : List (Payload readers)} {payload : Payload readers} {kept : List String}
    (split : delivery.payloads = before ++ payload :: after)
    (last : ∀ later ∈ after, later.resource ≠ payload.resource) (isSlot : slot ∈ payload.slots) :
    keptAfter kept (delivery.derivations blake3 ctx slot) =
      payload.derived blake3 ctx.commitIndex ctx.sourceRepo slot := by
  have rest : (after.flatMap fun payload =>
      payload.derivations blake3 ctx.commitIndex ctx.sourceRepo slot) = [] := by
    rw [List.flatMap_eq_nil_iff]
    intro later member
    rw [Payload.derivations, if_neg]
    intro isSlot'
    rw [Payload.mem_slots_iff] at isSlot isSlot'
    exact last later member (isSlot'.symm.trans isSlot)
  rw [Delivery.derivations, split, List.flatMap_append, List.flatMap_cons, rest, List.append_nil,
    keptAfter_append, keptAfter_derivations, if_pos isSlot]

/-- A slot that a run derives something for has a last payload. -/
theorem exists_last_payload {ctx : Context} {delivery : Delivery readers} {slot : Slot}
    (derives : delivery.derivations blake3 ctx slot ≠ []) :
    ∃ before payload after, delivery.payloads = before ++ payload :: after ∧
      (∀ later ∈ after, later.resource ≠ payload.resource) ∧ slot ∈ payload.slots := by
  have delivered : ∃ payload ∈ delivery.payloads, decide (slot.resource = payload.resource) = true := by
    by_contra none
    refine derives (List.flatMap_eq_nil_iff.mpr fun payload member => ?_)
    rw [Payload.derivations, if_neg]
    intro isSlot
    exact none ⟨payload, member, decide_eq_true (Payload.mem_slots_iff.mp isSlot)⟩
  obtain ⟨before, payload, after, split, isSlot, last⟩ := exists_last_split delivered
  have isSlot := of_decide_eq_true isSlot
  refine ⟨before, payload, after, split, fun later member same => ?_, Payload.mem_slots_iff.mpr isSlot⟩
  have other := of_decide_eq_false (last later member)
  exact other (isSlot.trans same.symm)

end Evidence

section Imports

variable {readers : Readers} {blake3 : String → String} {repo : String}

theorem leaves_importInto_of_repo {call : ImportCall readers} {stored : List ImportRecord × State}
    (legible : Legible blake3 repo) (same : call.ctx.sourceRepo = repo)
    (agree : Agree readers blake3 repo stored) :
    Leaves readers blake3 repo (call.delivery.derivations blake3 call.ctx) stored
      (importInto blake3 stored call) := by
  subst same
  exact leaves_importInto legible agree

/-- One run leaves the current evidence exactly when it settles. -/
theorem evidenceCurrent_iff {call : ImportCall readers} {stored : List ImportRecord × State}
    (legible : Legible blake3 repo) (same : call.ctx.sourceRepo = repo)
    (agree : Agree readers blake3 repo stored) :
    call.EvidenceCurrent blake3 (importInto blake3 stored call) ↔ call.Settles blake3 stored.2 := by
  subst same
  have leaves := leaves_importInto legible agree
  have settles (slot : Slot) : Reconciled (stored.2.kept slot)
      (call.delivery.derivations blake3 call.ctx slot) ↔ ∀ id,
        slot.Artifact blake3 call.ctx.sourceRepo id →
          (isLive (importInto blake3 stored call).1 id = true ↔
            id ∈ (importInto blake3 stored call).2.kept slot) :=
    leaves.settles_iff agree fun derivation member id derives => artifact_of_derivations member derives
  have written {payload : Payload readers} {slot : Slot} (isSlot : slot ∈ payload.slots) {id : String}
      (artifact : slot.Artifact blake3 call.ctx.sourceRepo id) :
      Written (payload.emitted blake3 call.ctx).records id ↔
        id ∈ payload.derived blake3 call.ctx.commitIndex call.ctx.sourceRepo slot :=
    ((Payload.carries_emitted legible).written slot id artifact).trans (and_iff_right isSlot)
  constructor
  · intro current slot
    by_cases nothing : call.delivery.derivations blake3 call.ctx slot = []
    · rw [nothing]
      exact reconciled_nil
    · obtain ⟨before, payload, after, split, last, isSlot⟩ := exists_last_payload nothing
      obtain ⟨live, -⟩ := current before payload after split last slot isSlot
      refine (settles slot).mpr fun id artifact => ?_
      rw [live id artifact, leaves.kept, keptAfter_of_last split last isSlot]
      exact written isSlot artifact
  · intro settled before payload after split last slot isSlot
    have live := (settles slot).mp (settled slot)
    have kept (id : String) : id ∈ (importInto blake3 stored call).2.kept slot ↔
        id ∈ payload.derived blake3 call.ctx.commitIndex call.ctx.sourceRepo slot := by
      rw [leaves.kept, keptAfter_of_last split last isSlot]
    refine ⟨fun id artifact => ?_, fun id => ?_⟩
    · rw [live id artifact, kept]
      exact (written isSlot artifact).symm
    · constructor
      · intro member
        have artifact := leaves.coherent.owned slot id member
        exact ⟨artifact, (written isSlot artifact).mpr ((kept id).mp member)⟩
      · rintro ⟨artifact, writes⟩
        exact (kept id).mpr ((written isSlot artifact).mp writes)

/-- A run that settles leaves the store and the state in agreement. -/
theorem Agree.importInto {call : ImportCall readers} {stored : List ImportRecord × State}
    (legible : Legible blake3 repo) (same : call.ctx.sourceRepo = repo)
    (agree : Agree readers blake3 repo stored) (settles : call.Settles blake3 stored.2) :
    Agree readers blake3 repo (importInto blake3 stored call) := by
  have leaves := leaves_importInto_of_repo legible same agree
  refine ⟨leaves.coherent, fun slot => (leaves.settles_iff agree ?_).mp (settles slot)⟩
  intro derivation member id derives
  rw [← same]
  exact artifact_of_derivations member derives

theorem importAll_append_singleton (calls : List (ImportCall readers)) (call : ImportCall readers) :
    importAll blake3 (calls ++ [call]) = importInto blake3 (importAll blake3 calls) call := by
  rw [importAll, List.foldl_append]
  rfl

/-- What holds at each place of a list with one more item. -/
theorem forall_split_append_singleton {α : Type*} (holds : List α → α → Prop) {items : List α}
    {item : α} :
    (∀ before next after, items ++ [item] = before ++ next :: after → holds before next) ↔
      (∀ before next after, items = before ++ next :: after → holds before next) ∧
        holds items item := by
  constructor
  · intro all
    refine ⟨fun before next after split => ?_, all items item [] rfl⟩
    exact all before next (after ++ [item]) (by rw [split, List.append_assoc, List.cons_append])
  · rintro ⟨earlier, last⟩ before next after split
    cases after using List.reverseRecOn with
    | nil =>
        obtain ⟨rfl, single⟩ := List.append_inj' split rfl
        rw [List.cons.injEq] at single
        obtain ⟨rfl, -⟩ := single
        exact last
    | append_singleton after final =>
        rw [← List.cons_append, ← List.append_assoc] at split
        exact earlier before next after (List.append_inj' split rfl).1

/-- Runs that all settle leave the store and the state in agreement. -/
theorem agree_importAll (legible : Legible blake3 repo) {calls : List (ImportCall readers)}
    (same : ∀ call ∈ calls, call.ctx.sourceRepo = repo)
    (settles : ∀ earlier call later, calls = earlier ++ call :: later →
      call.Settles blake3 (importAll blake3 earlier).2) :
    Agree readers blake3 repo (importAll blake3 calls) := by
  induction calls using List.reverseRecOn with
  | nil => exact agree_fresh repo
  | append_singleton calls call ih =>
      obtain ⟨earlier, last⟩ := (forall_split_append_singleton fun earlier call =>
        ImportCall.Settles blake3 call (importAll blake3 earlier).2).mp settles
      rw [importAll_append_singleton]
      exact (ih (fun call member => same call (by simp [member])) earlier).importInto legible
        (same call (by simp)) last

/-- After each of some runs the evidence is current, exactly when each of them settles. -/
theorem importAll_current_iff (legible : Legible blake3 repo) (calls : List (ImportCall readers))
    (same : ∀ call ∈ calls, call.ctx.sourceRepo = repo) :
    (∀ (earlier : List (ImportCall readers)) (call : ImportCall readers) later,
        calls = earlier ++ call :: later →
          call.EvidenceCurrent blake3 (importAll blake3 (earlier ++ [call]))) ↔
      ∀ (earlier : List (ImportCall readers)) (call : ImportCall readers) later,
        calls = earlier ++ call :: later → call.Settles blake3 (importAll blake3 earlier).2 := by
  induction calls using List.reverseRecOn with
  | nil => simp
  | append_singleton calls call ih =>
      have sameEarlier : ∀ call ∈ calls, call.ctx.sourceRepo = repo :=
        fun call member => same call (by simp [member])
      rw [forall_split_append_singleton fun earlier call =>
          ImportCall.EvidenceCurrent blake3 call (importAll blake3 (earlier ++ [call])),
        forall_split_append_singleton fun earlier call =>
          ImportCall.Settles blake3 call (importAll blake3 earlier).2,
        ih sameEarlier, importAll_append_singleton]
      exact and_congr_right fun earlier => evidenceCurrent_iff legible (same call (by simp))
        (agree_importAll legible sameEarlier earlier)

end Imports

section Requests

theorem legible_hexText : Legible hexText "o/r" where
  injective := hexText_injective
  hex := not_mem_hexText (by decide)
  mark := hexText_plain
  repo := by decide

/-- A pull request that asks some accounts for a review. -/
def requestingPull (logins : List String) : PullRequest where
  number := 7
  title := "Keep edges"
  state := "open"
  updatedAt := "2026-01-02T00:00:00Z"
  htmlUrl := "https://github.com/o/r/pull/7"
  requestedReviewers := logins.map fun login => ⟨login⟩

/-- A run to which only the list of pull requests delivers something. -/
def pullsCall (pulls : List PullRequest) : ImportCall noReaders where
  ctx := sampleContext
  delivery := { pulls := pulls }

theorem derivations_pullsCall (pulls : List PullRequest) (slot : Slot) :
    (pullsCall pulls).delivery.derivations hexText sampleContext slot =
      pulls.flatMap fun pr =>
        (Payload.pull pr : Payload noReaders).derivations hexText ∅ "o/r" slot := by
  have payloads : (pullsCall pulls).delivery.payloads = pulls.map .pull := by
    simp [pullsCall, Delivery.payloads]
  rw [Delivery.derivations, payloads, List.flatMap_map]
  rfl

/-- A run that delivers one pull request once settles. -/
theorem settles_pullsCall (pr : PullRequest) (state : State) :
    (pullsCall [pr]).Settles hexText state := by
  intro slot
  change Reconciled _ ((pullsCall [pr]).delivery.derivations hexText sampleContext slot)
  rw [derivations_pullsCall, List.flatMap_singleton, Payload.derivations]
  split
  · exact reconciled_singleton rfl
  · exact reconciled_nil

/-- A request that is withdrawn before the second run. -/
theorem withdrawnRequest_current :
    (pullsCall [requestingPull []]).EvidenceCurrent hexText
      (importAll hexText [pullsCall [requestingPull ["alice"]], pullsCall [requestingPull []]]) := by
  refine (importAll_current_iff legible_hexText _ ?_).mpr ?_
    [pullsCall [requestingPull ["alice"]]] (pullsCall [requestingPull []]) [] rfl
  · simp only [List.cons_append, List.nil_append, List.mem_cons, List.not_mem_nil, or_false,
      forall_eq_or_imp, forall_eq]
    exact ⟨rfl, rfl⟩
  · intro earlier call later split
    have member : call ∈ earlier ++ call :: later := by simp
    rw [← split] at member
    simp only [List.cons_append, List.nil_append, List.mem_cons, List.not_mem_nil,
      or_false] at member
    rcases member with rfl | rfl <;> exact settles_pullsCall _ _

/-- A request that is withdrawn and made again while the second run reads the pages: the run delivers
both payloads, and its tombstone outlives the edge that it writes again. -/
theorem renewedRequest_dead :
    ¬ ∀ (blake3 : String → String) (repo : String), Legible blake3 repo →
      ∀ (readers : Readers) (calls : List (ImportCall readers)),
        (∀ call ∈ calls, call.ctx.sourceRepo = repo) →
          ∀ (earlier : List (ImportCall readers)) (call : ImportCall readers) later,
            calls = earlier ++ call :: later →
              call.EvidenceCurrent blake3 (importAll blake3 (earlier ++ [call])) := by
  intro always
  have same : ∀ call ∈ [pullsCall [requestingPull ["alice"]],
      pullsCall [requestingPull [], requestingPull ["alice"]]], call.ctx.sourceRepo = "o/r" := by
    simp only [List.mem_cons, List.not_mem_nil, or_false, forall_eq_or_imp, forall_eq]
    exact ⟨rfl, rfl⟩
  have isFirst := same (pullsCall [requestingPull ["alice"]]) (by simp)
  have isSecond := same (pullsCall [requestingPull [], requestingPull ["alice"]]) (by simp)
  have current := always hexText "o/r" legible_hexText noReaders _ same
    [pullsCall [requestingPull ["alice"]]]
    (pullsCall [requestingPull [], requestingPull ["alice"]]) [] rfl
  have fresh : Agree noReaders hexText "o/r" ([], {}) := agree_fresh "o/r"
  have leaves := leaves_importInto_of_repo legible_hexText isFirst fresh
  have agree := fresh.importInto legible_hexText isFirst (settles_pullsCall _ _)
  have settled := (evidenceCurrent_iff legible_hexText isSecond agree).mp current (.requests 7)
  -- Alice's edge, which the first run kept.
  obtain ⟨edge, requested⟩ : ∃ edge,
      edge ∈ requestedReviewEdgeIds hexText "o/r" (requestingPull ["alice"]) :=
    ⟨_, mem_requestedReviewEdgeIds.mpr ⟨⟨"alice"⟩, List.mem_singleton_self _, by decide, rfl⟩⟩
  have absent : edge ∉ requestedReviewEdgeIds hexText "o/r" (requestingPull []) := by
    rw [mem_requestedReviewEdgeIds]
    rintro ⟨user, member, -⟩
    cases member
  have alone (logins : List String) : (Payload.pull (requestingPull logins) :
      Payload noReaders).derivations hexText ∅ "o/r" (.requests 7) =
        [⟨requestedReviewEdgeIds hexText "o/r" (requestingPull logins), true⟩] := rfl
  have kept : edge ∈ (importInto hexText ([], {}) (pullsCall [requestingPull ["alice"]])).2.kept
      (.requests 7) := by
    rw [leaves.kept]
    change edge ∈ keptAfter _ ((pullsCall _).delivery.derivations hexText sampleContext _)
    rwa [derivations_pullsCall, List.flatMap_singleton, alone]
  change Reconciled _ ((pullsCall _).delivery.derivations hexText sampleContext _) at settled
  rw [derivations_pullsCall, List.flatMap_cons, List.flatMap_singleton, alone, alone] at settled
  exact settled.noneReturns edge requested (Or.inl ⟨rfl, kept, absent⟩)

end Requests

end Egregore.Github
