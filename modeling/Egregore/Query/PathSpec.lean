import Egregore.Query.Path
import Egregore.Query.Reordered

/-!
# The least shortest call path

What `call_path` answers between two live records, and when a slice in another order gives the
same answer. The order of equal keys is left to `sort_unstable_by`, and the key of an edge leaves
out its confidence: `callPath_law_iff`.
-/

namespace Egregore

open Base

section Reordered

variable {records others : List GraphRecord}

/-- Reordered records have the same resolved calls. -/
theorem ReorderedById.resolvedCall (reordered : ReorderedById records others) {edge : EdgeRecord} :
    ResolvedCall others edge ↔ ResolvedCall records edge := by
  constructor
  · rintro ⟨label, resolution, live, target⟩
    exact ⟨label, resolution, reordered.toReordered.deleted _ ▸ live, reordered.known.mp target⟩
  · rintro ⟨label, resolution, live, target⟩
    exact ⟨label, resolution, (reordered.toReordered.deleted _).trans live, reordered.known.mpr target⟩

/-- They have the same links from each node. -/
theorem ReorderedById.mem_callsFrom (reordered : ReorderedById records others) {source : String}
    {link : String × PathEdgeRef} :
    link ∈ callsFrom others source ↔ link ∈ callsFrom records source := by
  rw [Egregore.mem_callsFrom, Egregore.mem_callsFrom]
  simp only [reordered.perm.mem_iff, reordered.resolvedCall]

end Reordered

/-! ### Chains of calls -/

section Chains

variable (records : List GraphRecord) (fromId : String)

/-- A chain of resolved calls from a record to another. -/
inductive CallChain : List CallPathStep → String → Prop where
  | start : CallChain [] fromId
  | step {steps : List CallPathStep} {source : String} {edge : EdgeRecord}
      (prior : CallChain steps source) (line : .edge edge ∈ records)
      (call : ResolvedCall records edge) (joined : edge.source = source) :
      CallChain (steps ++ [callPathStep (callOf edge)]) edge.target

/-- The length of a shortest chain to a record. -/
def CallDistance (distance : Nat) (id : String) : Prop :=
  (∃ steps, CallChain records fromId steps id ∧ steps.length = distance) ∧
    ∀ steps, CallChain records fromId steps id → distance ≤ steps.length

/-- A shortest chain, each of whose steps is the least into its node from the level before, by
source and edge. -/
structure IsWitness (toId : String) (steps : List CallPathStep) : Prop where
  chain : CallChain records fromId steps toId
  shortest : CallDistance records fromId steps.length toId
  least : ∀ step ∈ steps, ∃ distance,
    CallDistance records fromId (distance + 1) step.targetRecordId ∧
    CallDistance records fromId distance step.sourceRecordId ∧
    ∀ edge, .edge edge ∈ records → ResolvedCall records edge →
      edge.target = step.targetRecordId → CallDistance records fromId distance edge.source →
      pairOrder (edge.source, edge.id) (step.sourceRecordId, step.edgeRecordId) ≠ .lt

variable {records fromId}

/-- A walk of links is a chain of calls. -/
theorem walk_iff_callChain {length : Nat} {id : String} :
    Walk (callsFrom records) fromId length id ↔
      ∃ steps, CallChain records fromId steps id ∧ steps.length = length := by
  constructor
  · intro walk
    induction walk with
    | start => exact ⟨[], .start, rfl⟩
    | step _ link ih =>
        obtain ⟨steps, chain, rfl⟩ := ih
        obtain ⟨edge, line, call, joined, same⟩ := mem_callsFrom.mp link
        obtain ⟨rfl, -⟩ := Prod.mk.inj same
        exact ⟨_, .step chain line call joined, by simp⟩
  · rintro ⟨steps, chain, rfl⟩
    induction chain with
    | start => exact .start
    | step prior line call joined ih =>
        rw [List.length_append, List.length_singleton]
        exact .step ih (mem_callsFrom.mpr ⟨_, line, call, joined, rfl⟩)

/-- The distance of a call is the level of the search. -/
theorem callDistance_iff {distance : Nat} {id : String} :
    CallDistance records fromId distance id ↔ AtLevel (callsFrom records) fromId distance id := by
  rw [CallDistance, AtLevel, walk_iff_callChain]
  refine and_congr_right fun _ => ?_
  constructor
  · intro least shorter less walk
    obtain ⟨steps, chain, rfl⟩ := walk_iff_callChain.mp walk
    have := least steps chain
    omega
  · intro least steps chain
    by_contra shorter
    exact least steps.length (by omega) (walk_iff_callChain.mpr ⟨steps, chain, rfl⟩)

/-- The least chain of links is a chain of calls. -/
private theorem callChain_of_leastChain {level : Nat} {id : String}
    {links : List (String × PathEdgeRef)}
    (chain : LeastChain pathEdgeOrder (callsFrom records) fromId level id links) :
    CallChain records fromId (links.map callPathStep) id ∧ links.length = level := by
  induction chain with
  | start => exact ⟨.start, rfl⟩
  | step prior fresh least ih =>
      obtain ⟨edge, line, call, joined, same⟩ := mem_callsFrom.mp least.link
      obtain ⟨rfl, rfl⟩ := Prod.mk.inj same
      rw [List.map_append, List.length_append, List.length_singleton, ih.2]
      exact ⟨.step ih.1 line call joined, rfl⟩

/-- It is a witness as the answer needs one. -/
theorem isWitness_of_leastChain {level : Nat} {toId : String}
    {links : List (String × PathEdgeRef)}
    (chain : LeastChain pathEdgeOrder (callsFrom records) fromId level toId links) :
    IsWitness records fromId toId (links.map callPathStep) := by
  obtain ⟨isChain, length⟩ := callChain_of_leastChain chain
  refine ⟨isChain, ?_, fun step member => ?_⟩
  · rw [List.length_map, length]
    exact callDistance_iff.mpr chain.atLevel
  · obtain ⟨⟨target, source, edgeId, confidence⟩, inside, rfl⟩ := List.mem_map.mp member
    obtain ⟨distance, from_, fresh, least⟩ := chain.link_least _ inside
    obtain rfl : source = from_ := source_of_mem_callsFrom _ _ _ least.link
    refine ⟨distance, callDistance_iff.mpr fresh, callDistance_iff.mpr least.atLevel, ?_⟩
    rintro edge line call rfl atDistance less
    exact least.least edge.source (edge.source, edge.id, edge.confidence)
      (callDistance_iff.mp atDistance) (mem_callsFrom.mpr ⟨edge, line, call, rfl, rfl⟩) less

end Chains

/-! ### The answer -/

section Law

variable (records : List GraphRecord) (fromId toId : String)

/-- The answer finds a path exactly if there is one, then the least shortest one; another order of
the slice, with the records of each ID in the same order, does not change it. -/
structure CallPathLaw : Prop where
  answers : ∀ sort, ∃ context, callPath sort records fromId toId = .ok (some context) ∧
    (context.pathFound = true ↔ ∃ steps, CallChain records fromId steps toId) ∧
    (context.pathFound = true → IsWitness records fromId toId context.steps)
  invariant : ∀ (sort : UnstableSort) others, ReorderedById records others →
    callPath sort others fromId toId = callPath sort records fromId toId

/-- The lines of the link's edge between its ends have one confidence. -/
def OneConfidence (link : String × PathEdgeRef) : Prop :=
  ∀ pointer, (link.1, pointer) ∈ callsFrom records link.2.1 → pointer.2.1 = link.2.2.1 →
    pointer = link.2

/-- In every order of the slice the calls from the record are listed in one order. -/
def OneOrder (source : String) : Prop :=
  ∀ others, ReorderedById records others →
    (outboundCalls others).getD source [] = (outboundCalls records).getD source []

/-- On the least shortest chain, nothing is left to the sort. -/
def ConfidenceSettled : Prop :=
  ∀ level links, LeastChain pathEdgeOrder (callsFrom records) fromId level toId links →
    ∀ link ∈ links, OneConfidence records link ∨ OneOrder records link.2.1

variable {records fromId toId}

/-- The answer is the live records of its ends and its witness. -/
private theorem callPath_of_witnessOf {sort : UnstableSort} {answer : Bool × List CallPathStep}
    (answered : witnessOf (callPath sort records fromId toId) = .ok (some answer)) :
    ∃ from_ to_, (liveById (Liveness.new records) records)[fromId]? = some from_ ∧
      (liveById (Liveness.new records) records)[toId]? = some to_ ∧
      callPath sort records fromId toId = .ok (some ⟨from_, to_, answer.2, answer.1⟩) := by
  have found : ∃ context, callPath sort records fromId toId = .ok (some context) ∧
      (context.pathFound, context.steps) = answer := by
    cases result : callPath sort records fromId toId with
    | error failure => simp [witnessOf, result, Except.map] at answered
    | ok context =>
        cases context with
        | none => simp [witnessOf, result, Except.map] at answered
        | some context =>
            simp only [witnessOf, result, Except.map, Option.map_some, Except.ok.injEq,
              Option.some.injEq] at answered
            exact ⟨context, rfl, answered⟩
  obtain ⟨context, result, rfl⟩ := found
  have ends := result
  simp only [callPath] at ends
  cases isFrom : (liveById (Liveness.new records) records)[fromId]? with
  | none => simp [isFrom] at ends
  | some from_ =>
      cases isTo : (liveById (Liveness.new records) records)[toId]? with
      | none => simp [isFrom, isTo] at ends
      | some to_ =>
          refine ⟨from_, to_, rfl, rfl, result.trans ?_⟩
          simp only [isFrom, isTo] at ends
          have both : context.from_ = from_ ∧ context.to_ = to_ := by
            split at ends
            · cases ends
              exact ⟨rfl, rfl⟩
            split at ends
            · split at ends
              · cases ends
              · cases ends
                exact ⟨rfl, rfl⟩
            · cases ends
              exact ⟨rfl, rfl⟩
          obtain ⟨rfl, rfl⟩ := both
          rfl

/-- Sorting the links keeps the walks. -/
private theorem walk_discoveries_iff {sort : UnstableSort} {length : Nat} {id : String} :
    Walk (discoveriesFrom sort records) fromId length id ↔
      Walk (callsFrom records) fromId length id :=
  ⟨Walk.mono mem_callsFrom_of_discovery, Walk.represented fun source target pointer link =>
    (discovery_of_mem source target pointer link).imp fun _ => And.left⟩

/-- What is answered between different live records. -/
theorem callPath_answers (from_ : Known records fromId) (to_ : Known records toId)
    (distinct : fromId ≠ toId) (sort : UnstableSort) :
    ∃ context, callPath sort records fromId toId = .ok (some context) ∧
      (context.pathFound = true ↔ ∃ steps, CallChain records fromId steps toId) ∧
      (context.pathFound = true → IsWitness records fromId toId context.steps) := by
  rcases witnessOf_callPath sort from_ to_ distinct with ⟨level, links, chain, answer⟩ |
    ⟨noWalk, answer⟩
  · obtain ⟨fromRecord, toRecord, -, -, result⟩ := callPath_of_witnessOf answer
    have witness := isWitness_of_leastChain (leastChain_of_discoveries chain)
    exact ⟨_, result, ⟨fun _ => ⟨_, witness.chain⟩, fun _ => rfl⟩, fun _ => witness⟩
  · obtain ⟨fromRecord, toRecord, -, -, result⟩ := callPath_of_witnessOf answer
    refine ⟨_, result, ?_, fun found => absurd found Bool.false_ne_true⟩
    simp only [Bool.false_eq_true, false_iff]
    rintro ⟨steps, chain⟩
    exact absurd (walk_discoveries_iff.mpr (walk_iff_callChain.mpr ⟨steps, chain, rfl⟩))
      (noWalk steps.length)

/-! #### When the order does not matter -/

/-- Reordered records have the same least chains. -/
theorem ReorderedById.leastChain {others : List GraphRecord} (reordered : ReorderedById records others)
    {level : Nat} {links : List (String × PathEdgeRef)}
    (chain : LeastChain pathEdgeOrder (callsFrom others) fromId level toId links) :
    LeastChain pathEdgeOrder (callsFrom records) fromId level toId links :=
  chain.restrict (fun _ _ => reordered.mem_callsFrom.mpr) source_of_mem_callsFrom fun link member =>
    reordered.mem_callsFrom.mp (chain.link_mem source_of_mem_callsFrom link member).1

/-- Settled links are found in either order. -/
theorem links_eq_of_settled (settled : ConfidenceSettled records fromId toId)
    {others : List GraphRecord} (reordered : ReorderedById records others) {sort : UnstableSort}
    {level level' : Nat} {links links' : List (String × PathEdgeRef)}
    (chain : LeastChain pathEdgeOrder (discoveriesFrom sort records) fromId level toId links)
    (chain' : LeastChain pathEdgeOrder (discoveriesFrom sort others) fromId level' toId links') :
    links = links' := by
  have overLines := leastChain_of_discoveries chain
  have overLines' := reordered.leastChain (leastChain_of_discoveries chain')
  refine overLines.unique_of_links source_of_mem_callsFrom overLines' ?_
  rintro ⟨target, pointer⟩ member ⟨target', pointer'⟩ member' same draw
  obtain rfl : target = target' := same
  have drawn := pathEdgeOrder_eq_iff.mp draw
  rcases settled level links overLines (target, pointer) member with one | order
  · have linked := (overLines'.link_mem source_of_mem_callsFrom _ member').1
    rw [← drawn.1] at linked
    rw [one pointer' linked drawn.2.symm]
  · have listed := order others reordered
    have found := (chain.link_mem (fun _ _ _ link => source_of_mem_callsFrom _ _ _
      (mem_callsFrom_of_discovery _ _ link)) _ member).1
    have found' := (chain'.link_mem (fun _ _ _ link => source_of_mem_callsFrom _ _ _
      (mem_callsFrom_of_discovery _ _ link)) _ member').1
    simp only at found found' listed
    rw [← drawn.1, discoveriesFrom, listed, ← discoveriesFrom] at found'
    rw [(discovery_decided found found' draw).2]

/-- So the answer does not depend on their order, where the confidence is settled. -/
theorem callPath_reordered (from_ : Known records fromId) (to_ : Known records toId)
    (distinct : fromId ≠ toId) (settled : ConfidenceSettled records fromId toId)
    {others : List GraphRecord} (reordered : ReorderedById records others) (sort : UnstableSort) :
    callPath sort others fromId toId = callPath sort records fromId toId := by
  have same : witnessOf (callPath sort others fromId toId) =
      witnessOf (callPath sort records fromId toId) := by
    rcases witnessOf_callPath sort from_ to_ distinct with ⟨level, links, chain, answer⟩ |
      ⟨noWalk, answer⟩
    · rcases witnessOf_callPath sort (reordered.known.mpr from_) (reordered.known.mpr to_)
        distinct with ⟨level', links', chain', answer'⟩ | ⟨noWalk', -⟩
      · rw [answer, answer', links_eq_of_settled settled reordered chain chain']
      · refine absurd ?_ (noWalk' level)
        exact walk_discoveries_iff.mpr ((walk_discoveries_iff.mp chain.atLevel.1).mono fun _ _ =>
          reordered.mem_callsFrom.mpr)
    · rcases witnessOf_callPath sort (reordered.known.mpr from_) (reordered.known.mpr to_)
        distinct with ⟨level', links', chain', -⟩ | ⟨-, answer'⟩
      · refine absurd ?_ (noWalk level')
        exact walk_discoveries_iff.mpr ((walk_discoveries_iff.mp chain'.atLevel.1).mono fun _ _ =>
          reordered.mem_callsFrom.mp)
      · rw [answer, answer']
  obtain ⟨context, result, -⟩ := callPath_answers from_ to_ distinct sort
  have answered : witnessOf (callPath sort records fromId toId) =
      .ok (some (context.pathFound, context.steps)) := by
    rw [result]
    rfl
  obtain ⟨fromRecord, toRecord, isFrom, isTo, result⟩ := callPath_of_witnessOf answered
  obtain ⟨fromRecord', toRecord', isFrom', isTo', result'⟩ :=
    callPath_of_witnessOf (same.trans answered)
  rw [reordered.liveById, isFrom, Option.some.injEq] at isFrom'
  rw [reordered.liveById, isTo, Option.some.injEq] at isTo'
  rw [result, result', isFrom', isTo']

/-! #### When it does -/

/-- A sort that prefers the links of a chain, on the lists where it has to choose, finds it. -/
theorem leastChain_of_preferred {level : Nat} {links : List (String × PathEdgeRef)}
    (chain : LeastChain pathEdgeOrder (callsFrom records) fromId level toId links)
    {preferred : List PathEdgeRef → PathEdgeRef → Bool}
    (prefers : ∀ link ∈ links,
      preferred ((outboundCalls records).getD link.2.1 []) (link.1, link.2.2) = true ∧
      ∀ reference, preferred ((outboundCalls records).getD link.2.1 []) reference = true →
        reference.1 = link.1 → reference = (link.1, link.2.2)) :
    LeastChain pathEdgeOrder (discoveriesFrom (.depending preferred) records) fromId level toId
      links := by
  refine chain.restrict mem_callsFrom_of_discovery source_of_mem_callsFrom ?_
  rintro ⟨target, source, edgeId, confidence⟩ member
  obtain ⟨chosen, only⟩ := prefers _ member
  obtain ⟨⟨target', edgeId', confidence'⟩, inside, same⟩ :=
    List.mem_map.mp (chain.link_mem source_of_mem_callsFrom _ member).1
  simp only [discoveryOf, Prod.mk.injEq] at same
  obtain ⟨rfl, -, rfl, rfl⟩ := same
  refine List.mem_map.mpr ⟨(target', edgeId', confidence'), ?_, rfl⟩
  exact mem_dedupBy_preferring inside chosen fun other _ prefersOther key =>
    only other prefersOther (pathEdgeOrder_eq_iff.mp key).1

/-- An unsettled link can be answered with either confidence. -/
theorem not_invariant_of_unsettled (from_ : Known records fromId) (to_ : Known records toId)
    (distinct : fromId ≠ toId) {level : Nat} {links : List (String × PathEdgeRef)}
    (chain : LeastChain pathEdgeOrder (callsFrom records) fromId level toId links)
    {link : String × PathEdgeRef} (member : link ∈ links)
    {pointer : PathEdgeRef} (linked : (link.1, pointer) ∈ callsFrom records link.2.1)
    (sameEdge : pointer.2.1 = link.2.2.1) (other : pointer ≠ link.2)
    {others : List GraphRecord} (reordered : ReorderedById records others)
    (moved : (outboundCalls others).getD link.2.1 [] ≠ (outboundCalls records).getD link.2.1 []) :
    ∃ sort : UnstableSort,
      callPath sort others fromId toId ≠ callPath sort records fromId toId := by
  have sourceOf : ∀ link ∈ links, link ∈ callsFrom records link.2.1 := fun link member =>
    (chain.link_mem source_of_mem_callsFrom link member).1
  have fromSource : pointer.1 = link.2.1 := source_of_mem_callsFrom _ _ _ linked
  have draw : pathEdgeOrder link.2 pointer = .eq :=
    pathEdgeOrder_eq_iff.mpr ⟨fromSource.symm, sameEdge.symm⟩
  -- The same chain with the other confidence.
  let replaced := links.map fun step => if step.1 = link.1 then (link.1, pointer) else step
  have replacedChain : LeastChain pathEdgeOrder (callsFrom records) fromId level toId replaced :=
    chain.replace source_of_mem_callsFrom member linked draw
  have mem_replaced : ∀ step ∈ replaced, step = (link.1, pointer) ∨ step ∈ links ∧
      step.1 ≠ link.1 := by
    intro step inside
    obtain ⟨old, inOld, rfl⟩ := List.mem_map.mp inside
    by_cases here : old.1 = link.1
    · exact Or.inl (if_pos here)
    · rw [if_neg here]
      exact Or.inr ⟨inOld, here⟩
  have keeps : ∀ step ∈ links, step.1 ≠ link.1 → step ∈ replaced := fun step inside away =>
    List.mem_map.mpr ⟨step, inside, if_neg away⟩
  let holds : List (String × PathEdgeRef) → PathEdgeRef → Bool := fun links reference =>
    links.any fun step => (step.1, step.2.2) = reference
  have holds_iff : ∀ links reference, holds links reference = true ↔
      ∃ step ∈ links, (step.1, step.2.2) = reference := by
    intro links reference
    simp only [holds, List.any_eq_true, decide_eq_true_eq]
  let preferred : List PathEdgeRef → PathEdgeRef → Bool := fun items =>
    if items = (outboundCalls records).getD link.2.1 [] then holds links else holds replaced
  have one : ∀ {links : List (String × PathEdgeRef)},
      LeastChain pathEdgeOrder (callsFrom records) fromId level toId links →
      ∀ step ∈ links, ∀ reference, holds links reference = true → reference.1 = step.1 →
        reference = (step.1, step.2.2) := by
    intro links chain step inside reference isHeld same
    obtain ⟨held, inHeld, rfl⟩ := (holds_iff _ _).mp isHeld
    rw [chain.eq_of_target source_of_mem_callsFrom inHeld inside same]
  have first : LeastChain pathEdgeOrder (discoveriesFrom (.depending preferred) records) fromId
      level toId links := by
    refine leastChain_of_preferred chain fun step inside => ?_
    by_cases list : (outboundCalls records).getD step.2.1 [] =
        (outboundCalls records).getD link.2.1 []
    · simp only [preferred, if_pos list]
      exact ⟨(holds_iff _ _).mpr ⟨step, inside, rfl⟩, one chain step inside⟩
    · have away : step.1 ≠ link.1 := fun same =>
        list (by rw [chain.eq_of_target source_of_mem_callsFrom inside member same])
      have kept := keeps step inside away
      simp only [preferred, if_neg list]
      exact ⟨(holds_iff _ _).mpr ⟨step, kept, rfl⟩, one replacedChain step kept⟩
  have movedChain : LeastChain pathEdgeOrder (callsFrom others) fromId level toId replaced :=
    replacedChain.restrict (fun _ _ => reordered.mem_callsFrom.mp) source_of_mem_callsFrom
      fun step inside => reordered.mem_callsFrom.mpr
        (replacedChain.link_mem source_of_mem_callsFrom step inside).1
  have second : LeastChain pathEdgeOrder (discoveriesFrom (.depending preferred) others) fromId
      level toId replaced := by
    refine leastChain_of_preferred movedChain fun step inside => ?_
    by_cases list : (outboundCalls others).getD step.2.1 [] =
        (outboundCalls records).getD link.2.1 []
    · have old : step ∈ links := by
        rcases mem_replaced step inside with rfl | ⟨inOld, -⟩
        · exact absurd (fromSource ▸ list) moved
        · exact inOld
      simp only [preferred, if_pos list]
      exact ⟨(holds_iff _ _).mpr ⟨step, old, rfl⟩, one chain step old⟩
    · simp only [preferred, if_neg list]
      exact ⟨(holds_iff _ _).mpr ⟨step, inside, rfl⟩, one replacedChain step inside⟩
  refine ⟨.depending preferred, fun same => ?_⟩
  have answers : ∀ {records : List GraphRecord} {links : List (String × PathEdgeRef)},
      Known records fromId → Known records toId →
      LeastChain pathEdgeOrder (discoveriesFrom (.depending preferred) records) fromId level toId
        links →
      witnessOf (callPath (.depending preferred) records fromId toId) =
        .ok (some (true, links.map callPathStep)) := by
    intro records links from_ to_ chain
    rcases witnessOf_callPath (.depending preferred) from_ to_ distinct with
      ⟨level', links', chain', answer⟩ | ⟨noWalk, -⟩
    · rw [answer, chain'.unique (fun _ _ _ _ _ => discovery_decided) chain]
    · exact absurd chain.atLevel.1 (noWalk level)
  have differ := answers (reordered.known.mpr from_) (reordered.known.mpr to_) second
  rw [same, answers from_ to_ first] at differ
  simp only [Except.ok.injEq, Option.some.injEq, Prod.mk.injEq, true_and] at differ
  have equal := callPathStep_injective.list_map differ
  have new : (link.1, pointer) ∈ links := by
    rw [equal]
    exact List.mem_map.mpr ⟨link, member, if_pos rfl⟩
  exact other (congrArg Prod.snd (chain.eq_of_target source_of_mem_callsFrom new member rfl))

/-- The law of `call_path` holds between two live records exactly if the confidences of the least
shortest chain are settled. -/
theorem callPath_law_iff (from_ : Known records fromId) (to_ : Known records toId)
    (distinct : fromId ≠ toId) :
    CallPathLaw records fromId toId ↔ ConfidenceSettled records fromId toId := by
  constructor
  · intro law level links chain link member
    by_contra unsettled
    rw [not_or] at unsettled
    obtain ⟨unsure, unordered⟩ := unsettled
    simp only [OneConfidence, not_forall, exists_prop] at unsure
    simp only [OneOrder, not_forall, exists_prop] at unordered
    obtain ⟨pointer, linked, sameEdge, other⟩ := unsure
    obtain ⟨others, reordered, moved⟩ := unordered
    obtain ⟨sort, differ⟩ := not_invariant_of_unsettled from_ to_ distinct chain member linked
      sameEdge other reordered moved
    exact differ (law.invariant sort others reordered)
  · intro settled
    exact ⟨callPath_answers from_ to_ distinct, fun sort others reordered =>
      callPath_reordered from_ to_ distinct settled reordered sort⟩

end Law

/-- A call between the two records of the sample. -/
def sampleCall (id confidence : String) : GraphRecord :=
  .edge {
    id := id
    schemaVersion := 1
    label := .calls
    source := "caller"
    target := "callee"
    resolution := some .resolved
    rest := [("confidence", confidence)] }

/-- Two records, and two versions of a call between them around some other call. -/
def parallelCalls (between after : List GraphRecord) : List GraphRecord :=
  [.node { id := "caller", kind := .symbol, schemaVersion := 1 },
    .node { id := "callee", kind := .symbol, schemaVersion := 1 },
    sampleCall "call" "0.5"] ++ between ++ sampleCall "call" "1.0" :: after

/-- More calls between the two records, enough for the sort not to be an insertion sort. -/
def moreCalls : List GraphRecord :=
  (List.range 30).map fun number => sampleCall ("other" ++ toString (number + 11)) "1.0"

/-- The versions of the call are listed next to each other. -/
def adjacentVersions : List GraphRecord :=
  parallelCalls [] (sampleCall "other10" "1.0" :: moreCalls)

/-- The versions of the call are listed around another call. -/
def partedVersions : List GraphRecord := parallelCalls [sampleCall "other10" "1.0"] moreCalls

/-- The parted versions are the adjacent ones in another order. -/
theorem partedVersions_reordered : ReorderedById adjacentVersions partedVersions where
  perm := by
    simp only [adjacentVersions, partedVersions, parallelCalls, List.append_assoc, List.nil_append,
      List.singleton_append]
    exact (List.Perm.swap _ _ moreCalls).append_left _
  same id := by
    have apart : (sampleCall "other10" "1.0").mentions id = false ∨
        (sampleCall "call" "1.0").mentions id = false := by
      by_cases named : "other10" = id
      · subst named
        exact Or.inr (by decide)
      · left
        simp [sampleCall, GraphRecord.mentions, GraphRecord.id, GraphRecord.deletes, named]
    simp only [adjacentVersions, partedVersions, parallelCalls, List.filter_append, List.nil_append,
      List.filter_cons, List.filter_nil, List.append_assoc]
    rcases apart with other | call
    · simp [other]
    · simp only [call, Bool.false_eq_true, if_false]
      congr 1
      split <;> rfl

/-- What a sort may do: the versions stay as they are if the calls are sorted already, and change
places otherwise. -/
def sampleSort : UnstableSort :=
  .depending fun items reference =>
    if items[1]?.map (fun reference => reference.2.1) = some "call" then
      reference.2.2 = some "0.5"
    else reference.2.2 = some "1.0"

/-- The equivalence at the adjacent versions. -/
theorem adjacentVersions_law_iff :
    CallPathLaw adjacentVersions "caller" "callee" ↔
      ConfidenceSettled adjacentVersions "caller" "callee" :=
  callPath_law_iff (isSome_liveById.mp (by decide)) (isSome_liveById.mp (by decide))
    (by decide)

/-- The answer cites the confidence that comes first after sorting. -/
theorem adjacentVersions_not_law : ¬ CallPathLaw adjacentVersions "caller" "callee" := by
  intro law
  have same := congrArg witnessOf (law.invariant sampleSort partedVersions partedVersions_reordered)
  have differ : witnessOf (callPath sampleSort partedVersions "caller" "callee") ≠
      witnessOf (callPath sampleSort adjacentVersions "caller" "callee") := by decide
  exact differ same

end Egregore
