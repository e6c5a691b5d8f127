import Egregore.Base.Dedup
import Egregore.Base.SliceSort
import Egregore.MemoryRetireSpec

/-!
# Receipt trails

`receipt_trail`: the retirements and reinstatements of a target in the order of their stored times.
The newest receipt is chosen by the instants instead, so the trail ends in it exactly when the
stored texts order the receipts as their instants do. `endsInForce_iff` compares the two orders
over the receipts that are not after the pin of the query.
-/

namespace Egregore

open Base

/-- A rebuilt receipt event. -/
inductive ReceiptEvent where
  | retire (event : RetireEvent)
  | reinstate (event : ReinstateEvent)
  deriving DecidableEq

/-- `ReceiptTrailEntry`. -/
structure ReceiptTrailEntry where
  action : String
  event : ReceiptEvent
  deriving DecidableEq

/-- A receipt with its stored time and its position. -/
structure TrailReceipt where
  text : String
  position : Nat
  receipt : NodeRecord

/-- By stored time, then by position. -/
def trailOrder : TrailReceipt → TrailReceipt → Ordering :=
  compareLex (compareOn fun entry => asBytes entry.text) (compareOn TrailReceipt.position)

/-- The entry of a receipt. -/
def trailEntry (node : NodeRecord) : ReceiptTrailEntry :=
  if node.kind = .retirementReceipt then ⟨"retired", .retire (retireEventFromNode node)⟩
  else ⟨"reinstated", .reinstate (reinstateEventFromNode node)⟩

section Model

variable (env : ReceiptEnv)

/-- A receipt of the target with a stored time, which a pin reads and which is not after it. -/
def trailReceiptOf (target : String) (asOf : Option Instant) :
    GraphRecord × Nat → Option TrailReceipt
  | (.node node, position) =>
      match node.field "transaction_time" with
      | none => none
      | some text =>
          if receiptTarget (.node node) = some target ∧
              ∀ pin ∈ asOf, ∃ time ∈ receiptTime env node, time ≤ pin then
            some ⟨text, position, node⟩
          else none
  | _ => none

/-- The receipts of a trail, in its order. -/
def trailReceipts (records : List GraphRecord) (target : String) (asOf : Option Instant) :
    List NodeRecord :=
  ((records.zipIdx.filterMap (trailReceiptOf env target asOf)).insertionSort
    fun entry later => trailOrder entry later ≠ .gt).map TrailReceipt.receipt

/-- `receipt_trail`. -/
def receiptTrail (records : List GraphRecord) (target : String) (asOf : Option Instant) :
    List ReceiptTrailEntry :=
  (trailReceipts env records target asOf).map trailEntry

end Model

section Entries

variable {env : ReceiptEnv} {records : List GraphRecord} {target : String} {asOf : Option Instant}

/-- The receipts of a trail as they are found. -/
def trailEntries (env : ReceiptEnv) (records : List GraphRecord) (target : String)
    (asOf : Option Instant) : List TrailReceipt :=
  records.zipIdx.filterMap (trailReceiptOf env target asOf)

/-- The receipt as the choice of the newest one looks at it. -/
def TrailReceipt.stamp (env : ReceiptEnv) (entry : TrailReceipt) : StampedReceipt :=
  ⟨receiptTime env entry.receipt, entry.position, entry.receipt⟩

instance : Std.TransCmp trailOrder := inferInstanceAs (Std.TransCmp (compareLex _ _))

theorem mem_trailEntries {entry : TrailReceipt} :
    entry ∈ trailEntries env records target asOf ↔
      records[entry.position]? = some (.node entry.receipt) ∧
        receiptTarget (.node entry.receipt) = some target ∧
        entry.receipt.field "transaction_time" = some entry.text ∧
        ∀ pin ∈ asOf, ∃ time ∈ receiptTime env entry.receipt, time ≤ pin := by
  obtain ⟨text, position, receipt⟩ := entry
  simp only [trailEntries, List.mem_filterMap, Prod.exists, List.mk_mem_zipIdx_iff_getElem?]
  constructor
  · rintro ⟨record, index, found, stamped⟩
    cases record with
    | node node =>
        simp only [trailReceiptOf] at stamped
        split at stamped
        · cases stamped
        next stored =>
          simp only [Option.ite_none_right_eq_some, Option.some.injEq, TrailReceipt.mk.injEq]
            at stamped
          obtain ⟨⟨names, notAfter⟩, rfl, rfl, rfl⟩ := stamped
          exact ⟨found, names, stored, notAfter⟩
    | edge edge => simp [trailReceiptOf] at stamped
    | tombstone tombstone => simp [trailReceiptOf] at stamped
  · rintro ⟨found, names, stored, notAfter⟩
    refine ⟨.node receipt, position, found, ?_⟩
    simp only [trailReceiptOf, stored]
    exact if_pos ⟨names, notAfter⟩

/-- The stored text of a receipt fixes its instant. -/
theorem receiptTime_of_text {entry other : TrailReceipt}
    (member : entry ∈ trailEntries env records target asOf)
    (inside : other ∈ trailEntries env records target asOf) (same : entry.text = other.text) :
    receiptTime env entry.receipt = receiptTime env other.receipt := by
  rw [receiptTime, receiptTime, (mem_trailEntries.mp member).2.2.1,
    (mem_trailEntries.mp inside).2.2.1, same]

/-- Where all times can be read, the trail and the choice look at the same receipts. -/
theorem stamped_eq_map (valid : ∀ node, .node node ∈ records →
      receiptTarget (.node node) = some target → (receiptTime env node).isSome) :
    records.zipIdx.filterMap (stampReceiptOf env target asOf) =
      (trailEntries env records target asOf).map (TrailReceipt.stamp env) := by
  rw [trailEntries, List.map_filterMap]
  apply List.filterMap_congr
  rintro ⟨record, position⟩ member
  have inside : record ∈ records := List.mem_of_getElem? (List.mem_zipIdx_iff_getElem?.mp member)
  cases record with
  | edge edge => rfl
  | tombstone tombstone => rfl
  | node node =>
      by_cases names : receiptTarget (.node node) = some target
      · obtain ⟨time, read⟩ := Option.isSome_iff_exists.mp (valid node inside names)
        obtain ⟨text, stored, -⟩ := Option.bind_eq_some_iff.mp read
        simp only [stampReceiptOf, trailReceiptOf, stored, names, read, true_and]
        cases asOf with
        | none => simp [TrailReceipt.stamp, read]
        | some pin =>
            by_cases late : pin < time
            · simp [late]
            · simp [late, TrailReceipt.stamp, read]
      · have other : stampReceiptOf env target asOf (.node node, position) = none := by
          simp [stampReceiptOf, names]
        rw [other]
        cases stored : node.field "transaction_time" with
        | none => simp [trailReceiptOf, stored]
        | some text => simp [trailReceiptOf, stored, names]

end Entries

section Control

variable {env : ReceiptEnv} {records : List GraphRecord} {target : String} {asOf : Option Instant}

/-- The trail is in the order of the instants, and it ends in the receipt that is in force. -/
structure EndsInForce (env : ReceiptEnv) (records : List GraphRecord) (target : String)
    (asOf : Option Instant) : Prop where
  ordered : (trailReceipts env records target asOf).Pairwise fun earlier later =>
    ∀ time ∈ receiptTime env earlier, ∀ time' ∈ receiptTime env later, time ≤ time'
  last : (trailReceipts env records target asOf).getLast? =
    latestReceiptNode env records target asOf
  agrees : ∀ entry ∈ (receiptTrail env records target asOf).getLast?,
    ∃ state, (retirementStates env records asOf)[target]? = some state ∧
      (entry.action = "retired" ↔ state ≠ .active)

/-- The stored texts follow the instants, also that of the receipt written last among those of the
latest instant. -/
structure TextsFollowTimes (env : ReceiptEnv) (records : List GraphRecord) (target : String)
    (asOf : Option Instant) : Prop where
  ordered : ∀ entry ∈ trailEntries env records target asOf,
    ∀ later ∈ trailEntries env records target asOf, byteOrder entry.text later.text = .lt →
      ∀ time ∈ receiptTime env entry.receipt, ∀ time' ∈ receiptTime env later.receipt,
        time ≤ time'
  newest : ∀ entry ∈ trailEntries env records target asOf,
    (∀ other ∈ trailEntries env records target asOf,
      receiptOrder (entry.stamp env) (other.stamp env) ≠ .lt) →
    ∀ other ∈ trailEntries env records target asOf, byteOrder entry.text other.text ≠ .lt

/-- The trail before its receipts are taken. -/
def sortedEntries (env : ReceiptEnv) (records : List GraphRecord) (target : String)
    (asOf : Option Instant) : List TrailReceipt :=
  (trailEntries env records target asOf).insertionSort fun entry later =>
    trailOrder entry later ≠ .gt

theorem mem_sortedEntries {entry : TrailReceipt} :
    entry ∈ sortedEntries env records target asOf ↔
      entry ∈ trailEntries env records target asOf :=
  List.mem_insertionSort _

theorem sortedEntries_pairwise :
    (sortedEntries env records target asOf).Pairwise fun entry later =>
      trailOrder entry later ≠ .gt :=
  pairwise_insertionSort_cmp trailOrder _

/-- Two entries of a sorted list stand in its order one way or the other. -/
theorem sorted_or {α : Type*} {before : α → α → Prop} {items : List α}
    (sorted : items.Pairwise before) {item other : α} (member : item ∈ items)
    (inside : other ∈ items) : item = other ∨ before item other ∨ before other item := by
  induction sorted with
  | nil => cases member
  | @cons first rest least _ ih =>
      rcases List.mem_cons.mp member with rfl | later
      · rcases List.mem_cons.mp inside with rfl | later'
        · exact Or.inl rfl
        · exact Or.inr (Or.inl (least other later'))
      · rcases List.mem_cons.mp inside with rfl | later'
        · exact Or.inr (Or.inr (least item later))
        · exact ih later later'

/-- The last entry of a sorted list is after all others. -/
theorem before_getLast {α : Type*} {before : α → α → Prop} {items : List α} {last : α}
    (sorted : items.Pairwise before) (isLast : items.getLast? = some last) {item : α}
    (member : item ∈ items) : item = last ∨ before item last := by
  obtain ⟨front, rfl⟩ := List.getLast?_eq_some_iff.mp isLast
  rcases List.mem_append.mp member with inFront | same
  · exact Or.inr ((List.pairwise_append.mp sorted).2.2 item inFront last (by simp))
  · exact Or.inl (List.mem_singleton.mp same)

theorem trailOrder_ne_gt_iff {entry later : TrailReceipt} :
    trailOrder entry later ≠ .gt ↔
      byteOrder entry.text later.text = .lt ∨
        entry.text = later.text ∧ entry.position ≤ later.position := by
  rw [trailOrder, compareLex, then_ne_gt_iff]
  refine or_congr Iff.rfl (and_congr ?_ ?_)
  · exact (Std.LawfulEqCmp.compare_eq_iff_eq : byteOrder entry.text later.text = .eq ↔ _)
  · exact Nat.compare_ne_gt

/-- The entry that the newest receipt is chosen by. -/
theorem exists_newest (valid : ∀ node, .node node ∈ records →
      receiptTarget (.node node) = some target → (receiptTime env node).isSome)
    (ne : trailEntries env records target asOf ≠ []) :
    ∃ entry ∈ trailEntries env records target asOf,
      latestReceiptNode env records target asOf = some entry.receipt ∧
      ∀ other ∈ trailEntries env records target asOf,
        receiptOrder (entry.stamp env) (other.stamp env) ≠ .lt := by
  rw [latestReceiptNode, stamped_eq_map valid]
  cases found : bestOf receiptOrder
      ((trailEntries env records target asOf).map (TrailReceipt.stamp env)) with
  | none =>
      rw [bestOf_eq_none_iff, List.map_eq_nil_iff] at found
      exact absurd found ne
  | some best =>
      obtain ⟨mem, upper⟩ := isBest_of_bestOf found
      obtain ⟨entry, member, rfl⟩ := List.mem_map.mp mem
      exact ⟨entry, member, rfl, fun other inside => upper _ (List.mem_map_of_mem inside)⟩

/-- Entries of one position are one entry. -/
theorem eq_of_position {entry other : TrailReceipt}
    (member : entry ∈ trailEntries env records target asOf)
    (inside : other ∈ trailEntries env records target asOf)
    (same : entry.position = other.position) : entry.receipt = other.receipt := by
  have here := (mem_trailEntries.mp member).1
  rw [same, (mem_trailEntries.mp inside).1] at here
  exact (GraphRecord.node.inj (Option.some.inj here)).symm

/-- The state that is reported at a pin. -/
theorem getElem?_retirementStates_pinned :
    (retirementStates env records asOf)[target]? =
      if ∃ record ∈ records, receiptTarget record = some target then
        some (stateAfter (latestReceiptNode env records target asOf))
      else none := by
  rw [retirementStates, getElem?_foldl_insert_value]
  simp [Std.ExtTreeSet.mem_toList, mem_foldl_insert, List.mem_filterMap]

theorem trailEntry_action {node : NodeRecord} :
    (trailEntry node).action = "retired" ↔ stateAfter (some node) ≠ .active := by
  by_cases kind : node.kind = .retirementReceipt
  · simp [trailEntry, stateAfter, kind]
  · simp [trailEntry, stateAfter, kind]

theorem trailReceipts_eq : trailReceipts env records target asOf =
    (sortedEntries env records target asOf).map TrailReceipt.receipt := rfl

/-- Two greatest entries have one position. -/
theorem position_of_greatest {entry other : TrailReceipt}
    (notLess : receiptOrder (entry.stamp env) (other.stamp env) ≠ .lt)
    (notLess' : receiptOrder (other.stamp env) (entry.stamp env) ≠ .lt) :
    entry.position = other.position := by
  have same : receiptOrder (entry.stamp env) (other.stamp env) = .eq := by
    cases compared : receiptOrder (entry.stamp env) (other.stamp env) with
    | eq => rfl
    | lt => exact absurd compared notLess
    | gt => exact absurd (Std.OrientedCmp.lt_of_gt compared) notLess'
  have position := (Ordering.then_eq_eq.mp same).2
  exact Std.LawfulEqCmp.compare_eq_iff_eq.mp position

/-- The trail ends in force exactly when its stored texts follow the instants. -/
theorem endsInForce_iff (env : ReceiptEnv) (records : List GraphRecord) (target : String)
    (asOf : Option Instant)
    (valid : ∀ node, .node node ∈ records → receiptTarget (.node node) = some target →
      (receiptTime env node).isSome) :
    EndsInForce env records target asOf ↔ TextsFollowTimes env records target asOf := by
  constructor
  · rintro ⟨ordered, last, -⟩
    have times := List.pairwise_map.mp ordered
    refine ⟨fun entry member later inside less => ?_, fun entry member newest other inside => ?_⟩
    · have both := sortedEntries_pairwise.and times
      rcases sorted_or both (mem_sortedEntries.mpr member) (mem_sortedEntries.mpr inside) with
        rfl | ⟨-, le⟩ | ⟨before, -⟩
      · rw [(Std.ReflCmp.compare_self : byteOrder _ _ = .eq)] at less
        cases less
      · exact le
      · rw [trailOrder_ne_gt_iff] at before
        rcases before with less' | ⟨same, -⟩
        · rw [Std.OrientedCmp.gt_of_lt less'] at less
          cases less
        · rw [same, (Std.ReflCmp.compare_self : byteOrder _ _ = .eq)] at less
          cases less
    · -- The newest receipt stands last in the trail, so no stored text is greater.
      obtain ⟨chosen, chosenMember, inForce, greatest⟩ :=
        exists_newest valid (List.ne_nil_of_mem member)
      have same : entry.receipt = chosen.receipt :=
        eq_of_position member chosenMember
          (position_of_greatest (newest chosen chosenMember) (greatest entry member))
      rw [inForce, ← same, trailReceipts_eq, List.getLast?_map] at last
      obtain ⟨final, isLast, sameReceipt⟩ := Option.map_eq_some_iff.mp last
      have finalMember := mem_sortedEntries.mp (List.mem_of_getLast? isLast)
      have text : final.text = entry.text := by
        have stored := (mem_trailEntries.mp finalMember).2.2.1
        rw [sameReceipt, (mem_trailEntries.mp member).2.2.1] at stored
        exact (Option.some.inj stored).symm
      intro less
      rw [← text] at less
      rcases before_getLast sortedEntries_pairwise isLast (mem_sortedEntries.mpr inside) with
        rfl | before
      · rw [(Std.ReflCmp.compare_self : byteOrder _ _ = .eq)] at less
        cases less
      · rcases trailOrder_ne_gt_iff.mp before with less' | ⟨equal, -⟩
        · rw [Std.OrientedCmp.gt_of_lt less'] at less
          cases less
        · rw [equal, (Std.ReflCmp.compare_self : byteOrder _ _ = .eq)] at less
          cases less
  · rintro ⟨ordered, newest⟩
    have last : (trailReceipts env records target asOf).getLast? =
        latestReceiptNode env records target asOf := by
      rw [trailReceipts_eq, List.getLast?_map]
      by_cases none : trailEntries env records target asOf = []
      · rw [latestReceiptNode, stamped_eq_map valid, sortedEntries, none]
        rfl
      · obtain ⟨chosen, chosenMember, inForce, greatest⟩ := exists_newest valid none
        cases isLast : (sortedEntries env records target asOf).getLast? with
        | none =>
            rw [List.getLast?_eq_none_iff] at isLast
            have := mem_sortedEntries.mpr chosenMember
            rw [isLast] at this
            cases this
        | some final =>
            have finalMember := mem_sortedEntries.mp (List.mem_of_getLast? isLast)
            rw [inForce, Option.map_some]
            rcases before_getLast sortedEntries_pairwise isLast
              (mem_sortedEntries.mpr chosenMember) with rfl | before
            · rfl
            rcases trailOrder_ne_gt_iff.mp before with less | ⟨text, position⟩
            · exact absurd less (newest chosen chosenMember greatest final finalMember)
            · have time := receiptTime_of_text chosenMember finalMember text
              have notLess := greatest final finalMember
              have samePosition : final.position = chosen.position := by
                by_contra differ
                refine notLess ?_
                simp only [receiptOrder, compareLex, compareOn, TrailReceipt.stamp, time,
                  Std.ReflCmp.compare_self, Ordering.eq_then]
                exact Nat.compare_eq_lt.mpr (by omega)
              rw [eq_of_position finalMember chosenMember samePosition]
    refine ⟨?_, last, ?_⟩
    · rw [trailReceipts_eq]
      refine List.pairwise_map.mpr (sortedEntries_pairwise.imp_of_mem ?_)
      intro entry later member inside before time isTime time' isTime'
      have entryMember := mem_sortedEntries.mp member
      have laterMember := mem_sortedEntries.mp inside
      rcases trailOrder_ne_gt_iff.mp before with less | ⟨text, -⟩
      · exact ordered entry entryMember later laterMember less time isTime time' isTime'
      · rw [receiptTime_of_text entryMember laterMember text] at isTime
        exact le_of_eq (Option.some.inj (isTime.symm.trans isTime'))
    · intro entry isEntry
      rw [receiptTrail, List.getLast?_map, last] at isEntry
      obtain ⟨node, inForce, rfl⟩ := Option.map_eq_some_iff.mp isEntry
      rw [inForce, trailReceipts_eq, List.getLast?_map] at last
      obtain ⟨final, isLast, -⟩ := Option.map_eq_some_iff.mp last
      obtain ⟨found, names, -⟩ :=
        mem_trailEntries.mp (mem_sortedEntries.mp (List.mem_of_getLast? isLast))
      refine ⟨stateAfter (some node), ?_, trailEntry_action⟩
      rw [getElem?_retirementStates_pinned, inForce,
        if_pos ⟨_, List.mem_of_getElem? found, names⟩]

/-- Instants of a noon two hours east of Greenwich and of the eleventh hour there. -/
def twoOffsets : ReceiptEnv where
  parseFromRfc3339 text :=
    if text = "2026-01-01T12:00:00+02:00" then .ok (toLex (36000, 0))
    else if text = "2026-01-01T11:00:00Z" then .ok (toLex (39600, 0))
    else .error "input contains invalid characters"
  agentMemoryStableId parts := "agent_memory:v1:" ++ String.intercalate "/" parts

/-- A retirement at ten o'clock, written with an offset, and a reinstatement an hour later. -/
def reinstatedTrail : List GraphRecord := [
  .node (retirementReceipt twoOffsets "agent_memory:v1:belief" "2026-01-01T12:00:00+02:00" "ada"
    .operatorDecision none none),
  .node (reinstatementReceipt twoOffsets "agent_memory:v1:belief" "2026-01-01T11:00:00Z" "ada"
    "still holds")]

theorem reinstatedTrail_valid : ∀ node, .node node ∈ reinstatedTrail →
    receiptTarget (.node node) = some "agent_memory:v1:belief" →
      (receiptTime twoOffsets node).isSome := by
  intro node member _
  simp only [reinstatedTrail, List.mem_cons, GraphRecord.node.injEq, List.not_mem_nil,
    or_false] at member
  rcases member with rfl | rfl <;> decide

theorem endsInForce_reinstatedTrail_iff :
    EndsInForce twoOffsets reinstatedTrail "agent_memory:v1:belief" none ↔
      TextsFollowTimes twoOffsets reinstatedTrail "agent_memory:v1:belief" none :=
  endsInForce_iff twoOffsets reinstatedTrail "agent_memory:v1:belief" none reinstatedTrail_valid

/-- The trail ends in the retirement, and the belief is active. -/
theorem reinstatedTrail_not_endsInForce :
    ¬ ∀ env records target asOf, receiptTrail env records target asOf ≠ [] →
      (∀ node, .node node ∈ records → receiptTarget (.node node) = some target →
        (receiptTime env node).isSome) →
      EndsInForce env records target asOf := by
  intro all
  obtain ⟨-, last, -⟩ := all twoOffsets reinstatedTrail "agent_memory:v1:belief" none
    (by decide) reinstatedTrail_valid
  revert last
  decide

end Control

end Egregore
