import Egregore.GraphIndex.Neighbourhood

/-!
# What a closure walk returns

`mem_closureOffsetsIn_iff`: the offsets of a selector's closure are exactly the
offsets of the lines the selector `Takes`. Each stage of a walk is shown to add
the lines satisfying one predicate; stages compose.
-/

namespace Egregore

open Base

/-- `offset` starts one of the `lines` satisfying `wanted`. -/
def At (lines : List Line) (wanted : Line → Prop) (offset : Nat) : Prop :=
  ∃ line ∈ lines, line.offset = offset ∧ wanted line

/-- Lines that are wanted for other reasons are at the same offsets. -/
theorem At.congr {lines : List Line} {wanted other : Line → Prop}
    (same : ∀ line ∈ lines, wanted line ↔ other line) (offset : Nat) :
    At lines wanted offset ↔ At lines other offset := by
  constructor
  · rintro ⟨line, member, here, holds⟩
    exact ⟨line, member, here, (same line member).mp holds⟩
  · rintro ⟨line, member, here, holds⟩
    exact ⟨line, member, here, (same line member).mpr holds⟩

/-- Two wishes are at the offsets of either. -/
theorem at_or {lines : List Line} {wanted other : Line → Prop} {offset : Nat} :
    At lines (fun line => wanted line ∨ other line) offset ↔
      At lines wanted offset ∨ At lines other offset := by
  simp only [At]
  grind

/-- A family of wishes is at the offsets of each of them. -/
theorem at_exists {ι : Sort*} {lines : List Line} {wanted : ι → Line → Prop} {offset : Nat} :
    At lines (fun line => ∃ index, wanted index line) offset ↔
      ∃ index, At lines (wanted index) offset := by
  simp only [At]
  grind

/-- A condition that is not about the line stands outside. -/
theorem at_and {condition : Prop} {lines : List Line} {wanted : Line → Prop} {offset : Nat} :
    At lines (fun line => condition ∧ wanted line) offset ↔
      condition ∧ At lines wanted offset := by
  simp only [At]
  grind

/-- One line is at its own offset. -/
theorem at_eq {lines : List Line} {line : Line} (member : line ∈ lines) {offset : Nat} :
    At lines (· = line) offset ↔ offset = line.offset := by
  constructor
  · rintro ⟨_, -, rfl, rfl⟩
    rfl
  · rintro rfl
    exact ⟨line, member, rfl, rfl⟩

/-- Inserting some offsets adds these. -/
@[simp] theorem mem_insertMany {offsets : OffsetSet} {more : List Nat} {offset : Nat} :
    offset ∈ offsets.insertMany more ↔ offset ∈ offsets ∨ offset ∈ more := by
  rw [Std.ExtTreeSet.mem_insertMany_list, List.contains_iff_mem]

/-- Inserting an offset adds it. -/
@[simp] theorem mem_insert_offset {offsets : OffsetSet} {new offset : Nat} :
    offset ∈ offsets.insert new ↔ offset ∈ offsets ∨ offset = new := by
  rw [Std.ExtTreeSet.mem_insert, Std.LawfulEqCmp.compare_eq_iff_eq]
  grind

/-- A fold whose steps each add one item's offsets adds those of every item. -/
theorem mem_foldl_offsets {α : Type*} {step : OffsetSet → α → OffsetSet} (adds : α → Nat → Prop)
    (items : List α)
    (each : ∀ item ∈ items, ∀ offsets offset,
      offset ∈ step offsets item ↔ offset ∈ offsets ∨ adds item offset)
    (offsets : OffsetSet) (offset : Nat) :
    offset ∈ items.foldl step offsets ↔ offset ∈ offsets ∨ ∃ item ∈ items, adds item offset := by
  induction items generalizing offsets with
  | nil => simp
  | cons head tail ih =>
      rw [List.foldl_cons, ih fun item member => each item (List.mem_cons_of_mem _ member),
        each head (by simp)]
      simp only [List.mem_cons, exists_eq_or_imp]
      grind

/-- A version of `id`, or a tombstone that retracts it. -/
def Versions (id : String) (line : Line) : Prop :=
  line.record.id = id ∨ line.record.deletes id = true

/-- What climbing one node adds: each parent edge and its tombstones, and the
parent with its incident edges. -/
def Climbed (lines : List Line) (node : String) (line : Line) : Prop :=
  ∃ offset edge, ((⟨offset, .edge edge⟩ : Line) ∈ lines ∧ edge.target = node ∧
      containment (lines.map Line.record) edge = true) ∧
    ((line = ⟨offset, .edge edge⟩ ∨ line.record.deletes edge.id = true) ∨
      Versions edge.source line ∨ line.record.touches edge.source = true)

/-- What climbing from `id` adds. -/
def ClimbedFrom (lines : List Line) (id : String) (line : Line) : Prop :=
  ∃ node, Ancestor (lines.map Line.record) id node ∧ Climbed lines node line

/-- The far end of an edge of `id`. -/
def EdgeRecord.other (id : String) (edge : EdgeRecord) : String :=
  if edge.source = id then edge.target else edge.source

/-- What one incident edge adds to an expansion. -/
def Followed (wide : Bool) (lines : List Line) (id : String) (edgeLine : Line)
    (edge : EdgeRecord) (line : Line) : Prop :=
  (line = edgeLine ∨ line.record.deletes edge.id = true) ∨
    Versions (edge.other id) line ∨
    (wide = true ∧ line.record.touches (edge.other id) = true) ∨
    ClimbedFrom lines (edge.other id) line

/-- What expanding `id` adds. -/
def Expanded (wide : Bool) (lines : List Line) (id : String) (line : Line) : Prop :=
  Versions id line ∨
    (∃ offset edge, ((⟨offset, .edge edge⟩ : Line) ∈ lines ∧
        (edge.source = id ∨ edge.target = id)) ∧
      Followed wide lines id ⟨offset, .edge edge⟩ edge line) ∨
    ClimbedFrom lines id line

/-- Every climbed node has its parents climbed and its lines taken. -/
structure Settled (view : IndexView) (lines : List Line) (closure : Closure) : Prop where
  parents : ∀ node ∈ closure.climbed, ∀ parent ∈ view.climbParents node, parent ∈ closure.climbed
  visited : ∀ node ∈ closure.climbed, ∀ offset,
    At lines (Climbed lines node) offset → offset ∈ closure.offsets

/-- A closure that has climbed nothing owes nothing. -/
theorem settled_empty (view : IndexView) (lines : List Line) (expanded : List String) :
    Settled view lines { expanded := expanded } :=
  ⟨by simp, by simp⟩

/-- A stage adds exactly the lines satisfying `wanted` and leaves a settled walk. -/
structure Adds (view : IndexView) (lines : List Line) (stage : Closure → Closure)
    (wanted : Line → Prop) : Prop where
  settled : ∀ closure, Settled view lines closure → Settled view lines (stage closure)
  offsets : ∀ closure, Settled view lines closure → ∀ offset,
    offset ∈ (stage closure).offsets ↔ offset ∈ closure.offsets ∨ At lines wanted offset
  expanded : ∀ closure, (stage closure).expanded = closure.expanded

/-- Among different nodes one at most is the target. -/
private theorem sum_hits_le {nodes : List String} (nodup : nodes.Nodup) (target : String) :
    (nodes.map fun node => if decide (target = node) = true then 1 else 0).sum ≤ 1 := by
  induction nodes with
  | nil => simp
  | cons head tail ih =>
      obtain ⟨absent, nodup⟩ := List.nodup_cons.mp nodup
      by_cases same : target = head
      · subst same
        have none : (tail.map fun node => if decide (target = node) = true then 1 else 0).sum = 0 := by
          apply List.sum_eq_zero
          intro count listed
          obtain ⟨node, member, rfl⟩ := List.mem_map.mp listed
          have : target ≠ node := fun equal => absent (equal ▸ member)
          simp [this]
        simp only [List.map_cons, List.sum_cons, none]
        simp
      · simpa [same] using ih nodup

/-- The ids some edge points at. -/
private def edgeTargets (lines : List Line) : List String :=
  ((lines.map Line.record).filterMap fun record =>
    match record with
    | .edge edge => some edge.target
    | _ => none).dedup

section Stages

variable {view : IndexView} {lines : List Line}

/-- A step that only grows the offsets adds the lines that it grows by. -/
theorem Adds.of_offsets (grow : OffsetSet → OffsetSet) {wanted : Line → Prop}
    (grows : ∀ offsets offset, offset ∈ grow offsets ↔ offset ∈ offsets ∨ At lines wanted offset) :
    Adds view lines (fun closure => { closure with offsets := grow closure.offsets }) wanted where
  settled _ settled :=
    ⟨settled.parents, fun node climbed offset here =>
      (grows _ _).mpr (Or.inl (settled.visited node climbed offset here))⟩
  offsets _ _ := grows _
  expanded _ := rfl

/-- Two steps add what either adds. -/
theorem Adds.comp {first second : Closure → Closure} {wanted other : Line → Prop}
    (adds : Adds view lines first wanted) (adds' : Adds view lines second other) :
    Adds view lines (fun closure => second (first closure))
      (fun line => wanted line ∨ other line) where
  settled closure settled := adds'.settled _ (adds.settled _ settled)
  offsets closure settled offset := by
    rw [adds'.offsets _ (adds.settled _ settled), adds.offsets _ settled, at_or, or_assoc]
  expanded closure := (adds'.expanded _).trans (adds.expanded _)

/-- What a step adds may be described in another way. -/
theorem Adds.congr {stage : Closure → Closure} {wanted other : Line → Prop}
    (adds : Adds view lines stage wanted) (same : ∀ line ∈ lines, wanted line ↔ other line) :
    Adds view lines stage other where
  settled := adds.settled
  offsets closure settled offset := by
    rw [adds.offsets closure settled, At.congr same]
  expanded := adds.expanded

/-- A step for each item adds what it adds for one of them. -/
theorem Adds.foldl {α : Type*} {stage : Closure → α → Closure} {wanted : α → Line → Prop}
    (items : List α)
    (each : ∀ item ∈ items, Adds view lines (fun closure => stage closure item) (wanted item)) :
    Adds view lines (fun closure => items.foldl stage closure)
      (fun line => ∃ item ∈ items, wanted item line) := by
  induction items with
  | nil =>
      exact ⟨fun _ settled => settled, fun _ _ _ => by simp [At], fun _ => rfl⟩
  | cons head tail ih =>
      have rest := ih fun item member => each item (List.mem_cons_of_mem _ member)
      exact ((each head (by simp)).comp rest).congr (by simp)

variable (indexed : Indexed view lines)

include indexed

/-- The postings of a key are the offsets of the lines with that key. -/
theorem mem_postings_at {table : Table} {key : String} {offset : Nat} :
    offset ∈ view.postings table key ↔
      At lines (fun line => key ∈ table.keys line.record) offset :=
  indexed.mem_postings

/-- The versions of an ID come with the tombstones that delete it. -/
theorem mem_addIdVersions {offsets : OffsetSet} {id : String} {offset : Nat} :
    offset ∈ view.addIdVersions offsets id ↔ offset ∈ offsets ∨ At lines (Versions id) offset := by
  unfold IndexView.addIdVersions Versions
  rw [mem_insertMany, mem_insertMany, mem_postings_at indexed, mem_postings_at indexed, at_or]
  simp only [Table.mem_keys_byId, Table.mem_keys_deletedId]
  exact or_assoc

/-- An edge comes with the tombstones of its own. -/
theorem mem_addEdge {line : Line} (member : line ∈ lines) (offsets : OffsetSet) (edgeId : String)
    (offset : Nat) :
    offset ∈ view.addEdge offsets line.offset edgeId ↔
      offset ∈ offsets ∨
        At lines (fun other => other = line ∨ other.record.deletes edgeId = true) offset := by
  unfold IndexView.addEdge
  rw [mem_insertMany, mem_insert_offset, mem_postings_at indexed, at_or, at_eq member]
  simp only [Table.mem_keys_deletedId]
  exact or_assoc

/-- A visit of the climb takes the versions of the node and the edges that hold it. -/
theorem mem_climbVisit {offsets : OffsetSet} {node : String} {offset : Nat} :
    offset ∈ view.climbVisit node offsets ↔
      offset ∈ offsets ∨ At lines (Climbed lines node) offset := by
  unfold IndexView.climbVisit
  rw [mem_foldl_offsets (fun (entry : Nat × EdgeRecord) offset =>
    At lines (fun line =>
      (line = ⟨entry.1, .edge entry.2⟩ ∨ line.record.deletes entry.2.id = true) ∨
        Versions entry.2.source line ∨ line.record.touches entry.2.source = true) offset)]
  · have split : At lines (Climbed lines node) offset ↔ _ :=
      at_exists.trans (exists_congr fun _ => at_exists.trans (exists_congr fun _ => at_and))
    rw [split]
    simp only [Prod.exists, indexed.mem_parentEdges]
  · rintro ⟨edgeOffset, edge⟩ listed offsets offset
    have member := (indexed.mem_parentEdges.mp listed).1
    have whole := mem_addEdge indexed member offsets edge.id offset
    simp only at whole ⊢
    rw [mem_insertMany, mem_addIdVersions indexed, whole, mem_postings_at indexed]
    simp only [Table.mem_keys_adjacency, at_or, or_assoc]

/-- There are at most as many parent edges as lines. -/
private theorem sum_climbParents_le (nodes : List String) (nodup : nodes.Nodup) :
    (nodes.map fun node => (view.climbParents node).length).sum ≤ lines.length := by
  have each : ∀ node, (view.climbParents node).length ≤
      lines.countP fun line => match line.record with
        | .edge edge => decide (edge.target = node)
        | _ => false := by
    intro node
    rw [IndexView.climbParents, List.length_map, IndexView.parentEdges, indexed.postings,
      List.filterMap_map, List.length_filterMap_eq_countP, List.countP_filter]
    apply List.countP_mono_left
    intro line member taken
    simp only [Function.comp_apply, indexed.recordAt line member, Bool.and_eq_true] at taken
    cases recorded : line.record with
    | edge edge =>
        simp only [recorded] at taken
        have := taken.1
        split at this
        · next parent => simpa using ((indexed.isParentEdge_eq node edge).mp parent).1
        · simp at this
    | _ => simp [recorded] at taken
  refine le_trans (List.sum_le_sum fun node _ => each node) ?_
  clear each indexed
  induction lines with
  | nil => simp
  | cons line rest ih =>
      have one : (nodes.map fun node => if (match line.record with
          | .edge edge => decide (edge.target = node)
          | _ => false) then 1 else 0).sum ≤ 1 := by
        cases line.record with
        | edge edge => exact sum_hits_le nodup edge.target
        | _ => simp
      simp only [List.countP_cons, List.length_cons, List.sum_map_add]
      omega

/-- The fuel of a climb is enough: each edge is followed once. -/
private theorem climb_enough (id : String) (climbed : List String) :
    pendingPushes view.climbParents (edgeTargets lines) [id] climbed ≤ view.lineBound + 1 := by
  have all := sum_climbParents_le indexed (edgeTargets lines) (List.nodup_dedup _)
  have unclimbed : ((edgeTargets lines).filter (· ∉ climbed)).Sublist (edgeTargets lines) :=
    List.filter_sublist
  have some := (unclimbed.map fun node => (view.climbParents node).length).sum_le_sum
    fun _ _ => Nat.zero_le _
  have bound := indexed.bound
  simp only [pendingPushes, List.length_singleton]
  omega

/-- A node that no edge ends at has no parents. -/
private theorem climb_leaf (node : String) (absent : node ∉ edgeTargets lines) :
    view.climbParents node = [] := by
  apply List.eq_nil_iff_forall_not_mem.mpr
  intro parent listed
  obtain ⟨edge, member, target, -, -⟩ := indexed.mem_climbParents.mp listed
  apply absent
  rw [edgeTargets, List.mem_dedup, List.mem_filterMap]
  exact ⟨_, member, by simp [target]⟩

/-- A climb adds what every ancestor contributes. -/
theorem climbAncestry_adds (id : String) :
    Adds view lines (fun closure => view.climbAncestry closure id) (ClimbedFrom lines id) := by
  have spec : ∀ closure, Settled view lines closure →
      ∃ visited : List String,
        (view.climbAncestry closure id).climbed = visited.reverse ++ closure.climbed ∧
        (∀ offset, offset ∈ (view.climbAncestry closure id).offsets ↔
          offset ∈ closure.offsets ∨ ∃ node ∈ visited, At lines (Climbed lines node) offset) ∧
        (∀ node, node ∈ (view.climbAncestry closure id).climbed ↔
          node ∈ closure.climbed ∨ Ancestor (lines.map Line.record) id node) ∧
        ∀ node ∈ (view.climbAncestry closure id).climbed,
          ∀ parent ∈ view.climbParents node,
            parent ∈ (view.climbAncestry closure id).climbed := by
    intro closure settled
    obtain ⟨visited, climbed_eq, offsets_eq⟩ := walk_visits view.climbParents
      view.climbVisit (view.lineBound + 1) [id] closure.climbed closure.offsets
    have settled' : ∀ node ∈ closure.climbed, ∀ parent ∈ view.climbParents node,
        parent ∈ closure.climbed ∨ parent ∈ [id] :=
      fun node member parent edge => Or.inl (settled.parents node member parent edge)
    refine ⟨visited, climbed_eq, fun offset => ?_, fun node => ?_, ?_⟩
    · simp only [IndexView.climbAncestry, offsets_eq]
      rw [mem_foldl_offsets fun node => At lines (Climbed lines node)]
      exact fun node _ offsets offset => mem_climbVisit indexed
    · have reached := mem_walk_iff view.climbParents view.climbVisit (climb_leaf indexed)
        (view.lineBound + 1) [id] closure.climbed closure.offsets
        (climb_enough indexed id closure.climbed) settled' node
      simpa [IndexView.climbAncestry, indexed.reaches_iff] using reached
    · exact (walk_closed view.climbParents view.climbVisit (climb_leaf indexed)
        (view.lineBound + 1) [id] closure.climbed closure.offsets
        (climb_enough indexed id closure.climbed) settled').2
  refine ⟨fun closure settled => ?_, fun closure settled offset => ?_, fun _ => rfl⟩
  · obtain ⟨visited, climbed_eq, offsets_iff, -, closed⟩ := spec closure settled
    refine ⟨closed, fun node climbed offset here => (offsets_iff offset).mpr ?_⟩
    rw [climbed_eq, List.mem_append, List.mem_reverse] at climbed
    rcases climbed with new | old
    · exact Or.inr ⟨node, new, here⟩
    · exact Or.inl (settled.visited node old offset here)
  · obtain ⟨visited, climbed_eq, offsets_iff, climbed_iff, -⟩ := spec closure settled
    rw [offsets_iff]
    have split : At lines (ClimbedFrom lines id) offset ↔ _ :=
      at_exists.trans (exists_congr fun _ => at_and)
    rw [split]
    constructor
    · rintro (old | ⟨node, new, here⟩)
      · exact Or.inl old
      · have climbed : node ∈ (view.climbAncestry closure id).climbed := by
          rw [climbed_eq]
          exact List.mem_append_left _ (List.mem_reverse.mpr new)
        rcases (climbed_iff node).mp climbed with old | above
        · exact Or.inl (settled.visited node old offset here)
        · exact Or.inr ⟨node, above, here⟩
    · rintro (old | ⟨node, above, here⟩)
      · exact Or.inl old
      · have climbed := (climbed_iff node).mpr (Or.inr above)
        rw [climbed_eq, List.mem_append, List.mem_reverse] at climbed
        rcases climbed with new | old
        · exact Or.inr ⟨node, new, here⟩
        · exact Or.inl (settled.visited node old offset here)

/-- Taking the versions of an ID is a step that adds these. -/
theorem addIdVersions_adds (id : String) :
    Adds view lines
      (fun closure => { closure with offsets := view.addIdVersions closure.offsets id })
      (Versions id) :=
  .of_offsets (fun offsets => view.addIdVersions offsets id) fun _ _ => mem_addIdVersions indexed

/-- One incident edge of an expansion. -/
theorem expandEdge_adds (wide : Bool) (id : String) {offset : Nat} {edge : EdgeRecord}
    (member : (⟨offset, .edge edge⟩ : Line) ∈ lines) :
    Adds view lines (fun closure => view.expandEdge wide id closure offset)
      (Followed wide lines id ⟨offset, .edge edge⟩ edge) := by
  have edgeStage : Adds view lines
      (fun closure => { closure with
        offsets := view.addEdge (closure.offsets.insert offset) offset edge.id })
      (fun line => line = ⟨offset, .edge edge⟩ ∨ line.record.deletes edge.id = true) := by
    refine Adds.of_offsets
      (fun offsets => view.addEdge (offsets.insert offset) offset edge.id) fun offsets other => ?_
    have added := mem_addEdge indexed member (offsets.insert offset) edge.id other
    simp only at added
    rw [added, mem_insert_offset, at_or, at_eq member]
    tauto
  have wideStage : Adds view lines
      (fun closure => { closure with
        offsets := if wide then closure.offsets.insertMany
          (view.postings .adjacency (edge.other id)) else closure.offsets })
      (fun line => wide = true ∧ line.record.touches (edge.other id) = true) := by
    refine Adds.of_offsets (fun offsets => if wide then offsets.insertMany
      (view.postings .adjacency (edge.other id)) else offsets) fun offsets other => ?_
    cases wide with
    | false => simp [At]
    | true =>
        rw [if_pos rfl, mem_insertMany, mem_postings_at indexed, at_and]
        simp
  have composed := ((edgeStage.comp (addIdVersions_adds indexed (edge.other id))).comp
    wideStage).comp (climbAncestry_adds indexed (edge.other id))
  have stage_eq : (fun closure => view.expandEdge wide id closure offset) =
      fun closure : Closure => view.climbAncestry { closure with
        offsets := if wide then (view.addIdVersions (view.addEdge (closure.offsets.insert offset)
            offset edge.id) (edge.other id)).insertMany
              (view.postings .adjacency (edge.other id))
          else view.addIdVersions (view.addEdge (closure.offsets.insert offset) offset edge.id)
            (edge.other id) } (edge.other id) := by
    funext closure
    simp [IndexView.expandEdge, indexed.recordAt _ member, EdgeRecord.other]
  rw [stage_eq]
  refine composed.congr fun line _ => ?_
  simp only [Followed, or_assoc]

/-- `expand_by_id` and `anchor` add an id's expansion. -/
theorem expandId_adds (wide : Bool) (id : String) :
    Adds view lines (fun closure => view.expandId wide closure id) (Expanded wide lines id) := by
  have edges : Adds view lines
      (fun closure => (view.postings .adjacency id).foldl (view.expandEdge wide id) closure)
      (fun line => ∃ offset ∈ view.postings .adjacency id,
        ∃ edge, (⟨offset, .edge edge⟩ : Line) ∈ lines ∧
          Followed wide lines id ⟨offset, .edge edge⟩ edge line) := by
    apply Adds.foldl
    intro offset posted
    obtain ⟨⟨offset, record⟩, member, rfl, touching⟩ := indexed.mem_postings.mp posted
    cases record with
    | edge edge =>
        refine (expandEdge_adds indexed wide id member).congr fun line _ => ?_
        constructor
        · exact fun followed => ⟨edge, member, followed⟩
        · rintro ⟨other, member', followed⟩
          have same : some (GraphRecord.edge edge) = some (.edge other) :=
            (indexed.recordAt _ member).symm.trans (indexed.recordAt ⟨offset, .edge other⟩ member')
          obtain rfl := GraphRecord.edge.inj (Option.some.inj same)
          exact followed
    | _ => simp [GraphRecord.touches] at touching
  refine (((addIdVersions_adds indexed id).comp edges).comp
    (climbAncestry_adds indexed id)).congr fun line _ => ?_
  simp only [Expanded, or_assoc]
  refine or_congr_right (or_congr_left ?_)
  constructor
  · rintro ⟨offset, posted, edge, member, followed⟩
    obtain ⟨line', member', here, touching⟩ := indexed.mem_postings.mp posted
    subst here
    have same : some line'.record = some (.edge edge) :=
      (indexed.recordAt _ member').symm.trans
        (indexed.recordAt ⟨line'.offset, .edge edge⟩ member)
    have touched : (GraphRecord.edge edge).touches id = true := by
      rw [← Option.some.inj same]
      simpa using touching
    exact ⟨_, edge, ⟨member, by simpa [GraphRecord.touches] using touched⟩, followed⟩
  · rintro ⟨offset, edge, ⟨member, touching⟩, followed⟩
    refine ⟨offset, indexed.mem_postings.mpr ⟨_, member, rfl, ?_⟩, edge, member, followed⟩
    simpa [GraphRecord.touches] using touching

/-- The IDs under a key are those of the records with that key. -/
theorem mem_idsAt {table : Table} {key id : String} :
    id ∈ view.idsAt table key ↔
      ∃ line ∈ lines, key ∈ table.keys line.record ∧ line.record.id = id := by
  have collected : ∀ (posted : List Nat) (ids : StrSet),
      (∀ offset ∈ posted, offset ∈ view.postings table key) →
      (id ∈ posted.foldl view.insertIdAt ids ↔
        id ∈ ids ∨ ∃ line ∈ lines, line.offset ∈ posted ∧ line.record.id = id) := by
    intro posted
    induction posted with
    | nil => simp
    | cons head tail ih =>
        intro ids inside
        obtain ⟨line, member, here, -⟩ := indexed.mem_postings.mp (inside head (by simp))
        subst here
        rw [List.foldl_cons, ih _ fun offset listed => inside offset (List.mem_cons_of_mem _ listed)]
        simp only [IndexView.insertIdAt, indexed.recordAt line member, Std.ExtTreeSet.mem_insert,
          byteOrder_eq_iff,
          List.mem_cons]
        constructor
        · rintro ((rfl | old) | ⟨other, member', listed, same⟩)
          · exact Or.inr ⟨line, member, Or.inl rfl, rfl⟩
          · exact Or.inl old
          · exact Or.inr ⟨other, member', Or.inr listed, same⟩
        · rintro (old | ⟨other, member', here | listed, same⟩)
          · exact Or.inl (Or.inr old)
          · have read := (indexed.recordAt line member).symm.trans
              (here ▸ indexed.recordAt other member')
            exact Or.inl (Or.inl (by rw [Option.some.inj read, same]))
          · exact Or.inr ⟨other, member', listed, same⟩
  rw [IndexView.idsAt, Std.ExtTreeSet.mem_toList, collected _ _ fun _ listed => listed]
  simp only [Std.ExtTreeSet.not_mem_empty, false_or]
  constructor
  · rintro ⟨line, member, posted, same⟩
    obtain ⟨other, member', here, filed⟩ := indexed.mem_postings.mp posted
    have read := (indexed.recordAt line member).symm.trans (here ▸ indexed.recordAt other member')
    exact ⟨line, member, by rwa [Option.some.inj read], same⟩
  · rintro ⟨line, member, filed, same⟩
    exact ⟨line, member, indexed.mem_postings.mpr ⟨line, member, rfl, filed⟩, same⟩

end Stages

section Selectors

variable {lines : List Line} {selector : Selector}

/-- A selector that climbs covers the ancestors of its seeds. -/
private theorem covers_iff {id : String} (climbs : selector.climbs = true) :
    selector.Covers (lines.map Line.record) id ↔
      ∃ seed, selector.Seeds (lines.map Line.record) seed ∧
        Ancestor (lines.map Line.record) seed id := by
  constructor
  · rintro (seed | ⟨-, found⟩)
    · exact ⟨id, seed, .refl⟩
    · exact found
  · exact fun found => Or.inr ⟨climbs, found⟩

/-- What a selector takes, stage by stage. -/
theorem takes_iff {line : Line} (member : line ∈ lines) :
    selector.Takes (lines.map Line.record) line.record ↔
      (∃ seed, selector.Seeds (lines.map Line.record) seed ∧
        (Versions seed line ∨
          (selector.wide = true ∧ line.record.touches seed = true) ∨
          selector.climbs = true ∧ ClimbedFrom lines seed line)) ∨
      selector.follows = true ∧ ∃ anchor, selector.Anchors (lines.map Line.record) anchor ∧
        ∃ offset edge, ((⟨offset, .edge edge⟩ : Line) ∈ lines ∧
          (edge.source = anchor ∨ edge.target = anchor)) ∧
          (line = ⟨offset, .edge edge⟩ ∨ line.record.deletes edge.id = true) := by
  have located : ∀ edge, GraphRecord.edge edge ∈ lines.map Line.record →
      ∃ offset, (⟨offset, .edge edge⟩ : Line) ∈ lines := by
    intro edge recorded
    obtain ⟨⟨offset, record⟩, found, rfl⟩ := List.mem_map.mp recorded
    exact ⟨offset, found⟩
  have recorded : ∀ {offset edge}, (⟨offset, .edge edge⟩ : Line) ∈ lines →
      GraphRecord.edge edge ∈ lines.map Line.record := fun found => List.mem_map_of_mem found
  have itself : ∀ edge, line.record = .edge edge → line = ⟨line.offset, .edge edge⟩ := by
    rintro edge same
    rw [← same]
  constructor
  · intro takes
    have versions : ∀ id, selector.Covers (lines.map Line.record) id → Versions id line →
        ∃ seed, selector.Seeds (lines.map Line.record) seed ∧
          (Versions seed line ∨ (selector.wide = true ∧ line.record.touches seed = true) ∨
            selector.climbs = true ∧ ClimbedFrom lines seed line) := by
      rintro id (seeded | ⟨climbs, seed, seeded, above⟩) version
      · exact ⟨id, seeded, Or.inl version⟩
      · rcases Relation.ReflTransGen.cases_tail above with same | ⟨node, below, parent⟩
        · exact ⟨seed, seeded, Or.inl (same ▸ version)⟩
        · obtain ⟨edge, inside, target, source, contained⟩ := parent
          obtain ⟨offset, found⟩ := located edge inside
          exact ⟨seed, seeded, Or.inr (Or.inr ⟨climbs, node, below, offset, edge,
            ⟨found, target, contained⟩, Or.inr (Or.inl (source ▸ version))⟩)⟩
    rcases takes with
      covered | ⟨id, covered, deletes⟩ | ⟨id, widened, touching⟩ | ⟨edge, retired, taken⟩
    · exact Or.inl (versions _ covered (Or.inl rfl))
    · exact Or.inl (versions id covered (Or.inr deletes))
    · rcases widened with ⟨wide, seeded⟩ | ⟨climbs, child, covered, parent⟩
      · exact Or.inl ⟨id, seeded, Or.inr (Or.inl ⟨wide, touching⟩)⟩
      · obtain ⟨seed, seeded, above⟩ := (covers_iff climbs).mp covered
        obtain ⟨edge, inside, target, source, contained⟩ := parent
        obtain ⟨offset, found⟩ := located edge inside
        exact Or.inl ⟨seed, seeded, Or.inr (Or.inr ⟨climbs, child, above, offset, edge,
          ⟨found, target, contained⟩, Or.inr (Or.inr (source ▸ touching))⟩)⟩
    · obtain ⟨inside, ⟨follows, anchor, anchored, touching⟩ | ⟨climbs, covered, contained⟩⟩ := retired
      · rcases taken with same | deletes
        · refine Or.inr ⟨follows, anchor, anchored, line.offset, edge, ⟨?_, touching⟩,
            Or.inl (itself edge same)⟩
          rw [← itself edge same]
          exact member
        · obtain ⟨offset, found⟩ := located edge inside
          exact Or.inr ⟨follows, anchor, anchored, offset, edge, ⟨found, touching⟩, Or.inr deletes⟩
      · obtain ⟨seed, seeded, above⟩ := (covers_iff climbs).mp covered
        rcases taken with same | deletes
        · refine Or.inl ⟨seed, seeded, Or.inr (Or.inr ⟨climbs, edge.target, above, line.offset, edge,
            ⟨?_, rfl, contained⟩, Or.inl (Or.inl (itself edge same))⟩)⟩
          rw [← itself edge same]
          exact member
        · obtain ⟨offset, found⟩ := located edge inside
          exact Or.inl ⟨seed, seeded, Or.inr (Or.inr ⟨climbs, edge.target, above, offset, edge,
            ⟨found, rfl, contained⟩, Or.inl (Or.inr deletes)⟩)⟩
  · have versions : ∀ id, selector.Covers (lines.map Line.record) id → Versions id line →
        selector.Takes (lines.map Line.record) line.record := by
      rintro id covered (same | deletes)
      · exact Or.inl (same ▸ covered)
      · exact Or.inr (Or.inl ⟨id, covered, deletes⟩)
    rintro (⟨seed, seeded, version | ⟨wide, touching⟩ | ⟨climbs, node, above, offset, edge,
      ⟨found, target, contained⟩, taken⟩⟩ |
      ⟨follows, anchor, anchored, offset, edge, ⟨found, touching⟩, taken⟩)
    · exact versions seed (Or.inl seeded) version
    · exact Or.inr (Or.inr (Or.inl ⟨seed, Or.inl ⟨wide, seeded⟩, touching⟩))
    · have covered : selector.Covers (lines.map Line.record) node :=
        (covers_iff climbs).mpr ⟨seed, seeded, above⟩
      have parent : ParentOf (lines.map Line.record) node edge.source :=
        ⟨edge, recorded found, target, rfl, contained⟩
      rcases taken with taken | version | touching
      · refine Or.inr (Or.inr (Or.inr ⟨edge,
          ⟨recorded found, Or.inr ⟨climbs, target.symm ▸ covered, contained⟩⟩, ?_⟩))
        exact taken.imp (fun same => by rw [same]) id
      · exact versions edge.source ((covers_iff climbs).mpr ⟨seed, seeded, above.tail parent⟩) version
      · exact Or.inr (Or.inr (Or.inl ⟨edge.source, Or.inr ⟨climbs, node, covered, parent⟩, touching⟩))
    · refine Or.inr (Or.inr (Or.inr ⟨edge,
        ⟨recorded found, Or.inl ⟨follows, anchor, anchored, touching⟩⟩, ?_⟩))
      exact taken.imp (fun same => by rw [same]) id

/-- A selector that follows edges takes its anchors' expansions. -/
private theorem takes_iff_expanded (follows : selector.follows = true)
    (climbs : selector.climbs = true) {line : Line} (member : line ∈ lines) :
    selector.Takes (lines.map Line.record) line.record ↔
      ∃ anchor, selector.Anchors (lines.map Line.record) anchor ∧
        Expanded selector.wide lines anchor line := by
  have other_of : ∀ {id : String} {edge : EdgeRecord}, (edge.source = id ∨ edge.target = id) →
      edge.source = id ∧ edge.target = edge.other id ∨
        edge.target = id ∧ edge.source = edge.other id := by
    intro id edge touching
    unfold EdgeRecord.other
    split <;> simp_all
  have adjacent_of : ∀ {id other : String}, Adjacent (lines.map Line.record) id other →
      ∃ offset edge, ((⟨offset, .edge edge⟩ : Line) ∈ lines ∧
        (edge.source = id ∨ edge.target = id)) ∧ edge.other id = other := by
    rintro id other ⟨edge, recorded, ends⟩
    obtain ⟨⟨offset, record⟩, found, rfl⟩ := List.mem_map.mp recorded
    refine ⟨offset, edge, ⟨found, ends.imp And.left And.left⟩, ?_⟩
    unfold EdgeRecord.other
    rcases ends with ⟨source, target⟩ | ⟨target, source⟩
    · simp [source, target]
    · split
      · next loop => rw [target, ← loop, source]
      · exact source
  rw [takes_iff member]
  simp only [follows, climbs, true_and, Selector.Seeds]
  constructor
  · rintro (⟨seed, anchored | ⟨anchor, anchored, adjacent⟩, taken⟩ |
      ⟨anchor, anchored, offset, edge, touching, taken⟩)
    · refine ⟨seed, anchored, ?_⟩
      rcases taken with version | ⟨-, touching⟩ | climbed
      · exact Or.inl version
      · obtain ⟨offset, record⟩ := line
        cases record with
        | edge edge =>
            refine Or.inr (Or.inl ⟨offset, edge, ⟨member, ?_⟩, Or.inl (Or.inl rfl)⟩)
            simpa [GraphRecord.touches] using touching
        | _ => simp [GraphRecord.touches] at touching
      · exact Or.inr (Or.inr climbed)
    · obtain ⟨offset, edge, found, rfl⟩ := adjacent_of adjacent
      exact ⟨anchor, anchored, Or.inr (Or.inl ⟨offset, edge, found, Or.inr taken⟩)⟩
    · exact ⟨anchor, anchored, Or.inr (Or.inl ⟨offset, edge, touching, Or.inl taken⟩)⟩
  · rintro ⟨anchor, anchored, version | ⟨offset, edge, ⟨found, touching⟩, taken | taken⟩ | climbed⟩
    · exact Or.inl ⟨anchor, Or.inl anchored, Or.inl version⟩
    · exact Or.inr ⟨anchor, anchored, offset, edge, ⟨found, touching⟩, taken⟩
    · exact Or.inl ⟨edge.other anchor, Or.inr ⟨anchor, anchored, edge, List.mem_map_of_mem found,
        other_of touching⟩, taken⟩
    · exact Or.inl ⟨anchor, Or.inl anchored, Or.inr (Or.inr climbed)⟩

/-- A selector that does not follow edges takes its anchors, and what the climb from them adds. -/
private theorem takes_iff_lineage (follows : selector.follows = false) {line : Line}
    (member : line ∈ lines) :
    selector.Takes (lines.map Line.record) line.record ↔
      ∃ anchor, selector.Anchors (lines.map Line.record) anchor ∧
        (Versions anchor line ∨ selector.climbs = true ∧ ClimbedFrom lines anchor line) := by
  have narrow : selector.wide = false := by
    cases selector <;> simp_all [Selector.follows, Selector.wide]
  rw [takes_iff member]
  simp [Selector.Seeds, follows, narrow]

variable {view : IndexView} (indexed : Indexed view lines)

include indexed

/-- Several expansions, each id at most once. -/
private theorem foldl_expandById (ids : List String) (closure : Closure)
    (settled : Settled view lines closure)
    (expanded : ∀ id ∈ closure.expanded, ∀ offset,
      At lines (Expanded true lines id) offset → offset ∈ closure.offsets) (offset : Nat) :
    offset ∈ (ids.foldl view.expandById closure).offsets ↔
      offset ∈ closure.offsets ∨ ∃ id ∈ ids, At lines (Expanded true lines id) offset := by
  induction ids generalizing closure with
  | nil => simp
  | cons head tail ih =>
      rw [List.foldl_cons]
      by_cases known : head ∈ closure.expanded
      · rw [IndexView.expandById, if_pos known, ih closure settled expanded]
        simp only [List.mem_cons, exists_eq_or_imp]
        have := expanded head known offset
        tauto
      · have adds := expandId_adds indexed true head
        have settled' : Settled view lines { closure with expanded := head :: closure.expanded } :=
          ⟨settled.parents, settled.visited⟩
        have grown := adds.offsets _ settled'
        have marked := adds.expanded { closure with expanded := head :: closure.expanded }
        rw [IndexView.expandById, if_neg known, ih _ (adds.settled _ settled'), grown]
        · simp only [List.mem_cons, exists_eq_or_imp, or_assoc]
        · intro id listed other here
          rw [marked] at listed
          rw [grown]
          rcases List.mem_cons.mp listed with rfl | old
          · exact Or.inr here
          · exact Or.inl (expanded id old other here)

/-- For each of the lookups by a field, the anchors are the IDs under its key. -/
private theorem mem_idsAt_anchors (id : String) :
    (∀ name, id ∈ view.idsAt .name name ↔
        (Selector.byName name).Anchors (lines.map Line.record) id) ∧
      (∀ path, id ∈ view.idsAt .path path ↔
        (Selector.byPath path).Anchors (lines.map Line.record) id) ∧
      ∀ kind, id ∈ view.idsAt .kind kind ↔
        (Selector.byKind kind).Anchors (lines.map Line.record) id := by
  have nodes : ∀ (table : Table) (key : String) (filed : NodeRecord → Prop),
      (∀ record, key ∈ table.keys record ↔ ∃ node, record = .node node ∧ filed node) →
      (id ∈ view.idsAt table key ↔
        ∃ node, GraphRecord.node node ∈ lines.map Line.record ∧ filed node ∧ node.id = id) := by
    intro table key filed keys
    rw [mem_idsAt indexed]
    constructor
    · rintro ⟨line, member, listed, same⟩
      obtain ⟨node, recorded, holds⟩ := (keys line.record).mp listed
      rw [recorded] at same
      exact ⟨node, recorded ▸ List.mem_map_of_mem member, holds, same⟩
    · rintro ⟨node, recorded, holds, same⟩
      obtain ⟨line, member, record_eq⟩ := List.mem_map.mp recorded
      exact ⟨line, member, (keys line.record).mpr ⟨node, record_eq, holds⟩,
        by rw [record_eq]; exact same⟩
  refine ⟨fun name => nodes .name name (fun node => node.name = some name) ?_,
    fun path => nodes .path path (fun node => node.repoRelativePath = some path) ?_,
    fun kind => nodes .kind kind (fun node => node.kind.asStr = kind) ?_⟩
  all_goals intro record; cases record <;> simp [Table.keys, eq_comm]

/-- The offsets of a closure are those of the lines its selector takes. -/
theorem selectorWalk_offsets (targeted : selector ≠ .whole) :
    ∃ closure, view.selectorWalk selector = some closure ∧
      ∀ offset, offset ∈ closure.offsets ↔
        At lines (fun line => selector.Takes (lines.map Line.record) line.record) offset := by
  have settled := settled_empty view lines
  have nothing : ∀ offset, ¬ offset ∈ ({} : Closure).offsets := by simp
  have expansion : ∀ (wide : Bool) (id : String) (expanded : List String) (offset : Nat),
      offset ∈ (view.expandId wide { expanded := expanded } id).offsets ↔
        At lines (Expanded wide lines id) offset := by
    intro wide id expanded offset
    rw [(expandId_adds indexed wide id).offsets _ (settled expanded)]
    simp
  have versions : ∀ (ids : List String),
      Adds view lines (fun closure => ids.foldl (fun (closure : Closure) id =>
        { closure with offsets := view.addIdVersions closure.offsets id }) closure)
        (fun line => ∃ id ∈ ids, Versions id line) := fun ids =>
    .foldl ids fun id _ => addIdVersions_adds indexed id
  cases selector with
  | whole => exact absurd rfl targeted
  | byId id =>
      refine ⟨_, rfl, fun offset => ?_⟩
      rw [IndexView.expandById, if_neg (by simp), expansion]
      refine At.congr (fun line member => ?_) offset
      rw [takes_iff_expanded rfl rfl member]
      simp [Selector.Anchors, Selector.wide]
  | byName name =>
      refine ⟨_, rfl, fun offset => ?_⟩
      rw [foldl_expandById indexed _ _ (settled []) (by simp)]
      simp only [nothing, false_or, (mem_idsAt_anchors indexed _).1, ← at_and, ← at_exists]
      refine At.congr (fun line member => ?_) offset
      rw [takes_iff_expanded rfl rfl member]
      rfl
  | byPath path =>
      refine ⟨_, rfl, fun offset => ?_⟩
      have climbs : Adds view lines (fun closure => (view.idsAt .path path).foldl
          view.climbAncestry closure)
          (fun line => ∃ id ∈ view.idsAt .path path, ClimbedFrom lines id line) :=
        .foldl _ fun id _ => climbAncestry_adds indexed id
      rw [((versions (view.idsAt .path path)).comp climbs).offsets _ (settled [])]
      simp only [nothing, false_or, (mem_idsAt_anchors indexed _).2.1]
      refine At.congr (fun line member => ?_) offset
      rw [takes_iff_lineage rfl member]
      simp only [Selector.climbs, true_and]
      grind
  | byKind kind =>
      refine ⟨_, rfl, fun offset => ?_⟩
      rw [(versions (view.idsAt .kind kind)).offsets _ (settled [])]
      simp only [nothing, false_or, (mem_idsAt_anchors indexed _).2.2]
      refine At.congr (fun line member => ?_) offset
      rw [takes_iff_lineage rfl member]
      simp [Selector.climbs]
  | anchored id =>
      refine ⟨_, rfl, fun offset => ?_⟩
      rw [IndexView.anchor, expansion]
      refine At.congr (fun line member => ?_) offset
      rw [takes_iff_expanded rfl rfl member]
      simp [Selector.Anchors, Selector.wide]
  | lineage id =>
      refine ⟨_, rfl, fun offset => ?_⟩
      have stages := (addIdVersions_adds indexed id).comp (climbAncestry_adds indexed id)
      rw [stages.offsets _ (settled [])]
      simp only [nothing, false_or]
      refine At.congr (fun line member => ?_) offset
      rw [takes_iff_lineage rfl member]
      simp [Selector.Anchors, Selector.climbs]

/-- The closure offsets of a targeted selector, ascending. -/
theorem closureOffsetsIn_eq (targeted : selector ≠ .whole) :
    ∃ offsets, view.closureOffsetsIn selector = some offsets ∧ offsets.Pairwise (· < ·) ∧
      ∀ offset, offset ∈ offsets ↔
        At lines (fun line => selector.Takes (lines.map Line.record) line.record) offset := by
  obtain ⟨closure, walked, offsets_iff⟩ := selectorWalk_offsets indexed targeted
  refine ⟨closure.offsets.toList, by rw [IndexView.closureOffsetsIn, walked]; rfl, ?_, fun offset => ?_⟩
  · exact Std.ExtTreeSet.ordered_toList.imp Nat.compare_eq_lt.mp
  · rw [Std.ExtTreeSet.mem_toList, offsets_iff]

end Selectors

end Egregore
