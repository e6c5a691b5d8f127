import Egregore.Query.Liveness

/-!
# Direct outbound dependencies

`symbol_dependencies`: the dependency rows of one symbol over an append-ordered
slice. `rows_spec` reads the two row maps back as one function of the edge id, the
outcome of the id's last edge write.
-/

namespace Egregore

open Base

/-- `SYMBOL_DEPENDENCY_LABELS`. -/
def symbolDependencyLabels : List EdgeLabel := [.calls, .implements, .imports, .references]

/-- One resolved dependency. -/
structure SymbolDependencyRow where
  record : GraphRecord
  edgeId : String
  relation : String
  resolution : Option CallResolution
  deriving DecidableEq, Repr

/-- Why a target is unresolved. -/
inductive UnresolvedDependencyReason where
  | unresolvedCall | unresolvedDispatch | missingTarget
  deriving DecidableEq, Repr

def UnresolvedDependencyReason.asStr : UnresolvedDependencyReason → String
  | .unresolvedCall => "unresolved_call"
  | .unresolvedDispatch => "unresolved_dispatch"
  | .missingTarget => "missing_target"

/-- One unresolved outbound edge. -/
structure UnresolvedDependencyRow where
  diagnostic : Option GraphRecord
  targetId : String
  edgeId : String
  relation : String
  resolution : Option CallResolution
  reason : UnresolvedDependencyReason
  deriving DecidableEq, Repr

/-- The result of the query. -/
structure SymbolDependenciesContext where
  anchor : GraphRecord
  dependencies : List SymbolDependencyRow
  unresolved : List UnresolvedDependencyRow
  deriving DecidableEq, Repr

/-- What one outbound edge is reported as. -/
inductive DependencyOutcome where
  | resolved (row : SymbolDependencyRow)
  | unresolved (row : UnresolvedDependencyRow)
  deriving DecidableEq, Repr

/-- The last record of each id that is not deleted. -/
def liveById (liveness : Liveness) (records : List GraphRecord) : StrMap GraphRecord :=
  records.foldl (insertEntry fun record =>
    if liveness.deleted record.id then none else some (record.id, record)) ∅

/-- The `match` on an edge's live target. -/
def dependencyOutcome (byId : StrMap GraphRecord) (edge : EdgeRecord) : DependencyOutcome :=
  let dispatch := edge.resolution = some .unresolvedDispatch
  match byId[edge.target]? with
  | some node =>
      if node.nodeKind? = some .diagnostic ∨ edge.resolution = some .unresolved ∨ dispatch then
        .unresolved {
          diagnostic := some node
          targetId := edge.target
          edgeId := edge.id
          relation := edge.label.asStr
          resolution := edge.resolution
          reason := if dispatch then .unresolvedDispatch else .unresolvedCall }
      else
        .resolved {
          record := node
          edgeId := edge.id
          relation := edge.label.asStr
          resolution := edge.resolution }
  | none =>
      .unresolved {
        diagnostic := none
        targetId := edge.target
        edgeId := edge.id
        relation := edge.label.asStr
        resolution := edge.resolution
        reason :=
          if dispatch then .unresolvedDispatch
          else if edge.resolution = some .unresolved then .unresolvedCall
          else .missingTarget }

/-- The edge runs from the anchor to another record, under a dependency label. -/
def isDependencyEdge (anchorId : String) (edge : EdgeRecord) : Bool :=
  edge.source = anchorId && symbolDependencyLabels.contains edge.label && edge.target ≠ anchorId

abbrev RowKey := String × String × String

/-- The two keyed maps of the pass. -/
structure DependencyRows where
  dependencies : Std.ExtTreeMap RowKey SymbolDependencyRow tripleOrder := ∅
  unresolved : Std.ExtTreeMap RowKey UnresolvedDependencyRow tripleOrder := ∅

def SymbolDependencyRow.key (row : SymbolDependencyRow) : RowKey :=
  (row.relation, row.record.id, row.edgeId)

def UnresolvedDependencyRow.key (row : UnresolvedDependencyRow) : RowKey :=
  (row.relation, row.targetId, row.edgeId)

/-- `entry(key).or_insert(row)` into the map the outcome belongs to. -/
def DependencyRows.add (rows : DependencyRows) : DependencyOutcome → DependencyRows
  | .resolved row => { rows with dependencies := rows.dependencies.insertIfNew row.key row }
  | .unresolved row => { rows with unresolved := rows.unresolved.insertIfNew row.key row }

/-- One record of the pass over all records. -/
def addDependency (liveness : Liveness) (byId : StrMap GraphRecord) (anchorId : String)
    (rows : DependencyRows) : GraphRecord × Nat → DependencyRows
  | (.edge edge, index) =>
      if liveness.isLatestEdgeVersion edge.id index && !liveness.deleted edge.id &&
          isDependencyEdge anchorId edge then
        rows.add (dependencyOutcome byId edge)
      else rows
  | _ => rows

/-- `symbol_dependencies`. -/
def symbolDependencies (records : List GraphRecord) (anchorId : String) :
    Option SymbolDependenciesContext :=
  let liveness := Liveness.new records
  let byId := liveById liveness records
  match byId[anchorId]? with
  | none => none
  | some anchor =>
      let rows := records.zipIdx.foldl (addDependency liveness byId anchorId) {}
      some {
        anchor := anchor
        dependencies := rows.dependencies.toList.map Prod.snd
        unresolved := rows.unresolved.toList.map Prod.snd }

section Spec

/-- The live record of an id: its last record, unless the id is deleted. -/
theorem getElem?_liveById (records : List GraphRecord) (id : String) :
    (liveById (Liveness.new records) records)[id]? =
      if (Liveness.new records).deleted id then none
      else lastEvent (fun record => record.id = id) records := by
  rw [liveById, getElem?_foldl_insertEntry]
  have same : (records.filterMap fun record =>
      if (Liveness.new records).deleted record.id then none else some (record.id, record)).filter
        (fun pair => decide (pair.1 = id)) =
      if (Liveness.new records).deleted id then []
      else (records.filter fun record => decide (record.id = id)).map fun record => (id, record) := by
    generalize Liveness.new records = liveness
    by_cases gone : liveness.deleted id
    · simp only [gone, if_true, List.filter_eq_nil_iff, List.mem_filterMap]
      rintro pair ⟨record, -, entry⟩ named
      split at entry
      · cases entry
      · next live =>
          obtain rfl := Option.some.inj entry
          have same : record.id = id := of_decide_eq_true named
          exact live (same ▸ gone)
    · simp only [gone, Bool.false_eq_true, if_false]
      induction records with
      | nil => rfl
      | cons head tail ih =>
          by_cases here : head.id = id
          · subst here
            simp [gone, ih]
          · by_cases gone' : liveness.deleted head.id <;> simp [gone', here, ih]
  rw [same]
  by_cases gone : (Liveness.new records).deleted id
  · simp [gone]
  · simp only [gone, Bool.false_eq_true, if_false, List.getLast?_map, Option.map_map]
    rw [lastEvent]
    simp [Function.comp_def]

/-- What the pass reports for an edge id: the outcome of its last edge write, when
that runs from the anchor and the id is live. -/
def outcomeOf (records : List GraphRecord) (anchorId edgeId : String) : Option DependencyOutcome :=
  let liveness := Liveness.new records
  match lastEvent (GraphRecord.writesEdge edgeId) records with
  | some (.edge edge) =>
      if !liveness.deleted edgeId && isDependencyEdge anchorId edge then
        some (dependencyOutcome (liveById liveness records) edge)
      else none
  | _ => none

theorem edgeId_of_resolved {byId : StrMap GraphRecord} {edge : EdgeRecord}
    {row : SymbolDependencyRow} (outcome : dependencyOutcome byId edge = .resolved row) :
    row.edgeId = edge.id := by
  cases found : byId[edge.target]? with
  | none => simp [dependencyOutcome, found] at outcome
  | some node =>
      simp only [dependencyOutcome, found] at outcome
      split at outcome
      · simp at outcome
      · simp only [DependencyOutcome.resolved.injEq] at outcome
        rw [← outcome]

theorem edgeId_of_unresolved {byId : StrMap GraphRecord} {edge : EdgeRecord}
    {row : UnresolvedDependencyRow} (outcome : dependencyOutcome byId edge = .unresolved row) :
    row.edgeId = edge.id := by
  cases found : byId[edge.target]? with
  | none =>
      simp only [dependencyOutcome, found, DependencyOutcome.unresolved.injEq] at outcome
      rw [← outcome]
  | some node =>
      simp only [dependencyOutcome, found] at outcome
      split at outcome
      · simp only [DependencyOutcome.unresolved.injEq] at outcome
        rw [← outcome]
      · simp at outcome

/-- The edge at `index` is reported. -/
def Reported (liveness : Liveness) (anchorId : String) (entries : List GraphRecord) (index : Nat)
    (edge : EdgeRecord) : Prop :=
  entries[index]? = some (.edge edge) ∧ liveness.isLatestEdgeVersion edge.id index = true ∧
    liveness.deleted edge.id = false ∧ isDependencyEdge anchorId edge = true

/-- Rows after a part of the pass: one for each reported edge so far. -/
structure RowsOf (liveness : Liveness) (byId : StrMap GraphRecord) (anchorId : String)
    (entries : List GraphRecord) (rows : DependencyRows) : Prop where
  dependencies : ∀ key row, rows.dependencies[key]? = some row ↔
    key = row.key ∧ ∃ index edge, Reported liveness anchorId entries index edge ∧
      dependencyOutcome byId edge = .resolved row
  unresolved : ∀ key row, rows.unresolved[key]? = some row ↔
    key = row.key ∧ ∃ index edge, Reported liveness anchorId entries index edge ∧
      dependencyOutcome byId edge = .unresolved row

private theorem reported_append {liveness : Liveness} {anchorId : String}
    {entries : List GraphRecord} {last : GraphRecord} {index : Nat} {edge : EdgeRecord} :
    Reported liveness anchorId (entries ++ [last]) index edge ↔
      Reported liveness anchorId entries index edge ∨
        index = entries.length ∧ last = .edge edge ∧
          liveness.isLatestEdgeVersion edge.id index = true ∧
          liveness.deleted edge.id = false ∧ isDependencyEdge anchorId edge = true := by
  unfold Reported
  by_cases inside : index < entries.length
  · rw [List.getElem?_append_left inside]
    have : index ≠ entries.length := Nat.ne_of_lt inside
    simp [this]
  · rw [List.getElem?_append_right (by omega), List.getElem?_eq_none (l := entries) (by omega)]
    by_cases last_index : index = entries.length
    · subst last_index
      simp
    · have beyond : [last][index - entries.length]? = none := by
        rw [List.getElem?_eq_none]
        simp only [List.length_singleton]
        omega
      simp [beyond, last_index]

private theorem index_eq_of_latest {liveness : Liveness} {id : String} {index other : Nat}
    (latest : liveness.isLatestEdgeVersion id index = true)
    (latest' : liveness.isLatestEdgeVersion id other = true) : index = other := by
  simp only [Liveness.isLatestEdgeVersion, decide_eq_true_eq] at latest latest'
  exact Option.some.inj (latest.symm.trans latest')

/-- Each edge id is latest at one index only, so `or_insert` never meets a key. -/
theorem rows_foldl (liveness : Liveness) (byId : StrMap GraphRecord) (anchorId : String)
    (entries : List GraphRecord) :
    RowsOf liveness byId anchorId entries
      (entries.zipIdx.foldl (addDependency liveness byId anchorId) {}) := by
  induction entries using List.reverseRecOn with
  | nil => constructor <;> simp [Reported]
  | append_singleton entries last ih =>
      rw [List.zipIdx_append, List.foldl_append]
      generalize entries.zipIdx.foldl (addDependency liveness byId anchorId) {} = rows at ih ⊢
      simp only [List.zipIdx_singleton, Nat.zero_add, List.foldl_cons, List.foldl_nil]
      have fresh : ∀ {index : Nat} {edge other : EdgeRecord},
          Reported liveness anchorId entries index other →
          liveness.isLatestEdgeVersion edge.id entries.length = true → other.id ≠ edge.id := by
        intro index edge other reported latest same
        have equal := index_eq_of_latest (same ▸ reported.2.1) latest
        have inside := (List.getElem?_eq_some_iff.mp reported.1).1
        omega
      have skip : (∀ edge, last = .edge edge →
            ¬ (liveness.isLatestEdgeVersion edge.id entries.length = true ∧
              liveness.deleted edge.id = false ∧ isDependencyEdge anchorId edge = true)) →
          RowsOf liveness byId anchorId (entries ++ [last]) rows := by
        intro unreported
        have same : ∀ index edge, Reported liveness anchorId (entries ++ [last]) index edge ↔
            Reported liveness anchorId entries index edge := by
          intro index edge
          rw [reported_append]
          constructor
          · rintro (old | ⟨rfl, recorded, holds⟩)
            · exact old
            · exact absurd holds (unreported edge recorded)
          · exact Or.inl
        constructor
        · intro key row
          simp only [same]
          exact ih.dependencies key row
        · intro key row
          simp only [same]
          exact ih.unresolved key row
      cases last with
      | node node => exact skip (by simp)
      | tombstone tombstone => exact skip (by simp)
      | edge edge =>
          rw [addDependency]
          split
          · next holds =>
              simp only [Bool.and_eq_true, Bool.not_eq_true'] at holds
              obtain ⟨⟨latest, live⟩, dependency⟩ := holds
              have split : ∀ wanted : EdgeRecord → Prop,
                  (∃ index other, Reported liveness anchorId (entries ++ [.edge edge]) index other ∧
                    wanted other) ↔
                  (∃ index other, Reported liveness anchorId entries index other ∧ wanted other) ∨
                    wanted edge := by
                intro wanted
                simp only [reported_append]
                constructor
                · rintro ⟨index, other, old | ⟨rfl, recorded, -⟩, holds⟩
                  · exact Or.inl ⟨index, other, old, holds⟩
                  · exact Or.inr (GraphRecord.edge.inj recorded ▸ holds)
                · rintro (⟨index, other, old, holds⟩ | holds)
                  · exact ⟨index, other, Or.inl old, holds⟩
                  · exact ⟨entries.length, edge, Or.inr ⟨rfl, rfl, latest, live, dependency⟩, holds⟩
              cases outcome : dependencyOutcome byId edge with
              | resolved row =>
                  refine ⟨fun key other => ?_, fun key other => ?_⟩
                  · have absent : rows.dependencies[row.key]? = none := by
                      by_contra present
                      obtain ⟨old, found⟩ := Option.ne_none_iff_exists'.mp present
                      obtain ⟨key_eq, index, other, reported, outcome'⟩ :=
                        (ih.dependencies _ _).mp found
                      have ids : row.edgeId = old.edgeId := congrArg (fun key => key.2.2) key_eq
                      rw [edgeId_of_resolved outcome, edgeId_of_resolved outcome'] at ids
                      exact fresh reported latest ids.symm
                    simp only [DependencyRows.add, getElem?_insertIfNew_eq, split, outcome,
                      DependencyOutcome.resolved.injEq]
                    by_cases same : row.key = key
                    · subst same
                      simp only [if_true, absent, Option.none_or, Option.some.injEq]
                      constructor
                      · rintro rfl
                        exact ⟨rfl, Or.inr rfl⟩
                      · rintro ⟨key_eq, old | rfl⟩
                        · have := (ih.dependencies row.key other).mpr ⟨key_eq, old⟩
                          rw [absent] at this
                          cases this
                        · rfl
                    · simp only [same, if_false, ih.dependencies]
                      constructor
                      · exact fun ⟨key_eq, old⟩ => ⟨key_eq, Or.inl old⟩
                      · rintro ⟨key_eq, old | rfl⟩
                        · exact ⟨key_eq, old⟩
                        · exact absurd key_eq.symm same
                  · simp only [DependencyRows.add, split, outcome, reduceCtorEq, or_false]
                    exact ih.unresolved key other
              | unresolved row =>
                  refine ⟨fun key other => ?_, fun key other => ?_⟩
                  · simp only [DependencyRows.add, split, outcome, reduceCtorEq, or_false]
                    exact ih.dependencies key other
                  · have absent : rows.unresolved[row.key]? = none := by
                      by_contra present
                      obtain ⟨old, found⟩ := Option.ne_none_iff_exists'.mp present
                      obtain ⟨key_eq, index, other, reported, outcome'⟩ :=
                        (ih.unresolved _ _).mp found
                      have ids : row.edgeId = old.edgeId := congrArg (fun key => key.2.2) key_eq
                      rw [edgeId_of_unresolved outcome, edgeId_of_unresolved outcome'] at ids
                      exact fresh reported latest ids.symm
                    simp only [DependencyRows.add, getElem?_insertIfNew_eq, split, outcome,
                      DependencyOutcome.unresolved.injEq]
                    by_cases same : row.key = key
                    · subst same
                      simp only [if_true, absent, Option.none_or, Option.some.injEq]
                      constructor
                      · rintro rfl
                        exact ⟨rfl, Or.inr rfl⟩
                      · rintro ⟨key_eq, old | rfl⟩
                        · have := (ih.unresolved row.key other).mpr ⟨key_eq, old⟩
                          rw [absent] at this
                          cases this
                        · rfl
                    · simp only [same, if_false, ih.unresolved]
                      constructor
                      · exact fun ⟨key_eq, old⟩ => ⟨key_eq, Or.inl old⟩
                      · rintro ⟨key_eq, old | rfl⟩
                        · exact ⟨key_eq, old⟩
                        · exact absurd key_eq.symm same
          · next unreported =>
              apply skip
              rintro other recorded ⟨latest, live, dependency⟩
              obtain rfl := GraphRecord.edge.inj recorded
              exact unreported (by simp [latest, live, dependency])

/-- The rows of the whole pass are the outcomes of the edge ids. -/
theorem outcomeOf_eq_some_iff {records : List GraphRecord} {anchorId edgeId : String}
    {outcome : DependencyOutcome} :
    outcomeOf records anchorId edgeId = some outcome ↔
      ∃ index edge, Reported (Liveness.new records) anchorId records index edge ∧
        edge.id = edgeId ∧
        dependencyOutcome (liveById (Liveness.new records) records) edge = outcome := by
  unfold outcomeOf Reported
  simp only [Liveness.isLatestEdgeVersion_new, decide_eq_true_eq]
  constructor
  · intro found
    cases last : lastEvent (GraphRecord.writesEdge edgeId) records with
    | none => simp [last] at found
    | some record =>
        obtain ⟨index, latest, recorded⟩ := lastEvent_eq_some_iff.mp last
        obtain ⟨hit, hit_eq, written, -⟩ := lastIdx_eq_some_iff.mp latest
        obtain rfl := Option.some.inj (recorded.symm.trans hit_eq)
        cases record with
        | edge edge =>
            obtain rfl : edge.id = edgeId := by simpa [GraphRecord.writesEdge] using written
            simp only [last] at found
            split at found
            · next holds =>
                simp only [Bool.and_eq_true, Bool.not_eq_true'] at holds
                exact ⟨index, edge, ⟨recorded, latest, holds⟩, rfl, Option.some.inj found⟩
            · cases found
        | _ => simp [GraphRecord.writesEdge] at written
  · rintro ⟨index, edge, ⟨recorded, latest, live, dependency⟩, rfl, rfl⟩
    have last : lastEvent (GraphRecord.writesEdge edge.id) records = some (.edge edge) :=
      lastEvent_eq_some_iff.mpr ⟨index, latest, recorded⟩
    simp [last, live, dependency]

/-- The live record a query is anchored at. -/
def anchorOf (records : List GraphRecord) (anchorId : String) : Option GraphRecord :=
  (liveById (Liveness.new records) records)[anchorId]?

/-- Two slices answer alike exactly when they agree on the anchor and, unless
there is none, on the outcome of every edge id. -/
theorem symbolDependencies_eq_iff {records other : List GraphRecord} {anchorId : String} :
    symbolDependencies records anchorId = symbolDependencies other anchorId ↔
      anchorOf records anchorId = anchorOf other anchorId ∧
        (anchorOf records anchorId = none ∨
          ∀ edgeId, outcomeOf records anchorId edgeId = outcomeOf other anchorId edgeId) := by
  have rows := rows_foldl (Liveness.new records) (liveById (Liveness.new records) records)
    anchorId records
  have rows' := rows_foldl (Liveness.new other) (liveById (Liveness.new other) other)
    anchorId other
  simp only [symbolDependencies, anchorOf]
  generalize records.zipIdx.foldl (addDependency (Liveness.new records)
    (liveById (Liveness.new records) records) anchorId) {} = mine at rows ⊢
  generalize other.zipIdx.foldl (addDependency (Liveness.new other)
    (liveById (Liveness.new other) other) anchorId) {} = theirs at rows' ⊢
  cases (liveById (Liveness.new records) records)[anchorId]? with
  | none => cases (liveById (Liveness.new other) other)[anchorId]? <;> simp
  | some anchor =>
      cases (liveById (Liveness.new other) other)[anchorId]? with
      | none => simp
      | some anchor' =>
          simp only [Option.some.injEq, SymbolDependenciesContext.mk.injEq, reduceCtorEq, false_or]
          refine and_congr_right fun _ => ?_
          constructor
          · rintro ⟨sameResolved, sameUnresolved⟩ edgeId
            have resolved : mine.dependencies = theirs.dependencies :=
              eq_of_values_eq SymbolDependencyRow.key
                (fun key row found => ((rows.dependencies key row).mp found).1.symm)
                (fun key row found => ((rows'.dependencies key row).mp found).1.symm) sameResolved
            have unresolved : mine.unresolved = theirs.unresolved :=
              eq_of_values_eq UnresolvedDependencyRow.key
                (fun key row found => ((rows.unresolved key row).mp found).1.symm)
                (fun key row found => ((rows'.unresolved key row).mp found).1.symm) sameUnresolved
            have reported : ∀ outcome, outcomeOf records anchorId edgeId = some outcome ↔
                outcomeOf other anchorId edgeId = some outcome := by
              intro outcome
              rw [outcomeOf_eq_some_iff, outcomeOf_eq_some_iff]
              cases outcome with
              | resolved row =>
                  have mineRow := rows.dependencies row.key row
                  have theirsRow := rows'.dependencies row.key row
                  rw [resolved, theirsRow] at mineRow
                  simp only [true_and] at mineRow
                  constructor
                  · rintro ⟨index, edge, report, rfl, outcome⟩
                    obtain ⟨index', edge', report', outcome'⟩ :=
                      mineRow.mpr ⟨index, edge, report, outcome⟩
                    exact ⟨index', edge', report', (edgeId_of_resolved outcome').symm.trans
                      (edgeId_of_resolved outcome), outcome'⟩
                  · rintro ⟨index, edge, report, rfl, outcome⟩
                    obtain ⟨index', edge', report', outcome'⟩ :=
                      mineRow.mp ⟨index, edge, report, outcome⟩
                    exact ⟨index', edge', report', (edgeId_of_resolved outcome').symm.trans
                      (edgeId_of_resolved outcome), outcome'⟩
              | unresolved row =>
                  have mineRow := rows.unresolved row.key row
                  have theirsRow := rows'.unresolved row.key row
                  rw [unresolved, theirsRow] at mineRow
                  simp only [true_and] at mineRow
                  constructor
                  · rintro ⟨index, edge, report, rfl, outcome⟩
                    obtain ⟨index', edge', report', outcome'⟩ :=
                      mineRow.mpr ⟨index, edge, report, outcome⟩
                    exact ⟨index', edge', report', (edgeId_of_unresolved outcome').symm.trans
                      (edgeId_of_unresolved outcome), outcome'⟩
                  · rintro ⟨index, edge, report, rfl, outcome⟩
                    obtain ⟨index', edge', report', outcome'⟩ :=
                      mineRow.mp ⟨index, edge, report, outcome⟩
                    exact ⟨index', edge', report', (edgeId_of_unresolved outcome').symm.trans
                      (edgeId_of_unresolved outcome), outcome'⟩
            exact Option.ext reported
          · intro outcomes
            have exists_iff : ∀ outcome : DependencyOutcome,
                (∃ index edge, Reported (Liveness.new records) anchorId records index edge ∧
                  dependencyOutcome (liveById (Liveness.new records) records) edge = outcome) ↔
                ∃ index edge, Reported (Liveness.new other) anchorId other index edge ∧
                  dependencyOutcome (liveById (Liveness.new other) other) edge = outcome := by
              intro outcome
              constructor
              · rintro ⟨index, edge, report, reads⟩
                obtain ⟨index', edge', report', -, reads'⟩ := outcomeOf_eq_some_iff.mp
                  ((outcomes edge.id).symm.trans
                    (outcomeOf_eq_some_iff.mpr ⟨index, edge, report, rfl, reads⟩))
                exact ⟨index', edge', report', reads'⟩
              · rintro ⟨index, edge, report, reads⟩
                obtain ⟨index', edge', report', -, reads'⟩ := outcomeOf_eq_some_iff.mp
                  ((outcomes edge.id).trans
                    (outcomeOf_eq_some_iff.mpr ⟨index, edge, report, rfl, reads⟩))
                exact ⟨index', edge', report', reads'⟩
            have resolved : mine.dependencies = theirs.dependencies :=
              Std.ExtTreeMap.ext_getElem? fun {key} => Option.ext fun row => by
                rw [rows.dependencies, rows'.dependencies, exists_iff]
            have unresolved : mine.unresolved = theirs.unresolved :=
              Std.ExtTreeMap.ext_getElem? fun {key} => Option.ext fun row => by
                rw [rows.unresolved, rows'.unresolved, exists_iff]
            rw [resolved, unresolved]
            exact ⟨rfl, rfl⟩

end Spec

end Egregore
