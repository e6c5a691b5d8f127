import Egregore.Cli.ContextPack

/-!
# Rows of context packs

Every row of an answer has one candidate, the candidates are in one order, and the masks of some
candidates keep their rows in the order of the sections. `keptRows_masksOf` connects the masks that
the pack is built with to the rows that it shows.
-/

namespace Egregore

open Base

/-! ## Places -/

/-- Where the row of a candidate stands. -/
def PackKey.place (key : PackKey) : Nat × Nat := (key.sectionIdx, key.rowIdx)

def PackCandidate.place (candidate : PackCandidate) : Nat × Nat := candidate.key.place

/-- The places of some sections. -/
def placesOf (sections : List (PackSection × List RowValue)) : List (Nat × Nat) :=
  sections.zipIdx.flatMap fun entry => (List.range entry.1.2.length).map fun row => (entry.2, row)

theorem placesOf_concat (sections : List (PackSection × List RowValue))
    (added : PackSection × List RowValue) :
    placesOf (sections ++ [added]) =
      placesOf sections ++ (List.range added.2.length).map fun row => (sections.length, row) := by
  simp [placesOf, List.zipIdx_append]

theorem mem_placesOf {sections : List (PackSection × List RowValue)} {place : Nat × Nat} :
    place ∈ placesOf sections ↔
      ∃ answer, sections[place.1]? = some answer ∧ place.2 < answer.2.length := by
  rw [placesOf, List.mem_flatMap]
  constructor
  · rintro ⟨⟨answer, index⟩, found, member⟩
    obtain ⟨row, inside, rfl⟩ := List.mem_map.mp member
    exact ⟨answer, List.mem_zipIdx_iff_getElem?.mp found, List.mem_range.mp inside⟩
  · rintro ⟨answer, found, inside⟩
    exact ⟨(answer, place.1), List.mem_zipIdx_iff_getElem?.mpr found,
      List.mem_map.mpr ⟨place.2, List.mem_range.mpr inside, rfl⟩⟩

theorem nodup_placesOf (sections : List (PackSection × List RowValue)) :
    (placesOf sections).Nodup := by
  induction sections using List.reverseRecOn with
  | nil => exact List.nodup_nil
  | append_singleton sections added ih =>
      rw [placesOf_concat]
      apply ih.append
      · apply List.Nodup.map _ List.nodup_range
        exact fun row other same => (Prod.mk.inj same).2
      · intro place earlier new
        obtain ⟨answer, found, -⟩ := mem_placesOf.mp earlier
        obtain ⟨row, -, rfl⟩ := List.mem_map.mp new
        rw [List.getElem?_eq_none (Nat.le_refl _)] at found
        cases found

namespace PackBuilder

/-- A pushed section adds a candidate for each of its rows. -/
theorem places_push {builder : PackBuilder}
    (indexed : builder.candidates.map PackCandidate.place = placesOf builder.sections)
    (kind : PackSection) (rows : List PushedRow) :
    (builder.push kind rows).candidates.map PackCandidate.place =
      placesOf (builder.push kind rows).sections := by
  rw [push, placesOf_concat, List.map_append, indexed, List.length_map]
  congr 1
  apply List.ext_getElem?
  intro index
  rw [List.getElem?_map, List.getElem?_mapIdx, List.getElem?_map]
  by_cases inside : index < rows.length
  · rw [List.getElem?_eq_getElem inside, List.getElem?_range inside]
    rfl
  · rw [List.getElem?_eq_none (Nat.le_of_not_lt inside),
      List.getElem?_eq_none (by simpa using inside)]
    rfl

/-- Every row of the answer has one candidate. -/
theorem places_pushAnswerSections (sections : ContextSections) (driftHistory : List ContextRow) :
    (pushAnswerSections sections driftHistory).candidates.map PackCandidate.place =
      placesOf (pushAnswerSections sections driftHistory).sections := by
  have pushes : ∀ (answers : List (PackSection × List PushedRow)) (builder : PackBuilder),
      builder.candidates.map PackCandidate.place = placesOf builder.sections →
        (answers.foldl (fun builder answer => builder.push answer.1 answer.2)
          builder).candidates.map PackCandidate.place =
          placesOf (answers.foldl (fun builder answer => builder.push answer.1 answer.2)
            builder).sections := by
    intro answers
    induction answers with
    | nil => exact fun _ indexed => indexed
    | cons answer answers ih =>
        exact fun builder indexed => ih _ (places_push indexed answer.1 answer.2)
  exact pushes _ {} rfl

end PackBuilder

/-! ## Priority -/

section Priority

instance : Std.TransCmp fun key other : PackKey => byteOrder key.recordId other.recordId :=
  inferInstanceAs (Std.TransCmp (compareOn fun key : PackKey => asBytes key.recordId))

instance : Std.TransCmp PackKey.order := by
  unfold PackKey.order
  infer_instance

theorem PackKey.eq_of_order {key other : PackKey} (same : key.order other = .eq) : key = other := by
  obtain ⟨trust, relevance, recordId, sectionIdx, rowIdx⟩ := key
  obtain ⟨trust', relevance', recordId', sectionIdx', rowIdx'⟩ := other
  simp only [PackKey.order, compareLex, compareOn, Ordering.then_eq_eq,
    Std.LawfulEqCmp.compare_eq_iff_eq] at same
  obtain ⟨rfl, rfl, rfl, rfl, rfl⟩ := same
  rfl

instance : Std.Total fun candidate other : PackCandidate => candidate.key.order other.key ≠ .gt where
  total candidate other := by
    by_contra both
    simp only [not_or, not_not] at both
    exact absurd (Std.OrientedCmp.lt_of_gt both.1) (by simp [both.2])

instance : IsTrans PackCandidate fun candidate other => candidate.key.order other.key ≠ .gt where
  trans _ _ _ le le' := Ordering.ne_gt_iff_isLE.mpr
    (Std.TransCmp.isLE_trans (Ordering.ne_gt_iff_isLE.mp le) (Ordering.ne_gt_iff_isLE.mp le'))

theorem perm_sortByKey (candidates : List PackCandidate) :
    (sortByKey candidates).Perm candidates :=
  List.perm_insertionSort _ candidates

/-- Candidates of different places are sorted without draws. -/
theorem sorted_sortByKey {candidates : List PackCandidate}
    (apart : (candidates.map PackCandidate.place).Nodup) :
    (sortByKey candidates).Pairwise fun candidate later =>
      candidate.key.order later.key = .lt := by
  have sorted : (sortByKey candidates).Pairwise fun candidate later =>
      candidate.key.order later.key ≠ .gt := List.pairwise_insertionSort _ candidates
  have places : (sortByKey candidates).Pairwise fun candidate later =>
      candidate.place ≠ later.place := by
    rw [← List.pairwise_map]
    exact ((perm_sortByKey candidates).map PackCandidate.place).nodup_iff.mpr apart
  refine (sorted.and places).imp fun {candidate later} both => ?_
  cases compared : candidate.key.order later.key with
  | lt => rfl
  | eq => exact absurd (congrArg PackKey.place (PackKey.eq_of_order compared)) both.2
  | gt => exact absurd compared both.1

end Priority

/-! ## Masks -/

section Masks

variable {sections : List (PackSection × List RowValue)}

/-- A place is that of one of the candidates. -/
def keepsPlace (kept : List PackCandidate) (sectionIdx rowIdx : Nat) : Bool :=
  kept.any fun candidate => candidate.place = (sectionIdx, rowIdx)

/-- The rows of a section whose places are kept, in the order of the section. -/
def rowsKept (sections : List (PackSection × List RowValue)) (kept : List PackCandidate)
    (sectionIdx : Nat) : List RowValue :=
  match sections[sectionIdx]? with
  | some answer => (answer.2.zipIdx.filter fun entry => keepsPlace kept sectionIdx entry.2).map Prod.fst
  | none => []

/-- The masks hold the places of the candidates. -/
theorem getElem?_masksOf (kept : List PackCandidate) (sectionIdx : Nat) :
    (masksOf sections kept)[sectionIdx]? =
      sections[sectionIdx]?.map fun answer =>
        answer.2.mapIdx fun rowIdx _ => keepsPlace kept sectionIdx rowIdx := by
  induction kept using List.reverseRecOn with
  | nil =>
      rw [masksOf, List.foldl_nil, List.getElem?_map]
      congr 1
      funext answer
      apply List.ext_getElem?
      intro index
      rw [List.getElem?_map, List.getElem?_mapIdx]
      rfl
  | append_singleton kept last ih =>
      rw [masksOf, List.foldl_append, List.foldl_cons, List.foldl_nil, ← masksOf,
        List.getElem?_modify, ih]
      cases sections[sectionIdx]? with
      | none => simp
      | some answer =>
          rw [Option.map_some, Option.map_some]
          by_cases same : last.key.sectionIdx = sectionIdx
          · simp only [same, if_true, Option.map_eq_map, Option.map_some]
            refine congrArg some (List.ext_getElem? fun index => ?_)
            rw [List.getElem?_set, List.getElem?_mapIdx, List.getElem?_mapIdx, List.length_mapIdx]
            by_cases here : last.key.rowIdx = index
            · subst here same
              by_cases inside : last.key.rowIdx < answer.2.length
              · simp [inside, keepsPlace, PackCandidate.place, PackKey.place]
              · simp [inside]
            · simp [here, keepsPlace, PackCandidate.place, PackKey.place]
          · simp [same, keepsPlace, PackCandidate.place, PackKey.place]

/-- Filtering by a mask along the rows. -/
theorem filter_zip_mapIdx {Row : Type} (rows : List Row) (keeps : Nat → Bool) :
    ((rows.zip (rows.mapIdx fun rowIdx _ => keeps rowIdx)).filter Prod.snd).map Prod.fst =
      (rows.zipIdx.filter fun entry => keeps entry.2).map Prod.fst := by
  have paired : rows.zip (rows.mapIdx fun rowIdx _ => keeps rowIdx) =
      rows.zipIdx.map fun entry => (entry.1, keeps entry.2) := by
    rw [List.mapIdx_eq_zipIdx_map]
    conv_lhs => rw [← List.zipIdx_map_fst 0 rows]
    rw [List.zipIdx_map_fst, ← List.zip_map', List.zipIdx_map_fst]
  rw [paired, List.filter_map, List.map_map]
  rfl

theorem keptRows_masksOf (kept : List PackCandidate) :
    keptRows sections (masksOf sections kept) = rowsKept sections kept := by
  funext sectionIdx
  rw [keptRows, getElem?_masksOf, rowsKept]
  cases sections[sectionIdx]? with
  | none => rfl
  | some answer => exact filter_zip_mapIdx answer.2 _

/-- The masks without a gap keep what all candidates keep. -/
theorem keptRows_all {kept : List PackCandidate}
    (covers : ∀ place ∈ placesOf sections, place ∈ kept.map PackCandidate.place) :
    keptRows sections (sections.map fun answer => answer.2.map fun _ => true) =
      rowsKept sections kept := by
  funext sectionIdx
  rw [keptRows, List.getElem?_map, rowsKept]
  cases found : sections[sectionIdx]? with
  | none => rfl
  | some answer =>
      have mask : (answer.2.map fun _ => true) =
          answer.2.mapIdx fun rowIdx _ => keepsPlace kept sectionIdx rowIdx := by
        apply List.ext_getElem?
        intro index
        rw [List.getElem?_map, List.getElem?_mapIdx]
        cases row : answer.2[index]? with
        | none => rfl
        | some value =>
            have inside := (List.getElem?_eq_some_iff.mp row).1
            obtain ⟨candidate, member, place⟩ :=
              List.mem_map.mp (covers (sectionIdx, index) (mem_placesOf.mpr ⟨answer, found, inside⟩))
            have keeps : keepsPlace kept sectionIdx index = true :=
              List.any_eq_true.mpr ⟨candidate, member, decide_eq_true place⟩
            rw [Option.map_some, Option.map_some, keeps]
      rw [Option.map_some, mask]
      exact filter_zip_mapIdx answer.2 _

end Masks

end Egregore
