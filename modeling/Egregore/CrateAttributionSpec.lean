import Egregore.Base.Text
import Egregore.CrateAttribution

/-!
# The nearest enclosing manifest

A fact speaks for its directory if no other fact for the same manifest sorts before it. The walk
answers for the deepest directory above the path whose fact is not virtual, and the reader accepts
every answer that names a valid package. `attributionFor_nearest` connects the index, which keeps
one fact for each directory, to the facts as they were scanned.
-/

namespace Egregore

open Base

/-- The directory of a path, by its segments. -/
def directorySegments (path : String) : List (List Char) := (pathSegments path).dropLast

/-- The manifest's directory is above the path or holds it. -/
def ManifestPackageFact.Encloses (fact : ManifestPackageFact) (path : String) : Prop :=
  directorySegments fact.manifestRepoRelativePath <+: directorySegments path

/-- A fact with a usable path that sorts first among the facts for its manifest. -/
structure Speaks (facts : List ManifestPackageFact) (fact : ManifestPackageFact) : Prop where
  member : fact ∈ facts
  usable : manifestPathIsRepoRelative fact.manifestRepoRelativePath = true
  first : ∀ other ∈ facts, other.manifestRepoRelativePath = fact.manifestRepoRelativePath →
    factOrder fact other ≠ .gt

/-- The attribution that the facts give to a path. -/
inductive Attribution (facts : List ManifestPackageFact) (path : String) : CrateAttribution → Prop
  | decided {attribution : CrateAttribution} (fact : ManifestPackageFact)
      (speaks : Speaks facts fact) (encloses : fact.Encloses path)
      (answers : fact.outcome.attribution fact.manifestRepoRelativePath = some attribution)
      (deepest : ∀ other, Speaks facts other → other.Encloses path → other.outcome ≠ .virtual →
        (directorySegments other.manifestRepoRelativePath).length ≤
          (directorySegments fact.manifestRepoRelativePath).length) :
      Attribution facts path attribution
  | virtualOnly (fact : ManifestPackageFact) (speaks : Speaks facts fact)
      (encloses : fact.Encloses path)
      (allVirtual : ∀ other, Speaks facts other → other.Encloses path → other.outcome = .virtual) :
      Attribution facts path (.unattributed .virtualManifestOnly)
  | unenclosed (none : ∀ other, Speaks facts other → ¬ other.Encloses path) :
      Attribution facts path (.unattributed .noEnclosingManifest)

section Segments

/-- Segments of which each names something. -/
def Named (segments : List (List Char)) : Prop :=
  ∀ segment ∈ segments, segment ≠ [] ∧ '/' ∉ segment

/-- The segments of a repository path have names. -/
theorem named_pathSegments {path : String} (safe : isRepoRelativePath path = true) :
    Named (pathSegments path) := by
  intro segment member
  refine ⟨?_, not_mem_of_mem_splitOn member⟩
  rintro rfl
  simp only [isRepoRelativePath, ite_eq_iff, Bool.false_eq_true, and_false, false_or] at safe
  simp only [Bool.not_eq_true', List.any_eq_false] at safe
  exact absurd (safe.2.2.2 [] member) (by simp)

/-- So have those of its directory. -/
theorem named_directorySegments {path : String} (safe : isRepoRelativePath path = true) :
    Named (directorySegments path) :=
  fun segment member => named_pathSegments safe segment (List.mem_of_mem_dropLast member)

/-- The segments make up the path. -/
theorem joinSegments_pathSegments (path : String) : joinSegments (pathSegments path) = path := by
  rw [joinSegments, pathSegments, List.intercalate_splitOn, String.ofList_toList]

/-- Named segments can be told from the path they make up. -/
theorem joinSegments_inj {segments others : List (List Char)} (named : Named segments)
    (named' : Named others) : joinSegments segments = joinSegments others ↔ segments = others := by
  have split {segments : List (List Char)} (named : Named segments) (nonempty : segments ≠ []) :
      (['/'].intercalate segments).splitOn '/' = segments :=
    List.splitOn_intercalate _ (fun segment member => (named segment member).2) nonempty
  have empty {segments : List (List Char)} (named : Named segments)
      (joined : ['/'].intercalate segments = []) : segments = [] := by
    by_contra nonempty
    have pieces := split named nonempty
    rw [joined, List.splitOn_nil] at pieces
    exact (named [] (by simp [← pieces])).1 rfl
  refine ⟨fun same => ?_, congrArg _⟩
  have same : ['/'].intercalate segments = ['/'].intercalate others :=
    String.ofList_injective same
  by_cases none : segments = []
  · subst none
    exact (empty named' same.symm).symm
  · by_cases none' : others = []
    · subst none'
      exact empty named same
    · rw [← split named none, same, split named' none']

/-- No segment of a repository path is empty. -/
theorem filter_pathSegments {path : String} (safe : isRepoRelativePath path = true) :
    ((pathSegments path).filter fun segment => segment ≠ []) = pathSegments path :=
  List.filter_eq_self.mpr fun segment member => by
    simpa using (named_pathSegments safe segment member).1

/-- The ancestors of a path are the prefixes of its directory, the nearest first. -/
theorem ancestorDirs_of_safe {path : String} (safe : isRepoRelativePath path = true) :
    ancestorDirs path = (ancestors (directorySegments path)).map joinSegments := by
  rw [ancestorDirs, filter_pathSegments safe, directorySegments]

/-- The reader's test for enclosure passes where the segments are a prefix. -/
theorem manifestEncloses_of_prefix {manifest path : String}
    (usable : isRepoRelativePath manifest = true) (safe : isRepoRelativePath path = true)
    (encloses : directorySegments manifest <+: directorySegments path) :
    manifestEncloses manifest path = true := by
  rw [manifestEncloses, safe, Bool.true_and, filter_pathSegments usable, ancestorDirs_of_safe safe]
  exact decide_eq_true (List.mem_map.mpr ⟨_, mem_ancestors.mpr encloses, rfl⟩)

end Segments

section Index

variable {facts : List ManifestPackageFact}

/-- The outcome of a manifest is its variant and its name. -/
theorem outcome_ext {outcome other : ManifestParseOutcome}
    (sameVariant : outcome.variant = other.variant)
    (sameName : outcome.packageName = other.packageName) : outcome = other := by
  cases outcome <;> cases other <;>
    simp_all [ManifestParseOutcome.variant, ManifestParseOutcome.packageName]

instance : Std.LawfulEqCmp factOrder where
  eq_of_compare {fact other} same := by
    obtain ⟨path, outcome⟩ := fact
    obtain ⟨path', outcome'⟩ := other
    simp only [factOrder, compareLex, compareOn, Ordering.then_eq_eq,
      Std.LawfulEqCmp.compare_eq_iff_eq] at same
    obtain ⟨samePath, sameVariant, sameName⟩ := same
    rw [asBytes_injective samePath, outcome_ext sameVariant (asBytes_injective sameName)]

instance : Std.Total fun fact other => factOrder fact other ≠ .gt where
  total fact other := by
    by_contra both
    simp only [not_or, not_not] at both
    exact absurd (Std.OrientedCmp.lt_of_gt both.1) (by simp [both.2])

instance : IsTrans ManifestPackageFact fun fact other => factOrder fact other ≠ .gt where
  trans _ _ _ le le' := Ordering.ne_gt_iff_isLE.mpr
    (Std.TransCmp.isLE_trans (Ordering.ne_gt_iff_isLE.mp le) (Ordering.ne_gt_iff_isLE.mp le'))

/-- Facts that are not after one another are one fact. -/
theorem factOrder_antisymm {fact other : ManifestPackageFact} (le : factOrder fact other ≠ .gt)
    (ge : factOrder other fact ≠ .gt) : fact = other := by
  cases order : factOrder fact other with
  | eq => exact Std.LawfulEqCmp.eq_of_compare order
  | lt => exact absurd (Std.OrientedCmp.gt_of_lt order) ge
  | gt => exact absurd order le

/-- The facts are sorted. -/
theorem sorted_sortFacts :
    (sortFacts facts).Pairwise fun fact other => factOrder fact other ≠ .gt :=
  List.pairwise_insertionSort _ facts

/-- Sorting loses no fact. -/
theorem mem_sortFacts {fact : ManifestPackageFact} : fact ∈ sortFacts facts ↔ fact ∈ facts :=
  (List.perm_insertionSort _ facts).mem_iff

/-- The index does not depend on the order of the facts. -/
theorem fromFacts_perm {others : List ManifestPackageFact} (same : facts.Perm others) :
    CrateAttributionIndex.fromFacts facts = CrateAttributionIndex.fromFacts others := by
  have sorted : sortFacts facts = sortFacts others := by
    apply List.Perm.eq_of_pairwise (fun _ _ _ _ => factOrder_antisymm) sorted_sortFacts
      sorted_sortFacts
    exact (List.perm_insertionSort _ facts).trans
      (same.trans (List.perm_insertionSort _ others).symm)
  rw [CrateAttributionIndex.fromFacts, CrateAttributionIndex.fromFacts, sorted]

/-- The fact that the index keeps for a directory. -/
def keptFact (facts : List ManifestPackageFact) (dir : String) : Option ManifestPackageFact :=
  (sortFacts facts).find? fun fact => fact.directoryKey = some dir

/-- Both maps hold the first fact of a directory. -/
theorem getElem?_foldl_addFact (dir : String) :
    (facts.foldl CrateAttributionIndex.addFact {}).byDir[dir]? =
        (facts.find? fun fact => fact.directoryKey = some dir).map ManifestPackageFact.outcome ∧
      (facts.foldl CrateAttributionIndex.addFact {}).manifestByDir[dir]? =
        (facts.find? fun fact => fact.directoryKey = some dir).map
          ManifestPackageFact.manifestRepoRelativePath := by
  induction facts using List.reverseRecOn generalizing dir with
  | nil => simp
  | append_singleton facts last ih =>
    rw [List.foldl_append, List.foldl_cons, List.foldl_nil, List.find?_append,
      CrateAttributionIndex.addFact]
    cases keyed : last.directoryKey with
    | none => simpa [keyed] using ih dir
    | some own =>
      have known : own ∈ (facts.foldl CrateAttributionIndex.addFact {}).byDir ↔
          (facts.find? fun fact => fact.directoryKey = some own).isSome := by
        rw [Std.ExtTreeMap.mem_iff_isSome_getElem?, (ih own).1, Option.isSome_map]
      by_cases same : own = dir
      · subst same
        cases found : facts.find? fun fact => fact.directoryKey = some own with
        | none => simp [known, found, keyed]
        | some fact => simpa [known, found, keyed] using ih own
      · have other : (some own = some dir) = False := by simp [same]
        simp only [List.find?_cons, List.find?_nil, keyed, other, decide_false, Option.or_none]
        split
        · exact ih dir
        · simpa only [getElem?_insert_eq, same, if_false] using ih dir

/-- A directory has the outcome and the manifest of its kept fact. -/
theorem getElem?_fromFacts (dir : String) :
    (CrateAttributionIndex.fromFacts facts).byDir[dir]? =
        (keptFact facts dir).map ManifestPackageFact.outcome ∧
      (CrateAttributionIndex.fromFacts facts).manifestByDir[dir]? =
        (keptFact facts dir).map ManifestPackageFact.manifestRepoRelativePath :=
  getElem?_foldl_addFact dir

/-- The key of a fact is the directory of its manifest. -/
theorem directoryKey_eq_some_iff {segments : List (List Char)} (named : Named segments)
    {fact : ManifestPackageFact} :
    fact.directoryKey = some (joinSegments segments) ↔
      manifestPathIsRepoRelative fact.manifestRepoRelativePath = true ∧
        directorySegments fact.manifestRepoRelativePath = segments := by
  rw [ManifestPackageFact.directoryKey, Option.ite_none_right_eq_some, Option.some.injEq]
  refine and_congr_right fun usable => ?_
  have safe := (Bool.and_eq_true_iff.mp usable).1
  exact joinSegments_inj (named_directorySegments safe) named

/-- A directory has one manifest. -/
theorem manifest_eq {path other : String} (usable : manifestPathIsRepoRelative path = true)
    (usable' : manifestPathIsRepoRelative other = true)
    (same : directorySegments path = directorySegments other) : path = other := by
  have whole {path : String} (usable : manifestPathIsRepoRelative path = true) :
      pathSegments path = directorySegments path ++ [manifestFileName.toList] := by
    have last := of_decide_eq_true (Bool.and_eq_true_iff.mp usable).2
    exact (List.dropLast_append_getLast? _ last).symm
  rw [← joinSegments_pathSegments path, whole usable, same, ← whole usable',
    joinSegments_pathSegments]

/-- A directory of named segments keeps the fact that speaks for it. -/
theorem keptFact_eq_some_iff {segments : List (List Char)} (named : Named segments)
    {fact : ManifestPackageFact} :
    keptFact facts (joinSegments segments) = some fact ↔
      Speaks facts fact ∧ directorySegments fact.manifestRepoRelativePath = segments := by
  have speaks {fact : ManifestPackageFact}
      (kept : keptFact facts (joinSegments segments) = some fact) :
      Speaks facts fact ∧ directorySegments fact.manifestRepoRelativePath = segments := by
    obtain ⟨keyed, before, after, listed, none⟩ := List.find?_eq_some_iff_append.mp kept
    obtain ⟨usable, rfl⟩ := (directoryKey_eq_some_iff named).mp (of_decide_eq_true keyed)
    refine ⟨⟨?_, usable, ?_⟩, rfl⟩
    · rw [← mem_sortFacts, listed]
      simp
    · intro other member samePath
      have keyed' : other.directoryKey = fact.directoryKey := by
        rw [ManifestPackageFact.directoryKey, ManifestPackageFact.directoryKey, samePath]
      rw [← mem_sortFacts, listed] at member
      have sorted : (sortFacts facts).Pairwise fun fact other => factOrder fact other ≠ .gt :=
        sorted_sortFacts
      rw [listed, List.pairwise_append] at sorted
      rcases List.mem_append.mp member with early | late
      · have := none other early
        simp_all
      · rcases List.mem_cons.mp late with rfl | late
        · simp [Std.ReflCmp.compare_self]
        · exact (List.pairwise_cons.mp sorted.2.1).1 other late
  refine ⟨speaks, ?_⟩
  rintro ⟨said, rfl⟩
  have keyed := (directoryKey_eq_some_iff named).mpr ⟨said.usable, rfl⟩
  cases kept : keptFact facts (joinSegments (directorySegments fact.manifestRepoRelativePath)) with
  | none =>
    have none := List.find?_eq_none.mp kept fact (mem_sortFacts.mpr said.member)
    exact absurd (decide_eq_true keyed) none
  | some other =>
    obtain ⟨said', same⟩ := speaks kept
    have samePath := manifest_eq said'.usable said.usable same
    rw [factOrder_antisymm (said'.first fact said.member samePath.symm)
      (said.first other said'.member samePath)]

/-- The answer of the manifest in a directory. -/
def CrateAttributionIndex.answer (index : CrateAttributionIndex) (dir : String) :
    Option CrateAttribution :=
  index.byDir[dir]?.bind fun outcome => outcome.attribution ((index.manifestByDir[dir]?).getD "")

/-- The walk stops at the first answer. -/
theorem walk_eq (index : CrateAttributionIndex) (sawVirtual : Bool) (dirs : List String) :
    index.walk sawVirtual dirs = (dirs.findSome? index.answer).getD
      (.unattributed (if sawVirtual = true ∨ ∃ dir ∈ dirs, dir ∈ index.byDir
        then .virtualManifestOnly else .noEnclosingManifest)) := by
  induction dirs generalizing sawVirtual with
  | nil => simp [CrateAttributionIndex.walk]
  | cons dir outer ih =>
    rw [CrateAttributionIndex.walk, List.findSome?_cons, CrateAttributionIndex.answer]
    cases found : index.byDir[dir]? with
    | none =>
      have absent : dir ∉ index.byDir := by
        rw [Std.ExtTreeMap.mem_iff_isSome_getElem?, found]
        decide
      simp [ih, absent]
    | some outcome =>
      have present : dir ∈ index.byDir := by
        rw [Std.ExtTreeMap.mem_iff_isSome_getElem?, found]
        rfl
      cases answered : outcome.attribution ((index.manifestByDir[dir]?).getD "") with
      | none => simp [answered, ih, present]
      | some attribution => simp [answered]

/-- Only a virtual manifest attributes nothing. -/
theorem attribution_eq_none_iff {outcome : ManifestParseOutcome} {manifest : String} :
    outcome.attribution manifest = none ↔ outcome = .virtual := by
  cases outcome <;> simp [ManifestParseOutcome.attribution]

/-- The answer for a directory is that of its kept fact. -/
theorem answer_fromFacts (dir : String) :
    (CrateAttributionIndex.fromFacts facts).answer dir = (keptFact facts dir).bind fun fact =>
      fact.outcome.attribution fact.manifestRepoRelativePath := by
  rw [CrateAttributionIndex.answer, (getElem?_fromFacts dir).1, (getElem?_fromFacts dir).2]
  cases keptFact facts dir <;> rfl

/-- The walk finds what the facts give to the path. -/
theorem attribution_attributionFor {path : String} (safe : isRepoRelativePath path = true) :
    Attribution facts path ((CrateAttributionIndex.fromFacts facts).attributionFor path) := by
  have named {dir : List (List Char)} (above : dir <+: directorySegments path) : Named dir :=
    fun segment member => named_directorySegments safe segment (above.subset member)
  have kept {dir : List (List Char)} (above : dir <+: directorySegments path)
      {fact : ManifestPackageFact} : keptFact facts (joinSegments dir) = some fact ↔
        Speaks facts fact ∧ directorySegments fact.manifestRepoRelativePath = dir :=
    keptFact_eq_some_iff (named above)
  have answers {fact : ManifestPackageFact} (speaks : Speaks facts fact)
      (encloses : fact.Encloses path) : (CrateAttributionIndex.fromFacts facts).answer
        (joinSegments (directorySegments fact.manifestRepoRelativePath)) =
          fact.outcome.attribution fact.manifestRepoRelativePath := by
    rw [answer_fromFacts, (kept encloses).mpr ⟨speaks, rfl⟩, Option.bind_some]
  rw [CrateAttributionIndex.attributionFor, ancestorDirs_of_safe safe, walk_eq, List.findSome?_map]
  cases found : (ancestors (directorySegments path)).findSome?
      ((CrateAttributionIndex.fromFacts facts).answer ∘ joinSegments) with
  | some attribution =>
    obtain ⟨nearest, above, answered, none⟩ := findSome?_ancestors_eq_some_iff.mp found
    rw [Function.comp_apply, answer_fromFacts, Option.bind_eq_some_iff] at answered
    obtain ⟨fact, held, answered⟩ := answered
    obtain ⟨speaks, rfl⟩ := (kept above).mp held
    refine .decided fact speaks above answered fun other speaks' encloses notVirtual => ?_
    by_contra longer
    have silent := none _ encloses (not_le.mp longer)
    rw [Function.comp_apply, answers speaks' encloses] at silent
    exact notVirtual (attribution_eq_none_iff.mp silent)
  | none =>
    have silent : ∀ fact, Speaks facts fact → fact.Encloses path → fact.outcome = .virtual := by
      intro fact speaks encloses
      have silent := findSome?_ancestors_eq_none_iff.mp found _ encloses
      rw [Function.comp_apply, answers speaks encloses] at silent
      exact attribution_eq_none_iff.mp silent
    have passed : (∃ dir ∈ (ancestors (directorySegments path)).map joinSegments,
        dir ∈ (CrateAttributionIndex.fromFacts facts).byDir) ↔
          ∃ fact, Speaks facts fact ∧ fact.Encloses path := by
      simp only [List.mem_map, exists_exists_and_eq_and, mem_ancestors,
        Std.ExtTreeMap.mem_iff_isSome_getElem?,
        (getElem?_fromFacts _).1, Option.isSome_map, Option.isSome_iff_exists]
      constructor
      · rintro ⟨dir, above, fact, held⟩
        obtain ⟨speaks, rfl⟩ := (kept above).mp held
        exact ⟨fact, speaks, above⟩
      · rintro ⟨fact, speaks, encloses⟩
        exact ⟨_, encloses, fact, (kept encloses).mpr ⟨speaks, rfl⟩⟩
    rw [Option.getD_none]
    split
    · next some =>
      obtain ⟨fact, speaks, encloses⟩ := passed.mp (some.resolve_left Bool.false_ne_true)
      exact .virtualOnly fact speaks encloses silent
    · next none =>
      refine .unenclosed fun fact speaks encloses => none (Or.inr ?_)
      exact passed.mpr ⟨fact, speaks, encloses⟩

/-- The reader accepts what the facts give to a path, if it names a valid package. -/
theorem Attribution.isPresentableFor {unicode : UnicodeIdent} {path : String}
    {attribution : CrateAttribution} (given : Attribution facts path attribution)
    (safe : isRepoRelativePath path = true)
    (valid : ∀ name, attribution.packageName = some name →
      packageNameIsValid unicode name = true) :
    attribution.isPresentableFor unicode path = true := by
  have reason (reason : CrateAttributionReason) :
      (CrateAttribution.unattributed reason).isPresentableFor unicode path = true := by
    simp [CrateAttribution.isPresentableFor, CrateAttribution.provenUnattributedReasonFor,
      CrateAttribution.provenUnattributedReason, CrateAttribution.unattributed, safe]
  cases given with
  | virtualOnly => exact reason _
  | unenclosed => exact reason _
  | decided fact speaks encloses answers deepest =>
    cases outcome : fact.outcome with
    | virtual => simp [outcome, ManifestParseOutcome.attribution] at answers
    | package name =>
      rw [outcome, ManifestParseOutcome.attribution, Option.some.injEq] at answers
      subst answers
      have named : packageNameIsValid unicode name = true := valid name rfl
      have cited := manifestEncloses_of_prefix (Bool.and_eq_true_iff.mp speaks.usable).1 safe
        encloses
      simp [CrateAttribution.isPresentableFor, CrateAttribution.owningPackageFor,
        CrateAttribution.owningPackage, CrateAttribution.attributed, named, speaks.usable, cited]
    | unnamedPackage =>
      rw [outcome, ManifestParseOutcome.attribution, Option.some.injEq] at answers
      exact answers ▸ reason _
    | unusableManifest =>
      rw [outcome, ManifestParseOutcome.attribution, Option.some.injEq] at answers
      exact answers ▸ reason _
    | unparseable =>
      rw [outcome, ManifestParseOutcome.attribution, Option.some.injEq] at answers
      exact answers ▸ reason _
    | unreadable =>
      rw [outcome, ManifestParseOutcome.attribution, Option.some.injEq] at answers
      exact answers ▸ reason _

end Index

section Attribution

/-- The attribution of a path is that of its nearest enclosing manifest that is not virtual, whatever
the order of the facts, and the reader accepts it. -/
theorem attributionFor_nearest (unicode : UnicodeIdent) (facts : List ManifestPackageFact)
    (path : String) (safe : isRepoRelativePath path = true) :
    Attribution facts path ((CrateAttributionIndex.fromFacts facts).attributionFor path) ∧
      (∀ others, facts.Perm others →
        (CrateAttributionIndex.fromFacts others).attributionFor path =
          (CrateAttributionIndex.fromFacts facts).attributionFor path) ∧
      ((∀ name, ((CrateAttributionIndex.fromFacts facts).attributionFor path).packageName =
            some name → packageNameIsValid unicode name = true) →
        ((CrateAttributionIndex.fromFacts facts).attributionFor path).isPresentableFor unicode path =
          true) := by
  have given : Attribution facts path _ := attribution_attributionFor safe
  refine ⟨given, fun others same => ?_, fun valid => given.isPresentableFor safe valid⟩
  rw [fromFacts_perm same]

def workspaceFacts : List ManifestPackageFact :=
  [⟨"Cargo.toml", .virtual⟩, ⟨"crates/egregore/Cargo.toml", .package "egregore"⟩]

/-- A file below a package in a virtual workspace. -/
theorem attributionFor_workspace :
    ((CrateAttributionIndex.fromFacts workspaceFacts).attributionFor
        "crates/egregore/src/lib.rs").isPresentableFor ⟨Char.isAlpha, Char.isAlphanum⟩
      "crates/egregore/src/lib.rs" = true := by
  refine (attributionFor_nearest _ workspaceFacts _ (by decide)).2.2 fun name named => ?_
  have owner : ((CrateAttributionIndex.fromFacts workspaceFacts).attributionFor
      "crates/egregore/src/lib.rs").packageName = some "egregore" := by decide
  obtain rfl := Option.some.inj (owner.symm.trans named)
  decide

end Attribution

end Egregore
