import Egregore.Query.TransactionTime
import Mathlib.Data.Int.ConditionallyCompleteOrder
import Mathlib.Order.ConditionallyCompleteLattice.Basic
import Mathlib.Order.WithBot

/-!
# Removal in a view of history

What a row's removal depends on: the commits below the commit of its newest snapshot. A stable
ID that is still live on some line of history is spared if and only if the line of its newest
snapshot is such a line. `live_spared_iff` states this for a symbol that the query names, with
the instants that its text was parsed to.
-/

namespace Egregore

open Base

/-! ### The commit graph -/

/-- `child` was observed with `commit` among its parents. -/
def ChildCommit (nodes : List NodeRecord) (commit child : String) : Prop :=
  ∃ node ∈ nodes, ∃ temporal, node.temporal = some temporal ∧ temporal.gitCommit = child ∧
    commit ∈ temporal.gitParentCommits

/-- `descendant` is a child, or a child of a descendant. -/
abbrev Descends (nodes : List NodeRecord) (commit descendant : String) : Prop :=
  Relation.TransGen (ChildCommit nodes) commit descendant

/-- Pushing an item that is there already adds nothing. -/
@[simp] theorem mem_pushNew {items : List String} {item other : String} :
    other ∈ pushNew items item ↔ other ∈ items ∨ other = item := by
  rw [pushNew]
  split
  · constructor
    · exact Or.inl
    · rintro (member | rfl)
      · exact member
      · assumption
  · simp

/-- Pushing some items adds these. -/
theorem mem_foldl_pushNew {items more : List String} {other : String} :
    other ∈ more.foldl pushNew items ↔ other ∈ items ∨ other ∈ more := by
  induction more generalizing items with
  | nil => simp
  | cons item more ih => simp [ih, or_assoc]

/-- The parents collected for a commit. -/
theorem mem_commitParents {nodes : List NodeRecord} {commit parent : String} :
    parent ∈ (commitParents nodes).getD commit [] ↔ ChildCommit nodes parent commit := by
  induction nodes using List.reverseRecOn with
  | nil => simp [commitParents, ChildCommit]
  | append_singleton nodes node ih =>
      have grown : commitParents (nodes ++ [node]) =
          (node.temporal.map fun temporal =>
            (commitParents nodes).insert temporal.gitCommit
              (temporal.gitParentCommits.foldl pushNew
                ((commitParents nodes).getD temporal.gitCommit []))).getD (commitParents nodes) := by
        rw [commitParents, List.foldl_append]
        cases observed : node.temporal with
        | none => simp [observed, commitParents]
        | some temporal => simp [observed, commitParents]
      have split : ChildCommit (nodes ++ [node]) parent commit ↔
          ChildCommit nodes parent commit ∨ ∃ temporal, node.temporal = some temporal ∧
            temporal.gitCommit = commit ∧ parent ∈ temporal.gitParentCommits := by
        simp [ChildCommit, or_and_right, exists_or]
      rw [split, ← ih, grown]
      cases observed : node.temporal with
      | none => simp
      | some temporal =>
          simp only [Option.some.injEq, exists_eq_left', Option.map_some, Option.getD_some]
          rw [getD_insert_eq]
          by_cases same : temporal.gitCommit = commit
          · simp [same, mem_foldl_pushNew]
          · simp [same]

private def addChild (commit : String) (children : StrMap (List String)) (parent : String) :
    StrMap (List String) :=
  children.insert parent (pushNew (children.getD parent []) commit)

/-- A commit becomes a child of each of its parents. -/
private theorem mem_foldl_addChild {commit child parent : String} {children : StrMap (List String)}
    {ps : List String} :
    child ∈ (ps.foldl (addChild commit) children).getD parent [] ↔
      child ∈ children.getD parent [] ∨ child = commit ∧ parent ∈ ps := by
  induction ps generalizing children with
  | nil => simp
  | cons other ps ih =>
      rw [List.foldl_cons, ih, addChild, getD_insert_eq]
      by_cases same : other = parent
      · simp [same]
        tauto
      · simp [same, Ne.symm same]

/-- The children are the parents inverted. -/
theorem mem_commitChildren {parents : StrMap (List String)} {parent child : String} :
    child ∈ (commitChildren parents).getD parent [] ↔ parent ∈ parents.getD child [] := by
  have collected : ∀ (pairs : List (String × List String)) (children : StrMap (List String)),
      child ∈ (pairs.foldl
        (fun children pair => pair.2.foldl (addChild pair.1) children) children).getD parent [] ↔
        child ∈ children.getD parent [] ∨ ∃ ps, (child, ps) ∈ pairs ∧ parent ∈ ps := by
    intro pairs
    induction pairs with
    | nil => simp
    | cons pair pairs ih =>
        intro children
        obtain ⟨commit, ps⟩ := pair
        rw [List.foldl_cons, ih, mem_foldl_addChild]
        simp only [List.mem_cons, Prod.mk.injEq]
        constructor
        · rintro ((old | ⟨rfl, inside⟩) | ⟨ps', member, inside⟩)
          · exact Or.inl old
          · exact Or.inr ⟨ps, Or.inl ⟨rfl, rfl⟩, inside⟩
          · exact Or.inr ⟨ps', Or.inr member, inside⟩
        · rintro (old | ⟨ps', ⟨rfl, rfl⟩ | member, inside⟩)
          · exact Or.inl (Or.inl old)
          · exact Or.inl (Or.inr ⟨rfl, inside⟩)
          · exact Or.inr ⟨ps', member, inside⟩
  have all := collected parents.toList ∅
  have unfolded : commitChildren parents =
      parents.toList.foldl (fun children pair => pair.2.foldl (addChild pair.1) children) ∅ := rfl
  rw [unfolded, all]
  simp only [Std.ExtTreeMap.mem_toList_iff_getElem?_eq_some, Std.ExtTreeMap.getD_eq_getD_getElem?]
  cases found : parents[child]? with
  | none => simp
  | some ps => simp

/-- The walk over the children finds the strict descendants. -/
theorem mem_strictDescendants {records : List GraphRecord} {commit descendant : String} :
    descendant ∈ (CommitOrder.build records).strictDescendants commit ↔
      Descends (records.filterMap GraphRecord.node?) commit descendant := by
  have child : ∀ parent child, child ∈ (CommitOrder.build records).children.getD parent [] ↔
      ChildCommit (records.filterMap GraphRecord.node?) parent child := by
    intro parent child
    rw [CommitOrder.build, mem_commitChildren, mem_commitParents]
  generalize CommitOrder.build records = order at child
  have leaf : ∀ node, node ∉ order.children.toList.map Prod.fst →
      order.children.getD node [] = [] := by
    intro node absent
    rw [Std.ExtTreeMap.getD_eq_getD_getElem?]
    cases found : order.children[node]? with
    | none => rfl
    | some children =>
        have member := Std.ExtTreeMap.mem_toList_iff_getElem?_eq_some.mpr found
        exact absurd (List.mem_map_of_mem member) absent
  have enough : pendingPushes (fun commit => order.children.getD commit [])
      (order.children.toList.map Prod.fst) (order.children.getD commit []).reverse [] ≤
        (order.children.toList.map fun entry => entry.2.length).sum +
          (order.children.getD commit []).length := by
    have counts : (order.children.toList.map Prod.fst).map
        (fun node => (order.children.getD node []).length) =
          order.children.toList.map fun entry => entry.2.length := by
      rw [List.map_map]
      apply List.map_congr_left
      rintro ⟨node, children⟩ member
      have found := Std.ExtTreeMap.mem_toList_iff_getElem?_eq_some.mp member
      simp [Std.ExtTreeMap.getD_eq_getD_getElem?, found]
    simp [pendingPushes, ← counts]
    omega
  rw [CommitOrder.strictDescendants,
    mem_walk_iff _ _ leaf _ _ _ _ enough (by simp)]
  simp only [List.not_mem_nil, false_or, List.mem_reverse, child]
  constructor
  · rintro ⟨source, first, path⟩
    exact Relation.TransGen.head' first
      (Relation.ReflTransGen.mono (fun parent kid => (child parent kid).mp) _ _ path)
  · intro descends
    obtain ⟨source, first, path⟩ := Relation.TransGen.head'_iff.mp descends
    exact ⟨source, first,
      Relation.ReflTransGen.mono (fun parent kid => (child parent kid).mpr) _ _ path⟩

/-! ### Newest snapshots -/

/-- The instant a text reads as. -/
def ChronoText.instantOf (chrono : ChronoText) (text : Option String) : Option Instant :=
  text.bind fun text => (chrono.parseFromRfc3339 text).toOption

/-- A parsed time has the instant and the text that the parser gives it. -/
theorem parse_eq_ok_iff {chrono : ChronoText} {text : String} {time : DateTime} :
    chrono.parse text = .ok time ↔
      chrono.parseFromRfc3339 text = .ok time.instant ∧ time.rfc3339 = chrono.toRfc3339 text := by
  unfold ChronoText.parse
  cases chrono.parseFromRfc3339 text with
  | error fault => simp [Except.map]
  | ok instant =>
      constructor
      · intro same
        cases same
        exact ⟨rfl, rfl⟩
      · rintro ⟨same, written⟩
        cases time
        cases same
        cases written
        rfl

section

variable (chrono : ChronoText) (axes : TxAxes)

/-- When a version was known. -/
def knownAt (node : NodeRecord) : Option Instant :=
  chrono.instantOf (recordTransactionTime node)

/-- When a version became true, if the query asks for it. -/
def validAt (node : NodeRecord) : Option Instant :=
  axes.valid.bind fun _ => chrono.instantOf (nodeValidTime node)

variable {chrono axes} in
/-- A time that cannot be read is not in bounds. -/
theorem notAfter_iff {bound : Instant} {text : Option String} :
    chrono.notAfter bound text = true ↔
      ∃ instant, chrono.instantOf text = some instant ∧ instant ≤ bound := by
  cases text with
  | none => simp [ChronoText.notAfter, ChronoText.instantOf]
  | some text =>
      simp only [ChronoText.notAfter, ChronoText.instantOf, ChronoText.parse, Option.map_some,
        Option.bind_some]
      cases chrono.parseFromRfc3339 text with
      | error fault => simp [Except.map, Except.toOption]
      | ok instant => simp [Except.map, Except.toOption]

variable {chrono axes} in
/-- A version is in view when it was known by then, and valid by then if that is asked. -/
theorem TxAxes.inView_iff (node : NodeRecord) :
    axes.inView chrono node = true ↔
      (∃ known, knownAt chrono node = some known ∧ known ≤ axes.transaction) ∧
        ∀ requested, axes.valid = some requested →
          ∃ valid, validAt chrono axes node = some valid ∧ valid ≤ requested := by
  rw [TxAxes.inView, Bool.and_eq_true, notAfter_iff]
  refine and_congr Iff.rfl ?_
  cases requested : axes.valid with
  | none => simp
  | some requested =>
      simp only [Option.all_some, notAfter_iff, validAt, requested, Option.bind_some,
        Option.some.injEq, forall_eq']

/-- What versions of one ID are compared by: when they became true, if that was asked for, when
they were known, and the tie-break. -/
def versionKey (order : CommitOrder) (version : NodeRecord × Nat) :
    Lex (WithBot Instant × Lex (WithBot Instant × Nat)) :=
  toLex ((validAt chrono axes version.1).elim ⊥ WithBot.some,
    toLex ((knownAt chrono version.1).elim ⊥ WithBot.some, tieOf order version.1 version.2))

/-- The versions of an ID under a name that are in the view, with their places. -/
def versionsOf (records : List GraphRecord) (symbolName id : String) : List (NodeRecord × Nat) :=
  (namedSymbols records symbolName).zipIdx.filter fun version =>
    version.1.id = id && axes.inView chrono version.1

/-- The newest version of an ID in the view, the first one among equals. -/
def IsNewest (records : List GraphRecord) (symbolName id : String) (node : NodeRecord) : Prop :=
  ∃ earlier index later,
    versionsOf chrono axes records symbolName id = earlier ++ (node, index) :: later ∧
    (∀ version ∈ earlier,
      versionKey chrono axes (CommitOrder.build records) version <
        versionKey chrono axes (CommitOrder.build records) (node, index)) ∧
    ∀ version ∈ later,
      versionKey chrono axes (CommitOrder.build records) version ≤
        versionKey chrono axes (CommitOrder.build records) (node, index)

/-- The candidate that a version in the view becomes. -/
def toCandidate (order : CommitOrder) (version : NodeRecord × Nat) : TxCandidate where
  record := version.1
  transactionTime := (knownAt chrono version.1).getD axes.transaction
  validTime := validAt chrono axes version.1
  tie := tieOf order version.1 version.2

variable {chrono axes}

/-- The instant of a text is that of the time it parses as. -/
theorem instantOf_eq_some_iff {text : String} {instant : Instant} :
    chrono.instantOf (some text) = some instant ↔
      ∃ time, chrono.parse text = .ok time ∧ time.instant = instant := by
  simp only [ChronoText.instantOf, Option.bind_some, ChronoText.parse]
  cases chrono.parseFromRfc3339 text <;> simp [Except.toOption, Except.map]

/-- The scan makes no candidate of a version that is not in the view. -/
theorem scanNamed_candidate_none {order : CommitOrder} {node : NodeRecord} {index : Nat}
    (outside : ¬ axes.inView chrono node = true) :
    (scanNamed chrono order axes node index).candidate = none := by
  rw [TxAxes.inView_iff, not_and_or] at outside
  simp only [scanNamed]
  split
  · rfl
  · rename_i text isText
    split
    · rfl
    · rename_i known isKnown
      have reads : knownAt chrono node = some known.instant := by
        rw [knownAt, isText]
        exact instantOf_eq_some_iff.mpr ⟨known, isKnown, rfl⟩
      split
      · rfl
      · rename_i early
        have invalid := outside.resolve_left fun late =>
          late ⟨known.instant, reads, not_lt.mp early⟩
        split
        · rename_i unasked
          exact absurd (fun requested asked => by simp [unasked] at asked) invalid
        · rename_i requested asked
          split
          · rfl
          · rename_i text isText
            split
            · rfl
            · rename_i valid isValid
              split
              · rfl
              · rename_i notLater
                refine absurd (fun requested' asked' => ?_) invalid
                obtain rfl := Option.some.inj (asked.symm.trans asked')
                refine ⟨valid.instant, ?_, not_lt.mp notLater⟩
                rw [validAt, asked, Option.bind_some, isText]
                exact instantOf_eq_some_iff.mpr ⟨valid, isValid, rfl⟩

/-- The scan makes a candidate of a version in the view. -/
theorem scanNamed_candidate_some {order : CommitOrder} {node : NodeRecord} {index : Nat}
    (inside : axes.inView chrono node = true) :
    (scanNamed chrono order axes node index).candidate =
      some (toCandidate chrono axes order (node, index)) := by
  obtain ⟨⟨known, reads, early⟩, valid⟩ := (TxAxes.inView_iff node).mp inside
  obtain ⟨text, isText⟩ : ∃ text, recordTransactionTime node = some text := by
    cases isText : recordTransactionTime node with
    | none => simp [knownAt, isText, ChronoText.instantOf] at reads
    | some text => exact ⟨text, rfl⟩
  have read := reads
  rw [knownAt, isText, instantOf_eq_some_iff] at read
  obtain ⟨time, isTime, rfl⟩ := read
  simp only [scanNamed, isText, isTime, not_lt.mpr early, if_false, toCandidate, reads,
    Option.getD_some]
  cases asked : axes.valid with
  | none => simp [validAt, asked]
  | some requested =>
      obtain ⟨instant, isValid, notLater⟩ := valid requested asked
      obtain ⟨text, isText⟩ : ∃ text, nodeValidTime node = some text := by
        cases isText : nodeValidTime node with
        | none => simp [validAt, asked, isText, ChronoText.instantOf] at isValid
        | some text => exact ⟨text, rfl⟩
      have read := isValid
      rw [validAt, asked, Option.bind_some, isText, instantOf_eq_some_iff] at read
      obtain ⟨time, isTime, rfl⟩ := read
      simp only [isText, isTime, not_lt.mpr notLater, if_false, isValid]

/-- A version in view is a candidate with its position. -/
theorem scanNamed_candidate (order : CommitOrder) (node : NodeRecord) (index : Nat) :
    (scanNamed chrono order axes node index).candidate =
      if axes.inView chrono node then some (toCandidate chrono axes order (node, index))
      else none := by
  split
  · exact scanNamed_candidate_some ‹_›
  · exact scanNamed_candidate_none ‹_›

/-- The candidates of a query, in order. -/
def selectedVersions (chrono : ChronoText) (axes : TxAxes) (records : List GraphRecord)
    (symbolName : String) : List TxCandidate :=
  ((namedSymbols records symbolName).mapIdx fun index node =>
    scanNamed chrono (CommitOrder.build records) axes node index).filterMap TxScan.candidate

/-- The candidates are the versions of the name in view, in record order. -/
theorem selectedVersions_eq (records : List GraphRecord) (symbolName : String) :
    selectedVersions chrono axes records symbolName =
      ((namedSymbols records symbolName).zipIdx.filter fun version =>
        axes.inView chrono version.1).map (toCandidate chrono axes (CommitOrder.build records)) := by
  have scanned : (TxScan.candidate ∘ fun version : NodeRecord × Nat =>
      scanNamed chrono (CommitOrder.build records) axes version.1 version.2) =
      fun version => if axes.inView chrono version.1 then
        some (toCandidate chrono axes (CommitOrder.build records) version) else none :=
    funext fun version => scanNamed_candidate _ version.1 version.2
  rw [selectedVersions, List.mapIdx_eq_zipIdx_map, List.filterMap_map]
  refine (congrArg (List.filterMap · _) scanned).trans ?_
  induction (namedSymbols records symbolName).zipIdx with
  | nil => rfl
  | cons version rest ih =>
      cases inView : axes.inView chrono version.1 with
      | true => simp [inView, ih]
      | false => simp [inView, ih]

/-- Those of one ID are the versions of that ID. -/
theorem filter_selectedVersions (records : List GraphRecord) (symbolName id : String) :
    (selectedVersions chrono axes records symbolName).filter (fun candidate =>
      candidate.record.id = id) =
      (versionsOf chrono axes records symbolName id).map
        (toCandidate chrono axes (CommitOrder.build records)) := by
  rw [selectedVersions_eq, List.filter_map, List.filter_filter, versionsOf]
  rfl

/-- What candidates are compared by. -/
def TxCandidate.key (candidate : TxCandidate) :
    Lex (WithBot Instant × Lex (WithBot Instant × Nat)) :=
  toLex (candidate.validTime.elim ⊥ WithBot.some,
    toLex ((candidate.transactionTime : WithBot Instant), candidate.tie))

/-- The valid time is there if and only if the query asks for it. -/
def TxCandidate.Answers (candidate : TxCandidate) (axes : TxAxes) : Prop :=
  candidate.validTime.isSome = axes.valid.isSome

/-- A candidate is ranked by the key of its version. -/
theorem toCandidate_key {version : NodeRecord × Nat} (order : CommitOrder)
    (inView : axes.inView chrono version.1 = true) :
    (toCandidate chrono axes order version).key = versionKey chrono axes order version := by
  obtain ⟨⟨known, isKnown, -⟩, -⟩ := (TxAxes.inView_iff version.1).mp inView
  simp only [TxCandidate.key, toCandidate, versionKey, isKnown, Option.getD_some]
  rfl

/-- A candidate answers the axes. -/
theorem toCandidate_answers {version : NodeRecord × Nat} (order : CommitOrder)
    (inView : axes.inView chrono version.1 = true) :
    (toCandidate chrono axes order version).Answers axes := by
  obtain ⟨-, valid⟩ := (TxAxes.inView_iff version.1).mp inView
  rw [TxCandidate.Answers, toCandidate]
  cases asked : axes.valid with
  | none => simp [validAt, asked]
  | some requested =>
      obtain ⟨instant, isValid, -⟩ := valid requested asked
      simp [isValid]

/-- Among candidates of one query the comparison of the source is the one of the keys. -/
theorem replaces_iff {candidate previous : TxCandidate} (answers : candidate.Answers axes)
    (answers' : previous.Answers axes) :
    candidate.replaces previous = true ↔ previous.key < candidate.key := by
  have same : candidate.validTime.isSome = previous.validTime.isSome := answers.trans answers'.symm
  obtain ⟨record, known, valid, tie⟩ := candidate
  obtain ⟨record', known', valid', tie'⟩ := previous
  cases valid with
  | none =>
      obtain rfl : valid' = none := by simpa using same.symm
      simp [TxCandidate.replaces, TxCandidate.key, Prod.Lex.toLex_lt_toLex]
  | some valid =>
      obtain ⟨valid', rfl⟩ : ∃ instant, valid' = some instant :=
        Option.isSome_iff_exists.mp (by simpa using same.symm)
      simp [TxCandidate.replaces, TxCandidate.key, Prod.Lex.toLex_lt_toLex]

/-- So does every selected version. -/
theorem selectedVersions_answers {records : List GraphRecord} {symbolName : String}
    {candidate : TxCandidate} (member : candidate ∈ selectedVersions chrono axes records symbolName) :
    candidate.Answers axes := by
  rw [selectedVersions_eq] at member
  obtain ⟨version, inside, rfl⟩ := List.mem_map.mp member
  exact toCandidate_answers _ (List.mem_filter.mp inside).2

/-- The map holds, per ID, the first of its greatest candidates. -/
theorem getElem?_foldl_keepCandidate {candidates : List TxCandidate}
    (answers : ∀ candidate ∈ candidates, candidate.Answers axes) (id : String) :
    (candidates.foldl keepCandidate ∅)[id]? =
      bestOf (compareOn TxCandidate.key) (candidates.filter fun candidate =>
        candidate.record.id = id) := by
  induction candidates using List.reverseRecOn generalizing id with
  | nil => simp
  | append_singleton candidates last ih =>
      have before := ih fun candidate member => answers candidate (List.mem_append_left _ member)
      rw [List.foldl_append, List.foldl_cons, List.foldl_nil, List.filter_append, keepCandidate,
        before]
      by_cases same : last.record.id = id
      · subst same
        rw [List.filter_cons_of_pos (by simp), List.filter_nil, bestOf_append_singleton]
        cases found : bestOf (compareOn TxCandidate.key)
            (candidates.filter fun candidate => candidate.record.id = last.record.id) with
        | none => simp [keepBest]
        | some previous =>
            have inside := (isBest_of_bestOf found).mem
            have known := answers previous (List.mem_append_left _ (List.mem_filter.mp inside).1)
            have replaced := replaces_iff (answers last (by simp)) known
            simp only [keepBest, compareOn, compare_lt_iff_lt]
            by_cases less : previous.key < last.key
            · simp [less, replaced.mpr less]
            · have kept : ¬ last.replaces previous = true := fun replaces =>
                less (replaced.mp replaces)
              simp [less, kept, before, found]
      · rw [List.filter_cons_of_neg (by simpa using same), List.filter_nil, List.append_nil,
          ← before]
        cases (candidates.foldl keepCandidate ∅)[last.record.id]? with
        | none =>
            rw [getElem?_insert_eq, if_neg same]
            exact before id
        | some previous =>
            simp only
            split
            · rw [getElem?_insert_eq, if_neg same]
              exact before id
            · exact before id

/-- The selected record of an ID is its newest version. -/
theorem exists_selected_iff {records : List GraphRecord} {symbolName id : String}
    {node : NodeRecord} :
    (∃ candidate, ((selectedVersions chrono axes records symbolName).foldl keepCandidate ∅)[id]? =
        some candidate ∧ candidate.record = node) ↔
      IsNewest chrono axes records symbolName id node := by
  have keyed : ∀ version ∈ versionsOf chrono axes records symbolName id,
      (toCandidate chrono axes (CommitOrder.build records) version).key =
        versionKey chrono axes (CommitOrder.build records) version := by
    intro version member
    have inside := (List.mem_filter.mp member).2
    rw [Bool.and_eq_true] at inside
    exact toCandidate_key _ inside.2
  simp only [getElem?_foldl_keepCandidate (fun _ => selectedVersions_answers), filter_selectedVersions,
    bestOf_eq_some_iff_first, compareOn, compare_lt_iff_lt, ne_eq, not_lt]
  constructor
  · rintro ⟨candidate, ⟨earlier, later, split, smaller, notGreater⟩, rfl⟩
    obtain ⟨before, rest, versions, rfl, tail⟩ := List.map_eq_append_iff.mp split
    obtain ⟨⟨node, index⟩, after, rfl, rfl, rfl⟩ := List.map_eq_cons_iff.mp tail
    refine ⟨before, index, after, versions, fun version member => ?_, fun version member => ?_⟩
    · have less := smaller _ (List.mem_map_of_mem member)
      rwa [keyed version (by simp [versions, member]), keyed (node, index) (by simp [versions])]
        at less
    · have le := notGreater _ (List.mem_map_of_mem member)
      rwa [keyed version (by simp [versions, member]), keyed (node, index) (by simp [versions])]
        at le
  · rintro ⟨earlier, index, later, versions, smaller, notGreater⟩
    refine ⟨_, ⟨earlier.map (toCandidate chrono axes (CommitOrder.build records)),
      later.map (toCandidate chrono axes (CommitOrder.build records)),
      by rw [versions, List.map_append, List.map_cons], ?_, ?_⟩, rfl⟩
    · intro other member
      obtain ⟨version, inside, rfl⟩ := List.mem_map.mp member
      rw [keyed version (by simp [versions, inside]), keyed (node, index) (by simp [versions])]
      exact smaller version inside
    · intro other member
      obtain ⟨version, inside, rfl⟩ := List.mem_map.mp member
      rw [keyed version (by simp [versions, inside]), keyed (node, index) (by simp [versions])]
      exact notGreater version inside

/-- The newest version of an ID has the name and the ID. -/
theorem IsNewest.mem {records : List GraphRecord} {symbolName id : String} {node : NodeRecord}
    (newest : IsNewest chrono axes records symbolName id node) :
    node ∈ namedSymbols records symbolName ∧ node.id = id := by
  obtain ⟨earlier, index, later, versions, -⟩ := newest
  have member : (node, index) ∈ versionsOf chrono axes records symbolName id := by simp [versions]
  obtain ⟨inNamed, same⟩ := List.mem_filter.mp member
  rw [Bool.and_eq_true, decide_eq_true_eq] at same
  exact ⟨(List.mem_zipIdx inNamed).2.2 ▸ List.getElem_mem _, same.1⟩

variable (chrono axes)

/-! ### Removal -/

/-- The commit was observed in the view. -/
def SeenCommit (nodes : List NodeRecord) (commit : String) : Prop :=
  ∃ node ∈ nodes, axesVisible chrono axes node = true ∧ nodeGitCommit node = some commit

/-- The commit carries a snapshot of the ID in the view. -/
def Carries (nodes : List NodeRecord) (id commit : String) : Prop :=
  SeenCommit chrono axes (nodes.filter fun node => node.id = id) commit

/-- A replacement that the record names is in the view. -/
def Superseded (records : List GraphRecord) (node : NodeRecord) : Prop :=
  ∃ target, node.field "superseded_by" = some target ∧
    replacementEffective chrono axes records target = true

/-- The line of history below a commit, as far as it is in the view, keeps the ID to its tips. -/
def LineKeeps (records : List GraphRecord) (nodes : List NodeRecord) (id commit : String) : Prop :=
  ∀ descendant, Descends (records.filterMap GraphRecord.node?) commit descendant →
    SeenCommit chrono axes (records.filterMap GraphRecord.node?) descendant →
    Carries chrono axes nodes id descendant

/-- A commit in the view carries the ID, and so does every descendant of it in the view. -/
def LiveSomewhere (records : List GraphRecord) (id : String) : Prop :=
  ∃ commit, Carries chrono axes (records.filterMap GraphRecord.node?) id commit ∧
    LineKeeps chrono axes records (records.filterMap GraphRecord.node?) id commit

variable {chrono axes}

/-- The commits in view are those that a version in view names. -/
theorem mem_visibleCommits {nodes : List NodeRecord} {commit : String} :
    commit ∈ visibleCommits chrono axes nodes ↔ SeenCommit chrono axes nodes commit := by
  simp [visibleCommits, SeenCommit, and_assoc]

/-- The removal test, from the commit of a record. -/
theorem removedAfter_eq_false_iff {records : List GraphRecord} {symbolName id commit : String} :
    removedAfter (CommitOrder.build records)
        (visibleCommits chrono axes (records.filterMap GraphRecord.node?))
        (visibleCommits chrono axes ((namedSymbols records symbolName).filter fun other =>
          other.id = id)) commit = false ↔
      LineKeeps chrono axes records (namedSymbols records symbolName) id commit := by
  rw [Bool.eq_false_iff, removedAfter, Ne, List.any_eq_true]
  simp only [mem_strictDescendants, Bool.and_eq_true, Bool.not_eq_true',
    List.contains_eq_mem, decide_eq_true_eq, decide_eq_false_iff_not, mem_visibleCommits, not_exists,
    not_and, not_not]
  rfl

/-- A version is kept unless its replacement is in force. -/
theorem superseded_isNone_iff {records : List GraphRecord} {node : NodeRecord} :
    ((node.field "superseded_by").filter fun target =>
        replacementEffective chrono axes records target).isNone = true ↔
      ¬ Superseded chrono axes records node := by
  cases named : node.field "superseded_by" with
  | none => simp [Superseded, named]
  | some target => simp [Superseded, named, Option.filter_some]

/-- Of each ID the newest version is selected. -/
theorem mem_selected {records : List GraphRecord} {symbolName : String} {node : NodeRecord} :
    node ∈ ((selectedVersions chrono axes records symbolName).foldl keepCandidate ∅).toList.map
        (fun pair => pair.2.record) ↔
      IsNewest chrono axes records symbolName node.id node := by
  simp only [List.mem_map, Prod.exists, Std.ExtTreeMap.mem_toList_iff_getElem?_eq_some]
  constructor
  · rintro ⟨id, candidate, found, rfl⟩
    have newest := exists_selected_iff.mp ⟨candidate, found, rfl⟩
    rwa [newest.mem.2]
  · intro newest
    obtain ⟨candidate, found, same⟩ := exists_selected_iff.mpr newest
    exact ⟨node.id, candidate, found, same⟩

/-- The rows of the answer: the newest versions that are neither superseded nor removed. -/
theorem mem_symbolAsOfAxes {records : List GraphRecord} {symbolName txAsOf : String}
    {bounds : Option (DateTime × DateTime)} {row : NodeRecord} :
    row ∈ (symbolAsOfAxes chrono records symbolName txAsOf axes bounds).records ↔
      IsNewest chrono axes records symbolName row.id row ∧ ¬ Superseded chrono axes records row ∧
        ∀ commit, nodeGitCommit row = some commit →
          LineKeeps chrono axes records (namedSymbols records symbolName) row.id commit := by
  rw [symbolAsOfAxes]
  split
  · rename_i empty
    constructor
    · intro member
      cases member
    · rintro ⟨newest, -⟩
      have member := newest.mem.1
      rw [List.isEmpty_iff.mp empty] at member
      cases member
  · have kept : ((nodeGitCommit row).filter fun commit =>
        removedAfter (CommitOrder.build records)
          (visibleCommits chrono axes (records.filterMap GraphRecord.node?))
          (visibleCommits chrono axes ((namedSymbols records symbolName).filter fun other =>
            other.id = row.id)) commit).isNone = true ↔
        ∀ commit, nodeGitCommit row = some commit →
          LineKeeps chrono axes records (namedSymbols records symbolName) row.id commit := by
      cases nodeGitCommit row with
      | none => simp
      | some commit => simp [Option.filter_some, removedAfter_eq_false_iff]
    rw [(List.perm_insertionSort rowBefore _).mem_iff, List.mem_filter, List.mem_filter]
    rw [superseded_isNone_iff, kept, and_assoc]
    exact and_congr mem_selected Iff.rfl

/-- The instants of a query, read from its texts. -/
structure TxAxes.ReadFrom (axes : TxAxes) (chrono : ChronoText) (txAsOf : String)
    (asOfValidTime : Option String) : Prop where
  transaction : chrono.parseFromRfc3339 txAsOf = .ok axes.transaction
  valid : axes.valid.map Except.ok = asOfValidTime.map chrono.parseFromRfc3339

/-- With axes that can be read, the answer is that at these axes. -/
theorem symbolAsOfTransactionTime_eq {records : List GraphRecord} {symbolName txAsOf : String}
    {asOfValidTime : Option String} {bounds : Option (DateTime × DateTime)}
    (read : axes.ReadFrom chrono txAsOf asOfValidTime) :
    symbolAsOfTransactionTime chrono records symbolName txAsOf asOfValidTime bounds =
      .ok (symbolAsOfAxes chrono records symbolName txAsOf axes bounds) := by
  obtain ⟨transaction, valid⟩ := axes
  obtain ⟨isTransaction, isValid⟩ := read
  have readTransaction : chrono.parse txAsOf = .ok ⟨transaction, chrono.toRfc3339 txAsOf⟩ :=
    parse_eq_ok_iff.mpr ⟨isTransaction, rfl⟩
  simp only [symbolAsOfTransactionTime, readTransaction]
  cases asOfValidTime with
  | none =>
      obtain rfl : valid = none := by simpa using isValid
      rfl
  | some text =>
      obtain ⟨instant, rfl, same⟩ : ∃ instant, valid = some instant ∧
          chrono.parseFromRfc3339 text = .ok instant := by
        simpa [eq_comm] using isValid
      have readValid : chrono.parse text = .ok ⟨instant, chrono.toRfc3339 text⟩ :=
        parse_eq_ok_iff.mpr ⟨same, rfl⟩
      simp only [readValid]

/-- The newest version of the ID is in the view and not superseded there, and still no row of the
answer has the ID. -/
def ExcludedAsAbsent (chrono : ChronoText) (axes : TxAxes) (records : List GraphRecord)
    (symbolName id : String) (answer : TxSymbolQuery) : Prop :=
  (∃ node, IsNewest chrono axes records symbolName id node ∧
    ¬ Superseded chrono axes records node) ∧ ∀ row ∈ answer.records, row.id ≠ id

/-- An ID has one newest version. -/
theorem IsNewest.unique {records : List GraphRecord} {symbolName id : String}
    {node other : NodeRecord} (newest : IsNewest chrono axes records symbolName id node)
    (newest' : IsNewest chrono axes records symbolName id other) : node = other := by
  obtain ⟨candidate, found, rfl⟩ := exists_selected_iff.mpr newest
  obtain ⟨candidate', found', rfl⟩ := exists_selected_iff.mpr newest'
  rw [Option.some.inj (found.symm.trans found')]

/-- An ID that is live somewhere is spared if and only if the line of its newest snapshot keeps
it. -/
theorem live_spared_iff {records : List GraphRecord} {symbolName txAsOf id : String}
    {asOfValidTime : Option String} {bounds : Option (DateTime × DateTime)}
    (read : axes.ReadFrom chrono txAsOf asOfValidTime) :
    ∃ answer,
      symbolAsOfTransactionTime chrono records symbolName txAsOf asOfValidTime bounds = .ok answer ∧
      ((LiveSomewhere chrono axes records id →
          ¬ ExcludedAsAbsent chrono axes records symbolName id answer) ↔
        (LiveSomewhere chrono axes records id →
          ∀ node last, IsNewest chrono axes records symbolName id node →
            ¬ Superseded chrono axes records node → nodeGitCommit node = some last →
            LineKeeps chrono axes records (namedSymbols records symbolName) id last)) := by
  refine ⟨_, symbolAsOfTransactionTime_eq read, imp_congr_right fun _ => ?_⟩
  constructor
  · intro spared node last newest current observed
    have present : ∃ row ∈ (symbolAsOfAxes chrono records symbolName txAsOf axes bounds).records,
        row.id = id := by
      by_contra absent
      exact spared ⟨⟨node, newest, current⟩, fun row member same => absent ⟨row, member, same⟩⟩
    obtain ⟨row, member, rfl⟩ := present
    obtain ⟨newest', -, keeps⟩ := mem_symbolAsOfAxes.mp member
    obtain rfl := newest.unique newest'
    exact keeps last observed
  · rintro keeps ⟨⟨node, newest, current⟩, absent⟩
    have same := newest.mem.2
    refine absent node (mem_symbolAsOfAxes.mpr ⟨same ▸ newest, current, fun last observed => ?_⟩) same
    exact same ▸ keeps node last newest current observed

end

/-- What `chrono` makes of four instants. -/
def forkChrono : ChronoText where
  parseFromRfc3339 text :=
    match [("2026-01-01T00:00:00Z", 1767225600), ("2026-01-01T00:00:01Z", 1767225601),
      ("2026-01-01T00:00:02Z", 1767225602), ("2026-01-01T00:00:03Z", 1767225603)].lookup text with
    | some seconds => .ok (toLex (seconds, 0))
    | none => .error "input contains invalid characters"
  toRfc3339Secs time := "2026-01-01T00:00:0" ++ toString ((ofLex time).1 - 1767225600) ++ "Z"
  toRfc3339 text := String.ofList (text.toList.dropLast ++ "+00:00".toList)

/-- A symbol as a commit had it. -/
def snapshot (id name commit : String) (parents : List String) (time : String) : NodeRecord where
  id := id
  kind := .symbol
  schemaVersion := 1
  name := some name
  temporal := some {
    gitCommit := commit
    gitParentCommits := parents
    validTime := time
    observedAt := time }

/-- Two branches of a base: one keeps `parse`, the other changes it later and then drops it. -/
def forkedHistory : List GraphRecord :=
  [.node (snapshot "parse" "parse" "base" [] "2026-01-01T00:00:00Z"),
   .node (snapshot "print" "print" "base" [] "2026-01-01T00:00:00Z"),
   .node (snapshot "parse" "parse" "kept" ["base"] "2026-01-01T00:00:01Z"),
   .node (snapshot "print" "print" "kept" ["base"] "2026-01-01T00:00:01Z"),
   .node (snapshot "parse" "parse" "changed" ["base"] "2026-01-01T00:00:02Z"),
   .node (snapshot "print" "print" "changed" ["base"] "2026-01-01T00:00:02Z"),
   .node (snapshot "print" "print" "dropped" ["changed"] "2026-01-01T00:00:03Z")]

/-- The instant of the last commit. -/
def forkAxes : TxAxes where
  transaction := toLex (1767225603, 0)
  valid := none

/-- The axes of the query are read from its text. -/
theorem forkAxes_read : forkAxes.ReadFrom forkChrono "2026-01-01T00:00:03Z" none where
  transaction := by decide
  valid := rfl

/-- The symbol is live on one side of the fork. -/
theorem forkedHistory_live : LiveSomewhere forkChrono forkAxes forkedHistory "parse" := by
  have tip : ∀ child,
      ¬ ChildCommit (forkedHistory.filterMap GraphRecord.node?) "kept" child := by
    intro child isChild
    rw [← mem_commitParents, ← mem_commitChildren] at isChild
    have none : (commitChildren (commitParents (forkedHistory.filterMap GraphRecord.node?))).getD
        "kept" [] = [] := by decide
    rw [none] at isChild
    cases isChild
  have carried : "kept" ∈ visibleCommits forkChrono forkAxes
      ((forkedHistory.filterMap GraphRecord.node?).filter fun node => node.id = "parse") := by
    decide
  refine ⟨"kept", mem_visibleCommits.mp carried, fun descendant descends => ?_⟩
  obtain ⟨child, isChild, -⟩ := Relation.TransGen.head'_iff.mp descends
  exact absurd isChild (tip child)

/-- The newest snapshot is on the other branch, whose next commit has dropped the symbol. -/
theorem forkedHistory_excluded :
    ∃ answer,
      symbolAsOfTransactionTime forkChrono forkedHistory "parse" "2026-01-01T00:00:03Z" none none =
        .ok answer ∧
      LiveSomewhere forkChrono forkAxes forkedHistory "parse" ∧
      ExcludedAsAbsent forkChrono forkAxes forkedHistory "parse" "parse" answer := by
  have selected : (((selectedVersions forkChrono forkAxes forkedHistory "parse").foldl
      keepCandidate ∅)["parse"]?).map TxCandidate.record =
        some (snapshot "parse" "parse" "changed" ["base"] "2026-01-01T00:00:02Z") := by
    decide
  have empty : (symbolAsOfAxes forkChrono forkedHistory "parse" "2026-01-01T00:00:03Z" forkAxes
      none).records = [] := by decide
  refine ⟨_, symbolAsOfTransactionTime_eq forkAxes_read, forkedHistory_live,
    ⟨_, exists_selected_iff.mp (Option.map_eq_some_iff.mp selected), ?_⟩, ?_⟩
  · rintro ⟨target, named, -⟩
    cases named
  · intro row member
    rw [empty] at member
    cases member

/-- The equivalence at this history. -/
theorem forkedHistory_spared_iff :
    ∃ answer,
      symbolAsOfTransactionTime forkChrono forkedHistory "parse" "2026-01-01T00:00:03Z" none none =
        .ok answer ∧
      ((LiveSomewhere forkChrono forkAxes forkedHistory "parse" →
          ¬ ExcludedAsAbsent forkChrono forkAxes forkedHistory "parse" "parse" answer) ↔
        (LiveSomewhere forkChrono forkAxes forkedHistory "parse" →
          ∀ node last, IsNewest forkChrono forkAxes forkedHistory "parse" "parse" node →
            ¬ Superseded forkChrono forkAxes forkedHistory node →
            nodeGitCommit node = some last →
            LineKeeps forkChrono forkAxes forkedHistory (namedSymbols forkedHistory "parse")
              "parse" last)) :=
  live_spared_iff forkAxes_read

end Egregore
