import Egregore.Query.TransactionTimeSpec

/-!
# The version kept for an ID

Per stable ID the scan keeps a greatest version in the view. Between history versions of equal
times the rank of their commits decides; over a history without cycles it grows along every
parent link, so the descendant is kept: `keptVersions_greatest`.
-/

namespace Egregore

open Base

/-! ### Ranks -/

section Rank

variable (parents : StrMap (List String))

/-- A parent that is itself in the store. -/
def ParentLink (parent child : String) : Prop :=
  parent ∈ parents ∧ parent ∈ parents.getD child []

/-- No ancestor of the commit is an ancestor of itself. -/
def AcyclicAbove (sha : String) : Prop :=
  ∀ ancestor, Relation.ReflTransGen (ParentLink parents) ancestor sha →
    ¬ Relation.TransGen (ParentLink parents) ancestor ancestor

/-- A commit above which nothing is cyclic is ranked after its parents and above them. -/
def RanksParents (memo : StrMap Nat) : Prop :=
  ∀ child rank, AcyclicAbove parents child → memo[child]? = some rank →
    ∀ parent, ParentLink parents parent child → ∃ lower, memo[parent]? = some lower ∧ lower < rank

/-- What ranking a commit does to the memo. -/
structure RankOutcome (sha : String) (stack : List String) (memo : StrMap Nat)
    (outcome : Nat × StrMap Nat) : Prop where
  ranks : RanksParents parents outcome.2
  found : AcyclicAbove parents sha → outcome.2[sha]? = some outcome.1
  kept : ∀ (other : String) (rank : Nat), memo[other]? = some rank →
    outcome.2[other]? = some rank
  /-- No commit that is still being ranked gets a rank. -/
  fresh : ∀ other ∈ outcome.2, other ∈ memo ∨ other ∉ stack

variable {parents}

/-- What is acyclic above a commit is so above its parents. -/
theorem AcyclicAbove.parent {parent child : String} (acyclic : AcyclicAbove parents child)
    (link : ParentLink parents parent child) : AcyclicAbove parents parent :=
  fun ancestor path => acyclic ancestor (path.tail link)

/-- The body of the loop over the parents of a commit. -/
private def rankParent (parents : StrMap (List String))
    (rank : StrMap Nat → String → Nat × StrMap Nat) (state : Nat × StrMap Nat) (parent : String) :
    Nat × StrMap Nat :=
  if parent ∈ parents then
    (max state.1 ((rank state.2 parent).1 + 1), (rank state.2 parent).2)
  else state

/-- What ranking the parents of a commit does to the memo. -/
private theorem rank_parents {sha : String} {stack : List String}
    {rank : StrMap Nat → String → Nat × StrMap Nat}
    (ranked : ∀ memo parent, RanksParents parents memo → ParentLink parents parent sha →
      RankOutcome parents parent stack memo (rank memo parent))
    {ps : List String} (within : ∀ parent ∈ ps, parent ∈ parents.getD sha []) (best : Nat)
    {memo : StrMap Nat} (ranks : RanksParents parents memo) {outcome : Nat × StrMap Nat}
    (folded : ps.foldl (rankParent parents rank) (best, memo) = outcome) :
    best ≤ outcome.1 ∧ RanksParents parents outcome.2 ∧
      (∀ (other : String) (rank : Nat), memo[other]? = some rank →
        outcome.2[other]? = some rank) ∧
      (∀ other ∈ outcome.2, other ∈ memo ∨ other ∉ stack) ∧
      (AcyclicAbove parents sha → ∀ parent ∈ ps, parent ∈ parents →
        ∃ lower, outcome.2[parent]? = some lower ∧ lower < outcome.1) := by
  induction ps generalizing best memo with
  | nil =>
      subst folded
      exact ⟨Nat.le_refl _, ranks, fun _ _ found => found, fun _ member => Or.inl member, by simp⟩
  | cons parent ps ih =>
      have rest : ∀ parent ∈ ps, parent ∈ parents.getD sha [] := fun other member =>
        within other (List.mem_cons_of_mem _ member)
      rw [List.foldl_cons, rankParent] at folded
      by_cases stored : parent ∈ parents
      · have link : ParentLink parents parent sha := ⟨stored, within parent (by simp)⟩
        have step := ranked memo parent ranks link
        simp only [stored, if_true] at folded
        generalize rank memo parent = ranking at folded step
        obtain ⟨bound, ranks', kept, fresh, above⟩ := ih rest _ step.ranks folded
        refine ⟨(Nat.le_max_left _ _).trans bound, ranks', fun other rank found =>
          kept other rank (step.kept other rank found), fun other member => ?_,
          fun acyclic other member known => ?_⟩
        · rcases fresh other member with old | apart
          · exact step.fresh other old
          · exact Or.inr apart
        · rcases List.mem_cons.mp member with rfl | later
          · refine ⟨ranking.1, kept _ _ (step.found (acyclic.parent link)), ?_⟩
            have := Nat.le_max_right best (ranking.1 + 1)
            omega
          · exact above acyclic other later known
      · simp only [stored, if_false] at folded
        obtain ⟨bound, ranks', kept, fresh, above⟩ := ih rest _ ranks folded
        refine ⟨bound, ranks', kept, fresh, fun acyclic other member known => ?_⟩
        rcases List.mem_cons.mp member with rfl | later
        · exact absurd known stored
        · exact above acyclic other later known

/-- A stack of different commits is no longer than their number. -/
private theorem length_le_size {stack : List String} (nodup : stack.Nodup)
    (stored : ∀ commit ∈ stack, commit ∈ parents) : stack.length ≤ parents.size := by
  rw [← Std.ExtTreeMap.length_keys]
  exact (List.subperm_of_subset nodup fun commit member =>
    Std.ExtTreeMap.mem_keys.mpr (stored commit member)).length_le

/-- Ranking a commit. The stack holds descendants of the commit, so above an acyclic one the cycle
guard never fires; the fuel lasts. -/
theorem rankOf_outcome (fuel : Nat) {stack : List String} {memo : StrMap Nat} {sha : String}
    (ranks : RanksParents parents memo) (stored : sha ∈ parents)
    (below : ∀ descendant ∈ stack, descendant ∈ parents ∧
      Relation.TransGen (ParentLink parents) sha descendant)
    (nodup : stack.Nodup) (enough : parents.size < fuel + stack.length) :
    RankOutcome parents sha stack memo (rankOf parents fuel stack memo sha) := by
  have apart : AcyclicAbove parents sha → sha ∉ stack := fun acyclic member =>
    acyclic sha .refl (below sha member).2
  induction fuel generalizing stack memo sha with
  | zero =>
      have room := length_le_size nodup fun commit member => (below commit member).1
      omega
  | succ fuel ih =>
      rw [rankOf]
      cases known : memo[sha]? with
      | some rank =>
          exact ⟨ranks, fun _ => known, fun _ _ found => found, fun _ member => Or.inl member⟩
      | none =>
          by_cases onStack : sha ∈ stack
          · simp only [onStack, if_true]
            exact ⟨ranks, fun acyclic => absurd onStack (apart acyclic), fun _ _ found => found,
              fun _ member => Or.inl member⟩
          simp only [onStack, if_false]
          have ranked : ∀ memo parent, RanksParents parents memo → ParentLink parents parent sha →
              RankOutcome parents parent (sha :: stack) memo
                (rankOf parents fuel (sha :: stack) memo parent) := by
            intro memo parent ranks link
            have below' : ∀ descendant ∈ sha :: stack, descendant ∈ parents ∧
                Relation.TransGen (ParentLink parents) parent descendant := by
              intro descendant member
              rcases List.mem_cons.mp member with rfl | inside
              · exact ⟨stored, .single link⟩
              · exact ⟨(below descendant inside).1, .head link (below descendant inside).2⟩
            exact ih ranks link.1 below' (List.nodup_cons.mpr ⟨onStack, nodup⟩)
              (by simp only [List.length_cons]; omega)
              fun acyclic member => acyclic parent .refl (below' parent member).2
          generalize folded : (parents.getD sha []).foldl
            (rankParent parents (rankOf parents fuel (sha :: stack))) (0, memo) = outcome
          obtain ⟨-, ranks', kept, fresh, above⟩ :=
            rank_parents ranked (fun _ member => member) 0 ranks folded
          change RankOutcome parents sha stack memo
            (((parents.getD sha []).foldl
                (rankParent parents (rankOf parents fuel (sha :: stack))) (0, memo)).1,
              ((parents.getD sha []).foldl
                (rankParent parents (rankOf parents fuel (sha :: stack))) (0, memo)).2.insert sha
                ((parents.getD sha []).foldl
                  (rankParent parents (rankOf parents fuel (sha :: stack))) (0, memo)).1)
          rw [folded]
          -- The commit is ranked last: it was on the stack until now.
          have unranked : outcome.2[sha]? = none := by
            refine Std.ExtTreeMap.getElem?_eq_none fun member => ?_
            rcases fresh sha member with old | apart
            · rw [← Std.ExtTreeMap.isSome_getElem?_iff_mem, known] at old
              cases old
            · exact apart (by simp)
          have untouched : ∀ (other : String) (rank : Nat), outcome.2[other]? = some rank →
              (outcome.2.insert sha outcome.1)[other]? = some rank := by
            intro other rank found
            rw [getElem?_insert_eq, if_neg, found]
            rintro rfl
            rw [unranked] at found
            cases found
          refine ⟨fun child rank acyclic found parent link => ?_, fun _ => by simp,
            fun other rank found => untouched other rank (kept other rank found),
            fun other member => ?_⟩
          · have lower : ∃ lower, outcome.2[parent]? = some lower ∧ lower < rank := by
              rw [getElem?_insert_eq] at found
              split at found
              · next same =>
                  subst same
                  obtain rfl := Option.some.inj found
                  exact above acyclic parent link.2 link.1
              · exact ranks' child rank acyclic found parent link
            obtain ⟨lower, found', less⟩ := lower
            exact ⟨lower, untouched parent lower found', less⟩
          · rw [Std.ExtTreeMap.mem_insert, Std.LawfulEqCmp.compare_eq_iff_eq] at member
            rcases member with rfl | inside
            · exact Or.inr onStack
            · exact (fresh other inside).imp_right fun apart inside =>
                apart (List.mem_cons_of_mem _ inside)

/-- A stored commit above which nothing is cyclic is ranked above its stored parents. -/
theorem ranks_lt {ranks : StrMap Nat}
    (built : ranks = parents.keys.foldl
      (fun memo commit => (rankOf parents (parents.size + 1) [] memo commit).2) ∅)
    {parent child : String} (acyclic : AcyclicAbove parents child)
    (link : ParentLink parents parent child) :
    ranks.getD parent 0 < ranks.getD child 0 := by
  have all : ∀ (keys : List String) (memo : StrMap Nat), (∀ key ∈ keys, key ∈ parents) →
      RanksParents parents memo →
      RanksParents parents (keys.foldl
        (fun memo commit => (rankOf parents (parents.size + 1) [] memo commit).2) memo) ∧
      (∀ (other : String) (rank : Nat), memo[other]? = some rank → (keys.foldl
        (fun memo commit => (rankOf parents (parents.size + 1) [] memo commit).2) memo)[other]? =
          some rank) ∧
      ∀ key ∈ keys, AcyclicAbove parents key → ∃ rank, (keys.foldl
        (fun memo commit => (rankOf parents (parents.size + 1) [] memo commit).2) memo)[key]? =
          some rank := by
    intro keys
    induction keys with
    | nil => exact fun memo _ ranks => ⟨ranks, fun _ _ found => found, by simp⟩
    | cons key keys ih =>
        intro memo within ranks
        have step := rankOf_outcome (parents.size + 1) ranks (within key (by simp))
          (by simp) List.nodup_nil (by simp)
        obtain ⟨ranks', kept, covered⟩ :=
          ih _ (fun other member => within other (List.mem_cons_of_mem _ member)) step.ranks
        refine ⟨ranks', fun other rank found => kept other rank (step.kept other rank found), ?_⟩
        intro other member acyclic
        rcases List.mem_cons.mp member with rfl | later
        · exact ⟨_, kept _ _ (step.found acyclic)⟩
        · exact covered other later acyclic
  obtain ⟨ranked, -, covered⟩ := all parents.keys ∅ (fun key => Std.ExtTreeMap.mem_keys.mp)
    (fun child rank _ found => by simp at found)
  rw [← built] at ranked covered
  have stored : child ∈ parents := by
    by_contra absent
    have := link.2
    rw [Std.ExtTreeMap.getD_eq_fallback absent] at this
    cases this
  obtain ⟨rank, found⟩ := covered child (Std.ExtTreeMap.mem_keys.mpr stored) acyclic
  obtain ⟨lower, found', less⟩ := ranked child rank acyclic found parent link
  rw [Std.ExtTreeMap.getD_eq_getD_getElem?, Std.ExtTreeMap.getD_eq_getD_getElem?, found, found']
  exact less

end Rank

section History

variable {records : List GraphRecord}

/-- Some record was observed at the commit. -/
def StoredCommit (records : List GraphRecord) (commit : String) : Prop :=
  ∃ node, .node node ∈ records ∧ nodeGitCommit node = some commit

/-- No commit descends from itself. -/
def AcyclicHistory (records : List GraphRecord) : Prop :=
  ∀ commit, ¬ Descends (records.filterMap GraphRecord.node?) commit commit

/-- The nodes of the records. -/
theorem mem_node?_iff {node : NodeRecord} :
    node ∈ records.filterMap GraphRecord.node? ↔ .node node ∈ records := by
  rw [List.mem_filterMap]
  constructor
  · rintro ⟨record, member, found⟩
    cases record with
    | node other => exact Option.some.inj found ▸ member
    | edge edge => cases found
    | tombstone tombstone => cases found
  · exact fun member => ⟨.node node, member, rfl⟩

/-- The map of parents has the commits that a node names. -/
theorem mem_commitParents_iff {nodes : List NodeRecord} {commit : String} :
    commit ∈ commitParents nodes ↔ ∃ node ∈ nodes, nodeGitCommit node = some commit := by
  induction nodes using List.reverseRecOn with
  | nil => simp [commitParents]
  | append_singleton nodes node ih =>
      rw [commitParents, List.foldl_append, List.foldl_cons, List.foldl_nil, ← commitParents]
      simp only [List.mem_append, List.mem_singleton, or_and_right, exists_or, exists_eq_left]
      rw [← ih]
      cases observed : node.temporal with
      | none => simp [nodeGitCommit, observed]
      | some temporal =>
          simp only [nodeGitCommit, observed, Option.map_some, Option.some.injEq,
            Std.ExtTreeMap.mem_insert, Std.LawfulEqCmp.compare_eq_iff_eq]
          exact or_comm

/-- Its links lead from stored commits to their children. -/
theorem parentLink_iff {parent child : String} :
    ParentLink (commitParents (records.filterMap GraphRecord.node?)) parent child ↔
      StoredCommit records parent ∧
        ChildCommit (records.filterMap GraphRecord.node?) parent child := by
  rw [ParentLink, mem_commitParents, mem_commitParents_iff]
  simp only [mem_node?_iff, StoredCommit]

/-- A child is a stored commit. -/
theorem ChildCommit.stored {commit child : String}
    (isChild : ChildCommit (records.filterMap GraphRecord.node?) commit child) :
    StoredCommit records child := by
  obtain ⟨node, member, temporal, observed, rfl, -⟩ := isChild
  exact ⟨node, mem_node?_iff.mp member, by rw [nodeGitCommit, observed]; rfl⟩

/-- No ancestor of the commit descends from itself. -/
def AcyclicUpTo (records : List GraphRecord) (commit : String) : Prop :=
  ∀ ancestor, ancestor = commit ∨ Descends (records.filterMap GraphRecord.node?) ancestor commit →
    ¬ Descends (records.filterMap GraphRecord.node?) ancestor ancestor

/-- A history in which every commit ranks above its parents has no cycle. -/
theorem acyclicHistory_of_rank (rank : String → Nat)
    (grows : ∀ node ∈ records.filterMap GraphRecord.node?, ∀ temporal ∈ node.temporal,
      ∀ parent ∈ temporal.gitParentCommits, rank parent < rank temporal.gitCommit) :
    AcyclicHistory records := by
  have child : ∀ commit descendant,
      ChildCommit (records.filterMap GraphRecord.node?) commit descendant →
        rank commit < rank descendant := by
    rintro commit _ ⟨node, member, temporal, observed, rfl, listed⟩
    exact grows node member temporal observed commit listed
  intro commit path
  have climbs : ∀ descendant, Descends (records.filterMap GraphRecord.node?) commit descendant →
      rank commit < rank descendant := by
    intro descendant path
    induction path with
    | single step => exact child _ _ step
    | tail _ step ih => exact ih.trans (child _ _ step)
  exact (climbs commit path).false

/-- In an acyclic history no commit is its own ancestor. -/
theorem AcyclicHistory.upTo (acyclic : AcyclicHistory records) (commit : String) :
    AcyclicUpTo records commit :=
  fun ancestor _ => acyclic ancestor

/-- What is acyclic up to a commit is so up to its ancestors. -/
theorem AcyclicUpTo.ancestor {commit descendant : String}
    (acyclic : AcyclicUpTo records descendant)
    (descends : Descends (records.filterMap GraphRecord.node?) commit descendant) :
    AcyclicUpTo records commit := by
  rintro ancestor (rfl | above)
  · exact acyclic ancestor (Or.inr descends)
  · exact acyclic ancestor (Or.inr (above.trans descends))

/-- The rank grows along the parent links above which no commit descends from itself. -/
theorem AcyclicUpTo.rankAt_lt_of_child {parent child : String} (acyclic : AcyclicUpTo records child)
    (stored : StoredCommit records parent)
    (isChild : ChildCommit (records.filterMap GraphRecord.node?) parent child) :
    (CommitOrder.build records).rankAt parent < (CommitOrder.build records).rankAt child := by
  have mono : ∀ parent child,
      ParentLink (commitParents (records.filterMap GraphRecord.node?)) parent child →
        ChildCommit (records.filterMap GraphRecord.node?) parent child :=
    fun parent child link => (parentLink_iff.mp link).2
  refine ranks_lt rfl (fun ancestor path cycle => acyclic ancestor ?_
    (Relation.TransGen.mono mono _ _ cycle)) (parentLink_iff.mpr ⟨stored, isChild⟩)
  exact (Relation.reflTransGen_iff_eq_or_transGen.mp path).imp Eq.symm
    (Relation.TransGen.mono mono _ _)

/-- The rank grows along every parent link between stored commits. -/
theorem rankAt_lt_of_child (acyclic : AcyclicHistory records) {parent child : String}
    (stored : StoredCommit records parent)
    (isChild : ChildCommit (records.filterMap GraphRecord.node?) parent child) :
    (CommitOrder.build records).rankAt parent < (CommitOrder.build records).rankAt child :=
  (acyclic.upTo child).rankAt_lt_of_child stored isChild

/-- A descendant outranks its stored ancestors. -/
theorem AcyclicUpTo.rankAt_lt_of_descends {commit descendant : String}
    (acyclic : AcyclicUpTo records descendant) (stored : StoredCommit records commit)
    (descends : Descends (records.filterMap GraphRecord.node?) commit descendant) :
    (CommitOrder.build records).rankAt commit < (CommitOrder.build records).rankAt descendant := by
  induction descends with
  | single isChild => exact acyclic.rankAt_lt_of_child stored isChild
  | @tail middle child path isChild ih =>
      have middle : StoredCommit records middle := by
        obtain ⟨prior, -, last⟩ := Relation.TransGen.tail'_iff.mp path
        exact last.stored
      exact (ih (acyclic.ancestor (.single isChild))).trans
        (acyclic.rankAt_lt_of_child middle isChild)

/-- A descendant outranks its stored ancestors. -/
theorem rankAt_lt_of_descends (acyclic : AcyclicHistory records) {commit descendant : String}
    (stored : StoredCommit records commit)
    (descends : Descends (records.filterMap GraphRecord.node?) commit descendant) :
    (CommitOrder.build records).rankAt commit < (CommitOrder.build records).rankAt descendant :=
  (acyclic.upTo descendant).rankAt_lt_of_descends stored descends

end History

/-! ### The kept versions -/

section Kept

variable (chrono : ChronoText) (axes : TxAxes) (records : List GraphRecord) (symbolName : String)

/-- Per ID the version that the scan keeps, before supersession and removal. -/
def keptVersions : StrMap TxCandidate :=
  (selectedVersions chrono axes records symbolName).foldl keepCandidate ∅

/-- Two versions known at one time, and true from one time if the query asks for that. -/
def SameTimes (node other : NodeRecord) : Prop :=
  knownAt chrono node = knownAt chrono other ∧ validAt chrono axes node = validAt chrono axes other

/-- A candidate is a version in the view that none of its ID exceeds. -/
structure IsGreatestVersion (id : String) (candidate : TxCandidate) : Prop where
  version : ∃ version ∈ versionsOf chrono axes records symbolName id,
    candidate = toCandidate chrono axes (CommitOrder.build records) version
  known : knownAt chrono candidate.record = some candidate.transactionTime ∧
    candidate.transactionTime ≤ axes.transaction
  valid : candidate.validTime = validAt chrono axes candidate.record ∧
    ∀ requested, axes.valid = some requested →
      ∃ valid, candidate.validTime = some valid ∧ valid ≤ requested
  greatest : ∀ version ∈ versionsOf chrono axes records symbolName id,
    versionKey chrono axes (CommitOrder.build records) version ≤ candidate.key

variable {chrono axes records symbolName}

/-- The version that is kept is the greatest one. -/
theorem isGreatestVersion_of_kept {id : String} {candidate : TxCandidate}
    (kept : (keptVersions chrono axes records symbolName)[id]? = some candidate) :
    IsGreatestVersion chrono axes records symbolName id candidate := by
  rw [keptVersions, getElem?_foldl_keepCandidate fun _ => selectedVersions_answers,
    filter_selectedVersions] at kept
  obtain ⟨member, upper⟩ := isBest_of_bestOf kept
  obtain ⟨version, inside, rfl⟩ := List.mem_map.mp member
  have inView : ∀ version ∈ versionsOf chrono axes records symbolName id,
      axes.inView chrono version.1 = true := by
    intro version inside
    have holds := (List.mem_filter.mp inside).2
    rw [Bool.and_eq_true] at holds
    exact holds.2
  obtain ⟨⟨known, isKnown, before⟩, valid⟩ :=
    (TxAxes.inView_iff version.1).mp (inView version inside)
  refine ⟨⟨version, inside, rfl⟩, ?_, ⟨rfl, valid⟩, fun other inside' => ?_⟩
  · have time : (toCandidate chrono axes (CommitOrder.build records) version).transactionTime =
        known := by rw [toCandidate, isKnown, Option.getD_some]
    rw [time]
    exact ⟨isKnown, before⟩
  · have notLess := upper _ (List.mem_map_of_mem inside')
    rw [← toCandidate_key _ (inView other inside')]
    simpa only [compareOn, ne_eq, compare_lt_iff_lt, not_lt] using notLess

/-- None is kept when there is none. -/
theorem kept_eq_none_iff {id : String} :
    (keptVersions chrono axes records symbolName)[id]? = none ↔
      versionsOf chrono axes records symbolName id = [] := by
  rw [keptVersions, getElem?_foldl_keepCandidate fun _ => selectedVersions_answers,
    filter_selectedVersions, bestOf_eq_none_iff, List.map_eq_nil_iff]

/-- Of two history versions of equal times, the one whose commit descends from the other's is
the greater. -/
theorem versionKey_lt_of_descends (acyclic : AcyclicHistory records) {id : String}
    {version other : NodeRecord × Nat}
    (inside : version ∈ versionsOf chrono axes records symbolName id)
    (same : SameTimes chrono axes version.1 other.1) {commit descendant : String}
    (older : nodeGitCommit version.1 = some commit)
    (newer : nodeGitCommit other.1 = some descendant)
    (descends : Descends (records.filterMap GraphRecord.node?) commit descendant) :
    versionKey chrono axes (CommitOrder.build records) version <
      versionKey chrono axes (CommitOrder.build records) other := by
  have named : version.1 ∈ namedSymbols records symbolName := by
    rw [(List.mem_zipIdx (List.mem_filter.mp inside).1).2.2]
    exact List.getElem_mem _
  have stored : StoredCommit records commit :=
    ⟨version.1, mem_node?_iff.mp (List.mem_filter.mp named).1, older⟩
  have ranked := rankAt_lt_of_descends acyclic stored descends
  rw [versionKey, versionKey, same.1, same.2, Prod.Lex.toLex_lt_toLex, Prod.Lex.toLex_lt_toLex,
    tieOf, tieOf, older, newer]
  exact Or.inr ⟨rfl, Or.inr ⟨rfl, ranked⟩⟩

variable (chrono axes records symbolName) in
/-- The scan keeps, for each ID with a version in the view, one that is known and true by the
instants and that no other exceeds; rows are kept versions. Over a history without cycles, ranks
grow along parent links, and no version of a descendant commit with the same times loses. -/
theorem keptVersions_greatest :
    (∀ id, (keptVersions chrono axes records symbolName)[id]? = none ↔
      versionsOf chrono axes records symbolName id = []) ∧
    (∀ id candidate, (keptVersions chrono axes records symbolName)[id]? = some candidate →
      IsGreatestVersion chrono axes records symbolName id candidate) ∧
    (∀ txAsOf bounds, ∀ row ∈
        (symbolAsOfAxes chrono records symbolName txAsOf axes bounds).records,
      ∃ candidate, (keptVersions chrono axes records symbolName)[row.id]? = some candidate ∧
        candidate.record = row) ∧
    (AcyclicHistory records →
      (∀ parent child, StoredCommit records parent →
        ChildCommit (records.filterMap GraphRecord.node?) parent child →
          (CommitOrder.build records).rankAt parent < (CommitOrder.build records).rankAt child) ∧
      ∀ id candidate, (keptVersions chrono axes records symbolName)[id]? = some candidate →
        ∀ version ∈ versionsOf chrono axes records symbolName id,
          SameTimes chrono axes candidate.record version.1 →
          ∀ commit descendant, nodeGitCommit candidate.record = some commit →
            nodeGitCommit version.1 = some descendant →
            ¬ Descends (records.filterMap GraphRecord.node?) commit descendant) := by
  refine ⟨fun id => kept_eq_none_iff, fun id candidate => isGreatestVersion_of_kept,
    fun txAsOf bounds row member => exists_selected_iff.mpr (mem_symbolAsOfAxes.mp member).1,
    fun acyclic => ⟨fun parent child => rankAt_lt_of_child acyclic, ?_⟩⟩
  intro id candidate kept version inside same commit descendant older newer descends
  have greatest := isGreatestVersion_of_kept kept
  obtain ⟨⟨keptVersion, inside', rfl⟩, -, -, upper⟩ := greatest
  have less := versionKey_lt_of_descends acyclic inside' same older newer descends
  have inView := (List.mem_filter.mp inside').2
  rw [Bool.and_eq_true] at inView
  rw [← toCandidate_key _ inView.2] at less
  exact absurd (upper version inside) (not_le_of_gt less)

end Kept

/-- Two commits of one second, the later one written first. -/
def sameSecond : List GraphRecord :=
  [.node (snapshot "parse" "parse" "child" ["base"] "2026-01-01T00:00:00Z"),
   .node (snapshot "parse" "parse" "base" [] "2026-01-01T00:00:00Z")]

/-- The history of one second is acyclic. -/
theorem sameSecond_acyclic : AcyclicHistory sameSecond :=
  acyclicHistory_of_rank (fun sha => if sha = "base" then 0 else 1) (by decide)

/-- The version of the base is not kept although it is written last. -/
theorem sameSecond_kept :
    ((keptVersions forkChrono forkAxes sameSecond "parse")["parse"]?).bind
      (fun candidate => nodeGitCommit candidate.record) ≠ some "base" := by
  intro isBase
  obtain ⟨candidate, kept, older⟩ := Option.bind_eq_some_iff.mp isBase
  have summary := keptVersions_greatest forkChrono forkAxes sameSecond "parse"
  obtain ⟨⟨version, inside, rfl⟩, -⟩ := summary.2.1 "parse" candidate kept
  have descends : Descends (sameSecond.filterMap GraphRecord.node?) "base" "child" :=
    .single ⟨_, mem_node?_iff.mpr List.mem_cons_self, _, rfl, rfl, List.mem_singleton.mpr rfl⟩
  refine (summary.2.2.2 sameSecond_acyclic).2 "parse" _ kept
    (snapshot "parse" "parse" "child" ["base"] "2026-01-01T00:00:00Z", 0) (by decide) ?_
    "base" "child" older rfl descends
  have both : versionsOf forkChrono forkAxes sameSecond "parse" "parse" =
      [(snapshot "parse" "parse" "child" ["base"] "2026-01-01T00:00:00Z", 0),
        (snapshot "parse" "parse" "base" [] "2026-01-01T00:00:00Z", 1)] := by decide
  rw [both] at inside
  rcases List.mem_cons.mp inside with rfl | inside
  · exact ⟨rfl, rfl⟩
  · obtain rfl := List.mem_singleton.mp inside
    exact ⟨rfl, rfl⟩

end Egregore
