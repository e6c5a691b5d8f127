import Egregore.Base.Utf8
import Mathlib.Data.List.Induction
import Mathlib.Data.List.ModifyLast
import Mathlib.Data.List.Nodup
import Mathlib.Tactic.Common

/-!
# Token rotation

`daemon.rs`: a rotation supersedes the current token and forgets the generations that have left
the bounded history. A verdict is the one that the whole history of issued tokens gives: what a
rotation forgets would be denied from then on. `rotation_law` follows every sequence of commits,
at any times of the queries.
-/

namespace Egregore

open Base

/-- `AuthVerdict`. -/
inductive AuthVerdict where
  | authorized | superseded | denied
  deriving DecidableEq, Repr

/-- `constant_time_eq`. -/
def constantTimeEq (left right : Bytes) : Bool :=
  if left.length ≠ right.length then false
  else (left.zip right).foldl (fun diff pair => diff ||| (pair.1 ^^^ pair.2)) 0 = 0

/-- `TokenGeneration`. -/
structure TokenGeneration where
  token : String
  issuedAtUnixMs : Nat
  supersededAtUnixMs : Option Nat
  deriving DecidableEq, Repr

/-- A generation once another token replaces it. -/
def TokenGeneration.supersede (nowUnixMs : Nat) (generation : TokenGeneration) : TokenGeneration :=
  { generation with supersededAtUnixMs := some nowUnixMs }

/-- `TokenRotationState`; instants are `u128` milliseconds, far from their bound. -/
structure TokenRotationState where
  generations : List TokenGeneration
  ttlMs : Option Nat
  rotations : Nat
  deriving Repr

namespace TokenRotationState

/-- `TokenRotationState::new`, at the instant it reads. -/
def new (token : String) (ttlMs : Option Nat) (nowUnixMs : Nat) : TokenRotationState where
  generations :=
    [{ token := token,
       issuedAtUnixMs := nowUnixMs,
       supersededAtUnixMs := none }]
  ttlMs := ttlMs
  rotations := 0

/-- `cutover_grace_ms`. -/
def cutoverGraceMs (state : TokenRotationState) : Nat := state.ttlMs.elim 0 fun ttl => ttl / 2

/-- `history_retention_ms`. -/
def historyRetentionMs (state : TokenRotationState) : Nat := state.ttlMs.getD 0

/-- The verdict on a generation that a bearer matches. -/
def verdict (state : TokenRotationState) (generation : TokenGeneration) (nowUnixMs : Nat) :
    AuthVerdict :=
  match generation.supersededAtUnixMs with
  | none => .authorized
  | some supersededAt =>
      if nowUnixMs < supersededAt + state.cutoverGraceMs then .authorized
      else if nowUnixMs < supersededAt + state.cutoverGraceMs + state.historyRetentionMs then
        .superseded
      else .denied

/-- `authorize_at`: the newest generation with the presented token decides. -/
def authorizeAt (state : TokenRotationState) (presented : String) (nowUnixMs : Nat) :
    AuthVerdict :=
  match state.generations.reverse.find? fun generation =>
      constantTimeEq (asBytes generation.token) (asBytes presented) with
  | some generation => state.verdict generation nowUnixMs
  | none => .denied

/-- A generation that a rotation keeps. -/
def retains (state : TokenRotationState) (nowUnixMs : Nat) (generation : TokenGeneration) : Bool :=
  generation.supersededAtUnixMs.all fun supersededAt =>
    nowUnixMs < supersededAt + state.cutoverGraceMs + state.historyRetentionMs

/-- `commit_rotation_at`; `rotations` is a `u64`. -/
def commitRotationAt (state : TokenRotationState) (token : String) (nowUnixMs : Nat) :
    TokenRotationState :=
  let retained := state.generations.filter (state.retains nowUnixMs)
  { state with
    generations := retained.modifyLast (TokenGeneration.supersede nowUnixMs) ++
      [{ token := token,
         issuedAtUnixMs := nowUnixMs,
         supersededAtUnixMs := none }]
    rotations := (state.rotations + 1) % 2 ^ 64 }

/-- A run of rotations, each a token with the instant it is committed at. -/
def rotated (state : TokenRotationState) (commits : List (String × Nat)) : TokenRotationState :=
  commits.foldl (fun state commit => state.commitRotationAt commit.1 commit.2) state

end TokenRotationState

section Compare

private theorem foldl_or_eq_zero (pairs : List (UInt8 × UInt8)) (diff : UInt8) :
    pairs.foldl (fun diff pair => diff ||| (pair.1 ^^^ pair.2)) diff = 0 ↔
      diff = 0 ∧ ∀ pair ∈ pairs, pair.1 = pair.2 := by
  induction pairs generalizing diff with
  | nil => simp
  | cons pair pairs ih =>
      rw [List.foldl_cons, ih, UInt8.or_eq_zero_iff, UInt8.xor_eq_zero_iff, and_assoc,
        List.forall_mem_cons]

/-- Comparing all bytes without branching is comparing. -/
theorem constantTimeEq_eq_true {left right : Bytes} :
    constantTimeEq left right = true ↔ left = right := by
  rw [constantTimeEq]
  split
  · next different =>
      refine iff_of_false (by simp) fun same => different (congrArg List.length same)
  · next same =>
      rw [decide_eq_true_eq, foldl_or_eq_zero, and_iff_right rfl]
      rw [not_not] at same
      constructor
      · intro equal
        apply List.ext_getElem same
        intro position inLeft inRight
        have zipped : position < (left.zip right).length := by
          rw [List.length_zip]
          omega
        have := equal _ (List.getElem_mem zipped)
        rwa [List.getElem_zip] at this
      · rintro rfl pair member
        obtain ⟨position, bound, rfl⟩ := List.getElem_of_mem member
        rw [List.getElem_zip]

theorem constantTimeEq_asBytes {token presented : String} :
    constantTimeEq (asBytes token) (asBytes presented) = true ↔ token = presented := by
  rw [constantTimeEq_eq_true]
  exact ⟨asBytes_injective, congrArg asBytes⟩

end Compare

namespace TokenRotationState

section History

/-- The tokens of a run, in the order they are issued. -/
def issued (first : String) (commits : List (String × Nat)) : List String :=
  first :: commits.map Prod.fst

/-- Every generation of a run: each token with the instant the next one superseded it. -/
def history (first : String) (issuedAt : Nat) : List (String × Nat) → List TokenGeneration
  | [] => [⟨first, issuedAt, none⟩]
  | (token, nowUnixMs) :: commits =>
      ⟨first, issuedAt, some nowUnixMs⟩ :: history token nowUnixMs commits

theorem map_token_history (first : String) (issuedAt : Nat) (commits : List (String × Nat)) :
    (history first issuedAt commits).map TokenGeneration.token = issued first commits := by
  induction commits generalizing first issuedAt with
  | nil => rfl
  | cons commit commits ih => exact congrArg (first :: ·) (ih commit.1 commit.2)

/-- The superseded generations of a run, oldest first, and the current one. -/
theorem history_eq_append (first : String) (issuedAt : Nat) (commits : List (String × Nat)) :
    ∃ old current, history first issuedAt commits = old ++ [current] ∧
      current.supersededAtUnixMs = none ∧
      old.map TokenGeneration.supersededAtUnixMs = commits.map fun commit => some commit.2 := by
  induction commits generalizing first issuedAt with
  | nil => exact ⟨[], ⟨first, issuedAt, none⟩, rfl, rfl, rfl⟩
  | cons commit commits ih =>
      obtain ⟨old, current, isHistory, isCurrent, instants⟩ := ih commit.1 commit.2
      refine ⟨⟨first, issuedAt, some commit.2⟩ :: old, current, ?_, isCurrent, ?_⟩
      · rw [history, isHistory, List.cons_append]
      · rw [List.map_cons, List.map_cons, instants]

/-- A rotation supersedes the last generation and adds one. -/
theorem history_concat (first : String) (issuedAt : Nat) (commits : List (String × Nat))
    (commit : String × Nat) {old : List TokenGeneration} {current : TokenGeneration}
    (isHistory : history first issuedAt commits = old ++ [current]) :
    history first issuedAt (commits ++ [commit]) =
      (old ++ [current.supersede commit.2]) ++ [⟨commit.1, commit.2, none⟩] := by
  induction commits generalizing first issuedAt old with
  | nil =>
      have alone : old ++ [current] = [] ++ [⟨first, issuedAt, none⟩] := isHistory.symm
      obtain ⟨rfl, same⟩ := List.append_inj' alone rfl
      rw [List.singleton_inj] at same
      subst same
      rfl
  | cons earlier commits ih =>
      rw [history] at isHistory
      cases old with
      | nil =>
          have tokens := map_token_history earlier.1 earlier.2 commits
          rw [(List.cons.inj isHistory).2] at tokens
          contradiction
      | cons oldest old =>
          rw [List.cons_append, List.cons.injEq] at isHistory
          rw [List.cons_append, history, ih earlier.1 earlier.2 isHistory.2, isHistory.1]
          rfl

end History

section Pruning

variable {state : TokenRotationState} {old all : List TokenGeneration} {current : TokenGeneration}
  {nowUnixMs : Nat}

/-- What a state keeps, at an instant, of a history: the current generation, and each other one
unless it has left the bounded history. -/
structure Keeps (state : TokenRotationState) (nowUnixMs : Nat) (old all : List TokenGeneration)
    (current : TokenGeneration) : Prop where
  generations : state.generations = old ++ [current]
  isCurrent : current.supersededAtUnixMs = none
  sublist : old.Sublist all
  superseded : ∀ generation ∈ all, generation.supersededAtUnixMs.isSome
  forgotten : ∀ generation ∈ all, generation ∉ old → state.retains nowUnixMs generation = false
  retained : 0 < state.historyRetentionMs → ∀ generation ∈ old,
    state.retains nowUnixMs generation = true

/-- What has left the history stays out of it. -/
theorem retains_mono {generation : TokenGeneration} {later : Nat} (le : nowUnixMs ≤ later)
    (forgotten : state.retains nowUnixMs generation = false) :
    state.retains later generation = false := by
  cases superseded : generation.supersededAtUnixMs with
  | none => simp [retains, superseded] at forgotten
  | some supersededAt =>
      simp only [retains, superseded, Option.all_some, decide_eq_false_iff_not] at forgotten ⊢
      omega

/-- A rotation keeps what it does not forget. -/
theorem Keeps.commit (keeps : Keeps state nowUnixMs old all current) (token : String) {later : Nat}
    (le : nowUnixMs ≤ later) :
    Keeps (state.commitRotationAt token later) later
      (old.filter (state.retains later) ++ [current.supersede later])
      (all ++ [current.supersede later]) ⟨token, later, none⟩ where
  generations := by
    have stays : state.retains later current = true := by simp [retains, keeps.isCurrent]
    rw [commitRotationAt, keeps.generations, List.filter_append, List.filter_singleton, stays,
      Bool.cond_true, List.modifyLast_concat]
  isCurrent := rfl
  sublist := (List.filter_sublist.trans keeps.sublist).append (List.Sublist.refl _)
  superseded generation member := by
    rcases List.mem_append.mp member with earlier | last
    · exact keeps.superseded generation earlier
    · rw [List.mem_singleton.mp last]
      rfl
  forgotten generation member absent := by
    rw [List.mem_append, not_or, List.mem_filter, not_and] at absent
    rcases List.mem_append.mp member with earlier | last
    · by_cases kept : generation ∈ old
      · exact Bool.eq_false_iff.mpr (absent.1 kept)
      · exact retains_mono le (keeps.forgotten generation earlier kept)
    · exact absurd last absent.2
  retained positive generation member := by
    rcases List.mem_append.mp member with earlier | last
    · exact (List.mem_filter.mp earlier).2
    · rw [List.mem_singleton.mp last]
      simp only [retains, TokenGeneration.supersede, Option.all_some, decide_eq_true_eq]
      omega

/-- The instant of the last rotation of a run. -/
def lastCommitAt (commits : List (String × Nat)) : Nat :=
  (commits.getLast?.map Prod.snd).getD 0

@[simp] theorem lastCommitAt_concat (commits : List (String × Nat)) (commit : String × Nat) :
    lastCommitAt (commits ++ [commit]) = commit.2 := by
  simp [lastCommitAt]

theorem lastCommitAt_le {commits : List (String × Nat)} {bound : Nat}
    (bounded : ∀ commit ∈ commits, commit.2 ≤ bound) : lastCommitAt commits ≤ bound := by
  rw [lastCommitAt]
  cases last : commits.getLast? with
  | none => exact Nat.zero_le _
  | some commit => exact bounded commit (List.mem_of_getLast? last)

theorem rotated_concat (commits : List (String × Nat)) (commit : String × Nat) :
    state.rotated (commits ++ [commit]) =
      (state.rotated commits).commitRotationAt commit.1 commit.2 := by
  rw [rotated, rotated, List.foldl_append]
  rfl

/-- A run keeps what it does not forget. -/
theorem keeps_rotated (first : String) (ttlMs : Option Nat) (issuedAt : Nat)
    (commits : List (String × Nat))
    (ordered : commits.Pairwise fun earlier later => earlier.2 ≤ later.2) :
    ∃ old all current, history first issuedAt commits = all ++ [current] ∧
      Keeps ((new first ttlMs issuedAt).rotated commits) (lastCommitAt commits) old all current := by
  induction commits using List.reverseRecOn with
  | nil =>
      refine ⟨[], [], ⟨first, issuedAt, none⟩, rfl, ?_⟩
      constructor
      · rfl
      · rfl
      · exact List.Sublist.refl _
      · simp
      · simp
      · simp
  | append_singleton commits commit ih =>
      rw [List.pairwise_append] at ordered
      obtain ⟨old, all, current, isHistory, keeps⟩ := ih ordered.1
      have le : lastCommitAt commits ≤ commit.2 := lastCommitAt_le fun earlier member =>
        ordered.2.2 earlier member commit (List.mem_singleton_self commit)
      rw [rotated_concat, lastCommitAt_concat]
      exact ⟨_, _, _, history_concat first issuedAt commits commit isHistory,
        keeps.commit commit.1 le⟩

end Pruning

section Verdict

variable {state : TokenRotationState}

/-- The generation of a token decides, if tokens are distinct. -/
theorem authorizeAt_of_mem (distinct : (state.generations.map TokenGeneration.token).Nodup)
    {generation : TokenGeneration} (member : generation ∈ state.generations) (nowUnixMs : Nat) :
    state.authorizeAt generation.token nowUnixMs = state.verdict generation nowUnixMs := by
  rw [authorizeAt]
  split
  · next found isFound =>
      have same := List.find?_some isFound
      rw [constantTimeEq_asBytes] at same
      have inside := List.mem_reverse.mp (List.mem_of_find?_eq_some isFound)
      rw [List.inj_on_of_nodup_map distinct inside member same]
  · next none =>
      rw [List.find?_eq_none] at none
      have := none generation (List.mem_reverse.mpr member)
      rw [constantTimeEq_asBytes] at this
      exact absurd rfl this

theorem authorizeAt_of_absent {token : String}
    (absent : ∀ generation ∈ state.generations, generation.token ≠ token) (nowUnixMs : Nat) :
    state.authorizeAt token nowUnixMs = .denied := by
  rw [authorizeAt]
  split
  · next found isFound =>
      have same := List.find?_some isFound
      rw [constantTimeEq_asBytes] at same
      exact absurd same (absent found (List.mem_reverse.mp (List.mem_of_find?_eq_some isFound)))
  · rfl

/-- What a rotation forgets would be denied. -/
theorem verdict_of_not_retains {generation : TokenGeneration} {nowUnixMs : Nat}
    (forgotten : state.retains nowUnixMs generation = false) :
    state.verdict generation nowUnixMs = .denied := by
  cases superseded : generation.supersededAtUnixMs with
  | none => simp [retains, superseded] at forgotten
  | some supersededAt =>
      simp only [retains, superseded, Option.all_some, decide_eq_false_iff_not] at forgotten
      simp only [verdict, superseded]
      rw [if_neg (by omega), if_neg forgotten]

/-- Pruning changes no verdict: from the last rotation on, each issued token has the verdict that
its place in the whole history gives it. -/
theorem authorizeAt_rotated {first : String} {ttlMs : Option Nat} {issuedAt : Nat}
    {commits : List (String × Nat)}
    (ordered : commits.Pairwise fun earlier later => earlier.2 ≤ later.2)
    (distinct : (issued first commits).Nodup) {generation : TokenGeneration}
    (member : generation ∈ history first issuedAt commits) {nowUnixMs : Nat}
    (later : ∀ commit ∈ commits, commit.2 ≤ nowUnixMs) :
    ((new first ttlMs issuedAt).rotated commits).authorizeAt generation.token nowUnixMs =
      ((new first ttlMs issuedAt).rotated commits).verdict generation nowUnixMs := by
  obtain ⟨old, all, current, isHistory, keeps⟩ := keeps_rotated first ttlMs issuedAt commits ordered
  have sublist : ((new first ttlMs issuedAt).rotated commits).generations.Sublist
      (history first issuedAt commits) := by
    rw [keeps.generations, isHistory]
    exact keeps.sublist.append (List.Sublist.refl _)
  rw [← map_token_history first issuedAt] at distinct
  by_cases kept : generation ∈ ((new first ttlMs issuedAt).rotated commits).generations
  · exact authorizeAt_of_mem (distinct.sublist (sublist.map _)) kept nowUnixMs
  · have forgotten : ((new first ttlMs issuedAt).rotated commits).retains (lastCommitAt commits)
        generation = false := by
      rw [keeps.generations, List.mem_append, not_or] at kept
      rw [isHistory] at member
      rcases List.mem_append.mp member with superseded | isCurrent
      · exact keeps.forgotten generation superseded kept.1
      · exact absurd isCurrent kept.2
    rw [verdict_of_not_retains (retains_mono (lastCommitAt_le later) forgotten)]
    apply authorizeAt_of_absent
    intro other inside same
    apply kept
    rwa [← List.inj_on_of_nodup_map distinct (sublist.mem inside) member same]

end Verdict

section Law

theorem ttlMs_rotated (state : TokenRotationState) (commits : List (String × Nat)) :
    (state.rotated commits).ttlMs = state.ttlMs := by
  induction commits generalizing state with
  | nil => rfl
  | cons commit commits ih => exact ih (state.commitRotationAt commit.1 commit.2)

/-- The token issued before a rotation is superseded by it. -/
theorem exists_superseded {first : String} {issuedAt : Nat} {commits : List (String × Nat)}
    {k : Nat} {token next : String} {supersededAt : Nat}
    (isToken : (issued first commits)[k]? = some token)
    (isCommit : commits[k]? = some (next, supersededAt)) :
    ∃ generation ∈ history first issuedAt commits,
      generation.token = token ∧ generation.supersededAtUnixMs = some supersededAt := by
  induction commits generalizing first issuedAt k with
  | nil => simp at isCommit
  | cons commit commits ih =>
      cases k with
      | zero =>
          simp only [issued, List.getElem?_cons_zero, Option.some.injEq] at isToken isCommit
          subst isToken isCommit
          exact ⟨_, List.mem_cons_self, rfl, rfl⟩
      | succ k =>
          obtain ⟨generation, member, found⟩ := @ih commit.1 commit.2 k
            (by simpa [issued] using isToken) (by simpa using isCommit)
          exact ⟨generation, List.mem_cons_of_mem _ member, found⟩

/-- The current generation holds the last token. -/
theorem token_current {first : String} {issuedAt : Nat} {commits : List (String × Nat)}
    {all : List TokenGeneration} {current : TokenGeneration}
    (isHistory : history first issuedAt commits = all ++ [current]) :
    (issued first commits).getLast? = some current.token := by
  rw [← map_token_history first issuedAt, isHistory]
  simp

variable {state : TokenRotationState} {old all : List TokenGeneration} {current : TokenGeneration}
  {nowUnixMs : Nat}

theorem Keeps.filter_isNone (keeps : Keeps state nowUnixMs old all current) :
    state.generations.filter (fun generation => generation.supersededAtUnixMs.isNone) =
      [current] := by
  rw [keeps.generations, List.filter_append, List.filter_singleton, keeps.isCurrent]
  have none : old.filter (fun generation => generation.supersededAtUnixMs.isNone) = [] := by
    rw [List.filter_eq_nil_iff]
    intro generation member
    have := keeps.superseded generation (keeps.sublist.mem member)
    rw [← Option.not_isSome, this]
    simp
  rw [none]
  rfl

/-- No more is kept than the rotations that are still in the bounded history. -/
theorem Keeps.length_le (keeps : Keeps state nowUnixMs old all current)
    (positive : 0 < state.historyRetentionMs) :
    state.generations.length ≤ all.countP (state.retains nowUnixMs) + 1 := by
  rw [keeps.generations, List.length_append, List.length_singleton, List.countP_eq_length_filter]
  have whole : old.filter (state.retains nowUnixMs) = old :=
    List.filter_eq_self.mpr (keeps.retained positive)
  have fewer := (keeps.sublist.filter (state.retains nowUnixMs)).length_le
  rw [whole] at fewer
  omega

/-- The superseded generations are counted by the rotations that superseded them. -/
theorem countP_superseded {commits : List (String × Nat)} (counted : Option Nat → Bool)
    (instants : all.map TokenGeneration.supersededAtUnixMs = commits.map fun commit =>
      some commit.2) :
    all.countP (counted ∘ TokenGeneration.supersededAtUnixMs) =
      commits.countP fun commit => counted (some commit.2) := by
  rw [← List.countP_map, instants, List.countP_map]
  rfl

/-- A generation is in the bounded history of a lifetime. -/
def inHistory (ttl nowUnixMs : Nat) (superseded : Option Nat) : Bool :=
  superseded.all fun supersededAt => nowUnixMs < supersededAt + ttl / 2 + ttl

/-- Every verdict of a run of rotations, from its last one on; which generation is current; and how
many are kept while rotation is enabled. -/
theorem rotation_law (first : String) (ttlMs : Option Nat) (issuedAt : Nat)
    (commits : List (String × Nat))
    (ordered : commits.Pairwise fun earlier later => earlier.2 ≤ later.2)
    (distinct : (issued first commits).Nodup) :
    let initial := new first ttlMs issuedAt
    let state := initial.rotated commits
    (∀ nowUnixMs, (∀ commit ∈ commits, commit.2 ≤ nowUnixMs) →
      (∀ token, (issued first commits).getLast? = some token →
        state.authorizeAt token nowUnixMs = .authorized) ∧
      (∀ (k : Nat) (token next : String) (supersededAt : Nat),
        (issued first commits)[k]? = some token → commits[k]? = some (next, supersededAt) →
        state.authorizeAt token nowUnixMs =
          if nowUnixMs < supersededAt + initial.cutoverGraceMs then .authorized
          else if nowUnixMs <
            supersededAt + initial.cutoverGraceMs + initial.historyRetentionMs then .superseded
          else .denied) ∧
      ∀ token, token ∉ issued first commits → state.authorizeAt token nowUnixMs = .denied) ∧
    (∃ current, (state.generations.filter fun generation =>
        generation.supersededAtUnixMs.isNone) = [current] ∧
      (issued first commits).getLast? = some current.token) ∧
    ∀ ttl, ttlMs = some ttl → 0 < ttl →
      state.generations.length ≤
        commits.countP (fun commit => lastCommitAt commits < commit.2 + ttl / 2 + ttl) + 1 := by
  intro initial state
  have sameTtl : state.ttlMs = ttlMs := ttlMs_rotated initial commits
  have grace : state.cutoverGraceMs = initial.cutoverGraceMs := by
    rw [cutoverGraceMs, sameTtl]
    rfl
  have retention : state.historyRetentionMs = initial.historyRetentionMs := by
    rw [historyRetentionMs, sameTtl]
    rfl
  obtain ⟨old, all, current, isHistory, keeps⟩ := keeps_rotated first ttlMs issuedAt commits ordered
  refine ⟨fun nowUnixMs later => ⟨?_, ?_, ?_⟩, ⟨current, keeps.filter_isNone, token_current isHistory⟩,
    ?_⟩
  · intro token isLast
    rw [token_current isHistory, Option.some.injEq] at isLast
    have member : current ∈ history first issuedAt commits := by
      rw [isHistory]
      exact List.mem_append_right _ (List.mem_singleton_self current)
    rw [← isLast, authorizeAt_rotated ordered distinct member later, verdict, keeps.isCurrent]
  · intro k token next supersededAt isToken isCommit
    obtain ⟨generation, member, rfl, superseded⟩ := @exists_superseded first issuedAt commits k token
      next supersededAt isToken isCommit
    rw [authorizeAt_rotated ordered distinct member later, verdict, superseded, ← grace,
      ← retention]
  · intro token never
    apply authorizeAt_of_absent
    intro generation member same
    apply never
    rw [← map_token_history first issuedAt, isHistory, ← same]
    apply List.mem_map_of_mem
    rw [keeps.generations] at member
    exact (keeps.sublist.append (List.Sublist.refl _)).mem member
  · intro ttl enabled positive
    have bound := keeps.length_le (by rw [historyRetentionMs, sameTtl, enabled]; exact positive)
    obtain ⟨all', current', isHistory', -, instants⟩ := history_eq_append first issuedAt commits
    obtain ⟨rfl, -⟩ := List.append_inj' (isHistory.symm.trans isHistory') rfl
    have shape : state.retains (lastCommitAt commits) =
        inHistory ttl (lastCommitAt commits) ∘ TokenGeneration.supersededAtUnixMs := by
      funext generation
      simp [retains, inHistory, cutoverGraceMs, historyRetentionMs, sameTtl, enabled]
    rw [shape, countP_superseded _ instants] at bound
    simpa [inHistory] using bound

/-- Three rotations, two of them within one cutover window; the first token is forgotten by the
last. -/
def dailyRotations : List (String × Nat) := [("second", 10), ("third", 12), ("fourth", 40)]

/-- At the edges of the windows of the third token, and for the first, which is forgotten. -/
theorem dailyRotations_law :
    let state := (new "first" (some 10) 0).rotated dailyRotations
    (state.authorizeAt "third" 44 = .authorized ∧ state.authorizeAt "third" 45 = .superseded ∧
      state.authorizeAt "third" 54 = .superseded ∧ state.authorizeAt "third" 55 = .denied) ∧
    state.authorizeAt "first" 40 = .denied := by
  have law := rotation_law "first" (some 10) 0 dailyRotations (by decide) (by decide)
  have third := fun nowUnixMs later => (law.1 nowUnixMs later).2.1 2 "third" "fourth" 40 rfl rfl
  have first := (law.1 40 (by decide)).2.1 0 "first" "second" 10 rfl rfl
  refine ⟨⟨?_, ?_, ?_, ?_⟩, first⟩
  · exact third 44 (by decide)
  · exact third 45 (by decide)
  · exact third 54 (by decide)
  · exact third 55 (by decide)

/-- With rotation disabled the bounded history is empty, and the superseded token is kept still. -/
theorem disabledRotation_not_bounded :
    ¬ ∀ (first : String) (ttlMs : Option Nat) (issuedAt : Nat) (commits : List (String × Nat)),
      (commits.Pairwise fun earlier later => earlier.2 ≤ later.2) →
      (issued first commits).Nodup →
      let initial := new first ttlMs issuedAt
      (initial.rotated commits).generations.length ≤
        commits.countP (fun commit => lastCommitAt commits <
          commit.2 + initial.cutoverGraceMs + initial.historyRetentionMs) + 1 := by
  intro bounded
  have two := bounded "first" none 0 [("second", 5)] (by decide) (by decide)
  revert two
  decide

/-- Between two rotations nothing is pruned: once the bounded history of the first token is over,
two generations are kept and no rotation lies in the window. -/
theorem idleRotation_not_bounded :
    ¬ ∀ (first : String) (ttl issuedAt nowUnixMs : Nat) (commits : List (String × Nat)),
      0 < ttl →
      (commits.Pairwise fun earlier later => earlier.2 ≤ later.2) →
      (issued first commits).Nodup →
      (∀ commit ∈ commits, commit.2 ≤ nowUnixMs) →
      let initial := new first (some ttl) issuedAt
      (initial.rotated commits).generations.length ≤
        commits.countP (fun commit => nowUnixMs <
          commit.2 + initial.cutoverGraceMs + initial.historyRetentionMs) + 1 := by
  intro bounded
  have two := bounded "first" 10 0 20 [("second", 5)] (by decide) (by decide) (by decide)
    (by decide)
  revert two
  decide

end Law

end TokenRotationState

end Egregore
