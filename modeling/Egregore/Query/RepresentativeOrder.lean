import Egregore.Query.MemoryCollapse

/-!
# The ranking of representatives

Stamps that both are instants order as instants and others by their texts, so that the ranking is
transitive only where a text between those of two instants does not contradict them.
`rankingIsOrder_iff` is exact for a list of candidates, and `StampsInOrder` says the same of
their stamps alone.
-/

namespace Egregore

open Base

section Representatives

variable {chrono : Chrono}

/-- The confidence by which a candidate ranks. -/
def CollapseCandidate.confidenceRank (candidate : CollapseCandidate) : Int :=
  (candidate.confidence.getD F32.negInfinity).totalRank

/-- Three candidates of one confidence: the stamps of the outer two are instants, and the text of
the middle one, which is none, lies between theirs. -/
structure Interposed (chrono : Chrono) (early odd late : CollapseCandidate)
    (left right : Instant) : Prop where
  sameConfidence : early.confidenceRank = odd.confidenceRank ∧
    odd.confidenceRank = late.confidenceRank
  stamps : ∃ earlyText oddText lateText, early.observedAt = some earlyText ∧
    odd.observedAt = some oddText ∧ late.observedAt = some lateText ∧
      chrono.parseFromRfc3339 earlyText = .ok left ∧
      chrono.parseFromRfc3339 lateText = .ok right ∧
      (∀ instant, chrono.parseFromRfc3339 oddText ≠ .ok instant) ∧
      byteOrder earlyText oddText = .lt ∧ byteOrder oddText lateText = .lt

/-- Wherever a stamp that is no instant lies between two that are, the instants agree with the
texts. -/
def StampsAgree (chrono : Chrono) (members : List CollapseCandidate) : Prop :=
  ∀ early ∈ members, ∀ odd ∈ members, ∀ late ∈ members, ∀ left right,
    Interposed chrono early odd late left right →
      left < right ∨ left = right ∧ byteOrder early.recordId late.recordId = .lt

/-- The order among candidates of one confidence. -/
def tieOrder (chrono : Chrono) (first second : CollapseCandidate) : Ordering :=
  (observedOrder chrono first.observedAt second.observedAt).then
    (byteOrder first.recordId second.recordId)

theorem representativeOrder_ne_gt_iff {first second : CollapseCandidate} :
    representativeOrder chrono first second ≠ .gt ↔
      second.confidenceRank < first.confidenceRank ∨
        first.confidenceRank = second.confidenceRank ∧ tieOrder chrono first second ≠ .gt := by
  rw [representativeOrder, then_ne_gt_iff, F32.totalCmp, cmp_eq_lt_iff, cmp_eq_eq_iff]
  exact or_congr_right (and_congr_left fun _ => eq_comm)

theorem stampOrder_swap (first second : String) :
    stampOrder chrono second first = (stampOrder chrono first second).swap := by
  rw [stampOrder, stampOrder]
  cases chrono.parseFromRfc3339 first <;> cases chrono.parseFromRfc3339 second
  · exact Std.OrientedCmp.eq_swap
  · exact Std.OrientedCmp.eq_swap
  · exact Std.OrientedCmp.eq_swap
  · exact (cmp_swap _ _).symm

theorem tieOrder_swap (first second : CollapseCandidate) :
    tieOrder chrono second first = (tieOrder chrono first second).swap := by
  have observed : observedOrder chrono second.observedAt first.observedAt =
      (observedOrder chrono first.observedAt second.observedAt).swap := by
    cases first.observedAt <;> cases second.observedAt
    · rfl
    · rfl
    · rfl
    · exact stampOrder_swap _ _
  have ids : byteOrder second.recordId first.recordId =
      (byteOrder first.recordId second.recordId).swap := Std.OrientedCmp.eq_swap
  rw [tieOrder, tieOrder, Ordering.swap_then, observed, ids]

theorem representativeOrder_eq (first second : CollapseCandidate) :
    representativeOrder chrono first second =
      (cmp second.confidenceRank first.confidenceRank).then (tieOrder chrono first second) :=
  rfl

theorem representativeOrder_swap (first second : CollapseCandidate) :
    representativeOrder chrono second first = (representativeOrder chrono first second).swap := by
  rw [representativeOrder_eq, representativeOrder_eq, Ordering.swap_then, cmp_swap, tieOrder_swap]

theorem byteOrder_ne_gt_trans {first second third : String} (le : byteOrder first second ≠ .gt)
    (le' : byteOrder second third ≠ .gt) : byteOrder first third ≠ .gt := by
  apply Ordering.ne_gt_iff_isLE.mpr
  exact Std.TransCmp.isLE_trans (Ordering.ne_gt_iff_isLE.mp le) (Ordering.ne_gt_iff_isLE.mp le')

/-- Two stamps of which one is no instant order by their texts. -/
theorem tieOrder_text {first second : CollapseCandidate} {text other : String}
    (observed : first.observedAt = some text) (observed' : second.observedAt = some other)
    (odd : (∀ instant, chrono.parseFromRfc3339 text ≠ .ok instant) ∨
      ∀ instant, chrono.parseFromRfc3339 other ≠ .ok instant) :
    tieOrder chrono first second ≠ .gt ↔ byteOrder text other = .lt ∨
      text = other ∧ byteOrder first.recordId second.recordId ≠ .gt := by
  have byText : stampOrder chrono text other = byteOrder text other := by
    rw [stampOrder]
    split
    · next left right parsed parsed' =>
      rcases odd with odd | odd
      · exact absurd parsed (odd left)
      · exact absurd parsed' (odd right)
    · rfl
  rw [tieOrder, observed, observed', observedOrder, byText, then_ne_gt_iff, byteOrder_eq_iff]

/-- Two instants order as such. -/
theorem tieOrder_instant {first second : CollapseCandidate} {text other : String}
    {left right : Instant} (observed : first.observedAt = some text)
    (observed' : second.observedAt = some other)
    (parsed : chrono.parseFromRfc3339 text = .ok left)
    (parsed' : chrono.parseFromRfc3339 other = .ok right) :
    tieOrder chrono first second ≠ .gt ↔ left < right ∨
      left = right ∧ byteOrder first.recordId second.recordId ≠ .gt := by
  rw [tieOrder, observed, observed', observedOrder, stampOrder, parsed, parsed', then_ne_gt_iff,
    cmp_eq_lt_iff, cmp_eq_eq_iff]

instance : IsTrans String fun text other => byteOrder text other = .lt where
  trans _ _ _ := Std.TransCmp.lt_trans

/-- A stamp that is no instant and one that is order by their texts, without draws. -/
theorem tieOrder_mixed {first second : CollapseCandidate} {text other : String}
    (observed : first.observedAt = some text) (observed' : second.observedAt = some other)
    (mixed : (∀ instant, chrono.parseFromRfc3339 text ≠ .ok instant) ↔
      ∃ instant, chrono.parseFromRfc3339 other = .ok instant) :
    tieOrder chrono first second ≠ .gt ↔ byteOrder text other = .lt := by
  have apart : text ≠ other := by
    rintro rfl
    by_cases odd : ∀ instant, chrono.parseFromRfc3339 text ≠ .ok instant
    · obtain ⟨instant, parsed⟩ := mixed.mp odd
      exact odd instant parsed
    · exact odd (mixed.mpr (by simpa using odd))
  rw [tieOrder_text observed observed' (by grind), or_iff_left (fun same => apart same.1)]

variable {members : List CollapseCandidate}

/-- Where the stamps agree, the later of two instants with an interposed stamp ranks after. -/
theorem StampsAgree.tieOrder_eq_gt (agree : StampsAgree chrono members)
    {early odd late : CollapseCandidate} (inEarly : early ∈ members) (inOdd : odd ∈ members)
    (inLate : late ∈ members) {left right : Instant}
    (interposed : Interposed chrono early odd late left right) :
    tieOrder chrono late early = .gt := by
  obtain ⟨earlyText, oddText, lateText, observed, -, observed', parsed, parsed', -⟩ :=
    interposed.stamps
  by_contra le
  rcases (tieOrder_instant observed' observed parsed' parsed).mp le with less | ⟨rfl, ids⟩
  · rcases agree early inEarly odd inOdd late inLate left right interposed with less' | ⟨rfl, -⟩
    · exact less.asymm less'
    · exact less.ne rfl
  · rcases agree early inEarly odd inOdd late inLate right right interposed with less | ⟨-, id⟩
    · exact less.ne rfl
    · exact ids (Std.OrientedCmp.gt_of_lt id)

/-- Where each two of three stamps have one that is no instant, the texts order them. -/
theorem tieOrder_trans_text {first second third : CollapseCandidate} {text text' text'' : String}
    (observed : first.observedAt = some text) (observed' : second.observedAt = some text')
    (observed'' : third.observedAt = some text'')
    (odd : (∀ instant, chrono.parseFromRfc3339 text ≠ .ok instant) ∨
      ∀ instant, chrono.parseFromRfc3339 text' ≠ .ok instant)
    (odd' : (∀ instant, chrono.parseFromRfc3339 text' ≠ .ok instant) ∨
      ∀ instant, chrono.parseFromRfc3339 text'' ≠ .ok instant)
    (odd'' : (∀ instant, chrono.parseFromRfc3339 text ≠ .ok instant) ∨
      ∀ instant, chrono.parseFromRfc3339 text'' ≠ .ok instant)
    (le : tieOrder chrono first second ≠ .gt) (le' : tieOrder chrono second third ≠ .gt) :
    tieOrder chrono first third ≠ .gt := by
  rw [tieOrder_text observed observed' odd] at le
  rw [tieOrder_text observed' observed'' odd'] at le'
  rw [tieOrder_text observed observed'' odd'']
  exact lex_trans (fun text other => byteOrder text other = .lt)
    (fun _ _ => byteOrder_ne_gt_trans) le le'

/-- Among observed candidates of one confidence, the order is transitive where the stamps agree. -/
theorem StampsAgree.tieOrder_trans_some (agree : StampsAgree chrono members)
    {first second third : CollapseCandidate} (inFirst : first ∈ members)
    (inSecond : second ∈ members) (inThird : third ∈ members)
    (same : first.confidenceRank = second.confidenceRank)
    (same' : second.confidenceRank = third.confidenceRank) {text text' text'' : String}
    (observed : first.observedAt = some text) (observed' : second.observedAt = some text')
    (observed'' : third.observedAt = some text'')
    (le : tieOrder chrono first second ≠ .gt) (le' : tieOrder chrono second third ≠ .gt) :
    tieOrder chrono first third ≠ .gt := by
  have before {item later : CollapseCandidate} (le : tieOrder chrono item later ≠ .gt)
      {text other : String} (observed : item.observedAt = some text)
      (observed' : later.observedAt = some other)
      (mixed : (∀ instant, chrono.parseFromRfc3339 text ≠ .ok instant) ↔
        ∃ instant, chrono.parseFromRfc3339 other = .ok instant) : byteOrder text other = .lt :=
    (tieOrder_mixed observed observed' mixed).mp le
  have reversed (greater : tieOrder chrono first third = .gt) :
      tieOrder chrono third first ≠ .gt := by
    rw [tieOrder_swap, greater]
    decide
  cases parsed : chrono.parseFromRfc3339 text with
  | error =>
    have odd : ∀ instant, chrono.parseFromRfc3339 text ≠ .ok instant := by simp [parsed]
    cases parsed' : chrono.parseFromRfc3339 text' with
    | error =>
      exact tieOrder_trans_text observed observed' observed'' (Or.inl odd)
        (Or.inl (by simp [parsed'])) (Or.inl odd) le le'
    | ok middle =>
      cases parsed'' : chrono.parseFromRfc3339 text'' with
      | error =>
        exact tieOrder_trans_text observed observed' observed'' (Or.inl odd)
          (Or.inr (by simp [parsed''])) (Or.inl odd) le le'
      | ok right =>
        -- Were the third before the first, the first would lie between the third and the second.
        intro greater
        apply le'
        exact agree.tieOrder_eq_gt inThird inFirst inSecond
          ⟨⟨(same.trans same').symm, same⟩, text'', text, text', observed'', observed, observed',
            parsed'', parsed', odd, before (reversed greater) observed'' observed (by simp [*]),
            before le observed observed' (by simp [*])⟩
  | ok left =>
    cases parsed' : chrono.parseFromRfc3339 text' with
    | error =>
      have odd' : ∀ instant, chrono.parseFromRfc3339 text' ≠ .ok instant := by simp [parsed']
      cases parsed'' : chrono.parseFromRfc3339 text'' with
      | error =>
        exact tieOrder_trans_text observed observed' observed'' (Or.inr odd') (Or.inl odd')
          (Or.inr (by simp [parsed''])) le le'
      | ok right =>
        have greater := agree.tieOrder_eq_gt inFirst inSecond inThird
          ⟨⟨same, same'⟩, text, text', text'', observed, observed', observed'', parsed, parsed'',
            odd', before le observed observed' (by simp [*]),
            before le' observed' observed'' (by simp [*])⟩
        rw [tieOrder_swap, greater]
        decide
    | ok middle =>
      cases parsed'' : chrono.parseFromRfc3339 text'' with
      | error =>
        intro greater
        apply le
        exact agree.tieOrder_eq_gt inSecond inThird inFirst
          ⟨⟨same', (same.trans same').symm⟩, text', text'', text, observed', observed'', observed,
            parsed', parsed, by simp [parsed''], before le' observed' observed'' (by simp [*]),
            before (reversed greater) observed'' observed (by simp [*])⟩
      | ok right =>
        rw [tieOrder_instant observed observed' parsed parsed'] at le
        rw [tieOrder_instant observed' observed'' parsed' parsed''] at le'
        rw [tieOrder_instant observed observed'' parsed parsed'']
        exact lex_trans (· < ·) (fun _ _ => byteOrder_ne_gt_trans) le le'

theorem StampsAgree.tieOrder_trans (agree : StampsAgree chrono members)
    {first second third : CollapseCandidate} (inFirst : first ∈ members)
    (inSecond : second ∈ members) (inThird : third ∈ members)
    (same : first.confidenceRank = second.confidenceRank)
    (same' : second.confidenceRank = third.confidenceRank)
    (le : tieOrder chrono first second ≠ .gt) (le' : tieOrder chrono second third ≠ .gt) :
    tieOrder chrono first third ≠ .gt := by
  cases observed'' : third.observedAt with
  | some text'' =>
    cases observed' : second.observedAt with
    | none => simp [tieOrder, observedOrder, observed', observed''] at le'
    | some text' =>
      cases observed : first.observedAt with
      | none => simp [tieOrder, observedOrder, observed, observed'] at le
      | some text =>
        exact agree.tieOrder_trans_some inFirst inSecond inThird same same' observed observed'
          observed'' le le'
  | none =>
    cases observed : first.observedAt with
    | some text => simp [tieOrder, observedOrder, observed, observed'']
    | none =>
      cases observed' : second.observedAt with
      | some text' => simp [tieOrder, observedOrder, observed, observed'] at le
      | none =>
        simp only [tieOrder, observedOrder, observed, observed', observed''] at le le' ⊢
        exact byteOrder_ne_gt_trans le le'

/-- The ranking is consistent exactly where the stamps agree. -/
theorem consistent_representativeOrder_iff :
    Consistent (representativeOrder chrono) members ↔ StampsAgree chrono members := by
  constructor
  · intro consistent early inEarly odd inOdd late inLate left right interposed
    obtain ⟨⟨same, same'⟩, earlyText, oddText, lateText, observed, observed', observed'', parsed,
      parsed', odd_, less, less'⟩ := interposed
    have le : representativeOrder chrono early odd ≠ .gt := representativeOrder_ne_gt_iff.mpr
      (Or.inr ⟨same, (tieOrder_text observed observed' (Or.inr odd_)).mpr (Or.inl less)⟩)
    have le' : representativeOrder chrono odd late ≠ .gt := representativeOrder_ne_gt_iff.mpr
      (Or.inr ⟨same', (tieOrder_text observed' observed'' (Or.inl odd_)).mpr (Or.inl less')⟩)
    -- The two outer candidates do not draw, or the last would rank before the middle one.
    have apart : representativeOrder chrono late early = .gt := by
      by_contra draw
      have back := consistent.transitive late inLate early inEarly odd inOdd draw le
      rw [representativeOrder_ne_gt_iff, tieOrder_mixed observed'' observed' (by simp [*])] at back
      rcases back with apart | ⟨-, greater⟩
      · exact apart.ne same'
      · exact absurd (less'.symm.trans (Std.OrientedCmp.eq_swap.trans (by rw [greater])))
          (by decide)
    have strict : tieOrder chrono early late = .lt := by
      rw [representativeOrder_eq, same.trans same', cmp_self_eq_eq] at apart
      rw [tieOrder_swap, show tieOrder chrono late early = .gt from apart]
      rfl
    rw [tieOrder, observed, observed'', observedOrder, stampOrder, parsed, parsed'] at strict
    rw [Ordering.then_eq_lt, cmp_eq_lt_iff, cmp_eq_eq_iff] at strict
    exact strict
  · intro agree
    refine ⟨fun first _ second _ => representativeOrder_swap first second, ?_⟩
    intro first inFirst second inSecond third inThird le le'
    rw [representativeOrder_ne_gt_iff] at le le' ⊢
    exact lex_trans (fun rank rank' : Int => rank' < rank) (fun same same' =>
      agree.tieOrder_trans inFirst inSecond inThird same same') le le'

/-- The ranking is a total order on the members, and the representative that a sort by it finds does
not depend on their order. -/
def RankingIsOrder (sort : SliceSort) (chrono : Chrono) (members : List CollapseCandidate) : Prop :=
  Consistent (representativeOrder chrono) members ∧
    ((members.map CollapseCandidate.recordId).Nodup → ∀ other, members.Perm other →
      ∃ ranked ranked', sort.run (representativeOrder chrono) members = some ranked ∧
        sort.run (representativeOrder chrono) other = some ranked' ∧ ranked'.head? = ranked.head?)

/-- The ranking is an order exactly where the stamps agree. -/
theorem rankingIsOrder_iff (sort : SliceSort) (chrono : Chrono)
    (members : List CollapseCandidate) :
    RankingIsOrder sort chrono members ↔ StampsAgree chrono members := by
  rw [RankingIsOrder, consistent_representativeOrder_iff]
  refine and_iff_left_of_imp fun agree distinct other same => ?_
  obtain ⟨ranked, found, found'⟩ :=
    sort.run_eq_of_perm (consistent_representativeOrder_iff.mpr agree) (fun first inFirst second
      inSecond draw => by
        rw [representativeOrder_eq, Ordering.then_eq_eq, tieOrder, Ordering.then_eq_eq] at draw
        exact List.inj_on_of_nodup_map distinct inFirst inSecond (byteOrder_eq_iff.mp draw.2.2))
      same
  exact ⟨ranked, ranked, found, found', rfl⟩

end Representatives

/-! ## The order of the stamps -/

section Stamps

variable {chrono : Chrono} {stamps : List String} {members : List CollapseCandidate}

/-- By their texts, a stamp that is no instant lies between two that are only if these are in
order. -/
def StampsInOrder (chrono : Chrono) (stamps : List String) : Prop :=
  ∀ early ∈ stamps, ∀ odd ∈ stamps, ∀ late ∈ stamps, ∀ left right,
    chrono.parseFromRfc3339 early = .ok left → chrono.parseFromRfc3339 late = .ok right →
      (∀ instant, chrono.parseFromRfc3339 odd ≠ .ok instant) →
        byteOrder early odd = .lt → byteOrder odd late = .lt → left < right

/-- A candidate that ranks by its stamp and its ID only. -/
def rankedCandidate (recordId observedAt : String) : CollapseCandidate where
  recordId := recordId
  kind := "Observation"
  trustClass := .agentUnverified
  agentAuthored := true
  primaryTarget := none
  bodyText := "same body"
  confidence := none
  observedAt := some observedAt
  vector := none
  retrievalScore := none

/-- Candidates of one ID rank as their stamps. -/
theorem representativeOrder_ranked (id first second : String) :
    representativeOrder chrono (rankedCandidate id first) (rankedCandidate id second) =
      stampOrder chrono first second := by
  have sameRank : (rankedCandidate id second).confidenceRank =
      (rankedCandidate id first).confidenceRank := rfl
  rw [representativeOrder_eq, sameRank, cmp_self_eq_eq, Ordering.eq_then, tieOrder]
  simp only [rankedCandidate, observedOrder, byteOrder_eq_iff.mpr, Ordering.then_eq]

/-- Stamps of one ID agree exactly if they are in order. -/
theorem stampsAgree_ranked_iff (id : String) :
    StampsAgree chrono (stamps.map (rankedCandidate id)) ↔ StampsInOrder chrono stamps := by
  constructor
  · intro agree early inEarly odd inOdd late inLate left right parsed parsed' no less less'
    have ranked := agree _ (List.mem_map_of_mem inEarly) _ (List.mem_map_of_mem inOdd) _
      (List.mem_map_of_mem inLate) left right
      ⟨⟨rfl, rfl⟩, early, odd, late, rfl, rfl, rfl, parsed, parsed', no, less, less'⟩
    refine ranked.resolve_right fun draw => ?_
    have same : byteOrder id id = .eq := byteOrder_eq_iff.mpr rfl
    exact absurd (same.symm.trans draw.2) (by decide)
  · intro inOrder early inEarly odd inOdd late inLate left right interposed
    obtain ⟨earlyStamp, isEarly, rfl⟩ := List.mem_map.mp inEarly
    obtain ⟨oddStamp, isOdd, rfl⟩ := List.mem_map.mp inOdd
    obtain ⟨lateStamp, isLate, rfl⟩ := List.mem_map.mp inLate
    obtain ⟨-, _, _, _, ⟨⟩, ⟨⟩, ⟨⟩, parsed, parsed', no, less, less'⟩ := interposed
    exact Or.inl (inOrder _ isEarly _ isOdd _ isLate left right parsed parsed' no less less')

/-- The order of stamps is consistent exactly where they are in order. -/
theorem consistent_stampOrder_iff :
    Consistent (stampOrder chrono) stamps ↔ StampsInOrder chrono stamps := by
  rw [← stampsAgree_ranked_iff "", ← consistent_representativeOrder_iff]
  constructor
  · intro consistent
    refine ⟨fun first _ second _ => representativeOrder_swap first second, ?_⟩
    intro first inFirst second inSecond third inThird
    obtain ⟨stamp, isFirst, rfl⟩ := List.mem_map.mp inFirst
    obtain ⟨stamp', isSecond, rfl⟩ := List.mem_map.mp inSecond
    obtain ⟨stamp'', isThird, rfl⟩ := List.mem_map.mp inThird
    simp only [representativeOrder_ranked]
    exact consistent.transitive stamp isFirst stamp' isSecond stamp'' isThird
  · intro consistent
    refine ⟨fun first _ second _ => stampOrder_swap first second, ?_⟩
    intro first isFirst second isSecond third isThird
    have ranked := consistent.transitive _ (List.mem_map_of_mem isFirst) _
      (List.mem_map_of_mem isSecond) _ (List.mem_map_of_mem isThird)
    simpa only [representativeOrder_ranked] using ranked

/-- Where the stamps of candidates are in order, they agree on their ranking. -/
theorem StampsInOrder.stampsAgree
    (inOrder : StampsInOrder chrono (members.filterMap CollapseCandidate.observedAt)) :
    StampsAgree chrono members := by
  intro early inEarly odd inOdd late inLate left right interposed
  obtain ⟨-, earlyText, oddText, lateText, observed, observed', observed'', parsed, parsed', no,
    less, less'⟩ := interposed
  exact Or.inl (inOrder earlyText (List.mem_filterMap.mpr ⟨early, inEarly, observed⟩)
    oddText (List.mem_filterMap.mpr ⟨odd, inOdd, observed'⟩)
    lateText (List.mem_filterMap.mpr ⟨late, inLate, observed''⟩) left right parsed parsed' no less
    less')

end Stamps

section Sample

/-- The stamp without seconds is no instant, and the one with an offset is the earlier. -/
def stampChrono : Chrono where
  parseFromRfc3339
    | "2026-01-01T00:00:00Z" => .ok (toLex (1767225600, 0))
    | "2026-01-01T00:30:00+01:00" => .ok (toLex (1767223800, 0))
    | _ => .error "input contains invalid characters"
  toRfc3339Secs _ := ""

/-- Midnight ranks before a stamp without seconds, that before half past midnight one hour east, and
that before midnight. -/
theorem rankingIsOrder_fails :
    ¬ ∀ (sort : SliceSort) (chrono : Chrono) (members : List CollapseCandidate),
      RankingIsOrder sort chrono members := by
  intro always
  have consistent := (always .insertion stampChrono
    [rankedCandidate "a" "2026-01-01T00:00:00Z", rankedCandidate "b" "2026-01-01T00:10",
      rankedCandidate "c" "2026-01-01T00:30:00+01:00"]).1
  have le := consistent.transitive (rankedCandidate "a" "2026-01-01T00:00:00Z") (by simp)
    (rankedCandidate "b" "2026-01-01T00:10") (by simp)
    (rankedCandidate "c" "2026-01-01T00:30:00+01:00") (by simp) (by decide)
    (by decide)
  exact le (by decide)

end Sample

end Egregore
