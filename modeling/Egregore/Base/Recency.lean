import Mathlib.Data.List.Induction
import Mathlib.Tactic.Common

/-!
# Recency in a log

Two questions about an append-only log, for predicates on its events: the
position of the last event satisfying `p`, and whether some `p` is *unanswered*,
that is, followed by no `q`. The second is stated without positions, so it
survives dropping unrelated events; `lastIdx_lt_iff_unanswered` connects it to a
comparison of last positions.
-/

namespace Egregore.Base

variable {α : Type*} {p q keep : α → Bool}

/-- The position of the last event satisfying `p`. -/
def lastIdx (p : α → Bool) : List α → Option Nat
  | [] => none
  | event :: log =>
      match lastIdx p log with
      | some index => some (index + 1)
      | none => if p event then some 0 else none

/-- Some event satisfying `p` is followed by no event satisfying `q`. -/
def unanswered (p q : α → Bool) : List α → Bool
  | [] => false
  | event :: log => unanswered p q log || (p event && log.all fun later => !q later)

/-- The last event to satisfy `p`, itself rather than its position. -/
def lastEvent (p : α → Bool) (log : List α) : Option α := (log.filter p).getLast?

/-- An empty log has no last event. -/
@[simp] theorem lastIdx_nil : lastIdx p ([] : List α) = none := rfl

/-- A new event is the last one if it is of the kind. -/
theorem lastIdx_append_singleton (log : List α) (event : α) :
    lastIdx p (log ++ [event]) = if p event then some log.length else lastIdx p log := by
  induction log with
  | nil => simp [lastIdx]
  | cons head tail ih =>
      simp only [List.cons_append, lastIdx, ih, List.length_cons]
      by_cases holds : p event <;> simp [holds]

/-- Without a last event there is none of the kind. -/
theorem lastIdx_eq_none_iff {log : List α} :
    lastIdx p log = none ↔ ∀ event ∈ log, p event = false := by
  induction log using List.reverseRecOn with
  | nil => simp
  | append_singleton log event ih =>
      rw [lastIdx_append_singleton]
      by_cases holds : p event
      · simp only [holds, if_true]
        constructor
        · intro absurd
          cases absurd
        · intro all
          have := all event (by simp)
          simp [holds] at this
      · simp only [holds, Bool.false_eq_true, if_false, ih, List.mem_append, List.mem_singleton]
        grind

/-- `lastIdx` finds a position that satisfies `p`, with no later one. -/
theorem lastIdx_eq_some_iff {log : List α} {index : Nat} :
    lastIdx p log = some index ↔
      ∃ event, log[index]? = some event ∧ p event = true ∧
        ∀ later ∈ log.drop (index + 1), p later = false := by
  induction log generalizing index with
  | nil => simp
  | cons head tail ih =>
      simp only [lastIdx]
      cases found : lastIdx p tail with
      | some position =>
          simp only [Option.some.injEq]
          obtain ⟨event, at_position, holds, later⟩ := ih.mp found
          constructor
          · rintro rfl
            exact ⟨event, by simpa using at_position, holds, by simpa using later⟩
          · rintro ⟨other, at_index, holds', later'⟩
            cases index with
            | zero =>
                have := later' event (by simpa using List.mem_of_getElem? at_position)
                simp [holds] at this
            | succ index =>
                have : lastIdx p tail = some index :=
                  ih.mpr ⟨other, by simpa using at_index, holds', by simpa using later'⟩
                rw [found] at this
                simpa using this
      | none =>
          have absent := lastIdx_eq_none_iff.mp found
          cases index with
          | zero =>
              by_cases holds : p head
              · simp only [holds, if_true]
                simpa [holds] using absent
              · simp [holds]
          | succ index =>
              constructor
              · intro equal
                split at equal <;> simp_all
              · rintro ⟨event, at_index, holds, -⟩
                have := absent event (List.mem_of_getElem? (by simpa using at_index))
                simp [holds] at this

/-- The last position, as the greatest one. -/
theorem lastIdx_eq_some_iff_greatest {log : List α} {index : Nat} :
    lastIdx p log = some index ↔
      (∃ event, log[index]? = some event ∧ p event = true) ∧
        ∀ (position : Nat) (event : α), log[position]? = some event → p event = true →
          position ≤ index := by
  induction log using List.reverseRecOn generalizing index with
  | nil => simp
  | append_singleton log last ih =>
      rw [lastIdx_append_singleton]
      have bound : ∀ {position : Nat} {event : α}, (log ++ [last])[position]? = some event →
          position ≤ log.length := by
        intro position event found
        have := (List.getElem?_eq_some_iff.mp found).1
        simp only [List.length_append, List.length_singleton] at this
        omega
      have earlier : ∀ {position : Nat}, position < log.length →
          (log ++ [last])[position]? = log[position]? := List.getElem?_append_left
      have atEnd : (log ++ [last])[log.length]? = some last := by simp
      by_cases holds : p last = true
      · rw [if_pos holds, Option.some.injEq]
        constructor
        · rintro rfl
          exact ⟨⟨last, atEnd, holds⟩, fun position event found _ => bound found⟩
        · rintro ⟨⟨event, found, -⟩, greatest⟩
          exact Nat.le_antisymm (greatest _ _ atEnd holds) (bound found)
      · rw [if_neg holds, ih]
        constructor
        · rintro ⟨⟨event, found, satisfies⟩, greatest⟩
          have below := (List.getElem?_eq_some_iff.mp found).1
          refine ⟨⟨event, by rw [earlier below, found], satisfies⟩, ?_⟩
          intro position other at_position satisfies'
          rcases Nat.lt_or_ge position log.length with less | more
          · rw [earlier less] at at_position
            exact greatest position other at_position satisfies'
          · obtain rfl : position = log.length := Nat.le_antisymm (bound at_position) more
            rw [atEnd, Option.some.injEq] at at_position
            exact absurd (at_position ▸ satisfies') holds
        · rintro ⟨⟨event, found, satisfies⟩, greatest⟩
          have below : index < log.length := by
            refine Nat.lt_of_le_of_ne (bound found) fun same => ?_
            subst same
            rw [atEnd, Option.some.injEq] at found
            exact holds (found ▸ satisfies)
          rw [earlier below] at found
          refine ⟨⟨event, found, satisfies⟩, fun position other at_position => ?_⟩
          have less := (List.getElem?_eq_some_iff.mp at_position).1
          exact greatest position other (by rw [earlier less, at_position])

/-- The last event is the one at the last position. -/
theorem lastEvent_eq_some_iff {log : List α} {event : α} :
    lastEvent p log = some event ↔ ∃ index, lastIdx p log = some index ∧ log[index]? = some event := by
  induction log using List.reverseRecOn with
  | nil => simp [lastEvent]
  | append_singleton log last ih =>
      rw [lastEvent, List.filter_append, lastIdx_append_singleton]
      by_cases holds : p last
      · simp [holds]
      · have same : ∀ index, lastIdx p log = some index → (log ++ [last])[index]? = log[index]? := by
          intro index found
          obtain ⟨hit, at_index, -⟩ := lastIdx_eq_some_iff.mp found
          exact List.getElem?_append_left (List.getElem?_eq_some_iff.mp at_index).1
        simp only [holds, Bool.false_eq_true, not_false_eq_true, List.filter_cons_of_neg,
          List.filter_nil, List.append_nil, if_false]
        rw [← lastEvent, ih]
        exact exists_congr fun index => and_congr_right fun found => by rw [same index found]

/-- A filter that keeps the kind keeps its last event. -/
theorem lastEvent_filter (log : List α) (kept : ∀ event ∈ log, p event = true → keep event = true) :
    lastEvent p (log.filter keep) = lastEvent p log := by
  rw [lastEvent, lastEvent, List.filter_filter]
  congr 1
  apply List.filter_congr
  intro event member
  by_cases holds : p event
  · simp [holds, kept event member holds]
  · simp [holds]

/-- Nothing is unanswered in an empty log. -/
@[simp] theorem unanswered_nil : unanswered p q ([] : List α) = false := rfl

/-- An event is unanswered at the end of the second part, or of the first with no answer after. -/
theorem unanswered_append (log rest : List α) :
    unanswered p q (log ++ rest) =
      (unanswered p q rest || (unanswered p q log && rest.all fun later => !q later)) := by
  induction log with
  | nil => simp
  | cons event log ih =>
      simp only [List.cons_append, unanswered, ih, List.all_append]
      cases unanswered p q rest <;> cases unanswered p q log <;>
        cases p event <;> simp

/-- Only which events answer matters, not how it is said. -/
theorem unanswered_congr {answers : α → Bool} {log : List α}
    (same : ∀ event ∈ log, q event = answers event) :
    unanswered p q log = unanswered p answers log := by
  induction log with
  | nil => rfl
  | cons head tail ih =>
      have tailSame : ∀ event ∈ tail, q event = answers event :=
        fun event member => same event (List.mem_cons_of_mem _ member)
      have answered : (tail.all fun later => !q later) = tail.all fun later => !answers later := by
        rw [Bool.eq_iff_iff, List.all_eq_true, List.all_eq_true]
        exact forall₂_congr fun event member => by rw [tailSame event member]
      rw [unanswered, unanswered, ih tailSame, answered]

/-- A new event asks, answers, or changes nothing. -/
theorem unanswered_append_singleton (log : List α) (event : α) :
    unanswered p q (log ++ [event]) = (p event || (unanswered p q log && !q event)) := by
  simp [unanswered_append, unanswered]

/-- An unanswered event splits the log at itself. -/
theorem unanswered_iff {log : List α} :
    unanswered p q log = true ↔
      ∃ before event after, log = before ++ event :: after ∧ p event = true ∧
        ∀ later ∈ after, q later = false := by
  induction log with
  | nil => simp
  | cons head tail ih =>
      simp only [unanswered, Bool.or_eq_true, Bool.and_eq_true, List.all_eq_true,
        Bool.not_eq_true', ih]
      constructor
      · rintro (⟨before, event, after, rfl, holds, later⟩ | ⟨holds, later⟩)
        · exact ⟨head :: before, event, after, rfl, holds, later⟩
        · exact ⟨[], head, tail, rfl, holds, later⟩
      · rintro ⟨before, event, after, split, holds, later⟩
        cases before with
        | nil =>
            obtain ⟨rfl, rfl⟩ := List.cons.inj split
            exact Or.inr ⟨holds, later⟩
        | cons first before =>
            obtain ⟨rfl, rfl⟩ := List.cons.inj split
            exact Or.inl ⟨before, event, after, rfl, holds, later⟩

/-- An answering event makes everything before it irrelevant. -/
theorem unanswered_split {before after : List α} {event : α} (answers : q event = true)
    (noEvent : p event = false) :
    unanswered p q (before ++ event :: after) = unanswered p q after := by
  rw [unanswered_append, unanswered]
  simp [answers, noEvent]

/-- A log with a matching event splits at its last one. -/
theorem exists_last_split {log : List α} (some_ : ∃ event ∈ log, p event = true) :
    ∃ before event after, log = before ++ event :: after ∧ p event = true ∧
      ∀ later ∈ after, p later = false := by
  induction log using List.reverseRecOn with
  | nil => simp at some_
  | append_singleton log last ih =>
      by_cases holds : p last
      · exact ⟨log, last, [], rfl, holds, by simp⟩
      · have earlier : ∃ event ∈ log, p event = true := by
          obtain ⟨event, member, matches_⟩ := some_
          rcases List.mem_append.mp member with member | member
          · exact ⟨event, member, matches_⟩
          · exact absurd (List.mem_singleton.mp member ▸ matches_) holds
        obtain ⟨before, event, after, rfl, matches_, later⟩ := ih earlier
        refine ⟨before, event, after ++ [last], by simp, matches_, fun other member => ?_⟩
        rcases List.mem_append.mp member with member | member
        · exact later other member
        · rw [List.mem_singleton.mp member]
          simpa using holds

/-- An event with none of the kind after it is the last one. -/
theorem lastEvent_split {before after : List α} {event : α} (holds : p event = true)
    (later : ∀ other ∈ after, p other = false) :
    lastEvent p (before ++ event :: after) = some event := by
  have none : after.filter p = [] := List.filter_eq_nil_iff.mpr fun other member => by
    simp [later other member]
  simp [lastEvent, holds, none]

/-- The last event is in the log, and of the kind. -/
theorem mem_of_lastEvent {log : List α} {event : α} (found : lastEvent p log = some event) :
    event ∈ log ∧ p event = true :=
  List.mem_filter.mp (List.mem_of_getLast? found)

/-- The last event is also the last of any narrower kind that it satisfies. -/
theorem lastEvent_narrow {log : List α} {event : α}
    (narrower : ∀ other, q other = true → p other = true)
    (found : lastEvent p log = some event) (holds : q event = true) :
    lastEvent q log = some event := by
  obtain ⟨before, split⟩ := List.getLast?_eq_some_iff.mp found
  have twice : log.filter q = (log.filter p).filter q := by
    rw [List.filter_filter]
    apply List.filter_congr
    intro other _
    cases isNarrow : q other with
    | false => simp
    | true => simp [narrower other isNarrow]
  rw [lastEvent, twice, split, List.filter_append]
  simp [holds]

/-- Where the second part has an event of the kind, the last one is there. -/
theorem lastEvent_append_of_exists {before after : List α} (some_ : ∃ event ∈ after, p event = true) :
    lastEvent p (before ++ after) = lastEvent p after := by
  have nonempty : after.filter p ≠ [] := by
    obtain ⟨event, member, holds⟩ := some_
    exact List.ne_nil_of_mem (List.mem_filter.mpr ⟨member, holds⟩)
  obtain ⟨last, found⟩ := Option.isSome_iff_exists.mp (List.getLast?_isSome.mpr nonempty)
  rw [lastEvent, lastEvent, List.filter_append, List.getLast?_append, found, Option.some_or]

/-- What is unanswered was asked. -/
theorem exists_of_unanswered {log : List α} (open_ : unanswered p q log = true) :
    ∃ event ∈ log, p event = true := by
  obtain ⟨before, event, after, rfl, holds, -⟩ := unanswered_iff.mp open_
  exact ⟨event, by simp, holds⟩

/-- With no answering event at all, any `p` is unanswered. -/
theorem unanswered_of_no_answer {log : List α} (silent : ∀ event ∈ log, q event = false) :
    unanswered p q log = log.any p := by
  induction log with
  | nil => rfl
  | cons head tail ih =>
      have tailSilent : ∀ event ∈ tail, q event = false :=
        fun event member => silent event (List.mem_cons_of_mem _ member)
      have allSilent : (tail.all fun later => !q later) = true := by
        simpa using tailSilent
      simp [unanswered, ih tailSilent, allSilent, Bool.or_comm]

/-- Where no answer comes after an event, any `p` is unanswered. -/
theorem unanswered_of_pairwise {log : List α}
    (order : log.Pairwise fun event later => p event = true → q later = false) :
    unanswered p q log = log.any p := by
  induction log with
  | nil => rfl
  | cons head tail ih =>
      obtain ⟨headOrder, tailOrder⟩ := List.pairwise_cons.mp order
      rw [unanswered, ih tailOrder, List.any_cons, Bool.or_comm]
      cases holds : p head with
      | false => simp
      | true =>
          have silent : (tail.all fun later => !q later) = true := by
            simpa using fun later member => headOrder later member holds
          simp [silent]

/-- A batch whose answers all come after its events. -/
theorem unanswered_append_batch {log events answers : List α}
    (noAnswer : ∀ event ∈ events, q event = false) (noEvent : ∀ event ∈ answers, p event = false) :
    unanswered p q (log ++ (events ++ answers)) =
      ((events.any p || unanswered p q log) && !answers.any q) := by
  have silent : (events.all fun later => !q later) = true := by
    simpa using noAnswer
  have none : unanswered p q answers = false := by
    rw [Bool.eq_false_iff]
    intro open_
    obtain ⟨event, member, holds⟩ := exists_of_unanswered open_
    rw [noEvent event member] at holds
    cases holds
  rw [← List.append_assoc, unanswered_append, unanswered_append, unanswered_of_no_answer noAnswer,
    none, silent, Bool.false_or, Bool.and_true, List.not_any_eq_all_not]

/-- Dropping events that are neither `p` nor `q` changes nothing. -/
theorem unanswered_filter (log : List α)
    (kept : ∀ event ∈ log, p event = true ∨ q event = true → keep event = true) :
    unanswered p q (log.filter keep) = unanswered p q log := by
  induction log with
  | nil => rfl
  | cons head tail ih =>
      have tailKept : ∀ event ∈ tail, p event = true ∨ q event = true → keep event = true :=
        fun event member => kept event (List.mem_cons_of_mem _ member)
      have answers : ((tail.filter keep).all fun later => !q later) =
          (tail.all fun later => !q later) := by
        rw [Bool.eq_iff_iff]
        simp only [List.all_eq_true, List.mem_filter, Bool.not_eq_true']
        constructor
        · intro all event member
          by_contra answered
          have isAnswer : q event = true := by simpa using answered
          exact answered (all event ⟨member, tailKept event member (Or.inr isAnswer)⟩)
        · exact fun all event member => all event member.1
      by_cases keepHead : keep head
      · simp [keepHead, unanswered, ih tailKept, answers]
      · have noEvent : p head = false := by
          by_contra holds
          exact keepHead (kept head (by simp) (Or.inl (by simpa using holds)))
        simp [keepHead, unanswered, ih tailKept, noEvent]

/-- Comparing last positions is asking for an unanswered event. -/
theorem lastIdx_lt_iff_unanswered {log : List α}
    (disjoint : ∀ event, p event = true → q event = false) :
    (∃ index, lastIdx p log = some index ∧ ∀ answer, lastIdx q log = some answer → answer < index) ↔
      unanswered p q log = true := by
  induction log using List.reverseRecOn with
  | nil => simp
  | append_singleton log event ih =>
      rw [unanswered_append_singleton, lastIdx_append_singleton, lastIdx_append_singleton]
      by_cases isEvent : p event
      · have noAnswer := disjoint event isEvent
        simp only [isEvent, noAnswer, if_true, Bool.false_eq_true, if_false, Bool.true_or, iff_true]
        refine ⟨log.length, rfl, fun answer found => ?_⟩
        obtain ⟨hit, at_answer, -⟩ := lastIdx_eq_some_iff.mp found
        exact (List.getElem?_eq_some_iff.mp at_answer).1
      · by_cases isAnswer : q event
        · simp only [isEvent, isAnswer, Bool.false_eq_true, if_false, if_true, Bool.not_true,
            Bool.and_false, Bool.or_self, iff_false, not_exists, not_and]
          intro index found
          obtain ⟨hit, at_index, -⟩ := lastIdx_eq_some_iff.mp found
          have bound := (List.getElem?_eq_some_iff.mp at_index).1
          intro before
          have := before log.length rfl
          omega
        · simp only [isEvent, isAnswer, Bool.false_eq_true, if_false, Bool.not_false,
            Bool.and_true, Bool.false_or]
          exact ih

/-- Keeping the events at the last position leaves the last event. -/
theorem filter_zipIdx_lastIdx (log : List α) :
    (log.zipIdx.filter fun entry => p entry.1 && decide (lastIdx p log = some entry.2)).map
      Prod.fst = (lastEvent p log).toList := by
  induction log using List.reverseRecOn with
  | nil => rfl
  | append_singleton log last ih =>
      have early : ∀ entry ∈ log.zipIdx, entry.2 < log.length := by
        intro entry member
        have := List.snd_lt_add_of_mem_zipIdx member
        omega
      rw [List.zipIdx_append, List.filter_append, List.map_append, lastIdx_append_singleton,
        lastEvent, List.filter_append, List.getLast?_append]
      cases holds : p last with
      | true =>
          -- Only the new position is the last one.
          have none : (log.zipIdx.filter fun entry =>
              p entry.1 && decide (log.length = entry.2)) = [] := by
            rw [List.filter_eq_nil_iff]
            intro entry member
            have := early entry member
            have : log.length ≠ entry.2 := by omega
            simp [this]
          simp [holds, none]
      | false => simpa [holds, lastEvent] using ih

/-- Dropping positions other than the last event's leaves the last event. -/
theorem lastEvent_filter_zipIdx (log : List α) (keep : α × Nat → Bool)
    (kept : ∀ event index, lastIdx p log = some index → log[index]? = some event →
      keep (event, index) = true) :
    lastEvent p ((log.zipIdx.filter keep).map Prod.fst) = lastEvent p log := by
  by_cases some_ : ∃ event ∈ log, p event = true
  · obtain ⟨before, event, after, rfl, holds, later⟩ := exists_last_split some_
    have atIndex : lastIdx p (before ++ event :: after) = some before.length :=
      lastIdx_eq_some_iff.mpr ⟨event, by simp, holds, by simpa using later⟩
    have isKept := kept event before.length atIndex (by simp)
    rw [lastEvent_split holds later, List.zipIdx_append, List.zipIdx_cons, List.filter_append,
      List.filter_cons_of_pos (by simpa using isKept), List.map_append, List.map_cons]
    refine lastEvent_split holds fun other member => ?_
    obtain ⟨entry, inside, rfl⟩ := List.mem_map.mp member
    exact later _ (List.fst_mem_of_mem_zipIdx (List.mem_filter.mp inside).1)
  · have none : ∀ event ∈ log, p event = false := by simpa using some_
    have noneKept : ∀ event ∈ (log.zipIdx.filter keep).map Prod.fst, p event = false := by
      intro event member
      obtain ⟨entry, inside, rfl⟩ := List.mem_map.mp member
      exact none _ (List.fst_mem_of_mem_zipIdx (List.mem_filter.mp inside).1)
    rw [lastEvent, lastEvent, List.filter_eq_nil_iff.mpr, List.filter_eq_nil_iff.mpr]
    · simpa using none
    · simpa using noneKept

end Egregore.Base
