import Egregore.Base.PathStack
import Egregore.TemporalStatusSpec

/-!
# Heads of supersession

`resolve_supersession_heads` with its stack of frames, over hash sets that may be walked in any
order: `searchHeads_spec`. The search by recursion, which `resolve_status` is modelled with, has
the same outcome.
-/

namespace Egregore

open Base

/-- The order in which the hash sets of a resolver are walked. -/
structure HashOrder (resolver : TemporalResolver) where
  successors : String → List String
  perm : ∀ id, (successors id).Perm (resolver.superseders id)

/-- `resolve_supersession_heads`, for a number of turns of its loop. -/
def TemporalResolver.searchSupersessionHeads (resolver : TemporalResolver)
    (order : HashOrder resolver) (turns : Nat) (startId : String) :
    Option (Except StrSet (Option StrSet)) :=
  if resolver.supersededBy.contains startId then
    ((DfsState.start order.successors startId : DfsState String byteOrder).run order.successors
      turns).map fun outcome => outcome.map fun heads =>
        let heads := heads.erase startId
        if heads.isEmpty then none else some heads
  else some (.ok none)

/-- The loop gives the outcome, after however many turns. -/
def SearchesTo (resolver : TemporalResolver) (order : HashOrder resolver) (id : String)
    (outcome : Except StrSet (Option StrSet)) : Prop :=
  ∃ turns, ∀ more, resolver.searchSupersessionHeads order (turns + more) id = some outcome

/-- What an outcome says: a cycle that can be reached, with the nodes of one cycle; nothing that
supersedes the ID; or the superseders that nothing supersedes. -/
def OutcomeDescribes (resolver : TemporalResolver) (id : String) :
    Except StrSet (Option StrSet) → Prop
  | .error cycle =>
      (∃ step, Reaches resolver.superseders id step ∧ OnCycle resolver.superseders step) ∧
        ∃ first rest, IsCycle resolver.superseders first rest ∧
          ∀ step, step ∈ cycle ↔ step ∈ first :: rest
  | .ok none => resolver.superseders id = []
  | .ok (some heads) => resolver.superseders id ≠ [] ∧
      (∀ step, Reaches resolver.superseders id step → ¬ OnCycle resolver.superseders step) ∧
      ∀ head, head ∈ heads ↔ Reaches resolver.superseders id head ∧ resolver.superseders head = []

section Search

variable {resolver : TemporalResolver} {id : String}

namespace HashOrder

variable (order : HashOrder resolver)

theorem mem_iff {node successor : String} :
    successor ∈ order.successors node ↔ successor ∈ resolver.superseders node :=
  (order.perm node).mem_iff

theorem links_eq :
    (fun node successor => successor ∈ order.successors node) =
      fun node successor => successor ∈ resolver.superseders node := by
  funext node successor
  exact propext order.mem_iff

theorem eq_nil_iff {node : String} :
    order.successors node = [] ↔ resolver.superseders node = [] := by
  constructor
  · exact fun empty => List.perm_nil.mp (empty ▸ (order.perm node).symm)
  · exact fun empty => List.perm_nil.mp (empty ▸ order.perm node)

theorem isCycle_iff {first : String} {rest : List String} :
    IsCycle order.successors first rest ↔ IsCycle resolver.superseders first rest := by
  constructor
  · rintro ⟨nodup, chain⟩
    exact ⟨nodup, order.links_eq ▸ chain⟩
  · rintro ⟨nodup, chain⟩
    exact ⟨nodup, order.links_eq ▸ chain⟩

end HashOrder

/-- Nothing that nothing supersedes leads to a cycle. -/
theorem not_reaches_cycle (leaf : resolver.superseders id = []) {step : String}
    (reached : Reaches resolver.superseders id step) : ¬ OnCycle resolver.superseders step := by
  rcases Relation.ReflTransGen.cases_head reached with rfl | ⟨successor, link, -⟩
  · intro onCycle
    obtain ⟨successor, link, -⟩ := Relation.TransGen.head'_iff.mp onCycle
    rw [leaf] at link
    cases link
  · rw [leaf] at link
    cases link

theorem exists_searchesTo (noEmptySet : resolver.NoEmptySet) (order : HashOrder resolver)
    (id : String) :
    ∃ outcome, SearchesTo resolver order id outcome ∧ OutcomeDescribes resolver id outcome := by
  cases superseded : resolver.supersededBy.contains id with
  | false =>
      refine ⟨.ok none, ⟨0, fun more => ?_⟩, (superseders_eq_nil_iff noEmptySet).mpr superseded⟩
      rw [TemporalResolver.searchSupersessionHeads, superseded]
      rfl
  | true =>
      have inside : resolver.superseders id ≠ [] := by
        rw [Ne, superseders_eq_nil_iff noEmptySet, superseded]
        simp
      have keyed : ∀ node, order.successors node ≠ [] → node ∈ resolver.supersededBy.keys := by
        intro node some_
        rw [Ne, order.eq_nil_iff, superseders_eq_nil_iff noEmptySet, Bool.not_eq_false] at some_
        exact Std.ExtTreeMap.mem_keys.mpr some_
      obtain ⟨outcome, ends, described⟩ : ∃ outcome,
          (DfsState.start order.successors id : DfsState String byteOrder).Ends order.successors
            outcome ∧ SearchDescribes order.successors id outcome := search_spec keyed id
      obtain ⟨turns, ran⟩ := ends.run
      have searched : ∀ more, resolver.searchSupersessionHeads order (turns + more) id =
          some (outcome.map fun heads =>
            if (heads.erase id).isEmpty then none else some (heads.erase id)) := by
        intro more
        rw [TemporalResolver.searchSupersessionHeads, if_pos superseded, ran more]
        rfl
      refine ⟨_, ⟨turns, searched⟩, ?_⟩
      cases outcome with
      | error cycle =>
          obtain ⟨⟨step, reached, onCycle⟩, first, rest, isCycle, members⟩ := described
          rw [Reaches, order.links_eq] at reached
          rw [OnCycle, order.links_eq] at onCycle
          exact ⟨⟨step, reached, onCycle⟩, first, rest, order.isCycle_iff.mp isCycle, members⟩
      | ok heads =>
          obtain ⟨free, ⟨head, member⟩, mem⟩ := described
          simp only [Reaches, OnCycle, order.links_eq, order.eq_nil_iff] at free mem
          have erased : ∀ head, head ∈ heads.erase id ↔
              Reaches resolver.superseders id head ∧ resolver.superseders head = [] := by
            intro head
            rw [Std.ExtTreeSet.mem_erase, mem]
            simp only [Ne, byteOrder_eq_iff, and_iff_right_iff_imp]
            rintro ⟨-, leaf⟩ rfl
            exact inside leaf
          have nonempty : (heads.erase id).isEmpty = false := by
            rw [Std.ExtTreeSet.isEmpty_eq_false_iff]
            intro empty
            have there := (erased head).mpr ((mem head).mp member)
            rw [empty] at there
            exact Std.ExtTreeSet.not_mem_empty there
          simp only [Except.map, nonempty, Bool.false_eq_true, if_false]
          exact ⟨inside, free, erased⟩

/-- Two outcomes that describe what can be reached are both a cycle or are the same. -/
theorem OutcomeDescribes.toOption_eq {outcome other : Except StrSet (Option StrSet)}
    (described : OutcomeDescribes resolver id outcome)
    (described' : OutcomeDescribes resolver id other) : outcome.toOption = other.toOption := by
  match outcome, other with
  | .error _, .error _ => rfl
  | .error _, .ok none =>
      obtain ⟨⟨step, reached, onCycle⟩, -⟩ := described
      exact absurd onCycle (not_reaches_cycle described' reached)
  | .error _, .ok (some _) =>
      obtain ⟨⟨step, reached, onCycle⟩, -⟩ := described
      exact absurd onCycle (described'.2.1 step reached)
  | .ok none, .error _ =>
      obtain ⟨⟨step, reached, onCycle⟩, -⟩ := described'
      exact absurd onCycle (not_reaches_cycle described reached)
  | .ok (some _), .error _ =>
      obtain ⟨⟨step, reached, onCycle⟩, -⟩ := described'
      exact absurd onCycle (described.2.1 step reached)
  | .ok none, .ok none => rfl
  | .ok none, .ok (some _) => exact absurd described described'.1
  | .ok (some _), .ok none => exact absurd described' described.1
  | .ok (some heads), .ok (some heads') =>
      have same : heads = heads' := by
        apply Std.ExtTreeSet.ext_mem
        intro head
        rw [described.2.2, described'.2.2]
      rw [same]

theorem searchesTo_of_search {order : HashOrder resolver} {turns : Nat}
    {outcome : Except StrSet (Option StrSet)}
    (found : resolver.searchSupersessionHeads order turns id = some outcome) :
    SearchesTo resolver order id outcome := by
  refine ⟨turns, fun more => ?_⟩
  rw [TemporalResolver.searchSupersessionHeads] at found ⊢
  split at found
  · next superseded =>
      rw [if_pos superseded]
      obtain ⟨ended, ran, same⟩ := Option.map_eq_some_iff.mp found
      simp only [DfsState.run_add ran more, Option.map_some, same]
  · next current => rw [if_neg current, found]

/-- The loop has one outcome. -/
theorem SearchesTo.unique {order : HashOrder resolver} {outcome other : Except StrSet (Option StrSet)}
    (searches : SearchesTo resolver order id outcome)
    (searches' : SearchesTo resolver order id other) : outcome = other := by
  obtain ⟨turns, found⟩ := searches
  obtain ⟨turns', found'⟩ := searches'
  have same := found turns'
  rw [Nat.add_comm, found' turns] at same
  exact (Option.some.inj same).symm

/-- The search by recursion has the outcome of the loop. -/
theorem resolveSupersessionHeads_toOption (noEmptySet : resolver.NoEmptySet)
    {order : HashOrder resolver} {outcome : Except StrSet (Option StrSet)}
    (searches : SearchesTo resolver order id outcome) :
    (resolver.resolveSupersessionHeads id).toOption = outcome.toOption := by
  obtain ⟨found, searched, described⟩ := exists_searchesTo noEmptySet order id
  obtain rfl := searches.unique searched
  have spec := resolveSupersessionHeads_spec noEmptySet id
  cases recursive : resolver.resolveSupersessionHeads id with
  | error cycle =>
      rw [recursive] at spec
      obtain ⟨step, reached, onCycle⟩ := spec
      match outcome, described with
      | .error _, _ => rfl
      | .ok none, leaf => exact absurd onCycle (not_reaches_cycle leaf reached)
      | .ok (some _), heads => exact absurd onCycle (heads.2.1 step reached)
  | ok heads =>
      rw [recursive] at spec
      have described' : OutcomeDescribes resolver id (.ok heads) := by
        cases heads with
        | none => exact spec
        | some heads => exact spec
      have same := described'.toOption_eq described
      exact same

end Search

/-- For every slice, ID and order of the hash sets, the loop ends. It gives `Ok(None)` exactly
when nothing supersedes the ID and `Err` exactly when a cycle can be reached, with the nodes of
one; otherwise the heads are the superseders that nothing supersedes. The order changes neither
the class of the outcome nor the heads. -/
theorem searchHeads_spec (records : List GraphRecord)
    (order : HashOrder (TemporalResolver.build records)) (id : String) :
    ∃ outcome, SearchesTo (TemporalResolver.build records) order id outcome ∧
      (outcome = .ok none ↔ (TemporalResolver.build records).superseders id = []) ∧
      ((∃ cycle, outcome = .error cycle) ↔
        ∃ step, Reaches (TemporalResolver.build records).superseders id step ∧
          OnCycle (TemporalResolver.build records).superseders step) ∧
      (∀ heads, outcome = .ok (some heads) → ∀ head, head ∈ heads ↔
        Reaches (TemporalResolver.build records).superseders id head ∧
          (TemporalResolver.build records).superseders head = []) ∧
      (∀ cycle, outcome = .error cycle → ∃ first rest,
        IsCycle (TemporalResolver.build records).superseders first rest ∧
          ∀ step, step ∈ cycle ↔ step ∈ first :: rest) ∧
      ∀ (order' : HashOrder (TemporalResolver.build records)) (turns : Nat) outcome',
        (TemporalResolver.build records).searchSupersessionHeads order' turns id =
          some outcome' → outcome'.toOption = outcome.toOption := by
  have noEmptySet := noEmptySet_build records
  obtain ⟨outcome, searches, described⟩ := exists_searchesTo noEmptySet order id
  refine ⟨outcome, searches, ?_, ?_, ?_, ?_, fun order' turns outcome' found => ?_⟩
  · constructor
    · rintro rfl
      exact described
    · intro leaf
      match outcome, described with
      | .error _, ⟨⟨step, reached, onCycle⟩, _⟩ =>
          exact absurd onCycle (not_reaches_cycle leaf reached)
      | .ok none, _ => rfl
      | .ok (some _), ⟨some_, _⟩ => exact absurd leaf some_
  · constructor
    · rintro ⟨cycle, rfl⟩
      exact described.1
    · rintro ⟨step, reached, onCycle⟩
      match outcome, described with
      | .error cycle, _ => exact ⟨cycle, rfl⟩
      | .ok none, leaf => exact absurd onCycle (not_reaches_cycle leaf reached)
      | .ok (some _), ⟨_, free, _⟩ => exact absurd onCycle (free step reached)
  · rintro heads rfl
    exact described.2.2
  · rintro cycle rfl
    exact described.2
  · obtain ⟨other, searches', described'⟩ := exists_searchesTo noEmptySet order' id
    obtain rfl := (searchesTo_of_search found).unique searches'
    exact described'.toOption_eq described

/-- The sets of a resolver, walked backwards. -/
def HashOrder.reversed (resolver : TemporalResolver) : HashOrder resolver where
  successors id := (resolver.superseders id).reverse
  perm _ := List.reverse_perm _

def newerEdge (newer older : String) : GraphRecord :=
  .edge {
    id := newer ++ ":" ++ older
    schemaVersion := 1
    label := .supersedes
    source := newer
    target := older }

/-- A claim that is superseded twice; one of the two is superseded in turn. -/
def supersededTwice : List GraphRecord :=
  [newerEdge "second" "first", newerEdge "third" "first",
   newerEdge "fourth" "second"]

/-- Whichever way the sets are walked, the heads are the two ends. -/
theorem supersededTwice_heads :
    ∃ heads, SearchesTo (TemporalResolver.build supersededTwice)
        (HashOrder.reversed (TemporalResolver.build supersededTwice)) "first" (.ok (some heads)) ∧
      heads.toList = ["fourth", "third"] := by
  obtain ⟨outcome, searches, -, -, -, -, sameClass⟩ := searchHeads_spec supersededTwice
    (HashOrder.reversed (TemporalResolver.build supersededTwice)) "first"
  have run : ((TemporalResolver.build supersededTwice).searchSupersessionHeads
      (HashOrder.reversed (TemporalResolver.build supersededTwice)) 20 "first").map (fun found =>
        found.toOption.map fun heads => heads.map Std.ExtTreeSet.toList) =
      some (some (some ["fourth", "third"])) := by
    decide
  obtain ⟨found, ended, shown⟩ := Option.map_eq_some_iff.mp run
  rw [sameClass _ 20 found ended] at shown
  cases outcome with
  | error cycle => simp [Except.toOption] at shown
  | ok heads =>
      cases heads with
      | none => simp [Except.toOption] at shown
      | some heads => exact ⟨heads, searches, by simpa [Except.toOption] using shown⟩

end Egregore
