import Mathlib.Data.Fintype.Pigeonhole
import Mathlib.Data.List.Nodup
import Mathlib.Data.Set.Finite.Basic
import Mathlib.Logic.Relation
import Mathlib.Tactic.Common

/-!
# Rounds of ordered unions

Nodes collect marks from their sources: the marks of another node, followed by some of the
source's own. A node without a source, or with one that brings nothing, stays without marks;
else it has the union, in order of first occurrence. All nodes are recomputed in rounds. The
marks settle in time, their order may not: `exists_stable_iff`.
-/

namespace Egregore.Base

/-! ## Which comes first -/

section Lead

variable {β : Type*} [DecidableEq β] {first second : β} {items : List β}

/-- Which of two elements comes first in a list. -/
def lead (first second : β) (items : List β) : Option β :=
  items.find? fun item => item = first ∨ item = second

/-- The leading mark of two lists is that of the first which has one. -/
theorem lead_append (items others : List β) :
    lead first second (items ++ others) = (lead first second items).or (lead first second others) :=
  List.find?_append

/-- Dropping duplicates keeps the first item of a kind. -/
theorem find?_eraseDups (wanted : β → Bool) (items : List β) :
    items.eraseDups.find? wanted = items.find? wanted := by
  induction size : items.length using Nat.strong_induction_on generalizing items with
  | _ size ih =>
      cases items with
      | nil => rfl
      | cons item rest =>
          rw [List.eraseDups_cons]
          cases hit : wanted item with
          | true => rw [List.find?_cons_of_pos hit, List.find?_cons_of_pos hit]
          | false =>
              have miss : ¬ wanted item = true := by simp [hit]
              rw [List.find?_cons_of_neg miss, List.find?_cons_of_neg miss,
                ih _ ?_ _ rfl, List.find?_filter]
              · congr 1
                funext other
                by_cases same : other = item
                · simp [same, hit]
                · simp [same]
              · rw [← size, List.length_cons]
                exact Nat.lt_succ_of_le (List.length_filter_le _ rest)

/-- Dropping duplicates leaves none. -/
theorem nodup_eraseDups (items : List β) : items.eraseDups.Nodup := by
  induction size : items.length using Nat.strong_induction_on generalizing items with
  | _ size ih =>
      cases items with
      | nil => exact List.nodup_nil
      | cons item rest =>
          rw [List.eraseDups_cons, List.nodup_cons, List.mem_eraseDups]
          refine ⟨by simp, ih _ ?_ _ rfl⟩
          rw [← size, List.length_cons]
          exact Nat.lt_succ_of_le (List.length_filter_le _ rest)

/-- It keeps the leading mark. -/
theorem lead_eraseDups : lead first second items.eraseDups = lead first second items :=
  find?_eraseDups _ items

/-- Lists without repetitions are equal if the same element of every two leads them. -/
theorem eq_of_lead_eq {others : List β} (nodup : items.Nodup) (nodup' : others.Nodup)
    (same : ∀ first ∈ items ++ others, ∀ second ∈ items ++ others,
      lead first second items = lead first second others) : items = others := by
  induction items generalizing others with
  | nil =>
      cases others with
      | nil => rfl
      | cons other others =>
          have lost := same other (by simp) other (by simp)
          simp [lead] at lost
  | cons item items ih =>
      cases others with
      | nil =>
          have lost := same item (by simp) item (by simp)
          simp [lead] at lost
      | cons other others =>
          have heads := same item (by simp) other (by simp)
          obtain rfl : item = other := by simpa [lead] using heads
          obtain ⟨new, nodup⟩ := List.nodup_cons.mp nodup
          obtain ⟨new', nodup'⟩ := List.nodup_cons.mp nodup'
          refine congrArg _ (ih nodup nodup' fun first member second member' => ?_)
          have apart : ∀ wanted ∈ items ++ others, item ≠ wanted := by
            rintro wanted member rfl
            exact (List.mem_append.mp member).elim new new'
          have all : ∀ wanted ∈ items ++ others,
              wanted ∈ (item :: items) ++ item :: others := by
            intro wanted member
            rcases List.mem_append.mp member with member | member <;> simp [member]
          have tails := same first (all first member) second (all second member')
          simpa [lead, apart first member, apart second member'] using tails

end Lead

/-! ## Rounds -/

section Rounds

variable {α β : Type*} [DecidableEq β] (sources : α → List (α × List β))

/-- What a source brings: the marks of its node, then its own. -/
def brought (state : α → List β) (source : α × List β) : List β := state source.1 ++ source.2

/-- The marks of a node, from those of the round before. -/
def unionRound (state : α → List β) (node : α) : List β :=
  if (sources node).any fun source => (brought state source).isEmpty then []
  else ((sources node).flatMap (brought state)).eraseDups

/-- The marks after some rounds. -/
def unionRounds : Nat → α → List β
  | 0 => fun _ => []
  | rounds + 1 => unionRound sources (unionRounds rounds)

/-- Whether a node has marks after some rounds. -/
def marked : Nat → α → Bool
  | 0, _ => false
  | rounds + 1, node => !(sources node).isEmpty &&
      (sources node).all fun source => marked rounds source.1 || !source.2.isEmpty

/-- Of two marks, the one that the leftmost chain of sources brings to a node, of the chains of
at most the given length. -/
def leading (first second : β) : Nat → α → Option β
  | 0, _ => none
  | rounds + 1, node =>
      if marked sources (rounds + 1) node then
        (sources node).findSome? fun source =>
          (leading first second rounds source.1).or (lead first second source.2)
      else none

variable {sources}

/-- A node is marked when a round gave it a mark. -/
theorem marked_iff {rounds : Nat} {node : α} :
    marked sources rounds node ↔ unionRounds sources rounds node ≠ [] := by
  induction rounds generalizing node with
  | zero => simp [marked, unionRounds]
  | succ rounds ih =>
      have brings : ∀ source, brought (unionRounds sources rounds) source = [] ↔
          ¬ (marked sources rounds source.1 ∨ source.2 ≠ []) := by
        intro source
        rw [ih, brought, List.append_eq_nil_iff, not_or, not_not, not_not]
      rw [marked, unionRounds, unionRound]
      split
      · next idle =>
          obtain ⟨source, listed, empty⟩ := List.any_eq_true.mp idle
          have := (brings source).mp (List.isEmpty_iff.mp empty)
          simp only [ne_eq, not_true_eq_false, iff_false, Bool.and_eq_true, List.all_eq_true]
          rintro ⟨-, all⟩
          apply this
          simpa using all source listed
      · next busy =>
          simp only [List.any_eq_true, List.isEmpty_iff, not_exists, not_and] at busy
          simp only [Bool.and_eq_true, List.all_eq_true, Bool.not_eq_true', List.isEmpty_eq_false_iff,
            Bool.or_eq_true]
          constructor
          · rintro ⟨nonempty, -⟩ empty
            obtain ⟨source, listed⟩ := List.exists_mem_of_ne_nil _ nonempty
            obtain ⟨mark, member⟩ := List.exists_mem_of_ne_nil _ (busy source listed)
            have := List.mem_eraseDups.mpr (List.mem_flatMap.mpr ⟨source, listed, member⟩)
            rw [empty] at this
            cases this
          · intro nonempty
            refine ⟨fun none_ => nonempty (by simp [none_]), fun source listed => ?_⟩
            by_contra nothing
            exact busy source listed ((brings source).mpr (by simpa using nothing))

/-- The marks of a node, seen through two marks at a time. -/
theorem lead_unionRounds {first second : β} {rounds : Nat} {node : α} :
    lead first second (unionRounds sources rounds node) =
      leading sources first second rounds node := by
  induction rounds generalizing node with
  | zero => rfl
  | succ rounds ih =>
      rw [leading]
      by_cases isMarked : marked sources (rounds + 1) node
      · have nonempty := marked_iff.mp isMarked
        rw [if_pos isMarked]
        rw [unionRounds, unionRound] at nonempty ⊢
        split at nonempty
        · exact absurd rfl nonempty
        · next busy =>
            rw [if_neg busy, lead_eraseDups, lead, List.find?_flatMap]
            congr 1
            funext source
            rw [← ih, ← lead_append]
            rfl
      · have empty : unionRounds sources (rounds + 1) node = [] := by
          by_contra nonempty
          exact isMarked (marked_iff.mpr nonempty)
        rw [if_neg isMarked, empty]
        rfl

omit [DecidableEq β] in

/-- Later rounds mark no fewer nodes. -/
theorem marked_mono {rounds later : Nat} (le : rounds ≤ later) {node : α}
    (isMarked : marked sources rounds node) : marked sources later node := by
  induction rounds generalizing later node with
  | zero => cases isMarked
  | succ rounds ih =>
      obtain ⟨later, rfl⟩ := Nat.exists_eq_add_of_le' (Nat.lt_of_lt_of_le rounds.succ_pos le)
      rw [marked, Bool.and_eq_true, List.all_eq_true] at isMarked ⊢
      refine ⟨isMarked.1, fun source listed => ?_⟩
      have brings := isMarked.2 source listed
      rw [Bool.or_eq_true] at brings ⊢
      exact brings.imp_left (ih (Nat.le_of_succ_le_succ le))

section Pair

variable {first second : β}

/-- A node has a leading mark after a round when a source brings one. -/
theorem leading_succ_isSome_iff {rounds : Nat} {node : α} :
    (leading sources first second (rounds + 1) node).isSome ↔
      marked sources (rounds + 1) node ∧ ∃ source ∈ sources node,
        (leading sources first second rounds source.1).isSome ∨
          (lead first second source.2).isSome := by
  rw [leading]
  split
  · next isMarked => simp [isMarked, List.findSome?_isSome_iff]
  · next unmarked => simp [unmarked]

/-- Later rounds leave no fewer leading marks. -/
theorem leading_isSome_mono {rounds later : Nat} (le : rounds ≤ later) {node : α}
    (found : (leading sources first second rounds node).isSome) :
    (leading sources first second later node).isSome := by
  induction rounds generalizing later node with
  | zero => cases found
  | succ rounds ih =>
      obtain ⟨later, rfl⟩ := Nat.exists_eq_add_of_le' (Nat.lt_of_lt_of_le rounds.succ_pos le)
      rw [leading_succ_isSome_iff] at found ⊢
      obtain ⟨isMarked, source, listed, brings⟩ := found
      exact ⟨marked_mono le isMarked, source, listed,
        brings.imp_left (ih (Nat.le_of_succ_le_succ le))⟩

variable (sources first second)

/-- One of the two marks reaches the node. -/
def Carried (node : α) : Prop := ∃ rounds, (leading sources first second rounds node).isSome

/-- The first source through which one of the two marks reaches a node is another node's. -/
def FirstCarrier (node other : α) : Prop :=
  ∃ before own after, sources node = before ++ (other, own) :: after ∧
    (∀ source ∈ before, ¬ Carried sources first second source.1 ∧
      lead first second source.2 = none) ∧
    Carried sources first second other

/-- On a cycle of first carriers that the two marks have reached, neighbours are led by the
same one. -/
def AgreeOnCycles : Prop :=
  ∀ node other, FirstCarrier sources first second node other →
    Relation.ReflTransGen (FirstCarrier sources first second) other node →
    ∀ rounds, (∀ on, Relation.ReflTransGen (FirstCarrier sources first second) node on →
        (leading sources first second rounds on).isSome) →
      leading sources first second rounds node = leading sources first second rounds other

variable {sources first second}

/-- The sources of a carried node, split at the first that brings one of the two marks. -/
theorem exists_first_source {node : α} (carried : Carried sources first second node) :
    ∃ before source after, sources node = before ++ source :: after ∧
      (∀ earlier ∈ before, ¬ Carried sources first second earlier.1 ∧
        lead first second earlier.2 = none) ∧
      (Carried sources first second source.1 ∨ (lead first second source.2).isSome) := by
  classical
  obtain ⟨rounds, found⟩ := carried
  cases rounds with
  | zero => cases found
  | succ rounds =>
      obtain ⟨-, source, listed, brings⟩ := leading_succ_isSome_iff.mp found
      have some_ : ((sources node).find? fun source => Carried sources first second source.1 ∨
          (lead first second source.2).isSome).isSome := by
        rw [List.find?_isSome]
        exact ⟨source, listed, decide_eq_true (brings.imp_left fun found => ⟨rounds, found⟩)⟩
      obtain ⟨head, isFirst⟩ := Option.isSome_iff_exists.mp some_
      obtain ⟨brings, before, after, split, idle⟩ := List.find?_eq_some_iff_append.mp isFirst
      refine ⟨before, head, after, split, fun earlier listed => ?_, of_decide_eq_true brings⟩
      simpa [not_or, Option.isSome_iff_ne_none] using idle earlier listed

/-- A source before which nothing is brought decides what leads. -/
theorem leading_of_split {node : α} {before after : List (α × List β)} {source : α × List β}
    (split : sources node = before ++ source :: after)
    (idle : ∀ earlier ∈ before, ¬ Carried sources first second earlier.1 ∧
      lead first second earlier.2 = none) {rounds : Nat}
    (brings : ((leading sources first second rounds source.1).or
      (lead first second source.2)).isSome)
    (isMarked : marked sources (rounds + 1) node) :
    leading sources first second (rounds + 1) node =
      (leading sources first second rounds source.1).or (lead first second source.2) := by
  rw [leading, if_pos isMarked, split, List.findSome?_append]
  have nothing : before.findSome? (fun source =>
      (leading sources first second rounds source.1).or (lead first second source.2)) = none := by
    rw [List.findSome?_eq_none_iff]
    intro earlier listed
    obtain ⟨uncarried, unlisted⟩ := idle earlier listed
    have silent : leading sources first second rounds earlier.1 = none := by
      rw [← Option.isNone_iff_eq_none, ← Option.not_isSome]
      simpa using fun found => uncarried ⟨rounds, found⟩
    rw [silent, unlisted]
    rfl
  rw [nothing, Option.none_or, List.findSome?_cons]
  split
  · next found => exact found.symm
  · next none_ =>
      rw [none_] at brings
      cases brings

/-- Marks pass from the first carrier in one round. -/
theorem FirstCarrier.leading_eq {node other : α}
    (carrier : FirstCarrier sources first second node other) {rounds : Nat}
    (found : (leading sources first second rounds other).isSome)
    (found' : (leading sources first second (rounds + 1) node).isSome) :
    leading sources first second (rounds + 1) node =
      leading sources first second rounds other := by
  obtain ⟨before, own, after, split, idle, -⟩ := carrier
  obtain ⟨mark, leads⟩ := Option.isSome_iff_exists.mp found
  rw [leading_of_split split idle (by simp [leads]) (leading_succ_isSome_iff.mp found').1, leads]
  rfl

/-! ## Settling -/

/-- From some round on, the same mark leads. -/
def Settles (sources : α → List (α × List β)) (first second : β) (node : α) : Prop :=
  ∃ rounds, ∀ later ≥ rounds,
    leading sources first second later node = leading sources first second rounds node

/-- A node settles when its first carrier does. -/
theorem FirstCarrier.settles {node other : α}
    (carrier : FirstCarrier sources first second node other)
    (carried : Carried sources first second node)
    (settles : Settles sources first second other) : Settles sources first second node := by
  obtain ⟨start, found⟩ := carried
  obtain ⟨start', found'⟩ : Carried sources first second other := by
    obtain ⟨_, _, _, _, _, carried⟩ := carrier
    exact carried
  obtain ⟨rounds, same⟩ := settles
  refine ⟨start + start' + rounds + 1, fun later le => ?_⟩
  obtain ⟨later, rfl⟩ := Nat.exists_eq_add_of_le' (Nat.lt_of_lt_of_le (Nat.succ_pos _) le)
  have step : ∀ after ≥ start + start' + rounds,
      leading sources first second (after + 1) node =
        leading sources first second rounds other := by
    intro after le
    rw [carrier.leading_eq (leading_isSome_mono (by omega) found')
      (leading_isSome_mono (by omega) found), same after (by omega)]
  rw [step later (by omega), step _ (by omega)]

/-- A node that never settles has a first carrier that never settles. -/
theorem exists_unsettled_carrier {node : α} (unsettled : ¬ Settles sources first second node) :
    Carried sources first second node ∧ ∃ other,
      FirstCarrier sources first second node other ∧ ¬ Settles sources first second other := by
  have carried : Carried sources first second node := by
    by_contra uncarried
    refine unsettled ⟨0, fun later _ => ?_⟩
    have silent : ∀ rounds, leading sources first second rounds node = none := by
      intro rounds
      rw [← Option.not_isSome_iff_eq_none]
      exact fun found => uncarried ⟨rounds, found⟩
    rw [silent, silent]
  refine ⟨carried, ?_⟩
  obtain ⟨before, source, after, split, idle, brings⟩ := exists_first_source carried
  by_cases carrier : Carried sources first second source.1
  · have isFirst : FirstCarrier sources first second node source.1 :=
      ⟨before, source.2, after, split, idle, carrier⟩
    exact ⟨source.1, isFirst, fun settles => unsettled (isFirst.settles carried settles)⟩
  · -- The source's own marks come first, in every round from the first that marks the node.
    have own := brings.resolve_left carrier
    have silent : ∀ rounds, leading sources first second rounds source.1 = none := by
      intro rounds
      rw [← Option.not_isSome_iff_eq_none]
      exact fun found => carrier ⟨rounds, found⟩
    obtain ⟨start, found⟩ := carried
    have step : ∀ rounds ≥ start, leading sources first second (rounds + 1) node =
        lead first second source.2 := by
      intro rounds le
      have isMarked := (leading_succ_isSome_iff.mp
        (leading_isSome_mono (Nat.le_succ_of_le le) found)).1
      rw [leading_of_split split idle (by rw [silent]; exact own) isMarked, silent, Option.none_or]
    refine absurd ⟨start + 1, fun later le => ?_⟩ unsettled
    obtain ⟨later, rfl⟩ := Nat.exists_eq_add_of_le' (Nat.lt_of_lt_of_le (Nat.succ_pos _) le)
    rw [step later (by omega), step start le_rfl]

variable (sources first second) in
/-- Rounds by which whatever is carried to the nodes has reached them. -/
theorem exists_reached (nodes : List α) : ∃ rounds, ∀ node ∈ nodes,
    Carried sources first second node →
      (leading sources first second rounds node).isSome := by
  induction nodes with
  | nil => exact ⟨0, fun _ member => nomatch member⟩
  | cons node nodes ih =>
      obtain ⟨rounds, reached⟩ := ih
      by_cases carried : Carried sources first second node
      · obtain ⟨start, found⟩ := carried
        refine ⟨rounds + start, fun other member carried => ?_⟩
        rcases List.mem_cons.mp member with rfl | member
        · exact leading_isSome_mono (by omega) found
        · exact leading_isSome_mono (by omega) (reached other member carried)
      · refine ⟨rounds, fun other member carried' => ?_⟩
        rcases List.mem_cons.mp member with rfl | member
        · exact absurd carried' carried
        · exact reached other member carried'

variable {nodes : List α} (inside : ∀ node, node ∉ nodes → sources node = [])

include inside in

/-- A node that carries a mark is one of the nodes. -/
theorem mem_of_carried {node : α} (carried : Carried sources first second node) :
    node ∈ nodes := by
  by_contra outside
  obtain ⟨before, source, after, split, -⟩ := exists_first_source carried
  rw [inside node outside] at split
  simp at split

/-- What the first carriers lead to is carried. -/
theorem Carried.of_reaches {node other : α} (carried : Carried sources first second node)
    (path : Relation.ReflTransGen (FirstCarrier sources first second) node other) :
    Carried sources first second other := by
  induction path with
  | refl => exact carried
  | tail _ carrier =>
      obtain ⟨_, _, _, _, _, carried⟩ := carrier
      exact carried

include inside in
/-- Where neighbours on cycles agree, every node settles. -/
theorem settles_of_agree (agree : AgreeOnCycles sources first second) (node : α) :
    Settles sources first second node := by
  by_contra unsettled
  -- From a node that never settles the first carriers run into a cycle of such nodes.
  let Unsettled := { node : α // ¬ Settles sources first second node }
  have carrier (node : Unsettled) : ∃ other : Unsettled,
      FirstCarrier sources first second node.1 other.1 := by
    obtain ⟨-, other, isFirst, unsettled⟩ := exists_unsettled_carrier node.2
    exact ⟨⟨other, unsettled⟩, isFirst⟩
  choose next isFirst using carrier
  have finite : Finite Unsettled := by
    have listed : Finite { node // node ∈ nodes } := (List.finite_toSet nodes).to_subtype
    refine Finite.of_injective (β := { node // node ∈ nodes })
      (fun node => ⟨node.1, mem_of_carried inside (exists_unsettled_carrier node.2).1⟩) ?_
    exact fun node other same => Subtype.ext (congrArg (fun listed => listed.1) same)
  have leads (start : Unsettled) (steps : Nat) :
      Relation.ReflTransGen (FirstCarrier sources first second) start.1 (next^[steps] start).1 := by
    induction steps generalizing start with
    | zero => exact .refl
    | succ steps ih => exact .head (isFirst start) (ih (next start))
  obtain ⟨on, back⟩ : ∃ on : Unsettled,
      Relation.ReflTransGen (FirstCarrier sources first second) (next on).1 on.1 := by
    obtain ⟨i, j, differ, same⟩ := Finite.exists_ne_map_eq_of_infinite
      fun steps : ℕ => next^[steps] ⟨node, unsettled⟩
    wlog less : i < j generalizing i j
    · exact this j i differ.symm same.symm (by omega)
    obtain ⟨gap, rfl⟩ := Nat.exists_eq_add_of_lt less
    refine ⟨next^[i] ⟨node, unsettled⟩, ?_⟩
    have round : next^[gap] (next (next^[i] ⟨node, unsettled⟩)) = next^[i] ⟨node, unsettled⟩ := by
      rw [← Function.iterate_succ_apply, ← Function.iterate_add_apply]
      rw [show gap + 1 + i = i + gap + 1 by omega]
      exact same.symm
    have path := leads (next (next^[i] ⟨node, unsettled⟩)) gap
    rwa [round] at path
  -- Once all of the cycle is reached, each round hands the leading mark to the node itself.
  have carried := (exists_unsettled_carrier on.2).1
  obtain ⟨start, reached⟩ := exists_reached sources first second nodes
  have found : ∀ rounds ≥ start, ∀ other,
      Relation.ReflTransGen (FirstCarrier sources first second) on.1 other →
        (leading sources first second rounds other).isSome := fun rounds le other path =>
    leading_isSome_mono le (reached other (mem_of_carried inside (carried.of_reaches path))
      (carried.of_reaches path))
  have still : ∀ rounds ≥ start, leading sources first second (rounds + 1) on.1 =
      leading sources first second rounds on.1 := by
    intro rounds le
    rw [(isFirst on).leading_eq (found rounds le _ (.single (isFirst on)))
        (found (rounds + 1) (by omega) _ .refl),
      agree on.1 _ (isFirst on) back rounds (found rounds le)]
  refine on.2 ⟨start, fun later le => ?_⟩
  induction later, le using Nat.le_induction with
  | base => rfl
  | succ later le ih => rw [still later le, ih]

/-- Along a path of first carriers that is reached, marks arrive a fixed number of rounds
later. -/
theorem exists_delay {node other : α} {rounds : Nat}
    (path : Relation.ReflTransGen (FirstCarrier sources first second) node other)
    (found : ∀ on, Relation.ReflTransGen (FirstCarrier sources first second) node on →
      (leading sources first second rounds on).isSome) :
    ∃ delay, ∀ later ≥ rounds, leading sources first second (later + delay) node =
      leading sources first second later other := by
  induction path using Relation.ReflTransGen.head_induction_on with
  | refl => exact ⟨0, fun _ _ => rfl⟩
  | @head node next carrier path ih =>
      obtain ⟨delay, arrives⟩ := ih fun on path => found on (.head carrier path)
      refine ⟨delay + 1, fun later le => ?_⟩
      have here := found node .refl
      have there := found next (.single carrier)
      rw [← Nat.add_assoc, carrier.leading_eq (leading_isSome_mono (by omega) there)
        (leading_isSome_mono (by omega) here), arrives later le]

/-- A period repeats any number of times. -/
theorem leading_add_mul {node : α} {rounds period : Nat}
    (periodic : ∀ later ≥ rounds, leading sources first second (later + period) node =
      leading sources first second later node) (times : Nat) :
    leading sources first second (rounds + times * period) node =
      leading sources first second rounds node := by
  induction times with
  | zero => rw [Nat.zero_mul, Nat.add_zero]
  | succ times ih => rw [Nat.succ_mul, ← Nat.add_assoc, periodic _ (by omega), ih]

/-- Where the nodes settle, neighbours on cycles agree. -/
theorem agree_of_settles {settled : Nat}
    (settles : ∀ node, ∀ later ≥ settled, leading sources first second later node =
      leading sources first second settled node) : AgreeOnCycles sources first second := by
  intro node other carrier back rounds found
  have found' : ∀ on, Relation.ReflTransGen (FirstCarrier sources first second) other on →
      (leading sources first second rounds on).isSome := fun on path =>
    found on (.head carrier path)
  have step : ∀ later ≥ rounds, leading sources first second (later + 1) node =
      leading sources first second later other := fun later le =>
    carrier.leading_eq (leading_isSome_mono le (found other (.single carrier)))
      (leading_isSome_mono (by omega) (found node .refl))
  obtain ⟨delay, arrives⟩ := exists_delay back found'
  have here := leading_add_mul (fun later le => by
    rw [← Nat.add_assoc, step (later + delay) (by omega), arrives later le] :
    ∀ later ≥ rounds, leading sources first second (later + (delay + 1)) node =
      leading sources first second later node) settled
  have there := leading_add_mul (fun later le => by
    rw [Nat.add_comm delay 1, ← Nat.add_assoc, arrives (later + 1) (by omega), step later le] :
    ∀ later ≥ rounds, leading sources first second (later + (delay + 1)) other =
      leading sources first second later other) settled
  have far : settled ≤ rounds + settled * (delay + 1) := by
    have : settled ≤ settled * (delay + 1) := Nat.le_mul_of_pos_right settled delay.succ_pos
    omega
  rw [settles node _ far] at here
  rw [settles other _ far] at there
  rw [← here, ← there, ← settles other (rounds + settled) (by omega),
    ← step (rounds + settled) (by omega)]
  exact (settles node _ (by omega)).symm

/-- A node has a source at the other. -/
def Sourced (sources : α → List (α × List β)) (node other : α) : Prop :=
  ∃ own, (other, own) ∈ sources node

/-- Where no two nodes have sources at each other, through others or not, there is nothing to
agree on. -/
theorem agree_of_acyclic (acyclic : ∀ node other,
      Relation.ReflTransGen (Sourced sources) node other →
      Relation.ReflTransGen (Sourced sources) other node → node = other) :
    AgreeOnCycles sources first second := by
  intro node other carrier back rounds _
  have sourced : ∀ node other, FirstCarrier sources first second node other →
      Sourced sources node other := by
    rintro node other ⟨before, own, after, split, -, -⟩
    exact ⟨own, by simp [split]⟩
  rw [acyclic node other (.single (sourced node other carrier))
    (Relation.ReflTransGen.mono sourced _ _ back)]

end Pair

/-! ## Stable rounds -/

/-- Every mark comes from a source. -/
theorem mem_unionRounds {rounds : Nat} {node : α} {mark : β}
    (member : mark ∈ unionRounds sources rounds node) :
    ∃ node, ∃ source ∈ sources node, mark ∈ source.2 := by
  induction rounds generalizing node with
  | zero => cases member
  | succ rounds ih =>
      rw [unionRounds, unionRound] at member
      split at member
      · cases member
      · rw [List.mem_eraseDups, List.mem_flatMap] at member
        obtain ⟨source, listed, brings⟩ := member
        rcases List.mem_append.mp brings with earlier | own
        · exact ih earlier
        · exact ⟨node, source, listed, own⟩

/-- No mark is listed twice. -/
theorem nodup_unionRounds (rounds : Nat) (node : α) :
    (unionRounds sources rounds node).Nodup := by
  cases rounds with
  | zero => exact List.nodup_nil
  | succ rounds =>
      rw [unionRounds, unionRound]
      split
      · exact List.nodup_nil
      · exact nodup_eraseDups _

/-- Rounds that changed nothing once change nothing later. -/
theorem unionRounds_of_stable {rounds : Nat}
    (stable : unionRounds sources (rounds + 1) = unionRounds sources rounds) {later : Nat}
    (le : rounds ≤ later) : unionRounds sources later = unionRounds sources rounds := by
  induction later, le using Nat.le_induction with
  | base => rfl
  | succ later _ ih =>
      rw [unionRounds, ih]
      exact stable

/-- What holds from some round on of each item of a list holds from some round on of all. -/
theorem exists_uniform {ι : Type*} {items : List ι} {holds : ι → Nat → Prop}
    (each : ∀ item ∈ items, ∃ start, ∀ rounds ≥ start, holds item rounds) :
    ∃ start, ∀ rounds ≥ start, ∀ item ∈ items, holds item rounds := by
  induction items with
  | nil => exact ⟨0, fun _ _ _ member => nomatch member⟩
  | cons item items ih =>
      obtain ⟨start, here⟩ := each item List.mem_cons_self
      obtain ⟨start', rest⟩ := ih fun other member => each other (List.mem_cons_of_mem _ member)
      refine ⟨start + start', fun rounds le other member => ?_⟩
      rcases List.mem_cons.mp member with rfl | member
      · exact here rounds (by omega)
      · exact rest rounds (by omega) other member

/-- The rounds reach a stable state exactly when, of any two marks, the same one leads the
neighbours on each cycle of first carriers that both have reached. -/
theorem exists_stable_iff {nodes : List α} (inside : ∀ node, node ∉ nodes → sources node = []) :
    (∃ rounds, unionRounds sources (rounds + 1) = unionRounds sources rounds) ↔
      ∀ first second, AgreeOnCycles sources first second := by
  constructor
  · rintro ⟨rounds, stable⟩ first second
    have settles : ∀ node, ∀ later ≥ rounds, leading sources first second later node =
        leading sources first second rounds node := fun node later le => by
      rw [← lead_unionRounds, ← lead_unionRounds, unionRounds_of_stable stable le]
    exact agree_of_settles settles
  · intro agree
    let marks := (nodes.flatMap sources).flatMap Prod.snd
    have each : ∀ item ∈ nodes ×ˢ marks ×ˢ marks, ∃ start, ∀ rounds ≥ start,
        leading sources item.2.1 item.2.2 (rounds + 1) item.1 =
          leading sources item.2.1 item.2.2 rounds item.1 := by
      rintro ⟨node, first, second⟩ -
      obtain ⟨start, same⟩ := settles_of_agree inside (agree first second) node
      exact ⟨start, fun rounds le => by rw [same rounds le, same (rounds + 1) (by omega)]⟩
    obtain ⟨rounds, still⟩ := exists_uniform each
    refine ⟨rounds, funext fun node => ?_⟩
    by_cases known : node ∈ nodes
    · have listed : ∀ later, ∀ mark ∈ unionRounds sources later node, mark ∈ marks := by
        intro later mark member
        obtain ⟨origin, source, listed, own⟩ := mem_unionRounds member
        have known : origin ∈ nodes := by
          by_contra outside
          rw [inside origin outside] at listed
          cases listed
        exact List.mem_flatMap.mpr ⟨source, List.mem_flatMap.mpr ⟨origin, known, listed⟩, own⟩
      refine eq_of_lead_eq (nodup_unionRounds _ _) (nodup_unionRounds _ _) ?_
      intro first member second member'
      have isMark : ∀ mark ∈ unionRounds sources (rounds + 1) node ++
          unionRounds sources rounds node, mark ∈ marks := fun mark member =>
        (List.mem_append.mp member).elim (listed _ mark) (listed _ mark)
      rw [lead_unionRounds, lead_unionRounds]
      exact still rounds le_rfl (node, first, second) (List.mem_product.mpr
        ⟨known, List.mem_product.mpr ⟨isMark first member, isMark second member'⟩⟩)
    · have idle : ∀ later, unionRounds sources later node = [] := by
        intro later
        cases later with
        | zero => rfl
        | succ later => simp [unionRounds, unionRound, inside node known]
      rw [idle, idle]

end Rounds

end Egregore.Base
