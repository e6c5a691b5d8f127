import Mathlib.Data.List.Destutter
import Mathlib.Data.List.Pairwise
import Mathlib.Data.List.Sort
import Mathlib.Order.Basic
import Mathlib.Tactic.Common

/-!
# Sorting and dropping repeated keys

A list sorted by a comparison, of which the first element of each run of equal keys
is kept. Which element that is depends on how the sort breaks draws.
`mem_dedupBy_iff` says which one it is for a stable sort, and `dedupBy_pairwise`
that each key is left once.
-/

namespace Egregore.Base

variable {α : Type*}

/-- Keep the first element of each run of equal keys. -/
def dedupBy (cmp : α → α → Ordering) (items : List α) : List α :=
  items.destutter fun item later => cmp item later ≠ .eq

variable {cmp : α → α → Ordering} {items : List α}

theorem mem_of_mem_dedupBy {item : α} (member : item ∈ dedupBy cmp items) : item ∈ items :=
  (List.destutter_sublist _ items).subset member

variable [Std.TransCmp cmp]

variable (cmp) in
/-- Every element of a list that a relation orders has one of its key kept before it. -/
theorem exists_mem_dedupBy {R : α → α → Prop} (ordered : items.Pairwise R) {item : α}
    (member : item ∈ items) :
    ∃ kept ∈ dedupBy cmp items, cmp kept item = .eq ∧ (kept = item ∨ R kept item) := by
  rw [dedupBy]
  cases items with
  | nil => simp at member
  | cons first rest =>
      rw [List.destutter_cons']
      induction rest generalizing first with
      | nil =>
          obtain rfl := List.mem_singleton.mp member
          exact ⟨item, by simp, Std.ReflCmp.compare_self, Or.inl rfl⟩
      | cons second rest ih =>
          obtain ⟨before, ordered'⟩ := List.pairwise_cons.mp ordered
          rw [List.destutter'_cons]
          split
          · rcases List.mem_cons.mp member with rfl | later
            · exact ⟨item, List.mem_cons_self, Std.ReflCmp.compare_self, Or.inl rfl⟩
            · obtain ⟨kept, inside, same, related⟩ := ih second ordered' later
              exact ⟨kept, List.mem_cons_of_mem _ inside, same, related⟩
          · next repeated =>
              -- The second element goes; the first one stands for it.
              have without : (first :: rest).Pairwise R :=
                List.pairwise_cons.mpr ⟨fun other inside =>
                  before other (List.mem_cons_of_mem _ inside), (List.pairwise_cons.mp ordered').2⟩
              rcases List.mem_cons.mp member with rfl | later
              · exact ih item without List.mem_cons_self
              · rcases List.mem_cons.mp later with rfl | later
                · exact ⟨first, List.mem_destutter' rest _ first, not_not.mp repeated,
                    Or.inr (before item List.mem_cons_self)⟩
                · exact ih first without (List.mem_cons_of_mem _ later)

/-- Where items of one key are equal, a rearranged list loses nothing to the deduplication. -/
theorem mem_dedupBy_of_perm {sorted : List α} (perm : sorted.Perm items)
    (unique : ∀ item ∈ items, ∀ other ∈ items, cmp item other = .eq → item = other) {item : α} :
    item ∈ dedupBy cmp sorted ↔ item ∈ items := by
  refine ⟨fun member => perm.mem_iff.mp (mem_of_mem_dedupBy member), fun member => ?_⟩
  obtain ⟨kept, inside, same, -⟩ := exists_mem_dedupBy cmp
    (List.pairwise_of_forall fun _ _ => trivial) (perm.mem_iff.mpr member)
  obtain rfl := unique kept (perm.mem_iff.mp (mem_of_mem_dedupBy inside)) item member same
  exact inside

/-- After an element whose key is that of the kept one, an element stays unless the one before it
has its key. -/
private theorem mem_destutter'_iff {item kept previous : α} (same : cmp kept previous = .eq) :
    item ∈ items.destutter' (fun item later => cmp item later ≠ .eq) kept ↔
      item = kept ∨ ∃ before after, items = before ++ item :: after ∧
        cmp (before.getLast?.getD previous) item ≠ .eq := by
  -- The first element is the one looked for, or it comes before it.
  have split_cons : ∀ (previous first : α) (rest : List α),
      (∃ before after, first :: rest = before ++ item :: after ∧
        cmp (before.getLast?.getD previous) item ≠ .eq) ↔
      (item = first ∧ cmp previous first ≠ .eq) ∨
        ∃ before after, rest = before ++ item :: after ∧
          cmp (before.getLast?.getD first) item ≠ .eq := by
    intro previous first rest
    constructor
    · rintro ⟨_ | ⟨head, before⟩, after, listed, differs⟩
      · obtain ⟨rfl, rfl⟩ := List.cons.inj listed
        exact .inl ⟨rfl, differs⟩
      · obtain ⟨rfl, rfl⟩ := List.cons.inj listed
        exact .inr ⟨before, after, rfl, by simpa [List.getLast?_cons] using differs⟩
    · rintro (⟨rfl, differs⟩ | ⟨before, after, rfl, differs⟩)
      · exact ⟨[], rest, rfl, differs⟩
      · exact ⟨first :: before, after, rfl, by simpa [List.getLast?_cons] using differs⟩
  induction items generalizing kept previous with
  | nil => simp
  | cons first rest ih =>
      rw [List.destutter'_cons, split_cons previous first rest, ← Std.TransCmp.congr_left same]
      split
      · next differs =>
          rw [and_iff_left differs]
          exact List.mem_cons.trans (or_congr_right (ih Std.ReflCmp.compare_self))
      · next repeats =>
          refine (ih (not_not.mp repeats)).trans ?_
          simp [repeats]

/-- An element of a list is kept where the one before it has another key. -/
theorem mem_dedupBy_iff {item : α} :
    item ∈ dedupBy cmp items ↔ ∃ before after, items = before ++ item :: after ∧
      ∀ previous ∈ before.getLast?, cmp previous item ≠ .eq := by
  rw [dedupBy]
  cases items with
  | nil => simp
  | cons first rest =>
      rw [List.destutter_cons']
      refine (mem_destutter'_iff Std.ReflCmp.compare_self).trans ?_
      constructor
      · rintro (rfl | ⟨before, after, rfl, differs⟩)
        · exact ⟨[], rest, rfl, by simp⟩
        · refine ⟨first :: before, after, rfl, fun previous last => ?_⟩
          rw [List.getLast?_cons, Option.mem_some_iff] at last
          exact last ▸ differs
      · rintro ⟨_ | ⟨head, before⟩, after, listed, differs⟩
        · exact .inl (List.cons.inj listed).1.symm
        · obtain ⟨rfl, rfl⟩ := List.cons.inj listed
          refine .inr ⟨before, after, rfl, differs _ ?_⟩
          rw [List.getLast?_cons, Option.mem_some_iff]

/-- In a sorted list one element of each key is kept. -/
theorem dedupBy_pairwise (sorted : items.Pairwise fun item later => cmp item later ≠ .gt) :
    (dedupBy cmp items).Pairwise fun item later => cmp item later = .lt := by
  have keptSorted : (dedupBy cmp items).Pairwise fun item later => cmp item later ≠ .gt :=
    sorted.sublist (List.destutter_sublist _ items)
  have apart : (dedupBy cmp items).IsChain fun item later => cmp item later ≠ .eq :=
    List.isChain_destutter _ items
  generalize dedupBy cmp items = kept at keptSorted apart
  have chain : kept.IsChain fun item later => cmp item later = .lt := by
    induction kept with
    | nil => exact .nil
    | cons first rest ih =>
        obtain ⟨before, keptSorted'⟩ := List.pairwise_cons.mp keptSorted
        rw [List.isChain_cons] at apart ⊢
        refine ⟨fun second next => ?_, ih keptSorted' apart.2⟩
        cases compared : cmp first second with
        | lt => rfl
        | eq => exact absurd compared (apart.1 second next)
        | gt => exact absurd compared (before second (List.mem_of_mem_head? next))
  have : Trans (fun item later => cmp item later = .lt) (fun item later => cmp item later = .lt)
      fun item later => cmp item later = .lt := ⟨Std.TransCmp.lt_trans⟩
  exact List.isChain_iff_pairwise.mp chain

/-- Two ascending lists of the same items are one. -/
theorem eq_of_ascending {others : List α}
    (ascending : items.Pairwise fun item later => cmp item later = .lt)
    (ascending' : others.Pairwise fun item later => cmp item later = .lt)
    (same : ∀ item, item ∈ items ↔ item ∈ others) : items = others := by
  have apart : ∀ {list : List α}, (list.Pairwise fun item later => cmp item later = .lt) →
      list.Nodup := fun sorted => sorted.imp fun less equal => by
    rw [equal, (Std.ReflCmp.compare_self : cmp _ _ = .eq)] at less
    cases less
  refine List.Perm.eq_of_pairwise (fun item other _ _ less more => ?_) ascending ascending'
    ((List.perm_ext_iff_of_nodup (apart ascending) (apart ascending')).mpr same)
  rw [Std.OrientedCmp.gt_of_lt less] at more
  cases more

/-- The last of an ascending list is the greatest. -/
theorem getLast?_ascending [Std.LawfulEqCmp cmp] {item : α}
    (ascending : items.Pairwise fun item later => cmp item later = .lt) :
    items.getLast? = some item ↔ item ∈ items ∧ ∀ other ∈ items, cmp other item ≠ .gt := by
  have greatest : ∀ last, items.getLast? = some last →
      last ∈ items ∧ ∀ other ∈ items, cmp other last ≠ .gt := by
    intro last found
    obtain ⟨before, rfl⟩ := List.getLast?_eq_some_iff.mp found
    refine ⟨by simp, fun other member => ?_⟩
    rcases List.mem_append.mp member with earlier | same
    · rw [(List.pairwise_append.mp ascending).2.2 other earlier last (by simp)]
      decide
    · rw [List.mem_singleton.mp same, (Std.ReflCmp.compare_self : cmp last last = .eq)]
      decide
  refine ⟨greatest item, fun ⟨member, most⟩ => ?_⟩
  cases found : items.getLast? with
  | none => simp [List.getLast?_eq_none_iff.mp found] at member
  | some last =>
      obtain ⟨isMember, above⟩ := greatest last found
      have draw : cmp last item = .eq := by
        cases compared : cmp last item with
        | eq => rfl
        | lt => exact absurd (Std.OrientedCmp.gt_of_lt compared) (above item member)
        | gt => exact absurd compared (most last isMember)
      rw [Std.LawfulEqCmp.eq_of_compare draw]

theorem eq_of_mem_dedupBy (sorted : items.Pairwise fun item later => cmp item later ≠ .gt)
    {item other : α} (member : item ∈ dedupBy cmp items) (member' : other ∈ dedupBy cmp items)
    (same : cmp item other = .eq) : item = other := by
  have : Std.Symm fun item later => cmp item later ≠ .eq :=
    ⟨fun first second apart same => apart (Std.OrientedCmp.eq_symm same)⟩
  have apart : (dedupBy cmp items).Pairwise fun item later => cmp item later ≠ .eq :=
    (dedupBy_pairwise sorted).imp fun less same => by simp [less] at same
  by_contra distinct
  exact apart.forall member member' distinct same

/-- A sort by a comparison that may break draws in any way. -/
structure SortBy (cmp : α → α → Ordering) where
  run : List α → List α
  perm : ∀ items, (run items).Perm items
  sorted : ∀ items, (run items).Pairwise fun item later => cmp item later ≠ .gt

variable (cmp) in
/-- A stable sort by a lawful comparison sorts. -/
theorem pairwise_insertionSort_cmp (items : List α) :
    (items.insertionSort fun item later => cmp item later ≠ .gt).Pairwise
      fun item later => cmp item later ≠ .gt := by
  have total : Std.Total fun item later : α => cmp item later ≠ .gt := by
    refine ⟨fun item later => ?_⟩
    cases compared : cmp item later with
    | gt =>
        right
        rw [Std.OrientedCmp.lt_of_gt compared]
        decide
    | _ =>
        left
        decide
  have trans : IsTrans α fun item later => cmp item later ≠ .gt := by
    refine ⟨fun first second third le le' => ?_⟩
    exact Ordering.isLE_iff_ne_gt.mp (Std.TransCmp.isLE_trans (Ordering.isLE_iff_ne_gt.mpr le)
      (Ordering.isLE_iff_ne_gt.mpr le'))
  exact List.pairwise_insertionSort _ items

/-- A sort of distinct items ascends. -/
theorem ascending_insertionSort [Std.LawfulEqCmp cmp] {items : List α} (nodup : items.Nodup) :
    (items.insertionSort fun item later => cmp item later ≠ .gt).Pairwise
      fun item later => cmp item later = .lt := by
  have distinct : (items.insertionSort fun item later => cmp item later ≠ .gt).Nodup :=
    (List.perm_insertionSort _ items).nodup_iff.mpr nodup
  refine ((pairwise_insertionSort_cmp cmp items).and distinct).imp fun {item later} both => ?_
  cases compared : cmp item later with
  | lt => rfl
  | eq => exact absurd (Std.LawfulEqCmp.eq_of_compare compared) both.2
  | gt => exact absurd compared both.1

/-- The order that breaks draws for preferred elements. -/
def preferredOrder (cmp : α → α → Ordering) (preferred : α → Bool) (item later : α) : Prop :=
  cmp item later = .lt ∨ cmp item later = .eq ∧ (preferred later = true → preferred item = true)

instance (cmp : α → α → Ordering) (preferred : α → Bool) :
    DecidableRel (preferredOrder cmp preferred) :=
  fun _ _ => inferInstanceAs (Decidable (_ ∨ _))

instance (preferred : α → Bool) : IsTrans α (preferredOrder cmp preferred) where
  trans first second third := by
    rintro (less | ⟨same, prefers⟩) (less' | ⟨same', prefers'⟩)
    · exact Or.inl (Std.TransCmp.lt_trans less less')
    · exact Or.inl (Std.TransCmp.lt_of_lt_of_eq less same')
    · exact Or.inl (Std.TransCmp.lt_of_eq_of_lt same less')
    · exact Or.inr ⟨Std.TransCmp.eq_trans same same', fun third => prefers (prefers' third)⟩

instance (preferred : α → Bool) : Std.Total (preferredOrder cmp preferred) where
  total first second := by
    cases compared : cmp first second with
    | lt => exact Or.inl (Or.inl compared)
    | gt => exact Or.inr (Or.inl (Std.OrientedCmp.lt_of_gt compared))
    | eq =>
        cases prefers : preferred first with
        | true => exact Or.inl (Or.inr ⟨compared, fun _ => prefers⟩)
        | false => exact Or.inr (Or.inr ⟨Std.OrientedCmp.eq_symm compared, by simp [prefers]⟩)

/-- A sort that puts preferred elements first among equals. -/
def SortBy.preferring (preferred : α → Bool) : SortBy cmp where
  run items := items.insertionSort (preferredOrder cmp preferred)
  perm items := List.perm_insertionSort _ items
  sorted items := by
    refine (List.pairwise_insertionSort (preferredOrder cmp preferred) items).imp ?_
    rintro item later (less | ⟨same, -⟩)
    · simp [less]
    · simp [same]

/-- A sort that prefers other elements for other lists. -/
def SortBy.depending (preferred : List α → α → Bool) : SortBy cmp where
  run items := (SortBy.preferring (preferred items) : SortBy cmp).run items
  perm items := SortBy.perm _ items
  sorted items := SortBy.sorted _ items

/-- The one preferred element of its key is kept. -/
theorem mem_dedupBy_preferring {preferred : α → Bool} {item : α} (member : item ∈ items)
    (prefers : preferred item = true)
    (only : ∀ other ∈ items, preferred other = true → cmp other item = .eq → other = item) :
    item ∈ dedupBy cmp ((SortBy.preferring preferred : SortBy cmp).run items) := by
  have inSorted : item ∈ (SortBy.preferring preferred : SortBy cmp).run items :=
    (SortBy.perm _ items).mem_iff.mpr member
  obtain ⟨kept, inside, same, rfl | before⟩ := exists_mem_dedupBy cmp
    (List.pairwise_insertionSort (preferredOrder cmp preferred) items) inSorted
  · exact inside
  · have keptPreferred : preferred kept = true := by
      rcases before with less | ⟨-, prefers'⟩
      · simp [less] at same
      · exact prefers' prefers
    have stored : kept ∈ items :=
      (List.perm_insertionSort _ items).mem_iff.mp (mem_of_mem_dedupBy inside)
    rwa [← only kept stored keptPreferred same]

omit [Std.TransCmp cmp] in
/-- Sorting by a key gives the one list of the same items that ascends in it. -/
theorem mergeSort_eq_of_ascending {key : α → Nat} {items sorted : List α} (distinct : items.Nodup)
    (same : ∀ item, item ∈ items ↔ item ∈ sorted)
    (ascending : sorted.Pairwise fun item later => key item < key later) :
    items.mergeSort (fun item other => key item ≤ key other) = sorted := by
  have keysDistinct : (sorted.map key).Nodup :=
    List.pairwise_map.mpr (ascending.imp Nat.ne_of_lt)
  have sortedDistinct : sorted.Nodup := List.Nodup.of_map key keysDistinct
  have shuffled : (items.mergeSort fun item other => decide (key item ≤ key other)).Perm sorted :=
    (List.mergeSort_perm items _).trans
      ((List.perm_ext_iff_of_nodup distinct sortedDistinct).mpr same)
  refine List.Perm.eq_of_pairwise (fun item other member member' below above => ?_) ?_
    (ascending.imp Nat.le_of_lt) shuffled
  · exact List.inj_on_of_nodup_map keysDistinct
      ((same item).mp ((List.mergeSort_perm items _).subset member)) member'
      (Nat.le_antisymm below above)
  · have pairs := @List.pairwise_mergeSort α (fun item other => decide (key item ≤ key other))
      (fun _ _ _ below above => by simp only [decide_eq_true_eq] at *; omega)
      (fun _ _ => by simp only [Bool.or_eq_true, decide_eq_true_eq]; omega) items
    exact pairs.imp of_decide_eq_true

end Egregore.Base
