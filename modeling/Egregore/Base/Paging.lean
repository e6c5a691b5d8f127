import Mathlib.Data.List.Sort
import Mathlib.Data.List.TakeWhile
import Mathlib.Order.Basic
import Mathlib.Tactic.Common

/-!
# Pages that end between groups

A list sorted by a key is cut after at most a number of items, but never inside a
group of equal keys; a first group that is too large is taken whole. A feed that
resumes at the end of each page reads every item once exactly when its cursors read
back as those ends: `readOnce_iff`.
-/

namespace Egregore.Base

variable {α τ : Type*} [LinearOrder τ] (time : α → τ) (limit : Nat)

/-- The first page of a sorted list. -/
def cutPage (items : List α) : List α :=
  match items.head?, items[limit]? with
  | some first, some cut =>
      if time cut = time first then items.takeWhile fun item => time item ≤ time first
      else items.takeWhile fun item => time item < time cut
  | _, _ => items

/-- Where a page ends: at the greatest key with at most `limit` items up to it, or at the least key
of all. -/
structure PageEnd (items : List α) (last : τ) : Prop where
  occurs : ∃ item ∈ items, time item = last
  fits : items.countP (fun item => time item ≤ last) ≤ limit ∨ ∀ item ∈ items, last ≤ time item
  next : ∀ item ∈ items, last < time item →
    limit < items.countP fun other => time other ≤ time item

variable {time limit} {items : List α}

/-- The end of a page does not depend on the order of the items. -/
theorem PageEnd.perm {others : List α} (same : items.Perm others) {last : τ}
    (ends : PageEnd time limit items last) : PageEnd time limit others last where
  occurs := by
    obtain ⟨item, member, key⟩ := ends.occurs
    exact ⟨item, same.mem_iff.mp member, key⟩
  fits := ends.fits.imp (fun few => by rwa [← same.countP_eq])
    fun least item member => least item (same.mem_iff.mpr member)
  next item member later := by
    rw [← same.countP_eq]
    exact ends.next item (same.mem_iff.mpr member) later

/-- There is one page end. -/
theorem PageEnd.unique {last other : τ} (ends : PageEnd time limit items last)
    (ends' : PageEnd time limit items other) : last = other := by
  have notLess : ∀ {last other : τ}, PageEnd time limit items last →
      PageEnd time limit items other → ¬ last < other := by
    intro last other ends ends' less
    obtain ⟨item, member, rfl⟩ := ends'.occurs
    have many := ends.next item member less
    rcases ends'.fits with few | least
    · omega
    · obtain ⟨first, member', rfl⟩ := ends.occurs
      exact absurd (least first member') (not_le.mpr less)
  exact le_antisymm (not_lt.mp (notLess ends' ends)) (not_lt.mp (notLess ends ends'))

section Sorted

variable (sorted : items.Pairwise fun item later => time item ≤ time later)

include sorted

/-- In a sorted list a bound on the key takes a beginning. -/
theorem takeWhile_eq_filter {bound : α → Bool}
    (closed : ∀ item later, time item ≤ time later → bound later = true → bound item = true) :
    items.takeWhile bound = items.filter bound := by
  induction items with
  | nil => rfl
  | cons first rest ih =>
      obtain ⟨before, sorted'⟩ := List.pairwise_cons.mp sorted
      cases holds : bound first with
      | true => rw [List.takeWhile_cons_of_pos holds, List.filter_cons_of_pos holds, ih sorted']
      | false =>
          have none : rest.filter bound = [] := by
            rw [List.filter_eq_nil_iff]
            intro later member bounded
            have := closed first later (before later member) bounded
            simp [holds] at this
          simp [holds, none]

/-- The first item is the earliest. -/
theorem head_le {first item : α} (isFirst : items.head? = some first) (member : item ∈ items) :
    time first ≤ time item := by
  cases items with
  | nil => simp at isFirst
  | cons head rest =>
      obtain rfl := Option.some.inj isFirst
      rcases List.mem_cons.mp member with rfl | later
      · exact le_refl _
      · exact (List.pairwise_cons.mp sorted).1 item later

/-- The items up to a position all come before a key that is at least the one there. -/
theorem lt_countP {cut : α} (at_ : items[limit]? = some cut) {key : τ} (bound : time cut ≤ key) :
    limit < items.countP fun item => time item ≤ key := by
  obtain ⟨below, rfl⟩ := List.getElem?_eq_some_iff.mp at_
  have all : ∀ item ∈ items.take (limit + 1), time item ≤ key := by
    intro item member
    obtain ⟨index, less, rfl⟩ := List.mem_take_iff_getElem.mp member
    rcases Nat.lt_or_ge index limit with before | atEnd
    · exact le_trans (List.pairwise_iff_getElem.mp sorted index limit (by omega) below before) bound
    · obtain rfl : index = limit := by omega
      exact bound
  have count : (items.take (limit + 1)).countP (fun item => time item ≤ key) = limit + 1 := by
    rw [List.countP_eq_length.mpr (by simpa using all), List.length_take]
    omega
  have : (items.take (limit + 1)).countP (fun item => time item ≤ key) ≤
      items.countP fun item => time item ≤ key := (List.take_sublist (limit + 1) items).countP_le
  omega

/-- No item from a position on has a key below the one there. -/
theorem countP_lt_le {cut : α} (at_ : items[limit]? = some cut) :
    items.countP (fun item => time item < time cut) ≤ limit := by
  obtain ⟨below, rfl⟩ := List.getElem?_eq_some_iff.mp at_
  have split : items.countP (fun item => time item < time items[limit]) =
      (items.take limit).countP (fun item => time item < time items[limit]) +
        (items.drop limit).countP fun item => time item < time items[limit] := by
    rw [← List.countP_append, List.take_append_drop]
  have late : (items.drop limit).countP (fun item => time item < time items[limit]) = 0 := by
    rw [List.countP_eq_zero]
    intro item member
    obtain ⟨index, less, rfl⟩ := List.mem_drop_iff_getElem.mp member
    simp only [decide_eq_true_eq, not_lt]
    rcases Nat.eq_zero_or_pos index with rfl | after
    · exact le_refl _
    · exact List.pairwise_iff_getElem.mp sorted limit (limit + index) below _ (by omega)
  have early := List.countP_le_length (p := fun item => decide (time item < time items[limit]))
    (l := items.take limit)
  rw [List.length_take] at early
  omega

/-- The last item is the latest. -/
theorem le_getLast {last item : α} (isLast : items.getLast? = some last) (member : item ∈ items) :
    time item ≤ time last := by
  obtain ⟨before, rfl⟩ := List.getLast?_eq_some_iff.mp isLast
  rcases List.mem_append.mp member with earlier | atEnd
  · exact (List.pairwise_append.mp sorted).2.2 item earlier last (List.mem_singleton_self _)
  · rw [List.mem_singleton.mp atEnd]

omit sorted in

/-- A page with an item has a last one. -/
private theorem exists_getLast {kept : List α} {item : α} (member : item ∈ kept) :
    ∃ last, kept.getLast? = some last :=
  Option.isSome_iff_exists.mp (List.getLast?_isSome.mpr (List.ne_nil_of_mem member))

variable (limit) in
/-- The first page holds the items up to its end, and the end is its last key. -/
theorem cutPage_eq (nonempty : items ≠ []) :
    ∃ last, PageEnd time limit items last ∧
      cutPage time limit items = items.filter (fun item => time item ≤ last) ∧
      (cutPage time limit items).getLast?.map time = some last := by
  obtain ⟨first, isFirst⟩ : ∃ first, items.head? = some first :=
    Option.isSome_iff_exists.mp (List.isSome_head?.mpr nonempty)
  have firstMember : first ∈ items := List.mem_of_head? isFirst
  have least : ∀ item ∈ items, time first ≤ time item := fun item => head_le sorted isFirst
  cases at_ : items[limit]? with
  | none =>
      obtain ⟨last, isLast⟩ := exists_getLast firstMember
      have greatest : ∀ item ∈ items, time item ≤ time last := fun item => le_getLast sorted isLast
      have few : items.length ≤ limit := List.getElem?_eq_none_iff.mp at_
      have whole : cutPage time limit items = items := by simp [cutPage, isFirst, at_]
      refine ⟨time last, ⟨⟨last, List.mem_of_getLast? isLast, rfl⟩,
        Or.inl (Nat.le_trans List.countP_le_length few), fun item member later => ?_⟩, ?_, ?_⟩
      · exact absurd (greatest item member) (not_le.mpr later)
      · rw [whole, List.filter_eq_self.mpr (by simpa using greatest)]
      · rw [whole, isLast, Option.map_some]
  | some cut =>
      by_cases same : time cut = time first
      · -- The first group is more than a page.
        have page : cutPage time limit items =
            items.filter fun item => time item ≤ time first := by
          simp only [cutPage, isFirst, at_, same, if_true]
          exact takeWhile_eq_filter sorted fun item later le bound => by
            simp only [decide_eq_true_eq] at bound ⊢
            exact le_trans le bound
        have inPage : first ∈ cutPage time limit items := by
          rw [page]
          exact List.mem_filter.mpr ⟨firstMember, by simp⟩
        obtain ⟨last, isLast⟩ := exists_getLast inPage
        refine ⟨time first, ⟨⟨first, firstMember, rfl⟩, Or.inr least, fun item member later => ?_⟩,
          page, ?_⟩
        · exact lt_countP sorted at_ (same ▸ le_of_lt later)
        · have inside := List.mem_of_getLast? isLast
          rw [page, List.mem_filter, decide_eq_true_eq] at inside
          rw [isLast, Option.map_some, le_antisymm inside.2 (least last inside.1)]
      · have page : cutPage time limit items = items.filter fun item => time item < time cut := by
          simp only [cutPage, isFirst, at_, same, if_false]
          exact takeWhile_eq_filter sorted fun item later le bound => by
            simp only [decide_eq_true_eq] at bound ⊢
            exact lt_of_le_of_lt le bound
        have before : time first < time cut :=
          lt_of_le_of_ne (least cut (List.mem_of_getElem? at_)) (Ne.symm same)
        have inPage : first ∈ cutPage time limit items := by
          rw [page]
          exact List.mem_filter.mpr ⟨firstMember, by simpa using before⟩
        obtain ⟨last, isLast⟩ := exists_getLast inPage
        have inside := List.mem_of_getLast? isLast
        have pageSorted : (cutPage time limit items).Pairwise fun item later =>
            time item ≤ time later := page ▸ sorted.filter _
        have upTo : ∀ item ∈ items, time item ≤ time last ↔ time item < time cut := by
          intro item member
          rw [page, List.mem_filter, decide_eq_true_eq] at inside
          constructor
          · exact fun le => lt_of_le_of_lt le inside.2
          · intro less
            refine le_getLast pageSorted isLast ?_
            rw [page]
            exact List.mem_filter.mpr ⟨member, by simpa using less⟩
        have count : items.countP (fun item => time item ≤ time last) =
            items.countP fun item => time item < time cut :=
          List.countP_congr fun item member => by simpa using upTo item member
        refine ⟨time last, ⟨⟨last, ?_, rfl⟩, Or.inl ?_, fun item member later => ?_⟩, ?_, ?_⟩
        · exact (List.mem_filter.mp (page ▸ inside)).1
        · rw [count]
          exact countP_lt_le sorted at_
        · refine lt_countP sorted at_ (not_lt.mp fun less => ?_)
          exact absurd ((upTo item member).mpr less) (not_le.mpr later)
        · rw [page]
          exact List.filter_congr fun item member => by
            rw [Bool.eq_iff_iff, decide_eq_true_eq, decide_eq_true_eq]
            exact (upTo item member).symm
        · rw [isLast, Option.map_some]

end Sorted

/-! ### Reading page after page -/

section Feed

variable (time limit) (before : α → α → Prop) [DecidableRel before] (mark : τ → Option τ)
variable (items)

/-- The items after a cursor. -/
def itemsAfter (cursor : τ) : List α :=
  items.filter fun item => cursor < time item

/-- The first page after a cursor. -/
def pageAfter (cursor : τ) : List α :=
  cutPage time limit ((itemsAfter time items cursor).insertionSort before)

/-- A reader asks for pages until one is empty. The cursor of the next page is what `mark` makes
of the last key of a page, when that can be read at all. -/
inductive Feed : τ → List α → Prop
  | done {cursor} (nothing : itemsAfter time items cursor = []) : Feed cursor []
  | page {cursor last next rows}
      (isLast : (pageAfter time limit items before cursor).getLast?.map time = some last)
      (marked : mark last = some next) (rest : Feed next rows) :
      Feed cursor (pageAfter time limit items before cursor ++ rows)

/-- The page ends of a reader whose cursors are exact. -/
inductive ReachedEnd (start : τ) : τ → Prop
  | first {last} (ends : PageEnd time limit (itemsAfter time items start) last) :
      ReachedEnd start last
  | next {cursor last} (reached : ReachedEnd start cursor)
      (ends : PageEnd time limit (itemsAfter time items cursor) last) : ReachedEnd start last

/-- Every item after the start is read once, and in order. -/
def ReadOnce (start : τ) : Prop :=
  ∃ rows, Feed time limit items before mark start rows ∧
    rows.Perm (itemsAfter time items start) ∧ rows.Pairwise before

/-- An order of items that refines the order of their keys. -/
structure RefinesTime : Prop where
  total : ∀ item other, before item other ∨ before other item
  trans : ∀ item other later, before item other → before other later → before item later
  le : ∀ item other, before item other → time item ≤ time other
  of_lt : ∀ item other, time item < time other → before item other

variable {time limit before mark items}

/-- The items after a cursor are the later ones. -/
theorem mem_itemsAfter {cursor : τ} {item : α} :
    item ∈ itemsAfter time items cursor ↔ item ∈ items ∧ cursor < time item := by
  simp [itemsAfter]

/-- What is reached from a reached end is reached. -/
theorem ReachedEnd.trans {start cursor last : τ}
    (reached : ReachedEnd time limit items start cursor)
    (further : ReachedEnd time limit items cursor last) : ReachedEnd time limit items start last := by
  induction further with
  | first ends => exact .next reached ends
  | next _ ends ih => exact .next ih ends

/-- A reached end is the time of an item. -/
theorem ReachedEnd.occurs {start last : τ} (reached : ReachedEnd time limit items start last) :
    ∃ item ∈ items, time item = last := by
  have inItems : ∀ {cursor}, PageEnd time limit (itemsAfter time items cursor) last →
      ∃ item ∈ items, time item = last := by
    intro cursor ends
    obtain ⟨item, member, key⟩ := ends.occurs
    exact ⟨item, (mem_itemsAfter.mp member).1, key⟩
  cases reached with
  | first ends => exact inItems ends
  | next _ ends => exact inItems ends

section Ordered

variable (refines : RefinesTime time before)

include refines

/-- The rows are sorted. -/
theorem sorted_insertionSort (rows : List α) : (rows.insertionSort before).Pairwise before := by
  have : Std.Total before := ⟨refines.total⟩
  have : IsTrans α before := ⟨refines.trans⟩
  exact List.pairwise_insertionSort before rows

variable (limit) in
/-- What a page after a cursor is. -/
theorem pageAfter_eq {cursor : τ} (more : itemsAfter time items cursor ≠ []) :
    ∃ last, PageEnd time limit (itemsAfter time items cursor) last ∧
      pageAfter time limit items before cursor =
        ((itemsAfter time items cursor).insertionSort before).filter (fun item => time item ≤ last) ∧
      (pageAfter time limit items before cursor).getLast?.map time = some last := by
  have same := List.perm_insertionSort before (itemsAfter time items cursor)
  have sorted : ((itemsAfter time items cursor).insertionSort before).Pairwise
      fun item later => time item ≤ time later :=
    (sorted_insertionSort refines _).imp fun {item later} => refines.le item later
  have nonempty : (itemsAfter time items cursor).insertionSort before ≠ [] := fun empty =>
    more (List.nil_perm.mp (empty ▸ same))
  obtain ⟨last, ends, page, isLast⟩ := cutPage_eq limit sorted nonempty
  exact ⟨last, ends.perm same, page, isLast⟩

/-- A page holds the items up to its end, in order. -/
theorem page_perm {cursor last : τ} (more : itemsAfter time items cursor ≠ [])
    (ends : PageEnd time limit (itemsAfter time items cursor) last) :
    (pageAfter time limit items before cursor).Perm
        ((itemsAfter time items cursor).filter fun item => time item ≤ last) ∧
      (pageAfter time limit items before cursor).Pairwise before ∧
      (pageAfter time limit items before cursor).getLast?.map time = some last := by
  obtain ⟨last', ends', page, isLast⟩ := pageAfter_eq limit refines more
  obtain rfl := ends.unique ends'
  refine ⟨?_, ?_, isLast⟩
  · rw [page]
    exact (List.perm_insertionSort before _).filter _
  · rw [page]
    exact (sorted_insertionSort refines _).filter _

omit [DecidableRel before] refines in

/-- Behind the page come the items after its end. -/
theorem filter_itemsAfter {start last : τ} (later : start < last) :
    (itemsAfter time items start).filter (fun item => !decide (time item ≤ last)) =
      itemsAfter time items last := by
  rw [itemsAfter, itemsAfter, List.filter_filter]
  apply List.filter_congr
  intro item _
  rw [Bool.eq_iff_iff]
  simp only [Bool.and_eq_true, Bool.not_eq_true', decide_eq_false_iff_not, not_le,
    decide_eq_true_eq]
  exact ⟨And.left, fun after => ⟨after, lt_trans later after⟩⟩

omit [DecidableRel before] refines in

/-- A page ends later than it starts. -/
theorem PageEnd.after {start last : τ}
    (ends : PageEnd time limit (itemsAfter time items start) last) :
    itemsAfter time items start ≠ [] ∧ start < last := by
  obtain ⟨item, member, rfl⟩ := ends.occurs
  exact ⟨List.ne_nil_of_mem member, (mem_itemsAfter.mp member).2⟩

/-- After a page there remain the items after its end. -/
theorem perm_page_append_iff {start last : τ} {rows : List α}
    (ends : PageEnd time limit (itemsAfter time items start) last) :
    (pageAfter time limit items before start ++ rows).Perm (itemsAfter time items start) ↔
      rows.Perm (itemsAfter time items last) := by
  obtain ⟨page, -, -⟩ := page_perm refines ends.after.1 ends
  have split := List.filter_append_perm (fun item => decide (time item ≤ last))
    (itemsAfter time items start)
  rw [filter_itemsAfter ends.after.2] at split
  constructor
  · intro all
    exact (List.perm_append_left_iff _).mp
      (((page.symm.append_right rows).trans all).trans split.symm)
  · intro rest
    exact (page.append rest).trans split

/-- A reader that goes on gets a row that is no later than any item still after its cursor. -/
theorem Feed.exists_row_le {cursor : τ} {rows : List α} {item : α}
    (feed : Feed time limit items before mark cursor rows)
    (member : item ∈ itemsAfter time items cursor) : ∃ row ∈ rows, time row ≤ time item := by
  cases feed with
  | done nothing => simp [nothing] at member
  | page isLast marked rest =>
      obtain ⟨last, ends, -, -⟩ := pageAfter_eq limit refines (List.ne_nil_of_mem member)
      obtain ⟨page, -, -⟩ := page_perm refines (List.ne_nil_of_mem member) ends
      have inPage : ∀ row ∈ itemsAfter time items cursor, time row ≤ last →
          row ∈ pageAfter time limit items before cursor := fun row after le =>
        page.mem_iff.mpr (List.mem_filter.mpr ⟨after, by simpa using le⟩)
      rcases le_total (time item) last with within | beyond
      · exact ⟨item, List.mem_append_left _ (inPage item member within), le_refl _⟩
      · obtain ⟨row, after, rfl⟩ := ends.occurs
        exact ⟨row, List.mem_append_left _ (inPage row after (le_refl _)), beyond⟩

/-- A page end whose cursor is not exact is followed by a row that was read before. -/
theorem ReadOnce.step {start last : τ}
    (back : ∀ item ∈ items, ∀ next, mark (time item) = some next → next ≤ time item)
    (once : ReadOnce time limit items before mark start)
    (ends : PageEnd time limit (itemsAfter time items start) last) :
    mark last = some last ∧ ReadOnce time limit items before mark last := by
  obtain ⟨rows, feed, all, sorted⟩ := once
  cases feed with
  | done nothing => exact absurd nothing ends.after.1
  | @page _ last' next rows isLast marked rest =>
      obtain ⟨-, -, isLast'⟩ := page_perm refines ends.after.1 ends
      obtain rfl : last' = last := Option.some.inj (isLast.symm.trans isLast')
      have remaining := (perm_page_append_iff refines ends).mp all
      obtain ⟨item, member, rfl⟩ := ends.occurs
      have stored : item ∈ items := (mem_itemsAfter.mp member).1
      have exact_ : next = time item := by
        refine le_antisymm (back item stored next marked) (not_lt.mp fun early => ?_)
        obtain ⟨row, inRows, le⟩ :=
          rest.exists_row_le refines (mem_itemsAfter.mpr ⟨stored, early⟩)
        exact absurd (mem_itemsAfter.mp (remaining.mem_iff.mp inRows)).2 (not_lt.mpr le)
      subst exact_
      exact ⟨marked, rows, rest, remaining, (List.pairwise_append.mp sorted).2.1⟩

/-- With exact cursors a reader gets every item once. -/
theorem readOnce_of_exact {start : τ}
    (exact_ : ∀ last, ReachedEnd time limit items start last → mark last = some last) :
    ReadOnce time limit items before mark start := by
  induction count : (itemsAfter time items start).length using Nat.strong_induction_on
    generalizing start with
  | _ size ih =>
      by_cases more : itemsAfter time items start = []
      · exact ⟨[], .done more, more ▸ List.Perm.refl _, List.Pairwise.nil⟩
      · obtain ⟨last, ends, -, isLast⟩ := pageAfter_eq limit refines more
        obtain ⟨page, sorted, -⟩ := page_perm refines more ends
        have fewer : (itemsAfter time items last).length < size := by
          have split := (perm_page_append_iff refines ends).mpr
            (List.Perm.refl (itemsAfter time items last))
          have nonempty : pageAfter time limit items before start ≠ [] := fun empty => by
            simp [empty] at isLast
          have := List.length_pos_iff.mpr nonempty
          rw [← count, ← split.length_eq, List.length_append]
          omega
        obtain ⟨rows, feed, all, sorted'⟩ := ih _ fewer
          (fun last' reached => exact_ last' ((ReachedEnd.first ends).trans reached)) rfl
        refine ⟨_, .page isLast (exact_ last (.first ends)) feed,
          (perm_page_append_iff refines ends).mpr all,
          List.pairwise_append.mpr ⟨sorted, sorted', fun item inPage later inRows => ?_⟩⟩
        have within := (List.mem_filter.mp (page.mem_iff.mp inPage)).2
        have after := (mem_itemsAfter.mp (all.mem_iff.mp inRows)).2
        exact refines.of_lt item later (lt_of_le_of_lt (by simpa using within) after)

/-- A reader gets every item once if and only if the cursor of every page end is exact. -/
theorem readOnce_iff {start : τ}
    (back : ∀ item ∈ items, ∀ next, mark (time item) = some next → next ≤ time item) :
    ReadOnce time limit items before mark start ↔
      ∀ last, ReachedEnd time limit items start last → mark last = some last := by
  constructor
  · intro once last reached
    have run : mark last = some last ∧ ReadOnce time limit items before mark last := by
      induction reached with
      | first ends => exact once.step refines back ends
      | next _ ends ih => exact ih.2.step refines back ends
    exact run.1
  · exact readOnce_of_exact refines

end Ordered

end Feed

end Egregore.Base
