import Egregore.Base.Champion
import Egregore.Base.OrderedMap
import Mathlib.Algebra.BigOperators.Group.List.Lemmas
import Mathlib.Algebra.GroupWithZero.Nat

/-!
# Tallies

A sorted map that counts items by a key. The counts sum to the number of items.
`sum_foldl_tally` is that sum, and `sum_foldl_pushOnto` the one of the lists
collected by key.
-/

namespace Egregore.Base

variable {α κ : Type*} {cmp : κ → κ → Ordering} [Std.TransCmp cmp] [Std.LawfulEqCmp cmp]

/-- Count an item under its key. -/
def tally (key : α → κ) (counts : Std.ExtTreeMap κ Nat cmp) (item : α) : Std.ExtTreeMap κ Nat cmp :=
  counts.alter (key item) fun count => some (count.getD 0 + 1)

variable [DecidableEq κ] (key : α → κ) (items : List α)

theorem getElem?_foldl_tally (sought : κ) :
    (items.foldl (tally key) (∅ : Std.ExtTreeMap κ Nat cmp))[sought]? =
      if sought ∈ items.map key then some ((items.map key).count sought) else none := by
  induction items using List.reverseRecOn with
  | nil => simp
  | append_singleton items item ih =>
      rw [List.foldl_append, List.foldl_cons, List.foldl_nil, tally,
        Std.ExtTreeMap.getElem?_alter]
      by_cases same : key item = sought
      · subst same
        rw [if_pos Std.ReflCmp.compare_self, ih]
        by_cases known : key item ∈ items.map key
        · simp [known]
        · simp [known, List.count_eq_zero_of_not_mem known]
      · rw [if_neg (by simpa [Std.LawfulEqCmp.compare_eq_iff_eq] using same), ih]
        simp [same, Ne.symm same]

/-- The counts sum to the number of items. -/
theorem sum_foldl_tally :
    ((items.foldl (tally key) (∅ : Std.ExtTreeMap κ Nat cmp)).toList.map Prod.snd).sum =
      items.length := by
  generalize found : items.foldl (tally key) (∅ : Std.ExtTreeMap κ Nat cmp) = counts
  have counted : ∀ pair ∈ counts.toList,
      pair.1 ∈ items.map key ∧ pair.2 = (items.map key).count pair.1 := by
    rintro ⟨sought, count⟩ member
    have value := Std.ExtTreeMap.mem_toList_iff_getElem?_eq_some.mp member
    rw [← found, getElem?_foldl_tally] at value
    split at value
    · next known => exact ⟨known, (Option.some.inj value).symm⟩
    · simp at value
  have keys : (counts.toList.map Prod.fst).Perm (items.map key).dedup := by
    rw [List.perm_ext_iff_of_nodup _ (List.nodup_dedup _)]
    · intro sought
      rw [List.mem_dedup]
      constructor
      · intro member
        obtain ⟨pair, listed, rfl⟩ := List.mem_map.mp member
        exact (counted pair listed).1
      · intro known
        refine List.mem_map.mpr ⟨(sought, (items.map key).count sought), ?_, rfl⟩
        rw [Std.ExtTreeMap.mem_toList_iff_getElem?_eq_some, ← found, getElem?_foldl_tally,
          if_pos known]
    · rw [Std.ExtTreeMap.map_fst_toList_eq_keys]
      exact Std.ExtTreeMap.nodup_keys
  have values : counts.toList.map Prod.snd =
      (counts.toList.map Prod.fst).map fun sought => (items.map key).count sought := by
    rw [List.map_map]
    exact List.map_congr_left fun pair member => (counted pair member).2
  rw [values, (keys.map _).sum_eq, List.sum_map_count_dedup_eq_length, List.length_map]

/-! ### Groups that are folded -/

section Folded

variable {ν : Type*} (push : ν → α → ν) (init : ν)

/-- Push an item onto what is kept under its key. -/
def pushOnto (kept : Std.ExtTreeMap κ ν cmp) (item : α) : Std.ExtTreeMap κ ν cmp :=
  kept.alter (key item) fun value => some (push (value.getD init) item)

/-- What is kept under a key is the fold of its items. -/
theorem getElem?_foldl_pushOnto (sought : κ) :
    (items.foldl (pushOnto key push init) (∅ : Std.ExtTreeMap κ ν cmp))[sought]? =
      if sought ∈ items.map key then
        some ((items.filter fun item => key item = sought).foldl push init)
      else none := by
  induction items using List.reverseRecOn with
  | nil => simp
  | append_singleton items item ih =>
      rw [List.foldl_append, List.foldl_cons, List.foldl_nil, pushOnto,
        Std.ExtTreeMap.getElem?_alter, List.filter_append, List.foldl_append]
      by_cases same : key item = sought
      · subst same
        rw [if_pos Std.ReflCmp.compare_self, ih]
        by_cases known : key item ∈ items.map key
        · simp [known]
        · have none : (items.filter fun other => key other = key item) = [] := by
            simpa [List.filter_eq_nil_iff, List.mem_map] using known
          simp [known, none]
      · rw [if_neg (by simpa [Std.LawfulEqCmp.compare_eq_iff_eq] using same), ih]
        simp [same, Ne.symm same]

/-- A measure that counts the items it is pushed sums to their number. -/
theorem sum_foldl_pushOnto (measure : ν → Nat) (zero : measure init = 0)
    (step : ∀ value item, measure (push value item) = measure value + 1) :
    ((items.foldl (pushOnto key push init)
      (∅ : Std.ExtTreeMap κ ν cmp)).toList.map fun entry => measure entry.2).sum =
        items.length := by
  have counted : ∀ group : List α, measure (group.foldl push init) = group.length := by
    intro group
    induction group using List.reverseRecOn with
    | nil => exact zero
    | append_singleton group item ih => simp [step, ih]
  have same : (items.foldl (pushOnto key push init) (∅ : Std.ExtTreeMap κ ν cmp)).map
      (fun _ value => measure value) = items.foldl (tally key) ∅ := by
    apply Std.ExtTreeMap.ext_getElem?
    intro sought
    rw [Std.ExtTreeMap.getElem?_map, getElem?_foldl_pushOnto, getElem?_foldl_tally]
    split
    · rw [Option.map_some, counted, List.count_eq_countP, List.countP_map,
        List.countP_eq_length_filter]
      rfl
    · rfl
  have total : ((items.foldl (tally key) (∅ : Std.ExtTreeMap κ Nat cmp)).toList.map Prod.snd).sum =
      items.length := sum_foldl_tally key items
  rw [← total, ← same, Std.ExtTreeMap.toList_map, List.map_map]
  rfl

end Folded

/-! ### Champions by key -/

section Champions

variable (better : α → α → Ordering)

/-- Keep the best item under each key. -/
def keepBestOnto (kept : Std.ExtTreeMap κ α cmp) (item : α) : Std.ExtTreeMap κ α cmp :=
  kept.alter (key item) fun best => keepBest better best item

/-- What is kept under a key is the best of its items. -/
theorem getElem?_foldl_keepBestOnto (sought : κ) :
    (items.foldl (keepBestOnto key better) (∅ : Std.ExtTreeMap κ α cmp))[sought]? =
      bestOf better (items.filter fun item => key item = sought) := by
  induction items using List.reverseRecOn with
  | nil => simp
  | append_singleton items item ih =>
      rw [List.foldl_append, List.foldl_cons, List.foldl_nil, keepBestOnto,
        Std.ExtTreeMap.getElem?_alter, List.filter_append]
      by_cases same : key item = sought
      · subst same
        rw [if_pos Std.ReflCmp.compare_self, ih]
        simp [bestOf_append_singleton]
      · rw [if_neg (by simpa [Std.LawfulEqCmp.compare_eq_iff_eq] using same), ih]
        simp [same]

end Champions

end Egregore.Base
