import Egregore.Base.Utf8
import Mathlib.Algebra.GroupWithZero.Nat
import Mathlib.Data.List.Induction
import Mathlib.Tactic.Common
import Std.Data.ExtTreeMap
import Std.Data.ExtTreeSet

/-!
# Maps ordered by string bytes

String-keyed sorted maps and sets whose order is the byte order of the UTF-8
encoding, with the few lookup lemmas the models use. A fold that inserts, keeps the
first entry or collects lists is read off as a search of what was folded, one lemma
for each kind of fold.
-/

namespace Egregore.Base

/-- Strings compared as byte sequences. -/
def byteOrder : String → String → Ordering := compareOn asBytes

instance : Std.TransCmp byteOrder := inferInstanceAs (Std.TransCmp (compareOn asBytes))

instance : Std.LawfulEqCmp byteOrder where
  eq_of_compare same := asBytes_injective (Std.LawfulEqCmp.compare_eq_iff_eq.mp same)

@[simp] theorem byteOrder_eq_iff {text other : String} :
    byteOrder text other = .eq ↔ text = other :=
  Std.LawfulEqCmp.compare_eq_iff_eq

/-- A sorted map keyed by strings. -/
abbrev StrMap (ν : Type*) := Std.ExtTreeMap String ν byteOrder

/-- A sorted set of strings. -/
abbrev StrSet := Std.ExtTreeSet String byteOrder

/-- `Ord` of an option: `None` first. -/
def optionOrder {α : Type*} (order : α → α → Ordering) : Option α → Option α → Ordering
  | none, none => .eq
  | none, some _ => .lt
  | some _, none => .gt
  | some value, some other => order value other

/-- Pairs of strings, compared lexicographically. -/
abbrev pairOrder : String × String → String × String → Ordering :=
  compareLex (compareOn fun key => asBytes key.1) (compareOn fun key => asBytes key.2)

instance : Std.TransCmp pairOrder := inferInstance

instance : Std.LawfulEqCmp pairOrder where
  eq_of_compare {left right} same := by
    obtain ⟨first, second⟩ := left
    obtain ⟨first', second'⟩ := right
    simp only [pairOrder, compareLex, compareOn, Ordering.then_eq_eq,
      Std.LawfulEqCmp.compare_eq_iff_eq] at same
    obtain ⟨h₁, h₂⟩ := same
    rw [asBytes_injective h₁, asBytes_injective h₂]

/-- Triples of strings, compared lexicographically. -/
abbrev tripleOrder : String × String × String → String × String × String → Ordering :=
  compareLex (compareOn fun key => asBytes key.1)
    (compareLex (compareOn fun key => asBytes key.2.1) (compareOn fun key => asBytes key.2.2))

instance : Std.TransCmp tripleOrder := inferInstance

instance : Std.LawfulEqCmp tripleOrder where
  eq_of_compare {left right} same := by
    obtain ⟨first, second, third⟩ := left
    obtain ⟨first', second', third'⟩ := right
    simp only [tripleOrder, compareLex, compareOn, Ordering.then_eq_eq,
      Std.LawfulEqCmp.compare_eq_iff_eq] at same
    obtain ⟨h₁, h₂, h₃⟩ := same
    rw [asBytes_injective h₁, asBytes_injective h₂, asBytes_injective h₃]

/-- Quadruples of strings, compared lexicographically. -/
abbrev quadOrder : String × String × String × String → String × String × String × String → Ordering :=
  compareLex (compareOn fun key => asBytes key.1)
    (compareLex (compareOn fun key => asBytes key.2.1)
      (compareLex (compareOn fun key => asBytes key.2.2.1)
        (compareOn fun key => asBytes key.2.2.2)))

instance : Std.TransCmp quadOrder := inferInstance

instance : Std.LawfulEqCmp quadOrder where
  eq_of_compare {left right} same := by
    obtain ⟨first, second, third, fourth⟩ := left
    obtain ⟨first', second', third', fourth'⟩ := right
    simp only [quadOrder, compareLex, compareOn, Ordering.then_eq_eq,
      Std.LawfulEqCmp.compare_eq_iff_eq] at same
    obtain ⟨h₁, h₂, h₃, h₄⟩ := same
    rw [asBytes_injective h₁, asBytes_injective h₂, asBytes_injective h₃, asBytes_injective h₄]

section Lookup

variable {κ ν : Type*} {cmp : κ → κ → Ordering} [Std.TransCmp cmp] [Std.LawfulEqCmp cmp]
variable [DecidableEq κ]

theorem getElem?_insert_eq (map : Std.ExtTreeMap κ ν cmp) (key other : κ) (value : ν) :
    (map.insert key value)[other]? = if key = other then some value else map[other]? := by
  rw [Std.ExtTreeMap.getElem?_insert]
  by_cases same : key = other
  · simp [same]
  · simp [same, Std.LawfulEqCmp.compare_eq_iff_eq]

theorem getElem?_insertIfNew_eq (map : Std.ExtTreeMap κ ν cmp) (key other : κ) (value : ν) :
    (map.insertIfNew key value)[other]? =
      if key = other then (map[other]?).or (some value) else map[other]? := by
  rw [Std.ExtTreeMap.getElem?_insertIfNew]
  by_cases same : key = other
  · subst same
    by_cases present : key ∈ map
    · simp [present, Std.LawfulEqCmp.compare_eq_iff_eq]
    · simp [present]
  · simp [same, Std.LawfulEqCmp.compare_eq_iff_eq]

theorem getD_insert_eq (map : Std.ExtTreeMap κ ν cmp) (key other : κ) (value fallback : ν) :
    (map.insert key value).getD other fallback =
      if key = other then value else map.getD other fallback := by
  rw [Std.ExtTreeMap.getD_eq_getD_getElem?, getElem?_insert_eq, Std.ExtTreeMap.getD_eq_getD_getElem?]
  split <;> rfl

omit [DecidableEq κ] in
/-- A filtered set holds the members that pass. -/
theorem mem_filter_set {set : Std.ExtTreeSet κ cmp} {keep : κ → Bool} {key : κ} :
    key ∈ set.filter keep ↔ key ∈ set ∧ keep key = true := by
  have same : ∀ member : key ∈ set, set.get key member = key := fun member =>
    Std.LawfulEqCmp.eq_of_compare (Std.ExtTreeSet.compare_get_self member)
  simp only [Std.ExtTreeSet.mem_filter, same, exists_prop]

omit [DecidableEq κ] in
/-- A set takes up a list. -/
theorem mem_foldl_insert (newly : List κ) (removed : Std.ExtTreeSet κ cmp) (row : κ) :
    row ∈ newly.foldl (fun removed row => removed.insert row) removed ↔
      row ∈ removed ∨ row ∈ newly := by
  induction newly generalizing removed with
  | nil => simp
  | cons first rest ih =>
      rw [List.foldl_cons, ih, Std.ExtTreeSet.mem_insert, Std.LawfulEqCmp.compare_eq_iff_eq,
        List.mem_cons]
      constructor
      · rintro ((rfl | inside) | inside)
        · exact Or.inr (Or.inl rfl)
        · exact Or.inl inside
        · exact Or.inr (Or.inr inside)
      · rintro (inside | rfl | inside)
        · exact Or.inl (Or.inr inside)
        · exact Or.inl (Or.inl rfl)
        · exact Or.inr inside

omit [DecidableEq κ] in
/-- The only member of a set. -/
theorem only_iff {set : Std.ExtTreeSet κ cmp} {value : κ} :
    (if set.size = 1 then set.min? else none) = some value ↔
      ∀ other, other ∈ set ↔ other = value := by
  constructor
  · intro only other
    split at only
    · next single =>
        rw [← Std.ExtTreeSet.length_toList, List.length_eq_one_iff] at single
        obtain ⟨member, listed⟩ := single
        rw [Std.ExtTreeSet.min?_eq_head?_toList, listed, List.head?_cons, Option.some.injEq] at only
        rw [← Std.ExtTreeSet.mem_toList, listed, List.mem_singleton, only]
    · cases only
  · intro only
    have listed : set.toList = [value] := by
      have members : ∀ other ∈ set.toList, other = value := fun other member =>
        (only other).mp (Std.ExtTreeSet.mem_toList.mp member)
      have apart := set.distinct_toList
      have inside : value ∈ set.toList := Std.ExtTreeSet.mem_toList.mpr ((only value).mpr rfl)
      cases listed : set.toList with
      | nil => simp [listed] at inside
      | cons first rest =>
          rw [listed] at members apart
          cases rest with
          | nil => rw [members first (by simp)]
          | cons second rest =>
              have differ := (List.pairwise_cons.mp apart).1 second (by simp)
              rw [members first (by simp), members second (by simp)] at differ
              exact absurd Std.ReflCmp.compare_self differ
    rw [if_pos (by rw [← Std.ExtTreeSet.length_toList, listed]; rfl),
      Std.ExtTreeSet.min?_eq_head?_toList, listed]
    rfl

/-- Insert an item's entry, if it has one. -/
def insertEntry {α : Type*} (entry : α → Option (κ × ν)) (map : Std.ExtTreeMap κ ν cmp)
    (item : α) : Std.ExtTreeMap κ ν cmp :=
  match entry item with
  | some (key, value) => map.insert key value
  | none => map

/-- Collecting entries into a map: the last one for a key wins. -/
theorem getElem?_foldl_insertEntry {α : Type*} (entry : α → Option (κ × ν)) (items : List α)
    (map : Std.ExtTreeMap κ ν cmp) (key : κ) :
    (items.foldl (insertEntry entry) map)[key]? =
      (((items.filterMap entry).filter fun pair => pair.1 = key).getLast?.map Prod.snd).or
        map[key]? := by
  induction items using List.reverseRecOn with
  | nil => simp
  | append_singleton items item ih =>
      rw [List.foldl_append, List.foldl_cons, List.foldl_nil, List.filterMap_append,
        List.filter_append, insertEntry]
      cases found : entry item with
      | none => simpa [found] using ih
      | some pair =>
          obtain ⟨other, value⟩ := pair
          simp only [found, List.filterMap_cons, List.filterMap_nil]
          rw [getElem?_insert_eq]
          by_cases same : other = key
          · simp [same]
          · simpa [same] using ih

/-- A map computed from its keys. -/
theorem getElem?_foldl_insert_value (value : κ → ν) (keys : List κ) (map : Std.ExtTreeMap κ ν cmp)
    (key : κ) :
    (keys.foldl (fun map key => map.insert key (value key)) map)[key]? =
      if key ∈ keys then some (value key) else map[key]? := by
  induction keys generalizing map with
  | nil => simp
  | cons first rest ih =>
      rw [List.foldl_cons, ih, getElem?_insert_eq]
      by_cases later : key ∈ rest
      · simp [later]
      · by_cases same : first = key
        · simp [same, later]
        · simp [same, later, Ne.symm same]

/-- Entries whose keys tell them apart are all found. -/
theorem getElem?_foldl_insertIfNew (keyOf : ν → κ) (items : List ν)
    (apart : ∀ item ∈ items, ∀ other ∈ items, keyOf item = keyOf other → item = other) (key : κ)
    (value : ν) :
    (items.foldl (fun map item => map.insertIfNew (keyOf item) item)
      (∅ : Std.ExtTreeMap κ ν cmp))[key]? = some value ↔ value ∈ items ∧ keyOf value = key := by
  induction items using List.reverseRecOn generalizing value with
  | nil => simp
  | append_singleton items last ih =>
      have before := ih fun item member other member' =>
        apart item (List.mem_append_left _ member) other (List.mem_append_left _ member')
      rw [List.foldl_append, List.foldl_cons, List.foldl_nil, getElem?_insertIfNew_eq,
        List.mem_append, List.mem_singleton]
      by_cases same : keyOf last = key
      · subst same
        simp only [if_true, Option.or_eq_some_iff, Option.some.injEq, before]
        constructor
        · rintro (⟨member, same⟩ | ⟨-, rfl⟩)
          · exact ⟨Or.inl member, same⟩
          · exact ⟨Or.inr rfl, rfl⟩
        · rintro ⟨member | rfl, same⟩
          · exact Or.inl ⟨member, same⟩
          · cases found : (items.foldl (fun map item => map.insertIfNew (keyOf item) item)
                (∅ : Std.ExtTreeMap κ ν cmp))[keyOf value]? with
            | none => exact Or.inr ⟨rfl, rfl⟩
            | some other =>
                obtain ⟨member, same⟩ := (before other).mp found
                obtain rfl := apart other (by simp [member]) value (by simp) same
                exact Or.inl ⟨member, rfl⟩
      · simp only [same, if_false, before]
        constructor
        · exact fun ⟨member, key_⟩ => ⟨Or.inl member, key_⟩
        · rintro ⟨member | rfl, key_⟩
          · exact ⟨member, key_⟩
          · exact absurd key_ same

/-- Append an item's value to the group of its key, if it has one. -/
def pushEntry {α : Type*} (entry : α → Option (κ × ν)) (groups : Std.ExtTreeMap κ (List ν) cmp)
    (item : α) : Std.ExtTreeMap κ (List ν) cmp :=
  match entry item with
  | some (key, value) => groups.alter key fun group => some (group.getD [] ++ [value])
  | none => groups

/-- A group holds the values of its key, in order. -/
theorem getD_foldl_pushEntry {α : Type*} (entry : α → Option (κ × ν)) (items : List α) (key : κ) :
    (items.foldl (pushEntry entry) (∅ : Std.ExtTreeMap κ (List ν) cmp)).getD key [] =
      ((items.filterMap entry).filter fun pair => pair.1 = key).map Prod.snd := by
  induction items using List.reverseRecOn with
  | nil => simp
  | append_singleton items item ih =>
      rw [List.foldl_append, List.foldl_cons, List.foldl_nil, List.filterMap_append,
        List.filter_append, List.map_append, pushEntry]
      cases found : entry item with
      | none => simpa [found] using ih
      | some pair =>
          obtain ⟨other, value⟩ := pair
          simp only [Std.ExtTreeMap.getD_alter]
          by_cases same : other = key
          · subst same
            simp [found, ← ih, Std.ExtTreeMap.getD_eq_getD_getElem?]
          · simpa [found, same] using ih

omit [Std.LawfulEqCmp cmp] [DecidableEq κ] in
/-- Every group has a value. -/
theorem foldl_pushEntry_ne_nil {α : Type*} (entry : α → Option (κ × ν)) (items : List α) (key : κ) :
    (items.foldl (pushEntry entry) (∅ : Std.ExtTreeMap κ (List ν) cmp))[key]? ≠ some [] := by
  induction items using List.reverseRecOn with
  | nil => simp
  | append_singleton items item ih =>
      rw [List.foldl_append, List.foldl_cons, List.foldl_nil, pushEntry]
      cases entry item with
      | none => exact ih
      | some pair =>
          obtain ⟨other, value⟩ := pair
          simp only [Std.ExtTreeMap.getElem?_alter]
          split
          · simp
          · exact ih

/-- The groups are the lists of values of the keys that have some. -/
theorem mem_toList_foldl_pushEntry_iff {α : Type*} (entry : α → Option (κ × ν)) (items : List α)
    {key : κ} {group : List ν} :
    (key, group) ∈ (items.foldl (pushEntry entry) (∅ : Std.ExtTreeMap κ (List ν) cmp)).toList ↔
      group ≠ [] ∧
        group = ((items.filterMap entry).filter fun pair => pair.1 = key).map Prod.snd := by
  have values : (items.foldl (pushEntry entry) (∅ : Std.ExtTreeMap κ (List ν) cmp)).getD key [] =
      _ := getD_foldl_pushEntry entry items key
  rw [Std.ExtTreeMap.mem_toList_iff_getElem?_eq_some, ← values,
    Std.ExtTreeMap.getD_eq_getD_getElem?]
  have nonempty := (foldl_pushEntry_ne_nil entry items key :
    (items.foldl (pushEntry entry) (∅ : Std.ExtTreeMap κ (List ν) cmp))[key]? ≠ some [])
  cases found : (items.foldl (pushEntry entry) (∅ : Std.ExtTreeMap κ (List ν) cmp))[key]? with
  | none => simp
  | some kept =>
      rw [found] at nonempty
      rw [Option.getD_some, Option.some.injEq]
      constructor
      · rintro rfl
        exact ⟨fun empty => nonempty (congrArg some empty), rfl⟩
      · rintro ⟨-, rfl⟩
        rfl

section Keyed

variable {α : Type*} (keyOf : α → Option κ) (items : List α)

/-- Where items are grouped under keys of their own, a group holds the items of its key. -/
theorem mem_toList_foldl_pushEntry_keyed {key : κ} {group : List α} :
    (key, group) ∈ (items.foldl (pushEntry fun item => (keyOf item).map fun key => (key, item))
        (∅ : Std.ExtTreeMap κ (List α) cmp)).toList ↔
      group ≠ [] ∧ group = items.filter fun item => keyOf item = some key := by
  have values : ((items.filterMap fun item =>
      (keyOf item).map fun key => (key, item)).filter fun pair => pair.1 = key).map Prod.snd =
        items.filter fun item => keyOf item = some key := by
    induction items with
    | nil => rfl
    | cons item rest ih =>
      cases keyed : keyOf item with
      | none => simpa [keyed] using ih
      | some other => by_cases same : other = key <;> simp [keyed, same, ih]
  rw [mem_toList_foldl_pushEntry_iff, values]

theorem mem_foldl_pushEntry_keyed {group : List α} :
    group ∈ (items.foldl (pushEntry fun item => (keyOf item).map fun key => (key, item))
        (∅ : Std.ExtTreeMap κ (List α) cmp)).toList.map Prod.snd ↔
      group ≠ [] ∧ ∃ key, group = items.filter fun item => keyOf item = some key := by
  simp only [List.mem_map, Prod.exists, exists_eq_right, mem_toList_foldl_pushEntry_keyed,
    exists_and_left]

/-- Items are in one group only. -/
theorem disjoint_foldl_pushEntry_keyed :
    ((items.foldl (pushEntry fun item => (keyOf item).map fun key => (key, item))
        (∅ : Std.ExtTreeMap κ (List α) cmp)).toList.map Prod.snd).Pairwise List.Disjoint := by
  rw [List.pairwise_map]
  refine Std.ExtTreeMap.distinct_keys_toList.imp_of_mem ?_
  rintro ⟨key, group⟩ ⟨other, group'⟩ listed listed' apart item inGroup inGroup'
  obtain ⟨-, rfl⟩ := (mem_toList_foldl_pushEntry_keyed keyOf items).mp listed
  obtain ⟨-, rfl⟩ := (mem_toList_foldl_pushEntry_keyed keyOf items).mp listed'
  simp only [List.mem_filter, decide_eq_true_eq] at inGroup inGroup'
  apply apart
  rw [Std.LawfulEqCmp.compare_eq_iff_eq]
  exact Option.some.inj (inGroup.2.symm.trans inGroup'.2)

end Keyed

/-- The entry of a key is listed once. -/
theorem filter_toList_eq {map : Std.ExtTreeMap κ ν cmp} {key : κ} {value : ν}
    (found : map[key]? = some value) :
    (map.toList.filter fun entry => entry.1 = key) = [(key, value)] := by
  have apart : map.toList.Nodup := by
    refine Std.ExtTreeMap.distinct_keys_toList.imp ?_
    rintro entry _ differ rfl
    exact differ Std.ReflCmp.compare_self
  rw [← List.perm_singleton, List.perm_ext_iff_of_nodup (apart.filter _) (by simp)]
  rintro ⟨other, kept⟩
  rw [List.mem_filter, decide_eq_true_eq, List.mem_singleton, Prod.mk.injEq,
    Std.ExtTreeMap.mem_toList_iff_getElem?_eq_some]
  constructor
  · rintro ⟨listed, rfl⟩
    exact ⟨rfl, Option.some.inj (listed.symm.trans found)⟩
  · rintro ⟨rfl, rfl⟩
    exact ⟨found, rfl⟩

omit [DecidableEq κ] in
/-- Two maps with the same value list, where a value determines its key, are equal. -/
theorem eq_of_values_eq (keyOf : ν → κ) {map other : Std.ExtTreeMap κ ν cmp}
    (keyed : ∀ key value, map[key]? = some value → keyOf value = key)
    (keyed' : ∀ key value, other[key]? = some value → keyOf value = key)
    (same : map.toList.map Prod.snd = other.toList.map Prod.snd) : map = other := by
  have pairs : ∀ candidate : Std.ExtTreeMap κ ν cmp,
      (∀ key value, candidate[key]? = some value → keyOf value = key) →
      candidate.toList = (candidate.toList.map Prod.snd).map fun value => (keyOf value, value) := by
    intro candidate keys
    rw [List.map_map]
    conv_lhs => rw [← List.map_id candidate.toList]
    apply List.map_congr_left
    rintro ⟨key, value⟩ member
    have := keys key value (Std.ExtTreeMap.mem_toList_iff_getElem?_eq_some.mp member)
    simp [this]
  apply Std.ExtTreeMap.toList_inj.mp
  rw [pairs map keyed, pairs other keyed', same]

end Lookup

section Links

/-- Add a link to the set of its key. -/
def insertLink (links : StrMap StrSet) (link : String × String) : StrMap StrSet :=
  links.alter link.1 fun targets => some ((targets.getD ∅).insert link.2)

variable {links others : List (String × String)} {key target : String}

/-- The set of a key holds the targets of its links. -/
theorem mem_foldl_insertLink :
    target ∈ ((links.foldl insertLink ∅)[key]?).getD ∅ ↔ (key, target) ∈ links := by
  induction links using List.reverseRecOn with
  | nil => simp
  | append_singleton links last ih =>
      obtain ⟨source, reached⟩ := last
      rw [List.foldl_append, List.foldl_cons, List.foldl_nil, insertLink,
        Std.ExtTreeMap.getElem?_alter, List.mem_append, List.mem_singleton, ← ih]
      simp only [byteOrder_eq_iff, Prod.mk.injEq]
      by_cases same : source = key
      · subst same
        simp only [if_true, Option.getD_some, Std.ExtTreeSet.mem_insert, byteOrder_eq_iff,
          true_and]
        rw [or_comm, eq_comm (a := reached)]
      · simp [same, Ne.symm same]

/-- A key has a set only if it has a link. -/
theorem foldl_insertLink_ne_empty {targets : StrSet}
    (found : (links.foldl insertLink ∅)[key]? = some targets) : targets ≠ ∅ := by
  induction links using List.reverseRecOn generalizing targets with
  | nil => simp at found
  | append_singleton links last ih =>
      rw [List.foldl_append, List.foldl_cons, List.foldl_nil, insertLink,
        Std.ExtTreeMap.getElem?_alter] at found
      split at found
      · obtain rfl := Option.some.inj found
        simp
      · exact ih found

/-- Links that are the same up to order and repetition give the same map. -/
theorem foldl_insertLink_congr (same : ∀ link, link ∈ links ↔ link ∈ others) :
    links.foldl insertLink ∅ = others.foldl insertLink ∅ := by
  apply Std.ExtTreeMap.ext_getElem?
  intro key
  have sets : ((links.foldl insertLink ∅)[key]?).getD ∅ =
      ((others.foldl insertLink ∅)[key]?).getD ∅ := by
    apply Std.ExtTreeSet.ext_mem
    intro target
    rw [mem_foldl_insertLink, mem_foldl_insertLink, same]
  cases left : (links.foldl insertLink ∅)[key]? with
  | none =>
      cases right : (others.foldl insertLink ∅)[key]? with
      | none => rfl
      | some targets =>
          rw [left, right] at sets
          exact absurd sets.symm (foldl_insertLink_ne_empty right)
  | some targets =>
      cases right : (others.foldl insertLink ∅)[key]? with
      | none =>
          rw [left, right] at sets
          exact absurd sets (foldl_insertLink_ne_empty left)
      | some targets' =>
          rw [left, right] at sets
          exact congrArg some sets

end Links

end Egregore.Base
