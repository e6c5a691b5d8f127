import Egregore.Base.LevelSearch

/-!
# Least shortest paths

A search by levels that keeps with each node the steps of the path it was reached by. Paths of one
level are compared as wholes, from their first steps on; after each level every node found has the
least of its shortest paths.
-/

namespace Egregore.Base

section Trails

variable {κ π σ : Type*} (out : κ → List (κ × π)) (start : κ)

/-- The links of a walk. -/
inductive Trail : List (κ × π) → κ → Prop where
  | start : Trail [] start
  | step {links : List (κ × π)} {source target : κ} {pointer : π} (prior : Trail links source)
      (link : (target, pointer) ∈ out source) : Trail (links ++ [(target, pointer)]) target

/-- A shortest walk whose steps no other shortest one precedes. -/
structure LeastTrail (order : σ → σ → Ordering) (stepOf : κ × π → σ) (links : List (κ × π))
    (node : κ) : Prop where
  trail : Trail out start links node
  shortest : AtLevel out start links.length node
  least : ∀ others, Trail out start others node → others.length = links.length →
    List.compareLex order (others.map stepOf) (links.map stepOf) ≠ .lt

variable {out start}

theorem walk_iff_trail {length : Nat} {node : κ} :
    Walk out start length node ↔ ∃ links, Trail out start links node ∧ links.length = length := by
  constructor
  · intro walk
    induction walk with
    | start => exact ⟨[], .start, rfl⟩
    | step _ link ih =>
        obtain ⟨links, trail, rfl⟩ := ih
        exact ⟨_, .step trail link, by simp⟩
  · rintro ⟨links, trail, rfl⟩
    induction trail with
    | start => exact .start
    | step _ link ih =>
        rw [List.length_append, List.length_singleton]
        exact .step ih link

omit out start in
/-- Lists of one length are compared up to their last elements first. -/
theorem compareLex_concat (order : σ → σ → Ordering) {items others : List σ} {last last' : σ}
    (same : items.length = others.length) :
    List.compareLex order (items ++ [last]) (others ++ [last']) =
      (List.compareLex order items others).then (order last last') := by
  induction items generalizing others with
  | nil =>
      obtain rfl := List.length_eq_zero_iff.mp same.symm
      simp [List.compareLex_cons_cons, List.compareLex_nil_nil]
  | cons first rest ih =>
      cases others with
      | nil => simp at same
      | cons first' rest' =>
          have shorter : rest.length = rest'.length := by simpa using same
          rw [List.cons_append, List.cons_append, List.compareLex_cons_cons,
            List.compareLex_cons_cons, ih shorter, Ordering.then_assoc]

omit out start in
theorem isLE_of_not_lt {α : Type*} {cmp : α → α → Ordering} [Std.OrientedCmp cmp] {item other : α}
    (notLess : cmp item other ≠ .lt) : (cmp other item).isLE := by
  rw [(Std.OrientedCmp.eq_swap : cmp other item = _)]
  cases compared : cmp item other with
  | lt => exact absurd compared notLess
  | eq => rfl
  | gt => rfl

/-- A shortest walk reaches its last source by a shortest walk. -/
theorem AtLevel.source {links : List (κ × π)} {source target : κ} {pointer : π}
    (atLevel : AtLevel out start (links.length + 1) target) (prior : Trail out start links source)
    (link : (target, pointer) ∈ out source) : AtLevel out start links.length source := by
  refine ⟨walk_iff_trail.mpr ⟨links, prior, rfl⟩, fun shorter less walk => ?_⟩
  exact atLevel.2 (shorter + 1) (by omega) (.step walk link)

variable (start) in
/-- The links that the pointers of the nodes lead back along. -/
inductive Chained (sourceOf : π → κ) (parent : κ → Option π) : List (κ × π) → κ → Prop where
  | start : Chained sourceOf parent [] start
  | step {links : List (κ × π)} {target : κ} {pointer : π}
      (prior : Chained sourceOf parent links (sourceOf pointer))
      (points : parent target = some pointer) (apart : target ≠ start) :
      Chained sourceOf parent (links ++ [(target, pointer)]) target

theorem Chained.mono {sourceOf : π → κ} {parent parent' : κ → Option π} {links : List (κ × π)}
    {node : κ} (chained : Chained start sourceOf parent links node)
    (kept : ∀ node pointer, parent node = some pointer → parent' node = some pointer) :
    Chained start sourceOf parent' links node := by
  induction chained with
  | start => exact .start
  | step _ points apart ih => exact .step ih (kept _ _ points) apart

end Trails

variable {κ π σ : Type*} {cmp : κ → κ → Ordering} [Std.TransCmp cmp] [Std.LawfulEqCmp cmp]
  [DecidableEq κ]

omit [Std.LawfulEqCmp cmp] in
theorem Chained.chainTo {sourceOf : π → κ} {parent : Std.ExtTreeMap κ π cmp} {start : κ}
    {links : List (κ × π)} {node : κ}
    (chained : Chained start sourceOf (fun node => parent[node]?) links node) {fuel : Nat}
    (enough : links.length ≤ fuel) : chainTo sourceOf parent start fuel node = some links := by
  induction chained generalizing fuel with
  | start => cases fuel <;> simp [Base.chainTo]
  | @step links target pointer _ points apart ih =>
      rw [List.length_append, List.length_singleton] at enough
      obtain ⟨fuel, rfl⟩ : ∃ less, fuel = less + 1 := ⟨fuel - 1, by omega⟩
      rw [Base.chainTo, if_neg apart, points]
      simp [ih (Nat.le_of_succ_le_succ enough)]

/-- The state of a search between two levels. -/
structure KeyedSearch (κ π σ : Type*) (cmp : κ → κ → Ordering) where
  visited : Std.ExtTreeSet κ cmp
  parent : Std.ExtTreeMap κ π cmp := ∅
  pathKey : Std.ExtTreeMap κ (List σ) cmp
  frontier : List κ

section Search

variable (order : σ → σ → Ordering) (stepOf : κ × π → σ) (out : κ → List (κ × π))

/-- Discoveries are compared by the keys of their paths. -/
def keyRank (candidate kept : π × List σ) : Ordering := List.compareLex order candidate.2 kept.2

instance [Std.TransCmp order] : Std.TransCmp (keyRank (π := π) order) where
  eq_swap := (inferInstance : Std.TransCmp (List.compareLex order)).eq_swap
  isLE_trans := (inferInstance : Std.TransCmp (List.compareLex order)).isLE_trans

/-- The discoveries that a node makes, with the keys of their paths. -/
def candidatesFrom (pathKey : Std.ExtTreeMap κ (List σ) cmp) (node : κ) :
    List (κ × π × List σ) :=
  (out node).map fun link => (link.1, link.2, pathKey.getD node [] ++ [stepOf link])

/-- Take one level. -/
def KeyedSearch.advance (search : KeyedSearch κ π σ cmp) : KeyedSearch κ π σ cmp :=
  let discoveries := discoverLevel (keyRank order) (candidatesFrom stepOf out search.pathKey)
    search.visited search.frontier
  { visited := search.visited.insertMany discoveries.keys
    parent := search.parent ∪ discoveries.map fun _ discovery => discovery.1
    pathKey := search.pathKey ∪ discoveries.map fun _ discovery => discovery.2
    frontier := discoveries.keys }

/-- The search before its first level. -/
def KeyedSearch.start (node : κ) : KeyedSearch κ π σ cmp where
  visited := Std.ExtTreeSet.empty.insert node
  pathKey := Std.ExtTreeMap.empty.insert node []
  frontier := [node]

/-- Take levels until the goal is visited or nothing new turns up. -/
def KeyedSearch.toward (goal : κ) : Nat → KeyedSearch κ π σ cmp → KeyedSearch κ π σ cmp
  | 0, search => search
  | fuel + 1, search =>
      if search.frontier.isEmpty || search.visited.contains goal then search
      else KeyedSearch.toward goal fuel (search.advance order stepOf out)

/-- What is known after a number of levels. -/
structure KeyedSearch.Describes (sourceOf : π → κ) (start : κ) (level : Nat)
    (search : KeyedSearch κ π σ cmp) : Prop where
  visited : ∀ node, node ∈ search.visited ↔ ∃ length ≤ level, Walk out start length node
  frontier : ∀ node, node ∈ search.frontier ↔ AtLevel out start level node
  pointed : ∀ node pointer, search.parent[node]? = some pointer → node ∈ search.visited
  keyed : ∀ earlier ≤ level, ∀ node, AtLevel out start earlier node →
    ∃ links, LeastTrail out start order stepOf links node ∧
      search.pathKey[node]? = some (links.map stepOf) ∧
      Chained start sourceOf (fun node => search.parent[node]?) links node

variable {order stepOf out} {start : κ} {sourceOf : π → κ}

omit [DecidableEq κ] in
theorem KeyedSearch.start_describes [Std.TransCmp order] :
    (KeyedSearch.start start : KeyedSearch κ π σ cmp).Describes order stepOf out sourceOf start
      0 where
  visited node := mem_insert_start
  frontier node := by rw [KeyedSearch.start, List.mem_singleton, atLevel_zero]
  pointed node pointer points := by simp [KeyedSearch.start] at points
  keyed earlier bound node atLevel := by
    obtain rfl := Nat.le_zero.mp bound
    obtain rfl := atLevel_zero.mp atLevel
    refine ⟨[], ⟨.start, atLevel, fun others _ none => ?_⟩, ?_, .start⟩
    · rw [List.length_eq_zero_iff.mp none]
      simp [List.compareLex_nil_nil]
    · simp [KeyedSearch.start]

omit [DecidableEq κ] [Std.LawfulEqCmp cmp] in
theorem mem_candidatesFrom {pathKey : Std.ExtTreeMap κ (List σ) cmp} {source target : κ}
    {pointer : π} {key : List σ} :
    (target, pointer, key) ∈ candidatesFrom stepOf out pathKey source ↔
      (target, pointer) ∈ out source ∧
        key = pathKey.getD source [] ++ [stepOf (target, pointer)] := by
  simp only [candidatesFrom, List.mem_map, Prod.mk.injEq, Prod.exists]
  constructor
  · rintro ⟨target', pointer', link, rfl, rfl, rfl⟩
    exact ⟨link, rfl⟩
  · rintro ⟨link, rfl⟩
    exact ⟨target, pointer, link, rfl, rfl, rfl⟩

section Level

variable {level : Nat} {search : KeyedSearch κ π σ cmp}

omit [DecidableEq κ] [Std.LawfulEqCmp cmp] in
/-- The key of a node of an earlier level is that of its least path. -/
theorem KeyedSearch.Describes.getD_pathKey
    (described : search.Describes order stepOf out sourceOf start level) {node : κ}
    (atLevel : AtLevel out start level node) :
    ∃ links, LeastTrail out start order stepOf links node ∧ links.length = level ∧
      search.pathKey.getD node [] = links.map stepOf ∧
      Chained start sourceOf (fun node => search.parent[node]?) links node := by
  obtain ⟨links, least, key, chained⟩ := described.keyed level (Nat.le_refl level) node atLevel
  refine ⟨links, least, least.shortest.unique atLevel, ?_, chained⟩
  rw [Std.ExtTreeMap.getD_eq_getD_getElem?, key, Option.getD_some]

variable (search) in
/-- The nodes of the next level. -/
abbrev KeyedSearch.discoveries (order : σ → σ → Ordering) (stepOf : κ × π → σ)
    (out : κ → List (κ × π)) : Std.ExtTreeMap κ (π × List σ) cmp :=
  discoverLevel (keyRank order) (candidatesFrom stepOf out search.pathKey) search.visited
    search.frontier

theorem KeyedSearch.Describes.mem_discoveries
    (described : search.Describes order stepOf out sourceOf start level) {node : κ} :
    node ∈ search.discoveries order stepOf out ↔ AtLevel out start (level + 1) node := by
  simp only [mem_discoverLevel, described.visited, described.frontier, Prod.exists,
    mem_candidatesFrom, exists_and_left, exists_eq, and_true, new_target_iff]

/-- The discovery that is kept for a node extends the least path of its source to the least path
of the node. -/
theorem KeyedSearch.Describes.discovered [Std.TransCmp order]
    (described : search.Describes order stepOf out sourceOf start level)
    (sources : ∀ source target pointer, (target, pointer) ∈ out source → sourceOf pointer = source)
    {node : κ} {pointer : π} {key : List σ}
    (found : (search.discoveries order stepOf out)[node]? = some (pointer, key)) :
    ∃ links, LeastTrail out start order stepOf (links ++ [(node, pointer)]) node ∧
      key = (links ++ [(node, pointer)]).map stepOf ∧
      Chained start sourceOf (fun node => search.parent[node]?) links (sourceOf pointer) := by
  have atLevel := described.mem_discoveries.mp
    (Std.ExtTreeMap.isSome_getElem?_iff_mem.mp (by rw [found]; rfl))
  obtain ⟨⟨source, inside, candidate⟩, least⟩ := discoverLevel_least found
  obtain ⟨link, rfl⟩ := mem_candidatesFrom.mp candidate
  obtain ⟨links, prior, rfl, isKey, chained⟩ :=
    described.getD_pathKey ((described.frontier source).mp inside)
  refine ⟨links, ⟨.step prior.trail link, by simpa using atLevel, ?_⟩, by simp [isKey],
    sources _ _ _ link ▸ chained⟩
  intro others trail same
  cases trail with
  | start => simp at same
  | @step before source' _ pointer' trail' link' =>
      -- The least path of the other source, taken on by its link, was a candidate too.
      have length : before.length = links.length := by simpa using same
      have atSource := AtLevel.source (length ▸ atLevel) trail' link'
      rw [length] at atSource
      obtain ⟨links', prior', length', isKey', -⟩ := described.getD_pathKey atSource
      have chosen := isLE_of_not_lt (least source' ((described.frontier source').mpr atSource) _
        (mem_candidatesFrom.mpr ⟨link', rfl⟩))
      have extends_ : (List.compareLex order (links'.map stepOf ++ [stepOf (node, pointer')])
          (before.map stepOf ++ [stepOf (node, pointer')])).isLE := by
        rw [compareLex_concat order (by simp [length, length']), Ordering.isLE_then_iff_and]
        exact ⟨isLE_of_not_lt (prior'.least before trail' (length.trans length'.symm)),
          by simp [(Std.ReflCmp.compare_self : order _ _ = .eq)]⟩
      rw [keyRank, isKey, isKey'] at chosen
      have together := Std.TransCmp.isLE_trans chosen extends_
      rw [List.map_append, List.map_append, List.map_singleton, List.map_singleton]
      intro less
      rw [Std.OrientedCmp.gt_of_lt less] at together
      cases together

/-- A level keeps the description. -/
theorem KeyedSearch.Describes.advance [Std.TransCmp order]
    (described : search.Describes order stepOf out sourceOf start level)
    (sources : ∀ source target pointer, (target, pointer) ∈ out source →
      sourceOf pointer = source) :
    (search.advance order stepOf out).Describes order stepOf out sourceOf start (level + 1) := by
  have visited : ∀ node, node ∈ (search.advance order stepOf out).visited ↔
      ∃ length ≤ level + 1, Walk out start length node := by
    intro node
    rw [KeyedSearch.advance, Std.ExtTreeSet.mem_insertMany_list, List.contains_iff_mem,
      Std.ExtTreeMap.mem_keys, described.mem_discoveries, described.visited, walk_le_succ_iff]
  have old : ∀ earlier ≤ level, ∀ node, AtLevel out start earlier node →
      node ∉ search.discoveries order stepOf out := by
    intro earlier bound node atLevel again
    have := atLevel.unique (described.mem_discoveries.mp again)
    omega
  have keptPointer : ∀ (node : κ) (pointer : π), search.parent[node]? = some pointer →
      (search.advance order stepOf out).parent[node]? = some pointer := by
    intro node pointer points
    obtain ⟨length, bound, walk⟩ := (described.visited node).mp (described.pointed _ _ points)
    obtain ⟨earlier, below, atLevel⟩ := exists_atLevel walk
    rw [KeyedSearch.advance, Std.ExtTreeMap.getElem?_union, Std.ExtTreeMap.getElem?_map,
      Std.ExtTreeMap.getElem?_eq_none (old earlier (by omega) node atLevel), points]
    rfl
  refine ⟨visited, fun node => ?_, fun node pointer points => ?_,
    fun earlier bound node atLevel => ?_⟩
  · rw [KeyedSearch.advance, Std.ExtTreeMap.mem_keys, described.mem_discoveries]
  · rw [KeyedSearch.advance, Std.ExtTreeMap.getElem?_union, Std.ExtTreeMap.getElem?_map] at points
    rw [KeyedSearch.advance, Std.ExtTreeSet.mem_insertMany_list, List.contains_iff_mem,
      Std.ExtTreeMap.mem_keys]
    cases found : (search.discoveries order stepOf out)[node]? with
    | some discovery => exact Or.inr (Std.ExtTreeMap.isSome_getElem?_iff_mem.mp (by rw [found]; rfl))
    | none =>
        rw [KeyedSearch.discoveries] at found
        rw [found] at points
        exact Or.inl (described.pointed _ _ points)
  · rcases Nat.lt_or_ge level earlier with new | before
    · obtain rfl : earlier = level + 1 := by omega
      obtain ⟨⟨pointer, key⟩, found⟩ := Option.isSome_iff_exists.mp
        (Std.ExtTreeMap.isSome_getElem?_iff_mem.mpr (described.mem_discoveries.mpr atLevel))
      obtain ⟨links, least, rfl, chained⟩ := described.discovered sources found
      refine ⟨_, least, ?_, .step (chained.mono keptPointer) ?_ ?_⟩
      · rw [KeyedSearch.advance, Std.ExtTreeMap.getElem?_union, Std.ExtTreeMap.getElem?_map]
        rw [KeyedSearch.discoveries] at found
        rw [found]
        rfl
      · rw [KeyedSearch.advance, Std.ExtTreeMap.getElem?_union, Std.ExtTreeMap.getElem?_map]
        rw [KeyedSearch.discoveries] at found
        rw [found]
        rfl
      · rintro rfl
        have := atLevel.unique (atLevel_zero.mpr rfl)
        omega
    · obtain ⟨links, least, key, chained⟩ := described.keyed earlier before node atLevel
      refine ⟨links, least, ?_, chained.mono keptPointer⟩
      rw [KeyedSearch.advance, Std.ExtTreeMap.getElem?_union, Std.ExtTreeMap.getElem?_map,
        Std.ExtTreeMap.getElem?_eq_none (old earlier before node atLevel), key]
      rfl

/-- With a level for each node and one more, the search ends: at the goal, or with every node
that a walk reaches. -/
theorem KeyedSearch.Describes.toward [Std.TransCmp order] {nodes : List κ}
    (sources : ∀ source target pointer, (target, pointer) ∈ out source → sourceOf pointer = source)
    (within : ∀ source target pointer, (target, pointer) ∈ out source → target ∈ nodes)
    (goal : κ) {fuel : Nat}
    (described : search.Describes order stepOf out sourceOf start level)
    (enough : nodes.length + 1 ≤ fuel + level) :
    ∃ last, (KeyedSearch.toward order stepOf out goal fuel search).Describes order stepOf out
        sourceOf start last ∧
      ((∀ node, ¬ AtLevel out start last node) ∨
        goal ∈ (KeyedSearch.toward order stepOf out goal fuel search).visited) := by
  induction fuel generalizing level search with
  | zero =>
      refine ⟨level, described, Or.inl fun node atLevel => ?_⟩
      have := atLevel.le_length within
      omega
  | succ fuel ih =>
      simp only [KeyedSearch.toward]
      split
      · next stops =>
          refine ⟨level, described, ?_⟩
          rcases Bool.or_eq_true_iff.mp stops with spent | found
          · refine Or.inl fun node atLevel => ?_
            have := (described.frontier node).mpr atLevel
            rw [List.isEmpty_iff.mp spent] at this
            contradiction
          · exact Or.inr (Std.ExtTreeSet.mem_iff_contains.mpr found)
      · exact ih (described.advance sources) (by omega)

omit [Std.LawfulEqCmp cmp] [DecidableEq κ] in
/-- The goal is visited exactly when some walk reaches it. -/
theorem KeyedSearch.Describes.visited_iff {goal : κ}
    (described : search.Describes order stepOf out sourceOf start level)
    (ended : (∀ node, ¬ AtLevel out start level node) ∨ goal ∈ search.visited) :
    goal ∈ search.visited ↔ ∃ length, Walk out start length goal :=
  found_iff (described.visited goal) ended

omit [Std.LawfulEqCmp cmp] in
/-- The pointers lead back from a visited node along its least path. -/
theorem KeyedSearch.Describes.chainTo {nodes : List κ} {goal : κ}
    (described : search.Describes order stepOf out sourceOf start level)
    (within : ∀ source target pointer, (target, pointer) ∈ out source → target ∈ nodes)
    (visited : goal ∈ search.visited) {fuel : Nat} (enough : nodes.length ≤ fuel) :
    ∃ links, chainTo sourceOf search.parent start fuel goal = some links ∧
      LeastTrail out start order stepOf links goal := by
  obtain ⟨length, bound, walk⟩ := (described.visited goal).mp visited
  obtain ⟨earlier, below, atLevel⟩ := exists_atLevel walk
  obtain ⟨links, least, -, chained⟩ :=
    described.keyed earlier (Nat.le_trans below bound) goal atLevel
  exact ⟨links, chained.chainTo (Nat.le_trans (least.shortest.le_length within) enough), least⟩

end Level

end Search

end Egregore.Base
