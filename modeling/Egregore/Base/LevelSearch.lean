import Egregore.Base.Champion
import Std.Data.ExtTreeMap
import Std.Data.ExtTreeSet
import Mathlib.Data.List.Nodup
import Mathlib.Data.List.Perm.Subperm
import Mathlib.Data.Nat.Find

/-!
# Search by levels

A breadth-first search that discovers its nodes level by level and keeps, for a
node that several links reach at once, the least pointer. After each level the
state is described by walk lengths; the chain read back from the pointers is the
least among the shortest ones.
-/

namespace Egregore.Base

section Walks

variable {κ π : Type*} (rank : π → π → Ordering) (out : κ → List (κ × π)) (start : κ)

/-- A walk of a number of links. -/
inductive Walk : Nat → κ → Prop where
  | start : Walk 0 start
  | step {length : Nat} {source target : κ} {pointer : π} (prior : Walk length source)
      (link : (target, pointer) ∈ out source) : Walk (length + 1) target

/-- No walk to the node is shorter. -/
def AtLevel (level : Nat) (node : κ) : Prop :=
  Walk out start level node ∧ ∀ shorter < level, ¬ Walk out start shorter node

/-- A least pointer to a node of the next level. -/
structure LeastPointer (level : Nat) (source target : κ) (pointer : π) : Prop where
  atLevel : AtLevel out start level source
  link : (target, pointer) ∈ out source
  least : ∀ other pointer', AtLevel out start level other → (target, pointer') ∈ out other →
    rank pointer' pointer ≠ .lt

/-- A shortest chain of least pointers. -/
inductive LeastChain : Nat → κ → List (κ × π) → Prop where
  | start : LeastChain 0 start []
  | step {level : Nat} {source target : κ} {pointer : π} {links : List (κ × π)}
      (prior : LeastChain level source links) (fresh : AtLevel out start (level + 1) target)
      (least : LeastPointer rank out start level source target pointer) :
      LeastChain (level + 1) target (links ++ [(target, pointer)])

variable {rank out start}

/-- What a walk reaches is at a level. -/
theorem exists_atLevel {length : Nat} {node : κ} (walk : Walk out start length node) :
    ∃ level ≤ length, AtLevel out start level node := by
  classical
  have found : ∃ level, Walk out start level node := ⟨length, walk⟩
  exact ⟨Nat.find found, Nat.find_min' found walk, Nat.find_spec found,
    fun shorter less => Nat.find_min found less⟩

/-- It is at one level only. -/
theorem AtLevel.unique {level other : Nat} {node : κ} (atLevel : AtLevel out start level node)
    (atOther : AtLevel out start other node) : level = other := by
  rcases Nat.lt_trichotomy level other with less | same | more
  · exact absurd atLevel.1 (atOther.2 level less)
  · exact same
  · exact absurd atOther.1 (atLevel.2 other more)

/-- A link leaves a level for the next one or an earlier one. -/
theorem AtLevel.succ_of_link {level : Nat} {source target : κ} {pointer : π}
    (atLevel : AtLevel out start level source) (link : (target, pointer) ∈ out source)
    (fresh : ∀ shorter ≤ level, ¬ Walk out start shorter target) :
    AtLevel out start (level + 1) target :=
  ⟨.step atLevel.1 link, fun shorter less => fresh shorter (Nat.le_of_lt_succ less)⟩

/-- What comes before the last link of a shortest walk is shortest. -/
theorem AtLevel.exists_prior {level : Nat} {target : κ}
    (atLevel : AtLevel out start (level + 1) target) :
    ∃ source pointer, AtLevel out start level source ∧ (target, pointer) ∈ out source := by
  obtain ⟨walk, shortest⟩ := atLevel
  cases walk with
  | step prior link =>
      refine ⟨_, _, ⟨prior, fun shorter less walk => ?_⟩, link⟩
      exact shortest (shorter + 1) (by omega) (.step walk link)

/-- The least chain of a node is as long as its level. -/
theorem LeastChain.atLevel {level : Nat} {node : κ} {links : List (κ × π)}
    (chain : LeastChain rank out start level node links) : AtLevel out start level node := by
  cases chain with
  | start => exact ⟨.start, fun shorter less => absurd less (Nat.not_lt_zero shorter)⟩
  | step prior fresh least => exact fresh

/-- A walk from where a link leads, after that link. -/
theorem Walk.of_link {first : κ} {pointer : π} (link : (start, pointer) ∈ out first) {length : Nat}
    {node : κ} (walk : Walk out start length node) : Walk out first (length + 1) node := by
  induction walk with
  | start => exact .step .start link
  | step _ later ih => exact .step ih later

/-- Below a level without nodes there are none either. -/
theorem not_atLevel_of_spent {last level : Nat} (spent : ∀ node, ¬ AtLevel out start last node)
    (beyond : last ≤ level) {node : κ} : ¬ AtLevel out start level node := by
  induction level, beyond using Nat.le_induction generalizing node with
  | base => exact spent node
  | succ level _ ih =>
      intro atLevel
      obtain ⟨source, -, atPrior, -⟩ := atLevel.exists_prior
      exact ih atPrior

/-- At level zero there is the start. -/
theorem atLevel_zero {node : κ} : AtLevel out start 0 node ↔ node = start := by
  constructor
  · rintro ⟨walk, -⟩
    cases walk
    rfl
  · rintro rfl
    exact ⟨.start, fun shorter less => absurd less (Nat.not_lt_zero shorter)⟩

/-- The nodes within one level more. -/
theorem walk_le_succ_iff {level : Nat} {node : κ} :
    (∃ length ≤ level + 1, Walk out start length node) ↔
      (∃ length ≤ level, Walk out start length node) ∨ AtLevel out start (level + 1) node := by
  constructor
  · rintro ⟨length, bound, walk⟩
    obtain ⟨least, below, atLevel⟩ := exists_atLevel walk
    rcases Nat.lt_or_ge least (level + 1) with less | more
    · exact Or.inl ⟨least, Nat.le_of_lt_succ less, atLevel.1⟩
    · obtain rfl : least = level + 1 := Nat.le_antisymm (Nat.le_trans below bound) more
      exact Or.inr atLevel
  · rintro (⟨length, bound, walk⟩ | atLevel)
    · exact ⟨length, Nat.le_succ_of_le bound, walk⟩
    · exact ⟨level + 1, Nat.le_refl _, atLevel.1⟩

/-- The nodes of the next level are the new targets of a level. -/
theorem new_target_iff {level : Nat} {node : κ} :
    ((¬ ∃ length ≤ level, Walk out start length node) ∧
      ∃ source, AtLevel out start level source ∧ ∃ pointer, (node, pointer) ∈ out source) ↔
      AtLevel out start (level + 1) node := by
  constructor
  · rintro ⟨fresh, source, atLevel, pointer, link⟩
    exact atLevel.succ_of_link link fun shorter bound walk => fresh ⟨shorter, bound, walk⟩
  · intro atLevel
    obtain ⟨source, pointer, atPrior, link⟩ := atLevel.exists_prior
    refine ⟨?_, source, atPrior, pointer, link⟩
    rintro ⟨length, bound, walk⟩
    exact atLevel.2 length (Nat.lt_succ_of_le bound) walk

/-- A goal that ends the search, or that no level is left to find, is found exactly when some walk
reaches it. -/
theorem found_iff {level : Nat} {goal : κ} {found : Prop}
    (within : found ↔ ∃ length ≤ level, Walk out start length goal)
    (ended : (∀ node, ¬ AtLevel out start level node) ∨ found) :
    found ↔ ∃ length, Walk out start length goal := by
  rcases ended with spent | holds
  · refine within.trans ⟨fun ⟨length, _, walk⟩ => ⟨length, walk⟩, fun ⟨length, walk⟩ => ?_⟩
    obtain ⟨least, -, atLevel⟩ := exists_atLevel walk
    refine ⟨least, ?_, atLevel.1⟩
    by_contra beyond
    exact not_atLevel_of_spent spent (Nat.le_of_not_le beyond) atLevel
  · obtain ⟨length, -, walk⟩ := within.mp holds
    exact iff_of_true holds ⟨length, walk⟩

/-- A level is at most as deep as there are nodes to reach. -/
theorem AtLevel.le_length {nodes : List κ}
    (within : ∀ source target pointer, (target, pointer) ∈ out source → target ∈ nodes)
    {level : Nat} {node : κ} (atLevel : AtLevel out start level node) : level ≤ nodes.length := by
  -- One node of each level on the way.
  have trail : ∀ {level : Nat} {node : κ}, AtLevel out start level node →
      ∃ path : List κ, path.length = level ∧ path.Nodup ∧ (∀ step ∈ path, step ∈ nodes) ∧
        ∀ step ∈ path, ∃ earlier ≤ level, AtLevel out start earlier step := by
    intro level
    induction level with
    | zero => exact fun _ => ⟨[], rfl, List.nodup_nil, by simp, by simp⟩
    | succ level ih =>
        intro node atLevel
        obtain ⟨source, pointer, atPrior, link⟩ := atLevel.exists_prior
        obtain ⟨path, length, nodup, inside, levels⟩ := ih atPrior
        refine ⟨node :: path, by simp [length], List.nodup_cons.mpr ⟨fun repeated => ?_, nodup⟩,
          ?_, ?_⟩
        · obtain ⟨earlier, bound, atEarlier⟩ := levels node repeated
          have := atLevel.unique atEarlier
          omega
        · intro step member
          rcases List.mem_cons.mp member with rfl | member
          · exact within source _ pointer link
          · exact inside step member
        · intro step member
          rcases List.mem_cons.mp member with rfl | member
          · exact ⟨level + 1, Nat.le_refl _, atLevel⟩
          · obtain ⟨earlier, bound, atEarlier⟩ := levels step member
            exact ⟨earlier, Nat.le_succ_of_le bound, atEarlier⟩
  obtain ⟨path, length, nodup, inside, -⟩ := trail atLevel
  rw [← length]
  exact (List.subperm_of_subset nodup inside).length_le

variable {kept : κ → List (κ × π)}

/-- A walk over fewer links is a walk. -/
theorem Walk.mono (sub : ∀ source link, link ∈ kept source → link ∈ out source) {length : Nat}
    {node : κ} (walk : Walk kept start length node) : Walk out start length node := by
  induction walk with
  | start => exact .start
  | step prior link ih => exact .step ih (sub _ _ link)

/-- A least chain that uses only kept links is a least chain of these. -/
theorem LeastChain.restrict (sub : ∀ source link, link ∈ kept source → link ∈ out source)
    {sourceOf : π → κ}
    (sources : ∀ source target pointer, (target, pointer) ∈ out source → sourceOf pointer = source)
    {level : Nat} {node : κ} {links : List (κ × π)}
    (chain : LeastChain rank out start level node links)
    (stays : ∀ link ∈ links, link ∈ kept (sourceOf link.2)) :
    LeastChain rank kept start level node links := by
  induction chain with
  | start => exact .start
  | @step level source target pointer links prior fresh least ih =>
      have priorKept := ih fun link member => stays link (List.mem_append_left _ member)
      have linkKept : (target, pointer) ∈ kept source := by
        have := stays (target, pointer) (by simp)
        rwa [sources source target pointer least.link] at this
      refine .step priorKept ⟨.step priorKept.atLevel.1 linkKept, fun shorter less walk =>
        fresh.2 shorter less (walk.mono sub)⟩ ⟨priorKept.atLevel, linkKept, ?_⟩
      intro other pointer' atOther link
      -- A kept link from an earlier level would make the target an earlier one.
      refine least.least other pointer' ⟨atOther.1.mono sub, fun shorter less walk => ?_⟩
        (sub _ _ link)
      exact fresh.2 (shorter + 1) (by omega) (.step walk (sub _ _ link))

/-- A walk needs one link between two nodes only. -/
theorem Walk.represented
    (represented : ∀ source target pointer, (target, pointer) ∈ out source →
      ∃ other, (target, other) ∈ kept source) {length : Nat} {node : κ}
    (walk : Walk out start length node) : Walk kept start length node := by
  induction walk with
  | start => exact .start
  | step prior link ih =>
      obtain ⟨other, keptLink⟩ := represented _ _ _ link
      exact .step ih keptLink

/-- Leaving out links that draw with kept ones keeps the least chains. -/
theorem LeastChain.extend [Std.TransCmp rank]
    (sub : ∀ source link, link ∈ kept source → link ∈ out source)
    (represented : ∀ source target pointer, (target, pointer) ∈ out source →
      ∃ other, (target, other) ∈ kept source ∧ rank other pointer = .eq)
    {level : Nat} {node : κ} {links : List (κ × π)}
    (chain : LeastChain rank kept start level node links) :
    LeastChain rank out start level node links := by
  have walks : ∀ {length : Nat} {node : κ}, Walk out start length node ↔
      Walk kept start length node := fun {length node} =>
    ⟨fun walk => walk.represented fun source target pointer link =>
      (represented source target pointer link).imp fun _ => And.left, fun walk => walk.mono sub⟩
  have levels : ∀ {level : Nat} {node : κ}, AtLevel out start level node ↔
      AtLevel kept start level node := by
    intro level node
    simp only [AtLevel, walks]
  induction chain with
  | start => exact .start
  | step prior fresh least ih =>
      refine .step ih (levels.mpr fresh) ⟨levels.mpr least.atLevel, sub _ _ least.link, ?_⟩
      intro other pointer' atOther link less
      obtain ⟨drawn, keptLink, same⟩ := represented _ _ _ link
      exact least.least other drawn (levels.mp atOther) keptLink
        (Std.TransCmp.lt_of_eq_of_lt same less)

/-- The links of a least chain lead from level to level. -/
theorem LeastChain.link_mem {sourceOf : π → κ}
    (sources : ∀ source target pointer, (target, pointer) ∈ out source → sourceOf pointer = source)
    {level : Nat} {node : κ} {links : List (κ × π)}
    (chain : LeastChain rank out start level node links) :
    ∀ link ∈ links, link ∈ out (sourceOf link.2) ∧ ∃ earlier ≤ level,
      AtLevel out start earlier link.1 := by
  induction chain with
  | start => simp
  | @step level source target pointer links prior fresh least ih =>
      intro link member
      rcases List.mem_append.mp member with earlier | last
      · obtain ⟨linked, index, bound, atIndex⟩ := ih link earlier
        exact ⟨linked, index, Nat.le_succ_of_le bound, atIndex⟩
      · rw [List.mem_singleton.mp last, sources source target pointer least.link]
        exact ⟨least.link, level + 1, Nat.le_refl _, fresh⟩

/-- Each link of a chain is a least pointer. -/
theorem LeastChain.link_least {level : Nat} {node : κ} {links : List (κ × π)}
    (chain : LeastChain rank out start level node links) :
    ∀ link ∈ links, ∃ earlier source, AtLevel out start (earlier + 1) link.1 ∧
      LeastPointer rank out start earlier source link.1 link.2 := by
  induction chain with
  | start => simp
  | @step level source target pointer links prior fresh least ih =>
      intro link member
      rcases List.mem_append.mp member with earlier | last
      · exact ih link earlier
      · rw [List.mem_singleton.mp last]
        exact ⟨level, source, fresh, least⟩

/-- A chain enters each node once. -/
theorem LeastChain.eq_of_target {sourceOf : π → κ}
    (sources : ∀ source target pointer, (target, pointer) ∈ out source → sourceOf pointer = source)
    {level : Nat} {node : κ} {links : List (κ × π)}
    (chain : LeastChain rank out start level node links) {link other : κ × π}
    (member : link ∈ links) (member' : other ∈ links) (same : link.1 = other.1) :
    link = other := by
  induction chain with
  | start => simp at member
  | @step level source target pointer links prior fresh least ih =>
      have apart : ∀ earlier ∈ links, earlier.1 ≠ target := by
        rintro earlier inside rfl
        obtain ⟨-, index, bound, atIndex⟩ := prior.link_mem sources earlier inside
        have := atIndex.unique fresh
        omega
      rcases List.mem_append.mp member with first | first <;>
        rcases List.mem_append.mp member' with second | second
      · exact ih first second
      · rw [List.mem_singleton.mp second] at same
        exact absurd same (apart link first)
      · rw [List.mem_singleton.mp first] at same
        exact absurd same.symm (apart other second)
      · rw [List.mem_singleton.mp first, List.mem_singleton.mp second]

omit out start in
/-- Neither before the other is a draw. -/
theorem eq_of_not_lt [Std.OrientedCmp rank] {pointer other : π}
    (notLess : rank pointer other ≠ .lt) (notMore : rank other pointer ≠ .lt) :
    rank pointer other = .eq := by
  cases compared : rank pointer other with
  | lt => exact absurd compared notLess
  | eq => rfl
  | gt => exact absurd (Std.OrientedCmp.lt_of_gt compared) notMore

/-- Without draws between links to one node there is one least chain. -/
theorem LeastChain.unique [Std.OrientedCmp rank]
    (decided : ∀ source source' target pointer pointer', (target, pointer) ∈ out source →
      (target, pointer') ∈ out source' → rank pointer pointer' = .eq →
      source = source' ∧ pointer = pointer')
    {level : Nat} {node : κ} {links : List (κ × π)}
    (chain : LeastChain rank out start level node links) {level' : Nat} {links' : List (κ × π)}
    (chain' : LeastChain rank out start level' node links') : links = links' := by
  obtain rfl := chain.atLevel.unique chain'.atLevel
  induction chain generalizing links' with
  | start =>
      cases chain'
      rfl
  | step prior fresh least ih =>
      cases chain' with
      | step prior' fresh' least' =>
          have notLess := least'.least _ _ least.atLevel least.link
          have notMore := least.least _ _ least'.atLevel least'.link
          obtain ⟨rfl, rfl⟩ := decided _ _ _ _ _ least.link least'.link
            (eq_of_not_lt notLess notMore)
          rw [ih prior']

/-- Two least chains whose links to one node never draw without being equal are one. -/
theorem LeastChain.unique_of_links [Std.OrientedCmp rank] {sourceOf : π → κ}
    (sources : ∀ source target pointer, (target, pointer) ∈ out source → sourceOf pointer = source)
    {level : Nat} {node : κ} {links : List (κ × π)}
    (chain : LeastChain rank out start level node links) {level' : Nat} {links' : List (κ × π)}
    (chain' : LeastChain rank out start level' node links')
    (decided : ∀ link ∈ links, ∀ link' ∈ links', link.1 = link'.1 →
      rank link.2 link'.2 = .eq → link = link') : links = links' := by
  obtain rfl := chain.atLevel.unique chain'.atLevel
  induction chain generalizing links' with
  | start =>
      cases chain'
      rfl
  | @step level source target pointer links prior fresh least ih =>
      cases chain' with
      | @step _ source' _ pointer' links' prior' fresh' least' =>
          have notLess := least'.least _ _ least.atLevel least.link
          have notMore := least.least _ _ least'.atLevel least'.link
          have same := decided (target, pointer) (by simp) (target, pointer') (by simp) rfl
            (eq_of_not_lt notLess notMore)
          obtain rfl := (Prod.mk.inj same).2
          obtain rfl : source = source' :=
            (sources _ _ _ least.link).symm.trans (sources _ _ _ least'.link)
          have before : links = links' := ih (fun link member link' member' => decided link
            (List.mem_append_left _ member) link' (List.mem_append_left _ member')) prior'
          rw [before]

/-- A link may be replaced by one that draws with it. -/
theorem LeastChain.replace [Std.TransCmp rank] [DecidableEq κ] {sourceOf : π → κ}
    (sources : ∀ source target pointer, (target, pointer) ∈ out source → sourceOf pointer = source)
    {level : Nat} {node : κ} {links : List (κ × π)}
    (chain : LeastChain rank out start level node links) {link : κ × π} (member : link ∈ links)
    {pointer' : π} (linked : (link.1, pointer') ∈ out (sourceOf link.2))
    (draw : rank link.2 pointer' = .eq) :
    LeastChain rank out start level node
      (links.map fun other => if other.1 = link.1 then (link.1, pointer') else other) := by
  induction chain with
  | start => cases member
  | @step level source target pointer links prior fresh least ih =>
      have apart : ∀ earlier ∈ links, earlier.1 ≠ target := by
        rintro earlier inside rfl
        obtain ⟨-, index, bound, atIndex⟩ := prior.link_mem sources earlier inside
        have := atIndex.unique fresh
        omega
      rw [List.map_append, List.map_singleton]
      by_cases last : target = link.1
      · obtain rfl : link = (target, pointer) := by
          rcases List.mem_append.mp member with inside | isLast
          · exact absurd last.symm (apart link inside)
          · exact List.mem_singleton.mp isLast
        have kept : (links.map fun other => if other.1 = target then (target, pointer') else other) =
            links := by
          rw [List.map_congr_left fun other inside => if_neg (apart other inside)]
          exact List.map_id links
        rw [sources _ _ _ least.link] at linked
        simp only [kept, if_true]
        refine .step prior fresh ⟨least.atLevel, linked, fun other other' atOther link less => ?_⟩
        exact least.least other other' atOther link (Std.TransCmp.lt_of_lt_of_eq less
          (Std.OrientedCmp.eq_symm draw))
      · simp only [last, if_false]
        rcases List.mem_append.mp member with inside | isLast
        · exact .step (ih inside) fresh least
        · rw [List.mem_singleton.mp isLast] at last
          exact absurd rfl last

end Walks

variable {κ π : Type*} {cmp : κ → κ → Ordering} [Std.TransCmp cmp] [Std.LawfulEqCmp cmp]
  [DecidableEq κ]

/-- Offer a discovery; of two for one node the lesser is kept, the earlier one in a draw. -/
def offer (rank : π → π → Ordering) (found : Std.ExtTreeMap κ π cmp) (discovery : κ × π) :
    Std.ExtTreeMap κ π cmp :=
  found.alter discovery.1 fun kept =>
    keepBest (fun kept candidate => rank candidate kept) kept discovery.2

/-- Of all discoveries of a node the least is kept. -/
theorem getElem?_foldl_offer (rank : π → π → Ordering) (discoveries : List (κ × π)) (node : κ) :
    (discoveries.foldl (offer rank) (∅ : Std.ExtTreeMap κ π cmp))[node]? =
      bestOf (fun kept candidate => rank candidate kept)
        ((discoveries.filter fun discovery => discovery.1 = node).map Prod.snd) := by
  induction discoveries using List.reverseRecOn with
  | nil => simp
  | append_singleton discoveries last ih =>
      rw [List.foldl_append, List.foldl_cons, List.foldl_nil, offer, List.filter_append,
        List.map_append, Std.ExtTreeMap.getElem?_alter]
      by_cases same : last.1 = node
      · subst same
        simp only [Std.LawfulEqCmp.compare_eq_iff_eq, if_true, decide_true, List.filter_cons_of_pos,
          List.filter_nil, List.map_cons, List.map_nil, bestOf_append_singleton, ih]
      · simp [same, ih]

/-- The state of a search between two levels. -/
structure LevelSearch (κ π : Type*) (cmp : κ → κ → Ordering) where
  visited : Std.ExtTreeSet κ cmp
  parent : Std.ExtTreeMap κ π cmp := ∅
  frontier : List κ

section Search

variable (rank : π → π → Ordering) (out : κ → List (κ × π))

/-- The next level: the nodes not yet visited that a link of the frontier reaches. -/
def discoverLevel (visited : Std.ExtTreeSet κ cmp) (frontier : List κ) : Std.ExtTreeMap κ π cmp :=
  ((frontier.flatMap out).filter fun discovery => !visited.contains discovery.1).foldl
    (offer rank) ∅

/-- Take one level. -/
def LevelSearch.advance (search : LevelSearch κ π cmp) : LevelSearch κ π cmp :=
  let discoveries := discoverLevel rank out search.visited search.frontier
  { visited := search.visited.insertMany discoveries.keys
    parent := search.parent ∪ discoveries
    frontier := discoveries.keys }

/-- The search before its first level. -/
def LevelSearch.start (node : κ) : LevelSearch κ π cmp where
  visited := Std.ExtTreeSet.empty.insert node
  frontier := [node]

/-- Take levels until the goal is visited or nothing new turns up. -/
def LevelSearch.toward (goal : κ) : Nat → LevelSearch κ π cmp → LevelSearch κ π cmp
  | 0, search => search
  | fuel + 1, search =>
      if search.frontier.isEmpty || search.visited.contains goal then search
      else LevelSearch.toward goal fuel (search.advance rank out)

/-- The links that lead to a node, read back from the pointers. -/
def chainTo (sourceOf : π → κ) (parent : Std.ExtTreeMap κ π cmp) (start : κ) :
    Nat → κ → Option (List (κ × π))
  | 0, node => if node = start then some [] else none
  | fuel + 1, node =>
      if node = start then some []
      else
        match parent[node]? with
        | none => none
        | some pointer =>
            (chainTo sourceOf parent start fuel (sourceOf pointer)).map (· ++ [(node, pointer)])

variable {rank out} {start : κ}

section Level

variable {visited : Std.ExtTreeSet κ cmp} {frontier : List κ}

/-- A level discovers what its links lead to and was not visited. -/
theorem mem_discoverLevel {target : κ} :
    target ∈ discoverLevel rank out visited frontier ↔
      target ∉ visited ∧ ∃ source ∈ frontier, ∃ pointer, (target, pointer) ∈ out source := by
  rw [← Std.ExtTreeMap.isSome_getElem?_iff_mem, discoverLevel, getElem?_foldl_offer,
    Option.isSome_iff_ne_none, Ne, bestOf_eq_none_iff, List.map_eq_nil_iff,
    List.filter_eq_nil_iff]
  simp only [List.mem_filter, List.mem_flatMap, Bool.not_eq_true', decide_eq_true_eq]
  push Not
  constructor
  · rintro ⟨⟨node, pointer⟩, ⟨⟨source, inside, link⟩, fresh⟩, rfl⟩
    exact ⟨by
        rwa [Std.ExtTreeSet.mem_iff_contains, Bool.not_eq_true] at *, source, inside, pointer, link⟩
  · rintro ⟨fresh, source, inside, pointer, link⟩
    exact ⟨(target, pointer), ⟨⟨source, inside, link⟩,
      by
        rwa [Std.ExtTreeSet.mem_iff_contains, Bool.not_eq_true] at *⟩, rfl⟩

/-- It discovers each node by its least link. -/
theorem discoverLevel_least [Std.TransCmp rank] {target : κ} {pointer : π}
    (found : (discoverLevel rank out visited frontier)[target]? = some pointer) :
    (∃ source ∈ frontier, (target, pointer) ∈ out source) ∧
      ∀ other ∈ frontier, ∀ pointer', (target, pointer') ∈ out other →
        rank pointer' pointer ≠ .lt := by
  have fresh : target ∉ visited :=
    (mem_discoverLevel.mp (Std.ExtTreeMap.isSome_getElem?_iff_mem.mp (by rw [found]; rfl))).1
  rw [discoverLevel, getElem?_foldl_offer] at found
  obtain ⟨mem, upper⟩ := isBest_of_bestOf found
  have candidate : ∀ pointer', (∃ source ∈ frontier, (target, pointer') ∈ out source) ↔
      pointer' ∈ (((frontier.flatMap out).filter fun discovery =>
        !visited.contains discovery.1).filter fun discovery => discovery.1 = target).map
          Prod.snd := by
    intro pointer'
    simp only [List.mem_map, List.mem_filter, List.mem_flatMap, decide_eq_true_eq,
      Bool.not_eq_true', Prod.exists]
    constructor
    · rintro ⟨source, inside, link⟩
      exact ⟨target, pointer', ⟨⟨⟨source, inside, link⟩,
        by
        rwa [Std.ExtTreeSet.mem_iff_contains, Bool.not_eq_true] at *⟩, rfl⟩, rfl⟩
    · rintro ⟨node, other, ⟨⟨⟨source, inside, link⟩, -⟩, rfl⟩, rfl⟩
      exact ⟨source, inside, link⟩
  refine ⟨(candidate pointer).mpr mem, fun other inside pointer' link => ?_⟩
  exact upper pointer' ((candidate pointer').mp ⟨other, inside, link⟩)

end Level

/-- What is known after a number of levels. -/
structure LevelSearch.Describes (rank : π → π → Ordering) (out : κ → List (κ × π)) (start : κ)
    (level : Nat) (search : LevelSearch κ π cmp) : Prop where
  visited : ∀ node, node ∈ search.visited ↔ ∃ length ≤ level, Walk out start length node
  frontier : ∀ node, node ∈ search.frontier ↔ AtLevel out start level node
  pointed : ∀ earlier < level, ∀ node, AtLevel out start (earlier + 1) node →
    ∃ source pointer, search.parent[node]? = some pointer ∧
      LeastPointer rank out start earlier source node pointer

omit [DecidableEq κ] in
/-- The start alone is within no level. -/
theorem mem_insert_start {node : κ} :
    node ∈ (Std.ExtTreeSet.empty.insert start : Std.ExtTreeSet κ cmp) ↔
      ∃ length ≤ 0, Walk out start length node := by
  rw [Std.ExtTreeSet.mem_insert, Std.LawfulEqCmp.compare_eq_iff_eq]
  constructor
  · rintro (rfl | absurd_)
    · exact ⟨0, Nat.le_refl 0, .start⟩
    · exact absurd absurd_ Std.ExtTreeSet.not_mem_empty
  · rintro ⟨length, bound, walk⟩
    obtain rfl := Nat.le_zero.mp bound
    cases walk
    exact Or.inl rfl

omit [DecidableEq κ] in
/-- The search starts at level zero. -/
theorem LevelSearch.start_describes :
    (LevelSearch.start start : LevelSearch κ π cmp).Describes rank out start 0 where
  visited node := mem_insert_start
  frontier node := by rw [LevelSearch.start, List.mem_singleton, atLevel_zero]
  pointed earlier less := absurd less (Nat.not_lt_zero earlier)

/-- A level keeps the description. -/
theorem LevelSearch.Describes.advance [Std.TransCmp rank] {level : Nat}
    {search : LevelSearch κ π cmp} (described : search.Describes rank out start level) :
    (search.advance rank out).Describes rank out start (level + 1) := by
  have discovered : ∀ node, node ∈ discoverLevel rank out search.visited search.frontier ↔
      AtLevel out start (level + 1) node := by
    intro node
    simp only [mem_discoverLevel, described.visited, described.frontier, new_target_iff]
  refine ⟨fun node => ?_, fun node => ?_, fun earlier less node atLevel => ?_⟩
  · rw [LevelSearch.advance, Std.ExtTreeSet.mem_insertMany_list, List.contains_iff_mem,
      Std.ExtTreeMap.mem_keys, discovered, described.visited, walk_le_succ_iff]
  · rw [LevelSearch.advance, Std.ExtTreeMap.mem_keys, discovered]
  · rw [LevelSearch.advance, Std.ExtTreeMap.getElem?_union]
    rcases Nat.lt_or_ge earlier level with below | atEnd
    · -- An earlier level is not discovered again.
      have old : node ∉ discoverLevel rank out search.visited search.frontier := by
        rw [discovered]
        intro again
        have := atLevel.unique again
        omega
      obtain ⟨source, pointer, found, least⟩ := described.pointed earlier below node atLevel
      exact ⟨source, pointer, by rw [Std.ExtTreeMap.getElem?_eq_none old, found]; rfl, least⟩
    · obtain rfl : earlier = level := by omega
      obtain ⟨pointer, found⟩ := Option.isSome_iff_exists.mp
        (Std.ExtTreeMap.isSome_getElem?_iff_mem.mpr ((discovered node).mpr atLevel))
      obtain ⟨⟨source, inside, link⟩, least⟩ := discoverLevel_least found
      refine ⟨source, pointer, by rw [found]; rfl, (described.frontier source).mp inside, link, ?_⟩
      intro other pointer' atOther
      exact least other ((described.frontier other).mpr atOther) pointer'

/-- With a level for each node and one more, the search ends: at the goal, or with every node
that a walk reaches. -/
theorem LevelSearch.Describes.toward [Std.TransCmp rank] {nodes : List κ}
    (within : ∀ source target pointer, (target, pointer) ∈ out source → target ∈ nodes)
    (goal : κ) {fuel level : Nat} {search : LevelSearch κ π cmp}
    (described : search.Describes rank out start level)
    (enough : nodes.length + 1 ≤ fuel + level) :
    ∃ last, (LevelSearch.toward rank out goal fuel search).Describes rank out start last ∧
      ((∀ node, ¬ AtLevel out start last node) ∨
        goal ∈ (LevelSearch.toward rank out goal fuel search).visited) := by
  induction fuel generalizing level search with
  | zero =>
      refine ⟨level, described, Or.inl fun node atLevel => ?_⟩
      have := atLevel.le_length within
      omega
  | succ fuel ih =>
      simp only [LevelSearch.toward]
      split
      · next stops =>
          refine ⟨level, described, ?_⟩
          rcases Bool.or_eq_true_iff.mp stops with spent | found
          · refine Or.inl fun node atLevel => ?_
            have := (described.frontier node).mpr atLevel
            rw [List.isEmpty_iff.mp spent] at this
            contradiction
          · exact Or.inr (Std.ExtTreeSet.mem_iff_contains.mpr found)
      · exact ih described.advance (by omega)

omit [Std.LawfulEqCmp cmp] [DecidableEq κ] in
/-- The goal is visited exactly when some walk reaches it. -/
theorem LevelSearch.Describes.visited_iff {last : Nat} {search : LevelSearch κ π cmp} {goal : κ}
    (described : search.Describes rank out start last)
    (ended : (∀ node, ¬ AtLevel out start last node) ∨ goal ∈ search.visited) :
    goal ∈ search.visited ↔ ∃ length, Walk out start length goal :=
  found_iff (described.visited goal) ended

omit [Std.LawfulEqCmp cmp] in
/-- The pointers lead back along a least chain. -/
theorem LevelSearch.Describes.chainTo {last : Nat} {search : LevelSearch κ π cmp}
    (described : search.Describes rank out start last) {sourceOf : π → κ}
    (sources : ∀ source target pointer, (target, pointer) ∈ out source → sourceOf pointer = source)
    {level fuel : Nat} {node : κ} (atLevel : AtLevel out start level node) (bound : level ≤ last)
    (enough : level ≤ fuel) :
    ∃ links, chainTo sourceOf search.parent start fuel node = some links ∧
      LeastChain rank out start level node links := by
  induction level generalizing node fuel with
  | zero =>
      obtain rfl := atLevel_zero.mp atLevel
      refine ⟨[], ?_, .start⟩
      cases fuel <;> simp [Base.chainTo]
  | succ level ih =>
      obtain ⟨fuel, rfl⟩ : ∃ less, fuel = less + 1 := ⟨fuel - 1, by omega⟩
      obtain ⟨source, pointer, found, least⟩ := described.pointed level (by omega) node atLevel
      obtain ⟨links, chained, chain⟩ := @ih fuel source least.atLevel (by omega) (by omega)
      have away : node ≠ start := by
        rintro rfl
        have := atLevel.unique (atLevel_zero.mpr rfl)
        omega
      refine ⟨links ++ [(node, pointer)], ?_, .step chain atLevel least⟩
      simp [Base.chainTo, away, found, sources source node pointer least.link, chained]

end Search

end Egregore.Base
