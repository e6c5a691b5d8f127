import Egregore.Base.OrderedUnion
import Egregore.Languages.CfgGates

/-!
# When the gates settle

The loop computes rounds of ordered unions over the declarations. The gates of every file settle
in time; their order settles exactly when the files that declare each other in a cycle agree on
it: `gatePassSettles_iff`.
-/

namespace Egregore

open Base

/-! ## One round -/

section Round

/-- What the chains of a target leave in the map. -/
def newGates (chains : List (List String)) : Option (List String) :=
  if chains.any List.isEmpty then none else some chains.flatten.eraseDups

/-- A turn for a target sets the gates of this target alone. -/
theorem gateTarget_spec (state : StrMap (List String) × Bool)
    (entry : String × List (List String)) :
    (∀ target, (gateTarget state entry).1[target]? =
        if entry.1 = target then newGates entry.2 else state.1[target]?) ∧
      ((gateTarget state entry).2 = true ↔
        state.2 = true ∨ state.1[entry.1]? ≠ newGates entry.2) := by
  unfold gateTarget newGates
  split
  · split
    · next known =>
        rw [Std.ExtTreeMap.contains_eq_isSome_getElem?] at known
        refine ⟨fun target => ?_, ?_⟩
        · rw [Std.ExtTreeMap.getElem?_erase]
          simp
        · obtain ⟨gates, found⟩ := Option.isSome_iff_exists.mp known
          simp [found]
    · next unknown =>
        rw [Std.ExtTreeMap.contains_eq_isSome_getElem?, Option.not_isSome_iff_eq_none] at unknown
        refine ⟨fun target => ?_, by simp [unknown]⟩
        split
        · next same => rw [← same, unknown]
        · rfl
  · simp only
    split
    · next same =>
        refine ⟨fun target => ?_, by simp [same]⟩
        split
        · next here => rw [← here, same]
        · rfl
    · next differs =>
        refine ⟨fun target => getElem?_insert_eq _ _ _ _, by simp [differs]⟩

/-- The targets of a round, one after the other. -/
theorem foldl_gateTarget (entries : List (String × List (List String)))
    (apart : (entries.map Prod.fst).Nodup) (state : StrMap (List String) × Bool) :
    (∀ entry ∈ entries, (entries.foldl gateTarget state).1[entry.1]? = newGates entry.2) ∧
      (∀ target ∉ entries.map Prod.fst,
        (entries.foldl gateTarget state).1[target]? = state.1[target]?) ∧
      ((entries.foldl gateTarget state).2 = true ↔
        state.2 = true ∨ ∃ entry ∈ entries, state.1[entry.1]? ≠ newGates entry.2) := by
  induction entries generalizing state with
  | nil => simp
  | cons entry entries ih =>
      rw [List.map_cons, List.nodup_cons] at apart
      obtain ⟨values, untouched, changed⟩ := ih apart.2 (gateTarget state entry)
      obtain ⟨value, step⟩ := gateTarget_spec state entry
      have others : ∀ other ∈ entries,
          (gateTarget state entry).1[other.1]? = state.1[other.1]? := by
        intro other member
        have listed : other.1 ∈ entries.map Prod.fst := List.mem_map_of_mem member
        have differs : entry.1 ≠ other.1 := fun same => apart.1 (same ▸ listed)
        rw [value, if_neg differs]
      rw [List.foldl_cons]
      refine ⟨fun other member => ?_, fun target absent => ?_, ?_⟩
      · rcases List.mem_cons.mp member with rfl | member
        · rw [untouched _ apart.1, value, if_pos rfl]
        · exact values other member
      · rw [List.map_cons, List.mem_cons, not_or] at absent
        rw [untouched target absent.2, value, if_neg (Ne.symm absent.1)]
      · rw [changed, step, List.exists_mem_cons_iff, or_assoc]
        refine or_congr_right (or_congr_right ?_)
        refine exists_congr fun other => and_congr_right fun member => ?_
        rw [others other member]

end Round

/-! ## All rounds -/

section Rounds

variable (declarations : List GateDeclaration)

/-- The declarations that load a file: the declaring file and the gates of each. -/
def gateSources (target : String) : List (String × List String) :=
  (declarations.filter fun declaration => declaration.target = target).map
    fun declaration => (declaration.declaringFile, declaration.chain)

/-- The entry of a file with these gates: files without gates have none. -/
def gatesEntry (gates : List String) : Option (List String) :=
  if gates = [] then none else some gates

/-- The map that a round leaves, as a function of all files. -/
def HoldsGates (inherited : StrMap (List String)) (gates : String → List String) : Prop :=
  ∀ file, inherited[file]? = gatesEntry (gates file)

variable {declarations} {inherited : StrMap (List String)} {gates : String → List String}

/-- A file without an entry has no gates. -/
theorem HoldsGates.getD (holds : HoldsGates inherited gates) (file : String) :
    inherited.getD file [] = gates file := by
  rw [Std.ExtTreeMap.getD_eq_getD_getElem?, holds file, gatesEntry]
  split
  · next empty => exact empty.symm
  · rfl

/-- The chains of a target are the gates that its declarations bring. -/
theorem mem_targetChains (holds : HoldsGates inherited gates) {target : String}
    {chains : List (List String)} :
    (target, chains) ∈ (targetChains declarations inherited).toList ↔
      chains ≠ [] ∧ chains = (gateSources declarations target).map (brought gates) := by
  rw [targetChains, mem_toList_foldl_pushEntry_iff]
  have values : (((declarations.filterMap fun declaration =>
      some (declaration.target, inherited.getD declaration.declaringFile [] ++
        declaration.chain)).filter fun pair => pair.1 = target).map Prod.snd) =
      (gateSources declarations target).map (brought gates) := by
    rw [List.filterMap_eq_map', gateSources, List.filter_map, List.map_map, List.map_map]
    apply List.map_congr_left
    intro declaration _
    simp only [Function.comp_apply, brought, holds.getD]
  rw [values]

/-- An entry tells the gates, in their order. -/
theorem gatesEntry_injective {gates others : List String}
    (same : gatesEntry gates = gatesEntry others) : gates = others := by
  unfold gatesEntry at same
  split at same
  · next empty =>
      split at same
      · next empty' => rw [empty, empty']
      · cases same
  · split at same
    · cases same
    · exact Option.some.inj same

/-- The new gates of a file are those of one more round. -/
theorem newGates_eq {file : String} (declared : gateSources declarations file ≠ []) :
    newGates ((gateSources declarations file).map (brought gates)) =
      gatesEntry (unionRound (gateSources declarations) gates file) := by
  unfold newGates gatesEntry unionRound
  rw [List.any_map, ← List.flatMap_def]
  split
  · next idle =>
      rw [if_pos]
      exact if_pos (by simpa [Function.comp_def] using idle)
  · next busy =>
      have busy' : ¬ ((gateSources declarations file).any fun source =>
          (brought gates source).isEmpty) = true := by simpa [Function.comp_def] using busy
      rw [if_neg busy', if_neg]
      intro empty
      obtain ⟨source, listed⟩ := List.exists_mem_of_ne_nil _ declared
      have nonempty : brought gates source ≠ [] := by
        simp only [List.any_eq_true, List.isEmpty_iff, not_exists, not_and] at busy'
        exact busy' source listed
      obtain ⟨gate, member⟩ := List.exists_mem_of_ne_nil _ nonempty
      have inside : gate ∈ ((gateSources declarations file).flatMap (brought gates)).eraseDups :=
        List.mem_eraseDups.mpr (List.mem_flatMap.mpr ⟨source, listed, member⟩)
      rw [empty] at inside
      cases inside

/-- A round computes the ordered unions, and says whether they are new. -/
theorem gateRound_spec (holds : HoldsGates inherited gates)
    (idle : ∀ file, gateSources declarations file = [] → gates file = []) :
    HoldsGates (gateRound declarations inherited).1
        (unionRound (gateSources declarations) gates) ∧
      ((gateRound declarations inherited).2 = true ↔
        unionRound (gateSources declarations) gates ≠ gates) := by
  have apart : ((targetChains declarations inherited).toList.map Prod.fst).Nodup := by
    rw [List.Nodup, List.pairwise_map]
    refine Std.ExtTreeMap.distinct_keys_toList.imp fun differ same => differ ?_
    rw [same]
    exact Std.ReflCmp.compare_self
  obtain ⟨values, untouched, changed⟩ := foldl_gateTarget _ apart (inherited, false)
  have quiet : ∀ file, gateSources declarations file = [] →
      unionRound (gateSources declarations) gates file = [] := by
    intro file none_
    simp [unionRound, none_]
  constructor
  · intro file
    by_cases declared : gateSources declarations file = []
    · have absent : file ∉ (targetChains declarations inherited).toList.map Prod.fst := by
        rintro member
        obtain ⟨⟨target, chains⟩, listed, rfl⟩ := List.mem_map.mp member
        obtain ⟨nonempty, same⟩ := (mem_targetChains holds).mp listed
        rw [same, declared] at nonempty
        exact nonempty rfl
      rw [gateRound, untouched file absent, quiet file declared, holds file, idle file declared]
    · have listed := (mem_targetChains holds).mpr
        ⟨by simpa using declared, rfl⟩
      rw [gateRound, values _ listed, newGates_eq declared]
  · rw [gateRound, changed, Ne, funext_iff, not_forall]
    simp only [Bool.false_eq_true, false_or]
    constructor
    · rintro ⟨⟨file, chains⟩, listed, differs⟩
      obtain ⟨nonempty, rfl⟩ := (mem_targetChains holds).mp listed
      refine ⟨file, fun same => differs ?_⟩
      rw [newGates_eq (by simpa using nonempty), same]
      exact holds file
    · rintro ⟨file, differs⟩
      by_cases declared : gateSources declarations file = []
      · exact absurd ((quiet file declared).trans (idle file declared).symm) differs
      · refine ⟨(file, _), (mem_targetChains holds).mpr ⟨by simpa using declared, rfl⟩, ?_⟩
        rw [newGates_eq declared, holds file]
        exact fun same => differs (gatesEntry_injective same.symm)

/-- The gates after some rounds over the declarations. -/
def gatesAfter (declarations : List GateDeclaration) : Nat → String → List String :=
  unionRounds (gateSources declarations)

/-- A file that nobody declares never has gates. -/
theorem gatesAfter_idle {rounds : Nat} {file : String}
    (none_ : gateSources declarations file = []) : gatesAfter declarations rounds file = [] := by
  cases rounds with
  | zero => rfl
  | succ rounds => simp [gatesAfter, unionRounds, unionRound, none_]

/-- The loop runs until a round is stable. -/
theorem gateFixpoint_eq_some {rounds done : Nat} {inherited final : StrMap (List String)}
    (holds : HoldsGates inherited (gatesAfter declarations done))
    (ended : gateFixpoint declarations rounds inherited = some final) :
    ∃ last, gatesAfter declarations (last + 1) = gatesAfter declarations last ∧
      HoldsGates final (gatesAfter declarations last) := by
  induction rounds generalizing done inherited with
  | zero => cases ended
  | succ rounds ih =>
      obtain ⟨holds', changed⟩ := gateRound_spec holds fun file => gatesAfter_idle
      rw [gateFixpoint] at ended
      cases same : (gateRound declarations inherited).2 with
      | true =>
          simp only [same, if_true] at ended
          have next : HoldsGates (gateRound declarations inherited).1
              (gatesAfter declarations (done + 1)) := holds'
          exact ih next ended
      | false =>
          simp only [same, Bool.false_eq_true, if_false, Option.some.injEq] at ended
          rw [same] at changed
          have stable : gatesAfter declarations (done + 1) = gatesAfter declarations done := by
            by_contra differs
            exact absurd (changed.mpr differs) (by decide)
          refine ⟨done, stable, ?_⟩
          rw [← ended, ← stable]
          exact holds'

/-- A loop that is stable after some rounds ends there. -/
theorem gateFixpoint_ends {rounds done : Nat} {inherited : StrMap (List String)}
    (holds : HoldsGates inherited (gatesAfter declarations done))
    (stable : gatesAfter declarations (done + rounds + 1) =
      gatesAfter declarations (done + rounds)) :
    ∃ final, gateFixpoint declarations (rounds + 1) inherited = some final := by
  induction rounds generalizing done inherited with
  | zero =>
      obtain ⟨-, changed⟩ := gateRound_spec holds fun file => gatesAfter_idle
      have same : (gateRound declarations inherited).2 = false := by
        by_contra differs
        exact changed.mp (by simpa using differs) stable
      exact ⟨(gateRound declarations inherited).1, by simp [gateFixpoint, same]⟩
  | succ rounds ih =>
      obtain ⟨holds', -⟩ := gateRound_spec holds fun file => gatesAfter_idle
      rw [gateFixpoint]
      cases same : (gateRound declarations inherited).2 with
      | true =>
          simp only [same, if_true]
          have next : HoldsGates (gateRound declarations inherited).1
              (gatesAfter declarations (done + 1)) := holds'
          exact ih next (by rwa [Nat.add_right_comm done 1 rounds, Nat.add_assoc done rounds 1])
      | false => exact ⟨(gateRound declarations inherited).1, by simp [same]⟩

/-- Before the first round no file has gates. -/
theorem holdsGates_empty : HoldsGates ∅ (gatesAfter declarations 0) := by
  intro file
  simp [gatesAfter, unionRounds, gatesEntry]

variable (declarations) in
/-- The loop ends exactly when the files that declare each other in cycles agree. -/
theorem gateFixpoint_ends_iff :
    (∃ rounds final, gateFixpoint declarations rounds ∅ = some final) ↔
      ∀ first second, AgreeOnCycles (gateSources declarations) first second := by
  have inside : ∀ file, file ∉ declarations.map GateDeclaration.target →
      gateSources declarations file = [] := by
    intro file absent
    rw [gateSources, List.map_eq_nil_iff, List.filter_eq_nil_iff]
    intro declaration listed same
    have target : declaration.target = file := of_decide_eq_true same
    exact absent (target ▸ List.mem_map_of_mem listed)
  rw [← exists_stable_iff inside]
  constructor
  · rintro ⟨rounds, final, ended⟩
    obtain ⟨last, stable, -⟩ := gateFixpoint_eq_some holdsGates_empty ended
    exact ⟨last, stable⟩
  · rintro ⟨rounds, stable⟩
    have stable' : gatesAfter declarations (0 + rounds + 1) =
        gatesAfter declarations (0 + rounds) := by
      rw [Nat.zero_add]
      exact stable
    obtain ⟨final, ended⟩ := gateFixpoint_ends holdsGates_empty stable'
    exact ⟨rounds + 1, final, ended⟩

end Rounds

/-! ## The pass -/

section Pass

/-- Gates are merged one list after the other. -/
theorem mergeGates_append (inherited existing further : List String) :
    mergeGates inherited (existing ++ further) =
      mergeGates (mergeGates inherited existing) further := List.foldl_append

/-- A gate is added unless it is there. -/
theorem mergeGates_singleton (inherited : List String) (gate : String) :
    mergeGates inherited [gate] =
      if gate ∈ inherited then inherited else inherited ++ [gate] := rfl

/-- Merging keeps the inherited gates in front and adds each further gate once. -/
theorem mergeGates_eq (inherited existing : List String) :
    ∃ own, mergeGates inherited existing = inherited ++ own ∧ own.Nodup ∧
      ∀ gate ∈ own, gate ∉ inherited := by
  induction existing using List.reverseRecOn with
  | nil => exact ⟨[], by simp [mergeGates]⟩
  | append_singleton existing gate ih =>
      obtain ⟨own, merged, nodup, apart⟩ := ih
      rw [mergeGates_append, merged, mergeGates_singleton]
      split
      · exact ⟨own, rfl, nodup, apart⟩
      · next fresh =>
          rw [List.mem_append, not_or] at fresh
          refine ⟨own ++ [gate], List.append_assoc _ _ _, ?_, ?_⟩
          · rw [List.nodup_append]
            refine ⟨nodup, List.nodup_singleton gate, ?_⟩
            rintro other member last isLast rfl
            exact fresh.2 (List.mem_singleton.mp isLast ▸ member)
          · intro other member
            rcases List.mem_append.mp member with member | isLast
            · exact apart other member
            · exact List.mem_singleton.mp isLast ▸ fresh.1

/-- Known gates add nothing. -/
theorem mergeGates_of_mem {inherited existing : List String}
    (known : ∀ gate ∈ existing, gate ∈ inherited) : mergeGates inherited existing = inherited := by
  induction existing with
  | nil => rfl
  | cons gate existing ih =>
      rw [mergeGates, List.foldl_cons, if_pos (known gate List.mem_cons_self), ← mergeGates]
      exact ih fun other member => known other (List.mem_cons_of_mem _ member)

/-- Fresh ones are appended. -/
theorem mergeGates_of_fresh {inherited own : List String} (nodup : own.Nodup)
    (apart : ∀ gate ∈ own, gate ∉ inherited) : mergeGates inherited own = inherited ++ own := by
  induction own using List.reverseRecOn with
  | nil => simp [mergeGates]
  | append_singleton own gate ih =>
      rw [List.nodup_append] at nodup
      rw [mergeGates_append,
        ih nodup.1 fun other member => apart other (List.mem_append_left _ member),
        mergeGates_singleton, if_neg, List.append_assoc]
      rw [List.mem_append, not_or]
      exact ⟨apart gate (by simp), fun member => nodup.2.2 gate member gate (by simp) rfl⟩

/-- Merging gates twice adds them once. -/
theorem mergeGates_idem (inherited existing : List String) :
    mergeGates inherited (mergeGates inherited existing) = mergeGates inherited existing := by
  obtain ⟨own, merged, nodup, apart⟩ := mergeGates_eq inherited existing
  have first : mergeGates inherited inherited = inherited := mergeGates_of_mem fun _ => id
  rw [merged, mergeGates_append, first, mergeGates_of_fresh nodup apart]

/-- Stamping the gates leaves the record. -/
theorem record_stampGates (inherited : StrMap (List String)) (gated : GatedRecord) :
    (stampGates inherited gated).record = gated.record := by
  unfold stampGates
  split
  · rfl
  · split <;> rfl

/-- Stamping them twice is stamping them once. -/
theorem stampGates_idem (inherited : StrMap (List String)) (gated : GatedRecord) :
    stampGates inherited (stampGates inherited gated) = stampGates inherited gated := by
  cases found : (gatedFile gated.record).bind (inherited[·]?) with
  | none =>
      have same : stampGates inherited gated = gated := by simp [stampGates, found]
      rw [same, same]
  | some gates =>
      by_cases empty : gates = []
      · have same : stampGates inherited gated = gated := by simp [stampGates, found, empty]
        rw [same, same]
      · simp [stampGates, found, empty, mergeGates_idem]

/-- The resolved declarations of a scan. -/
def scanDeclarations (records : List GatedRecord) (factsByFile : StrMap FileFacts) :
    List GateDeclaration :=
  gateDeclarations factsByFile (knownFilePaths (records.map GatedRecord.record) factsByFile)

/-- The pass ends, and changes nothing more on its own output. -/
def GatePassSettles (records : List GatedRecord) (factsByFile : StrMap FileFacts) : Prop :=
  ∃ rounds out, applyOutOfLineCfgGates rounds records factsByFile = some out ∧
    applyOutOfLineCfgGates rounds out factsByFile = some out

/-- What the pass returns, it returns again. -/
theorem applyOutOfLineCfgGates_idem {rounds : Nat} {records out : List GatedRecord}
    {factsByFile : StrMap FileFacts}
    (ended : applyOutOfLineCfgGates rounds records factsByFile = some out) :
    applyOutOfLineCfgGates rounds out factsByFile = some out := by
  simp only [applyOutOfLineCfgGates] at ended
  split at ended
  · next none_ =>
      obtain rfl := Option.some.inj ended
      simp only [applyOutOfLineCfgGates, none_, if_true]
  · next some_ =>
      obtain ⟨inherited, final, stamped⟩ := Option.map_eq_some_iff.mp ended
      split at stamped
      · next empty =>
          subst stamped
          simp only [applyOutOfLineCfgGates, some_, if_false, final, Option.map_some, empty, if_true]
      · next nonempty =>
          have same : out.map GatedRecord.record = records.map GatedRecord.record := by
            rw [← stamped, List.map_map]
            exact List.map_congr_left fun gated _ => record_stampGates inherited gated
          have again : out.map (stampGates inherited) = out := by
            rw [← stamped, List.map_map]
            exact List.map_congr_left fun gated _ => stampGates_idem inherited gated
          simp only [applyOutOfLineCfgGates, same, some_, if_false, final, Option.map_some,
            nonempty, again]
          rfl

/-- The pass ends and is idempotent exactly when, on each cycle of files each of which one of
two gates first reaches through the next file, the same of the two gates leads every file. -/
theorem gatePassSettles_iff (records : List GatedRecord) (factsByFile : StrMap FileFacts) :
    GatePassSettles records factsByFile ↔
      ∀ first second,
        AgreeOnCycles (gateSources (scanDeclarations records factsByFile)) first second := by
  rw [← gateFixpoint_ends_iff]
  constructor
  · rintro ⟨rounds, out, ended, -⟩
    simp only [applyOutOfLineCfgGates] at ended
    split at ended
    · next none_ =>
        exact ⟨1, ∅, by rw [scanDeclarations, none_]; rfl⟩
    · obtain ⟨inherited, final, -⟩ := Option.map_eq_some_iff.mp ended
      exact ⟨rounds, inherited, final⟩
  · rintro ⟨rounds, inherited, final⟩
    have ended : ∃ out, applyOutOfLineCfgGates rounds records factsByFile = some out := by
      simp only [applyOutOfLineCfgGates]
      split
      · exact ⟨records, rfl⟩
      · rw [scanDeclarations] at final
        exact ⟨_, by rw [final]; rfl⟩
    obtain ⟨out, ended⟩ := ended
    exact ⟨rounds, out, ended, applyOutOfLineCfgGates_idem ended⟩

/-- Files that do not declare each other in a cycle settle. -/
theorem gatePassSettles_of_acyclic {records : List GatedRecord} {factsByFile : StrMap FileFacts}
    (acyclic : ∀ file other,
      Relation.ReflTransGen (Sourced (gateSources (scanDeclarations records factsByFile)))
        file other →
      Relation.ReflTransGen (Sourced (gateSources (scanDeclarations records factsByFile)))
        other file → file = other) : GatePassSettles records factsByFile := by
  rw [gatePassSettles_iff]
  exact fun first second => agree_of_acyclic acyclic

end Pass

section Swapping

/-- Two files that load each other, each under a gate of its own. -/
def swappingFacts : StrMap FileFacts :=
  ((∅ : StrMap FileFacts).insert "a.rs"
      { outOfLineMods :=
          [{ name := "b", pathOverride := some "b.rs", cfgGates := ["unix"] }] }).insert "b.rs"
    { outOfLineMods := [{ name := "a", pathOverride := some "a.rs", cfgGates := ["test"] }] }

def swappingDeclarations : List GateDeclaration :=
  [⟨"b.rs", "a.rs", ["unix"]⟩, ⟨"a.rs", "b.rs", ["test"]⟩]

/-- What the two files inherit. -/
def bothGates (gates others : List String) : StrMap (List String) :=
  ((∅ : StrMap (List String)).insert "a.rs" gates).insert "b.rs" others

/-- The loop swaps the order of the two gates in every round. -/
theorem gateFixpoint_swapping (rounds : Nat) :
    gateFixpoint swappingDeclarations rounds
        (bothGates ["unix", "test"] ["test", "unix"]) = none ∧
      gateFixpoint swappingDeclarations rounds
        (bothGates ["test", "unix"] ["unix", "test"]) = none := by
  have here : gateRound swappingDeclarations (bothGates ["unix", "test"] ["test", "unix"]) =
      (bothGates ["test", "unix"] ["unix", "test"], true) := by decide
  have there : gateRound swappingDeclarations (bothGates ["test", "unix"] ["unix", "test"]) =
      (bothGates ["unix", "test"] ["test", "unix"], true) := by decide
  induction rounds with
  | zero => exact ⟨rfl, rfl⟩
  | succ rounds ih =>
      rw [gateFixpoint, gateFixpoint, here, there]
      exact ⟨ih.2, ih.1⟩

/-- The pass does not settle on the two files that declare each other. -/
theorem gatePass_swappingFacts : ¬ GatePassSettles [] swappingFacts := by
  rintro ⟨rounds, out, ended, -⟩
  have declared : scanDeclarations [] swappingFacts = swappingDeclarations := by decide
  have first : gateRound swappingDeclarations ∅ = (bothGates ["test"] ["unix"], true) := by
    decide
  have second : gateRound swappingDeclarations (bothGates ["test"] ["unix"]) =
      (bothGates ["unix", "test"] ["test", "unix"], true) := by decide
  simp only [scanDeclarations] at declared
  simp only [applyOutOfLineCfgGates, declared] at ended
  have never : gateFixpoint swappingDeclarations rounds ∅ = none := by
    cases rounds with
    | zero => rfl
    | succ rounds =>
        rw [gateFixpoint, first]
        cases rounds with
        | zero => rfl
        | succ rounds =>
            simp only [if_true]
            rw [gateFixpoint, second]
            exact (gateFixpoint_swapping rounds).1
  rw [never] at ended
  cases ended

end Swapping

end Egregore
