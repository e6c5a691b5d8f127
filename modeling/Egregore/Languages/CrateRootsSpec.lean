import Egregore.Languages.CrateRoots

/-!
# Which helpers are reassigned

The walks record, of each helper, the targets whose files include it in one step or more. A helper
is reassigned to a target exactly when that target is the only one and the helper is not a target
itself.
-/

namespace Egregore

open Base

variable {factsByFile : StrMap FileFacts}

theorem mem_scannedPaths {path : String} :
    path ∈ scannedPaths factsByFile ↔ path ∈ factsByFile.keys := by
  have folded : ∀ (paths : List String) (set : StrSet),
      path ∈ paths.foldl (·.insert ·) set ↔ path ∈ paths ∨ path ∈ set := by
    intro paths
    induction paths with
    | nil => simp
    | cons first rest ih =>
        intro set
        rw [List.foldl_cons, ih, Std.ExtTreeSet.mem_insert, byteOrder_eq_iff, List.mem_cons]
        constructor
        · rintro (later | rfl | old)
          · exact .inl (.inr later)
          · exact .inl (.inl rfl)
          · exact .inr old
        · rintro ((rfl | later) | old)
          · exact .inr (.inl rfl)
          · exact .inl later
          · exact .inr (.inr old)
  rw [scannedPaths, folded]
  simp

theorem resolveAuxHelperMod_known {declaringFile target : String} {isEntryRoot : Bool}
    {fact : OutOfLineModFact} {knownPaths : StrSet}
    (resolved : resolveAuxHelperMod declaringFile isEntryRoot fact knownPaths = some target) :
    target ∈ knownPaths := by
  unfold resolveAuxHelperMod at resolved
  split at resolved
  · cases resolved
  · simp only at resolved
    split at resolved
    · cases resolved
    · next fileCandidate _ =>
        split at resolved
        · next known => exact Option.some.inj resolved ▸ known
        · obtain ⟨dirCandidate, -, found⟩ := Option.bind_eq_some_iff.mp resolved
          split at found
          · next known => exact Option.some.inj found ▸ known
          · cases found

/-- The files of an inclusion are files of the scan. -/
theorem mem_keys_of_auxHelperMods {entry file helper : String}
    (included : helper ∈ auxHelperMods factsByFile entry file) : helper ∈ factsByFile.keys := by
  obtain ⟨fact, -, resolved⟩ := List.mem_filterMap.mp included
  exact mem_scannedPaths.mp (resolveAuxHelperMod_known resolved)

variable (factsByFile) in
/-- A target whose entry file includes the helper, directly or through other files. -/
def Includes (entryRoot helper : String) : Prop :=
  ∃ entry ∈ factsByFile.keys, auxEntryCrateRoot entry = some entryRoot ∧
    ∃ last, Reaches (auxHelperMods factsByFile entry) entry last ∧
      helper ∈ auxHelperMods factsByFile entry last

variable (factsByFile) in
/-- The walks add a link from each helper to each target that includes it. -/
theorem exists_includerLinks (entries : List String) (reached : StrMap StrSet) :
    ∃ links : List (String × String),
      entries.foldl (walkIncluder factsByFile) reached = links.foldl insertLink reached ∧
      ∀ helper entryRoot, (helper, entryRoot) ∈ links ↔
        ∃ entry ∈ entries, auxEntryCrateRoot entry = some entryRoot ∧
          ∃ last, Reaches (auxHelperMods factsByFile entry) entry last ∧
            helper ∈ auxHelperMods factsByFile entry last := by
  induction entries generalizing reached with
  | nil => exact ⟨[], rfl, by simp⟩
  | cons entry entries ih =>
      cases root : auxEntryCrateRoot entry with
      | none =>
          obtain ⟨links, folded, linked⟩ := ih reached
          refine ⟨links, ?_, fun helper entryRoot => ?_⟩
          · rw [List.foldl_cons, walkIncluder, root, folded]
          · rw [linked]
            simp [root]
      | some target =>
          have joined : ∀ stack fresh : List String,
              (fresh.reverse ++ stack).Perm (stack ++ fresh) := fun stack fresh =>
            ((List.reverse_perm fresh).append_right stack).trans List.perm_append_comm
          have inside : ∀ file, ∀ helper ∈ auxHelperMods factsByFile entry file,
              helper ∈ factsByFile.keys := fun _ _ => mem_keys_of_auxHelperMods
          obtain ⟨met, marked, members⟩ :=
            exists_meetings_pour joined inside (markIncluder target) [entry] reached
          obtain ⟨links, folded, linked⟩ := ih (met.foldl
            (fun reached helper => markIncluder target helper reached) reached)
          refine ⟨met.map (·, target) ++ links, ?_, fun helper entryRoot => ?_⟩
          · simp only [List.length_cons, List.length_nil, Nat.zero_add] at marked
            rw [List.foldl_cons, walkIncluder, root]
            dsimp only
            rw [marked, folded, List.foldl_append, List.foldl_map]
            rfl
          · have here : (helper, entryRoot) ∈ met.map (·, target) ↔
                target = entryRoot ∧ ∃ last, Reaches (auxHelperMods factsByFile entry) entry last ∧
                  helper ∈ auxHelperMods factsByFile entry last := by
              simp only [List.mem_map, Prod.mk.injEq, members, List.mem_singleton, exists_eq_left]
              constructor
              · rintro ⟨node, reaches, rfl, rfl⟩
                exact ⟨rfl, reaches⟩
              · rintro ⟨rfl, reaches⟩
                exact ⟨helper, reaches, rfl, rfl⟩
            rw [List.mem_append, linked, here]
            simp only [List.mem_cons, exists_eq_or_imp, root, Option.some.injEq]

/-- The recorded targets of a helper are those that include it. -/
theorem mem_auxHelperIncluderRoots {helper : String} {roots : List String}
    (recorded : (auxHelperIncluderRoots factsByFile)[helper]? = some roots) (entryRoot : String) :
    entryRoot ∈ roots ↔ Includes factsByFile entryRoot helper := by
  obtain ⟨links, folded, linked⟩ := exists_includerLinks factsByFile factsByFile.keys ∅
  rw [auxHelperIncluderRoots, Std.ExtTreeMap.getElem?_map, folded] at recorded
  obtain ⟨set, found, rfl⟩ := Option.map_eq_some_iff.mp recorded
  have member : entryRoot ∈ ((links.foldl insertLink ∅)[helper]?).getD ∅ ↔ _ :=
    mem_foldl_insertLink
  rw [found, Option.getD_some] at member
  rw [Std.ExtTreeSet.mem_toList, member, linked]
  rfl

/-- A target is recorded once. -/
theorem nodup_auxHelperIncluderRoots {helper : String} {roots : List String}
    (recorded : (auxHelperIncluderRoots factsByFile)[helper]? = some roots) : roots.Nodup := by
  rw [auxHelperIncluderRoots, Std.ExtTreeMap.getElem?_map] at recorded
  obtain ⟨set, -, rfl⟩ := Option.map_eq_some_iff.mp recorded
  refine set.distinct_toList.imp ?_
  rintro root _ apart rfl
  exact apart (byteOrder_eq_iff.mpr rfl)

/-- A helper that a target includes is recorded. -/
theorem exists_auxHelperIncluderRoots {helper entryRoot : String}
    (includes : Includes factsByFile entryRoot helper) :
    ∃ roots, (auxHelperIncluderRoots factsByFile)[helper]? = some roots := by
  obtain ⟨links, folded, linked⟩ := exists_includerLinks factsByFile factsByFile.keys ∅
  have member : entryRoot ∈ ((links.foldl insertLink ∅)[helper]?).getD ∅ ↔ _ :=
    mem_foldl_insertLink
  rw [auxHelperIncluderRoots, Std.ExtTreeMap.getElem?_map, folded]
  cases found : (links.foldl insertLink ∅)[helper]? with
  | none =>
      rw [found, linked] at member
      exact absurd (member.mpr includes) (by simp)
  | some set => exact ⟨set.toList, rfl⟩

/-- A helper is reassigned to the only target that includes it, if it is no target itself. -/
theorem reassignAuxHelperCrateRoots_eq_some {helper newRoot : String} :
    (reassignAuxHelperCrateRoots factsByFile)[helper]? = some newRoot ↔
      (∀ entryRoot, Includes factsByFile entryRoot helper ↔ entryRoot = newRoot) ∧
        auxEntryCrateRoot helper = none ∧ crateRootId helper ≠ newRoot := by
  rw [reassignAuxHelperCrateRoots, Std.ExtTreeMap.getElem?_filterMap']
  cases recorded : (auxHelperIncluderRoots factsByFile)[helper]? with
  | none =>
      refine iff_of_false (by simp) ?_
      rintro ⟨only, -⟩
      obtain ⟨roots, found⟩ := exists_auxHelperIncluderRoots ((only newRoot).mpr rfl)
      rw [recorded] at found
      cases found
  | some roots =>
      have only : (∀ entryRoot, Includes factsByFile entryRoot helper ↔ entryRoot = newRoot) ↔
          roots = [newRoot] := by
        simp only [← mem_auxHelperIncluderRoots recorded]
        constructor
        · intro members
          apply List.perm_singleton.mp
          rw [List.perm_ext_iff_of_nodup (nodup_auxHelperIncluderRoots recorded)
            (List.nodup_singleton newRoot)]
          simpa using members
        · rintro rfl entryRoot
          exact List.mem_singleton
      rw [only, Option.bind_some]
      split
      · next root =>
          split
          · next kept =>
              refine iff_of_false (by simp) ?_
              rintro ⟨same, notEntry, differs⟩
              obtain rfl := List.singleton_inj.mp same
              rcases kept with isEntry | same
              · simp [notEntry] at isEntry
              · exact differs same
          · next moved =>
              obtain ⟨notEntry, differs⟩ := not_or.mp moved
              rw [Option.not_isSome_iff_eq_none] at notEntry
              rw [Option.some.injEq, List.singleton_inj]
              constructor
              · rintro rfl
                exact ⟨rfl, notEntry, differs⟩
              · exact fun same => same.1
      · next several =>
          refine iff_of_false (by simp) ?_
          rintro ⟨rfl, -⟩
          exact several newRoot rfl

end Egregore
