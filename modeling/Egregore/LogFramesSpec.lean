import Egregore.LogFrames

/-!
# Paths of stack frames

Which frame paths are stored relative to the repository, for any root and any path: those that go
on after the text of the root with a slash, and also those of a sibling whose name starts with
that text. `framePathLaw_iff` says that the law of the field breaks for the latter and for no
other path.
-/

namespace Egregore

open Base Redaction

/-- A path as it is compared: trimmed, with backslashes read as slashes. -/
def readPath (raw : List Char) : List Char := forwardSlashes (trim raw)

/-- What a path has left after the text of the root and any slashes. -/
structure Remains (rootStr path rest : List Char) (slashes : List Char) : Prop where
  split : path = rootStr ++ slashes ++ rest
  slashes : ∀ char ∈ slashes, char = '/'
  nonempty : rest ≠ []
  starts : rest.head? ≠ some '/'

/-- A path has the root as a whole leading directory, and `rest` under it: at least one slash
separates the two. -/
def LiesUnder (rootStr path rest : List Char) : Prop :=
  ∃ slashes, slashes ≠ [] ∧ Remains rootStr path rest slashes

/-- The text of the root goes on with a name: another entry of the root's own directory. -/
def LiesBeside (rootStr path : List Char) : Prop :=
  ∃ rest, Remains rootStr path rest []

section Relative

variable {rootStr path rest slashes : List Char}

theorem Remains.repoRelative (remains : Remains rootStr path rest slashes) :
    repoRelative rootStr path = some rest := by
  have stripped : stripPrefix rootStr path = some (slashes ++ rest) := by
    rw [remains.split, List.append_assoc, stripPrefix_append]
  have skips : ∀ char ∈ slashes, decide (char = '/') = true := fun char member =>
    decide_eq_true (remains.slashes char member)
  have kept : rest.dropWhile (fun char => decide (char = '/')) = rest := by
    rw [List.dropWhile_eq_self_iff]
    intro inside starts
    apply remains.starts
    rw [List.head?_eq_getElem?, List.getElem?_eq_getElem inside]
    simpa using starts
  have nonempty : rest.isEmpty = false := List.isEmpty_eq_false_iff.mpr remains.nonempty
  simp only [Egregore.repoRelative, stripped, List.dropWhile_append_of_pos skips, kept, nonempty,
    Bool.false_eq_true, if_false]

/-- What is stored relative to the repository is what is left after the text of the root. -/
theorem repoRelative_eq_some_iff :
    repoRelative rootStr path = some rest ↔ ∃ slashes, Remains rootStr path rest slashes := by
  constructor
  · intro relative
    rw [repoRelative] at relative
    split at relative
    · cases relative
    · rename_i stripped found
      rw [stripPrefix_eq_some_iff] at found
      simp only at relative
      split at relative
      · cases relative
      · rename_i visible
        obtain rfl := Option.some.inj relative
        refine ⟨stripped.takeWhile (· = '/'), ?_, ?_, ?_, ?_⟩
        · rw [List.append_assoc, List.takeWhile_append_dropWhile, found]
        · exact fun char member => by simpa using List.mem_takeWhile_imp member
        · exact fun empty => visible (by rw [empty]; rfl)
        · intro starts
          have skipped := List.head?_dropWhile_not (fun char => decide (char = '/')) stripped
          rw [starts] at skipped
          simp at skipped
  · rintro ⟨slashes, remains⟩
    exact remains.repoRelative

end Relative

/-! ## The law -/

section Law

variable (blake3 : String → Vector UInt8 32) (rootStr raw : List Char)

/-- The rest of a path after the root's text is what is stored exactly when the root is a whole
leading directory of it. -/
structure FramePathLaw : Prop where
  under : ∀ rest, LiesUnder rootStr (readPath raw) rest →
    normalizeFramePath blake3 rootStr raw = some (storedFrameText blake3 rest)
  only : ∀ rest slashes, Remains rootStr (readPath raw) rest slashes →
    normalizeFramePath blake3 rootStr raw = some (storedFrameText blake3 rest) →
    LiesUnder rootStr (readPath raw) rest

variable {rootStr raw} {rest slashes : List Char}

/-- The rest is stored, whether or not a slash comes before it. -/
theorem normalizeFramePath_of_remains (remains : Remains rootStr (readPath raw) rest slashes) :
    normalizeFramePath blake3 rootStr raw = some (storedFrameText blake3 rest) := by
  have visible : (trim raw).isEmpty = false := by
    rw [List.isEmpty_eq_false_iff]
    intro empty
    have split := remains.split
    rw [readPath, empty] at split
    have nothing : rootStr ++ slashes ++ rest = [] := split.symm
    exact remains.nonempty (List.append_eq_nil_iff.mp nothing).2
  have relative := remains.repoRelative
  rw [readPath] at relative
  simp only [normalizeFramePath, visible, framePath, relative, Bool.false_eq_true, if_false]

theorem not_framePathLaw_of_beside (beside : LiesBeside rootStr (readPath raw)) :
    ¬ FramePathLaw blake3 rootStr raw := by
  intro law
  obtain ⟨rest, remains⟩ := beside
  obtain ⟨slashes, some, under⟩ :=
    law.only rest [] remains (normalizeFramePath_of_remains blake3 remains)
  have lengths := congrArg List.length (remains.split.symm.trans under.split)
  have positive := List.length_pos_of_ne_nil some
  simp only [List.append_nil, List.length_append] at lengths
  omega

/-- The law holds of every path but those that go on after the root's text with a name. -/
theorem framePathLaw_iff (rootStr raw : List Char) :
    FramePathLaw blake3 rootStr raw ↔ ¬ LiesBeside rootStr (readPath raw) := by
  constructor
  · exact fun law beside => not_framePathLaw_of_beside blake3 beside law
  · intro notBeside
    refine ⟨fun rest under => ?_, fun rest slashes remains _ => ?_⟩
    · obtain ⟨slashes, -, remains⟩ := under
      exact normalizeFramePath_of_remains blake3 remains
    · refine ⟨slashes, ?_, remains⟩
      rintro rfl
      exact notBeside ⟨rest, remains⟩

/-- No digest: none is asked for where there is no secret. -/
def noDigest : String → Vector UInt8 32 := fun _ => Vector.replicate 32 0

/-- A path of the sibling `/work/appsrc` is stored as a path of the repository `/work/app`. -/
theorem siblingPath_stored :
    normalizeFramePath noDigest "/work/app".toList "/work/appsrc/main.rs".toList =
        some "src/main.rs" ∧
      ¬ FramePathLaw noDigest "/work/app".toList "/work/appsrc/main.rs".toList := by
  have beside : Remains "/work/app".toList (readPath "/work/appsrc/main.rs".toList)
      "src/main.rs".toList [] := by
    refine ⟨?_, ?_, ?_, ?_⟩ <;> decide
  refine ⟨?_, not_framePathLaw_of_beside noDigest ⟨_, beside⟩⟩
  decide

end Law

/-! ## The frames of a text -/

section Frames

variable {blake3 : String → Vector UInt8 32} {rootStr : List Char}

/-- A frame has the location of one of the rows, or none. -/
def LocatedBy (blake3 : String → Vector UInt8 32) (rootStr : List Char) (rows : List String)
    (frame : StackFrame) : Prop :=
  (frame.filePath = none ∧ frame.line = none) ∨
    ∃ row ∈ rows, ∃ file line, parseFrameLocation (trim row.toList) = some (file, line) ∧
      frame.filePath = normalizeFramePath blake3 rootStr file ∧ frame.line = line

theorem LocatedBy.mono {rows more : List String} {frame : StackFrame}
    (located : LocatedBy blake3 rootStr rows frame) (inside : ∀ row ∈ rows, row ∈ more) :
    LocatedBy blake3 rootStr more frame := by
  refine located.imp_right ?_
  rintro ⟨row, member, rest⟩
  exact ⟨row, inside row member, rest⟩

theorem mem_modifyLast {α : Type} {f : α → α} {items : List α} {item : α}
    (member : item ∈ items.modifyLast f) : item ∈ items ∨ ∃ last ∈ items, item = f last := by
  rcases List.eq_nil_or_concat items with rfl | ⟨front, last, rfl⟩
  · cases member
  · rw [List.concat_eq_append, List.modifyLast_concat] at member
    rcases List.mem_append.mp member with inFront | atEnd
    · exact .inl (by simp [inFront])
    · exact .inr ⟨last, by simp, List.mem_singleton.mp atEnd⟩

theorem length_modifyLast {α : Type} (f : α → α) (items : List α) :
    (items.modifyLast f).length = items.length := by
  rcases List.eq_nil_or_concat items with rfl | ⟨front, last, rfl⟩
  · rfl
  · rw [List.concat_eq_append, List.modifyLast_concat, List.length_append, List.length_append]
    rfl

/-- The loop keeps at most so many frames, each with a location of a row. -/
theorem parseFrameLines_spec (rows known : List String) {frames : List StackFrame}
    (bounded : frames.length ≤ maxFrames)
    (located : ∀ frame ∈ frames, LocatedBy blake3 rootStr known frame) :
    (parseFrameLines blake3 rootStr frames rows).length ≤ maxFrames ∧
      ∀ frame ∈ parseFrameLines blake3 rootStr frames rows,
        LocatedBy blake3 rootStr (known ++ rows) frame := by
  induction rows generalizing known frames with
  | nil => exact ⟨bounded, fun frame member => (located frame member).mono (by simp)⟩
  | cons row rows ih =>
      rw [parseFrameLines]
      have further : known ++ row :: rows = known ++ [row] ++ rows := by simp
      have kept : ∀ frame ∈ frames, LocatedBy blake3 rootStr (known ++ [row]) frame :=
        fun frame member => (located frame member).mono fun _ inside => List.mem_append_left _ inside
      rw [further]
      split
      · split
        · refine ⟨bounded, fun frame member => (kept frame member).mono ?_⟩
          exact fun _ inside => List.mem_append_left _ inside
        · next room =>
            refine ih _ (by rw [List.length_append, List.length_singleton]; omega) ?_
            intro frame member
            rcases List.mem_append.mp member with old | new
            · exact kept frame old
            · rw [List.mem_singleton.mp new]
              exact .inl ⟨rfl, rfl⟩
      · split
        · next file line location =>
            refine ih _ (by rwa [length_modifyLast]) fun frame member => ?_
            rcases mem_modifyLast member with old | ⟨last, old, rfl⟩
            · exact kept frame old
            · rw [locateFrame]
              split
              · exact .inr ⟨row, by simp, file, line, location, rfl, rfl⟩
              · exact kept last old
        · exact ih _ bounded kept

/-- Every stored path is what a location in the text is normalized to. -/
theorem parseFrames_filePath {text path : String} {frame : StackFrame}
    (member : frame ∈ parseFrames blake3 rootStr text) (stored : frame.filePath = some path) :
    ∃ row ∈ lines text, ∃ file, parseFrameLocation (trim row.toList) = some (file, frame.line) ∧
      normalizeFramePath blake3 rootStr file = some path := by
  have located := (parseFrameLines_spec (lines text) [] (Nat.zero_le _)
    (fun _ inside => absurd inside List.not_mem_nil)).2 frame member
  rcases located with ⟨none, -⟩ | ⟨row, inText, file, line, location, path', line'⟩
  · rw [none] at stored
    cases stored
  · exact ⟨row, inText, file, line' ▸ location, path'.symm.trans stored⟩

theorem length_parseFrames_le (text : String) :
    (parseFrames blake3 rootStr text).length ≤ maxFrames :=
  (parseFrameLines_spec (lines text) [] (Nat.zero_le _)
    fun _ inside => absurd inside List.not_mem_nil).1

end Frames

end Egregore
