import Egregore.RemoteUrl

/-!
# The parts of a remote URL

What the functions under the normal form do: a suffix is slashes, or `.git` among slashes; the
user goes with the first `@`; the port goes when it is the default one; the authority ends at
the first slash.
-/

namespace Egregore

open Base

/-! ### The suffix of a path -/

section Strip

variable {text front back : List Char}

/-- Nothing is left of slashes alone. -/
theorem trimSlashes_eq_nil_iff : trimSlashes text = [] ↔ ∀ char ∈ text, char = '/' := by
  simp [trimSlashes, List.rdropWhile_eq_nil_iff]

/-- What is trimmed is slashes. -/
theorem exists_slashes (text : List Char) : ∃ slashes, text = trimSlashes text ++ slashes ∧
    ∀ char ∈ slashes, char = '/' := by
  refine ⟨text.rtakeWhile (· = '/'), List.rdropWhile_append_rtakeWhile.symm, fun char member => ?_⟩
  simpa using List.mem_rtakeWhile_imp member

/-- Only a slash at the end is taken off. -/
theorem trimSlashes_concat (last : Char) : trimSlashes (text ++ [last]) =
    if last = '/' then trimSlashes text else text ++ [last] := by
  simp [trimSlashes, List.rdropWhile_concat]

/-- So a front part stays while something is left behind it. -/
theorem trimSlashes_append (ne : trimSlashes back ≠ []) :
    trimSlashes (front ++ back) = front ++ trimSlashes back := by
  induction back using List.reverseRecOn with
  | nil => exact absurd rfl ne
  | append_singleton rest last ih =>
      rw [trimSlashes_concat] at ne ⊢
      rw [← List.append_assoc, trimSlashes_concat]
      by_cases slash : last = '/'
      · rw [if_pos slash] at ne ⊢
        rw [if_pos slash, ih ne]
      · rw [if_neg slash, if_neg slash, List.append_assoc]

/-- Slashes are taken off once. -/
@[simp] theorem trimSlashes_trimSlashes : trimSlashes (trimSlashes text) = trimSlashes text :=
  List.rdropWhile_idempotent ..

/-- The text without one `.git` at its end. -/
def dropGit (text : List Char) : List Char := (stripEnding ".git".toList text).getD text

/-- Slashes go before and after the suffix does. -/
theorem stripGitSuffix_eq : stripGitSuffix text = trimSlashes (dropGit (trimSlashes text)) := rfl

/-- A text without the suffix stays. -/
theorem dropGit_of_not (not : ¬ ".git".toList <:+ text) : dropGit text = text := by
  rw [dropGit, stripEnding_eq_none_iff.mpr not, Option.getD_none]

/-- A text with the suffix loses it. -/
theorem dropGit_append_git : dropGit (text ++ ".git".toList) = text := by
  rw [dropGit, stripEnding_eq_some_iff.mpr rfl, Option.getD_some]

/-- A suffix that does not reach into the front part goes from the back part. -/
theorem dropGit_append (inside : ".git".toList <:+ front ++ back → ".git".toList <:+ back) :
    dropGit (front ++ back) = front ++ dropGit back := by
  by_cases ends : ".git".toList <:+ back
  · obtain ⟨rest, rfl⟩ := ends
    rw [← List.append_assoc, dropGit_append_git, dropGit_append_git]
  · rw [dropGit_of_not ends, dropGit_of_not fun whole => ends (inside whole)]

/-- Nothing has no suffix. -/
@[simp] theorem dropGit_nil : dropGit [] = [] := dropGit_of_not (by simp)

/-- What is left in the end was left before. -/
theorem trimSlashes_ne_nil (ne : stripGitSuffix text ≠ []) : trimSlashes text ≠ [] := by
  intro empty
  rw [stripGitSuffix_eq, empty, dropGit_nil] at ne
  exact ne rfl

/-- The front of a path stays when something is left of its back. -/
theorem stripGitSuffix_append (ne : stripGitSuffix back ≠ [])
    (inside : ".git".toList <:+ front ++ trimSlashes back →
      ".git".toList <:+ trimSlashes back) :
    stripGitSuffix (front ++ back) = front ++ stripGitSuffix back := by
  have some : trimSlashes back ≠ [] := trimSlashes_ne_nil ne
  rw [stripGitSuffix_eq] at ne ⊢
  rw [trimSlashes_append some, dropGit_append inside, trimSlashes_append ne]
  rfl

/-- The suffix goes at the end of the path, not of what stands before it. -/
theorem stripGitSuffix_append_slash (ne : stripGitSuffix ('/' :: back) ≠ []) :
    stripGitSuffix (front ++ '/' :: back) = front ++ stripGitSuffix ('/' :: back) := by
  refine stripGitSuffix_append ne fun ends => ?_
  rcases List.suffix_or_suffix_of_suffix ends (List.suffix_append ..) with inside | short
  · exact inside
  · obtain ⟨slashes, whole, -⟩ := exists_slashes ('/' :: back)
    obtain ⟨head, tail, split⟩ := List.exists_cons_of_ne_nil (trimSlashes_ne_nil ne)
    rw [split] at whole short
    obtain ⟨rfl, -⟩ := List.cons.inj whole
    have slash : '/' ∈ ".git".toList := short.subset List.mem_cons_self
    simp at slash

/-- One slash before a path. -/
theorem stripGitSuffix_slash : stripGitSuffix ('/' :: text) =
    if stripGitSuffix text = [] then [] else '/' :: stripGitSuffix text := by
  have inside : ∀ rest, ".git".toList <:+ ['/'] ++ rest → ".git".toList <:+ rest := by
    intro rest ends
    rcases List.suffix_cons_iff.mp ends with same | inside
    · cases same
    · exact inside
  by_cases empty : stripGitSuffix text = []
  · rw [if_pos empty]
    by_cases slashes : trimSlashes text = []
    · have all : trimSlashes ('/' :: text) = [] := by
        rw [trimSlashes_eq_nil_iff] at slashes ⊢
        simpa using slashes
      rw [stripGitSuffix_eq, all, dropGit_nil]
      rfl
    · have split : trimSlashes (['/'] ++ text) = ['/'] ++ trimSlashes text :=
        trimSlashes_append slashes
      rw [List.singleton_append] at split
      rw [stripGitSuffix_eq, trimSlashes_eq_nil_iff] at empty
      rw [stripGitSuffix_eq, split, dropGit_append (inside _), trimSlashes_eq_nil_iff]
      simpa using empty
  · have split : stripGitSuffix (['/'] ++ text) = ['/'] ++ stripGitSuffix text :=
      stripGitSuffix_append empty (inside _)
    rw [if_neg empty]
    exact split

/-- What is stripped is slashes, or `.git` among slashes. -/
theorem exists_gitTail (text : List Char) : ∃ tail, text = stripGitSuffix text ++ tail ∧
    ((∀ char ∈ tail, char = '/') ∨ ∃ before after, tail = before ++ ".git".toList ++ after ∧
      (∀ char ∈ before, char = '/') ∧ ∀ char ∈ after, char = '/') := by
  obtain ⟨after, whole, slashes⟩ := exists_slashes text
  by_cases ends : ".git".toList <:+ trimSlashes text
  · obtain ⟨rest, split⟩ := ends
    obtain ⟨before, trimmed, slashes'⟩ := exists_slashes rest
    have strip : stripGitSuffix text = trimSlashes rest := by
      rw [stripGitSuffix_eq, ← split, dropGit_append_git]
    refine ⟨before ++ ".git".toList ++ after, ?_, .inr ⟨before, after, rfl, slashes', slashes⟩⟩
    rw [strip, ← List.append_assoc, ← List.append_assoc, ← trimmed, split]
    exact whole
  · have strip : stripGitSuffix text = trimSlashes text := by
      rw [stripGitSuffix_eq, dropGit_of_not ends, trimSlashes_trimSlashes]
    exact ⟨after, strip.symm ▸ whole, .inl slashes⟩

/-- What is left is a prefix. -/
theorem stripGitSuffix_prefix : stripGitSuffix text <+: text :=
  let ⟨tail, whole, _⟩ := exists_gitTail text
  ⟨tail, whole.symm⟩

/-- Stripping keeps every character that a suffix has not. -/
theorem count_stripGitSuffix {char : Char} (slash : char ≠ '/') (git : char ∉ ".git".toList) :
    (stripGitSuffix text).count char = text.count char := by
  obtain ⟨tail, whole, kinds⟩ := exists_gitTail text
  have absent : char ∉ tail := by
    rcases kinds with slashes | ⟨before, after, rfl, slashes, slashes'⟩
    · exact fun member => slash (slashes char member)
    · simp only [List.mem_append, not_or]
      exact ⟨⟨fun member => slash (slashes char member), git⟩,
        fun member => slash (slashes' char member)⟩
  conv_rhs => rw [whole]
  rw [List.count_append, List.count_eq_zero.mpr absent, Nat.add_zero]

/-- A path is stable under stripping unless it ends in `.git` again. -/
theorem stripGitSuffix_stable_iff :
    stripGitSuffix (stripGitSuffix text) = stripGitSuffix text ↔
      ¬ ".git".toList <:+ stripGitSuffix text := by
  have trimmed : trimSlashes (stripGitSuffix text) = stripGitSuffix text :=
    trimSlashes_trimSlashes
  constructor
  · rintro same ⟨rest, split⟩
    have shorter : (stripGitSuffix (stripGitSuffix text)).length ≤ rest.length := by
      rw [stripGitSuffix_eq, trimmed, ← split, dropGit_append_git]
      exact (List.rdropWhile_prefix _ _).length_le
    rw [same, ← split, List.length_append] at shorter
    have length : ".git".toList.length = 4 := rfl
    omega
  · intro not
    rw [stripGitSuffix_eq, trimmed, dropGit_of_not not, trimmed]

/-- Nothing is left of a path only when it names no directory. -/
theorem authorityOf_of_stripGitSuffix (empty : stripGitSuffix text = []) :
    authorityOf text = [] ∨ authorityOf text = ".git".toList := by
  obtain ⟨tail, whole, kinds⟩ := exists_gitTail text
  rw [empty, List.nil_append] at whole
  subst whole
  have slashed : ∀ {slashes : List Char}, (∀ char ∈ slashes, char = '/') → slashes ≠ [] →
      ∀ rest, authorityOf (slashes ++ rest) = [] := by
    intro slashes all ne rest
    obtain ⟨head, tail, rfl⟩ := List.exists_cons_of_ne_nil ne
    rw [all head List.mem_cons_self]
    rfl
  rcases kinds with slashes | ⟨before, after, rfl, slashes, slashes'⟩
  · left
    cases text with
    | nil => rfl
    | cons head rest => simpa using slashed slashes (by simp) []
  · cases before with
    | nil =>
        right
        cases after with
        | nil => rfl
        | cons head rest =>
            rw [slashes' head List.mem_cons_self]
            rfl
    | cons head rest =>
        left
        rw [List.append_assoc]
        exact slashed slashes (by simp) _

end Strip

/-! ### Splitting a URL -/

section Split

variable {text front path user rest host written : List Char} {defaultPort : Nat}

/-- Without an `@` there is no user. -/
theorem stripUserinfo_of_not_mem (absent : '@' ∉ text) : stripUserinfo text = text := by
  rw [stripUserinfo, splitOnce_eq_none (List.mem_singleton_self '@') absent]

/-- With one, the user ends at the first. -/
theorem stripUserinfo_user (absent : '@' ∉ user) : stripUserinfo (user ++ '@' :: rest) = rest := by
  rw [stripUserinfo, splitOnce_append_cons absent]

/-- One `@` goes with the user. -/
theorem count_stripUserinfo : (stripUserinfo text).count '@' = text.count '@' - 1 := by
  by_cases occurs : '@' ∈ text
  · obtain ⟨before, after, rfl, absent⟩ := List.eq_append_cons_of_mem occurs
    rw [stripUserinfo_user absent, List.count_append, List.count_cons_self,
      List.count_eq_zero.mpr absent]
    omega
  · rw [stripUserinfo_of_not_mem occurs, List.count_eq_zero.mpr occurs]

/-- A path is empty or starts with a slash. -/
def Rooted (path : List Char) : Prop := path = [] ∨ ∃ rest, path = '/' :: rest

/-- A path with a slash before it keeps it, or nothing is left. -/
theorem rooted_stripGitSuffix : Rooted (stripGitSuffix ('/' :: rest)) := by
  rw [stripGitSuffix_slash]
  split
  · exact .inl rfl
  · exact .inr ⟨_, rfl⟩

/-- The authority ends at the first slash. -/
theorem authorityOf_append (absent : '/' ∉ front) (rooted : Rooted path) :
    authorityOf (front ++ path) = front := by
  have kept : ∀ char ∈ front, decide (char ≠ '/') = true := fun char member =>
    decide_eq_true (ne_of_mem_of_not_mem member absent)
  rw [authorityOf, List.takeWhile_append_of_pos kept]
  rcases rooted with rfl | ⟨rest, rfl⟩ <;> simp

/-- The path starts at the first slash. -/
theorem pathOf_append (absent : '/' ∉ front) (rooted : Rooted path) :
    pathOf (front ++ path) = path := by
  have kept : ∀ char ∈ front, decide (char ≠ '/') = true := fun char member =>
    decide_eq_true (ne_of_mem_of_not_mem member absent)
  rw [pathOf, List.dropWhile_append_of_pos kept]
  rcases rooted with rfl | ⟨rest, rfl⟩ <;> simp

/-- Together they are the text. -/
theorem authorityOf_append_pathOf : authorityOf text ++ pathOf text = text :=
  List.takeWhile_append_dropWhile

/-- No slash is in the authority. -/
theorem not_mem_authorityOf : '/' ∉ authorityOf text := by
  intro member
  simpa using List.mem_takeWhile_imp member

/-- The path starts with a slash, or is empty. -/
theorem rooted_pathOf : Rooted (pathOf text) := by
  cases split : pathOf text with
  | nil => exact .inl rfl
  | cons head tail =>
      have ne : text.dropWhile (· ≠ '/') ≠ [] := by
        rw [← pathOf, split]
        exact List.cons_ne_nil head tail
      have slash := List.head_dropWhile_not (fun char => decide (char ≠ '/')) ne
      have first : (text.dropWhile (· ≠ '/')).head ne = head := by
        simp only [← pathOf.eq_1, split, List.head_cons]
      rw [first] at slash
      exact .inr ⟨tail, by rw [show head = '/' by simpa using slash]⟩

/-- The default port of a scheme, in digits. -/
theorem isDigit_of_mem_port {char : Char} (member : char ∈ (toString defaultPort).toList) :
    char.isDigit = true := by
  change char ∈ (Nat.repr defaultPort).toList at member
  rw [Nat.toList_repr] at member
  exact Nat.isDigit_of_mem_toDigits (by decide) (by decide) member

/-- A port holds no colon. -/
theorem colon_not_mem_digits {digits : List Char} (all : ∀ char ∈ digits, char.isDigit = true) :
    ':' ∉ digits := fun member => absurd (all ':' member) (by decide)

/-- Stripping the default port leaves every `@`. -/
theorem count_stripDefaultPort :
    (stripDefaultPort text defaultPort).count '@' = text.count '@' := by
  have absent : '@' ∉ ':' :: (toString defaultPort).toList := by
    rw [List.mem_cons, not_or]
    exact ⟨by decide, fun member => absurd (isDigit_of_mem_port member) (by decide)⟩
  rw [stripDefaultPort]
  cases stripped : stripEnding (':' :: (toString defaultPort).toList) text with
  | none => rfl
  | some rest =>
      rw [stripEnding_eq_some_iff.mp stripped, List.count_append, List.count_eq_zero.mpr absent]
      rfl

/-- What is left is a prefix. -/
theorem prefix_stripDefaultPort : stripDefaultPort text defaultPort <+: text := by
  rw [stripDefaultPort]
  cases stripped : stripEnding (':' :: (toString defaultPort).toList) text with
  | none => exact List.prefix_refl _
  | some rest => exact ⟨_, (stripEnding_eq_some_iff.mp stripped).symm⟩

/-- A host is not taken for one with the port. -/
theorem stripDefaultPort_of_host (brackets : ':' ∈ host → host.getLast? = some ']') :
    stripDefaultPort host defaultPort = host := by
  have unchanged : ¬ ':' :: (toString defaultPort).toList <:+ host := by
    rintro ⟨rest, rfl⟩
    have last := brackets (by simp)
    rw [List.getLast?_append_of_ne_nil _ (by simp)] at last
    have member := List.mem_of_getLast? last
    rcases List.mem_cons.mp member with same | digit
    · exact absurd same (by decide)
    · exact absurd (isDigit_of_mem_port digit) (by decide)
  rw [stripDefaultPort, stripEnding_eq_none_iff.mpr unchanged, Option.getD_none]

/-- A port is taken off when it is the default one. -/
theorem stripDefaultPort_port {port : List Char} (digits : ∀ char ∈ port, char.isDigit = true) :
    stripDefaultPort (host ++ ':' :: port) defaultPort =
      host ++ if port = (toString defaultPort).toList then [] else ':' :: port := by
  by_cases same : port = (toString defaultPort).toList
  · rw [if_pos same, same, List.append_nil, stripDefaultPort, stripEnding_eq_some_iff.mpr rfl,
      Option.getD_some]
  · have unchanged : ¬ ':' :: (toString defaultPort).toList <:+ host ++ ':' :: port := by
      rintro ⟨rest, whole⟩
      have split := congrArg (rsplitOnce ':') whole
      rw [rsplitOnce_append (colon_not_mem_digits fun _ => isDigit_of_mem_port),
        rsplitOnce_append (colon_not_mem_digits digits), Option.some.injEq, Prod.mk.injEq] at split
      exact same split.2.symm
    rw [if_neg same, stripDefaultPort, stripEnding_eq_none_iff.mpr unchanged, Option.getD_none]

/-- A port with its colon, or none. -/
def IsPort (text : List Char) : Prop :=
  text = [] ∨ ∃ port, text = ':' :: port ∧ ∀ char ∈ port, char.isDigit = true

/-- Other marks than the colon are not in a port. -/
theorem IsPort.not_mem (isPort : IsPort text) {mark : Char} (colon : mark ≠ ':')
    (digit : mark.isDigit = false) : mark ∉ text := by
  rcases isPort with rfl | ⟨port, rfl, digits⟩
  · exact List.not_mem_nil
  · rw [List.mem_cons, not_or]
    refine ⟨colon, fun member => ?_⟩
    rw [digits mark member] at digit
    cases digit

/-- The scheme ends at the first separator. -/
theorem splitOnce_scheme (absent : ¬ "://".toList <:+: written) (rest : List Char) :
    splitOnce "://".toList (written ++ "://".toList ++ rest) = some (written, rest) := by
  apply splitOnce_append
  rintro char tail ⟨before, rfl⟩ ⟨after, starts⟩
  -- Text of fewer than three characters before `://` does not start with it.
  cases tail with
  | nil => simp at starts
  | cons char' tail =>
      cases tail with
      | nil => simp at starts
      | cons char'' tail =>
          refine absent ⟨before, tail, ?_⟩
          simp at starts
          simp [← starts]

end Split

end Egregore
