import Egregore.Base.CaseFolding
import Egregore.RemoteUrlParts

/-!
# Remote URLs name their repository

A remote is written as a URL or in the scp form, with or without a user. Its canonical form is
the folded host, the port that is not the scheme's own, and the path without its suffix. The
normal form is canonical, and stable, exactly for the settled remotes: the user and the path
hold no `@` that is taken for the user's, no port of another scheme turns into the default one,
and one suffix is all there is to strip. `normalizes_iff_settled` is for every remote and every
lowering of letters that keeps the marks of a URL.
-/

namespace Egregore

open Base

/-! ### Remotes -/

/-- The schemes of remote URLs. -/
inductive RemoteScheme where
  | https | http | git | ssh
  deriving DecidableEq, Repr

def RemoteScheme.asStr : RemoteScheme → String
  | .https => "https"
  | .http => "http"
  | .git => "git"
  | .ssh => "ssh"

def RemoteScheme.defaultPort : RemoteScheme → Nat
  | .https => 443
  | .http => 80
  | .git => 9418
  | .ssh => 22

/-- How a remote is written: as a URL, with its scheme as written and its port, or in the scp
form. -/
inductive RemoteForm where
  | url (scheme : RemoteScheme) (written : List Char) (port : Option (List Char))
  | scp
  deriving DecidableEq

/-- A remote as it is configured. -/
structure Remote where
  form : RemoteForm
  user : Option (List Char)
  host : List Char
  path : List Char
  deriving DecidableEq

namespace Remote

variable (toLowercase : List Char → List Char) (remote : Remote)

def userText : List Char :=
  match remote.user with
  | some user => user ++ ['@']
  | none => []

/-- The port of a URL, with its colon. -/
def portText : List Char :=
  match remote.form with
  | .url _ _ (some port) => ':' :: port
  | _ => []

/-- The remote as a text. -/
def text : List Char :=
  match remote.form with
  | .url _ written _ =>
      written ++ "://".toList ++ (remote.userText ++ remote.host ++ remote.portText ++
        '/' :: remote.path)
  | .scp => remote.userText ++ remote.host ++ ':' :: remote.path

/-- The port that the canonical form keeps: one that is not the scheme's own. -/
def keptPort : List Char :=
  match remote.form with
  | .url scheme _ (some port) =>
      if port = (toString scheme.defaultPort).toList then [] else ':' :: port
  | _ => []

/-- The folded host, the kept port and the path without its suffix. -/
def canonical : List Char :=
  "https://".toList ++ (toLowercase remote.host ++ remote.keptPort) ++
    stripGitSuffix ('/' :: remote.path)

/-- The user and the host end where they should, only a bracketed host has a colon, a port is
digits, and a scheme is written in any case. -/
structure WellFormed : Prop where
  user : ∀ user ∈ remote.user, '/' ∉ user
  host : '/' ∉ remote.host ∧ '@' ∉ remote.host
  brackets : ':' ∈ remote.host → ∃ address, remote.host = '[' :: address ++ [']']
  port : ∀ scheme written port, remote.form = .url scheme written (some port) →
    ∀ char ∈ port, char.isDigit = true
  scheme : ∀ scheme written port, remote.form = .url scheme written port →
    toLowercase written = scheme.asStr.toList

/-- The normal form is canonical, and its own normal form. -/
def Normalizes : Prop :=
  normalizeRemoteUrl toLowercase remote.text = remote.canonical toLowercase ∧
    normalizeRemoteUrl toLowercase (normalizeRemoteUrl toLowercase remote.text) =
      normalizeRemoteUrl toLowercase remote.text

/-- Whether the user is cut off before the path is. -/
def CutsUserFirst : Prop :=
  match remote.form with
  | .url scheme _ _ => scheme = .ssh
  | .scp => True

/-- No `@` but the user's own is taken for it, no kept port is the default one of `https`, and
one suffix is all there is. The scp form has no colon before its own, is no URL, and has a
path. -/
structure Settled : Prop where
  user : ∀ user ∈ remote.user, '@' ∉ user
  path : remote.user = none → remote.CutsUserFirst → '@' ∉ remote.path
  port : remote.keptPort ≠ ":443".toList
  suffix : ¬ ".git".toList <:+ stripGitSuffix ('/' :: remote.path)
  scp : remote.form = .scp → ':' ∉ remote.host ∧ ¬ "://".toList <:+: remote.text ∧
    stripGitSuffix remote.path ≠ []

end Remote

/-! ### The normal form of a URL -/

section Urls

variable {toLowercase : List Char → List Char} {written rest : List Char}

/-- The authority and the path of a URL, without its user. -/
def authorityAndPath (scheme : RemoteScheme) (rest : List Char) : List Char × List Char :=
  match scheme with
  | .ssh => (authorityOf (stripUserinfo rest), pathOf (stripUserinfo rest))
  | _ => (stripUserinfo (authorityOf rest), pathOf rest)

/-- No mark is in a scheme, whatever its case. -/
theorem not_mem_scheme (lowercases : Lowercases toLowercase) {scheme : RemoteScheme}
    {mark : Char} (isMark : isMark mark = true)
    (lowered : toLowercase written = scheme.asStr.toList) : mark ∉ written := by
  have letters : ∀ char ∈ scheme.asStr.toList, Base.isMark char = false := by
    cases scheme <;> decide
  intro member
  rw [← (lowercases.folds written).mem_iff isMark, lowered] at member
  rw [letters mark member] at isMark
  cases isMark

/-- `://` splits a URL after its scheme. -/
theorem normalizeRemoteUrl_url (lowercases : Lowercases toLowercase) {scheme : RemoteScheme}
    (lowered : toLowercase written = scheme.asStr.toList) :
    normalizeRemoteUrl toLowercase (written ++ "://".toList ++ rest) =
      httpsForm toLowercase (authorityAndPath scheme rest).1 (authorityAndPath scheme rest).2
        scheme.defaultPort := by
  have colon : ':' ∉ written := not_mem_scheme lowercases rfl lowered
  have alone : ¬ "://".toList <:+: written := fun occurs => colon (occurs.subset (by simp))
  rw [normalizeRemoteUrl, splitOnce_scheme alone]
  simp only [lowered]
  cases scheme <;> simp [RemoteScheme.asStr, RemoteScheme.defaultPort, authorityAndPath]

/-- Another scheme stays. -/
theorem normalizeRemoteUrl_other (alone : ¬ "://".toList <:+: written)
    (other : ∀ scheme : RemoteScheme, toLowercase written ≠ scheme.asStr.toList) :
    ∃ rest', normalizeRemoteUrl toLowercase (written ++ "://".toList ++ rest) =
      toLowercase written ++ "://".toList ++ rest' := by
  have ssh := other .ssh
  have https := other .https
  have http := other .http
  have git := other .git
  simp only [RemoteScheme.asStr, ne_eq] at ssh https http git
  refine ⟨toLowercase (stripUserinfo (authorityOf rest)) ++ stripGitSuffix (pathOf rest), ?_⟩
  rw [normalizeRemoteUrl, splitOnce_scheme alone]
  simp only [if_neg ssh, if_neg https, if_neg http, if_neg git, List.append_assoc]

/-- An `@` is kept unless it is stripped with the user. -/
theorem count_httpsForm (lowercases : Lowercases toLowercase) {authority path : List Char}
    {defaultPort : Nat} : (httpsForm toLowercase authority path defaultPort).count '@' =
      authority.count '@' + path.count '@' := by
  have mark : isMark '@' = true := by decide
  have git : '@' ∉ ".git".toList := by simp
  have start : "https://".toList.count '@' = 0 := List.count_eq_zero.mpr (by simp)
  have stripped : (stripGitSuffix path).count '@' = path.count '@' :=
    count_stripGitSuffix (by simp) git
  have host : (stripDefaultPort (toLowercase authority) defaultPort).count '@' =
      authority.count '@' :=
    count_stripDefaultPort.trans ((lowercases.folds authority).count mark)
  unfold httpsForm
  rw [List.count_append, List.count_append, host, stripped, start, Nat.zero_add]

/-- Both parts together lose one `@` at most, that of the user. -/
theorem count_authorityAndPath {scheme : RemoteScheme} :
    (authorityAndPath scheme rest).1.count '@' + (authorityAndPath scheme rest).2.count '@' =
      if scheme = .ssh then rest.count '@' - 1
      else (authorityOf rest).count '@' - 1 + (pathOf rest).count '@' := by
  cases scheme <;> simp only [authorityAndPath, count_stripUserinfo, reduceCtorEq, if_true,
    if_false]
  rw [← List.count_append, authorityOf_append_pathOf, count_stripUserinfo]

/-- Nothing but slashes and `.git` names no host. -/
theorem authorityAndPath_of_nil {scheme : RemoteScheme}
    (empty : stripGitSuffix rest = []) :
    (authorityAndPath scheme rest).1 = [] ∨ (authorityAndPath scheme rest).1 = ".git".toList := by
  have git : '@' ∉ ".git".toList := by simp
  have absent : '@' ∉ rest := by
    rw [← List.count_eq_zero, ← count_stripGitSuffix (by simp) git, empty, List.count_nil]
  have plain : (authorityAndPath scheme rest).1 = authorityOf rest := by
    have inside : '@' ∉ authorityOf rest := fun member =>
      absent ((List.takeWhile_prefix _).subset member)
    cases scheme <;> simp only [authorityAndPath, stripUserinfo_of_not_mem absent,
      stripUserinfo_of_not_mem inside]
  rw [plain]
  exact authorityOf_of_stripGitSuffix empty

/-- What stands behind the user is a suffix. -/
theorem stripUserinfo_suffix {text : List Char} : stripUserinfo text <:+ text := by
  by_cases occurs : '@' ∈ text
  · obtain ⟨before, after, rfl, absent⟩ := List.eq_append_cons_of_mem occurs
    rw [stripUserinfo_user absent]
    exact ⟨before ++ ['@'], by simp⟩
  · rw [stripUserinfo_of_not_mem occurs]

/-- So is the path. -/
theorem path_suffix {scheme : RemoteScheme} :
    (authorityAndPath scheme rest).2 <:+ rest := by
  cases scheme with
  | ssh => exact (List.dropWhile_suffix _).trans stripUserinfo_suffix
  | _ => exact List.dropWhile_suffix _

/-- The path starts with a slash, or is empty. -/
theorem rooted_path {scheme : RemoteScheme} :
    Rooted (authorityAndPath scheme rest).2 := by
  cases scheme <;> exact rooted_pathOf

/-- No slash is in the authority. -/
theorem slash_not_mem_authority (lowercases : Lowercases toLowercase) {scheme : RemoteScheme}
    {defaultPort : Nat} : '/' ∉
      stripDefaultPort (toLowercase (authorityAndPath scheme rest).1) defaultPort := by
  have absent : '/' ∉ (authorityAndPath scheme rest).1 := by
    cases scheme with
    | ssh => exact not_mem_authorityOf
    | _ => exact fun member => not_mem_authorityOf (stripUserinfo_suffix.subset member)
  intro member
  exact absent ((lowercases.mem_iff (by decide)).mp (prefix_stripDefaultPort.subset member))

/-- A URL is not normalized to its own scheme as the host and the rest as the path. -/
theorem httpsForm_ne (lowercases : Lowercases toLowercase) (scheme : RemoteScheme)
    (rest : List Char) :
    httpsForm toLowercase (authorityAndPath scheme rest).1 (authorityAndPath scheme rest).2
        scheme.defaultPort ≠
      "https://".toList ++ (scheme.asStr.toList) ++ stripGitSuffix ('/' :: '/' :: '/' :: rest) := by
  intro same
  unfold httpsForm at same
  rw [List.append_assoc, List.append_assoc, List.append_cancel_left_eq] at same
  have letters : '/' ∉ scheme.asStr.toList := by cases scheme <;> decide
  have rooted : Rooted (stripGitSuffix (authorityAndPath scheme rest).2) := by
    rcases (rooted_path : Rooted (authorityAndPath scheme rest).2) with empty | ⟨path, starts⟩
    · rw [empty]
      exact .inl rfl
    · rw [starts]
      exact rooted_stripGitSuffix
  have hosts := congrArg authorityOf same
  have paths := congrArg pathOf same
  rw [authorityOf_append (slash_not_mem_authority lowercases) rooted,
    authorityOf_append letters rooted_stripGitSuffix] at hosts
  rw [pathOf_append (slash_not_mem_authority lowercases) rooted,
    pathOf_append letters rooted_stripGitSuffix] at paths
  by_cases empty : stripGitSuffix rest = []
  · -- The host would be empty or `.git`.
    have plain : ∀ text, (∀ char ∈ text, char.toNat < 128) → ':' ∉ text →
        stripDefaultPort (toLowercase text) scheme.defaultPort = text.map Char.toLower := by
      intro text ascii absent
      rw [stripDefaultPort_of_host, lowercases.ascii text ascii]
      intro colon
      exact absurd ((lowercases.mem_iff (by decide)).mp colon) absent
    rcases (authorityAndPath_of_nil empty : (authorityAndPath scheme rest).1 = [] ∨ _) with
      none | git
    · rw [none, plain [] (by simp) (by simp)] at hosts
      cases scheme <;> simp [RemoteScheme.asStr] at hosts
    · rw [git, plain ".git".toList (by decide) (by simp)] at hosts
      cases scheme <;> simp [RemoteScheme.asStr] at hosts
  · have long : stripGitSuffix ('/' :: '/' :: '/' :: rest) =
        '/' :: '/' :: '/' :: stripGitSuffix rest := by
      simp only [stripGitSuffix_slash, if_neg empty, List.cons_ne_nil, if_false]
    rw [long] at paths
    obtain ⟨before, whole⟩ := (path_suffix : (authorityAndPath scheme rest).2 <:+ rest)
    rcases (rooted_path : Rooted (authorityAndPath scheme rest).2) with none | ⟨path, starts⟩
    · rw [none] at paths
      cases paths
    · have kept : stripGitSuffix ('/' :: path) ≠ [] := by
        rw [← starts, paths]
        exact List.cons_ne_nil _ _
      rw [starts] at paths whole
      have lengths := congrArg List.length paths
      rw [← whole, stripGitSuffix_append_slash kept] at lengths
      simp only [List.length_cons, List.length_append] at lengths
      omega

end Urls

/-! ### The canonical form is stable -/

section Canonical

variable {toLowercase : List Char → List Char} {remote : Remote}

namespace Remote.WellFormed

/-- No slash is in a host. -/
theorem slash_not_mem (lowercases : Lowercases toLowercase)
    (wellFormed : remote.WellFormed toLowercase) : '/' ∉ toLowercase remote.host := by
  rw [lowercases.mem_iff (by decide)]
  exact wellFormed.host.1

/-- No `@` is in a host. -/
theorem at_not_mem (lowercases : Lowercases toLowercase)
    (wellFormed : remote.WellFormed toLowercase) : '@' ∉ toLowercase remote.host := by
  rw [lowercases.mem_iff (by decide)]
  exact wellFormed.host.2

/-- A folded host with a colon still ends in its bracket. -/
theorem getLast?_host (lowercases : Lowercases toLowercase)
    (wellFormed : remote.WellFormed toLowercase) (colon : ':' ∈ toLowercase remote.host) :
    (toLowercase remote.host).getLast? = some ']' := by
  rw [lowercases.mem_iff (by decide)] at colon
  obtain ⟨address, split⟩ := wellFormed.brackets colon
  have folds := lowercases.folds remote.host
  rw [split] at folds ⊢
  exact folds.getLast? (by decide)

/-- The port that is kept is a port. -/
theorem isPort_keptPort (wellFormed : remote.WellFormed toLowercase) :
    IsPort remote.keptPort := by
  rw [keptPort]
  split
  · next form =>
    split
    · exact .inl rfl
    · exact .inr ⟨_, rfl, wellFormed.port _ _ _ form⟩
  · exact .inl rfl

/-- So is the one that is written. -/
theorem isPort_portText (wellFormed : remote.WellFormed toLowercase) :
    IsPort remote.portText := by
  rw [portText]
  split
  · next form => exact .inr ⟨_, rfl, wellFormed.port _ _ _ form⟩
  · exact .inl rfl

/-- Host and port are in lower case already. -/
theorem lowercase_keptPort (lowercases : Lowercases toLowercase)
    (wellFormed : remote.WellFormed toLowercase) :
    toLowercase (toLowercase remote.host ++ remote.keptPort) =
      toLowercase remote.host ++ remote.keptPort := by
  rcases wellFormed.isPort_keptPort with empty | ⟨port, kept, digits⟩
  · rw [empty, List.append_nil, lowercases.idempotent]
  · rw [kept, lowercases.port _ _ digits, lowercases.idempotent]

/-- In a second pass the port is taken off only when it is that of https. -/
theorem stripDefaultPort_keptPort (lowercases : Lowercases toLowercase)
    (wellFormed : remote.WellFormed toLowercase) :
    stripDefaultPort (toLowercase remote.host ++ remote.keptPort) 443 =
      toLowercase remote.host ++
        if remote.keptPort = ":443".toList then [] else remote.keptPort := by
  rcases wellFormed.isPort_keptPort with empty | ⟨port, kept, digits⟩
  · rw [empty, List.append_nil, stripDefaultPort_of_host (wellFormed.getLast?_host lowercases),
      if_neg (by simp), List.append_nil]
  · rw [kept, stripDefaultPort_port digits]
    congr 1
    exact if_congr ⟨fun same => by rw [same]; rfl, fun same => (List.cons.inj same).2⟩ rfl rfl

/-- What normalizing does to the canonical form. -/
theorem normalizeRemoteUrl_canonical (lowercases : Lowercases toLowercase)
    (wellFormed : remote.WellFormed toLowercase) :
    normalizeRemoteUrl toLowercase (remote.canonical toLowercase) =
      "https://".toList ++
        (toLowercase remote.host ++ if remote.keptPort = ":443".toList then [] else
          remote.keptPort) ++
        stripGitSuffix (stripGitSuffix ('/' :: remote.path)) := by
  have https : toLowercase "https".toList = RemoteScheme.https.asStr.toList :=
    lowercases.ascii _ (by decide)
  have start : "https://".toList = "https".toList ++ "://".toList := rfl
  have slash : '/' ∉ toLowercase remote.host ++ remote.keptPort := by
    rw [List.mem_append, not_or]
    exact ⟨wellFormed.slash_not_mem lowercases, wellFormed.isPort_keptPort.not_mem (by decide) rfl⟩
  have sign : '@' ∉ toLowercase remote.host ++ remote.keptPort := by
    rw [List.mem_append, not_or]
    exact ⟨wellFormed.at_not_mem lowercases, wellFormed.isPort_keptPort.not_mem (by decide) rfl⟩
  unfold canonical
  rw [start, List.append_assoc _ _ (stripGitSuffix _), normalizeRemoteUrl_url lowercases https]
  simp only [authorityAndPath, authorityOf_append slash rooted_stripGitSuffix,
    pathOf_append slash rooted_stripGitSuffix, stripUserinfo_of_not_mem sign]
  unfold httpsForm
  rw [wellFormed.lowercase_keptPort lowercases]
  simp only [RemoteScheme.defaultPort]
  rw [wellFormed.stripDefaultPort_keptPort lowercases, start]

/-- The canonical form is stable unless a port of another scheme is the default one of
`https`, or the path still ends in a suffix. -/
theorem canonical_stable_iff (lowercases : Lowercases toLowercase)
    (wellFormed : remote.WellFormed toLowercase) :
    normalizeRemoteUrl toLowercase (remote.canonical toLowercase) =
        remote.canonical toLowercase ↔
      remote.keptPort ≠ ":443".toList ∧
        ¬ ".git".toList <:+ stripGitSuffix ('/' :: remote.path) := by
  rw [wellFormed.normalizeRemoteUrl_canonical lowercases]
  unfold canonical
  by_cases port : remote.keptPort = ":443".toList
  · have shorter : (stripGitSuffix (stripGitSuffix ('/' :: remote.path))).length ≤
        (stripGitSuffix ('/' :: remote.path)).length := stripGitSuffix_prefix.length_le
    simp only [port, if_true, ne_eq, not_true, false_and, iff_false]
    intro same
    have lengths := congrArg List.length same
    have kept : ":443".toList.length = 4 := rfl
    simp only [List.length_append, kept, List.append_nil] at lengths
    omega
  · rw [if_neg port, List.append_cancel_left_eq, stripGitSuffix_stable_iff]
    simp only [ne_eq, port, not_false_eq_true, true_and]

end Remote.WellFormed

end Canonical

/-! ### The normal form is canonical -/

section Forms

variable {toLowercase : List Char → List Char} {remote : Remote}

namespace Remote

/-- The text of a user ends with an `@`. -/
theorem count_userText : remote.userText.count '@' =
    match remote.user with
    | some user => user.count '@' + 1
    | none => 0 := by
  rw [userText]
  cases remote.user <;> simp

/-- The user is stripped when it has no `@` of its own, and what is left has none. -/
theorem stripUserinfo_userText {rest : List Char} (user : ∀ user ∈ remote.user, '@' ∉ user)
    (absent : remote.user = none → '@' ∉ rest) : stripUserinfo (remote.userText ++ rest) = rest := by
  rw [userText]
  cases isUser : remote.user with
  | none => exact stripUserinfo_of_not_mem (absent isUser)
  | some name =>
      simp only [List.append_assoc, List.singleton_append]
      exact stripUserinfo_user (user name isUser)

/-- The canonical form has the signs of the path. -/
theorem count_canonical (lowercases : Lowercases toLowercase)
    (wellFormed : remote.WellFormed toLowercase) :
    (remote.canonical toLowercase).count '@' = remote.path.count '@' := by
  have start : "https://".toList.count '@' = 0 := List.count_eq_zero.mpr (by simp)
  have git : '@' ∉ ".git".toList := by simp
  have path : (stripGitSuffix ('/' :: remote.path)).count '@' = remote.path.count '@' :=
    (count_stripGitSuffix (by simp) git).trans (by simp)
  have host : (toLowercase remote.host).count '@' = 0 :=
    List.count_eq_zero.mpr (wellFormed.at_not_mem lowercases)
  have port : remote.keptPort.count '@' = 0 :=
    List.count_eq_zero.mpr (wellFormed.isPort_keptPort.not_mem (by decide) rfl)
  unfold canonical
  rw [List.count_append, List.count_append, List.count_append, start, path, host, port]
  omega

namespace WellFormed

/-- No slash is in it. -/
theorem not_mem_userText (wellFormed : remote.WellFormed toLowercase) : '/' ∉ remote.userText := by
  rw [userText]
  cases isUser : remote.user with
  | none => exact List.not_mem_nil
  | some user => simpa using wellFormed.user user isUser

/-- The default port goes, another is kept. -/
theorem stripDefaultPort_portText (lowercases : Lowercases toLowercase)
    (wellFormed : remote.WellFormed toLowercase) {scheme : RemoteScheme} {written : List Char}
    {port : Option (List Char)} (form : remote.form = .url scheme written port) :
    stripDefaultPort (toLowercase (remote.host ++ remote.portText)) scheme.defaultPort =
      toLowercase remote.host ++ remote.keptPort := by
  rw [portText, keptPort, form]
  cases port with
  | none =>
      simp only [List.append_nil]
      exact stripDefaultPort_of_host (wellFormed.getLast?_host lowercases)
  | some port =>
      have digits := wellFormed.port _ _ _ form
      simp only
      rw [lowercases.port _ _ digits, stripDefaultPort_port digits]

/-- The normal form of a URL is canonical when it strips the user and nothing else. -/
theorem normalizeRemoteUrl_url_iff (lowercases : Lowercases toLowercase)
    (wellFormed : remote.WellFormed toLowercase) {scheme : RemoteScheme} {written : List Char}
    {port : Option (List Char)} (form : remote.form = .url scheme written port) :
    normalizeRemoteUrl toLowercase remote.text = remote.canonical toLowercase ↔
      (∀ user ∈ remote.user, '@' ∉ user) ∧
        (remote.user = none → remote.CutsUserFirst → '@' ∉ remote.path) := by
  have text : remote.text = written ++ "://".toList ++
      ((remote.userText ++ (remote.host ++ remote.portText)) ++ '/' :: remote.path) := by
    rw [Remote.text, form]
    simp only [List.append_assoc]
  have host : '@' ∉ remote.host ++ remote.portText := by
    rw [List.mem_append, not_or]
    exact ⟨wellFormed.host.2, wellFormed.isPort_portText.not_mem (by decide) rfl⟩
  have authority : '/' ∉ remote.userText ++ (remote.host ++ remote.portText) := by
    simp only [List.mem_append, not_or]
    exact ⟨wellFormed.not_mem_userText, wellFormed.host.1,
      wellFormed.isPort_portText.not_mem (by decide) rfl⟩
  have bare : '/' ∉ remote.host ++ remote.portText := fun member =>
    authority (List.mem_append_right _ member)
  have rooted : Rooted ('/' :: remote.path) := .inr ⟨_, rfl⟩
  rw [text, normalizeRemoteUrl_url lowercases (wellFormed.scheme _ _ _ form)]
  constructor
  · intro same
    have counts := congrArg (List.count '@') same
    have clean := List.count_eq_zero.mpr host
    rw [count_httpsForm lowercases, count_authorityAndPath, count_canonical lowercases wellFormed,
      authorityOf_append authority rooted, pathOf_append authority rooted, List.count_append,
      List.count_append, clean, List.count_cons_of_ne (by decide), count_userText] at counts
    cases isUser : remote.user with
    | none =>
        refine ⟨fun user member => (by simp at member), fun _ cuts => ?_⟩
        rw [CutsUserFirst, form] at cuts
        rw [isUser, if_pos cuts] at counts
        dsimp only at counts
        rw [← List.count_eq_zero]
        omega
    | some user =>
        refine ⟨fun user' member => ?_, fun none => by cases none⟩
        obtain rfl := Option.some.inj member
        rw [isUser] at counts
        rw [← List.count_eq_zero]
        split at counts <;> dsimp only at counts <;> omega
  · rintro ⟨user, path⟩
    have split : authorityAndPath scheme
        (remote.userText ++ (remote.host ++ remote.portText) ++ '/' :: remote.path) =
          (remote.host ++ remote.portText, '/' :: remote.path) := by
      by_cases ssh : scheme = .ssh
      · subst ssh
        have absent : remote.user = none →
            '@' ∉ (remote.host ++ remote.portText) ++ '/' :: remote.path := by
          intro none
          have cuts : remote.CutsUserFirst := by rw [CutsUserFirst, form]
          rw [List.mem_append, List.mem_cons, not_or, not_or]
          exact ⟨host, by decide, path none cuts⟩
        rw [authorityAndPath, List.append_assoc, stripUserinfo_userText user absent,
          authorityOf_append bare rooted, pathOf_append bare rooted]
      · have plain : authorityAndPath scheme
            (remote.userText ++ (remote.host ++ remote.portText) ++ '/' :: remote.path) =
              (stripUserinfo (remote.userText ++ (remote.host ++ remote.portText)),
                '/' :: remote.path) := by
          cases scheme <;> simp_all only [authorityAndPath, authorityOf_append authority rooted,
            pathOf_append authority rooted, reduceCtorEq, not_true]
        rw [plain, stripUserinfo_userText user fun _ => host]
    rw [split]
    unfold httpsForm canonical
    rw [wellFormed.stripDefaultPort_portText lowercases form]

/-- The scp form has no port. -/
theorem keptPort_scp (form : remote.form = .scp) : remote.keptPort = [] := by
  rw [keptPort, form]

/-- The normal form of what is no URL: the user and then the host are cut off. -/
theorem normalizeRemoteUrl_scp {text : List Char} (plain : ¬ "://".toList <:+: text) :
    normalizeRemoteUrl toLowercase text =
      match splitOnce [':'] (stripUserinfo text) with
      | some (host, path) =>
          "https://".toList ++ toLowercase host ++ '/' :: stripGitSuffix path
      | none => text := by
  have alone : splitOnce "://".toList text = none := by
    cases split : splitOnce "://".toList text with
    | none => rfl
    | some parts => exact absurd ⟨parts.1, parts.2, (of_splitOnce split).symm⟩ plain
  cases split : splitOnce [':'] (stripUserinfo text) <;>
    simp only [normalizeRemoteUrl, alone, split]

/-- The signs that the normal form keeps in the scp form. -/
theorem count_of_scp (lowercases : Lowercases toLowercase)
    (wellFormed : remote.WellFormed toLowercase) {text : List Char}
    (plain : ¬ "://".toList <:+: text)
    (same : normalizeRemoteUrl toLowercase text = remote.canonical toLowercase) :
    text.count '@' - 1 = remote.path.count '@' := by
  rw [← count_canonical lowercases wellFormed, ← same, normalizeRemoteUrl_scp plain]
  rw [normalizeRemoteUrl_scp plain] at same
  cases split : splitOnce [':'] (stripUserinfo text) with
  | none =>
      rw [split] at same
      refine absurd ?_ plain
      dsimp only at same
      rw [same]
      exact ⟨"https".toList, _, by unfold canonical; rw [List.append_assoc]; rfl⟩
  | some parts =>
      have mark : isMark '@' = true := by decide
      have git : '@' ∉ ".git".toList := by simp
      have start : "https://".toList.count '@' = 0 := List.count_eq_zero.mpr (by simp)
      have path : (stripGitSuffix parts.2).count '@' = parts.2.count '@' :=
        count_stripGitSuffix (by simp) git
      have whole := of_splitOnce split
      have counts : (stripUserinfo text).count '@' = text.count '@' - 1 := count_stripUserinfo
      rw [whole, List.count_append, List.count_append, List.count_singleton] at counts
      dsimp only
      rw [List.count_append, List.count_append, start, (lowercases.folds parts.1).count mark,
        List.count_cons_of_ne (by decide), path, ← counts]
      simp

/-- Its user ends at the `@`, when no other comes before the path. -/
theorem stripUserinfo_scp (wellFormed : remote.WellFormed toLowercase)
    (user : ∀ user ∈ remote.user, '@' ∉ user) (path : remote.user = none → '@' ∉ remote.path) :
    stripUserinfo (remote.userText ++ (remote.host ++ ':' :: remote.path)) =
      remote.host ++ ':' :: remote.path := by
  refine stripUserinfo_userText user fun none => ?_
  rw [List.mem_append, List.mem_cons, not_or, not_or]
  exact ⟨wellFormed.host.2, by decide, path none⟩

/-- In the scp form the host also ends at the first colon, and a slash is written after it. -/
theorem normalizeRemoteUrl_scp_iff (lowercases : Lowercases toLowercase)
    (wellFormed : remote.WellFormed toLowercase) (form : remote.form = .scp)
    (plain : ¬ "://".toList <:+: remote.text) :
    normalizeRemoteUrl toLowercase remote.text = remote.canonical toLowercase ↔
      (∀ user ∈ remote.user, '@' ∉ user) ∧
        (remote.user = none → remote.CutsUserFirst → '@' ∉ remote.path) ∧
        ':' ∉ remote.host ∧ stripGitSuffix remote.path ≠ [] := by
  have text : remote.text = remote.userText ++ (remote.host ++ ':' :: remote.path) := by
    rw [Remote.text, form]
    simp only [List.append_assoc]
  have cuts : remote.CutsUserFirst := by
    rw [CutsUserFirst, form]
    trivial
  have host : (toLowercase remote.host ++ remote.keptPort) = toLowercase remote.host := by
    rw [keptPort_scp form, List.append_nil]
  constructor
  · intro same
    have counts := count_of_scp lowercases wellFormed plain same
    have clean := List.count_eq_zero.mpr wellFormed.host.2
    rw [text, List.count_append, List.count_append, clean, List.count_cons_of_ne (by decide),
      count_userText] at counts
    have user : ∀ user ∈ remote.user, '@' ∉ user := by
      intro user member
      rw [Option.mem_def.mp member] at counts
      dsimp only at counts
      rw [← List.count_eq_zero]
      omega
    have path : remote.user = none → '@' ∉ remote.path := by
      intro none
      rw [none] at counts
      dsimp only at counts
      rw [← List.count_eq_zero]
      omega
    rw [normalizeRemoteUrl_scp plain, text, wellFormed.stripUserinfo_scp user path] at same
    unfold canonical at same
    rw [host] at same
    by_cases colon : ':' ∈ remote.host
    · -- The host is cut at its own colon.
      exfalso
      obtain ⟨before, after, split, absent⟩ := List.eq_append_cons_of_mem colon
      have slash : '/' ∉ toLowercase before := by
        rw [lowercases.mem_iff (by decide)]
        exact fun member => wellFormed.host.1 (split ▸ List.mem_append_left _ member)
      rw [split, List.append_assoc, List.cons_append, splitOnce_append_cons absent] at same
      dsimp only at same
      rw [List.append_assoc, List.append_assoc, List.append_cancel_left_eq, ← split] at same
      have hosts := congrArg authorityOf same
      rw [authorityOf_append slash (.inr ⟨_, rfl⟩),
        authorityOf_append (wellFormed.slash_not_mem lowercases) rooted_stripGitSuffix] at hosts
      refine absent ((lowercases.mem_iff (by decide)).mp ?_)
      rw [hosts, lowercases.mem_iff (by decide)]
      exact colon
    · rw [splitOnce_append_cons colon] at same
      dsimp only at same
      rw [List.append_cancel_left_eq, stripGitSuffix_slash] at same
      refine ⟨user, fun none _ => path none, colon, fun empty => ?_⟩
      rw [if_pos empty] at same
      cases same
  · rintro ⟨user, path, colon, some⟩
    rw [normalizeRemoteUrl_scp plain, text,
      wellFormed.stripUserinfo_scp user fun none => path none cuts, splitOnce_append_cons colon]
    unfold canonical
    rw [host, stripGitSuffix_slash, if_neg some]

/-- The scp form with `://` is a URL with the host as its scheme. -/
theorem scheme_of_scp (wellFormed : remote.WellFormed toLowercase) (form : remote.form = .scp)
    {written rest : List Char} (split : remote.text = written ++ "://".toList ++ rest)
    (colon : ':' ∉ written) (sign : '@' ∉ written) :
    remote.host = written ∧ remote.path = '/' :: '/' :: rest := by
  have text : remote.userText ++ remote.host ++ ':' :: remote.path =
      written ++ ':' :: '/' :: '/' :: rest := by
    rw [Remote.text, form] at split
    simpa using split
  have slash : '/' ∉ remote.userText ++ remote.host := by
    rw [List.mem_append, not_or]
    exact ⟨wellFormed.not_mem_userText, wellFormed.host.1⟩
  have front : remote.userText ++ remote.host = written ∧ remote.path = '/' :: '/' :: rest := by
    rcases List.append_eq_append_iff.mp text with ⟨more, whole, later⟩ | ⟨more, whole, later⟩
    · cases more with
      | nil =>
          rw [List.append_nil] at whole
          exact ⟨whole.symm, (List.cons.inj later).2⟩
      | cons head more =>
          obtain ⟨rfl, -⟩ := List.cons.inj later
          exact absurd (whole ▸ List.mem_append_right _ List.mem_cons_self) colon
    · cases more with
      | nil =>
          rw [List.append_nil] at whole
          exact ⟨whole, (List.cons.inj later).2.symm⟩
      | cons head more =>
          obtain ⟨-, later⟩ := List.cons.inj later
          refine absurd (whole ▸ List.mem_append_right _ ?_) slash
          cases more with
          | nil => cases later
          | cons head' more =>
              obtain ⟨rfl, -⟩ := List.cons.inj later
              simp
  refine ⟨?_, front.2⟩
  have noUser : remote.userText = [] := by
    rw [userText]
    cases isUser : remote.user with
    | none => rfl
    | some user =>
        refine absurd ?_ sign
        rw [← front.1, userText, isUser]
        simp
  rw [← front.1, noUser, List.nil_append]

/-- The scp form with `://` is not normalized as a remote: another scheme stays, and a known one
takes its host from the path. -/
theorem normalizeRemoteUrl_ne_of_url (lowercases : Lowercases toLowercase)
    (wellFormed : remote.WellFormed toLowercase) (form : remote.form = .scp)
    (occurs : "://".toList <:+: remote.text) :
    normalizeRemoteUrl toLowercase remote.text ≠ remote.canonical toLowercase := by
  obtain ⟨⟨written, rest⟩, split⟩ := Option.ne_none_iff_exists'.mp (splitOnce_ne_none occurs)
  have whole := of_splitOnce split
  have alone : ¬ "://".toList <:+: written := by
    rintro ⟨before, after, rfl⟩
    rw [List.append_assoc] at split
    refine splitOnce_first split (by simp) ?_
    rw [List.append_assoc, List.append_assoc]
    exact List.prefix_append _ _
  rw [whole]
  intro same
  by_cases known : ∃ scheme : RemoteScheme, toLowercase written = scheme.asStr.toList
  · obtain ⟨scheme, lowered⟩ := known
    obtain ⟨host, path⟩ := wellFormed.scheme_of_scp form whole
      (not_mem_scheme lowercases (by decide) lowered) (not_mem_scheme lowercases (by decide) lowered)
    rw [normalizeRemoteUrl_url lowercases lowered] at same
    refine httpsForm_ne lowercases scheme rest (same.trans ?_)
    unfold Remote.canonical
    rw [keptPort_scp form, List.append_nil, host, path, lowered]
  · push Not at known
    obtain ⟨rest', other⟩ := normalizeRemoteUrl_other alone known
    rw [other] at same
    have scheme := congrArg (splitOnce "://".toList) same
    have lowerAlone : ¬ "://".toList <:+: toLowercase written := fun inside =>
      alone ((lowercases.folds written).mark_occurs inside)
    have https : ¬ "://".toList <:+: "https".toList := by decide
    have canonical : remote.canonical toLowercase = "https".toList ++ "://".toList ++
        (toLowercase remote.host ++ remote.keptPort ++ stripGitSuffix ('/' :: remote.path)) := by
      unfold Remote.canonical
      rw [← List.append_assoc]
      rfl
    rw [canonical, splitOnce_scheme lowerAlone, splitOnce_scheme https, Option.some.injEq,
      Prod.mk.injEq] at scheme
    exact known .https scheme.1

end WellFormed

end Remote

end Forms

/-- A remote is normalized to its canonical form, and that to itself, exactly when it is
settled. -/
theorem normalizes_iff_settled {toLowercase : List Char → List Char}
    (lowercases : Lowercases toLowercase) (remote : Remote)
    (wellFormed : remote.WellFormed toLowercase) :
    remote.Normalizes toLowercase ↔ remote.Settled := by
  have stable : ∀ same : normalizeRemoteUrl toLowercase remote.text = remote.canonical toLowercase,
      normalizeRemoteUrl toLowercase (normalizeRemoteUrl toLowercase remote.text) =
        normalizeRemoteUrl toLowercase remote.text ↔
      remote.keptPort ≠ ":443".toList ∧
        ¬ ".git".toList <:+ stripGitSuffix ('/' :: remote.path) := by
    intro same
    rw [same]
    exact wellFormed.canonical_stable_iff lowercases
  cases form : remote.form with
  | url scheme written port =>
      have canonical := wellFormed.normalizeRemoteUrl_url_iff lowercases form
      constructor
      · rintro ⟨same, again⟩
        obtain ⟨user, path⟩ := canonical.mp same
        obtain ⟨port, suffix⟩ := (stable same).mp again
        exact ⟨user, path, port, suffix, fun scp => by rw [form] at scp; cases scp⟩
      · intro settled
        have same := canonical.mpr ⟨settled.user, settled.path⟩
        exact ⟨same, (stable same).mpr ⟨settled.port, settled.suffix⟩⟩
  | scp =>
      constructor
      · rintro ⟨same, again⟩
        have plain : ¬ "://".toList <:+: remote.text := fun occurs =>
          wellFormed.normalizeRemoteUrl_ne_of_url lowercases form occurs same
        obtain ⟨user, path, colon, some⟩ :=
          (wellFormed.normalizeRemoteUrl_scp_iff lowercases form plain).mp same
        obtain ⟨port, suffix⟩ := (stable same).mp again
        exact ⟨user, path, port, suffix, fun _ => ⟨colon, plain, some⟩⟩
      · intro settled
        obtain ⟨colon, plain, some⟩ := settled.scp form
        have same := (wellFormed.normalizeRemoteUrl_scp_iff lowercases form plain).mpr
          ⟨settled.user, settled.path, colon, some⟩
        exact ⟨same, (stable same).mpr ⟨settled.port, settled.suffix⟩⟩

/-- `git@GitHub.com:owner/repo.git`, whose path has no `@`. -/
def scpRemote : Remote where
  form := .scp
  user := some "git".toList
  host := "GitHub.com".toList
  path := "owner/repo.git".toList

/-- The equivalence at a remote of the scp form. -/
theorem scpRemote_normalizes :
    scpRemote.Normalizes (List.map Char.toLower) ↔ scpRemote.Settled :=
  normalizes_iff_settled lowercases_toLower scpRemote
    { user := by decide
      host := by decide
      brackets := fun colon => absurd colon (by decide)
      port := fun _ _ _ form => by cases form
      scheme := fun _ _ _ form => by cases form }

/-- `ssh://code.example/team@evil.example/repo`, a remote without a user. -/
def atInPath : Remote where
  form := .url .ssh "ssh".toList none
  user := none
  host := "code.example".toList
  path := "team@evil.example/repo".toList

/-- The host is taken from the path. -/
theorem atInPath_not_normalizes : atInPath.WellFormed (List.map Char.toLower) ∧
    normalizeRemoteUrl (List.map Char.toLower) atInPath.text =
      "https://evil.example/repo".toList ∧
    ¬ atInPath.Normalizes (List.map Char.toLower) := by
  have normalized : normalizeRemoteUrl (List.map Char.toLower) atInPath.text =
      "https://evil.example/repo".toList := by decide
  refine ⟨?_, normalized, fun normalizes => ?_⟩
  · exact
      { user := by decide
        host := by decide
        brackets := fun colon => absurd colon (by decide)
        port := fun scheme written port form => by cases form
        scheme := fun scheme written port form => by cases form; rfl }
  · have canonical : atInPath.canonical (List.map Char.toLower) =
        "https://code.example/team@evil.example/repo".toList := by decide
    have same := normalizes.1
    rw [normalized, canonical] at same
    revert same
    decide

end Egregore
