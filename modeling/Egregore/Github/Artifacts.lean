import Egregore.Base.Supersede
import Egregore.Github.Import

/-!
# Artifacts of pull requests and reviews

The records that an import retracts when they are superseded, which resource each is an artifact
of, and that its ID shows it. `Slot.Artifact.stem` gives the part of a hashed text that names the
resource, and `Slot.HasStem.unique` that it names one.
-/

namespace Egregore.Github

open Base

/-- What the state keeps the artifact IDs of. -/
inductive Slot where
  /-- The merge edge or diagnostic of a pull request. -/
  | merge (number : Nat)
  /-- The edges to the reviewers that a pull request requests. -/
  | requests (number : Nat)
  /-- The diagnostics of the teams that a pull request requests. -/
  | teams (number : Nat)
  /-- The anchor of a review comment. -/
  | comment (id : Nat)
  /-- The anchor of a review. -/
  | review (number id : Nat)
  deriving DecidableEq, Repr

section Families

variable (blake3 : String → String) (repo : String)

/-- The ID is of an anchor of a review, or of a diagnostic that it has none. -/
def IsAnchor (reviewId id : String) : Prop :=
  (∃ commitId, id = projectEdgeId blake3 .reviewsCommit reviewId commitId) ∨
    ∃ code sha, (code = "github_review_unanchored" ∨ code = "github_commit_unresolved") ∧
      id = reviewDiagnosticId blake3 reviewId code sha

/-- The ID is of an artifact of a slot. -/
def Slot.Artifact : Slot → String → Prop
  | .merge number, id =>
      (∃ commitId, id = projectEdgeId blake3 .mergedAs (prTaskId blake3 repo number) commitId) ∨
        ∃ sha, id = commitDiagnosticId blake3 repo number sha
  | .requests number, id =>
      ∃ identity, id = projectEdgeId blake3 .requestedReviewFrom (prTaskId blake3 repo number) identity
  | .teams number, id => ∃ slug, id = teamReviewDiagnosticId blake3 repo number slug
  | .comment commentId, id =>
      ∃ number, IsAnchor blake3
        (reviewRecordId blake3 repo (reviewNativeId "pr_review_comment" number commentId)) id
  | .review number reviewId, id =>
      IsAnchor blake3 (reviewRecordId blake3 repo (reviewNativeId "pr_review" number reviewId)) id

end Families

section Segments

/-- A text without a NUL. -/
def Unbroken (text : String) : Prop := '\x00' ∉ text.toList

instance (text : String) : Decidable (Unbroken text) := inferInstanceAs (Decidable (_ ∉ _))

/-- The parts of a hashed text, as far as the NULs tell them. -/
def segments (text : String) : List String :=
  (text.toList.splitOn '\x00').map String.ofList

/-- Two texts without a separator make one. -/
@[simp] theorem unbroken_append {text rest : String} :
    Unbroken (text ++ rest) ↔ Unbroken text ∧ Unbroken rest := by
  simp [Unbroken]

/-- A number is without one. -/
@[simp] theorem unbroken_toString (number : Nat) : Unbroken (toString number) := by
  intro member
  rw [toList_toString] at member
  have digit := Nat.isDigit_of_mem_toDigits (by decide) (by decide) member
  exact absurd digit (by decide)

/-- So is a label. -/
theorem unbroken_asStr (label : EdgeLabel) : Unbroken label.asStr := by
  unfold Unbroken
  cases label <;> decide

/-- The hashed text joins the parts with a separator. -/
theorem hashedParts_cons (part : String) (parts : List String) :
    hashedParts (part :: parts) = part ++ "\x00" ++ hashedParts parts := by
  rw [hashedParts, List.map_cons, String.join_cons]
  rfl

/-- So an unbroken part is its first segment. -/
theorem segments_hashedParts_cons {part : String} (unbroken : Unbroken part) (parts : List String) :
    segments (hashedParts (part :: parts)) = part :: segments (hashedParts parts) := by
  have mark : "\x00".toList = ['\x00'] := rfl
  rw [hashedParts_cons, segments, String.toList_append, String.toList_append, mark,
    List.append_assoc, List.singleton_append, List.splitOn_append_cons_self_of_not_mem unbroken,
    List.map_cons, String.ofList_toList]
  rfl

end Segments

section Stems

/-- What an ID says about the resource that its record is an artifact of: the label and source of
an edge, or the code and the owner of a diagnostic. -/
def stem : List String → List String
  | _ :: kind :: third :: fourth :: fifth :: rest =>
      if kind = "edge" then [third, fourth]
      else if kind = "Diagnostic" then
        if fifth = "github_review_unanchored" ∨ fifth = "github_commit_unresolved" then [fifth, fourth]
        else [rest.headD "", fourth, fifth]
      else []
  | _ => []

/-- The stem of an ID of some parts. -/
def stemOf (parts : List String) : List String := stem (segments (hashedParts parts))

/-- Every text has a segment. -/
theorem segments_ne_nil (text : String) : segments text ≠ [] := by
  simp [segments, List.splitOn_ne_nil]

/-- The stem of an edge is its label and its source. -/
theorem stemOf_edge (label : EdgeLabel) {source : String} (unbroken : Unbroken source)
    (target : String) :
    stemOf ["project", "edge", label.asStr, source, target] = [label.asStr, source] := by
  rw [stemOf, segments_hashedParts_cons (by decide), segments_hashedParts_cons (by decide),
    segments_hashedParts_cons (unbroken_asStr label), segments_hashedParts_cons unbroken]
  cases last : segments (hashedParts [target]) with
  | nil => exact absurd last (segments_ne_nil _)
  | cons first rest => simp [stem]

/-- A diagnostic about a record, with its code and what it is about. -/
theorem stemOf_diagnostic {owner code : String} (ownerUnbroken : Unbroken owner)
    (codeUnbroken : Unbroken code) (subject : List String) :
    stemOf ("project" :: "Diagnostic" :: importerId :: owner :: code :: subject) =
      if code = "github_review_unanchored" ∨ code = "github_commit_unresolved" then [code, owner]
      else [(segments (hashedParts subject)).headD "", owner, code] := by
  rw [stemOf, segments_hashedParts_cons (by decide), segments_hashedParts_cons (by decide),
    segments_hashedParts_cons (by decide), segments_hashedParts_cons ownerUnbroken,
    segments_hashedParts_cons codeUnbroken]
  simp [stem]

/-- A record that is neither an edge nor a diagnostic. -/
theorem stemOf_other {kind : String} (unbroken : Unbroken kind) (isEdge : kind ≠ "edge")
    (isDiagnostic : kind ≠ "Diagnostic") (parts : List String) :
    stemOf ("project" :: kind :: parts) = [] := by
  rw [stemOf, segments_hashedParts_cons (by decide), segments_hashedParts_cons unbroken]
  rcases segments (hashedParts parts) with _ | ⟨third, _ | ⟨fourth, _ | ⟨fifth, rest⟩⟩⟩ <;>
    simp [stem, isEdge, isDiagnostic]

variable {blake3 : String → String} {repo : String}

/-- An ID determines the text it hashes. -/
theorem hashedParts_of_projectStableId (injective : Function.Injective blake3)
    {parts others : List String}
    (same : projectStableId blake3 parts = projectStableId blake3 others) :
    hashedParts parts = hashedParts others := by
  rw [projectStableId, projectStableId, String.append_right_inj] at same
  exact injective same

/-- An ID is without a separator. -/
theorem unbroken_projectStableId (unbroken : ∀ text, Unbroken (blake3 text)) (parts : List String) :
    Unbroken (projectStableId blake3 parts) := by
  rw [projectStableId, unbroken_append, unbroken_append, unbroken_append]
  exact ⟨⟨⟨by decide, unbroken_toString _⟩, by decide⟩, unbroken _⟩

/-- Equal texts have equal parts, as long as the parts hold no NUL. -/
theorem hashedParts_cons_inj {part other : String} (unbroken : Unbroken part)
    (unbroken' : Unbroken other) {parts others : List String}
    (same : hashedParts (part :: parts) = hashedParts (other :: others)) :
    part = other ∧ hashedParts parts = hashedParts others := by
  have firsts := congrArg segments same
  rw [segments_hashedParts_cons unbroken, segments_hashedParts_cons unbroken',
    List.cons.injEq] at firsts
  obtain ⟨rfl, -⟩ := firsts
  rw [hashedParts_cons, hashedParts_cons, String.append_right_inj] at same
  exact ⟨rfl, same⟩

end Stems

section Owners

variable {blake3 : String → String} {repo : String}

/-- The task of a pull request tells its number. -/
theorem prTaskId_inj (injective : Function.Injective blake3) (unbroken : Unbroken repo)
    {number other : Nat} :
    prTaskId blake3 repo number = prTaskId blake3 repo other ↔ number = other := by
  constructor
  · intro same
    have texts := hashedParts_of_projectStableId injective same
    have tails := (hashedParts_cons_inj (by decide) (by decide) texts).2
    have tails := (hashedParts_cons_inj (by decide) (by decide) tails).2
    have tails := (hashedParts_cons_inj unbroken unbroken tails).2
    exact toString_injective
      (hashedParts_cons_inj (unbroken_toString _) (unbroken_toString _) tails).1
  · rintro rfl
    rfl

/-- The native ID of a review joins its kind and its numbers with colons. -/
theorem toList_reviewNativeId (reviewKind : String) (number id : Nat) :
    (reviewNativeId reviewKind number id).toList =
      reviewKind.toList ++ ':' :: ((toString number).toList ++ ':' :: (toString id).toList) := by
  simp [reviewNativeId]

/-- No number holds a colon. -/
theorem colon_not_mem_toString (number : Nat) : ':' ∉ (toString number).toList := by
  intro member
  rw [toList_toString] at member
  have digit := Nat.isDigit_of_mem_toDigits (by decide) (by decide) member
  exact absurd digit (by decide)

/-- The number of a review is read back from its native ID. -/
theorem reviewRecordId_reviewNativeId {reviewKind : String} (plain : ':' ∉ reviewKind.toList)
    (number id : Nat) :
    reviewRecordId blake3 repo (reviewNativeId reviewKind number id) =
      projectStableId blake3
        ["project", "Review", repo, toString number, reviewNativeId reviewKind number id] := by
  have split : ((reviewNativeId reviewKind number id).toList.splitOn ':')[1]? =
      some (toString number).toList := by
    rw [toList_reviewNativeId, List.splitOn_append_cons_self_of_not_mem plain,
      List.splitOn_append_cons_self_of_not_mem (colon_not_mem_toString number)]
    rfl
  rw [reviewRecordId, split, Option.elim_some, String.ofList_toList]

/-- So a native ID tells the kind and the numbers. -/
theorem reviewNativeId_inj {reviewKind otherKind : String} (plain : ':' ∉ reviewKind.toList)
    (plain' : ':' ∉ otherKind.toList) {number other id otherId : Nat}
    (same : reviewNativeId reviewKind number id = reviewNativeId otherKind other otherId) :
    reviewKind = otherKind ∧ number = other ∧ id = otherId := by
  have parts := congrArg (fun text : String => text.toList.splitOn ':') same
  simp only [toList_reviewNativeId, List.splitOn_append_cons_self_of_not_mem plain,
    List.splitOn_append_cons_self_of_not_mem plain',
    List.splitOn_append_cons_self_of_not_mem (colon_not_mem_toString _),
    List.splitOn_eq_singleton (colon_not_mem_toString _), List.cons.injEq, String.toList_inj,
    and_true] at parts
  exact ⟨parts.1, toString_injective parts.2.1, toString_injective parts.2.2⟩

/-- The ID of a review tells its kind, its pull request and its number. -/
theorem reviewRecordId_inj (injective : Function.Injective blake3) (unbroken : Unbroken repo)
    {reviewKind otherKind : String} (plain : ':' ∉ reviewKind.toList) (plain' : ':' ∉ otherKind.toList)
    (unbrokenKind : Unbroken reviewKind) (unbrokenOther : Unbroken otherKind)
    {number other id otherId : Nat}
    (same : reviewRecordId blake3 repo (reviewNativeId reviewKind number id) =
      reviewRecordId blake3 repo (reviewNativeId otherKind other otherId)) :
    reviewKind = otherKind ∧ number = other ∧ id = otherId := by
  rw [reviewRecordId_reviewNativeId plain, reviewRecordId_reviewNativeId plain'] at same
  have texts := hashedParts_of_projectStableId injective same
  have tails := (hashedParts_cons_inj (by decide) (by decide) texts).2
  have tails := (hashedParts_cons_inj (by decide) (by decide) tails).2
  have tails := (hashedParts_cons_inj unbroken unbroken tails).2
  have tails := (hashedParts_cons_inj (unbroken_toString _) (unbroken_toString _) tails).2
  have unbrokenNative : ∀ {kind : String} (number id : Nat), Unbroken kind →
      Unbroken (reviewNativeId kind number id) := by
    intro kind number id plainKind
    simp only [reviewNativeId, unbroken_append, unbroken_toString, and_true]
    exact ⟨⟨plainKind, by decide⟩, by decide⟩
  exact reviewNativeId_inj plain plain'
    (hashedParts_cons_inj (unbrokenNative _ _ unbrokenKind) (unbrokenNative _ _ unbrokenOther)
      tails).1

/-- The stems of the artifacts of a slot. -/
def Slot.HasStem (blake3 : String → String) (repo : String) : Slot → List String → Prop
  | .merge number, stem =>
      stem = ["MERGED_AS", prTaskId blake3 repo number] ∨
        stem = ["github_commit_unresolved", repo, "pr:" ++ toString number]
  | .requests number, stem => stem = ["REQUESTED_REVIEW_FROM", prTaskId blake3 repo number]
  | .teams number, stem =>
      stem = ["github_team_review_request_unexpanded", repo, "pr:" ++ toString number]
  | .comment commentId, stem =>
      ∃ number code, (code = "REVIEWS_COMMIT" ∨ code = "github_review_unanchored" ∨
        code = "github_commit_unresolved") ∧
        stem = [code, reviewRecordId blake3 repo (reviewNativeId "pr_review_comment" number commentId)]
  | .review number reviewId, stem =>
      ∃ code, (code = "REVIEWS_COMMIT" ∨ code = "github_review_unanchored" ∨
        code = "github_commit_unresolved") ∧
        stem = [code, reviewRecordId blake3 repo (reviewNativeId "pr_review" number reviewId)]

/-- No two slots have an artifact stem in common. -/
theorem Slot.HasStem.unique (injective : Function.Injective blake3) (unbroken : Unbroken repo)
    {slot other : Slot} {stem : List String} (has : slot.HasStem blake3 repo stem)
    (has' : other.HasStem blake3 repo stem) : slot = other := by
  have tasks : ∀ number other, prTaskId blake3 repo number = prTaskId blake3 repo other ↔
      number = other := fun _ _ => prTaskId_inj injective unbroken
  have numbers : ∀ number other : Nat, toString number = toString other ↔ number = other :=
    fun _ _ => ⟨toString_injective, congrArg _⟩
  cases slot with
  | merge number =>
      rcases has with rfl | rfl <;> cases other <;>
        simp_all [Slot.HasStem]
  | requests number =>
      subst has
      cases other <;> simp_all [Slot.HasStem]
  | teams number =>
      subst has
      cases other <;> simp_all [Slot.HasStem]
  | comment commentId =>
      obtain ⟨number, code, codes, rfl⟩ := has
      cases other with
      | comment otherId =>
          obtain ⟨other, otherCode, -, same⟩ := has'
          simp only [List.cons.injEq, and_true] at same
          rw [(reviewRecordId_inj injective unbroken (by decide) (by decide) (by decide) (by decide)
            same.2).2.2]
      | review other otherId =>
          obtain ⟨otherCode, -, same⟩ := has'
          simp only [List.cons.injEq, and_true] at same
          have kinds := (reviewRecordId_inj injective unbroken (by decide) (by decide) (by decide)
            (by decide) same.2).1
          simp at kinds
      | _ => rcases codes with rfl | rfl | rfl <;> simp [Slot.HasStem] at has'
  | review number reviewId =>
      obtain ⟨code, codes, rfl⟩ := has
      cases other with
      | comment otherId =>
          obtain ⟨other, otherCode, -, same⟩ := has'
          simp only [List.cons.injEq, and_true] at same
          have kinds := (reviewRecordId_inj injective unbroken (by decide) (by decide) (by decide)
            (by decide) same.2).1
          simp at kinds
      | review other otherId =>
          obtain ⟨otherCode, -, same⟩ := has'
          simp only [List.cons.injEq, and_true] at same
          obtain ⟨-, rfl, rfl⟩ := reviewRecordId_inj injective unbroken (by decide) (by decide)
            (by decide) (by decide) same.2
          rfl
      | _ => rcases codes with rfl | rfl | rfl <;> simp [Slot.HasStem] at has'

/-- The stem of a diagnostic on a review is its code and the review. -/
theorem stemOf_reviewDiagnostic {reviewId code : String} (unbroken : Unbroken reviewId)
    (anchors : code = "github_review_unanchored" ∨ code = "github_commit_unresolved") (sha : String) :
    stemOf ["project", "Diagnostic", importerId, reviewId, code, sha] = [code, reviewId] := by
  have unbrokenCode : Unbroken code := by
    rcases anchors with rfl | rfl <;> decide
  rw [stemOf_diagnostic unbroken unbrokenCode, if_pos anchors]

/-- An anchor of a record has that record in its stem. -/
theorem IsAnchor.stem (unbroken : ∀ text, Unbroken (blake3 text)) {parts : List String} {id : String}
    (anchor : IsAnchor blake3 (projectStableId blake3 parts) id) :
    ∃ others, id = projectStableId blake3 others ∧ ∃ code, (code = "REVIEWS_COMMIT" ∨
      code = "github_review_unanchored" ∨ code = "github_commit_unresolved") ∧
        stemOf others = [code, projectStableId blake3 parts] := by
  have reviewUnbroken := unbroken_projectStableId unbroken parts
  rcases anchor with ⟨commitId, rfl⟩ | ⟨code, sha, anchors, rfl⟩
  · exact ⟨_, rfl, _, Or.inl rfl, stemOf_edge .reviewsCommit reviewUnbroken commitId⟩
  · exact ⟨_, rfl, code, Or.inr anchors, stemOf_reviewDiagnostic reviewUnbroken anchors sha⟩

/-- The key of a pull request is no code of an anchor. -/
theorem not_anchorCode_pr (number : Nat) : ¬ ("pr:" ++ toString number = "github_review_unanchored" ∨
    "pr:" ++ toString number = "github_commit_unresolved") := by
  rintro (same | same) <;>
  · have chars := congrArg String.toList same
    simp at chars

/-- A diagnostic about a pull request. -/
theorem stemOf_pullDiagnostic {code : String} (repoUnbroken : Unbroken repo)
    (unbroken : Unbroken code) (number : Nat) (subject : List String) :
    stemOf ("project" :: "Diagnostic" :: importerId :: repo :: ("pr:" ++ toString number) :: code ::
      subject) = [code, repo, "pr:" ++ toString number] := by
  have unbrokenNumber : Unbroken ("pr:" ++ toString number) := by
    rw [unbroken_append]
    exact ⟨by decide, unbroken_toString number⟩
  rw [stemOf_diagnostic repoUnbroken unbrokenNumber, if_neg (not_anchorCode_pr number),
    segments_hashedParts_cons unbroken, List.headD_cons]

/-- The ID of an artifact has a stem of its slot. -/
theorem Slot.Artifact.stem (unbroken : ∀ text, Unbroken (blake3 text)) (repoUnbroken : Unbroken repo)
    {slot : Slot} {id : String} (artifact : slot.Artifact blake3 repo id) :
    ∃ parts, id = projectStableId blake3 parts ∧ slot.HasStem blake3 repo (stemOf parts) := by
  cases slot with
  | merge number =>
      rcases artifact with ⟨commitId, rfl⟩ | ⟨sha, rfl⟩
      · exact ⟨_, rfl, Or.inl (stemOf_edge .mergedAs (unbroken_projectStableId unbroken _) commitId)⟩
      · exact ⟨_, rfl, Or.inr (stemOf_pullDiagnostic repoUnbroken (by decide) number _)⟩
  | requests number =>
      obtain ⟨identity, rfl⟩ := artifact
      exact ⟨_, rfl, stemOf_edge .requestedReviewFrom (unbroken_projectStableId unbroken _) identity⟩
  | teams number =>
      obtain ⟨slug, rfl⟩ := artifact
      exact ⟨_, rfl, stemOf_pullDiagnostic repoUnbroken (by decide) number _⟩
  | comment commentId =>
      obtain ⟨number, anchor⟩ := artifact
      obtain ⟨parts, same, code, codes, stem⟩ := IsAnchor.stem unbroken anchor
      exact ⟨parts, same, number, code, codes, stem⟩
  | review number reviewId =>
      obtain ⟨parts, same, code, codes, stem⟩ := IsAnchor.stem unbroken artifact
      exact ⟨parts, same, code, codes, stem⟩

end Owners

end Egregore.Github
