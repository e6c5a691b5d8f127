import Egregore.WorktreeDiff

/-!
# GitHub models

`github/model.rs`: the parts of a GitHub response that the importer reads.
-/

namespace Egregore.Github

open Base

/-- `User`, an account. -/
@[ext]
structure User where
  login : String
  deriving DecidableEq, Repr

/-- `Team`. -/
@[ext]
structure Team where
  slug : String := ""
  deriving DecidableEq, Repr

/-- `Label`. -/
structure Label where
  name : String
  color : String := ""
  description : Option String := none
  deriving DecidableEq, Repr

/-- `Milestone`. -/
structure Milestone where
  title : String
  number : Option Nat := none
  deriving DecidableEq, Repr

/-- `Issue`, an item of `/issues`; `pullRequest` is set when it is a pull request. -/
structure Issue where
  number : Nat
  title : String := ""
  body : Option String := none
  state : String := ""
  stateReason : Option String := none
  labels : List Label := []
  assignees : List User := []
  user : Option User := none
  milestone : Option Milestone := none
  createdAt : String := ""
  updatedAt : String := ""
  closedAt : Option String := none
  htmlUrl : String := ""
  pullRequest : Bool := false
  deriving DecidableEq, Repr

/-- `GitRef`, the head or base of a pull request. -/
structure GitRef where
  refName : String := ""
  sha : String := ""
  deriving DecidableEq, Repr

/-- `PullRequest`. -/
structure PullRequest where
  number : Nat
  title : String := ""
  body : Option String := none
  state : String := ""
  mergedAt : Option String := none
  draft : Bool := false
  labels : List Label := []
  assignees : List User := []
  user : Option User := none
  milestone : Option Milestone := none
  createdAt : String := ""
  updatedAt : String := ""
  closedAt : Option String := none
  head : Option GitRef := none
  base : Option GitRef := none
  mergeCommitSha : Option String := none
  requestedReviewers : List User := []
  requestedTeams : List Team := []
  htmlUrl : String := ""
  deriving DecidableEq, Repr

/-- `IssueComment`, of an issue or of a pull request's conversation. -/
structure IssueComment where
  id : Nat
  body : Option String := none
  user : Option User := none
  issueUrl : String := ""
  createdAt : String := ""
  updatedAt : String := ""
  htmlUrl : String := ""
  deriving DecidableEq, Repr

/-- `Review`, the summary of a review. -/
structure Review where
  id : Nat
  body : Option String := none
  state : String := ""
  user : Option User := none
  submittedAt : Option String := none
  commitId : Option String := none
  htmlUrl : String := ""
  deriving DecidableEq, Repr

/-- `ReviewComment`, on a line of a pull request. -/
structure ReviewComment where
  id : Nat
  body : Option String := none
  user : Option User := none
  path : Option String := none
  line : Option Nat := none
  startLine : Option Nat := none
  side : Option String := none
  diffHunk : Option String := none
  inReplyToId : Option Nat := none
  pullRequestUrl : String := ""
  commitId : Option String := none
  createdAt : String := ""
  updatedAt : String := ""
  htmlUrl : String := ""
  deriving DecidableEq, Repr

/-- `DismissedReview`. -/
structure DismissedReview where
  reviewId : Nat := 0
  state : String := ""
  dismissalMessage : Option String := none
  deriving DecidableEq, Repr

/-- `TimelineEvent`, of a pull request. -/
structure TimelineEvent where
  event : String := ""
  id : Nat := 0
  createdAt : String := ""
  actor : Option User := none
  dismissedReview : Option DismissedReview := none
  requestedReviewer : Option User := none
  requestedTeam : Option Team := none
  deriving DecidableEq, Repr

/-- `str::parse::<u64>`: decimal digits, perhaps after a `+`, that fit. -/
def parseU64 (text : List Char) : Option Nat :=
  let digits := (stripPrefix ['+'] text).getD text
  if !digits.isEmpty && digits.all Char.isDigit && Nat.ofDigitChars 10 digits 0 < 2 ^ 64 then
    some (Nat.ofDigitChars 10 digits 0)
  else none

/-- `trailing_number`: the last segment of an API URL. -/
def trailingNumber (url : String) : Option Nat :=
  (url.toList.splitOn '/').getLast?.bind parseU64

example : trailingNumber "https://api.github.com/repos/o/r/issues/42" = some 42 := by
  decide

end Egregore.Github
