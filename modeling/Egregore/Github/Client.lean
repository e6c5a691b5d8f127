import Egregore.Base.Crawl
import Egregore.Base.OrderedMap
import Egregore.WorktreeDiff

/-!
# Conditional pagination

`github/client.rs`: fetching the pages of a list endpoint, each with the `ETag` that an
earlier run stored for it. A request with its retries is a parameter.
-/

namespace Egregore.Github

open Base

/-- `GithubError`, as far as a page can raise it. -/
inductive GithubError where
  | authRejected
  | fetchFailed (sourceClass : String) (status : Nat)
  | invalidResponse (sourceClass : String)
  deriving DecidableEq

/-- A response body, parsed as JSON. -/
inductive Body (Item : Type) where
  | array (items : List Item)
  | other (item : Item)
  | invalid

/-- `ConditionalResponse`. -/
inductive ConditionalResponse (Item : Type) where
  | notModified
  | modified (body : Body Item) (etag link : Option String)

/-- `FetchOutcome`. -/
inductive FetchOutcome (Item : Type) where
  | modified (items : List Item) (etags : StrMap String)
  | notModified

/-- `page_path`. -/
def pagePath (firstPath : String) (page : Nat) : String :=
  firstPath ++ (if firstPath.toList.contains '?' then "&" else "?") ++ "page=" ++ toString page

/-- `link_next`. -/
def linkNext (link : Option String) : Option String :=
  link.bind fun header =>
    (header.toList.splitOn ',').findSome? fun part =>
      match part.splitOn ';' with
      | [] => none
      | url :: segments =>
          if segments.any fun segment => trim segment = "rel=\"next\"".toList then
            let opened := (trim url).dropWhile (· = '<')
            some (String.ofList (opened.reverse.dropWhile (· = '>')).reverse)
          else none

/-- The key of a page's `ETag`. -/
def etagKey (firstPath : String) (page : Nat) : String :=
  firstPath ++ "?page=" ++ toString page

/-- The page that a key of this endpoint names. -/
def pageOfKey (firstPath key : String) : Option Nat :=
  (stripPrefix (firstPath ++ "?page=").toList key.toList).bind parseU32

/-- The highest page with a stored `ETag`. -/
def maxKnown (firstPath : String) (etags : StrMap String) : Nat :=
  (etags.keys.filterMap (pageOfKey firstPath)).foldl max 0

/-- What the loop has gathered. -/
structure FetchState (Item : Type) where
  items : List Item := []
  etags : StrMap String := ∅
  anyModified : Bool := false

section Fetch

variable {Item : Type}
variable (getWithRetry : String → Option String → Except GithubError (ConditionalResponse Item))
variable (sourceClass firstPath : String) (priorEtags : StrMap String)

/-- One page: the state after it, and whether to go on to the next. -/
def fetchPage (page : Nat) (state : FetchState Item) :
    Except GithubError (FetchState Item × Bool) := do
  let key := etagKey firstPath page
  let prior := priorEtags[key]?
  let known := page < maxKnown firstPath priorEtags
  match ← getWithRetry (pagePath firstPath page) prior with
  | .notModified =>
      let etags := match prior with
        | some etag => state.etags.insert key etag
        | none => state.etags
      return ({ state with etags := etags }, decide known)
  | .modified body etag link =>
      let items ← match body with
        | .array items => pure (state.items ++ items)
        | .other item => pure (state.items ++ [item])
        | .invalid => throw (.invalidResponse sourceClass)
      let etags := match etag with
        | some etag => state.etags.insert key etag
        | none => state.etags
      return ({ items := items, etags := etags, anyModified := true },
        decide known || (linkNext link).isSome)

/-- `fetch_paginated`. -/
def fetchPaginated (fuel : Nat) : Option (Except GithubError (FetchOutcome Item)) :=
  (walkPages (fetchPage getWithRetry sourceClass firstPath priorEtags) fuel 1 {}).map fun walked =>
    walked.map fun state =>
      if state.anyModified then .modified state.items state.etags else .notModified

end Fetch

/-- The merge of a run's `ETag`s into the stored ones. -/
def mergeEtags {Item : Type} (etags : StrMap String) : FetchOutcome Item → StrMap String
  | .modified _ new => etags ∪ new
  | .notModified => etags

/-- The items of an outcome. -/
def FetchOutcome.items {Item : Type} : FetchOutcome Item → List Item
  | .modified items _ => items
  | .notModified => []

end Egregore.Github
