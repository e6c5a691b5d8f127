import Egregore.Base.Text
import Mathlib.Data.List.DropRight

/-!
# Remote URLs

`identity.rs`: the normal form of a git remote URL, which the ID of a repository is a
hash of. How a text is folded to lower case is a parameter.
-/

namespace Egregore

open Base

/-- `strip_userinfo`. -/
def stripUserinfo (host : List Char) : List Char :=
  match splitOnce ['@'] host with
  | some (_, rest) => rest
  | none => host

/-- `strip_default_port`. -/
def stripDefaultPort (host : List Char) (defaultPort : Nat) : List Char :=
  (stripEnding (':' :: (toString defaultPort).toList) host).getD host

/-- `trim_end_matches('/')`. -/
def trimSlashes (text : List Char) : List Char := text.rdropWhile (· = '/')

/-- `strip_git_suffix`. -/
def stripGitSuffix (text : List Char) : List Char :=
  let text := trimSlashes text
  trimSlashes ((stripEnding ".git".toList text).getD text)

/-- What stands before the first `/`. -/
def authorityOf (text : List Char) : List Char := text.takeWhile (· ≠ '/')

/-- What the first `/` starts, empty when there is none. -/
def pathOf (text : List Char) : List Char := text.dropWhile (· ≠ '/')

section Normalize

variable (toLowercase : List Char → List Char)

/-- The `https` form of an authority and a path. -/
def httpsForm (authority path : List Char) (defaultPort : Nat) : List Char :=
  "https://".toList ++ stripDefaultPort (toLowercase authority) defaultPort ++ stripGitSuffix path

/-- `normalize_remote_url`. -/
def normalizeRemoteUrl (url : List Char) : List Char :=
  match splitOnce "://".toList url with
  | none =>
      -- The scp form, `[user@]host:path`.
      match splitOnce [':'] (stripUserinfo url) with
      | some (host, path) =>
          "https://".toList ++ toLowercase host ++ '/' :: stripGitSuffix path
      | none => url
  | some (scheme, rest) =>
      let schemeLower := toLowercase scheme
      if schemeLower = "ssh".toList then
        -- The user is stripped before the authority is cut off.
        let rest := stripUserinfo rest
        httpsForm toLowercase (authorityOf rest) (pathOf rest) 22
      else
        let authority := stripUserinfo (authorityOf rest)
        let path := pathOf rest
        if schemeLower = "https".toList then httpsForm toLowercase authority path 443
        else if schemeLower = "http".toList then httpsForm toLowercase authority path 80
        else if schemeLower = "git".toList then httpsForm toLowercase authority path 9418
        else schemeLower ++ "://".toList ++ toLowercase authority ++ stripGitSuffix path

end Normalize

end Egregore
