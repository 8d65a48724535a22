/-
  Package addresses (packages/address.rs): `Address.parse` reads one, `toGitUrl` is the
  URL that is cloned.
-/
import Mathlib

namespace Pmacs

inductive Address where
  | github (owner repo : String)
  | gitlab (owner repo : String)
  | url (u : String)
deriving DecidableEq, Repr

inductive AddressError where
  | empty
  | invalidGithub (input : String)
  | invalidGitlab (input : String)
  | emptyGitTarget (input : String)
  | malformedHttps (input : String)
  | deferredAlias (scheme input : String)
  | unknownScheme (input : String)
deriving DecidableEq, Repr

/-- `strip_prefix`. -/
def stripStart (start s : String) : Option String :=
  if start.toList.isPrefixOf s.toList then some (.ofList (s.toList.drop start.toList.length))
  else none

/-- `strip_suffix`. -/
def stripEnd (tail s : String) : Option String :=
  if tail.toList.isSuffixOf s.toList then
    some (.ofList (s.toList.take (s.toList.length - tail.toList.length)))
  else none

namespace Address

def deferredAliases : List String := ["codeberg:", "forgejo:"]

/-- Whether an owner or a repository has only letters, digits and `_-.`. -/
def segmentOk (segment : List Char) : Bool :=
  segment.all fun c => c.isAlphanum || c = '_' || c = '-' || c = '.'

/-- The owner and the repository of `owner/repo`; a trailing `.git` is tolerated. -/
def parseForgePair (rest : String) (err : AddressError) : Except AddressError (String × String) :=
  let body := (stripEnd ".git" rest).getD rest
  match body.toList.splitOn '/' with
  | [owner, repo] =>
    if owner.isEmpty || repo.isEmpty then .error err
    else if segmentOk owner && segmentOk repo then .ok (.ofList owner, .ofList repo)
    else .error err
  | _ => .error err

def parse (s : String) : Except AddressError Address :=
  if s = "" then .error .empty
  else
    match deferredAliases.find? fun scheme => (stripStart scheme s).isSome with
    | some scheme => .error (.deferredAlias scheme s)
    | none =>
      -- before the `git:` form, which `git://x` would else be
      if (stripStart "https://" s).isSome || (stripStart "git://" s).isSome then .ok (.url s)
      else
        match stripStart "github:" s with
        | some rest => (parseForgePair rest (.invalidGithub s)).map fun p => .github p.1 p.2
        | none =>
          match stripStart "gitlab:" s with
          | some rest => (parseForgePair rest (.invalidGitlab s)).map fun p => .gitlab p.1 p.2
          | none =>
            match stripStart "git:" s with
            | some rest => if rest = "" then .error (.emptyGitTarget s) else .ok (.url rest)
            | none =>
              match stripStart "https:" s with
              | some rest =>
                if (stripStart "https://" rest).isSome then .ok (.url rest)
                else .error (.malformedHttps s)
              | none => .error (.unknownScheme s)

def toGitUrl : Address → String
  | github owner repo => "https://github.com/" ++ owner ++ "/" ++ repo ++ ".git"
  | gitlab owner repo => "https://gitlab.com/" ++ owner ++ "/" ++ repo ++ ".git"
  | url u => u

end Address

end Pmacs
