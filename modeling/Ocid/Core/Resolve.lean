import Ocid.Core.Config

/-!
# Core — Resolve — image references

`resolveRepo` turns a repository path without tag into a publisher and an image name: an explicit
key first, then a domain of the policy, then an alias, then the node's own namespace.
`ImageRef.parse` is the hybrid parse of a reference with an optional tag; a `did:key:` reference is
recognised before its colons are read as a tag separator.
-/

namespace Ocid

/-- A fully resolved image reference: `<publisher>/<name>[:<tag>]`. -/
structure ImageRef where
  publisher : PublisherId
  name : Str
  tag : Option Str
deriving DecidableEq

variable [External]

/-- Resolve a registry repository path (no tag) to `(publisher, name)`. -/
def resolveRepo (repo : Str) (policy : Policy) (selfId : PublisherId) :
    Except Err (PublisherId × Str) :=
  let repo := Str.trimMatches '/' repo
  if repo.isEmpty then .error ["empty repository name"]
  else
    let first := match Str.splitOnce '/' repo with
      | some (f, _) => f
      | none => repo
    let rest := (Str.splitOnce '/' repo).map Prod.snd
    if isHexPublisher first then
      match rest with
      | none => .error ["missing image name after publisher"]
      | some name => do
          validateName name
          pure (← parsePublisher first, name)
    else match rest.bind fun rest =>
        (policy.parsePublisherArg first).toOption.map fun p => (p, rest) with
      | some (p, rest) => do
          validateName rest
          pure (p, rest)
      | none =>
          match policy.resolveAlias repo with
          | some (.image publisher name) => .ok (publisher, name)
          | _ =>
              match policy.resolveAlias first with
              | some (.publisher p) =>
                  match rest with
                  | none => .error ["missing image name after alias"]
                  | some name => do
                      validateName name
                      pure (p, name)
              | _ => do
                  validateName repo
                  pure (selfId, repo)

namespace ImageRef

/-- Parse a reference that must carry an explicit publisher (hex or `did:key`). -/
def parseExplicit (s : Str) : Except Err ImageRef :=
  let s := Str.trimEndMatches '/' (Str.trim s)
  match Str.splitOnce '/' s with
  | none => .error ["reference " ++ Str.debug s ++ " must be <publisher>/<name>[:<tag>]"]
  | some (pubs, rest) => do
      let publisher ← parsePublisher pubs
      let (name, tag) ← splitTag rest
      pure { publisher, name, tag }

/-- Hybrid parse: explicit publisher, alias, or implicit self. -/
def parse (s : Str) (policy : Policy) (selfId : PublisherId) : Except Err ImageRef :=
  let s := Str.trim s
  if ("did:key:" : Str).isPrefixOf s then parseExplicit s
  else do
    let s := stripRegistryLocation s
    let (repo, tag) ← splitTag s
    let (publisher, name) ← resolveRepo repo policy selfId
    pure { publisher, name, tag }

end ImageRef

end Ocid
