import Ocid.Core.Resolve

/-!
# Daemon — Naming — references with a DNS publisher name

A reference may start with a domain instead of a key.  `rewriteDnsPublisher` asks DNS and puts the
key in the domain's place; `resolveImageRef` is the whole way from a reference a user typed to an
`ImageRef`: strip a pasted registry location, rewrite a domain, parse.

What DNS answers for a zone is a parameter, `dns`.
-/

namespace Ocid

/-- Result of resolving a zone. -/
inductive ZoneOutcome where
  /-- The zone has a verified, fresh, pin-consistent record. -/
  | resolved (publisher : PublisherId) (newlyPinned : Bool) (relay : Option Str)
      (seed : Option PublisherId)
  /-- No usable record. -/
  | noRecord
  | disabled
deriving DecidableEq

variable [External]

/-- Rewrite a leading DNS publisher name to its hex key. -/
def rewriteDnsPublisher (dns : Str → Except Err ZoneOutcome) (reference : Str) : Except Err Str :=
  match Str.splitOnce '/' reference with
  | none => .ok reference
  | some (first, rest) =>
      if !rest.isEmpty && isDomainName first then
        match dns first with
        | .ok (.resolved publisher _ _ _) => .ok (publisher.toStr ++ '/' :: rest)
        | .ok .noRecord | .ok .disabled => .ok reference
        | .error e => .error ["DNS publisher name " ++ Str.debug first ++ ": " ++ e.chain]
      else .ok reference

/-- Resolve a user-supplied reference the same way the registry routes do. -/
def resolveImageRef (dns : Str → Except Err ZoneOutcome) (policy : Policy) (selfId : PublisherId)
    (reference : Str) : Except Err ImageRef := do
  let stripped := stripRegistryLocation reference
  let rewritten ← rewriteDnsPublisher dns stripped
  Except.context ("invalid reference " ++ Str.debug reference)
    (ImageRef.parse rewritten policy selfId)

omit [External] in
/-- A reference is rewritten only at a zone that DNS resolves. -/
theorem rewriteDnsPublisher_noRecord {dns : Str → Except Err ZoneOutcome}
    (h : ∀ zone, dns zone = .ok .noRecord) (reference : Str) :
    rewriteDnsPublisher dns reference = .ok reference := by
  rw [rewriteDnsPublisher]
  split
  · rfl
  · simp only [h, ite_self]

end Ocid
