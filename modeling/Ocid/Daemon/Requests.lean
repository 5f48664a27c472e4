import Ocid.Core.Rules
import Ocid.Daemon.Naming

/-!
# Daemon — Requests — the policy operations of the control API

A request names a rule by a text.  The text is resolved, for which DNS may be asked; what it
resolves to is checked, and then the text goes into the policy as it was written.  The key of a
domain goes into the table `dns`.
-/

namespace Ocid

section
variable [External]

/-- Resolve a zone to its publisher. -/
def resolveZonePublisher (dns : Str → Except Err ZoneOutcome) (zone : Str) :
    Except Err PublisherId :=
  match dns zone with
  | .ok (.resolved publisher _ _ _) => .ok publisher
  | .ok .noRecord => .error ["no _ocid DNS record for " ++ Str.debug zone]
  | .ok .disabled => .error ["DNS resolution is disabled (dns = \"off\"); cannot resolve " ++
      Str.debug zone]
  | .error e => .error (("DNS resolution failed for " ++ Str.debug zone) :: e)

omit [External] in
theorem map_eq_ok {α β : Type} {f : α → β} {x : Except Err α} {y : β} :
    x.map f = .ok y ↔ ∃ a, x = .ok a ∧ f a = y := by
  cases x <;> simp [Except.map]

omit [External] in
theorem resolveZonePublisher_ok {dns : Str → Except Err ZoneOutcome} {zone : Str} {p : PublisherId} :
    resolveZonePublisher dns zone = .ok p ↔
      ∃ new relay seed, dns zone = .ok (.resolved p new relay seed) := by
  rw [resolveZonePublisher]
  rcases dns zone with e | ⟨q, new, relay, seed⟩ | _ | _ <;> simp

/-- Resolve a rule that may carry a domain in the publisher slot: the rule to persist, and what it
resolves to. -/
def resolveRule (dns : Str → Except Err ZoneOutcome) (policy : Policy) (selfId : PublisherId)
    (reference : Str) : Except Err (Str × ImageRef) :=
  match (Str.splitOnce '/' reference).filter fun p => isDomainName p.1 with
  | some (zone, rest) => do
      let publisher ← resolveZonePublisher dns zone
      let (name, tag) ← splitTag rest
      pure (reference, { publisher, name, tag })
  | none => do
      let r ← Except.context ("invalid reference " ++ Str.debug reference)
        (ImageRef.parse reference policy selfId)
      pure (reference, r)

/-- Resolve a bare publisher: a key, an alias or a domain. -/
def resolvePublisherRule (dns : Str → Except Err ZoneOutcome) (policy : Policy) (arg : Str) :
    Except Err (Str × PublisherId) :=
  match parsePublisher arg with
  | .ok p => .ok (arg, p)
  | .error _ =>
      match policy.resolveAlias arg with
      | some (.publisher p) => .ok (arg, p)
      | _ =>
          if isDomainName arg then (resolveZonePublisher dns arg).map fun p => (arg, p)
          else .error ["not a publisher id, alias, or domain: " ++ Str.debug arg]

end

/-- A request of the control API that changes the policy. -/
inductive PolicyRequest where
  | seed (reference : Str) (mode : Mode)
  | unseed (reference : Str)
  | follow (publisher : Str) (mode : Mode)
  | unfollow (publisher : Str)
  | pin (reference : Str)
  | unpin (reference : Str)
deriving DecidableEq

namespace PolicyRequest
variable [External]

/-- The operation a request asks for. -/
def resolve (dns : Str → Except Err ZoneOutcome) (policy : Policy) (selfId : PublisherId) :
    PolicyRequest → Except Err PolicyOp
  | seed reference mode =>
      (resolveRule dns policy selfId reference).map fun r => .seed r.1 r.2 mode
  | unseed reference => (resolveRule dns policy selfId reference).map fun r => .unseed r.1
  | follow publisher mode =>
      (resolvePublisherRule dns policy publisher).map fun r => .follow r.1 r.2 mode
  | unfollow publisher => (resolvePublisherRule dns policy publisher).map fun r => .unfollow r.1
  | pin reference => (resolveRule dns policy selfId reference).map fun r => .pin r.1 r.2
  | unpin reference => (resolveRule dns policy selfId reference).map fun r => .unpin r.1

/-- What a request makes of the policy, and whether it changed it. -/
def serve (dns : Str → Except Err ZoneOutcome) (policy : Policy) (selfId : PublisherId)
    (req : PolicyRequest) : Except Err (Policy × Bool) := do
  let op ← req.resolve dns policy selfId
  op.check selfId
  op.apply policy

/-- The zone that DNS is asked for. -/
def zone (policy : Policy) : PolicyRequest → Option Str
  | seed reference _ | unseed reference | pin reference | unpin reference => domainSlot reference
  | follow publisher _ | unfollow publisher =>
      match parsePublisher publisher, policy.resolveAlias publisher with
      | .ok _, _ => none
      | .error _, some (.publisher _) => none
      | .error _, _ => if isDomainName publisher then some publisher else none

end PolicyRequest

end Ocid
