import Ocid.Daemon.Registry
import Ocid.Daemon.Sample
import Ocid.Lib.Runs

/-!
# Publishing — Session — pushes handled one after another

A `Session` is a store with the log of what was pushed to it.  Each step of `Session.step` takes
one push: all of it, or as much as happens before a fault stops it.  The clock is read several
times during a push, and it never goes backwards, neither within a push (`Readings`) nor from one
push to the next.
-/

namespace Ocid

/-- The readings of the clock one push takes, numbers of 64 bits: one for each record of the release
list, and the one at which the pushed release is signed. -/
structure Readings where
  each : ℕ → ℕ
  last : ℕ
  mono : ∀ i, each i ≤ each (i + 1)
  each_le : ∀ i, each i ≤ last
  last_lt : last < 2 ^ 64

theorem Readings.each_lt (readings : Readings) (i : ℕ) : readings.each i < 2 ^ 64 :=
  Nat.lt_of_le_of_lt (readings.each_le i) readings.last_lt

/-- The clock stands still during the push. -/
def Readings.still (now : UInt64) : Readings := ⟨fun _ => now.toNat, now.toNat,
  fun _ => Nat.le_refl _, fun _ => Nat.le_refl _, now.toNat_lt⟩

/-- One push, with what the clock and gossip give, and the fault, if any, that stops it. -/
structure Request where
  push : Push
  readings : Readings
  gossip : Release → Except Err Unit
  fault : Option (ℕ × OciError)

variable [External]

/-- The handling of the push. -/
def Request.run (q : Request) (node : Node) : Handler Response :=
  (manifestPut node q.gossip q.readings.each q.readings.last q.push).cut q.fault

/-- A push that was handled: the store it found, and its answer. -/
structure Answered where
  before : Store
  request : Request
  answer : Except OciError Response

/-- A node that handles one push after the other. -/
structure Session where
  store : Store
  now : ℕ
  /-- What was pushed, the latest first. -/
  log : List Answered

/-- The session after one more push. -/
def Session.after (node : Node) (s : Session) (q : Request) : Session where
  store := (q.run node).final s.store
  now := q.readings.last
  log := ⟨s.store, q, (q.run node).result s.store⟩ :: s.log

/-- Handle a push that comes no earlier than the last one. -/
def Session.step (node : Node) (s : Session) (q : Request) : Option Session :=
  if s.now ≤ q.readings.each 0 then some (s.after node q) else none

theorem Session.step_eq_some {node : Node} {s t : Session} {q : Request} :
    s.step node q = some t ↔ s.now ≤ q.readings.each 0 ∧ s.after node q = t := by
  rw [Session.step]
  split
  · simp [*]
  · simp [*]

namespace Request

variable {node : Node} {q : Request} {s : Store}

/-- What a push leaves when it is answered `201 Created`. -/
theorem run_ok {resp : Response} (h : (q.run node).result s = .ok resp) :
    ∃ x : Pushed node q.push s, (resp = created q.push x.manifest x.blob ∧ resp.Sendable) ∧
      (q.push.isTag = true → (x.release q.readings.last).verify = .ok ()) ∧
        ∃ u, x.Attaches q.readings.each s.releases u ∧
          ((q.run node).final s).releases = x.publishes q.readings.last u := by
  have hcut : q.run node = manifestPut node q.gossip q.readings.each q.readings.last q.push :=
    Call.cut_of_result_ok h
  rw [hcut] at h ⊢
  exact (manifestPut_triple node q.gossip q.readings.each q.readings.last q.push s).ok rfl h

/-- What a push leaves, whether it is answered or not. -/
theorem run_final (q : Request) (node : Node) (s : Store) :
    ((q.run node).final s).releases = s.releases ∨ ∃ x : Pushed node q.push s, ∃ u,
      (x.Touches q.readings.each s.releases u ∧ ((q.run node).final s).releases = u) ∨
        (x.Attaches q.readings.each s.releases u ∧
          ((q.run node).final s).releases = x.publishes q.readings.last u) :=
  (manifestPut_triple node q.gossip q.readings.each q.readings.last q.push s).final_cut rfl q.fault

end Request

/-! ### The record a pushed tag meets -/

namespace Pushed

variable {node : Node} {push : Push} {s : Store}

/-- What a pushed tag is a tag of. -/
def ref (x : Pushed node push s) : Ref := ⟨node.id, x.image, push.reference⟩

/-- The push attaches its manifest to `rel`. -/
def AttachesTo (x : Pushed node push s) (rel : Release) : Prop :=
  ∃ subject, x.manifest.subject = some subject ∧
    needsReferrer node subject.digest x.referrer rel = true

/-- It moves `rel` on to a later timestamp, which it does unless there is none. -/
def MovesOn (x : Pushed node push s) (rel : Release) : Prop := x.AttachesTo rel ∧ rel.HasLater

theorem release_ref (x : Pushed node push s) (now : ℕ) : (x.release now).ref = x.ref := rfl

theorem release_timestamp (x : Pushed node push s) (now : ℕ) :
    (x.release now).payload.timestamp = now := rfl

theorem release_manifest (x : Pushed node push s) (now : ℕ) :
    (x.release now).payload.manifest = x.blob := rfl

/-- After the attaching, a record is the one held before, or that one extended. -/
theorem Attaches.get {x : Pushed node push s} {readings : Readings} {t u : Table Release.ref}
    (h : x.Attaches readings.each t u) {r : Ref} {rel : Release} (hr : t.get r = some rel) :
    (x.MovesOn rel ∧ ∃ i, u.get r =
        some (attachedRelease node x.referrer (x.blob :: x.blobs) rel (readings.each i))) ∨
      (¬ x.MovesOn rel ∧ u.get r = some rel) := by
  unfold Attaches at h
  split at h
  · rename_i hs
    subst h
    refine Or.inr ⟨?_, hr⟩
    rintro ⟨⟨subject, hs', -⟩, -⟩
    rw [hs] at hs'
    cases hs'
  · rename_i subject hs
    by_cases hmoves : needsReferrer node subject.digest x.referrer rel = true ∧ rel.HasLater
    · exact Or.inl ⟨⟨⟨subject, hs, hmoves.1⟩, hmoves.2⟩, h.2 r rel hr hmoves.1 hmoves.2⟩
    · refine Or.inr ⟨?_, ?_⟩
      · rintro ⟨⟨subject', hs', hneeds⟩, hlater⟩
        rw [hs] at hs'
        cases hs'
        exact hmoves ⟨hneeds, hlater⟩
      · rcases h.1 r with hu | ⟨rel', hr', hneeds, i, hsup, -⟩
        · exact hu.trans hr
        · rw [hr] at hr'
          cases hr'
          exact absurd ⟨hneeds, hasLater_of_supersedes (readings.each_lt i) hsup⟩ hmoves

theorem Touches.get_none {x : Pushed node push s} {clock : ℕ → ℕ} {t u : Table Release.ref}
    (h : x.Touches clock t u) {r : Ref} (hr : t.get r = none) : u.get r = none := by
  unfold Touches at h
  split at h
  · rw [h]
    exact hr
  · rcases h r with hu | ⟨rel, hrel, -⟩
    · exact hu.trans hr
    · rw [hr] at hrel
      cases hrel

end Pushed

namespace Sample

/-- A push of an index under a reference, in one second and without a fault. -/
def request (name reference : Str) (content : Content) (now : UInt64) : Request where
  push := ⟨name, reference, some mtOciIndex, .ok content.bytes⟩
  readings := Readings.still now
  gossip := fun _ => .ok ()
  fault := none

/-- A session that starts with an empty store. -/
def session : @Session sample := @Session.mk sample (@Store.empty sample) 0 []

end Sample

end Ocid
