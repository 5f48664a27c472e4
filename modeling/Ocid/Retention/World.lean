import Ocid.Lib.Runs
import Ocid.Retention.Held

/-!
# Retention — World — pushes, fetches, sweeps and the blob store, step by step

What runs on one store at a time: uploads and removals, which are single steps; pushes; fetches,
which hold the lock of the collector for reading; at most one sweep, which holds it for writing;
and the blob store, which deletes content that nothing protects.  A push takes no lock.

A push is checked in one step (`checkPush`), stores its manifest in the next, and then writes its
records one by one.  A fetch obtains its blobs one after the other, each in the steps of
`fetchBlob`.  A sweep lists the records, then the pins, and drops the pin and the index entry of a
blob in two steps, as `sweepBlobsLocked` does.
-/

namespace Ocid

open Call

variable [External]

/-! ### Pushes -/

/-- Where a push stands. -/
inductive PushStage where
  /-- Every referenced blob was found. -/
  | checked
  /-- The manifest is stored. -/
  | stored
  /-- The records still to be looked at for the subject; then the tag is published. -/
  | attaching (rels : List Release)
  | ended

/-- A push that was accepted, and where it stands. -/
structure PushRun where
  push : Push
  checked : Checked
  stage : PushStage

/-- The next step of a push. -/
inductive PushAct where
  | store
  /-- Remember the referrer, and list the records. -/
  | list
  /-- Look at the next record; `announced` is what gossip answers. -/
  | attach (now : ℕ) (announced : Except Err Unit)
  | publish (now : ℕ) (announced : Except Err Unit)
  /-- The request is dropped. -/
  | abandon

namespace PushRun

variable (node : Node) (p : PushRun)

/-- The pushed manifest. -/
def blob : BlobRef := p.checked.blob p.push

/-- The blobs of the pushed manifest, and itself. -/
def blobs : List BlobRef := p.blob :: p.checked.blobs

/-- The record is to be extended by the push. -/
def needs (rel : Release) : Bool :=
  match p.checked.manifest.subject with
  | none => false
  | some subject => needsReferrer node subject.digest (p.checked.referrer p.push) rel

/-- The record that extends `rel`. -/
def extend (rel : Release) (now : ℕ) : Release :=
  attachedRelease node (p.checked.referrer p.push) p.blobs rel now

/-- The record a step tries to write. -/
def puts : PushAct → Option Release
  | .attach now _ => match p.stage with
      | .attaching (rel :: _) => if p.needs node rel then some (p.extend node rel now) else none
      | _ => none
  | .publish now _ => match p.stage with
      | .attaching [] => if p.push.isTag then some (p.checked.release p.push node now) else none
      | _ => none
  | _ => none

/-- What a step does. -/
def step (s : Store) : PushAct → Option (Store × PushRun)
  | .store => match p.stage with
      | .checked => some ((putBlobBytes p.checked.bytes (some (Digest.sha256 p.checked.bytes))
          (some (p.checked.mediaType p.push))).final s, { p with stage := .stored })
      | _ => none
  | .list => match p.stage with
      | .stored => match p.checked.manifest.subject with
          | none => some (s, { p with stage := .attaching [] })
          | some subject =>
              let s := (putReferrer subject.digest (p.checked.referrer p.push)).final s
              some (s, { p with stage := .attaching s.listReleases })
      | _ => none
  | .attach now announced => match p.stage with
      | .attaching (rel :: rels) =>
          if p.needs node rel then
            let m := publish node (fun _ => announced) (p.extend node rel now)
            let stage := match m.result s with
              | .ok _ => .attaching rels
              | .error _ => .ended
            some (m.final s, { p with stage })
          else some (s, { p with stage := .attaching rels })
      | _ => none
  | .publish now announced => match p.stage with
      | .attaching [] => some ((publishTag node (fun _ => announced) p.checked.image
          p.push.reference p.blob p.checked.blobs now).final s, { p with stage := .ended })
      | _ => none
  | .abandon => some (s, { p with stage := .ended })

/-- A record may still be written. -/
def writes : Bool :=
  match p.stage with
  | .checked | .stored => p.push.isTag || p.checked.manifest.subject.isSome
  | .attaching rels => p.push.isTag || rels.any fun rel => p.needs node rel
  | .ended => false

/-- The blobs of the records that the push would write. -/
def wanted : List BlobRef :=
  match p.stage with
  | .checked => p.checked.blobs
  | .stored => p.blobs
  | .attaching rels => p.blobs ++ (rels.filter fun rel => p.needs node rel).flatMap Release.allBlobs
  | .ended => []

/-- The blobs of the records that may still be written. -/
def relied : List BlobRef := if p.writes node then p.wanted node else []

end PushRun

/-! ### Fetches -/

/-- Where a fetch stands. -/
inductive FetchStage where
  /-- The next blob is looked up, or there is none left. -/
  | looking
  /-- The next blob is downloaded, under a temporary tag. -/
  | downloading
  /-- The content of the next blob is here; `temp` says that the temporary tag is held. -/
  | verifying (temp : Bool)
  | pinning (temp : Bool)
  | indexing (temp : Bool)
  | ended
deriving DecidableEq

/-- A fetch of a verified release: its blobs that are done, those to do, and where it stands. -/
structure FetchRun where
  release : Release
  /-- The providers without the node itself. -/
  providers : List EndpointId
  done : List BlobRef
  todo : List BlobRef
  stage : FetchStage

/-- A step of a fetch. -/
inductive FetchAct where
  /-- Go on; a download is answered by the network. -/
  | advance (net : Downloads)
  /-- The fetch is dropped. -/
  | stop

namespace FetchRun

variable (f : FetchRun)

/-- The fetch still holds the lock. -/
def live : Bool := f.stage ≠ .ended

/-- The hash that the temporary tag of the fetch protects. -/
def temp : Option Blake3 :=
  match f.stage with
  | .downloading | .verifying true | .pinning true | .indexing true =>
      f.todo.head?.map BlobRef.hash
  | _ => none

/-- Go on to the blob after the next one. -/
def next : FetchRun :=
  { f with done := f.done ++ f.todo.head?.toList, todo := f.todo.tail, stage := .looking }

/-- It moves on. -/
def enter (stage : FetchStage) : FetchRun := { f with stage }

/-- The next step of a fetch, with what the network answers. -/
def advance (net : Downloads) (s : Store) : Option (Store × FetchRun) :=
  match f.stage, f.todo with
  | .looking, [] => some ((putRelease f.release).final s, f.enter .ended)
  | .looking, b :: _ =>
      if !s.hasHash b.hash then
        some (s, f.enter (if f.providers.isEmpty then .ended else .downloading))
      else if (s.blobRef b.digest).isNone then some (s, f.enter (.verifying false))
      else some (s, f.next)
  | .downloading, b :: _ =>
      let m := download net f.done.length b
      match m.result s with
      | .ok _ => some (m.final s, f.enter (.verifying true))
      | .error _ => some (m.final s, f.enter .ended)
  | .verifying temp, b :: _ =>
      match (verifyBlob b).result s with
      | .ok _ => some (s, f.enter (.pinning temp))
      | .error _ => some (s, f.enter .ended)
  | .pinning temp, b :: _ => some (s.apply (.tag b.digest b.hash), f.enter (.indexing temp))
  | .indexing _, b :: _ => some (s.apply (.blobRef b), f.next)
  | _, _ => none

/-- What a step does. -/
def step (s : Store) : FetchAct → Option (Store × FetchRun)
  | .advance net => f.advance net s
  | .stop => some (s, f.enter .ended)

end FetchRun

/-! ### Sweeps -/

/-- Where a sweep stands. -/
inductive SweepStage where
  /-- The lock is held; the records pruned under it. -/
  | locked (pruned : List Ref)
  /-- The records were listed. -/
  | marked
  /-- The digests whose pin and entry are still to be dropped. -/
  | unpinning (ds : List Digest)
  /-- The pin of `d` is dropped, its entry is not yet. -/
  | unpinned (d : Digest) (ds : List Digest)
  /-- The pins that are left were listed. -/
  | relisted (pinned : List Blake3)
  /-- The digests whose entry is still to be dropped. -/
  | cleaning (ds : List Digest)

/-- A sweep, which holds the lock for writing. -/
structure SweepRun where
  stage : SweepStage
  /-- The hashes of the records listed. -/
  live : List Blake3
  /-- The records written since they were listed; the sweep knows nothing of them. -/
  fresh : List Release

/-- A step of a sweep. -/
inductive SweepAct where
  /-- Remove a record of another publisher, before the sweep. -/
  | prune (r : Ref)
  /-- List the records; a `gc` passes over those it pruned. -/
  | mark (gc : Bool)
  | advance
  /-- The lock is given back, after a failure or with nothing to sweep. -/
  | stop

namespace SweepRun

variable (sw : SweepRun)

/-- The digests to be dropped from a list of pins. -/
def orphans (pins : List (Digest × Blake3)) : List Digest :=
  (pins.filter fun p => p.2 ∉ sw.live).map Prod.fst

/-- The digests to be dropped from a list of entries. -/
def strays (pinned : List Blake3) (entries : List BlobRef) : List Digest :=
  (entries.filter fun b => b.hash ∉ sw.live ∧ b.hash ∉ pinned).map BlobRef.digest

/-- It moves on. -/
def enter (stage : SweepStage) : SweepRun := { sw with stage }

/-- The next step of a sweep, after which it has ended or not. -/
def advance (s : Store) : Option (Store × Option SweepRun) :=
  match sw.stage with
  | .locked _ => none
  | .marked => some (s, sw.enter (.unpinning (sw.orphans s.listPins)))
  | .unpinning (d :: ds) => some ((unpinBlob d).final s, sw.enter (.unpinned d ds))
  | .unpinned d ds => some ((removeBlobRef d).final s, sw.enter (.unpinning ds))
  | .unpinning [] => some (s, sw.enter (.relisted (s.listPins.map Prod.snd)))
  | .relisted pinned => some (s, sw.enter (.cleaning (sw.strays pinned s.listBlobRefs)))
  | .cleaning (d :: ds) => some ((removeBlobRef d).final s, sw.enter (.cleaning ds))
  | .cleaning [] => some (s, none)

/-- What a step does. -/
def step (node : Node) (s : Store) : SweepAct → Option (Store × Option SweepRun)
  | .prune r => match sw.stage with
      | .locked pruned =>
          if r.publisher = node.id then none
          else
            let m := removeRelease r.publisher r.name r.tag
            let rest := match m.result s with
              | .ok _ => some (sw.enter (.locked (r :: pruned)))
              | .error _ => none
            some (m.final s, rest)
      | _ => none
  | .mark gc => match sw.stage with
      | .locked pruned =>
          some (s, some ⟨.marked, liveHashes s (if gc then pruned.map Ref.toStr else []), []⟩)
      | _ => none
  | .advance => sw.advance s
  | .stop => some (s, none)

/-- A record is written while the sweep is under way. -/
def sees (rel : Option Release) : SweepRun := { sw with fresh := sw.fresh ++ rel.toList }

/-- The digests that the lists of the sweep still hold. -/
def pending : List Digest :=
  match sw.stage with
  | .unpinning ds | .cleaning ds => ds
  | .unpinned d ds => d :: ds
  | _ => []

/-- The digest whose pin is dropped and whose entry is not. -/
def halfway : Option Digest :=
  match sw.stage with
  | .unpinned d _ => some d
  | _ => none

end SweepRun

/-! ### The world -/

/-- A store, with what is running on it. -/
structure World where
  store : Store
  pushes : List PushRun
  fetches : List FetchRun
  /-- The sweep that holds the lock for writing. -/
  sweep : Option SweepRun

/-- A new node. -/
def World.empty : World := ⟨.empty, [], [], none⟩

/-- One step of something that runs, or a call that takes one step. -/
inductive Act where
  | upload (data : Bytes) (expect : Option Digest) (mediaType : Option Str)
  /-- A release is removed; the sweep that follows takes the lock. -/
  | remove (publisher : PublisherId) (name tag : Str)
  /-- The blob store deletes content. -/
  | delete (h : Blake3)
  /-- A push arrives and is checked. -/
  | beginPush (push : Push)
  | push (i : ℕ) (a : PushAct)
  /-- A fetch has verified its release and takes the lock for reading. -/
  | beginFetch (release : Release) (providers : List EndpointId)
  | fetch (i : ℕ) (a : FetchAct)
  /-- A window is enforced, or releases are collected: the lock is taken for writing. -/
  | beginSweep
  | sweep (a : SweepAct)

namespace World

variable (node : Node) (w : World)

/-- A pin or a temporary tag keeps the content. -/
def protects (h : Blake3) : Bool :=
  (w.store.listPins.any fun p => p.2 = h) || w.fetches.any fun f => f.temp = some h

/-- What a step does. -/
def step : Act → Option World
  | .upload data expect mediaType =>
      some { w with store := (putBlobBytes data expect mediaType).final w.store }
  | .remove publisher name tag =>
      some { w with store := (removeRelease publisher name tag).final w.store }
  | .delete h =>
      if w.protects h then none else some { w with store := w.store.apply (.dropData h) }
  | .beginPush push =>
      let m := checkPush node push
      let begun := match m.result w.store with
        | .ok checked => [⟨push, checked, .checked⟩]
        | .error _ => []
      some { w with store := m.final w.store, pushes := w.pushes ++ begun }
  | .push i a => do
      let p ← w.pushes[i]?
      let (store, p') ← p.step node w.store a
      some { w with
        store, pushes := w.pushes.set i p', sweep := w.sweep.map fun sw => sw.sees (p.puts node a) }
  | .beginFetch release providers =>
      if w.sweep.isNone ∧ release.verify = .ok () then
        some { w with fetches := w.fetches ++ [⟨release, providers.filter fun q => q ≠ node.id, [],
          release.allBlobs, .looking⟩] }
      else none
  | .fetch i a => do
      let f ← w.fetches[i]?
      if f.live then do
        let (store, f') ← f.step w.store a
        some { w with store, fetches := w.fetches.set i f' }
      else none
  | .beginSweep =>
      if w.sweep.isNone ∧ ∀ f ∈ w.fetches, f.live = false then
        some { w with sweep := some ⟨.locked [], [], []⟩ }
      else none
  | .sweep a => do
      let sw ← w.sweep
      let (store, sweep) ← sw.step node w.store a
      some { w with store, sweep }

end World

/-- **What is kept.**  Each blob of each record is pinned on its hash, its digest is indexed, and
its content is here. -/
def Store.Intact (s : Store) : Prop :=
  ∀ rel ∈ s.releases.rows, ∀ b ∈ rel.allBlobs,
    s.pins.get b.digest = some (b.digest, b.hash) ∧ (s.blobRef b.digest).isSome ∧
      s.hasHash b.hash = true

instance (s : Store) : Decidable s.Intact :=
  inferInstanceAs (Decidable (∀ rel ∈ s.releases.rows, ∀ b ∈ rel.allBlobs, _ ∧ _ ∧ _))

/-! ### Steps that take nothing away from another -/

/-- The next blob that the fetch passes over is indexed under the hash the release names, and the
next blob it pins is not pinned elsewhere. -/
def FetchRun.Agrees (s : Store) (f : FetchRun) : Prop :=
  ∀ b ∈ f.todo.head?,
    (f.stage = .looking → s.hasHash b.hash = true → ∀ e ∈ s.blobRef b.digest, e.hash = b.hash) ∧
    ((f.stage = .pinning true ∨ f.stage = .pinning false) → s.Fits b.digest b.hash)

instance (s : Store) (f : FetchRun) : Decidable (f.Agrees s) :=
  inferInstanceAs (Decidable (∀ b ∈ f.todo.head?, _ ∧ _))

namespace World

variable (node : Node) (w : World)

/-- No push in flight relies on a blob of that digest, and no record that the sweep has not seen
has one. -/
def Unneeded (d : Digest) : Prop :=
  (∀ p ∈ w.pushes, ∀ b ∈ p.relied node, b.digest ≠ d) ∧
    ∀ sw ∈ w.sweep, ∀ rel ∈ sw.fresh, rel ∈ w.store.releases.rows → ∀ b ∈ rel.allBlobs, b.digest ≠ d

instance (d : Digest) : Decidable (w.Unneeded node d) :=
  inferInstanceAs (Decidable (_ ∧ ∀ sw ∈ w.sweep, _))

/-- The digest whose pin a sweep has dropped, and whose entry it is about to drop. -/
def halfway : Option Digest := w.sweep.bind SweepRun.halfway

/-- The step drops nothing that a push in flight relies on, or a record the sweep has not seen, and
stops no sweep between a pin and its entry; deletes no content that a fetch has verified without
protecting it; passes over no blob indexed under another hash; and moves no pin. -/
def Considerate (a : Act) : Prop :=
  (∀ d ∈ w.halfway, w.Unneeded node d) ∧
    match a with
    | .upload data expect _ =>
        (∀ e ∈ expect, e = Digest.sha256 data) →
          w.store.Fits (Digest.sha256 data) (External.blake3 data)
    | .push i .store => ∀ p ∈ w.pushes[i]?, w.store.Fits p.blob.digest p.blob.hash
    | .fetch i (.advance _) => ∀ f ∈ w.fetches[i]?, f.Agrees w.store
    | .sweep .advance => ∀ sw ∈ w.sweep, ∀ d ∈ sw.pending.head?, w.Unneeded node d
    | .sweep .stop => w.halfway = none
    | .delete h => ∀ f ∈ w.fetches, f.stage = .pinning false → ∀ b ∈ f.todo.head?, b.hash ≠ h
    | _ => True

instance (a : Act) : Decidable (w.Considerate node a) := by
  unfold Considerate
  refine @instDecidableAnd _ _ inferInstance ?_
  cases a with
  | push i a => cases a <;> infer_instance
  | fetch i a => cases a <;> infer_instance
  | sweep a => cases a <;> infer_instance
  | _ => infer_instance

end World

end Ocid
