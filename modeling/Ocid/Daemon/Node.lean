import Ocid.Daemon.Fetch
import Ocid.Daemon.Naming

/-!
# Daemon — Node — replication, windows and sweeps

The operations by which a node obtains releases from its peers and drops what it need not keep:
`getOrFetch` for a pull, `onAnnouncement` and `syncWith` for replication, `enforceWindow` and
`sweepBlobsLocked` behind them.

A peer is not trusted.  What it answers to one `GetRelease`, what its content is, and where the
fetch of an answered release is stopped, is one `Exchange`; every result is for all exchanges.
-/

namespace Ocid

open Call

/-- What a node is while it handles one request. -/
structure Node where
  identity : Identity
  policy : Policy
  /-- The swarm neighbors, in the order of their ids. -/
  neighbors : List EndpointId
  /-- The remembered peers. -/
  peers : List EndpointId
  /-- What DNS answers for a zone. -/
  dns : Str → Except Err ZoneOutcome

variable [External]

/-- The publisher id of a node. -/
def Node.id (node : Node) : PublisherId := node.identity.id

/-- What one `GetRelease` leads to: the answer after decoding, where a timeout is an error; the
content given for the blobs of an answered release; and the fault, if any, that stops the fetch. -/
structure Exchange where
  answer : Except Err (Option Release)
  downloads : Downloads
  fault : Option (ℕ × Err)

/-- Fetch the release that was answered. -/
def Exchange.fetch (net : Exchange) (node : Node) (release : Release)
    (providers : List EndpointId) : Op Unit :=
  (fetchRelease node.id release providers net.downloads).cut net.fault

/-! ### Pulling -/

/-- Peers worth asking about `publisher`'s images. -/
def candidatePeers (node : Node) (publisher : PublisherId) : List EndpointId :=
  let out := node.peers.foldl (fun out p => if p ∈ out then out else out ++ [p]) node.neighbors
  let out := if publisher ∈ out then out else out ++ [publisher]
  out.filter fun id => id ≠ node.id

/-- Ask `peers` one after the other, and fetch the first release answered. -/
def askPeers (node : Node) (publisher : PublisherId) (net : EndpointId → Exchange) :
    List EndpointId → Op (Option Release)
  | [] => pure none
  | peer :: peers =>
      match (net peer).answer with
      | .ok (some rel) => do
          let providers := if publisher ≠ peer then [peer, publisher] else [peer]
          (net peer).fetch node rel providers
          pure (some rel)
      | .ok none | .error _ => askPeers node publisher net peers

/-- Return a complete local release, fetching it from peers if necessary. -/
def getOrFetch (node : Node) (publisher : PublisherId) (name tag : Str)
    (net : EndpointId → Exchange) : Op (Option Release) := do
  let s ← read
  match ← getRelease publisher name tag with
  | some r =>
      if s.isComplete r then pure (some r)
      else if publisher = node.id then pure none
      else askPeers node publisher net (candidatePeers node publisher)
  | none =>
      if publisher = node.id then pure none
      else askPeers node publisher net (candidatePeers node publisher)

/-- What a pull of a valid name and tag does: it returns the record held if that one is complete,
and asks the candidate peers otherwise. -/
theorem getOrFetch_apply (node : Node) {publisher : PublisherId} {name tag : Str} {r : Ref}
    (hp : releasePath publisher name tag = .ok r) (net : EndpointId → Exchange) (s : Store) :
    getOrFetch node publisher name tag net s =
      match (s.releases.get r).filter fun rel => s.isComplete rel with
      | some rel => ([], .ok (some rel))
      | none =>
          if publisher = node.id then ([], .ok none)
          else askPeers node publisher net (candidatePeers node publisher) s := by
  rw [getOrFetch, read_bind_apply, bind_apply_of_ok (getRelease_apply hp s), replay_nil]
  cases hg : s.releases.get r with
  | none =>
      simp only [Option.filter_none, journal, result, List.nil_append]
      split <;> rfl
  | some rel =>
      cases hc : s.isComplete rel with
      | true => simp [Option.filter_some, hc, journal, result, pure]
      | false =>
          simp only [Option.filter_some, hc, journal, result, List.nil_append, if_false,
            Bool.false_eq_true]
          split <;> rfl

/-! ### Choosing what to replicate -/

/-- The records of one image under the tags `ts`. -/
def releasesAt (publisher : PublisherId) (name : Str) : List Str → Op (List Release)
  | [] => pure []
  | t :: ts => do
      let r ← getRelease publisher name t
      let rs ← releasesAt publisher name ts
      pure (r.toList ++ rs)

/-- The records held of one image. -/
def localReleasesOf (publisher : PublisherId) (name : Str) : Op (List Release) := do
  let tags ← listTags publisher name
  releasesAt publisher name tags

/-- What a window is computed over. -/
def tagTimes (rs : List Release) : List (Str × ℕ) :=
  rs.map fun r => (r.payload.tag, r.payload.timestamp)

/-- From a set of remotely known releases of one image, those we should fetch: inside the policy
window (computed over local + remote knowledge) and newer than what we hold. -/
def selectWanted (policy : Policy) (publisher : PublisherId) (name : Str)
    (remote : List ReleaseSummary) : Op (List ReleaseSummary) := do
  let window := policy.window publisher name
  if window.isEmpty then pure []
  else do
    let held ← localReleasesOf publisher name
    let known := tagTimes held ++ remote.map fun s => (s.tag, s.timestamp)
    let selected := window.select known
    pure (remote.filter fun s => s.tag ∈ selected ∧
      ((tagTimes held).lookup s.tag).all fun ts => ts < s.timestamp)

/-! ### Sweeping -/

/-- Drop the pin (named tag) of a blob. -/
def unpinBlob (digest : Digest) : Op Unit := write (.untag digest)

/-- Drop the index entry of a digest; says whether there was one. -/
def removeBlobRef (digest : Digest) : Op Bool := do
  let s ← read
  if s.digests.has digest then do
    write (.dropBlobRef digest)
    pure true
  else pure false

/-- The hashes some release that is not ignored references. -/
def liveHashes (s : Store) (ignore : List Str) : List Blake3 :=
  (s.listReleases.filter fun r => r.reference ∉ ignore).flatMap fun r => r.allBlobs.map BlobRef.hash

/-- Drop the pin and the index entry of a blob, unless this is a dry run. -/
def sweepBlob (dryRun : Bool) (digest : Digest) : Op Unit :=
  if dryRun then pure ()
  else do
    unpinBlob digest
    let _ ← removeBlobRef digest
    pure ()

/-- Unpin what is not live; returns how many blobs and how many bytes. -/
def sweepPins (dryRun : Bool) (live : List Blake3) : List (Digest × Blake3) → Op (ℕ × ℕ)
  | [] => pure (0, 0)
  | (digest, hash) :: pins => do
      if hash ∈ live then sweepPins dryRun live pins
      else do
        let s ← read
        let size := ((s.blobRef digest).map BlobRef.size).getD 0
        sweepBlob dryRun digest
        let counts ← sweepPins dryRun live pins
        pure (counts.1 + 1, counts.2 + size)

/-- Drop index entries whose pin is already gone. -/
def sweepEntries (dryRun : Bool) (live pinned : List Blake3) : List BlobRef → Op Unit
  | [] => pure ()
  | b :: bs => do
      if b.hash ∉ live ∧ b.hash ∉ pinned ∧ dryRun = false then do
        let _ ← removeBlobRef b.digest
        sweepEntries dryRun live pinned bs
      else sweepEntries dryRun live pinned bs

/-- `ignore` lists release references to treat as already removed (dry runs). -/
def sweepBlobsLocked (dryRun : Bool) (ignore : List Str) : Op (ℕ × ℕ) := do
  let s ← read
  let live := liveHashes s ignore
  let counts ← sweepPins dryRun live s.listPins
  let s ← read
  sweepEntries dryRun live (s.listPins.map Prod.snd) s.listBlobRefs
  pure counts

/-- Remove the records of one image whose tag is not selected; returns how many. -/
def removeOutside (publisher : PublisherId) (name : Str) (selected : List Str) :
    List Release → Op ℕ
  | [] => pure 0
  | r :: rs => do
      if r.payload.tag ∈ selected then removeOutside publisher name selected rs
      else do
        let gone ← removeRelease publisher name r.payload.tag
        let n ← removeOutside publisher name selected rs
        pure (if gone then n + 1 else n)

/-- After an image changed: drop local releases that fell out of its window and sweep their
blobs. -/
def enforceWindow (node : Node) (publisher : PublisherId) (name : Str) : Op Unit :=
  if publisher = node.id then pure ()
  else
    let window := node.policy.window publisher name
    if window.isEmpty then pure ()
    else do
      let held ← localReleasesOf publisher name
      let selected := window.select (tagTimes held)
      let removed ← removeOutside publisher name selected held
      if 0 < removed then do
        let _ ← sweepBlobsLocked false []
        pure ()
      else pure ()

/-! ### Announcements -/

/-- Ask the providers of an announced release one after the other. -/
def askProviders (node : Node) (s : ReleaseSummary) (providers : List EndpointId)
    (net : EndpointId → Exchange) : List EndpointId → Op Unit
  | [] => fail ["no peer could provide release " ++ s.publisher.fmtShort ++ '/' :: (s.name ++
      ':' :: s.tag)]
  | p :: ps =>
      match (net p).answer with
      | .ok (some rel) => do
          (net p).fetch node rel providers
          enforceWindow node s.publisher s.name
      | .ok none | .error _ => askProviders node s providers net ps

/-- Handle an announced release: if it is wanted, ask who sent it, and its publisher. -/
def onAnnouncement (node : Node) (s : ReleaseSummary) (source : EndpointId)
    (net : EndpointId → Exchange) : Op Unit := do
  let wanted ← selectWanted node.policy s.publisher s.name [s]
  if wanted.isEmpty then pure ()
  else
    let providers := if s.publisher ≠ source then [source, s.publisher] else [source]
    askProviders node s providers net providers

/-! ### Inventories -/

/-- The releases a peer lists of one image. -/
structure Repo where
  publisher : PublisherId
  name : Str
  remote : List ReleaseSummary

/-- The order of `(publisher, name)`. -/
def repoBefore (a b : PublisherId × Str) : Prop :=
  a.1.key.bytes < b.1.key.bytes ∨ (a.1 = b.1 ∧ a.2 ≤ b.2)

instance : DecidableRel repoBefore := fun a b =>
  inferInstanceAs (Decidable (a.1.key.bytes < b.1.key.bytes ∨ (a.1 = b.1 ∧ a.2 ≤ b.2)))

/-- An inventory by image, without the node's own. -/
def byRepo (node : Node) (inv : List ReleaseSummary) : List Repo :=
  let inv := inv.filter fun s => s.publisher ≠ node.id
  let keys := ((inv.map fun s => (s.publisher, s.name)).dedup).insertionSort repoBefore
  keys.map fun k =>
    { publisher := k.1, name := k.2, remote := inv.filter fun s => (s.publisher, s.name) = k }

/-- Replicate `wanted` from `peer`, the `i`-th one through the exchange `net i`.  A release that
cannot be fetched is skipped; a request that fails ends the sync. -/
def replicate (node : Node) (peer : EndpointId) (net : ℕ → Exchange) :
    ℕ → List ReleaseSummary → Op Unit
  | _, [] => pure ()
  | i, _ :: wanted =>
      match (net i).answer with
      | .error e => fail e
      | .ok none => replicate node peer net (i + 1) wanted
      | .ok (some rel) => do
          let _ ← attempt ((net i).fetch node rel [peer])
          replicate node peer net (i + 1) wanted

/-- Handle what a peer lists of one image. -/
def syncRepo (node : Node) (peer : EndpointId) (net : ℕ → Exchange) (repo : Repo) : Op Unit := do
  let wanted ← selectWanted node.policy repo.publisher repo.name repo.remote
  if wanted.isEmpty then pure ()
  else do
    replicate node peer net 0 wanted
    enforceWindow node repo.publisher repo.name

/-- Handle a peer's images one after the other, the `j`-th one through the exchanges `net j`. -/
def syncRepos (node : Node) (peer : EndpointId) (net : ℕ → ℕ → Exchange) :
    ℕ → List Repo → Op Unit
  | _, [] => pure ()
  | j, repo :: repos => do
      syncRepo node peer (net j) repo
      syncRepos node peer net (j + 1) repos

/-- Fetch the peer's inventory and replicate what policy wants. -/
def syncWith (node : Node) (peer : EndpointId) (inventory : Except Err (List ReleaseSummary))
    (net : ℕ → ℕ → Exchange) : Op Unit := do
  let inv ← ofExcept inventory
  syncRepos node peer net 0 (byRepo node inv)

end Ocid
