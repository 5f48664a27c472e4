import Ocid.Daemon.Node

/-!
# Daemon — Collect — garbage collection

`retainedSet` names the releases a node must keep: its own, and those inside a policy window.
`gc` removes the others, but for the young ones of a collection that is not forced; then it sweeps
the blobs and the referrer records that nothing needs any more.

The time since a record was last written is a parameter (`young`): with `force` it is not looked
at.
-/

namespace Ocid

open Call

/-- A request to collect garbage. -/
structure GcReq where
  /-- Report only; remove nothing. -/
  dryRun : Bool
  /-- Ignore the grace period for unseeded releases. -/
  force : Bool
deriving DecidableEq

/-- What was removed, or would be in a dry run. -/
structure GcReport where
  dryRun : Bool
  /-- References of releases removed (or that would be removed). -/
  releasesRemoved : List Str
  blobsRemoved : ℕ
  bytesFreed : ℕ
deriving DecidableEq

section
variable [External]

/-- The images of a list of releases, in order. -/
def reposOf (releases : List Release) : List (PublisherId × Str) :=
  ((releases.map fun r => (r.publisher, r.name)).dedup).insertionSort repoBefore

/-- Of the releases of one image, the references of those we must keep. -/
def retainedOf (node : Node) (policy : Policy) (repo : PublisherId × Str) (rels : List Release) :
    List Str :=
  if repo.1 = node.id then rels.map Release.reference
  else
    let window := policy.window repo.1 repo.2
    if window.isEmpty then []
    else
      let selected := window.select (tagTimes rels)
      (rels.filter fun r => r.payload.tag ∈ selected).map Release.reference

/-- Releases we must keep: ours, pinned, or inside a policy window.  Everything else is cache and
subject to the grace period. -/
def retainedSet (node : Node) (policy : Policy) (releases : List Release) : List Str :=
  (reposOf releases).flatMap fun repo =>
    retainedOf node policy repo (releases.filter fun r => (r.publisher, r.name) = repo)

/-- The release is passed over: it is kept, or young. -/
def GcReq.spares (req : GcReq) (keep : List Str) (young : Release → Bool) (r : Release) : Bool :=
  r.reference ∈ keep || (!req.force && young r)

/-- Remove the record, unless this is a dry run. -/
def collectRelease (req : GcReq) (r : Release) : Op Unit :=
  if req.dryRun then pure ()
  else do
    let _ ← removeRelease r.publisher r.name r.payload.tag
    pure ()

/-- Remove the records that are not spared; returns their references. -/
def collectReleases (req : GcReq) (keep : List Str) (young : Release → Bool) :
    List Release → Op (List Str)
  | [] => pure []
  | r :: rs =>
      if req.spares keep young r then collectReleases req keep young rs
      else do
        collectRelease req r
        let removed ← collectReleases req keep young rs
        pure (r.reference :: removed)

/-- Drop the referrer records of the list. -/
def dropReferrers : List (Digest × Referrer) → Op Unit
  | [] => pure ()
  | p :: ps => do
      write (.dropReferrer p.1 p.2.digest)
      dropReferrers ps

/-- Drop referrer records whose manifest blob is no longer indexed. -/
def pruneReferrers : Op ℕ := do
  let s ← read
  let stale := s.referrers.rows.filter fun p => !s.digests.has p.2.digest
  dropReferrers stale
  pure stale.length

/-- The referrer records are pruned, unless this is a dry run. -/
def collectReferrers (req : GcReq) : Op Unit :=
  if req.dryRun then pure ()
  else do
    let _ ← pruneReferrers
    pure ()

/-- Garbage collection: prune replicated releases that policy does not want (past grace), and sweep
blobs no release references. -/
def gc (node : Node) (req : GcReq) (young : Release → Bool) : Op GcReport := do
  let s ← read
  let keep := retainedSet node node.policy s.listReleases
  let removed ← collectReleases req keep young s.listReleases
  let counts ← sweepBlobsLocked req.dryRun removed
  collectReferrers req
  pure ⟨req.dryRun, removed, counts.1, counts.2⟩

/-! ### Removing releases -/

/-- What removing releases did. -/
structure RmResp where
  removed : List Str
  /-- The policy still wants this image; it will be replicated again unless unseeded. -/
  stillWanted : Bool
deriving DecidableEq

/-- Remove the records of one image under the tags `ts`; returns their references. -/
def removeTags (publisher : PublisherId) (name : Str) : List Str → Op (List Str)
  | [] => pure []
  | t :: ts => do
      let gone ← removeRelease publisher name t
      let removed ← removeTags publisher name ts
      pure (if gone then (Ref.mk publisher name t).toStr :: removed else removed)

/-- The tag that is given, or every tag of the image. -/
def tagsOf (publisher : PublisherId) (name : Str) : Option Str → Op (List Str)
  | some t => pure [t]
  | none => listTags publisher name

/-- Remove release records.  Without a tag, every tag of the image.  Orphaned blobs are swept
afterwards. -/
def Node.removeRelease (node : Node) (publisher : PublisherId) (name : Str) (tag : Option Str) :
    Op RmResp := do
  let tags ← tagsOf publisher name tag
  let removed ← removeTags publisher name tags
  let stillWanted := publisher ≠ node.id && node.policy.covers publisher name
  if removed.isEmpty then pure ⟨removed, stillWanted⟩
  else do
    let _ ← sweepBlobsLocked false []
    pure ⟨removed, stillWanted⟩

/-! ### All windows -/

/-- Apply the windows of images one after the other. -/
def enforceRepos (node : Node) : List (PublisherId × Str) → Op Unit
  | [] => pure ()
  | repo :: repos => do
      enforceWindow node repo.1 repo.2
      enforceRepos node repos

/-- Apply windows to every image we hold (after a policy change). -/
def enforceAllWindows (node : Node) : Op Unit := do
  let s ← read
  enforceRepos node (reposOf s.listReleases)

/-- Apply a policy mutation: run `f` on a copy of the current policy, persist it, swap it in, and
bring the windows in line.  What enforcing the windows fails with is only logged. -/
def mutatePolicy (node : Node) (f : Policy → Except Err (Policy × Bool)) (saved : Except Err Unit) :
    Op (Node × Bool) := do
  let out ← ofExcept (f node.policy)
  ofExcept saved
  let node := { node with policy := out.1 }
  let _ ← attempt (enforceAllWindows node)
  pure (node, out.2)

/-! ### With the uploads -/

/-- What a collection works on: the store, and the temp files of the uploads. -/
structure GcState where
  store : Store
  uploads : List Str

/-- What a collection reports in the end. -/
structure GcAnswer extends GcReport where
  uploadsRemoved : ℕ
deriving DecidableEq

/-- Remove upload temp files older than a day (`old`); returns how many. -/
def pruneUploads (dryRun : Bool) (old : Str → Bool) (uploads : List Str) : ℕ × List Str :=
  ((uploads.filter old).length, if dryRun then uploads else uploads.filter fun u => !old u)

/-- A whole collection: after the blobs, the uploads. -/
def collectGarbage (node : Node) (req : GcReq) (young : Release → Bool) (old : Str → Bool)
    (w : GcState) : GcState × Except Err GcAnswer :=
  let store := (gc node req young).final w.store
  match (gc node req young).result w.store with
  | .error e => (⟨store, w.uploads⟩, .error e)
  | .ok report =>
      let pruned := pruneUploads req.dryRun old w.uploads
      (⟨store, pruned.2⟩, .ok { report with uploadsRemoved := pruned.1 })

/-! ### What is kept -/

omit [External] in
theorem mem_reposOf {releases : List Release} {repo : PublisherId × Str} :
    repo ∈ reposOf releases ↔ ∃ r ∈ releases, (r.publisher, r.name) = repo := by
  rw [reposOf, List.mem_insertionSort, List.mem_dedup, List.mem_map]

omit [External] in
/-- A window without a rule selects nothing. -/
theorem Window.select_of_isEmpty {w : Window} (h : w.isEmpty = true) (known : List (Str × ℕ)) :
    w.select known = [] := by
  simp only [isEmpty, Bool.and_eq_true, Bool.not_eq_true', beq_iff_eq, List.isEmpty_iff] at h
  obtain ⟨⟨hfull, hlast⟩, htags⟩ := h
  simp [select, hfull, hlast, htags]

theorem mem_retainedOf {node : Node} {policy : Policy} {repo : PublisherId × Str}
    {rels : List Release} {x : Str} :
    x ∈ retainedOf node policy repo rels ↔ ∃ r ∈ rels, r.reference = x ∧
      (repo.1 = node.id ∨ r.payload.tag ∈ (policy.window repo.1 repo.2).select (tagTimes rels)) := by
  rw [retainedOf]
  by_cases hown : repo.1 = node.id
  · simp [hown]
  · cases hw : (policy.window repo.1 repo.2).isEmpty with
    | true => simp [hown, hw, Window.select_of_isEmpty hw]
    | false =>
        simp only [hown, hw, if_false, false_or, Bool.false_eq_true, List.mem_map,
          List.mem_filter, decide_eq_true_eq, and_assoc, and_comm (a := _ ∈ Window.select _ _)]

/-- With valid names, a release is retained exactly when it is the node's own, or its tag is among
those the policy selects of its image. -/
theorem reference_mem_retainedSet {node : Node} {policy : Policy} {releases : List Release}
    (hnames : ∀ r ∈ releases, validateName r.name = .ok ()) {rel : Release}
    (hrel : rel ∈ releases) :
    rel.reference ∈ retainedSet node policy releases ↔ rel.publisher = node.id ∨
      rel.payload.tag ∈ (policy.window rel.publisher rel.name).select
        (tagTimes (releases.filter fun r => (r.publisher, r.name) = (rel.publisher, rel.name))) := by
  rw [retainedSet, List.mem_flatMap]
  constructor
  · rintro ⟨repo, -, hmem⟩
    obtain ⟨r, hr, href, hkeep⟩ := mem_retainedOf.mp hmem
    obtain ⟨hr, hrepo⟩ := List.mem_filter.mp hr
    -- the release found under the text is of the same reference
    have hsame : r.ref = rel.ref := Ref.toStr_inj (hnames r hr) (hnames rel hrel) href
    have htag : r.payload.tag = rel.payload.tag := congrArg Ref.tag hsame
    obtain rfl : repo = (rel.publisher, rel.name) :=
      (of_decide_eq_true hrepo).symm.trans
        (Prod.ext (congrArg Ref.publisher hsame) (congrArg Ref.name hsame))
    rwa [htag] at hkeep
  · intro hkeep
    refine ⟨(rel.publisher, rel.name), mem_reposOf.mpr ⟨rel, hrel, rfl⟩, mem_retainedOf.mpr ?_⟩
    exact ⟨rel, List.mem_filter.mpr ⟨hrel, decide_eq_true rfl⟩, rfl, hkeep⟩

end

end Ocid
