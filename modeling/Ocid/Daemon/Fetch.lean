import Ocid.Daemon.Store

/-!
# Daemon — Fetch — replicating one release

`fetchRelease` verifies a record, obtains its blobs one after the other, and stores the record.
For each blob it takes one of three ways (`fetchBlob`): the content is not held, and is downloaded,
verified and recorded; it is held under a digest the index does not know, and is verified and
recorded; or the content is held and the digest is indexed, and nothing is done.
-/

namespace Ocid

open Call

variable [External]

/-- What the network gives for the blob at a position of a release: content with the hash asked
for, or an error. -/
abbrev Downloads : Type := ℕ → (h : Blake3) → Except Err {c : Bytes // External.blake3 c = h}

/-- Download a blob into the store. -/
def download (net : Downloads) (i : ℕ) (b : BlobRef) : Op Unit :=
  match net i b.hash with
  | .ok c => write (.data c.1)
  | .error e => fail ["downloading " ++ b.digest.str ++ ": " ++ e.message]

/-- One round of the fetch loop. -/
def fetchBlob (providers : List EndpointId) (net : Downloads) (i : ℕ) (b : BlobRef) : Op Unit := do
  let s ← read
  if !s.hasHash b.hash then do
    ensure (!providers.isEmpty) ["no providers for blob " ++ b.digest.str]
    download net i b
    verifyBlob b
    recordBlob b
  else if (s.blobRef b.digest).isNone then do
    verifyBlob b
    recordBlob b
  else pure ()

/-- The fetch loop, from the position `i` on. -/
def fetchBlobs (providers : List EndpointId) (net : Downloads) : ℕ → List BlobRef → Op Unit
  | _, [] => pure ()
  | i, b :: bs => do
      fetchBlob providers net i b
      fetchBlobs providers net (i + 1) bs

/-- Obtain the blobs of a verified release, from others than the node itself, and store its record.
-/
def fetchReleaseInner (selfId : PublisherId) (release : Release) (providers : List EndpointId)
    (net : Downloads) : Op Unit := do
  let providers := providers.filter fun p => p ≠ selfId
  fetchBlobs providers net 0 release.allBlobs
  let _stored ← putRelease release
  pure ()

/-- Verify a release, download all its blobs from `providers`, verify their sha256, index them,
and store the release. -/
def fetchRelease (selfId : PublisherId) (release : Release) (providers : List EndpointId)
    (net : Downloads) : Op Unit := do
  ofExcept release.verify
  fetchReleaseInner selfId release providers net

/-! ### The writes of a fetch -/

theorem emits_readHash {P : Write → Prop} (h : Blake3) : Emits P (readHash h) := by
  refine Emits.read.bind fun s => ?_
  cases s.blobs.get h with
  | none => exact Emits.fail _
  | some c => exact Emits.pure _

theorem emits_verifyBlob {P : Write → Prop} (r : BlobRef) : Emits P (verifyBlob r) :=
  (emits_readHash _).bind fun _ => (Emits.ensure _ _).bind fun _ => Emits.ensure _ _

/-- A blob of a release is written, pinned and indexed, and nothing else. -/
theorem emits_fetchBlob {P : Write → Prop} {b : BlobRef}
    (hdata : ∀ c, External.blake3 c = b.hash → P (.data c)) (htag : P (.tag b.digest b.hash))
    (href : P (.blobRef b)) (providers : List EndpointId) (net : Downloads) (i : ℕ) :
    Emits P (fetchBlob providers net i b) := by
  have hrecord : Emits P (recordBlob b) :=
    (Emits.write htag).bind fun _ => Emits.write href
  have hdownload : Emits P (download net i b) := by
    unfold download
    cases net i b.hash with
    | ok c => exact Emits.write (hdata c.1 c.2)
    | error e => exact Emits.fail _
  refine Emits.read.bind fun s => Emits.ite (fun _ => ?_) fun _ => Emits.ite (fun _ => ?_) fun _ => ?_
  · exact (Emits.ensure _ _).bind fun _ => hdownload.bind fun _ =>
      (emits_verifyBlob b).bind fun _ => hrecord
  · exact (emits_verifyBlob b).bind fun _ => hrecord
  · exact Emits.pure _

theorem emits_fetchBlobs {P : Write → Prop} {bs : List BlobRef}
    (h : ∀ b ∈ bs, (∀ c, External.blake3 c = b.hash → P (.data c)) ∧ P (.tag b.digest b.hash) ∧
      P (.blobRef b)) (providers : List EndpointId) (net : Downloads) (i : ℕ) :
    Emits P (fetchBlobs providers net i bs) := by
  induction bs generalizing i with
  | nil => exact Emits.pure _
  | cons b bs ih =>
      obtain ⟨hdata, htag, href⟩ := h b List.mem_cons_self
      exact (emits_fetchBlob hdata htag href providers net i).bind fun _ =>
        ih (fun c hc => h c (List.mem_cons_of_mem _ hc)) (i + 1)

/-- The fetch loop writes no release record. -/
theorem emits_fetchBlobs_part (providers : List EndpointId) (net : Downloads) (i : ℕ)
    (bs : List BlobRef) :
    Emits (fun w : Write => w.part ≠ .releases) (fetchBlobs providers net i bs) :=
  emits_fetchBlobs
    (fun _ _ => ⟨fun _ _ => by simp [Write.part], by simp [Write.part], by simp [Write.part]⟩)
    providers net i

/-- A fetch removes no record, and the only one it writes is the release it was given, which
verifies. -/
theorem emits_fetchRelease_record (selfId : PublisherId) (release : Release)
    (providers : List EndpointId) (net : Downloads) :
    Emits (fun w => w.part = .releases → w = .release release ∧ release.verify = .ok ())
      (fetchRelease selfId release providers net) := by
  cases hv : release.verify with
  | error e =>
      rw [fetchRelease, hv]
      intro s w hw
      cases hw
  | ok u =>
      refine (Emits.ofExcept _).bind fun _ => Emits.bind ?_ fun _ => Emits.bind ?_ fun _ => ?_
      · exact (emits_fetchBlobs_part _ _ _ _).mono fun w hw hpart => absurd hpart hw
      · refine (emits_putRelease release).mono fun w hw hpart => ?_
        rcases List.mem_cons.mp hw with rfl | hw
        · exact ⟨rfl, rfl⟩
        · obtain ⟨x, -, rfl⟩ := List.mem_map.mp hw
          cases hpart
      · exact Emits.pure _

theorem emits_fetchRelease (selfId : PublisherId) (release : Release)
    (providers : List EndpointId) (net : Downloads) :
    Emits (fun w => ∀ r, w = .release r → r = release ∧ r.verify = .ok ())
      (fetchRelease selfId release providers net) := by
  refine (emits_fetchRelease_record selfId release providers net).mono fun w hw r hr => ?_
  subst hr
  obtain ⟨hrelease, hv⟩ := hw rfl
  cases hrelease
  exact ⟨rfl, hv⟩

/-- A fetch that comes to the record returns. -/
theorem fetchRelease_of_record {selfId : PublisherId} {release : Release}
    {providers : List EndpointId} {net : Downloads} {s : Store} {w : Write}
    (hw : w ∈ (fetchRelease selfId release providers net).journal s) (hpart : w.part = .releases) :
    (fetchRelease selfId release providers net).result s = .ok () := by
  rcases mem_journal_bind.mp hw with hw | ⟨u, hv, hw⟩
  · cases hw
  rcases mem_journal_bind.mp hw with hw | ⟨u', hb, hw⟩
  · exact absurd hpart (emits_fetchBlobs_part _ _ _ _ _ _ hw)
  obtain ⟨hn, ht⟩ := Release.valid_of_verify hv
  obtain ⟨x, hx⟩ : ∃ x, ∀ t, (putRelease release).result t = .ok (x t) :=
    ⟨fun t => t.accepts release, fun t => by rw [result, putRelease_apply hn ht]; split <;> simp [*]⟩
  exact result_bind_ok.mpr ⟨u, hv, result_bind_ok.mpr ⟨u', hb, result_bind_ok.mpr ⟨_, hx _, rfl⟩⟩⟩

/-! ### What a fetch leaves when it returns -/

/-- The parts of a fetch that returned: the record verified, and the blobs were all fetched. -/
theorem fetchRelease_ok {selfId : PublisherId} {release : Release} {providers : List EndpointId}
    {net : Downloads} {s : Store}
    (h : (fetchRelease selfId release providers net).result s = .ok ()) :
    release.verify = .ok () ∧
      let blobs := fetchBlobs (providers.filter fun p => p ≠ selfId) net 0 release.allBlobs
      blobs.result s = .ok () ∧
        (fetchRelease selfId release providers net).final s =
          (putRelease release).final (blobs.final s) := by
  obtain ⟨u, hv, h⟩ := result_bind_ok.mp h
  obtain ⟨u', hb, h⟩ := result_bind_ok.mp h
  obtain ⟨x, hp, h⟩ := result_bind_ok.mp h
  refine ⟨hv, hb, ?_⟩
  rw [fetchRelease, final_bind_of_ok hv, fetchReleaseInner, final_bind_of_ok hb,
    final_bind_of_ok hp, final_pure, final_ofExcept]

/-- The records after a fetch that returned. -/
theorem releases_fetchRelease {selfId : PublisherId} {release : Release}
    {providers : List EndpointId} {net : Downloads} {s : Store}
    (h : (fetchRelease selfId release providers net).result s = .ok ()) :
    ((fetchRelease selfId release providers net).final s).releases =
      if s.accepts release then s.releases.put release else s.releases := by
  obtain ⟨hv, -, hfinal⟩ := fetchRelease_ok h
  obtain ⟨hn, ht⟩ := Release.valid_of_verify hv
  have hframe := releases_final (s := s) (emits_fetchBlobs_part
    (providers.filter fun p => p ≠ selfId) net 0 release.allBlobs)
  rw [hfinal, releases_putRelease hn ht, Store.accepts, hframe, Store.accepts]

end Ocid
