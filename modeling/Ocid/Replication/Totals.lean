import Ocid.Daemon.Fetch
import Ocid.Daemon.Node
import Ocid.Daemon.Sample

/-!
# Replication — Totals — byte totals of a release

The sizes in a record are numbers of 64 bits that its publisher chose.  They are added up before any
blob is looked at, for the total of a fetch, and again in every listing; and a blob whose content is
here and indexed is not looked at at all.  The sums are those of 64-bit arithmetic, and nothing
bounds the numbers: they are the sums of the sizes exactly when those stay below `2 ^ 64`
(`byteTotals_iff`).
-/

namespace Ocid

open Call

/-! ### Sums of 64 bits -/

/-- `Iterator::sum` of numbers of 64 bits. -/
def sumU64 (ns : List ℕ) : ℕ := ns.foldl addU64 0

theorem foldl_addU64 {n : ℕ} (hn : n < 2 ^ 64) (ns : List ℕ) :
    ns.foldl addU64 n = (n + ns.sum) % 2 ^ 64 := by
  induction ns generalizing n with
  | nil => exact (Nat.mod_eq_of_lt hn).symm
  | cons k ns ih =>
      rw [List.foldl_cons, ih (addU64_lt n k), addU64, List.sum_cons, Nat.mod_add_mod,
        Nat.add_assoc]

/-- The sum is the sum of the numbers, up to the overflow. -/
theorem sumU64_eq (ns : List ℕ) : sumU64 ns = ns.sum % 2 ^ 64 := by
  rw [sumU64, foldl_addU64 (by decide), Nat.zero_add]

theorem sumU64_eq_sum_iff (ns : List ℕ) : sumU64 ns = ns.sum ↔ ns.sum < 2 ^ 64 := by
  rw [sumU64_eq]
  exact ⟨fun h => h ▸ Nat.mod_lt _ (by decide), Nat.mod_eq_of_lt⟩

/-! ### The totals of a release -/

/-- The sizes of a release, its manifest included. -/
def Release.sizes (r : Release) : List ℕ := r.allBlobs.map BlobRef.size

/-- The bytes of a release, as they are added up. -/
def Release.totalSize (r : Release) : ℕ := sumU64 r.sizes

/-- What a fetch says of its progress. -/
structure PullProgress where
  publisher : PublisherId
  name : Str
  tag : Str
  blobsDone : ℕ
  blobsTotal : ℕ
  bytesDone : ℕ
  bytesTotal : ℕ
deriving DecidableEq

/-- The progress of a release of which some blobs are done. -/
def Release.progress (r : Release) (blobsDone bytesDone : ℕ) : PullProgress where
  publisher := r.publisher
  name := r.name
  tag := r.payload.tag
  blobsDone := blobsDone
  blobsTotal := r.allBlobs.length
  bytesDone := bytesDone
  bytesTotal := sumU64 r.sizes

section
variable [External]

/-- What the fetch loop says, from the position `i` on, until a blob fails. -/
def fetchBlobsProgress (release : Release) (providers : List EndpointId) (net : Downloads) :
    ℕ → ℕ → List BlobRef → Store → List PullProgress
  | _, _, [], _ => []
  | i, bytesDone, b :: bs, s =>
      match (fetchBlob providers net i b).result s with
      | .error _ => []
      | .ok () =>
          release.progress (i + 1) (addU64 bytesDone b.size) ::
            fetchBlobsProgress release providers net (i + 1) (addU64 bytesDone b.size) bs
              ((fetchBlob providers net i b).final s)

/-- What `fetchReleaseInner` says of its progress. -/
def fetchProgress (selfId : PublisherId) (release : Release) (providers : List EndpointId)
    (net : Downloads) (s : Store) : List PullProgress :=
  release.progress 0 0 ::
    fetchBlobsProgress release (providers.filter fun p => p ≠ selfId) net 0 0 release.allBlobs s

/-- A release in a listing. -/
structure ReleaseInfo where
  summary : ReleaseSummary
  complete : Bool
  size : ℕ
  blobs : ℕ
  mine : Bool

/-- `GET /_ocid/releases`. -/
def ctlReleases (node : Node) (s : Store) : List ReleaseInfo :=
  s.listReleases.map fun r =>
    { summary := r.summary, complete := s.isComplete r, size := r.totalSize
      blobs := r.allBlobs.length, mine := r.publisher = node.id }

/-! ### Running totals -/

/-- The bytes that are done are some of those that there are. -/
theorem bytesDone_le {release : Release} {providers : List EndpointId} {net : Downloads}
    {bs : List BlobRef} {i n : ℕ} {s : Store}
    (h : n + (bs.map BlobRef.size).sum < 2 ^ 64) :
    ∀ e ∈ fetchBlobsProgress release providers net i n bs s,
      e.bytesDone ≤ n + (bs.map BlobRef.size).sum ∧ e.bytesTotal = sumU64 release.sizes := by
  induction bs generalizing i n s with
  | nil => exact nofun
  | cons b bs ih =>
      rw [List.map_cons, List.sum_cons] at h ⊢
      have hadd : addU64 n b.size = n + b.size := Nat.mod_eq_of_lt (by omega)
      intro e he
      rw [fetchBlobsProgress, hadd] at he
      split at he
      · cases he
      · rcases List.mem_cons.mp he with rfl | he
        · exact ⟨by show n + b.size ≤ _; omega, rfl⟩
        · obtain ⟨hle, htotal⟩ := ih (by omega) e he
          exact ⟨by omega, htotal⟩

/-- **The byte totals of a release are the sums of its sizes, in a fetch, in the record and in a
listing, and what is done is never more, exactly when the sizes together stay below `2 ^ 64`.** -/
theorem byteTotals_iff (r : Release) :
    ((∀ selfId providers net s, ∀ e ∈ fetchProgress selfId r providers net s,
        e.bytesTotal = r.sizes.sum ∧ e.bytesDone ≤ e.bytesTotal) ∧
      r.totalSize = r.sizes.sum ∧
      ∀ node s, s.releases.get r.ref = some r →
        ∃ info ∈ ctlReleases node s, info.summary = r.summary ∧ info.size = r.sizes.sum) ↔
      r.sizes.sum < 2 ^ 64 := by
  constructor
  · rintro ⟨-, htotal, -⟩
    exact (sumU64_eq_sum_iff _).mp htotal
  · intro h
    have htotal : sumU64 r.sizes = r.sizes.sum := (sumU64_eq_sum_iff _).mpr h
    refine ⟨fun selfId providers net s e he => ?_, htotal, fun node s hr => ?_⟩
    · rcases List.mem_cons.mp he with rfl | he
      · exact ⟨htotal, Nat.zero_le _⟩
      · have hsum : 0 + (r.allBlobs.map BlobRef.size).sum < 2 ^ 64 := by
          rw [Nat.zero_add]
          exact h
        obtain ⟨hdone, hbytes⟩ := bytesDone_le hsum e he
        rw [Nat.zero_add] at hdone
        rw [hbytes, htotal]
        exact ⟨rfl, hdone⟩
    · exact ⟨_, List.mem_map_of_mem (Store.mem_listReleases.mpr hr), rfl, htotal⟩

end

namespace Sample

/-- An index and a blob that are here, the blob said to have all but a byte of `2 ^ 64`. -/
def huge : Release :=
  releaseOf alice "app" "1" (index.blob (some mtOciIndex))
    [{ config.blob none with size := 2 ^ 64 - 1 }] 1700000000

/-- A store with both contents. -/
def withContents : @Store sample :=
  letI := sample
  (do let _ ← importBlob index.bytes (some mtOciIndex)
      importBlob config.bytes none : Op BlobRef).final Store.empty

end Sample

/-- A verified release whose blobs are here is fetched and stored, and its totals are 15 bytes, of
which 16 are done. -/
theorem totals_overflow : letI := sample
    Sample.huge.verify = .ok () ∧ Sample.huge.sizes.sum = 2 ^ 64 + 15 ∧
      ((fetchRelease Sample.bob.id Sample.huge [] Sample.downloads).final
        Sample.withContents).releases.get Sample.huge.ref = some Sample.huge ∧
      Sample.huge.totalSize = 15 ∧
      ∃ e ∈ fetchProgress Sample.bob.id Sample.huge [] Sample.downloads Sample.withContents,
        e.bytesTotal = 15 ∧ e.bytesDone = 16 := by
  let _ := sample
  refine ⟨by decide +kernel, by decide +kernel, by decide +kernel, by decide +kernel, ?_⟩
  decide +kernel

end Ocid
