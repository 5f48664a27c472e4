import Ocid.Core.Manifests
import Ocid.Core.Names

/-!
# Core — Release — signed release records

A release binds a `(publisher, name, tag)`, its `Ref`, to a manifest and to every blob the
manifest references, each addressed by its SHA-256 digest and by its BLAKE3 hash.  The publisher
signs the JSON text of the payload (`ReleasePayload.canonicalBytes`); `Release.verify` checks the
version, the name, the tag and the signature, and nothing that the record says about its blobs.

`supersedes` decides which of two records for one reference is kept: a later timestamp wins, and
so does an equal one with another manifest.  It is not an order: of two records of one second with
different manifests, each supersedes the other (`supersedes_of_tie`).
-/

namespace Ocid

/-- The version a payload is signed with. -/
def releaseVersion : ℕ := 1

/-- `u64 + u64`, without overflow checks. -/
def addU64 (a b : ℕ) : ℕ := (a + b) % 2 ^ 64

theorem addU64_lt (a b : ℕ) : addU64 a b < 2 ^ 64 := Nat.mod_lt _ (by decide)

/-- A content blob addressed both ways. -/
structure BlobRef where
  digest : Digest
  hash : Blake3
  size : ℕ
  mediaType : Option Str
deriving DecidableEq

/-- A manifest that refers to a release's manifest via `subject`. -/
structure Referrer where
  digest : Digest
  mediaType : Str
  size : ℕ
  artifactType : Option Str
  annotations : List (Str × Str)
deriving DecidableEq

/-- What a publisher signs: one tag of an image, with all its blobs. -/
structure ReleasePayload where
  version : ℕ
  publisher : PublisherId
  name : Str
  tag : Str
  /-- The tagged manifest (image manifest or index). -/
  manifest : BlobRef
  /-- Everything the manifest references, transitively, plus the blobs of attached referrers. -/
  blobs : List BlobRef
  /-- Unix seconds. -/
  timestamp : ℕ
  /-- Manifests attached to this release through the referrers API. -/
  referrers : List Referrer
deriving DecidableEq

/-- A payload with its signature. -/
structure Release where
  payload : ReleasePayload
  /-- Ed25519 signature (hex) over the canonical JSON encoding of `payload`. -/
  signature : Str
deriving DecidableEq

/-- What a release is a release of. -/
structure Ref where
  publisher : PublisherId
  name : Str
  tag : Str
deriving DecidableEq

/-- `<hex>/<name>:<tag>` -/
def Ref.toStr (r : Ref) : Str := r.publisher.toStr ++ '/' :: (r.name ++ ':' :: r.tag)

/-- With valid names, the text of a reference says all of it. -/
theorem Ref.toStr_inj {r q : Ref} (hr : validateName r.name = .ok ())
    (hq : validateName q.name = .ok ()) (h : r.toStr = q.toStr) : r = q := by
  have hcolon : ∀ {n : Str}, validateName n = .ok () → ':' ∉ n := fun hn hc =>
    ((validateName_eq_ok.mp hn).1.of_mem hc).1 rfl
  obtain ⟨hp, h⟩ := List.append_inj h (by rw [PublicKey.length_toStr, PublicKey.length_toStr])
  have h := congrArg (Str.splitOnce ':') (List.cons.inj h).2
  rw [Str.splitOnce_append (hcolon hr), Str.splitOnce_append (hcolon hq)] at h
  obtain ⟨publisher, name, tag⟩ := r
  obtain ⟨publisher', name', tag'⟩ := q
  cases PublicKey.toStr_inj hp
  cases h
  rfl

/-! ### The canonical encoding -/

/-- A blob reference as JSON, without a media type it does not have. -/
def BlobRef.toJson (b : BlobRef) : Json :=
  Json.obj ([(("digest" : Str), Json.str b.digest.str), ("hash", Json.str b.hash.toStr),
    ("size", Json.nat b.size)] ++
    (b.mediaType.map fun m => (("media_type" : Str), Json.str m)).toList)

/-- A referrer as JSON; what is empty is left out. -/
def Referrer.toJson (r : Referrer) : Json :=
  Json.obj ([(("digest" : Str), Json.str r.digest.str), ("media_type", Json.str r.mediaType),
    ("size", Json.nat r.size)] ++
    (r.artifactType.map fun a => (("artifact_type" : Str), Json.str a)).toList ++
    if r.annotations = [] then [] else
      [(("annotations" : Str), Json.obj (r.annotations.map fun a => (a.1, Json.str a.2)))])

/-- A payload as JSON. A payload without referrers does not mention them. -/
def ReleasePayload.toJson (p : ReleasePayload) : Json :=
  Json.obj ([(("version" : Str), Json.nat p.version), ("publisher", Json.str p.publisher.toStr),
    ("name", Json.str p.name), ("tag", Json.str p.tag), ("manifest", p.manifest.toJson),
    ("blobs", Json.arr (p.blobs.map BlobRef.toJson)), ("timestamp", Json.nat p.timestamp)] ++
    if p.referrers = [] then [] else
      [(("referrers" : Str), Json.arr (p.referrers.map Referrer.toJson))])

/-- What is signed. -/
def ReleasePayload.canonicalBytes (p : ReleasePayload) : Bytes := Str.toUtf8 p.toJson.render

namespace Release

/-- What the release is of: the key it is stored under. -/
def ref (r : Release) : Ref := ⟨r.payload.publisher, r.payload.name, r.payload.tag⟩

/-- The publisher of a release. -/
def publisher (r : Release) : PublisherId := r.payload.publisher

/-- The image name of a release. -/
def name (r : Release) : Str := r.payload.name

/-- `<hex>/<name>:<tag>` -/
def reference (r : Release) : Str := r.ref.toStr

/-- Manifest + all blobs. -/
def allBlobs (r : Release) : List BlobRef := r.payload.manifest :: r.payload.blobs

/-- The timestamp has a successor among the numbers of 64 bits. -/
def HasLater (r : Release) : Prop := r.payload.timestamp + 1 < 2 ^ 64

instance (r : Release) : Decidable r.HasLater := inferInstanceAs (Decidable (_ < _))

theorem HasLater.addU64_one {r : Release} (h : r.HasLater) :
    addU64 r.payload.timestamp 1 = r.payload.timestamp + 1 := Nat.mod_eq_of_lt h

/-- `r` replaces `other` in the store. -/
def supersedes (r other : Release) : Bool :=
  decide (other.payload.timestamp < r.payload.timestamp) ||
    (r.payload.timestamp == other.payload.timestamp &&
      r.payload.manifest.digest != other.payload.manifest.digest)

theorem supersedes_iff {r other : Release} : r.supersedes other = true ↔
    other.payload.timestamp < r.payload.timestamp ∨
      r.payload.timestamp = other.payload.timestamp ∧
        r.payload.manifest.digest ≠ other.payload.manifest.digest := by
  simp [supersedes]

theorem le_of_supersedes {r other : Release} (h : r.supersedes other = true) :
    other.payload.timestamp ≤ r.payload.timestamp := by
  rcases supersedes_iff.mp h with h | h
  · exact Nat.le_of_lt h
  · exact Nat.le_of_eq h.1.symm

theorem le_of_not_supersedes {r other : Release} (h : r.supersedes other = false) :
    r.payload.timestamp ≤ other.payload.timestamp := by
  by_contra hlt
  rw [supersedes_iff.mpr (Or.inl (Nat.lt_of_not_le hlt))] at h
  cases h

/-- In one second two different manifests replace each other, in either order. -/
theorem supersedes_of_tie {r other : Release}
    (ht : r.payload.timestamp = other.payload.timestamp)
    (hd : r.payload.manifest.digest ≠ other.payload.manifest.digest) :
    r.supersedes other = true ∧ other.supersedes r = true :=
  ⟨supersedes_iff.mpr (Or.inr ⟨ht, hd⟩), supersedes_iff.mpr (Or.inr ⟨ht.symm, hd.symm⟩)⟩

section
variable [External]

/-- Sign `payload` as `identity`; an unset timestamp becomes `now`. -/
def sign (identity : Identity) (payload : ReleasePayload) (now : ℕ) : Release :=
  let payload := { payload with
    version := releaseVersion
    publisher := identity.id
    timestamp := if payload.timestamp = 0 then now else payload.timestamp }
  { payload, signature := hexEncode (identity.sign payload.canonicalBytes) }

/-- Verify signature and structural sanity. -/
def verify (r : Release) : Except Err Unit := do
  if r.payload.version ≠ releaseVersion then
    .error ["unsupported release version " ++ Nat.toDigits 10 r.payload.version]
  else
    validateName r.payload.name
    validateTag r.payload.tag
    match hexDecode r.signature with
    | none => .error ["signature is not hex"]
    | some sig =>
        if sig.length ≠ 64 then .error ["signature has wrong length"]
        else Ocid.verify r.payload.publisher r.payload.canonicalBytes sig

/-- What a verified record is known to be: a valid name and a valid tag. -/
theorem valid_of_verify {r : Release} (h : r.verify = .ok ()) :
    validateName r.name = .ok () ∧ validateTag r.payload.tag = .ok () := by
  simp only [verify, bind, Except.bind, name] at h ⊢
  split at h
  · cases h
  · cases hn : validateName r.payload.name with
    | error e =>
        rw [hn] at h
        cases h
    | ok u =>
        cases ht : validateTag r.payload.tag with
        | error e =>
            rw [hn, ht] at h
            cases h
        | ok u' => exact ⟨rfl, rfl⟩

end

end Release

/-- Compact description used in inventories and announcements. -/
structure ReleaseSummary where
  publisher : PublisherId
  name : Str
  tag : Str
  manifestDigest : Digest
  timestamp : ℕ
deriving DecidableEq

/-- What the summary is of. -/
def ReleaseSummary.ref (s : ReleaseSummary) : Ref := ⟨s.publisher, s.name, s.tag⟩

/-- What a release is announced and listed as. -/
def Release.summary (r : Release) : ReleaseSummary :=
  { publisher := r.payload.publisher
    name := r.payload.name
    tag := r.payload.tag
    manifestDigest := r.payload.manifest.digest
    timestamp := r.payload.timestamp }

end Ocid
