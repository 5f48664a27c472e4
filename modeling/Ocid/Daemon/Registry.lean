import Ocid.Daemon.Publish

/-!
# Daemon — Registry — the manifest routes of the OCI registry

`manifestGet` serves a manifest by digest or by tag, `manifestPut` takes a push.  A push first
checks that every blob the manifest references is here (`collectRefs`), then stores the manifest,
attaches it to the releases of its subject, and, when it was pushed under a tag, signs and
publishes a release.

`collectRefs` descends into indexes by `fuel`, which is more than the index has entries.
-/

namespace Ocid

open Call

/-- An error of the registry. -/
structure OciError where
  status : ℕ
  code : Str
  message : Str
deriving DecidableEq

namespace OciError

/-- Nothing of this name. -/
def notFound (code message : Str) : OciError := ⟨404, code, message⟩

/-- The request does not make sense. -/
def badRequest (code message : Str) : OciError := ⟨400, code, message⟩

/-- `bad`: status 400, code `UNSUPPORTED`. -/
def bad (message : Str) : OciError := ⟨400, "UNSUPPORTED", message⟩

/-- An error of the node, with the whole chain of its messages. -/
def internal (e : Err) : OciError := ⟨500, "UNKNOWN", e.chain⟩

/-- No answer at all: the handler has panicked, and the connection is closed.  There is no status. -/
def panicked : OciError := ⟨0, [], []⟩

end OciError

/-- An answer of the registry. -/
structure Response where
  status : ℕ
  headers : List (Str × Str)
  body : Bytes
deriving DecidableEq

/-- The value of a header. -/
def Response.header (r : Response) (name : Str) : Option Str := r.headers.lookup name

/-- `HeaderValue::try_from` takes the text: it has no control characters but tabs. -/
def validHeaderValue (s : Str) : Bool :=
  s.all fun c => c = '\t' || (32 ≤ c.toNat && c.toNat ≠ 127)

/-- The response can be built. -/
def Response.Sendable (r : Response) : Prop := ∀ h ∈ r.headers, validHeaderValue h.2 = true

instance (r : Response) : Decidable r.Sendable :=
  inferInstanceAs (Decidable (∀ h ∈ r.headers, _))

variable [External]

/-- A registry request, running on the node's store. -/
abbrev Handler (α : Type) : Type := Call Store Write OciError α

/-- An operation of the node inside a request: its errors are internal. -/
def Op.lift {α : Type} (m : Op α) : Handler α := m.mapErr OciError.internal

/-- `Response::builder` with the headers and the body, unwrapped: it panics at a text that cannot be
the value of a header. -/
def respond (r : Response) : Handler Response := do
  ensure (decide r.Sendable) .panicked
  pure r

/-- Resolve a registry repository path, with DNS publisher names first. -/
def resolve (node : Node) (name : Str) : Except OciError (PublisherId × Str) :=
  match rewriteDnsPublisher node.dns name with
  | .error e => .error (.badRequest "NAME_INVALID" e.message)
  | .ok name => (resolveRepo name node.policy node.id).mapError fun e =>
      .badRequest "NAME_INVALID" e.message

/-- `validateTag`, for a request. -/
def checkTag (reference : Str) : Except OciError Unit :=
  (validateTag reference).mapError fun e => .badRequest "TAG_INVALID" e.message

/-! ### Serving manifests -/

/-- The blob of a manifest asked for by digest: any manifest we know. -/
def manifestByDigest (digest : Digest) : Handler BlobRef := do
  let s ← read
  match (s.blobRef digest).filter fun b => s.hasHash b.hash with
  | some b => pure b
  | none => fail (.notFound "MANIFEST_UNKNOWN" ("manifest " ++ digest.str ++ " not found"))

/-- The blob of a manifest asked for by tag.  When the time is up after `k` writes of the pull,
the pull is dropped there. -/
def manifestByTag (node : Node) (publisher : PublisherId) (image name reference : Str)
    (net : EndpointId → Exchange) (timeout : Option ℕ) : Handler BlobRef := do
  ofExcept (checkTag reference)
  let late : OciError := .notFound "MANIFEST_UNKNOWN"
    ("timed out fetching " ++ name ++ ':' :: (reference ++ " from peers"))
  match ← cut (timeout.map fun k => (k, late)) (getOrFetch node publisher image reference net).lift
    with
  | some r => pure r.payload.manifest
  | none => fail (.notFound "MANIFEST_UNKNOWN"
      (name ++ ':' :: (reference ++ " not found locally or on any peer")))

/-- The blob of a manifest, by digest or by tag. -/
def manifestBlob (node : Node) (publisher : PublisherId) (image name reference : Str)
    (net : EndpointId → Exchange) (timeout : Option ℕ) : Handler BlobRef :=
  match Digest.parse reference with
  | .ok digest => manifestByDigest digest
  | .error _ => manifestByTag node publisher image name reference net timeout

/-- The answer with the manifest `blob`. -/
def serveManifest (blob : BlobRef) (head : Bool) : Handler Response := do
  let headers : List (Str × Str) :=
    [("content-type", blob.mediaType.getD mtOciManifest),
      ("content-length", Nat.toDigits 10 blob.size),
      ("docker-content-digest", blob.digest.str)]
  if head then respond ⟨200, headers, []⟩
  else do
    let bytes ← (readHash blob.hash).lift
    respond ⟨200, headers ++ [(("etag" : Str), '"' :: (blob.digest.str ++ ['"']))], bytes⟩

/-- `GET` and `HEAD` of a manifest. -/
def manifestGet (node : Node) (name reference : Str) (head : Bool) (net : EndpointId → Exchange)
    (timeout : Option ℕ) : Handler Response := do
  let r ← ofExcept (resolve node name)
  let blob ← manifestBlob node r.1 r.2 name reference net timeout
  serveManifest blob head

/-! ### Collecting what a manifest references -/

/-- The index entry of a referenced blob whose content is here; an entry without media type takes
the descriptor's. -/
def referencedBlob (d : Descriptor) : Handler BlobRef := do
  let s ← read
  match (s.blobRef d.digest).filter fun r => s.hasHash r.hash with
  | none => fail (.badRequest "MANIFEST_BLOB_UNKNOWN"
      ("referenced blob " ++ d.digest.str ++ " has not been uploaded"))
  | some r =>
      if r.mediaType.isNone then do
        let r := { r with mediaType := some d.mediaType }
        (recordBlob r).lift
        pure r
      else pure r

/-- The manifest that a referenced blob holds. -/
def childManifest (d : Descriptor) (r : BlobRef) : Handler Manifest := do
  let bytes ← (readHash r.hash).lift
  ofExcept ((Manifest.parse bytes (some d.mediaType)).mapError fun e =>
    .badRequest "MANIFEST_INVALID" e.message)

/-- Gather the blobs of `ds`; `descend` gathers those of a child manifest. -/
def collectList (descend : Manifest → List BlobRef → Handler (List BlobRef)) :
    List Descriptor → List BlobRef → Handler (List BlobRef)
  | [], out => pure out
  | d :: ds, out => do
      let r ← referencedBlob d
      if out.any fun b => b.digest = r.digest then collectList descend ds out
      else if isManifestMediaType d.mediaType then do
        let child ← childManifest d r
        let out ← descend child (out ++ [r])
        collectList descend ds out
      else collectList descend ds (out ++ [r])

/-- Gather every blob a manifest references (recursing into indexes). -/
def collectRefs : ℕ → Manifest → List BlobRef → Handler (List BlobRef)
  | 0, manifest, out =>
      collectList (fun _ _ => fail (.internal ["out of fuel"])) manifest.referenced out
  | fuel + 1, manifest, out => collectList (collectRefs fuel) manifest.referenced out

/-! ### Taking manifests -/

/-- The most bytes a manifest may have. -/
def maxManifest : ℕ := 4 * 1024 * 1024

/-- One `PUT` of a manifest. -/
structure Push where
  name : Str
  reference : Str
  /-- The `Content-Type` header, when it is text. -/
  contentType : Option Str
  /-- What reading the body gives. -/
  body : Except Err Bytes

/-- The push is under a tag, not by digest. -/
def Push.isTag (push : Push) : Bool := !Digest.wellFormed push.reference

/-- The content type without its parameters. -/
def Push.mediaType (push : Push) : Option Str :=
  push.contentType.map fun s => Str.trim ((Str.split ';' s).headD s)

/-- The body, read up to the limit. -/
def Push.read (push : Push) : Except OciError Bytes :=
  match push.body with
  | .error e => .error (.bad ("reading manifest: " ++ e.message))
  | .ok bytes =>
      if maxManifest < bytes.length then .error (.bad "reading manifest: length limit exceeded")
      else .ok bytes

/-- The reference is the digest of the body, or a valid tag. -/
def checkReference (reference : Str) (digest : Digest) : Except OciError Unit :=
  match Digest.parse reference with
  | .ok d =>
      if d ≠ digest then
        .error (.badRequest "DIGEST_INVALID" "manifest digest does not match reference")
      else .ok ()
  | .error _ => checkTag reference

/-- The referrer record of a pushed manifest. -/
def referrerOf (manifest : Manifest) (blob : BlobRef) (mediaType : Str) : Referrer :=
  { digest := blob.digest
    mediaType
    size := blob.size
    artifactType := manifest.artifactType
    annotations := manifest.annotations.getD [] }

/-- Remember the relation of a referrer to its subject, and attach it to our releases. -/
def attachSubject (node : Node) (gossip : Release → Except Err Unit) (clock : ℕ → ℕ)
    (manifest : Manifest) (manifestRef : BlobRef) (mediaType : Str) (blobs : List BlobRef) :
    Handler Unit :=
  match manifest.subject with
  | none => pure ()
  | some subject => do
      let referrer := referrerOf manifest manifestRef mediaType
      (putReferrer subject.digest referrer).lift
      let _attached ← (attachReferrer node gossip clock subject.digest referrer
        (manifestRef :: blobs)).lift
      pure ()

/-- The release a tag push makes. -/
def pushedRelease (node : Node) (image tag : Str) (manifestRef : BlobRef) (blobs : List BlobRef)
    (now : ℕ) : Release :=
  Release.sign node.identity
    { version := 0
      publisher := node.id
      name := image
      tag
      manifest := manifestRef
      blobs
      timestamp := 0
      referrers := [] } now

/-- Publish the release of a tag push; a push by digest publishes none. -/
def publishTag (node : Node) (gossip : Release → Except Err Unit) (image reference : Str)
    (manifestRef : BlobRef) (blobs : List BlobRef) (now : ℕ) : Handler Unit :=
  match Digest.parse reference with
  | .ok _ => pure ()
  | .error _ => (publish node gossip
      (pushedRelease node image reference manifestRef blobs now)).lift

/-- The `201 Created` of a push. -/
def created (push : Push) (manifest : Manifest) (manifestRef : BlobRef) : Response :=
  { status := 201
    headers := [(("location" : Str), "/v2/" ++ (push.name ++ "/manifests/" ++ manifestRef.digest.str)),
      ("docker-content-digest", manifestRef.digest.str)] ++
      (manifest.subject.map fun d => (("oci-subject" : Str), d.digest.str)).toList
    body := [] }

/-- What a push is, once it is checked. -/
structure Checked where
  image : Str
  bytes : Bytes
  manifest : Manifest
  blobs : List BlobRef

/-- The part of a push before its manifest is stored. -/
def checkPush (node : Node) (push : Push) : Handler Checked := do
  let r ← ofExcept (resolve node push.name)
  ensure (r.1 = node.id) ⟨403, "DENIED", "cannot push into another publisher's namespace (" ++
    (r.1.fmtShort ++ "); push to " ++ node.id.toStr ++ '/' :: (r.2 ++ " or just " ++ r.2))⟩
  let bytes ← ofExcept push.read
  let manifest ← ofExcept ((Manifest.parse bytes push.mediaType).mapError fun e =>
    .badRequest "MANIFEST_INVALID" e.message)
  let s ← read
  let blobs ← collectRefs (s.listBlobRefs.length + 1) manifest []
  ofExcept (checkReference push.reference (Digest.sha256 bytes))
  pure ⟨r.2, bytes, manifest, blobs⟩

/-- Take a push.  The clock is read at the `i`-th position of the release list when the referrer is
attached to that release, and `later` is the reading when the pushed release is signed. -/
def manifestPut (node : Node) (gossip : Release → Except Err Unit) (clock : ℕ → ℕ) (later : ℕ)
    (push : Push) : Handler Response := do
  let c ← checkPush node push
  let mediaType := push.mediaType.getD c.manifest.mediaType
  let manifestRef ← (putBlobBytes c.bytes (some (Digest.sha256 c.bytes)) (some mediaType)).lift
  attachSubject node gossip clock c.manifest manifestRef mediaType c.blobs
  publishTag node gossip c.image push.reference manifestRef c.blobs later
  respond (created push c.manifest manifestRef)

/-! ### What is answered -/

omit [External] in
theorem validHeaderValue_append (s t : Str) :
    validHeaderValue (s ++ t) = (validHeaderValue s && validHeaderValue t) := List.all_append

omit [External] in
/-- Letters and digits are no control characters. -/
theorem validHeaderValue_of_range {s : Str} (h : ∀ c ∈ s, 32 ≤ c.toNat ∧ c.toNat < 127) :
    validHeaderValue s = true := by
  refine List.all_eq_true.mpr fun c hc => ?_
  obtain ⟨hlow, hhigh⟩ := h c hc
  have hne : c.toNat ≠ 127 := Nat.ne_of_lt hhigh
  simp [hlow, hne]

omit [External] in
theorem validHeaderValue_digest (d : Digest) : validHeaderValue d.str = true := by
  have hwf := d.wf
  unfold Digest.wellFormed at hwf
  split at hwf
  · rename_i hex hhex
    obtain ⟨-, hlower⟩ := Bool.and_eq_true_iff.mp hwf
    rw [← List.isPrefixOf?_eq_some_iff_append_eq.mp hhex, validHeaderValue_append]
    refine Bool.and_eq_true_iff.mpr ⟨by decide, validHeaderValue_of_range fun c hc => ?_⟩
    have hc := List.all_eq_true.mp hlower c hc
    simp only [isLowerHex, Bool.or_eq_true, Bool.and_eq_true, decide_eq_true_eq, Char.le_def,
      UInt32.le_iff_toNat_le] at hc
    change 48 ≤ c.toNat ∧ c.toNat ≤ 57 ∨ 97 ≤ c.toNat ∧ c.toNat ≤ 102 at hc
    omega
  · cases hwf

omit [External] in
theorem validHeaderValue_digits (n : ℕ) : validHeaderValue (Nat.toDigits 10 n) = true := by
  refine validHeaderValue_of_range fun c hc => ?_
  have hdigit : c.isDigit = true := Nat.isDigit_of_mem_toDigits (by decide) (by decide) hc
  simp only [Char.isDigit, Bool.and_eq_true, decide_eq_true_eq, UInt32.le_iff_toNat_le] at hdigit
  change 48 ≤ c.toNat ∧ c.toNat ≤ 57 at hdigit
  omega

omit [External] in
/-- The answer to a push can be built when its name can be the value of a header. -/
theorem sendable_created_iff {push : Push} {manifest : Manifest} {b : BlobRef} :
    (created push manifest b).Sendable ↔ validHeaderValue push.name = true := by
  have hsubject : ∀ h ∈ (manifest.subject.map fun d => (("oci-subject" : Str), d.digest.str)).toList,
      validHeaderValue h.2 = true := by
    intro h hh
    obtain ⟨d, -, rfl⟩ := Option.map_eq_some_iff.mp (Option.mem_toList.mp hh)
    exact validHeaderValue_digest d.digest
  have hprefix : validHeaderValue ("/v2/" : Str) = true := by decide
  have hmanifests : validHeaderValue ("/manifests/" : Str) = true := by decide
  constructor
  · intro h
    have hlocation := h _ (List.mem_append_left _ List.mem_cons_self)
    rw [validHeaderValue_append, validHeaderValue_append, validHeaderValue_append] at hlocation
    obtain ⟨hname, -⟩ := Bool.and_eq_true_iff.mp (Bool.and_eq_true_iff.mp hlocation).2
    exact (Bool.and_eq_true_iff.mp hname).1
  · intro hname h hh
    rcases List.mem_append.mp hh with hh | hh
    · simp only [List.mem_cons, List.not_mem_nil, or_false] at hh
      rcases hh with rfl | rfl
      · simp only [validHeaderValue_append, hprefix, hname, hmanifests, validHeaderValue_digest,
          Bool.and_self]
      · exact validHeaderValue_digest _
    · exact hsubject h hh

theorem result_respond {r resp : Response} {s : Store} :
    (respond r).result s = .ok resp ↔ r.Sendable ∧ resp = r := by
  by_cases hr : r.Sendable
  · rw [respond, decide_eq_true hr]
    exact ⟨fun h => (by cases h; exact ⟨hr, rfl⟩), fun h => (by rw [h.2]; rfl)⟩
  · rw [respond, decide_eq_false hr]
    exact ⟨fun h => (by cases h), fun h => absurd h.1 hr⟩

theorem result_respond_error {r : Response} {e : OciError} {s : Store}
    (h : (respond r).result s = .error e) : e = .panicked ∧ ¬ r.Sendable := by
  by_cases hr : r.Sendable
  · rw [result_respond.mpr ⟨hr, rfl⟩] at h
    cases h
  · rw [respond, decide_eq_false hr] at h
    cases h
    exact ⟨rfl, hr⟩

theorem emits_respond {P : Write → Prop} (r : Response) : Emits P (respond r) :=
  (Emits.ensure _ _).bind fun _ => Emits.pure _

/-- What a served manifest is: the media type, the size and the digest of its blob, and, unless only
the headers are asked for, its bytes. -/
theorem serveManifest_ok {blob : BlobRef} {head : Bool} {s : Store} {resp : Response}
    (h : (serveManifest blob head).result s = .ok resp) :
    resp.header "content-type" = some (blob.mediaType.getD mtOciManifest) ∧
      resp.header "content-length" = some (Nat.toDigits 10 blob.size) ∧
        resp.header "docker-content-digest" = some blob.digest.str ∧
          (head = false → (readHash blob.hash).result s = .ok resp.body) := by
  unfold serveManifest at h
  dsimp only at h
  split at h
  · rename_i hhead
    obtain ⟨-, rfl⟩ := result_respond.mp h
    exact ⟨rfl, rfl, rfl, fun h => by rw [hhead] at h; cases h⟩
  · obtain ⟨bytes, hbytes, h⟩ := result_bind_ok.mp h
    obtain ⟨-, rfl⟩ := result_respond.mp h
    exact ⟨rfl, rfl, rfl, fun _ => result_mapErr_ok.mp hbytes⟩

/-- A manifest whose content is here is served, if its media type can be sent. -/
theorem serveManifest_serves {blob : BlobRef} {c : Bytes} {s : Store}
    (hread : (readHash blob.hash).result s = .ok c)
    (hmediaType : ∀ mt ∈ blob.mediaType, validHeaderValue mt = true) :
    ∃ resp, (serveManifest blob false).result s = .ok resp := by
  rw [serveManifest, if_neg Bool.false_ne_true]
  refine ⟨_, result_bind_ok.mpr ⟨c, result_mapErr_ok.mpr hread, result_respond.mpr ⟨?_, rfl⟩⟩⟩
  have htype : validHeaderValue (blob.mediaType.getD mtOciManifest) = true := by
    cases hmt : blob.mediaType with
    | none => decide
    | some mt => exact hmediaType mt hmt
  have hquote : validHeaderValue ['"'] = true := by decide
  have htag : validHeaderValue ('"' :: (blob.digest.str ++ ['"'])) = true := by
    show validHeaderValue (['"'] ++ (blob.digest.str ++ ['"'])) = true
    simp only [validHeaderValue_append, hquote, validHeaderValue_digest, Bool.and_self]
  intro h hh
  simp only [List.mem_append, List.mem_cons, List.not_mem_nil, or_false] at hh
  rcases hh with (rfl | rfl | rfl) | rfl
  · exact htype
  · exact validHeaderValue_digits _
  · exact validHeaderValue_digest _
  · exact htag
/-! ### What collecting returns -/

/-- A referenced blob is the index entry of the descriptor's digest. -/
theorem digest_of_referencedBlob {d : Descriptor} {s : Store} {r : BlobRef}
    (h : (referencedBlob d).result s = .ok r) : r.digest = d.digest := by
  cases hb : (s.blobRef d.digest).filter fun r => s.hasHash r.hash with
  | none =>
      simp only [referencedBlob, result, read_bind_apply, hb] at h
      cases h
  | some r' =>
      have hkey : r'.digest = d.digest := Table.key_of_get (Option.filter_eq_some_iff.mp hb).1
      have h : (if r'.mediaType.isNone then do
          let r := { r' with mediaType := some d.mediaType }
          (recordBlob r).lift
          pure r
        else pure r' : Handler BlobRef).result s = .ok r := by
        simpa only [referencedBlob, result, read_bind_apply, hb] using h
      split at h
      · obtain ⟨u, -, h⟩ := result_bind_ok.mp h
        cases h
        exact hkey
      · cases h
        exact hkey

/-- What was gathered stays, and every descriptor's digest is gathered. -/
theorem collectList_ok {descend : Manifest → List BlobRef → Handler (List BlobRef)}
    (hdescend : ∀ m out s res, (descend m out).result s = .ok res → ∀ b ∈ out, b ∈ res)
    {ds : List Descriptor} {out res : List BlobRef} {s : Store}
    (h : (collectList descend ds out).result s = .ok res) :
    (∀ b ∈ out, b ∈ res) ∧ ∀ d ∈ ds, ∃ b ∈ res, b.digest = d.digest := by
  induction ds generalizing out s with
  | nil =>
      cases h
      exact ⟨fun _ h => h, fun _ h => by cases h⟩
  | cons d ds ih =>
      obtain ⟨r, hr, h⟩ := result_bind_ok.mp h
      have hd := digest_of_referencedBlob hr
      -- however the blob of `d` is gathered, the rest goes on from where it is among the gathered
      have key : ∀ out' s', (∀ b ∈ out, b ∈ out') → (∃ b ∈ out', b.digest = d.digest) →
          (collectList descend ds out').result s' = .ok res →
          (∀ b ∈ out, b ∈ res) ∧ ∀ e ∈ d :: ds, ∃ b ∈ res, b.digest = e.digest := by
        intro out' s' hout hd' h
        obtain ⟨hout', hds⟩ := ih h
        refine ⟨fun b hb => hout' b (hout b hb), fun e he => ?_⟩
        rcases List.mem_cons.mp he with rfl | he
        · obtain ⟨b, hb, hbd⟩ := hd'
          exact ⟨b, hout' b hb, hbd⟩
        · exact hds e he
      have happend : ∀ b ∈ out, b ∈ out ++ [r] := fun b hb => List.mem_append_left _ hb
      have hmem : r ∈ out ++ [r] := List.mem_append_right _ List.mem_cons_self
      split at h
      · rename_i hany
        obtain ⟨b, hb, hbr⟩ := List.any_eq_true.mp hany
        exact key _ _ (fun _ h => h) ⟨b, hb, (of_decide_eq_true hbr).trans hd⟩ h
      · split at h
        · obtain ⟨child, -, h⟩ := result_bind_ok.mp h
          obtain ⟨out', hout', h⟩ := result_bind_ok.mp h
          have hkeep := hdescend _ _ _ _ hout'
          exact key _ _ (fun b hb => hkeep b (happend b hb)) ⟨r, hkeep r hmem, hd⟩ h
        · exact key _ _ happend ⟨r, hmem, hd⟩ h

/-- Collecting gathers every blob the manifest references. -/
theorem collectRefs_ok {fuel : ℕ} {manifest : Manifest} {out res : List BlobRef} {s : Store}
    (h : (collectRefs fuel manifest out).result s = .ok res) :
    (∀ b ∈ out, b ∈ res) ∧ ∀ d ∈ manifest.referenced, ∃ b ∈ res, b.digest = d.digest := by
  induction fuel generalizing manifest out s res with
  | zero => exact collectList_ok (fun _ _ _ _ h => by cases h) h
  | succ fuel ih => exact collectList_ok (fun _ _ _ _ h => (ih h).1) h

/-! ### What a push leaves -/

/-- What a push finds in the store when it reaches the storing of its manifest. -/
structure Pushed (node : Node) (push : Push) (s : Store) extends Checked where
  resolved : resolve node push.name = .ok (node.id, image)
  body : push.read = .ok bytes
  parsed : Manifest.parse bytes push.mediaType = .ok manifest
  collected : (collectRefs (s.listBlobRefs.length + 1) manifest []).result s = .ok blobs
  reference : checkReference push.reference (Digest.sha256 bytes) = .ok ()

namespace Checked

variable (c : Checked) (push : Push)

/-- The media type that is recorded: the `Content-Type`, or what the manifest says. -/
def mediaType : Str := push.mediaType.getD c.manifest.mediaType

/-- The pushed manifest, as a blob. -/
def blob : BlobRef where
  digest := Digest.sha256 c.bytes
  hash := External.blake3 c.bytes
  size := c.bytes.length
  mediaType := some (c.mediaType push)

/-- The record of the pushed manifest among the referrers of its subject. -/
def referrer : Referrer := referrerOf c.manifest (c.blob push) (c.mediaType push)

/-- The release a tag push makes. -/
def release (node : Node) (now : ℕ) : Release :=
  pushedRelease node c.image push.reference (c.blob push) c.blobs now

end Checked

namespace Pushed

variable {node : Node} {push : Push} {s : Store}

instance : Subsingleton (Pushed node push s) where
  allEq x y := by
    obtain ⟨⟨image, bytes, manifest, blobs⟩, hr, hb, hp, hc, -⟩ := x
    obtain ⟨⟨image', bytes', manifest', blobs'⟩, hr', hb', hp', hc', -⟩ := y
    rw [hr] at hr'
    rw [hb] at hb'
    cases hr'
    cases hb'
    rw [hp] at hp'
    cases hp'
    rw [hc] at hc'
    cases hc'
    rfl

/-- The subject is a matter of the push alone. -/
theorem subject_eq (x : Pushed node push s) : x.manifest.subject =
    push.read.toOption.bind fun bytes =>
      (Manifest.parse bytes push.mediaType).toOption.bind Manifest.subject := by
  rw [x.body]
  show _ = (Manifest.parse x.bytes push.mediaType).toOption.bind Manifest.subject
  rw [x.parsed]
  rfl

/-- The media type that is recorded: the `Content-Type`, or what the manifest says. -/
def mediaType (x : Pushed node push s) : Str := x.toChecked.mediaType push

/-- The pushed manifest as a blob. -/
def blob (x : Pushed node push s) : BlobRef := x.toChecked.blob push

/-- The record of the pushed manifest among the referrers of its subject. -/
def referrer (x : Pushed node push s) : Referrer := x.toChecked.referrer push

/-- The release that the tag is published as. -/
def release (x : Pushed node push s) (now : ℕ) : Release := x.toChecked.release push node now

/-- `u` is `t` with some of the records of the subject extended. -/
def Touches (x : Pushed node push s) (clock : ℕ → ℕ) (t u : Table Release.ref) : Prop :=
  match x.manifest.subject with
  | none => u = t
  | some subject => Touched node clock subject.digest x.referrer (x.blob :: x.blobs) t u

/-- `u` is `t` with all of the records of the subject extended. -/
def Attaches (x : Pushed node push s) (clock : ℕ → ℕ) (t u : Table Release.ref) : Prop :=
  match x.manifest.subject with
  | none => u = t
  | some subject => Covered node clock subject.digest x.referrer (x.blob :: x.blobs) t u

/-- The records with the pushed release put among them; a push by digest puts none. -/
def publishes (x : Pushed node push s) (now : ℕ) (t : Table Release.ref) : Table Release.ref :=
  match Digest.parse push.reference with
  | .ok _ => t
  | .error _ => recorded t (x.release now)

theorem publishes_of_isTag {x : Pushed node push s} {now : ℕ} {t : Table Release.ref}
    (h : push.isTag = true) : x.publishes now t = recorded t (x.release now) := by
  unfold publishes
  split
  · rename_i d hd
    rw [Push.isTag, Digest.parse_eq_ok.mp hd, d.wf] at h
    cases h
  · rfl

theorem Attaches.touches {x : Pushed node push s} {clock : ℕ → ℕ} {t u : Table Release.ref}
    (h : x.Attaches clock t u) : x.Touches clock t u := by
  unfold Attaches at h
  unfold Touches
  split
  · rename_i hs
    rw [hs] at h
    exact h
  · rename_i subject hs
    rw [hs] at h
    exact h.1

theorem Touches.refl (x : Pushed node push s) (clock : ℕ → ℕ) (t : Table Release.ref) :
    x.Touches clock t t := by
  unfold Touches
  split
  · rfl
  · exact Touched.refl

end Pushed

/-- What leaves the records alone. -/
theorem frame_triple {ε α : Type} {m : Call Store Write ε α}
    (h : Emits (fun w : Write => w.part ≠ .releases) m) (t : Table Release.ref) :
    Triple (fun s : Store => s.releases = t) m (fun _ s => s.releases = t)
      (fun s => s.releases = t) :=
  Triple.ofEmits h fun _ _ hw hs => (Store.releases_apply hw).trans hs

theorem emits_recordBlob {P : Write → Prop} {r : BlobRef} (htag : P (.tag r.digest r.hash))
    (href : P (.blobRef r)) : Emits P (recordBlob r) :=
  (Emits.write htag).bind fun _ => Emits.write href

theorem emits_childManifest {P : Write → Prop} (d : Descriptor) (r : BlobRef) :
    Emits P (childManifest d r) :=
  (emits_readHash _).mapErr _ |>.bind fun _ => Emits.ofExcept _

/-- Collecting writes pins and index entries only. -/
theorem emits_collectRefs {P : Write → Prop} (htag : ∀ d h, P (.tag d h))
    (href : ∀ r, P (.blobRef r)) (fuel : ℕ) (manifest : Manifest) (out : List BlobRef) :
    Emits P (collectRefs fuel manifest out) := by
  have hreferenced : ∀ d, Emits P (referencedBlob d) := by
    intro d
    refine Emits.read.bind fun s => ?_
    split
    · exact Emits.fail _
    · refine Emits.ite (fun _ => Emits.bind ?_ fun _ => Emits.pure _) fun _ => Emits.pure _
      exact (emits_recordBlob (htag _ _) (href _)).mapErr _
  have hlist : ∀ descend : Manifest → List BlobRef → Handler (List BlobRef),
      (∀ m out, Emits P (descend m out)) → ∀ ds out, Emits P (collectList descend ds out) := by
    intro descend hdescend ds
    induction ds with
    | nil => exact fun _ => Emits.pure _
    | cons d ds ih =>
        intro out
        refine (hreferenced d).bind fun r => Emits.ite (fun _ => ih _) fun _ =>
          Emits.ite (fun _ => ?_) fun _ => ih _
        exact (emits_childManifest d r).bind fun child => (hdescend child _).bind fun out => ih out
  induction fuel generalizing manifest out with
  | zero => exact hlist _ (fun _ _ => Emits.fail _) _ _
  | succ fuel ih => exact hlist _ (fun m out => ih m out) _ _

/-- So does checking a push. -/
theorem emits_checkPush {P : Write → Prop} (htag : ∀ d h, P (.tag d h)) (href : ∀ r, P (.blobRef r))
    (node : Node) (push : Push) : Emits P (checkPush node push) :=
  (Emits.ofExcept _).bind fun _ => (Emits.ensure _ _).bind fun _ => (Emits.ofExcept _).bind fun _ =>
    (Emits.ofExcept _).bind fun _ => Emits.read.bind fun _ =>
      (emits_collectRefs htag href _ _ _).bind fun _ => (Emits.ofExcept _).bind fun _ => Emits.pure _

/-- What importing bytes returns. -/
theorem putBlobBytes_ok {data : Bytes} {expect : Option Digest} {mediaType : Option Str}
    {s : Store} {r : BlobRef} (h : (putBlobBytes data expect mediaType).result s = .ok r) :
    r = { digest := Digest.sha256 data, hash := External.blake3 data, size := data.length,
          mediaType } := by
  obtain ⟨u, -, h⟩ := result_bind_ok.mp h
  cases h
  rfl

theorem emits_putBlobBytes {P : Write → Prop} {data : Bytes} (hdata : P (.data data))
    (htag : ∀ d h, P (.tag d h)) (href : ∀ r, P (.blobRef r)) (expect : Option Digest)
    (mediaType : Option Str) : Emits P (putBlobBytes data expect mediaType) := by
  refine Emits.bind ?_ fun _ => ?_
  · cases expect with
    | none => exact Emits.pure _
    | some e => exact Emits.ensure _ _
  · exact (Emits.write hdata).bind fun _ => (Emits.write (htag _ _)).bind fun _ =>
      (Emits.write (href _)).bind fun _ => Emits.pure _

theorem attachSubject_triple {node : Node} {push : Push} {s : Store} (x : Pushed node push s)
    (gossip : Release → Except Err Unit) (clock : ℕ → ℕ) (t : Table Release.ref) :
    Triple (fun s' : Store => s'.releases = t)
      (attachSubject node gossip clock x.manifest x.blob x.mediaType x.blobs)
      (fun _ s' => x.Attaches clock t s'.releases) (fun s' => x.Touches clock t s'.releases) := by
  unfold attachSubject Pushed.Attaches Pushed.Touches
  split
  · exact Triple.pure fun _ hs => ⟨hs, hs⟩
  · refine Triple.bind (Q := fun _ s' => s'.releases = t) ?_ fun _ => ?_
    · exact ((frame_triple (Emits.write (by simp [Write.part])) t).weaken
        fun s' hs => hs ▸ Touched.refl).mapErr
    · refine (attachReferrer_triple gossip).mapErr.bind fun _ => Triple.pure fun s' hs => ?_
      exact ⟨hs.1, hs⟩

theorem publishTag_triple {node : Node} {push : Push} {s : Store} (x : Pushed node push s)
    (gossip : Release → Except Err Unit) (later : ℕ) (t : Table Release.ref) :
    Triple (fun s' : Store => s'.releases = t)
      (publishTag node gossip x.image push.reference x.blob x.blobs later)
      (fun _ s' => s'.releases = x.publishes later t ∧
        (push.isTag = true → (x.release later).verify = .ok ()))
      (fun s' => s'.releases = t ∨ s'.releases = x.publishes later t) := by
  unfold publishTag Pushed.publishes
  split
  · rename_i d hd
    refine Triple.pure fun _ hs => ⟨Or.inl hs, hs, fun htag => ?_⟩
    rw [Push.isTag, Digest.parse_eq_ok.mp hd, d.wf] at htag
    cases htag
  · exact ((publish_triple node gossip _ t).post fun _ s' hs => ⟨hs.1, fun _ => hs.2⟩).mapErr

/-- A push that passes its check. -/
theorem checkPush_triple (node : Node) (push : Push) (s : Store) :
    Triple (fun s' => s' = s) (checkPush node push)
      (fun c s' => s'.releases = s.releases ∧ ∃ x : Pushed node push s, x.toChecked = c)
      (fun s' => s'.releases = s.releases) := by
  unfold checkPush
  refine Triple.bind (Q := fun r s' => s' = s ∧ resolve node push.name = .ok r)
    (Triple.ofExcept fun s' hs => ⟨hs ▸ rfl, fun r hr => ⟨hs, hr⟩⟩) fun r => ?_
  refine Triple.bind (Q := fun _ s' => s' = s ∧ resolve node push.name = .ok (node.id, r.2))
    (Triple.ensure fun s' hs => ⟨hs.1 ▸ rfl, fun hr => ⟨hs.1, ?_⟩⟩) fun _ => ?_
  · rw [hs.2, ← of_decide_eq_true hr]
  refine Triple.bind (Q := fun bytes s' => s' = s ∧
      resolve node push.name = .ok (node.id, r.2) ∧ push.read = .ok bytes)
    (Triple.ofExcept fun s' hs => ⟨hs.1 ▸ rfl, fun bytes hb => ⟨hs.1, hs.2, hb⟩⟩)
    fun bytes => ?_
  refine Triple.bind (Q := fun manifest s' => s' = s ∧
      resolve node push.name = .ok (node.id, r.2) ∧ push.read = .ok bytes ∧
        Manifest.parse bytes push.mediaType = .ok manifest)
    (Triple.ofExcept fun s' hs => ⟨hs.1 ▸ rfl, fun manifest hm => ?_⟩) fun manifest => ?_
  · refine ⟨hs.1, hs.2.1, hs.2.2, ?_⟩
    cases hp : Manifest.parse bytes push.mediaType with
    | error e =>
        rw [hp] at hm
        cases hm
    | ok m =>
        rw [hp] at hm
        cases hm
        rfl
  refine Triple.bind (Q := fun s₀ s' => s₀ = s ∧ s' = s ∧
      resolve node push.name = .ok (node.id, r.2) ∧ push.read = .ok bytes ∧
        Manifest.parse bytes push.mediaType = .ok manifest)
    (Triple.read fun s' hs => ⟨hs.1 ▸ rfl, hs.1, hs⟩) fun s₀ => ?_
  -- from here on the manifest is read, and the records are still those of `s`
  refine Triple.each fun s' hs => ?_
  obtain ⟨rfl, rfl, hresolve, hread, hparse⟩ := hs
  have hcollect := (frame_triple (emits_collectRefs (fun _ _ => by simp [Write.part])
    (fun _ => by simp [Write.part]) (s'.listBlobRefs.length + 1) manifest []) s'.releases).at_store
    (s := s') rfl
  refine Triple.bind hcollect fun blobs => ?_
  refine Triple.bind (Q := fun _ t => (t.releases = s'.releases ∧
      (collectRefs (s'.listBlobRefs.length + 1) manifest []).result s' = .ok blobs) ∧
      checkReference push.reference (Digest.sha256 bytes) = .ok ())
    (Triple.ofExcept fun t ht => ⟨ht.1, fun _ href => ⟨ht, href⟩⟩) fun _ => ?_
  refine Triple.pure fun t ht => ?_
  obtain ⟨⟨ht, hcollected⟩, href⟩ := ht
  exact ⟨ht, ht, ⟨⟨r.2, bytes, manifest, blobs⟩, hresolve, hread, hparse, hcollected, href⟩, rfl⟩

/-- The records while a push is taken, and after it: the records of the subject are extended one
after the other, then the pushed release is put. -/
theorem manifestPut_triple (node : Node) (gossip : Release → Except Err Unit) (clock : ℕ → ℕ)
    (later : ℕ) (push : Push) (s : Store) :
    Triple (fun s' => s' = s) (manifestPut node gossip clock later push)
      (fun resp s' => ∃ x : Pushed node push s,
        (resp = created push x.manifest x.blob ∧ resp.Sendable) ∧
          (push.isTag = true → (x.release later).verify = .ok ()) ∧
            ∃ u, x.Attaches clock s.releases u ∧ s'.releases = x.publishes later u)
      (fun s' => s'.releases = s.releases ∨ ∃ x : Pushed node push s, ∃ u,
        (x.Touches clock s.releases u ∧ s'.releases = u) ∨
          (x.Attaches clock s.releases u ∧ s'.releases = x.publishes later u)) := by
  unfold manifestPut
  refine Triple.bind ((checkPush_triple node push s).weaken fun t ht => Or.inl ht) fun c => ?_
  refine Triple.each fun t ht => ?_
  obtain ⟨ht, x, rfl⟩ := ht
  have hemits : Emits (fun w : Write => w.part ≠ .releases)
      (putBlobBytes x.bytes (some (Digest.sha256 x.bytes)) (some x.mediaType)) :=
    emits_putBlobBytes (by simp [Write.part]) (fun _ _ => by simp [Write.part])
      (fun _ => by simp [Write.part]) _ _
  have hput := (frame_triple hemits s.releases).at_store (s := t) ht
  refine Triple.bind (hput.mapErr.weaken fun u hu => Or.inl hu) fun manifestRef => ?_
  refine Triple.each fun u hu => ?_
  obtain ⟨hu, hok⟩ := hu
  obtain rfl : manifestRef = x.blob := putBlobBytes_ok hok
  refine Triple.bind (((attachSubject_triple x gossip clock s.releases).weaken
    fun v hv => Or.inr ⟨x, v.releases, Or.inl ⟨hv, rfl⟩⟩).pre fun v hv => hv ▸ hu) fun _ => ?_
  refine Triple.each fun v hv => ?_
  refine Triple.bind (((publishTag_triple x gossip later v.releases).weaken fun w hw => ?_).pre
    fun w hw => hw ▸ rfl) fun _ => ?_
  · rcases hw with hw | hw
    · exact Or.inr ⟨x, w.releases, Or.inl ⟨hw ▸ hv.touches, rfl⟩⟩
    · exact Or.inr ⟨x, v.releases, Or.inr ⟨hv, hw⟩⟩
  · refine Triple.bind (Q := fun _ w => (w.releases = x.publishes later v.releases ∧
      (push.isTag = true → (x.release later).verify = .ok ())) ∧
        (created push x.manifest x.blob).Sendable) (Triple.ensure fun w hw => ?_) fun _ =>
          Triple.pure fun w hw => ?_
    · exact ⟨Or.inr ⟨x, v.releases, Or.inr ⟨hv, hw.1⟩⟩, fun hs => ⟨hw, of_decide_eq_true hs⟩⟩
    · obtain ⟨hw, hs⟩ := hw
      exact ⟨Or.inr ⟨x, v.releases, Or.inr ⟨hv, hw.1⟩⟩, x, ⟨rfl, hs⟩, hw.2, v.releases, hv, hw.1⟩

end Ocid
