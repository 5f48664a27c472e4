import Ocid.Core.Identity

/-!
# Core — Manifests — digests and the manifests they name

A `Digest` is a text `sha256:<64 lower-case hex digits>` and nothing else.  A `Manifest` is an
image manifest or an index, read from JSON by `Manifest.parse`: which of the two is decided by the
`mediaType` of the body, else by the content type of the request, else by the presence of
`manifests`.  Only the fields the registry traverses are read.
-/

namespace Ocid

/-! ### Digests -/

/-- `sha256:` and 64 lower-case hex digits. -/
def Digest.wellFormed (s : Str) : Bool :=
  match ("sha256:" : Str).isPrefixOf? s with
  | some hex => Str.len hex == 64 && hex.all isLowerHex
  | none => false

/-- A `sha256:<hex>` content digest. -/
structure Digest where
  str : Str
  wf : Digest.wellFormed str = true
deriving DecidableEq

namespace Digest

/-- The hex part without the algorithm prefix. -/
def hex (d : Digest) : Str := d.str.drop 7

/-- Parse a digest; the two ways to fail have their own texts. -/
def parse (s : Str) : Except Err Digest :=
  if h : wellFormed s = true then .ok ⟨s, h⟩
  else if ("sha256:" : Str).isPrefixOf s then .error ["malformed sha256 digest " ++ Str.debug s]
  else .error ["unsupported digest " ++ Str.debug s ++ " (only sha256 is supported)"]

theorem wellFormed_hexEncode (b : Bytes32) :
    wellFormed ("sha256:" ++ hexEncode b.bytes) = true := by
  have h : isHexPublisher (hexEncode b.bytes) = true := isHexPublisher_toStr ⟨b⟩
  simpa [wellFormed, isHexPublisher, List.isPrefixOf?] using h

/-- The digest of a SHA-256 hash. -/
def ofSha256Bytes (b : Bytes32) : Digest := ⟨"sha256:" ++ hexEncode b.bytes, wellFormed_hexEncode b⟩

/-- A text that parses is the digest's own. -/
theorem parse_eq_ok {s : Str} {d : Digest} : parse s = .ok d ↔ s = d.str := by
  simp only [parse]
  constructor
  · split
    · intro h
      cases h
      rfl
    · split <;> intro h <;> cases h
  · rintro rfl
    rw [dif_pos d.wf]

theorem str_eq (d : Digest) : d.str = "sha256:" ++ d.hex ∧ ∀ c ∈ d.hex, isLowerHex c = true := by
  have hwf := d.wf
  rw [wellFormed] at hwf
  split at hwf
  · rename_i hex hprefix
    obtain hstr := List.isPrefixOf?_eq_some_iff_append_eq.mp hprefix
    have hhex : d.hex = hex := by
      rw [Digest.hex, ← hstr]
      rfl
    rw [Bool.and_eq_true, List.all_eq_true] at hwf
    exact ⟨hhex ▸ hstr.symm, hhex ▸ hwf.2⟩
  · cases hwf

theorem hex_injective : Function.Injective hex := by
  intro d e h
  have hstr : d.str = e.str := by rw [d.str_eq.1, e.str_eq.1, h]
  cases d
  cases e
  cases hstr
  rfl

theorem hex_ne_nil (d : Digest) : d.hex ≠ [] := by
  intro h
  have hwf := d.wf
  rw [d.str_eq.1, h] at hwf
  revert hwf
  decide

/-- The digest of some bytes. -/
def sha256 [External] (data : Bytes) : Digest := ofSha256Bytes (External.sha256 data)

end Digest

/-! ### Media types -/

/-- The media type of an image manifest. -/
def mtOciManifest : Str := "application/vnd.oci.image.manifest.v1+json"

/-- The media type of an image index. -/
def mtOciIndex : Str := "application/vnd.oci.image.index.v1+json"

/-- Docker's media type of an image manifest. -/
def mtDockerManifest : Str := "application/vnd.docker.distribution.manifest.v2+json"

/-- Docker's media type of an index. -/
def mtDockerList : Str := "application/vnd.docker.distribution.manifest.list.v2+json"

/-- One of these four. -/
def isManifestMediaType (mt : Str) : Bool :=
  mt == mtOciManifest || mt == mtOciIndex || mt == mtDockerManifest || mt == mtDockerList

/-! ### Manifests -/

/-- What a manifest says of a blob. -/
structure Descriptor where
  mediaType : Str
  digest : Digest
  size : ℕ
  artifactType : Option Str
  annotations : Option (List (Str × Str))
deriving DecidableEq

/-- A manifest of one image: its config and its layers. -/
structure ImageManifest where
  mediaType : Option Str
  artifactType : Option Str
  config : Descriptor
  layers : List Descriptor
  /-- The manifest this one refers to (signatures, SBOMs, ...). -/
  subject : Option Descriptor
  annotations : Option (List (Str × Str))
deriving DecidableEq

/-- A manifest that lists manifests. -/
structure ImageIndex where
  mediaType : Option Str
  artifactType : Option Str
  manifests : List Descriptor
  subject : Option Descriptor
  annotations : Option (List (Str × Str))
deriving DecidableEq

/-- A manifest, of one kind or the other. -/
inductive Manifest where
  | image (m : ImageManifest)
  | index (i : ImageIndex)
deriving DecidableEq

/-- Read a descriptor. -/
def Descriptor.fromValue (j : Json) : Option Descriptor := do
  let field ← j.struct ["mediaType", "digest", "size", "artifactType", "annotations"]
  let mediaType ← (← field "mediaType").asStr
  let digest ← (Digest.parse (← (← field "digest").asStr)).toOption
  let size ← (← field "size").asNat
  let artifactType ← Json.optional Json.asStr (field "artifactType")
  let annotations ← Json.optional Json.asStrMap (field "annotations")
  pure { mediaType, digest, size, artifactType, annotations }

/-- Read a list of descriptors. -/
def descriptors (j : Json) : Option (List Descriptor) := do
  (← j.asArr).mapM Descriptor.fromValue

/-- Read an image manifest. Everything but the config may be left out. -/
def ImageManifest.fromValue (j : Json) : Option ImageManifest := do
  let field ← j.struct
    ["mediaType", "artifactType", "config", "layers", "subject", "annotations"]
  let mediaType ← Json.optional Json.asStr (field "mediaType")
  let artifactType ← Json.optional Json.asStr (field "artifactType")
  let config ← Descriptor.fromValue (← field "config")
  let layers ← Json.defaulted descriptors [] (field "layers")
  let subject ← Json.optional Descriptor.fromValue (field "subject")
  let annotations ← Json.optional Json.asStrMap (field "annotations")
  pure { mediaType, artifactType, config, layers, subject, annotations }

/-- Read an index. Everything but the list may be left out. -/
def ImageIndex.fromValue (j : Json) : Option ImageIndex := do
  let field ← j.struct ["mediaType", "artifactType", "manifests", "subject", "annotations"]
  let mediaType ← Json.optional Json.asStr (field "mediaType")
  let artifactType ← Json.optional Json.asStr (field "artifactType")
  let manifests ← Json.defaulted descriptors [] (field "manifests")
  let subject ← Json.optional Descriptor.fromValue (field "subject")
  let annotations ← Json.optional Json.asStrMap (field "annotations")
  pure { mediaType, artifactType, manifests, subject, annotations }

namespace Manifest

/-- Parse manifest bytes.  `contentType` (from the HTTP request) is used as a hint when the
manifest itself lacks `mediaType`. -/
def parse [External] (bytes : Bytes) (contentType : Option Str) : Except Err Manifest :=
  match External.jsonFromSlice bytes with
  | none => .error ["manifest is not JSON"]
  | some v =>
      let mt := ((v.get "mediaType").bind Json.asStr <|> contentType).getD []
      let isIndex := (mt == mtOciIndex || mt == mtDockerList) ||
        (mt.isEmpty && (v.get "manifests").isSome)
      if isIndex then
        match ImageIndex.fromValue v with
        | some i => .ok (.index i)
        | none => .error ["invalid image index"]
      else
        match ImageManifest.fromValue v with
        | some m => .ok (.image m)
        | none => .error ["invalid image manifest"]

/-- The media type it says, or that of its kind. -/
def mediaType : Manifest → Str
  | .image m => m.mediaType.getD mtOciManifest
  | .index i => i.mediaType.getD mtOciIndex

/-- The `subject` this manifest refers to, if any. -/
def subject : Manifest → Option Descriptor
  | .image m => m.subject
  | .index i => i.subject

/-- The artifact type as defined by the referrers API: explicit `artifactType`, else the config
media type of an image manifest. -/
def artifactType : Manifest → Option Str
  | .image m => m.artifactType <|> some m.config.mediaType
  | .index i => i.artifactType

/-- The annotations it says. -/
def annotations : Manifest → Option (List (Str × Str))
  | .image m => m.annotations
  | .index i => i.annotations

/-- Descriptors that this manifest directly references (not the subject). -/
def referenced : Manifest → List Descriptor
  | .image m => m.config :: m.layers
  | .index i => i.manifests

end Manifest

end Ocid
