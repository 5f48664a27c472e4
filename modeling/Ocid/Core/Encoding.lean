import Ocid.Core.Release
import Ocid.Lib.JsonText

/-!
# Core — Encoding — release records as JSON

The JSON of a record leaves out what is absent or empty: the media type of a blob, the artifact type
and the annotations of a referrer, the referrers of a release.  Reading takes what is left out for
absent, or empty, and checks the digests, the hashes and the publisher; so a record is read back as
it was written (`Release.fromValue_toJson`).

The bytes that are signed are the text of the payload, and they say all of it
(`canonicalBytes_injective`).
-/

namespace Ocid

/-- `Blake3::from_str`. -/
def Blake3.parse (s : Str) : Option Blake3 := do
  let bs ← hexDecode s
  if h : bs.length = 32 then some ⟨bs, h⟩ else none

/-- Read a blob reference. -/
def BlobRef.fromValue (j : Json) : Option BlobRef := do
  let field ← j.struct ["digest", "hash", "size", "media_type"]
  let digest ← (Digest.parse (← (← field "digest").asStr)).toOption
  let hash ← Blake3.parse (← (← field "hash").asStr)
  let size ← (← field "size").asNat
  let mediaType ← Json.optional Json.asStr (field "media_type")
  pure { digest, hash, size, mediaType }

/-- Read a referrer. Its artifact type and its annotations may be left out. -/
def Referrer.fromValue (j : Json) : Option Referrer := do
  let field ← j.struct ["digest", "media_type", "size", "artifact_type", "annotations"]
  let digest ← (Digest.parse (← (← field "digest").asStr)).toOption
  let mediaType ← (← field "media_type").asStr
  let size ← (← field "size").asNat
  let artifactType ← Json.optional Json.asStr (field "artifact_type")
  let annotations ← Json.defaulted Json.asStrMap [] (field "annotations")
  pure { digest, mediaType, size, artifactType, annotations }

section
variable [External]

/-- Read a payload, whose version is a `u8`, and whose referrers may be left out. -/
def ReleasePayload.fromValue (j : Json) : Option ReleasePayload := do
  let field ← j.struct
    ["version", "publisher", "name", "tag", "manifest", "blobs", "timestamp", "referrers"]
  let version ← (← field "version").asNat
  guard (version < 2 ^ 8)
  let publisher ← External.keyFromStr (← (← field "publisher").asStr)
  let name ← (← field "name").asStr
  let tag ← (← field "tag").asStr
  let manifest ← BlobRef.fromValue (← field "manifest")
  let blobs ← (← (← field "blobs").asArr).mapM BlobRef.fromValue
  let timestamp ← (← field "timestamp").asNat
  let referrers ← Json.defaulted (fun j => do (← j.asArr).mapM Referrer.fromValue) []
    (field "referrers")
  pure { version, publisher, name, tag, manifest, blobs, timestamp, referrers }

/-- Read a release. -/
def Release.fromValue (j : Json) : Option Release := do
  let field ← j.struct ["payload", "signature"]
  let payload ← ReleasePayload.fromValue (← field "payload")
  let signature ← (← field "signature").asStr
  pure { payload, signature }

end

/-- A release as it is sent and stored. -/
def Release.toJson (r : Release) : Json :=
  Json.obj [("payload", r.payload.toJson), ("signature", Json.str r.signature)]

namespace Release

/-- `serde_json::to_vec`, as the sync protocol sends a record. -/
def toVec (r : Release) : Bytes := Str.toUtf8 r.toJson.render

/-- `serde_json::to_vec_pretty`, as the index stores a record. -/
def toVecPretty (r : Release) : Bytes := Str.toUtf8 (r.toJson.pretty 0)

/-- `serde_json::from_slice`, and `from_str` of the same bytes. -/
def fromSlice [External] (bytes : Bytes) : Option Release :=
  (External.jsonFromSlice bytes).bind Release.fromValue

end Release

/-! ### What is read back -/

/-- The annotations are a map: one value for each name, in the order of the names. -/
def Referrer.Mapped (r : Referrer) : Prop := r.annotations.Pairwise fun a b => a.1 < b.1

/-- What the types of a payload's fields say of it. -/
structure ReleasePayload.Typed (p : ReleasePayload) : Prop where
  version : p.version < 2 ^ 8
  referrers : ∀ r ∈ p.referrers, r.Mapped

theorem Blake3.parse_toStr (h : Blake3) : Blake3.parse h.toStr = some h := by
  rw [Blake3.parse, Blake3.toStr, hexDecode_hexEncode]
  show (if h' : h.hash.bytes.length = 32 then some (⟨⟨h.hash.bytes, h'⟩⟩ : Blake3) else none) = _
  rw [dif_pos h.hash.size]

theorem Digest.parse_str (d : Digest) : (Digest.parse d.str).toOption = some d := by
  rw [Digest.parse_eq_ok.mpr rfl]
  rfl

/-- The fields of a record are found by their names. -/
theorem struct_sorted {names : List Str} {ms : List (Str × Json)} (h : (ms.map Prod.fst).Nodup) :
    (Json.obj ms).sorted.struct names = some fun k => (ms.lookup k).map Json.sorted := by
  have hget := Json.get_sorted h
  rw [Json.sorted] at hget ⊢
  exact congrArg some (funext hget)

/-- A list is read back item by item. -/
theorem mapM_map_eq_some {α β : Type} {read : β → Option α} {write : α → β} {as : List α}
    (h : ∀ a ∈ as, read (write a) = some a) : (as.map write).mapM read = some as := by
  induction as with
  | nil => rfl
  | cons a as ih =>
      rw [List.map_cons, List.mapM_cons, h a List.mem_cons_self,
        ih fun b hb => h b (List.mem_cons_of_mem _ hb)]
      rfl

/-- Annotations in the order of their names are read back. -/
theorem asStrMap_sorted {as : List (Str × Str)} (h : as.Pairwise fun a b => a.1 < b.1) :
    Json.asStrMap (Json.obj (as.map fun a => (a.1, Json.str a.2))).sorted = some as := by
  have hmembers : Json.sortedMembers (as.map fun a => (a.1, Json.str a.2)) =
      as.map fun a => (a.1, Json.str a.2) := by
    rw [Json.sortedMembers_eq, List.map_map]
    rfl
  have hordered : (as.map fun a => (a.1, Json.str a.2)).Pairwise fun a b => a.1 ≤ b.1 :=
    List.pairwise_map.mpr (h.imp fun hlt => le_of_lt hlt)
  rw [Json.sorted, hmembers, hordered.insertionSort_eq, Json.asStrMap]
  exact mapM_map_eq_some fun a _ => rfl

theorem BlobRef.fromValue_toJson (b : BlobRef) : BlobRef.fromValue b.toJson.sorted = some b := by
  obtain ⟨digest, hash, size, mediaType⟩ := b
  have hread : ∀ mediaType : Option Str, (do
      let digest ← (Digest.parse digest.str).toOption
      let hash ← Blake3.parse hash.toStr
      pure (⟨digest, hash, size, mediaType⟩ : BlobRef)) = some ⟨digest, hash, size, mediaType⟩ := by
    intro mediaType
    rw [Digest.parse_str, Blake3.parse_toStr]
    rfl
  cases mediaType with
  | none =>
      rw [BlobRef.fromValue, BlobRef.toJson, struct_sorted (by simp)]
      exact hread none
  | some m =>
      rw [BlobRef.fromValue, BlobRef.toJson, struct_sorted (by simp)]
      exact hread (some m)

theorem Referrer.fromValue_toJson {r : Referrer} (h : r.Mapped) :
    Referrer.fromValue r.toJson.sorted = some r := by
  obtain ⟨digest, mediaType, size, artifactType, annotations⟩ := r
  have hread : ∀ (artifactType : Option Str) (annotations : List (Str × Str)), (do
      let digest ← (Digest.parse digest.str).toOption
      pure (⟨digest, mediaType, size, artifactType, annotations⟩ : Referrer)) =
        some ⟨digest, mediaType, size, artifactType, annotations⟩ := by
    intro artifactType annotations
    rw [Digest.parse_str]
    rfl
  cases annotations with
  | nil =>
      cases artifactType with
      | none =>
          rw [Referrer.fromValue, Referrer.toJson, struct_sorted (by simp)]
          exact hread none []
      | some a =>
          rw [Referrer.fromValue, Referrer.toJson, struct_sorted (by simp)]
          exact hread (some a) []
  | cons x xs =>
      have hmap := asStrMap_sorted h
      -- what is left after the digest is the reading of the annotations
      have hlast : ∀ artifactType : Option Str, (do
          let digest ← (Digest.parse digest.str).toOption
          let annotations ← Json.asStrMap
            (Json.obj ((x :: xs).map fun a => (a.1, Json.str a.2))).sorted
          pure (⟨digest, mediaType, size, artifactType, annotations⟩ : Referrer)) =
            some ⟨digest, mediaType, size, artifactType, x :: xs⟩ := by
        intro artifactType
        rw [hmap]
        exact hread artifactType (x :: xs)
      cases artifactType with
      | none =>
          rw [Referrer.fromValue, Referrer.toJson, struct_sorted (by simp)]
          exact hlast none
      | some a =>
          rw [Referrer.fromValue, Referrer.toJson, struct_sorted (by simp)]
          exact hlast (some a)

section
variable [External]

/-- A key is read back from its hex text. -/
def KeyReads (key : PublicKey) : Prop := External.keyFromStr key.toStr = some key

theorem ReleasePayload.fromValue_toJson {p : ReleasePayload} (h : p.Typed)
    (hkey : KeyReads p.publisher) : ReleasePayload.fromValue p.toJson.sorted = some p := by
  obtain ⟨version, publisher, name, tag, manifest, blobs, timestamp, referrers⟩ := p
  have hblobs : (Json.sortedItems (blobs.map BlobRef.toJson)).mapM BlobRef.fromValue =
      some blobs := by
    rw [Json.sortedItems_eq, List.map_map]
    exact mapM_map_eq_some fun b _ => b.fromValue_toJson
  have hreferrers : (Json.sortedItems (referrers.map Referrer.toJson)).mapM Referrer.fromValue =
      some referrers := by
    rw [Json.sortedItems_eq, List.map_map]
    exact mapM_map_eq_some fun r hr => Referrer.fromValue_toJson (h.referrers r hr)
  have hread : ∀ referrers : List Referrer, (do
      guard (version < 2 ^ 8)
      let publisher ← External.keyFromStr publisher.toStr
      let manifest ← BlobRef.fromValue manifest.toJson.sorted
      let blobs ← (Json.sortedItems (blobs.map BlobRef.toJson)).mapM BlobRef.fromValue
      pure (⟨version, publisher, name, tag, manifest, blobs, timestamp, referrers⟩ :
        ReleasePayload)) =
      some ⟨version, publisher, name, tag, manifest, blobs, timestamp, referrers⟩ := by
    intro referrers
    have hversion : version < 2 ^ 8 := h.version
    have hkey : External.keyFromStr publisher.toStr = some publisher := hkey
    rw [hblobs, hkey, BlobRef.fromValue_toJson, guard, if_pos hversion]
    rfl
  cases referrers with
  | nil =>
      rw [ReleasePayload.fromValue, ReleasePayload.toJson, struct_sorted (by simp)]
      exact hread []
  | cons r rs =>
      rw [ReleasePayload.fromValue, ReleasePayload.toJson, struct_sorted (by simp)]
      have hlast : (do
          guard (version < 2 ^ 8)
          let publisher ← External.keyFromStr publisher.toStr
          let manifest ← BlobRef.fromValue manifest.toJson.sorted
          let blobs ← (Json.sortedItems (blobs.map BlobRef.toJson)).mapM BlobRef.fromValue
          let referrers ← (Json.sortedItems ((r :: rs).map Referrer.toJson)).mapM
            Referrer.fromValue
          pure (⟨version, publisher, name, tag, manifest, blobs, timestamp, referrers⟩ :
            ReleasePayload)) =
          some ⟨version, publisher, name, tag, manifest, blobs, timestamp, r :: rs⟩ := by
        rw [hreferrers]
        exact hread (r :: rs)
      exact hlast

/-- **A record is read back as it was written.** -/
theorem Release.fromValue_toJson {r : Release} (h : r.payload.Typed)
    (hkey : KeyReads r.publisher) : Release.fromValue r.toJson.sorted = some r := by
  obtain ⟨payload, signature⟩ := r
  rw [Release.fromValue, Release.toJson, struct_sorted (by simp)]
  have hread : (do
      let payload ← ReleasePayload.fromValue payload.toJson.sorted
      pure (⟨payload, signature⟩ : Release)) = some ⟨payload, signature⟩ := by
    rw [ReleasePayload.fromValue_toJson h hkey]
    rfl
  exact hread

end

/-! ### What is signed -/

theorem BlobRef.toJson_injective : Function.Injective BlobRef.toJson := by
  intro b b' h
  have hread := BlobRef.fromValue_toJson b
  rw [h, BlobRef.fromValue_toJson] at hread
  exact (Option.some.inj hread).symm

theorem Referrer.toJson_injective : Function.Injective Referrer.toJson := by
  have hartifact : ∀ r : Referrer, r.toJson.get "artifact_type" = r.artifactType.map Json.str := by
    rintro ⟨digest, mediaType, size, artifactType, annotations⟩
    cases artifactType <;> cases annotations <;> rfl
  have hannotations : ∀ r : Referrer, ((r.toJson.get "annotations").bind Json.asStrMap).getD [] =
      r.annotations := by
    rintro ⟨digest, mediaType, size, artifactType, annotations⟩
    have hmap : Json.asStrMap (Json.obj (annotations.map fun a => (a.1, Json.str a.2))) =
        some annotations := mapM_map_eq_some fun a _ => rfl
    cases annotations with
    | nil => cases artifactType <;> rfl
    | cons a as =>
        cases artifactType <;> exact congrArg (fun o => Option.getD o []) hmap
  intro r r' h
  have hdigest := congrArg (Json.get "digest") h
  have hmedia := congrArg (Json.get "media_type") h
  have hsize := congrArg (Json.get "size") h
  have hartifacts := congrArg (Json.get "artifact_type") h
  rw [hartifact, hartifact] at hartifacts
  have hmaps := hannotations r
  rw [h, hannotations] at hmaps
  obtain ⟨⟨d, wf⟩, mediaType, size, artifactType, annotations⟩ := r
  obtain ⟨⟨d', wf'⟩, mediaType', size', artifactType', annotations'⟩ := r'
  obtain rfl : d = d' := Json.str.inj (Option.some.inj hdigest)
  obtain rfl : mediaType = mediaType' := Json.str.inj (Option.some.inj hmedia)
  obtain rfl : size = size' := Json.nat.inj (Option.some.inj hsize)
  obtain rfl : artifactType = artifactType' :=
    Option.map_injective (fun _ _ h => Json.str.inj h) hartifacts
  obtain rfl : annotations' = annotations := hmaps
  rfl

theorem ReleasePayload.toJson_injective : Function.Injective ReleasePayload.toJson := by
  have hreferrers : ∀ p : ReleasePayload, ((p.toJson.get "referrers").bind Json.asArr).getD [] =
      p.referrers.map Referrer.toJson := by
    rintro ⟨version, publisher, name, tag, manifest, blobs, timestamp, referrers⟩
    cases referrers <;> rfl
  intro p q h
  have hversion := congrArg (Json.get "version") h
  have hpublisher := congrArg (Json.get "publisher") h
  have hname := congrArg (Json.get "name") h
  have htag := congrArg (Json.get "tag") h
  have hmanifest := congrArg (Json.get "manifest") h
  have hblobs := congrArg (Json.get "blobs") h
  have htimestamp := congrArg (Json.get "timestamp") h
  have hlists := hreferrers p
  rw [h, hreferrers] at hlists
  obtain ⟨version, publisher, name, tag, manifest, blobs, timestamp, referrers⟩ := p
  obtain ⟨version', publisher', name', tag', manifest', blobs', timestamp', referrers'⟩ := q
  obtain rfl : version = version' := Json.nat.inj (Option.some.inj hversion)
  obtain rfl : publisher = publisher' :=
    PublicKey.toStr_inj (Json.str.inj (Option.some.inj hpublisher))
  obtain rfl : name = name' := Json.str.inj (Option.some.inj hname)
  obtain rfl : tag = tag' := Json.str.inj (Option.some.inj htag)
  obtain rfl : manifest = manifest' := BlobRef.toJson_injective (Option.some.inj hmanifest)
  obtain rfl : blobs = blobs' :=
    BlobRef.toJson_injective.list_map (Json.arr.inj (Option.some.inj hblobs))
  obtain rfl : timestamp = timestamp' := Json.nat.inj (Option.some.inj htimestamp)
  obtain rfl : referrers' = referrers := Referrer.toJson_injective.list_map hlists
  rfl

theorem BlobRef.plain_toJson (b : BlobRef) : b.toJson.Plain := by
  refine Json.plainMembers_iff.mpr fun m hm => ?_
  obtain ⟨digest, hash, size, mediaType⟩ := b
  cases mediaType <;>
    simp only [Option.map_none, Option.map_some, Option.toList_none, Option.toList_some,
      List.cons_append, List.nil_append, List.mem_cons, List.not_mem_nil, or_false] at hm
  · rcases hm with rfl | rfl | rfl <;> trivial
  · rcases hm with rfl | rfl | rfl | rfl <;> trivial

theorem Referrer.plain_toJson (r : Referrer) : r.toJson.Plain := by
  refine Json.plainMembers_iff.mpr fun m hm => ?_
  rcases List.mem_append.mp hm with hm | hm
  · rcases List.mem_append.mp hm with hm | hm
    · simp only [List.mem_cons, List.not_mem_nil, or_false] at hm
      rcases hm with rfl | rfl | rfl <;> trivial
    · obtain ⟨a, -, rfl⟩ := Option.map_eq_some_iff.mp (Option.mem_toList.mp hm)
      trivial
  · split at hm
    · cases hm
    · obtain rfl := List.mem_singleton.mp hm
      refine Json.plainMembers_iff.mpr fun m hm => ?_
      obtain ⟨a, -, rfl⟩ := List.mem_map.mp hm
      trivial

theorem ReleasePayload.plain_toJson (p : ReleasePayload) : p.toJson.Plain := by
  have hitems : ∀ {α : Type} (write : α → Json), (∀ a, (write a).Plain) → ∀ as : List α,
      (Json.arr (as.map write)).Plain := by
    intro α write hwrite as
    refine Json.plainItems_iff.mpr fun j hj => ?_
    obtain ⟨a, -, rfl⟩ := List.mem_map.mp hj
    exact hwrite a
  refine Json.plainMembers_iff.mpr fun m hm => ?_
  rcases List.mem_append.mp hm with hm | hm
  · simp only [List.mem_cons, List.not_mem_nil, or_false] at hm
    rcases hm with rfl | rfl | rfl | rfl | rfl | rfl | rfl
    · trivial
    · trivial
    · trivial
    · trivial
    · exact p.manifest.plain_toJson
    · exact hitems _ BlobRef.plain_toJson _
    · trivial
  · split at hm
    · cases hm
    · obtain rfl := List.mem_singleton.mp hm
      exact hitems _ Referrer.plain_toJson _

/-- **No two payloads have the same signed bytes.** -/
theorem ReleasePayload.canonicalBytes_injective :
    Function.Injective ReleasePayload.canonicalBytes := fun p q h =>
  ReleasePayload.toJson_injective
    (Json.render_inj p.plain_toJson q.plain_toJson (Str.toUtf8_injective h))

end Ocid
