import Ocid.Publishing.Session

/-!
# Publishing — Kinds — the media type a manifest is recorded under

A body is read as an index or as an image manifest: by the `mediaType` it states, else by the
content type of the request, else by its `manifests`.  The media type that is recorded, and served
to whoever asks for the manifest here or on a replica, is the content type of the request, else
the `mediaType` of the record that was read.

So a body that states one kind can be pushed, and is then served, under a media type of the other
(`stated_index_recorded_as_image`).  `manifestPut_kind_iff` says exactly when the recorded media
type denotes the kind the body was read as, and exactly when reading the body again under it gives
the same references.  The second fails only on a body that is a JSON array: it has no member
`mediaType`, but the first item of the array becomes the `mediaType` of the record.
-/

namespace Ocid

open Call

/-! ### How a body is read -/

/-- The media type denotes an index. -/
def isIndexMediaType (mt : Str) : Bool := mt == mtOciIndex || mt == mtDockerList

namespace Json

/-- The `mediaType` a body states. -/
def stated (v : Json) : Option Str := (v.get "mediaType").bind asStr

/-- The `mediaType` of a record read from the body: of an array, its first item. -/
def recordType : Json → Option Str
  | .obj members => (members.lookup ("mediaType" : Str)).bind asStr
  | .arr (j :: _) => j.asStr
  | _ => none

/-- The body is an index under the media type `mt`. -/
def indexUnder (v : Json) (mt : Str) : Bool :=
  isIndexMediaType mt || (mt.isEmpty && (v.get "manifests").isSome)

end Json

namespace Manifest

/-- The manifest lists manifests. -/
def isIndex : Manifest → Bool
  | .image _ => false
  | .index _ => true

/-- The media types that denote the kind of the manifest. -/
def mediaTypes : Manifest → List Str
  | .image _ => [mtOciManifest, mtDockerManifest]
  | .index _ => [mtOciIndex, mtDockerList]

/-- The body, read as an index or as an image manifest. -/
def fromValue (v : Json) (index : Bool) : Except Err Manifest :=
  if index then
    match ImageIndex.fromValue v with
    | some i => .ok (.index i)
    | none => .error ["invalid image index"]
  else
    match ImageManifest.fromValue v with
    | some m => .ok (.image m)
    | none => .error ["invalid image manifest"]

theorem parse_eq [External] (bytes : Bytes) (contentType : Option Str) :
    parse bytes contentType = match External.jsonFromSlice bytes with
      | none => .error ["manifest is not JSON"]
      | some v => fromValue v (v.indexUnder ((v.stated <|> contentType).getD [])) := rfl

theorem fromValue_index {v : Json} {m : Manifest} (h : fromValue v true = .ok m) :
    ∃ i, ImageIndex.fromValue v = some i ∧ m = .index i := by
  rw [fromValue, if_pos rfl] at h
  split at h
  · rename_i i hi
    cases h
    exact ⟨i, hi, rfl⟩
  · cases h

theorem fromValue_image {v : Json} {m : Manifest} (h : fromValue v false = .ok m) :
    ∃ i, ImageManifest.fromValue v = some i ∧ m = .image i := by
  rw [fromValue, if_neg Bool.false_ne_true] at h
  split at h
  · rename_i i hi
    cases h
    exact ⟨i, hi, rfl⟩
  · cases h

theorem isIndex_of_fromValue {v : Json} {index : Bool} {m : Manifest}
    (h : fromValue v index = .ok m) : m.isIndex = index := by
  cases index with
  | true =>
      obtain ⟨i, -, rfl⟩ := fromValue_index h
      rfl
  | false =>
      obtain ⟨i, -, rfl⟩ := fromValue_image h
      rfl

theorem mem_mediaTypes_iff {m : Manifest} {mt : Str} :
    mt ∈ m.mediaTypes ↔ isManifestMediaType mt = true ∧ isIndexMediaType mt = m.isIndex := by
  have hdistinct : mtOciManifest ≠ mtOciIndex ∧ mtOciManifest ≠ mtDockerList ∧
      mtDockerManifest ≠ mtOciIndex ∧ mtDockerManifest ≠ mtDockerList := by decide
  simp only [isManifestMediaType, isIndexMediaType]
  cases m with
  | image m =>
      simp only [mediaTypes, isIndex]
      generalize mtOciManifest = image, mtOciIndex = index, mtDockerManifest = image',
        mtDockerList = index' at *
      grind
  | index i =>
      simp only [mediaTypes, isIndex]
      generalize mtOciManifest = image, mtOciIndex = index, mtDockerManifest = image',
        mtDockerList = index' at *
      grind

end Manifest

/-! ### The `mediaType` of the record -/

theorem eq_of_optional_asStr {o : Option Json} {t : Option Str}
    (h : Json.optional Json.asStr o = some t) : t = o.bind Json.asStr := by
  rcases o with _ | j
  · cases h
    rfl
  · cases j with
    | str s =>
        cases h
        rfl
    | null =>
        cases h
        rfl
    | _ => cases h

/-- The first field of a record is its `mediaType`, by name or by position. -/
theorem recordType_of_struct {v : Json} {names : List Str} {field : Str → Option Json}
    (h : v.struct ("mediaType" :: names) = some field) :
    (field "mediaType").bind Json.asStr = v.recordType := by
  cases v with
  | obj members =>
      cases h
      rfl
  | arr items =>
      rw [Json.struct] at h
      split at h
      · cases h
        cases items with
        | nil => rfl
        | cons j js => rfl
      · cases h
  | _ => cases h

theorem ImageManifest.mediaType_of_fromValue {v : Json} {m : ImageManifest}
    (h : ImageManifest.fromValue v = some m) : m.mediaType = v.recordType := by
  simp only [ImageManifest.fromValue, bind, Option.bind_eq_some_iff, pure, Option.some.injEq] at h
  obtain ⟨field, hfield, mt, hmt, -, -, -, -, -, -, -, -, -, -, -, -, rfl⟩ := h
  exact (eq_of_optional_asStr hmt).trans (recordType_of_struct hfield)

theorem ImageIndex.mediaType_of_fromValue {v : Json} {i : ImageIndex}
    (h : ImageIndex.fromValue v = some i) : i.mediaType = v.recordType := by
  simp only [ImageIndex.fromValue, bind, Option.bind_eq_some_iff, pure, Option.some.injEq] at h
  obtain ⟨field, hfield, mt, hmt, -, -, -, -, -, -, -, -, rfl⟩ := h
  exact (eq_of_optional_asStr hmt).trans (recordType_of_struct hfield)

namespace Manifest

/-- The media type a record carries when its body has none. -/
def defaultType (index : Bool) : Str := if index then mtOciIndex else mtOciManifest

theorem mediaType_of_fromValue {v : Json} {index : Bool} {m : Manifest}
    (h : fromValue v index = .ok m) : m.mediaType = v.recordType.getD (defaultType index) := by
  cases index with
  | true =>
      obtain ⟨i, hi, rfl⟩ := fromValue_index h
      rw [← ImageIndex.mediaType_of_fromValue hi]
      rfl
  | false =>
      obtain ⟨i, hi, rfl⟩ := fromValue_image h
      rw [← ImageManifest.mediaType_of_fromValue hi]
      rfl

/-- What is read is an object or an array. -/
theorem shape_of_fromValue {v : Json} {index : Bool} {m : Manifest}
    (h : fromValue v index = .ok m) : (∃ members, v = .obj members) ∨ ∃ items, v = .arr items := by
  cases v with
  | obj members => exact Or.inl ⟨members, rfl⟩
  | arr items => exact Or.inr ⟨items, rfl⟩
  | _ => cases index <;> cases h

/-- A descriptor is no text. -/
theorem descriptors_of_fromValue {j : Json} {d : Descriptor}
    (h : Descriptor.fromValue j = some d) : descriptors j = none := by
  cases j with
  | arr items =>
      cases items with
      | nil => cases h
      | cons j js =>
          simp only [Descriptor.fromValue, bind, Option.bind_eq_some_iff] at h
          obtain ⟨field, hfield, j', hj', mt, hmt, -⟩ := h
          have htype := recordType_of_struct hfield
          rw [hj'] at htype
          -- the first item of the array is the media type of the descriptor
          have hj : j.asStr = some mt := htype.symm.trans hmt
          cases j with
          | str s => rfl
          | _ => cases hj
  | obj members => rfl
  | _ => cases h

/-- The third field of a record read from an array is its third item. -/
theorem lookup_third {a b k : Str} (ha : (k == a) = false) (hb : (k == b) = false)
    (names : List Str) (items : List Json) :
    ((a :: b :: k :: names).zip items).lookup k = items[2]? := by
  match items with
  | [] => rfl
  | [_] => simp [List.lookup, ha]
  | [_, _] => simp [List.lookup, ha, hb]
  | _ :: _ :: j :: _ => simp [List.lookup, ha, hb]

theorem config_third (items : List Json) :
    (([("mediaType" : Str), "artifactType", "config", "layers", "subject", "annotations"]).zip
      items).lookup ("config" : Str) = items[2]? := by
  have h : (("config" : Str) == "mediaType") = false ∧
      (("config" : Str) == "artifactType") = false := by decide
  exact lookup_third h.1 h.2 _ _

theorem manifests_third (items : List Json) :
    (([("mediaType" : Str), "artifactType", "manifests", "subject", "annotations"]).zip
      items).lookup ("manifests" : Str) = items[2]? := by
  have h : (("manifests" : Str) == "mediaType") = false ∧
      (("manifests" : Str) == "artifactType") = false := by decide
  exact lookup_third h.1 h.2 _ _

/-- An array is not both an image manifest and an index: its third item is the config of the one
and the `manifests` of the other. -/
theorem not_index_of_image {items : List Json} {m : ImageManifest}
    (h : ImageManifest.fromValue (.arr items) = some m) :
    ImageIndex.fromValue (.arr items) = none := by
  simp only [ImageManifest.fromValue, Json.struct, bind, Option.bind_eq_some_iff] at h
  obtain ⟨field, hfield, -, -, -, -, config, hconfig, d, hd, -⟩ := h
  have hthird : items[2]? = some config := by
    split at hfield
    · cases hfield
      exact (config_third items).symm.trans hconfig
    · cases hfield
  cases hi : ImageIndex.fromValue (.arr items) with
  | none => rfl
  | some i =>
      simp only [ImageIndex.fromValue, Json.struct, bind, Option.bind_eq_some_iff] at hi
      obtain ⟨field', hfield', -, -, -, -, ds, hds, -⟩ := hi
      have hmanifests : field' "manifests" = some config := by
        split at hfield'
        · cases hfield'
          exact (manifests_third items).trans hthird
        · cases hfield'
      rw [hmanifests, Json.defaulted, descriptors_of_fromValue hd] at hds
      cases hds

end Manifest

/-! ### When the recorded media type fits -/

/-- The media types of a push agree: the content type is that of a manifest, and denotes an index
exactly when the body is one under the `mediaType` it states.  Without a content type the
`mediaType` of the record is that of a manifest, and not of an index when the body is an array. -/
def Declared (v : Json) : Option Str → Prop
  | some c => isManifestMediaType c = true ∧
      ∀ b, v.stated = some b → isIndexMediaType c = v.indexUnder b
  | none => ∀ b, v.recordType = some b →
      isManifestMediaType b = true ∧ (v.asArr.isSome → isIndexMediaType b = false)

/-- The body is an array whose first item is the media type of an index. -/
def Positional (v : Json) : Prop :=
  v.asArr.isSome ∧ ∃ b, v.recordType = some b ∧ isIndexMediaType b = true

section
variable {v : Json} {contentType : Option Str} {m : Manifest}

theorem ne_nil_of_manifestType {mt : Str} (h : isManifestMediaType mt = true) : mt ≠ [] := by
  rintro rfl
  exact absurd h (by decide)

/-- The `manifests` of a body matter to the empty media type only. -/
theorem Json.indexUnder_of_ne_nil {mt : Str} (h : mt ≠ []) :
    v.indexUnder mt = isIndexMediaType mt := by
  rw [Json.indexUnder, List.isEmpty_eq_false_iff.mpr h, Bool.false_and, Bool.or_false]

theorem Json.indexUnder_default (index : Bool) :
    v.indexUnder (Manifest.defaultType index) = index := by
  cases index with
  | true => rfl
  | false => rfl

theorem Json.indexUnder_arr (items : List Json) (mt : Str) :
    (Json.arr items).indexUnder mt = isIndexMediaType mt := by
  simp [Json.indexUnder, Json.get]

theorem Manifest.defaultType_known (index : Bool) :
    isManifestMediaType (defaultType index) = true ∧
      isIndexMediaType (defaultType index) = index := by
  cases index with
  | true => exact ⟨by decide, by decide⟩
  | false => exact ⟨by decide, by decide⟩

/-- The recorded media type denotes the kind that was read exactly when the media types agree. -/
theorem denotes_iff
    (h : Manifest.fromValue v (v.indexUnder ((v.stated <|> contentType).getD [])) = .ok m) :
    contentType.getD m.mediaType ∈ m.mediaTypes ↔ Declared v contentType := by
  rw [Manifest.mem_mediaTypes_iff, Manifest.isIndex_of_fromValue h]
  cases contentType with
  | some c =>
      refine and_congr_right fun hknown => ?_
      have hc := v.indexUnder_of_ne_nil (ne_nil_of_manifestType hknown)
      cases hb : v.stated with
      | none =>
          constructor
          · intro _ b hb
            cases hb
          · intro _
            exact hc.symm
      | some b =>
          constructor
          · rintro hkind b' hb'
            cases hb'
            exact hkind
          · intro hkind
            exact hkind b rfl
  | none =>
      rw [Option.getD_none, Manifest.mediaType_of_fromValue h]
      cases hb : v.recordType with
      | none =>
          constructor
          · intro _ b hb'
            rw [hb] at hb'
            cases hb'
          · intro _
            exact Manifest.defaultType_known _
      | some b =>
          rw [Option.getD_some, Declared, hb]
          -- what decides the kind is the `mediaType` of an object, and nothing in an array
          rcases Manifest.shape_of_fromValue h with ⟨members, rfl⟩ | ⟨items, rfl⟩
          · have hstated : (Json.obj members).stated = some b := hb
            rw [hstated]
            constructor
            · rintro ⟨hknown, -⟩ b' hb'
              cases hb'
              exact ⟨hknown, fun harr => nomatch harr⟩
            · intro hknown
              have hknown := (hknown b rfl).1
              exact ⟨hknown, (Json.indexUnder_of_ne_nil (ne_nil_of_manifestType hknown)).symm⟩
          · have hkind : (Json.arr items).indexUnder
                (((Json.arr items).stated <|> none).getD []) = false := Json.indexUnder_arr items []
            rw [hkind]
            constructor
            · rintro ⟨hknown, himage⟩ b' hb'
              cases hb'
              exact ⟨hknown, fun _ => himage⟩
            · intro hknown
              exact ⟨(hknown b rfl).1, (hknown b rfl).2 rfl⟩

variable [External] {bytes : Bytes}

/-- Reading the body again under the recorded media type gives the same references, unless the
request has no content type and the body is an array that gives itself the media type of an
index. -/
theorem reread_iff (hjson : External.jsonFromSlice bytes = some v)
    (h : Manifest.fromValue v (v.indexUnder ((v.stated <|> contentType).getD [])) = .ok m) :
    (Manifest.parse bytes (some (contentType.getD m.mediaType))).map Manifest.referenced =
        .ok m.referenced ↔
      ¬(contentType = none ∧ Positional v) := by
  have hagain : ∀ mt, Manifest.parse bytes (some mt) =
      Manifest.fromValue v (v.indexUnder (v.stated.getD mt)) := by
    intro mt
    have hgoes : (v.stated <|> some mt).getD [] = v.stated.getD mt := by
      cases v.stated <;> rfl
    rw [Manifest.parse_eq, hjson, ← hgoes]
  -- the same decision gives the same manifest
  have hsame : ∀ mt, v.indexUnder (v.stated.getD mt) =
      v.indexUnder ((v.stated <|> contentType).getD []) →
      (Manifest.parse bytes (some mt)).map Manifest.referenced = .ok m.referenced := by
    intro mt hmt
    rw [hagain, hmt, h]
    rfl
  cases contentType with
  | some c =>
      refine iff_of_true (hsame c ?_) fun hn => nomatch hn.1
      cases v.stated <;> rfl
  | none =>
      rw [Option.getD_none, Manifest.mediaType_of_fromValue h]
      rcases Manifest.shape_of_fromValue h with ⟨members, rfl⟩ | ⟨items, rfl⟩
      · refine iff_of_true (hsame _ ?_) fun hn => nomatch hn.2.1
        cases hstated : (Json.obj members).stated with
        | some b => rfl
        | none =>
            have hrecord : (Json.obj members).recordType = none := hstated
            rw [hrecord, Option.getD_none, Option.getD_none]
            exact Json.indexUnder_default _
      · have hfirst : (Json.arr items).indexUnder
            (((Json.arr items).stated <|> none).getD []) = false := Json.indexUnder_arr items []
        cases hb : (Json.arr items).recordType with
        | none =>
            refine iff_of_true (hsame _ ?_) ?_
            · rw [Option.getD_none]
              exact Json.indexUnder_default _
            · rintro ⟨-, -, b, hb', -⟩
              rw [hb] at hb'
              cases hb'
        | some b =>
            rw [Option.getD_some]
            cases hindex : isIndexMediaType b with
            | false =>
                refine iff_of_true (hsame _ ?_) ?_
                · rw [hfirst, ← hindex]
                  exact Json.indexUnder_arr items b
                · rintro ⟨-, -, b', hb', hindex'⟩
                  rw [hb] at hb'
                  cases hb'
                  rw [hindex] at hindex'
                  cases hindex'
            | true =>
                refine iff_of_false ?_ (not_not_intro ⟨rfl, rfl, b, hb, hindex⟩)
                have hunder : (Json.arr items).indexUnder ((Json.arr items).stated.getD b) = true :=
                  (Json.indexUnder_arr items b).trans hindex
                rw [hfirst] at h
                obtain ⟨i, hi, -⟩ := Manifest.fromValue_image h
                rw [hagain, hunder, Manifest.fromValue, if_pos rfl, Manifest.not_index_of_image hi]
                exact nofun

end

/-! ### The entry a push leaves -/

section
variable [External]

/-- What is imported is indexed. -/
theorem blobRef_of_putBlobBytes {data : Bytes} {expect : Option Digest} {mediaType : Option Str}
    {s : Store} {r : BlobRef} (h : (putBlobBytes data expect mediaType).result s = .ok r) :
    ((putBlobBytes data expect mediaType).final s).blobRef r.digest = some r := by
  obtain ⟨u, hu, h⟩ := result_bind_ok.mp h
  cases h
  rw [putBlobBytes, final_bind_of_ok hu]
  exact Table.get_put_self _ _

section
variable {P : Write → Prop} (hrelease : ∀ r, P (.release r)) (hreferrer : ∀ d r, P (.referrer d r))
include hrelease hreferrer

theorem emits_publish (node : Node) (gossip : Release → Except Err Unit) (rel : Release) :
    Emits P (publish node gossip rel) := by
  refine (Emits.ofExcept _).bind fun _ => (Emits.ensure _ _).bind fun _ => Emits.bind ?_ fun _ =>
    Emits.ofExcept _
  refine (emits_putRelease rel).mono fun w hw => ?_
  rcases List.mem_cons.mp hw with rfl | hw
  · exact hrelease rel
  · obtain ⟨r, -, rfl⟩ := List.mem_map.mp hw
    exact hreferrer _ r

theorem emits_attachAll (node : Node) (gossip : Release → Except Err Unit) (clock : ℕ → ℕ)
    (subject : Digest) (referrer : Referrer) (blobs : List BlobRef) (i : ℕ) (rels : List Release) :
    Emits P (attachAll node gossip clock subject referrer blobs i rels) := by
  induction rels generalizing i with
  | nil => exact Emits.pure _
  | cons rel rels ih =>
      refine Emits.ite (fun _ => ?_) fun _ => ih _
      exact (emits_publish hrelease hreferrer node gossip _).bind fun _ => (ih _).bind fun _ =>
        Emits.pure _

theorem emits_attachSubject (node : Node) (gossip : Release → Except Err Unit) (clock : ℕ → ℕ)
    (manifest : Manifest) (manifestRef : BlobRef) (mediaType : Str) (blobs : List BlobRef) :
    Emits P (attachSubject node gossip clock manifest manifestRef mediaType blobs) := by
  unfold attachSubject
  split
  · exact Emits.pure _
  · refine ((Emits.write (hreferrer _ _)).mapErr _).bind fun _ => Emits.bind ?_ fun _ =>
      Emits.pure _
    exact (Emits.read.bind fun s => emits_attachAll hrelease hreferrer node gossip clock _ _ _ _ _
      ).mapErr _

theorem emits_publishTag (node : Node) (gossip : Release → Except Err Unit)
    (image reference : Str) (manifestRef : BlobRef) (blobs : List BlobRef) (now : ℕ) :
    Emits P (publishTag node gossip image reference manifestRef blobs now) := by
  unfold publishTag
  split
  · exact Emits.pure _
  · exact (emits_publish hrelease hreferrer node gossip _).mapErr _

end

/-- After a push the index has the pushed manifest. -/
theorem manifestPut_indexes (node : Node) (gossip : Release → Except Err Unit) (clock : ℕ → ℕ)
    (later : ℕ) (push : Push) (s : Store) :
    Triple (fun s' => s' = s) (manifestPut node gossip clock later push)
      (fun _ s' => ∃ x : Pushed node push s, s'.blobRef x.blob.digest = some x.blob)
      (fun _ => True) := by
  unfold manifestPut
  refine Triple.bind ((checkPush_triple node push s).weaken fun _ _ => trivial) fun c => ?_
  refine Triple.each fun t ht => ?_
  obtain ⟨-, x, rfl⟩ := ht
  refine Triple.bind (Q := fun r t => r = x.blob ∧ t.blobRef x.blob.digest = some x.blob) ?_
    fun r => Triple.each fun u hu => ?_
  · rintro _ rfl
    refine ⟨fun _ => trivial, fun r hr => ?_⟩
    have hr := result_mapErr_ok.mp hr
    obtain rfl : r = x.blob := putBlobBytes_ok hr
    exact ⟨rfl, blobRef_of_putBlobBytes hr⟩
  · obtain ⟨rfl, hu⟩ := hu
    -- what follows writes records and referrers only
    have hkeep : ∀ {α : Type} {m : Handler α}, Emits (fun w : Write => w.part ≠ .digests) m →
        Triple (fun t : Store => t.blobRef x.blob.digest = some x.blob) m
          (fun _ t => t.blobRef x.blob.digest = some x.blob) (fun _ => True) := by
      intro α m hm
      refine (Triple.ofEmits hm fun t w hw ht => ?_).weaken fun _ _ => trivial
      exact (congrArg (fun d => d.get x.blob.digest) (Store.digests_apply hw)).trans ht
    have hrelease : ∀ r, (Write.release r).part ≠ .digests := fun _ => nofun
    have hreferrer : ∀ d r, (Write.referrer d r).part ≠ .digests := fun _ _ => nofun
    refine (Triple.bind (hkeep (emits_attachSubject hrelease hreferrer node gossip clock _ _ _ _))
      fun _ => Triple.bind (hkeep (emits_publishTag hrelease hreferrer node gossip _ _ _ _ _))
        fun _ => (hkeep (emits_respond _)).post fun _ t ht => ⟨x, ht⟩).pre ?_
    rintro _ rfl
    exact hu

/-! ### The recorded media type -/

namespace Pushed

variable {node : Node} {push : Push} {s : Store}

/-- Reading the pushed body again under its recorded media type gives the same references. -/
def Rereads (x : Pushed node push s) : Prop :=
  (Manifest.parse x.bytes (some x.mediaType)).map Manifest.referenced = .ok x.manifest.referenced

theorem exists_value (x : Pushed node push s) : ∃ v, External.jsonFromSlice x.bytes = some v ∧
    Manifest.fromValue v (v.indexUnder ((v.stated <|> push.mediaType).getD [])) =
      .ok x.manifest := by
  have hparsed := x.parsed
  rw [Manifest.parse_eq] at hparsed
  cases hv : External.jsonFromSlice x.bytes with
  | none =>
      rw [hv] at hparsed
      cases hparsed
  | some v =>
      rw [hv] at hparsed
      exact ⟨v, rfl, hparsed⟩

end Pushed

/-- A manifest is served with the media type of its blob. -/
theorem contentType_of_serveManifest {blob : BlobRef} {mt : Str} {head : Bool} {s : Store}
    {resp : Response} (hmt : blob.mediaType = some mt)
    (h : (serveManifest blob head).result s = .ok resp) :
    resp.header "content-type" = some mt := by
  rw [(serveManifest_ok h).1, hmt, Option.getD_some]

/-- **The recorded media type.**  A push that is answered `201 Created` leaves the index entry of
its manifest, and puts the same entry into the release of its tag; whoever holds the entry serves
the manifest with the recorded media type.  That media type denotes the kind the body was read as,
and reads it again with the same references, exactly when the media types of the push agree; the
references alone differ exactly for an array that gives itself the media type of an index. -/
theorem manifestPut_kind_iff {node : Node} {gossip : Release → Except Err Unit} {clock : ℕ → ℕ}
    {later : ℕ} {push : Push} {s : Store} {resp : Response}
    (h : (manifestPut node gossip clock later push).result s = .ok resp) :
    ∃ (x : Pushed node push s) (v : Json),
      External.jsonFromSlice x.bytes = some v ∧ resp = created push x.manifest x.blob ∧
      ((manifestPut node gossip clock later push).final s).blobRef x.blob.digest = some x.blob ∧
      (x.release later).payload.manifest = x.blob ∧
      (∀ t head served, (serveManifest x.blob head).result t = .ok served →
        served.header "content-type" = some x.mediaType) ∧
      (x.mediaType ∈ x.manifest.mediaTypes ∧ x.Rereads ↔ Declared v push.mediaType) ∧
      (x.Rereads ↔ ¬(push.mediaType = none ∧ Positional v)) := by
  obtain ⟨x, ⟨hresp, -⟩, -⟩ := (manifestPut_triple node gossip clock later push s).ok rfl h
  obtain ⟨y, hentry⟩ := (manifestPut_indexes node gossip clock later push s).ok rfl h
  obtain rfl := Subsingleton.elim x y
  obtain ⟨v, hv, hread⟩ := x.exists_value
  have hdenotes : x.mediaType ∈ x.manifest.mediaTypes ↔ Declared v push.mediaType :=
    denotes_iff hread
  have hrereads : x.Rereads ↔ ¬(push.mediaType = none ∧ Positional v) := reread_iff hv hread
  refine ⟨x, v, hv, hresp, hentry, rfl, fun t head served => contentType_of_serveManifest rfl, ?_,
    hrereads⟩
  rw [hdenotes]
  refine ⟨And.left, fun hd => ⟨hd, hrereads.mpr ?_⟩⟩
  -- where the media types agree, an array does not give itself that of an index
  rintro ⟨hnone, harr, b, hb, hindex⟩
  rw [hnone] at hd
  have himage := (hd b hb).2 harr
  rw [hindex] at himage
  cases himage

end

namespace Sample

/-- An index of nothing that states its media type. -/
def statedIndex : Content where
  text := "\x7b\"mediaType\":\"application/vnd.oci.image.index.v1+json\",\"manifests\":[]\x7d"
  sha256 := 0x166e8e29f4aff029dfea24bb55702fcdae5e0b982800cf14ad8548a2fe0f3bdf
  blake3 := 0xf965649347e60416170fce976c76e4ba9cbb857cbec8aa403b07fc39b65db932
  json := some (.obj [("mediaType", .str mtOciIndex), ("manifests", .arr [])])

/-- `sample`, with one more content. -/
@[reducible] def knowing (c : Content) : External where
  __ := sample
  sha256 bs := if bs = c.bytes then bytes32 c.sha256 else sample.sha256 bs
  blake3 bs := if bs = c.bytes then ⟨bytes32 c.blake3⟩ else sample.blake3 bs
  jsonFromSlice bs := if bs = c.bytes then c.json else sample.jsonFromSlice bs

end Sample

/-- What is pushed as an index is recorded as one. -/
example : letI := sample
    let put := manifestPut (Sample.node Policy.default) (fun _ => .ok ()) (fun _ => 5) 5
      (Sample.request "app" "1.0" Sample.index 5).push
    ((put.final Store.empty).blobRef Sample.index.digest).bind BlobRef.mediaType =
      some mtOciIndex := by
  decide +kernel

/-- An index that does not state its media type is pushed as what it is. -/
theorem manifestPut_kind_iff_at : letI := sample
    let node := Sample.node Policy.default
    let push := (Sample.request "app" "1.0" Sample.index 5).push
    ∃ (x : Pushed node push Store.empty) (v : Json),
      External.jsonFromSlice x.bytes = some v ∧ Declared v push.mediaType ∧
      x.mediaType ∈ x.manifest.mediaTypes ∧ x.Rereads := by
  let _ := sample
  intro node push
  let put := manifestPut node (fun _ => .ok ()) (fun _ => 5) 5 push
  have hok : (put.result Store.empty).isOk = true := by decide +kernel
  cases hr : put.result Store.empty with
  | error e =>
      rw [hr] at hok
      cases hok
  | ok resp =>
      obtain ⟨x, v, hv, -, -, -, -, hiff, -⟩ := manifestPut_kind_iff hr
      have hread : push.read = .ok Sample.index.bytes := by decide +kernel
      have hbytes : x.bytes = Sample.index.bytes := Except.ok.inj (x.body.symm.trans hread)
      have hstated : (External.jsonFromSlice Sample.index.bytes).bind Json.stated = none := by
        decide +kernel
      have htype : push.mediaType = some mtOciIndex := by decide +kernel
      have hdeclared : Declared v push.mediaType := by
        rw [htype]
        refine ⟨by decide, fun b hb => ?_⟩
        rw [← hbytes, hv, Option.bind_some, hb] at hstated
        cases hstated
      exact ⟨x, v, hv, hdeclared, hiff.mpr hdeclared⟩

/-- An index that states its media type is pushed with the content type of an image manifest: the
push is answered, and the index is then served as an image manifest. -/
theorem stated_index_recorded_as_image : letI := Sample.knowing Sample.statedIndex
    ¬ ∀ (node : Node) (gossip : Release → Except Err Unit) (clock : ℕ → ℕ) (later : ℕ)
      (push : Push) (s : Store) (resp : Response),
      (manifestPut node gossip clock later push).result s = .ok resp →
        ∀ x : Pushed node push s, x.mediaType ∈ x.manifest.mediaTypes ∧ x.Rereads := by
  let _ := Sample.knowing Sample.statedIndex
  intro h
  let node : Node := Sample.node Policy.default
  let push : Push := ⟨"app", "1.0", some mtOciManifest, .ok Sample.statedIndex.bytes⟩
  let put := manifestPut node (fun _ => .ok ()) (fun _ => 5) 5 push
  have hok : (put.result Store.empty).isOk = true := by decide +kernel
  have hindex : (push.read.toOption.bind fun bytes =>
      (Manifest.parse bytes push.mediaType).toOption.map Manifest.mediaTypes) =
        some [mtOciIndex, mtDockerList] := by decide +kernel
  cases hr : put.result Store.empty with
  | error e =>
      rw [hr] at hok
      cases hok
  | ok resp =>
      obtain ⟨x, -⟩ := (manifestPut_triple node (fun _ => .ok ()) (fun _ => 5) 5 push _).ok rfl hr
      have hdenotes := (h _ _ _ _ _ _ _ hr x).1
      have htypes : x.manifest.mediaTypes = [mtOciIndex, mtDockerList] := by
        rw [x.body] at hindex
        change (Manifest.parse x.bytes push.mediaType).toOption.map Manifest.mediaTypes = _
          at hindex
        rw [x.parsed] at hindex
        exact Option.some.inj hindex
      have htype : x.mediaType = mtOciManifest := by
        have hheader : push.mediaType = some mtOciManifest := by decide +kernel
        rw [Pushed.mediaType, Checked.mediaType, hheader]
        rfl
      rw [htype, htypes] at hdenotes
      exact absurd hdenotes (by decide +kernel)

end Ocid
