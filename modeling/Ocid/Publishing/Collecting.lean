import Ocid.Lib.Walks
import Ocid.Publishing.Session

/-!
# Publishing — Collecting — what a push gathers under its manifest

`collectRefs` gathers the blobs a manifest references, and descends into those that are manifests
themselves.  Whether it descends is decided by the media type of the descriptor, but a descriptor is
passed over as soon as its digest is gathered.  So the descriptor of a digest that comes first
decides, and a blob that is listed as something else before it is listed as a manifest is not
descended into: what it references is not part of the release (`first_label_hides_config`).

`collectRefs` is a walk in the sense of `Lib/Walks`, by digest, where the children of a descriptor
are what the manifest it labels references (`runs_collectRefs`).  It descends no deeper than there
are index entries (`collectUpTo_congr`), and `collectRefs_iff` says exactly when it gathers
everything.
-/

namespace Ocid

open Call

section
variable [External]

/-! ### What a manifest leads to -/

namespace Store

/-- The content of the blob the index has for a digest. -/
def content (s : Store) (d : Digest) : Option Bytes :=
  (s.blobRef d).bind fun r => s.blobs.get r.hash

/-- What a descriptor leads to: the references of the manifest, when it labels one. -/
def expansion (s : Store) (d : Descriptor) : List Descriptor :=
  if isManifestMediaType d.mediaType then
    match (s.content d.digest).map fun bytes => Manifest.parse bytes (some d.mediaType) with
    | some (.ok child) => child.referenced
    | _ => []
  else []

/-- The same digests lead to the same content, which may be indexed under another media type. -/
structure SameContent (s t : Store) : Prop where
  hashes : ∀ d, (t.blobRef d).map BlobRef.hash = (s.blobRef d).map BlobRef.hash
  blobs : t.blobs = s.blobs

theorem SameContent.refl (s : Store) : s.SameContent s := ⟨fun _ => rfl, rfl⟩

theorem SameContent.trans {s t u : Store} (h : s.SameContent t) (h' : t.SameContent u) :
    s.SameContent u :=
  ⟨fun d => (h'.hashes d).trans (h.hashes d), h'.blobs.trans h.blobs⟩

/-- Recording an entry again, under another media type. -/
theorem sameContent_recordBlob {s : Store} {r r' : BlobRef} (h : s.blobRef r'.digest = some r)
    (hhash : r'.hash = r.hash) : s.SameContent ((recordBlob r').final s) := by
  refine ⟨fun d => ?_, rfl⟩
  show ((s.digests.put r').get d).map BlobRef.hash = _
  rw [Table.get_put]
  split
  · rename_i hd
    rw [← hd, h, Option.map_some, Option.map_some, hhash]
  · rfl

end Store

/-- `collectRefs`, with `stop` in place of what happens when the fuel runs out. -/
def collectUpTo (stop : Manifest → List BlobRef → Handler (List BlobRef)) :
    ℕ → Manifest → List BlobRef → Handler (List BlobRef)
  | 0, manifest, out => stop manifest out
  | fuel + 1, manifest, out => collectList (collectUpTo stop fuel) manifest.referenced out

theorem collectRefs_eq (fuel : ℕ) : collectRefs fuel =
    collectUpTo (fun _ _ => fail (.internal ["out of fuel"])) (fuel + 1) := by
  induction fuel with
  | zero => rfl
  | succ fuel ih =>
      funext manifest out
      rw [collectRefs, ih]
      rfl

/-! ### One descriptor -/

/-- What was gathered from `s` on, when the store is `t`. -/
structure Gathered (s t : Store) (out : List BlobRef) : Prop where
  same : s.SameContent t
  nodup : (out.map BlobRef.digest).Nodup
  indexed : ∀ b ∈ out, (s.blobRef b.digest).isSome

section
variable {s t : Store} {out : List BlobRef} {d : Descriptor} {r : BlobRef}

/-- Nothing is gathered that is not indexed. -/
theorem Gathered.length_le (h : Gathered s t out) : out.length ≤ s.listBlobRefs.length := by
  have hsub : out.map BlobRef.digest ⊆ s.listBlobRefs.map BlobRef.digest := by
    intro g hg
    obtain ⟨b, hb, rfl⟩ := List.mem_map.mp hg
    obtain ⟨e, he⟩ := Option.isSome_iff_exists.mp (h.indexed b hb)
    exact List.mem_map.mpr ⟨e, Table.mem_of_get he, Table.key_of_get he⟩
  simpa using (List.subperm_of_subset h.nodup hsub).length_le

/-- A referenced blob has the content that its descriptor's digest leads to. -/
theorem referencedBlob_spec (h : s.SameContent t) (hr : (referencedBlob d).result t = .ok r) :
    s.SameContent ((referencedBlob d).final t) ∧ r.digest = d.digest ∧
      (s.blobRef d.digest).map BlobRef.hash = some r.hash := by
  have hdigest := digest_of_referencedBlob hr
  cases hb : (t.blobRef d.digest).filter fun r => t.hasHash r.hash with
  | none =>
      simp only [referencedBlob, result, read_bind_apply, hb] at hr
      cases hr
  | some r' =>
      have hentry : t.blobRef d.digest = some r' := (Option.filter_eq_some_iff.mp hb).1
      have hkey : r'.digest = d.digest := Table.key_of_get hentry
      have hindexed : (s.blobRef d.digest).map BlobRef.hash = some r'.hash := by
        rw [← h.hashes, hentry]
        rfl
      have happly : referencedBlob d t = (if r'.mediaType.isNone then do
          let r := { r' with mediaType := some d.mediaType }
          (recordBlob r).lift
          pure r
        else pure r' : Handler BlobRef) t := by
        simp only [referencedBlob, read_bind_apply, hb]
      rw [final, journal, happly, ← journal, ← final]
      rw [result, happly, ← result] at hr
      split at hr
      · rename_i hnone
        obtain ⟨u, hu, hr⟩ := result_bind_ok.mp hr
        cases hr
        rw [if_pos hnone]
        refine ⟨?_, hdigest, hindexed⟩
        rw [final_bind_of_ok hu]
        have hentry' : t.blobRef r'.digest = some r' := by rw [hkey, hentry]
        exact h.trans (Store.sameContent_recordBlob hentry' rfl)
      · rename_i hsome
        cases hr
        rw [if_neg hsome]
        exact ⟨h, hdigest, hindexed⟩

/-- A child manifest is read from the content its descriptor leads to. -/
theorem childManifest_spec {child : Manifest} (h : s.SameContent t)
    (hhash : (s.blobRef d.digest).map BlobRef.hash = some r.hash)
    (hlabel : isManifestMediaType d.mediaType = true)
    (hr : (childManifest d r).result t = .ok child) : s.expansion d = child.referenced := by
  obtain ⟨bytes, hbytes, hparse⟩ := result_bind_ok.mp hr
  have hget : s.blobs.get r.hash = some bytes := by
    have hread := result_mapErr_ok.mp hbytes
    cases hc : s.blobs.get r.hash with
    | none =>
        simp only [readHash, result, read_bind_apply, h.blobs, hc] at hread
        cases hread
    | some c =>
        simp only [readHash, result, read_bind_apply, h.blobs, hc] at hread
        cases hread
        rfl
  have hcontent : s.content d.digest = some bytes := by
    obtain ⟨e, he, hehash⟩ := Option.map_eq_some_iff.mp hhash
    rw [Store.content, he, Option.bind_some, hehash, hget]
  have hparsed : Manifest.parse bytes (some d.mediaType) = .ok child := by
    cases hp : Manifest.parse bytes (some d.mediaType) with
    | error e =>
        rw [hp] at hparse
        cases hparse
    | ok m =>
        rw [hp] at hparse
        cases hparse
        rfl
  rw [Store.expansion, if_pos hlabel, hcontent, Option.map_some, hparsed]

theorem expansion_of_not_label (hlabel : ¬ isManifestMediaType d.mediaType = true) :
    s.expansion d = [] := by
  rw [Store.expansion, if_neg hlabel]

theorem Gathered.add (h : Gathered s t out) (hdigest : r.digest = d.digest)
    (hhash : (s.blobRef d.digest).map BlobRef.hash = some r.hash)
    (hnew : ¬ (out.any fun b => b.digest = r.digest) = true) : Gathered s t (out ++ [r]) := by
  have hfresh : ∀ b ∈ out, b.digest ≠ r.digest := fun b hb heq =>
    hnew (List.any_eq_true.mpr ⟨b, hb, decide_eq_true heq⟩)
  refine ⟨h.same, ?_, fun b hb => ?_⟩
  · rw [List.map_append, List.map_singleton]
    refine List.nodup_append.mpr ⟨h.nodup, List.nodup_singleton _, ?_⟩
    rintro g hg g' hg' rfl
    obtain ⟨b, hb, hbg⟩ := List.mem_map.mp hg
    exact hfresh b hb (hbg.trans (List.mem_singleton.mp hg'))
  · rcases List.mem_append.mp hb with hb | hb
    · exact h.indexed b hb
    · obtain rfl := List.mem_singleton.mp hb
      rw [hdigest, ← Option.isSome_map, hhash]
      rfl

end

/-! ### Collecting is a walk -/

section
variable {s t : Store} {out res : List BlobRef} {ds : List Descriptor}

/-- The walk that collecting is: by digest, into what the descriptors lead to. -/
abbrev Collects (s : Store) : Walk Descriptor Digest → Walk Descriptor Digest → Prop :=
  Walk.Runs Descriptor.digest s.expansion

/-- Where `m` returns what it gathers, it has walked through `ds`. -/
def Walks (s : Store) (ds : List Descriptor) (out : List BlobRef) (m : Handler (List BlobRef)) :
    Prop :=
  ∀ t res, Gathered s t out → m.result t = .ok res → Gathered s (m.final t) res ∧
    out.length ≤ res.length ∧
    ∀ todo, Collects s ⟨ds ++ todo, out.map BlobRef.digest⟩ ⟨todo, res.map BlobRef.digest⟩

theorem walks_fail (e : OciError) : Walks s ds out (fail e) := by
  intro t res _ h
  cases h

/-- Collecting from a list walks through it, when descending walks through the child. -/
theorem walks_collectList {descend : Manifest → List BlobRef → Handler (List BlobRef)}
    (hdescend : ∀ m out, Walks s m.referenced out (descend m out)) (ds : List Descriptor)
    (out : List BlobRef) : Walks s ds out (collectList descend ds out) := by
  induction ds generalizing out with
  | nil =>
      intro t res ht h
      cases h
      exact ⟨ht, Nat.le_refl _, fun todo => .refl⟩
  | cons d ds ih =>
      intro t res ht h
      obtain ⟨r, hr, h⟩ := result_bind_ok.mp h
      obtain ⟨hsame, hdigest, hhash⟩ := referencedBlob_spec ht.same hr
      have ht' : Gathered s ((referencedBlob d).final t) out := ⟨hsame, ht.nodup, ht.indexed⟩
      rw [collectList, final_bind_of_ok hr]
      have hseen : d.digest ∈ out.map BlobRef.digest ↔
          (out.any fun b => b.digest = r.digest) = true := by
        simp [hdigest]
      split at h
      · rename_i hany
        rw [if_pos hany]
        obtain ⟨hgathered, hle, hruns⟩ := ih out _ _ ht' h
        refine ⟨hgathered, hle, fun todo => .head ?_ (hruns todo)⟩
        rw [List.cons_append, Walk.next, if_pos (hseen.mpr hany)]
      · rename_i hnew
        rw [if_neg hnew]
        have hout := ht'.add hdigest hhash hnew
        have hstep : ∀ todo, Walk.next Descriptor.digest s.expansion
            ⟨d :: (ds ++ todo), out.map BlobRef.digest⟩ =
              some ⟨s.expansion d ++ (ds ++ todo), (out ++ [r]).map BlobRef.digest⟩ := by
          intro todo
          rw [Walk.next, if_neg (fun hd => hnew (hseen.mp hd)), List.map_append,
            List.map_singleton, hdigest]
        have hlength : out.length ≤ (out ++ [r]).length := by simp
        split at h
        · rename_i hlabel
          rw [if_pos hlabel]
          obtain ⟨child, hchild, h⟩ := result_bind_ok.mp h
          have hfinal := (final_of_emits_false (emits_childManifest d r)
            ((referencedBlob d).final t)).2
          have hexpansion := childManifest_spec hsame hhash hlabel hchild
          rw [final_bind_of_ok hchild]
          rw [hfinal] at h ⊢
          obtain ⟨out', hout', h⟩ := result_bind_ok.mp h
          rw [final_bind_of_ok hout']
          obtain ⟨hgathered, hle, hruns⟩ := hdescend _ _ _ _ hout hout'
          obtain ⟨hgathered', hle', hruns'⟩ := ih out' _ _ hgathered h
          refine ⟨hgathered', by omega, fun todo => .head (hstep todo) ?_⟩
          rw [hexpansion]
          exact (hruns (ds ++ todo)).trans (hruns' todo)
        · rename_i hlabel
          rw [if_neg hlabel]
          obtain ⟨hgathered, hle, hruns⟩ := ih _ _ _ hout h
          refine ⟨hgathered, by omega, fun todo => .head (hstep todo) ?_⟩
          rw [expansion_of_not_label hlabel]
          exact hruns todo

theorem walks_collectRefs (fuel : ℕ) (manifest : Manifest) (out : List BlobRef) :
    Walks s manifest.referenced out (collectRefs fuel manifest out) := by
  induction fuel generalizing manifest out with
  | zero => exact walks_collectList (fun _ _ => walks_fail _) _ _
  | succ fuel ih => exact walks_collectList (fun m out => ih m out) _ _

/-! ### How deep it goes -/

/-- Collecting from a list does not depend on how descending treats lists of at most `n`. -/
theorem collectList_congr {descend descend' : Manifest → List BlobRef → Handler (List BlobRef)}
    {n : ℕ} (hwalks : ∀ m out, Walks s m.referenced out (descend' m out))
    (h : ∀ m out t, Gathered s t out → n < out.length → descend m out t = descend' m out t)
    (ds : List Descriptor) (ht : Gathered s t out) (hn : n ≤ out.length) :
    collectList descend ds out t = collectList descend' ds out t := by
  induction ds generalizing out t with
  | nil => rfl
  | cons d ds ih =>
      refine bind_congr_at rfl fun r hr => ?_
      obtain ⟨hsame, hdigest, hhash⟩ := referencedBlob_spec ht.same hr
      have ht' : Gathered s ((referencedBlob d).final t) out := ⟨hsame, ht.nodup, ht.indexed⟩
      split
      · exact ih ht' hn
      · rename_i hnew
        have hout := ht'.add hdigest hhash hnew
        have hlength : n < (out ++ [r]).length := by
          rw [List.length_append, List.length_singleton]
          omega
        split
        · refine bind_congr_at rfl fun child hchild => ?_
          rw [(final_of_emits_false (emits_childManifest d r) ((referencedBlob d).final t)).2]
          refine bind_congr_at (h _ _ _ hout hlength) fun out' hout' => ?_
          obtain ⟨hgathered, hle, -⟩ := hwalks _ _ _ _ hout hout'
          exact ih hgathered (by omega)
        · exact ih hout (by omega)

theorem walks_collectUpTo (fuel : ℕ) (manifest : Manifest) (out : List BlobRef) :
    Walks s manifest.referenced out
      (collectUpTo (fun _ _ => fail (.internal ["out of fuel"])) fuel manifest out) := by
  cases fuel with
  | zero => exact walks_fail _
  | succ fuel =>
      rw [← collectRefs_eq]
      exact walks_collectRefs fuel manifest out

/-- Collecting does not get to where the fuel runs out, with more of it than there are entries not
yet gathered. -/
theorem collectUpTo_congr (stop : Manifest → List BlobRef → Handler (List BlobRef))
    {fuel fuel' : ℕ} {manifest : Manifest} (ht : Gathered s t out)
    (hfuel : s.listBlobRefs.length < fuel + out.length)
    (hfuel' : s.listBlobRefs.length < fuel' + out.length) :
    collectUpTo stop fuel manifest out t =
      collectUpTo (fun _ _ => fail (.internal ["out of fuel"])) fuel' manifest out t := by
  have hle := ht.length_le
  induction fuel generalizing fuel' manifest out t with
  | zero => omega
  | succ fuel ih =>
      cases fuel' with
      | zero => omega
      | succ fuel' =>
          refine collectList_congr (walks_collectUpTo fuel') (fun m out' t' ht' hn => ?_)
            manifest.referenced ht (Nat.le_refl _)
          exact ih ht' (by omega) (by omega) ht'.length_le

/-! ### What is gathered -/

theorem Gathered.start (s : Store) : Gathered s s [] :=
  ⟨Store.SameContent.refl s, List.nodup_nil, fun _ h => nomatch h⟩

/-- What collecting returns, as a walk from the references to the end. -/
theorem runs_collectRefs {fuel : ℕ} {manifest : Manifest}
    (h : (collectRefs fuel manifest []).result s = .ok res) :
    Collects s ⟨manifest.referenced, []⟩ ⟨[], res.map BlobRef.digest⟩ := by
  have hruns := (walks_collectRefs fuel manifest [] s res (Gathered.start s) h).2.2 []
  rwa [List.append_nil] at hruns

/-- What is gathered is what the manifest leads to, each digest once. -/
def Complete (s : Store) (manifest : Manifest) (res : List BlobRef) : Prop :=
  (res.map BlobRef.digest).Nodup ∧ ∀ g, g ∈ res.map BlobRef.digest ↔
    ∃ d, Reaches s.expansion manifest.referenced d ∧ d.digest = g

/-- No descriptor is passed over that leads to a digest neither gathered by then nor led to by the
descriptors still to come. -/
def NothingLost (s : Store) (manifest : Manifest) : Prop :=
  ∀ w, Collects s ⟨manifest.referenced, []⟩ w → ¬ w.Loses Descriptor.digest s.expansion

theorem gathered_of_collectRefs {fuel : ℕ} {manifest : Manifest}
    (h : (collectRefs fuel manifest []).result s = .ok res) :
    (res.map BlobRef.digest).Nodup ∧
      (∀ b ∈ res, ∃ d, Reaches s.expansion manifest.referenced d ∧ d.digest = b.digest) ∧
      (Complete s manifest res ↔ NothingLost s manifest) := by
  have hruns := runs_collectRefs h
  have hnodup : (res.map BlobRef.digest).Nodup := Walk.nodup_of_runs hruns List.nodup_nil
  have hcovers : ∀ g, Walk.Covers Descriptor.digest s.expansion ⟨manifest.referenced, []⟩ g ↔
      ∃ d, Reaches s.expansion manifest.referenced d ∧ d.digest = g := fun g =>
    ⟨fun hg => hg.resolve_left List.not_mem_nil, Or.inr⟩
  refine ⟨hnodup, fun b hb => ?_, ?_⟩
  · exact (hcovers _).mp (Walk.covers_of_runs hruns (Or.inl (List.mem_map_of_mem hb)))
  · rw [NothingLost, ← Walk.covers_iff hruns rfl, Complete]
    simp only [hcovers]
    exact and_iff_right hnodup

/-- Where the descriptors of a digest lead to the same, the order they are listed in does not
matter. -/
theorem complete_of_agree {fuel : ℕ} {manifest : Manifest}
    (h : (collectRefs fuel manifest []).result s = .ok res)
    (hagree : ∀ d e, Reaches s.expansion manifest.referenced d →
      Reaches s.expansion manifest.referenced e → d.digest = e.digest →
        s.expansion d = s.expansion e) : Complete s manifest res :=
  (gathered_of_collectRefs h).2.2.mpr fun _ hw => Walk.not_loses_of_agree hagree hw

/-- **What collecting gathers.**  Collecting does not depend on the fuel, nor on what happens when it
runs out, as long as there is at least as much of it as the index has entries.  When it returns, it
has gathered each digest once, and only digests the manifest leads to; these are all of them exactly
when nothing is lost. -/
theorem collectRefs_iff (s : Store) (manifest : Manifest) :
    (∀ fuel, s.listBlobRefs.length ≤ fuel → ∀ stop,
      collectUpTo stop (fuel + 1) manifest [] s =
        collectRefs s.listBlobRefs.length manifest [] s) ∧
    ∀ fuel res, (collectRefs fuel manifest []).result s = .ok res →
      (res.map BlobRef.digest).Nodup ∧
      (∀ b ∈ res, ∃ d, Reaches s.expansion manifest.referenced d ∧ d.digest = b.digest) ∧
      (Complete s manifest res ↔ NothingLost s manifest) := by
  refine ⟨fun fuel hfuel stop => ?_, fun fuel res h => gathered_of_collectRefs h⟩
  rw [collectRefs_eq]
  exact collectUpTo_congr stop (Gathered.start s) (by simpa using Nat.lt_succ_of_le hfuel)
    (by simp)

end

end

namespace Sample

/-- A descriptor of some content. -/
def labelled (c : Content) (mediaType : Str) : Descriptor :=
  ⟨mediaType, c.digest, c.bytes.length, none, none⟩

/-- A store with an image and its config, uploaded as blobs. -/
def uploadedImage : @Store sample :=
  letI := sample
  (putBlobBytes image.bytes none none).final
    ((putBlobBytes config.bytes none none).final Store.empty)

/-- An index that lists the image twice, first as a plain blob. -/
def mislabelled : Manifest :=
  .index ⟨none, none, [labelled image "application/octet-stream", labelled image mtOciManifest],
    none, none⟩

end Sample

/-- An index lists an image as a plain blob and then as a manifest: the image is gathered without
its config. -/
theorem first_label_hides_config : letI := sample
    ¬ ∀ (s : Store) (manifest : Manifest) (fuel : ℕ) (res : List BlobRef),
      s.listBlobRefs.length ≤ fuel → (collectRefs fuel manifest []).result s = .ok res →
        Complete s manifest res := by
  let known := sample
  intro h
  have hruns : (((collectRefs 2 Sample.mislabelled []).result Sample.uploadedImage).toOption.map
      fun res => res.map BlobRef.digest) = some [Sample.image.digest] ∧
      (Sample.uploadedImage.expansion (Sample.labelled Sample.image mtOciManifest)).map
        Descriptor.digest = [Sample.config.digest] ∧
      Sample.uploadedImage.listBlobRefs.length ≤ 2 := by
    subst known
    simp only [Sample.uploadedImage, Sample.mislabelled, Sample.labelled, Sample.image_bytes]
    rw [Sample.sample_eq_prepared]
    decide +kernel
  obtain ⟨hresult, hexpansion, hfuel⟩ := hruns
  cases hr : (collectRefs 2 Sample.mislabelled []).result Sample.uploadedImage with
  | error e =>
      rw [hr] at hresult
      cases hresult
  | ok res =>
      rw [hr] at hresult
      have hdigests : res.map BlobRef.digest = [Sample.image.digest] := Option.some.inj hresult
      obtain ⟨d, hd, hconfig⟩ := List.mem_map.mp (hexpansion ▸ List.mem_singleton_self _)
      have hlisted : Sample.labelled Sample.image mtOciManifest ∈
          Sample.mislabelled.referenced := List.mem_cons_of_mem _ List.mem_cons_self
      have hmem := ((h _ _ 2 res hfuel hr).2 Sample.config.digest).mpr
        ⟨d, ⟨_, hlisted, .single hd⟩, hconfig⟩
      rw [hdigests] at hmem
      exact absurd hmem (by decide +kernel)

end Ocid
