import Ocid.Daemon.Fetch
import Ocid.Replication.Sync
import Ocid.Replication.Truthful

/-!
# Replication — Partial — a fetch that stops half-way

A fetch obtains the blobs of a release one after the other, and may stop at any of them: nobody
provides it, its download fails, its content is not what the release says, or a write of its pin or
of its index entry fails.

`FetchedPart s bs t` says what such a fetch leaves of a store `s`: the records are those of `s`, no
pin and no index entry is missing, and those that changed are of blobs of the release whose content
was verified.  It is the invariant of the loop, and with it `fetch_fails_whole`: a fetch that fails
shows nothing of the release, and until its last blob is there nobody sees that it is under way.
-/

namespace Ocid

open Call

section
variable [External]

/-- `fetchRelease`, where a fault may stop the loop over the blobs after any number of its writes. -/
def fetchReleaseCut (fault : Option (ℕ × Err)) (selfId : PublisherId) (release : Release)
    (providers : List EndpointId) (net : Downloads) : Op Unit := do
  ofExcept release.verify
  (fetchBlobs (providers.filter fun p => p ≠ selfId) net 0 release.allBlobs).cut fault
  let _stored ← putRelease release
  pure ()

theorem fetchReleaseCut_none (selfId : PublisherId) (release : Release)
    (providers : List EndpointId) (net : Downloads) :
    fetchReleaseCut none selfId release providers net =
      fetchRelease selfId release providers net :=
  rfl

/-! ### What a part of a fetch leaves -/

/-- `t` is `s` after a fetch of some of the blobs `bs`. -/
structure FetchedPart (s : Store) (bs : List BlobRef) (t : Store) : Prop where
  releases : t.releases = s.releases
  referrers : t.referrers = s.referrers
  data : s.HoldsData t
  pins : ∀ d, t.pins.get d = s.pins.get d ∨
    ∃ b ∈ bs, b.digest = d ∧ t.pins.get d = some (d, b.hash) ∧ (verifyBlob b).result t = .ok ()
  index : ∀ d, t.digests.get d = s.digests.get d ∨
    ∃ b ∈ bs, b.digest = d ∧ t.digests.get d = some b ∧ (verifyBlob b).result t = .ok ()

theorem verifyBlob_mono {s t : Store} {b : BlobRef} (h : (verifyBlob b).result s = .ok ())
    (hst : s.HoldsData t) : (verifyBlob b).result t = .ok () :=
  verifyBlob_ok.mpr ((verifyBlob_ok.mp h).mono hst)

namespace FetchedPart

variable {s t : Store} {bs : List BlobRef}

theorem refl (s : Store) (bs : List BlobRef) : FetchedPart s bs s :=
  ⟨rfl, rfl, fun _ _ h => h, fun _ => Or.inl rfl, fun _ => Or.inl rfl⟩

theorem trans {u : Store} (h : FetchedPart s bs t) (h' : FetchedPart t bs u) :
    FetchedPart s bs u := by
  refine ⟨h'.releases.trans h.releases, h'.referrers.trans h.referrers,
    fun k c hk => h'.data k c (h.data k c hk), fun d => ?_, fun d => ?_⟩
  · rcases h'.pins d with hsame | hnew
    · rw [hsame]
      refine (h.pins d).imp_right ?_
      rintro ⟨b, hb, hd, hpin, hverified⟩
      exact ⟨b, hb, hd, hpin, verifyBlob_mono hverified h'.data⟩
    · exact Or.inr hnew
  · rcases h'.index d with hsame | hnew
    · rw [hsame]
      refine (h.index d).imp_right ?_
      rintro ⟨b, hb, hd, hentry, hverified⟩
      exact ⟨b, hb, hd, hentry, verifyBlob_mono hverified h'.data⟩
    · exact Or.inr hnew

/-- New content changes no pin and no entry. -/
theorem content (bs : List BlobRef) {c : Bytes} (hnew : t.hasHash (External.blake3 c) = false) :
    FetchedPart t bs (t.apply (.data c)) :=
  ⟨rfl, rfl, holdsData_new hnew, fun _ => Or.inl rfl, fun _ => Or.inl rfl⟩

/-- A verified blob is pinned. -/
theorem pin {b : BlobRef} (hb : b ∈ bs) (hverified : (verifyBlob b).result t = .ok ()) :
    FetchedPart t bs (t.apply (.tag b.digest b.hash)) := by
  refine ⟨rfl, rfl, fun _ _ h => h, fun d => ?_, fun _ => Or.inl rfl⟩
  by_cases hd : b.digest = d
  · subst hd
    exact Or.inr ⟨b, hb, rfl, Table.get_put_self t.pins (b.digest, b.hash),
      verifyBlob_mono hverified fun _ _ h => h⟩
  · exact Or.inl (Table.get_put_of_ne (t := t.pins) (v := (b.digest, b.hash)) hd)

/-- A verified blob is indexed. -/
theorem entry {b : BlobRef} (hb : b ∈ bs) (hverified : (verifyBlob b).result t = .ok ()) :
    FetchedPart t bs (t.apply (.blobRef b)) := by
  refine ⟨rfl, rfl, fun _ _ h => h, fun _ => Or.inl rfl, fun d => ?_⟩
  by_cases hd : b.digest = d
  · subst hd
    exact Or.inr ⟨b, hb, rfl, Table.get_put_self t.digests b,
      verifyBlob_mono hverified fun _ _ h => h⟩
  · exact Or.inl (Table.get_put_of_ne (t := t.digests) (v := b) hd)

/-- No pin is missing. -/
theorem pinned (h : FetchedPart s bs t) {d : Digest} (hd : s.pins.has d = true) :
    t.pins.has d = true := by
  rcases h.pins d with hsame | ⟨b, -, -, hpin, -⟩
  · rwa [Table.has, hsame]
  · exact Table.has_iff.mpr ⟨_, hpin⟩

/-- No index entry is missing. -/
theorem indexed (h : FetchedPart s bs t) {d : Digest} (hd : s.digests.has d = true) :
    t.digests.has d = true := by
  rcases h.index d with hsame | ⟨b, -, -, hentry, -⟩
  · rwa [Table.has, hsame]
  · exact Table.has_iff.mpr ⟨_, hentry⟩

end FetchedPart

/-! ### The loop -/

/-- The blob's content is there, and its digest is indexed. -/
def Store.HasBlob (s : Store) (b : BlobRef) : Prop :=
  s.hasHash b.hash = true ∧ s.digests.has b.digest = true

/-- The writes of a fetch, and those of `putRelease`, take no blob away. -/
theorem Store.HasBlob.apply {s : Store} {b : BlobRef} {w : Write} (h : s.HasBlob b)
    (hdata : ∀ k, w ≠ .dropData k) (hentry : ∀ d, w ≠ .dropBlobRef d) : (s.apply w).HasBlob b := by
  cases w with
  | data c => exact ⟨Table.has_put c h.1, h.2⟩
  | dropData k => exact absurd rfl (hdata k)
  | blobRef r => exact ⟨h.1, Table.has_put r h.2⟩
  | dropBlobRef d => exact absurd rfl (hentry d)
  | _ => exact h

theorem hasBlob_fetchBlobs (b : BlobRef) (bs : List BlobRef) (providers : List EndpointId)
    (net : Downloads) (i : ℕ) :
    Triple (fun t => t.HasBlob b) (fetchBlobs providers net i bs) (fun _ t => t.HasBlob b)
      (fun t => t.HasBlob b) :=
  Triple.ofEmits (W := fun w => (∀ k, w ≠ .dropData k) ∧ ∀ d, w ≠ .dropBlobRef d)
    (emits_fetchBlobs
      (fun _ _ => ⟨fun _ _ => ⟨nofun, nofun⟩, ⟨nofun, nofun⟩, nofun, nofun⟩) providers net i)
    fun _ _ hw ht => ht.apply hw.1 hw.2

section
variable {s : Store} {bs : List BlobRef} {b : BlobRef}

/-- A verified blob of the release is recorded. -/
theorem fetchedPart_recordBlob (hb : b ∈ bs) :
    Triple (fun t => FetchedPart s bs t ∧ (verifyBlob b).result t = .ok ()) (recordBlob b)
      (fun _ t => FetchedPart s bs t ∧ t.HasBlob b) (FetchedPart s bs) := by
  refine Triple.bind (Q := fun _ t => FetchedPart s bs t ∧ (verifyBlob b).result t = .ok ()) ?_
    fun _ => ?_
  · refine Triple.write fun t ⟨h, hv⟩ => ⟨h, h.trans (.pin hb hv), h.trans (.pin hb hv), ?_⟩
    exact verifyBlob_mono hv fun _ _ hc => hc
  · refine Triple.write fun t ⟨h, hv⟩ => ⟨h, h.trans (.entry hb hv), h.trans (.entry hb hv), ?_, ?_⟩
    · obtain ⟨c, hc, -⟩ := verifyBlob_ok.mp hv
      exact Table.has_iff.mpr ⟨c, hc⟩
    · exact Table.has_iff.mpr ⟨b, Table.get_put_self t.digests b⟩

/-- One round: whichever way it takes, and wherever it stops. -/
theorem fetchedPart_fetchBlob (hb : b ∈ bs) (providers : List EndpointId) (net : Downloads)
    (i : ℕ) :
    Triple (FetchedPart s bs) (fetchBlob providers net i b)
      (fun _ t => FetchedPart s bs t ∧ t.HasBlob b) (FetchedPart s bs) := by
  have hverify : Triple (FetchedPart s bs) (do
      verifyBlob b
      recordBlob b) (fun _ t => FetchedPart s bs t ∧ t.HasBlob b) (FetchedPart s bs) :=
    Triple.bind (Triple.quiet (emits_verifyBlob b) fun _ ht => ht) fun _ =>
      fetchedPart_recordBlob hb
  refine Triple.bind (Q := fun u t => FetchedPart s bs t ∧ t = u)
    (Triple.read fun t ht => ⟨ht, ht, rfl⟩) fun u => ?_
  refine Triple.ite (fun hnot => ?_) fun hhas => Triple.ite (fun _ => ?_) fun hold => ?_
  · -- the content is not held: it is downloaded first
    refine Triple.bind (Q := fun _ t => FetchedPart s bs t ∧ t = u)
      (Triple.ensure fun t ht => ⟨ht.1, fun _ => ht⟩) fun _ => ?_
    refine Triple.bind ?_ fun _ => hverify
    unfold download
    cases net i b.hash with
    | error e => exact Triple.fail fun t ht => ht.1
    | ok c =>
        obtain ⟨c, hc⟩ := c
        refine Triple.write fun t ⟨ht, he⟩ => ?_
        subst he
        have hnew : t.hasHash (External.blake3 c) = false := by
          rw [hc]
          simpa using hnot
        exact ⟨ht, ht.trans (.content bs hnew), ht.trans (.content bs hnew)⟩
  · -- held, under a digest the index does not know
    exact hverify.pre fun t ht => ht.1
  · -- held and indexed: nothing is done
    refine Triple.pure fun t ⟨ht, he⟩ => ⟨ht, ht, ?_, ?_⟩
    · rw [he]
      simpa using hhas
    · rw [he]
      exact Option.isSome_iff_ne_none.mpr fun hnone => hold (Option.isNone_iff_eq_none.mpr hnone)

end

theorem fetchedPart_fetchBlobs {s : Store} {bs rest : List BlobRef} (hrest : ∀ b ∈ rest, b ∈ bs)
    (providers : List EndpointId) (net : Downloads) (i : ℕ) :
    Triple (FetchedPart s bs) (fetchBlobs providers net i rest)
      (fun _ t => FetchedPart s bs t ∧ ∀ b ∈ rest, t.HasBlob b) (FetchedPart s bs) := by
  induction rest generalizing i with
  | nil => exact Triple.pure fun t ht => ⟨ht, ht, nofun⟩
  | cons b rest ih =>
      refine Triple.bind (fetchedPart_fetchBlob (hrest b List.mem_cons_self) providers net i)
        fun _ => ?_
      have hrounds := (ih (fun c hc => hrest c (List.mem_cons_of_mem _ hc)) (i + 1)).and
        (hasBlob_fetchBlobs b rest providers net (i + 1))
      refine (hrounds.weaken fun t ht => ht.1).post fun _ t ht => ⟨ht.1.1, fun c hc => ?_⟩
      rcases List.mem_cons.mp hc with rfl | hc
      · exact ht.2
      · exact ht.1.2 c hc

section
variable (fault : Option (ℕ × Err)) (selfId : PublisherId) (release : Release)
  (providers : List EndpointId) (net : Downloads) (s : Store)

/-- What a fetch does of a release that verifies. -/
theorem fetchReleaseCut_of_verify (hv : release.verify = .ok ()) :
    fetchReleaseCut fault selfId release providers net =
      ((fetchBlobs (providers.filter fun p => p ≠ selfId) net 0 release.allBlobs).cut fault >>=
        fun _ => putRelease release >>= fun _ => pure ()) := by
  rw [fetchReleaseCut, hv]
  rfl

theorem fetchedPart_cut :
    Triple (fun t => t = s)
      ((fetchBlobs (providers.filter fun p => p ≠ selfId) net 0 release.allBlobs).cut fault)
      (fun _ t => FetchedPart s release.allBlobs t ∧ ∀ b ∈ release.allBlobs, t.HasBlob b)
      (FetchedPart s release.allBlobs) :=
  ((fetchedPart_fetchBlobs (fun _ hb => hb) _ net 0).cut fault).pre fun _ ht =>
    ht ▸ FetchedPart.refl s _

/-- A fetch that fails is a part of a fetch, at each of its points. -/
theorem fetchedPart_of_error {e : Err}
    (h : (fetchReleaseCut fault selfId release providers net).result s = .error e) (k : ℕ) :
    FetchedPart s release.allBlobs
      (replay s (((fetchReleaseCut fault selfId release providers net).journal s).take k)) := by
  cases hv : release.verify with
  | error e' =>
      have hnone : (fetchReleaseCut fault selfId release providers net).journal s = [] := by
        rw [fetchReleaseCut, hv]
        rfl
      rw [hnone, List.take_nil]
      exact FetchedPart.refl s _
  | ok u =>
      have hput : ∀ t, ∃ x, (putRelease release >>= fun _ => pure ()).result t = .ok x := by
        obtain ⟨hn, ht⟩ := Release.valid_of_verify hv
        intro t
        obtain ⟨x, hx⟩ := putRelease_returns hn ht t
        exact ⟨(), result_bind_ok.mpr ⟨x, hx, rfl⟩⟩
      rw [fetchReleaseCut_of_verify _ _ _ _ _ hv] at h ⊢
      rw [journal, bind_eq_of_error (fun _ _ => hput _) h]
      exact (fetchedPart_cut fault selfId release providers net s s rfl).1 k

/-- Until the records change nothing is seen, and when they do, every blob is there. -/
theorem releases_or_hasBlobs (k : ℕ) :
    (replay s (((fetchReleaseCut fault selfId release providers net).journal s).take k)).releases =
        s.releases ∨
      ∀ b ∈ release.allBlobs, (replay s (((fetchReleaseCut fault selfId release providers
        net).journal s).take k)).HasBlob b := by
  have hall : Triple (fun t => t = s) (fetchReleaseCut fault selfId release providers net)
      (fun _ _ => True)
      (fun t => t.releases = s.releases ∨ ∀ b ∈ release.allBlobs, t.HasBlob b) := by
    refine Triple.bind (Q := fun _ t => t = s)
      (Triple.ofExcept fun t ht => ⟨Or.inl (congrArg Store.releases ht), fun _ _ => ht⟩) fun _ => ?_
    refine Triple.bind ((fetchedPart_cut fault selfId release providers net s).weaken
      fun t ht => Or.inl ht.releases) fun _ => ?_
    refine Triple.bind (Q := fun _ t => ∀ b ∈ release.allBlobs, t.HasBlob b) ?_ fun _ =>
      Triple.pure fun t ht => ⟨Or.inr ht, trivial⟩
    refine ((Triple.ofEmits (emits_putRelease release) (I := fun t => ∀ b ∈ release.allBlobs,
      t.HasBlob b) fun t w hw ht b hb => ?_).weaken fun t ht => Or.inr ht).pre fun t ht => ht.2
    rcases List.mem_cons.mp hw with rfl | hw
    · exact (ht b hb).apply nofun nofun
    · obtain ⟨r, -, rfl⟩ := List.mem_map.mp hw
      exact (ht b hb).apply nofun nofun
  exact (hall s rfl).1 k

end

/-! ### Who sees it -/

/-- What is answered says nothing that is not in the records of `s`. -/
def Store.Covers (s : Store) : SyncResponse → Prop
  | .inventory rs => ∀ x ∈ rs, ∃ r ∈ s.listReleases, x = r.summary
  | .release bytes => ∀ b, bytes = some b → ∃ r ∈ s.listReleases, b = r.toVec
  | .tags ts => ∀ x ∈ ts, ∃ r ∈ s.listReleases, x = r.payload.tag
  | .ok | .error _ => True

/-- Nobody who asks for the records of `t` sees others than those of `s`. -/
structure SameRecords (s t : Store) : Prop where
  releases : t.releases = s.releases
  listed : t.listReleases = s.listReleases
  got : ∀ publisher name tag,
    (getRelease publisher name tag).result t = (getRelease publisher name tag).result s
  answered : ∀ req a, (handle req).result t = .ok a → s.Covers a

theorem Store.Covers.of_handle {s t : Store} (h : t.releases = s.releases) {req : SyncRequest}
    {a : SyncResponse} (ha : (handle req).result t = .ok a) : s.Covers a := by
  have hlisted : t.listReleases = s.listReleases := by
    rw [Store.listReleases, h, Store.listReleases]
  obtain ⟨x, hx, ha⟩ := result_bind_ok.mp ha
  obtain rfl : (handleInner req).result t = x := Except.ok.inj hx
  cases hr : (handleInner req).result t with
  | error e =>
      rw [hr] at ha
      obtain rfl := Except.ok.inj ha
      trivial
  | ok resp =>
      rw [hr] at ha
      obtain rfl := Except.ok.inj ha
      cases req with
      | inventory =>
          obtain ⟨u, hu, hr⟩ := result_bind_ok.mp hr
          obtain rfl := Except.ok.inj hu
          obtain rfl := Except.ok.inj hr
          intro x hx
          obtain ⟨r, hr, rfl⟩ := List.mem_map.mp hx
          exact ⟨r, hlisted ▸ List.mem_of_mem_filter hr, rfl⟩
      | getRelease publisher name tag =>
          obtain ⟨rel, hrel, hr⟩ := result_bind_ok.mp hr
          obtain ⟨u, -, hr⟩ := result_bind_ok.mp hr
          obtain rfl := Except.ok.inj hr
          intro bytes hbytes
          obtain ⟨r, hr, rfl⟩ := Option.map_eq_some_iff.mp hbytes
          obtain ⟨rfl, -⟩ := Option.filter_eq_some_iff.mp hr
          obtain ⟨p, -, hrel⟩ := result_bind_ok.mp hrel
          obtain ⟨u, hu, hrel⟩ := result_bind_ok.mp hrel
          obtain rfl := Except.ok.inj hu
          have hget : t.releases.get p = some r := Except.ok.inj hrel
          refine ⟨r, hlisted ▸ Store.mem_listReleases.mpr ?_, rfl⟩
          have hkey : r.ref = p := Table.key_of_get hget
          rwa [hkey]
      | listTags publisher name =>
          obtain ⟨ts, hts, hr⟩ := result_bind_ok.mp hr
          obtain rfl := Except.ok.inj hr
          intro x hx
          obtain ⟨r, hget⟩ := ((listTags_ok hts).2 x).mp hx
          have hkey := Table.key_of_get hget
          refine ⟨r, hlisted ▸ Store.mem_listReleases.mpr ?_, (congrArg Ref.tag hkey).symm⟩
          rwa [hkey]

theorem SameRecords.of_releases {s t : Store} (h : t.releases = s.releases) : SameRecords s t where
  releases := h
  listed := by rw [Store.listReleases, h, Store.listReleases]
  got publisher name tag := by
    cases hp : releasePath publisher name tag with
    | error e => rw [result, getRelease_apply_error hp, result, getRelease_apply_error hp]
    | ok p => rw [result, getRelease_apply hp, result, getRelease_apply hp, h]
  answered _ _ ha := Store.Covers.of_handle h ha

/-- **A fetch that fails leaves no part of the release to be seen.**  Up to the last blob the
records are those of before, whoever asks for them; and when the fetch fails at a blob they stay
so, no pin and no index entry has gone, and the new ones are of blobs that were verified. -/
theorem fetch_fails_whole (fault : Option (ℕ × Err)) (selfId : PublisherId) (release : Release)
    (providers : List EndpointId) (net : Downloads) (s : Store) :
    let m := fetchReleaseCut fault selfId release providers net
    (∀ k, SameRecords s (replay s ((m.journal s).take k)) ∨
      m.result s = .ok () ∧
        ∀ b ∈ release.allBlobs, (replay s ((m.journal s).take k)).HasBlob b) ∧
      ∀ e, m.result s = .error e →
        SameRecords s (m.final s) ∧ FetchedPart s release.allBlobs (m.final s) ∧
          (∀ d, s.pins.has d = true → (m.final s).pins.has d = true) ∧
          ∀ d, s.digests.has d = true → (m.final s).digests.has d = true := by
  intro m
  refine ⟨fun k => ?_, fun e he => ?_⟩
  · cases hr : m.result s with
    | error e =>
        exact Or.inl (.of_releases
          (fetchedPart_of_error fault selfId release providers net s hr k).releases)
    | ok u =>
        exact (releases_or_hasBlobs fault selfId release providers net s k).imp
          .of_releases fun h => ⟨rfl, h⟩
  · have hpart := fetchedPart_of_error fault selfId release providers net s he
      (m.journal s).length
    rw [List.take_length] at hpart
    exact ⟨.of_releases hpart.releases, hpart, fun _ => hpart.pinned, fun _ => hpart.indexed⟩

end

end Ocid
