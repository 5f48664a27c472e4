import Ocid.Daemon.Registry
import Ocid.Daemon.Sample
import Ocid.Lib.Runs

/-!
# Replication — Truthful — records and the content they name

A stored record is truthful when, for each of its blobs, the blob store holds content of the
blob's digest and size under the blob's hash.  The fetch loop verifies what it downloads and what
it indexes; a blob whose content is held and whose digest is indexed it takes as it is, although
the content was found by the hash and the entry by the digest.

`Agrees` says when that is harmless: the entry for the digest is of the same content and size.  In
every run of fetches from an empty store, cut by faults anywhere, whose releases agree with the
index, all records are truthful (`run_truthful`).
-/

namespace Ocid

open Call

section
variable [External]

/-- The blob store holds content of the digest and the size that `b` names, under its hash. -/
def Store.Truthful (s : Store) (b : BlobRef) : Prop :=
  ∃ c, s.blobs.get b.hash = some c ∧ Digest.sha256 c = b.digest ∧ c.length = b.size

/-- Every index entry and every blob of a stored record is true of the content it names. -/
structure Store.Sound (s : Store) : Prop where
  index : ∀ d e, s.blobRef d = some e → s.Truthful e
  records : ∀ r rel, s.releases.get r = some rel → ∀ b ∈ rel.allBlobs, s.Truthful b

/-- Fetched one after the other, `bs` meet only index entries that agree with them: where the
content of a blob is held and its digest is indexed (at the start, as `held` and `entry` say, or
through an earlier one of `bs`), the entry has the hash and the size of the blob. -/
def Agrees (held : Blake3 → Prop) (entry : Digest → Option BlobRef) : List BlobRef → Prop
  | [] => True
  | b :: bs =>
      (held b.hash → ∀ e, entry b.digest = some e → e.hash = b.hash ∧ e.size = b.size) ∧
        Agrees (fun h => h = b.hash ∨ held h) (fun d => if d = b.digest then some b else entry d) bs

/-- The release can be fetched into `s` without meeting an index entry that disagrees with it. -/
def Store.AgreesWith (s : Store) (release : Release) : Prop :=
  Agrees (fun h => s.hasHash h = true) s.blobRef release.allBlobs

/-! ### Content that stays -/

/-- Content held by `s` is held by `t`, unchanged. -/
def Store.HoldsData (s t : Store) : Prop := ∀ h c, s.blobs.get h = some c → t.blobs.get h = some c

theorem Store.Truthful.mono {s t : Store} {b : BlobRef} (h : s.Truthful b) (hst : s.HoldsData t) :
    t.Truthful b := by
  obtain ⟨c, hc, hd, hs⟩ := h
  exact ⟨c, hst _ _ hc, hd, hs⟩

theorem Store.Sound.mono {s t : Store} (h : s.Sound) (hst : s.HoldsData t)
    (hd : t.digests = s.digests) (hr : t.releases = s.releases) : t.Sound where
  index d e he := (h.index d e (by rw [blobRef, ← hd]; exact he)).mono hst
  records r rel hrel b hb := (h.records r rel (by rw [← hr]; exact hrel) b hb).mono hst

/-- Content that is added displaces nothing, unless other content has the same hash. -/
theorem holdsData_data {s : Store} {c : Bytes}
    (h : ∀ d, s.blobs.get (External.blake3 c) = some d → d = c) :
    s.HoldsData (s.apply (.data c)) := by
  intro k d hd
  show (s.blobs.put c).get k = some d
  rw [Table.get_put]
  split
  · rename_i hk
    subst hk
    rw [h d hd]
  · exact hd

/-- New content does not displace what is held. -/
theorem holdsData_new {s : Store} {c : Bytes} (h : s.hasHash (External.blake3 c) = false) :
    s.HoldsData (s.apply (.data c)) :=
  holdsData_data fun d hd => by
    rw [Store.hasHash, Table.has_eq_false_iff, hd] at h
    cases h

/-- An entry that is true of its content can be indexed. -/
theorem Store.Sound.blobRef {s : Store} {b : BlobRef} (h : s.Sound) (hb : s.Truthful b) :
    (s.apply (.blobRef b)).Sound where
  index d e he := by
    simp only [Store.blobRef, Store.apply, Table.get_put] at he
    split at he
    · cases he
      exact hb
    · exact h.index d e he
  records := h.records

/-- A record whose blobs are all true can be stored. -/
theorem Store.Sound.release {s : Store} {rel : Release} (h : s.Sound)
    (hrel : ∀ b ∈ rel.allBlobs, s.Truthful b) : (s.apply (.release rel)).Sound where
  index := h.index
  records r rel' hr b hb := by
    simp only [Store.apply, Table.get_put] at hr
    split at hr
    · cases hr
      exact hrel b hb
    · exact h.records r rel' hr b hb

/-! ### One round of the loop -/

theorem verifyBlob_ok {s : Store} {b : BlobRef} :
    (verifyBlob b).result s = .ok () ↔ s.Truthful b := by
  have hread : ∀ c, (readHash b.hash).result s = .ok c ↔ s.blobs.get b.hash = some c := by
    intro c
    rw [readHash, result, read_bind_apply]
    cases s.blobs.get b.hash with
    | none => exact iff_of_false (fun h => by cases h) fun h => by cases h
    | some c' =>
        exact ⟨fun h => congrArg some (Except.ok.inj h),
          fun h => congrArg Except.ok (Option.some.inj h)⟩
  have hfinal := (final_of_emits_false (emits_readHash b.hash) s).2
  rw [verifyBlob, result_bind_ok]
  constructor
  · rintro ⟨c, hc, h⟩
    obtain ⟨u, hd, hs⟩ := result_bind_ok.mp h
    rw [result_ensure] at hd hs
    split at hd
    · split at hs
      · exact ⟨c, (hread c).mp hc, eq_of_beq ‹_›, eq_of_beq ‹_›⟩
      · cases hs
    · cases hd
  · rintro ⟨c, hget, hd, hs⟩
    refine ⟨c, (hread c).mpr hget, ?_⟩
    rw [result_bind_ok]
    exact ⟨(), by rw [result_ensure, hd]; simp, by rw [result_ensure, hs]; simp⟩

/-- What the loop knows after the blobs `done`: the store is sound, `held` and `entry` cover what it
holds and indexes, and the blobs are truthful. -/
structure FetchInv (held : Blake3 → Prop) (entry : Digest → Option BlobRef) (done : List BlobRef)
    (t : Store) : Prop where
  sound : t.Sound
  held : ∀ h, t.hasHash h = true → held h
  entry : ∀ d e', t.blobRef d = some e' → ∃ e, entry d = some e ∧ e.hash = e'.hash ∧ e.size = e'.size
  done : ∀ b ∈ done, t.Truthful b

section
variable {held : Blake3 → Prop} {entry : Digest → Option BlobRef} {done : List BlobRef}
  {b : BlobRef}

/-- What is known after one more blob. -/
abbrev FetchInv.Next (held : Blake3 → Prop) (entry : Digest → Option BlobRef)
    (done : List BlobRef) (b : BlobRef) : Store → Prop :=
  FetchInv (fun h => h = b.hash ∨ held h) (fun d => if d = b.digest then some b else entry d)
    (b :: done)

/-- A verified blob is recorded. -/
theorem triple_recordBlob :
    Triple (fun t => FetchInv (fun h => h = b.hash ∨ held h) entry done t ∧ t.Truthful b)
      (recordBlob b) (fun _ t => FetchInv.Next held entry done b t) Store.Sound := by
  refine Triple.bind (Q := fun _ t =>
    FetchInv (fun h => h = b.hash ∨ held h) entry done t ∧ t.Truthful b) ?_ fun _ => ?_
  · refine Triple.write fun t ⟨h, hb⟩ => ⟨h.sound, ?_, ⟨?_, h.held, h.entry, h.done⟩, hb⟩
    · exact h.sound.mono (fun _ _ hc => hc) rfl rfl
    · exact h.sound.mono (fun _ _ hc => hc) rfl rfl
  · refine Triple.write fun t ⟨h, hb⟩ => ⟨h.sound, h.sound.blobRef hb, h.sound.blobRef hb, h.held,
      fun d e' he' => ?_, fun c hc => ?_⟩
    · simp only [Journalled.apply, Store.blobRef, Store.apply, Table.get_put] at he'
      split at he'
      · rename_i hd
        cases he'
        exact ⟨b, if_pos hd.symm, rfl, rfl⟩
      · rename_i hd
        rw [if_neg (Ne.symm hd)]
        exact h.entry d e' he'
    · rcases List.mem_cons.mp hc with rfl | hc
      · exact hb
      · exact h.done c hc

/-- One round: whichever way it takes, the blob is truthful afterwards. -/
theorem triple_fetchBlob
    (hagree : held b.hash → ∀ e, entry b.digest = some e → e.hash = b.hash ∧ e.size = b.size)
    (providers : List EndpointId) (net : Downloads) (i : ℕ) :
    Triple (FetchInv held entry done) (fetchBlob providers net i b)
      (fun _ t => FetchInv.Next held entry done b t) Store.Sound := by
  have hverify : Triple (FetchInv (fun h => h = b.hash ∨ held h) entry done) (do
      verifyBlob b
      recordBlob b) (fun _ t => FetchInv.Next held entry done b t) Store.Sound := by
    refine Triple.bind (Triple.quiet (emits_verifyBlob b) fun t ht => ht.sound) fun _ => ?_
    exact triple_recordBlob.pre fun t h => ⟨h.1, verifyBlob_ok.mp h.2⟩
  have hwiden : ∀ t, FetchInv held entry done t →
      FetchInv (fun h => h = b.hash ∨ held h) entry done t :=
    fun t h => ⟨h.sound, fun k hk => Or.inr (h.held k hk), h.entry, h.done⟩
  intro s hs
  rw [fetchBlob, journal, result, final, journal, read_bind_apply]
  refine (?_ : Triple (fun t => FetchInv held entry done t ∧ t = s) _ _ _) s ⟨hs, rfl⟩
  refine Triple.ite (fun hnot => ?_) fun hhas => Triple.ite (fun hnew => ?_) fun hold => ?_
  · -- the content is not held: it is downloaded first
    refine Triple.bind (Q := fun _ t => FetchInv held entry done t ∧ t = s)
      (Triple.ensure fun t ht => ⟨ht.1.sound, fun _ => ht⟩) fun _ => ?_
    refine Triple.bind ?_ fun _ => hverify
    unfold download
    cases net i b.hash with
    | error e => exact Triple.fail fun t ht => ht.1.sound
    | ok c =>
        obtain ⟨c, hc⟩ := c
        refine Triple.write fun t h => ?_
        obtain ⟨ht, rfl⟩ := h
        have hmono : t.HoldsData (t.apply (.data c)) := by
          refine holdsData_new ?_
          rw [hc]
          simpa using hnot
        refine ⟨ht.sound, ht.sound.mono hmono rfl rfl, ht.sound.mono hmono rfl rfl, fun k hk => ?_,
          ht.entry, fun a ha => (ht.done a ha).mono hmono⟩
        rw [Store.hasHash, Table.has_iff] at hk
        obtain ⟨v, hv⟩ := hk
        simp only [Journalled.apply, Store.apply, Table.get_put, hc] at hv
        split at hv
        · rename_i hk
          exact Or.inl hk.symm
        · exact Or.inr (ht.held k (Table.has_iff.mpr ⟨v, hv⟩))
  · -- held, under a digest the index does not know
    exact hverify.pre fun t ht => hwiden t ht.1
  · -- held and indexed: the entry that was found speaks for the blob
    refine Triple.pure fun t h => ⟨h.1.sound, ?_⟩
    obtain ⟨ht, rfl⟩ := h
    have hheld : t.hasHash b.hash = true := by simpa using hhas
    cases hget : t.blobRef b.digest with
    | none =>
        rw [hget] at hold
        exact absurd rfl hold
    | some e' =>
        obtain ⟨e, he, hh, hsz⟩ := ht.entry _ _ hget
        obtain ⟨heh, hes⟩ := hagree (ht.held _ hheld) e he
        obtain ⟨c, hc, hdig, hlen⟩ := ht.sound.index _ _ hget
        have hb : t.Truthful b :=
          ⟨c, by rw [← heh, hh]; exact hc, hdig.trans (Table.key_of_get hget),
            by rw [hlen, ← hsz, hes]⟩
        refine ⟨ht.sound, fun k hk => Or.inr (ht.held k hk), fun d e'' he'' => ?_, fun a ha => ?_⟩
        · by_cases hd : d = b.digest
          · subst hd
            obtain rfl := Option.some.inj (hget.symm.trans he'')
            exact ⟨b, if_pos rfl, by rw [← hh, heh], by rw [← hsz, hes]⟩
          · rw [if_neg hd]
            exact ht.entry d e'' he''
        · rcases List.mem_cons.mp ha with rfl | ha
          · exact hb
          · exact ht.done a ha

end

/-! ### The loop, and a fetch -/

theorem triple_fetchBlobs {held : Blake3 → Prop} {entry : Digest → Option BlobRef}
    {bs : List BlobRef} (hagree : Agrees held entry bs) (done : List BlobRef)
    (providers : List EndpointId) (net : Downloads) (i : ℕ) :
    Triple (FetchInv held entry done) (fetchBlobs providers net i bs)
      (fun _ t => t.Sound ∧ ∀ b, b ∈ done ∨ b ∈ bs → t.Truthful b) Store.Sound := by
  induction bs generalizing held entry done i with
  | nil =>
      refine Triple.pure fun t ht => ⟨ht.sound, ht.sound, fun b hb => ?_⟩
      exact ht.done b (hb.resolve_right List.not_mem_nil)
  | cons b bs ih =>
      refine Triple.bind (triple_fetchBlob hagree.1 providers net i) fun _ => ?_
      refine (ih hagree.2 (b :: done) (i + 1)).post fun _ t ⟨ht, hall⟩ => ⟨ht, fun a ha => ?_⟩
      refine hall a ?_
      rcases ha with ha | ha
      · exact Or.inl (List.mem_cons_of_mem _ ha)
      · rcases List.mem_cons.mp ha with rfl | ha
        · exact Or.inl List.mem_cons_self
        · exact Or.inr ha

/-- Storing a release whose blobs are all true keeps the store sound, at every point. -/
theorem triple_putRelease (rel : Release) :
    Triple (fun t => t.Sound ∧ ∀ b ∈ rel.allBlobs, t.Truthful b) (putRelease rel)
      (fun _ => Store.Sound) Store.Sound := by
  refine fun s hs => ?_
  have h := Triple.ofEmits (emits_putRelease rel)
    (I := fun t => t.Sound ∧ ∀ b ∈ rel.allBlobs, t.Truthful b) (fun t w hw ht => ?_) s hs
  · exact ⟨fun k => (h.1 k).1, fun a ha => (h.2 a ha).1⟩
  · rcases List.mem_cons.mp hw with rfl | hw
    · exact ⟨ht.1.release ht.2, ht.2⟩
    · obtain ⟨r, -, rfl⟩ := List.mem_map.mp hw
      exact ⟨ht.1.mono (fun _ _ hc => hc) rfl rfl, ht.2⟩

/-- A fetch of a release that agrees with the index keeps the store sound, at every point. -/
theorem triple_fetchRelease (selfId : PublisherId) (release : Release)
    (providers : List EndpointId) (net : Downloads) :
    Triple (fun s => s.Sound ∧ s.AgreesWith release)
      (fetchRelease selfId release providers net) (fun _ => Store.Sound) Store.Sound := by
  refine Triple.bind (Q := fun _ s => s.Sound ∧ s.AgreesWith release)
    (Triple.ofExcept fun s hs => ⟨hs.1, fun _ _ => hs⟩) fun _ s hs => ?_
  have hinv : FetchInv (fun h => s.hasHash h = true) s.blobRef [] s :=
    ⟨hs.1, fun _ hk => hk, fun _ e he => ⟨e, he, rfl, rfl⟩, fun _ hb => by cases hb⟩
  refine Triple.bind (triple_fetchBlobs hs.2 [] (providers.filter fun p => p ≠ selfId) net 0)
    (fun _ => Triple.bind (Q := fun _ => Store.Sound) ?_ fun _ => ?_) s hinv
  · exact (triple_putRelease release).pre fun t ht => ⟨ht.1, fun b hb => ht.2 b (Or.inr hb)⟩
  · exact Triple.pure fun t ht => ⟨ht, ht⟩

/-! ### Runs of fetches -/

/-- One call of `fetchRelease`, with the network it finds and the fault, if any, that stops it. -/
structure Fetch where
  release : Release
  providers : List EndpointId
  net : Downloads
  fault : Option (ℕ × Err)

/-- One fetch, as far as it goes. -/
def fetchStep (selfId : PublisherId) (s : Store) (x : Fetch) : Option Store :=
  some (((fetchRelease selfId x.release x.providers x.net).cut x.fault).final s)

/-- A manifest asked for by a tag whose record is held is served with the digest and the size that
its headers say. -/
def Store.ServesTrue (s : Store) : Prop :=
  ∀ (node : Node) (name : Str) (r : Ref) (rel : Release) (net : EndpointId → Exchange)
    (resp : Response), resolve node name = .ok (r.publisher, r.name) →
    (∀ d, Digest.parse r.tag ≠ .ok d) → s.releases.get r = some rel →
    (manifestGet node name r.tag false net none).result s = .ok resp →
      resp.header "docker-content-digest" = some (Digest.sha256 resp.body).str ∧
        resp.header "content-length" = some (Nat.toDigits 10 resp.body.length)

/-- A pull by tag of a record that is held and complete returns that record's manifest. -/
theorem manifestByTag_apply (node : Node) {r : Ref} {rel : Release} {s : Store}
    (hvalid : releasePath r.publisher r.name r.tag = .ok r) (hrel : s.releases.get r = some rel)
    (hcomplete : s.isComplete rel = true) (name : Str) (net : EndpointId → Exchange) :
    manifestByTag node r.publisher r.name name r.tag net none s =
      ([], .ok rel.payload.manifest) := by
  have hpull := getOrFetch_apply node hvalid net s
  rw [hrel, Option.filter_some, if_pos hcomplete] at hpull
  have hlift : cut none (getOrFetch node r.publisher r.name r.tag net).lift s =
      ([], .ok (some rel)) := by
    rw [cut_none, Op.lift, mapErr, hpull]
    rfl
  have htag : (Call.ofExcept (checkTag r.tag) : Handler Unit) s = ([], .ok ()) := by
    rw [Call.ofExcept, checkTag, (releasePath_eq_ok.mp hvalid).1]
    rfl
  rw [manifestByTag, bind_apply_of_ok htag, journal, result, replay_nil, Option.map_none,
    bind_apply_of_ok hlift]
  rfl

/-- A pull by tag of an invalid reference serves nothing. -/
theorem releasePath_of_manifestByTag_ok {node : Node} {publisher : PublisherId}
    {image name tag : Str} {net : EndpointId → Exchange} {timeout : Option ℕ} {s : Store}
    {b : BlobRef}
    (h : (manifestByTag node publisher image name tag net timeout).result s = .ok b) :
    releasePath publisher image tag = .ok ⟨publisher, image, tag⟩ := by
  obtain ⟨u, -, h⟩ := result_bind_ok.mp h
  obtain ⟨answer, hpull, -⟩ := result_bind_ok.mp h
  rw [cut_of_result_ok hpull, Op.lift, result_mapErr_ok] at hpull
  cases hp : releasePath publisher image tag with
  | ok p =>
      obtain ⟨-, -, rfl⟩ := releasePath_eq_ok.mp hp
      rfl
  | error e =>
      rw [getOrFetch, result, read_bind_apply, bind_apply_of_error (getRelease_apply_error hp _)]
        at hpull
      cases hpull

theorem Store.Sound.servesTrue {s : Store} (h : s.Sound) : s.ServesTrue := by
  intro node name r rel net resp hname htag hrel hresp
  have hcomplete : s.isComplete rel = true := by
    refine List.all_eq_true.mpr fun b hb => Table.has_iff.mpr ?_
    obtain ⟨c, hc, -, -⟩ := h.records r rel hrel b hb
    exact ⟨c, hc⟩
  obtain ⟨c, hc, hd, hs⟩ := h.records r rel hrel _ List.mem_cons_self
  obtain ⟨p, hp, hresp⟩ := result_bind_ok.mp hresp
  obtain rfl : (r.publisher, r.name) = p := Except.ok.inj (hname.symm.trans hp)
  obtain ⟨b, hb, hresp⟩ := result_bind_ok.mp hresp
  rw [final_ofExcept] at hb hresp
  cases hdigest : Digest.parse r.tag with
  | ok d => exact absurd hdigest (htag d)
  | error e =>
    have hblob : manifestBlob node r.publisher r.name name r.tag net none =
        manifestByTag node r.publisher r.name name r.tag net none := by
      rw [manifestBlob, hdigest]
    rw [hblob] at hb hresp
    have happly := manifestByTag_apply node (releasePath_of_manifestByTag_ok hb) hrel
      hcomplete name net
    rw [result, happly] at hb
    cases hb
    rw [final, journal, happly, replay_nil] at hresp
    obtain ⟨-, hlength, hheader, hbytes⟩ := serveManifest_ok hresp
    have hread : (readHash rel.payload.manifest.hash).result s = .ok c := by
      rw [readHash, result, read_bind_apply, hc]
      rfl
    obtain rfl := Except.ok.inj (hread.symm.trans (hbytes rfl))
    rw [hd, hs]
    exact ⟨hheader, hlength⟩

/-- **Runs of fetches.**  From an empty store, in every run of fetches whose releases agree with
the index they are fetched into, every record of every state reached is truthful, and its manifest
is served with the digest and the size the headers say. -/
theorem run_truthful (selfId : PublisherId) (xs : List Fetch)
    (h : Meets (fetchStep selfId) (fun s x => s.AgreesWith x.release) Store.empty xs) :
    Throughout (fetchStep selfId) (fun s => (∀ r rel, s.releases.get r = some rel →
      ∀ b ∈ rel.allBlobs, s.Truthful b) ∧ s.ServesTrue) Store.empty xs := by
  have hempty : Store.empty.Sound :=
    ⟨fun _ _ h => absurd h (by simp [Store.blobRef, Store.empty]),
      fun _ _ h => absurd h (by simp [Store.empty])⟩
  have hsound : Throughout (fetchStep selfId) Store.Sound Store.empty xs := by
    refine throughout_of_meets (fun s x t hs hx ht => ?_) hempty h
    obtain rfl := Option.some.inj ht
    exact (triple_fetchRelease selfId x.release x.providers x.net).final_cut ⟨hs, hx⟩ x.fault
  exact Throughout.mono (fun s hs => ⟨hs.records, hs.servesTrue⟩) hsound

end

namespace Sample

/-- An image of one config, honestly described. -/
def honest : Release :=
  releaseOf alice "app" "1.0" (index.blob (some mtOciIndex)) [config.blob none] 1000

/-- Another release, of another manifest and the same config. -/
def sharing : Release :=
  releaseOf mallory "copy" "1.0" (index2.blob (some mtOciIndex)) [config.blob none] 1005

/-- A release that gives the digest of one held content with the hash of another. -/
def crossed : Release :=
  releaseOf mallory "evil" "9" { index.blob none with digest := config.digest } [] 1000

end Sample

/-- A fetch of an honest release into an empty store, and of one that shares a blob with it. -/
theorem run_truthful_at :
    letI := sample
    let xs : List Fetch := [⟨Sample.honest, [Sample.alice.id], Sample.downloads, none⟩,
      ⟨Sample.sharing, [Sample.mallory.id], Sample.downloads, none⟩]
    Throughout (fetchStep Sample.bob.id) (fun s => (∀ r rel, s.releases.get r = some rel →
      ∀ b ∈ rel.allBlobs, s.Truthful b) ∧ s.ServesTrue) Store.empty xs := by
  let _ := sample
  intro xs
  refine run_truthful _ _ ⟨⟨fun h => (by cases h), fun h => ?_, trivial⟩, fun t ht => ?_⟩
  · have hne : Sample.config.hash ≠ Sample.index.hash := by decide +kernel
    rcases h with h | h
    · exact absurd h hne
    · cases h
  · -- the config is held, under the entry recorded before, and the other manifest is new
    have hfetched : (fetchStep Sample.bob.id Store.empty
        ⟨Sample.honest, [Sample.alice.id], Sample.downloads, none⟩).map (fun t =>
          (t.blobRef Sample.config.digest, t.hasHash Sample.index2.hash)) =
            some (some (Sample.config.blob none), false) := by decide +kernel
    rw [ht] at hfetched
    obtain ⟨hentry, hnew⟩ := Prod.mk.inj (Option.some.inj hfetched)
    have hne : Sample.config.digest ≠ Sample.index2.digest := by decide +kernel
    refine ⟨⟨fun h => ?_, fun _ e he => ?_, trivial⟩, fun _ _ => trivial⟩
    · cases hnew.symm.trans h
    · obtain rfl := Option.some.inj (hentry.symm.trans ((if_neg hne).symm.trans he))
      exact ⟨rfl, rfl⟩

/-- After an honest release, a release that crosses a digest with another content's hash is fetched
and stored: its manifest's content has another digest than the record says. -/
theorem fetch_stores_untruthful_record :
    letI := sample
    let s := (fetchRelease Sample.bob.id Sample.honest [Sample.alice.id] Sample.downloads).final
      Store.empty
    let t := (fetchRelease Sample.bob.id Sample.crossed [Sample.mallory.id] Sample.downloads).final s
    Sample.honest.verify = .ok () ∧ Sample.crossed.verify = .ok () ∧
      t.releases.get Sample.crossed.ref = some Sample.crossed ∧
      t.blobs.get Sample.crossed.payload.manifest.hash = some Sample.index.bytes ∧
      Digest.sha256 Sample.index.bytes ≠ Sample.crossed.payload.manifest.digest := by
  decide +kernel

end Ocid
