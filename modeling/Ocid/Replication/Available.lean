import Ocid.Replication.Genuine
import Ocid.Retention.Swept

/-!
# Replication — Available — what an honest publisher published is served where it is held

A digest names one content, and so does a hash: in a swarm where no two contents share either, a
pin, an entry and a blob of a genuine release that have one digest have one hash.  So nothing that a
node does moves a pin of a genuine release to other content.  A blob that is indexed is then pinned
and here (`Store.Whole.holds`), whatever way it came; a sweep spares what a record names; and the
blob store spares what is pinned.

A sweep drops the pin of a blob before its entry.  Stopped in between it leaves an entry that a push
would rely on.  As long as no sweep is (`Unsplit`), every registry serves every release of an honest
publisher that it holds, and every blob of it (`run_available`).  This too is about nodes that handle
one task after the other: a sweep that overlaps a push of its node is another matter
(Retention — World).
-/

namespace Ocid

open Call

section
variable [External]

/-- No two contents taken in have one digest, or one hash. -/
structure Origins.Distinct (O : Origins) : Prop where
  digests : Set.InjOn Digest.sha256 O.contents
  hashes : Set.InjOn External.blake3 O.contents

/-- What is pinned is here, and the blobs of the releases of honest publishers are pinned, indexed
and here. -/
structure Store.Stocked (O : Origins) (s : Store) : Prop extends s.Genuine O where
  pinned : ∀ d p, s.pins.get d = some p → s.hasHash p.2 = true
  records_held : ∀ r rel, s.releases.get r = some rel → rel.publisher ∈ O.honest →
    ∀ b ∈ rel.allBlobs, Ocid.Holds s b

/-- Every index entry has its pin. -/
def Store.Paired (s : Store) : Prop :=
  ∀ d e, s.digests.get d = some e → ∃ p, s.pins.get d = some p

/-- No pin is split from its entry, and the blobs in `K` are held too. -/
structure Store.Whole (O : Origins) (K : Set BlobRef) (s : Store) : Prop extends s.Stocked O where
  paired : s.Paired
  held : ∀ b ∈ K, Ocid.Holds s b

variable {O : Origins} {K K' : Set BlobRef} {node : Node} {s t : Store} {w : Write} {b : BlobRef}

theorem Store.Whole.mono (h : s.Whole O K) (hK : K' ⊆ K) : s.Whole O K' :=
  { h with held := fun b hb => h.held b (hK hb) }

/-- What more is held. -/
theorem Store.Whole.more (h : s.Whole O K) (hK : ∀ b ∈ K', Ocid.Holds s b) : s.Whole O (K ∪ K') :=
  { h with held := fun b hb => hb.elim (h.held b) (hK b) }

theorem Store.Whole.bare (h : s.Whole O K) : s.Whole O ∅ := h.mono (Set.empty_subset K)

/-- One digest has one hash. -/
theorem Origins.Names.hash_eq (hO : O.Distinct) {d : Digest} {h k : Blake3} (hh : O.Names d h)
    (hk : O.Names d k) : h = k := by
  obtain ⟨c, hc, hdigest, rfl⟩ := hh
  obtain ⟨c', hc', hdigest', rfl⟩ := hk
  rw [hO.digests hc hc' (hdigest.symm.trans hdigest')]

theorem ReleasePayload.Genuine.allBlobs {rel : Release} (h : rel.payload.Genuine O) :
    ∀ b ∈ rel.allBlobs, b.Genuine O := by
  intro b hb
  rcases List.mem_cons.mp hb with rfl | hb
  · obtain ⟨c, hc, hdescribes⟩ := h.manifest
    exact ⟨c, O.pushed_subset _ hc, hdescribes⟩
  · exact h.blobs b hb

/-- A pin is on the hash of what it is pinned for. -/
theorem Store.Genuine.pin_eq (hs : s.Genuine O) (hO : O.Distinct) {d : Digest} {h : Blake3}
    (hnames : O.Names d h) : s.Fits d h := by
  intro p hp
  have hkey : p.1 = d := Table.key_of_get hp
  have hold := hs.pins d p hp
  rw [hkey] at hold
  exact Prod.ext hkey (hold.hash_eq hO hnames)

/-- **What is indexed is held.** -/
theorem Store.Whole.holds (hs : s.Whole O K) (hO : O.Distinct) (hb : b.Genuine O) {e : BlobRef}
    (he : s.digests.get b.digest = some e) : Ocid.Holds s b := by
  obtain ⟨p, hp⟩ := hs.paired _ e he
  obtain rfl := hs.pin_eq hO hb.names p hp
  have hkey : e.digest = b.digest := Table.key_of_get he
  have hnames := (hs.index _ e he).names
  rw [hkey] at hnames
  exact ⟨hp, ⟨e, he, hnames.hash_eq hO hb.names⟩, hs.pinned _ _ hp⟩

/-! ### Writes that add to what is there -/

/-- The write adds what goes with what is there, or drops what no blob needs. -/
def Write.Suits (O : Origins) (s : Store) (w : Write) : Prop :=
  w.Genuine O ∧ match w with
  | .dropData h => ∀ d p, s.pins.get d = some p → p.2 ≠ h
  | .tag _ h => s.hasHash h = true
  | .untag _ | .dropBlobRef _ => False
  | .blobRef b => ∃ p, s.pins.get b.digest = some p
  | .release rel => rel.publisher ∈ O.honest → ∀ b ∈ rel.allBlobs, Ocid.Holds s b
  | _ => True

/-- What is held of the records that are there and of `K` is held where nothing is taken from it. -/
theorem Store.Whole.retained (hs : s.Whole O K) (hg : t.Genuine O)
    (hkept : ∀ b, Ocid.Holds s b → Ocid.Holds t b)
    (hpinned : ∀ d p, t.pins.get d = some p → t.hasHash p.2 = true) (hpaired : t.Paired)
    (hrecords : ∀ r rel, t.releases.get r = some rel → rel.publisher ∈ O.honest →
      ∀ b ∈ rel.allBlobs, Ocid.Holds s b) : t.Whole O K where
  toGenuine := hg
  pinned := hpinned
  records_held r rel hrel hhonest b hb := hkept b (hrecords r rel hrel hhonest b hb)
  paired := hpaired
  held b hb := hkept b (hs.held b hb)

/-- The blobs are where they were. -/
theorem Store.Whole.sameBlobs (hs : s.Whole O K) (hg : t.Genuine O) (hsame : SameBlobs s t)
    (hrecords : ∀ r rel, t.releases.get r = some rel → rel.publisher ∈ O.honest →
      ∀ b ∈ rel.allBlobs, Ocid.Holds s b) : t.Whole O K := by
  refine hs.retained hg (fun b hb => hb.retained hsame.retained) (fun d p hp => ?_)
    (fun d e he => ?_) hrecords
  · rw [hsame.hasHash_eq]
    exact hs.pinned d p (hsame.pins ▸ hp)
  · rw [hsame.pins]
    exact hs.paired d e (hsame.digests ▸ he)

theorem Store.Whole.apply (hO : O.Distinct) (hs : s.Whole O K) (hw : w.Suits O s) :
    (s.apply w).Whole O K := by
  have hgenuine := Store.Genuine.apply s w hw.1 hs.toGenuine
  cases w with
  | data c =>
      have hg := Retains.data_apply s c
      exact hs.retained hgenuine (fun b hb => hb.retained hg)
        (fun d p hp => hg.data (hs.pinned d p hp)) hs.paired hs.records_held
  | dropData h =>
      have hhash : ∀ d p, s.pins.get d = some p →
          (s.apply (.dropData h)).hasHash p.2 = true := by
        intro d p hp
        rw [hasHash_apply_dropData, hs.pinned d p hp, Bool.and_true]
        exact decide_eq_true (Ne.symm (hw.2 d p hp))
      refine hs.retained hgenuine (fun b hb => ?_) hhash hs.paired hs.records_held
      exact ⟨hb.pin, hb.entry, hhash _ _ hb.pin⟩
  | tag d h =>
      have hg := Retains.tag_apply (hs.pin_eq hO hw.1)
      refine hs.retained hgenuine (fun b hb => hb.retained hg) (fun j p hp => ?_)
        (fun j e he => ?_) hs.records_held
      · rw [pin_apply_tag] at hp
        split at hp
        · cases hp
          exact hw.2
        · exact hs.pinned j p hp
      · obtain ⟨p, hp⟩ := hs.paired j e he
        exact ⟨p, hg.pin hp⟩
  | untag d => exact hw.2.elim
  | blobRef b =>
      obtain ⟨p, hp⟩ := hw.2
      obtain rfl := hs.pin_eq hO hw.1.names p hp
      have hg := Retains.blobRef_apply hp
      refine hs.retained hgenuine (fun b hb => hb.retained hg) hs.pinned (fun d e he => ?_)
        hs.records_held
      rw [entry_apply_blobRef] at he
      split at he
      · rename_i hd
        exact ⟨_, hd ▸ hp⟩
      · exact hs.paired d e he
  | dropBlobRef d => exact hw.2.elim
  | release rel =>
      refine hs.sameBlobs hgenuine ⟨rfl, rfl, rfl⟩ fun r rel' hrel hH b hb => ?_
      rw [Store.apply, Table.get_put] at hrel
      split at hrel
      · cases hrel
        exact hw.2 hH b hb
      · exact hs.records_held r rel' hrel hH b hb
  | dropRelease q =>
      exact hs.sameBlobs hgenuine ⟨rfl, rfl, rfl⟩ fun r rel hrel =>
        hs.records_held r rel (Table.get_of_get_erase hrel)
  | referrer subject x => exact hs.sameBlobs hgenuine ⟨rfl, rfl, rfl⟩ hs.records_held
  | dropReferrer subject d => exact hs.sameBlobs hgenuine ⟨rfl, rfl, rfl⟩ hs.records_held

/-! ### Uploads and pushes -/

section
variable {ε α : Type}

/-- A call keeps a whole store whole at every write; when it returns, `Q` is held. -/
abbrev Fills (O : Origins) (K : Set BlobRef) (m : Call Store Write ε α) (Q : α → Set BlobRef) :
    Prop :=
  Triple (Store.Whole O K) m (fun a => Store.Whole O (Q a)) (Store.Whole O ∅)

/-- A call all of whose writes suit. -/
theorem fills_of_emits (hO : O.Distinct) {P : Write → Prop} {m : Call Store Write ε α}
    (h : Emits P m) (hP : ∀ s : Store, s.Whole O K → ∀ w, P w → w.Suits O s) :
    Fills O K m fun _ => K :=
  (Triple.ofEmits h fun s w hw hs => Store.Whole.apply hO hs (hP s hs w hw)).weaken
    fun _ hs => hs.bare

theorem fills_quiet {m : Call Store Write ε α} (h : Emits (fun _ => False) m) :
    Fills O K m fun _ => K :=
  (Triple.quiet h fun _ hs => hs.bare).post fun _ _ hs => hs.1

/-- What a call returns, with what it fills. -/
theorem Fills.with_result {m : Call Store Write ε α} {Q : α → Set BlobRef} {R : α → Prop}
    (h : Fills O K m Q) (hR : ∀ s : Store, s.Whole O K → ∀ a, m.result s = .ok a → R a) :
    Triple (Store.Whole O K) m (fun a s => s.Whole O (Q a) ∧ R a) (Store.Whole O ∅) :=
  fun s hs => ⟨(h s hs).1, fun a ha => ⟨(h s hs).2 a ha, hR s hs a ha⟩⟩

end

section
variable {ε : Type}

/-- Content that is here is pinned. -/
theorem fills_tag (hO : O.Distinct) (hb : b.Genuine O) :
    Triple (fun s => s.Whole O K ∧ s.hasHash b.hash = true)
      (write (.tag b.digest b.hash) : Call Store Write ε Unit)
      (fun _ s => s.Whole O K ∧ s.hasHash b.hash = true ∧
        s.pins.get b.digest = some (b.digest, b.hash)) (Store.Whole O ∅) := by
  refine Triple.write fun s hs => ?_
  have hwhole := hs.1.apply hO (w := .tag b.digest b.hash) ⟨hb.names, hs.2⟩
  exact ⟨hs.1.bare, hwhole.bare, hwhole, hs.2, Table.get_put_self _ _⟩

/-- What is pinned is indexed. -/
theorem fills_entry (hO : O.Distinct) (hb : b.Genuine O) :
    Triple (fun s => s.Whole O K ∧ s.hasHash b.hash = true ∧
        s.pins.get b.digest = some (b.digest, b.hash))
      (write (.blobRef b) : Call Store Write ε Unit)
      (fun _ => Store.Whole O (insert b K)) (Store.Whole O ∅) := by
  refine Triple.write fun s hs => ?_
  obtain ⟨hwhole, hhere, hpin⟩ := hs
  have hafter := hwhole.apply hO (w := .blobRef b) ⟨hb, _, hpin⟩
  refine ⟨hwhole.bare, hafter.bare, { hafter with held := fun c hc => ?_ }⟩
  rcases hc with rfl | hc
  · exact ⟨hpin, ⟨c, Table.get_put_self _ _, rfl⟩, hhere⟩
  · exact hafter.held c hc

end

theorem fills_recordBlob (hO : O.Distinct) (hb : b.Genuine O) :
    Triple (fun s => s.Whole O K ∧ s.hasHash b.hash = true) (recordBlob b)
      (fun _ => Store.Whole O (insert b K)) (Store.Whole O ∅) :=
  (fills_tag hO hb).bind fun _ => fills_entry hO hb

theorem fills_putBlobBytes (hO : O.Distinct) {data : Bytes} (hdata : data ∈ O.contents)
    (expect : Option Digest) (mediaType : Option Str) :
    Fills O K (putBlobBytes data expect mediaType) fun b => insert b K := by
  let b : BlobRef := ⟨Digest.sha256 data, External.blake3 data, data.length, mediaType⟩
  have hb : b.Genuine O := ⟨data, hdata, rfl, rfl, rfl⟩
  refine Triple.bind (Q := fun _ => Store.Whole O K) (fills_quiet ?_) fun _ => ?_
  · cases expect with
    | none => exact Emits.pure _
    | some e => exact Emits.ensure _ _
  have hreturn : Triple (Store.Whole O (insert b K)) (pure b : Op BlobRef)
      (fun b => Store.Whole O (insert b K)) (Store.Whole O ∅) :=
    Triple.pure fun s hs => ⟨hs.bare, hs⟩
  refine Triple.bind (Q := fun _ s => s.Whole O K ∧ s.hasHash b.hash = true)
    (Triple.write fun s hs => ?_) fun _ => (fills_tag hO hb).bind fun _ =>
      (fills_entry hO hb).bind fun _ => hreturn
  have hwhole := hs.apply hO (w := .data data) ⟨hdata, trivial⟩
  have hhere : (s.apply (.data data)).hasHash b.hash = true := by
    rw [hasHash_apply_data, decide_eq_true rfl, Bool.true_or]
  exact ⟨hs.bare, hwhole.bare, hwhole, hhere⟩

/-- A referenced blob is held. -/
theorem fills_referencedBlob (hO : O.Distinct) (d : Descriptor) :
    Fills O K (referencedBlob d) fun b => insert b K := by
  refine Triple.bind (Q := fun s' s => s' = s ∧ s.Whole O K)
    (Triple.read fun s hs => ⟨hs.bare, rfl, hs⟩) fun s' => Triple.each fun s hs => ?_
  obtain ⟨rfl, hs⟩ := hs
  split
  · exact Triple.fail fun _ ht => ht ▸ hs.bare
  · rename_i b hb
    obtain ⟨hentry, hhere⟩ := Option.filter_eq_some_iff.mp hb
    have hkey : b.digest = d.digest := Table.key_of_get hentry
    have hgenuine : b.Genuine O := hs.index _ _ hentry
    refine Triple.ite (fun _ => ?_) fun _ => Triple.pure fun t ht => ?_
    · have hrecord := fills_recordBlob (K := K) hO
        (show BlobRef.Genuine O { b with mediaType := some d.mediaType } from hgenuine)
      refine Triple.bind (hrecord.pre fun t ht => ?_).mapErr fun _ =>
        Triple.pure fun t ht => ⟨ht.bare, ht⟩
      subst ht
      exact ⟨hs, hhere⟩
    · subst ht
      refine ⟨hs.bare, { hs with held := fun c hc => ?_ }⟩
      rcases hc with rfl | hc
      · exact hs.holds hO hgenuine (hkey ▸ hentry)
      · exact hs.held c hc

theorem fills_collectList (hO : O.Distinct)
    {descend : Manifest → List BlobRef → Handler (List BlobRef)}
    (hdescend : ∀ m out, Fills O {b | b ∈ out} (descend m out) fun res => {b | b ∈ res})
    (ds : List Descriptor) (out : List BlobRef) :
    Fills O {b | b ∈ out} (collectList descend ds out) fun res => {b | b ∈ res} := by
  induction ds generalizing out with
  | nil => exact Triple.pure fun _ hs => ⟨hs.bare, hs⟩
  | cons d ds ih =>
      refine (fills_referencedBlob hO d).bind fun r => ?_
      have hout : ({b | b ∈ out} : Set BlobRef) ⊆ insert r {b | b ∈ out} := Set.subset_insert _ _
      have happend : {b | b ∈ out ++ [r]} ⊆ insert r {b | b ∈ out} := by
        intro c hc
        rcases List.mem_append.mp hc with hc | hc
        · exact Or.inr hc
        · exact Or.inl (List.mem_singleton.mp hc)
      refine Triple.ite (fun _ => (ih out).pre fun _ hs => hs.mono hout) fun _ =>
        Triple.ite (fun _ => ?_) fun _ => (ih (out ++ [r])).pre fun _ hs => hs.mono happend
      refine (fills_quiet (emits_childManifest d r)).bind fun child => ?_
      exact ((hdescend child (out ++ [r])).pre fun _ hs => hs.mono happend).bind fun out' => ih out'

theorem fills_collectRefs (hO : O.Distinct) (fuel : ℕ) (manifest : Manifest)
    (out : List BlobRef) :
    Fills O {b | b ∈ out} (collectRefs fuel manifest out) fun res => {b | b ∈ res} := by
  induction fuel generalizing manifest out with
  | zero => exact fills_collectList hO (fun _ _ => Triple.fail fun _ hs => hs.bare) _ _
  | succ fuel ih => exact fills_collectList hO (fun m out => ih m out) _ _

/-- The check of a push finds every blob that the manifest references. -/
theorem fills_checkPush (hO : O.Distinct) (push : Push) :
    Fills O ∅ (checkPush node push) fun c => {b | b ∈ c.blobs} := by
  have hquiet : ∀ {K : Set BlobRef} {α : Type} (x : Except OciError α),
      Fills O K (ofExcept x : Handler α) fun _ => K := fun x => fills_quiet (Emits.ofExcept x)
  refine (hquiet _).bind fun r => (fills_quiet (Emits.ensure _ _)).bind fun _ =>
    (hquiet _).bind fun bytes => (hquiet _).bind fun manifest => ?_
  refine (fills_quiet Emits.read).bind fun s => ?_
  refine Triple.bind ((fills_collectRefs hO _ manifest []).pre fun s hs => hs.bare.mono ?_)
    fun blobs => (hquiet _).bind fun _ => Triple.pure fun s hs => ⟨hs.bare, hs⟩
  exact fun b hb => absurd hb List.not_mem_nil

/-- A release whose blobs are held is stored. -/
theorem fills_putRelease (hO : O.Distinct) {rel : Release}
    (hrel : rel.publisher ∈ O.honest → rel.payload.Genuine O ∧ ∀ b ∈ rel.allBlobs, b ∈ K) :
    Fills O K (putRelease rel) fun _ => K := by
  refine fills_of_emits hO (emits_putRelease rel) fun s hs w hw => ?_
  rcases List.mem_cons.mp hw with rfl | hw
  · exact ⟨fun hH => (hrel hH).1, fun hH b hb => hs.held b ((hrel hH).2 b hb)⟩
  · obtain ⟨x, -, rfl⟩ := List.mem_map.mp hw
    exact ⟨trivial, trivial⟩

theorem fills_publish (hO : O.Distinct) (gossip : Release → Except Err Unit) {rel : Release}
    (hrel : rel.publisher ∈ O.honest → rel.payload.Genuine O ∧ ∀ b ∈ rel.allBlobs, b ∈ K) :
    Fills O K (publish node gossip rel) fun _ => K :=
  (fills_quiet (Emits.ofExcept _)).bind fun _ => (fills_quiet (Emits.ensure _ _)).bind fun _ =>
    (fills_putRelease hO hrel).bind fun _ => fills_quiet (Emits.ofExcept _)

theorem fills_attachAll (hO : O.Distinct) (gossip : Release → Except Err Unit) (clock : ℕ → ℕ)
    (subject : Digest) (referrer : Referrer) {blobs : List BlobRef}
    (hgenuine : ∀ b ∈ blobs, b.Genuine O) (hblobs : ∀ b ∈ blobs, b ∈ K) (i : ℕ)
    {rels : List Release} (hrels : ∀ rel ∈ rels, rel.publisher ∈ O.honest →
      rel.payload.Genuine O ∧ ∀ b ∈ rel.allBlobs, b ∈ K) :
    Fills O K (attachAll node gossip clock subject referrer blobs i rels) fun _ => K := by
  induction rels generalizing i with
  | nil => exact Triple.pure fun _ hs => ⟨hs.bare, hs⟩
  | cons rel rels ih =>
      have ih := fun i => ih i fun r hr => hrels r (List.mem_cons_of_mem _ hr)
      refine Triple.ite (fun hneeds => ?_) fun _ => ih _
      have hown := (needsReferrer_iff.mp hneeds).1
      have href : (attachedRelease node referrer blobs rel (clock i)).ref = rel.ref :=
        attachedRelease_ref hown _
      have hpub : (attachedRelease node referrer blobs rel (clock i)).publisher = rel.publisher :=
        congrArg Ref.publisher href
      refine (fills_publish hO gossip fun hH => ?_).bind fun _ => (ih _).bind fun _ =>
        Triple.pure fun s hs => ⟨hs.bare, hs⟩
      obtain ⟨hrel, hheld⟩ := hrels rel List.mem_cons_self (hpub ▸ hH)
      refine ⟨genuine_attachedRelease hgenuine hown hrel (clock i), fun b hb => ?_⟩
      rcases List.mem_cons.mp hb with rfl | hb
      · rw [attachedRelease_manifest]
        exact hheld _ List.mem_cons_self
      · rw [attachedRelease_blobs] at hb
        rcases mem_of_mem_foldl_addBlob hb with hb | hb
        · exact hheld b (List.mem_cons_of_mem _ hb)
        · exact hblobs b hb

/-- The blobs of the records of honest publishers. -/
def Store.recorded (O : Origins) (s : Store) : Set BlobRef :=
  {b | ∃ r rel, s.releases.get r = some rel ∧ rel.publisher ∈ O.honest ∧ b ∈ rel.allBlobs}

theorem fills_attachSubject (hO : O.Distinct) (gossip : Release → Except Err Unit) (clock : ℕ → ℕ)
    (manifest : Manifest) (mediaType : Str) {b : BlobRef} {blobs : List BlobRef}
    (hgenuine : ∀ a ∈ b :: blobs, a.Genuine O) (hblobs : ∀ a ∈ b :: blobs, a ∈ K) :
    Fills O K (attachSubject node gossip clock manifest b mediaType blobs) fun _ => K := by
  unfold attachSubject
  split
  · exact Triple.pure fun u hu => ⟨hu.bare, hu⟩
  · have hreferrer : ∀ subject r, Fills O K (putReferrer subject r) fun _ => K := by
      intro subject r
      refine fills_of_emits hO (Emits.write (P := fun w => w = .referrer subject r) rfl) ?_
      rintro u _ w rfl
      exact ⟨trivial, trivial⟩
    refine (hreferrer _ _).mapErr.bind fun _ => Triple.bind (Q := fun _ => Store.Whole O K)
      (Triple.mapErr ?_) fun _ => Triple.pure fun u hu => ⟨hu.bare, hu⟩
    refine Triple.bind (Q := fun s' u => s' = u ∧ u.Whole O K)
      (Triple.read fun u hu => ⟨hu.bare, rfl, hu⟩) fun s' => Triple.each fun u hu => ?_
    obtain ⟨rfl, hu⟩ := hu
    -- what is extended is of the records held when the referrer is attached
    have hall : s'.Whole O (K ∪ s'.recorded O) := by
      refine hu.more fun a ha => ?_
      obtain ⟨r, rel, hrel, hH, hmem⟩ := ha
      exact hu.records_held r rel hrel hH a hmem
    refine ((fills_attachAll (K := K ∪ s'.recorded O) hO gossip clock _ _ hgenuine
      (fun a ha => Or.inl (hblobs a ha)) 0 fun rel hrel hH => ?_).pre fun v hv => ?_).post
        fun _ v hv => hv.mono Set.subset_union_left
    · have hget := Store.mem_listReleases.mp hrel
      exact ⟨hu.records _ rel hget hH, fun a ha => Or.inr ⟨_, rel, hget, hH, ha⟩⟩
    · rw [hv]
      exact hall

theorem fills_publishTag (hO : O.Distinct) (gossip : Release → Except Err Unit)
    {image reference : Str} {b : BlobRef} {blobs : List BlobRef} {now : ℕ}
    (hgenuine : (pushedRelease node image reference b blobs now).payload.Genuine O)
    (hblobs : ∀ a ∈ b :: blobs, a ∈ K) :
    Fills O K (publishTag node gossip image reference b blobs now) fun _ => K := by
  unfold publishTag
  split
  · exact Triple.pure fun u hu => ⟨hu.bare, hu⟩
  · exact (fills_publish hO _ fun _ => ⟨hgenuine, hblobs⟩).mapErr

theorem fills_push (hO : O.Distinct) (q : Request)
    (hcontents : ∀ c, q.push.read = .ok c → c ∈ O.contents)
    (hpushed : ∀ image c, resolve node q.push.name = .ok (node.id, image) → q.push.read = .ok c →
      c ∈ O.pushed ⟨node.id, image, q.push.reference⟩) :
    Fills O ∅ (q.run node) fun _ => ∅ := by
  have hcheck : Triple (Store.Whole O ∅) (checkPush node q.push)
      (fun c s => s.Whole O {b | b ∈ c.blobs} ∧ c.Genuine O node q.push) (Store.Whole O ∅) :=
    (fills_checkPush hO q.push).with_result fun s hs c hc =>
      (takes_checkPush node q.push s hs.toGenuine).2 c hc
  refine Triple.cut (hcheck.bind fun c => Triple.each fun s hs => ?_) _
  obtain ⟨hs, hc⟩ := hs
  have hdata := hcontents _ hc.body
  have hput := ((fills_putBlobBytes (K := {b | b ∈ c.blobs}) hO hdata
    (some (Digest.sha256 c.bytes)) (some (q.push.mediaType.getD c.manifest.mediaType))).with_result
      fun s hs b hb => (takes_putBlobBytes hdata _ _ s hs.toGenuine).2 b hb).mapErr
        (f := OciError.internal)
  refine Triple.bind (hput.pre fun t ht => by rw [ht]; exact hs) fun b => Triple.each fun t ht => ?_
  obtain ⟨ht, hb⟩ := ht
  have hblobs : ∀ a ∈ b :: c.blobs, a.Genuine O := by
    intro a ha
    rcases List.mem_cons.mp ha with rfl | ha
    · exact ⟨c.bytes, hdata, hb⟩
    · exact hc.blobs a ha
  have hrelease : (pushedRelease node c.image q.push.reference b c.blobs
      q.readings.last).payload.Genuine O :=
    ⟨⟨c.bytes, hpushed _ _ hc.resolved hc.body, hb⟩, hc.blobs⟩
  let K : Set BlobRef := {a | a ∈ b :: c.blobs}
  have hK : t.Whole O K := ht.mono fun a ha => (List.mem_cons.mp ha).imp id id
  have hattach : Fills O K (attachSubject node q.gossip q.readings.each c.manifest b
      (q.push.mediaType.getD c.manifest.mediaType) c.blobs) fun _ => K :=
    fills_attachSubject hO _ _ _ _ hblobs fun a ha => ha
  have htag := fills_publishTag (K := K) hO q.gossip hrelease fun a ha => ha
  refine (hattach.pre fun u hu => ?_).bind fun _ => htag.bind fun _ =>
    Triple.bind (Q := fun _ => Store.Whole O K) (Triple.ensure fun u hu => ⟨hu.bare, fun _ => hu⟩)
      fun _ => Triple.pure fun u hu => ⟨hu.bare, hu.bare⟩
  rw [hu]
  exact hK

/-! ### Fetches -/

theorem fills_fetchBlob (hO : O.Distinct) {net : Exchange} (hnet : net.Genuine O)
    (providers : List EndpointId) (i : ℕ) (b : BlobRef) :
    Fills O K (fetchBlob providers net.downloads i b) fun _ => K ∪ {c | c = b ∧ b.Genuine O} := by
  have hverify : Fills O K (do
      verifyBlob b
      recordBlob b) fun _ => K ∪ {c | c = b ∧ b.Genuine O} := by
    refine Triple.bind (Triple.quiet (emits_verifyBlob b) fun _ hs => hs.bare) fun _ =>
      Triple.each fun s hs => ?_
    obtain ⟨c, hc, hdigest, hsize⟩ := verifyBlob_ok.mp hs.2
    have hb : b.Genuine O := ⟨c, hs.1.contents _ _ hc, hdigest.symm, (Table.key_of_get hc).symm,
      hsize.symm⟩
    have hhere : s.hasHash b.hash = true := by rw [Store.hasHash, Table.has, hc]; rfl
    refine ((fills_recordBlob (K := K) hO hb).pre fun t ht => ?_).post fun _ t ht => ht.mono ?_
    · subst ht
      exact ⟨hs.1, hhere⟩
    · rintro a (ha | ⟨rfl, -⟩)
      · exact Or.inr ha
      · exact Or.inl rfl
  refine Triple.bind (Q := fun s' s => s' = s ∧ s.Whole O K)
    (Triple.read fun s hs => ⟨hs.bare, rfl, hs⟩) fun s' => Triple.each fun s hs => ?_
  obtain ⟨rfl, hs⟩ := hs
  refine Triple.ite (fun _ => ?_) fun _ => Triple.ite (fun _ => hverify.pre fun t ht => ht ▸ hs)
    fun hentry => Triple.pure fun t ht => ?_
  · refine Triple.bind (Q := fun _ => Store.Whole O K)
      ((fills_quiet (Emits.ensure _ _)).pre fun t ht => ht ▸ hs) fun _ =>
        Triple.bind (Q := fun _ => Store.Whole O K) ?_ fun _ => hverify
    unfold download
    cases hc : net.downloads i b.hash with
    | error e => exact Triple.fail fun _ hs => hs.bare
    | ok c =>
        refine fills_of_emits hO (Emits.write (P := fun w => w = .data c.1) rfl) ?_
        rintro s hs w rfl
        exact ⟨hnet.contents i b.hash c hc, trivial⟩
  · subst ht
    refine ⟨hs.bare, hs.more ?_⟩
    rintro a ⟨rfl, hb⟩
    cases he : t.digests.get a.digest with
    | none =>
        rw [Store.blobRef, he] at hentry
        exact absurd rfl hentry
    | some e => exact hs.holds hO hb he

theorem fills_fetchBlobs (hO : O.Distinct) {net : Exchange} (hnet : net.Genuine O)
    (providers : List EndpointId) (i : ℕ) (bs : List BlobRef) :
    Fills O K (fetchBlobs providers net.downloads i bs) fun _ =>
      K ∪ {b | b ∈ bs ∧ b.Genuine O} := by
  induction bs generalizing i K with
  | nil =>
      refine Triple.pure fun s hs => ⟨hs.bare, hs.mono ?_⟩
      rintro b (hb | ⟨hb, -⟩)
      · exact hb
      · cases hb
  | cons b bs ih =>
      refine (fills_fetchBlob hO hnet providers i b).bind fun _ => (ih (i + 1)).post
        fun _ s hs => hs.mono ?_
      rintro a (ha | ⟨ha, hgenuine⟩)
      · exact Or.inl (Or.inl ha)
      · rcases List.mem_cons.mp ha with rfl | ha
        · exact Or.inl (Or.inr ⟨rfl, hgenuine⟩)
        · exact Or.inr ⟨ha, hgenuine⟩

theorem fills_exchange (hO : O.Distinct) {net : Exchange} (hnet : net.Genuine O) {rel : Release}
    (ha : net.answer = .ok (some rel)) (providers : List EndpointId) :
    Fills O ∅ (net.fetch node rel providers) fun _ => ∅ := by
  refine Triple.cut (Triple.bind (Triple.quiet (Emits.ofExcept _) fun _ hs => hs.bare) fun u =>
    Triple.each fun s hs => ?_) _
  have hgenuine := hnet.answers rel ha hs.2
  refine Triple.bind ((fills_fetchBlobs hO hnet _ 0 rel.allBlobs).pre fun t ht => ht ▸ hs.1)
    fun _ => (fills_putRelease hO fun hH => ?_).bind fun _ =>
      Triple.pure fun t ht => ⟨ht.bare, ht.bare⟩
  exact ⟨hgenuine hH, fun b hb => Or.inr ⟨hb, (hgenuine hH).allBlobs b hb⟩⟩

/-! ### Sweeps -/

/-- The write drops the pin or the entry of the digest. -/
def Write.Unkeeps (d : Digest) (w : Write) : Prop := w = .untag d ∨ w = .dropBlobRef d

/-- Dropping what no record of an honest publisher needs. -/
theorem Store.Stocked.unkept (hs : s.Stocked O) {d : Digest} (hw : w.Unkeeps d)
    (hd : ∀ b ∈ s.recorded O, b.digest ≠ d) :
    (s.apply w).Stocked O ∧ (s.apply w).releases = s.releases := by
  have hne : ∀ r rel, s.releases.get r = some rel → rel.publisher ∈ O.honest →
      ∀ b ∈ rel.allBlobs, ¬ d = b.digest := fun r rel hrel hH b hb heq =>
    hd b ⟨r, rel, hrel, hH, hb⟩ heq.symm
  rcases hw with rfl | rfl
  · refine ⟨⟨Store.Genuine.apply s (.untag d) trivial hs.toGenuine, fun j p hp => ?_,
      fun r rel hrel hH b hb => ?_⟩, rfl⟩
    · rw [pin_apply_untag] at hp
      split at hp
      · cases hp
      · exact hs.pinned j p hp
    · obtain ⟨hpin, hentry, hdata⟩ := hs.records_held r rel hrel hH b hb
      refine ⟨?_, hentry, hdata⟩
      rw [pin_apply_untag, if_neg (hne r rel hrel hH b hb)]
      exact hpin
  · refine ⟨⟨Store.Genuine.apply s (.dropBlobRef d) trivial hs.toGenuine, hs.pinned,
      fun r rel hrel hH b hb => ?_⟩, rfl⟩
    obtain ⟨hpin, hentry, hdata⟩ := hs.records_held r rel hrel hH b hb
    refine ⟨hpin, ?_, hdata⟩
    rw [entry_apply_dropBlobRef, if_neg (hne r rel hrel hH b hb)]
    exact hentry

theorem emits_dropBlobRef (d : Digest) : Emits (Write.Unkeeps d) (removeBlobRef d) :=
  Emits.read.bind fun _ => Emits.ite (fun _ =>
    (Emits.write (show Write.Unkeeps d (.dropBlobRef d) from Or.inr rfl)).bind fun _ =>
      Emits.pure _) fun _ => Emits.pure _

theorem emits_sweepPins (live : List Blake3) (pins : List (Digest × Blake3)) :
    Emits (fun w => ∃ p ∈ pins, p.2 ∉ live ∧ w.Unkeeps p.1) (sweepPins false live pins) := by
  induction pins with
  | nil => exact Emits.pure _
  | cons p pins ih =>
      have ih : Emits (fun w => ∃ q ∈ p :: pins, q.2 ∉ live ∧ w.Unkeeps q.1)
          (sweepPins false live pins) := by
        refine ih.mono fun w hw => ?_
        obtain ⟨q, hq, hdead, hw⟩ := hw
        exact ⟨q, List.mem_cons_of_mem _ hq, hdead, hw⟩
      refine Emits.ite (fun _ => ih) fun hdead => Emits.read.bind fun _ => Emits.bind ?_ fun _ =>
        ih.bind fun _ => Emits.pure _
      refine Emits.ite (fun _ => Emits.pure _) fun _ =>
        (Emits.write ⟨p, List.mem_cons_self, hdead, Or.inl rfl⟩).bind fun _ =>
          Emits.bind ?_ fun _ => Emits.pure _
      exact (emits_dropBlobRef p.1).mono fun w hw => ⟨p, List.mem_cons_self, hdead, hw⟩

theorem emits_sweepEntries (live pinned : List Blake3) (bs : List BlobRef) :
    Emits (fun w => ∃ b ∈ bs, b.hash ∉ live ∧ w.Unkeeps b.digest)
      (sweepEntries false live pinned bs) := by
  induction bs with
  | nil => exact Emits.pure _
  | cons b bs ih =>
      have ih : Emits (fun w => ∃ c ∈ b :: bs, c.hash ∉ live ∧ w.Unkeeps c.digest)
          (sweepEntries false live pinned bs) := by
        refine ih.mono fun w hw => ?_
        obtain ⟨c, hc, hdead, hw⟩ := hw
        exact ⟨c, List.mem_cons_of_mem _ hc, hdead, hw⟩
      refine Emits.ite (fun hstray => Emits.bind ?_ fun _ => ih) fun _ => ih
      exact (emits_dropBlobRef b.digest).mono fun w hw => ⟨b, List.mem_cons_self, hstray.1, hw⟩

/-- Wherever a sweep is stopped, what the records of honest publishers name is held. -/
theorem sweep_stocked (hs : s.Stocked O) {ignore : List Str}
    (hrows : ∀ rel ∈ s.releases.rows, rel.reference ∉ ignore) :
    Triple (fun t => t = s) (sweepBlobsLocked false ignore) (fun _ _ => True)
      (Store.Stocked O) := by
  let I : Store → Prop := fun t => t.Stocked O ∧ t.releases = s.releases
  have hlive : ∀ b ∈ s.recorded O, b.hash ∈ liveHashes s ignore := by
    rintro b ⟨r, rel, hrel, hH, hb⟩
    have hrow := Table.mem_of_get hrel
    exact mem_liveHashes.mpr ⟨rel, hrow, hrows rel hrow, b, hb, rfl⟩
  have hrecorded : ∀ t, I t → t.recorded O = s.recorded O := by
    intro t ht
    rw [Store.recorded, ht.2, Store.recorded]
  have hkeeps : ∀ {α : Type} {m : Op α} {P : Write → Prop}, Emits P m →
      (∀ w, P w → ∃ d, w.Unkeeps d ∧ ∀ b ∈ s.recorded O, b.digest ≠ d) →
        Triple I m (fun _ => I) I := by
    intro α m P hm hP
    refine Triple.ofEmits hm fun t w hw ht => ?_
    obtain ⟨d, hw, hd⟩ := hP w hw
    obtain ⟨hstocked, hsame⟩ := ht.1.unkept hw fun b hb => hd b (hrecorded t ht ▸ hb)
    exact ⟨hstocked, hsame.trans ht.2⟩
  have hpins : Triple I (sweepPins false (liveHashes s ignore) s.listPins) (fun _ => I) I := by
    refine hkeeps (emits_sweepPins _ _) fun w hw => ?_
    obtain ⟨p, hp, hdead, hw⟩ := hw
    refine ⟨p.1, hw, fun b hb hdigest => hdead ?_⟩
    obtain ⟨r, rel, hrel, hH, hmem⟩ := hb
    have hget : s.pins.get p.1 = some p := Table.get_of_mem hp
    have hpin := (hs.records_held r rel hrel hH b hmem).pin
    rw [hdigest, hget] at hpin
    rw [Option.some.inj hpin]
    exact hlive b ⟨r, rel, hrel, hH, hmem⟩
  have hentries : ∀ t, I t → ∀ pinned,
      Triple I (sweepEntries false (liveHashes s ignore) pinned t.listBlobRefs) (fun _ => I) I := by
    intro t ht pinned
    refine hkeeps (emits_sweepEntries _ _ _) fun w hw => ?_
    obtain ⟨e, he, hdead, hw⟩ := hw
    refine ⟨e.digest, hw, fun b hb hdigest => hdead ?_⟩
    obtain ⟨r, rel, hrel, hH, hmem⟩ := hrecorded t ht ▸ hb
    obtain ⟨e', he', hhash⟩ := (ht.1.records_held r rel hrel hH b hmem).entry
    have hget : t.digests.get e.digest = some e := Table.get_of_mem he
    rw [hdigest, hget] at he'
    rw [Option.some.inj he', hhash]
    exact hlive b hb
  refine Triple.bind (Q := fun s' t => s' = s ∧ I t)
    (Triple.read fun t ht => ⟨by rw [ht]; exact hs, ht, by rw [ht]; exact ⟨hs, rfl⟩⟩) fun s' =>
      Triple.each fun t ht => ?_
  obtain ⟨rfl, ht⟩ := ht
  refine Triple.bind ((hpins.weaken fun _ h => h.1).pre fun u hu => by rw [hu]; exact ht)
    fun counts => ?_
  refine Triple.bind (Q := fun t' u => t' = u ∧ I u)
    (Triple.read fun u hu => ⟨hu.1, rfl, hu⟩) fun t' => Triple.each fun u hu => ?_
  obtain ⟨rfl, hu⟩ := hu
  have hlast := (hentries t' hu (t'.listPins.map Prod.snd)).weaken fun _ h => h.1
  exact Triple.bind (hlast.pre fun v hv => by rw [hv]; exact hu) fun _ =>
    Triple.pure fun v hv => ⟨hv.1, trivial⟩

/-- A sweep that is not stopped splits nothing. -/
theorem covers_sweep_whole (s : Store) (ignore : List Str)
    (hrows : ∀ rel ∈ s.releases.rows, rel.reference ∉ ignore) :
    (Judgement.crash (Store.Whole O ∅) (Store.Stocked O) fun _ h => h.toStocked).Covers
      (sweepBlobsLocked false ignore) s := by
  intro hs
  have hstocked := (sweep_stocked hs.toStocked hrows s rfl).1
  have hlast := hstocked ((sweepBlobsLocked false ignore).journal s).length
  rw [List.take_length] at hlast
  refine ⟨hstocked, ⟨hlast, fun d e he => ?_, fun b hb => hb.elim⟩⟩
  obtain ⟨hpins, hdigests⟩ := sweepBlobsLocked_spec ignore s
  obtain ⟨he, hlive, -⟩ := (hdigests d e).mp he
  obtain ⟨p, hp⟩ := hs.paired d e he
  exact ⟨p, (hpins d p).mpr ⟨hp, hlive p hp⟩⟩

theorem clears_whole (hO : O.Distinct) (D : Set Ref) :
    Clears (.crash (Store.Whole O ∅) (Store.Stocked O) fun _ h => h.toStocked) D where
  record s r _ := by
    refine Judgement.crash_of_triple (fills_of_emits hO
      (Emits.write (P := fun w => w = .dropRelease r) rfl) ?_) s
    rintro s _ w rfl
    exact ⟨trivial, trivial⟩
  referrer s subject d := by
    refine Judgement.crash_of_triple (fills_of_emits hO
      (Emits.write (P := fun w => w = .dropReferrer subject d) rfl) ?_) s
    rintro s _ w rfl
    exact ⟨trivial, trivial⟩
  sweep := covers_sweep_whole

/-! ### The swarm -/

theorem fills_deleteContent (hO : O.Distinct) (h : Blake3) :
    Fills O ∅ (deleteContent h) fun _ => ∅ := by
  refine Triple.bind (Q := fun s' s => s' = s ∧ s.Whole O ∅)
    (Triple.read fun s hs => ⟨hs, rfl, hs⟩) fun s' => Triple.each fun s hs => ?_
  obtain ⟨rfl, hs⟩ := hs
  refine Triple.ite (fun _ => Triple.pure fun t ht => ⟨by rw [ht]; exact hs, by rw [ht]; exact hs⟩)
    fun hfree => Triple.write fun t ht => ?_
  subst ht
  have hdropped : (t.apply (.dropData h)).Whole O ∅ := by
    refine hs.apply hO ⟨trivial, fun d p hp heq => hfree ?_⟩
    exact List.any_eq_true.mpr ⟨p, Table.mem_of_get hp, decide_eq_true heq⟩
  exact ⟨hs, hdropped, hdropped⟩

/-- A fault stopped the handling of an event, or a removal. -/
def Task.Stopped : Task → Prop
  | .hear x => x.fault ≠ none
  | .remove _ fault => fault ≠ none
  | _ => False

namespace Swarm

variable {w v : Swarm} {x : Node × Task}

/-- A task that is stopped leaves each index entry with its pin. -/
def Unsplit (w : Swarm) (x : Node × Task) : Prop :=
  x.2.Stopped → (replay (w.stores x.1.id) (x.2.journal x.1 (w.stores x.1.id))).Paired

/-- A task of a node leaves its store whole. -/
theorem whole_task (hO : O.Distinct) (hw : w.Genuine O) (hs : (w.stores x.1.id).Whole O ∅)
    (hforged : w.Unforged O.honest x) (hwithin : Within O x) (hunsplit : w.Unsplit x) :
    (replay (w.stores x.1.id) (x.2.journal x.1 (w.stores x.1.id))).Whole O ∅ := by
  have hcovered : ∀ {L : Store → Prop} (hL : ∀ s : Store, s.Whole O ∅ → L s),
      ∀ e ∈ x.2.exchanges, e.Covered (.crash (Store.Whole O ∅) L hL) x.1 := by
    intro L hL e he rel providers s ha
    exact Judgement.crash_of_triple
      (fills_exchange hO (hw.exchange hforged hwithin he) ha providers) s
  have hnamed := hw.named x.1.id
  obtain ⟨node, task⟩ := x
  cases task with
  | upload data expect mediaType fault =>
      exact (fills_putBlobBytes hO (hwithin.contents rfl) expect mediaType).final_cut hs fault
  | push q =>
      have hpush : Fills O ∅ (q.run node) fun _ => ∅ :=
        fills_push hO q (fun c hc => hwithin.contents hc) fun image c hr hc =>
          hwithin.pushed _ ⟨hc, rfl, hr, rfl⟩
      exact hpush.final_cut hs none
  | pull publisher name tag net fault =>
      have hcover := covers_getOrFetch publisher name tag
        (fun p => hcovered (fun _ h => h) _ ⟨p, rfl⟩) (w.stores node.id)
      exact (Judgement.of_cut hcover hs fault).1
  | hear e =>
      have hcover := covers_handle (clears_whole hO _) (hcovered _) (w.stores node.id)
      obtain ⟨hstocked, hwhole⟩ := Judgement.of_cut hcover hs e.fault
      by_cases hfault : e.fault = none
      · exact hwhole hfault
      · exact ⟨hstocked, hunsplit hfault, fun b hb => hb.elim⟩
  | remove r fault =>
      have hcover : (Judgement.crash (Store.Whole O ∅) (Store.Stocked O) fun _ h =>
          h.toStocked).Covers (r.op node) (w.stores node.id) :=
        covers_removal hnamed (clears_whole hO _)
      obtain ⟨hstocked, hwhole⟩ := Judgement.of_cut hcover hs fault
      by_cases hfault : fault = none
      · exact hwhole hfault
      · exact ⟨hstocked, hunsplit hfault, fun b hb => hb.elim⟩
  | delete h => exact (fills_deleteContent hO h).final_cut hs none

/-- Every store is whole. -/
structure Kept (O : Origins) (w : Swarm) : Prop extends w.Genuine O where
  whole : ∀ i, (w.stores i).Whole O ∅

theorem kept_start : start.Kept O where
  toGenuine := genuine_start
  whole i :=
    { genuine_start.stores i with
      pinned := fun _ _ h => by cases h
      records_held := fun _ _ h => by cases h
      paired := fun _ _ h => by cases h
      held := fun _ hb => hb.elim }

theorem Kept.step (hO : O.Distinct) (hw : w.Kept O) (hforged : w.Unforged O.honest x)
    (hwithin : Within O x) (hunsplit : w.Unsplit x) (hstep : w.step x = some v) : v.Kept O := by
  refine ⟨hw.toGenuine.step hforged hwithin hstep, fun i => ?_⟩
  cases hstep
  by_cases hi : i = x.1.id
  · subst hi
    simp only [Function.update_self]
    exact whole_task hO hw.toGenuine (hw.whole x.1.id) hforged hwithin hunsplit
  · simp only [Function.update_of_ne hi]
    exact hw.whole i

end Swarm

/-! ### What is served -/

/-- What is held can be read. -/
theorem Holds.readHash (h : Holds s b) :
    ∃ c, (readHash b.hash).result s = .ok c := by
  cases hc : s.blobs.get b.hash with
  | none =>
      have hdata := h.data
      rw [Store.hasHash, Table.has, hc] at hdata
      cases hdata
  | some c =>
      refine ⟨c, ?_⟩
      rw [Ocid.readHash, result, read_bind_apply, hc]
      rfl

theorem Store.Whole.manifestGet (hs : s.Whole O ∅) (hO : O.Distinct) (hnamed : s.Named)
    {name : Str} {r : Ref} {rel : Release} (hname : resolve node name = .ok (r.publisher, r.name))
    (htag : ∀ d, Digest.parse r.tag ≠ .ok d) (hrel : s.releases.get r = some rel)
    (hhonest : r.publisher ∈ O.honest)
    (hmediaType : ∀ mt ∈ rel.payload.manifest.mediaType, validHeaderValue mt = true)
    (net : EndpointId → Exchange) :
    ∃ resp, (manifestGet node name r.tag false net none).result s = .ok resp ∧
      ∃ c ∈ O.pushed r, resp.Delivers c := by
  have href : rel.ref = r := Table.key_of_get hrel
  have hpub : rel.publisher = r.publisher := congrArg Ref.publisher href
  rw [← hpub] at hhonest
  have hheld := hs.records_held r rel hrel hhonest
  have hvalid : releasePath r.publisher r.name r.tag = .ok r :=
    releasePath_eq_ok.mpr ⟨(hnamed r rel hrel).2, (hnamed r rel hrel).1, rfl⟩
  have hcomplete : s.isComplete rel = true := List.all_eq_true.mpr fun b hb => (hheld b hb).data
  have hblob : manifestBlob node r.publisher r.name name r.tag net none s =
      ([], .ok rel.payload.manifest) := by
    rw [← manifestByTag_apply node hvalid hrel hcomplete name net]
    cases hdigest : Digest.parse r.tag with
    | ok d => exact absurd hdigest (htag d)
    | error e => rw [manifestBlob, hdigest]
  obtain ⟨c', hread⟩ := (hheld _ List.mem_cons_self).readHash
  obtain ⟨resp, hresp⟩ := serveManifest_serves hread hmediaType
  obtain ⟨c, hc, hdescribes⟩ := (hs.records r rel hrel hhonest).manifest
  have hc : c ∈ O.pushed r := by
    rw [← href]
    exact hc
  refine ⟨resp, ?_, c, hc, hs.serveManifest hO.hashes (O.pushed_subset _ hc) hdescribes hresp⟩
  refine result_bind_ok.mpr ⟨_, hname, ?_⟩
  rw [final_ofExcept, result, bind_apply_of_ok hblob, replay_nil, List.nil_append]
  exact hresp

theorem Store.Whole.blobGet (hs : s.Whole O ∅) (hO : O.Distinct) {name : Str}
    {p : PublisherId × Str} (hname : resolve node name = .ok p) (hb : b.Genuine O)
    (hheld : Ocid.Holds s b) :
    ∃ resp, (blobGet node name b.digest.str none false).result s = .ok resp ∧
      ∃ c ∈ O.contents, b.Describes c ∧ resp.Delivers c := by
  obtain ⟨e, he, hhash⟩ := hheld.entry
  obtain ⟨c', hread⟩ := hheld.readHash
  have hfound : ((s.blobRef b.digest).filter fun e => s.hasHash e.hash) = some e :=
    Option.filter_eq_some_iff.mpr ⟨he, by rw [hhash]; exact hheld.data⟩
  have hok : ∃ resp, (Ocid.blobGet node name b.digest.str none false).result s = .ok resp := by
    have hparse : (Digest.parse b.digest.str).mapError (fun e : Err =>
        OciError.badRequest "DIGEST_INVALID" e.message) = .ok b.digest := by
      rw [Digest.parse_eq_ok.mpr rfl]
      rfl
    have hserve : ∃ resp, (servePart e none false).result s = .ok resp := by
      refine ⟨_, result_bind_ok.mpr ⟨c', result_mapErr_ok.mpr ?_, rfl⟩⟩
      rw [hhash]
      exact hread
    obtain ⟨resp, hresp⟩ := hserve
    refine ⟨resp, result_bind_ok.mpr ⟨p, hname, result_bind_ok.mpr ⟨b.digest, hparse, ?_⟩⟩⟩
    rw [final_ofExcept, final_ofExcept, result, read_bind_apply, hfound]
    exact hresp
  obtain ⟨resp, hresp⟩ := hok
  obtain ⟨c, hc, hdigest, hdelivers⟩ := hs.toGenuine.blobGet hO.hashes hresp
  obtain ⟨c₀, hc₀, hdescribes⟩ := hb
  have hsame : c₀ = c := by
    have hparse : Digest.parse (Digest.sha256 c).str = .ok (Digest.sha256 c) :=
      Digest.parse_eq_ok.mpr rfl
    rw [Digest.parse_eq_ok.mpr hdigest] at hparse
    exact hO.digests hc₀ hc (hdescribes.1.symm.trans (Except.ok.inj hparse))
  exact ⟨resp, hresp, c, hc, hsame ▸ hdescribes, hdelivers⟩

namespace Swarm

/-- What is held of an honest publisher is served: a manifest that was pushed under the tag, without
asking anyone, if the media type in its record can be the value of a header; and each blob. -/
structure Available (O : Origins) (w : Swarm) : Prop where
  manifests : ∀ (node : Node) (name : Str) (r : Ref) (rel : Release) (net : EndpointId → Exchange),
    resolve node name = .ok (r.publisher, r.name) → (∀ d, Digest.parse r.tag ≠ .ok d) →
    (w.stores node.id).releases.get r = some rel → r.publisher ∈ O.honest →
    (∀ mt ∈ rel.payload.manifest.mediaType, validHeaderValue mt = true) →
    ∃ resp, (manifestGet node name r.tag false net none).result (w.stores node.id) = .ok resp ∧
      ∃ c ∈ O.pushed r, resp.Delivers c
  blobs : ∀ (node : Node) (name : Str) (p : PublisherId × Str) (r : Ref) (rel : Release),
    resolve node name = .ok p → (w.stores node.id).releases.get r = some rel →
    rel.publisher ∈ O.honest → ∀ b ∈ rel.allBlobs,
    ∃ resp, (blobGet node name b.digest.str none false).result (w.stores node.id) = .ok resp ∧
      ∃ c ∈ O.contents, b.Describes c ∧ resp.Delivers c

theorem Kept.available {w : Swarm} (hw : w.Kept O) (hO : O.Distinct) : w.Available O where
  manifests node _ _ _ net hname htag hrel hhonest hmediaType :=
    (hw.whole node.id).manifestGet hO (hw.named node.id) hname htag hrel hhonest hmediaType net
  blobs node _ _ r rel hname hrel hhonest b hb :=
    (hw.whole node.id).blobGet hO hname
      (((hw.whole node.id).records r rel hrel hhonest).allBlobs b hb)
      ((hw.whole node.id).records_held r rel hrel hhonest b hb)

/-- **What is held is served.**  From empty stores, however the tasks of different nodes interleave
and whatever peers send short of forged signatures: as long as no two contents taken in have one
digest or one hash, and no sweep is stopped between a pin and its entry, every registry serves every
release of an honest publisher that its node holds, and every blob of it. -/
theorem run_available {H : Set PublisherId} {xs : List (Node × Task)}
    (h : Meets Swarm.step (Unforged H) start xs) (hO : (origins H xs).Distinct)
    (hunsplit : Meets Swarm.step Unsplit start xs) :
    Throughout Swarm.step (Available (origins H xs)) start xs := by
  have hwithin : Meets Swarm.step (fun _ x => Within (origins H xs) x) start xs :=
    meets_of_forall fun x hx => within_origins hx
  have hkept : Throughout Swarm.step (Kept (origins H xs)) start xs :=
    throughout_of_meets (fun _ _ _ hw hC hstep => hw.step hO hC.1.1 hC.1.2 hC.2 hstep) kept_start
      ((h.and hwithin).and hunsplit)
  exact hkept.mono fun _ hw => hw.available hO

end Swarm

end

/-- No two of the contents have the same digest. -/
theorem Sample.sha256_injOn : letI := sample
    Set.InjOn Digest.sha256 {c | c ∈ Sample.contents.map Sample.Content.bytes} := by
  let known := sample
  have hall : ∀ c ∈ contents.map Content.bytes, ∀ d ∈ contents.map Content.bytes,
      Digest.sha256 c = Digest.sha256 d → c = d := by
    subst known
    rw [sample_eq_prepared]
    simp only [contents, List.map_cons, List.map_nil, referrer_bytes, image_bytes]
    decide +kernel
  exact fun c hc d hd h => hall c hc d hd h

/-- Two pushes under one tag, the first release heard of again, and the second by another node. -/
theorem run_available_at : letI := sample
    Throughout Swarm.step (Swarm.Available (origins {Sample.bob.id} Sample.replayed)) Swarm.start
      Sample.replayed := by
  let _ := sample
  refine Swarm.run_available Sample.unforged_replayed
    ⟨Sample.sha256_injOn.mono Sample.contents_replayed,
      Sample.blake3_injOn.mono Sample.contents_replayed⟩ ?_
  -- nothing in it is stopped
  exact ⟨False.elim, fun _ _ => ⟨False.elim, fun _ _ =>
    ⟨fun h => absurd rfl h, fun _ _ => ⟨fun h => absurd rfl h, fun _ _ => trivial⟩⟩⟩⟩

end Ocid
