import Ocid.Publishing.Ranges
import Ocid.Replication.Swarm
import Ocid.Replication.Truthful

/-!
# Replication — Genuine — what is served is what was pushed

A digest, a hash and a size describe the content they were computed from.  An upload, a push and a
download compute or check all three before they index anything, and a push gathers the blobs of its
release from the index.  So in a swarm every index entry describes content that some node took in,
and every release of a publisher in `honest` describes, as its manifest, what was pushed to that
publisher's registry under the release's name and tag (`Store.Genuine`).

Content is found by its hash.  As long as no two contents of the swarm have the same hash, what a
registry serves for a digest has the digest, and what it serves for a tag was pushed under the tag,
whoever it came through (`run_serves`).  For a tag that the node does not hold this takes peers that
answer what they are asked for: a release of another reference is served as it comes.
-/

namespace Ocid

open Call

section
variable [External]

/-- `b` gives the digest, the hash and the size of `c`. -/
def BlobRef.Describes (b : BlobRef) (c : Bytes) : Prop :=
  b.digest = Digest.sha256 c ∧ b.hash = External.blake3 c ∧ b.size = c.length

/-- Where the content of a swarm comes from. -/
structure Origins where
  /-- The publishers nobody else signs for. -/
  honest : Set PublisherId
  /-- What is uploaded, pushed and downloaded. -/
  contents : Set Bytes
  /-- The manifests pushed to a publisher's registry, by name and tag. -/
  pushed : Ref → Set Bytes
  pushed_subset : ∀ r, pushed r ⊆ contents

variable {O : Origins} {node : Node} {s : Store}

/-- The blob describes content that came in somewhere. -/
def BlobRef.Genuine (O : Origins) (b : BlobRef) : Prop := ∃ c ∈ O.contents, b.Describes c

/-- Some content taken in has this digest and this hash. -/
def Origins.Names (O : Origins) (d : Digest) (h : Blake3) : Prop :=
  ∃ c ∈ O.contents, d = Digest.sha256 c ∧ h = External.blake3 c

theorem BlobRef.Genuine.names {b : BlobRef} (hb : b.Genuine O) : O.Names b.digest b.hash := by
  obtain ⟨c, hc, hdigest, hhash, -⟩ := hb
  exact ⟨c, hc, hdigest, hhash⟩

/-- The manifest of the release was pushed under its reference, and its blobs are genuine. -/
structure ReleasePayload.Genuine (O : Origins) (p : ReleasePayload) : Prop where
  manifest : ∃ c ∈ O.pushed ⟨p.publisher, p.name, p.tag⟩, p.manifest.Describes c
  blobs : ∀ b ∈ p.blobs, b.Genuine O

/-- What is held was taken in, is pinned and indexed as what it is, and is listed as what was pushed
by the releases of honest publishers. -/
structure Store.Genuine (O : Origins) (s : Store) : Prop where
  contents : ∀ h c, s.blobs.get h = some c → c ∈ O.contents
  pins : ∀ d p, s.pins.get d = some p → O.Names p.1 p.2
  index : ∀ d e, s.blobRef d = some e → e.Genuine O
  records : ∀ r rel, s.releases.get r = some rel → rel.publisher ∈ O.honest →
    rel.payload.Genuine O

/-- A write that keeps a store genuine. -/
def Write.Genuine (O : Origins) : Write → Prop
  | .data c => c ∈ O.contents
  | .tag d h => O.Names d h
  | .blobRef b => b.Genuine O
  | .release rel => rel.publisher ∈ O.honest → rel.payload.Genuine O
  | _ => True

theorem Store.Genuine.apply (s : Store) (w : Write) (hw : w.Genuine O) (h : s.Genuine O) :
    (s.apply w).Genuine O := by
  cases w with
  | data c =>
      refine ⟨fun k d hd => ?_, h.pins, h.index, h.records⟩
      simp only [Store.apply, Table.get_put] at hd
      split at hd
      · cases hd
        exact hw
      · exact h.contents k d hd
  | dropData k =>
      exact ⟨fun k d hd => h.contents k d (Table.get_of_get_erase hd), h.pins, h.index, h.records⟩
  | tag d k =>
      refine ⟨h.contents, fun e p hp => ?_, h.index, h.records⟩
      simp only [Store.apply, Table.get_put] at hp
      split at hp
      · cases hp
        exact hw
      · exact h.pins e p hp
  | untag d =>
      exact ⟨h.contents, fun e p hp => h.pins e p (Table.get_of_get_erase hp), h.index, h.records⟩
  | blobRef b =>
      refine ⟨h.contents, h.pins, fun d e he => ?_, h.records⟩
      simp only [Store.blobRef, Store.apply, Table.get_put] at he
      split at he
      · cases he
        exact hw
      · exact h.index d e he
  | dropBlobRef d =>
      exact ⟨h.contents, h.pins, fun d e he => h.index d e (Table.get_of_get_erase he), h.records⟩
  | release rel =>
      refine ⟨h.contents, h.pins, h.index, fun r rel' hr => ?_⟩
      simp only [Store.apply, Table.get_put] at hr
      split at hr
      · cases hr
        exact hw
      · exact h.records r rel' hr
  | dropRelease q =>
      exact ⟨h.contents, h.pins, h.index,
        fun r rel hr => h.records r rel (Table.get_of_get_erase hr)⟩
  | _ => exact ⟨h.contents, h.pins, h.index, h.records⟩

/-! ### Uploads and pushes -/

/-- A call that starts from genuine stores, writes what keeps them so, and returns what `Q` says. -/
abbrev Takes {ε α : Type} (O : Origins) (m : Call Store Write ε α) (Q : α → Prop) : Prop :=
  Yields (Store.Genuine O) (Write.Genuine O) m Q

theorem takes_putBlobBytes {data : Bytes} (hdata : data ∈ O.contents) (expect : Option Digest)
    (mediaType : Option Str) :
    Takes O (putBlobBytes data expect mediaType) fun b => b.Describes data := by
  let b : BlobRef := ⟨Digest.sha256 data, External.blake3 data, data.length, mediaType⟩
  have hwrites : ∀ w ∈ [Write.data data, .tag b.digest b.hash, .blobRef b], w.Genuine O := by
    simp only [List.forall_mem_cons]
    have hb : b.Genuine O := ⟨data, hdata, rfl, rfl, rfl⟩
    exact ⟨hdata, hb.names, hb, fun _ h => absurd h List.not_mem_nil⟩
  refine Yields.bind Store.Genuine.apply (Q := fun _ => True) ?_ fun _ _ => ?_
  · refine Yields.of_emits ?_ fun _ _ _ _ => trivial
    cases expect with
    | none => exact Emits.pure _
    | some e => exact Emits.ensure _ _
  · refine Yields.of_emits (fun _ => hwrites) fun s _ r hr => ?_
    cases hr
    exact ⟨rfl, rfl, rfl⟩

/-- A referenced blob is an index entry, which is genuine under any media type. -/
theorem takes_referencedBlob (d : Descriptor) : Takes O (referencedBlob d) (BlobRef.Genuine O) := by
  refine Yields.read_bind fun s hs => ?_
  split
  · exact Yields.fail _
  · rename_i b hb
    have hb : b.Genuine O := hs.index _ _ (Option.filter_eq_some_iff.mp hb).1
    refine Yields.ite (fun _ => ?_) fun _ => Yields.pure hb
    refine Yields.bind Store.Genuine.apply (Q := fun _ => True) ?_ fun _ _ => Yields.pure hb
    exact (Yields.of_emits (emits_recordBlob hb.names hb) fun _ _ _ _ => trivial).mapErr

theorem takes_collectList {descend : Manifest → List BlobRef → Handler (List BlobRef)}
    (hdescend : ∀ m out, (∀ b ∈ out, b.Genuine O) →
      Takes O (descend m out) fun res => ∀ b ∈ res, b.Genuine O)
    (ds : List Descriptor) {out : List BlobRef} (hout : ∀ b ∈ out, b.Genuine O) :
    Takes O (collectList descend ds out) fun res => ∀ b ∈ res, b.Genuine O := by
  induction ds generalizing out with
  | nil => exact Yields.pure hout
  | cons d ds ih =>
      refine Yields.bind Store.Genuine.apply (takes_referencedBlob d) fun b hb => ?_
      have hout' : ∀ a ∈ out ++ [b], a.Genuine O := by
        intro a ha
        rcases List.mem_append.mp ha with ha | ha
        · exact hout a ha
        · exact List.mem_singleton.mp ha ▸ hb
      refine Yields.ite (fun _ => ih hout) fun _ => Yields.ite (fun _ => ?_) fun _ => ih hout'
      refine Yields.bind Store.Genuine.apply (Q := fun _ => True)
        (Yields.of_emits (emits_childManifest d b) fun _ _ _ _ => trivial) fun child _ => ?_
      exact Yields.bind Store.Genuine.apply (hdescend child _ hout') fun _ h => ih h

theorem takes_collectRefs (fuel : ℕ) (manifest : Manifest) {out : List BlobRef}
    (hout : ∀ b ∈ out, b.Genuine O) :
    Takes O (collectRefs fuel manifest out) fun res => ∀ b ∈ res, b.Genuine O := by
  induction fuel generalizing manifest out with
  | zero => exact takes_collectList (fun _ _ _ => Yields.fail _) _ hout
  | succ fuel ih => exact takes_collectList (fun m out hout => ih m hout) _ hout

/-- What a push is, once it is checked, and where its parts come from. -/
structure Checked.Genuine (O : Origins) (node : Node) (push : Push) (c : Checked) : Prop where
  resolved : resolve node push.name = .ok (node.id, c.image)
  body : push.read = .ok c.bytes
  blobs : ∀ b ∈ c.blobs, b.Genuine O

theorem takes_checkPush (node : Node) (push : Push) :
    Takes O (checkPush node push) (Checked.Genuine O node push) := by
  refine Yields.bind Store.Genuine.apply (Yields.ofExcept _) fun r hr => ?_
  refine Yields.bind Store.Genuine.apply (Q := fun _ => r.1 = node.id)
    (Yields.of_emits (Emits.ensure _ _) fun s _ _ h => ?_) fun _ hown => ?_
  · rw [result_ensure] at h
    by_contra hne
    rw [decide_eq_false hne] at h
    cases h
  refine Yields.bind Store.Genuine.apply (Yields.ofExcept _) fun bytes hbytes => ?_
  refine Yields.bind Store.Genuine.apply (Yields.ofExcept _) fun manifest _ => ?_
  refine Yields.read_bind fun s _ => ?_
  refine Yields.bind Store.Genuine.apply
    (takes_collectRefs _ manifest fun _ h => absurd h List.not_mem_nil) fun blobs hblobs => ?_
  refine Yields.bind Store.Genuine.apply (Yields.ofExcept _) fun _ _ => Yields.pure ?_
  exact ⟨by rw [hr, ← hown], hbytes, hblobs⟩

theorem takes_publish (gossip : Release → Except Err Unit) {rel : Release}
    (hrel : rel.publisher ∈ O.honest → rel.payload.Genuine O) :
    Takes O (publish node gossip rel) fun _ => True := by
  refine Yields.of_emits ?_ fun _ _ _ _ => trivial
  refine (Emits.ofExcept _).bind fun _ => (Emits.ensure _ _).bind fun _ => Emits.bind ?_ fun _ =>
    Emits.ofExcept _
  refine (emits_putRelease rel).mono fun w hw => ?_
  rcases List.mem_cons.mp hw with rfl | hw
  · exact hrel
  · obtain ⟨x, -, rfl⟩ := List.mem_map.mp hw
    trivial

/-- A record of the node that is extended is of the manifest it was of. -/
theorem genuine_attachedRelease {referrer : Referrer} {blobs : List BlobRef} {rel : Release}
    (hblobs : ∀ b ∈ blobs, b.Genuine O) (hown : rel.publisher = node.id)
    (hrel : rel.payload.Genuine O) (now : ℕ) :
    (attachedRelease node referrer blobs rel now).payload.Genuine O where
  manifest := by
    obtain ⟨c, hc, hdescribes⟩ := hrel.manifest
    refine ⟨c, ?_, ?_⟩
    · have href : (attachedRelease node referrer blobs rel now).ref = rel.ref :=
        attachedRelease_ref hown now
      exact (congrArg O.pushed href).symm ▸ hc
    · rw [attachedRelease_manifest]
      exact hdescribes
  blobs b hb := by
    rw [attachedRelease_blobs] at hb
    rcases mem_of_mem_foldl_addBlob hb with hb | hb
    · exact hrel.blobs b hb
    · exact hblobs b hb

theorem takes_attachAll (gossip : Release → Except Err Unit) (clock : ℕ → ℕ) (subject : Digest)
    (referrer : Referrer) {blobs : List BlobRef} (hblobs : ∀ b ∈ blobs, b.Genuine O) (i : ℕ)
    {rels : List Release} (hrels : ∀ rel ∈ rels, rel.publisher ∈ O.honest → rel.payload.Genuine O) :
    Takes O (attachAll node gossip clock subject referrer blobs i rels) fun _ => True := by
  induction rels generalizing i with
  | nil => exact Yields.pure trivial
  | cons rel rels ih =>
      have ih := fun i => ih i fun r hr => hrels r (List.mem_cons_of_mem _ hr)
      refine Yields.ite (fun hneeds => ?_) fun _ => ih _
      have hown := (needsReferrer_iff.mp hneeds).1
      have href : (attachedRelease node referrer blobs rel (clock i)).ref = rel.ref :=
        attachedRelease_ref hown _
      have hpub : (attachedRelease node referrer blobs rel (clock i)).publisher = rel.publisher :=
        congrArg Ref.publisher href
      refine Yields.bind Store.Genuine.apply (takes_publish gossip fun hhonest => ?_) fun _ _ =>
        Yields.bind Store.Genuine.apply (ih _) fun _ _ => Yields.pure trivial
      exact genuine_attachedRelease hblobs hown
        (hrels rel List.mem_cons_self (hpub ▸ hhonest)) (clock i)

theorem takes_push (q : Request) (hcontents : ∀ c, q.push.read = .ok c → c ∈ O.contents)
    (hpushed : ∀ image c, resolve node q.push.name = .ok (node.id, image) → q.push.read = .ok c →
      c ∈ O.pushed ⟨node.id, image, q.push.reference⟩) :
    Takes O (manifestPut node q.gossip q.readings.each q.readings.last q.push) fun _ => True := by
  refine Yields.bind Store.Genuine.apply (takes_checkPush node q.push) fun c hc => ?_
  refine Yields.bind Store.Genuine.apply
    (takes_putBlobBytes (hcontents _ hc.body) _ _).mapErr fun b hb => ?_
  have hblobs : ∀ a ∈ b :: c.blobs, a.Genuine O := by
    intro a ha
    rcases List.mem_cons.mp ha with rfl | ha
    · exact ⟨c.bytes, hcontents _ hc.body, hb⟩
    · exact hc.blobs a ha
  refine Yields.bind Store.Genuine.apply (Q := fun _ => True) ?_ fun _ _ =>
    Yields.bind Store.Genuine.apply (Q := fun _ => True) ?_ fun _ _ =>
      Yields.of_emits (emits_respond _) fun _ _ _ _ => trivial
  · unfold attachSubject
    split
    · exact Yields.pure trivial
    · refine Yields.bind Store.Genuine.apply (Q := fun _ => True)
        (Yields.of_emits (Emits.write trivial) fun _ _ _ _ => trivial).mapErr fun _ _ => ?_
      refine Yields.bind Store.Genuine.apply (Q := fun _ => True) (Yields.mapErr ?_) fun _ _ =>
        Yields.pure trivial
      refine Yields.read_bind fun s hs => takes_attachAll _ _ _ _ hblobs 0 fun rel hrel => ?_
      exact hs.records _ rel (Store.mem_listReleases.mp hrel)
  · unfold publishTag
    split
    · exact Yields.pure trivial
    · refine (takes_publish _ fun _ => ⟨⟨c.bytes, ?_, hb⟩, hc.blobs⟩).mapErr
      exact hpushed _ _ hc.resolved hc.body

/-! ### Fetches -/

/-- Content of the exchange is of the swarm, and a release it answers is genuine if its publisher is
honest. -/
structure Exchange.Genuine (O : Origins) (net : Exchange) : Prop where
  contents : ∀ i h c, net.downloads i h = .ok c → c.1 ∈ O.contents
  answers : ∀ rel, net.answer = .ok (some rel) → rel.verify = .ok () → rel.publisher ∈ O.honest →
    rel.payload.Genuine O

/-- A blob is recorded where its content was checked. -/
theorem guarded_recordBlob {b : BlobRef} (hb : s.Truthful b) :
    Guarded (fun t w => t.Genuine O → w.Genuine O) (recordBlob b) s := by
  obtain ⟨c, hc, hdigest, hsize⟩ := hb
  have hblob : ∀ t : Store, t.blobs = s.blobs → t.Genuine O → b.Genuine O := by
    intro t ht hgenuine
    exact ⟨c, hgenuine.contents _ _ (ht ▸ hc), hdigest.symm, (Table.key_of_get hc).symm, hsize.symm⟩
  exact (Guarded.write fun hgenuine => (hblob s rfl hgenuine).names).bind fun _ _ =>
    Guarded.write fun hgenuine => hblob _ (by rfl) hgenuine

theorem guarded_fetchBlob {net : Exchange} (hnet : net.Genuine O) (providers : List EndpointId)
    (i : ℕ) (b : BlobRef) (s : Store) :
    Guarded (fun t w => t.Genuine O → w.Genuine O) (fetchBlob providers net.downloads i b) s := by
  have hverify : ∀ t, Guarded (fun t w => t.Genuine O → w.Genuine O) (do
      verifyBlob b
      recordBlob b) t := fun t =>
    Guarded.quiet_bind (emits_verifyBlob b) fun _ h => guarded_recordBlob (verifyBlob_ok.mp h)
  refine Guarded.read_bind (Guarded.ite (fun _ => ?_) fun _ => Guarded.ite (fun _ => hverify s)
    fun _ => Guarded.pure _)
  refine Guarded.quiet_bind (Emits.ensure _ _) fun _ _ => Guarded.bind ?_ fun _ _ => hverify _
  unfold download
  cases hc : net.downloads i b.hash with
  | error e => exact Guarded.fail _
  | ok c => exact Guarded.write fun _ => hnet.contents i b.hash c hc

theorem guarded_exchange {net : Exchange} (hnet : net.Genuine O) (node : Node) :
    net.Covered (.guarded fun t w => t.Genuine O → w.Genuine O) node := by
  intro rel providers s ha
  refine Guarded.cut (Guarded.quiet_bind (Emits.ofExcept _) fun u hv => ?_) _
  have hblobs : ∀ ps i bs s, Guarded (fun t w => t.Genuine O → w.Genuine O)
      (fetchBlobs ps net.downloads i bs) s := by
    intro ps i bs
    induction bs generalizing i with
    | nil => exact fun _ => Guarded.pure _
    | cons b bs ih => exact fun s => (guarded_fetchBlob hnet ps i b s).bind fun _ _ => ih _ _
  refine (hblobs _ _ _ s).bind fun _ _ => Guarded.bind ?_ fun _ _ => Guarded.pure _
  refine Guarded.of_emits (emits_putRelease rel) fun t w hw _ => ?_
  rcases List.mem_cons.mp hw with rfl | hw
  · exact hnet.answers rel ha hv
  · obtain ⟨x, -, rfl⟩ := List.mem_map.mp hw
    trivial

/-! ### The swarm -/

namespace Task

/-- What a task takes in. -/
def contents : Task → Set Bytes
  | .upload data _ _ _ => {data}
  | .push q => {c | q.push.read = .ok c}
  | x => {c | ∃ e ∈ x.exchanges, ∃ i h d, e.downloads i h = .ok d ∧ d.1 = c}

/-- The manifest that a task pushes under a reference. -/
def pushed (node : Node) : Task → Ref → Set Bytes
  | .push q => fun r => {c | q.push.read = .ok c ∧ r.publisher = node.id ∧
      resolve node q.push.name = .ok (r.publisher, r.name) ∧ q.push.reference = r.tag}
  | _ => fun _ => ∅

theorem pushed_subset (node : Node) (x : Task) (r : Ref) : x.pushed node r ⊆ x.contents := by
  intro c hc
  cases x with
  | push q => exact hc.1
  | _ => exact hc.elim

end Task

/-- Where the content of a run comes from. -/
def origins (H : Set PublisherId) (xs : List (Node × Task)) : Origins where
  honest := H
  contents := {c | ∃ x ∈ xs, c ∈ x.2.contents}
  pushed r := {c | ∃ x ∈ xs, c ∈ x.2.pushed x.1 r}
  pushed_subset r _ hc := by
    obtain ⟨x, hx, hc⟩ := hc
    exact ⟨x, hx, x.2.pushed_subset x.1 r hc⟩

namespace Swarm

/-- What the task takes in is among the origins. -/
structure Within (O : Origins) (x : Node × Task) : Prop where
  contents : x.2.contents ⊆ O.contents
  pushed : ∀ r, x.2.pushed x.1 r ⊆ O.pushed r

/-- Every store is genuine, and so is what honest publishers published. -/
structure Genuine (O : Origins) (w : Swarm) : Prop extends w.Authentic O.honest where
  stores : ∀ i, (w.stores i).Genuine O
  releases : ∀ p ∈ w.log, p.1 ∈ O.honest → p.2.payload.Genuine O

variable {w v : Swarm} {x : Node × Task}

theorem genuine_start : start.Genuine O where
  toAuthentic := authentic_start
  stores _ := ⟨fun _ _ h => (by cases h), fun _ _ h => (by cases h), fun _ _ h => (by cases h),
    fun _ _ h => (by cases h)⟩
  releases _ h := by cases h

/-- The exchanges of an unforged task. -/
theorem Genuine.exchange (hw : w.Genuine O) (hforged : w.Unforged O.honest x)
    (hwithin : Within O x) {e : Exchange} (he : e ∈ x.2.exchanges) : e.Genuine O where
  contents i h c hc := by
    refine hwithin.contents ?_
    obtain ⟨node, task⟩ := x
    have hmem : ∃ e ∈ task.exchanges, ∃ i h d, e.downloads i h = .ok d ∧ d.1 = c.1 :=
      ⟨e, he, i, h, c, hc, rfl⟩
    cases task with
    | upload data expect mediaType fault => cases he
    | push q => cases he
    | _ => exact hmem
  answers rel ha hv hH := by
    obtain ⟨p, hp, hpub, hbytes⟩ := hforged rel ⟨e, he, ha⟩ hv hH
    have hpayload := ReleasePayload.canonicalBytes_injective hbytes
    rw [← hpayload]
    exact hw.releases p hp (hpub ▸ hH)

/-- Every write of a task is genuine. -/
theorem Genuine.writes (hw : w.Genuine O) (hforged : w.Unforged O.honest x)
    (hwithin : Within O x) :
    ∀ a ∈ x.2.journal x.1 (w.stores x.1.id), Write.Genuine O a := by
  have hs := hw.stores x.1.id
  have hchain : x.2.Guarded (fun t w => t.Genuine O → w.Genuine O) x.1 (w.stores x.1.id) →
      ∀ a ∈ x.2.journal x.1 (w.stores x.1.id), Write.Genuine O a := by
    intro hlocal
    have hdrops : ∀ (t : Store) (a : Write), Write.Drops (x.2.drops x.1) a → t.Genuine O →
        a.Genuine O := by
      intro t a ha _
      cases a with
      | untag d => trivial
      | dropBlobRef d => trivial
      | dropRelease r => trivial
      | dropReferrer d d' => trivial
      | _ => cases ha
    exact (along_task (hw.named x.1.id) hlocal
      (fun e he => guarded_exchange (hw.exchange hforged hwithin he) x.1)
        (clears_guarded hdrops)).forall_of_keeps Store.Genuine.apply hs
  obtain ⟨node, task⟩ := x
  cases task with
  | upload data expect mediaType fault =>
      exact (takes_putBlobBytes (hwithin.contents rfl) expect mediaType).cut fault hs
  | push q =>
      refine (takes_push q (fun c hc => hwithin.contents hc) fun image c hr hc => ?_).cut q.fault hs
      exact hwithin.pushed _ ⟨hc, rfl, hr, rfl⟩
  | delete h => exact hchain (Guarded.of_emits (emits_deleteContent trivial) fun _ _ hw _ => hw)
  | _ => exact hchain trivial

theorem Genuine.step (hw : w.Genuine O) (hforged : w.Unforged O.honest x) (hwithin : Within O x)
    (hstep : w.step x = some v) : v.Genuine O := by
  have hwrites := hw.writes hforged hwithin
  refine ⟨hw.toAuthentic.step hforged hstep, fun i => ?_, fun p hp hH => ?_⟩
  · cases hstep
    by_cases hi : i = x.1.id
    · subst hi
      simp only [Function.update_self]
      exact replay_keeps Store.Genuine.apply hwrites (hw.stores x.1.id)
    · simp only [Function.update_of_ne hi]
      exact hw.stores i
  · rcases mem_log_step hw.toAuthentic hstep hp with hp | ⟨hi, hown, hwrite⟩
    · exact hw.releases p hp hH
    · exact hwrites _ hwrite (by rw [hown, ← hi]; exact hH)

end Swarm

/-! ### What is served -/

/-- The answer is the content `c`, under its digest and with its size. -/
structure Response.Delivers (resp : Response) (c : Bytes) : Prop where
  body : resp.body = c
  digest : resp.header "docker-content-digest" = some (Digest.sha256 c).str
  length : resp.header "content-length" = some (Nat.toDigits 10 c.length)

/-- What is found under the hash of `c` is `c`, unless other content has the same hash. -/
theorem Store.Genuine.read (hs : s.Genuine O) (hinj : Set.InjOn External.blake3 O.contents)
    {b : BlobRef} {c c' : Bytes} (hc : c ∈ O.contents) (hb : b.Describes c)
    (hread : (readHash b.hash).result s = .ok c') : c' = c := by
  rw [readHash, result, read_bind_apply] at hread
  cases hget : s.blobs.get b.hash with
  | none =>
      rw [hget] at hread
      cases hread
  | some d =>
      rw [hget] at hread
      obtain rfl := Except.ok.inj hread
      exact hinj (hs.contents _ _ hget) hc ((Table.key_of_get hget).trans hb.2.1)

theorem Store.Genuine.serveManifest (hs : s.Genuine O)
    (hinj : Set.InjOn External.blake3 O.contents) {b : BlobRef} {c : Bytes} (hc : c ∈ O.contents)
    (hb : b.Describes c) {resp : Response}
    (h : (serveManifest b false).result s = .ok resp) : resp.Delivers c := by
  obtain ⟨-, hlength, hdigest, hbytes⟩ := serveManifest_ok h
  obtain rfl := hs.read hinj hc hb (hbytes rfl)
  exact ⟨rfl, by rw [hdigest, ← hb.1], by rw [hlength, ← hb.2.2]⟩

/-- A blob is served whole as the content its digest was computed from. -/
theorem Store.Genuine.blobGet (hs : s.Genuine O) (hinj : Set.InjOn External.blake3 O.contents)
    {name digest : Str} {resp : Response}
    (h : (blobGet node name digest none false).result s = .ok resp) :
    ∃ c ∈ O.contents, (Digest.sha256 c).str = digest ∧ resp.Delivers c := by
  obtain ⟨p, -, h⟩ := result_bind_ok.mp h
  obtain ⟨d, hd, h⟩ := result_bind_ok.mp h
  have hd : digest = d.str := by
    cases hparse : Digest.parse digest with
    | error e =>
        rw [hparse] at hd
        cases hd
    | ok d' =>
        rw [hparse] at hd
        cases hd
        exact Digest.parse_eq_ok.mp hparse
  rw [final_ofExcept, final_ofExcept] at h
  cases hb : (s.blobRef d).filter fun b => s.hasHash b.hash with
  | none =>
    simp only [result, read_bind_apply, hb] at h
    cases h
  | some b =>
    simp only [result, read_bind_apply, hb] at h
    have hpart : (servePart b none false).result s = .ok resp := h
    have hentry := (Option.filter_eq_some_iff.mp hb).1
    obtain ⟨c, hc, hdescribes⟩ := hs.index _ _ hentry
    obtain ⟨bytes, hbytes, h⟩ := result_bind_ok.mp hpart
    obtain rfl := hs.read hinj hc hdescribes (result_mapErr_ok.mp hbytes)
    have hkey : b.digest = d := Table.key_of_get hentry
    cases h
    refine ⟨bytes, hc, by rw [← hdescribes.1, hkey, hd], ?_, ?_, ?_⟩
    · rw [hdescribes.2.2, List.drop_zero, List.take_length]
    · rw [← hdescribes.1]
      rfl
    · rw [← hdescribes.2.2]
      rfl

/-- So is a manifest that is asked for by digest. -/
theorem Store.Genuine.manifestByDigest (hs : s.Genuine O)
    (hinj : Set.InjOn External.blake3 O.contents) {name : Str} {d : Digest}
    {net : EndpointId → Exchange} {timeout : Option ℕ} {resp : Response}
    (h : (manifestGet node name d.str false net timeout).result s = .ok resp) :
    ∃ c ∈ O.contents, Digest.sha256 c = d ∧ resp.Delivers c := by
  obtain ⟨p, -, h⟩ := result_bind_ok.mp h
  obtain ⟨b, hb, h⟩ := result_bind_ok.mp h
  rw [final_ofExcept] at hb h
  have hblob : manifestBlob node p.1 p.2 name d.str net timeout = Ocid.manifestByDigest d := by
    rw [manifestBlob, Digest.parse_eq_ok.mpr rfl]
  rw [hblob] at hb h
  cases hfound : (s.blobRef d).filter fun b => s.hasHash b.hash with
  | none =>
      simp only [Ocid.manifestByDigest, result, read_bind_apply, hfound] at hb
      cases hb
  | some b' =>
      have happly : Ocid.manifestByDigest d s = ([], .ok b') := by
        simp only [Ocid.manifestByDigest, read_bind_apply, hfound]
        rfl
      rw [result, happly] at hb
      rw [final, journal, happly] at h
      cases hb
      have hentry := (Option.filter_eq_some_iff.mp hfound).1
      obtain ⟨c, hc, hdescribes⟩ := hs.index _ _ hentry
      have hkey : b.digest = d := Table.key_of_get hentry
      exact ⟨c, hc, by rw [← hdescribes.1, hkey], hs.serveManifest hinj hc hdescribes h⟩

/-- What candidate peers answer is genuine, when it is of an honest publisher. -/
theorem genuine_of_askPeers {net : EndpointId → Exchange} (hnet : ∀ p, (net p).Genuine O)
    {publisher : PublisherId} {peers : List EndpointId} {rel : Release}
    (h : (askPeers node publisher net peers).result s = .ok (some rel)) :
    (∃ p, (net p).answer = .ok (some rel)) ∧
      (rel.publisher ∈ O.honest → rel.payload.Genuine O) := by
  induction peers with
  | nil => cases h
  | cons p peers ih =>
      rw [askPeers] at h
      split at h
      · rename_i rel' ha
        obtain ⟨u, hfetch, h⟩ := result_bind_ok.mp h
        cases h
        have hcut := cut_of_result_ok hfetch
        rw [Exchange.fetch, hcut] at hfetch
        exact ⟨⟨p, ha⟩, (hnet p).answers rel ha (fetchRelease_ok hfetch).1⟩
      · exact ih h
      · exact ih h

/-- What a pull of `r` returns, from the store or from peers that answer releases of `r`. -/
theorem genuine_of_getOrFetch (hs : s.Genuine O) {net : EndpointId → Exchange} {r : Ref}
    (hnet : ∀ p, (net p).Genuine O)
    (hasked : ∀ p rel, (net p).answer = .ok (some rel) → rel.ref = r)
    (hhonest : r.publisher ∈ O.honest) {rel : Release}
    (h : (getOrFetch node r.publisher r.name r.tag net).result s = .ok (some rel)) :
    rel.ref = r ∧ rel.payload.Genuine O := by
  cases hp : releasePath r.publisher r.name r.tag with
  | error e =>
      rw [getOrFetch, result, read_bind_apply,
        bind_apply_of_error (getRelease_apply_error hp s)] at h
      cases h
  | ok r' =>
      obtain ⟨-, -, rfl⟩ := releasePath_eq_ok.mp hp
      rw [result, getOrFetch_apply node hp net s] at h
      split at h
      · rename_i held hheld
        cases h
        have hget := (Option.filter_eq_some_iff.mp hheld).1
        have href : rel.ref = r := Table.key_of_get hget
        have hpub : rel.publisher = r.publisher := congrArg Ref.publisher href
        exact ⟨href, hs.records _ _ hget (hpub ▸ hhonest)⟩
      · split at h
        · cases h
        · obtain ⟨⟨p, ha⟩, hgenuine⟩ := genuine_of_askPeers hnet h
          have href := hasked p rel ha
          have hpub : rel.publisher = r.publisher := congrArg Ref.publisher href
          exact ⟨href, hgenuine (hpub ▸ hhonest)⟩

/-- A manifest that is asked for by tag was pushed under the tag. -/
theorem Store.Genuine.manifestByTag (hs : s.Genuine O)
    (hinj : Set.InjOn External.blake3 O.contents) {name : Str} {r : Ref}
    (hname : resolve node name = .ok (r.publisher, r.name)) (hhonest : r.publisher ∈ O.honest)
    (htag : ∀ d, Digest.parse r.tag ≠ .ok d) {net : EndpointId → Exchange}
    (hnet : ∀ p, (net p).Genuine O)
    (hasked : ∀ p rel, (net p).answer = .ok (some rel) → rel.ref = r)
    {timeout : Option ℕ} {resp : Response}
    (h : (manifestGet node name r.tag false net timeout).result s = .ok resp) :
    ∃ c ∈ O.pushed r, resp.Delivers c := by
  obtain ⟨p, hp, h⟩ := result_bind_ok.mp h
  obtain rfl : (r.publisher, r.name) = p := Except.ok.inj (hname.symm.trans hp)
  obtain ⟨b, hb, h⟩ := result_bind_ok.mp h
  rw [final_ofExcept] at hb h
  have hblob : manifestBlob node r.publisher r.name name r.tag net timeout =
      Ocid.manifestByTag node r.publisher r.name name r.tag net timeout := by
    cases hdigest : Digest.parse r.tag with
    | ok d => exact absurd hdigest (htag d)
    | error e => rw [manifestBlob, hdigest]
  rw [hblob] at hb h
  -- the store is genuine when the manifest is read
  have hpull : Guarded (fun t w => t.Genuine O → w.Genuine O)
      (Ocid.manifestByTag node r.publisher r.name name r.tag net timeout) s := by
    refine Guarded.quiet_bind (Emits.ofExcept _) fun _ _ => Guarded.bind ?_ fun x _ => ?_
    · exact Guarded.cut (Guarded.mapErr (covers_getOrFetch _ _ _
        (fun p => guarded_exchange (hnet p) node) s) _) _
    · cases x with
      | none => exact Guarded.fail _
      | some rel => exact Guarded.pure _
  have hfinal : ((Ocid.manifestByTag node r.publisher r.name name r.tag net timeout).final
      s).Genuine O :=
    replay_keeps Store.Genuine.apply (Along.forall_of_keeps Store.Genuine.apply hpull hs) hs
  obtain ⟨u, -, hb⟩ := result_bind_ok.mp hb
  obtain ⟨answer, hanswer, hb⟩ := result_bind_ok.mp hb
  rw [cut_of_result_ok hanswer, Op.lift, result_mapErr_ok, final_ofExcept] at hanswer
  cases answer with
  | none => cases hb
  | some rel =>
      cases hb
      obtain ⟨href, hrel⟩ := genuine_of_getOrFetch hs hnet hasked hhonest hanswer
      obtain ⟨c, hc, hdescribes⟩ := hrel.manifest
      have hc : c ∈ O.pushed r := by
        rw [← href]
        exact hc
      exact ⟨c, hc, hfinal.serveManifest hinj (O.pushed_subset _ hc) hdescribes h⟩

namespace Swarm

/-- What registries serve: for a digest the content taken in that has it; for a tag of an honest
publisher a manifest pushed under it, whether it is held or comes from peers, if those answer no
release of another reference. -/
structure Serves (O : Origins) (w : Swarm) : Prop where
  blobs : ∀ (node : Node) (name digest : Str) (resp : Response),
    (blobGet node name digest none false).result (w.stores node.id) = .ok resp →
      ∃ c ∈ O.contents, (Digest.sha256 c).str = digest ∧ resp.Delivers c
  digests : ∀ (node : Node) (name : Str) (d : Digest) (net : EndpointId → Exchange)
    (timeout : Option ℕ) (resp : Response),
    (manifestGet node name d.str false net timeout).result (w.stores node.id) = .ok resp →
      ∃ c ∈ O.contents, Digest.sha256 c = d ∧ resp.Delivers c
  tags : ∀ (node : Node) (name : Str) (r : Ref) (net : EndpointId → Exchange)
    (timeout : Option ℕ) (resp : Response), resolve node name = .ok (r.publisher, r.name) →
    r.publisher ∈ O.honest → (∀ d, Digest.parse r.tag ≠ .ok d) →
    w.Unforged O.honest (node, .pull r.publisher r.name r.tag net none) →
    Within O (node, .pull r.publisher r.name r.tag net none) →
    (∀ p rel, (net p).answer = .ok (some rel) → rel.ref = r) →
    (manifestGet node name r.tag false net timeout).result (w.stores node.id) = .ok resp →
      ∃ c ∈ O.pushed r, resp.Delivers c

theorem Genuine.serves {w : Swarm} (hw : w.Genuine O)
    (hinj : Set.InjOn External.blake3 O.contents) : w.Serves O where
  blobs node _ _ _ h := (hw.stores node.id).blobGet hinj h
  digests node _ _ _ _ _ h := (hw.stores node.id).manifestByDigest hinj h
  tags node _ _ _ _ _ hname hhonest htag hforged hwithin hasked h :=
    (hw.stores node.id).manifestByTag hinj hname hhonest htag
      (fun p => hw.exchange hforged hwithin ⟨p, rfl⟩) hasked h

theorem within_origins {H : Set PublisherId} {xs : List (Node × Task)} {x : Node × Task}
    (hx : x ∈ xs) : Within (origins H xs) x where
  contents _ hc := ⟨x, hx, hc⟩
  pushed _ _ hc := ⟨x, hx, hc⟩

/-- **What is served is what was pushed.**  From empty stores, however the tasks of different nodes
interleave and whatever peers send short of forged signatures: as long as no two contents taken in
have the same hash, every registry serves the content of the digest it is asked for, and under a tag
of an honest publisher only what was pushed to that publisher's registry under that tag. -/
theorem run_serves {H : Set PublisherId} {xs : List (Node × Task)}
    (h : Meets Swarm.step (Unforged H) start xs)
    (hinj : Set.InjOn External.blake3 (origins H xs).contents) :
    Throughout Swarm.step (Serves (origins H xs)) start xs := by
  have hwithin : Meets Swarm.step (fun _ x => Within (origins H xs) x) start xs :=
    meets_of_forall fun x hx => within_origins hx
  have hgenuine : Throughout Swarm.step (Genuine (origins H xs)) start xs :=
    throughout_of_meets (fun _ _ _ hw hC hstep => hw.step hC.1 hC.2 hstep) genuine_start
      (h.and hwithin)
  exact hgenuine.mono fun _ hw => hw.serves hinj

end Swarm

end

namespace Sample

/-- No two of the contents have the same hash. -/
theorem blake3_injOn : Set.InjOn sample.blake3 {c | c ∈ contents.map Content.bytes} := by
  have hall : ∀ c ∈ contents.map Content.bytes, ∀ d ∈ contents.map Content.bytes,
      sample.blake3 c = sample.blake3 d → c = d := by
    rw [sample_eq_prepared]
    simp only [contents, List.map_cons, List.map_nil, referrer_bytes, image_bytes]
    decide +kernel
  exact fun c hc d hd h => hall c hc d hd h

/-- What is downloaded is one of the contents. -/
theorem mem_of_downloads {i : ℕ} {h : Blake3} {c : {c : Bytes // sample.blake3 c = h}}
    (hc : downloads i h = .ok c) : c.1 ∈ contents.map Content.bytes := by
  unfold downloads at hc
  split at hc
  · rename_i d hd
    split at hc
    · cases hc
      exact List.mem_map_of_mem (List.mem_of_find?_eq_some hd)
    · cases hc
  · cases hc

/-- So is everything that `replayed` takes in. -/
theorem contents_replayed : letI := sample
    (origins {bob.id} replayed).contents ⊆ {c | c ∈ contents.map Content.bytes} := by
  let _ := sample
  rintro c ⟨x, hx, hc⟩
  simp only [replayed, List.mem_cons, List.not_mem_nil, or_false] at hx
  rcases hx with rfl | rfl | rfl | rfl
  · cases hc
    decide +kernel
  · cases hc
    decide +kernel
  · obtain ⟨e, ⟨p, rfl⟩, i, h, d, hd, rfl⟩ := hc
    exact mem_of_downloads (show downloads i h = .ok d from hd)
  · obtain ⟨e, ⟨p, rfl⟩, i, h, d, hd, rfl⟩ := hc
    exact mem_of_downloads (show downloads i h = .ok d from hd)

end Sample

/-- Two pushes under one tag, the first release heard of again, and the second by another node. -/
theorem run_serves_at : letI := sample
    Throughout Swarm.step (Swarm.Serves (origins {Sample.bob.id} Sample.replayed)) Swarm.start
      Sample.replayed := by
  let _ := sample
  exact Swarm.run_serves Sample.unforged_replayed
    (Sample.blake3_injOn.mono Sample.contents_replayed)

end Ocid
