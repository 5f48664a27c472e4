import Ocid.Lib.Guards
import Ocid.Publishing.Deleting
import Ocid.Retention.Listed

/-!
# Publishing — Listing — the referrers of a manifest, as clients read them

`GET` of the referrers of a digest lists the referrer records kept for it (`referrersGet`).  A push
of a manifest with a `subject` writes one, and a release that is stored writes those it names again;
deleting tags drops none.

`run_lists` says what this comes to along a run of pushes and deletions: a manifest whose push was
answered is listed for its subject from then on, and what is listed for a digest was pushed with
that subject.
-/

namespace Ocid

open Call

section
variable [External]

/-- `GET /v2/<name>/referrers/<digest>[?artifactType=..]`: the manifests of the response. -/
def referrersGet (node : Node) (name digest : Str) (filter : Option Str) :
    Handler (List Referrer) := do
  let _ ← ofExcept (resolve node name)
  let digest ← ofExcept ((Digest.parse digest).mapError fun e =>
    .badRequest "DIGEST_INVALID" e.message)
  let s ← read
  pure ((s.listReferrers digest).filter fun r => filter.all fun f => r.artifactType = some f)

variable {node : Node} {s t : Store}

/-- What is listed is what is recorded for the digest, and has the type that is asked for. -/
theorem mem_referrersGet {name digest : Str} {filter : Option Str} {rs : List Referrer}
    (h : (referrersGet node name digest filter).result s = .ok rs) :
    ∃ d : Digest, digest = d.str ∧ ∀ r, r ∈ rs ↔
      r ∈ s.listReferrers d ∧ ∀ f ∈ filter, r.artifactType = some f := by
  obtain ⟨p, -, h⟩ := result_bind_ok.mp h
  obtain ⟨d, hd, h⟩ := result_bind_ok.mp h
  obtain ⟨s', hs', h⟩ := result_bind_ok.mp h
  cases hs'
  cases h
  refine ⟨d, ?_, fun r => ?_⟩
  · cases hparse : Digest.parse digest with
    | error e =>
        rw [hparse] at hd
        cases hd
    | ok d' =>
        rw [hparse] at hd
        cases hd
        exact Digest.parse_eq_ok.mp hparse
  · rw [List.mem_filter]
    refine and_congr_right fun _ => ?_
    cases filter with
    | none => simp
    | some f => simp

/-! ### What is written -/

/-- The push is of the manifest `d`, and that refers to `subject`. -/
def Push.Refers (push : Push) (subject d : Digest) : Prop :=
  ∃ bytes manifest descriptor, push.read = .ok bytes ∧
    Manifest.parse bytes push.mediaType = .ok manifest ∧ manifest.subject = some descriptor ∧
      descriptor.digest = subject ∧ Digest.sha256 bytes = d

/-- Every referrer recorded, and every referrer that a release names, is in `A`. -/
structure Store.RefersIn (A : Digest → Digest → Prop) (s : Store) : Prop where
  listed : ∀ subject d, s.referrers.has (subject, d) = true → A subject d
  named : ∀ r rel, s.releases.get r = some rel → ∀ x ∈ rel.payload.referrers,
    A rel.payload.manifest.digest x.digest

/-- A write that keeps a store so, and drops no referrer record. -/
def Write.RefersIn (A : Digest → Digest → Prop) : Write → Prop
  | .referrer subject x => A subject x.digest
  | .release rel => ∀ x ∈ rel.payload.referrers, A rel.payload.manifest.digest x.digest
  | .dropReferrer _ _ => False
  | _ => True

variable {A B : Digest → Digest → Prop} {w : Write} {ws : List Write} {subject d : Digest}

theorem Store.RefersIn.mono (h : s.RefersIn A) (hAB : ∀ m d, A m d → B m d) : s.RefersIn B :=
  ⟨fun m d hd => hAB _ _ (h.listed m d hd), fun r rel hr x hx => hAB _ _ (h.named r rel hr x hx)⟩

/-- A record that is written is there. -/
theorem has_apply_referrer (s : Store) (m k : Digest) (x : Referrer) :
    (s.apply (.referrer m x)).referrers.has (k, d) = true ↔
      (m = k ∧ x.digest = d) ∨ s.referrers.has (k, d) = true := by
  have hone := has_replay_referrers m [x] s k d
  simp only [List.mem_singleton, exists_eq_left] at hone
  rw [or_comm, eq_comm (a := m)]
  exact hone

theorem Store.RefersIn.apply (s : Store) (w : Write) (hw : w.RefersIn A) (hs : s.RefersIn A) :
    (s.apply w).RefersIn A := by
  cases w with
  | referrer m x =>
      refine ⟨fun k d hd => ?_, hs.named⟩
      rcases (has_apply_referrer s m k x).mp hd with ⟨rfl, rfl⟩ | hd
      · exact hw
      · exact hs.listed k d hd
  | release rel =>
      refine ⟨hs.listed, fun r rel' hr => ?_⟩
      rw [Store.apply, Table.get_put] at hr
      split at hr
      · cases hr
        exact hw
      · exact hs.named r rel' hr
  | dropRelease q =>
      exact ⟨hs.listed, fun r rel hr => hs.named r rel (Table.get_of_get_erase hr)⟩
  | dropReferrer m d => exact hw.elim
  | _ => exact ⟨hs.listed, hs.named⟩

/-- Such a write drops no record. -/
theorem has_apply_of_refersIn (hw : w.RefersIn A) (hs : s.referrers.has (subject, d) = true) :
    (s.apply w).referrers.has (subject, d) = true := by
  cases w with
  | referrer m x => exact (has_apply_referrer s m subject x).mpr (Or.inr hs)
  | dropReferrer m d => exact hw.elim
  | _ => exact hs

theorem has_replay_of_refersIn (hws : ∀ w ∈ ws, w.RefersIn A)
    (hs : s.referrers.has (subject, d) = true) :
    (replay s ws).referrers.has (subject, d) = true :=
  replay_keeps (I := fun s : Store => s.referrers.has (subject, d) = true)
    (fun _ _ hw hs => has_apply_of_refersIn hw hs) hws hs

/-- A record that is written among such writes is there in the end. -/
theorem has_replay_of_mem (hws : ∀ w ∈ ws, w.RefersIn A) {x : Referrer}
    (hx : Write.referrer subject x ∈ ws) :
    (replay s ws).referrers.has (subject, x.digest) = true := by
  obtain ⟨before, after, rfl⟩ := List.append_of_mem hx
  rw [replay_append, replay_cons]
  refine has_replay_of_refersIn (fun w hw => hws w ?_) ?_
  · exact List.mem_append_right _ (List.mem_cons_of_mem _ hw)
  · exact (has_apply_referrer _ _ _ x).mpr (Or.inl ⟨rfl, rfl⟩)

/-! ### Pushes -/

theorem writes_publish (gossip : Release → Except Err Unit) {rel : Release}
    (hrel : ∀ x ∈ rel.payload.referrers, A rel.payload.manifest.digest x.digest) :
    Yields (Store.RefersIn A) (Write.RefersIn A) (publish node gossip rel) fun _ => True := by
  refine Yields.of_emits ?_ fun _ _ _ _ => trivial
  refine (Emits.ofExcept _).bind fun _ => (Emits.ensure _ _).bind fun _ => Emits.bind ?_ fun _ =>
    Emits.ofExcept _
  refine (emits_putRelease rel).mono fun w hw => ?_
  rcases List.mem_cons.mp hw with rfl | hw
  · exact hrel
  · obtain ⟨x, hx, rfl⟩ := List.mem_map.mp hw
    exact hrel x hx

theorem writes_attachAll (gossip : Release → Except Err Unit) (clock : ℕ → ℕ)
    {subject : Digest} {referrer : Referrer} (hreferrer : A subject referrer.digest)
    (blobs : List BlobRef) (i : ℕ) {rels : List Release}
    (hrels : ∀ rel ∈ rels, ∀ x ∈ rel.payload.referrers,
      A rel.payload.manifest.digest x.digest) :
    Yields (Store.RefersIn A) (Write.RefersIn A)
      (attachAll node gossip clock subject referrer blobs i rels) fun _ => True := by
  induction rels generalizing i with
  | nil => exact Yields.pure trivial
  | cons rel rels ih =>
      have ih := fun i => ih i fun r hr => hrels r (List.mem_cons_of_mem _ hr)
      refine Yields.ite (fun hneeds => ?_) fun _ => ih _
      refine Yields.bind Store.RefersIn.apply (writes_publish gossip fun x hx => ?_) fun _ _ =>
        Yields.bind Store.RefersIn.apply (ih _) fun _ _ => Yields.pure trivial
      rw [attachedRelease_manifest]
      rw [attachedRelease_referrers] at hx
      rcases List.mem_append.mp hx with hx | hx
      · exact hrels rel List.mem_cons_self x hx
      · rw [List.mem_singleton.mp hx, (needsReferrer_iff.mp hneeds).2.1]
        exact hreferrer

theorem writes_attachSubject (gossip : Release → Except Err Unit) (clock : ℕ → ℕ)
    {manifest : Manifest} {manifestRef : BlobRef} {mediaType : Str} {blobs : List BlobRef}
    (hA : ∀ descriptor, manifest.subject = some descriptor →
      A descriptor.digest manifestRef.digest) :
    Yields (Store.RefersIn A) (Write.RefersIn A)
      (attachSubject node gossip clock manifest manifestRef mediaType blobs) fun _ => True := by
  unfold attachSubject
  split
  · exact Yields.pure trivial
  · rename_i descriptor hsubject
    have hrefers := hA descriptor hsubject
    have hrecord : Emits (Write.RefersIn A)
        (putReferrer descriptor.digest (referrerOf manifest manifestRef mediaType)) :=
      Emits.write hrefers
    refine Yields.bind Store.RefersIn.apply (Q := fun _ => True)
      (Yields.of_emits hrecord fun _ _ _ _ => trivial).mapErr fun _ _ => ?_
    refine Yields.bind Store.RefersIn.apply (Q := fun _ => True) (Yields.mapErr ?_) fun _ _ =>
      Yields.pure trivial
    exact Yields.read_bind fun s hs => writes_attachAll gossip clock hrefers _ 0 fun rel hrel =>
      hs.named _ rel (Store.mem_listReleases.mp hrel)

theorem writes_publishTag (gossip : Release → Except Err Unit) (image reference : Str)
    (manifestRef : BlobRef) (blobs : List BlobRef) (now : ℕ) :
    Yields (Store.RefersIn A) (Write.RefersIn A)
      (publishTag node gossip image reference manifestRef blobs now) fun _ => True := by
  unfold publishTag
  split
  · exact Yields.pure trivial
  · exact (writes_publish gossip fun x hx => absurd hx List.not_mem_nil).mapErr

/-- A push writes the referrer record of its manifest, and those that the node's releases name. -/
theorem writes_push (q : Request) (hA : ∀ m d, q.push.Refers m d → A m d) :
    Yields (Store.RefersIn A) (Write.RefersIn A)
      (manifestPut node q.gossip q.readings.each q.readings.last q.push) fun _ => True := by
  refine Yields.bind Store.RefersIn.apply (Q := fun c => q.push.read = .ok c.bytes ∧
    Manifest.parse c.bytes q.push.mediaType = .ok c.manifest) ?_ fun c hc => ?_
  · refine Yields.of_emits (emits_checkPush (fun _ _ => trivial) (fun _ => trivial) _ _) ?_
    intro s _ c hc
    obtain ⟨-, x, rfl⟩ := (checkPush_triple node q.push s).ok rfl hc
    exact ⟨x.body, x.parsed⟩
  refine Yields.bind Store.RefersIn.apply (Q := fun b => b.digest = Digest.sha256 c.bytes)
    (Yields.of_emits ((emits_putBlobBytes trivial (fun _ _ => trivial) (fun _ => trivial) _
      _).mapErr _) fun s _ b hb => ?_) fun b hb => ?_
  · rw [putBlobBytes_ok (result_mapErr_ok.mp hb)]
  have hsubject : ∀ descriptor, c.manifest.subject = some descriptor →
      A descriptor.digest b.digest := fun descriptor hsubject =>
    hA _ _ ⟨c.bytes, c.manifest, descriptor, hc.1, hc.2, hsubject, rfl, hb.symm⟩
  exact Yields.bind Store.RefersIn.apply (writes_attachSubject _ _ hsubject) fun _ _ =>
    Yields.bind Store.RefersIn.apply (writes_publishTag _ _ _ _ _ _) fun _ _ =>
      Yields.of_emits (emits_respond _) fun _ _ _ _ => trivial

/-- A push that is answered has written the record of its manifest. -/
theorem mem_journal_push {q : Request} {resp : Response} (hok : (q.run node).result s = .ok resp)
    {m d : Digest} (hrefers : q.push.Refers m d) :
    ∃ x : Referrer, x.digest = d ∧ Write.referrer m x ∈ (q.run node).journal s := by
  have hcut : q.run node = manifestPut node q.gossip q.readings.each q.readings.last q.push :=
    cut_of_result_ok hok
  rw [hcut] at hok ⊢
  obtain ⟨bytes, manifest, descriptor, hbytes, hmanifest, hsubject, rfl, rfl⟩ := hrefers
  obtain ⟨c, hc, hok⟩ := result_bind_ok.mp hok
  obtain ⟨-, x, rfl⟩ := (checkPush_triple node q.push s).ok rfl hc
  obtain rfl : x.bytes = bytes := Except.ok.inj (x.body.symm.trans hbytes)
  obtain rfl : x.manifest = manifest := Except.ok.inj (x.parsed.symm.trans hmanifest)
  obtain ⟨b, hb, hok⟩ := result_bind_ok.mp hok
  have hdigest : b.digest = Digest.sha256 x.bytes := by
    rw [putBlobBytes_ok (result_mapErr_ok.mp hb)]
  refine ⟨referrerOf x.manifest b x.mediaType, hdigest, ?_⟩
  refine mem_journal_bind.mpr (Or.inr ⟨_, hc, mem_journal_bind.mpr (Or.inr ⟨b, hb, ?_⟩)⟩)
  refine mem_journal_bind.mpr (Or.inl ?_)
  rw [attachSubject, hsubject]
  exact mem_journal_bind.mpr (Or.inl List.mem_cons_self)

/-! ### Requests, one after another -/

section
variable {P : Write → Prop} (hrel : ∀ r, P (.dropRelease r)) (hpin : ∀ d, P (.untag d))
  (href : ∀ d, P (.dropBlobRef d)) (node : Node)
include hrel hpin href

theorem emits_removeEach (publisher : PublisherId) (image : Str) (ts : List Str) :
    Emits P (removeEach node publisher image ts) := by
  induction ts with
  | nil => exact Emits.pure _
  | cons t ts ih =>
      refine Emits.bind ((emits_tagsOf _ _ _).bind fun _ =>
        (emits_removeTags hrel _ _ _).bind fun _ => ?_) fun _ => ih
      exact Emits.ite (fun _ => Emits.pure _) fun _ =>
        (emits_sweepBlobsLocked hpin href _ _).bind fun _ => Emits.pure _

theorem emits_manifestDelete (name reference : Str) :
    Emits P (manifestDelete node name reference) :=
  (Emits.ofExcept _).bind fun _ => (emits_deletedTags _ _ _ _).bind fun _ =>
    ((emits_removeEach hrel hpin href node _ _ _).mapErr _).bind fun _ => Emits.pure _

end

/-- The request is a push of the manifest `d`, and that refers to `m`. -/
def TagRequest.Refers (c : TagRequest) (m d : Digest) : Prop :=
  ∃ q, c = .put q ∧ q.push.Refers m d

/-- The writes of a request. -/
theorem writes_request (c : TagRequest) (hA : ∀ m d, c.Refers m d → A m d) (hs : s.RefersIn A) :
    ∀ w ∈ (c.run node).journal s, w.RefersIn A := by
  cases c with
  | put q => exact (writes_push q fun m d h => hA m d ⟨q, rfl, h⟩).cut q.fault hs
  | delete name reference fault =>
      exact ((emits_manifestDelete (fun _ => trivial) (fun _ => trivial) (fun _ => trivial) node
        name reference).cut fault) s

/-- A manifest of the log refers to `m`. -/
def TagRun.Asked (w : TagRun) (m d : Digest) : Prop := ∃ p ∈ w.log, p.1.Refers m d

/-- What the node lists of referrers: every manifest whose push was answered, and nothing but what
was pushed. -/
structure TagRun.Lists (w : TagRun) : Prop where
  answered : ∀ p ∈ w.log, p.2.isOk = true → ∀ m d, p.1.Refers m d →
    w.store.referrers.has (m, d) = true
  asked : w.store.RefersIn w.Asked

/-- Nothing is listed at first, and nothing was asked. -/
theorem TagRun.lists_start : TagRun.start.Lists :=
  ⟨fun p hp => absurd hp List.not_mem_nil,
    ⟨fun subject d hd => (by cases hd), fun r rel hr => (by cases hr)⟩⟩

theorem TagRun.Lists.step {w v : TagRun} {c : TagRequest} (hw : w.Lists)
    (hstep : w.step node c = some v) : v.Lists := by
  cases hstep
  let v : TagRun := ⟨(c.run node).final w.store, (c, (c.run node).result w.store) :: w.log⟩
  have hold : w.store.RefersIn v.Asked := hw.asked.mono fun m d h => by
    obtain ⟨p, hp, hrefers⟩ := h
    exact ⟨p, List.mem_cons_of_mem _ hp, hrefers⟩
  have hwrites : ∀ x ∈ (c.run node).journal w.store, x.RefersIn v.Asked :=
    writes_request c (fun m d h => ⟨_, List.mem_cons_self, h⟩) hold
  refine ⟨fun p hp hok m d hrefers => ?_, replay_keeps Store.RefersIn.apply hwrites hold⟩
  rcases List.mem_cons.mp hp with rfl | hp
  · obtain ⟨q, rfl, hrefers⟩ := hrefers
    cases hresult : (q.run node).result w.store with
    | error e =>
        have hok : ((q.run node).result w.store).isOk = true := hok
        rw [hresult] at hok
        cases hok
    | ok resp =>
        obtain ⟨x, rfl, hmem⟩ := mem_journal_push hresult hrefers
        exact has_replay_of_mem hwrites hmem
  · exact has_replay_of_refersIn hwrites (hw.answered p hp hok m d hrefers)

/-- What is listed for a digest, of a node that lists as it should. -/
theorem TagRun.Lists.referrersGet {w : TagRun} (hw : w.Lists) {name digest : Str}
    {rs : List Referrer} (h : (referrersGet node name digest none).result w.store = .ok rs) :
    ∃ m : Digest, digest = m.str ∧
      (∀ p ∈ w.log, p.2.isOk = true → ∀ d, p.1.Refers m d → ∃ r ∈ rs, r.digest = d) ∧
        ∀ r ∈ rs, ∃ p ∈ w.log, p.1.Refers m r.digest := by
  obtain ⟨m, hm, hmem⟩ := mem_referrersGet h
  refine ⟨m, hm, fun p hp hok d hrefers => ?_, fun r hr => ?_⟩
  · obtain ⟨r, hr, hd⟩ := exists_mem_listReferrers.mpr (hw.answered p hp hok m d hrefers)
    exact ⟨r, (hmem r).mpr ⟨hr, fun f hf => by cases hf⟩, hd⟩
  · exact hw.asked.listed m r.digest (exists_mem_listReferrers.mp ⟨r, ((hmem r).mp hr).1, rfl⟩)

/-- **Referrers.**  In every run of pushes and deletions, what is listed for a digest is what was
pushed with it as its subject: every manifest whose push was answered is there, and what is there
was pushed. -/
theorem run_lists (node : Node) (cs : List TagRequest) :
    Throughout (TagRun.step node)
      (fun w => ∀ name digest rs, (referrersGet node name digest none).result w.store = .ok rs →
        ∃ m : Digest, digest = m.str ∧
          (∀ p ∈ w.log, p.2.isOk = true → ∀ d, p.1.Refers m d → ∃ r ∈ rs, r.digest = d) ∧
            ∀ r ∈ rs, ∃ p ∈ w.log, p.1.Refers m r.digest) .start cs := by
  have hlists : Throughout (TagRun.step node) TagRun.Lists .start cs :=
    throughout_of_meets (C := fun _ _ => True) (fun w c v hw _ hstep => hw.step hstep)
      TagRun.lists_start (meets_of_forall (P := fun _ => True) fun _ _ => trivial)
  refine hlists.mono fun w hw name digest rs h => ?_
  exact hw.referrersGet h

end

end Ocid
