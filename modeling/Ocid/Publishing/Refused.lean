import Ocid.Publishing.Session

/-!
# Publishing — Refused — what a push leaves that is not answered `201 Created`

A push checks all that it can before it writes: the namespace, the body, the manifest, the blobs
the manifest references, and the reference.  What is left to fail is then done step by step, and
nothing is undone: the records of the subject are extended one after the other, and announced, and
last the release of the tag is stored, and announced.  An announcement that fails leaves the record
that it would have announced (`failed_push_keeps_release`).

`refused_push` says what is left.  A push that fails a check leaves all records.  One that fails
later has either changed none, or one of the releases it signs could not be verified or announced,
or its answer could not be built, or a fault stopped it; and every record that has changed is one of
those releases.
-/

namespace Ocid

open Call

section
variable [External]

/-! ### The steps that can fail -/

theorem publish_ok {node : Node} {gossip : Release → Except Err Unit} {release : Release}
    (hv : release.verify = .ok ()) (hown : release.publisher = node.id)
    (hg : gossip release = .ok ()) (s : Store) :
    (publish node gossip release).result s = .ok () := by
  obtain ⟨hn, ht⟩ := Release.valid_of_verify hv
  have hensure : (ensure (decide (release.publisher = node.id))
      ["can only publish releases signed by this node".toList] : Op Unit).result s = .ok () := by
    rw [result_ensure, if_pos (decide_eq_true hown)]
  obtain ⟨b, hb⟩ := putRelease_returns hn ht s
  refine result_bind_ok.mpr ⟨(), hv, result_bind_ok.mpr ⟨(), hensure, ?_⟩⟩
  exact result_bind_ok.mpr ⟨b, hb, hg⟩

theorem attachAll_ok {node : Node} {gossip : Release → Except Err Unit} {clock : ℕ → ℕ}
    {subject : Digest} {referrer : Referrer} {blobs : List BlobRef} {rels : List Release}
    (h : ∀ rel ∈ rels, needsReferrer node subject referrer rel = true → ∀ i,
      (attachedRelease node referrer blobs rel (clock i)).verify = .ok () ∧
        gossip (attachedRelease node referrer blobs rel (clock i)) = .ok ()) (i : ℕ) (s : Store) :
    ∃ n, (attachAll node gossip clock subject referrer blobs i rels).result s = .ok n := by
  induction rels generalizing i s with
  | nil => exact ⟨0, rfl⟩
  | cons rel rels ih =>
      have hrels := ih fun x hx => h x (List.mem_cons_of_mem _ hx)
      rw [attachAll]
      split
      · rename_i hneeds
        obtain ⟨hv, hg⟩ := h rel List.mem_cons_self hneeds i
        have hown : (attachedRelease node referrer blobs rel (clock i)).publisher = node.id := by
          rw [Release.publisher, attachedRelease_payload]
        have hpublish := publish_ok hv hown hg s
        obtain ⟨n, hn⟩ := hrels (i + 1) _
        exact ⟨n + 1, result_bind_ok.mpr ⟨(), hpublish, result_bind_ok.mpr ⟨n, hn, rfl⟩⟩⟩
      · exact hrels (i + 1) s

/-- An error of an operation of the node is internal. -/
theorem status_of_lift {α : Type} {m : Op α} {s : Store} {e : OciError}
    (h : (Op.lift m).result s = .error e) : e.status = 500 := by
  have h : (m.result s).mapError OciError.internal = .error e := h
  cases hm : m.result s with
  | ok a =>
      rw [hm] at h
      cases h
  | error e' =>
      rw [hm] at h
      obtain rfl := Except.error.inj h
      rfl

theorem status_of_attachSubject {node : Node} {gossip : Release → Except Err Unit} {clock : ℕ → ℕ}
    {manifest : Manifest} {r : BlobRef} {mediaType : Str} {blobs : List BlobRef} {s : Store}
    {e : OciError}
    (h : (attachSubject node gossip clock manifest r mediaType blobs).result s = .error e) :
    e.status = 500 := by
  unfold attachSubject at h
  split at h
  · cases h
  · rcases result_bind_error.mp h with h | ⟨u, -, h⟩
    · exact status_of_lift h
    · rcases result_bind_error.mp h with h | ⟨n, -, h⟩
      · exact status_of_lift h
      · cases h

theorem status_of_publishTag {node : Node} {gossip : Release → Except Err Unit}
    {image reference : Str} {r : BlobRef} {blobs : List BlobRef} {later : ℕ} {s : Store}
    {e : OciError}
    (h : (publishTag node gossip image reference r blobs later).result s = .error e) :
    e.status = 500 := by
  unfold publishTag at h
  split at h
  · cases h
  · exact status_of_lift h

/-- A push fails its check, or with an internal error, or its answer cannot be built. -/
theorem manifestPut_error {node : Node} {gossip : Release → Except Err Unit} {clock : ℕ → ℕ}
    {later : ℕ} {push : Push} {s : Store} {e : OciError}
    (h : (manifestPut node gossip clock later push).result s = .error e) :
    (checkPush node push).result s = .error e ∨ e.status = 500 ∨ e = .panicked := by
  refine (result_bind_error.mp h).imp_right ?_
  rintro ⟨c, -, h⟩
  rcases result_bind_error.mp h with h | ⟨r, -, h⟩
  · exact Or.inl (status_of_lift h)
  rcases result_bind_error.mp h with h | ⟨u, -, h⟩
  · exact Or.inl (status_of_attachSubject h)
  rcases result_bind_error.mp h with h | ⟨u, -, h⟩
  · exact Or.inl (status_of_publishTag h)
  · exact Or.inr (result_respond_error h).1

/-! ### What a push signs -/

namespace Pushed

variable {node : Node} {push : Push} {s : Store}

/-- A release that the push signs: a record of its subject, extended, or the release of its tag. -/
def Signs (x : Pushed node push s) (readings : Readings) (rel : Release) : Prop :=
  (∃ old i, s.releases.get old.ref = some old ∧ x.AttachesTo old ∧
    rel = attachedRelease node x.referrer (x.blob :: x.blobs) old (readings.each i)) ∨
  push.isTag = true ∧ rel = x.release readings.last

/-- Every record of `t` is the record of `s`, or a release that the push signs. -/
def Leaves (x : Pushed node push s) (readings : Readings) (t : Table Release.ref) : Prop :=
  ∀ r, t.get r = s.releases.get r ∨
    ∃ rel, x.Signs readings rel ∧ rel.ref = r ∧ t.get r = some rel

variable {x : Pushed node push s} {readings : Readings} {t : Table Release.ref}

omit [External] in
theorem isTag_of_parse {e : Err} (he : Digest.parse push.reference = .error e) :
    push.isTag = true := by
  cases hw : Digest.wellFormed push.reference with
  | false =>
      rw [Push.isTag, hw]
      rfl
  | true =>
      rw [Digest.parse, dif_pos hw] at he
      cases he

theorem Touches.leaves (h : x.Touches readings.each s.releases t) : x.Leaves readings t := by
  unfold Touches at h
  split at h
  · exact fun r => Or.inl (congrArg (·.get r) h)
  · rename_i subject hs
    intro r
    refine (h r).imp_right ?_
    rintro ⟨old, hold, hneeds, i, -, ht⟩
    obtain rfl := Table.key_of_get hold
    exact ⟨_, Or.inl ⟨old, i, hold, ⟨subject, hs, hneeds⟩, rfl⟩,
      attachedRelease_ref (needsReferrer_iff.mp hneeds).1 _, ht⟩

theorem Leaves.publishes (h : x.Leaves readings t) :
    x.Leaves readings (x.publishes readings.last t) := by
  unfold Pushed.publishes
  split
  · exact h
  · rename_i e he
    have htag : push.isTag = true := isTag_of_parse he
    intro r
    unfold recorded
    split
    · by_cases hr : (x.release readings.last).ref = r
      · refine Or.inr ⟨x.release readings.last, Or.inr ⟨htag, rfl⟩, hr, ?_⟩
        rw [Table.get_put, if_pos hr]
      · rw [Table.get_put_of_ne hr]
        exact h r
    · exact h r

end Pushed

section
variable {node : Node} {gossip : Release → Except Err Unit} {readings : Readings} {push : Push}
  {s : Store}

/-- The records of the subject are extended without an error when they all verify and all are
announced. -/
theorem attachSubject_ok (x : Pushed node push s)
    (h : ∀ rel, x.Signs readings rel → rel.verify = .ok () ∧ gossip rel = .ok ()) {t : Store}
    (ht : t.releases = s.releases) :
    (attachSubject node gossip readings.each x.manifest x.blob x.mediaType x.blobs).result t =
      .ok () := by
  unfold attachSubject
  split
  · rfl
  · rename_i subject hs
    have hheld : ∀ u : Store, u.releases = t.releases → ∀ rel ∈ u.listReleases,
        needsReferrer node subject.digest x.referrer rel = true → ∀ i,
          x.Signs readings
            (attachedRelease node x.referrer (x.blob :: x.blobs) rel (readings.each i)) := by
      intro u hu rel hrel hneeds i
      refine Or.inl ⟨rel, i, ?_, ⟨subject, hs, hneeds⟩, rfl⟩
      rw [← ht, ← hu]
      exact Store.mem_listReleases.mp hrel
    let u := (putReferrer subject.digest x.referrer).final t
    have hu : u.releases = t.releases := rfl
    obtain ⟨n, hn⟩ := attachAll_ok (fun rel hrel hneeds i => h _ (hheld u hu rel hrel hneeds i)) 0 u
    have hattach : (attachReferrer node gossip readings.each subject.digest x.referrer
        (x.blob :: x.blobs)).result u = .ok n := hn
    refine result_bind_ok.mpr ⟨(), rfl, result_bind_ok.mpr ⟨n, ?_, rfl⟩⟩
    exact result_mapErr_ok.mpr hattach

theorem publishTag_ok (x : Pushed node push s)
    (h : ∀ rel, x.Signs readings rel → rel.verify = .ok () ∧ gossip rel = .ok ()) (t : Store) :
    (publishTag node gossip x.image push.reference x.blob x.blobs readings.last).result t =
      .ok () := by
  unfold publishTag
  split
  · rfl
  · rename_i e he
    obtain ⟨hv, hg⟩ := h (x.release readings.last) (Or.inr ⟨Pushed.isTag_of_parse he, rfl⟩)
    exact result_mapErr_ok.mpr (publish_ok hv rfl hg t)

/-- A push that fails has changed no record, or its answer cannot be built, or something that it
signs does not verify or is not announced. -/
theorem unsigned_of_error {e : OciError}
    (h : (manifestPut node gossip readings.each readings.last push).result s = .error e) :
    ((manifestPut node gossip readings.each readings.last push).final s).releases = s.releases ∨
      ∃ x : Pushed node push s, validHeaderValue push.name = false ∨ ∃ rel, x.Signs readings rel ∧
        (rel.verify ≠ .ok () ∨ gossip rel ≠ .ok ()) := by
  have hcheck := checkPush_triple node push s
  rcases result_bind_error.mp h with hc | ⟨c, hc, h⟩
  · refine Or.inl ?_
    rw [manifestPut, final_bind_of_error hc]
    exact hcheck.final_cut rfl none
  · obtain ⟨ht, x, rfl⟩ := hcheck.ok rfl hc
    refine Or.inr ⟨x, ?_⟩
    by_contra hgood
    obtain ⟨hname, hgood⟩ := not_or.mp hgood
    have hsigns : ∀ rel, x.Signs readings rel → rel.verify = .ok () ∧ gossip rel = .ok () := by
      intro rel hrel
      by_contra hbad
      exact hgood ⟨rel, hrel, not_and_or.mp hbad⟩
    rcases result_bind_error.mp h with h | ⟨r, hr, h⟩
    · -- the digest asked for is the one of the bytes
      have hok : (putBlobBytes x.bytes (some (Digest.sha256 x.bytes))
          (some (push.mediaType.getD x.manifest.mediaType))).result
            ((checkPush node push).final s) = .ok x.blob := by
        refine result_bind_ok.mpr ⟨(), ?_, rfl⟩
        rw [expectDigest, result_ensure, if_pos (beq_self_eq_true _)]
      have := result_mapErr_ok (f := OciError.internal).mpr hok
      cases this.symm.trans h
    · obtain rfl := putBlobBytes_ok (result_mapErr_ok.mp hr)
      have hemits : Emits (fun w : Write => w.part ≠ .releases)
          (putBlobBytes x.bytes (some (Digest.sha256 x.bytes))
            (some (push.mediaType.getD x.manifest.mediaType))) :=
        emits_putBlobBytes nofun (fun _ _ => nofun) (fun _ => nofun) _ _
      have hu := (releases_final (s := (checkPush node push).final s) hemits).trans ht
      have hattach := attachSubject_ok x hsigns hu
      rcases result_bind_error.mp h with h | ⟨u, -, h⟩
      · cases hattach.symm.trans h
      · rcases result_bind_error.mp h with h | ⟨u, -, h⟩
        · cases (publishTag_ok x hsigns _).symm.trans h
        · have hsendable := (result_respond_error h).2
          rw [sendable_created_iff, Bool.not_eq_true] at hsendable
          exact hname hsendable

end

/-- **A push that is not answered.**  It has left all records, or it had passed its checks and one
of the releases it signs was not stored and announced, or its name cannot be sent back, or a fault
stopped it; every record that has changed is one of these releases.  Any answer but an internal error
leaves all records. -/
theorem refused_push (q : Request) (node : Node) (s : Store)
    (h : ∀ resp, (q.run node).result s = .ok resp → resp.status ≠ 201) :
    (((q.run node).final s).releases = s.releases ∨ ∃ x : Pushed node q.push s,
      x.Leaves q.readings ((q.run node).final s).releases ∧
        (q.fault ≠ none ∨ validHeaderValue q.push.name = false ∨ ∃ rel, x.Signs q.readings rel ∧
          (rel.verify ≠ .ok () ∨ q.gossip rel ≠ .ok ()))) ∧
      ∀ e, (q.run node).result s = .error e → (∀ f ∈ q.fault, f.2.status = 500) → e ≠ .panicked →
        e.status ≠ 500 → ((q.run node).final s).releases = s.releases := by
  refine ⟨?_, fun e he hfault hanswer hstatus => ?_⟩
  · rcases q.run_final node s with hsame | ⟨x, u, hleft⟩
    · exact Or.inl hsame
    have hleaves : x.Leaves q.readings ((q.run node).final s).releases := by
      rcases hleft with ⟨hu, ht⟩ | ⟨hu, ht⟩
      · exact ht ▸ hu.leaves
      · exact ht ▸ hu.touches.leaves.publishes
    cases hq : q.fault with
    | some f => exact Or.inr ⟨x, hleaves, Or.inl (Option.some_ne_none f)⟩
    | none =>
        have hrun : q.run node =
            manifestPut node q.gossip q.readings.each q.readings.last q.push := by
          rw [Request.run, hq]
          rfl
        rw [hrun] at h hleaves ⊢
        cases hr : (manifestPut node q.gossip q.readings.each q.readings.last q.push).result s with
        | ok resp =>
            -- what is returned is the `201`
            obtain ⟨y, ⟨hresp, -⟩, -⟩ := (manifestPut_triple node q.gossip q.readings.each
              q.readings.last q.push s).ok rfl hr
            exact absurd (congrArg Response.status hresp) (h resp hr)
        | error e =>
            rcases unsigned_of_error hr with hsame | ⟨y, hbad⟩
            · exact Or.inl hsame
            · rw [Subsingleton.elim x y] at hleaves
              exact Or.inr ⟨y, hleaves, Or.inr hbad⟩
  · cases hq : q.fault with
    | some f =>
        rw [Request.run, hq] at he
        obtain rfl : f.2 = e := Except.error.inj he
        exact absurd (hfault f hq) hstatus
    | none =>
        rw [Request.run, hq] at he
        rw [Request.run, hq]
        have hc := (manifestPut_error he).resolve_right (not_or.mpr ⟨hstatus, hanswer⟩)
        rw [cut_none, manifestPut, final_bind_of_error hc]
        exact (checkPush_triple node q.push s).final_cut rfl none

end

/-- A body that is no JSON is refused, and leaves no record. -/
example : letI := sample
    let q := { Sample.request "app" "1.0" Sample.index 5 with
      push := ⟨"app", "1.0", some mtOciIndex, .ok []⟩ }
    let put := q.run (Sample.node Policy.default)
    ((put.result Store.empty).map Response.status).mapError OciError.status = .error 400 ∧
      (put.final Store.empty).releases = Store.empty.releases := by
  simp only [Sample.request]
  rw [Sample.sample_eq_prepared]
  decide +kernel

namespace Sample

/-- A push under a tag that cannot be announced. -/
def unannounced : Request :=
  { request "app" "1.0" index 5 with gossip := fun _ => .error ["gossip broadcast: closed"] }

end Sample

/-- A push that cannot be announced. -/
theorem refused_push_at : letI := sample
    let q := Sample.unannounced
    ∃ x : Pushed (Sample.node Policy.default) q.push Store.empty,
      x.Leaves q.readings ((q.run (Sample.node Policy.default)).final Store.empty).releases ∧
        (q.fault ≠ none ∨ validHeaderValue q.push.name = false ∨ ∃ rel, x.Signs q.readings rel ∧
          (rel.verify ≠ .ok () ∨ q.gossip rel ≠ .ok ())) := by
  let _ := sample
  intro q
  have herror : ((q.run (Sample.node Policy.default)).result Store.empty).toOption = none := by
    decide +kernel
  have hchanged : ((q.run (Sample.node Policy.default)).final Store.empty).releases ≠
      Store.empty.releases := by
    decide +kernel
  refine (refused_push q (Sample.node Policy.default) Store.empty fun resp hresp => ?_).1.resolve_left
    hchanged
  rw [hresp] at herror
  cases herror

/-- The push is answered with an internal error, and its release is stored. -/
theorem failed_push_keeps_release : letI := sample
    let q := Sample.unannounced
    let node := Sample.node Policy.default
    let r : Ref := ⟨node.id, "app", "1.0"⟩
    (q.run node).result Store.empty = .error (.internal ["gossip broadcast: closed"]) ∧
      Store.empty.releases.get r = none ∧
      ((q.run node).final Store.empty).releases.get r ≠ none := by
  decide +kernel

end Ocid
