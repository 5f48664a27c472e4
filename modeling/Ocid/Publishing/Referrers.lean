import Ocid.Publishing.Session

/-!
# Publishing — Referrers — what the releases of a subject list

A pushed manifest with a `subject` is attached to every own release of that subject.  From then on
each of these releases must carry it: list it, and have its manifest and the blobs that manifest
references among its own.  Attaching another referrer keeps this, since it only extends a release.
A push to a tag does not: the release it signs lists no referrers, and replaces the record held.

`run_lists_accepted` proves it of every run in which no such release is stored for a manifest that
has an accepted referrer, and no listed referrer is pushed again with other blobs.
-/

namespace Ocid

section
variable [External]

/-- `rel` carries the pushed manifest: it lists it, and has it and every blob it references. -/
def Pushed.CarriedBy {node : Node} {push : Push} {s : Store} (x : Pushed node push s)
    (rel : Release) : Prop :=
  Carries rel x.blob.digest (x.blob :: x.blobs) ∧
    ∀ d ∈ x.manifest.referenced, ∃ b ∈ rel.payload.blobs, b.digest = d.digest

/-- Every referrer that was accepted is carried by every own release of its subject. -/
def ListsAccepted (node : Node) (s : Session) : Prop :=
  ∀ a ∈ s.log, ∀ resp, a.answer = .ok resp → ∀ x : Pushed node a.request.push a.before,
    ∀ subject, x.manifest.subject = some subject → ∀ r rel, s.store.releases.get r = some rel →
      rel.publisher = node.id → rel.payload.manifest.digest = subject.digest → x.CarriedBy rel

/-- The same, at one push of the log. -/
theorem ListsAccepted.of_mem {node : Node} {s : Session} (h : ListsAccepted node s)
    {before : Store} {q : Request} {answer : Except OciError Response} {resp : Response}
    (hmem : ⟨before, q, answer⟩ ∈ s.log) (hok : answer = .ok resp)
    (x : Pushed node q.push before) {subject : Descriptor}
    (hsubject : x.manifest.subject = some subject) {r : Ref} {rel : Release}
    (hr : s.store.releases.get r = some rel) (hown : rel.publisher = node.id)
    (hd : rel.payload.manifest.digest = subject.digest) : x.CarriedBy rel :=
  h ⟨before, q, answer⟩ hmem resp hok x subject hsubject r rel hr hown hd

namespace Pushed

variable {node : Node} {push : Push} {s : Store}

/-- What is collected contains what is referenced. -/
theorem carriedBy_of_carries {x : Pushed node push s} {rel : Release}
    (h : Carries rel x.blob.digest (x.blob :: x.blobs)) : x.CarriedBy rel := by
  refine ⟨h, fun d hd => ?_⟩
  obtain ⟨b, hb, hbd⟩ := (collectRefs_ok x.collected).2 d hd
  obtain ⟨b', hb', hd'⟩ := h.2 b (List.mem_cons_of_mem _ hb)
  exact ⟨b', hb', hd'.trans hbd⟩

/-- The record held under the tag is kept: it is later than the release the push signs, or as late
and of the same manifest, or moved on by the push's own referrer. -/
def Refused (x : Pushed node push s) (now : ℕ) : Prop :=
  ∃ e, s.releases.get x.ref = some e ∧ (now < e.payload.timestamp ∨
    (e.payload.timestamp = now ∧
      (e.payload.manifest.digest = x.blob.digest ∨ x.MovesOn e)))

/-- The manifest has no referrer: none was accepted, and it is not its own. -/
def Bare (x : Pushed node push s) (log : List Answered) : Prop :=
  (∀ a ∈ log, ∀ resp, a.answer = .ok resp → ∀ y : Pushed node a.request.push a.before,
    ∀ subject, y.manifest.subject = some subject → subject.digest ≠ x.blob.digest) ∧
  ∀ subject, x.manifest.subject = some subject → subject.digest ≠ x.blob.digest

/-- Where the pushed manifest is listed already, its blobs are there too. -/
def Relisted (x : Pushed node push s) : Prop :=
  ∀ subject, x.manifest.subject = some subject → ∀ r rel, s.releases.get r = some rel →
    rel.publisher = node.id → rel.payload.manifest.digest = subject.digest →
      (∃ l ∈ rel.payload.referrers, l.digest = x.blob.digest) →
        Carries rel x.blob.digest (x.blob :: x.blobs)

/-- A refused release leaves the records as they are. -/
theorem recorded_of_refused {x : Pushed node push s} {readings : Readings}
    {u : Table Release.ref} (h : x.Attaches readings.each s.releases u)
    (hrefused : x.Refused readings.last) : recorded u (x.release readings.last) = u := by
  obtain ⟨e, he, hlate⟩ := hrefused
  rcases h.get he with ⟨hattach, i, hu⟩ | ⟨hattach, hu⟩
  · refine Ocid.recorded_of_refused hu ?_
    rw [Bool.eq_false_iff, Ne, Release.supersedes_iff, release_timestamp,
      attachedRelease_timestamp, hattach.2.addU64_one]
    rcases hlate with hlt | ⟨heq, -⟩
    · omega
    · omega
  · refine Ocid.recorded_of_refused hu ?_
    rw [Bool.eq_false_iff, Ne, Release.supersedes_iff, release_timestamp, release_manifest]
    rcases hlate with hlt | ⟨heq, hd | hattach'⟩
    · omega
    · rw [hd]
      rintro (hlt | ⟨-, hne⟩)
      · omega
      · exact hne rfl
    · exact absurd hattach' hattach

/-- The records that the push attaches its manifest to can all be replaced. -/
def Replaces (x : Pushed node push s) : Prop :=
  ∀ r rel, s.releases.get r = some rel → x.AttachesTo rel → rel.HasLater

/-- What extending keeps holds of the records a push has touched. -/
theorem Touches.forall_get {x : Pushed node push s} {clock : ℕ → ℕ} {t u : Table Release.ref}
    {P : Release → Prop} (h : x.Touches clock t u)
    (hP : ∀ rel now, rel.publisher = node.id → P rel →
      P (attachedRelease node x.referrer (x.blob :: x.blobs) rel now))
    (ht : ∀ r rel, t.get r = some rel → P rel) : ∀ r rel, u.get r = some rel → P rel := by
  intro r rel hr
  unfold Touches at h
  split at h
  · rw [h] at hr
    exact ht r rel hr
  · rcases h r with hu | ⟨rel', hr', hneeds, i, -, hu⟩
    · exact ht r rel (hu.symm.trans hr)
    · rw [hu] at hr
      cases hr
      exact hP rel' _ (needsReferrer_iff.mp hneeds).1 (ht r rel' hr')

end Pushed

omit [External] in
theorem forall_get_recorded {P : Release → Prop} {t : Table Release.ref} {rel : Release}
    (hrel : P rel) (ht : ∀ r e, t.get r = some e → P e) :
    ∀ r e, (recorded t rel).get r = some e → P e := by
  intro r e he
  rw [recorded] at he
  split at he
  · rw [Table.get_put] at he
    split at he
    · cases he
      exact hrel
    · exact ht r e he
  · exact ht r e he

/-- What holds of the records a push has touched, and of a release it signs for a manifest without
referrers, holds of the records it leaves. -/
theorem Pushed.forall_get_publishes {node : Node} {push : Push} {s : Store}
    {x : Pushed node push s} {readings : Readings} {u : Table Release.ref} {log : List Answered}
    {P : Release → Prop} (h : x.Attaches readings.each s.releases u)
    (htag : push.isTag = true → x.Refused readings.last ∨ x.Bare log)
    (hu : ∀ r rel, u.get r = some rel → P rel) (hnew : x.Bare log → P (x.release readings.last)) :
    ∀ r rel, (x.publishes readings.last u).get r = some rel → P rel := by
  cases hb : push.isTag with
  | false =>
      have hsame : x.publishes readings.last u = u := by
        rw [Push.isTag, Bool.not_eq_false'] at hb
        simp only [publishes, Digest.parse, dif_pos hb]
      rw [hsame]
      exact hu
  | true =>
      rw [publishes_of_isTag hb]
      rcases htag hb with hrefused | hbare
      · rw [x.recorded_of_refused h hrefused]
        exact hu
      · exact forall_get_recorded (hnew hbare) hu

/-- What one push must meet: a tag push is refused, or is of a manifest without referrers; a manifest
that is listed already is listed with its blobs; and no record that is to list it has the last
timestamp. -/
def KeepsListed (node : Node) (s : Session) (q : Request) : Prop :=
  ∀ x : Pushed node q.push s.store,
    (q.push.isTag = true → x.Refused q.readings.last ∨ x.Bare s.log) ∧ x.Relisted ∧ x.Replaces

/-- One push keeps what was accepted before, and adds what it accepts. -/
theorem listsAccepted_after {node : Node} {s : Session} {q : Request} (hs : ListsAccepted node s)
    (hq : KeepsListed node s q) : ListsAccepted node (s.after node q) := by
  intro a ha resp hok y subject hsubject
  -- the own releases of the subject are to carry `y`, and extending a release keeps that
  let P : Release → Prop := fun rel => rel.publisher = node.id →
    rel.payload.manifest.digest = subject.digest → Carries rel y.blob.digest (y.blob :: y.blobs)
  have hP : ∀ {push : Push} {store : Store} (x : Pushed node push store) rel now,
      rel.publisher = node.id → P rel →
        P (attachedRelease node x.referrer (x.blob :: x.blobs) rel now) := by
    intro push store x rel now hown hrel _ hd
    rw [attachedRelease_manifest] at hd
    exact (hrel hown hd).attach now
  suffices hall : ∀ r rel, ((q.run node).final s.store).releases.get r = some rel → P rel from
    fun r rel hr hown hd => Pushed.carriedBy_of_carries (hall r rel hr hown hd)
  rcases List.mem_cons.mp ha with rfl | ha
  · -- the push was accepted itself: what needed it has been extended, and the rest lists it
    obtain ⟨x, -, -, u, hu, hfinal⟩ := Request.run_ok hok
    obtain rfl := Subsingleton.elim x y
    obtain ⟨htag, hrelisted, hreplaces⟩ := hq x
    rw [hfinal]
    refine x.forall_get_publishes hu htag (fun r rel hr hown hd => ?_) fun hbare _ hd => ?_
    · cases ht : s.store.releases.get r with
      | none =>
          rw [hu.touches.get_none ht] at hr
          cases hr
      | some e =>
          rcases hu.get ht with ⟨-, i, hu'⟩ | ⟨hattach, hu'⟩
          · rw [hu'] at hr
            cases hr
            exact carries_attachedRelease _
          · rw [hu'] at hr
            cases hr
            refine hrelisted subject hsubject r rel ht hown hd ?_
            by_contra hlisted
            have hattaches : x.AttachesTo rel := by
              refine ⟨subject, hsubject, needsReferrer_iff.mpr ⟨hown, hd, fun l hl hld => ?_⟩⟩
              exact hlisted ⟨l, hl, hld⟩
            exact hattach ⟨hattaches, hreplaces r rel ht hattaches⟩
    · exact absurd hd.symm (hbare.2 subject hsubject)
  · -- the referrer was accepted before, and its subject's releases have carried it
    have hbefore : ∀ r rel, s.store.releases.get r = some rel → P rel :=
      fun r rel hr hown hd => (hs a ha resp hok y subject hsubject r rel hr hown hd).1
    rcases q.run_final node s.store with hfinal | ⟨x, u, ⟨hu, hfinal⟩ | ⟨hu, hfinal⟩⟩
    · rw [hfinal]
      exact hbefore
    · rw [hfinal]
      exact hu.forall_get (hP x) hbefore
    · rw [hfinal]
      refine x.forall_get_publishes hu (hq x).1 (hu.touches.forall_get (hP x) hbefore) ?_
      intro hbare _ hd
      exact absurd hd.symm (hbare.1 a ha resp hok y subject hsubject)

/-- **The accepted referrers.**  In a run of pushes, one after another, each of which keeps what is
listed, every own release lists every accepted referrer of its manifest, and has its blobs. -/
theorem run_lists_accepted {node : Node} {store : Store} {now : ℕ} {qs : List Request}
    (h : Meets (Session.step node) (KeepsListed node) ⟨store, now, []⟩ qs) :
    Throughout (Session.step node) (ListsAccepted node) ⟨store, now, []⟩ qs := by
  refine throughout_of_meets (fun s q t hs hq hstep => ?_) (fun a ha => by cases ha) h
  obtain ⟨-, rfl⟩ := Session.step_eq_some.mp hstep
  exact listsAccepted_after hs hq

end

/-- The release of a tag lists the referrer that is pushed after it. -/
example : letI := sample
    let node := Sample.node Policy.default
    let s := (Sample.session.after node (Sample.request "app" "1.0" Sample.index 5)).after node
      (Sample.request "app" Sample.referrer.digest.str Sample.referrer 5)
    s.store.releases.rows.map (fun rel => rel.payload.referrers.map Referrer.digest) =
      [[Sample.referrer.digest]] := by
  simp only [Sample.session, Sample.request, Sample.referrer_bytes]
  rw [Sample.sample_eq_prepared]
  decide +kernel

/-- A tag is pushed, then a referrer of it. -/
theorem run_lists_accepted_at : letI := sample
    let node := Sample.node Policy.default
    Throughout (Session.step node) (ListsAccepted node) ⟨Store.empty, 0, []⟩
      [Sample.request "app" "1.0" Sample.index 5,
        Sample.request "app" Sample.referrer.digest.str Sample.referrer 5] := by
  let _ := sample
  intro node
  have hsubject : ∀ s (x : Pushed node (Sample.request "app" "1.0" Sample.index 5).push s),
      x.manifest.subject = none := by
    intro s x
    rw [x.subject_eq]
    decide +kernel
  have hbare : ∀ rel ∈ (Sample.session.after node
      (Sample.request "app" "1.0" Sample.index 5)).store.releases.rows,
      rel.payload.referrers = [] ∧ rel.HasLater := by decide +kernel
  refine run_lists_accepted ⟨fun x => ⟨fun _ => Or.inr ⟨fun _ ha => ?_, fun subject h => ?_⟩,
    fun subject h => ?_, fun r rel hr => (by cases hr)⟩,
    fun t ht => ⟨fun x => ⟨fun htag => ?_, ?_, ?_⟩, fun _ _ => trivial⟩⟩
  · cases ha
  · rw [hsubject _ x] at h
    cases h
  · rw [hsubject _ x] at h
    cases h
  · have hdigest : (Sample.request "app" Sample.referrer.digest.str Sample.referrer 5).push.isTag =
        false := by decide +kernel
    rw [hdigest] at htag
    cases htag
  · obtain ⟨-, rfl⟩ := Session.step_eq_some.mp ht
    rintro subject - r rel hr - - ⟨l, hl, -⟩
    rw [(hbare rel (Table.mem_of_get hr)).1] at hl
    cases hl
  · obtain ⟨-, rfl⟩ := Session.step_eq_some.mp ht
    exact fun r rel hr _ => (hbare rel (Table.mem_of_get hr)).2

/-- A tag is pushed, then a referrer of it, then the tag once more with the same manifest: the three
pushes are answered, and the release lists no referrer. -/
theorem repush_drops_referrer : letI := sample
    let node := Sample.node Policy.default
    ¬ Throughout (Session.step node) (ListsAccepted node) ⟨Store.empty, 0, []⟩
      [Sample.request "app" "1.0" Sample.index 5,
        Sample.request "app" Sample.referrer.digest.str Sample.referrer 5,
        Sample.request "app" "1.0" Sample.index 7] := by
  let known := sample
  intro node h
  let q := Sample.request "app" Sample.referrer.digest.str Sample.referrer 5
  let q' := Sample.request "app" "1.0" Sample.index 7
  let s := Sample.session.after node (Sample.request "app" "1.0" Sample.index 5)
  have hlists : ListsAccepted node ((s.after node q).after node q') :=
    ((h.2 _ (Session.step_eq_some.mpr ⟨by decide, rfl⟩)).2 _
      (Session.step_eq_some.mpr ⟨by decide, rfl⟩)).2 _ (Session.step_eq_some.mpr ⟨by decide, rfl⟩)
  have hrun : ((q.run node).result s.store).isOk = true ∧
      (((s.after node q).after node q').store.releases.rows.map fun rel =>
        (rel.publisher, rel.payload.manifest.digest, rel.payload.referrers)) =
          [(node.id, Sample.index.digest, [])] := by
    subst known
    simp only [s, q, q', node, Sample.session, Sample.request, Sample.referrer_bytes]
    rw [Sample.sample_eq_prepared]
    decide +kernel
  have hsubject : (q.push.read.toOption.bind fun bytes =>
      (Manifest.parse bytes q.push.mediaType).toOption.bind Manifest.subject).map
        Descriptor.digest = some Sample.index.digest := by
    subst known
    simp only [q, Sample.request, Sample.referrer_bytes]
    rw [Sample.sample_eq_prepared]
    decide +kernel
  obtain ⟨hok, hrows⟩ := hrun
  cases hr : (q.run node).result s.store with
  | error e =>
      rw [hr] at hok
      cases hok
  | ok resp =>
      obtain ⟨x, -⟩ := Request.run_ok hr
      rw [← x.subject_eq, Option.map_eq_some_iff] at hsubject
      obtain ⟨subject, hsubject, hdigest⟩ := hsubject
      -- the one record is of the subject, and lists nothing
      obtain ⟨rel, hrel, heq⟩ := List.mem_map.mp (hrows ▸ List.mem_singleton_self _)
      obtain ⟨hown, hmanifest, hnone⟩ : rel.publisher = node.id ∧
          rel.payload.manifest.digest = Sample.index.digest ∧ rel.payload.referrers = [] := by
        simpa using heq
      obtain ⟨⟨⟨l, hl, -⟩, -⟩, -⟩ := hlists.of_mem (List.mem_cons_of_mem _ List.mem_cons_self) hr x
        hsubject (Table.get_of_mem hrel) hown (hmanifest.trans hdigest.symm)
      rw [hnone] at hl
      cases hl

end Ocid
