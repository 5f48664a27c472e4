import Ocid.Publishing.Session

/-!
# Publishing — Tags — what a pushed tag names afterwards

A push to a tag that is answered `201 Created` has signed a release, and has put it among the
records; whether it was stored is not looked at.  It is stored unless the record under the tag has
a later timestamp, or the same timestamp and the same manifest.  Since attaching a referrer moves a
record's timestamp past the one it had, a record can be ahead of the clock, and the pushed release
is then dropped.

`tagPush_named_iff` says for one push exactly when the tag names the pushed bytes afterwards;
`run_tags_named` says it for every run.
-/

namespace Ocid

open Call

section
variable [External]

omit [External] in
/-- Putting a release leaves a record of its manifest under its reference, unless the record held
names another manifest and is later. -/
theorem recorded_named_iff (t : Table Release.ref) (rel : Release) :
    (∃ r, (recorded t rel).get rel.ref = some r ∧
        r.payload.manifest.digest = rel.payload.manifest.digest) ↔
      ∀ e, t.get rel.ref = some e → e.payload.manifest.digest = rel.payload.manifest.digest ∨
        e.payload.timestamp ≤ rel.payload.timestamp := by
  cases ht : t.get rel.ref with
  | none =>
      have hput : recorded t rel = t.put rel := by rw [recorded, ht]; rfl
      rw [hput]
      exact ⟨fun _ e he => (by cases he), fun _ => ⟨rel, Table.get_put_self t rel, rfl⟩⟩
  | some e =>
      cases hs : rel.supersedes e with
      | true =>
          rw [recorded_of_supersedes ht hs]
          refine ⟨fun _ e' he => ?_, fun _ => ⟨rel, Table.get_put_self t rel, rfl⟩⟩
          cases he
          exact Or.inr (Release.le_of_supersedes hs)
      | false =>
          rw [recorded_of_refused ht hs]
          have hle := Release.le_of_not_supersedes hs
          constructor
          · rintro ⟨r, hr, hd⟩ e' he
            cases he
            rw [ht] at hr
            cases hr
            exact Or.inl hd
          · intro h
            refine ⟨e, ht, ?_⟩
            rcases h e rfl with h | h
            · exact h
            · by_contra hne
              have htie := Nat.le_antisymm hle h
              rw [Release.supersedes_iff.mpr (Or.inr ⟨htie, fun he => hne he.symm⟩)] at hs
              cases hs

namespace Pushed

variable {node : Node} {push : Push} {s : Store}

/-- The record held under the tag gives way, or names the pushed manifest already: it is earlier
than the release the push signs, or as early and not moved on by the push's own referrer. -/
def Admits (x : Pushed node push s) (now : ℕ) : Prop :=
  ∀ e, s.releases.get x.ref = some e →
    e.payload.manifest.digest = Digest.sha256 x.bytes ∨ e.payload.timestamp < now ∨
      (e.payload.timestamp = now ∧ ¬ x.MovesOn e)

/-- After a push to a tag the tag names the pushed bytes, exactly when the record held before
admits it. -/
theorem named_iff (x : Pushed node push s) {readings : Readings} {u : Table Release.ref}
    (h : x.Attaches readings.each s.releases u) :
    (∃ r, (recorded u (x.release readings.last)).get x.ref = some r ∧
        r.payload.manifest.digest = Digest.sha256 x.bytes) ↔ x.Admits readings.last := by
  have hrec := recorded_named_iff u (x.release readings.last)
  rw [release_ref, release_manifest, release_timestamp] at hrec
  refine hrec.trans ?_
  cases hs : s.releases.get x.ref with
  | none =>
      refine ⟨fun _ e he => ?_, fun _ e he => ?_⟩
      · rw [hs] at he
        cases he
      · rw [h.touches.get_none hs] at he
        cases he
  | some e =>
      have hone : x.Admits readings.last ↔ e.payload.manifest.digest = Digest.sha256 x.bytes ∨
          e.payload.timestamp < readings.last ∨
            (e.payload.timestamp = readings.last ∧ ¬ x.MovesOn e) := by
        refine ⟨fun hx => hx e hs, fun hx e' he => ?_⟩
        rw [hs] at he
        cases he
        exact hx
      rw [hone]
      rcases h.get hs with ⟨hattach, i, hu⟩ | ⟨hattach, hu⟩
      · -- the record was extended, and is one second later than it was, or more
        have hi := readings.each_le i
        have hnext := hattach.2.addU64_one
        simp only [hu, Option.some.injEq, forall_eq', attachedRelease_manifest,
          attachedRelease_timestamp, hnext, hattach, not_true_eq_false, and_false, or_false]
        refine or_congr_right ?_
        omega
      · simp only [hu, Option.some.injEq, forall_eq', hattach, not_false_eq_true, and_true]
        refine or_congr_right ?_
        omega

end Pushed

/-- After a push that was answered `201 Created` for an own image and a tag, that tag names the
pushed bytes. -/
def NamesPushed (node : Node) (s : Session) : Prop :=
  ∀ a resp, s.log.head? = some a → a.answer = .ok resp → a.request.push.isTag = true →
    ∀ image bytes, resolve node a.request.push.name = .ok (node.id, image) →
      a.request.push.read = .ok bytes →
        ∃ rel, (getRelease node.id image a.request.push.reference).result s.store = .ok (some rel) ∧
          rel.payload.manifest.digest = Digest.sha256 bytes

theorem namesPushed_after {node : Node} {s : Session} {q : Request} :
    NamesPushed node (s.after node q) ↔
      ∀ resp, (q.run node).result s.store = .ok resp → q.push.isTag = true →
        ∀ image bytes, resolve node q.push.name = .ok (node.id, image) →
          q.push.read = .ok bytes →
            ∃ rel, (getRelease node.id image q.push.reference).result ((q.run node).final s.store) =
                .ok (some rel) ∧ rel.payload.manifest.digest = Digest.sha256 bytes := by
  constructor
  · intro h resp hok
    exact h ⟨s.store, q, (q.run node).result s.store⟩ resp rfl hok
  · rintro h a resp ⟨⟩
    exact h resp

/-- One push, answered for a tag. -/
theorem tagPush_named_iff {node : Node} {q : Request} {s : Store} {resp : Response}
    (x : Pushed node q.push s) (hok : (q.run node).result s = .ok resp)
    (htag : q.push.isTag = true) :
    (∃ rel, (getRelease node.id x.image q.push.reference).result ((q.run node).final s) =
        .ok (some rel) ∧ rel.payload.manifest.digest = Digest.sha256 x.bytes) ↔
      x.Admits q.readings.last := by
  obtain ⟨x', -, hverify, u, hu, hfinal⟩ := Request.run_ok hok
  obtain rfl := Subsingleton.elim x x'
  obtain ⟨hname, htag'⟩ := Release.valid_of_verify (hverify htag)
  have hpath : releasePath node.id x.image q.push.reference = .ok x.ref :=
    releasePath_eq_ok.mpr ⟨htag', hname, rfl⟩
  rw [← x.named_iff hu, ← Pushed.publishes_of_isTag htag, ← hfinal]
  simp only [Call.result, getRelease_apply hpath, Except.ok.injEq]

/-- **The pushed tags.**  In a run of pushes, one after another, each of which meets a record that
admits it, every tag that was answered `201 Created` names the pushed bytes right afterwards. -/
theorem run_tags_named {node : Node} {store : Store} {now : ℕ} {qs : List Request}
    (h : Meets (Session.step node)
      (fun s q => ∀ x : Pushed node q.push s.store, q.push.isTag = true →
        x.Admits q.readings.last) ⟨store, now, []⟩ qs) :
    Throughout (Session.step node) (NamesPushed node) ⟨store, now, []⟩ qs := by
  refine throughout_of_meets (fun s q t _ hadmits hstep => ?_) ?_ h
  · obtain ⟨-, rfl⟩ := Session.step_eq_some.mp hstep
    refine namesPushed_after.mpr fun resp hok htag image bytes hresolve hread => ?_
    obtain ⟨x, -⟩ := Request.run_ok hok
    -- the image and the bytes are those the push found
    obtain rfl : image = x.image := by
      rw [x.resolved] at hresolve
      cases hresolve
      rfl
    obtain rfl : bytes = x.bytes := by
      rw [x.body] at hread
      cases hread
      rfl
    exact (tagPush_named_iff x hok htag).mpr (hadmits x htag)
  · intro a resp ha
    cases ha

end

/-- A tag that is pushed twice names what was pushed last. -/
example : letI := sample
    let node := Sample.node Policy.default
    let s := (Sample.session.after node (Sample.request "app" "1.0" Sample.index 5)).after node
      (Sample.request "app" "1.0" Sample.index2 6)
    s.store.releases.rows.map (fun rel => rel.payload.manifest.digest) =
      [Sample.index2.digest] := by
  simp only [Sample.session, Sample.request]
  rw [Sample.sample_eq_prepared]
  decide +kernel

/-- A tag pushed twice, with the clock moved on. -/
theorem run_tags_named_at : letI := sample
    let node := Sample.node Policy.default
    Throughout (Session.step node) (NamesPushed node) ⟨Store.empty, 0, []⟩
      [Sample.request "app" "1.0" Sample.index 5, Sample.request "app" "1.0" Sample.index2 6] := by
  let _ := sample
  intro node
  have hheld : ∀ e ∈ ((Sample.session.after node
      (Sample.request "app" "1.0" Sample.index 5)).store.releases.rows),
      e.payload.timestamp < 6 := by decide +kernel
  refine run_tags_named ⟨fun x _ e he => ?_, fun t ht => ⟨fun x _ e he => ?_, fun _ _ => trivial⟩⟩
  · cases he
  · obtain ⟨-, rfl⟩ := Session.step_eq_some.mp ht
    exact Or.inr (Or.inl (hheld e (Table.mem_of_get he)))

/-- A tag is pushed, a referrer of it is, and the tag is pushed again, all in one second: the three
pushes are answered, and the tag still names the first manifest. -/
theorem push_dropped : letI := sample
    let node := Sample.node Policy.default
    ¬ Throughout (Session.step node) (NamesPushed node) ⟨Store.empty, 0, []⟩
      [Sample.request "app" "1.0" Sample.index 5,
        Sample.request "app" Sample.referrer.digest.str Sample.referrer 5,
        Sample.request "app" "1.0" Sample.index2 5] := by
  let known := sample
  intro node h
  let q := Sample.request "app" "1.0" Sample.index2 5
  let s := (Sample.session.after node (Sample.request "app" "1.0" Sample.index 5)).after node
    (Sample.request "app" Sample.referrer.digest.str Sample.referrer 5)
  have hnames : NamesPushed node (s.after node q) :=
    ((h.2 _ (Session.step_eq_some.mpr ⟨by decide, rfl⟩)).2 _
      (Session.step_eq_some.mpr ⟨by decide, rfl⟩)).2 _ (Session.step_eq_some.mpr ⟨by decide, rfl⟩)
  have hrun : ((q.run node).result s.store).isOk = true ∧
      ((getRelease node.id "app" q.push.reference).result
          ((q.run node).final s.store)).toOption.join.map
        (fun r => r.payload.manifest.digest) = some Sample.index.digest := by
    subst known
    simp only [s, q, node, Sample.session, Sample.request, Sample.referrer_bytes]
    rw [Sample.sample_eq_prepared]
    decide +kernel
  have hresolve : resolve node q.push.name = .ok (node.id, "app") := by decide +kernel
  have hne : Sample.index.digest ≠ Digest.sha256 Sample.index2.bytes := by decide +kernel
  obtain ⟨hok, hgot⟩ := hrun
  cases hr : (q.run node).result s.store with
  | error e =>
      rw [hr] at hok
      cases hok
  | ok resp =>
      obtain ⟨rel, hrel, hd⟩ := namesPushed_after.mp hnames resp hr (by decide +kernel) "app"
        Sample.index2.bytes hresolve rfl
      rw [hrel] at hgot
      exact hne ((Option.some.inj hgot).symm.trans hd)

end Ocid
