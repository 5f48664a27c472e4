import Ocid.Retention.Retained
import Ocid.Retention.Swept

/-!
# Retention — Forecast — what a dry run reports

A collection removes records first and then sweeps what the others do not reference; a dry run
leaves the records and has the sweep pass over them.  Both see the same live hashes, since the
records that are passed over are the records that are gone (`live_collected`), so both report the
same (`gc_forecast`), and a dry run changes nothing.
-/

namespace Ocid

open Call

section
variable [External] {node : Node} {s : Store}

/-- The references of the records that are not spared. -/
def collected (req : GcReq) (keep : List Str) (young : Release → Bool) (rs : List Release) :
    List Str :=
  (rs.filter fun r => !req.spares keep young r).map Release.reference

theorem collectReleases_result (req : GcReq) (keep : List Str) (young : Release → Bool)
    {rs : List Release} (hrs : ∀ rel ∈ rs, validateName rel.name = .ok () ∧
      validateTag rel.payload.tag = .ok ()) (s : Store) :
    (collectReleases req keep young rs).result s = .ok (collected req keep young rs) := by
  induction rs generalizing s with
  | nil => rfl
  | cons rel rs ih =>
      have ih' := ih fun r hr => hrs r (List.mem_cons_of_mem _ hr)
      obtain ⟨hn, ht⟩ := hrs rel List.mem_cons_self
      rw [collectReleases]
      by_cases hspared : req.spares keep young rel = true
      · rw [if_pos hspared, ih', collected, collected, List.filter_cons_of_neg (by simp [hspared])]
      · rw [if_neg hspared, result_bind_of_ok (collectRelease_spec req hn ht s).1,
          result_bind_of_ok (ih' _), collected, collected,
          List.filter_cons_of_pos (by simpa using hspared)]
        rfl

/-- A dry run writes nothing. -/
theorem emits_gc_dry (node : Node) (force : Bool) (young : Release → Bool) :
    Emits (fun _ => False) (gc node ⟨true, force⟩ young) := by
  have hcollect : ∀ keep rs, Emits (fun _ => False) (collectReleases ⟨true, force⟩ keep young rs) := by
    intro keep rs
    induction rs with
    | nil => exact Emits.pure _
    | cons r rs ih =>
        exact Emits.ite (fun _ => ih) fun _ => (Emits.pure ()).bind fun _ => ih.bind fun _ =>
          Emits.pure _
  exact Emits.read.bind fun _ => (hcollect _ _).bind fun _ =>
    (emits_sweepBlobsLocked_dry _).bind fun _ => (Emits.pure ()).bind fun _ => Emits.pure _

/-- What is collected, and what it leaves of the rest of the store. -/
theorem collectReleases_frame (req : GcReq) (keep : List Str) (young : Release → Bool)
    (rs : List Release) (s : Store) :
    ((collectReleases req keep young rs).final s).pins = s.pins ∧
      ((collectReleases req keep young rs).final s).digests = s.digests := by
  have hemits := emits_collectReleases (P := fun w => w.part = .releases) (fun _ => rfl) req keep young
    rs
  exact ⟨pins_final (hemits.mono fun w hw => by simp [hw]),
    digests_final (hemits.mono fun w hw => by simp [hw])⟩

/-- The references that are not collected are those of the records spared. -/
theorem reference_notMem_collected (hs : s.Named) (req : GcReq) (keep : List Str)
    (young : Release → Bool) {rel : Release} (hrel : rel ∈ s.releases.rows) :
    rel.reference ∉ collected req keep young s.listReleases ↔
      req.spares keep young rel = true := by
  have hname : ∀ r ∈ s.releases.rows, validateName r.name = .ok () := fun r hr =>
    (hs _ _ (Table.get_of_mem hr)).1
  constructor
  · intro hout
    by_contra hgone
    refine hout (List.mem_map.mpr ⟨rel, List.mem_filter.mpr ⟨?_, by simpa using hgone⟩, rfl⟩)
    exact Store.mem_listReleases.mpr (Table.get_of_mem hrel)
  · intro hspared hmem
    obtain ⟨r, hr, href⟩ := List.mem_map.mp hmem
    obtain ⟨hr, hgone⟩ := List.mem_filter.mp hr
    have hr := Table.mem_of_get (Store.mem_listReleases.mp hr)
    -- the record under the reference is the one that is spared
    obtain rfl : r = rel := List.inj_on_of_nodup_map s.releases.nodup hr hrel
      (Ref.toStr_inj (hname r hr) (hname rel hrel) href)
    simp [hspared] at hgone

/-- The live hashes are the same, whether the records collected are gone or passed over. -/
theorem live_collected (hs : s.Named) (req : GcReq) (keep : List Str) (young : Release → Bool)
    (h : Blake3) :
    ((collectReleases req keep young s.listReleases).final s).Live
        (collected req keep young s.listReleases) h ↔
      s.Live (collected req keep young s.listReleases) h := by
  have hvalid : ∀ rel ∈ s.listReleases, validateName rel.name = .ok () ∧
      validateTag rel.payload.tag = .ok () := fun rel hrel =>
    hs _ _ (Store.mem_listReleases.mp hrel)
  obtain ⟨-, hget⟩ := collectReleases_spec req keep young hvalid s
  -- of the records that are not passed over, none is gone
  have hrow : ∀ rel : Release, rel.reference ∉ collected req keep young s.listReleases →
      (rel ∈ ((collectReleases req keep young s.listReleases).final s).releases.rows ↔
        rel ∈ s.releases.rows) := by
    intro rel hout
    have hsame : ((collectReleases req keep young s.listReleases).final s).releases.get rel.ref =
        s.releases.get rel.ref := by
      rw [hget, if_neg]
      rintro ⟨r, hr, hspared, -, href⟩
      refine hout (List.mem_map.mpr ⟨r, List.mem_filter.mpr ⟨hr, by simp [hspared]⟩, ?_⟩)
      rw [Release.reference, Release.reference, href]
    constructor
    · intro hmem
      exact Table.mem_of_get (hsame.symm.trans (Table.get_of_mem hmem))
    · intro hmem
      exact Table.mem_of_get (hsame.trans (Table.get_of_mem hmem))
  constructor
  · rintro ⟨rel, hmem, hout, hb⟩
    exact ⟨rel, (hrow rel hout).mp hmem, hout, hb⟩
  · rintro ⟨rel, hmem, hout, hb⟩
    exact ⟨rel, (hrow rel hout).mpr hmem, hout, hb⟩

/-- What is reported of a store: the records that are not spared, and the pins that the others do
not need. -/
def forecast (node : Node) (req : GcReq) (young : Release → Bool) (s : Store) : GcReport :=
  let removed := collected req (retainedSet node node.policy s.listReleases) young s.listReleases
  let dead := deadPins (liveHashes s removed) s.listPins
  ⟨req.dryRun, removed, dead.length, bytesOf s dead⟩

/-- A collection reports what it finds at its start. -/
theorem gc_result (node : Node) (hs : s.Named) (req : GcReq) (young : Release → Bool) :
    (gc node req young).result s = .ok (forecast node req young s) := by
  set removed := collected req (retainedSet node node.policy s.listReleases) young s.listReleases
    with hremoved
  have hread : (read : Op Store).result s = .ok s := rfl
  have hvalid : ∀ rel ∈ s.listReleases, validateName rel.name = .ok () ∧
      validateTag rel.payload.tag = .ok () := fun rel hrel =>
    hs _ _ (Store.mem_listReleases.mp hrel)
  have hcollect := collectReleases_result req (retainedSet node node.policy s.listReleases) young hvalid
    s
  generalize ht : (collectReleases req (retainedSet node node.policy s.listReleases) young
    s.listReleases).final s = t
  obtain ⟨hpins, hdigests⟩ := collectReleases_frame req (retainedSet node node.policy s.listReleases)
    young s.listReleases s
  rw [ht] at hpins hdigests
  -- the sweep finds the same pins dead, of the same sizes
  have hdead : deadPins (liveHashes t removed) t.listPins =
      deadPins (liveHashes s removed) s.listPins := by
    rw [deadPins, deadPins, Store.listPins, Store.listPins, hpins]
    refine List.filter_congr fun p _ => ?_
    have hlive := live_collected hs req (retainedSet node node.policy s.listReleases) young p.2
    rw [ht] at hlive
    rw [decide_eq_decide, mem_liveHashes, mem_liveHashes]
    exact not_congr hlive
  have hbytes : ∀ ps, bytesOf t ps = bytesOf s ps := fun ps => by
    rw [bytesOf, bytesOf]
    simp only [Store.blobRef, hdigests]
  have hsweep := sweepBlobsLocked_result req.dryRun removed t
  rw [hdead, hbytes] at hsweep
  obtain ⟨u, hu⟩ := returns_collectReferrers req ((sweepBlobsLocked req.dryRun removed).final t)
  rw [gc, result_bind_of_ok hread, final_read, result_bind_of_ok hcollect, ht,
    result_bind_of_ok hsweep, result_bind_of_ok hu]
  rfl

/-- **A dry run predicts the collection.**  It reports what the collection would report from the same
state, and leaves everything as it is. -/
theorem gc_forecast {w : GcState} (hs : w.store.Named) (force : Bool) (young : Release → Bool)
    (old : Str → Bool) :
    ∃ x : GcAnswer,
      collectGarbage node ⟨true, force⟩ young old w = (w, .ok { x with dryRun := true }) ∧
        (collectGarbage node ⟨false, force⟩ young old w).2 = .ok { x with dryRun := false } := by
  have hdry := gc_result node hs ⟨true, force⟩ young
  have hreal := gc_result node hs ⟨false, force⟩ young
  have hsame : (gc node ⟨true, force⟩ young).final w.store = w.store :=
    (final_of_emits_false (emits_gc_dry node force young) w.store).2
  refine ⟨{ forecast node ⟨true, force⟩ young w.store with
    uploadsRemoved := (w.uploads.filter old).length }, ?_, ?_⟩
  · simp only [collectGarbage, hdry, hsame]
    rfl
  · simp only [collectGarbage, hreal]
    rfl

end

namespace Sample

/-- Two uploads, of which one is old. -/
def uploads : List Str := ["stale", "fresh"]

/-- The old one. -/
def stale (u : Str) : Bool := u = "stale"

end Sample

/-- Two tags are held, and the window keeps the last. -/
theorem gc_forecast_at : letI := sample
    let w : GcState := ⟨Sample.heldTags, Sample.uploads⟩
    ∃ x : GcAnswer,
      collectGarbage (Sample.node Sample.latest) ⟨true, true⟩ (fun _ => false) Sample.stale w =
          (w, .ok { x with dryRun := true }) ∧
        (collectGarbage (Sample.node Sample.latest) ⟨false, true⟩ (fun _ => false) Sample.stale w).2 =
          .ok { x with dryRun := false } := by
  let _ := sample
  have hnamed := named_heldTags
  revert hnamed
  generalize Sample.heldTags = s
  intro hnamed w
  exact gc_forecast (w := w) hnamed true (fun _ => false) Sample.stale

end Ocid
