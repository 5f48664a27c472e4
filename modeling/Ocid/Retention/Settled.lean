import Ocid.Retention.Forecast

/-!
# Retention — Settled — the state a forced collection leaves

The records a node must keep are known from the state before the collection (`Kept`), and with them
the hashes that are needed.  A collection that spares nothing else leaves exactly these records, the
pins of needed hashes, and the index entries of needed hashes whose digest has no pin of another,
unneeded one (`settled_gc`).

Enforcing windows stops somewhere on the way (`Between`): it removes only what the collection would
remove, and the collection then leaves the same.  So it does after it has already run.
-/

namespace Ocid

open Call Windows

section
variable [External] {node : Node} {s t u : Store} {req : GcReq} {young : Release → Bool}

/-! ### What is needed -/

/-- The record is held, and is the node's own or selected by the policy. -/
def Store.Kept (s : Store) (node : Node) (rel : Release) : Prop :=
  s.releases.get rel.ref = some rel ∧
    (rel.publisher = node.id ∨ s.Selected node.policy rel.ref)

/-- A record that is kept references the hash. -/
def Store.Needed (s : Store) (node : Node) (h : Blake3) : Prop :=
  ∃ rel, s.Kept node rel ∧ ∃ b ∈ rel.allBlobs, b.hash = h

/-- The digest has an entry of a needed hash, and no pin of an unneeded one. -/
def Store.Remains (s : Store) (node : Node) (d : Digest) (e : BlobRef) : Prop :=
  s.digests.get d = some e ∧ (∀ p ∈ s.pins.get d, s.Needed node p.2) ∧ s.Needed node e.hash

/-- `t` is what a collection leaves of `s`. -/
structure Settled (node : Node) (s t : Store) : Prop where
  releases : ∀ q rel, t.releases.get q = some rel ↔ s.releases.get q = some rel ∧ s.Kept node rel
  pins : ∀ d p, t.pins.get d = some p ↔ s.pins.get d = some p ∧ s.Needed node p.2
  digests : ∀ d e, t.digests.get d = some e ↔ s.Remains node d e
  referrers : ∀ k r, t.referrers.get k = some r ↔
    s.referrers.get k = some r ∧ ∃ e, s.Remains node r.2.digest e
  blobs : t.blobs = s.blobs

/-- `t` is what is left of `s` on the way there. -/
structure Between (node : Node) (s t : Store) : Prop where
  releases : ∀ q rel, t.releases.get q = some rel → s.releases.get q = some rel
  kept : ∀ rel, s.Kept node rel → t.releases.get rel.ref = some rel
  pins : ∀ d p, t.pins.get d = some p → s.pins.get d = some p
  pinned : ∀ d p, s.pins.get d = some p → s.Needed node p.2 → t.pins.get d = some p
  /-- An entry that is left has not lost its pin. -/
  digests : ∀ d e, t.digests.get d = some e →
    s.digests.get d = some e ∧ ∀ p ∈ s.pins.get d, t.pins.get d = some p
  remains : ∀ d e, s.Remains node d e → t.digests.get d = some e
  referrers : ∀ k r, t.referrers.get k = some r → s.referrers.get k = some r
  listed : ∀ k r e, s.referrers.get k = some r → s.Remains node r.2.digest e →
    t.referrers.get k = some r
  blobs : t.blobs = s.blobs

/-- The same tables, whatever the order of their rows. -/
structure Store.Same (s t : Store) : Prop where
  releases : ∀ q, s.releases.get q = t.releases.get q
  pins : ∀ d, s.pins.get d = t.pins.get d
  digests : ∀ d, s.digests.get d = t.digests.get d
  referrers : ∀ k, s.referrers.get k = t.referrers.get k
  blobs : s.blobs = t.blobs

/-- What a collection leaves is determined. -/
theorem Settled.same (ht : Settled node s t) (hu : Settled node s u) : t.Same u where
  releases q := Option.ext fun rel => (ht.releases q rel).trans (hu.releases q rel).symm
  pins d := Option.ext fun p => (ht.pins d p).trans (hu.pins d p).symm
  digests d := Option.ext fun e => (ht.digests d e).trans (hu.digests d e).symm
  referrers k := Option.ext fun r => (ht.referrers k r).trans (hu.referrers k r).symm
  blobs := ht.blobs.trans hu.blobs.symm

theorem Between.refl (node : Node) (s : Store) : Between node s s where
  releases _ _ h := h
  kept _ h := h.1
  pins _ _ h := h
  pinned _ _ h _ := h
  digests _ _ h := ⟨h, fun _ hp => hp⟩
  remains _ _ h := h.1
  referrers _ _ h := h
  listed _ _ _ h _ := h
  blobs := rfl

theorem Settled.between (h : Settled node s t) : Between node s t where
  releases q rel hrel := ((h.releases q rel).mp hrel).1
  kept rel hrel := (h.releases rel.ref rel).mpr ⟨hrel.1, hrel⟩
  pins d p hp := ((h.pins d p).mp hp).1
  pinned d p hp hneed := (h.pins d p).mpr ⟨hp, hneed⟩
  digests d e he := by
    obtain ⟨hget, hpins, -⟩ := (h.digests d e).mp he
    exact ⟨hget, fun p hp => (h.pins d p).mpr ⟨hp, hpins p hp⟩⟩
  remains d e he := (h.digests d e).mpr he
  referrers k r hr := ((h.referrers k r).mp hr).1
  listed k r e hr he := (h.referrers k r).mpr ⟨hr, e, he⟩
  blobs := h.blobs

/-! ### The same records are kept on the way -/

theorem Between.named (h : Between node s t) (hs : s.Named) : t.Named :=
  fun q rel hq => hs q rel (h.releases q rel hq)

/-- What the windows select of the records that are left is what they selected of all. -/
theorem Between.selected_iff (h : Between node s t) (hs : s.Named) {rel : Release}
    (hrel : t.releases.get rel.ref = some rel) :
    t.Selected node.policy rel.ref ↔ s.Selected node.policy rel.ref := by
  have hrel' := h.releases _ _ hrel
  rw [selected_iff_inside (h.named hs) (Table.mem_of_get hrel),
    selected_iff_inside hs (Table.mem_of_get hrel')]
  have hfinite := finite_held s rel.publisher rel.name
  have hsub : t.held rel.publisher rel.name ⊆ s.held rel.publisher rel.name := by
    rintro x ⟨r, hget, ht⟩
    exact ⟨r, h.releases _ _ hget, ht⟩
  -- what is inside the window is kept
  have hin : (node.policy.window rel.publisher rel.name).inside (s.held rel.publisher rel.name) ⊆
      t.held rel.publisher rel.name := by
    intro x hx
    obtain ⟨r, hget, ht⟩ := hx.1.1
    have href := Table.key_of_get hget
    obtain ⟨hp, hn, htag⟩ : r.publisher = rel.publisher ∧ r.name = rel.name ∧
        r.payload.tag = x.1 :=
      ⟨congrArg Ref.publisher href, congrArg Ref.name href, congrArg Ref.tag href⟩
    have hsel : s.Selected node.policy r.ref := by
      rw [selected_iff_inside hs (Table.mem_of_get hget), hp, hn, htag, ht]
      exact hx
    exact ⟨r, href ▸ h.kept r ⟨href ▸ hget, Or.inr hsel⟩, ht⟩
  rw [Window.inside, Window.inside] at *
  rw [window_of_subset hfinite hin hsub]

theorem Between.kept_iff (h : Between node s t) (hs : s.Named) {rel : Release} :
    t.Kept node rel ↔ s.Kept node rel := by
  constructor
  · rintro ⟨hget, hkeep⟩
    exact ⟨h.releases _ _ hget, hkeep.imp_right (h.selected_iff hs hget).mp⟩
  · intro hkept
    have hget := h.kept rel hkept
    exact ⟨hget, hkept.2.imp_right (h.selected_iff hs hget).mpr⟩

theorem Between.needed_iff (h : Between node s t) (hs : s.Named) {x : Blake3} :
    t.Needed node x ↔ s.Needed node x :=
  exists_congr fun _ => and_congr_left' (h.kept_iff hs)

theorem Between.remains_iff (h : Between node s t) (hs : s.Named) {d : Digest} {e : BlobRef} :
    t.Remains node d e ↔ s.Remains node d e := by
  constructor
  · rintro ⟨hget, hpins, hneed⟩
    obtain ⟨hget', hpins'⟩ := h.digests d e hget
    exact ⟨hget', fun p hp => (h.needed_iff hs).mp (hpins p (hpins' p hp)),
      (h.needed_iff hs).mp hneed⟩
  · intro hremains
    refine ⟨h.remains d e hremains, fun p hp => (h.needed_iff hs).mpr ?_,
      (h.needed_iff hs).mpr hremains.2.2⟩
    exact hremains.2.1 p (h.pins d p hp)

/-- **A collection may be made late**: what it leaves of what is left is what it leaves of all. -/
theorem Between.settled (h : Between node s t) (hs : s.Named) (hu : Settled node t u) :
    Settled node s u where
  releases q rel := by
    rw [hu.releases, h.kept_iff hs]
    constructor
    · rintro ⟨hget, hkept⟩
      exact ⟨h.releases q rel hget, hkept⟩
    · rintro ⟨hget, hkept⟩
      exact ⟨Table.key_of_get hget ▸ h.kept rel hkept, hkept⟩
  pins d p := by
    rw [hu.pins, h.needed_iff hs]
    exact ⟨fun hp => ⟨h.pins d p hp.1, hp.2⟩, fun hp => ⟨h.pinned d p hp.1 hp.2, hp.2⟩⟩
  digests d e := (hu.digests d e).trans (h.remains_iff hs)
  referrers k r := by
    rw [hu.referrers]
    simp only [h.remains_iff hs]
    constructor
    · rintro ⟨hr, e, he⟩
      exact ⟨h.referrers k r hr, e, he⟩
    · rintro ⟨hr, e, he⟩
      exact ⟨h.listed k r e hr he, e, he⟩
  blobs := hu.blobs.trans h.blobs

/-! ### What a collection leaves -/

/-- The records of the list are gone, and nothing else. -/
theorem dropReferrers_spec (ps : List (Digest × Referrer)) (s : Store) :
    (dropReferrers ps).result s = .ok () ∧
      ∀ k, ((dropReferrers ps).final s).referrers.get k =
        if k ∈ ps.map referrerKey then none else s.referrers.get k := by
  induction ps generalizing s with
  | nil => exact ⟨rfl, fun k => (if_neg (by simp)).symm⟩
  | cons p ps ih =>
      have hdrop : (write (.dropReferrer p.1 p.2.digest) : Op Unit).result s = .ok () := rfl
      obtain ⟨hok, hget⟩ := ih ((write (.dropReferrer p.1 p.2.digest) : Op Unit).final s)
      refine ⟨(result_bind_of_ok hdrop _).trans hok, fun k => ?_⟩
      rw [dropReferrers, final_bind_of_ok hdrop, hget, List.map_cons]
      have hfirst : ((write (.dropReferrer p.1 p.2.digest) : Op Unit).final s).referrers.get k =
          if referrerKey p = k then none else s.referrers.get k := Table.get_erase _ _ _
      rw [hfirst]
      by_cases hk : k ∈ ps.map referrerKey
      · simp [hk]
      · by_cases hp : referrerKey p = k
        · simp [hp]
        · simp [hk, hp, eq_comm (a := k)]

/-- The referrer records are left whose manifest is indexed. -/
theorem referrers_collectReferrers (hreal : req.dryRun = false) (s : Store) (k : Digest × Digest)
    (r : Digest × Referrer) :
    ((collectReferrers req : Op Unit).final s).referrers.get k = some r ↔
      s.referrers.get k = some r ∧ s.digests.has r.2.digest = true := by
  have hread : (read : Op Store).result s = .ok s := rfl
  obtain ⟨hok, hget⟩ := dropReferrers_spec
    (s.referrers.rows.filter fun p => !s.digests.has p.2.digest) s
  have hprune : (pruneReferrers : Op ℕ).result s = .ok (s.referrers.rows.filter fun p =>
      !s.digests.has p.2.digest).length := by
    rw [pruneReferrers, result_bind_of_ok hread, final_read, result_bind_of_ok hok]
    rfl
  have hfinal : (collectReferrers req : Op Unit).final s =
      (dropReferrers (s.referrers.rows.filter fun p => !s.digests.has p.2.digest)).final s := by
    rw [collectReferrers, if_neg (by simp [hreal]), final_bind_of_ok hprune, final_pure,
      pruneReferrers, final_bind_of_ok hread, final_read, final_bind_of_ok hok, final_pure]
  rw [hfinal, hget]
  have hstale : k ∈ (s.referrers.rows.filter fun p => !s.digests.has p.2.digest).map referrerKey ↔
      ∃ p, s.referrers.get k = some p ∧ s.digests.has p.2.digest = false := by
    simp only [List.mem_map, List.mem_filter, Bool.not_eq_true', and_assoc]
    constructor
    · rintro ⟨p, hp, hgone, rfl⟩
      exact ⟨p, Table.get_of_mem hp, hgone⟩
    · rintro ⟨p, hp, hgone⟩
      exact ⟨p, Table.mem_of_get hp, hgone, Table.key_of_get hp⟩
  constructor
  · intro h
    split at h
    · cases h
    · rename_i hleft
      refine ⟨h, ?_⟩
      by_contra hgone
      exact hleft (hstale.mpr ⟨r, h, Bool.eq_false_of_not_eq_true hgone⟩)
  · rintro ⟨hr, hhas⟩
    rw [if_neg, hr]
    intro hmem
    obtain ⟨p, hp, hgone⟩ := hstale.mp hmem
    cases hr.symm.trans hp
    rw [hhas] at hgone
    cases hgone

/-- The collection spares a record only if it must be kept. -/
def GcReq.Strict (req : GcReq) (node : Node) (young : Release → Bool) (s : Store) : Prop :=
  req.dryRun = false ∧ ∀ rel ∈ s.releases.rows,
    req.spares (retainedSet node node.policy s.listReleases) young rel = true →
      rel.reference ∈ retainedSet node node.policy s.listReleases

/-- With `force` no other record is spared. -/
theorem strict_force (node : Node) (young : Release → Bool) (s : Store) :
    GcReq.Strict ⟨false, true⟩ node young s :=
  ⟨rfl, fun _ _ h => by simpa [GcReq.spares] using h⟩

theorem GcReq.Strict.spares_iff (hreq : req.Strict node young s) (hs : s.Named) {rel : Release}
    (hrel : rel ∈ s.releases.rows) :
    req.spares (retainedSet node node.policy s.listReleases) young rel = true ↔
      rel.publisher = node.id ∨ s.Selected node.policy rel.ref := by
  rw [← reference_mem_retainedSet_iff hs hrel]
  exact ⟨hreq.2 rel hrel, fun h => by simp [GcReq.spares, h]⟩

/-- The hashes that are live in the end are those that are needed. -/
theorem live_iff_needed (hreq : req.Strict node young s) (hs : s.Named) (h : Blake3) :
    s.Live (collected req (retainedSet node node.policy s.listReleases) young s.listReleases) h ↔
      s.Needed node h := by
  have hout : ∀ rel ∈ s.releases.rows, rel.reference ∉ collected req
      (retainedSet node node.policy s.listReleases) young s.listReleases ↔
        rel.publisher = node.id ∨ s.Selected node.policy rel.ref := fun rel hrel =>
    (reference_notMem_collected hs req _ young hrel).trans (hreq.spares_iff hs hrel)
  constructor
  · rintro ⟨rel, hrel, hleft, hb⟩
    exact ⟨rel, ⟨Table.get_of_mem hrel, (hout rel hrel).mp hleft⟩, hb⟩
  · rintro ⟨rel, ⟨hget, hkept⟩, hb⟩
    have hrel := Table.mem_of_get hget
    exact ⟨rel, hrel, (hout rel hrel).mpr hkept, hb⟩

/-- The three passes of a collection. -/
theorem final_gc (node : Node) (hs : s.Named) (req : GcReq) (young : Release → Bool) :
    (gc node req young).final s = (collectReferrers req).final
      ((sweepBlobsLocked req.dryRun (collected req (retainedSet node node.policy s.listReleases) young
        s.listReleases)).final
          ((collectReleases req (retainedSet node node.policy s.listReleases) young
            s.listReleases).final s)) := by
  set keep := retainedSet node node.policy s.listReleases
  have hread : (read : Op Store).result s = .ok s := rfl
  have hvalid : ∀ rel ∈ s.listReleases, validateName rel.name = .ok () ∧
      validateTag rel.payload.tag = .ok () := fun rel hrel =>
    hs _ _ (Store.mem_listReleases.mp hrel)
  have hcollect := collectReleases_result req keep young hvalid s
  set t := (collectReleases req keep young s.listReleases).final s with ht
  have hsweep := sweepBlobsLocked_result req.dryRun (collected req keep young s.listReleases) t
  obtain ⟨u, hu⟩ := returns_collectReferrers req
    ((sweepBlobsLocked req.dryRun (collected req keep young s.listReleases)).final t)
  rw [gc, final_bind_of_ok hread, final_read, final_bind_of_ok hcollect, ← ht,
    final_bind_of_ok hsweep, final_bind_of_ok hu, final_pure]

/-- What such a collection leaves. -/
theorem settled_gc (hreq : req.Strict node young s) (hs : s.Named) :
    Settled node s ((gc node req young).final s) := by
  have hfinal := final_gc node hs req young
  set keep := retainedSet node node.policy s.listReleases with hkeep
  set removed := collected req keep young s.listReleases with hremoved
  set t := (collectReleases req keep young s.listReleases).final s with ht
  set v := (sweepBlobsLocked req.dryRun removed).final t with hv
  -- each part of the store is changed by one of the three passes
  have hemits : ∀ part, part ≠ .releases → Emits (fun w => w.part ≠ part)
      (collectReleases req keep young s.listReleases) := fun part hpart =>
    emits_collectReleases (fun _ => hpart.symm) _ _ _ _
  have hemits' : ∀ part, part ≠ .pins → part ≠ .digests →
      Emits (fun w => w.part ≠ part) (sweepBlobsLocked req.dryRun removed) := fun part hp hd =>
    emits_sweepBlobsLocked (fun _ => hp.symm) (fun _ => hd.symm) _ _
  have hemits'' : ∀ part, part ≠ .referrers →
      Emits (fun w => w.part ≠ part) (collectReferrers req : Op Unit) := fun part hr =>
    emits_collectReferrers (fun _ _ => hr.symm) req
  have hlive : ∀ h, t.Live removed h ↔ s.Needed node h := fun h =>
    (live_collected hs _ keep young h).trans (live_iff_needed hreq hs h)
  obtain ⟨hpins, hdigests⟩ := sweepBlobsLocked_spec removed t
  rw [hreq.1] at hv
  simp only [hlive, ← hv] at hpins hdigests
  have htpins : t.pins = s.pins := pins_final (hemits .pins (by decide))
  have htdigests : t.digests = s.digests := digests_final (hemits .digests (by decide))
  have hremains : ∀ d e, v.digests.get d = some e ↔ s.Remains node d e := by
    intro d e
    rw [hdigests, htdigests, htpins]
    rfl
  rw [hfinal]
  refine ⟨fun q rel => ?_, fun d p => ?_, fun d e => ?_, fun k r => ?_, ?_⟩
  · rw [← hfinal, get_gc hs]
    constructor
    · intro h
      split at h
      · cases h
      · rename_i hno
        obtain rfl := Table.key_of_get h
        have hrel := Table.mem_of_get h
        refine ⟨h, h, (hreq.spares_iff hs hrel).mp ?_⟩
        by_contra hgone
        exact hno ⟨rel, hrel, Bool.eq_false_of_not_eq_true hgone, hreq.1, rfl⟩
    · rintro ⟨hget, hkept⟩
      rw [if_neg, hget]
      rintro ⟨r, hr, hspared, -, hq⟩
      -- the record under the reference is the one that is kept
      cases (hq ▸ Table.get_of_mem hr).symm.trans hget
      rw [(hreq.spares_iff hs hr).mpr hkept.2] at hspared
      cases hspared
  · rw [pins_final (hemits'' .pins (by decide)), hpins, htpins]
  · rw [digests_final (hemits'' .digests (by decide)), hremains]
  · rw [referrers_collectReferrers hreq.1, referrers_final (hemits' .referrers (by decide) (by decide)),
      referrers_final (hemits .referrers (by decide)), Table.has_iff]
    simp only [hremains]
  · rw [blobs_final (hemits'' .blobs (by decide)),
      blobs_final (hemits' .blobs (by decide) (by decide)),
      blobs_final (hemits .blobs (by decide))]

/-! ### What enforcing windows leaves -/

theorem Between.trans (hs : s.Named) (h : Between node s t) (h' : Between node t u) :
    Between node s u where
  releases q rel hrel := h.releases q rel (h'.releases q rel hrel)
  kept rel hrel := h'.kept rel ((h.kept_iff hs).mpr hrel)
  pins d p hp := h.pins d p (h'.pins d p hp)
  pinned d p hp hneed := h'.pinned d p (h.pinned d p hp hneed) ((h.needed_iff hs).mpr hneed)
  digests d e he := by
    obtain ⟨hget, hpins⟩ := h'.digests d e he
    obtain ⟨hget', hpins'⟩ := h.digests d e hget
    exact ⟨hget', fun p hp => hpins p (hpins' p hp)⟩
  remains d e he := h'.remains d e ((h.remains_iff hs).mpr he)
  referrers k r hr := h.referrers k r (h'.referrers k r hr)
  listed k r e hr he := h'.listed k r e (h.listed k r e hr he) ((h.remains_iff hs).mpr he)
  blobs := h'.blobs.trans h.blobs

/-- An image is left alone, or its records outside the window are removed; then, if any was, there is
a sweep. -/
theorem enforceWindow_cases (node : Node) (hs : s.Named) (publisher : PublisherId) (name : Str) :
    (enforceWindow node publisher name).final s = s ∨ ∃ held k,
      validateName name = .ok () ∧ (localReleasesOf publisher name).result s = .ok held ∧
        let m := removeOutside publisher name
          ((node.policy.window publisher name).select (tagTimes held)) held
        m.result s = .ok k ∧ (enforceWindow node publisher name).final s =
          if 0 < k then (sweepBlobsLocked false []).final (m.final s) else m.final s := by
  by_cases hown : publisher = node.id
  · exact Or.inl (by rw [enforceWindow, if_pos hown, final_pure])
  · cases hw : (node.policy.window publisher name).isEmpty with
    | true => exact Or.inl (by simp [enforceWindow, hw])
    | false =>
        simp only [enforceWindow, hown, hw, if_false, Bool.false_eq_true]
        have hquiet := (final_of_emits_false (emits_localReleasesOf publisher name) s).2
        cases hheld : (localReleasesOf publisher name).result s with
        | error e => exact Or.inl (by rw [final_bind_of_error hheld, hquiet])
        | ok held =>
            obtain ⟨ts, hts, -⟩ := result_bind_ok.mp hheld
            obtain ⟨u, hn, -⟩ := result_bind_ok.mp hts
            obtain ⟨hmem, -, -⟩ := localReleasesOf_ok hheld
            obtain ⟨⟨k, hk⟩, -⟩ := removeOutside_spec publisher
              ((node.policy.window publisher name).select (tagTimes held)) hn
              (fun rel hrel => (hs _ _ ((hmem rel).mp hrel)).2) s
            refine Or.inr ⟨held, k, hn, rfl, hk, ?_⟩
            rw [final_bind_of_ok hheld, hquiet, final_bind_of_ok hk]
            split
            · exact final_bind_pure _ _ _
            · rfl

/-- Pins and entries go by a sweep alone. -/
theorem enforceWindow_final (node : Node) (hs : s.Named) (publisher : PublisherId) (name : Str) :
    ∃ t : Store, t.pins = s.pins ∧ t.digests = s.digests ∧
      ((enforceWindow node publisher name).final s = t ∨
        (enforceWindow node publisher name).final s = (sweepBlobsLocked false []).final t) := by
  rcases enforceWindow_cases node hs publisher name with h | ⟨held, k, -, -, -, h⟩
  · exact ⟨s, rfl, rfl, Or.inl h⟩
  · have hemits := emits_removeOutside (P := fun w => w.part = .releases) (fun _ => rfl) publisher name
      ((node.policy.window publisher name).select (tagTimes held)) held
    refine ⟨_, pins_final (hemits.mono fun w hw => by simp [hw]),
      digests_final (hemits.mono fun w hw => by simp [hw]), ?_⟩
    rw [h]
    split
    · exact Or.inr rfl
    · exact Or.inl rfl

/-- Enforcing one window removes only what a collection removes. -/
theorem between_enforceWindow (node : Node) (hs : s.Named) (publisher : PublisherId) (name : Str) :
    Between node s ((enforceWindow node publisher name).final s) := by
  set t := (enforceWindow node publisher name).final s with ht
  have hsub : ∀ q rel, t.releases.get q = some rel → s.releases.get q = some rel := by
    intro q rel hget
    rcases written_of_get_final hget with hget | ⟨-, hw⟩
    · exact hget
    · exact absurd rfl (emits_enforceWindow node publisher name s _ hw rel)
  have hkept : ∀ rel, s.Kept node rel → t.releases.get rel.ref = some rel := by
    rintro rel ⟨hget, hkeep⟩
    have hrel := Table.mem_of_get hget
    by_cases himage : rel.publisher = publisher ∧ rel.name = name
    · obtain ⟨rfl, rfl⟩ := himage
      have hnot : t.releases.get rel.ref ≠ none := fun hnone => by
        obtain ⟨-, hother, hout⟩ := (get_enforceWindow_eq_none hs hrel).mp hnone
        exact hkeep.elim hother hout
      obtain ⟨r, hr⟩ := Option.ne_none_iff_exists'.mp hnot
      rw [hr, hsub _ _ hr |>.symm.trans hget]
    · rw [ht, get_enforceWindow_of_image hs himage, hget]
  have hreferrers : t.referrers = s.referrers := referrers_final (emits_enforceWindow_of
    (fun _ => by simp [Write.part]) (fun _ => by simp [Write.part])
    (fun _ => by simp [Write.part]) node publisher name)
  have hblobs : t.blobs = s.blobs := blobs_final (emits_enforceWindow_of
    (fun _ => by simp [Write.part]) (fun _ => by simp [Write.part])
    (fun _ => by simp [Write.part]) node publisher name)
  obtain ⟨v, hvpins, hvdigests, hv⟩ := enforceWindow_final node hs publisher name
  rcases hv with hv | hv
  · -- no sweep: pins and entries are as they were
    have hpins : t.pins = s.pins := (congrArg Store.pins hv).trans hvpins
    have hdigests : t.digests = s.digests := (congrArg Store.digests hv).trans hvdigests
    exact ⟨hsub, hkept, fun d p h => hpins ▸ h, fun d p h _ => hpins.symm ▸ h,
      fun d e h => ⟨hdigests ▸ h, fun p hp => hpins.symm ▸ hp⟩, fun d e h => hdigests.symm ▸ h.1,
      fun k r h => hreferrers ▸ h, fun k r e h _ => hreferrers.symm ▸ h, hblobs⟩
  · -- a sweep: what is needed is live
    obtain ⟨hpins, hdigests⟩ := sweepBlobsLocked_spec [] v
    rw [← hv, ← ht, hvpins] at hpins
    rw [← hv, ← ht, hvpins, hvdigests] at hdigests
    have hrows : t.releases = v.releases := by
      rw [ht, hv, releases_sweepBlobsLocked]
    have hlive : ∀ h, s.Needed node h → v.Live [] h := by
      rintro h ⟨rel, hrel, hb⟩
      exact ⟨rel, hrows ▸ Table.mem_of_get (hkept rel hrel), List.not_mem_nil, hb⟩
    refine ⟨hsub, hkept, fun d p h => ((hpins d p).mp h).1,
      fun d p h hneed => (hpins d p).mpr ⟨h, hlive _ hneed⟩, fun d e h => ?_, fun d e h => ?_,
      fun k r h => hreferrers ▸ h, fun k r e h _ => hreferrers.symm ▸ h, hblobs⟩
    · obtain ⟨hget, hall, -⟩ := (hdigests d e).mp h
      exact ⟨hget, fun p hp => (hpins d p).mpr ⟨hp, hall p hp⟩⟩
    · obtain ⟨hget, hall, hneed⟩ := h
      exact (hdigests d e).mpr ⟨hget, fun p hp => hlive _ (hall p hp), hlive _ hneed⟩

theorem between_enforceRepos (node : Node) (repos : List (PublisherId × Str)) (hs : s.Named) :
    Between node s ((enforceRepos node repos).final s) := by
  induction repos generalizing s with
  | nil => exact Between.refl node s
  | cons repo repos ih =>
      have hfirst := between_enforceWindow node hs repo.1 repo.2
      cases hr : (enforceWindow node repo.1 repo.2).result s with
      | error e =>
          rw [enforceRepos, final_bind_of_error hr]
          exact hfirst
      | ok u =>
          rw [enforceRepos, final_bind_of_ok hr]
          exact hfirst.trans hs (ih (hfirst.named hs))

theorem between_enforceAllWindows (node : Node) (hs : s.Named) :
    Between node s ((enforceAllWindows node).final s) :=
  between_enforceRepos node (reposOf s.listReleases) hs

/-! ### The collection -/

/-- The hashes that are needed are those of the records left. -/
theorem Settled.live_iff (h : Settled node s t) {x : Blake3} : t.Live [] x ↔ s.Needed node x := by
  constructor
  · rintro ⟨rel, hrel, -, hb⟩
    exact ⟨rel, ((h.releases rel.ref rel).mp (Table.get_of_mem hrel)).2, hb⟩
  · rintro ⟨rel, hkept, hb⟩
    have hget := (h.releases rel.ref rel).mpr ⟨hkept.1, hkept⟩
    exact ⟨rel, Table.mem_of_get hget, List.not_mem_nil, hb⟩

/-- Nothing is left that would not be kept. -/
theorem Settled.forecast_eq (h : Settled node s t) (hs : s.Named) (force : Bool) :
    forecast node ⟨false, force⟩ young t = ⟨false, [], 0, 0⟩ := by
  have ht := h.between.named hs
  have hnone : collected ⟨false, force⟩ (retainedSet node node.policy t.listReleases) young
      t.listReleases = [] := by
    rw [collected, List.map_eq_nil_iff, List.filter_eq_nil_iff]
    intro rel hrel
    have hget := Store.mem_listReleases.mp hrel
    have hkept := (h.between.kept_iff hs).mpr ((h.releases _ _).mp hget).2
    have hin := (reference_mem_retainedSet_iff ht (Table.mem_of_get hget)).mpr hkept.2
    simp [GcReq.spares, hin]
  have hdead : deadPins (liveHashes t []) t.listPins = [] := by
    rw [deadPins, List.filter_eq_nil_iff]
    intro p hp
    have hget : t.pins.get p.1 = some p := Table.get_of_mem hp
    have hpin := ((h.pins _ _).mp hget).2
    simpa [mem_liveHashes] using h.live_iff.mpr hpin
  simp only [forecast, hnone, hdead]
  rfl

/-- A second collection finds nothing to collect, so it is strict whether it is forced or not. -/
theorem Settled.strict (h : Settled node s t) (hs : s.Named) (force : Bool) :
    GcReq.Strict ⟨false, force⟩ node young t := by
  refine ⟨rfl, fun rel hrel _ => ?_⟩
  have hkept := (h.between.kept_iff hs).mpr ((h.releases _ _).mp (Table.get_of_mem hrel)).2
  exact (reference_mem_retainedSet_iff (h.between.named hs) hrel).mpr hkept.2

/-- **A forced collection settles the store.**  The records left are the node's own and those that
the windows select; the pins left are those of the hashes that a record left references, and the
index entries left are those of such hashes whose digest has no pin of another hash that is not
referenced.  So a blob of a record left that is pinned and indexed under its own hash stays so.  A
second collection removes nothing, and enforcing all windows before the first makes no
difference. -/
theorem gc_settles (hs : s.Named) (young young' : Release → Bool) (force : Bool) :
    let t := (gc node ⟨false, true⟩ young).final s
    (∀ q rel, t.releases.get q = some rel ↔ s.releases.get q = some rel ∧
      (q.publisher = node.id ∨ s.Selected node.policy q)) ∧
    (∀ d p, t.pins.get d = some p ↔ s.pins.get d = some p ∧ t.Live [] p.2) ∧
    (∀ d e, t.digests.get d = some e ↔
      s.digests.get d = some e ∧ (∀ p ∈ s.pins.get d, t.Live [] p.2) ∧ t.Live [] e.hash) ∧
    (∀ rel ∈ t.releases.rows, ∀ b ∈ rel.allBlobs, s.pins.get b.digest = some (b.digest, b.hash) →
      t.pins.get b.digest = some (b.digest, b.hash) ∧
        ∀ e, s.digests.get b.digest = some e → e.hash = b.hash → t.digests.get b.digest = some e) ∧
    ((gc node ⟨false, force⟩ young').result t = .ok ⟨false, [], 0, 0⟩ ∧
      t.Same ((gc node ⟨false, force⟩ young').final t)) ∧
    t.Same ((gc node ⟨false, true⟩ young').final ((enforceAllWindows node).final s)) := by
  intro t
  have ht : Settled node s t := settled_gc (strict_force node young s) hs
  have htn := ht.between.named hs
  have hpins : ∀ d p, t.pins.get d = some p ↔ s.pins.get d = some p ∧ t.Live [] p.2 := fun d p =>
    (ht.pins d p).trans (and_congr_right' ht.live_iff.symm)
  have hdigests : ∀ d e, t.digests.get d = some e ↔
      s.digests.get d = some e ∧ (∀ p ∈ s.pins.get d, t.Live [] p.2) ∧ t.Live [] e.hash := by
    intro d e
    simp only [ht.live_iff]
    exact ht.digests d e
  refine ⟨fun q rel => ?_, hpins, hdigests, fun rel hrel b hb hpin => ?_, ⟨?_, ?_⟩, ?_⟩
  · rw [ht.releases]
    constructor
    · rintro ⟨hget, hkept⟩
      exact ⟨hget, Table.key_of_get hget ▸ hkept.2⟩
    · rintro ⟨hget, hkeep⟩
      obtain rfl := Table.key_of_get hget
      exact ⟨hget, hget, hkeep⟩
  · have hlive : t.Live [] b.hash := ⟨rel, hrel, List.not_mem_nil, b, hb, rfl⟩
    refine ⟨(hpins _ _).mpr ⟨hpin, hlive⟩, fun e he heq => (hdigests _ _).mpr ⟨he, ?_, ?_⟩⟩
    · intro p hp
      cases hpin.symm.trans hp
      exact hlive
    · exact heq.symm ▸ hlive
  · rw [gc_result node htn, ht.forecast_eq hs]
  · exact ht.same (ht.between.settled hs (settled_gc (ht.strict hs force) htn))
  · have hbetween := between_enforceAllWindows node hs
    exact ht.same (hbetween.settled hs
      (settled_gc (strict_force node young' _) (hbetween.named hs)))

end

namespace Sample

/-- The manifest of the releases held is pinned to other content, that no release references. -/
def pinnedElsewhere : @Store sample :=
  letI := sample
  heldTags.apply (.tag index.digest config.hash)

end Sample

/-- Two tags are held, and the window keeps the last. -/
theorem gc_settles_at : letI := sample
    let node := Sample.node Sample.latest
    let s := Sample.heldTags
    let t := (gc node ⟨false, true⟩ fun _ => false).final s
    (∀ q rel, t.releases.get q = some rel ↔ s.releases.get q = some rel ∧
      (q.publisher = node.id ∨ s.Selected node.policy q)) ∧
    (∀ d p, t.pins.get d = some p ↔ s.pins.get d = some p ∧ t.Live [] p.2) ∧
    (∀ d e, t.digests.get d = some e ↔
      s.digests.get d = some e ∧ (∀ p ∈ s.pins.get d, t.Live [] p.2) ∧ t.Live [] e.hash) ∧
    (∀ rel ∈ t.releases.rows, ∀ b ∈ rel.allBlobs, s.pins.get b.digest = some (b.digest, b.hash) →
      t.pins.get b.digest = some (b.digest, b.hash) ∧
        ∀ e, s.digests.get b.digest = some e → e.hash = b.hash → t.digests.get b.digest = some e) ∧
    ((gc node ⟨false, false⟩ fun _ => true).result t = .ok ⟨false, [], 0, 0⟩ ∧
      t.Same ((gc node ⟨false, false⟩ fun _ => true).final t)) ∧
    t.Same ((gc node ⟨false, true⟩ fun _ => true).final ((enforceAllWindows node).final s)) := by
  let _ := sample
  have hnamed := named_heldTags
  revert hnamed
  generalize Sample.heldTags = s
  intro hnamed
  exact gc_settles hnamed (fun _ => false) (fun _ => true) false

/-- Otherwise a release that is left may lose the index entry of its manifest. -/
theorem gc_drops_entry : letI := sample
    let t := (gc (Sample.node Sample.latest) ⟨false, true⟩ fun _ => false).final
      Sample.pinnedElsewhere
    ∃ rel ∈ t.releases.rows, ∃ b ∈ rel.allBlobs,
      Sample.pinnedElsewhere.digests.get b.digest = some b ∧ t.digests.get b.digest = none := by
  decide +kernel

end Ocid
