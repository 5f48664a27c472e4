import Ocid.Retention.Pruning

/-!
# Retention — Swept — what a sweep leaves and what it reports

A sweep drops the pins whose hash is not live, each with the index entry of its digest, and then the
index entries whose hash is neither live nor pinned.  Pins and entries are tables by digest, so what
one pin's removal does is not seen by the others: the counts are those of the store the sweep starts
from (`sweepPins_spec`), and what is left is said digest by digest (`sweepBlobsLocked_spec`).
-/

namespace Ocid

open Call

section
variable [External] {s : Store} {live pinned : List Blake3} {d : Digest}

/-- The pins that keep nothing alive. -/
def deadPins (live : List Blake3) (pins : List (Digest × Blake3)) : List (Digest × Blake3) :=
  pins.filter fun p => p.2 ∉ live

/-- The sizes of the index entries under the digests of pins. -/
def bytesOf (s : Store) (pins : List (Digest × Blake3)) : ℕ :=
  (pins.map fun p => ((s.blobRef p.1).map BlobRef.size).getD 0).sum

/-! ### One blob -/

theorem removeBlobRef_spec (digest : Digest) (s : Store) :
    (∃ b, (removeBlobRef digest).result s = .ok b) ∧
      ((removeBlobRef digest).final s).pins = s.pins ∧
      ∀ d, ((removeBlobRef digest).final s).digests.get d =
        if digest = d then none else s.digests.get d := by
  have happly : removeBlobRef digest s = if s.digests.has digest then
      ([.dropBlobRef digest], .ok true) else ([], .ok false) := by
    rw [removeBlobRef, read_bind_apply]
    split <;> rfl
  rw [result, final, journal, happly]
  cases hhas : s.digests.has digest with
  | true => exact ⟨⟨true, rfl⟩, rfl, fun d => Table.get_erase _ _ _⟩
  | false =>
      refine ⟨⟨false, rfl⟩, rfl, fun d => ?_⟩
      show s.digests.get d = if digest = d then none else s.digests.get d
      by_cases hd : digest = d
      · rw [if_pos hd, ← hd, Table.has_eq_false_iff.mp hhas]
      · rw [if_neg hd]

/-- The pin and the entry of the digest are gone, but for a dry run. -/
theorem sweepBlob_spec (dryRun : Bool) (digest : Digest) (s : Store) :
    (sweepBlob dryRun digest).result s = .ok () ∧
      (∀ d, ((sweepBlob dryRun digest).final s).pins.get d =
        if dryRun = false ∧ digest = d then none else s.pins.get d) ∧
      ∀ d, ((sweepBlob dryRun digest).final s).digests.get d =
        if dryRun = false ∧ digest = d then none else s.digests.get d := by
  rw [sweepBlob]
  cases dryRun with
  | true => simp
  | false =>
      have hunpin : (unpinBlob digest).result s = .ok () := rfl
      obtain ⟨⟨b, hb⟩, hpins, hdigests⟩ := removeBlobRef_spec digest ((unpinBlob digest).final s)
      simp only [Bool.false_eq_true, if_false, true_and]
      rw [result_bind_of_ok hunpin, final_bind_of_ok hunpin, result_bind_of_ok hb,
        final_bind_of_ok hb]
      refine ⟨rfl, fun d => ?_, fun d => ?_⟩
      · rw [final_pure, hpins]
        exact Table.get_erase _ _ _
      · rw [final_pure, hdigests]
        rfl

/-! ### All pins -/

omit [External] in
/-- What is dropped at the first digest or at one of the others. -/
theorem dropped_cons {α : Type} {b : Prop} [Decidable b] {digest : Digest} {ds : List Digest}
    {x : Option α} : (if b ∧ d ∈ ds then none else if b ∧ digest = d then none else x) =
      if b ∧ d ∈ digest :: ds then none else x := by
  by_cases hb : b
  · by_cases hd : d ∈ ds
    · simp [hb, hd]
    · simp [hb, hd, eq_comm]
  · simp [hb]

/-- The dead pins are counted and dropped, with the entries of their digests. -/
theorem sweepPins_spec (dryRun : Bool) (live : List Blake3) {pins : List (Digest × Blake3)}
    (hnodup : (pins.map Prod.fst).Nodup) (s : Store) :
    (sweepPins dryRun live pins).result s =
        .ok ((deadPins live pins).length, bytesOf s (deadPins live pins)) ∧
      (∀ d, ((sweepPins dryRun live pins).final s).pins.get d =
        if dryRun = false ∧ d ∈ (deadPins live pins).map Prod.fst then none else s.pins.get d) ∧
      ∀ d, ((sweepPins dryRun live pins).final s).digests.get d =
        if dryRun = false ∧ d ∈ (deadPins live pins).map Prod.fst then none
        else s.digests.get d := by
  induction pins generalizing s with
  | nil => simp [sweepPins, deadPins, bytesOf]
  | cons p pins ih =>
      obtain ⟨digest, hash⟩ := p
      obtain ⟨hnew, hnodup⟩ := List.nodup_cons.mp hnodup
      by_cases hlive : hash ∈ live
      · rw [sweepPins, if_pos hlive, deadPins, List.filter_cons_of_neg (by simpa using hlive)]
        exact ih hnodup s
      · have hdead : deadPins live ((digest, hash) :: pins) =
            (digest, hash) :: deadPins live pins :=
          List.filter_cons_of_pos (by simpa using hlive)
        obtain ⟨hblob, hpins, hdigests⟩ := sweepBlob_spec dryRun digest s
        obtain ⟨hrest, hpins', hdigests'⟩ := ih hnodup ((sweepBlob dryRun digest).final s)
        have hread : (read : Op Store).result s = .ok s := rfl
        -- the other pins are of other digests, whose entries are still there
        have hbytes : bytesOf ((sweepBlob dryRun digest).final s) (deadPins live pins) =
            bytesOf s (deadPins live pins) := by
          refine congrArg List.sum (List.map_congr_left fun q hq => ?_)
          have hmem : q.1 ∈ pins.map Prod.fst := List.mem_map_of_mem (List.mem_filter.mp hq).1
          have hne : digest ≠ q.1 := fun heq => hnew (heq ▸ hmem)
          rw [Store.blobRef, Store.blobRef, hdigests, if_neg fun h => hne h.2]
        rw [hbytes] at hrest
        rw [sweepPins, if_neg hlive, result_bind_of_ok hread, final_bind_of_ok hread, final_read,
          result_bind_of_ok hblob, final_bind_of_ok hblob, result_bind_of_ok hrest,
          final_bind_of_ok hrest, hdead]
        refine ⟨?_, fun d => ?_, fun d => ?_⟩
        · simp [bytesOf, Nat.add_comm]
        · rw [final_pure, hpins', hpins, List.map_cons, dropped_cons]
        · rw [final_pure, hdigests', hdigests, List.map_cons, dropped_cons]

/-! ### Stray entries -/

/-- The entries that are neither live nor pinned are dropped. -/
theorem sweepEntries_spec (dryRun : Bool) (live pinned : List Blake3) (bs : List BlobRef)
    (s : Store) :
    (sweepEntries dryRun live pinned bs).result s = .ok () ∧
      ((sweepEntries dryRun live pinned bs).final s).pins = s.pins ∧
      ∀ d, ((sweepEntries dryRun live pinned bs).final s).digests.get d =
        if dryRun = false ∧ d ∈ (bs.filter fun b => b.hash ∉ live ∧ b.hash ∉ pinned).map
          BlobRef.digest then none else s.digests.get d := by
  induction bs generalizing s with
  | nil => simp [sweepEntries]
  | cons b bs ih =>
      rw [sweepEntries]
      by_cases hstray : b.hash ∉ live ∧ b.hash ∉ pinned
      · rw [List.filter_cons_of_pos (by simpa using hstray), List.map_cons]
        by_cases hdry : dryRun = false
        · obtain ⟨⟨gone, hgone⟩, hpins, hdigests⟩ := removeBlobRef_spec b.digest s
          obtain ⟨hrest, hpins', hdigests'⟩ := ih ((removeBlobRef b.digest).final s)
          rw [if_pos ⟨hstray.1, hstray.2, hdry⟩, result_bind_of_ok hgone, final_bind_of_ok hgone]
          refine ⟨hrest, hpins'.trans hpins, fun d => ?_⟩
          rw [hdigests', hdigests, ← dropped_cons]
          simp only [hdry, true_and]
        · rw [if_neg fun h => hdry h.2.2]
          simpa [hdry] using ih s
      · rw [List.filter_cons_of_neg (by simpa using hstray),
          if_neg fun h => hstray ⟨h.1, h.2.1⟩]
        exact ih s

/-! ### The sweep -/

/-- The hash is one of a blob of a release that is not ignored. -/
def Store.Live (s : Store) (ignore : List Str) (h : Blake3) : Prop :=
  ∃ rel ∈ s.releases.rows, rel.reference ∉ ignore ∧ ∃ b ∈ rel.allBlobs, b.hash = h

theorem mem_liveHashes {ignore : List Str} {h : Blake3} :
    h ∈ liveHashes s ignore ↔ s.Live ignore h := by
  simp only [liveHashes, List.mem_flatMap, List.mem_filter, List.mem_map, decide_eq_true_eq,
    Store.listReleases, List.mem_insertionSort, Store.Live, and_assoc]

theorem mem_deadPins {live : List Blake3} {s : Store} {d : Digest} :
    d ∈ (deadPins live s.listPins).map Prod.fst ↔
      ∃ p, s.pins.get d = some p ∧ p.2 ∉ live := by
  simp only [deadPins, Store.listPins, List.mem_map, List.mem_filter, decide_eq_true_eq]
  constructor
  · rintro ⟨p, ⟨hp, hdead⟩, rfl⟩
    have hget : s.pins.get p.1 = some p := Table.get_of_mem hp
    exact ⟨p, hget, hdead⟩
  · rintro ⟨p, hget, hdead⟩
    exact ⟨p, ⟨Table.mem_of_get hget, hdead⟩, Table.key_of_get hget⟩

/-- A dry run writes nothing. -/
theorem emits_sweepBlobsLocked_dry (ignore : List Str) :
    Emits (fun _ => False) (sweepBlobsLocked true ignore) := by
  have hpins : ∀ live pins, Emits (fun _ => False) (sweepPins true live pins) := by
    intro live pins
    induction pins with
    | nil => exact Emits.pure _
    | cons p pins ih =>
        exact Emits.ite (fun _ => ih) fun _ => Emits.read.bind fun _ => (Emits.pure ()).bind fun _ =>
          ih.bind fun _ => Emits.pure _
  have hentries : ∀ live pinned bs, Emits (fun _ => False) (sweepEntries true live pinned bs) := by
    intro live pinned bs
    induction bs with
    | nil => exact Emits.pure _
    | cons b bs ih => exact Emits.ite (fun h => nomatch h.2.2) fun _ => ih
  exact Emits.read.bind fun _ => (hpins _ _).bind fun _ => Emits.read.bind fun _ =>
    (hentries _ _ _).bind fun _ => Emits.pure _

/-- What a sweep reports. -/
theorem sweepBlobsLocked_result (dryRun : Bool) (ignore : List Str) (s : Store) :
    (sweepBlobsLocked dryRun ignore).result s =
      .ok ((deadPins (liveHashes s ignore) s.listPins).length,
        bytesOf s (deadPins (liveHashes s ignore) s.listPins)) := by
  have hread : ∀ t : Store, (read : Op Store).result t = .ok t := fun _ => rfl
  obtain ⟨hpins, -, -⟩ := sweepPins_spec dryRun (liveHashes s ignore)
    (show (s.listPins.map Prod.fst).Nodup from s.pins.nodup) s
  rw [sweepBlobsLocked, result_bind_of_ok (hread s), final_read, result_bind_of_ok hpins,
    result_bind_of_ok (hread _), final_read]
  exact result_bind_of_ok (sweepEntries_spec _ _ _ _ _).1 _

/-- What a sweep leaves: the pins of live hashes, and the entries of live hashes whose digest has no
dead pin. -/
theorem sweepBlobsLocked_spec (ignore : List Str) (s : Store) :
    (∀ d p, ((sweepBlobsLocked false ignore).final s).pins.get d = some p ↔
        s.pins.get d = some p ∧ s.Live ignore p.2) ∧
      ∀ d e, ((sweepBlobsLocked false ignore).final s).digests.get d = some e ↔
        s.digests.get d = some e ∧ (∀ p ∈ s.pins.get d, s.Live ignore p.2) ∧
          s.Live ignore e.hash := by
  have hread : ∀ t : Store, (read : Op Store).result t = .ok t := fun _ => rfl
  obtain ⟨hok, hpins, hdigests⟩ := sweepPins_spec false (liveHashes s ignore)
    (show (s.listPins.map Prod.fst).Nodup from s.pins.nodup) s
  simp only [true_and, mem_deadPins] at hpins hdigests
  generalize ht : (sweepPins false (liveHashes s ignore) s.listPins).final s = t at hpins hdigests
  obtain ⟨hstray, hpins', hdigests'⟩ := sweepEntries_spec false (liveHashes s ignore)
    (t.listPins.map Prod.snd) t.listBlobRefs t
  rw [sweepBlobsLocked, final_bind_of_ok (hread s), final_read, final_bind_of_ok hok, ht,
    final_bind_of_ok (hread t), final_read, final_bind_of_ok hstray, final_pure, hpins']
  have hpin : ∀ d p, t.pins.get d = some p ↔ s.pins.get d = some p ∧ s.Live ignore p.2 := by
    intro d p
    rw [hpins, ← mem_liveHashes]
    constructor
    · intro h
      split at h
      · cases h
      · rename_i hdead
        exact ⟨h, by_contra fun hp => hdead ⟨p, h, hp⟩⟩
    · rintro ⟨hget, hlive⟩
      rw [if_neg, hget]
      rintro ⟨p', hget', hdead⟩
      cases hget.symm.trans hget'
      exact hdead hlive
  refine ⟨hpin, fun d e => ?_⟩
  -- a pin that is left is of a live hash
  have hpinned : ∀ h, h ∈ t.listPins.map Prod.snd → s.Live ignore h := by
    intro h hmem
    obtain ⟨p, hp, rfl⟩ := List.mem_map.mp hmem
    have hget : t.pins.get p.1 = some p := Table.get_of_mem hp
    exact ((hpin _ _).mp hget).2
  have hkept : t.digests.get d = some e ↔
      s.digests.get d = some e ∧ ∀ p ∈ s.pins.get d, s.Live ignore p.2 := by
    rw [hdigests]
    constructor
    · intro h
      split at h
      · cases h
      · rename_i hdead
        refine ⟨h, fun p hp => mem_liveHashes.mp (by_contra fun hlive => hdead ⟨p, hp, hlive⟩)⟩
    · rintro ⟨hget, hlive⟩
      rw [if_neg, hget]
      rintro ⟨p, hp, hdead⟩
      exact hdead (mem_liveHashes.mpr (hlive p hp))
  rw [hdigests', ← and_assoc, ← hkept]
  simp only [true_and]
  constructor
  · intro h
    split at h
    · cases h
    · rename_i hstay
      refine ⟨h, ?_⟩
      by_contra hdead
      refine hstay (List.mem_map.mpr ⟨e, List.mem_filter.mpr ⟨Table.mem_of_get h, ?_⟩,
        Table.key_of_get h⟩)
      exact decide_eq_true ⟨mt mem_liveHashes.mp hdead, mt (hpinned _) hdead⟩
  · rintro ⟨hget, hlive⟩
    rw [if_neg, hget]
    intro hmem
    obtain ⟨e', he', hd⟩ := List.mem_map.mp hmem
    obtain ⟨hrow, hdead⟩ := List.mem_filter.mp he'
    cases hget.symm.trans (hd ▸ Table.get_of_mem hrow)
    exact (of_decide_eq_true hdead).1 (mem_liveHashes.mpr hlive)

end

end Ocid
