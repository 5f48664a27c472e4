import Ocid.Daemon.Registry

/-!
# Retention — Held — blobs that are pinned, indexed and here

`Holds s b` says that the store keeps the blob `b` of a record.  Nothing but dropping a pin, an
entry or content can undo it: `Retains` is what every other change of a store does, and
`Indexed` is what it keeps of the whole store.  A blob may be found while a sweep has dropped its
pin and not yet its entry; `d` is the digest of that blob, if there is one.
-/

namespace Ocid

open Call

variable [External]

/-- The blob is pinned on its hash and indexed under it, and its content is here. -/
structure Holds (s : Store) (b : BlobRef) : Prop where
  pin : s.pins.get b.digest = some (b.digest, b.hash)
  entry : ∃ e, s.digests.get b.digest = some e ∧ e.hash = b.hash
  data : s.hasHash b.hash = true

/-- Every pin is on content that is here, and every entry is pinned on its hash, but that of `d`. -/
structure Indexed (s : Store) (d : Option Digest) : Prop where
  data : ∀ {k h}, s.pins.get k = some (k, h) → s.hasHash h = true
  entry : ∀ {e : BlobRef}, s.digests.get e.digest = some e →
    s.pins.get e.digest = some (e.digest, e.hash) ∨
      (d = some e.digest ∧ s.pins.get e.digest = none)

/-- `s'` has the pins and the content of `s`, and its entries under the same hashes. -/
structure Retains (s s' : Store) : Prop where
  pin : ∀ {k p}, s.pins.get k = some p → s'.pins.get k = some p
  entry : ∀ {e : BlobRef}, s.digests.get e.digest = some e →
    s.pins.get e.digest = some (e.digest, e.hash) →
      ∃ e', s'.digests.get e.digest = some e' ∧ e'.hash = e.hash
  data : ∀ {h}, s.hasHash h = true → s'.hasHash h = true

/-- Setting the pin of `k` to `h` does not move it. -/
def Store.Fits (s : Store) (k : Digest) (h : Blake3) : Prop := ∀ p ∈ s.pins.get k, p = (k, h)

instance (s : Store) (k : Digest) (h : Blake3) : Decidable (s.Fits k h) :=
  inferInstanceAs (Decidable (∀ p ∈ s.pins.get k, p = (k, h)))

section
variable {s s' s'' : Store} {d : Option Digest} {b : BlobRef}

theorem Retains.refl (s : Store) : Retains s s := ⟨id, fun he _ => ⟨_, he, rfl⟩, id⟩

theorem Retains.trans (h : Retains s s') (h' : Retains s' s'') : Retains s s'' where
  pin hp := h'.pin (h.pin hp)
  entry := by
    intro e he hp
    obtain ⟨e', he', hhash⟩ := h.entry he hp
    have hd : e'.digest = e.digest := Table.key_of_get he'
    rw [← hd] at he' hp
    obtain ⟨e'', he'', hhash'⟩ := h'.entry he' (by rw [hhash, h.pin hp, hd])
    exact ⟨e'', hd ▸ he'', hhash'.trans hhash⟩
  data hd := h'.data (h.data hd)

theorem Holds.retained (h : Holds s b) (hg : Retains s s') : Holds s' b where
  pin := hg.pin h.pin
  entry := by
    obtain ⟨e, he, hhash⟩ := h.entry
    have hd : e.digest = b.digest := Table.key_of_get he
    rw [← hd] at he
    obtain ⟨e', he', hhash'⟩ := hg.entry he (by rw [hd, hhash]; exact h.pin)
    exact ⟨e', hd ▸ he', hhash'.trans hhash⟩
  data := hg.data h.data

/-- An indexed blob is kept, unless its pin was just dropped. -/
theorem Indexed.holds (h : Indexed s d) (hb : s.digests.get b.digest = some b)
    (hd : d ≠ some b.digest) : Holds s b := by
  obtain hp | ⟨hd', -⟩ := h.entry hb
  · exact ⟨hp, ⟨b, hb, rfl⟩, h.data hp⟩
  · exact absurd hd' hd

/-- No sweep is between a pin and its entry. -/
theorem Indexed.mono (h : Indexed s none) : Indexed s d where
  data := h.data
  entry he := Or.inl ((h.entry he).resolve_right fun hd => by cases hd.1)

/-! ### Writing -/

@[simp] theorem pin_apply_tag (k j : Digest) (h : Blake3) :
    (s.apply (.tag k h)).pins.get j = if k = j then some (k, h) else s.pins.get j :=
  Table.get_put s.pins (k, h) j

@[simp] theorem pin_apply_untag (k j : Digest) :
    (s.apply (.untag k)).pins.get j = if k = j then none else s.pins.get j :=
  Table.get_erase s.pins k j

@[simp] theorem entry_apply_blobRef (k : Digest) :
    (s.apply (.blobRef b)).digests.get k = if b.digest = k then some b else s.digests.get k :=
  Table.get_put s.digests b k

@[simp] theorem entry_apply_dropBlobRef (k j : Digest) :
    (s.apply (.dropBlobRef k)).digests.get j = if k = j then none else s.digests.get j :=
  Table.get_erase s.digests k j

@[simp] theorem hasHash_apply_data (c : Bytes) (h : Blake3) :
    (s.apply (.data c)).hasHash h = (decide (External.blake3 c = h) || s.hasHash h) := by
  simp only [Store.apply, Store.hasHash, Table.has, Table.get_put]
  split <;> simp [*]

@[simp] theorem hasHash_apply_dropData (g h : Blake3) :
    (s.apply (.dropData g)).hasHash h = (decide (g ≠ h) && s.hasHash h) := by
  simp only [Store.apply, Store.hasHash, Table.has, Table.get_erase]
  split <;> simp [*]

/-- More content. -/
theorem Retains.data_apply (s : Store) (c : Bytes) : Retains s (s.apply (.data c)) where
  pin := id
  entry he _ := ⟨_, he, rfl⟩
  data h := by rw [hasHash_apply_data, h, Bool.or_true]

theorem Indexed.data_apply (hs : Indexed s d) (c : Bytes) : Indexed (s.apply (.data c)) d where
  data hp := (Retains.data_apply s c).data (hs.data hp)
  entry := hs.entry

/-- A pin that stays where it was, or that is new. -/
theorem Retains.tag_apply {k : Digest} {h : Blake3} (hfits : s.Fits k h) :
    Retains s (s.apply (.tag k h)) where
  pin := by
    intro j p hp
    rw [pin_apply_tag]
    by_cases hj : k = j
    · subst hj
      rw [if_pos rfl, hfits p hp]
    · rwa [if_neg hj]
  entry he _ := ⟨_, he, rfl⟩
  data := id

/-- Pinning content that is here. -/
theorem pinned_apply_tag {k : Digest} {h : Blake3} (hs : Indexed s d) (hdata : s.hasHash h = true)
    {j : Digest} {g : Blake3} (hp : (s.apply (.tag k h)).pins.get j = some (j, g)) :
    s.hasHash g = true := by
  rw [pin_apply_tag] at hp
  split at hp
  · cases hp
    exact hdata
  · exact hs.data hp

/-- Pinning content that is here, when an entry of that digest is under its hash. -/
theorem Indexed.tag_apply {k : Digest} {h : Blake3} (hs : Indexed s d)
    (hdata : s.hasHash h = true) (hentry : ∀ e, s.digests.get k = some e → e.hash = h) :
    Indexed (s.apply (.tag k h)) d where
  data hp := pinned_apply_tag hs hdata hp
  entry := by
    intro e he
    rw [pin_apply_tag]
    by_cases hk : k = e.digest
    · subst hk
      rw [if_pos rfl, hentry e he]
      exact Or.inl rfl
    · rw [if_neg hk]
      exact hs.entry he

/-- Writing the entry of a blob that is pinned on its hash. -/
theorem Retains.blobRef_apply (hpin : s.pins.get b.digest = some (b.digest, b.hash)) :
    Retains s (s.apply (.blobRef b)) where
  pin := id
  entry := by
    intro e he hp
    rw [entry_apply_blobRef]
    by_cases hd : b.digest = e.digest
    · rw [if_pos hd]
      rw [hd] at hpin
      exact ⟨b, rfl, congrArg Prod.snd (Option.some.inj (hpin.symm.trans hp))⟩
    · rw [if_neg hd]
      exact ⟨e, he, rfl⟩
  data := id

theorem Indexed.blobRef_apply (hs : Indexed s d)
    (hpin : s.pins.get b.digest = some (b.digest, b.hash)) : Indexed (s.apply (.blobRef b)) d where
  data := hs.data
  entry := by
    intro e he
    rw [entry_apply_blobRef] at he
    split at he
    · cases he
      exact Or.inl hpin
    · exact hs.entry he

/-- A blob that is pinned and then indexed is kept, wherever a sweep is. -/
theorem Indexed.recorded (hs : Indexed s d) (hfits : s.Fits b.digest b.hash)
    (hdata : s.hasHash b.hash = true) :
    let s' := (s.apply (.tag b.digest b.hash)).apply (.blobRef b)
    Retains s s' ∧ Indexed s' d ∧ Holds s' b := by
  intro s'
  have hpin : (s.apply (.tag b.digest b.hash)).pins.get b.digest = some (b.digest, b.hash) := by
    rw [pin_apply_tag, if_pos rfl]
  have hgrows : Retains s s' := (Retains.tag_apply hfits).trans (Retains.blobRef_apply hpin)
  have hentry : s'.digests.get b.digest = some b := by rw [entry_apply_blobRef, if_pos rfl]
  refine ⟨hgrows, ⟨fun hp => pinned_apply_tag hs hdata hp, ?_⟩, ⟨hpin, ⟨b, hentry, rfl⟩, hdata⟩⟩
  intro e he
  rw [entry_apply_blobRef] at he
  by_cases hd : b.digest = e.digest
  · rw [if_pos hd] at he
    cases he
    exact Or.inl hpin
  · -- the blob is another one, and stands as before
    rw [if_neg hd] at he
    have hother : s'.pins.get e.digest = s.pins.get e.digest := by
      show (s.apply (.tag b.digest b.hash)).pins.get e.digest = _
      rw [pin_apply_tag, if_neg hd]
    rw [hother]
    exact hs.entry he

/-! ### The operations that record blobs -/

theorem expectDigest_ok {expect : Option Digest} {k : Digest} :
    (expectDigest expect k).result s = .ok () ↔ ∀ e ∈ expect, e = k := by
  cases expect with
  | none => simp [expectDigest]
  | some e => by_cases h : e = k <;> simp [expectDigest, h]

theorem final_expectDigest (expect : Option Digest) (k : Digest) :
    (expectDigest expect k).final s = s := by
  cases expect <;> rfl

/-- What an import does: it keeps what was kept, and its own blob. -/
theorem putBlobBytes_keeps (hs : Indexed s d) (data : Bytes) (expect : Option Digest)
    (mediaType : Option Str) (hfits : (∀ e ∈ expect, e = Digest.sha256 data) →
      s.Fits (Digest.sha256 data) (External.blake3 data)) :
    let s' := (putBlobBytes data expect mediaType).final s
    Retains s s' ∧ Indexed s' d ∧ ((∀ e ∈ expect, e = Digest.sha256 data) →
      Holds s' ⟨Digest.sha256 data, External.blake3 data, data.length, mediaType⟩) := by
  intro s'
  cases hr : (expectDigest expect (Digest.sha256 data)).result s with
  | error e =>
      have hfinal : s' = s := (final_bind_of_error hr _).trans (final_expectDigest _ _)
      have hbad : ¬ ∀ e ∈ expect, e = Digest.sha256 data := by
        rw [← expectDigest_ok (s := s), hr]
        exact nofun
      rw [hfinal]
      exact ⟨Retains.refl s, hs, fun h => absurd h hbad⟩
  | ok u =>
      have hexpect := expectDigest_ok.mp hr
      have hfinal : s' = (importBlob data mediaType).final s := by
        rw [← final_expectDigest (s := s) expect (Digest.sha256 data)]
        exact final_bind_of_ok hr _
      have hhere : (s.apply (.data data)).hasHash (External.blake3 data) = true := by
        rw [hasHash_apply_data, decide_eq_true rfl, Bool.true_or]
      obtain ⟨hgrows, hindexed, hholds⟩ := (hs.data_apply data).recorded
        (b := ⟨Digest.sha256 data, External.blake3 data, data.length, mediaType⟩) (hfits hexpect)
        hhere
      rw [hfinal]
      exact ⟨(Retains.data_apply s data).trans hgrows, hindexed, fun _ => hholds⟩

/-- What collecting keeps, from `s` on. -/
def Collecting (s : Store) (d : Option Digest) (s' : Store) : Prop := Retains s s' ∧ Indexed s' d

/-- The blob is kept, or the sweep is between its pin and its entry. -/
def Found (s : Store) (d : Option Digest) (b : BlobRef) : Prop := Holds s b ∨ d = some b.digest

theorem Found.retained (h : Found s d b) (hg : Retains s s') : Found s' d b :=
  h.imp_left fun hb => hb.retained hg

/-- Writing an entry again, and its pin. -/
theorem recordBlob_triple (hs : Collecting s d s') (he : s'.digests.get b.digest = some b)
    (hhere : s'.hasHash b.hash = true) (mediaType : Option Str) :
    Triple (fun t => t = s') (recordBlob { b with mediaType })
      (fun _ t => Collecting s d t ∧ Found t d { b with mediaType }) (Collecting s d) := by
  have hfits : s'.Fits b.digest b.hash := by
    intro p hp
    rcases hs.2.entry he with h | ⟨-, h⟩
    · exact Option.some.inj (hp.symm.trans h)
    · rw [Option.mem_def, h] at hp
      cases hp
  have htag : Collecting s d (s'.apply (.tag b.digest b.hash)) :=
    ⟨hs.1.trans (Retains.tag_apply hfits), hs.2.tag_apply hhere fun e he' => by
      cases he.symm.trans he'
      rfl⟩
  obtain ⟨hgrows, hindexed, hholds⟩ := hs.2.recorded (b := { b with mediaType }) hfits hhere
  have hboth := And.intro (hs.1.trans hgrows) hindexed
  refine Triple.bind (Q := fun _ t => t = s'.apply (.tag b.digest b.hash))
    (Triple.write fun t ht => ?_) fun _ => Triple.write fun t ht => ?_
  · subst ht
    exact ⟨hs, htag, rfl⟩
  · subst ht
    exact ⟨htag, hboth, hboth, Or.inl hholds⟩

/-- A referenced blob is found. -/
theorem referencedBlob_triple (k : Descriptor) :
    Triple (Collecting s d) (referencedBlob k)
      (fun r s' => Collecting s d s' ∧ Found s' d r) (Collecting s d) := by
  refine Triple.each fun t ht => ?_
  refine Triple.bind (Q := fun t' s' => t' = t ∧ s' = t)
    (Triple.read fun s' hs => ⟨hs ▸ ht, hs, hs⟩) fun t' => ?_
  refine Triple.each fun s' hs => ?_
  obtain ⟨rfl, rfl⟩ := hs
  split
  · exact Triple.fail fun _ hs => hs ▸ ht
  · rename_i r hr
    obtain ⟨hentry, hhere⟩ := Option.filter_eq_some_iff.mp hr
    have hkey : r.digest = k.digest := Table.key_of_get hentry
    have hentry : s'.digests.get r.digest = some r := hkey ▸ hentry
    refine Triple.ite (fun _ => ?_) fun _ => Triple.pure fun _ hs => ?_
    · exact (recordBlob_triple ht hentry hhere _).mapErr.bind fun _ =>
        Triple.pure fun _ hs => ⟨hs.1, hs⟩
    · subst hs
      refine ⟨ht, ht, ?_⟩
      by_cases hd : d = some r.digest
      · exact Or.inr hd
      · exact Or.inl (ht.2.holds hentry hd)

/-- What is found stays found while a referenced blob is looked up. -/
theorem referencedBlob_frame (k : Descriptor) (out : List BlobRef) :
    Triple (fun s' => Collecting s d s' ∧ ∀ b ∈ out, Found s' d b) (referencedBlob k)
      (fun r s' => Collecting s d s' ∧ ∀ b ∈ out ++ [r], Found s' d b) (Collecting s d) := by
  refine Triple.each fun t ht => ?_
  obtain ⟨ht, hout⟩ := ht
  have hfrom : ∀ u, Collecting t d u → Collecting s d u := fun u hu => ⟨ht.1.trans hu.1, hu.2⟩
  refine (((referencedBlob_triple k).weaken hfrom).post fun r u hu => ?_).pre fun u hu => ?_
  · refine ⟨hfrom u hu.1, fun b hb => ?_⟩
    rcases List.mem_append.mp hb with hb | hb
    · exact (hout b hb).retained hu.1.1
    · obtain rfl := List.mem_singleton.mp hb
      exact hu.2
  · subst hu
    exact ⟨Retains.refl u, ht.2⟩

/-- Collecting from a list finds the blobs it gathers, when descending does. -/
theorem collectList_triple {descend : Manifest → List BlobRef → Handler (List BlobRef)}
    (hdescend : ∀ m out, Triple (fun s' => Collecting s d s' ∧ ∀ b ∈ out, Found s' d b)
      (descend m out) (fun res s' => Collecting s d s' ∧ ∀ b ∈ res, Found s' d b) (Collecting s d))
    (ds : List Descriptor) (out : List BlobRef) :
    Triple (fun s' => Collecting s d s' ∧ ∀ b ∈ out, Found s' d b) (collectList descend ds out)
      (fun res s' => Collecting s d s' ∧ ∀ b ∈ res, Found s' d b) (Collecting s d) := by
  induction ds generalizing out with
  | nil => exact Triple.pure fun _ hs => ⟨hs.1, hs⟩
  | cons k ds ih =>
      refine (referencedBlob_frame k out).bind fun r => Triple.ite (fun _ => ?_) fun _ =>
        Triple.ite (fun _ => ?_) fun _ => ih _
      · exact (ih out).pre fun _ hs => ⟨hs.1, fun b hb => hs.2 b (List.mem_append_left _ hb)⟩
      · refine Triple.bind (Triple.quiet (emits_childManifest k r) fun _ hs => hs.1) fun child => ?_
        exact ((hdescend child (out ++ [r])).pre fun _ hs => hs.1).bind fun out' => ih out'

/-- Collecting finds every blob it gathers. -/
theorem collectRefs_triple (fuel : ℕ) (manifest : Manifest) (out : List BlobRef) :
    Triple (fun s' => Collecting s d s' ∧ ∀ b ∈ out, Found s' d b) (collectRefs fuel manifest out)
      (fun res s' => Collecting s d s' ∧ ∀ b ∈ res, Found s' d b) (Collecting s d) := by
  induction fuel generalizing manifest out with
  | zero => exact collectList_triple (fun _ _ => Triple.fail fun _ hs => hs.1) _ _
  | succ fuel ih => exact collectList_triple (fun m out => ih m out) _ _

/-- The check of a push keeps what is kept, and finds every blob that the manifest references. -/
theorem checkPush_found (node : Node) (push : Push) :
    Triple (Collecting s d) (checkPush node push)
      (fun c s' => Collecting s d s' ∧ ∀ b ∈ c.blobs, Found s' d b) (Collecting s d) := by
  have hquiet : ∀ {α : Type} (x : Except OciError α),
      Triple (Collecting s d) (ofExcept x : Handler α) (fun _ => Collecting s d) (Collecting s d) :=
    fun x => Triple.ofExcept fun _ hs => ⟨hs, fun _ _ => hs⟩
  refine (hquiet _).bind fun r => ?_
  refine Triple.bind (Q := fun _ => Collecting s d) (Triple.ensure fun _ hs => ⟨hs, fun _ => hs⟩)
    fun _ => ?_
  refine (hquiet _).bind fun bytes => (hquiet _).bind fun manifest => ?_
  refine Triple.bind (Q := fun _ => Collecting s d) (Triple.read fun _ hs => ⟨hs, hs⟩) fun s₀ => ?_
  refine ((collectRefs_triple _ _ []).pre fun _ hs => ⟨hs, fun _ hb => by cases hb⟩).bind
    fun blobs => ?_
  refine Triple.bind (Q := fun _ s' => Collecting s d s' ∧ ∀ b ∈ blobs, Found s' d b)
    (Triple.ofExcept fun _ hs => ⟨hs.1, fun _ _ => hs⟩) fun _ => Triple.pure fun _ hs => ⟨hs.1, hs⟩

/-! ### Writing records -/

/-- `s'` differs from `s` in its records and referrers alone. -/
structure SameBlobs (s s' : Store) : Prop where
  pins : s'.pins = s.pins
  digests : s'.digests = s.digests
  blobs : s'.blobs = s.blobs

theorem sameBlobs_final {ε α : Type} {m : Call Store Write ε α}
    (h : Emits (fun w : Write => w.part = .releases ∨ w.part = .referrers) m) (s : Store) :
    SameBlobs s (m.final s) := by
  refine h.keeps (I := SameBlobs s) (fun t w hw ht => ?_) ⟨rfl, rfl, rfl⟩
  have hpart : ∀ p : Part, p ≠ .releases → p ≠ .referrers → w.part ≠ p := by
    rintro p hr hf rfl
    exact hw.elim hr hf
  refine ⟨?_, ?_, ?_⟩
  · exact (Store.pins_apply (hpart _ nofun nofun)).trans ht.pins
  · exact (Store.digests_apply (hpart _ nofun nofun)).trans ht.digests
  · exact (Store.blobs_apply (hpart _ nofun nofun)).trans ht.blobs

theorem SameBlobs.refl (s : Store) : SameBlobs s s := ⟨rfl, rfl, rfl⟩

theorem SameBlobs.hasHash_eq (h : SameBlobs s s') (g : Blake3) : s'.hasHash g = s.hasHash g := by
  rw [Store.hasHash, h.blobs, Store.hasHash]

theorem SameBlobs.retained (h : SameBlobs s s') : Retains s s' where
  pin hp := h.pins ▸ hp
  entry he _ := ⟨_, h.digests ▸ he, rfl⟩
  data hd := (h.hasHash_eq _).trans hd

theorem SameBlobs.indexed (h : SameBlobs s s') (hs : Indexed s d) : Indexed s' d where
  data := by
    intro k g hp
    rw [h.hasHash_eq]
    rw [h.pins] at hp
    exact hs.data hp
  entry := by
    intro e he
    rw [h.digests] at he
    rw [h.pins]
    exact hs.entry he

omit [External] in
theorem part_of_mem_releaseWrites {rel : Release} {w : Write} (h : w ∈ releaseWrites rel) :
    w.part = .releases ∨ w.part = .referrers := by
  rcases List.mem_cons.mp h with rfl | h
  · exact Or.inl rfl
  · obtain ⟨x, -, rfl⟩ := List.mem_map.mp h
    exact Or.inr rfl

theorem sameBlobs_putRelease (rel : Release) (s : Store) : SameBlobs s ((putRelease rel).final s) :=
  sameBlobs_final ((emits_putRelease rel).mono fun _ hw => part_of_mem_releaseWrites hw) s

theorem sameBlobs_publish (node : Node) (gossip : Release → Except Err Unit) (rel : Release)
    (s : Store) : SameBlobs s ((publish node gossip rel).final s) := by
  refine sameBlobs_final ?_ s
  refine (Emits.ofExcept _).bind fun _ => (Emits.ensure _ _).bind fun _ => Emits.bind ?_ fun _ =>
    Emits.ofExcept _
  exact (emits_putRelease rel).mono fun _ hw => part_of_mem_releaseWrites hw

/-- A push under a tag publishes its release; one by digest does nothing. -/
theorem publishTag_eq (node : Node) (push : Push) (c : Checked)
    (gossip : Release → Except Err Unit) (now : ℕ) :
    publishTag node gossip c.image push.reference (c.blob push) c.blobs now =
      if push.isTag then (Ocid.publish node gossip (c.release push node now)).lift else pure () := by
  unfold publishTag Push.isTag
  split
  · rename_i d hd
    rw [Digest.parse_eq_ok.mp hd, d.wf]
    rfl
  · rename_i e he
    have hwf : Digest.wellFormed push.reference = false := by
      by_contra h
      have hd := Digest.parse_eq_ok (d := ⟨push.reference, Bool.not_eq_false _ ▸ h⟩) |>.mpr rfl
      rw [hd] at he
      cases he
    rw [hwf]
    rfl

/-- A removal drops one record or does nothing; when it returns, the record is not there. -/
theorem removeRelease_cases (publisher : PublisherId) (name tag : Str) (s : Store) :
    let m := removeRelease publisher name tag
    (m.final s = s ∨ m.final s = s.apply (.dropRelease ⟨publisher, name, tag⟩)) ∧
      ∀ x, m.result s = .ok x →
        validateName name = .ok () ∧ (m.final s).releases.get ⟨publisher, name, tag⟩ = none := by
  intro m
  cases hp : releasePath publisher name tag with
  | error e =>
      have hm : m s = ([], .error e) := by
        show removeRelease publisher name tag s = _
        rw [removeRelease, hp]
        rfl
      refine ⟨Or.inl (by rw [final, journal, hm, replay_nil]), fun x hx => ?_⟩
      rw [result, hm] at hx
      cases hx
  | ok r =>
      obtain ⟨-, hname, rfl⟩ := releasePath_eq_ok.mp hp
      have hm : m s = (if s.releases.has ⟨publisher, name, tag⟩ then do
          write (.dropRelease ⟨publisher, name, tag⟩)
          pure true
        else pure false : Op Bool) s := by
        show removeRelease publisher name tag s = _
        rw [removeRelease, hp]
        rfl
      rw [final, journal, hm]
      split
      · exact ⟨Or.inr rfl, fun _ _ => ⟨hname, Table.get_erase_self _ _⟩⟩
      · rename_i hhas
        exact ⟨Or.inl rfl, fun _ _ =>
          ⟨hname, Table.has_eq_false_iff.mp (Bool.not_eq_true _ ▸ hhas)⟩⟩

end

end Ocid
