import Ocid.Daemon.Node

/-!
# Daemon — Publish — storing and announcing the node's own releases

`publish` stores a release of the node and announces it; it does not look at whether the record was
written.  `attachReferrer` extends every own release of a manifest by a referrer and publishes it
again, with a timestamp later than that of the record it was read from.  The timestamp is a number
of 64 bits: the one after the last is 0, and a record with the last one is not replaced.

Gossip may fail at any announcement: `gossip` is its outcome.  `clock` gives the readings of the
clock one request takes, in order.
-/

namespace Ocid

open Call

variable [External]

/-- Broadcast a release on its publisher's topic. -/
def announce (gossip : Release → Except Err Unit) (release : Release) : Op Unit :=
  ofExcept (gossip release)

/-- Store our own release and announce it. -/
def publish (node : Node) (gossip : Release → Except Err Unit) (release : Release) : Op Unit := do
  ofExcept release.verify
  ensure (release.publisher = node.id) ["can only publish releases signed by this node"]
  let _stored ← putRelease release
  announce gossip release

/-- Add a blob whose digest is not there yet. -/
def addBlob (bs : List BlobRef) (b : BlobRef) : List BlobRef :=
  if bs.any fun x => x.digest = b.digest then bs else bs ++ [b]

/-- The payload of `rel`, extended by a referrer and its blobs. -/
def attached (rel : Release) (referrer : Referrer) (blobs : List BlobRef) (now : ℕ) :
    ReleasePayload :=
  { rel.payload with
    referrers := rel.payload.referrers ++ [referrer]
    blobs := blobs.foldl addBlob rel.payload.blobs
    timestamp := max now (addU64 rel.payload.timestamp 1) }

/-- A record extended by a referrer, signed at `now`. -/
def attachedRelease (node : Node) (referrer : Referrer) (blobs : List BlobRef) (rel : Release)
    (now : ℕ) : Release :=
  Release.sign node.identity (attached rel referrer blobs now) now

/-- The record is an own release of `subject` that does not list the referrer yet. -/
def needsReferrer (node : Node) (subject : Digest) (referrer : Referrer) (rel : Release) : Bool :=
  rel.publisher = node.id && rel.payload.manifest.digest = subject &&
    !rel.payload.referrers.any fun r => r.digest = referrer.digest

/-- Attach a referrer to the records `rels`, the clock being read for the `i`-th one first. -/
def attachAll (node : Node) (gossip : Release → Except Err Unit) (clock : ℕ → ℕ)
    (subject : Digest) (referrer : Referrer) (blobs : List BlobRef) :
    ℕ → List Release → Op ℕ
  | _, [] => pure 0
  | i, rel :: rels =>
      if needsReferrer node subject referrer rel then do
        publish node gossip (attachedRelease node referrer blobs rel (clock i))
        let n ← attachAll node gossip clock subject referrer blobs (i + 1) rels
        pure (n + 1)
      else attachAll node gossip clock subject referrer blobs (i + 1) rels

/-- Attach a referrer to every release of ours whose manifest is `subject`.  Returns how many
releases were updated. -/
def attachReferrer (node : Node) (gossip : Release → Except Err Unit) (clock : ℕ → ℕ)
    (subject : Digest) (referrer : Referrer) (blobs : List BlobRef) : Op ℕ := do
  let s ← read
  attachAll node gossip clock subject referrer blobs 0 s.listReleases

/-! ### What publishing leaves -/

/-- The records while a release is published, and after it: the release, which verifies, is put
among them. -/
theorem publish_triple (node : Node) (gossip : Release → Except Err Unit) (release : Release)
    (t : Table Release.ref) :
    Triple (fun s : Store => s.releases = t) (publish node gossip release)
      (fun _ s => s.releases = recorded t release ∧ release.verify = .ok ())
      (fun s => s.releases = t ∨ s.releases = recorded t release) := by
  cases hv : release.verify with
  | error e =>
      rw [publish, hv]
      refine Triple.bind (Q := fun _ _ => False) (Triple.ofExcept fun s hs => ?_) fun _ s hs => ?_
      · exact ⟨Or.inl hs, fun _ h => by cases h⟩
      · exact hs.elim
  | ok u =>
      obtain ⟨hn, ht⟩ := Release.valid_of_verify hv
      refine Triple.bind (Q := fun _ s => s.releases = t)
        (Triple.ofExcept fun s hs => ⟨Or.inl hs, fun _ _ => hs⟩) fun _ => ?_
      refine Triple.bind (Q := fun _ s => s.releases = t)
        (Triple.ensure fun s hs => ⟨Or.inl hs, fun _ => hs⟩) fun _ => ?_
      refine (putRelease_triple hn ht t).bind fun _ => ?_
      exact Triple.ofExcept fun s hs => ⟨Or.inr hs, fun _ _ => ⟨hs, rfl⟩⟩

/-! ### What attaching a referrer leaves -/

section
variable {node : Node} {subject : Digest} {referrer : Referrer} {blobs : List BlobRef}
  {rel : Release}

theorem needsReferrer_iff : needsReferrer node subject referrer rel = true ↔
    rel.publisher = node.id ∧ rel.payload.manifest.digest = subject ∧
      ∀ r ∈ rel.payload.referrers, r.digest ≠ referrer.digest := by
  simp [needsReferrer, and_assoc]

omit [External] in
/-- The blobs of an extended record: those it had, and one for each digest attached. -/
theorem foldl_addBlob (bs : List BlobRef) (blobs : List BlobRef) :
    (∀ b ∈ bs, b ∈ blobs.foldl addBlob bs) ∧
      ∀ b ∈ blobs, ∃ b' ∈ blobs.foldl addBlob bs, b'.digest = b.digest := by
  induction blobs generalizing bs with
  | nil => exact ⟨fun _ h => h, fun _ h => by cases h⟩
  | cons c blobs ih =>
      obtain ⟨hkeep, hadd⟩ := ih (addBlob bs c)
      have hstep : (∀ b ∈ bs, b ∈ addBlob bs c) ∧ ∃ b ∈ addBlob bs c, b.digest = c.digest := by
        rw [addBlob]
        split
        · rename_i hany
          obtain ⟨b, hb, hbc⟩ := List.any_eq_true.mp hany
          exact ⟨fun _ h => h, b, hb, of_decide_eq_true hbc⟩
        · exact ⟨fun b hb => List.mem_append_left _ hb,
            c, List.mem_append_right _ List.mem_cons_self, rfl⟩
      refine ⟨fun b hb => hkeep b (hstep.1 b hb), fun b hb => ?_⟩
      rcases List.mem_cons.mp hb with rfl | hb
      · obtain ⟨b', hb', hd⟩ := hstep.2
        exact ⟨b', hkeep b' hb', hd⟩
      · exact hadd b hb

omit [External] in
/-- And no others. -/
theorem mem_of_mem_foldl_addBlob {bs blobs : List BlobRef} {b : BlobRef}
    (h : b ∈ blobs.foldl addBlob bs) : b ∈ bs ∨ b ∈ blobs := by
  induction blobs generalizing bs with
  | nil => exact Or.inl h
  | cons c blobs ih =>
      rcases ih h with h | h
      · unfold addBlob at h
        split at h
        · exact Or.inl h
        · exact (List.mem_append.mp h).imp_right fun h =>
            List.mem_cons.mpr (Or.inl (List.mem_singleton.mp h))
      · exact Or.inr (List.mem_cons_of_mem _ h)

/-- The payload of an extended record; its timestamp is unset only when the clock reads 0. -/
theorem attachedRelease_payload (now : ℕ) :
    (attachedRelease node referrer blobs rel now).payload =
      { attached rel referrer blobs now with version := releaseVersion, publisher := node.id } := by
  have htime : (if (attached rel referrer blobs now).timestamp = 0 then now
      else (attached rel referrer blobs now).timestamp) =
        (attached rel referrer blobs now).timestamp := by
    split
    · rename_i hzero
      rw [hzero]
      exact Nat.le_zero.mp (hzero ▸ le_max_left now _)
    · rfl
  simp only [attachedRelease, Release.sign, htime]
  rfl

@[simp] theorem attachedRelease_timestamp (now : ℕ) :
    (attachedRelease node referrer blobs rel now).payload.timestamp =
      max now (addU64 rel.payload.timestamp 1) := by
  rw [attachedRelease_payload]
  rfl

@[simp] theorem attachedRelease_manifest (now : ℕ) :
    (attachedRelease node referrer blobs rel now).payload.manifest = rel.payload.manifest := by
  rw [attachedRelease_payload]
  rfl

@[simp] theorem attachedRelease_referrers (now : ℕ) :
    (attachedRelease node referrer blobs rel now).payload.referrers =
      rel.payload.referrers ++ [referrer] := by
  rw [attachedRelease_payload]
  rfl

@[simp] theorem attachedRelease_blobs (now : ℕ) :
    (attachedRelease node referrer blobs rel now).payload.blobs =
      blobs.foldl addBlob rel.payload.blobs := by
  rw [attachedRelease_payload]
  rfl

theorem attachedRelease_ref (h : rel.publisher = node.id) (now : ℕ) :
    (attachedRelease node referrer blobs rel now).ref = rel.ref := by
  rw [Release.ref, attachedRelease_payload, Release.ref, ← h]
  rfl

/-- An extended record replaces the one it was made from, unless there is no later timestamp. -/
theorem attachedRelease_supersedes (h : rel.HasLater) (now : ℕ) :
    (attachedRelease node referrer blobs rel now).supersedes rel = true := by
  refine Release.supersedes_iff.mpr (Or.inl ?_)
  rw [attachedRelease_timestamp, h.addU64_one]
  omega

/-- And then only. -/
theorem hasLater_of_supersedes {now : ℕ} (hnow : now < 2 ^ 64)
    (h : (attachedRelease node referrer blobs rel now).supersedes rel = true) : rel.HasLater := by
  rcases Release.supersedes_iff.mp h with h | ⟨-, hne⟩
  · rw [attachedRelease_timestamp] at h
    have hlt := addU64_lt rel.payload.timestamp 1
    rw [Release.HasLater]
    omega
  · exact absurd (congrArg BlobRef.digest (attachedRelease_manifest now)) hne

/-- `rel` lists the referrer `d`, and has a blob for the digest of each of `bs`. -/
def Carries (rel : Release) (d : Digest) (bs : List BlobRef) : Prop :=
  (∃ r ∈ rel.payload.referrers, r.digest = d) ∧
    ∀ b ∈ bs, ∃ b' ∈ rel.payload.blobs, b'.digest = b.digest

instance (rel : Release) (d : Digest) (bs : List BlobRef) : Decidable (Carries rel d bs) :=
  inferInstanceAs (Decidable ((∃ r ∈ rel.payload.referrers, r.digest = d) ∧
    ∀ b ∈ bs, ∃ b' ∈ rel.payload.blobs, b'.digest = b.digest))

/-- An extended record carries what it was extended by. -/
theorem carries_attachedRelease (now : ℕ) :
    Carries (attachedRelease node referrer blobs rel now) referrer.digest blobs := by
  rw [Carries, attachedRelease_referrers, attachedRelease_blobs]
  exact ⟨⟨referrer, List.mem_append_right _ List.mem_cons_self, rfl⟩, (foldl_addBlob _ _).2⟩

/-- What a record carries, the record carries when it is extended. -/
theorem Carries.attach {d : Digest} {bs : List BlobRef} (h : Carries rel d bs) (now : ℕ) :
    Carries (attachedRelease node referrer blobs rel now) d bs := by
  obtain ⟨⟨r, hr, hd⟩, hbs⟩ := h
  rw [Carries, attachedRelease_referrers, attachedRelease_blobs]
  refine ⟨⟨r, List.mem_append_left _ hr, hd⟩, fun b hb => ?_⟩
  obtain ⟨b', hb', hd'⟩ := hbs b hb
  exact ⟨b', (foldl_addBlob _ _).1 b' hb', hd'⟩

/-- `u` is `t` with some of the records that need the referrer replaced by extended ones. -/
def Touched (node : Node) (clock : ℕ → ℕ) (subject : Digest) (referrer : Referrer)
    (blobs : List BlobRef) (t u : Table Release.ref) : Prop :=
  ∀ r, u.get r = t.get r ∨ ∃ rel, t.get r = some rel ∧
    needsReferrer node subject referrer rel = true ∧
      ∃ i, (attachedRelease node referrer blobs rel (clock i)).supersedes rel = true ∧
        u.get r = some (attachedRelease node referrer blobs rel (clock i))

/-- `u` has every record of `rels` that needs the referrer extended, if it can be replaced. -/
def Extended (node : Node) (clock : ℕ → ℕ) (subject : Digest) (referrer : Referrer)
    (blobs : List BlobRef) (rels : List Release) (u : Table Release.ref) : Prop :=
  ∀ rel ∈ rels, needsReferrer node subject referrer rel = true → rel.HasLater →
    ∃ i, u.get rel.ref = some (attachedRelease node referrer blobs rel (clock i))

variable {clock : ℕ → ℕ} {t u v : Table Release.ref}

theorem Touched.refl : Touched node clock subject referrer blobs t t := fun _ => Or.inl rfl

/-- An extended record needs the referrer no more. -/
theorem not_needsReferrer_attachedRelease (now : ℕ) :
    needsReferrer node subject referrer (attachedRelease node referrer blobs rel now) = false := by
  rw [Bool.eq_false_iff]
  intro h
  refine (needsReferrer_iff.mp h).2.2 referrer ?_ rfl
  rw [attachedRelease_referrers]
  exact List.mem_append_right _ List.mem_cons_self

theorem Touched.trans (h : Touched node clock subject referrer blobs t u)
    (h' : Touched node clock subject referrer blobs u v) :
    Touched node clock subject referrer blobs t v := by
  intro r
  rcases h r with hu | ⟨rel, hrel, hneeds, i, hu⟩
  · rw [← hu]
    exact h' r
  · obtain ⟨hsup, hu⟩ := hu
    rcases h' r with hv | ⟨rel', hrel', hneeds', -⟩
    · exact Or.inr ⟨rel, hrel, hneeds, i, hsup, hv.trans hu⟩
    · obtain rfl := Option.some.inj (hu.symm.trans hrel')
      rw [not_needsReferrer_attachedRelease] at hneeds'
      cases hneeds'

/-- The records when an extended one is put among them: it takes the place of the one it was made
from, if it replaces that one. -/
theorem get_recorded_attached (hown : rel.publisher = node.id) (hheld : t.get rel.ref = some rel)
    (now : ℕ) (r : Ref) :
    (recorded t (attachedRelease node referrer blobs rel now)).get r =
      if rel.ref = r ∧ (attachedRelease node referrer blobs rel now).supersedes rel = true then
        some (attachedRelease node referrer blobs rel now)
      else t.get r := by
  have href : (attachedRelease node referrer blobs rel now).ref = rel.ref :=
    attachedRelease_ref hown now
  cases hsup : (attachedRelease node referrer blobs rel now).supersedes rel with
  | false =>
      rw [recorded_of_refused (href.symm ▸ hheld) hsup, if_neg (by simp)]
  | true =>
      rw [recorded_of_supersedes (href.symm ▸ hheld) hsup, Table.get_put, href]
      simp only [and_true]

/-- Extending one record leaves the others. -/
theorem Touched.recorded (hown : rel.publisher = node.id) (hheld : t.get rel.ref = some rel)
    (hneeds : needsReferrer node subject referrer rel = true) (i : ℕ) :
    Touched node clock subject referrer blobs t
      (recorded t (attachedRelease node referrer blobs rel (clock i))) := by
  intro r
  rw [get_recorded_attached hown hheld]
  split
  · rename_i h
    obtain ⟨rfl, hsup⟩ := h
    exact Or.inr ⟨rel, hheld, hneeds, i, hsup, rfl⟩
  · exact Or.inl rfl

/-- The records of `rels`, which are all held, are extended one after the other. -/
theorem attachAll_triple (gossip : Release → Except Err Unit) {rels : List Release}
    (hheld : ∀ rel ∈ rels, t.get rel.ref = some rel) (hnd : (rels.map Release.ref).Nodup) (i : ℕ) :
    Triple (fun s : Store => s.releases = t)
      (attachAll node gossip clock subject referrer blobs i rels)
      (fun _ s => Touched node clock subject referrer blobs t s.releases ∧
        (∀ r, r ∉ rels.map Release.ref → s.releases.get r = t.get r) ∧
        Extended node clock subject referrer blobs rels s.releases)
      (fun s => Touched node clock subject referrer blobs t s.releases) := by
  induction rels generalizing t i with
  | nil =>
      refine Triple.pure fun s hs => ?_
      subst hs
      exact ⟨Touched.refl, Touched.refl, fun _ _ => rfl, fun _ h => by cases h⟩
  | cons rel rels ih =>
      obtain ⟨hfresh, hnd⟩ := List.nodup_cons.mp hnd
      have hrel := hheld rel List.mem_cons_self
      have hrels : ∀ x ∈ rels, t.get x.ref = some x := fun x hx =>
        hheld x (List.mem_cons_of_mem _ hx)
      rw [attachAll]
      split
      · rename_i hneeds
        obtain ⟨hown, -, -⟩ := needsReferrer_iff.mp hneeds
        have htouched : Touched node clock subject referrer blobs t
            (recorded t (attachedRelease node referrer blobs rel (clock i))) :=
          Touched.recorded hown hrel hneeds i
        have hpublish := publish_triple node gossip
          (attachedRelease node referrer blobs rel (clock i)) t
        have hget : ∀ r, (recorded t (attachedRelease node referrer blobs rel (clock i))).get r =
            if rel.ref = r ∧
                (attachedRelease node referrer blobs rel (clock i)).supersedes rel = true then
              some (attachedRelease node referrer blobs rel (clock i))
            else t.get r :=
          get_recorded_attached hown hrel (clock i)
        have hlater : rel.HasLater →
            (attachedRelease node referrer blobs rel (clock i)).supersedes rel = true :=
          fun h => attachedRelease_supersedes h (clock i)
        generalize hx : attachedRelease node referrer blobs rel (clock i) = x at *
        have hne : ∀ r, r ≠ rel.ref → (recorded t x).get r = t.get r := fun r hr =>
          (hget r).trans (if_neg fun h => hr h.1.symm)
        have hrels' : ∀ y ∈ rels, (recorded t x).get y.ref = some y := by
          intro y hy
          rw [hne]
          · exact hrels y hy
          · intro h
            exact hfresh (List.mem_map.mpr ⟨y, hy, h⟩)
        -- the record is extended first, and the rest start from what that leaves
        refine Triple.bind ((hpublish.post fun _ s hs => hs.1).weaken fun s hs => ?_) fun _ =>
          Triple.bind ((ih hrels' hnd (i + 1)).weaken fun s hs => htouched.trans hs) fun n =>
            Triple.pure fun s hs => ?_
        · show Touched node clock subject referrer blobs t s.releases
          rcases hs with hs | hs
          · exact hs ▸ Touched.refl
          · exact hs ▸ htouched
        · obtain ⟨ht, hframe, hext⟩ := hs
          refine ⟨htouched.trans ht, htouched.trans ht, fun r hr => ?_, fun y hy hy' hy'' => ?_⟩
          · obtain ⟨hr, hr'⟩ := not_or.mp (mt List.mem_cons.mpr hr)
            rw [hframe r hr', hne r hr]
          · rcases List.mem_cons.mp hy with rfl | hy
            · refine ⟨i, ?_⟩
              rw [hframe _ hfresh, hx]
              exact (hget y.ref).trans (if_pos ⟨rfl, hlater hy''⟩)
            · exact hext y hy hy' hy''
      · rename_i hneeds
        refine ((ih hrels hnd (i + 1)).post fun _ s hs => ?_)
        obtain ⟨ht, hframe, hext⟩ := hs
        refine ⟨ht, fun r hr => hframe r fun h => hr (List.mem_cons_of_mem _ h), fun x hx hx' => ?_⟩
        intro hx''
        rcases List.mem_cons.mp hx with rfl | hx
        · exact absurd hx' hneeds
        · exact hext x hx hx' hx''

/-- `u` is `t` with every record that needs the referrer extended, if it can be replaced. -/
def Covered (node : Node) (clock : ℕ → ℕ) (subject : Digest) (referrer : Referrer)
    (blobs : List BlobRef) (t u : Table Release.ref) : Prop :=
  Touched node clock subject referrer blobs t u ∧ ∀ r rel, t.get r = some rel →
    needsReferrer node subject referrer rel = true → rel.HasLater →
      ∃ i, u.get r = some (attachedRelease node referrer blobs rel (clock i))

/-- The records while a referrer is attached, and after it. -/
theorem attachReferrer_triple (gossip : Release → Except Err Unit) :
    Triple (fun s : Store => s.releases = t)
      (attachReferrer node gossip clock subject referrer blobs)
      (fun _ s => Covered node clock subject referrer blobs t s.releases)
      (fun s => Touched node clock subject referrer blobs t s.releases) := by
  refine Triple.bind (Q := fun s s' => s = s' ∧ s'.releases = t) (Triple.read fun s hs => ?_)
    fun s s' hs => ?_
  · exact ⟨hs ▸ Touched.refl, rfl, hs⟩
  · obtain ⟨rfl, rfl⟩ := hs
    have hheld : ∀ rel ∈ s.listReleases, s.releases.get rel.ref = some rel :=
      fun rel h => Store.mem_listReleases.mp h
    have hnd : (s.listReleases.map Release.ref).Nodup :=
      ((List.perm_insertionSort _ _).map Release.ref).nodup_iff.mpr s.releases.nodup
    have hall : Triple (fun s' : Store => s'.releases = s.releases)
        (attachAll node gossip clock subject referrer blobs 0 s.listReleases)
        (fun _ s' => Covered node clock subject referrer blobs s.releases s'.releases)
        (fun s' => Touched node clock subject referrer blobs s.releases s'.releases) := by
      refine (attachAll_triple gossip hheld hnd 0).post fun _ s' hs' => ?_
      obtain ⟨htouched, -, hext⟩ := hs'
      refine ⟨htouched, fun r rel hr hneeds hlater => ?_⟩
      obtain rfl := Table.key_of_get hr
      exact hext rel (Store.mem_listReleases.mpr hr) hneeds hlater
    exact hall s rfl

end

end Ocid
