import Ocid.Daemon.Collect
import Ocid.Publishing.Refused
import Ocid.Publishing.Tags
import Ocid.Replication.Selection
import Ocid.Replication.Truthful

/-!
# Publishing — Deleting — tags that are pushed, deleted and listed

`DELETE` of a manifest removes one tag, or every tag of the image that points at a digest
(`manifestDelete`), and `GET` of the tags lists what is left (`tagsList`).  Pushes and deletions are
handled one after another, and each can fail, or be stopped by a fault.

A `TagMap` is what the tags point at, and an `Edit` is what a request means to do to it.
`run_shown` says that the handlers refine this: after every run the node lists and serves a map that
the requests have edited one after the other.  A request that is answered has edited the map; one
that is not has done so for some tags, and has left the others as they were.
-/

namespace Ocid

open Call

/-! ### What the tags point at -/

/-- The digest of the manifest that each tag points at. -/
abbrev TagMap : Type := Ref → Option Digest

/-- What a request means to do to the tags. -/
inductive Edit where
  | point (r : Ref) (digest : Digest)
  | dropTag (r : Ref)
  /-- Every tag of the image that points at the digest. -/
  | dropDigest (publisher : PublisherId) (image : Str) (digest : Digest)

/-- What an edit makes of the tags. -/
def Edit.apply : Edit → TagMap → TagMap
  | .point r digest, m => Function.update m r (some digest)
  | .dropTag r, m => Function.update m r none
  | .dropDigest publisher image digest, m => fun r =>
      if r.publisher = publisher ∧ r.name = image ∧ m r = some digest then none else m r

/-- The map after a request that means to edit it, or does not. -/
def TagMap.edited (m : TagMap) : Option Edit → TagMap
  | none => m
  | some e => e.apply m

theorem TagMap.edited_point_self (m : TagMap) (r : Ref) (digest : Digest) :
    m.edited (some (.point r digest)) r = some digest := by
  rw [edited, Edit.apply, Function.update_self]

theorem TagMap.edited_point_of_ne (m : TagMap) {q r : Ref} (h : q ≠ r) (digest : Digest) :
    m.edited (some (.point r digest)) q = m q := by
  rw [edited, Edit.apply, Function.update_of_ne h]

/-- What the tags of the records point at. -/
def tagMap (t : Table Release.ref) : TagMap :=
  fun r => (t.get r).map fun rel => rel.payload.manifest.digest

/-! ### Tables without some of their records -/

/-- A tag of the image that is among `ts`. -/
def Ref.Under (publisher : PublisherId) (image : Str) (ts : List Str) (q : Ref) : Prop :=
  q.publisher = publisher ∧ q.name = image ∧ q.tag ∈ ts

/-- `u` is `t` without the records in `gone`. -/
def Stripped (gone : Ref → Prop) (t u : Table Release.ref) : Prop :=
  ∀ q, (gone q ∧ u.get q = none) ∨ (¬ gone q ∧ u.get q = t.get q)

/-- `u` is `t` without some of the records in `gone`. -/
def Thinned (gone : Ref → Prop) (t u : Table Release.ref) : Prop :=
  ∀ q, (gone q ∧ u.get q = none) ∨ u.get q = t.get q

section
variable {gone gone' : Ref → Prop} {t u v : Table Release.ref}

theorem Stripped.thinned (h : Stripped gone t u) : Thinned gone t u :=
  fun q => (h q).imp_right And.right

theorem Thinned.refl (gone : Ref → Prop) (t : Table Release.ref) : Thinned gone t t :=
  fun _ => Or.inr rfl

theorem Thinned.mono (h : Thinned gone t u) (hsub : ∀ q, gone q → gone' q) : Thinned gone' t u :=
  fun q => (h q).imp_left (And.imp_left (hsub q))

theorem Stripped.trans (h : Stripped gone t u) (h' : Stripped gone' u v) :
    Stripped (fun q => gone q ∨ gone' q) t v := by
  intro q
  rcases h' q with ⟨hq', hnone⟩ | ⟨hq', hget⟩
  · exact Or.inl ⟨Or.inr hq', hnone⟩
  · rcases h q with ⟨hq, hnone⟩ | ⟨hq, hget'⟩
    · exact Or.inl ⟨Or.inl hq, hget.trans hnone⟩
    · exact Or.inr ⟨not_or.mpr ⟨hq, hq'⟩, hget.trans hget'⟩

theorem Stripped.thin (h : Stripped gone t u) (h' : Thinned gone' u v) :
    Thinned (fun q => gone q ∨ gone' q) t v := by
  intro q
  rcases h' q with ⟨hq', hnone⟩ | hget
  · exact Or.inl ⟨Or.inr hq', hnone⟩
  · exact (h q).imp (fun hq => ⟨Or.inl hq.1, hget.trans hq.2⟩) fun hq => hget.trans hq.2

theorem Stripped.congr (h : Stripped gone t u) (hiff : ∀ q, gone q ↔ gone' q) :
    Stripped gone' t u := by
  intro q
  rw [← hiff]
  exact h q

end

theorem Ref.under_cons {publisher : PublisherId} {image tag : Str} {ts : List Str} (q : Ref) :
    (q = ⟨publisher, image, tag⟩ ∨ q.Under publisher image ts) ↔
      q.Under publisher image (tag :: ts) := by
  obtain ⟨p, n, t⟩ := q
  simp only [Ref.Under, Ref.mk.injEq, List.mem_cons]
  tauto

section
variable [External]

/-! ### The handlers -/

/-- `GET /v2/<name>/tags/list`: the tags of the response. -/
def tagsList (node : Node) (name : Str) : Handler (List Str) := do
  let r ← ofExcept (resolve node name)
  let tags ← (listTags r.1 r.2).lift
  if tags.isEmpty then fail (.notFound "NAME_UNKNOWN" ("unknown repository " ++ name))
  else pure tags

/-- The tags among `ts` that point at the digest. -/
def tagsAt (publisher : PublisherId) (image : Str) (digest : Digest) : List Str → Op (List Str)
  | [] => pure []
  | t :: ts => do
      let r ← getRelease publisher image t
      let v ← tagsAt publisher image digest ts
      pure (if r.any fun r => r.payload.manifest.digest = digest then t :: v else v)

/-- The tags that are to go. -/
def deletedTags (publisher : PublisherId) (image name reference : Str) : Handler (List Str) :=
  match Digest.parse reference with
  | .ok digest => do
      let tags ← (listTags publisher image).lift
      let v ← (tagsAt publisher image digest tags).lift
      if v.isEmpty then fail (.notFound "MANIFEST_UNKNOWN"
        ("no tag of " ++ name ++ " points at " ++ digest.str))
      else pure v
  | .error _ => do
      ofExcept (checkTag reference)
      match ← (getRelease publisher image reference).lift with
      | none => fail (.notFound "MANIFEST_UNKNOWN" (name ++ ':' :: (reference ++ " not found")))
      | some _ => pure [reference]

/-- Remove the tags, one after the other. -/
def removeEach (node : Node) (publisher : PublisherId) (image : Str) : List Str → Op Unit
  | [] => pure ()
  | t :: ts => do
      let _ ← node.removeRelease publisher image (some t)
      removeEach node publisher image ts

/-- Remove the releases of a tag, or those of every tag of the repository pointing at a
manifest. -/
def manifestDelete (node : Node) (name reference : Str) : Handler Response := do
  let r ← ofExcept (resolve node name)
  let tags ← deletedTags r.1 r.2 name reference
  (removeEach node r.1 r.2 tags).lift
  pure ⟨202, [], []⟩

/-! ### Records that are removed -/

theorem removeRelease_triple (publisher : PublisherId) (image tag : Str)
    (t : Table Release.ref) :
    Triple (fun s : Store => s.releases = t) (removeRelease publisher image tag)
      (fun _ s => Stripped (· = ⟨publisher, image, tag⟩) t s.releases)
      (fun s => Thinned (· = ⟨publisher, image, tag⟩) t s.releases) := by
  refine Triple.bind (Q := fun p s => p = ⟨publisher, image, tag⟩ ∧ s.releases = t)
    (Triple.ofExcept fun s hs => ⟨hs ▸ Thinned.refl _ _, fun p hp =>
      ⟨(releasePath_eq_ok.mp hp).2.2, hs⟩⟩) fun p => ?_
  refine Triple.bind (Q := fun s₀ s => s₀ = s ∧ p = ⟨publisher, image, tag⟩ ∧ s.releases = t)
    (Triple.read fun s hs => ⟨hs.2 ▸ Thinned.refl _ _, rfl, hs⟩) fun s₀ =>
      Triple.each fun s hs => ?_
  obtain ⟨rfl, rfl, rfl⟩ := hs
  refine Triple.ite (fun _ => ?_) fun hhas => ?_
  · have hstripped : Stripped (· = ⟨publisher, image, tag⟩) s₀.releases
        (s₀.releases.erase ⟨publisher, image, tag⟩) := by
      intro q
      by_cases hq : q = ⟨publisher, image, tag⟩
      · exact Or.inl ⟨hq, hq ▸ Table.get_erase_self _ _⟩
      · exact Or.inr ⟨hq, Table.get_erase_of_ne (Ne.symm hq)⟩
    refine Triple.bind (Q := fun _ s => Stripped (· = ⟨publisher, image, tag⟩) s₀.releases
      s.releases) (Triple.write ?_) fun _ => Triple.pure fun s hs => ⟨hs.thinned, hs⟩
    rintro s rfl
    exact ⟨Thinned.refl _ _, hstripped.thinned, hstripped⟩
  · refine Triple.pure ?_
    rintro s rfl
    refine ⟨Thinned.refl _ _, fun q => ?_⟩
    by_cases hq : q = ⟨publisher, image, tag⟩
    · exact Or.inl ⟨hq, hq ▸ Table.has_eq_false_iff.mp (Bool.eq_false_of_not_eq_true hhas)⟩
    · exact Or.inr ⟨hq, rfl⟩

theorem Node.removeRelease_triple (node : Node) (publisher : PublisherId) (image tag : Str)
    (t : Table Release.ref) :
    Triple (fun s : Store => s.releases = t) (node.removeRelease publisher image (some tag))
      (fun _ s => Stripped (· = ⟨publisher, image, tag⟩) t s.releases)
      (fun s => Thinned (· = ⟨publisher, image, tag⟩) t s.releases) := by
  have hsweep : Triple (fun s : Store => Stripped (· = ⟨publisher, image, tag⟩) t s.releases)
      (sweepBlobsLocked false [])
      (fun _ s => Stripped (· = ⟨publisher, image, tag⟩) t s.releases)
      (fun s => Stripped (· = ⟨publisher, image, tag⟩) t s.releases) :=
    Triple.ofEmits (emits_sweepBlobsLocked (P := fun w => w.part ≠ .releases)
      (fun _ => by simp [Write.part]) (fun _ => by simp [Write.part]) _ _)
      fun _ _ hw hs => (Store.releases_apply hw).symm ▸ hs
  refine Triple.bind (Q := fun ts s => ts = [tag] ∧ s.releases = t)
    (Triple.pure fun s hs => ⟨hs ▸ Thinned.refl _ _, rfl, hs⟩) fun ts => Triple.each fun s hs => ?_
  obtain ⟨rfl, hs⟩ := hs
  refine Triple.bind (Q := fun _ s => Stripped (· = ⟨publisher, image, tag⟩) t s.releases) ?_
    fun removed => Triple.ite (fun _ => ?_) fun _ => ?_
  · have hremove := Ocid.removeRelease_triple publisher image tag t
    refine Triple.bind (hremove.pre fun s' hs' => (congrArg _ hs').trans hs) fun _ => ?_
    exact Triple.bind (Q := fun _ s => Stripped (· = ⟨publisher, image, tag⟩) t s.releases)
      (Triple.pure fun s hs => ⟨hs.thinned, hs⟩) fun _ => Triple.pure fun s hs => ⟨hs.thinned, hs⟩
  · exact Triple.pure fun s hs => ⟨hs.thinned, hs⟩
  · exact Triple.bind (hsweep.weaken fun s hs => hs.thinned) fun _ =>
      Triple.pure fun s hs => ⟨hs.thinned, hs⟩

theorem removeEach_triple (node : Node) (publisher : PublisherId) (image : Str) (ts : List Str)
    (t : Table Release.ref) :
    Triple (fun s : Store => s.releases = t) (removeEach node publisher image ts)
      (fun _ s => Stripped (Ref.Under publisher image ts) t s.releases)
      (fun s => Thinned (Ref.Under publisher image ts) t s.releases) := by
  induction ts generalizing t with
  | nil =>
      refine Triple.pure fun s hs => ⟨hs ▸ Thinned.refl _ _, fun q => Or.inr ⟨?_, ?_⟩⟩
      · exact fun hq => absurd hq.2.2 List.not_mem_nil
      · exact congrArg (·.get q) hs
  | cons tag ts ih =>
      refine Triple.bind ((node.removeRelease_triple publisher image tag t).weaken fun s hs =>
        hs.mono fun q hq => (Ref.under_cons q).mp (Or.inl hq)) fun _ => Triple.each fun s hs => ?_
      refine (((ih s.releases).pre fun s' hs' => congrArg _ hs').post fun _ s' hs' => ?_).weaken
        fun s' hs' => ?_
      · exact (hs.trans hs').congr Ref.under_cons
      · exact (hs.thin hs').mono fun q => (Ref.under_cons q).mp

/-! ### What is deleted -/

theorem getRelease_eq {publisher : PublisherId} {name tag : Str} {s : Store} {r : Option Release}
    (h : (getRelease publisher name tag).result s = .ok r) :
    r = s.releases.get ⟨publisher, name, tag⟩ := by
  obtain ⟨p, hp, h⟩ := result_bind_ok.mp h
  obtain ⟨s', hs', h⟩ := result_bind_ok.mp h
  cases hs'
  cases h
  rw [(releasePath_eq_ok.mp hp).2.2]
  rfl

theorem emits_tagsAt {P : Write → Prop} (publisher : PublisherId) (image : Str) (digest : Digest)
    (ts : List Str) : Emits P (tagsAt publisher image digest ts) := by
  induction ts with
  | nil => exact Emits.pure _
  | cons t ts ih =>
      exact (emits_getRelease _ _ _).bind fun _ => ih.bind fun _ => Emits.pure _

theorem mem_tagsAt {publisher : PublisherId} {image : Str} {digest : Digest} {ts v : List Str}
    {s : Store} (h : (tagsAt publisher image digest ts).result s = .ok v) (t : Str) :
    t ∈ v ↔ t ∈ ts ∧ tagMap s.releases ⟨publisher, image, t⟩ = some digest := by
  induction ts generalizing v with
  | nil =>
      cases h
      simp
  | cons tag ts ih =>
      obtain ⟨r, hr, h⟩ := result_bind_ok.mp h
      rw [(final_of_emits_false (emits_getRelease _ _ _) s).2] at h
      obtain ⟨v', hv', h⟩ := result_bind_ok.mp h
      cases h
      have hpoints : (r.any fun r => r.payload.manifest.digest = digest) = true ↔
          tagMap s.releases ⟨publisher, image, tag⟩ = some digest := by
        rw [tagMap, ← getRelease_eq hr]
        cases r with
        | none => simp
        | some rel => simp
      split
      · rename_i hany
        rw [List.mem_cons, List.mem_cons, ih hv', or_and_right]
        refine or_congr_left (iff_self_and.mpr ?_)
        rintro rfl
        exact hpoints.mp hany
      · rename_i hany
        rw [List.mem_cons, ih hv', or_and_right]
        refine (or_iff_right ?_).symm
        rintro ⟨rfl, hd⟩
        exact hany (hpoints.mpr hd)

/-- What a deletion means to do. -/
def deletion (publisher : PublisherId) (image reference : Str) : Edit :=
  match Digest.parse reference with
  | .ok digest => .dropDigest publisher image digest
  | .error _ => .dropTag ⟨publisher, image, reference⟩

theorem emits_deletedTags {P : Write → Prop} (publisher : PublisherId)
    (image name reference : Str) : Emits P (deletedTags publisher image name reference) := by
  unfold deletedTags
  split
  · exact ((emits_listTags _ _).mapErr _).bind fun _ => ((emits_tagsAt _ _ _ _).mapErr _).bind
      fun _ => Emits.ite (fun _ => Emits.fail _) fun _ => Emits.pure _
  · refine (Emits.ofExcept _).bind fun _ => ((emits_getRelease _ _ _).mapErr _).bind fun r => ?_
    cases r with
    | none => exact Emits.fail _
    | some rel => exact Emits.pure _

/-- The tags that are to go are those the deletion drops. -/
theorem apply_deletion {publisher : PublisherId} {image name reference : Str} {ts : List Str}
    {s : Store} (h : (deletedTags publisher image name reference).result s = .ok ts) (q : Ref) :
    (q.Under publisher image ts →
        (deletion publisher image reference).apply (tagMap s.releases) q = none) ∧
      (¬ q.Under publisher image ts →
        (deletion publisher image reference).apply (tagMap s.releases) q =
          tagMap s.releases q) := by
  cases hd : Digest.parse reference with
  | ok digest =>
      simp only [deletedTags, deletion, hd, Edit.apply] at h ⊢
      obtain ⟨tags, htags, h⟩ := result_bind_ok.mp h
      have hquiet : (listTags publisher image).lift.final s = s :=
        (final_of_emits_false (emits_listTags _ _) s).2
      rw [hquiet] at h
      obtain ⟨v, hv, h⟩ := result_bind_ok.mp h
      have hmem := mem_tagsAt (result_mapErr_ok.mp hv)
      obtain ⟨-, hlisted⟩ := listTags_ok (result_mapErr_ok.mp htags)
      split at h
      · cases h
      · cases h
        obtain ⟨p, n, t⟩ := q
        refine ⟨?_, fun hq => if_neg ?_⟩
        · rintro ⟨rfl, rfl, ht⟩
          exact if_pos ⟨rfl, rfl, ((hmem t).mp ht).2⟩
        · rintro ⟨rfl, rfl, hdigest⟩
          obtain ⟨rel, hrel, -⟩ := Option.map_eq_some_iff.mp hdigest
          exact hq ⟨rfl, rfl, (hmem t).mpr ⟨(hlisted t).mpr ⟨rel, hrel⟩, hdigest⟩⟩
  | error e =>
      simp only [deletedTags, deletion, hd, Edit.apply] at h ⊢
      obtain ⟨u, -, h⟩ := result_bind_ok.mp h
      obtain ⟨r, -, h⟩ := result_bind_ok.mp h
      cases r with
      | none => cases h
      | some rel =>
          cases h
          have hunder : q.Under publisher image [reference] ↔
              q = ⟨publisher, image, reference⟩ := by
            obtain ⟨p, n, t⟩ := q
            simp [Ref.Under]
          rw [hunder]
          exact ⟨fun hq => hq ▸ Function.update_self _ _ _, fun hq => Function.update_of_ne hq _ _⟩

/-- The tags while a deletion runs, and after it. -/
theorem manifestDelete_triple (node : Node) (name reference : Str) (s : Store) :
    Triple (fun s' => s' = s) (manifestDelete node name reference)
      (fun _ s' => ∃ r, resolve node name = .ok r ∧
        tagMap s'.releases = (deletion r.1 r.2 reference).apply (tagMap s.releases))
      (fun s' => tagMap s'.releases = tagMap s.releases ∨ ∃ r, resolve node name = .ok r ∧
        ∀ q, tagMap s'.releases q = tagMap s.releases q ∨
          tagMap s'.releases q = (deletion r.1 r.2 reference).apply (tagMap s.releases) q) := by
  refine Triple.bind (Q := fun r s' => resolve node name = .ok r ∧ s' = s)
    (Triple.ofExcept fun s' hs => ⟨Or.inl (hs ▸ rfl), fun r hr => ⟨hr, hs⟩⟩) fun r => ?_
  refine Triple.bind (Triple.quiet (emits_deletedTags _ _ _ _) fun s' hs => Or.inl (hs.2 ▸ rfl))
    fun ts => Triple.each fun s' hs => ?_
  obtain ⟨⟨hresolve, rfl⟩, hts⟩ := hs
  have hgone := apply_deletion hts
  have hremove := removeEach_triple node r.1 r.2 ts s'.releases
  refine Triple.bind (Q := fun _ u => tagMap u.releases =
      (deletion r.1 r.2 reference).apply (tagMap s'.releases))
    (((hremove.pre fun u hu => congrArg _ hu).post fun _ u hu => ?_).weaken fun u hu => ?_).mapErr
    fun _ => Triple.pure fun u hu => ?_
  · funext q
    rcases hu q with ⟨hq, hnone⟩ | ⟨hq, hget⟩
    · rw [(hgone q).1 hq, tagMap, hnone]
      rfl
    · rw [(hgone q).2 hq, tagMap, hget]
      rfl
  · refine Or.inr ⟨r, hresolve, fun q => ?_⟩
    rcases hu q with ⟨hq, hnone⟩ | hget
    · rw [(hgone q).1 hq, tagMap, hnone]
      exact Or.inr rfl
    · exact Or.inl (by rw [tagMap, hget, tagMap])
  · exact ⟨Or.inr ⟨r, hresolve, fun q => Or.inr (congrFun hu q)⟩, r, hresolve, hu⟩

/-! ### What is pushed -/

omit [External] in
theorem tagMap_recorded (t : Table Release.ref) (rel : Release) (q : Ref) :
    tagMap (recorded t rel) q = tagMap t q ∨
      (q = rel.ref ∧ tagMap (recorded t rel) q = some rel.payload.manifest.digest) := by
  unfold recorded
  split
  · by_cases hq : rel.ref = q
    · subst hq
      exact Or.inr ⟨rfl, by rw [tagMap, Table.get_put_self, Option.map_some]⟩
    · exact Or.inl (by rw [tagMap, Table.get_put_of_ne hq, tagMap])
  · exact Or.inl rfl

/-- What a push means to do: one under a tag points that tag at the body. -/
def Push.edit (node : Node) (push : Push) : Option Edit :=
  if push.isTag then do
    let r ← (resolve node push.name).toOption
    let bytes ← push.read.toOption
    pure (.point ⟨r.1, r.2, push.reference⟩ (Digest.sha256 bytes))
  else none

namespace Pushed

variable {node : Node} {push : Push} {s : Store} {x : Pushed node push s} {clock : ℕ → ℕ}
  {t u : Table Release.ref}

theorem edit_eq (x : Pushed node push s) : push.edit node =
    if push.isTag then some (.point x.ref (Digest.sha256 x.bytes)) else none := by
  rw [Push.edit, x.resolved, x.body]
  rfl

/-- Extending records moves no tag. -/
theorem Touches.tagMap_eq (h : x.Touches clock t u) : tagMap u = tagMap t := by
  funext r
  unfold Touches at h
  split at h
  · rw [h]
  · rcases h r with hsame | ⟨rel, hrel, -, i, -, hext⟩
    · rw [tagMap, hsame, tagMap]
    · rw [tagMap, hext, tagMap, hrel, Option.map_some, Option.map_some, attachedRelease_manifest]

/-- Publishing the release of a push points its tag at the body, or moves no tag. -/
theorem tagMap_publishes (x : Pushed node push s) (now : ℕ) (t : Table Release.ref) (q : Ref) :
    tagMap (x.publishes now t) q = tagMap t q ∨
      tagMap (x.publishes now t) q = (tagMap t).edited (push.edit node) q := by
  rw [x.edit_eq]
  cases htag : push.isTag with
  | false =>
      unfold publishes
      split
      · exact Or.inl rfl
      · rename_i e he
        rw [isTag_of_parse he] at htag
        cases htag
  | true =>
      rw [publishes_of_isTag htag]
      refine (tagMap_recorded t (x.release now) q).imp_right ?_
      rintro ⟨rfl, hpoint⟩
      rw [hpoint, if_pos rfl]
      exact ((tagMap t).edited_point_self x.ref _).symm

end Pushed

namespace Request

variable {node : Node} {q : Request} {s : Store}

/-- The tags after a push, however it ends. -/
theorem tagMap_final (q : Request) (node : Node) (s : Store) (r : Ref) :
    tagMap ((q.run node).final s).releases r = tagMap s.releases r ∨
      tagMap ((q.run node).final s).releases r =
        (tagMap s.releases).edited (q.push.edit node) r := by
  rcases q.run_final node s with hsame | ⟨x, u, ⟨hu, hfinal⟩ | ⟨hu, hfinal⟩⟩
  · exact Or.inl (by rw [hsame])
  · exact Or.inl (by rw [hfinal, hu.tagMap_eq])
  · rw [hfinal, ← hu.touches.tagMap_eq]
    exact x.tagMap_publishes _ _ r

/-- A push that is answered has done what it means to do, when the record it meets admits it. -/
theorem tagMap_run {resp : Response} (hok : (q.run node).result s = .ok resp)
    (hadmits : ∀ x : Pushed node q.push s, q.push.isTag = true → x.Admits q.readings.last) :
    tagMap ((q.run node).final s).releases = (tagMap s.releases).edited (q.push.edit node) := by
  obtain ⟨x, -, -, u, hu, hfinal⟩ := run_ok hok
  rw [hfinal, ← hu.touches.tagMap_eq]
  funext r
  rcases x.tagMap_publishes q.readings.last u r with hsame | hedit
  · rw [hsame, x.edit_eq]
    split
    · rename_i htag
      by_cases hr : r = x.ref
      · -- the record held gave way, or names the pushed manifest already
        obtain ⟨rel, hrel, hdigest⟩ := (x.named_iff hu).mpr (hadmits x htag)
        rw [Pushed.publishes_of_isTag htag] at hsame
        subst hr
        rw [← hsame, TagMap.edited_point_self, tagMap, hrel, Option.map_some, hdigest]
      · exact ((tagMap u).edited_point_of_ne hr _).symm
    · rfl
  · exact hedit

end Request

/-! ### Requests, one after another -/

/-- A push, or a deletion with the fault, if any, that stops it. -/
inductive TagRequest where
  | put (q : Request)
  | delete (name reference : Str) (fault : Option (ℕ × OciError))

namespace TagRequest

variable (node : Node)

/-- What a request does. -/
def run : TagRequest → Handler Response
  | .put q => q.run node
  | .delete name reference fault => (manifestDelete node name reference).cut fault

/-- How a request means to edit the tags. -/
def edit : TagRequest → Option Edit
  | .put q => q.push.edit node
  | .delete name reference _ => (resolve node name).toOption.map fun r =>
      deletion r.1 r.2 reference

/-- A push meets a record that admits it. -/
def Admitted (s : Store) : TagRequest → Prop
  | .put q => ∀ x : Pushed node q.push s, q.push.isTag = true → x.Admits q.readings.last
  | .delete _ _ _ => True

variable {node} {c : TagRequest} {s : Store}

/-- A request that is answered has edited the tags. -/
theorem tagMap_run {resp : Response} (hok : (c.run node).result s = .ok resp)
    (hadmitted : c.Admitted node s) :
    tagMap ((c.run node).final s).releases = (tagMap s.releases).edited (c.edit node) := by
  cases c with
  | put q => exact q.tagMap_run hok hadmitted
  | delete name reference fault =>
      have hcut : (TagRequest.delete name reference fault).run node =
          manifestDelete node name reference := cut_of_result_ok hok
      rw [hcut] at hok ⊢
      obtain ⟨r, hr, hmap⟩ := (manifestDelete_triple node name reference s).ok rfl hok
      rw [hmap, edit, hr]
      rfl

/-- However a request ends, each tag is as it was, or edited. -/
theorem tagMap_final (c : TagRequest) (node : Node) (s : Store) (q : Ref) :
    tagMap ((c.run node).final s).releases q = tagMap s.releases q ∨
      tagMap ((c.run node).final s).releases q =
        (tagMap s.releases).edited (c.edit node) q := by
  cases c with
  | put q' => exact q'.tagMap_final node s q
  | delete name reference fault =>
      rcases (manifestDelete_triple node name reference s).final_cut rfl fault with
        hsame | ⟨r, hr, hpart⟩
      · exact Or.inl (congrFun hsame q)
      · rw [edit, hr]
        exact hpart q

end TagRequest

/-- A node, with what it was asked and has answered, the latest first. -/
structure TagRun where
  store : Store
  log : List (TagRequest × Except OciError Response)

namespace TagRun

/-- Before the first request. -/
def start : TagRun := ⟨.empty, []⟩

/-- One request, which is logged with its answer. -/
def step (node : Node) (w : TagRun) (c : TagRequest) : Option TagRun :=
  some ⟨(c.run node).final w.store, (c, (c.run node).result w.store) :: w.log⟩

end TagRun

/-- The map is what the requests have made of the empty one. -/
def Explains (node : Node) : List (TagRequest × Except OciError Response) → TagMap → Prop
  | [], m => ∀ q, m q = none
  | (c, answer) :: log, m => ∃ m', Explains node log m' ∧
      (answer.isOk = true → m = m'.edited (c.edit node)) ∧
        ∀ q, m q = m' q ∨ m q = m'.edited (c.edit node) q

/-- What the node lists of its own images, and serves under their tags, is what the map says. -/
structure Store.Shows (node : Node) (s : Store) (m : TagMap) : Prop where
  lists : ∀ name image tags, resolve node name = .ok (node.id, image) →
    (tagsList node name).result s = .ok tags → ∀ t, t ∈ tags ↔ (m ⟨node.id, image, t⟩).isSome
  serves : ∀ name image tag head net timeout resp, resolve node name = .ok (node.id, image) →
    Digest.wellFormed tag = false →
    (manifestGet node name tag head net timeout).result s = .ok resp →
      ∃ d, m ⟨node.id, image, tag⟩ = some d ∧ resp.header "docker-content-digest" = some d.str

theorem mem_tagsList {node : Node} {name : Str} {r : PublisherId × Str} {s : Store}
    {tags : List Str} (hr : resolve node name = .ok r)
    (h : (tagsList node name).result s = .ok tags) (t : Str) :
    t ∈ tags ↔ (tagMap s.releases ⟨r.1, r.2, t⟩).isSome := by
  obtain ⟨r', hr', h⟩ := result_bind_ok.mp h
  obtain rfl : r = r' := Except.ok.inj (hr.symm.trans hr')
  obtain ⟨ts, hts, h⟩ := result_bind_ok.mp h
  obtain ⟨-, hlisted⟩ := listTags_ok (result_mapErr_ok.mp hts)
  have hsame : ts = tags := by
    split at h
    · cases h
    · cases h
      rfl
  rw [← hsame, hlisted t, tagMap, Option.isSome_map, Option.isSome_iff_exists]
  exact Iff.rfl

/-- An own image is served from the record under its tag. -/
theorem own_of_getOrFetch {node : Node} {image tag : Str} {net : EndpointId → Exchange} {s : Store}
    {rel : Release} (h : (getOrFetch node node.id image tag net).result s = .ok (some rel)) :
    s.releases.get ⟨node.id, image, tag⟩ = some rel := by
  obtain ⟨s', hs', h⟩ := result_bind_ok.mp h
  obtain ⟨r, hr, h⟩ := result_bind_ok.mp h
  have hget : r = s.releases.get ⟨node.id, image, tag⟩ := getRelease_eq hr
  rw [← hget]
  cases r with
  | none =>
      simp only [if_true] at h
      cases h
  | some rel' =>
      simp only [if_true] at h
      split at h
      · cases h
        rfl
      · cases h

theorem shows_tagMap (node : Node) (s : Store) : s.Shows node (tagMap s.releases) where
  lists name image tags hr h t := mem_tagsList hr h t
  serves := by
    intro name image tag head net timeout resp hr htag h
    obtain ⟨r, hr', h⟩ := result_bind_ok.mp h
    obtain rfl : (node.id, image) = r := Except.ok.inj (hr.symm.trans hr')
    obtain ⟨blob, hblob, h⟩ := result_bind_ok.mp h
    refine ⟨blob.digest, ?_, (serveManifest_ok h).2.2.1⟩
    have hparse : ∃ e, Digest.parse tag = .error e := by
      cases hp : Digest.parse tag with
      | ok d =>
          rw [Digest.parse_eq_ok.mp hp, d.wf] at htag
          cases htag
      | error e => exact ⟨e, rfl⟩
    obtain ⟨e, he⟩ := hparse
    rw [manifestBlob, he] at hblob
    obtain ⟨u, -, hblob⟩ := result_bind_ok.mp hblob
    obtain ⟨answer, hpull, hblob⟩ := result_bind_ok.mp hblob
    cases answer with
    | none => cases hblob
    | some rel =>
        cases hblob
        rw [cut_of_result_ok hpull] at hpull
        have hget : s.releases.get ⟨node.id, image, tag⟩ = some rel :=
          own_of_getOrFetch (result_mapErr_ok.mp hpull)
        rw [tagMap, hget, Option.map_some]

theorem explains_step {node : Node} {w : TagRun} {c : TagRequest}
    (h : Explains node w.log (tagMap w.store.releases)) (hadmitted : c.Admitted node w.store) :
    Explains node ((c, (c.run node).result w.store) :: w.log)
      (tagMap ((c.run node).final w.store).releases) := by
  refine ⟨_, h, fun hok => ?_, c.tagMap_final node w.store⟩
  cases hresult : (c.run node).result w.store with
  | error e =>
      rw [hresult] at hok
      cases hok
  | ok resp => exact TagRequest.tagMap_run hresult hadmitted

/-- **Pushed and deleted tags.**  In a run of pushes and deletions, one after another, each push of
which meets a record that admits it, what a node lists and serves of its own images is what the
requests have made of the empty map. -/
theorem run_shown {node : Node} {cs : List TagRequest}
    (h : Meets (TagRun.step node) (fun w c => c.Admitted node w.store) .start cs) :
    Throughout (TagRun.step node)
      (fun w => ∃ m, Explains node w.log m ∧ w.store.Shows node m) .start cs := by
  have hexplained : Throughout (TagRun.step node)
      (fun w => Explains node w.log (tagMap w.store.releases)) .start cs := by
    refine throughout_of_meets (fun w c v hw hc hstep => ?_) (fun _ => rfl) h
    cases hstep
    exact explains_step hw hc
  exact hexplained.mono fun w hw => ⟨_, hw, shows_tagMap node w.store⟩

end

/-- A tag is pushed, and deleted by its digest. -/
theorem run_shown_at : letI := sample
    let node := Sample.node Policy.default
    Throughout (TagRun.step node)
      (fun w => ∃ m, Explains node w.log m ∧ w.store.Shows node m) .start
      [.put (Sample.request "app" "1.0" Sample.index 5),
        .delete "app" Sample.index.digest.str none] := by
  let _ := sample
  intro node
  refine run_shown ⟨fun x _ e he => ?_, fun _ _ => ⟨trivial, fun _ _ => trivial⟩⟩
  cases he

end Ocid
