import Ocid.Retention.Settled

/-!
# Retention — Listed — referrer records, the index and the releases

A referrer record says that a manifest refers to another.  It is written when such a manifest is
pushed and when a release that names it is stored; the index entry of the manifest is dropped by a
sweep, and the record only by a collection.

`Catalogued` is what the three should say of each other: every referrer listed is indexed, and every
referrer that a release names and includes is listed.  Operations run one after another on a
`Workbench`, pushes and fetches step by step, so that they can be interrupted; `run_catalogued_iff`
says exactly which steps keep it.
-/

namespace Ocid

open Call

section
variable [External]

/-- A blob of the release is the manifest of the referrer. -/
def Release.Includes (rel : Release) (r : Referrer) : Prop :=
  ∃ b ∈ rel.payload.blobs, b.digest = r.digest

instance (rel : Release) (r : Referrer) : Decidable (rel.Includes r) :=
  inferInstanceAs (Decidable (∃ b ∈ rel.payload.blobs, _))

/-- Referrer records, index and releases agree. -/
structure Store.Catalogued (s : Store) : Prop where
  /-- What is listed can be looked up by its digest. -/
  indexed : ∀ subject, ∀ r ∈ s.listReferrers subject, s.digests.has r.digest = true
  /-- What a release names and includes is listed for its manifest. -/
  listed : ∀ rel ∈ s.releases.rows, ∀ r ∈ rel.payload.referrers, rel.Includes r →
    ∃ l ∈ s.listReferrers rel.payload.manifest.digest, l.digest = r.digest

/-! ### The operations, one after another -/

/-- What is under way. -/
inductive Job where
  | push (p : PushRun)
  | fetch (f : FetchRun)

/-- A removal of releases, a window, or a collection. -/
inductive Removal where
  | release (publisher : PublisherId) (name : Str) (tag : Option Str)
  | prune (call : PruneCall) (policy : Policy) (young : Release → Bool)

/-- A node that handles one push or one fetch at a time. -/
structure Workbench where
  store : Store
  job : Option Job

/-- What happens at the workbench. -/
inductive WorkAct where
  | upload (data : Bytes) (expect : Option Digest) (mediaType : Option Str)
  | beginPush (push : Push)
  | push (a : PushAct)
  /-- The daemon stops after `k` of the writes that store the release of this step. -/
  | cutPush (a : PushAct) (k : ℕ)
  | beginFetch (release : Release) (providers : List EndpointId)
  | fetch (a : FetchAct)
  /-- The daemon stops after `k` of the writes that store the release fetched. -/
  | cutFetch (k : ℕ)
  | remove (r : Removal)

/-- What is left of a push after a step. -/
def PushRun.job (p : PushRun) : Option Job :=
  match p.stage with
  | .ended => none
  | _ => some (.push p)

/-- What is left of a fetch after a step. -/
def FetchRun.job (f : FetchRun) : Option Job := if f.live then some (.fetch f) else none

/-- The release that the next step of the fetch stores. -/
def FetchRun.puts (f : FetchRun) : Option Release :=
  match f.stage, f.todo with
  | .looking, [] => some f.release
  | _, _ => none

/-- What a removal does. -/
def Removal.op (node : Node) : Removal → Op Unit
  | .release publisher name tag => do
      let _ ← node.removeRelease publisher name tag
      pure ()
  | .prune call policy young => call.op node policy young

namespace Workbench

variable (node : Node) (w : Workbench)

/-- A new node. -/
def start : Workbench := ⟨.empty, none⟩

/-- Stop in the middle of a call; nothing is left of the job. -/
def interrupted {α : Type} (m : Op α) (k : ℕ) : Workbench :=
  ⟨(m.cut (some (k, [("interrupted" : Str)]))).final w.store, none⟩

/-- What an act does. -/
def step : WorkAct → Option Workbench
  | .upload data expect mediaType =>
      some { w with store := (putBlobBytes data expect mediaType).final w.store }
  | .beginPush push =>
      match w.job with
      | none =>
          let m := checkPush node push
          let job := match m.result w.store with
            | .ok checked => some (.push ⟨push, checked, .checked⟩)
            | .error _ => none
          some ⟨m.final w.store, job⟩
      | some _ => none
  | .push a =>
      match w.job with
      | some (.push p) => (p.step node w.store a).map fun r => ⟨r.1, r.2.job⟩
      | _ => none
  | .cutPush a k =>
      match w.job with
      | some (.push p) => (p.puts node a).map fun rel =>
          w.interrupted (publish node (fun _ => .ok ()) rel) k
      | _ => none
  | .beginFetch release providers =>
      match w.job with
      | none =>
          if release.verify = .ok () then
            some { w with job := some (.fetch ⟨release, providers.filter fun q => q ≠ node.id, [],
              release.allBlobs, .looking⟩) }
          else none
      | some _ => none
  | .fetch a =>
      match w.job with
      | some (.fetch f) => (f.step w.store a).map fun r => ⟨r.1, r.2.job⟩
      | _ => none
  | .cutFetch k =>
      match w.job with
      | some (.fetch f) => f.puts.map fun rel => w.interrupted (putRelease rel) k
      | _ => none
  | .remove r =>
      match w.job with
      | none => some { w with store := (r.op node).final w.store }
      | some _ => none

end Workbench

/-! ### What each step must meet -/

/-- The referrers whose records are written with a release, when its storing stops after `k` writes;
without the release, none is. -/
def Release.filed (rel : Release) : Option ℕ → Option (List Referrer)
  | none => some rel.payload.referrers
  | some 0 => none
  | some (k + 1) => some (rel.payload.referrers.take k)

/-- The referrers filed with the release are indexed, and those it includes are filed with it, or
listed before.  A release that is refused files nothing. -/
def Store.Files (s : Store) (rel : Release) (k : Option ℕ) : Prop :=
  rel.verify = .ok () → s.accepts rel = true → ∀ rs ∈ rel.filed k,
    (∀ r ∈ rs, s.digests.has r.digest = true) ∧
      ∀ r ∈ rel.payload.referrers, rel.Includes r → (∃ r' ∈ rs, r'.digest = r.digest) ∨
        s.referrers.has (rel.payload.manifest.digest, r.digest) = true

/-- The removal takes the record. -/
def Removal.Takes (node : Node) (s : Store) (rel : Release) : Removal → Prop
  | .release publisher name tag =>
      rel.publisher = publisher ∧ rel.name = name ∧ ∀ t ∈ tag, rel.payload.tag = t
  | .prune call policy young =>
      call.Reaches policy young rel ∧ rel.publisher ≠ node.id ∧ ¬ s.Selected policy rel.ref

/-- A record that is not taken has a blob of this content. -/
def Store.LiveBut (s : Store) (takes : Release → Prop) (h : Blake3) : Prop :=
  ∃ rel ∈ s.releases.rows, ¬ takes rel ∧ ∃ b ∈ rel.allBlobs, b.hash = h

/-- The entry of the digest outlives a sweep: it is of content that a record which is not taken has,
and so is the digest's pin. -/
def Store.Outlives (s : Store) (takes : Release → Prop) (d : Digest) : Prop :=
  ∃ e, s.digests.get d = some e ∧ (∀ p ∈ s.pins.get d, s.LiveBut takes p.2) ∧
    s.LiveBut takes e.hash

/-- A removal that takes a record leaves the entry of every referrer listed; a collection, which
drops the others' records, leaves those that a record not taken names and includes. -/
def Removal.Spares (node : Node) (s : Store) (r : Removal) : Prop :=
  match r with
  | .prune (.collect req) _ _ => req.dryRun = false →
      ∀ rel ∈ s.releases.rows, ¬ r.Takes node s rel → ∀ x ∈ rel.payload.referrers,
        rel.Includes x → s.Outlives (fun rel => r.Takes node s rel) x.digest
  | _ => (∃ rel ∈ s.releases.rows, r.Takes node s rel) →
      ∀ p ∈ s.referrers.rows, s.Outlives (fun rel => r.Takes node s rel) p.2.digest

/-- The condition on a step. -/
def Workbench.Careful (node : Node) (w : Workbench) : WorkAct → Prop
  | .push a => ∀ p, w.job = some (.push p) → ∀ rel ∈ p.puts node a, w.store.Files rel none
  | .cutPush a k => ∀ p, w.job = some (.push p) → ∀ rel ∈ p.puts node a, w.store.Files rel (some k)
  | .fetch (.advance _) => ∀ f, w.job = some (.fetch f) → ∀ rel ∈ f.puts, w.store.Files rel none
  | .cutFetch k => ∀ f, w.job = some (.fetch f) → ∀ rel ∈ f.puts, w.store.Files rel (some k)
  | .remove r => w.job = none → r.Spares node w.store
  | _ => True

/-! ### The records of a subject, by key -/

variable {s t : Store}

theorem mem_listReferrers {subject : Digest} {r : Referrer} :
    r ∈ s.listReferrers subject ↔ s.referrers.get (subject, r.digest) = some (subject, r) := by
  rw [Store.listReferrers, List.mem_insertionSort, List.mem_map]
  constructor
  · rintro ⟨p, hp, rfl⟩
    obtain ⟨hrow, hsubject⟩ := List.mem_filter.mp hp
    obtain rfl := of_decide_eq_true hsubject
    exact Table.get_of_mem hrow
  · intro h
    exact ⟨(subject, r), List.mem_filter.mpr ⟨Table.mem_of_get h, decide_eq_true rfl⟩, rfl⟩

/-- A referrer is listed for a subject when there is a record under the two digests. -/
theorem exists_mem_listReferrers {subject d : Digest} :
    (∃ l ∈ s.listReferrers subject, l.digest = d) ↔ s.referrers.has (subject, d) = true := by
  rw [Table.has_iff]
  constructor
  · rintro ⟨l, hl, rfl⟩
    exact ⟨_, mem_listReferrers.mp hl⟩
  · rintro ⟨p, hp⟩
    have hkey : referrerKey p = (subject, d) := Table.key_of_get hp
    obtain ⟨rfl, rfl⟩ := Prod.mk.inj hkey
    exact ⟨p.2, mem_listReferrers.mpr hp, rfl⟩

theorem catalogued_iff : s.Catalogued ↔
    (∀ subject d, s.referrers.has (subject, d) = true → s.digests.has d = true) ∧
      ∀ rel ∈ s.releases.rows, ∀ r ∈ rel.payload.referrers, rel.Includes r →
        s.referrers.has (rel.payload.manifest.digest, r.digest) = true := by
  simp only [← exists_mem_listReferrers]
  constructor
  · rintro ⟨hindexed, hlisted⟩
    refine ⟨?_, hlisted⟩
    rintro subject _ ⟨l, hl, rfl⟩
    exact hindexed subject l hl
  · rintro ⟨hindexed, hlisted⟩
    exact ⟨fun subject r hr => hindexed subject _ ⟨r, hr, rfl⟩, hlisted⟩

/-! ### Storing a release -/

/-- The records after a release is stored with some of its referrers. -/
theorem has_replay_referrers (subject : Digest) (rs : List Referrer) (s : Store) (m d : Digest) :
    (replay s (rs.map (Write.referrer subject))).referrers.has (m, d) = true ↔
      s.referrers.has (m, d) = true ∨ (m = subject ∧ ∃ r ∈ rs, r.digest = d) := by
  induction rs generalizing s with
  | nil => simp
  | cons r rs ih =>
      have hfirst : (Journalled.apply s (Write.referrer subject r)).referrers.has (m, d) = true ↔
          s.referrers.has (m, d) = true ∨ (m = subject ∧ r.digest = d) := by
        show ((s.referrers.put (subject, r)).get (m, d)).isSome = true ↔ _
        rw [Table.get_put]
        by_cases hkey : referrerKey (subject, r) = (m, d)
        · rw [if_pos hkey]
          exact iff_of_true rfl (Or.inr (Prod.mk.inj hkey.symm |>.imp_right Eq.symm))
        · rw [if_neg hkey]
          refine (or_iff_left ?_).symm
          rintro ⟨rfl, rfl⟩
          exact hkey rfl
      rw [List.map_cons, replay_cons, ih, hfirst, or_assoc, ← and_or_left]
      simp

/-- What a release and some of its referrers change: they are there. -/
theorem catalogued_filed (hs : s.Catalogued) (rel : Release) (rs : List Referrer) :
    (replay s (.release rel :: rs.map (Write.referrer rel.payload.manifest.digest))).Catalogued ↔
      (∀ r ∈ rs, s.digests.has r.digest = true) ∧
        ∀ r ∈ rel.payload.referrers, rel.Includes r → (∃ r' ∈ rs, r'.digest = r.digest) ∨
          s.referrers.has (rel.payload.manifest.digest, r.digest) = true := by
  have hpart : ∀ w ∈ rs.map (Write.referrer rel.payload.manifest.digest), w.part = .referrers := by
    intro w hw
    obtain ⟨r, -, rfl⟩ := List.mem_map.mp hw
    rfl
  have hreleases := releases_replay (fun w hw => by rw [hpart w hw]; exact nofun)
    (s.apply (.release rel))
  have hdigests := digests_replay (fun w hw => by rw [hpart w hw]; exact nofun)
    (s.apply (.release rel))
  obtain ⟨hindexed, hlisted⟩ := catalogued_iff.mp hs
  rw [replay_cons, catalogued_iff]
  simp only [has_replay_referrers, Journalled.apply, hreleases, hdigests]
  simp only [Store.apply, Table.mem_put]
  constructor
  · rintro ⟨hindexed', hlisted'⟩
    refine ⟨fun r hr => hindexed' _ _ (Or.inr ⟨rfl, r, hr, rfl⟩), fun r hr hin => ?_⟩
    exact (hlisted' rel (Or.inl rfl) r hr hin).symm.imp_left And.right
  · rintro ⟨hfiled, hincluded⟩
    refine ⟨fun m d h => ?_, fun r hr x hx hin => ?_⟩
    · rcases h with h | ⟨-, r, hr, rfl⟩
      · exact hindexed m d h
      · exact hfiled r hr
    · rcases hr with rfl | ⟨hr, -⟩
      · exact (hincluded x hx hin).symm.imp_right fun h => ⟨rfl, h⟩
      · exact Or.inl (hlisted r hr x hx hin)

/-- Storing a release, or as much of it as the daemon comes to. -/
theorem catalogued_putRelease (hs : s.Catalogued) {rel : Release} (hv : rel.verify = .ok ())
    (k : Option ℕ) (e : Err) :
    (((putRelease rel).cut (k.map fun k => (k, e))).final s).Catalogued ↔ s.Files rel k := by
  obtain ⟨hn, ht⟩ := Release.valid_of_verify hv
  have happly := putRelease_apply hn ht s
  cases ha : s.accepts rel with
  | false =>
      have hquiet : (putRelease rel).journal s = [] := by
        rw [journal, happly, ha]
        rfl
      refine iff_of_true ?_ fun _ h => absurd (ha.symm.trans h) Bool.false_ne_true
      cases k with
      | none => rwa [Option.map_none, cut_none, final, hquiet]
      | some k => rwa [Option.map_some, final_cut_some, hquiet, List.take_nil]
  | true =>
      have hjournal : (putRelease rel).journal s = releaseWrites rel := by
        rw [journal, happly, ha]
        rfl
      simp only [Store.Files, hv, ha, true_imp_iff]
      rcases k with _ | _ | k
      · rw [Option.map_none, cut_none, final, hjournal, releaseWrites, catalogued_filed hs]
        simp [Release.filed]
      · simpa [Release.filed, final_cut_some] using hs
      · rw [Option.map_some, final_cut_some, hjournal, releaseWrites, List.take_succ_cons,
          ← List.map_take, catalogued_filed hs]
        simp [Release.filed]

/-- A release of the node is published as far as it is stored. -/
theorem journal_publish {node : Node} {rel : Release} (hown : rel.publisher = node.id)
    (gossip : Release → Except Err Unit) (s : Store) :
    (publish node gossip rel).journal s =
      if rel.verify = .ok () then (putRelease rel).journal s else [] := by
  cases hv : rel.verify with
  | error e =>
      rw [publish, hv, if_neg fun h => by cases h]
      rfl
  | ok u =>
      obtain ⟨hn, ht⟩ := Release.valid_of_verify hv
      obtain ⟨b, hb⟩ := putRelease_returns hn ht s
      have hput : putRelease rel s = ((putRelease rel).journal s, .ok b) := Prod.ext rfl hb
      have hstored : (do
          let _stored ← putRelease rel
          announce gossip rel : Op Unit).journal s = (putRelease rel).journal s := by
        rw [journal, bind_apply_of_ok hput]
        exact List.append_nil _
      rw [publish, hv, if_pos rfl, ← hstored, journal, ofExcept_bind_apply]
      simp only [hown, decide_true]
      rfl

theorem catalogued_publish (hs : s.Catalogued) {node : Node} {rel : Release}
    (hown : rel.publisher = node.id) (gossip : Release → Except Err Unit) (k : Option ℕ) (e : Err) :
    (((publish node gossip rel).cut (k.map fun k => (k, e))).final s).Catalogued ↔
      s.Files rel k := by
  have hjournal := journal_publish hown gossip s
  by_cases hv : rel.verify = .ok ()
  · rw [if_pos hv] at hjournal
    rw [← catalogued_putRelease hs hv k e]
    cases k with
    | none => simp only [Option.map_none, cut_none, final, hjournal]
    | some k => simp only [Option.map_some, final_cut_some, hjournal]
  · rw [if_neg hv] at hjournal
    refine iff_of_true ?_ fun h => absurd h hv
    cases k with
    | none => simpa only [Option.map_none, cut_none, final, hjournal, replay_nil] using hs
    | some k =>
        simpa only [Option.map_some, final_cut_some, hjournal, List.take_nil, replay_nil] using hs

/-! ### Adding blobs -/

/-- The write adds content, a pin or an index entry. -/
def Write.Adds : Write → Prop
  | .data _ | .tag _ _ | .blobRef _ => True
  | _ => False

theorem has_digests_apply {w : Write} (hw : w.Adds) {d : Digest} (h : s.digests.has d = true) :
    (s.apply w).digests.has d = true := by
  cases w with
  | blobRef b =>
      show ((s.digests.put b).get d).isSome = true
      rw [Table.get_put]
      split
      · rfl
      · exact h
  | data _ | tag _ _ => exact h
  | _ => exact hw.elim

theorem Store.Catalogued.apply (hs : s.Catalogued) {w : Write} (hw : w.Adds) :
    (s.apply w).Catalogued := by
  cases w with
  | blobRef b =>
      exact ⟨fun subject r hr =>
        has_digests_apply (w := .blobRef b) trivial (hs.indexed subject r hr), hs.listed⟩
  | data _ | tag _ _ => exact ⟨hs.indexed, hs.listed⟩
  | _ => exact hw.elim

theorem Store.Catalogued.replay (hs : s.Catalogued) {ws : List Write} (hws : ∀ w ∈ ws, w.Adds) :
    (Call.replay s ws).Catalogued :=
  replay_keeps (P := Write.Adds) (fun _ _ hw hs => hs.apply hw) hws hs

/-- A referrer is listed whose manifest is indexed. -/
theorem Store.Catalogued.putReferrer (hs : s.Catalogued) (subject : Digest) {r : Referrer}
    (hr : s.digests.has r.digest = true) : ((putReferrer subject r).final s).Catalogued := by
  obtain ⟨hindexed, hlisted⟩ := catalogued_iff.mp hs
  have hhas := has_replay_referrers subject [r] s
  refine catalogued_iff.mpr ⟨fun m d h => ?_, fun rel hrel x hx hin => ?_⟩
  · rcases (hhas m d).mp h with h | ⟨-, r', hr', rfl⟩
    · exact hindexed m d h
    · obtain rfl := List.mem_singleton.mp hr'
      exact hr
  · exact (hhas _ _).mpr (Or.inl (hlisted rel hrel x hx hin))

/-! ### The steps of a push and of a fetch -/

variable {node : Node}

/-- The manifest of the push has just been stored. -/
def PushRun.isStored (p : PushRun) : Bool :=
  match p.stage with
  | .stored => true
  | _ => false

/-- The release a step of a push stores: a record extended, or the one of the tag. -/
theorem PushRun.mem_puts {p : PushRun} {a : PushAct} {rel : Release} (h : rel ∈ p.puts node a) :
    (∃ now announced r rels, a = .attach now announced ∧ p.stage = .attaching (r :: rels) ∧
      p.needs node r = true ∧ rel = p.extend node r now) ∨
    ∃ now announced, a = .publish now announced ∧ p.stage = .attaching [] ∧
      rel = p.checked.release p.push node now := by
  obtain ⟨push, c, stage⟩ := p
  cases a with
  | attach now announced =>
      rcases stage with _ | _ | ⟨_ | ⟨r, rels⟩⟩ | _
      case attaching.cons =>
        simp only [puts, Option.mem_def] at h
        split at h
        · rename_i hneeds
          cases h
          exact Or.inl ⟨now, announced, r, rels, rfl, rfl, hneeds, rfl⟩
        · cases h
      all_goals cases h
  | publish now announced =>
      rcases stage with _ | _ | ⟨_ | ⟨r, rels⟩⟩ | _
      case attaching.nil =>
        simp only [puts, Option.mem_def] at h
        split at h
        · cases h
          exact Or.inr ⟨now, announced, rfl, rfl, rfl⟩
        · cases h
      all_goals cases h
  | _ => cases h

theorem PushRun.publisher_puts {p : PushRun} {a : PushAct} {rel : Release}
    (h : rel ∈ p.puts node a) : rel.publisher = node.id := by
  rcases PushRun.mem_puts h with ⟨now, -, r, -, -, -, -, rfl⟩ | ⟨now, -, -, -, rfl⟩
  · show (attachedRelease _ _ _ _ _).payload.publisher = node.id
    rw [attachedRelease_payload]
  · rfl

/-- A step that stores a release can be taken. -/
theorem PushRun.step_ne_none {p : PushRun} {a : PushAct} {rel : Release}
    (h : rel ∈ p.puts node a) (s : Store) : p.step node s a ≠ none := by
  rcases PushRun.mem_puts h with ⟨now, announced, r, rels, rfl, hstage, hneeds, -⟩ |
    ⟨now, announced, rfl, hstage, -⟩
  · simp [step, hstage, hneeds]
  · simp [step, hstage]

theorem FetchRun.advance_ne_none {f : FetchRun} {rel : Release} (h : f.puts = some rel)
    (net : Downloads) (s : Store) : f.advance net s ≠ none := by
  unfold puts at h
  split at h
  · rename_i hstage htodo
    simp [advance, hstage, htodo]
  · cases h

/-- What a step of a push does to the store: it stores a release of the node, or imports the
manifest, or lists the referrer after that, or does nothing. -/
theorem PushRun.step_cases {p p' : PushRun} {s s' : Store} {a : PushAct}
    (h : p.step node s a = some (s', p')) :
    (∃ rel ∈ p.puts node a, p'.isStored = false ∧
      ∃ gossip, s' = (publish node gossip rel).final s) ∨
    (p.puts node a = none ∧ (
      (p'.isStored = false ∧ s' = s) ∨
      (p'.blob = p.blob ∧ s' = (putBlobBytes p.checked.bytes (some (Digest.sha256 p.checked.bytes))
        (some (p.checked.mediaType p.push))).final s) ∨
      (p'.isStored = false ∧ p.isStored = true ∧
        ∃ subject, s' = (putReferrer subject (p.checked.referrer p.push)).final s))) := by
  obtain ⟨push, c, stage⟩ := p
  cases a with
  | store =>
      cases stage with
      | checked =>
          cases h
          exact Or.inr ⟨rfl, Or.inr (Or.inl ⟨rfl, rfl⟩)⟩
      | _ => cases h
  | list =>
      cases stage with
      | stored =>
          simp only [step] at h
          cases hsubject : c.manifest.subject with
          | none =>
              rw [hsubject] at h
              cases h
              exact Or.inr ⟨rfl, Or.inl ⟨rfl, rfl⟩⟩
          | some subject =>
              rw [hsubject] at h
              cases h
              exact Or.inr ⟨rfl, Or.inr (Or.inr ⟨rfl, rfl, subject.digest, rfl⟩)⟩
      | _ => cases h
  | attach now announced =>
      rcases stage with _ | _ | ⟨_ | ⟨rel, rels⟩⟩ | _
      case attaching.cons =>
        simp only [step] at h
        by_cases hneeds : needs node ⟨push, c, .attaching (rel :: rels)⟩ rel = true
        · rw [if_pos hneeds] at h
          cases h
          refine Or.inl ⟨_, if_pos hneeds, ?_, _, rfl⟩
          simp only [isStored]
          split
          · rename_i hstage
            split at hstage <;> cases hstage
          · rfl
        · rw [if_neg hneeds] at h
          cases h
          exact Or.inr ⟨if_neg hneeds, Or.inl ⟨rfl, rfl⟩⟩
      all_goals cases h
  | publish now announced =>
      rcases stage with _ | _ | ⟨_ | ⟨rel, rels⟩⟩ | _
      case attaching.nil =>
        cases h
        rw [blob, publishTag_eq]
        cases htag : push.isTag with
        | true => exact Or.inl ⟨_, if_pos htag, rfl, _, rfl⟩
        | false => exact Or.inr ⟨if_neg (by simp [htag]), Or.inl ⟨rfl, rfl⟩⟩
      all_goals cases h
  | abandon =>
      cases h
      exact Or.inr ⟨rfl, Or.inl ⟨rfl, rfl⟩⟩

/-- What a step of a fetch does to the store: it stores the release, or adds to its blobs. -/
theorem FetchRun.step_cases {f f' : FetchRun} {s s' : Store} {a : FetchAct}
    (h : f.step s a = some (s', f')) : f'.release = f.release ∧
      ((f.puts = some f.release ∧ (∃ net, a = .advance net) ∧
          s' = (putRelease f.release).final s) ∨
        ((a = .stop ∨ f.puts = none) ∧ ∃ ws : List Write, (∀ w ∈ ws, w.Adds) ∧
          s' = replay s ws)) := by
  obtain ⟨release, providers, done, todo, stage⟩ := f
  cases a with
  | stop =>
      cases h
      exact ⟨rfl, Or.inr ⟨Or.inl rfl, [], nofun, rfl⟩⟩
  | advance net =>
      have hadd : ∀ {w : Write}, w.Adds → ∀ v ∈ [w], v.Adds := fun hw v hv => by
        obtain rfl := List.mem_singleton.mp hv
        exact hw
      cases todo with
      | nil =>
          cases stage with
          | looking =>
              cases h
              exact ⟨rfl, Or.inl ⟨rfl, ⟨net, rfl⟩, rfl⟩⟩
          | _ => cases h
      | cons b todo =>
          have hputs : puts ⟨release, providers, done, b :: todo, stage⟩ = none := by
            cases stage <;> rfl
          cases stage with
          | looking =>
              simp only [step, advance] at h
              split at h
              · cases h
                exact ⟨rfl, Or.inr ⟨Or.inr hputs, [], nofun, rfl⟩⟩
              · split at h
                · cases h
                  exact ⟨rfl, Or.inr ⟨Or.inr hputs, [], nofun, rfl⟩⟩
                · cases h
                  exact ⟨rfl, Or.inr ⟨Or.inr hputs, [], nofun, rfl⟩⟩
          | downloading =>
              have hemits : Emits Write.Adds (download net done.length b) := by
                unfold download
                split
                · exact Emits.write trivial
                · exact Emits.fail _
              simp only [step, advance] at h
              split at h <;>
              · cases h
                exact ⟨rfl, Or.inr ⟨Or.inr hputs, _, hemits s, rfl⟩⟩
          | verifying temp =>
              simp only [step, advance] at h
              split at h <;>
              · cases h
                exact ⟨rfl, Or.inr ⟨Or.inr hputs, [], nofun, rfl⟩⟩
          | pinning temp =>
              cases h
              exact ⟨rfl, Or.inr ⟨Or.inr hputs, _, hadd (w := .tag b.digest b.hash) trivial, rfl⟩⟩
          | indexing temp =>
              cases h
              exact ⟨rfl, Or.inr ⟨Or.inr hputs, _, hadd (w := .blobRef b) trivial, rfl⟩⟩
          | ended => cases h

/-! ### Removals -/

section
variable {u : Store} {takes : Release → Prop}

/-- `u` is `s` without the records taken. -/
structure Removed (s u : Store) (takes : Release → Prop) : Prop where
  releases : ∀ rel, rel ∈ u.releases.rows ↔ rel ∈ s.releases.rows ∧ ¬ takes rel
  digests : u.digests = s.digests
  pins : u.pins = s.pins
  referrers : u.referrers = s.referrers

/-- The records left, when no record is written and the ones taken are gone. -/
theorem mem_rows_final {α : Type} {m : Op α} (hm : Emits (fun w => ∀ rel, w ≠ .release rel) m)
    (htakes : ∀ rel ∈ s.releases.rows, (m.final s).releases.get rel.ref = none ↔ takes rel)
    (rel : Release) :
    rel ∈ (m.final s).releases.rows ↔ rel ∈ s.releases.rows ∧ ¬ takes rel := by
  have hold : ∀ r, (m.final s).releases.get rel.ref = some r → s.releases.get rel.ref = some r :=
    fun r hr => (written_of_get_final hr).resolve_right fun hw => hm s _ hw.2 r rfl
  constructor
  · intro hmem
    have hget := Table.get_of_mem hmem
    have hrow := Table.mem_of_get (hold rel hget)
    refine ⟨hrow, fun htaken => ?_⟩
    rw [(htakes rel hrow).mpr htaken] at hget
    cases hget
  · rintro ⟨hrow, hleft⟩
    obtain ⟨r, hr⟩ := Option.ne_none_iff_exists'.mp (mt (htakes rel hrow).mp hleft)
    cases (Table.get_of_mem hrow).symm.trans (hold r hr)
    exact Table.mem_of_get hr

namespace Removed

variable (h : Removed s u takes)
include h

theorem live_iff (x : Blake3) : u.Live [] x ↔ s.LiveBut takes x := by
  simp only [Store.Live, Store.LiveBut, h.releases, List.not_mem_nil, not_false_eq_true, true_and,
    and_assoc]

/-- A sweep leaves the entries of what the records left have. -/
theorem has_sweep {ignore : List Str} (hlive : ∀ x, u.Live ignore x ↔ s.LiveBut takes x)
    (d : Digest) : ((sweepBlobsLocked false ignore).final u).digests.has d = true ↔
      s.Outlives takes d := by
  obtain ⟨-, hentry⟩ := sweepBlobsLocked_spec ignore u
  simp only [Table.has_iff, hentry, hlive, h.digests, h.pins, Store.Outlives]

theorem catalogued (hs : s.Catalogued) : u.Catalogued := by
  obtain ⟨hindexed, hlisted⟩ := catalogued_iff.mp hs
  rw [catalogued_iff, h.digests, h.referrers]
  exact ⟨hindexed, fun rel hrel => hlisted rel ((h.releases rel).mp hrel).1⟩

/-- After a sweep, every referrer listed must be indexed still. -/
theorem catalogued_sweep (hs : s.Catalogued) :
    ((sweepBlobsLocked false []).final u).Catalogued ↔
      ∀ p ∈ s.referrers.rows, s.Outlives takes p.2.digest := by
  obtain ⟨-, hlisted⟩ := catalogued_iff.mp hs
  have hreferrers : ((sweepBlobsLocked false []).final u).referrers = s.referrers :=
    (referrers_final (emits_sweepBlobsLocked (fun _ => by simp [Write.part])
      (fun _ => by simp [Write.part]) _ _)).trans h.referrers
  rw [catalogued_iff, releases_sweepBlobsLocked, hreferrers]
  simp only [h.has_sweep h.live_iff]
  constructor
  · rintro ⟨hindexed, -⟩ p hp
    have hget : s.referrers.get (p.1, p.2.digest) = some p := Table.get_of_mem hp
    exact hindexed p.1 p.2.digest (Table.has_iff.mpr ⟨p, hget⟩)
  · intro hout
    refine ⟨fun m d hhas => ?_, fun rel hrel => hlisted rel ((h.releases rel).mp hrel).1⟩
    obtain ⟨p, hp⟩ := Table.has_iff.mp hhas
    obtain rfl : p.2.digest = d := congrArg Prod.snd (Table.key_of_get hp)
    exact hout p (Table.mem_of_get hp)

end Removed

end

/-- What is removed of an image: the records under the tags. -/
theorem removeTags_spec (publisher : PublisherId) {name : Str} (hn : validateName name = .ok ())
    {ts : List Str} (ht : ∀ t ∈ ts, validateTag t = .ok ()) (s : Store) :
    ∃ removed, (removeTags publisher name ts).result s = .ok removed ∧
      (∀ q, ((removeTags publisher name ts).final s).releases.get q =
        if q.publisher = publisher ∧ q.name = name ∧ q.tag ∈ ts then none
        else s.releases.get q) ∧
      (removed = [] ↔ ∀ t ∈ ts, s.releases.get ⟨publisher, name, t⟩ = none) := by
  induction ts generalizing s with
  | nil => exact ⟨[], rfl, fun q => (if_neg (by simp)).symm, by simp⟩
  | cons t ts ih =>
      have htag := ht t List.mem_cons_self
      have hget := @get_removeRelease _ publisher _ _ hn htag s
      have hgone : (removeRelease publisher name t).result s =
          .ok (s.releases.has ⟨publisher, name, t⟩) := by
        rw [result, removeRelease_apply hn htag]
        split <;> simp [*]
      obtain ⟨removed, hok, hrest, hnone⟩ := ih (fun t ht' => ht t (List.mem_cons_of_mem _ ht'))
        ((removeRelease publisher name t).final s)
      refine ⟨_, result_bind_ok.mpr ⟨_, hgone, result_bind_ok.mpr ⟨removed, hok, rfl⟩⟩,
        fun q => ?_, ?_⟩
      · rw [removeTags, final_bind_of_ok hgone, final_bind_of_ok hok, final_pure, hrest, hget]
        obtain ⟨p, n, tag⟩ := q
        by_cases hq : p = publisher ∧ n = name
        · obtain ⟨rfl, rfl⟩ := hq
          by_cases htag : tag = t
          · simp [htag]
          · simp [htag]
        · have hne : ¬ ((⟨p, n, tag⟩ : Ref) = ⟨publisher, name, t⟩) := fun heq =>
            hq ⟨congrArg Ref.publisher heq, congrArg Ref.name heq⟩
          rw [if_neg hne, if_neg fun h => hq ⟨h.1, h.2.1⟩, if_neg fun h => hq ⟨h.1, h.2.1⟩]
      · have hnone' : removed = [] ↔ ∀ t' ∈ ts, t' = t ∨
            s.releases.get ⟨publisher, name, t'⟩ = none := by
          rw [hnone]
          refine forall₂_congr fun t' _ => ?_
          rw [hget]
          by_cases heq : t' = t
          · simp [heq]
          · simp [heq]
        cases hhas : s.releases.has ⟨publisher, name, t⟩ with
        | true =>
            refine iff_of_false (by simp) fun hall => ?_
            rw [Table.has, hall t List.mem_cons_self] at hhas
            cases hhas
        | false =>
            have hheld := Table.has_eq_false_iff.mp hhas
            simp only [Bool.false_eq_true, if_false, hnone', List.forall_mem_cons, hheld, true_and]
            refine forall₂_congr fun t' _ => or_iff_right_of_imp ?_
            rintro rfl
            exact hheld

theorem emits_removeTags {P : Write → Prop} (hP : ∀ r, P (.dropRelease r))
    (publisher : PublisherId) (name : Str) (ts : List Str) :
    Emits P (removeTags publisher name ts) := by
  induction ts with
  | nil => exact Emits.pure _
  | cons t ts ih =>
      exact (emits_removeRelease hP _ _ _).bind fun _ => ih.bind fun _ => Emits.pure _

theorem emits_tagsOf {P : Write → Prop} (publisher : PublisherId) (name : Str)
    (tag : Option Str) : Emits P (tagsOf publisher name tag) := by
  cases tag with
  | none => exact emits_listTags _ _
  | some t => exact Emits.pure _

theorem Node.emits_removeRelease (node : Node) (publisher : PublisherId) (name : Str)
    (tag : Option Str) :
    Emits (fun w => ∀ rel, w ≠ .release rel) (node.removeRelease publisher name tag) := by
  refine (emits_tagsOf _ _ _).bind fun ts => Emits.bind ?_ fun removed =>
    Emits.ite (fun _ => Emits.pure _) fun _ => Emits.bind ?_ fun _ => Emits.pure _
  · exact emits_removeTags (fun _ _ h => by cases h) _ _ _
  · exact emits_sweepBlobsLocked (fun _ _ h => by cases h) (fun _ _ h => by cases h) _ _

/-- Records are removed, and nothing else is touched. -/
theorem removed_final {α : Type} {m : Op α} (hm : Emits (fun w => w.part = .releases ∧
    ∀ rel, w ≠ .release rel) m) {takes : Release → Prop}
    (htakes : ∀ rel ∈ s.releases.rows, (m.final s).releases.get rel.ref = none ↔ takes rel) :
    Removed s (m.final s) takes where
  releases := mem_rows_final (hm.mono fun _ hw => hw.2) htakes
  digests := digests_final (hm.mono fun _ hw => by simp [hw.1])
  pins := pins_final (hm.mono fun _ hw => by simp [hw.1])
  referrers := referrers_final (hm.mono fun _ hw => by simp [hw.1])

/-- What a removal leaves: first the records are taken; if any was, a sweep follows. -/
def Removal.Leaves (node : Node) (s : Store) (r : Removal) : Prop :=
  ∃ u, Removed s u (r.Takes node s) ∧
    ((∃ rel ∈ s.releases.rows, r.Takes node s rel) →
      (r.op node).final s = (sweepBlobsLocked false []).final u) ∧
    ((∀ rel ∈ s.releases.rows, ¬ r.Takes node s rel) → (r.op node).final s = u)

/-- A removal that changes nothing, since it takes nothing. -/
theorem Removal.leaves_self {r : Removal} (h : (r.op node).final s = s)
    (htakes : ∀ rel ∈ s.releases.rows, ¬ r.Takes node s rel) : r.Leaves node s := by
  refine ⟨s, ⟨fun rel => ?_, rfl, rfl, rfl⟩, ?_, fun _ => h⟩
  · exact ⟨fun hrel => ⟨hrel, htakes rel hrel⟩, And.left⟩
  · rintro ⟨rel, hrel, htaken⟩
    exact absurd htaken (htakes rel hrel)

/-- The tags of an image that are removed are those of its records that are taken. -/
theorem tagsOf_spec (hs : s.Named) (publisher : PublisherId) {name : Str}
    (hn : validateName name = .ok ()) {tag : Option Str} (ht : ∀ t ∈ tag, validateTag t = .ok ()) :
    ∃ ts, (tagsOf publisher name tag).result s = .ok ts ∧ (∀ t ∈ ts, validateTag t = .ok ()) ∧
      ∀ rel ∈ s.releases.rows, rel.publisher = publisher → rel.name = name →
        (rel.payload.tag ∈ ts ↔ ∀ t ∈ tag, rel.payload.tag = t) := by
  cases tag with
  | some t =>
      refine ⟨[t], rfl, fun t' ht' => ?_, fun rel _ _ _ => by simp⟩
      obtain rfl := List.mem_singleton.mp ht'
      exact ht t' rfl
  | none =>
      have hts : (listTags publisher name).result s = .ok _ :=
        result_bind_ok.mpr ⟨(), hn, result_bind_ok.mpr ⟨s, rfl, rfl⟩⟩
      obtain ⟨-, hmem⟩ := listTags_ok hts
      refine ⟨_, hts, fun t ht' => ?_, fun rel hrel hp hname => ?_⟩
      · obtain ⟨rel, hget⟩ := (hmem t).mp ht'
        exact (hs _ _ hget).2
      · subst hp hname
        exact iff_of_true ((hmem _).mpr ⟨rel, Table.get_of_mem hrel⟩) nofun

/-- Releases are removed, of an image or of one tag. -/
theorem leaves_release (hs : s.Named) (publisher : PublisherId) (name : Str) (tag : Option Str) :
    (Removal.release publisher name tag).Leaves node s := by
  have hquiet := (final_of_emits_false (emits_tagsOf publisher name tag) s).2
  by_cases hnames : validateName name = .ok () ∧ ∀ t ∈ tag, validateTag t = .ok ()
  · obtain ⟨ts, hts, hvalid, hmem⟩ := tagsOf_spec hs publisher hnames.1 hnames.2
    obtain ⟨removed, hok, hget, hnone⟩ := removeTags_spec publisher hnames.1 hvalid s
    have htaken : ∀ rel ∈ s.releases.rows,
        ((removeTags publisher name ts).final s).releases.get rel.ref = none ↔
          (Removal.release publisher name tag).Takes node s rel := by
      intro rel hrel
      rw [hget, Table.get_of_mem hrel]
      simp only [ite_eq_left_iff, reduceCtorEq, imp_false, not_not, Removal.Takes]
      exact and_congr_right fun hp => and_congr_right fun hname => hmem rel hrel hp hname
    have hempty : removed = [] ↔
        ∀ rel ∈ s.releases.rows, ¬ (Removal.release publisher name tag).Takes node s rel := by
      rw [hnone]
      constructor
      · rintro hno rel hrel ⟨rfl, rfl, htag⟩
        have hget := Table.get_of_mem hrel
        have hgone := hno _ ((hmem rel hrel rfl rfl).mpr htag)
        cases hget.symm.trans hgone
      · intro hno t ht
        by_contra hheld
        obtain ⟨rel, hrel⟩ := Option.ne_none_iff_exists'.mp hheld
        have hrow := Table.mem_of_get hrel
        have hkey := Table.key_of_get hrel
        have hp : rel.publisher = publisher := congrArg Ref.publisher hkey
        have hname : rel.name = name := congrArg Ref.name hkey
        have htag : rel.payload.tag = t := congrArg Ref.tag hkey
        exact hno rel hrow ⟨hp, hname, (hmem rel hrow hp hname).mp (htag.symm ▸ ht)⟩
    have hfinal : ((Removal.release publisher name tag).op node).final s =
        if removed.isEmpty then (removeTags publisher name ts).final s
        else (sweepBlobsLocked false []).final ((removeTags publisher name ts).final s) := by
      rw [Removal.op, final_bind_pure, Node.removeRelease, final_bind_of_ok hts, hquiet,
        final_bind_of_ok hok]
      split
      · rfl
      · exact final_bind_pure _ _ _
    refine ⟨_, removed_final (emits_removeTags (fun _ => ⟨rfl, nofun⟩) _ _ _) htaken, ?_, ?_⟩
    · rintro ⟨rel, hrel, htakes⟩
      rw [hfinal, if_neg]
      intro hnil
      exact hempty.mp (List.isEmpty_iff.mp hnil) rel hrel htakes
    · intro hno
      rw [hfinal, hempty.mpr hno]
      rfl
  · -- the request fails at the first name that is not valid
    refine Removal.leaves_self ?_ fun rel hrel ⟨hp, hname, htag⟩ => hnames ?_
    · rw [Removal.op, final_bind_pure, Node.removeRelease]
      cases tag with
      | none =>
          cases hn : validateName name with
          | ok u => exact absurd ⟨hn, nofun⟩ hnames
          | error e =>
              have hfail : (tagsOf publisher name none).result s = .error e := by
                rw [tagsOf, listTags, hn]
                rfl
              rw [final_bind_of_error hfail, hquiet]
      | some t =>
          cases hpath : releasePath publisher name t with
          | ok r =>
              obtain ⟨ht, hn, -⟩ := releasePath_eq_ok.mp hpath
              exact absurd ⟨hn, fun _ h => Option.some.inj h ▸ ht⟩ hnames
          | error e =>
              have hfail : (removeTags publisher name [t]).result s = .error e := by
                rw [removeTags, removeRelease, hpath]
                rfl
              have hts : (tagsOf publisher name (some t)).result s = .ok [t] := rfl
              rw [final_bind_of_ok hts, hquiet, final_bind_of_error hfail, removeTags, removeRelease,
                hpath]
              rfl
    · obtain ⟨hn, ht⟩ := hs _ _ (Table.get_of_mem hrel)
      exact ⟨hname ▸ hn, fun t h => htag t h ▸ ht⟩

/-! ### Windows and collections -/

/-- Records outside a window are counted when they are removed. -/
theorem removeOutside_count (publisher : PublisherId) {name : Str} (selected : List Str)
    {rs : List Release} (hn : validateName name = .ok ())
    (ht : ∀ rel ∈ rs, validateTag rel.payload.tag = .ok ()) {k : ℕ} (s : Store)
    (h : (removeOutside publisher name selected rs).result s = .ok k) :
    0 < k ↔ ∃ rel ∈ rs, rel.payload.tag ∉ selected ∧
      s.releases.has ⟨publisher, name, rel.payload.tag⟩ = true := by
  induction rs generalizing s k with
  | nil =>
      cases h
      simp
  | cons rel rs ih =>
      have ih' := fun k s => ih (fun r hr => ht r (List.mem_cons_of_mem _ hr)) (k := k) s
      rw [removeOutside] at h
      by_cases hsel : rel.payload.tag ∈ selected
      · rw [if_pos hsel] at h
        rw [ih' k s h]
        simp [hsel]
      · rw [if_neg hsel] at h
        have htag := ht rel List.mem_cons_self
        have hgone : (removeRelease publisher name rel.payload.tag).result s =
            .ok (s.releases.has ⟨publisher, name, rel.payload.tag⟩) := by
          rw [result, removeRelease_apply hn htag]
          split <;> simp [*]
        rw [result_bind_of_ok hgone] at h
        obtain ⟨n, hrest, h⟩ := result_bind_ok.mp h
        cases h
        have hcount := ih' n _ hrest
        have hget := @get_removeRelease _ publisher _ _ hn htag s
        cases hhas : s.releases.has ⟨publisher, name, rel.payload.tag⟩ with
        | true => simp [hsel, hhas]
        | false =>
            -- the others are held as they were
            have hsame : ∀ q, ((removeRelease publisher name rel.payload.tag).final s).releases.get q =
                s.releases.get q := by
              intro q
              rw [hget]
              split
              · rename_i hq
                rw [hq, Table.has_eq_false_iff.mp hhas]
              · rfl
            simp only [Table.has, hsame] at hcount hhas
            simp [Table.has, hcount, hhas]

/-- The window of an image is enforced. -/
theorem leaves_window (hs : s.Named) (publisher : PublisherId) (name : Str) (policy : Policy)
    (young : Release → Bool) :
    (Removal.prune (.window publisher name) policy young).Leaves node s := by
  have hspec : ∀ rel ∈ s.releases.rows,
      ((enforceWindow { node with policy } publisher name).final s).releases.get rel.ref = none ↔
        (Removal.prune (.window publisher name) policy young).Takes node s rel := fun rel hrel =>
    prune_spec hs (.window publisher name) young hrel
  rcases enforceWindow_cases { node with policy } hs publisher name with
    hsame | ⟨held, k, hn, hheld, hk, hfinal⟩
  · -- an image that is left alone loses no record
    refine Removal.leaves_self hsame fun rel hrel htakes => ?_
    have hgone := (hspec rel hrel).mpr htakes
    rw [hsame, Table.get_of_mem hrel] at hgone
    cases hgone
  · obtain ⟨hmem, -, -⟩ := localReleasesOf_ok hheld
    have htags : ∀ rel ∈ held, validateTag rel.payload.tag = .ok () := fun rel hrel =>
      (hs _ _ ((hmem rel).mp hrel)).2
    set selected := (policy.window publisher name).select (tagTimes held)
    obtain ⟨-, hget⟩ := removeOutside_spec publisher selected hn htags s
    have hreleases : ((enforceWindow { node with policy } publisher name).final s).releases =
        ((removeOutside publisher name selected held).final s).releases := by
      rw [hfinal]
      split
      · exact releases_sweepBlobsLocked _ _ _
      · rfl
    rw [hreleases] at hspec
    -- the records counted are those that are taken
    have hcount : 0 < k ↔ ∃ rel ∈ s.releases.rows,
        (Removal.prune (.window publisher name) policy young).Takes node s rel := by
      rw [removeOutside_count publisher selected hn htags s hk]
      constructor
      · rintro ⟨rel, hrel, hout, -⟩
        have hget' := (hmem rel).mp hrel
        refine ⟨rel, Table.mem_of_get hget', (hspec rel (Table.mem_of_get hget')).mp ?_⟩
        rw [hget, if_pos ⟨rel, hrel, hout, Table.key_of_get hget'⟩]
      · rintro ⟨rel, hrel, htakes⟩
        have hgone := (hspec rel hrel).mpr htakes
        rw [hget] at hgone
        split at hgone
        · rename_i hout
          obtain ⟨r, hr, hout, -⟩ := hout
          exact ⟨r, hr, hout, Table.has_iff.mpr ⟨r, (hmem r).mp hr⟩⟩
        · cases (Table.get_of_mem hrel).symm.trans hgone
    refine ⟨_,
      removed_final (emits_removeOutside (fun _ => ⟨rfl, fun _ h => by cases h⟩) _ _ _ _) hspec,
      fun hsome => ?_, fun hno => ?_⟩
    · exact hfinal.trans (if_pos (hcount.mpr hsome))
    · refine hfinal.trans (if_neg fun hpos => ?_)
      obtain ⟨rel, hrel, htakes⟩ := hcount.mp hpos
      exact hno rel hrel htakes

/-- A removal of releases or a window keeps the catalogue when the referrers listed outlive it. -/
theorem Removal.Leaves.catalogued_iff {r : Removal} (h : r.Leaves node s) (hs : s.Catalogued) :
    ((r.op node).final s).Catalogued ↔ ((∃ rel ∈ s.releases.rows, r.Takes node s rel) →
      ∀ p ∈ s.referrers.rows, s.Outlives (fun rel => r.Takes node s rel) p.2.digest) := by
  obtain ⟨u, hu, hswept, hkept⟩ := h
  by_cases hsome : ∃ rel ∈ s.releases.rows, r.Takes node s rel
  · rw [hswept hsome, hu.catalogued_sweep hs, forall_prop_of_true hsome]
  · rw [hkept fun rel hrel htakes => hsome ⟨rel, hrel, htakes⟩]
    exact iff_of_true (hu.catalogued hs) fun h => absurd h hsome

/-- A collection keeps the catalogue when the referrers outlive it that a record left names and
includes. -/
theorem catalogued_collect (hs : s.Named) (hc : s.Catalogued) (req : GcReq) (policy : Policy)
    (young : Release → Bool) :
    (((Removal.prune (.collect req) policy young).op node).final s).Catalogued ↔
      (Removal.prune (.collect req) policy young).Spares node s := by
  have hop : ((Removal.prune (.collect req) policy young).op node).final s =
      (gc { node with policy } req young).final s := final_bind_pure _ _ _
  rw [hop]
  cases hdry : req.dryRun with
  | true =>
      obtain ⟨dryRun, force⟩ := req
      obtain rfl : dryRun = true := hdry
      rw [(final_of_emits_false (emits_gc_dry _ _ _) s).2]
      exact iff_of_true hc fun h => absurd h.symm Bool.false_ne_true
  | false =>
      set takes : Release → Prop := (Removal.prune (.collect req) policy young).Takes node s
        with htakes
      have hfinal := final_gc { node with policy } hs req young
      have hspec : ∀ rel ∈ s.releases.rows,
          ((gc { node with policy } req young).final s).releases.get rel.ref = none ↔ takes rel := by
        intro rel hrel
        rw [← hop]
        exact prune_spec hs (.collect req) young hrel
      rw [hdry] at hfinal
      set keep := retainedSet { node with policy } policy s.listReleases
      set removed := collected req keep young s.listReleases with hremoved
      set u := (collectReleases req keep young s.listReleases).final s with hu
      have hprune : ∀ part, part ≠ .referrers →
          Emits (fun w => w.part ≠ part) (collectReferrers req : Op Unit) := fun part hr =>
        emits_collectReferrers (fun _ _ => hr.symm) req
      have hreleases : Part.releases ≠ .referrers := by decide
      have hdigests : Part.digests ≠ .referrers := by decide
      have hrows : ((gc { node with policy } req young).final s).releases = u.releases := by
        rw [hfinal, releases_final (hprune _ hreleases), releases_sweepBlobsLocked]
      rw [hrows] at hspec
      have hgone : Removed s u takes :=
        removed_final (emits_collectReleases (fun _ => ⟨rfl, fun _ h => by cases h⟩) _ _ _ _) hspec
      -- the sweep passes over the records that are gone
      have hlive : ∀ x, u.Live removed x ↔ s.LiveBut takes x := by
        intro x
        rw [hu, live_collected hs]
        refine exists_congr fun rel => and_congr_right fun hrel => and_congr_left' ?_
        rw [reference_notMem_collected hs req keep young hrel, ← Bool.not_eq_false]
        have hspared := spares_eq_false_iff { node with policy } hs hrel req young
        refine not_congr (hspared.trans and_comm |>.trans (and_congr_left' ?_))
        rw [PruneCall.Reaches, hdry]
        exact (and_iff_right rfl).symm
      have hhas := hgone.has_sweep hlive
      set v := (sweepBlobsLocked false removed).final u with hv
      have hreferrers : v.referrers = s.referrers :=
        (referrers_final (emits_sweepBlobsLocked (fun _ => by simp [Write.part])
          (fun _ => by simp [Write.part]) _ _)).trans hgone.referrers
      have hlisted : ∀ m d, ((collectReferrers req).final v).referrers.has (m, d) = true ↔
          s.referrers.has (m, d) = true ∧ s.Outlives takes d := by
        intro m d
        simp only [Table.has_iff, referrers_collectReferrers hdry, hreferrers]
        constructor
        · rintro ⟨p, hp, hindexed⟩
          obtain rfl : p.2.digest = d := congrArg Prod.snd (Table.key_of_get hp)
          exact ⟨⟨p, hp⟩, (hhas _).mp (Table.has_iff.mpr hindexed)⟩
        · rintro ⟨⟨p, hp⟩, hout⟩
          obtain rfl : p.2.digest = d := congrArg Prod.snd (Table.key_of_get hp)
          exact ⟨p, hp, Table.has_iff.mp ((hhas _).mpr hout)⟩
      obtain ⟨-, hnamed⟩ := Ocid.catalogued_iff.mp hc
      rw [Ocid.catalogued_iff, hrows, hfinal, digests_final (hprune _ hdigests)]
      simp only [hlisted, hhas, hgone.releases, Removal.Spares, hdry, true_imp_iff]
      constructor
      · rintro ⟨-, hall⟩ rel hrel hleft r hr hin
        exact (hall rel ⟨hrel, hleft⟩ r hr hin).2
      · intro hall
        exact ⟨fun m d h => h.2, fun rel hrel r hr hin =>
          ⟨hnamed rel hrel.1 r hr hin, hall rel hrel.1 hrel.2 r hr hin⟩⟩

/-! ### Every step -/

theorem Store.Named.final {ε α : Type} {m : Call Store Write ε α} (hs : s.Named)
    (hm : Emits (fun w => ∀ rel, w = .release rel → rel.verify = .ok ()) m) :
    (m.final s).Named := by
  intro r rel h
  rcases written_of_get_final h with h | ⟨rfl, hw⟩
  · exact hs r rel h
  · exact Release.valid_of_verify (hm s _ hw rel rfl)

theorem verified_of_mem {rel : Release} (hv : rel.verify = .ok ()) {w : Write}
    (hw : w ∈ releaseWrites rel) (r : Release) (h : w = .release r) : r.verify = .ok () := by
  subst h
  rw [eq_of_mem_releaseWrites hw]
  exact hv

theorem emits_publish_verified (node : Node) (gossip : Release → Except Err Unit) (rel : Release) :
    Emits (fun w => ∀ r, w = .release r → r.verify = .ok ()) (publish node gossip rel) := by
  cases hv : rel.verify with
  | error e =>
      rw [publish, hv]
      intro s w hw
      cases hw
  | ok u =>
      refine (Emits.ofExcept _).bind fun _ => (Emits.ensure _ _).bind fun _ => Emits.bind ?_ fun _ =>
        Emits.ofExcept _
      exact (emits_putRelease rel).mono fun _ => verified_of_mem hv

omit [External] in
theorem Write.Adds.part {w : Write} (h : w.Adds) : w.part ≠ .releases := by
  cases w <;> first | exact Part.noConfusion | exact h.elim

theorem Write.Adds.verified {w : Write} (h : w.Adds) (r : Release) (hr : w = .release r) :
    r.verify = .ok () := by
  subst hr
  exact h.elim

theorem has_digests_replay {ws : List Write} (hws : ∀ w ∈ ws, w.Adds) {d : Digest}
    (h : s.digests.has d = true) : (replay s ws).digests.has d = true :=
  replay_keeps (P := Write.Adds) (I := fun t : Store => t.digests.has d = true)
    (fun _ _ hw hs => has_digests_apply hw hs) hws h

/-- What is imported is indexed. -/
theorem has_digests_putBlobBytes (data : Bytes) (mediaType : Option Str) (s : Store) :
    ((putBlobBytes data (some (Digest.sha256 data)) mediaType).final s).digests.has
      (Digest.sha256 data) = true := by
  have hexpect : (expectDigest (some (Digest.sha256 data)) (Digest.sha256 data)).result s =
      .ok () := by
    simp [expectDigest]
  rw [putBlobBytes, final_bind_of_ok hexpect, final_expectDigest]
  exact Table.has_iff.mpr ⟨_, Table.get_put_self _ _⟩

omit [External] in
theorem PushRun.job_eq {p q : PushRun} (h : p.job = some (.push q)) : q = p := by
  unfold job at h
  split at h <;> cases h
  rfl

omit [External] in
theorem PushRun.job_ne_fetch {p : PushRun} {f : FetchRun} : p.job ≠ some (.fetch f) := by
  unfold job
  split <;> exact nofun

omit [External] in
theorem FetchRun.job_eq {f g : FetchRun} (h : f.job = some (.fetch g)) : g = f := by
  unfold job at h
  split at h <;> cases h
  rfl

omit [External] in
theorem FetchRun.job_ne_push {f : FetchRun} {p : PushRun} : f.job ≠ some (.push p) := by
  unfold job
  split <;> exact nofun

omit [External] in
theorem FetchRun.eq_of_puts {f : FetchRun} {rel : Release} (h : f.puts = some rel) :
    rel = f.release := by
  unfold puts at h
  split at h <;> cases h
  rfl

theorem Removal.emits_op (r : Removal) :
    Emits (fun w => ∀ rel, w ≠ .release rel) (r.op node) := by
  cases r with
  | release publisher name tag => exact (node.emits_removeRelease _ _ _).bind fun _ => Emits.pure _
  | prune call policy young => exact call.emits_op young

/-- What the steps keep in any case: names are valid, a release being fetched is verified, and the
manifest of a push that was just stored is indexed. -/
structure Workbench.Sound (w : Workbench) : Prop where
  named : w.store.Named
  stored : ∀ p, w.job = some (.push p) → p.isStored = true →
    w.store.digests.has p.blob.digest = true
  verified : ∀ f, w.job = some (.fetch f) → f.release.verify = .ok ()

namespace Workbench

theorem sound_start : start.Sound where
  named _ _ h := by cases h
  stored _ h := by cases h
  verified _ h := by cases h

variable {w v : Workbench}

theorem Sound.interrupted (hw : w.Sound) {α : Type} {m : Op α}
    (hm : Emits (fun w => ∀ rel, w = .release rel → rel.verify = .ok ()) m) (k : ℕ) :
    (w.interrupted m k).Sound where
  named := hw.named.final (hm.cut _)
  stored _ h := by cases h
  verified _ h := by cases h

/-- A step of a push. -/
theorem Sound.push (hw : w.Sound) {p p' : PushRun} {s' : Store} {a : PushAct}
    (h : p.step node w.store a = some (s', p')) : Workbench.Sound ⟨s', p'.job⟩ := by
  have hnamed : s'.Named ∧ (p'.isStored = true → s'.digests.has p'.blob.digest = true) := by
    rcases PushRun.step_cases h with ⟨rel, -, hnot, gossip, rfl⟩ |
      ⟨-, ⟨hnot, rfl⟩ | ⟨hblob, rfl⟩ | ⟨hnot, -, subject, rfl⟩⟩
    · exact ⟨hw.named.final (emits_publish_verified _ _ _), fun hs => nomatch hnot.symm.trans hs⟩
    · exact ⟨hw.named, fun hs => nomatch hnot.symm.trans hs⟩
    · refine ⟨hw.named.final ((emits_putBlobBytes trivial (fun _ _ => trivial) (fun _ => trivial) _
        _).mono fun _ => Write.Adds.verified), fun _ => ?_⟩
      rw [hblob]
      exact has_digests_putBlobBytes _ _ _
    · refine ⟨hw.named.final (Emits.write fun rel hrel => ?_), fun hs => nomatch hnot.symm.trans hs⟩
      cases hrel
  refine ⟨hnamed.1, fun q hq hs => ?_, fun f hf => absurd hf PushRun.job_ne_fetch⟩
  obtain rfl := PushRun.job_eq hq
  exact hnamed.2 hs

/-- A step of a fetch. -/
theorem Sound.fetch (hw : w.Sound) {f f' : FetchRun} {s' : Store} {a : FetchAct}
    (hv : f.release.verify = .ok ()) (h : f.step w.store a = some (s', f')) :
    Workbench.Sound ⟨s', f'.job⟩ := by
  obtain ⟨hrelease, hcases⟩ := FetchRun.step_cases h
  refine ⟨?_, fun p hp => absurd hp FetchRun.job_ne_push, fun q hq => ?_⟩
  · rcases hcases with ⟨-, -, rfl⟩ | ⟨-, ws, hws, rfl⟩
    · exact hw.named.final ((emits_putRelease _).mono fun _ => verified_of_mem hv)
    · intro r rel hr
      rw [releases_replay fun w hw => (hws w hw).part] at hr
      exact hw.named r rel hr
  · rw [FetchRun.job_eq hq, hrelease]
    exact hv

theorem Sound.step {a : WorkAct} (hw : w.Sound) (h : w.step node a = some v) : v.Sound := by
  cases a with
  | upload data expect mediaType =>
      cases h
      have hadds : Emits Write.Adds (putBlobBytes data expect mediaType) :=
        emits_putBlobBytes trivial (fun _ _ => trivial) (fun _ => trivial) _ _
      exact ⟨hw.named.final (hadds.mono fun _ => Write.Adds.verified),
        fun p hp hs => has_digests_replay (hadds w.store) (hw.stored p hp hs), hw.verified⟩
  | beginPush push =>
      simp only [Workbench.step] at h
      split at h
      · cases h
        have hadds : Emits Write.Adds (checkPush node push) :=
          emits_checkPush (fun _ _ => trivial) (fun _ => trivial) _ _
        refine ⟨hw.named.final (hadds.mono fun _ => Write.Adds.verified), fun p hp hs => ?_,
          fun f hf => ?_⟩
        · dsimp only at hp
          split at hp
          · cases hp
            cases hs
          · cases hp
        · dsimp only at hf
          split at hf <;> cases hf
      · cases h
  | push a =>
      simp only [Workbench.step] at h
      split at h
      · obtain ⟨⟨s', p'⟩, hstep, rfl⟩ := Option.map_eq_some_iff.mp h
        exact hw.push hstep
      · cases h
  | cutPush a k =>
      simp only [Workbench.step] at h
      split at h
      · obtain ⟨rel, -, rfl⟩ := Option.map_eq_some_iff.mp h
        exact hw.interrupted (emits_publish_verified _ _ _) k
      · cases h
  | beginFetch release providers =>
      simp only [Workbench.step] at h
      split at h
      · split at h
        · rename_i hv
          cases h
          refine ⟨hw.named, fun p hp => ?_, fun f hf => ?_⟩
          · cases hp
          · cases hf
            exact hv
        · cases h
      · cases h
  | fetch a =>
      simp only [Workbench.step] at h
      split at h
      · rename_i f hjob
        obtain ⟨⟨s', f'⟩, hstep, rfl⟩ := Option.map_eq_some_iff.mp h
        exact hw.fetch (hw.verified f hjob) hstep
      · cases h
  | cutFetch k =>
      simp only [Workbench.step] at h
      split at h
      · rename_i f hjob
        obtain ⟨rel, hrel, rfl⟩ := Option.map_eq_some_iff.mp h
        have hv : rel.verify = .ok () := FetchRun.eq_of_puts hrel ▸ hw.verified f hjob
        exact hw.interrupted ((emits_putRelease _).mono fun _ => verified_of_mem hv) k
      · cases h
  | remove r =>
      simp only [Workbench.step] at h
      split at h
      · rename_i hjob
        cases h
        refine ⟨hw.named.final ((Removal.emits_op r).mono fun w hw rel h => absurd h (hw rel)),
          fun p hp => ?_, fun f hf => ?_⟩
        · cases hjob.symm.trans hp
        · cases hjob.symm.trans hf
      · cases h

/-- A step of a push keeps the catalogue unless it stores a release that must not be. -/
theorem catalogued_push (hw : w.Sound) (hc : w.store.Catalogued) {p p' : PushRun} {s' : Store}
    {a : PushAct} (hjob : w.job = some (.push p)) (h : p.step node w.store a = some (s', p')) :
    s'.Catalogued ↔ ∀ rel ∈ p.puts node a, w.store.Files rel none := by
  rcases PushRun.step_cases h with ⟨rel, hputs, -, gossip, rfl⟩ |
    ⟨hputs, ⟨-, rfl⟩ | ⟨-, rfl⟩ | ⟨-, hstored, subject, rfl⟩⟩
  · have hstore := catalogued_publish hc (PushRun.publisher_puts hputs) gossip none []
    rw [Option.map_none, cut_none] at hstore
    rw [hstore]
    constructor
    · intro hfiles r hr
      cases hputs.symm.trans hr
      exact hfiles
    · exact fun hall => hall rel hputs
  · exact iff_of_true hc fun r hr => nomatch hputs.symm.trans hr
  · have hadds : Emits Write.Adds (putBlobBytes p.checked.bytes
        (some (Digest.sha256 p.checked.bytes)) (some (p.checked.mediaType p.push))) :=
      emits_putBlobBytes trivial (fun _ _ => trivial) (fun _ => trivial) _ _
    exact iff_of_true (hc.replay (hadds w.store)) fun r hr => nomatch hputs.symm.trans hr
  · exact iff_of_true (hc.putReferrer subject (hw.stored p hjob hstored)) fun r hr =>
      nomatch hputs.symm.trans hr

/-- And so does a step of a fetch. -/
theorem catalogued_fetch (hw : w.Sound) (hc : w.store.Catalogued) {f f' : FetchRun} {s' : Store}
    {a : FetchAct} (hjob : w.job = some (.fetch f)) (h : f.step w.store a = some (s', f')) :
    s'.Catalogued ↔ ((∃ net, a = .advance net) → ∀ rel ∈ f.puts, w.store.Files rel none) := by
  rcases (FetchRun.step_cases h).2 with ⟨hputs, hadvance, rfl⟩ | ⟨hquiet, ws, hws, rfl⟩
  · have hstore := catalogued_putRelease hc (hw.verified f hjob) none []
    rw [Option.map_none, cut_none] at hstore
    rw [hstore, forall_prop_of_true hadvance, hputs]
    constructor
    · rintro hfiles _ ⟨⟩
      exact hfiles
    · exact fun hall => hall _ rfl
  · refine iff_of_true (hc.replay hws) ?_
    rintro ⟨net, rfl⟩ rel hrel
    rcases hquiet with hquiet | hquiet
    · cases hquiet
    · cases hquiet.symm.trans hrel

theorem careful_iff {a : WorkAct} (hw : w.Sound) (hc : w.store.Catalogued)
    (h : w.step node a = some v) : v.store.Catalogued ↔ w.Careful node a := by
  cases a with
  | upload data expect mediaType =>
      cases h
      have hadds : Emits Write.Adds (putBlobBytes data expect mediaType) :=
        emits_putBlobBytes trivial (fun _ _ => trivial) (fun _ => trivial) _ _
      exact iff_of_true (hc.replay (hadds w.store)) trivial
  | beginPush push =>
      simp only [Workbench.step] at h
      split at h
      · cases h
        have hadds : Emits Write.Adds (checkPush node push) :=
          emits_checkPush (fun _ _ => trivial) (fun _ => trivial) _ _
        exact iff_of_true (hc.replay (hadds w.store)) trivial
      · cases h
  | push a =>
      simp only [Workbench.step] at h
      split at h
      · rename_i p hjob
        obtain ⟨⟨s', p'⟩, hstep, rfl⟩ := Option.map_eq_some_iff.mp h
        refine (catalogued_push hw hc hjob hstep).trans ?_
        simp only [Careful, hjob, Option.some.injEq, Job.push.injEq, forall_eq']
      · cases h
  | cutPush a k =>
      simp only [Workbench.step] at h
      split at h
      · rename_i p hjob
        obtain ⟨rel, hputs, rfl⟩ := Option.map_eq_some_iff.mp h
        have hstore := catalogued_publish hc (PushRun.publisher_puts hputs) (fun _ => .ok ()) (some k)
          [("interrupted" : Str)]
        refine hstore.trans ?_
        simp only [Careful, hjob, Option.some.injEq, Job.push.injEq, forall_eq', hputs,
          Option.mem_def]
      · cases h
  | beginFetch release providers =>
      simp only [Workbench.step] at h
      split at h
      · split at h
        · cases h
          exact iff_of_true hc trivial
        · cases h
      · cases h
  | fetch a =>
      simp only [Workbench.step] at h
      split at h
      · rename_i f hjob
        obtain ⟨⟨s', f'⟩, hstep, rfl⟩ := Option.map_eq_some_iff.mp h
        refine (catalogued_fetch hw hc hjob hstep).trans ?_
        cases a with
        | advance net =>
            simp only [Careful, hjob, Option.some.injEq, Job.fetch.injEq, forall_eq',
              FetchAct.advance.injEq, exists_eq', true_imp_iff]
        | stop => exact iff_of_true (fun ⟨net, hnet⟩ => nomatch hnet) trivial
      · cases h
  | cutFetch k =>
      simp only [Workbench.step] at h
      split at h
      · rename_i f hjob
        obtain ⟨rel, hputs, rfl⟩ := Option.map_eq_some_iff.mp h
        have hv : rel.verify = .ok () := FetchRun.eq_of_puts hputs ▸ hw.verified f hjob
        refine (catalogued_putRelease hc hv (some k) [("interrupted" : Str)]).trans ?_
        simp only [Careful, hjob, Option.some.injEq, Job.fetch.injEq, forall_eq', hputs,
          Option.mem_def]
      · cases h
  | remove r =>
      simp only [Workbench.step] at h
      split at h
      · rename_i hjob
        cases h
        rw [Careful, forall_prop_of_true hjob]
        cases r with
        | release publisher name tag =>
            exact (leaves_release hw.named publisher name tag).catalogued_iff hc
        | prune call policy young =>
            cases call with
            | window publisher name =>
                exact (leaves_window hw.named publisher name policy young).catalogued_iff hc
            | collect req => exact catalogued_collect hw.named hc req policy young
      · cases h

/-- A step that cannot be taken asks for nothing. -/
theorem careful_of_none {a : WorkAct} (h : w.step node a = none) : w.Careful node a := by
  cases a with
  | push a =>
      intro p hjob rel hrel
      simp only [Workbench.step, hjob, Option.map_eq_none_iff] at h
      exact absurd h (PushRun.step_ne_none hrel _)
  | cutPush a k =>
      intro p hjob rel hrel
      simp only [Workbench.step, hjob, Option.map_eq_none_iff] at h
      cases h.symm.trans hrel
  | fetch a =>
      cases a with
      | advance net =>
          intro f hjob rel hrel
          simp only [Workbench.step, hjob, Option.map_eq_none_iff] at h
          exact absurd h (FetchRun.advance_ne_none hrel net _)
      | stop => trivial
  | cutFetch k =>
      intro f hjob rel hrel
      simp only [Workbench.step, hjob, Option.map_eq_none_iff] at h
      cases h.symm.trans hrel
  | remove r =>
      intro hjob
      simp only [Workbench.step, hjob] at h
      cases h
  | _ => trivial

end Workbench

theorem catalogued_empty : Store.empty.Catalogued where
  indexed _ _ h := by cases h
  listed _ h := by cases h

/-- **The referrers listed.**  In a run of pushes, fetches and removals, one after another, records,
index and releases agree in every state exactly when each step is careful. -/
theorem run_catalogued_iff (node : Node) (acts : List WorkAct) :
    Throughout (Workbench.step node) (fun w => w.store.Catalogued) Workbench.start acts ↔
      Meets (Workbench.step node) (Workbench.Careful node) Workbench.start acts :=
  throughout_iff_meets (fun _ _ _ hw h => Workbench.Sound.step hw h)
    (fun _ _ _ hw hc h => Workbench.careful_iff hw hc h) (fun _ _ h => Workbench.careful_of_none h)
    Workbench.sound_start catalogued_empty

end

namespace Sample

/-- A release of an index with a referrer among its blobs. -/
def referred : Release :=
  letI := sample
  Release.sign alice
    { version := 0, publisher := alice.id, name := "app", tag := "1.0"
      manifest := index.blob (some mtOciIndex)
      blobs := [referrer.blob (some mtOciIndex)]
      timestamp := 1
      referrers := [⟨referrer.digest, mtOciIndex, referrer.bytes.length, none, []⟩] } 1

/-- The release is fetched by `n` steps. -/
def fetchSteps (n : ℕ) : List (@WorkAct sample) :=
  letI := sample
  .beginFetch referred [alice.id] :: List.replicate n (.fetch (.advance downloads))

end Sample

/-- The daemon stops after the release is written, and the release is fetched once more: its referrer
is not listed. -/
theorem refetch_lists_nothing : letI := sample
    let node := Sample.node Policy.default
    ¬ Throughout (Workbench.step node) (fun w => w.store.Catalogued) Workbench.start
      (Sample.fetchSteps 10 ++ .cutFetch 1 :: Sample.fetchSteps 3) := by
  let known := sample
  intro node h
  have hrun : (run (Workbench.step node) Workbench.start
      (Sample.fetchSteps 10 ++ .cutFetch 1 :: Sample.fetchSteps 3)).any (fun w =>
        w.job.isNone && w.store.releases.rows.contains Sample.referred &&
          w.store.referrers.rows.isEmpty) = true := by
    subst known
    simp only [node, Sample.fetchSteps, Sample.referred, Sample.Content.blob, Sample.referrer_bytes]
    unfold Sample.downloads
    rw [Sample.sample_eq_prepared]
    decide +kernel
  obtain ⟨w, hw, hstore⟩ := (Option.any_eq_true _ _).mp hrun
  simp only [Bool.and_eq_true, List.contains_iff_mem, List.isEmpty_iff] at hstore
  obtain ⟨⟨-, hheld⟩, hnone⟩ := hstore
  obtain ⟨r, hr, hin⟩ : ∃ r ∈ Sample.referred.payload.referrers, Sample.referred.Includes r := by
    decide +kernel
  obtain ⟨l, hl, -⟩ := (last_of_throughout h hw).listed _ hheld r hr hin
  have hrow := Table.mem_of_get (mem_listReferrers.mp hl)
  rw [hnone] at hrow
  cases hrow

end Ocid
