import Ocid.Lib.Guards
import Ocid.Publishing.Session
import Ocid.Replication.Selection
import Ocid.Retention.Listed

/-!
# Replication — Bounds — what each operation does to the records

What an operation of a node does to the store comes down to two things: it fetches releases that
peers answered, and it drops what is outside a window, collected, or removed by name.  So what
the fetches, the drops and the sweeps have, the operations have (`covers_getOrFetch`,
`covers_handle`, `covers_removal`).

`Changes A D` bounds a write to the records of a store: a release that is written is in `A`,
verifies, and supersedes what is held; a reference that is dropped is in `D`.  A push writes
releases of the node; a pull, an announcement and an inventory write what peers answered; a window
and a collection drop references of other publishers, and only a removal by name drops one of the
node.
-/

namespace Ocid

open Call

section
variable [External]

/-- Releases written are in `A`, verify, and are put where nothing newer is; references dropped are
in `D`. -/
def Changes (A : Set Release) (D : Set Ref) (s : Store) (w : Write) : Prop :=
  (∀ rel, w = .release rel → rel ∈ A ∧ rel.verify = .ok () ∧ s.accepts rel = true) ∧
    ∀ r, w = .dropRelease r → r ∈ D

variable {node : Node} {s : Store} {A A' : Set Release} {D D' : Set Ref}

theorem Changes.mono (hA : A ⊆ A') (hD : D ⊆ D') (s : Store) (w : Write) (h : Changes A D s w) :
    Changes A' D' s w :=
  ⟨fun rel hw => ⟨hA (h.1 rel hw).1, (h.1 rel hw).2⟩, fun r hw => hD (h.2 r hw)⟩

theorem Changes.of_part {w : Write} (h : w.part ≠ .releases) (s : Store) : Changes A D s w := by
  refine ⟨?_, ?_⟩
  · rintro rel rfl
    exact absurd rfl h
  · rintro r rfl
    exact absurd rfl h

/-! ### Pushes -/

theorem guarded_putRelease {rel : Release} (hv : rel.verify = .ok ()) (hA : rel ∈ A) (s : Store) :
    Guarded (Changes A D) (putRelease rel) s := by
  obtain ⟨hn, ht⟩ := Release.valid_of_verify hv
  rw [Guarded, journal, putRelease_apply hn ht]
  split
  · rename_i haccepts
    refine ⟨⟨fun r hr => ?_, fun r hr => (by cases hr)⟩, Along.of_forall fun t w hw => ?_⟩
    · cases hr
      exact ⟨hA, hv, haccepts⟩
    · obtain ⟨x, -, rfl⟩ := List.mem_map.mp hw
      exact Changes.of_part (by simp [Write.part]) t
  · trivial

/-- A node publishes its own releases. -/
theorem guarded_publish (gossip : Release → Except Err Unit) (rel : Release)
    (hA : ∀ rel : Release, rel.publisher = node.id → rel ∈ A) (s : Store) :
    Guarded (Changes A D) (publish node gossip rel) s := by
  refine Guarded.quiet_bind (Emits.ofExcept _) fun u hv => ?_
  refine Guarded.quiet_bind (Emits.ensure _ _) fun u' hown => ?_
  have hown : rel.publisher = node.id := by
    rw [result_ensure] at hown
    by_contra hne
    rw [decide_eq_false hne] at hown
    cases hown
  exact (guarded_putRelease hv (hA rel hown) s).bind fun _ _ => Guarded.ofExcept _

theorem guarded_attachAll (gossip : Release → Except Err Unit) (clock : ℕ → ℕ) (subject : Digest)
    (referrer : Referrer) (blobs : List BlobRef)
    (hA : ∀ rel : Release, rel.publisher = node.id → rel ∈ A) (i : ℕ) (rels : List Release)
    (s : Store) :
    Guarded (Changes A D) (attachAll node gossip clock subject referrer blobs i rels) s := by
  induction rels generalizing i s with
  | nil => exact Guarded.pure _
  | cons rel rels ih =>
      refine Guarded.ite (fun _ => ?_) fun _ => ih _ _
      exact (guarded_publish gossip _ hA s).bind fun _ _ => (ih _ _).bind fun _ _ => Guarded.pure _

/-- A push writes releases of the node, and drops none. -/
theorem guarded_push (q : Request) (s : Store) :
    Guarded (Changes {rel | rel.publisher = node.id} ∅) (q.run node) s := by
  have hown : ∀ rel : Release, rel.publisher = node.id →
      rel ∈ {rel : Release | rel.publisher = node.id} := fun _ h => h
  have hother : ∀ {α : Type} {m : Handler α}, Emits (fun w : Write => w.part ≠ .releases) m →
      ∀ s, Guarded (Changes {rel | rel.publisher = node.id} ∅) m s :=
    fun hm _ => Guarded.of_emits hm fun t _ hw => Changes.of_part hw t
  refine Guarded.cut ?_ _
  refine (hother (emits_checkPush (by simp [Write.part]) (by simp [Write.part]) _ _) s).bind
    fun c _ => ?_
  refine (hother ((emits_putBlobBytes (by simp [Write.part]) (by simp [Write.part])
    (by simp [Write.part]) _ _).mapErr _) _).bind fun r _ => ?_
  refine Guarded.bind ?_ fun _ _ => Guarded.bind ?_ fun _ _ => hother (emits_respond _) _
  · unfold attachSubject
    split
    · exact Guarded.pure _
    · refine (hother ((Emits.write (by simp [Write.part])).mapErr _) _).bind fun _ _ => ?_
      refine Guarded.bind (Guarded.mapErr ?_ _) fun _ _ => Guarded.pure _
      exact Guarded.read_bind (guarded_attachAll _ _ _ _ _ hown _ _ _)
  · unfold publishTag
    split
    · exact Guarded.pure _
    · exact (guarded_publish _ _ hown _).mapErr _

/-- A fetch writes no release but the one it was given. -/
theorem guarded_fetch (net : Exchange) {rel : Release} (providers : List EndpointId) (hA : rel ∈ A)
    (s : Store) : Guarded (Changes A D) (net.fetch node rel providers) s := by
  refine Guarded.cut (Guarded.quiet_bind (Emits.ofExcept _) fun u hv => ?_) _
  refine (Guarded.of_emits (emits_fetchBlobs_part _ _ _ _) fun t _ hw => Changes.of_part hw t).bind
    fun _ _ => (guarded_putRelease hv hA _).bind fun _ _ => Guarded.pure _

/-! ### What fetches, drops and sweeps have, operations have -/

/-- The write drops something; a reference that it drops is in `D`. -/
def Write.Drops (D : Set Ref) : Write → Prop
  | .dropRelease r => r ∈ D
  | .untag _ | .dropBlobRef _ | .dropReferrer _ _ => True
  | _ => False

theorem Changes.of_drops {w : Write} (h : w.Drops D) (s : Store) : Changes A D s w := by
  refine ⟨?_, ?_⟩
  · rintro rel rfl
    cases h
  · rintro r rfl
    exact h

/-- The references of another publisher than the node. -/
def Node.foreign (node : Node) : Set Ref := {r | r.publisher ≠ node.id}

/-- Every fetch of a release that was answered is covered. -/
def Exchange.Covered (J : Judgement Store Write) (node : Node) (net : Exchange) : Prop :=
  ∀ rel providers s, net.answer = .ok (some rel) → J.Covers (net.fetch node rel providers) s

/-- Dropping a record in `D` is covered, and sweeping what it leaves. -/
structure Clears (J : Judgement Store Write) (D : Set Ref) : Prop where
  record : ∀ s, ∀ r ∈ D, J.Covers (write (.dropRelease r) : Op Unit) s
  referrer : ∀ s subject d, J.Covers (write (.dropReferrer subject d) : Op Unit) s
  sweep : ∀ s ignore, (∀ rel ∈ s.releases.rows, rel.reference ∉ ignore) →
    J.Covers (sweepBlobsLocked false ignore) s

theorem clears_guarded {C : Store → Write → Prop} (h : ∀ s w, Write.Drops D w → C s w) :
    Clears (.guarded C) D where
  record s r hr := show Guarded C (write (.dropRelease r) : Op Unit) s from Guarded.write (h s _ hr)
  referrer s subject d :=
    show Guarded C (write (.dropReferrer subject d) : Op Unit) s from Guarded.write (h s _ trivial)
  sweep _ ignore _ := Guarded.of_emits (emits_sweepBlobsLocked (P := Write.Drops D)
    (fun _ => trivial) (fun _ => trivial) false ignore) h

section
variable {J : Judgement Store Write}

open Judgement

theorem covers_askPeers (publisher : PublisherId) {net : EndpointId → Exchange}
    (hnet : ∀ p, (net p).Covered J node) (peers : List EndpointId) (s : Store) :
    J.Covers (askPeers node publisher net peers) s := by
  induction peers with
  | nil => exact J.pure _ _
  | cons p peers ih =>
      rw [askPeers]
      split
      · rename_i rel ha
        exact J.bind (hnet p rel _ s ha) fun _ _ => J.pure _ _
      · exact ih
      · exact ih

theorem covers_getOrFetch (publisher : PublisherId) (name tag : Str) {net : EndpointId → Exchange}
    (hnet : ∀ p, (net p).Covered J node) (s : Store) :
    J.Covers (getOrFetch node publisher name tag net) s := by
  have hask : ∀ s, J.Covers (askPeers node publisher net (candidatePeers node publisher)) s :=
    covers_askPeers publisher hnet _
  refine read_bind (quiet_bind (emits_getRelease _ _ _) fun held _ => ?_)
  split
  · exact ite (fun _ => J.pure _ _) fun _ => ite (fun _ => J.pure _ _) fun _ => hask s
  · exact ite (fun _ => J.pure _ _) fun _ => hask s

theorem covers_removeRelease (hclears : Clears J D) {publisher : PublisherId}
    {name tag : Str} (hD : ⟨publisher, name, tag⟩ ∈ D) (s : Store) :
    J.Covers (removeRelease publisher name tag) s := by
  refine quiet_bind (Emits.ofExcept _) fun r hr => read_bind ?_
  obtain ⟨-, -, rfl⟩ := releasePath_eq_ok.mp hr
  exact ite (fun _ => J.bind (hclears.record s _ hD) fun _ _ => J.pure _ _) fun _ => J.pure _ _

theorem covers_sweep (hclears : Clears J D) (s : Store) : J.Covers (sweepBlobsLocked false []) s :=
  hclears.sweep s [] fun _ _ => List.not_mem_nil

/-- A window drops releases of its image. -/
theorem covers_enforceWindow (hclears : Clears J D) (hD : node.foreign ⊆ D)
    (publisher : PublisherId) (name : Str) (s : Store) :
    J.Covers (enforceWindow node publisher name) s := by
  refine ite (fun _ => J.pure _ _) fun hother => ?_
  refine ite (fun _ => J.pure _ _) fun _ => ?_
  have hremove : ∀ selected rels (s : Store),
      J.Covers (removeOutside publisher name selected rels) s := by
    intro selected rels
    induction rels with
    | nil => exact fun _ => J.pure _ _
    | cons rel rels ih =>
        exact fun s => ite (fun _ => ih s) fun _ =>
          J.bind (covers_removeRelease hclears (hD hother) s) fun _ _ => J.bind (ih _) fun _ _ =>
            J.pure _ _
  refine quiet_bind (emits_localReleasesOf _ _) fun held _ => ?_
  refine J.bind (hremove _ _ _) fun _ _ => ite (fun _ => ?_) fun _ => J.pure _ _
  exact J.bind (covers_sweep hclears _) fun _ _ => J.pure _ _

theorem covers_askProviders (hclears : Clears J D) (hD : node.foreign ⊆ D)
    (sum : ReleaseSummary) (providers : List EndpointId) {net : EndpointId → Exchange}
    (hnet : ∀ p, (net p).Covered J node) (peers : List EndpointId) (s : Store) :
    J.Covers (askProviders node sum providers net peers) s := by
  induction peers with
  | nil => exact J.quiet (Emits.fail _) _
  | cons p peers ih =>
      rw [askProviders]
      split
      · rename_i rel ha
        exact J.bind (hnet p rel _ s ha) fun _ _ => covers_enforceWindow hclears hD _ _ _
      · exact ih
      · exact ih

theorem covers_onAnnouncement (hclears : Clears J D) (hD : node.foreign ⊆ D)
    (sum : ReleaseSummary) (source : EndpointId) {net : EndpointId → Exchange}
    (hnet : ∀ p, (net p).Covered J node) (s : Store) :
    J.Covers (onAnnouncement node sum source net) s :=
  quiet_bind (emits_selectWanted _ _ _ _) fun _ _ => ite (fun _ => J.pure _ _)
    fun _ => covers_askProviders hclears hD _ _ hnet _ s

theorem covers_replicate (peer : EndpointId) {net : ℕ → Exchange}
    (hnet : ∀ i, (net i).Covered J node) (i : ℕ) (xs : List ReleaseSummary) (s : Store) :
    J.Covers (replicate node peer net i xs) s := by
  induction xs generalizing i s with
  | nil => exact J.pure _ _
  | cons x xs ih =>
      rw [replicate]
      split
      · exact J.quiet (Emits.fail _) _
      · exact ih _ _
      · rename_i rel ha
        exact J.bind (J.attempt (hnet i rel _ s ha)) fun _ _ => ih _ _

theorem covers_syncRepos (hclears : Clears J D) (hD : node.foreign ⊆ D)
    (peer : EndpointId) {net : ℕ → ℕ → Exchange} (hnet : ∀ j i, (net j i).Covered J node) (j : ℕ)
    (repos : List Repo) (s : Store) : J.Covers (syncRepos node peer net j repos) s := by
  induction repos generalizing j s with
  | nil => exact J.pure _ _
  | cons repo repos ih =>
      refine J.bind ?_ fun _ _ => ih _ _
      refine quiet_bind (emits_selectWanted _ _ _ _) fun _ _ => ?_
      exact ite (fun _ => J.pure _ _) fun _ => J.bind (covers_replicate _ (hnet j) _ _ s)
        fun _ _ => covers_enforceWindow hclears hD _ _ _

/-- The exchanges that an event may lead to. -/
def Event.exchanges : Event → Set Exchange
  | .announcement _ _ net => Set.range net
  | .inventory _ _ net => {e | ∃ j i, net j i = e}

/-- What a node does with an event. -/
theorem covers_handle (hclears : Clears J node.foreign) {x : Event}
    (hnet : ∀ e ∈ x.exchanges, e.Covered J node) (s : Store) : J.Covers (x.handle node) s := by
  cases x with
  | announcement sum source net =>
      exact covers_onAnnouncement hclears (fun _ h => h) sum source (fun p => hnet _ ⟨p, rfl⟩) s
  | inventory peer inv net =>
      refine quiet_bind (Emits.ofExcept _) fun _ _ => ?_
      exact covers_syncRepos hclears (fun _ h => h) peer (fun j i => hnet _ ⟨j, i, rfl⟩) 0 _ s

/-! ### Removals -/

/-- What a collection takes is not among the records that it leaves. -/
theorem reference_notMem_of_collected (hs : s.Named) {req : GcReq} (hreal : req.dryRun = false)
    {keep : List Str} {young : Release → Bool} {removed : List Str}
    (hok : (collectReleases req keep young s.listReleases).result s = .ok removed) {rel : Release}
    (hrel : rel ∈ ((collectReleases req keep young s.listReleases).final s).releases.rows) :
    rel.reference ∉ removed := by
  have hvalid : ∀ rel ∈ s.listReleases, validateName rel.name = .ok () ∧
      validateTag rel.payload.tag = .ok () := fun rel hrel =>
    hs _ _ (Store.mem_listReleases.mp hrel)
  obtain ⟨-, hget⟩ := collectReleases_spec req keep young hvalid s
  rw [collectReleases_result req keep young hvalid s] at hok
  cases hok
  have hleft := (hget rel.ref).symm.trans (Table.get_of_mem hrel)
  split at hleft
  · cases hleft
  · rename_i hspared
    refine (reference_notMem_collected hs req keep young (Table.mem_of_get hleft)).mpr ?_
    by_contra hgone
    refine hspared ⟨rel, Store.mem_listReleases.mpr hleft, ?_, hreal, rfl⟩
    exact Bool.eq_false_of_not_eq_true hgone

theorem covers_collectReferrers (hclears : Clears J D) (req : GcReq) (s : Store) :
    J.Covers (collectReferrers req : Op Unit) s := by
  have hdrop : ∀ ps (s : Store), J.Covers (dropReferrers ps) s := by
    intro ps
    induction ps with
    | nil => exact fun _ => J.pure _ _
    | cons p ps ih => exact fun s => J.bind (hclears.referrer s _ _) fun _ _ => ih _
  refine ite (fun _ => J.pure _ _) fun _ => J.bind (read_bind ?_) fun _ _ => J.pure _ _
  exact J.bind (hdrop _ s) fun _ _ => J.pure _ _

/-- A collection drops no release of the node. -/
theorem covers_gc (hclears : Clears J D) (hD : node.foreign ⊆ D) (hs : s.Named) (req : GcReq)
    (young : Release → Bool) : J.Covers (gc node req young) s := by
  obtain ⟨dryRun, force⟩ := req
  cases dryRun with
  | true => exact J.quiet (emits_gc_dry node force young) s
  | false =>
      refine read_bind ?_
      have hcollect : ∀ rels : List Release, (∀ rel ∈ rels, rel ∈ s.releases.rows) → ∀ t : Store,
          J.Covers (collectReleases ⟨false, force⟩ (retainedSet node node.policy s.listReleases)
            young rels) t := by
        intro rels
        induction rels with
        | nil => exact fun _ _ => J.pure _ _
        | cons rel rels ih =>
            intro hrows t
            have ih := ih fun r hr => hrows r (List.mem_cons_of_mem _ hr)
            refine ite (fun _ => ih t) fun hspare => J.bind ?_ fun _ _ =>
              J.bind (ih _) fun _ _ => J.pure _ _
            have hother := ((spares_eq_false_iff node hs (hrows rel List.mem_cons_self) _ young).mp
              (Bool.eq_false_of_not_eq_true hspare)).1.1
            exact ite (fun _ => J.pure _ _) fun _ =>
              J.bind (covers_removeRelease hclears (hD hother) t) fun _ _ => J.pure _ _
      have hrows : ∀ rel ∈ s.listReleases, rel ∈ s.releases.rows := fun rel hrel =>
        Table.mem_of_get (Store.mem_listReleases.mp hrel)
      refine J.bind (hcollect _ hrows s) fun removed hremoved => J.bind ?_ fun _ _ => ?_
      · exact hclears.sweep _ _ fun rel hrel => reference_notMem_of_collected hs rfl hremoved hrel
      · exact J.bind (covers_collectReferrers hclears _ _) fun _ _ => J.pure _ _

/-- The references a removal may drop. -/
def Removal.range (node : Node) : Removal → Set Ref
  | .release publisher name tag =>
      {r | r.publisher = publisher ∧ r.name = name ∧ ∀ t ∈ tag, r.tag = t}
  | .prune _ _ _ => node.foreign

theorem covers_removal (hs : s.Named) {r : Removal} (hclears : Clears J (r.range node)) :
    J.Covers (r.op node) s := by
  cases r with
  | release publisher name tag =>
      refine J.bind ?_ fun _ _ => J.pure _ _
      refine quiet_bind (emits_tagsOf _ _ _) fun tags htags => ?_
      have htag : ∀ t ∈ tags, (⟨publisher, name, t⟩ : Ref) ∈
          (Removal.release publisher name tag).range node := by
        intro t ht
        refine ⟨rfl, rfl, fun t' ht' => ?_⟩
        cases ht'
        cases htags
        exact List.mem_singleton.mp ht
      have hremove : ∀ ts : List Str, (∀ t ∈ ts, t ∈ tags) → ∀ s : Store,
          J.Covers (removeTags publisher name ts) s := by
        intro ts
        induction ts with
        | nil => exact fun _ _ => J.pure _ _
        | cons t ts ih =>
            intro hts s
            refine J.bind (covers_removeRelease hclears (htag t (hts t List.mem_cons_self)) s)
              fun _ _ => ?_
            exact J.bind (ih (fun t' ht' => hts t' (List.mem_cons_of_mem _ ht')) _) fun _ _ =>
              J.pure _ _
      refine J.bind (hremove tags (fun _ h => h) s) fun _ _ => ite (fun _ => J.pure _ _)
        fun _ => J.bind (covers_sweep hclears _) fun _ _ => J.pure _ _
  | prune call policy young =>
      have hsame : ({ node with policy } : Node).foreign ⊆ node.foreign := fun _ h => h
      cases call with
      | window publisher name => exact covers_enforceWindow hclears hsame publisher name s
      | collect req =>
          exact J.bind (covers_gc hclears hsame hs req young) fun _ _ => J.pure _ _

end

end

end Ocid
