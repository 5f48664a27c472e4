import Ocid.Core.Encoding
import Ocid.Replication.Bounds

/-!
# Replication — Swarm — many nodes, and who published what they hold

A `Swarm` is the stores of any number of nodes, with a log of what each node published.  A step is a
task of one node: an upload or a push to its registry, a pull, an announcement or an inventory
handled, a removal, content deleted by the blob store.  The tasks of different nodes come in any
order, and a fault may stop each after any of its writes.

A node handles its tasks one after another here.  A daemon does not: what two requests do to one
store when they overlap is said where it matters (Publishing — Attach, Publishing — Uploads,
Retention — World).

What peers answer is up to them, but for one thing: no one signs for the publishers in `H` except
their nodes (`Unforged`).  Then every record that any node holds of such a publisher was published
by it, payload for payload (`run_authentic`).  So old records that peers send again take nothing
back: the publisher's own node holds the newest of what it published, and nobody holds a newer one
(`run_newest`).
-/

namespace Ocid

open Call

section
variable [External]

/-- The blob store deletes content that no pin protects. -/
def deleteContent (h : Blake3) : Op Unit := do
  let s ← read
  if s.listPins.any fun p => p.2 = h then pure ()
  else write (.dropData h)

theorem emits_deleteContent {P : Write → Prop} {h : Blake3} (hP : P (.dropData h)) :
    Emits P (deleteContent h) :=
  Emits.read.bind fun _ => Emits.ite (fun _ => Emits.pure _) fun _ => Emits.write hP

/-- What a node does at a time, before it turns to the next task. -/
inductive Task where
  | upload (data : Bytes) (expect : Option Digest) (mediaType : Option Str)
      (fault : Option (ℕ × Err))
  | push (q : Request)
  | pull (publisher : PublisherId) (name tag : Str) (net : EndpointId → Exchange)
      (fault : Option (ℕ × Err))
  | hear (x : Handling)
  | remove (r : Removal) (fault : Option (ℕ × Err))
  | delete (h : Blake3)

namespace Task

/-- The writes of a task. -/
def journal (node : Node) (s : Store) : Task → List Write
  | .upload data expect mediaType fault =>
      ((putBlobBytes data expect mediaType).cut fault).journal s
  | .push q => (q.run node).journal s
  | .pull publisher name tag net fault =>
      ((getOrFetch node publisher name tag net).cut fault).journal s
  | .hear x => (x.call node).journal s
  | .remove r fault => ((r.op node).cut fault).journal s
  | .delete h => (deleteContent h).journal s

/-- The exchanges that a task may lead to. -/
def exchanges : Task → Set Exchange
  | .pull _ _ _ net _ => Set.range net
  | .hear x => x.event.exchanges
  | _ => ∅

/-- The releases that peers answer during a task. -/
def answers (x : Task) : Set Release := {rel | ∃ e ∈ x.exchanges, e.answer = .ok (some rel)}

/-- The releases a task may write. -/
def writes (node : Node) : Task → Set Release
  | .push _ => {rel | rel.publisher = node.id}
  | x => x.answers

/-- The references a task may drop. -/
def drops (node : Node) : Task → Set Ref
  | .hear _ => node.foreign
  | .remove r _ => r.range node
  | _ => ∅

/-- What a client of the node uploads or pushes is guarded by `C`, and what the blob store deletes. -/
def Guarded (C : Store → Write → Prop) (node : Node) (s : Store) : Task → Prop
  | .upload data expect mediaType fault =>
      Call.Guarded C ((putBlobBytes data expect mediaType).cut fault) s
  | .push q => Call.Guarded C (q.run node) s
  | .delete h => Call.Guarded C (deleteContent h) s
  | _ => True

end Task

/-- The record that is written. -/
def Write.record : Write → Option Release
  | .release rel => some rel
  | _ => none

/-- The releases that a task with the writes `ws` publishes. -/
def Task.publishes (ws : List Write) : Task → List Release
  | .push _ => ws.filterMap Write.record
  | _ => []

/-- Nodes, by their publisher ids, and what was published. -/
structure Swarm where
  stores : PublisherId → Store
  /-- Who published what. -/
  log : List (PublisherId × Release)

namespace Swarm

/-- All nodes are new. -/
def start : Swarm := ⟨fun _ => .empty, []⟩

/-- A node handles a task, from its first write to its last. -/
def step (w : Swarm) (x : Node × Task) : Option Swarm :=
  let ws := x.2.journal x.1 (w.stores x.1.id)
  some
    { stores := Function.update w.stores x.1.id (replay (w.stores x.1.id) ws)
      log := (x.2.publishes ws).map (fun rel => (x.1.id, rel)) ++ w.log }

/-- `i` published this payload. -/
def Published (w : Swarm) (i : PublisherId) (payload : ReleasePayload) : Prop :=
  ∃ p ∈ w.log, p.1 = i ∧ p.2.payload = payload

/-- What is held verifies, and what is held of a publisher in `H` was published by it. -/
structure Authentic (H : Set PublisherId) (w : Swarm) : Prop where
  log : ∀ p ∈ w.log, p.2.publisher = p.1
  verified : ∀ i r rel, (w.stores i).releases.get r = some rel → rel.verify = .ok ()
  published : ∀ i r rel, (w.stores i).releases.get r = some rel → rel.publisher ∈ H →
    w.Published rel.publisher rel.payload

/-- No peer answers a release with a signature of a publisher in `H` on bytes that the publisher did
not sign. -/
def Unforged (H : Set PublisherId) (w : Swarm) (x : Node × Task) : Prop :=
  ∀ rel ∈ x.2.answers, rel.verify = .ok () → rel.publisher ∈ H →
    ∃ p ∈ w.log, p.1 = rel.publisher ∧
      p.2.payload.canonicalBytes = rel.payload.canonicalBytes

theorem unforged_of_logged {H : Set PublisherId} {w : Swarm} {x : Node × Task}
    (h : ∀ rel ∈ x.2.answers, (rel.publisher, rel) ∈ w.log) : w.Unforged H x :=
  fun rel hrel _ _ => ⟨_, h rel hrel, rfl, rfl⟩

/-- The publisher's node does not remove `r` by name. -/
def Spares (r : Ref) (_ : Swarm) (x : Node × Task) : Prop :=
  match x.2 with
  | .remove (.release publisher name tag) _ => x.1.id = r.publisher →
      ¬ (r.publisher = publisher ∧ r.name = name ∧ ∀ t ∈ tag, r.tag = t)
  | _ => True

/-- If `r` was published, its publisher holds the newest of what it published under `r`, and no node
holds a newer one. -/
def Newest (r : Ref) (w : Swarm) : Prop :=
  ∀ p ∈ w.log, p.2.ref = r → ∃ own, (w.stores r.publisher).releases.get r = some own ∧
    w.Published r.publisher own.payload ∧
    (∀ q ∈ w.log, q.2.ref = r → q.2.payload.timestamp ≤ own.payload.timestamp) ∧
    ∀ i rel, (w.stores i).releases.get r = some rel →
      rel.payload.timestamp ≤ own.payload.timestamp

end Swarm

/-! ### The bound of each task -/

variable {node : Node} {s : Store}

/-- A task is guarded by what its fetches, drops and sweeps satisfy, what a client uploads or pushes,
and what the blob store deletes. -/
theorem along_task {C : Store → Write → Prop} (hs : s.Named) {x : Task}
    (hlocal : x.Guarded C node s) (hnet : ∀ e ∈ x.exchanges, e.Covered (.guarded C) node)
    (hclears : Clears (.guarded C) (x.drops node)) : Along C s (x.journal node s) := by
  cases x with
  | upload data expect mediaType fault => exact hlocal
  | push q => exact hlocal
  | pull publisher name tag net fault =>
      exact Guarded.cut (covers_getOrFetch publisher name tag (fun p => hnet _ ⟨p, rfl⟩) s) fault
  | hear x => exact Guarded.cut (covers_handle hclears hnet s) x.fault
  | remove r fault => exact Guarded.cut (covers_removal hs hclears) fault
  | delete h => exact hlocal

/-- A task of a node changes the node's records within its bounds. -/
theorem guarded_task (node : Node) (hs : s.Named) (x : Task) :
    Along (Changes (x.writes node) (x.drops node)) s (x.journal node s) := by
  refine along_task hs ?_ (fun e he rel providers t ha => ?_)
    (clears_guarded fun t w hw => Changes.of_drops hw t)
  · cases x with
    | upload data expect mediaType fault =>
        have hemits : Emits (fun w : Write => w.part ≠ .releases)
            (putBlobBytes data expect mediaType) :=
          emits_putBlobBytes (by simp [Write.part]) (by simp [Write.part]) (by simp [Write.part])
            _ _
        exact (Guarded.of_emits hemits fun t _ hw => Changes.of_part hw t).cut fault
    | push q => exact guarded_push q s
    | delete h =>
        exact Guarded.of_emits (emits_deleteContent (by simp [Write.part])) fun t _ hw =>
          Changes.of_part hw t
    | _ => trivial
  · have hanswers : rel ∈ x.answers := ⟨e, he, ha⟩
    refine guarded_fetch e providers ?_ t
    cases x with
    | push q => cases he
    | _ => exact hanswers

/-- `s` holds under `r` a release that is no older than `t`. -/
def Store.HoldsSince (s : Store) (r : Ref) (t : ℕ) : Prop :=
  ∃ rel, s.releases.get r = some rel ∧ t ≤ rel.payload.timestamp

section
variable {A : Set Release} {D : Set Ref} {r : Ref} {t : ℕ}

/-- What is held is only ever replaced by what is no older. -/
theorem holdsSince_apply (hr : r ∉ D) (s : Store) (w : Write) (h : Changes A D s w)
    (hs : s.HoldsSince r t) : (s.apply w).HoldsSince r t := by
  obtain ⟨held, hget, ht⟩ := hs
  by_cases hpart : w.part = .releases
  · cases w with
    | release rel =>
        obtain ⟨-, -, haccepts⟩ := h.1 rel rfl
        by_cases hrel : rel.ref = r
        · subst hrel
          rw [Store.accepts, hget, Option.all_some] at haccepts
          exact ⟨rel, Table.get_put_self _ _, ht.trans (Release.le_of_supersedes haccepts)⟩
        · exact ⟨held, (Table.get_put_of_ne hrel).trans hget, ht⟩
    | dropRelease q =>
        have hne : q ≠ r := fun hq => hr (hq ▸ h.2 q rfl)
        exact ⟨held, (Table.get_erase_of_ne hne).trans hget, ht⟩
    | _ => cases hpart
  · exact ⟨held, by rw [Store.releases_apply hpart, hget], ht⟩

theorem holdsSince_release {rel : Release} (s : Store) :
    (s.apply (.release rel)).HoldsSince rel.ref rel.payload.timestamp :=
  ⟨rel, Table.get_put_self _ _, Nat.le_refl _⟩

end

/-- What is held after writes was held before, or was written, verifies, and is in `A`. -/
theorem of_get_replay {A : Set Release} {D : Set Ref} {ws : List Write} {r : Ref} {rel : Release}
    (h : Along (Changes A D) s ws) (hget : (replay s ws).releases.get r = some rel) :
    s.releases.get r = some rel ∨ (rel ∈ A ∧ rel.verify = .ok () ∧ Write.release rel ∈ ws) := by
  let m : Op Unit := fun _ => (ws, .ok ())
  have hcall : (m.final s).releases.get r = some rel := hget
  rcases written_of_get_final hcall with hold | ⟨-, hw⟩
  · exact Or.inl hold
  · have hw : Write.release rel ∈ ws := hw
    obtain ⟨t, ht⟩ := h.of_mem hw
    exact Or.inr ⟨(ht.1 rel rfl).1, (ht.1 rel rfl).2.1, hw⟩

theorem mem_publishes (node : Node) {x : Task} {ws : List Write} {rel : Release}
    (h : rel ∈ x.publishes ws) :
    Write.release rel ∈ ws ∧ x.writes node = {rel | rel.publisher = node.id} := by
  cases x with
  | push q =>
      obtain ⟨w, hw, hrecord⟩ := List.mem_filterMap.mp h
      cases w with
      | release rel' =>
          cases hrecord
          exact ⟨hw, rfl⟩
      | _ => cases hrecord
  | _ => cases h

namespace Swarm

variable {H : Set PublisherId} {w v : Swarm} {x : Node × Task}

theorem Authentic.named (h : w.Authentic H) (i : PublisherId) : (w.stores i).Named :=
  fun r rel hget => Table.key_of_get hget ▸ Release.valid_of_verify (h.verified i r rel hget)

theorem authentic_start : start.Authentic H where
  log _ h := by cases h
  verified _ _ _ h := by cases h
  published _ _ _ h := by cases h

/-- The log only grows. -/
theorem log_subset_of_step (hstep : w.step x = some v) : w.log ⊆ v.log := by
  cases hstep
  exact List.subset_append_right _ _

theorem Published.step {i : PublisherId} {payload : ReleasePayload} (h : w.Published i payload)
    (hstep : w.step x = some v) : v.Published i payload := by
  obtain ⟨p, hp, hpub⟩ := h
  exact ⟨p, log_subset_of_step hstep hp, hpub⟩

/-- A new entry of the log is a release that the node wrote, and is the node's own. -/
theorem mem_log_step (hw : w.Authentic H) (hstep : w.step x = some v) {p : PublisherId × Release}
    (hp : p ∈ v.log) : p ∈ w.log ∨ (p.1 = x.1.id ∧ p.2.publisher = x.1.id ∧
      Write.release p.2 ∈ x.2.journal x.1 (w.stores x.1.id)) := by
  cases hstep
  rcases List.mem_append.mp hp with hp | hp
  · obtain ⟨rel, hrel, rfl⟩ := List.mem_map.mp hp
    obtain ⟨hwrite, hown⟩ := mem_publishes x.1 hrel
    obtain ⟨t, ht⟩ := (guarded_task x.1 (hw.named x.1.id) x.2).of_mem hwrite
    have hmem := (ht.1 rel rfl).1
    rw [hown] at hmem
    exact Or.inr ⟨rfl, hmem, hwrite⟩
  · exact Or.inl hp

/-- A release that a node wrote was published, if its publisher is in `H`: by the node itself, or
before, when a peer answered it. -/
theorem published_of_written (hforged : w.Unforged H x)
    (hstep : w.step x = some v) {rel : Release} (hA : rel ∈ x.2.writes x.1)
    (hv : rel.verify = .ok ())
    (hwrite : Write.release rel ∈ x.2.journal x.1 (w.stores x.1.id)) (hH : rel.publisher ∈ H) :
    v.Published rel.publisher rel.payload := by
  have hanswered : rel ∈ x.2.answers → v.Published rel.publisher rel.payload := by
    intro hans
    obtain ⟨p, hp, hpub, hbytes⟩ := hforged rel hans hv hH
    have hold : w.Published rel.publisher rel.payload :=
      ⟨p, hp, hpub, ReleasePayload.canonicalBytes_injective hbytes⟩
    exact hold.step hstep
  obtain ⟨node, task⟩ := x
  cases task with
  | push q =>
      cases hstep
      refine ⟨(node.id, rel), List.mem_append_left _ (List.mem_map.mpr ⟨rel, ?_, rfl⟩), ?_, rfl⟩
      · exact List.mem_filterMap.mpr ⟨_, hwrite, rfl⟩
      · exact Eq.symm hA
  | _ => exact hanswered hA

theorem Authentic.step (hw : w.Authentic H) (hforged : w.Unforged H x)
    (hstep : w.step x = some v) : v.Authentic H := by
  have hguard := guarded_task x.1 (hw.named x.1.id) x.2
  have hheld : ∀ i r rel, (v.stores i).releases.get r = some rel →
      rel.verify = .ok () ∧ (rel.publisher ∈ H → v.Published rel.publisher rel.payload) := by
    intro i r rel hget
    have hold : (w.stores i).releases.get r = some rel →
        rel.verify = .ok () ∧ (rel.publisher ∈ H → v.Published rel.publisher rel.payload) :=
      fun h => ⟨hw.verified i r rel h, fun hH => (hw.published i r rel h hH).step hstep⟩
    by_cases hi : i = x.1.id
    · subst hi
      have hget' : (replay (w.stores x.1.id) (x.2.journal x.1 (w.stores x.1.id))).releases.get r =
          some rel := by
        cases hstep
        simpa only [Function.update_self] using hget
      rcases of_get_replay hguard hget' with h | ⟨hA, hv, hwrite⟩
      · exact hold h
      · exact ⟨hv, published_of_written hforged hstep hA hv hwrite⟩
    · refine hold ?_
      cases hstep
      simpa only [Function.update_of_ne hi] using hget
  refine ⟨fun p hp => ?_, fun i r rel h => (hheld i r rel h).1,
    fun i r rel h => (hheld i r rel h).2⟩
  rcases mem_log_step hw hstep hp with hp | ⟨hi, hown, -⟩
  · exact hw.log p hp
  · rw [hi, hown]

/-- Two nodes hold the same payload under a reference in `H`, if it is of the same time and the
publisher published only one of that time. -/
def Agree (H : Set PublisherId) (w : Swarm) : Prop :=
  ∀ r : Ref, r.publisher ∈ H → ∀ i k rel rel', (w.stores i).releases.get r = some rel →
    (w.stores k).releases.get r = some rel' → rel.payload.timestamp = rel'.payload.timestamp →
    (∀ p ∈ w.log, ∀ q ∈ w.log, p.2.ref = r → q.2.ref = r →
      p.2.payload.timestamp = q.2.payload.timestamp → p.2.payload = q.2.payload) →
    rel.payload = rel'.payload

/-- Of a publisher in `H`, what is held under a reference is an entry of the log under it. -/
theorem Authentic.logged (hw : w.Authentic H) {r : Ref} (hr : r.publisher ∈ H) {i : PublisherId}
    {rel : Release} (h : (w.stores i).releases.get r = some rel) :
    ∃ p ∈ w.log, p.1 = r.publisher ∧ p.2.ref = r ∧ p.2.payload = rel.payload := by
  obtain rfl := Table.key_of_get h
  obtain ⟨p, hp, hpub, hpayload⟩ := hw.published i _ rel h hr
  exact ⟨p, hp, hpub, by rw [Release.ref, hpayload]; rfl, hpayload⟩

theorem Authentic.agree (hw : w.Authentic H) : w.Agree H := by
  intro r hr i k rel rel' hrel hrel' htime hone
  obtain ⟨p, hp, -, href, hpayload⟩ := hw.logged hr hrel
  obtain ⟨q, hq, -, href', hpayload'⟩ := hw.logged hr hrel'
  rw [← hpayload, ← hpayload'] at htime
  rw [← hpayload, ← hpayload', hone p hp q hq href href' htime]

/-- **Authenticity.**  However the tasks of different nodes interleave, and whatever peers answer
short of forged signatures, what a node holds of a publisher in `H` was published by that publisher,
and two nodes hold the same if it is of the same time. -/
theorem run_authentic {xs : List (Node × Task)} (hw : w.Authentic H)
    (h : Meets Swarm.step (Unforged H) w xs) :
    Throughout Swarm.step (fun w => w.Authentic H ∧ w.Agree H) w xs :=
  (throughout_of_meets (fun _ _ _ hw hC hstep => hw.step hC hstep) hw h).mono fun _ hw =>
    ⟨hw, hw.agree⟩

/-! ### Old records -/

/-- The publisher of `r` holds something no older than anything it published under `r`. -/
def Since (r : Ref) (w : Swarm) : Prop :=
  ∀ p ∈ w.log, p.2.ref = r → (w.stores r.publisher).HoldsSince r p.2.payload.timestamp

theorem Since.newest {r : Ref} (hw : w.Authentic H) (hr : r.publisher ∈ H) (h : w.Since r) :
    w.Newest r := by
  intro p hp href
  obtain ⟨own, hown, -⟩ := h p hp href
  have hmax : ∀ q ∈ w.log, q.2.ref = r → q.2.payload.timestamp ≤ own.payload.timestamp := by
    intro q hq hqr
    obtain ⟨rel, hrel, hle⟩ := h q hq hqr
    obtain rfl := Option.some.inj (hrel.symm.trans hown)
    exact hle
  obtain ⟨q, hq, hpub, -, hpayload⟩ := hw.logged hr hown
  refine ⟨own, hown, ⟨q, hq, hpub, hpayload⟩, hmax, fun i rel hrel => ?_⟩
  obtain ⟨q, hq, -, hqr, hpayload⟩ := hw.logged hr hrel
  rw [← hpayload]
  exact hmax q hq hqr

/-- A task of the publisher that does not remove `r` drops `r` in no other way. -/
theorem notMem_drops {r : Ref} (hspares : w.Spares r x) (hid : x.1.id = r.publisher) :
    r ∉ x.2.drops x.1 := by
  have hforeign : r ∉ x.1.foreign := fun h => h hid.symm
  obtain ⟨node, task⟩ := x
  cases task with
  | hear x => exact hforeign
  | remove removal fault =>
      cases removal with
      | release publisher name tag => exact hspares hid
      | prune call policy young => exact hforeign
  | _ => exact id

theorem Since.step {r : Ref} (hw : w.Authentic H) (h : w.Since r) (hspares : w.Spares r x)
    (hstep : w.step x = some v) : v.Since r := by
  have hguard := guarded_task x.1 (hw.named x.1.id) x.2
  have hstore : v.stores x.1.id =
      replay (w.stores x.1.id) (x.2.journal x.1 (w.stores x.1.id)) := by
    cases hstep
    exact Function.update_self _ _ _
  intro p hp href
  rcases mem_log_step hw hstep hp with hp | ⟨-, hown, hwrite⟩
  · by_cases hid : x.1.id = r.publisher
    · rw [← hid, hstore]
      exact hguard.keeps (holdsSince_apply (notMem_drops hspares hid)) (hid ▸ h p hp href)
    · have hsame : v.stores r.publisher = w.stores r.publisher := by
        cases hstep
        exact Function.update_of_ne (Ne.symm hid) _ _
      rw [hsame]
      exact h p hp href
  · have hid : x.1.id = r.publisher := hown.symm.trans (congrArg Ref.publisher href)
    rw [← hid, hstore]
    refine hguard.after (fun s _ => ?_) (holdsSince_apply (notMem_drops hspares hid)) hwrite
    rw [← href]
    exact holdsSince_release s

/-- **Old records take nothing back.**  While a publisher's node does not remove a release by name,
and handles one task after the other, it holds the newest of what the publisher published under that
reference, and no node holds a newer one: whatever peers send it of its own. -/
theorem run_newest {r : Ref} (hr : r.publisher ∈ H) {xs : List (Node × Task)} (hw : w.Authentic H)
    (hnewest : w.Newest r) (h : Meets Swarm.step (Unforged H) w xs)
    (hspares : Meets Swarm.step (Spares r) w xs) : Throughout Swarm.step (Newest r) w xs := by
  have hsince : w.Since r := by
    intro p hp href
    obtain ⟨own, hown, -, hmax, -⟩ := hnewest p hp href
    exact ⟨own, hown, hmax p hp href⟩
  have hall : Throughout Swarm.step (fun w => w.Authentic H ∧ w.Since r) w xs :=
    throughout_of_meets (fun w x v hw hC hstep => ⟨hw.1.step hC.1 hstep, hw.2.step hw.1 hC.2 hstep⟩)
      ⟨hw, hsince⟩ (h.and hspares)
  exact hall.mono fun w hw => hw.2.newest hw.1 hr

end Swarm

end

namespace Sample

/-- A node that follows its own images too. -/
def selfFollower : Node :=
  letI := sample
  node { Policy.default with follow := [⟨bob.id.toStr, .full⟩] }

/-- Another node, that follows them. -/
def bobFollower : Node :=
  letI := sample
  { selfFollower with identity := alice }

/-- What two nodes do: one pushes a tag twice and hears of the first release again, as if it were
newer than both; the other hears of the second release. -/
def replayed : List (Node × @Task sample) :=
  letI := sample
  let old := release bob "app" "1.0" index 5
  let new := release bob "app" "1.0" index2 6
  [(selfFollower, .push (request "app" "1.0" index 5)),
    (selfFollower, .push (request "app" "1.0" index2 6)),
    (selfFollower, .hear ⟨.announcement { old.summary with timestamp := 7 } mallory.id
      fun _ => exchange old, none⟩),
    (bobFollower, .hear ⟨.announcement new.summary bob.id fun _ => exchange new, none⟩)]

/-- No answer of that is forged. -/
theorem unforged_replayed : letI := sample
    Meets Swarm.step (Swarm.Unforged {bob.id}) Swarm.start replayed := by
  let _ := sample
  have hpush : ∀ (w : Swarm) (q : Request), w.Unforged {bob.id} (selfFollower, .push q) := by
    rintro w q rel ⟨e, he, -⟩
    cases he
  refine ⟨hpush _ _, fun w hw => ⟨hpush _ _, fun v hv => ?_⟩⟩
  have hold : (bob.id, release bob "app" "1.0" index 5) ∈ w.log := by
    cases hw
    decide +kernel
  have hnew : (bob.id, release bob "app" "1.0" index2 6) ∈ v.log := by
    cases hw
    cases hv
    decide +kernel
  refine ⟨Swarm.unforged_of_logged ?_, fun u hu => ⟨Swarm.unforged_of_logged ?_,
    fun _ _ => trivial⟩⟩
  · rintro rel ⟨e, ⟨p, rfl⟩, hp⟩
    obtain rfl := Option.some.inj (Except.ok.inj hp)
    exact Swarm.log_subset_of_step hv hold
  · rintro rel ⟨e, ⟨p, rfl⟩, hp⟩
    obtain rfl := Option.some.inj (Except.ok.inj hp)
    exact Swarm.log_subset_of_step hu hnew

end Sample

/-- The pushes, the replay and what the other node heard are authentic. -/
theorem run_authentic_at : letI := sample
    let H := {Sample.bob.id}
    Throughout Swarm.step (fun w => w.Authentic H ∧ w.Agree H) Swarm.start Sample.replayed := by
  let _ := sample
  exact Swarm.run_authentic Swarm.authentic_start Sample.unforged_replayed

/-- And the newer release stays, and is the newest anywhere. -/
theorem run_newest_at : letI := sample
    Throughout Swarm.step (Swarm.Newest ⟨Sample.bob.id, "app", "1.0"⟩) Swarm.start
      Sample.replayed := by
  let _ := sample
  refine Swarm.run_newest (Set.mem_singleton _) Swarm.authentic_start (fun _ h => ?_)
    Sample.unforged_replayed ?_
  · cases h
  · exact ⟨trivial, fun _ _ => ⟨trivial, fun _ _ => ⟨trivial, fun _ _ => ⟨trivial,
      fun _ _ => trivial⟩⟩⟩⟩

end Ocid
