import Ocid.Daemon.Sample
import Ocid.Lib.Runs

/-!
# Replication — Selection — what announcements and inventories store

`onAnnouncement` and `syncWith` choose what to fetch from summaries nobody signed, and then store
what a second answer holds.  `Event.requests` lists the requests made for one event: each a
reference `selectWanted` chose, with the exchange it is asked through.

Nothing compares an answer with its request.  In a run in which every answer is of the reference
asked for, each record written is of a chosen reference, of an image the policy covers, and, for
an inventory, not the node's own (`run_storesChosen`).
-/

namespace Ocid

open Call

section
variable [External]

/-- What a node replicates in answer to. -/
inductive Event where
  | announcement (s : ReleaseSummary) (source : EndpointId) (net : EndpointId → Exchange)
  | inventory (peer : EndpointId) (inv : Except Err (List ReleaseSummary))
      (net : ℕ → ℕ → Exchange)

/-- How an event is handled. -/
def Event.handle (node : Node) : Event → Op Unit
  | .announcement s source net => onAnnouncement node s source net
  | .inventory peer inv net => syncWith node peer inv net

/-- What `selectWanted` chooses of an image in the store `s`. -/
def chosenOf (node : Node) (repo : Repo) (s : Store) : List ReleaseSummary :=
  match (selectWanted node.policy repo.publisher repo.name repo.remote).result s with
  | .ok wanted => wanted
  | .error _ => []

/-- The requests `askProviders` makes for `r`: up to the first one that is answered a release. -/
def providerRequests (r : Ref) (net : EndpointId → Exchange) :
    List EndpointId → List (Ref × Exchange)
  | [] => []
  | p :: ps =>
      (r, net p) :: match (net p).answer with
        | .ok (some _) => []
        | .ok none | .error _ => providerRequests r net ps

/-- The requests `replicate` makes: up to the first one that fails. -/
def wantedRequests (net : ℕ → Exchange) : ℕ → List ReleaseSummary → List (Ref × Exchange)
  | _, [] => []
  | i, x :: xs =>
      (x.ref, net i) :: match (net i).answer with
        | .error _ => []
        | .ok _ => wantedRequests net (i + 1) xs

/-- The requests made for a peer's images, from the `j`-th image on. -/
def syncRequests (node : Node) (peer : EndpointId) (net : ℕ → ℕ → Exchange) :
    ℕ → List Repo → Store → List (Ref × Exchange)
  | _, [], _ => []
  | j, repo :: repos, s =>
      wantedRequests (net j) 0 (chosenOf node repo s) ++
        match (syncRepo node peer (net j) repo).result s with
        | .ok _ =>
            syncRequests node peer net (j + 1) repos ((syncRepo node peer (net j) repo).final s)
        | .error _ => []

/-- The requests made while an event is handled in the store `s`. -/
def Event.requests (node : Node) (s : Store) : Event → List (Ref × Exchange)
  | .announcement sum source net =>
      (chosenOf node ⟨sum.publisher, sum.name, [sum]⟩ s).flatMap fun x =>
        providerRequests x.ref net
          (if sum.publisher ≠ source then [source, sum.publisher] else [source])
  | .inventory peer inv net =>
      match inv with
      | .ok inv => syncRequests node peer net 0 (byRepo node inv) s
      | .error _ => []

/-- An event, and the fault, if any, that stops its handling. -/
structure Handling where
  event : Event
  fault : Option (ℕ × Err)

/-- The handling of an event, as far as it goes. -/
def Handling.call (node : Node) (x : Handling) : Op Unit := (x.event.handle node).cut x.fault

/-- One step of a run: an event is handled. -/
def handleStep (node : Node) (s : Store) (x : Handling) : Option Store :=
  some ((x.call node).final s)

/-- Every verified release that is answered is of the reference that was asked for. -/
def AnswersAsked (node : Node) (s : Store) (x : Handling) : Prop :=
  ∀ q ∈ x.event.requests node s, ∀ rel, q.2.answer = .ok (some rel) → rel.verify = .ok () →
    rel.ref = q.1

/-- `rel` is of a reference chosen for this event, of an image the policy covers, and, for an
inventory, of another publisher than the node. -/
def Chosen (node : Node) (s : Store) (x : Handling) (rel : Release) : Prop :=
  rel.ref ∈ (x.event.requests node s).map Prod.fst ∧
    node.policy.covers rel.publisher rel.name = true ∧
      ∀ peer inv net, x.event = .inventory peer inv net → rel.publisher ≠ node.id

/-- Every record that is written is a chosen one, and every record then held is a chosen one or
was held before. -/
def StoresChosen (node : Node) (s : Store) (x : Handling) : Prop :=
  (∀ rel, Write.release rel ∈ (x.call node).journal s → Chosen node s x rel) ∧
    ∀ r rel, ((x.call node).final s).releases.get r = some rel →
      s.releases.get r = some rel ∨ (rel.ref = r ∧ Chosen node s x rel)

/-! ### What is chosen -/

theorem emits_getRelease {P : Write → Prop} (publisher : PublisherId) (name tag : Str) :
    Emits P (getRelease publisher name tag) :=
  (Emits.ofExcept _).bind fun _ => Emits.read.bind fun _ => Emits.pure _

theorem emits_localReleasesOf {P : Write → Prop} (publisher : PublisherId) (name : Str) :
    Emits P (localReleasesOf publisher name) := by
  have hat : ∀ ts, Emits P (releasesAt publisher name ts) := by
    intro ts
    induction ts with
    | nil => exact Emits.pure _
    | cons t ts ih =>
        exact (emits_getRelease _ _ _).bind fun _ => ih.bind fun _ => Emits.pure _
  have htags : Emits P (listTags publisher name) :=
    (Emits.ofExcept _).bind fun _ => Emits.read.bind fun _ => Emits.pure _
  exact htags.bind hat

/-- Choosing writes nothing. -/
theorem emits_selectWanted {P : Write → Prop} (policy : Policy) (publisher : PublisherId)
    (name : Str) (remote : List ReleaseSummary) :
    Emits P (selectWanted policy publisher name remote) :=
  Emits.ite (fun _ => Emits.pure _) fun _ =>
    (emits_localReleasesOf _ _).bind fun _ => Emits.pure _

/-- A chosen summary is one of those offered, and the policy covers the image. -/
theorem mem_of_mem_chosenOf {node : Node} {repo : Repo} {s : Store} {x : ReleaseSummary}
    (h : x ∈ chosenOf node repo s) :
    x ∈ repo.remote ∧ node.policy.covers repo.publisher repo.name = true := by
  rw [chosenOf] at h
  split at h
  · rename_i wanted hw
    rw [selectWanted] at hw
    split at hw
    · cases hw
      cases h
    · rename_i hwin
      obtain ⟨held, -, hw⟩ := result_bind_ok.mp hw
      cases hw
      refine ⟨(List.mem_filter.mp h).1, ?_⟩
      rw [Policy.covers, Bool.eq_false_of_not_eq_true hwin]
      rfl
  · cases h

/-! ### What is written -/

theorem emits_removeOutside {P : Write → Prop} (hP : ∀ r, P (.dropRelease r))
    (publisher : PublisherId) (name : Str) (selected : List Str) (rs : List Release) :
    Emits P (removeOutside publisher name selected rs) := by
  induction rs with
  | nil => exact Emits.pure _
  | cons r rs ih =>
      refine Emits.ite (fun _ => ih) fun _ => Emits.bind ?_ fun _ => ih.bind fun _ => Emits.pure _
      exact (Emits.ofExcept _).bind fun _ => Emits.read.bind fun _ =>
        Emits.ite (fun _ => (Emits.write (hP _)).bind fun _ => Emits.pure _) fun _ => Emits.pure _

theorem emits_removeBlobRef {P : Write → Prop} (hP : ∀ d, P (.dropBlobRef d)) (digest : Digest) :
    Emits P (removeBlobRef digest) :=
  Emits.read.bind fun _ =>
    Emits.ite (fun _ => (Emits.write (hP _)).bind fun _ => Emits.pure _) fun _ => Emits.pure _

theorem emits_sweepBlobsLocked {P : Write → Prop} (hpin : ∀ d, P (.untag d))
    (href : ∀ d, P (.dropBlobRef d)) (dryRun : Bool) (ignore : List Str) :
    Emits P (sweepBlobsLocked dryRun ignore) := by
  have hpins : ∀ live pins, Emits P (sweepPins dryRun live pins) := by
    intro live pins
    induction pins with
    | nil => exact Emits.pure _
    | cons p pins ih =>
        refine Emits.ite (fun _ => ih) fun _ => Emits.read.bind fun _ => Emits.bind ?_ fun _ =>
          ih.bind fun _ => Emits.pure _
        refine Emits.ite (fun _ => Emits.pure _) fun _ => (Emits.write (hpin _)).bind fun _ => ?_
        exact (emits_removeBlobRef href _).bind fun _ => Emits.pure _
  have hentries : ∀ live pinned bs, Emits P (sweepEntries dryRun live pinned bs) := by
    intro live pinned bs
    induction bs with
    | nil => exact Emits.pure _
    | cons b bs ih =>
        exact Emits.ite (fun _ => (emits_removeBlobRef href _).bind fun _ => ih) fun _ => ih
  exact Emits.read.bind fun _ => (hpins _ _).bind fun _ => Emits.read.bind fun _ =>
    (hentries _ _ _).bind fun _ => Emits.pure _

/-- Enforcing a window drops records, pins and entries. -/
theorem emits_enforceWindow_of {P : Write → Prop} (hrel : ∀ r, P (.dropRelease r))
    (hpin : ∀ d, P (.untag d)) (href : ∀ d, P (.dropBlobRef d)) (node : Node)
    (publisher : PublisherId) (name : Str) : Emits P (enforceWindow node publisher name) := by
  refine Emits.ite (fun _ => Emits.pure _) fun _ => Emits.ite (fun _ => Emits.pure _) fun _ => ?_
  refine (emits_localReleasesOf _ _).bind fun _ => Emits.bind ?_ fun _ => Emits.ite (fun _ => ?_)
    fun _ => Emits.pure _
  · exact emits_removeOutside hrel _ _ _ _
  · exact (emits_sweepBlobsLocked hpin href _ _).bind fun _ => Emits.pure _

/-- Enforcing a window writes no record. -/
theorem emits_enforceWindow (node : Node) (publisher : PublisherId) (name : Str) :
    Emits (fun w => ∀ rel, w ≠ .release rel) (enforceWindow node publisher name) :=
  emits_enforceWindow_of (fun _ _ h => by cases h) (fun _ _ h => by cases h)
    (fun _ _ h => by cases h) node publisher name

/-- A record written by a fetch is the release that was answered, and it verified. -/
theorem emits_fetch (net : Exchange) (node : Node) (release : Release)
    (providers : List EndpointId) :
    Emits (fun w => ∀ rel, w = .release rel → rel = release ∧ rel.verify = .ok ())
      (net.fetch node release providers) :=
  (emits_fetchRelease _ _ _ _).cut _

theorem emits_askProviders (node : Node) (s : ReleaseSummary) (providers : List EndpointId)
    (net : EndpointId → Exchange) (r : Ref) (peers : List EndpointId) :
    Emits (fun w => ∀ rel, w = .release rel →
      rel.verify = .ok () ∧ ∃ q ∈ providerRequests r net peers, q.2.answer = .ok (some rel))
      (askProviders node s providers net peers) := by
  induction peers with
  | nil => exact Emits.fail _
  | cons p ps ih =>
      have htail : Emits (fun w => ∀ rel, w = .release rel → rel.verify = .ok () ∧
          ∃ q ∈ (r, net p) :: providerRequests r net ps, q.2.answer = .ok (some rel))
          (askProviders node s providers net ps) := by
        refine ih.mono fun w hw rel hrel => ?_
        obtain ⟨hv, q, hq, ha⟩ := hw rel hrel
        exact ⟨hv, q, List.mem_cons_of_mem _ hq, ha⟩
      rw [providerRequests, askProviders]
      cases ha : (net p).answer with
      | error e => exact htail
      | ok answer =>
          cases answer with
          | none => exact htail
          | some a =>
              refine Emits.bind ?_ fun _ => ?_
              · refine (emits_fetch (net p) node a providers).mono fun w hw rel hrel => ?_
                obtain ⟨rfl, hv⟩ := hw rel hrel
                exact ⟨hv, (r, net p), List.mem_cons_self, ha⟩
              · exact (emits_enforceWindow _ _ _).mono fun w hw rel hrel => absurd hrel (hw rel)

theorem emits_replicate (node : Node) (peer : EndpointId) (net : ℕ → Exchange) (i : ℕ)
    (wanted : List ReleaseSummary) :
    Emits (fun w => ∀ rel, w = .release rel →
      rel.verify = .ok () ∧ ∃ q ∈ wantedRequests net i wanted, q.2.answer = .ok (some rel))
      (replicate node peer net i wanted) := by
  induction wanted generalizing i with
  | nil => exact Emits.pure _
  | cons y wanted ih =>
      have htail : Emits (fun w => ∀ rel, w = .release rel → rel.verify = .ok () ∧
          ∃ q ∈ (y.ref, net i) :: wantedRequests net (i + 1) wanted, q.2.answer = .ok (some rel))
          (replicate node peer net (i + 1) wanted) := by
        refine (ih (i + 1)).mono fun w hw rel hrel => ?_
        obtain ⟨hv, q, hq, ha⟩ := hw rel hrel
        exact ⟨hv, q, List.mem_cons_of_mem _ hq, ha⟩
      rw [wantedRequests, replicate]
      cases ha : (net i).answer with
      | error e => exact Emits.fail _
      | ok answer =>
          cases answer with
          | none => exact htail
          | some a =>
              refine Emits.bind (Emits.attempt ?_) fun _ => htail
              refine (emits_fetch (net i) node a [peer]).mono fun w hw rel hrel => ?_
              obtain ⟨rfl, hv⟩ := hw rel hrel
              exact ⟨hv, (y.ref, net i), List.mem_cons_self, ha⟩

/-! ### Every record written was asked for -/

/-- A write after a choice is a write of what follows it, in the same store. -/
theorem mem_journal_selectWanted_bind {α : Type} (node : Node) (repo : Repo) {s : Store}
    {f : List ReleaseSummary → Op α} {w : Write}
    (h : w ∈ (selectWanted node.policy repo.publisher repo.name repo.remote >>= f).journal s) :
    w ∈ (f (chosenOf node repo s)).journal s := by
  obtain ⟨hnil, hfinal⟩ := final_of_emits_false (emits_selectWanted node.policy repo.publisher
    repo.name repo.remote) s
  rcases mem_journal_bind.mp h with h | ⟨wanted, hw, h⟩
  · rw [hnil] at h
    cases h
  · rw [hfinal] at h
    rw [chosenOf, hw]
    exact h

/-- A record written for one image was answered to a request of that image. -/
theorem mem_journal_syncRepo {node : Node} {peer : EndpointId} {net : ℕ → Exchange} {repo : Repo}
    {s : Store} {rel : Release}
    (h : Write.release rel ∈ (syncRepo node peer net repo).journal s) :
    rel.verify = .ok () ∧
      ∃ q ∈ wantedRequests net 0 (chosenOf node repo s), q.2.answer = .ok (some rel) := by
  have h := mem_journal_selectWanted_bind node repo h
  split at h
  · cases h
  · rcases mem_journal_bind.mp h with h | ⟨u, -, h⟩
    · exact emits_replicate node peer net 0 _ s _ h rel rfl
    · exact absurd rfl (emits_enforceWindow _ _ _ _ _ h rel)

theorem mem_journal_syncRepos {node : Node} {peer : EndpointId} {net : ℕ → ℕ → Exchange} {j : ℕ}
    {repos : List Repo} {s : Store} {rel : Release}
    (h : Write.release rel ∈ (syncRepos node peer net j repos).journal s) :
    rel.verify = .ok () ∧
      ∃ q ∈ syncRequests node peer net j repos s, q.2.answer = .ok (some rel) := by
  induction repos generalizing j s with
  | nil => cases h
  | cons repo repos ih =>
      rw [syncRequests]
      rcases mem_journal_bind.mp h with h | ⟨u, hu, h⟩
      · obtain ⟨hv, q, hq, ha⟩ := mem_journal_syncRepo h
        exact ⟨hv, q, List.mem_append_left _ hq, ha⟩
      · obtain ⟨hv, q, hq, ha⟩ := ih h
        rw [hu]
        exact ⟨hv, q, List.mem_append_right _ hq, ha⟩

/-- Every record written while an event is handled verified, and was answered to a request of
that event. -/
theorem answered_of_written {node : Node} {s : Store} {x : Handling} {rel : Release}
    (h : Write.release rel ∈ (x.call node).journal s) :
    rel.verify = .ok () ∧ ∃ q ∈ x.event.requests node s, q.2.answer = .ok (some rel) := by
  have h : Write.release rel ∈ (x.event.handle node).journal s := by
    rw [Handling.call] at h
    cases hf : x.fault with
    | none => rwa [hf] at h
    | some f =>
        rw [hf] at h
        exact List.mem_of_mem_take h
  cases hx : x.event with
  | announcement sum source net =>
      rw [hx] at h
      have h := mem_journal_selectWanted_bind node ⟨sum.publisher, sum.name, [sum]⟩ h
      split at h
      · cases h
      · rename_i hne
        obtain ⟨y, hy⟩ := List.exists_mem_of_ne_nil _ (mt List.isEmpty_iff.mpr hne)
        obtain ⟨hv, q, hq, ha⟩ := emits_askProviders _ _ _ _ y.ref _ _ _ h rel rfl
        exact ⟨hv, q, List.mem_flatMap.mpr ⟨y, hy, hq⟩, ha⟩
  | inventory peer inv net =>
      rw [hx] at h
      rcases mem_journal_bind.mp h with h | ⟨a, ha, h⟩
      · cases h
      · obtain rfl : inv = .ok a := ha
        exact mem_journal_syncRepos h

/-! ### What was asked for -/

theorem fst_of_mem_providerRequests {r : Ref} {net : EndpointId → Exchange}
    {peers : List EndpointId} {q : Ref × Exchange} (h : q ∈ providerRequests r net peers) :
    q.1 = r := by
  induction peers with
  | nil => cases h
  | cons p ps ih =>
      rw [providerRequests] at h
      rcases List.mem_cons.mp h with rfl | h
      · rfl
      · split at h
        · cases h
        · exact ih h
        · exact ih h

theorem fst_of_mem_wantedRequests {net : ℕ → Exchange} {i : ℕ} {xs : List ReleaseSummary}
    {q : Ref × Exchange} (h : q ∈ wantedRequests net i xs) : ∃ x ∈ xs, q.1 = x.ref := by
  induction xs generalizing i with
  | nil => cases h
  | cons x xs ih =>
      rw [wantedRequests] at h
      rcases List.mem_cons.mp h with rfl | h
      · exact ⟨x, List.mem_cons_self, rfl⟩
      · split at h
        · cases h
        · obtain ⟨y, hy, hq⟩ := ih h
          exact ⟨y, List.mem_cons_of_mem _ hy, hq⟩

theorem of_mem_byRepo {node : Node} {inv : List ReleaseSummary} {repo : Repo}
    (h : repo ∈ byRepo node inv) :
    repo.publisher ≠ node.id ∧
      ∀ y ∈ repo.remote, y.publisher = repo.publisher ∧ y.name = repo.name := by
  obtain ⟨k, hk, rfl⟩ := List.mem_map.mp h
  obtain ⟨y, hy, rfl⟩ := List.mem_map.mp (List.mem_dedup.mp ((List.mem_insertionSort _).mp hk))
  refine ⟨of_decide_eq_true (List.mem_filter.mp hy).2, fun z hz => ?_⟩
  exact Prod.mk.inj (of_decide_eq_true (List.mem_filter.mp hz).2)

/-- What holds of the images of an inventory holds of every reference chosen from them. -/
theorem of_mem_syncRequests {node : Node} {peer : EndpointId} {net : ℕ → ℕ → Exchange} {j : ℕ}
    {repos : List Repo} {s : Store} {q : Ref × Exchange}
    (hrepos : ∀ repo ∈ repos, repo.publisher ≠ node.id ∧
      ∀ y ∈ repo.remote, y.publisher = repo.publisher ∧ y.name = repo.name)
    (h : q ∈ syncRequests node peer net j repos s) :
    q.1.publisher ≠ node.id ∧ node.policy.covers q.1.publisher q.1.name = true := by
  induction repos generalizing j s with
  | nil => cases h
  | cons repo repos ih =>
      rw [syncRequests] at h
      rcases List.mem_append.mp h with h | h
      · obtain ⟨y, hy, hq⟩ := fst_of_mem_wantedRequests h
        obtain ⟨hmem, hcov⟩ := mem_of_mem_chosenOf hy
        obtain ⟨hne, hkey⟩ := hrepos repo List.mem_cons_self
        obtain ⟨hp, hn⟩ := hkey y hmem
        rw [hq]
        simp only [ReleaseSummary.ref, hp, hn]
        exact ⟨hne, hcov⟩
      · split at h
        · exact ih (fun r hr => hrepos r (List.mem_cons_of_mem _ hr)) h
        · cases h

/-- The policy covers what is chosen; of an inventory, nothing of the node's own is. -/
theorem covers_of_mem_requests {node : Node} {s : Store} {e : Event} {q : Ref × Exchange}
    (h : q ∈ e.requests node s) :
    node.policy.covers q.1.publisher q.1.name = true ∧
      ∀ peer inv net, e = .inventory peer inv net → q.1.publisher ≠ node.id := by
  cases e with
  | announcement sum source net =>
      obtain ⟨y, hy, hq⟩ := List.mem_flatMap.mp h
      obtain ⟨hmem, hcov⟩ := mem_of_mem_chosenOf hy
      obtain rfl := List.mem_singleton.mp hmem
      rw [fst_of_mem_providerRequests hq]
      exact ⟨hcov, fun _ _ _ he => by cases he⟩
  | inventory peer inv net =>
      cases inv with
      | error e => cases h
      | ok inv =>
          obtain ⟨hne, hcov⟩ := of_mem_syncRequests (fun _ hr => of_mem_byRepo hr) h
          exact ⟨hcov, fun _ _ _ _ => hne⟩

/-- One event whose answers are of the references asked for. -/
theorem storesChosen_of_answersAsked {node : Node} {s : Store} {x : Handling}
    (h : AnswersAsked node s x) : StoresChosen node s x := by
  have hwrite : ∀ rel, Write.release rel ∈ (x.call node).journal s → Chosen node s x rel := by
    intro rel hrel
    obtain ⟨hv, q, hq, ha⟩ := answered_of_written hrel
    have hr : rel.ref = q.1 := h q hq rel ha hv
    obtain ⟨hcov, hown⟩ := covers_of_mem_requests hq
    rw [← hr] at hcov hown
    exact ⟨List.mem_map.mpr ⟨q, hq, hr.symm⟩, hcov, hown⟩
  refine ⟨hwrite, fun r rel hget => ?_⟩
  rcases written_of_get_final hget with hget | ⟨hr, hrel⟩
  · exact Or.inl hget
  · exact Or.inr ⟨hr, hwrite rel hrel⟩

/-- **Runs of announcements and inventories.**  From any store, in every run whose answers are of
the references asked for, each record added or replaced while an event is handled is of a
reference `selectWanted` chose for that event. -/
theorem run_storesChosen (node : Node) (s : Store) (xs : List Handling)
    (h : Meets (handleStep node) (AnswersAsked node) s xs) :
    Meets (handleStep node) (StoresChosen node) s xs :=
  Meets.mono (fun _ _ hx => storesChosen_of_answersAsked hx) h

end

namespace Sample

/-- A node that follows one publisher. -/
def follower : Node :=
  letI := sample
  node { Policy.default with follow := [⟨alice.id.toStr, .full⟩] }

/-- A release of the followed publisher, as it is announced. -/
def announced : ReleaseSummary :=
  letI := sample
  (release alice "app" "1.0" index 1000).summary

end Sample

/-- An announcement answered honestly. -/
theorem run_storesChosen_at :
    letI := sample
    let rel := Sample.release Sample.alice "app" "1.0" Sample.index 1000
    let x : Handling :=
      ⟨.announcement Sample.announced Sample.mallory.id fun _ => Sample.exchange rel, none⟩
    Meets (handleStep Sample.follower) (StoresChosen Sample.follower) Store.empty [x] := by
  let _ := sample
  intro rel x
  refine run_storesChosen _ _ _ ⟨?_, fun _ _ => trivial⟩
  have hasked : ∀ q ∈ x.event.requests Sample.follower Store.empty, rel.ref = q.1 := by
    decide +kernel
  intro q hq a ha hv
  obtain ⟨y, hy, hq'⟩ := List.mem_flatMap.mp hq
  obtain rfl : q = (y.ref, Sample.exchange rel) := List.mem_singleton.mp hq'
  obtain rfl : rel = a := Option.some.inj (Except.ok.inj ha)
  exact hasked _ hq

/-- A node that follows one publisher only stores, at the announcement of that publisher's image,
another publisher's release that a peer answers. -/
theorem announcement_stores_uncovered_release :
    letI := sample
    let other := Sample.release Sample.mallory "evil" "9" Sample.index 1000
    let x : Handling :=
      ⟨.announcement Sample.announced Sample.mallory.id fun _ => Sample.exchange other, none⟩
    other.verify = .ok () ∧
      Sample.follower.policy.covers other.publisher other.name = false ∧
      other.ref ∉ (x.event.requests Sample.follower Store.empty).map Prod.fst ∧
      ((x.call Sample.follower).final Store.empty).releases.get other.ref = some other := by
  decide +kernel

end Ocid
