import Ocid.Replication.Arrivals

/-!
# Replication — Filling — windows filled by announcements and by inventories

A node handles announcements of an image one by one, or syncs with one peer after the other.  When
every release that is asked for is answered and fetched, what it holds of an image of another
publisher is what is inside the window of all it held and was told of.

For announcements this is so whatever their order and repetitions (`run_announced`); the node's own
images have no window, and of them everything that was once selected stays.  For inventories it is
so exactly when no sync wastes a place of the window on a tag known twice (`run_synced_iff`).
-/

namespace Ocid

open Call Windows

section
variable [External] {node : Node} {s t : Store} {publisher : PublisherId} {name : Str}

/-! ### Announcements -/

/-- One announcement. -/
def announceStep (node : Node) (s : Store) (a : Announced) : Option Store :=
  some ((onAnnouncement node a.summary a.source a.net).final s)

/-- A store whose records of the image are what enforcement leaves of them. -/
def Store.Enforced (s : Store) (node : Node) (publisher : PublisherId) (name : Str) : Prop :=
  (enforceWindow node publisher name).result s = .ok () ∧
    ((enforceWindow node publisher name).final s).held publisher name = s.held publisher name

theorem name_of_enforced (hother : publisher ≠ node.id)
    (hw : (node.policy.window publisher name).isEmpty = false)
    (h : s.Enforced node publisher name) : validateName name = .ok () := by
  have hres := h.1
  simp only [enforceWindow, hother, hw, if_false, Bool.false_eq_true] at hres
  obtain ⟨rs, hrs, -⟩ := result_bind_ok.mp hres
  obtain ⟨ts, hts, -⟩ := result_bind_ok.mp hrs
  obtain ⟨u, hu, -⟩ := result_bind_ok.mp hts
  exact hu

theorem inside_of_enforced (hother : publisher ≠ node.id)
    (hw : (node.policy.window publisher name).isEmpty = false) (hs : s.Named)
    (h : s.Enforced node publisher name) :
    (node.policy.window publisher name).inside (s.held publisher name) =
      s.held publisher name :=
  (enforceWindow_spec hother hw hs (name_of_enforced hother hw h)).2.1.symm.trans h.2

theorem meets_served_cons {a : Announced} {xs : List Announced} (ha : a.Served node s)
    (hxs : Meets (announceStep node) (Announced.Served node)
      ((onAnnouncement node a.summary a.source a.net).final s) xs) :
    Meets (announceStep node) (Announced.Served node) s (a :: xs) := by
  refine ⟨ha, fun t ht => ?_⟩
  cases ht
  exact hxs

/-- The versions a list of announcements names. -/
def announced (xs : List Announced) : Set (Str × ℕ) := versions (xs.map Announced.summary)

theorem announced_cons (a : Announced) (xs : List Announced) :
    announced (a :: xs) = {a.summary.version} ∪ announced xs :=
  versions_cons _ _

/-- **Announcements in any order.**  Of an image of another publisher that the policy covers, what
is held after announcements that are answered and fetched are the newest versions inside the window
of what was held and what was announced; so it depends on the set of the announcements only. -/
theorem run_announced (hother : publisher ≠ node.id)
    (hw : node.policy.covers publisher name = true) (hs : s.Named)
    (henforced : s.Enforced node publisher name) :
    (∀ xs : List Announced,
      (∀ a ∈ xs, a.summary.publisher = publisher ∧ a.summary.name = name) →
      Meets (announceStep node) (Announced.Served node) s xs →
      ∃ t, run (announceStep node) s xs = some t ∧ t.held publisher name =
        (node.policy.window publisher name).inside (s.held publisher name ∪ announced xs)) ∧
    ∀ xs ys : List Announced,
      (∀ a ∈ xs, a.summary.publisher = publisher ∧ a.summary.name = name) →
      (∀ a ∈ ys, a.summary.publisher = publisher ∧ a.summary.name = name) →
      announced xs = announced ys →
      Meets (announceStep node) (Announced.Served node) s xs →
      Meets (announceStep node) (Announced.Served node) s ys →
      ∃ t u, run (announceStep node) s xs = some t ∧ run (announceStep node) s ys = some u ∧
        t.held publisher name = u.held publisher name := by
  have hw : (node.policy.window publisher name).isEmpty = false := by
    simpa [Policy.covers] using hw
  have hn := name_of_enforced hother hw henforced
  have hinside := inside_of_enforced hother hw hs henforced
  have key : ∀ (xs : List Announced) (s : Store), s.Named →
      (node.policy.window publisher name).inside (s.held publisher name) =
        s.held publisher name →
      (∀ a ∈ xs, a.summary.publisher = publisher ∧ a.summary.name = name) →
      Meets (announceStep node) (Announced.Served node) s xs →
      ∃ t, run (announceStep node) s xs = some t ∧ t.held publisher name =
        (node.policy.window publisher name).inside (s.held publisher name ∪ announced xs) := by
    intro xs
    induction xs with
    | nil =>
        intro s _ hinside _ _
        have hnil : announced [] = ∅ := by
          ext v
          simp [announced, versions]
        exact ⟨s, rfl, by rw [hnil, Set.union_empty, hinside]⟩
    | cons a xs ih =>
        intro s hs hinside himage hm
        obtain ⟨hserved, hm⟩ := hm
        obtain ⟨hnamed, hheld⟩ := onAnnouncement_spec hother hn hs hw hinside
          (himage a List.mem_cons_self) hserved
        have hfinite : (s.held publisher name ∪ {a.summary.version}).Finite :=
          (finite_held s publisher name).union (Set.finite_singleton _)
        obtain ⟨t, hrun, ht⟩ := ih _ hnamed (by rw [hheld]; exact window_window hfinite)
          (fun b hb => himage b (List.mem_cons_of_mem _ hb)) (hm _ rfl)
        refine ⟨t, run_cons.mpr ⟨_, rfl, hrun⟩, ?_⟩
        rw [ht, hheld, announced_cons, ← Set.union_assoc]
        exact window_union hfinite
  refine ⟨fun xs himage hm => key xs s hs hinside himage hm, ?_⟩
  intro xs ys hxs hys heq hmx hmy
  obtain ⟨t, ht, hheld⟩ := key xs s hs hinside hxs hmx
  obtain ⟨u, hu, hheld'⟩ := key ys s hs hinside hys hmy
  exact ⟨t, u, ht, hu, by rw [hheld, hheld', heq]⟩

/-! ### Inventories -/

theorem listTags_congr
    (h : ∀ tag, t.releases.get ⟨publisher, name, tag⟩ = s.releases.get ⟨publisher, name, tag⟩) :
    (listTags publisher name).result t = (listTags publisher name).result s := by
  cases hv : validateName name with
  | error e => rw [listTags, hv]; rfl
  | ok u =>
      have hok : ∀ s : Store, ∃ ts, (listTags publisher name).result s = .ok ts ∧
          ts.Pairwise (· ≤ ·) := by
        intro s
        refine ⟨_, result_bind_ok.mpr ⟨(), hv, result_bind_ok.mpr ⟨s, rfl, rfl⟩⟩, ?_⟩
        exact List.pairwise_insertionSort _ _
      obtain ⟨ts, hts, hsorted⟩ := hok t
      obtain ⟨ss, hss, hsorted'⟩ := hok s
      obtain ⟨hnodup, hmem⟩ := listTags_ok hts
      obtain ⟨hnodup', hmem'⟩ := listTags_ok hss
      have hperm : ts.Perm ss := by
        refine (List.perm_ext_iff_of_nodup hnodup hnodup').mpr fun tag => ?_
        rw [hmem, hmem', h]
      rw [hts, hss, hperm.eq_of_pairwise' hsorted hsorted']

/-- What is listed of an image depends on the image only. -/
theorem localReleases_congr
    (h : ∀ tag, t.releases.get ⟨publisher, name, tag⟩ = s.releases.get ⟨publisher, name, tag⟩) :
    t.localReleases publisher name = s.localReleases publisher name := by
  have hget : ∀ tag, (getRelease publisher name tag).result t =
      (getRelease publisher name tag).result s := by
    intro tag
    cases hp : releasePath publisher name tag with
    | error e => rw [result, result, getRelease_apply_error hp, getRelease_apply_error hp]
    | ok q =>
        obtain ⟨-, -, rfl⟩ := releasePath_eq_ok.mp hp
        rw [result, result, getRelease_apply hp, getRelease_apply hp, h]
  have hquiet : ∀ (tag : Str) (s : Store), (getRelease publisher name tag).final s = s :=
    fun tag s => (final_of_emits_false (emits_getRelease publisher name tag) s).2
  have hat : ∀ ts, (releasesAt publisher name ts).result t =
      (releasesAt publisher name ts).result s := by
    intro ts
    induction ts with
    | nil => rfl
    | cons tag ts ih =>
        rw [releasesAt]
        cases hr : (getRelease publisher name tag).result s with
        | error e => rw [result_bind_of_error ((hget tag).trans hr), result_bind_of_error hr]
        | ok r =>
            rw [result_bind_of_ok ((hget tag).trans hr), result_bind_of_ok hr, hquiet, hquiet]
            cases hrs : (releasesAt publisher name ts).result s with
            | error e => rw [result_bind_of_error (ih.trans hrs), result_bind_of_error hrs]
            | ok rs => rw [result_bind_of_ok (ih.trans hrs), result_bind_of_ok hrs]; rfl
  have hall : (localReleasesOf publisher name).result t =
      (localReleasesOf publisher name).result s := by
    have htags : ∀ s : Store, (listTags publisher name).final s = s := fun s =>
      (final_of_emits_false (emits_listTags publisher name) s).2
    rw [localReleasesOf]
    cases hts : (listTags publisher name).result s with
    | error e =>
        rw [result_bind_of_error ((listTags_congr h).trans hts), result_bind_of_error hts]
    | ok ts =>
        rw [result_bind_of_ok ((listTags_congr h).trans hts), result_bind_of_ok hts, htags, htags,
          hat]
  rw [Store.localReleases, Store.localReleases, hall]

/-- What a peer serves of its images, the `j`-th one through the exchanges `net j`. -/
def ServesRepos (node : Node) (peer : EndpointId) (net : ℕ → ℕ → Exchange) :
    ℕ → List Repo → Store → Prop
  | _, [], _ => True
  | j, repo :: repos, s => Serves node peer (net j) 0 (chosenOf node repo s) s ∧
      ServesRepos node peer net (j + 1) repos ((syncRepo node peer (net j) repo).final s)

/-- What a repo lists is of its image, of another publisher, and under a valid name. -/
def Repo.Sound (node : Node) (repo : Repo) : Prop :=
  repo.publisher ≠ node.id ∧ validateName repo.name = .ok () ∧
    ∀ x ∈ repo.remote, x.publisher = repo.publisher ∧ x.name = repo.name

/-- What handling a peer's images does to one image: nothing if the peer does not list it. -/
theorem syncRepos_spec (publisher : PublisherId) (name : Str) {peer : EndpointId}
    {net : ℕ → ℕ → Exchange} {j : ℕ} {repos : List Repo} (hs : s.Named)
    (hsound : ∀ repo ∈ repos, repo.Sound node)
    (hnodup : (repos.map fun repo => (repo.publisher, repo.name)).Nodup)
    (hserves : ServesRepos node peer net j repos s) :
    ((syncRepos node peer net j repos).final s).Named ∧
      ((publisher, name) ∉ repos.map (fun repo => (repo.publisher, repo.name)) →
        ∀ tag, ((syncRepos node peer net j repos).final s).releases.get ⟨publisher, name, tag⟩ =
          s.releases.get ⟨publisher, name, tag⟩) ∧
      ∀ remote, ⟨publisher, name, remote⟩ ∈ repos →
        (node.policy.window publisher name).isEmpty = false →
        (node.policy.window publisher name).inside (s.held publisher name) =
          s.held publisher name →
        ((syncRepos node peer net j repos).final s).held publisher name =
          (node.policy.window publisher name).inside (s.held publisher name ∪
            (node.policy.window publisher name).wanted
              (tagTimes (s.localReleases publisher name))
              (remote.map ReleaseSummary.version)) := by
  induction repos generalizing j s with
  | nil => exact ⟨hs, fun _ _ => rfl, fun _ h => by cases h⟩
  | cons repo repos ih =>
      obtain ⟨hserve, hserves⟩ := hserves
      obtain ⟨hother, hn, hremote⟩ := hsound repo List.mem_cons_self
      obtain ⟨hfirst, hnodup⟩ := List.nodup_cons.mp hnodup
      obtain ⟨hres, hnamed, hframe, hheld⟩ := syncRepo_spec hother hn hs hremote hserve
      obtain ⟨ihnamed, ihframe, ihheld⟩ := ih hnamed
        (fun r hr => hsound r (List.mem_cons_of_mem _ hr)) hnodup hserves
      rw [syncRepos, final_bind_of_ok hres]
      refine ⟨ihnamed, fun hnot tag => ?_, fun remote hmem hw henforced => ?_⟩
      · obtain ⟨hne, hnot⟩ := not_or.mp (mt List.mem_cons.mpr hnot)
        refine (ihframe hnot tag).trans (hframe _ ?_)
        rintro ⟨h1, h2⟩
        exact hne (Prod.ext h1 h2)
      · rcases List.mem_cons.mp hmem with rfl | hmem
        · -- the image of this turn is not handled again
          rw [held_congr (ihframe hfirst), hheld hw henforced]
        · -- what is handled before leaves the image as it is
          have hsame : ∀ tag,
              ((syncRepo node peer (net j) repo).final s).releases.get ⟨publisher, name, tag⟩ =
                s.releases.get ⟨publisher, name, tag⟩ := by
            intro tag
            refine hframe _ ?_
            rintro ⟨h1, h2⟩
            refine hfirst (List.mem_map.mpr ⟨_, hmem, ?_⟩)
            exact Prod.ext h1 h2
          have := ihheld remote hmem hw (by rw [held_congr hsame]; exact henforced)
          rw [this, held_congr hsame, localReleases_congr hsame]

/-- A sync with a peer: its inventory, and what it answers. -/
structure Sync where
  peer : EndpointId
  inv : List ReleaseSummary
  net : ℕ → ℕ → Exchange

namespace Sync

/-- What the inventory lists of an image. -/
def listed (x : Sync) (publisher : PublisherId) (name : Str) : List ReleaseSummary :=
  x.inv.filter fun y => y.publisher = publisher ∧ y.name = name

/-- The peer lists valid names, answers every request with the release it listed, and the release
is fetched. -/
def Honest (node : Node) (s : Store) (x : Sync) : Prop :=
  (∀ y ∈ x.inv, validateName y.name = .ok ()) ∧
    ServesRepos node x.peer x.net 0 (byRepo node x.inv) s

end Sync

/-- A peer that lists one image, of which one release is wanted, which it serves. -/
theorem honest_one {x : Sync} {repo : Repo} (rel : Release)
    (hnames : ∀ y ∈ x.inv, validateName y.name = .ok ()) (hrepos : byRepo node x.inv = [repo])
    (hchosen : chosenOf node repo s = [rel.summary]) (ha : (x.net 0 0).answer = .ok (some rel))
    (hres : ((x.net 0 0).fetch node rel [x.peer]).result s = .ok ()) : x.Honest node s := by
  refine ⟨hnames, ?_⟩
  rw [hrepos, ServesRepos, hchosen]
  exact ⟨⟨rel, ha, rfl, hres, trivial⟩, trivial⟩

theorem sound_of_mem_byRepo {inv : List ReleaseSummary}
    (hinv : ∀ y ∈ inv, validateName y.name = .ok ()) :
    ∀ repo ∈ byRepo node inv, repo.Sound node := by
  intro repo hrepo
  obtain ⟨hother, hremote⟩ := of_mem_byRepo hrepo
  refine ⟨hother, ?_, hremote⟩
  obtain ⟨k, hk, rfl⟩ := List.mem_map.mp hrepo
  obtain ⟨y, hy, rfl⟩ := List.mem_map.mp (List.mem_dedup.mp ((List.mem_insertionSort _).mp hk))
  exact hinv y (List.mem_filter.mp hy).1

theorem nodup_byRepo (inv : List ReleaseSummary) :
    ((byRepo node inv).map fun repo => (repo.publisher, repo.name)).Nodup := by
  rw [byRepo, List.map_map]
  have hid : (((fun repo : Repo => (repo.publisher, repo.name)) ∘ fun k : PublisherId × Str =>
      (⟨k.1, k.2, (inv.filter fun s => s.publisher ≠ node.id).filter fun s =>
        (s.publisher, s.name) = k⟩ : Repo))) = id := by
    funext k
    rfl
  rw [hid, List.map_id]
  exact (List.perm_insertionSort _ _).nodup_iff.mpr (List.nodup_dedup _)

/-- An image of another publisher is listed among the images of the inventory, with all that is
listed of it, or nothing is. -/
theorem listed_byRepo (name : Str) (hother : publisher ≠ node.id) (x : Sync) :
    ⟨publisher, name, x.listed publisher name⟩ ∈ byRepo node x.inv ∨
      x.listed publisher name = [] ∧
        (publisher, name) ∉ (byRepo node x.inv).map fun repo => (repo.publisher, repo.name) := by
  have hlisted : ∀ k : PublisherId × Str, k = (publisher, name) →
      (x.inv.filter fun s => s.publisher ≠ node.id).filter (fun s => (s.publisher, s.name) = k) =
        x.listed publisher name := by
    rintro k rfl
    rw [Sync.listed, List.filter_filter]
    refine List.filter_congr fun y _ => ?_
    by_cases hp : y.publisher = publisher
    · simp [hp, hother]
    · simp [hp]
  have hkeys : ∀ k : PublisherId × Str, k ∈ (((x.inv.filter fun s => s.publisher ≠ node.id).map
      fun s => (s.publisher, s.name)).dedup).insertionSort repoBefore ↔
        ∃ y ∈ x.inv, y.publisher ≠ node.id ∧ (y.publisher, y.name) = k := by
    intro k
    simp only [List.mem_insertionSort, List.mem_dedup, List.mem_map, List.mem_filter,
      decide_eq_true_eq, and_assoc]
  by_cases hany : ∃ y ∈ x.inv, y.publisher ≠ node.id ∧ (y.publisher, y.name) = (publisher, name)
  · refine Or.inl (List.mem_map.mpr ⟨(publisher, name), (hkeys _).mpr hany, ?_⟩)
    simp only [hlisted (publisher, name) rfl]
  · refine Or.inr ⟨?_, ?_⟩
    · rw [Sync.listed, List.filter_eq_nil_iff]
      intro y hy hkey
      obtain ⟨hp, hn⟩ := of_decide_eq_true hkey
      exact hany ⟨y, hy, hp ▸ hother, Prod.ext hp hn⟩
    · intro hmem
      obtain ⟨repo, hrepo, hkey⟩ := List.mem_map.mp hmem
      obtain ⟨k, hk, rfl⟩ := List.mem_map.mp hrepo
      exact hany (by rw [← hkey]; exact (hkeys k).mp hk)

/-- What a sync with an honest peer does to an image of another publisher. -/
theorem syncWith_spec {x : Sync} (hother : publisher ≠ node.id) (hs : s.Named)
    (hw : (node.policy.window publisher name).isEmpty = false) (hhonest : x.Honest node s) :
    ((syncWith node x.peer (.ok x.inv) x.net).final s).Named ∧
      ((node.policy.window publisher name).inside (s.held publisher name) =
          s.held publisher name →
        ((syncWith node x.peer (.ok x.inv) x.net).final s).held publisher name =
          (node.policy.window publisher name).inside (s.held publisher name ∪
            (node.policy.window publisher name).wanted (tagTimes (s.localReleases publisher name))
              ((x.listed publisher name).map ReleaseSummary.version))) := by
  obtain ⟨hnamed, hframe, hheld⟩ := syncRepos_spec publisher name hs
    (sound_of_mem_byRepo hhonest.1) (nodup_byRepo x.inv) hhonest.2
  refine ⟨hnamed, fun henforced => ?_⟩
  rcases listed_byRepo name hother x with hmem | ⟨hnil, hnot⟩
  · exact hheld _ hmem hw henforced
  · have hnone : ∀ held : List (Str × ℕ),
        (node.policy.window publisher name).wanted held [] = ∅ := by
      intro held
      ext v
      simp [Window.wanted]
    rw [hnil, List.map_nil, hnone, Set.union_empty, henforced]
    exact held_congr (hframe hnot)

/-- A node, and every version of an image that it held at the start or was listed since. -/
structure ImageRun where
  store : Store
  seen : List (Str × ℕ)

namespace ImageRun

variable (node : Node) (publisher : PublisherId) (name : Str)

/-- With the versions that are held. -/
def start (s : Store) : ImageRun := ⟨s, tagTimes (s.localReleases publisher name)⟩

/-- One sync; what is listed was seen. -/
def step (w : ImageRun) (x : Sync) : Option ImageRun :=
  some ⟨(syncWith node x.peer (.ok x.inv) x.net).final w.store,
    w.seen ++ (x.listed publisher name).map ReleaseSummary.version⟩

/-- The image holds what is inside its window of all that was seen. -/
def Filled (w : ImageRun) : Prop :=
  w.store.held publisher name = (node.policy.window publisher name).inside {v | v ∈ w.seen}

/-- The sync wastes no place of the window. -/
def Unwasted (w : ImageRun) (x : Sync) : Prop :=
  (node.policy.window publisher name).Unwasted
    (tagTimes (w.store.localReleases publisher name))
    ((x.listed publisher name).map ReleaseSummary.version)

instance (w : ImageRun) (x : Sync) : Decidable (w.Unwasted node publisher name x) :=
  inferInstanceAs (Decidable (Window.Unwasted _ _ _))

end ImageRun

theorem isSome_run_synced (node : Node) (publisher : PublisherId) (name : Str) (xs : List Sync) :
    ∀ w : ImageRun, (run (ImageRun.step node publisher name) w xs).isSome := by
  induction xs with
  | nil => exact fun _ => rfl
  | cons x xs ih => exact fun _ => ih _

/-- A sync keeps the window filled exactly when it wastes no place. -/
theorem filled_step_iff {w v : ImageRun} {x : Sync} (hother : publisher ≠ node.id)
    (hw : (node.policy.window publisher name).isEmpty = false)
    (hn : validateName name = .ok ()) (hs : w.store.Named) (hhonest : x.Honest node w.store)
    (hfilled : w.Filled node publisher name) (hstep : w.step node publisher name x = some v) :
    v.Filled node publisher name ↔ w.Unwasted node publisher name x := by
  cases hstep
  have hfinite : {v | v ∈ w.seen}.Finite := List.finite_toSet _
  have henforced : (node.policy.window publisher name).inside (w.store.held publisher name) =
      w.store.held publisher name := by
    rw [hfilled]
    exact window_window hfinite
  have hall : (node.policy.window publisher name).inside {v | v ∈ w.seen ++
      (x.listed publisher name).map ReleaseSummary.version} =
      (node.policy.window publisher name).inside (w.store.held publisher name ∪
        {v | v ∈ (x.listed publisher name).map ReleaseSummary.version}) := by
    rw [← Window.union_eq, hfilled]
    exact (window_union hfinite).symm
  rw [ImageRun.Filled, (syncWith_spec hother hs hw hhonest).2 henforced, hall, ImageRun.Unwasted,
    ← Window.inside_wanted_iff, (tagTimes_localReleases publisher hs hn).2]

/-- **Inventories.**  Of an image of another publisher that the policy covers, every sync with an
honest peer leaves what is inside the window of all that was held and listed, exactly when no sync
of the run wastes a place. -/
theorem run_synced_iff {xs : List Sync} (hother : publisher ≠ node.id)
    (hw : node.policy.covers publisher name = true) (hs : s.Named)
    (henforced : s.Enforced node publisher name)
    (hm : Meets (ImageRun.step node publisher name) (fun w x => x.Honest node w.store)
      (ImageRun.start publisher name s) xs) :
    Throughout (ImageRun.step node publisher name) (ImageRun.Filled node publisher name)
        (ImageRun.start publisher name s) xs ↔
      Meets (ImageRun.step node publisher name) (ImageRun.Unwasted node publisher name)
        (ImageRun.start publisher name s) xs := by
  have hw : (node.policy.window publisher name).isEmpty = false := by
    simpa [Policy.covers] using hw
  have hn := name_of_enforced hother hw henforced
  have hstart : (ImageRun.start publisher name s).Filled node publisher name := by
    rw [ImageRun.Filled, ImageRun.start, (tagTimes_localReleases publisher hs hn).2]
    exact (inside_of_enforced hother hw hs henforced).symm
  -- names stay valid whatever is wasted
  have hnamed : Throughout (ImageRun.step node publisher name) (fun w => w.store.Named)
      (ImageRun.start publisher name s) xs :=
    throughout_of_meets (fun w x v hs hhonest hstep => by
      cases hstep
      exact (syncWith_spec hother hs hw hhonest).1) hs hm
  have hrun := isSome_run_synced node publisher name xs (ImageRun.start publisher name s)
  constructor
  · intro hfilled
    have himp := meets_of_throughout
      (C := fun w x => x.Honest node w.store → w.Unwasted node publisher name x)
      (fun w x v hI hbad hstep hJ => ?_) hrun (hnamed.and hfilled)
    · exact (hm.and himp).mono fun w x h => h.2 h.1
    · obtain ⟨hhonest, hbad⟩ := Classical.not_imp.mp hbad
      exact hbad ((filled_step_iff hother hw hn hI.1 hhonest hI.2 hstep).mp hJ.2)
  · intro hunwasted
    refine (throughout_of_meets (I := fun w : ImageRun =>
      w.store.Named ∧ w.Filled node publisher name) (fun w x v hI hC hstep => ?_) ⟨hs, hstart⟩
      (hm.and hunwasted)).mono fun w hI => hI.2
    refine ⟨?_, (filled_step_iff hother hw hn hI.1 hC.1 hI.2 hstep).mpr hC.2⟩
    cases hstep
    exact (syncWith_spec hother hI.1 hw hC.1).1

/-- What a sync after which the window is filled leaves. -/
theorem held_of_filled {x : Sync} (h : Throughout (ImageRun.step node publisher name)
    (ImageRun.Filled node publisher name) (ImageRun.start publisher name s) [x]) :
    ((syncWith node x.peer (.ok x.inv) x.net).final s).held publisher name =
      (node.policy.window publisher name).inside {v | v ∈
        tagTimes (s.localReleases publisher name) ++
          (x.listed publisher name).map ReleaseSummary.version} := by
  have hend := last_of_throughout h rfl
  exact hend

end

namespace Sample

/-- A node that keeps the last `n` releases of each image of a publisher. -/
def keeper (who : Identity) (n : ℕ) : Node :=
  letI := sample
  node { Policy.default with follow := [⟨who.id.toStr, .last n⟩] }

/-- A release of an image, and its announcement by a peer that serves it. -/
def appRelease (who : Identity) (tag : Str) (timestamp : ℕ) : Release :=
  release who "app" tag index timestamp

/-- Its announcement by a peer that serves it. -/
def announcement (who : Identity) (tag : Str) (timestamp : ℕ) : @Announced sample :=
  letI := sample
  ⟨(appRelease who tag timestamp).summary, mallory.id,
    fun _ => exchange (appRelease who tag timestamp)⟩

end Sample

/-- Two announcements of a followed publisher, in both orders. -/
theorem run_announced_at :
    letI := sample
    let node := Sample.keeper Sample.alice 1
    let a := Sample.announcement Sample.alice "1.0" 1000
    let b := Sample.announcement Sample.alice "2.0" 2000
    ∃ t u, run (announceStep node) Store.empty [a, b] = some t ∧
      run (announceStep node) Store.empty [b, a] = some u ∧
      t.held Sample.alice.id "app" = u.held Sample.alice.id "app" := by
  let _ := sample
  intro node a b
  have hother : Sample.alice.id ≠ node.id := by decide +kernel
  have hnamed : Store.empty.Named := fun r rel h => by cases h
  have henforced : Store.empty.Enforced node Sample.alice.id "app" := by
    refine ⟨by decide +kernel, held_congr fun tag => ?_⟩
    have hnone : ((enforceWindow node Sample.alice.id "app").final Store.empty).releases =
      Store.empty.releases := by decide +kernel
    rw [hnone]
  have himage : ∀ xs : List Announced, (∀ x ∈ xs, x = a ∨ x = b) → ∀ x ∈ xs,
      x.summary.publisher = Sample.alice.id ∧ x.summary.name = "app" := by
    intro xs hxs x hx
    rcases hxs x hx with rfl | rfl <;> exact ⟨rfl, rfl⟩
  refine (run_announced hother (by decide +kernel) hnamed henforced).2 [a, b] [b, a]
    (himage _ (by simp)) (himage _ (by simp [or_comm])) ?_ ?_ ?_
  · simp only [announced_cons, Set.union_left_comm]
  · refine meets_served_cons (fun _ => ?_) (meets_served_cons (fun _ => ?_) trivial)
    · exact ⟨Sample.appRelease Sample.alice "1.0" 1000, rfl, rfl, by decide +kernel⟩
    · exact ⟨Sample.appRelease Sample.alice "2.0" 2000, rfl, rfl, by decide +kernel⟩
  · refine meets_served_cons (fun _ => ?_) (meets_served_cons (fun h => absurd ?_ h) trivial)
    · exact ⟨Sample.appRelease Sample.alice "2.0" 2000, rfl, rfl, by decide +kernel⟩
    · -- the older version is not wanted
      show chosenOf node ⟨a.summary.publisher, a.summary.name, [a.summary]⟩
        ((onAnnouncement node b.summary b.source b.net).final Store.empty) = []
      decide +kernel

/-- Of its own image a node that keeps the last release keeps both announced releases, or the newer
one only, as they arrive. -/
theorem own_announcements_order :
    letI := sample
    let node := Sample.keeper Sample.bob 1
    let a := Sample.announcement Sample.bob "1.0" 1000
    let b := Sample.announcement Sample.bob "2.0" 2000
    node.policy.covers Sample.bob.id "app" = true ∧
      Store.empty.Enforced node Sample.bob.id "app" ∧
      Meets (announceStep node) (Announced.Served node) Store.empty [a, b] ∧
      Meets (announceStep node) (Announced.Served node) Store.empty [b, a] ∧
      ∃ t u, run (announceStep node) Store.empty [a, b] = some t ∧
        run (announceStep node) Store.empty [b, a] = some u ∧
        t.held Sample.bob.id "app" ≠ u.held Sample.bob.id "app" := by
  let _ := sample
  intro node a b
  refine ⟨by decide +kernel, ⟨by decide +kernel, held_congr fun tag => ?_⟩, ?_, ?_, _, _, rfl, rfl,
    fun h => ?_⟩
  · have hnone : ((enforceWindow node Sample.bob.id "app").final Store.empty).releases =
      Store.empty.releases := by decide +kernel
    rw [hnone]
  · refine meets_served_cons (fun _ => ?_) (meets_served_cons (fun _ => ?_) trivial)
    · exact ⟨Sample.appRelease Sample.bob "1.0" 1000, rfl, rfl, by decide +kernel⟩
    · exact ⟨Sample.appRelease Sample.bob "2.0" 2000, rfl, rfl, by decide +kernel⟩
  · refine meets_served_cons (fun _ => ?_) (meets_served_cons (fun h => absurd ?_ h) trivial)
    · exact ⟨Sample.appRelease Sample.bob "2.0" 2000, rfl, rfl, by decide +kernel⟩
    · show chosenOf node ⟨a.summary.publisher, a.summary.name, [a.summary]⟩
        ((onAnnouncement node b.summary b.source b.net).final Store.empty) = []
      decide +kernel
  · have hboth : (("1.0", 1000) : Str × ℕ) ∈
        ((onAnnouncement node b.summary b.source b.net).final
          ((onAnnouncement node a.summary a.source a.net).final Store.empty)).held
            Sample.bob.id "app" :=
      ⟨Sample.appRelease Sample.bob "1.0" 1000, by decide +kernel, by decide +kernel⟩
    obtain ⟨r, hr, -⟩ := h ▸ hboth
    have hnone : ((onAnnouncement node a.summary a.source a.net).final
        ((onAnnouncement node b.summary b.source b.net).final Store.empty)).releases.get
          ⟨Sample.bob.id, "app", "1.0"⟩ = none := by decide +kernel
    cases hnone.symm.trans hr

namespace Sample

/-- What a node holds after it fetched two tags. -/
def twoTags : @Store sample :=
  letI := sample
  let a := appRelease alice "a" 10
  let b := appRelease alice "b" 20
  (fetchRelease bob.id b [alice.id] downloads).final
    ((fetchRelease bob.id a [alice.id] downloads).final Store.empty)

/-- What it holds after a peer listed the first of them pushed again. -/
def retold : @Store sample :=
  letI := sample
  (syncWith (keeper alice 3) alice.id
    (.ok [(appRelease alice "a" 30).summary, (appRelease alice "b" 20).summary]) fun _ _ =>
      exchange (appRelease alice "a" 30)).final twoTags

/-- The two tags, the first one again, and a third one. -/
def threeTags : List (Str × ℕ) := [("a", 10), ("b", 20), ("a", 30), ("c", 5)]

end Sample

theorem Sample.enforced_twoTags : letI := sample
    Sample.twoTags.Enforced (Sample.keeper Sample.alice 3) Sample.alice.id "app" := by
  let _ := sample
  refine ⟨by decide +kernel, held_congr fun tag => ?_⟩
  have hsame : ((enforceWindow (Sample.keeper Sample.alice 3) Sample.alice.id "app").final
    Sample.twoTags).releases = Sample.twoTags.releases := by decide +kernel
  rw [hsame]

/-- A node that holds two tags: a peer lists the first of them pushed again, and then a third tag. -/
theorem run_synced_iff_at :
    letI := sample
    let node := Sample.keeper Sample.alice 3
    let a := Sample.appRelease Sample.alice "a" 30
    let b := Sample.appRelease Sample.alice "b" 20
    let c := Sample.appRelease Sample.alice "c" 40
    let xs : List Sync := [⟨Sample.alice.id, [a.summary, b.summary], fun _ _ => Sample.exchange a⟩,
      ⟨Sample.alice.id, [c.summary], fun _ _ => Sample.exchange c⟩]
    Throughout (ImageRun.step node Sample.alice.id "app")
        (ImageRun.Filled node Sample.alice.id "app")
        (ImageRun.start Sample.alice.id "app" Sample.twoTags) xs ↔
      Meets (ImageRun.step node Sample.alice.id "app") (ImageRun.Unwasted node Sample.alice.id "app")
        (ImageRun.start Sample.alice.id "app" Sample.twoTags) xs := by
  let _ := sample
  intro node a b c xs
  have hnamed : Sample.twoTags.Named := by
    intro r rel hget
    have hvalid : ∀ rel ∈ Sample.twoTags.releases.rows,
        validateName rel.ref.name = .ok () ∧ validateTag rel.ref.tag = .ok () := by decide +kernel
    exact Table.key_of_get hget ▸ hvalid rel (Table.mem_of_get hget)
  refine run_synced_iff (by decide +kernel) (by decide +kernel) hnamed Sample.enforced_twoTags
    ⟨honest_one a (by decide +kernel) rfl ?_ rfl ?_, fun v hv => ?_⟩
  · decide +kernel
  · decide +kernel
  · have hstore : v.store = Sample.retold := by
      rw [ImageRun.step, Option.some.injEq] at hv
      rw [← hv, ImageRun.start, Sample.retold]
    refine ⟨?_, fun _ _ => trivial⟩
    show Sync.Honest node v.store _
    rw [hstore]
    exact honest_one c (by decide +kernel) rfl (by decide +kernel) rfl (by decide +kernel)

/-- A node that keeps the last three releases holds two tags.  A peer lists the first of them pushed
again, and a third tag.  The known tags fit, and the third one is not fetched: the tag with two
timestamps takes two places. -/
theorem repushed_tag_takes_place :
    letI := sample
    let node := Sample.keeper Sample.alice 3
    let a := Sample.appRelease Sample.alice "a" 30
    let c := Sample.appRelease Sample.alice "c" 5
    let x : Sync := ⟨Sample.alice.id, [a.summary, c.summary], fun _ i =>
      Sample.exchange (if i = 0 then a else c)⟩
    node.policy.covers Sample.alice.id "app" = true ∧
      Sample.twoTags.Enforced node Sample.alice.id "app" ∧ x.Honest node Sample.twoTags ∧
      ¬ Throughout (ImageRun.step node Sample.alice.id "app")
        (ImageRun.Filled node Sample.alice.id "app")
        (ImageRun.start Sample.alice.id "app" Sample.twoTags) [x] := by
  let _ := sample
  intro node a c x
  refine ⟨by decide +kernel, Sample.enforced_twoTags, honest_one a (by decide +kernel) rfl ?_ rfl ?_,
    fun h => ?_⟩
  · decide +kernel
  · decide +kernel
  · have hfilled := held_of_filled h
    have hseen : tagTimes (Sample.twoTags.localReleases Sample.alice.id "app") ++
        (x.listed Sample.alice.id "app").map ReleaseSummary.version = Sample.threeTags := by
      decide +kernel
    have hlast : (node.policy.window Sample.alice.id "app").last = 3 := by decide +kernel
    -- two tags are newer than the third
    have hnew : ∀ y ∈ Sample.threeTags, y.1 = "c" → y.2 ≤ 5 := by decide
    have hin : (("c", 5) : Str × ℕ) ∈ (node.policy.window Sample.alice.id "app").inside
        {v | v ∈ Sample.threeTags} := by
      refine ⟨⟨by simp [Sample.threeTags], hnew⟩, Or.inr fun hc => ?_⟩
      rw [hlast] at hc
      exact absurd (crowded_iff.mp hc) (by decide)
    rw [← hseen, ← hfilled] at hin
    obtain ⟨r, hr, -⟩ := hin
    have hnone : ((syncWith node x.peer (.ok x.inv) x.net).final Sample.twoTags).releases.get
        ⟨Sample.alice.id, "app", "c"⟩ = none := by decide +kernel
    cases hnone.symm.trans hr

end Ocid
