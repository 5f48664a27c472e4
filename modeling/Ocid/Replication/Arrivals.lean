import Ocid.Replication.Windows

/-!
# Replication — Arrivals — what a node holds after announcements and inventories

An announcement lists one release of an image, an inventory any number.  What is listed and wanted
is fetched, and the window of the image is enforced (`held_merge`).  Where every request is answered
with the release that was listed, the image then holds what is inside the window of all that was
ever held or listed, and the order in which it was listed does not matter: announcements reach
that for every image of another publisher (`run_announced`).

Of an inventory, a listed release is not wanted when a tag that is known with two timestamps takes
the place of its own (`Window.Unwasted`).  Inventories reach it exactly when that never happens
(`run_synced_iff`).
-/

namespace Ocid

open Call Windows

/-! ### What is wanted of a list -/

namespace Window

variable {w : Window} {held remote : List (Str × ℕ)}

/-- The versions listed that are selected, and newer than what is held. -/
def wanted (w : Window) (held remote : List (Str × ℕ)) : Set (Str × ℕ) :=
  {y | y ∈ remote ∧ y.1 ∈ w.select (held ++ remote) ∧ ∀ z ∈ held, z.1 = y.1 → z.2 < y.2}

/-- No version that is to be fetched loses its place to a tag that is known twice: when fewer tags
than the window has places are known to be newer, then fewer entries of the sorted list are. -/
def Unwasted (w : Window) (held remote : List (Str × ℕ)) : Prop :=
  ∀ y ∈ remote, (∀ z ∈ held ++ remote, z.1 = y.1 → z.2 ≤ y.2) → y ∉ held →
    ¬ (w.full = true ∨ y.1 ∈ w.tags) → namesAhead (held ++ remote) y < w.last →
      ahead (sorted (held ++ remote)) y < w.last

instance : Decidable (w.Unwasted held remote) := by
  unfold Unwasted
  infer_instance

theorem union_eq : {x | x ∈ held} ∪ {x | x ∈ remote} = {x | x ∈ held ++ remote} := by
  ext x
  exact List.mem_append.symm

/-- With what is wanted the window is filled as with all that is listed, unless a place is
wasted. -/
theorem inside_wanted_iff :
    w.inside ({x | x ∈ held} ∪ w.wanted held remote) =
      w.inside ({x | x ∈ held} ∪ {x | x ∈ remote}) ↔ w.Unwasted held remote := by
  have hsub : {x | x ∈ held} ∪ w.wanted held remote ⊆ {x | x ∈ held} ∪ {x | x ∈ remote} :=
    Set.union_subset_union_right _ fun y hy => hy.1
  have hfinite : ({x | x ∈ held} ∪ {x | x ∈ remote}).Finite := by
    rw [union_eq]
    exact List.finite_toSet _
  constructor
  · intro h y hy hnew hheld halways hnames
    by_contra hahead
    have hnewest : Newest {x | x ∈ held ++ remote} y :=
      ⟨List.mem_append_right _ hy, hnew⟩
    have hin : y ∈ w.inside ({x | x ∈ held} ∪ {x | x ∈ remote}) := by
      rw [union_eq]
      exact ⟨hnewest, Or.inr fun hc => Nat.not_lt.mpr (crowded_iff.mp hc) hnames⟩
    rw [← h] at hin
    rcases window_subset hin with hin | ⟨-, hsel, -⟩
    · exact hheld hin
    · exact ((mem_select_iff hnewest).mp hsel).elim halways hahead
  · intro h
    refine window_of_subset hfinite ?_ hsub
    rintro y hy
    rw [union_eq] at hy
    obtain ⟨hnewest, hin⟩ := hy
    by_cases hheld : y ∈ held
    · exact Or.inl hheld
    · have hremote := (List.mem_append.mp hnewest.1).resolve_left hheld
      refine Or.inr ⟨hremote, (mem_select_iff hnewest).mpr ?_, fun z hz hzy => ?_⟩
      · by_cases halways : y.1 ∈ w.always
        · exact Or.inl halways
        · refine Or.inr (h y hremote hnewest.2 hheld halways ?_)
          exact Nat.not_le.mp fun hle => hin.resolve_left halways (crowded_iff.mpr hle)
      · refine lt_of_le_of_ne (hnewest.2 z (List.mem_append_left _ hz) hzy) fun heq => hheld ?_
        exact (Prod.ext hzy heq : z = y) ▸ hz

/-- A list of one version wastes no place: only its own tag can be known twice. -/
theorem unwasted_singleton (hnodup : (held.map Prod.fst).Nodup) (x : Str × ℕ) :
    w.Unwasted held [x] := by
  intro y hy _ _ _ hnames
  obtain rfl := List.mem_singleton.mp hy
  have hmem : ∀ z ∈ (sorted (held ++ [y])).filter fun z => Before z y, z ∈ held := by
    intro z hz
    obtain ⟨hz, hb⟩ := List.mem_filter.mp hz
    refine (List.mem_append.mp (mem_of_mem_sorted hz)).resolve_right fun h => ?_
    obtain rfl := List.mem_singleton.mp h
    exact not_before_self _ (of_decide_eq_true hb)
  refine lt_of_not_crowded (K := {z | z ∈ held ++ [y]}) (fun z hz => mem_of_mem_sorted hz) ?_
    fun hc => Nat.not_lt.mpr (crowded_iff.mp hc) hnames
  have hpair : (sorted (held ++ [y])).Nodup := by
    refine List.Pairwise.imp (fun {a b} (hb : Before a b) (heq : a = b) => ?_) (pairwise_sorted _)
    exact not_before_self b (heq ▸ hb)
  refine (hpair.filter _).map_on fun a ha b hb hab => ?_
  exact List.inj_on_of_nodup_map hnodup (hmem a ha) (hmem b hb) hab

end Window

/-- What an entry of an inventory says of its image. -/
def ReleaseSummary.version (x : ReleaseSummary) : Str × ℕ := (x.tag, x.timestamp)

/-- The versions a list of summaries names. -/
def versions (xs : List ReleaseSummary) : Set (Str × ℕ) := {v | v ∈ xs.map ReleaseSummary.version}

theorem versions_cons (x : ReleaseSummary) (xs : List ReleaseSummary) :
    versions (x :: xs) = {x.version} ∪ versions xs := by
  ext v
  exact List.mem_cons

theorem finite_versions (xs : List ReleaseSummary) : (versions xs).Finite := List.finite_toSet _

section
variable [External] {node : Node} {s : Store} {publisher : PublisherId} {name : Str}

/-- The records of an image, as they are listed. -/
def Store.localReleases (s : Store) (publisher : PublisherId) (name : Str) : List Release :=
  match (localReleasesOf publisher name).result s with
  | .ok rs => rs
  | .error _ => []

theorem localReleases_ok (hs : s.Named) (hn : validateName name = .ok ()) :
    (localReleasesOf publisher name).result s = .ok (s.localReleases publisher name) := by
  obtain ⟨rs, hrs⟩ : ∃ rs, (localReleasesOf publisher name).result s = .ok rs :=
    localReleasesOf_returns hs hn
  rw [Store.localReleases, hrs]

/-- The versions listed of an image are those held. -/
theorem tagTimes_localReleases (publisher : PublisherId) (hs : s.Named)
    (hn : validateName name = .ok ()) :
    ((tagTimes (s.localReleases publisher name)).map Prod.fst).Nodup ∧
      {x | x ∈ tagTimes (s.localReleases publisher name)} = s.held publisher name :=
  (localReleasesOf_ok (localReleases_ok hs hn)).2

omit [External] in
theorem all_lookup_iff {l : List (Str × ℕ)} (hnodup : (l.map Prod.fst).Nodup) {t : Str} {ts : ℕ} :
    ((l.lookup t).all fun u => u < ts) = true ↔ ∀ z ∈ l, z.1 = t → z.2 < ts := by
  induction l with
  | nil => simp
  | cons z l ih =>
      obtain ⟨u, v⟩ := z
      obtain ⟨hz, hl⟩ := List.nodup_cons.mp hnodup
      by_cases ht : u = t
      · subst ht
        have hrest : ∀ y ∈ l, y.1 ≠ u := fun y hy he => hz (List.mem_map.mpr ⟨y, hy, he⟩)
        simp only [List.lookup_cons_self, Option.all_some, decide_eq_true_eq, List.mem_cons,
          forall_eq_or_imp, true_imp_iff]
        exact ⟨fun h => ⟨h, fun y hy he => absurd he (hrest y hy)⟩, fun h => h.1⟩
      · have hbeq : (t == u) = false := beq_eq_false_iff_ne.mpr (Ne.symm ht)
        rw [List.lookup_cons, hbeq]
        simp only [List.mem_cons, forall_eq_or_imp, ht, false_imp_iff, true_and]
        exact ih hl

/-- What `selectWanted` chooses of an image the policy covers. -/
theorem selectWanted_ok (node : Node) (publisher : PublisherId) (remote : List ReleaseSummary)
    (hs : s.Named) (hn : validateName name = .ok ()) :
    (selectWanted node.policy publisher name remote).result s =
      .ok (chosenOf node ⟨publisher, name, remote⟩ s) := by
  have hok : ∃ ys, (selectWanted node.policy publisher name remote).result s = .ok ys := by
    rw [selectWanted]
    split
    · exact ⟨[], rfl⟩
    · exact ⟨_, result_bind_ok.mpr ⟨_, localReleases_ok hs hn, rfl⟩⟩
  obtain ⟨ys, hys⟩ := hok
  rw [chosenOf, hys]

theorem mem_chosenOf_iff {remote : List ReleaseSummary} (hs : s.Named)
    (hn : validateName name = .ok ()) (hw : (node.policy.window publisher name).isEmpty = false)
    {y : ReleaseSummary} :
    y ∈ chosenOf node ⟨publisher, name, remote⟩ s ↔ y ∈ remote ∧
      y.version ∈ (node.policy.window publisher name).wanted
        (tagTimes (s.localReleases publisher name)) (remote.map ReleaseSummary.version) := by
  have hres : chosenOf node ⟨publisher, name, remote⟩ s = remote.filter fun x =>
      x.tag ∈ (node.policy.window publisher name).select
        (tagTimes (s.localReleases publisher name) ++ remote.map ReleaseSummary.version) ∧
      ((tagTimes (s.localReleases publisher name)).lookup x.tag).all fun ts => ts < x.timestamp := by
    have h := selectWanted_ok node publisher remote hs hn
    rw [selectWanted] at h
    simp only [hw, Bool.false_eq_true, if_false] at h
    rw [result_bind_of_ok (localReleases_ok hs hn)] at h
    exact (Except.ok.inj h).symm
  rw [hres, List.mem_filter, decide_eq_true_eq,
    all_lookup_iff (tagTimes_localReleases publisher hs hn).1]
  constructor
  · rintro ⟨hy, hsel, hnew⟩
    exact ⟨hy, List.mem_map_of_mem hy, hsel, hnew⟩
  · rintro ⟨hy, -, hsel, hnew⟩
    exact ⟨hy, hsel, hnew⟩

/-- What is chosen are the versions wanted. -/
theorem versions_chosenOf (remote : List ReleaseSummary) (hs : s.Named)
    (hn : validateName name = .ok ()) (hw : (node.policy.window publisher name).isEmpty = false) :
    versions (chosenOf node ⟨publisher, name, remote⟩ s) =
      (node.policy.window publisher name).wanted (tagTimes (s.localReleases publisher name))
        (remote.map ReleaseSummary.version) := by
  ext v
  constructor
  · intro hv
    obtain ⟨y, hy, rfl⟩ := List.mem_map.mp hv
    exact ((mem_chosenOf_iff hs hn hw).mp hy).2
  · intro hv
    obtain ⟨y, hy, rfl⟩ := List.mem_map.mp hv.1
    exact List.mem_map_of_mem ((mem_chosenOf_iff hs hn hw).mpr ⟨hy, hv⟩)

/-! ### Fetching what is wanted -/

section
variable {net : Exchange} {rel : Release} {providers : List EndpointId}

/-- The records after a fetch that returned. -/
theorem releases_fetch (h : (net.fetch node rel providers).result s = .ok ()) :
    rel.verify = .ok () ∧ ((net.fetch node rel providers).final s).releases =
      if s.accepts rel then s.releases.put rel else s.releases := by
  have hcut := cut_of_result_ok h
  rw [Exchange.fetch, hcut] at h ⊢
  exact ⟨(fetchRelease_ok h).1, releases_fetchRelease h⟩

theorem get_fetch_of_ne (h : (net.fetch node rel providers).result s = .ok ()) {q : Ref}
    (hq : q ≠ rel.ref) :
    ((net.fetch node rel providers).final s).releases.get q = s.releases.get q := by
  rw [(releases_fetch h).2]
  split
  · exact Table.get_put_of_ne (Ne.symm hq)
  · rfl

theorem named_fetch (hs : s.Named) (h : (net.fetch node rel providers).result s = .ok ()) :
    ((net.fetch node rel providers).final s).Named := by
  intro r x hget
  by_cases hr : r = rel.ref
  · subst hr
    exact Release.valid_of_verify (releases_fetch h).1
  · rw [get_fetch_of_ne h hr] at hget
    exact hs r x hget

/-- The version fetched is held, unless a newer one was. -/
theorem held_fetch (h : (net.fetch node rel providers).result s = .ok ())
    (hp : rel.publisher = publisher) (hn : rel.name = name) :
    ((net.fetch node rel providers).final s).held publisher name =
      newest (s.held publisher name ∪ {rel.summary.version}) := by
  subst hp hn
  have hother : ∀ x : Str × ℕ, x.1 ≠ rel.payload.tag →
      (x ∈ ((net.fetch node rel providers).final s).held rel.publisher rel.name ↔
        x ∈ s.held rel.publisher rel.name) := by
    intro x hx
    simp only [Store.held, Set.mem_ofPred_eq]
    rw [get_fetch_of_ne h fun hr => hx (congrArg Ref.tag hr)]
  have hself : ∀ x : Str × ℕ, x.1 = rel.payload.tag →
      (x ∈ ((net.fetch node rel providers).final s).held rel.publisher rel.name ↔
        ∃ r, (if s.accepts rel then some rel else s.releases.get rel.ref) = some r ∧
          r.payload.timestamp = x.2) := by
    intro x hx
    simp only [Store.held, Set.mem_ofPred_eq, hx, (releases_fetch h).2]
    refine exists_congr fun r => and_congr_left fun _ => ?_
    split
    · exact iff_of_eq (congrArg (· = some r) (Table.get_put_self _ rel))
    · rfl
  ext x
  by_cases hx : x.1 = rel.payload.tag
  · rw [hself x hx]
    cases hg : s.releases.get rel.ref with
    | none =>
        have hnone : ∀ y ∈ s.held rel.publisher rel.name, y.1 ≠ rel.payload.tag := by
          rintro y ⟨r, hget, -⟩ hy
          rw [hy] at hget
          cases hg.symm.trans hget
        simp only [Store.accepts, hg, Option.all_none, if_true, Option.some.injEq]
        constructor
        · rintro ⟨r, rfl, ht⟩
          refine ⟨Or.inr (Prod.ext hx ht.symm), ?_⟩
          rintro y (hy | rfl) hyx
          · exact absurd (hyx.trans hx) (hnone y hy)
          · exact le_of_eq ht
        · rintro ⟨hxin | hxin, -⟩
          · exact absurd hx (hnone x hxin)
          · exact ⟨rel, rfl, (congrArg Prod.snd hxin).symm⟩
    | some e =>
        have he : ((rel.payload.tag, e.payload.timestamp) : Str × ℕ) ∈
            s.held rel.publisher rel.name := ⟨e, hg, rfl⟩
        have hone : ∀ y ∈ s.held rel.publisher rel.name, y.1 = rel.payload.tag →
            y.2 = e.payload.timestamp := fun y hy hyt => congrArg Prod.snd (held_unique hy he hyt)
        simp only [Store.accepts, hg, Option.all_some]
        cases hsup : rel.supersedes e with
        | true =>
            have hle := Release.le_of_supersedes hsup
            simp only [if_true, Option.some.injEq]
            constructor
            · rintro ⟨r, rfl, ht⟩
              refine ⟨Or.inr (Prod.ext hx ht.symm), ?_⟩
              rintro y (hy | rfl) hyx
              · rw [hone y hy (hyx.trans hx), ← ht]
                exact hle
              · exact le_of_eq ht
            · rintro ⟨hxin | hxin, hmax⟩
              · refine ⟨rel, rfl, le_antisymm (hmax _ (Or.inr rfl) hx.symm) ?_⟩
                rw [hone x hxin hx]
                exact hle
              · exact ⟨rel, rfl, (congrArg Prod.snd hxin).symm⟩
        | false =>
            have hle := Release.le_of_not_supersedes hsup
            simp only [Bool.false_eq_true, if_false, Option.some.injEq]
            constructor
            · rintro ⟨r, rfl, ht⟩
              have hxe : x = (rel.payload.tag, e.payload.timestamp) := Prod.ext hx ht.symm
              refine ⟨Or.inl (hxe ▸ he), ?_⟩
              rintro y (hy | rfl) hyx
              · rw [hone y hy (hyx.trans hx), ht]
              · rw [← ht]
                exact hle
            · rintro ⟨hxin | hxin, hmax⟩
              · exact ⟨e, rfl, (hone x hxin hx).symm⟩
              · refine ⟨e, rfl, le_antisymm (hmax _ (Or.inl he) hx.symm) ?_⟩
                rw [congrArg Prod.snd hxin]
                exact hle
  · rw [hother x hx]
    constructor
    · intro hxin
      refine ⟨Or.inl hxin, ?_⟩
      rintro y (hy | rfl) hyx
      · exact (newest_held hxin).2 y hy hyx
      · exact absurd hyx.symm hx
    · rintro ⟨hxin | hxin, -⟩
      · exact hxin
      · exact absurd (congrArg Prod.fst hxin) hx

end

/-- The requests for `wanted`, the `i`-th one through the exchange `net i`, are answered with what
was listed, and it is fetched. -/
def Serves (node : Node) (peer : EndpointId) (net : ℕ → Exchange) :
    ℕ → List ReleaseSummary → Store → Prop
  | _, [], _ => True
  | i, x :: xs, s => ∃ rel, (net i).answer = .ok (some rel) ∧ rel.summary = x ∧
      ((net i).fetch node rel [peer]).result s = .ok () ∧
        Serves node peer net (i + 1) xs (((net i).fetch node rel [peer]).final s)

/-- Replicating what a peer serves of an image: the versions are held, but for older ones. -/
theorem replicate_spec {peer : EndpointId} {net : ℕ → Exchange} {i : ℕ} {xs : List ReleaseSummary}
    (hs : s.Named) (hxs : ∀ x ∈ xs, x.publisher = publisher ∧ x.name = name)
    (hserves : Serves node peer net i xs s) :
    (replicate node peer net i xs).result s = .ok () ∧
      ((replicate node peer net i xs).final s).Named ∧
      ((replicate node peer net i xs).final s).held publisher name =
        newest (s.held publisher name ∪ versions xs) ∧
      ∀ q, ¬ (q.publisher = publisher ∧ q.name = name) →
        ((replicate node peer net i xs).final s).releases.get q = s.releases.get q := by
  induction xs generalizing i s with
  | nil =>
      refine ⟨rfl, hs, ?_, fun q _ => rfl⟩
      have hnil : versions [] = ∅ := by
        ext v
        simp [versions]
      rw [hnil, Set.union_empty]
      exact (Set.Subset.antisymm (fun _ h => h.1) fun _ h => newest_held h).symm
  | cons x xs ih =>
      obtain ⟨rel, ha, rfl, hfetch, hserves⟩ := hserves
      obtain ⟨hp, hn⟩ := hxs _ List.mem_cons_self
      have hstep : replicate node peer net i (rel.summary :: xs) = (do
          let _ ← attempt ((net i).fetch node rel [peer])
          replicate node peer net (i + 1) xs) := by
        rw [replicate, ha]
      have hattempt : (attempt ((net i).fetch node rel [peer]) : Op _).result s = .ok (.ok ()) := by
        rw [result_attempt, hfetch]
      obtain ⟨hres, hnamed, hheld, hframe⟩ := ih (named_fetch hs hfetch)
        (fun y hy => hxs y (List.mem_cons_of_mem _ hy)) hserves
      rw [hstep, result_bind_of_ok hattempt, final_bind_of_ok hattempt, final_attempt]
      refine ⟨hres, hnamed, ?_, fun q hq => (hframe q hq).trans ?_⟩
      · rw [hheld, held_fetch hfetch hp hn, versions_cons, ← Set.union_assoc]
        exact newest_union ((finite_held s publisher name).union (Set.finite_singleton _))
      · refine get_fetch_of_ne hfetch fun hr => hq ?_
        rw [hr]
        exact ⟨hp, hn⟩

/-! ### One announcement, and one image of an inventory -/

theorem named_enforceWindow (hs : s.Named) (publisher : PublisherId) (name : Str) :
    ((enforceWindow node publisher name).final s).Named := by
  intro r rel hget
  rcases written_of_get_final hget with hget | ⟨-, hw⟩
  · exact hs r rel hget
  · exact absurd rfl (emits_enforceWindow node publisher name s _ hw rel)

/-- A store to which the versions `W` came, when its window is enforced. -/
theorem held_merge {W : Set (Str × ℕ)} {t : Store} (hother : publisher ≠ node.id)
    (hw : (node.policy.window publisher name).isEmpty = false) (hn : validateName name = .ok ())
    (ht : t.Named) (hW : W.Finite)
    (hheld : t.held publisher name = newest (s.held publisher name ∪ W)) :
    (enforceWindow node publisher name).result t = .ok () ∧
      ((enforceWindow node publisher name).final t).held publisher name =
        (node.policy.window publisher name).inside (s.held publisher name ∪ W) := by
  obtain ⟨hres, hinside, -⟩ := enforceWindow_spec hother hw ht hn
  refine ⟨hres, ?_⟩
  rw [hinside, hheld]
  exact window_newest ((finite_held s publisher name).union hW)

theorem get_enforceWindow_of_ne (hother : publisher ≠ node.id) (hs : s.Named)
    (hn : validateName name = .ok ()) {q : Ref}
    (hq : ¬ (q.publisher = publisher ∧ q.name = name)) :
    ((enforceWindow node publisher name).final s).releases.get q = s.releases.get q := by
  cases hw : (node.policy.window publisher name).isEmpty with
  | true => simp [enforceWindow, hother, hw]
  | false => exact (enforceWindow_spec hother hw hs hn).2.2 q (Or.inl hq)

/-- An image the policy does not cover is left alone. -/
theorem chosenOf_uncovered (remote : List ReleaseSummary)
    (hw : (node.policy.window publisher name).isEmpty = true) :
    chosenOf node ⟨publisher, name, remote⟩ s = [] := by
  simp [chosenOf, selectWanted, hw, result, pure]

/-- What handling a peer's list of an image does: it returns; the other images stay; and the image
holds what is inside its window of what was held and what was wanted. -/
theorem syncRepo_spec {peer : EndpointId} {net : ℕ → Exchange} {remote : List ReleaseSummary}
    (hother : publisher ≠ node.id) (hn : validateName name = .ok ()) (hs : s.Named)
    (hremote : ∀ x ∈ remote, x.publisher = publisher ∧ x.name = name)
    (hserves : Serves node peer net 0 (chosenOf node ⟨publisher, name, remote⟩ s) s) :
    (syncRepo node peer net ⟨publisher, name, remote⟩).result s = .ok () ∧
      ((syncRepo node peer net ⟨publisher, name, remote⟩).final s).Named ∧
      (∀ q, ¬ (q.publisher = publisher ∧ q.name = name) →
        ((syncRepo node peer net ⟨publisher, name, remote⟩).final s).releases.get q =
          s.releases.get q) ∧
      ((node.policy.window publisher name).isEmpty = false →
        (node.policy.window publisher name).inside (s.held publisher name) =
          s.held publisher name →
        ((syncRepo node peer net ⟨publisher, name, remote⟩).final s).held publisher name =
          (node.policy.window publisher name).inside (s.held publisher name ∪
            (node.policy.window publisher name).wanted
              (tagTimes (s.localReleases publisher name)) (remote.map ReleaseSummary.version))) := by
  have hwanted := selectWanted_ok node publisher remote hs hn
  have hquiet := (final_of_emits_false
    (emits_selectWanted node.policy publisher name remote) s).2
  rw [syncRepo, result_bind_of_ok hwanted, final_bind_of_ok hwanted, hquiet]
  by_cases hnone : (chosenOf node ⟨publisher, name, remote⟩ s).isEmpty = true
  · rw [if_pos hnone]
    refine ⟨rfl, hs, fun q _ => rfl, fun hw henforced => ?_⟩
    have hempty : versions (chosenOf node ⟨publisher, name, remote⟩ s) = ∅ := by
      rw [List.isEmpty_iff.mp hnone]
      ext v
      simp [versions]
    rw [← versions_chosenOf remote hs hn hw, hempty, Set.union_empty, henforced]
    rfl
  · rw [if_neg hnone]
    have hw : (node.policy.window publisher name).isEmpty = false := by
      cases hw : (node.policy.window publisher name).isEmpty with
      | true => exact absurd (List.isEmpty_iff.mpr (chosenOf_uncovered remote hw)) hnone
      | false => rfl
    have hchosen : ∀ x ∈ chosenOf node ⟨publisher, name, remote⟩ s,
        x.publisher = publisher ∧ x.name = name := fun x hx =>
      hremote x (mem_of_mem_chosenOf hx).1
    obtain ⟨hres, hnamed, hheld, hframe⟩ := replicate_spec hs hchosen hserves
    obtain ⟨henforce, hinside⟩ := held_merge hother hw hn hnamed (finite_versions _) hheld
    rw [result_bind_of_ok hres, final_bind_of_ok hres]
    refine ⟨henforce, named_enforceWindow hnamed _ _, fun q hq => ?_, fun _ _ => ?_⟩
    · rw [get_enforceWindow_of_ne hother hnamed hn hq, hframe q hq]
    · rw [hinside, versions_chosenOf remote hs hn hw]

/-- An announcement, and where its release is asked for. -/
structure Announced where
  summary : ReleaseSummary
  source : EndpointId
  net : EndpointId → Exchange

namespace Announced

/-- The peers that are asked. -/
def providers (a : Announced) : List EndpointId :=
  if a.summary.publisher ≠ a.source then [a.source, a.summary.publisher] else [a.source]

/-- If the release is wanted, the request is answered with it, and it is fetched. -/
def Served (node : Node) (s : Store) (a : Announced) : Prop :=
  chosenOf node ⟨a.summary.publisher, a.summary.name, [a.summary]⟩ s ≠ [] →
    ∃ rel, (a.net a.source).answer = .ok (some rel) ∧ rel.summary = a.summary ∧
      ((a.net a.source).fetch node rel a.providers).result s = .ok ()

end Announced

/-- What an announcement does to an image of another publisher. -/
theorem onAnnouncement_spec {a : Announced} (hother : publisher ≠ node.id)
    (hn : validateName name = .ok ()) (hs : s.Named)
    (hw : (node.policy.window publisher name).isEmpty = false)
    (henforced : (node.policy.window publisher name).inside (s.held publisher name) =
      s.held publisher name)
    (himage : a.summary.publisher = publisher ∧ a.summary.name = name) (hserved : a.Served node s) :
    ((onAnnouncement node a.summary a.source a.net).final s).Named ∧
      ((onAnnouncement node a.summary a.source a.net).final s).held publisher name =
        (node.policy.window publisher name).inside
          (s.held publisher name ∪ {a.summary.version}) := by
  obtain ⟨rfl, rfl⟩ := himage
  obtain ⟨hnodup, hlocal⟩ := tagTimes_localReleases a.summary.publisher hs hn
  have hwanted := selectWanted_ok node a.summary.publisher [a.summary] hs hn
  have hquiet := (final_of_emits_false
    (emits_selectWanted node.policy a.summary.publisher a.summary.name [a.summary]) s).2
  -- what is wanted fills the window as what is announced does
  have hmerge := Window.inside_wanted_iff.mpr
    (Window.unwasted_singleton (w := node.policy.window a.summary.publisher a.summary.name) hnodup
      a.summary.version)
  have hone : {x | x ∈ [a.summary.version]} = {a.summary.version} := by
    ext x
    exact List.mem_singleton
  have hversions := versions_chosenOf [a.summary] hs hn hw
  rw [List.map_singleton] at hversions
  rw [hlocal, hone, ← hversions] at hmerge
  rw [onAnnouncement, final_bind_of_ok hwanted, hquiet]
  by_cases hnone : chosenOf node ⟨a.summary.publisher, a.summary.name, [a.summary]⟩ s = []
  · rw [if_pos (List.isEmpty_iff.mpr hnone)]
    have hempty : versions [] = ∅ := by
      ext v
      simp [versions]
    rw [hnone, hempty, Set.union_empty, henforced] at hmerge
    exact ⟨hs, hmerge⟩
  · rw [if_neg (mt List.isEmpty_iff.mp hnone)]
    obtain ⟨rel, ha, hrel, hfetch⟩ := hserved hnone
    obtain ⟨ps, hps⟩ : ∃ ps, a.providers = a.source :: ps := by
      rw [Announced.providers]
      split
      · exact ⟨_, rfl⟩
      · exact ⟨_, rfl⟩
    have hask : askProviders node a.summary a.providers a.net a.providers = (do
        (a.net a.source).fetch node rel a.providers
        enforceWindow node a.summary.publisher a.summary.name) := by
      conv_lhs => rw [hps]
      rw [askProviders, ha, ← hps]
    have hpublisher : rel.publisher = a.summary.publisher :=
      congrArg ReleaseSummary.publisher hrel
    have hname : rel.name = a.summary.name := congrArg ReleaseSummary.name hrel
    have hheld := held_fetch hfetch hpublisher hname
    have hnamed := named_fetch hs hfetch
    rw [hrel] at hheld
    obtain ⟨-, hinside⟩ := held_merge hother hw hn hnamed (Set.finite_singleton _) hheld
    show ((askProviders node a.summary a.providers a.net a.providers).final s).Named ∧
      ((askProviders node a.summary a.providers a.net a.providers).final s).held _ _ = _
    rw [hask, final_bind_of_ok hfetch]
    exact ⟨named_enforceWindow hnamed _ _, hinside⟩

end

end Ocid
