import Ocid.Lib.Windows
import Ocid.Replication.Selection

/-!
# Replication — Windows — what a window keeps of an image

The records held of an image are seen as versions, pairs of a tag and a timestamp (`Store.held`),
and a policy's `Window` as the window over such pairs (`Window.inside`).

`select` computes it from a list whose consecutive repetitions of a tag are dropped.  Where every
tag is known once, it selects the tags inside the window (`mem_select_iff_inside`); where a tag is
known with two timestamps both may count, and a tag inside the window may be left out.
`enforceWindow` leaves of an image exactly what is inside its window (`enforceWindow_spec`).
-/

namespace Ocid

open Call Windows

/-! ### Selecting tags -/

namespace Window

variable {w : Window} {known : List (Str × ℕ)} {x y : Str × ℕ}

/-- The tags that are kept however old they are. -/
def always (w : Window) : Set Str := {t | w.full = true ∨ t ∈ w.tags}

/-- The versions inside the window. -/
def inside (w : Window) (K : Set (Str × ℕ)) : Set (Str × ℕ) := window w.always w.last K

/-- The known versions from the newest on, without consecutive ones of one tag. -/
def sorted (known : List (Str × ℕ)) : List (Str × ℕ) :=
  (known.insertionSort before).destutter fun a b => a.1 ≠ b.1

theorem before_iff : before x y ↔ Before x y ∨ x = y := by
  simp only [before, Before]
  constructor
  · rintro (h | ⟨ht, hle⟩)
    · exact Or.inl (Or.inl h)
    · rcases lt_or_eq_of_le hle with hlt | heq
      · exact Or.inl (Or.inr ⟨ht, hlt⟩)
      · exact Or.inr (Prod.ext heq.symm ht)
  · rintro ((h | ⟨ht, hlt⟩) | rfl)
    · exact Or.inl h
    · exact Or.inr ⟨ht, le_of_lt hlt⟩
    · exact Or.inr ⟨rfl, le_refl _⟩

instance : Std.Total before where
  total x y := by
    rw [before_iff, before_iff]
    by_cases h : x = y
    · exact Or.inl (Or.inr h)
    · exact (before_total h).imp Or.inl Or.inl

instance : IsTrans (Str × ℕ) before where
  trans x y z h h' := by
    rw [before_iff] at h h' ⊢
    rcases h with h | rfl
    · rcases h' with h' | rfl
      · exact Or.inl (h.trans h')
      · exact Or.inl h
    · exact h'

theorem pairwise_insertionSort (known : List (Str × ℕ)) :
    (known.insertionSort before).Pairwise fun x y => Before x y ∨ x = y :=
  (List.pairwise_insertionSort before known).imp fun h => before_iff.mp h

theorem pairwise_sorted (known : List (Str × ℕ)) : (sorted known).Pairwise Before :=
  pairwise_destutter (pairwise_insertionSort known)

theorem mem_of_mem_sorted (h : x ∈ sorted known) : x ∈ known :=
  (List.mem_insertionSort _).mp ((List.destutter_sublist _ _).subset h)

theorem mem_sorted (h : Newest {y | y ∈ known} x) : x ∈ sorted known :=
  mem_destutter (pairwise_insertionSort known) ((List.mem_insertionSort _).mpr h.1)
    fun y hy => h.2 y ((List.mem_insertionSort _).mp hy)

/-- The tag of a newest version is selected when it is always kept, or when fewer entries than the
window has places are before it. -/
theorem mem_select_iff (h : Newest {y | y ∈ known} x) :
    x.1 ∈ w.select known ↔ x.1 ∈ w.always ∨ ahead (sorted known) x < w.last := by
  have hx := mem_sorted h
  have htake : x.1 ∈ ((sorted known).take w.last).map Prod.fst ↔ ahead (sorted known) x < w.last :=
    mem_names_take_iff (pairwise_sorted known) hx fun y hy => h.2 y (mem_of_mem_sorted hy)
  rw [sorted] at htake hx
  simp only [select, always, Set.mem_ofPred_eq, sorted]
  by_cases hfull : w.full = true
  · simp only [hfull, if_true, true_or, iff_true]
    exact List.mem_append_right _ (List.mem_map_of_mem hx)
  · by_cases hlast : 0 < w.last
    · simp only [hfull, hlast, if_true, false_or, List.mem_append, Bool.false_eq_true, if_false]
      rw [htake]
    · simp only [hfull, hlast, if_false, false_or, Bool.false_eq_true]
      refine (or_iff_left fun hlt => hlast ?_).symm
      exact Nat.lt_of_le_of_lt (Nat.zero_le _) hlt

/-- Where every tag is known once, the tags inside the window are selected. -/
theorem mem_select_iff_inside (hnodup : (known.map Prod.fst).Nodup) (hx : x ∈ known) :
    x.1 ∈ w.select known ↔ x ∈ w.inside {y | y ∈ known} := by
  have hone : ∀ y ∈ known, y.1 = x.1 → y = x := fun y hy hyx =>
    List.inj_on_of_nodup_map hnodup hy hx hyx
  have hnew : Newest {y | y ∈ known} x := ⟨hx, fun y hy hyx => by rw [hone y hy hyx]⟩
  rw [mem_select_iff hnew, inside, window, Set.mem_ofPred_eq, and_iff_right hnew]
  refine or_congr_right ⟨fun h => ?_, fun h => ?_⟩
  · exact not_crowded_of_lt (List.finite_toSet known) (fun y hy => mem_sorted hy) h
  · refine lt_of_not_crowded (fun y hy => mem_of_mem_sorted hy) ?_ h
    -- the sorted list repeats no tag either
    have hsub : (sorted known).Sublist (known.insertionSort before) := List.destutter_sublist _ _
    have hsorted : ((known.insertionSort before).map Prod.fst).Nodup :=
      ((List.perm_insertionSort before known).map Prod.fst).nodup_iff.mpr hnodup
    exact hsorted.sublist ((List.filter_sublist.trans hsub).map Prod.fst)

end Window

/-! ### What is held of an image -/

section
variable [External] {s : Store} {publisher : PublisherId} {name : Str}

/-- The versions held of an image. -/
def Store.held (s : Store) (publisher : PublisherId) (name : Str) : Set (Str × ℕ) :=
  {x | ∃ rel, s.releases.get ⟨publisher, name, x.1⟩ = some rel ∧ rel.payload.timestamp = x.2}

/-- Every record is stored under a valid name and a valid tag. -/
def Store.Named (s : Store) : Prop :=
  ∀ r rel, s.releases.get r = some rel → validateName r.name = .ok () ∧ validateTag r.tag = .ok ()

theorem held_unique {x y : Str × ℕ} (hx : x ∈ s.held publisher name)
    (hy : y ∈ s.held publisher name) (h : x.1 = y.1) : x = y := by
  obtain ⟨rel, hget, ht⟩ := hx
  obtain ⟨rel', hget', ht'⟩ := hy
  rw [h] at hget
  cases hget.symm.trans hget'
  exact Prod.ext h (ht.symm.trans ht')

/-- Each is the newest held of its tag. -/
theorem newest_held {x : Str × ℕ} (hx : x ∈ s.held publisher name) :
    Newest (s.held publisher name) x :=
  ⟨hx, fun y hy hyx => by rw [held_unique hy hx hyx]⟩

theorem finite_held (s : Store) (publisher : PublisherId) (name : Str) :
    (s.held publisher name).Finite := by
  refine (List.finite_toSet (tagTimes s.releases.rows)).subset ?_
  rintro x ⟨rel, hget, ht⟩
  refine List.mem_map.mpr ⟨rel, Table.mem_of_get hget, Prod.ext ?_ ht⟩
  exact congrArg Ref.tag (Table.key_of_get hget)

theorem held_congr {t : Store}
    (h : ∀ tag, t.releases.get ⟨publisher, name, tag⟩ = s.releases.get ⟨publisher, name, tag⟩) :
    t.held publisher name = s.held publisher name := by
  ext x
  simp only [Store.held, Set.mem_ofPred_eq, h]

/-! ### Listing an image -/

theorem releasesAt_ok {ts : List Str} {rs : List Release}
    (h : (releasesAt publisher name ts).result s = .ok rs) :
    rs = ts.filterMap fun t => s.releases.get ⟨publisher, name, t⟩ := by
  induction ts generalizing rs with
  | nil =>
      cases h
      rfl
  | cons t ts ih =>
      obtain ⟨r, hr, h⟩ := result_bind_ok.mp h
      have hquiet := (final_of_emits_false (emits_getRelease publisher name t) s).2
      rw [hquiet] at h
      obtain ⟨rs', hrs, h⟩ := result_bind_ok.mp h
      cases h
      have hget : r = s.releases.get ⟨publisher, name, t⟩ := by
        cases hp : releasePath publisher name t with
        | error e =>
            rw [result, getRelease_apply_error hp] at hr
            cases hr
        | ok q =>
            rw [result, getRelease_apply hp] at hr
            obtain ⟨-, -, rfl⟩ := releasePath_eq_ok.mp hp
            cases hr
            rfl
      rw [ih hrs, List.filterMap_cons, hget]
      cases s.releases.get ⟨publisher, name, t⟩ <;> rfl

theorem releasesAt_returns {ts : List Str} (hn : validateName name = .ok ())
    (ht : ∀ t ∈ ts, validateTag t = .ok ()) :
    ∃ rs, (releasesAt publisher name ts).result s = .ok rs := by
  induction ts with
  | nil => exact ⟨[], rfl⟩
  | cons t ts ih =>
      obtain ⟨rs, hrs⟩ := ih fun u hu => ht u (List.mem_cons_of_mem _ hu)
      have hp : releasePath publisher name t = .ok ⟨publisher, name, t⟩ :=
        releasePath_eq_ok.mpr ⟨ht t List.mem_cons_self, hn, rfl⟩
      have hget : (getRelease publisher name t).result s =
          .ok (s.releases.get ⟨publisher, name, t⟩) := by
        rw [result, getRelease_apply hp]
      have hquiet := (final_of_emits_false (emits_getRelease publisher name t) s).2
      refine ⟨_, result_bind_ok.mpr ⟨_, hget, result_bind_ok.mpr ⟨rs, ?_, rfl⟩⟩⟩
      rw [hquiet]
      exact hrs

/-- The records of an image, each tag once. -/
theorem localReleasesOf_ok {rs : List Release}
    (h : (localReleasesOf publisher name).result s = .ok rs) :
    (∀ rel, rel ∈ rs ↔ s.releases.get ⟨publisher, name, rel.payload.tag⟩ = some rel) ∧
      ((tagTimes rs).map Prod.fst).Nodup ∧ {x | x ∈ tagTimes rs} = s.held publisher name := by
  obtain ⟨ts, hts, h⟩ := result_bind_ok.mp h
  rw [(final_of_emits_false (emits_listTags publisher name) s).2] at h
  obtain ⟨hnodup, hmem⟩ := listTags_ok hts
  obtain rfl := releasesAt_ok h
  have htag : ∀ t rel, s.releases.get ⟨publisher, name, t⟩ = some rel → rel.payload.tag = t :=
    fun t rel hget => congrArg Ref.tag (Table.key_of_get hget)
  have hrs : ∀ rel, rel ∈ (ts.filterMap fun t => s.releases.get ⟨publisher, name, t⟩) ↔
      s.releases.get ⟨publisher, name, rel.payload.tag⟩ = some rel := by
    intro rel
    rw [List.mem_filterMap]
    constructor
    · rintro ⟨t, -, hget⟩
      rwa [htag t rel hget]
    · intro hget
      exact ⟨_, (hmem _).mpr ⟨rel, hget⟩, hget⟩
  refine ⟨hrs, ?_, ?_⟩
  · -- the tags are those that were listed
    have hsub : ∀ l : List Str, ((tagTimes (l.filterMap fun t =>
        s.releases.get ⟨publisher, name, t⟩)).map Prod.fst).Sublist l := by
      intro l
      induction l with
      | nil => exact List.Sublist.slnil
      | cons t l ih =>
          rw [List.filterMap_cons]
          cases hget : s.releases.get ⟨publisher, name, t⟩ with
          | none => exact ih.cons _
          | some rel =>
              simp only [tagTimes, List.map_cons, htag t rel hget]
              exact ih.cons_cons _
    exact hnodup.sublist (hsub ts)
  · ext x
    simp only [Set.mem_ofPred_eq, tagTimes, List.mem_map, hrs]
    constructor
    · rintro ⟨rel, hget, rfl⟩
      exact ⟨rel, hget, rfl⟩
    · rintro ⟨rel, hget, ht⟩
      have := htag _ _ hget
      exact ⟨rel, this ▸ hget, Prod.ext this ht⟩

theorem localReleasesOf_returns (hs : s.Named) (hn : validateName name = .ok ()) :
    ∃ rs, (localReleasesOf publisher name).result s = .ok rs := by
  have htags : ∃ ts, (listTags publisher name).result s = .ok ts := by
    refine ⟨_, result_bind_ok.mpr ⟨(), hn, result_bind_ok.mpr ⟨s, rfl, rfl⟩⟩⟩
  obtain ⟨ts, hts⟩ := htags
  have hvalid : ∀ t ∈ ts, validateTag t = .ok () := by
    intro t ht
    obtain ⟨rel, hget⟩ := ((listTags_ok hts).2 t).mp ht
    exact (hs _ _ hget).2
  obtain ⟨rs, hrs⟩ : ∃ rs, (releasesAt publisher name ts).result s = .ok rs :=
    releasesAt_returns hn hvalid
  refine ⟨rs, result_bind_ok.mpr ⟨ts, hts, ?_⟩⟩
  rw [(final_of_emits_false (emits_listTags publisher name) s).2]
  exact hrs

/-- The tags that are selected of the records held are those inside the window. -/
theorem mem_select_local_iff {w : Window} {rs : List Release}
    (h : (localReleasesOf publisher name).result s = .ok rs) {x : Str × ℕ}
    (hx : x ∈ s.held publisher name) :
    x.1 ∈ w.select (tagTimes rs) ↔ x ∈ w.inside (s.held publisher name) := by
  obtain ⟨-, hnodup, hheld⟩ := localReleasesOf_ok h
  rw [← hheld] at hx ⊢
  exact Window.mem_select_iff_inside hnodup hx

/-! ### Enforcing a window -/

/-- What is removed: the records listed whose tags are not selected. -/
theorem removeOutside_spec (publisher : PublisherId) (selected : List Str) {rs : List Release}
    (hn : validateName name = .ok ()) (ht : ∀ rel ∈ rs, validateTag rel.payload.tag = .ok ())
    (s : Store) :
    (∃ k, (removeOutside publisher name selected rs).result s = .ok k) ∧
      ∀ q, ((removeOutside publisher name selected rs).final s).releases.get q =
        if ∃ rel ∈ rs, rel.payload.tag ∉ selected ∧ q = ⟨publisher, name, rel.payload.tag⟩ then none
        else s.releases.get q := by
  induction rs generalizing s with
  | nil => exact ⟨⟨0, rfl⟩, fun q => (if_neg (by simp)).symm⟩
  | cons rel rs ih =>
      have ih' := ih fun r hr => ht r (List.mem_cons_of_mem _ hr)
      rw [removeOutside]
      by_cases hsel : rel.payload.tag ∈ selected
      · rw [if_pos hsel]
        refine ⟨(ih' s).1, fun q => ?_⟩
        rw [(ih' s).2 q]
        simp [hsel]
      · rw [if_neg hsel]
        have hrm := ht rel List.mem_cons_self
        obtain ⟨gone, hgone⟩ : ∃ b, (removeRelease publisher name rel.payload.tag).result s =
            .ok b := by
          rw [result, removeRelease_apply hn hrm]
          split
          · exact ⟨true, rfl⟩
          · exact ⟨false, rfl⟩
        obtain ⟨⟨k, hk⟩, hget⟩ := ih' ((removeRelease publisher name rel.payload.tag).final s)
        refine ⟨⟨_, result_bind_ok.mpr ⟨gone, hgone, result_bind_ok.mpr ⟨k, hk, rfl⟩⟩⟩, fun q => ?_⟩
        rw [final_bind_of_ok hgone, final_bind_of_ok hk, final_pure, hget,
          get_removeRelease hn hrm]
        by_cases hq : q = ⟨publisher, name, rel.payload.tag⟩
        · simp [hq, hsel]
        · simp [hq]

theorem returns_sweepBlobsLocked (dryRun : Bool) (ignore : List Str) :
    Returns (sweepBlobsLocked dryRun ignore) := by
  have hremove : ∀ d, Returns (removeBlobRef d) := fun d =>
    Returns.read.bind fun _ =>
      Returns.ite ((Returns.write _).bind fun _ => Returns.pure _) (Returns.pure _)
  have hblob : ∀ d, Returns (sweepBlob dryRun d) := fun d =>
    Returns.ite (Returns.pure _)
      ((Returns.write _).bind fun _ => (hremove d).bind fun _ => Returns.pure _)
  have hpins : ∀ live pins, Returns (sweepPins dryRun live pins) := by
    intro live pins
    induction pins with
    | nil => exact Returns.pure _
    | cons p pins ih =>
        exact Returns.ite ih (Returns.read.bind fun _ => (hblob _).bind fun _ =>
          ih.bind fun _ => Returns.pure _)
  have hentries : ∀ live pinned bs, Returns (sweepEntries dryRun live pinned bs) := by
    intro live pinned bs
    induction bs with
    | nil => exact Returns.pure _
    | cons b bs ih => exact Returns.ite ((hremove _).bind fun _ => ih) ih
  exact Returns.read.bind fun _ => (hpins _ _).bind fun _ => Returns.read.bind fun _ =>
    (hentries _ _ _).bind fun _ => Returns.pure _

/-- A sweep touches no record. -/
theorem releases_sweepBlobsLocked (dryRun : Bool) (ignore : List Str) (s : Store) :
    ((sweepBlobsLocked dryRun ignore).final s).releases = s.releases :=
  releases_final (emits_sweepBlobsLocked (fun _ => by simp [Write.part])
    (fun _ => by simp [Write.part]) _ _)

/-- The window of another publisher's image is enforced: of the image the records inside the window
stay, and every other image stays as it is. -/
theorem enforceWindow_spec {node : Node} (hother : publisher ≠ node.id)
    (hw : (node.policy.window publisher name).isEmpty = false) (hs : s.Named)
    (hn : validateName name = .ok ()) :
    (enforceWindow node publisher name).result s = .ok () ∧
      ((enforceWindow node publisher name).final s).held publisher name =
        (node.policy.window publisher name).inside (s.held publisher name) ∧
      ∀ q, ¬ (q.publisher = publisher ∧ q.name = name) ∨
          (∀ rel, s.releases.get q = some rel →
            (q.tag, rel.payload.timestamp) ∈
              (node.policy.window publisher name).inside (s.held publisher name)) →
        ((enforceWindow node publisher name).final s).releases.get q = s.releases.get q := by
  obtain ⟨rs, hrs⟩ : ∃ rs, (localReleasesOf publisher name).result s = .ok rs :=
    localReleasesOf_returns hs hn
  obtain ⟨hmem, -, -⟩ := localReleasesOf_ok hrs
  have hquiet := (final_of_emits_false (emits_localReleasesOf publisher name) s).2
  have htags : ∀ rel ∈ rs, validateTag rel.payload.tag = .ok () := fun rel hrel =>
    (hs _ _ ((hmem rel).mp hrel)).2
  generalize hwin : node.policy.window publisher name = w at hw
  obtain ⟨⟨k, hk⟩, hget⟩ := removeOutside_spec publisher (w.select (tagTimes rs)) hn htags s
  -- the sweep that may follow touches no record
  have hall : (enforceWindow node publisher name).result s = .ok () ∧
      ((enforceWindow node publisher name).final s).releases =
        ((removeOutside publisher name (w.select (tagTimes rs)) rs).final s).releases := by
    simp only [enforceWindow, hother, hwin, hw, if_false, Bool.false_eq_true]
    have hk' : (removeOutside publisher name (w.select (tagTimes rs)) rs).result
        ((localReleasesOf publisher name).final s) = .ok k := by rw [hquiet, hk]
    rw [result_bind_of_ok hrs, result_bind_of_ok hk', final_bind_of_ok hrs, final_bind_of_ok hk',
      hquiet]
    split
    · obtain ⟨c, hc⟩ := returns_sweepBlobsLocked false []
        ((removeOutside publisher name (w.select (tagTimes rs)) rs).final s)
      rw [result_bind_of_ok hc, final_bind_of_ok hc, final_pure, releases_sweepBlobsLocked]
      exact ⟨rfl, rfl⟩
    · exact ⟨rfl, rfl⟩
  have hfinal : ∀ q, ((enforceWindow node publisher name).final s).releases.get q =
      if ∃ rel ∈ rs, rel.payload.tag ∉ w.select (tagTimes rs) ∧
        q = ⟨publisher, name, rel.payload.tag⟩ then none else s.releases.get q := fun q => by
    rw [hall.2, hget]
  have hsel : ∀ tag rel, s.releases.get ⟨publisher, name, tag⟩ = some rel →
      (tag ∈ w.select (tagTimes rs) ↔
        (tag, rel.payload.timestamp) ∈ w.inside (s.held publisher name)) := fun tag rel hg =>
    mem_select_local_iff hrs (x := (tag, rel.payload.timestamp)) ⟨rel, hg, rfl⟩
  have htag : ∀ tag rel, s.releases.get ⟨publisher, name, tag⟩ = some rel →
      rel.payload.tag = tag := fun tag rel hg => congrArg Ref.tag (Table.key_of_get hg)
  refine ⟨hall.1, ?_, fun q hq => ?_⟩
  · ext x
    constructor
    · rintro ⟨rel, hg, ht⟩
      rw [hfinal] at hg
      split at hg
      · cases hg
      · rename_i hout
        have hin : x.1 ∈ w.select (tagTimes rs) := by
          by_contra hnot
          refine hout ⟨rel, (hmem rel).mpr ?_, ?_, ?_⟩
          · rw [htag _ _ hg]
            exact hg
          · rwa [htag _ _ hg]
          · rw [htag _ _ hg]
        have := (hsel _ _ hg).mp hin
        rwa [ht] at this
    · intro hx
      obtain ⟨rel, hg, ht⟩ := window_subset hx
      refine ⟨rel, ?_, ht⟩
      rw [hfinal, if_neg]
      · exact hg
      · rintro ⟨rel', -, hout, heq⟩
        have heq' : x.1 = rel'.payload.tag := congrArg Ref.tag heq
        refine hout (heq' ▸ (hsel _ _ hg).mpr ?_)
        rwa [ht]
  · rw [hfinal, if_neg]
    rintro ⟨rel, hrel, hout, rfl⟩
    have hg := (hmem rel).mp hrel
    rcases hq with hq | hq
    · exact hq ⟨rfl, rfl⟩
    · exact hout ((hsel _ _ hg).mpr (hq rel hg))

end

end Ocid
