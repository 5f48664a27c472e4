import Ocid.Replication.Windows

/-!
# Policies — Selecting — the tags a window selects

What a window should select of the known versions of an image is `Window.chosen`: the tags it names,
and of all known tags as many as it has places, in the order of their newest versions.

`select` sorts all versions and drops one only when it follows another of its tag, so a tag whose
versions stand apart takes a place each time (`turns`).  The tags chosen are those selected exactly
when no tag inside the window is pushed out that way (`Window.Undisturbed`, `selects_iff`); the order
in which versions are listed never matters.

A window selects of every list what another selects when it is full, or neither is and it has as
many places (`select_subset_iff`).
-/

namespace Ocid

open Windows

namespace Window

variable {w w' : Window} {known : List (Str × ℕ)} {x : Str × ℕ} {t : Str} {n : ℕ}

/-! ### What should be selected -/

/-- Of every known tag its newest version. -/
def newestVersions (known : List (Str × ℕ)) : List (Str × ℕ) :=
  known.dedup.filter fun x => ∀ y ∈ known, y.1 = x.1 → y.2 ≤ x.2

/-- The known tags, that of the newest version first; of one time, the greater tag first. -/
def newestFirst (known : List (Str × ℕ)) : List Str :=
  ((newestVersions known).insertionSort before).map Prod.fst

/-- The tags the window names, and the known ones that have a place in it. -/
def chosen (w : Window) (known : List (Str × ℕ)) : List Str :=
  if w.full then w.tags ++ known.map Prod.fst
  else w.tags ++ (newestFirst known).take (min w.last (known.map Prod.fst).dedup.length)

theorem mem_newestVersions : x ∈ newestVersions known ↔ Newest {y | y ∈ known} x := by
  rw [newestVersions, List.mem_filter, List.mem_dedup, decide_eq_true_eq]
  rfl

theorem exists_newestVersion (h : t ∈ known.map Prod.fst) :
    ∃ x ∈ newestVersions known, x.1 = t := by
  obtain ⟨y, hy, rfl⟩ := List.mem_map.mp h
  obtain ⟨x, hx, hxy, -⟩ := exists_newest (List.finite_toSet known) hy
  exact ⟨x, mem_newestVersions.mpr hx, hxy⟩

/-- Each tag has one. -/
theorem nodup_newestVersions (known : List (Str × ℕ)) :
    ((newestVersions known).map Prod.fst).Nodup := by
  refine (known.nodup_dedup.filter _).map_on fun x hx y hy hxy => ?_
  have hx := mem_newestVersions.mp hx
  have hy := mem_newestVersions.mp hy
  exact Prod.ext hxy (le_antisymm (hy.2 x hx.1 hxy) (hx.2 y hy.1 hxy.symm))

theorem nodup_newestFirst (known : List (Str × ℕ)) : (newestFirst known).Nodup :=
  ((List.perm_insertionSort before (newestVersions known)).map Prod.fst).nodup_iff.mpr
    (nodup_newestVersions known)

theorem mem_newestFirst : t ∈ newestFirst known ↔ t ∈ known.map Prod.fst := by
  simp only [newestFirst, List.mem_map, List.mem_insertionSort]
  constructor
  · rintro ⟨x, hx, rfl⟩
    exact ⟨x, (mem_newestVersions.mp hx).1, rfl⟩
  · rintro ⟨y, hy, rfl⟩
    exact exists_newestVersion (List.mem_map_of_mem hy)

theorem length_newestFirst (known : List (Str × ℕ)) :
    (newestFirst known).length = (known.map Prod.fst).dedup.length := by
  refine List.Perm.length_eq ((List.perm_ext_iff_of_nodup (nodup_newestFirst known)
    (List.nodup_dedup _)).mpr fun t => ?_)
  rw [mem_newestFirst, List.mem_dedup]

/-- A tag is among the first ones when fewer have a version before its newest. -/
theorem mem_take_newestFirst (hx : x ∈ newestVersions known) :
    x.1 ∈ (newestFirst known).take n ↔ namesAhead known x < n := by
  set D := (newestVersions known).insertionSort before with hD
  have hnewest := mem_newestVersions.mp hx
  have hmem : ∀ {y}, y ∈ D ↔ Newest {y | y ∈ known} y := fun {y} =>
    (List.mem_insertionSort _).trans mem_newestVersions
  have hnames : (D.map Prod.fst).Nodup := nodup_newestFirst known
  have hpair : D.Pairwise Before :=
    ((pairwise_insertionSort _).and (List.Nodup.of_map _ hnames)).imp fun h => h.1.resolve_right h.2
  rw [newestFirst, ← hD, ← List.map_take,
    mem_names_take_iff hpair (hmem.mpr hnewest) fun y hy => hnewest.2 y (hmem.mp hy).1]
  have hcrowded : ahead D x < n ↔ ¬ Crowded n {y | y ∈ known} x := by
    refine ⟨not_crowded_of_lt (List.finite_toSet known) fun y hy => hmem.mpr hy,
      lt_of_not_crowded (fun y hy => (hmem.mp hy).1) ?_⟩
    exact hnames.sublist (List.filter_sublist.map Prod.fst)
  rw [hcrowded, crowded_iff, not_le]

/-! ### What is selected -/

theorem mem_names_sorted : t ∈ (sorted known).map Prod.fst ↔ t ∈ known.map Prod.fst := by
  constructor
  · intro h
    obtain ⟨x, hx, rfl⟩ := List.mem_map.mp h
    exact List.mem_map_of_mem (mem_of_mem_sorted hx)
  · intro h
    obtain ⟨x, hx, rfl⟩ := exists_newestVersion h
    exact List.mem_map_of_mem (mem_sorted (mem_newestVersions.mp hx))

theorem mem_select : t ∈ w.select known ↔ t ∈ w.tags ∨ (w.full = true ∧ t ∈ known.map Prod.fst) ∨
    (w.full = false ∧ t ∈ ((sorted known).take w.last).map Prod.fst) := by
  rw [select, ← sorted]
  by_cases hfull : w.full = true
  · simp only [hfull, if_true, List.mem_append, mem_names_sorted, true_and, Bool.true_eq_false,
      false_and, or_false]
  · have hfull := Bool.not_eq_true _ ▸ hfull
    by_cases hlast : 0 < w.last
    · simp [hfull, hlast]
    · simp [hfull, Nat.eq_zero_of_not_pos hlast]

theorem mem_chosen : t ∈ w.chosen known ↔ t ∈ w.tags ∨ (w.full = true ∧ t ∈ known.map Prod.fst) ∨
    (w.full = false ∧ t ∈ (newestFirst known).take w.last) := by
  rw [chosen, ← length_newestFirst, ← List.take_take, List.take_length]
  cases w.full <;> simp

theorem ahead_sorted (known : List (Str × ℕ)) (x : Str × ℕ) :
    ahead (sorted known) x = turns known x :=
  ahead_destutter (pairwise_insertionSort known) (fun _ => List.mem_insertionSort _) x

/-- Of a newest version's tag: it is selected when fewer turns than there are places are before. -/
theorem mem_select_newest (hx : x ∈ newestVersions known) : x.1 ∈ w.select known ↔
    (w.full = true ∨ x.1 ∈ w.tags) ∨ turns known x < w.last := by
  rw [mem_select_iff (mem_newestVersions.mp hx), ahead_sorted]
  rfl

theorem mem_chosen_newest (hx : x ∈ newestVersions known) : x.1 ∈ w.chosen known ↔
    (w.full = true ∨ x.1 ∈ w.tags) ∨ namesAhead known x < w.last := by
  have hin : x.1 ∈ known.map Prod.fst := List.mem_map_of_mem (mem_newestVersions.mp hx).1
  rw [mem_chosen, mem_take_newestFirst hx]
  cases w.full <;> simp [hin]

/-- There are no fewer turns than tags. -/
theorem namesAhead_le_turns (known : List (Str × ℕ)) (x : Str × ℕ) :
    namesAhead known x ≤ turns known x := by
  by_contra hlt
  rw [← ahead_sorted] at hlt
  have hcrowded : Crowded (namesAhead known x) {y | y ∈ known} x := crowded_iff.mpr (le_refl _)
  exact not_crowded_of_lt (List.finite_toSet known) (fun y hy => mem_sorted hy)
    (not_le.mp hlt) hcrowded

/-! ### When what should be selected is -/

/-- No tag with a place in the window is pushed out of it by tags that take several. -/
def Undisturbed (w : Window) (known : List (Str × ℕ)) : Prop :=
  w.full = true ∨ ∀ x ∈ newestVersions known, x.1 ∉ w.tags → namesAhead known x < w.last →
    turns known x < w.last

instance : Decidable (w.Undisturbed known) :=
  inferInstanceAs (Decidable (w.full = true ∨ ∀ x ∈ newestVersions known, x.1 ∉ w.tags →
    namesAhead known x < w.last → turns known x < w.last))

/-- What is selected is what should be, whatever the order of the versions known and whatever is
known of older ones. -/
structure Selects (w : Window) (known : List (Str × ℕ)) : Prop where
  chosen : ∀ t, t ∈ w.select known ↔ t ∈ w.chosen known
  order : ∀ known', known'.Perm known → w.select known' = w.select known
  older : ∀ t, t ∈ w.select known ↔ t ∈ w.select (newestVersions known)

theorem select_perm {known' : List (Str × ℕ)} (h : known'.Perm known) :
    w.select known' = w.select known := by
  have hsort : known'.insertionSort before = known.insertionSort before := by
    refine List.Perm.eq_of_pairwise (fun a b _ _ hab hba => ?_)
      (List.pairwise_insertionSort before known') (List.pairwise_insertionSort before known) ?_
    · rcases before_iff.mp hab with hab | rfl
      · rcases before_iff.mp hba with hba | rfl
        · exact absurd (hab.trans hba) (not_before_self _)
        · rfl
      · rfl
    · exact (List.perm_insertionSort before known').trans
        (h.trans (List.perm_insertionSort before known).symm)
  simp only [select, hsort]

theorem chosen_newestVersions : t ∈ w.chosen (newestVersions known) ↔ t ∈ w.chosen known := by
  have hidem : newestVersions (newestVersions known) = newestVersions known := by
    have hnodup : (newestVersions known).Nodup := known.nodup_dedup.filter _
    rw [newestVersions, List.dedup_eq_self.mpr hnodup, List.filter_eq_self]
    intro x hx
    exact decide_eq_true fun y hy hyx =>
      (mem_newestVersions.mp hx).2 y (mem_newestVersions.mp hy).1 hyx
  have hnames : t ∈ (newestVersions known).map Prod.fst ↔ t ∈ known.map Prod.fst := by
    rw [← mem_newestFirst, ← mem_newestFirst, newestFirst, newestFirst, hidem]
  rw [mem_chosen, mem_chosen, newestFirst, newestFirst, hidem, hnames]

theorem chosen_iff : (∀ t, t ∈ w.select known ↔ t ∈ w.chosen known) ↔ w.Undisturbed known := by
  by_cases hfull : w.full = true
  · refine iff_of_true (fun t => ?_) (Or.inl hfull)
    rw [mem_select, mem_chosen]
    simp [hfull]
  · rw [Undisturbed, or_iff_right hfull]
    constructor
    · intro h x hx htags hnames
      have hin := (h x.1).mpr ((mem_chosen_newest hx).mpr (Or.inr hnames))
      exact ((mem_select_newest hx).mp hin).resolve_left (not_or.mpr ⟨hfull, htags⟩)
    · intro h t
      by_cases hknown : t ∈ known.map Prod.fst
      · obtain ⟨x, hx, rfl⟩ := exists_newestVersion hknown
        rw [mem_select_newest hx, mem_chosen_newest hx]
        constructor
        · exact Or.imp_right fun hlt => Nat.lt_of_le_of_lt (namesAhead_le_turns known x) hlt
        · rintro (halways | hlt)
          · exact Or.inl halways
          · by_cases htags : x.1 ∈ w.tags
            · exact Or.inl (Or.inr htags)
            · exact Or.inr (h x hx htags hlt)
      · -- a tag that is not known is in neither list, or named
        have hsorted : t ∉ ((sorted known).take w.last).map Prod.fst := fun ht =>
          hknown (mem_names_sorted.mp ((List.take_sublist _ _).map _ |>.subset ht))
        have hfirst : t ∉ (newestFirst known).take w.last := fun ht =>
          hknown (mem_newestFirst.mp (List.mem_of_mem_take ht))
        rw [mem_select, mem_chosen]
        simp only [hknown, hsorted, hfirst, and_false, or_false]

/-- Where every tag is known once, nothing is pushed out. -/
theorem undisturbed_of_nodup (h : (known.map Prod.fst).Nodup) : w.Undisturbed known := by
  refine Or.inr fun x hx _ hnames => ?_
  rw [← ahead_sorted]
  refine lt_of_not_crowded (K := {y | y ∈ known}) (fun y hy => mem_of_mem_sorted hy) ?_
    fun hc => Nat.not_lt.mpr (crowded_iff.mp hc) hnames
  have hsub : (sorted known).Sublist (known.insertionSort before) := List.destutter_sublist _ _
  have hsorted : ((known.insertionSort before).map Prod.fst).Nodup :=
    ((List.perm_insertionSort before known).map Prod.fst).nodup_iff.mpr h
  exact hsorted.sublist ((List.filter_sublist.trans hsub).map Prod.fst)

/-- **What should be selected is, exactly when no tag is pushed out.** -/
theorem selects_iff (w : Window) (known : List (Str × ℕ)) :
    w.Selects known ↔ w.Undisturbed known := by
  refine ⟨fun h => chosen_iff.mp h.chosen, fun h => ?_⟩
  have hchosen := chosen_iff.mpr h
  refine ⟨hchosen, fun known' hperm => select_perm hperm, fun t => ?_⟩
  have hnewest := chosen_iff.mpr (undisturbed_of_nodup (w := w) (nodup_newestVersions known))
  rw [hchosen t, hnewest t, chosen_newestVersions]

/-- The local and the remote version of one tag, with another tag's between them, take two of three
places. -/
theorem twice_known_takes_two_places :
    ¬ Selects ⟨false, 3, []⟩ [("c", 1), ("a", 0), ("c", 3), ("b", 2)] := by
  intro h
  have hchosen : "a".toList ∈ chosen ⟨false, 3, []⟩ [("c", 1), ("a", 0), ("c", 3), ("b", 2)] := by
    decide +kernel
  have hselect : "a".toList ∉ select ⟨false, 3, []⟩ [("c", 1), ("a", 0), ("c", 3), ("b", 2)] := by
    decide +kernel
  exact hselect ((h.chosen _).mpr hchosen)

/-! ### Windows that select more -/

/-- The second window is full, or has as many places as the first, and names its tags. -/
def Narrower (w w' : Window) : Prop :=
  w.tags ⊆ w'.tags ∧ (w'.full = true ∨ (w.full = false ∧ w.last ≤ w'.last))

theorem select_subset (h : w.Narrower w') (known : List (Str × ℕ)) :
    w.select known ⊆ w'.select known := by
  intro t ht
  obtain ⟨htags, hplaces⟩ := h
  rw [mem_select] at ht ⊢
  rcases ht with ht | ⟨hfull, ht⟩ | ⟨-, ht⟩
  · exact Or.inl (htags ht)
  · rcases hplaces with hfull' | ⟨hnot, -⟩
    · exact Or.inr (Or.inl ⟨hfull', ht⟩)
    · rw [hfull] at hnot
      cases hnot
  · cases hfull' : w'.full with
    | true =>
        have hin := (List.take_sublist w.last (sorted known)).map Prod.fst |>.subset ht
        exact Or.inr (Or.inl ⟨rfl, mem_names_sorted.mp hin⟩)
    | false =>
        have hle : w.last ≤ w'.last := by
          rcases hplaces with h | ⟨-, hle⟩
          · rw [h] at hfull'
            cases hfull'
          · exact hle
        exact Or.inr (Or.inr ⟨rfl, (List.take_sublist_take_left hle).map Prod.fst |>.subset ht⟩)

/-- As many tags as one likes that are not among given ones. -/
theorem exists_fresh (ts : List Str) (n : ℕ) :
    ∃ fresh : List Str, fresh.Nodup ∧ fresh.length = n ∧ ∀ t ∈ fresh, t ∉ ts := by
  obtain ⟨F, hF, hcard⟩ :=
    (List.finite_toSet ts).infinite_compl.exists_subset_card_eq n
  refine ⟨F.toList, F.nodup_toList, ?_, fun t ht => hF (Finset.mem_toList.mp ht)⟩
  rw [Finset.length_toList, hcard]

/-- **A window selects of every list what another selects exactly when it is no narrower.** -/
theorem select_subset_iff : (∀ known, w.select known ⊆ w'.select known) ↔ w.Narrower w' := by
  refine ⟨fun h => ⟨fun t ht => ?_, ?_⟩, fun h => select_subset h⟩
  · -- of no versions the tags named are selected
    have hin := h [] (mem_select.mpr (Or.inl ht))
    rw [mem_select] at hin
    simpa [sorted] using hin
  · by_contra hnot
    obtain ⟨hfull', hnot⟩ := not_or.mp hnot
    have hfull' := Bool.not_eq_true _ ▸ hfull'
    -- one tag more than the second window has places, none of which it names
    obtain ⟨fresh, hnodup, hlength, hfresh⟩ := exists_fresh w'.tags (w'.last + 1)
    set known : List (Str × ℕ) := fresh.map fun t => (t, 0) with hknown
    have hnames : known.map Prod.fst = fresh := by
      rw [hknown, List.map_map]
      exact List.map_id _
    have hselected : ∀ t ∈ fresh, t ∈ w.select known := by
      intro t ht
      rw [← hnames] at ht
      rw [mem_select]
      cases hfull : w.full with
      | true => exact Or.inr (Or.inl ⟨rfl, ht⟩)
      | false =>
          have hlast : w'.last + 1 ≤ w.last := Nat.lt_of_not_le fun hle => hnot ⟨hfull, hle⟩
          have hlen : (sorted known).length ≤ w.last := by
            refine le_trans ?_ hlast
            rw [← hlength, ← hnames, List.length_map]
            exact (List.destutter_sublist _ _).length_le.trans
              (List.perm_insertionSort before known).length_eq.le
          refine Or.inr (Or.inr ⟨rfl, ?_⟩)
          rw [List.take_of_length_le hlen]
          exact mem_names_sorted.mpr ht
    have hin : fresh ⊆ ((sorted known).take w'.last).map Prod.fst := by
      intro t ht
      have hsel := mem_select.mp (h known (hselected t ht))
      simpa [hfresh t ht, hfull'] using hsel
    have hle := (hnodup.subperm hin).length_le
    rw [hlength, List.length_map] at hle
    exact Nat.not_succ_le_self _ (hle.trans (List.length_take_le _ _))

end Window

end Ocid
