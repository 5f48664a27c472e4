import Mathlib

/-!
# Lib — Windows — the newest versions that fit a window

What is known of a family of names is a set of versions, pairs of a name and a time.  A window
keeps of each name the newest version only (`Newest`), and of the names the `n` newest ones and
those it always keeps: a version is inside unless `n` names have a version before it (`Crowded`).

A window forgets what is outside, and nothing that is known later can show that it should have been
kept: what is inside of two sets of versions together is inside of what was kept of the first and
the second (`window_union`).  So windows may be applied as often as one likes while versions
arrive, and in any order.

A list of versions from the newest on, of which consecutive ones of one name are dropped but the
first, has every newest version (`mem_destutter`).  The newest version of a name is among its first
`n` entries when fewer than `n` entries are before it, which are at least as many as there are names
before it (`not_crowded_of_lt`), and more when names are repeated.
-/

namespace Ocid.Windows

variable {α τ : Type*} [LinearOrder α] [LinearOrder τ]

/-- Newest first; of one time, the greater name first. -/
def Before (x y : α × τ) : Prop := y.2 < x.2 ∨ (x.2 = y.2 ∧ y.1 < x.1)

theorem Before.trans {x y z : α × τ} (h : Before x y) (h' : Before y z) : Before x z := by
  rcases h with h | ⟨h, ha⟩ <;> rcases h' with h' | ⟨h', ha'⟩
  · exact Or.inl (lt_trans h' h)
  · exact Or.inl (h' ▸ h)
  · exact Or.inl (h ▸ h')
  · exact Or.inr ⟨h.trans h', lt_trans ha' ha⟩

theorem not_before_self (x : α × τ) : ¬ Before x x := by
  rintro (h | ⟨-, h⟩)
  · exact lt_irrefl _ h
  · exact lt_irrefl _ h

instance : IsStrictOrder (α × τ) Before where
  irrefl := not_before_self
  trans _ _ _ := Before.trans

/-- Of two versions one is before the other. -/
theorem before_total {x y : α × τ} (h : x ≠ y) : Before x y ∨ Before y x := by
  rcases lt_trichotomy x.2 y.2 with ht | ht | ht
  · exact Or.inr (Or.inl ht)
  · rcases lt_trichotomy x.1 y.1 with ha | ha | ha
    · exact Or.inr (Or.inr ⟨ht.symm, ha⟩)
    · exact absurd (Prod.ext ha ht) h
    · exact Or.inl (Or.inr ⟨ht, ha⟩)
  · exact Or.inl (Or.inl ht)

/-- `x` is the newest version of its name. -/
def Newest (K : Set (α × τ)) (x : α × τ) : Prop := x ∈ K ∧ ∀ y ∈ K, y.1 = x.1 → y.2 ≤ x.2

/-- `n` names have a version before `x`. -/
def Crowded (n : ℕ) (K : Set (α × τ)) (x : α × τ) : Prop :=
  ∃ F : Finset α, F.card = n ∧ ∀ a ∈ F, ∃ y ∈ K, y.1 = a ∧ Before y x

/-- What is inside the window of the `n` newest names, and of the names it always keeps. -/
def window (always : Set α) (n : ℕ) (K : Set (α × τ)) : Set (α × τ) :=
  {x | Newest K x ∧ (x.1 ∈ always ∨ ¬ Crowded n K x)}

variable {always : Set α} {n : ℕ} {K L B : Set (α × τ)} {x y : α × τ}

theorem window_subset : window always n K ⊆ K := fun _ h => h.1.1

omit [LinearOrder α] in
theorem Newest.mono (h : Newest K x) (hL : L ⊆ K) (hx : x ∈ L) : Newest L x :=
  ⟨hx, fun y hy => h.2 y (hL hy)⟩

theorem Crowded.mono (h : Crowded n L x) (hL : L ⊆ K) : Crowded n K x := by
  obtain ⟨F, hcard, hF⟩ := h
  refine ⟨F, hcard, fun a ha => ?_⟩
  obtain ⟨y, hy, hya, hb⟩ := hF a ha
  exact ⟨y, hL hy, hya, hb⟩

/-- What crowds a version crowds the later ones. -/
theorem Crowded.later (h : Crowded n K y) (hb : Before y x) : Crowded n K x := by
  obtain ⟨F, hcard, hF⟩ := h
  refine ⟨F, hcard, fun a ha => ?_⟩
  obtain ⟨z, hz, hza, hzy⟩ := hF a ha
  exact ⟨z, hz, hza, hzy.trans hb⟩

omit [LinearOrder α] in
/-- Every name that is known has a newest version. -/
theorem exists_newest (hK : K.Finite) (hy : y ∈ K) : ∃ x, Newest K x ∧ x.1 = y.1 ∧ y.2 ≤ x.2 := by
  obtain ⟨x, ⟨hx, hxy⟩, hmax⟩ := Set.exists_max_image {z ∈ K | z.1 = y.1} Prod.snd
    (hK.subset (Set.sep_subset _ _)) ⟨y, hy, rfl⟩
  exact ⟨x, ⟨hx, fun z hz hzx => hmax z ⟨hz, hzx.trans hxy⟩⟩, hxy, hmax y ⟨hy, rfl⟩⟩

theorem before_of_le (h : x.1 = y.1) (hle : y.2 ≤ x.2) {z : α × τ} (hb : Before y z) :
    Before x z := by
  rcases lt_or_eq_of_le hle with hlt | heq
  · exact Before.trans (Or.inl hlt) hb
  · exact (Prod.ext h heq.symm : x = y) ▸ hb

/-! ### What the window forgets is not missed -/

/-- The names before `x` are kept, or some version that is forgotten is before `x`. -/
theorem crowded_or_forgotten (hK : K.Finite) (h : Crowded n (K ∪ B) x) :
    Crowded n (window always n K ∪ B) x ∨ ∃ y ∈ K, Crowded n K y ∧ Before y x := by
  obtain ⟨F, hcard, hF⟩ := h
  by_cases hall : ∀ a ∈ F, ∃ y ∈ window always n K ∪ B, y.1 = a ∧ Before y x
  · exact Or.inl ⟨F, hcard, hall⟩
  · push Not at hall
    obtain ⟨a, ha, hnone⟩ := hall
    obtain ⟨y, hy | hy, rfl, hb⟩ := hF a ha
    · obtain ⟨z, hz, hzy, hle⟩ := exists_newest hK hy
      have hbz := before_of_le hzy hle hb
      have hout : z ∉ window always n K := fun hin => hnone z (Or.inl hin) hzy hbz
      exact Or.inr ⟨z, hz.1, not_not.mp fun hc => hout ⟨hz, Or.inr hc⟩, hbz⟩
    · exact absurd hb (hnone y (Or.inr hy) rfl)

/-- A version that is crowded is crowded by versions inside the window. -/
theorem crowded_window (hK : K.Finite) (hx : x ∈ K) (h : Crowded n K x) :
    Crowded n (window always n K) x := by
  -- by induction along the order: what is before `x` and forgotten is crowded itself
  have hwf : K.WellFoundedOn Before := hK.wellFoundedOn
  refine hwf.induction (P := fun x => Crowded n K x → Crowded n (window always n K) x) hx
    (fun x _ ih h => ?_) h
  rw [← Set.union_empty K] at h
  rcases crowded_or_forgotten hK h with h | ⟨y, hy, hcrowd, hb⟩
  · rwa [Set.union_empty] at h
  · exact (ih y hy hb hcrowd).later hb

theorem crowded_union_iff (hK : K.Finite) :
    Crowded n (window always n K ∪ B) x ↔ Crowded n (K ∪ B) x := by
  refine ⟨fun h => h.mono (Set.union_subset_union_left _ window_subset), fun h => ?_⟩
  rcases crowded_or_forgotten hK h with h | ⟨y, hy, hcrowd, hb⟩
  · exact h
  · exact ((crowded_window hK hy hcrowd).mono Set.subset_union_left).later hb

/-- **A window can be applied early.** -/
theorem window_union (hK : K.Finite) :
    window always n (window always n K ∪ B) = window always n (K ∪ B) := by
  ext x
  constructor
  · rintro ⟨⟨hx, hmax⟩, hin⟩
    rw [crowded_union_iff hK] at hin
    refine ⟨⟨Set.union_subset_union_left _ window_subset hx, ?_⟩, hin⟩
    rintro y (hy | hy) hyx
    · -- a newer version of the name would be inside too, or crowded, and `x` with it
      obtain ⟨z, hz, hzy, hle⟩ := exists_newest hK hy
      by_contra hlt
      have hb : Before z x := Or.inl (lt_of_lt_of_le (not_le.mp hlt) hle)
      have hout : z ∉ window always n K := fun hw =>
        not_le.mpr (lt_of_lt_of_le (not_le.mp hlt) hle) (hmax z (Or.inl hw) (hzy.trans hyx))
      have hcrowd : Crowded n K z := not_not.mp fun hc => hout ⟨hz, Or.inr hc⟩
      refine hin.elim (fun ha => hout ⟨hz, Or.inl ?_⟩) fun hc => hc ?_
      · rwa [hzy, hyx]
      · exact (hcrowd.mono Set.subset_union_left).later hb
    · exact hmax y (Or.inr hy) hyx
  · rintro ⟨hnew, hin⟩
    have hx : x ∈ window always n K ∪ B := by
      rcases hnew.1 with hx | hx
      · exact Or.inl ⟨hnew.mono Set.subset_union_left hx,
          hin.imp_right fun hc hcrowd => hc (hcrowd.mono Set.subset_union_left)⟩
      · exact Or.inr hx
    refine ⟨hnew.mono (Set.union_subset_union_left _ window_subset) hx, ?_⟩
    rwa [crowded_union_iff hK]

/-- A window with more places, that always keeps more names, keeps more. -/
theorem window_mono {always' : Set α} {n' : ℕ} (ha : always ⊆ always') (hn : n ≤ n') :
    window always n K ⊆ window always' n' K := by
  rintro x ⟨hnew, hin⟩
  refine ⟨hnew, hin.imp (fun h => ha h) fun h hcrowd => h ?_⟩
  obtain ⟨F, hcard, hF⟩ := hcrowd
  obtain ⟨G, hG, hcard'⟩ := Finset.exists_subset_card_eq (hcard ▸ hn)
  exact ⟨G, hcard', fun a ha => hF a (hG ha)⟩

/-- Versions outside the window do not change it. -/
theorem window_of_subset (hK : K.Finite) (hw : window always n K ⊆ L) (hL : L ⊆ K) :
    window always n L = window always n K := by
  have h : window always n (window always n K ∪ L) = window always n (K ∪ L) := window_union hK
  rwa [Set.union_eq_right.mpr hw, Set.union_eq_left.mpr hL] at h

theorem window_window (hK : K.Finite) :
    window always n (window always n K) = window always n K :=
  window_of_subset hK subset_rfl window_subset

/-- The newest versions. -/
def newest (K : Set (α × τ)) : Set (α × τ) := {x | Newest K x}

theorem newest_eq_window : newest K = window Set.univ 0 K := by
  ext x
  simp [newest, window]

theorem newest_union (hK : K.Finite) : newest (newest K ∪ B) = newest (K ∪ B) := by
  simp only [newest_eq_window]
  exact window_union hK

theorem window_newest (hK : K.Finite) : window always n (newest K) = window always n K :=
  window_of_subset hK (fun _ h => h.1) fun _ h => h.1

/-! ### Lists from the newest version on -/

instance decideBefore : DecidableRel (Before : α × τ → α × τ → Prop) := fun x y =>
  inferInstanceAs (Decidable (y.2 < x.2 ∨ (x.2 = y.2 ∧ y.1 < x.1)))

/-- How many entries of a list are before `x`. -/
def ahead (D : List (α × τ)) (x : α × τ) : ℕ := (D.filter fun y => Before y x).length

section
variable {D s : List (α × τ)}

theorem ahead_le (hb : Before x y) (D : List (α × τ)) : ahead D x ≤ ahead D y := by
  refine (List.monotone_filter_right D fun z hz => ?_).length_le
  exact decide_eq_true ((of_decide_eq_true hz).trans hb)

/-- The first `n` entries are those with fewer than `n` entries before them. -/
theorem mem_take_iff (hD : D.Pairwise Before) : x ∈ D.take n ↔ x ∈ D ∧ ahead D x < n := by
  induction D generalizing n with
  | nil => simp
  | cons y D ih =>
      obtain ⟨hy, hD⟩ := List.pairwise_cons.mp hD
      cases n with
      | zero => simp
      | succ n =>
          rw [List.take_succ_cons, List.mem_cons, List.mem_cons, ih hD]
          by_cases hxy : x = y
          · -- nothing is before the first entry
            subst hxy
            have hnone : ahead (x :: D) x = 0 := by
              rw [ahead, List.length_eq_zero_iff, List.filter_eq_nil_iff]
              intro z hz hzx
              replace hzx := of_decide_eq_true hzx
              rcases List.mem_cons.mp hz with rfl | hz
              · exact not_before_self _ hzx
              · exact not_before_self _ ((hy z hz).trans hzx)
            simp [hnone]
          · constructor
            · rintro (h | ⟨hx, hlt⟩)
              · exact absurd h hxy
              · refine ⟨Or.inr hx, ?_⟩
                simpa [ahead, hy x hx] using hlt
            · rintro ⟨hx, hlt⟩
              have hx := hx.resolve_left hxy
              refine Or.inr ⟨hx, ?_⟩
              simpa [ahead, hy x hx] using hlt

/-- The names with an entry before `x` are no more than these entries. -/
theorem not_crowded_of_lt (hK : K.Finite) (hD : ∀ y, Newest K y → y ∈ D) (h : ahead D x < n) :
    ¬ Crowded n K x := by
  rintro ⟨F, hcard, hF⟩
  have hsub : F ⊆ ((D.filter fun y => Before y x).map Prod.fst).toFinset := by
    intro a ha
    obtain ⟨y, hy, rfl, hb⟩ := hF a ha
    obtain ⟨z, hz, hzy, hle⟩ := exists_newest hK hy
    rw [List.mem_toFinset, List.mem_map]
    exact ⟨z, List.mem_filter.mpr ⟨hD z hz, decide_eq_true (before_of_le hzy hle hb)⟩, hzy⟩
  have hle := (Finset.card_le_card hsub).trans (List.toFinset_card_le _)
  rw [List.length_map, hcard] at hle
  exact Nat.not_lt.mpr hle h

/-- They are as many when no name is repeated among them. -/
theorem lt_of_not_crowded (hD : ∀ y ∈ D, y ∈ K)
    (hnodup : ((D.filter fun y => Before y x).map Prod.fst).Nodup) (h : ¬ Crowded n K x) :
    ahead D x < n := by
  by_contra hlt
  refine h ?_
  have hcard : n ≤ ((D.filter fun y => Before y x).map Prod.fst).toFinset.card := by
    rw [List.toFinset_card_of_nodup hnodup, List.length_map]
    exact Nat.not_lt.mp hlt
  obtain ⟨F, hF, hn⟩ := Finset.exists_subset_card_eq hcard
  refine ⟨F, hn, fun a ha => ?_⟩
  obtain ⟨y, hy, hya⟩ := List.mem_map.mp (List.mem_toFinset.mp (hF ha))
  obtain ⟨hyD, hb⟩ := List.mem_filter.mp hy
  exact ⟨y, hD y hyD, hya, of_decide_eq_true hb⟩

/-- A name is among those of the first `n` entries when its newest version is. -/
theorem mem_names_take_iff (hD : D.Pairwise Before) (hx : x ∈ D)
    (hnew : ∀ y ∈ D, y.1 = x.1 → y.2 ≤ x.2) : x.1 ∈ (D.take n).map Prod.fst ↔ ahead D x < n := by
  constructor
  · intro h
    obtain ⟨y, hy, hyx⟩ := List.mem_map.mp h
    obtain ⟨hyD, hlt⟩ := (mem_take_iff hD).mp hy
    by_cases hxy : x = y
    · rwa [hxy]
    · have hle := hnew y hyD hyx
      have hb : Before x y := by
        rcases before_total hxy with hb | hb
        · exact hb
        · exact absurd (before_of_le hyx.symm hle hb) (not_before_self _)
      exact Nat.lt_of_le_of_lt (ahead_le hb D) hlt
  · intro h
    exact List.mem_map_of_mem ((mem_take_iff hD).mpr ⟨hx, h⟩)

/-- How many names have a version before `x` in a list. -/
def namesAhead (l : List (α × τ)) (x : α × τ) : ℕ :=
  ((l.filter fun y => Before y x).map Prod.fst).dedup.length

theorem crowded_iff {l : List (α × τ)} : Crowded n {y | y ∈ l} x ↔ n ≤ namesAhead l x := by
  have hcard : namesAhead l x = ((l.filter fun y => Before y x).map Prod.fst).toFinset.card :=
    (List.card_toFinset _).symm
  have hmem : ∀ a, a ∈ ((l.filter fun y => Before y x).map Prod.fst).toFinset ↔
      ∃ y ∈ {y | y ∈ l}, y.1 = a ∧ Before y x := by
    intro a
    rw [List.mem_toFinset, List.mem_map]
    constructor
    · rintro ⟨y, hy, hya⟩
      obtain ⟨hyl, hb⟩ := List.mem_filter.mp hy
      exact ⟨y, hyl, hya, of_decide_eq_true hb⟩
    · rintro ⟨y, hyl, hya, hb⟩
      exact ⟨y, List.mem_filter.mpr ⟨hyl, decide_eq_true hb⟩, hya⟩
  rw [hcard]
  constructor
  · rintro ⟨F, rfl, hF⟩
    exact Finset.card_le_card fun a ha => (hmem a).mpr (hF a ha)
  · intro h
    obtain ⟨F, hF, hn⟩ := Finset.exists_subset_card_eq h
    exact ⟨F, hn, fun a ha => (hmem a).mp (hF ha)⟩

/-! ### Dropping consecutive versions of one name -/

/-- Between `y` and each version of its name before it there is a version of another name. -/
def Leads (l : List (α × τ)) (y : α × τ) : Prop :=
  y ∈ l ∧ ∀ z ∈ l, z.1 = y.1 → Before z y → ∃ u ∈ l, u.1 ≠ y.1 ∧ Before z u ∧ Before u y

instance decideLeads (l : List (α × τ)) (y : α × τ) : Decidable (Leads l y) :=
  inferInstanceAs (Decidable (y ∈ l ∧ ∀ z ∈ l, z.1 = y.1 → Before z y →
    ∃ u ∈ l, u.1 ≠ y.1 ∧ Before z u ∧ Before u y))

/-- How often the name changes before `x`, from the newest version on: a name is counted again when
versions of others are between its own. -/
def turns (l : List (α × τ)) (x : α × τ) : ℕ :=
  (l.dedup.filter fun y => Leads l y ∧ Before y x).length

/-- A newest version leads. -/
theorem leads_of_newest (hx : x ∈ s) (hnew : ∀ y ∈ s, y.1 = x.1 → y.2 ≤ x.2) : Leads s x := by
  refine ⟨hx, fun z hz hzx hb => ?_⟩
  exact absurd (before_of_le hzx.symm (hnew z hz hzx) hb) (not_before_self _)

theorem leads_congr {l : List (α × τ)} (h : ∀ y, y ∈ l ↔ y ∈ s) : Leads l x ↔ Leads s x := by
  simp only [Leads, h]

/-- In a list from the newest version on, a name that differs from the next one leads, and what
leads after it leads the rest. -/
theorem leads_cons_cons {a b : α × τ} {l : List (α × τ)}
    (hs : (a :: b :: l).Pairwise fun x y => Before x y ∨ x = y) (hab : a.1 ≠ b.1) :
    Leads (a :: b :: l) x ↔ x = a ∨ Leads (b :: l) x := by
  obtain ⟨ha, hrest⟩ := List.pairwise_cons.mp hs
  have hfirst : ∀ z ∈ b :: l, ¬ Before z a := fun z hz hb => by
    rcases ha z hz with h | rfl
    · exact not_before_self _ (h.trans hb)
    · exact not_before_self _ hb
  constructor
  · rintro ⟨hx, hbetween⟩
    by_cases hxa : x = a
    · exact Or.inl hxa
    · refine Or.inr ⟨(List.mem_cons.mp hx).resolve_left hxa, fun z hz hzx hb => ?_⟩
      obtain ⟨u, hu, hux, hzu, hub⟩ := hbetween z (List.mem_cons_of_mem _ hz) hzx hb
      refine ⟨u, (List.mem_cons.mp hu).resolve_left ?_, hux, hzu, hub⟩
      rintro rfl
      exact hfirst z hz hzu
  · rintro (rfl | ⟨hx, hbetween⟩)
    · refine ⟨List.mem_cons_self, fun z hz hzx hb => ?_⟩
      rcases List.mem_cons.mp hz with rfl | hz
      · exact absurd hb (not_before_self _)
      · exact absurd hb (hfirst z hz)
    · refine ⟨List.mem_cons_of_mem _ hx, fun z hz hzx hb => ?_⟩
      rcases List.mem_cons.mp hz with rfl | hz
      · -- the next entry is between
        have hbx : Before b x := by
          rcases List.mem_cons.mp hx with rfl | hx
          · exact absurd hzx hab
          · refine ((List.pairwise_cons.mp hrest).1 x hx).resolve_right ?_
            rintro rfl
            exact hab hzx
        have hzb : Before z b := (ha b List.mem_cons_self).resolve_right fun h => hab (h ▸ rfl)
        exact ⟨b, by simp, fun h => hab (hzx.trans h.symm), hzb, hbx⟩
      · obtain ⟨u, hu, h⟩ := hbetween z hz hzx hb
        exact ⟨u, List.mem_cons_of_mem _ hu, h⟩

/-- An entry after one of its own name does not lead, and nothing depends on it. -/
theorem leads_drop {a b : α × τ} {l : List (α × τ)}
    (hs : (a :: b :: l).Pairwise fun x y => Before x y ∨ x = y) (hab : a.1 = b.1) :
    Leads (a :: b :: l) x ↔ Leads (a :: l) x := by
  obtain ⟨ha, hrest⟩ := List.pairwise_cons.mp hs
  obtain ⟨hb, -⟩ := List.pairwise_cons.mp hrest
  have hnone : ∀ u ∈ a :: b :: l, u.1 ≠ b.1 → ¬ Before u b := by
    intro u hu hne hub
    rcases List.mem_cons.mp hu with rfl | hu
    · exact hne hab
    · rcases List.mem_cons.mp hu with rfl | hu
      · exact hne rfl
      · rcases hb u hu with h | rfl
        · exact not_before_self _ (h.trans hub)
        · exact hne rfl
  have hdrop : ∀ {y : α × τ}, y ≠ b → y ∈ a :: b :: l → y ∈ a :: l := by
    intro y hy h
    rcases List.mem_cons.mp h with rfl | h
    · exact List.mem_cons_self
    · exact List.mem_cons_of_mem _ ((List.mem_cons.mp h).resolve_left hy)
  have hkeep : ∀ {y : α × τ}, y ∈ a :: l → y ∈ a :: b :: l := fun h =>
    List.cons_subset_cons _ (List.subset_cons_self _ _) h
  rcases (ha b List.mem_cons_self).symm with rfl | hbefore
  · refine leads_congr fun y => ?_
    simp
  constructor
  · rintro ⟨hx, hbetween⟩
    have hxb : x ≠ b := by
      rintro rfl
      obtain ⟨u, hu, hux, -, hub⟩ := hbetween a List.mem_cons_self hab hbefore
      exact hnone u hu hux hub
    refine ⟨hdrop hxb hx, fun z hz hzx hzb => ?_⟩
    obtain ⟨u, hu, hux, hzu, hub⟩ := hbetween z (hkeep hz) hzx hzb
    refine ⟨u, hdrop ?_ hu, hux, hzu, hub⟩
    rintro rfl
    -- what is before the entry is of its name
    by_cases hzu' : z.1 = u.1
    · exact hux (hzu'.symm.trans hzx)
    · exact hnone z (hkeep hz) hzu' hzu
  · rintro ⟨hx, hbetween⟩
    refine ⟨hkeep hx, fun z hz hzx hzb => ?_⟩
    by_cases hzeq : z = b
    · -- what is between the name's first entry and `x` is after `b` too
      subst hzeq
      obtain ⟨u, hu, hux, hau, hub⟩ :=
        hbetween a List.mem_cons_self (hab.trans hzx) (hbefore.trans hzb)
      have hzu : z ≠ u := fun h => hux (h ▸ hzx)
      refine ⟨u, hkeep hu, hux, (before_total hzu).resolve_right fun h => ?_, hub⟩
      exact hnone u (hkeep hu) (fun h => hux (h.trans hzx)) h
    · obtain ⟨u, hu, h⟩ := hbetween z (hdrop hzeq hz) hzx hzb
      exact ⟨u, hkeep hu, h⟩

variable [DecidableRel fun x y : α × τ => x.1 ≠ y.1]

/-- In order, and nothing is said twice. -/
theorem pairwise_destutter (hs : s.Pairwise fun x y => Before x y ∨ x = y) :
    (s.destutter fun x y => x.1 ≠ y.1).Pairwise Before := by
  have hsub := List.destutter_sublist (fun x y : α × τ => x.1 ≠ y.1) s
  have hweak := (hs.sublist hsub).isChain
  have hne := List.isChain_destutter (fun x y : α × τ => x.1 ≠ y.1) s
  refine List.isChain_iff_pairwise.mp ?_
  generalize s.destutter (fun x y : α × τ => x.1 ≠ y.1) = D at hweak hne
  induction D with
  | nil => exact List.IsChain.nil
  | cons x D ih =>
      cases D with
      | nil => exact List.IsChain.singleton _
      | cons y D =>
          rw [List.isChain_cons_cons] at hweak hne ⊢
          refine ⟨hweak.1.resolve_right fun h => hne.1 (congrArg Prod.fst h), ih hweak.2 hne.2⟩

/-- **The entries that stay are those that lead.** -/
theorem mem_destutter_iff (hs : s.Pairwise fun x y => Before x y ∨ x = y) :
    x ∈ s.destutter (fun x y => x.1 ≠ y.1) ↔ Leads s x := by
  have key : ∀ (l : List (α × τ)) (a : α × τ),
      (a :: l).Pairwise (fun x y => Before x y ∨ x = y) →
      (x ∈ l.destutter' (fun x y => x.1 ≠ y.1) a ↔ Leads (a :: l) x) := by
    intro l
    induction l with
    | nil =>
        intro a _
        refine ⟨fun hx => leads_of_newest hx fun y hy _ => ?_, fun hx => hx.1⟩
        rw [List.mem_singleton.mp hx, List.mem_singleton.mp hy]
    | cons b l ih =>
        intro a hs
        rw [List.destutter'_cons]
        by_cases hab : a.1 ≠ b.1
        · rw [if_pos hab, List.mem_cons, ih b (List.pairwise_cons.mp hs).2, leads_cons_cons hs hab]
        · rw [if_neg hab, leads_drop hs (not_not.mp hab)]
          exact ih a (hs.sublist ((List.sublist_cons_self b l).cons_cons a))
  cases s with
  | nil => exact ⟨nofun, fun h => h.1⟩
  | cons a l => exact key l a hs

/-- The newest version of every name stays. -/
theorem mem_destutter (hs : s.Pairwise fun x y => Before x y ∨ x = y) (hx : x ∈ s)
    (hnew : ∀ y ∈ s, y.1 = x.1 → y.2 ≤ x.2) : x ∈ s.destutter fun x y => x.1 ≠ y.1 :=
  (mem_destutter_iff hs).mpr (leads_of_newest hx hnew)

/-- What stays before `x` is counted by the turns. -/
theorem ahead_destutter {l : List (α × τ)} (hs : s.Pairwise fun x y => Before x y ∨ x = y)
    (hl : ∀ y, y ∈ s ↔ y ∈ l) (x : α × τ) :
    ahead (s.destutter fun x y => x.1 ≠ y.1) x = turns l x := by
  have hnodup : (s.destutter fun x y => x.1 ≠ y.1).Nodup :=
    (pairwise_destutter hs).imp fun {a b} (hb : Before a b) (heq : a = b) =>
      not_before_self b (heq ▸ hb)
  refine List.Perm.length_eq ((List.perm_ext_iff_of_nodup (hnodup.filter _)
    (l.nodup_dedup.filter _)).mpr fun y => ?_)
  simp only [List.mem_filter, mem_destutter_iff hs, leads_congr hl, List.mem_dedup,
    decide_eq_true_eq]
  constructor
  · rintro ⟨hlead, hb⟩
    exact ⟨hlead.1, hlead, hb⟩
  · rintro ⟨-, h⟩
    exact h

end

end Ocid.Windows
