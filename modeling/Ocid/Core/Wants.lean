import Ocid.Core.Rules

/-!
# Core — Wants — what the rules ask of an image

A rule asks of an image that as many of its releases are kept as the rule's mode says, or that one
tag is kept.  The window of an image is what all rules together ask of it (`window_eq_foldl`), and
depends only on which these are, not on their order or on how often they ask the same
(`foldl_add_le`).  A window is wider than another when it keeps what the other keeps.

`publishers` are the publishers named by some rule, which are those of whom some image is wanted
(`mem_publishers_iff`).
-/

namespace Ocid

/-- What one rule asks of an image. -/
inductive Want where
  | mode (m : Mode)
  | tag (t : Str)
deriving DecidableEq

namespace Mode

/-- A mode that is not full keeps one release at least. -/
theorem one_le_of_window {m : Mode} {n : ℕ} (h : m.window = some n) : 1 ≤ n := by
  cases m with
  | full => cases h
  | latest => cases h; exact le_refl 1
  | last k => cases h; exact le_max_right k 1

/-- Some mode of the set keeps as many releases. -/
def Within (m : Mode) (modes : Set Mode) : Prop :=
  ∃ m' ∈ modes, match m.window, m'.window with
    | none, none => True
    | some n, some k => n ≤ k
    | _, _ => False

theorem within_of_mem {m : Mode} {modes : Set Mode} (h : m ∈ modes) : m.Within modes := by
  refine ⟨m, h, ?_⟩
  cases m.window with
  | none => trivial
  | some n => exact le_refl n

theorem within_of_full {m : Mode} {modes : Set Mode} (h : m.window = none) :
    m.Within modes ↔ ∃ m' ∈ modes, m'.window = none := by
  refine exists_congr fun m' => and_congr_right fun _ => ?_
  cases h' : m'.window <;> simp [h]

theorem within_of_last {m : Mode} {modes : Set Mode} {n : ℕ} (h : m.window = some n) :
    m.Within modes ↔ ∃ m' ∈ modes, ∃ k, m'.window = some k ∧ n ≤ k := by
  refine exists_congr fun m' => and_congr_right fun _ => ?_
  cases h' : m'.window <;> simp [h]

end Mode

namespace Window

/-- Widen a window by one wish. -/
def add (w : Window) : Want → Window
  | .mode m => w.absorb m
  | .tag t => w.insertTag t

variable {w w' : Window} {ws ws' : List Want}

/-- The second window is as wide as the first, or wider. -/
instance : Preorder Window where
  le w w' := (w.full = true → w'.full = true) ∧ w.last ≤ w'.last ∧ w.tags ⊆ w'.tags
  le_refl _ := ⟨id, le_refl _, List.Subset.refl _⟩
  le_trans _ _ _ h h' := ⟨h'.1 ∘ h.1, h.2.1.trans h'.2.1, List.Subset.trans h.2.2 h'.2.2⟩

theorem full_foldl_add : (ws.foldl add w).full = true ↔
    w.full = true ∨ ∃ m, Want.mode m ∈ ws ∧ m.window = none := by
  induction ws generalizing w with
  | nil => simp
  | cons x ws ih =>
      rw [List.foldl_cons, ih]
      cases x with
      | tag t => simp [add, insertTag]
      | mode m => cases hm : m.window <;> simp [add, absorb, hm]

theorem le_last_foldl_add {k : ℕ} : k ≤ (ws.foldl add w).last ↔
    k ≤ w.last ∨ ∃ m n, Want.mode m ∈ ws ∧ m.window = some n ∧ k ≤ n := by
  induction ws generalizing w with
  | nil => simp
  | cons x ws ih =>
      rw [List.foldl_cons, ih]
      cases x with
      | tag t => simp [add, insertTag]
      | mode m => cases hm : m.window <;> simp [add, absorb, hm, or_assoc]

theorem mem_tags_foldl_add {t : Str} :
    t ∈ (ws.foldl add w).tags ↔ t ∈ w.tags ∨ Want.tag t ∈ ws := by
  induction ws generalizing w with
  | nil => simp
  | cons x ws ih =>
      rw [List.foldl_cons, ih]
      cases x with
      | tag u => simp [add, insertTag, List.mem_insert_iff, or_assoc, or_comm (a := t = u)]
      | mode m => cases hm : m.window <;> simp [add, absorb, hm]

/-- Asking for more makes no window smaller. -/
theorem foldl_add_le (hw : w ≤ w') (h : ws ⊆ ws') : ws.foldl add w ≤ ws'.foldl add w' := by
  obtain ⟨hfull, hlast, htags⟩ := hw
  refine ⟨fun hf => ?_, ?_, fun t ht => ?_⟩
  · rw [full_foldl_add] at hf ⊢
    exact hf.imp hfull fun ⟨m, hm, hnone⟩ => ⟨m, h hm, hnone⟩
  · refine le_last_foldl_add.mpr ((le_last_foldl_add.mp (le_refl _)).imp (·.trans hlast) ?_)
    rintro ⟨m, n, hm, hsome, hle⟩
    exact ⟨m, n, h hm, hsome, hle⟩
  · rw [mem_tags_foldl_add] at ht ⊢
    exact ht.imp (fun h => htags h) fun hx => h hx

/-- A rule always asks for something. -/
theorem isEmpty_foldl_add : (ws.foldl add empty).isEmpty = true ↔ ws = [] := by
  simp only [isEmpty, Bool.and_eq_true, Bool.not_eq_true', beq_iff_eq, List.isEmpty_iff]
  constructor
  · rintro ⟨⟨hfull, hlast⟩, htags⟩
    refine List.eq_nil_iff_forall_not_mem.mpr fun x hx => ?_
    cases x with
    | tag t =>
        have ht : t ∈ (ws.foldl add empty).tags := mem_tags_foldl_add.mpr (Or.inr hx)
        rw [htags] at ht
        cases ht
    | mode m =>
        cases hm : m.window with
        | none =>
            have hf := full_foldl_add (w := empty).mpr (Or.inr ⟨m, hx, hm⟩)
            rw [hfull] at hf
            cases hf
        | some n =>
            have hle := le_last_foldl_add (w := empty).mpr
              (Or.inr ⟨m, n, hx, hm, Mode.one_le_of_window hm⟩)
            rw [hlast] at hle
            cases hle
  · rintro rfl
    exact ⟨⟨rfl, rfl⟩, rfl⟩

theorem mem_tags_iff {t : Str} : t ∈ (ws.foldl add empty).tags ↔ Want.tag t ∈ ws :=
  mem_tags_foldl_add.trans (or_iff_right List.not_mem_nil)

theorem full_iff : (ws.foldl add empty).full = true ↔ ∃ m, Want.mode m ∈ ws ∧ m.window = none :=
  full_foldl_add.trans (or_iff_right Bool.false_ne_true)

theorem le_last_iff {k : ℕ} : k ≤ (ws.foldl add empty).last ↔
    k = 0 ∨ ∃ m n, Want.mode m ∈ ws ∧ m.window = some n ∧ k ≤ n :=
  le_last_foldl_add.trans (or_congr_left Nat.le_zero)

/-- Rules make a window as wide as others do if each mode is within those of the others, and each
tag asked for. -/
theorem foldl_add_le_iff : ws.foldl add empty ≤ ws'.foldl add empty ↔
    (∀ m, Want.mode m ∈ ws → m.Within {m' | Want.mode m' ∈ ws'}) ∧
      ∀ t, Want.tag t ∈ ws → Want.tag t ∈ ws' := by
  constructor
  · rintro ⟨hf, hl, ht⟩
    refine ⟨fun m hm => ?_, fun t h => mem_tags_iff.mp (ht (mem_tags_iff.mpr h))⟩
    cases hw : m.window with
    | none =>
        obtain ⟨m', hm', hw'⟩ := full_iff.mp (hf (full_iff.mpr ⟨m, hm, hw⟩))
        exact (Mode.within_of_full hw).mpr ⟨m', hm', hw'⟩
    | some n =>
        have hpos := Mode.one_le_of_window hw
        have hn := (le_last_iff.mpr (Or.inr ⟨m, n, hm, hw, le_refl n⟩)).trans hl
        obtain ⟨m', k, hm', hw', hle⟩ :=
          (le_last_iff.mp hn).resolve_left (Nat.one_le_iff_ne_zero.mp hpos)
        exact (Mode.within_of_last hw).mpr ⟨m', hm', k, hw', hle⟩
  · rintro ⟨hmodes, ht⟩
    refine ⟨fun hf => ?_, ?_, fun t h => mem_tags_iff.mpr (ht t (mem_tags_iff.mp h))⟩
    · obtain ⟨m, hm, hw⟩ := full_iff.mp hf
      obtain ⟨m', hm', hw'⟩ := (Mode.within_of_full hw).mp (hmodes m hm)
      exact full_iff.mpr ⟨m', hm', hw'⟩
    · rcases le_last_iff.mp (le_refl _) with hzero | ⟨m, n, hm, hw, hle⟩
      · rw [hzero]
        exact Nat.zero_le _
      · obtain ⟨m', hm', k, hw', hle'⟩ := (Mode.within_of_last hw).mp (hmodes m hm)
        exact le_last_iff.mpr (Or.inr ⟨m', k, hm', hw', hle.trans hle'⟩)

/-- Nothing is asked for in a window smaller than an empty one. -/
theorem isEmpty_of_le (hw : w ≤ w') (h : w'.isEmpty = true) : w.isEmpty = true := by
  obtain ⟨hfull, hlast, htags⟩ := hw
  simp only [isEmpty, Bool.and_eq_true, Bool.not_eq_true', beq_iff_eq, List.isEmpty_iff] at h ⊢
  obtain ⟨⟨hfull', hlast'⟩, htags'⟩ := h
  rw [htags'] at htags
  refine ⟨⟨?_, Nat.le_zero.mp (hlast' ▸ hlast)⟩, List.subset_nil.mp htags⟩
  cases hf : w.full with
  | false => rfl
  | true =>
      rw [hfull hf] at hfull'
      cases hfull'

end Window

/-! ### What a policy asks of an image -/

/-- What a seed rule asks of its image. -/
def SeedRule.want (r : SeedRule) : Want :=
  match r.tag with
  | some t => .tag t
  | none => .mode r.mode

namespace Policy

variable [External] {policy : Policy} {publisher : PublisherId} {name : Str}

/-- The rules of the image. -/
def matching (publisher : PublisherId) (name : Str) (rules : List SeedRule) : List SeedRule :=
  rules.filter fun r => r.publisher = publisher ∧ r.name = name

/-- What the rules ask of an image: the follow of its publisher, its seeds, its pins. -/
def wants (policy : Policy) (publisher : PublisherId) (name : Str) : List Want :=
  (policy.followMode publisher).toList.map Want.mode ++
    ((matching publisher name policy.seedRules).map SeedRule.want ++
      (matching publisher name policy.pins).map SeedRule.want)

omit [External] in
theorem mem_matching {rules : List SeedRule} {r : SeedRule} :
    r ∈ matching publisher name rules ↔ r ∈ rules ∧ r.publisher = publisher ∧ r.name = name := by
  rw [matching, List.mem_filter, decide_eq_true_eq]

omit [External] in
theorem matching_append (rules rules' : List SeedRule) : matching publisher name (rules ++ rules') =
    matching publisher name rules ++ matching publisher name rules' :=
  List.filter_append ..

theorem tag_isSome_of_mem_pins {r : SeedRule} (h : r ∈ policy.pins) : r.tag.isSome = true := by
  obtain ⟨s, -, h⟩ := List.mem_filterMap.mp h
  exact (Option.filter_eq_some_iff.mp h).2

/-- **The window is what the rules ask for together.** -/
theorem window_eq_foldl (policy : Policy) (publisher : PublisherId) (name : Str) :
    policy.window publisher name = (policy.wants publisher name).foldl Window.add .empty := by
  have hseeds : ∀ (rules : List SeedRule) (w : Window),
      rules.foldl seedWindow w = (rules.map SeedRule.want).foldl Window.add w := by
    intro rules w
    rw [List.foldl_map]
    refine List.foldl_ext _ _ _ fun w r _ => ?_
    rw [seedWindow, SeedRule.want]
    cases r.tag <;> rfl
  have hpins : ∀ (rules : List SeedRule), (∀ r ∈ rules, r.tag.isSome = true) → ∀ w : Window,
      rules.foldl pinWindow w = (rules.map SeedRule.want).foldl Window.add w := by
    intro rules hrules w
    rw [List.foldl_map]
    refine List.foldl_ext _ _ _ fun w r hr => ?_
    obtain ⟨t, ht⟩ := Option.isSome_iff_exists.mp (hrules r hr)
    rw [pinWindow, SeedRule.want, ht]
    rfl
  have hpinned : ∀ r ∈ matching publisher name policy.pins, r.tag.isSome = true := fun r hr =>
    tag_isSome_of_mem_pins (mem_matching.mp hr).1
  rw [wants, List.foldl_append, List.foldl_append, ← hpins _ hpinned, ← hseeds]
  show _ = (matching publisher name policy.pins).foldl pinWindow _
  rw [window]
  cases policy.followMode publisher <;> rfl

theorem covers_iff : policy.covers publisher name = true ↔ policy.wants publisher name ≠ [] := by
  rw [covers, window_eq_foldl, Bool.not_eq_true', Ne, ← Window.isEmpty_foldl_add,
    Bool.not_eq_true]

/-- Rules that ask for the same give windows as wide as each other. -/
theorem window_le {policy' : Policy} (h : policy.wants publisher name ⊆ policy'.wants publisher name) :
    policy.window publisher name ≤ policy'.window publisher name := by
  rw [window_eq_foldl, window_eq_foldl]
  exact Window.foldl_add_le (le_refl _) h

theorem window_le_iff {policy' : Policy} :
    policy.window publisher name ≤ policy'.window publisher name ↔
      (∀ m, Want.mode m ∈ policy.wants publisher name →
        m.Within {m' | Want.mode m' ∈ policy'.wants publisher name}) ∧
      ∀ t, Want.tag t ∈ policy.wants publisher name → Want.tag t ∈ policy'.wants publisher name := by
  rw [window_eq_foldl, window_eq_foldl]
  exact Window.foldl_add_le_iff

/-! ### The publishers of a policy -/

/-- Every publisher the policy refers to (follows, seeds, pins). -/
def publishers (policy : Policy) : List PublisherId :=
  (policy.follows.map Prod.fst ++ policy.seedRules.map SeedRule.publisher ++
    policy.pins.map SeedRule.publisher).dedup

theorem followMode_isSome : (policy.followMode publisher).isSome = true ↔
    publisher ∈ policy.follows.map Prod.fst := by
  rw [followMode, Option.isSome_map, List.find?_isSome, List.mem_map]
  simp only [decide_eq_true_eq]

/-- The publishers referred to are those of whom some image is wanted. -/
theorem mem_publishers_iff : publisher ∈ policy.publishers ↔
    ∃ name, policy.covers publisher name = true := by
  simp only [covers_iff, publishers, List.mem_dedup, List.mem_append, ← followMode_isSome]
  constructor
  · rintro ((hfollow | hseed) | hpin)
    · obtain ⟨m, hm⟩ := Option.isSome_iff_exists.mp hfollow
      exact ⟨[], fun h => by simp [wants, hm] at h⟩
    · obtain ⟨r, hr, rfl⟩ := List.mem_map.mp hseed
      refine ⟨r.name, List.ne_nil_of_mem (a := r.want) ?_⟩
      exact List.mem_append_right _ (List.mem_append_left _
        (List.mem_map_of_mem (mem_matching.mpr ⟨hr, rfl, rfl⟩)))
    · obtain ⟨r, hr, rfl⟩ := List.mem_map.mp hpin
      refine ⟨r.name, List.ne_nil_of_mem (a := r.want) ?_⟩
      exact List.mem_append_right _ (List.mem_append_right _
        (List.mem_map_of_mem (mem_matching.mpr ⟨hr, rfl, rfl⟩)))
  · rintro ⟨name, hwants⟩
    obtain ⟨x, hx⟩ := List.exists_mem_of_ne_nil _ hwants
    rcases List.mem_append.mp hx with hx | hx
    · obtain ⟨m, hm, -⟩ := List.mem_map.mp hx
      exact Or.inl (Or.inl (Option.isSome_iff_exists.mpr ⟨m, Option.mem_toList.mp hm⟩))
    · rcases List.mem_append.mp hx with hx | hx
      · obtain ⟨r, hr, -⟩ := List.mem_map.mp hx
        obtain ⟨hrule, rfl, -⟩ := mem_matching.mp hr
        exact Or.inl (Or.inr (List.mem_map_of_mem hrule))
      · obtain ⟨r, hr, -⟩ := List.mem_map.mp hx
        obtain ⟨hrule, rfl, -⟩ := mem_matching.mp hr
        exact Or.inr (List.mem_map_of_mem hrule)

end Policy

end Ocid
