import Ocid.Core.Wants
import Ocid.Daemon.Sample
import Ocid.Policies.Selecting

/-!
# Policies — Widest — the window all rules combine into

Every follow of the publisher, every seed of the image and every pin of a tag asks something of the
image (`Policy.asked`), and the widest window is the least one that grants all of it
(`widest_isLUB`).  It does not depend on the order of the rules, and another rule never makes it
select less.

`window` asks the first follow of the publisher only.  Where a publisher is followed twice it is the
widest window exactly when the other modes are within what the first and the seeds ask
(`window_widest_iff`), the order does not matter exactly when any two modes are
(`window_reordered_iff`), and no insertion takes a tag away exactly when the follow asks for no more
than the newest release, or a seed asks for as much (`window_inserted_iff`): a follow written above
it takes its place.
-/

namespace Ocid

namespace Mode

variable {m m' m'' : Mode}

/-- The second mode keeps as many releases, or all. -/
def AtMost (m m' : Mode) : Prop := ∀ k, m'.window = some k → ∃ n, m.window = some n ∧ n ≤ k

theorem AtMost.refl (m : Mode) : m.AtMost m := fun k h => ⟨k, h, le_refl k⟩

theorem AtMost.trans (h : m.AtMost m') (h' : m'.AtMost m'') : m.AtMost m'' := by
  intro k hk
  obtain ⟨j, hj, hjk⟩ := h' k hk
  obtain ⟨n, hn, hnj⟩ := h j hj
  exact ⟨n, hn, hnj.trans hjk⟩

/-- Every mode keeps the newest release. -/
theorem latest_atMost (m : Mode) : latest.AtMost m := fun _ h => ⟨1, rfl, one_le_of_window h⟩

theorem atMost_of_within {modes : Set Mode} (h : m.Within modes) : ∃ m' ∈ modes, m.AtMost m' := by
  obtain ⟨m', hm', h⟩ := h
  refine ⟨m', hm', fun k hk => ?_⟩
  rw [hk] at h
  cases hn : m.window with
  | none => simp [hn] at h
  | some n => exact ⟨n, rfl, by simpa [hn] using h⟩

end Mode

namespace Window

variable {w : Window} {ws ws' : List Want}

/-- A window grants all that is asked when it grants each. -/
theorem foldl_add_le_iff_forall : ws.foldl add empty ≤ w ↔ ∀ x ∈ ws, empty.add x ≤ w := by
  constructor
  · intro h x hx
    have hone : [x].foldl add empty ≤ ws.foldl add empty :=
      foldl_add_le (le_refl empty) fun y hy => List.mem_singleton.mp hy ▸ hx
    exact le_trans hone h
  · intro h
    refine ⟨fun hf => ?_, ?_, fun t ht => ?_⟩
    · obtain ⟨m, hm, hw⟩ := full_iff.mp hf
      have hone : ([.mode m].foldl add empty).full = true := full_iff.mpr ⟨m, by simp, hw⟩
      exact (h _ hm).1 hone
    · rcases le_last_iff.mp (le_refl (ws.foldl add empty).last) with hz | ⟨m, n, hm, hw, hle⟩
      · rw [hz]
        exact Nat.zero_le _
      · have hone : (ws.foldl add empty).last ≤ ([.mode m].foldl add empty).last :=
          le_last_iff.mpr (Or.inr ⟨m, n, by simp, hw, hle⟩)
        exact hone.trans (h _ hm).2.1
    · have hone : t ∈ ([.tag t].foldl add empty).tags := mem_tags_iff.mpr (by simp)
      exact (h _ (mem_tags_iff.mp ht)).2.2 hone

/-- Rules select as much as others do if each mode is at most one of theirs, and each tag is asked
for. -/
theorem narrower_iff : (ws.foldl add empty).Narrower (ws'.foldl add empty) ↔
    (∀ m, Want.mode m ∈ ws → ∃ m', Want.mode m' ∈ ws' ∧ m.AtMost m') ∧
      ∀ t, Want.tag t ∈ ws → Want.tag t ∈ ws' := by
  constructor
  · rintro ⟨htags, hplaces⟩
    refine ⟨fun m hm => ?_, fun t ht => mem_tags_iff.mp (htags (mem_tags_iff.mpr ht))⟩
    rcases hplaces with hfull | ⟨hnot, hle⟩
    · obtain ⟨m', hm', hw'⟩ := full_iff.mp hfull
      refine ⟨m', hm', fun k hk => ?_⟩
      rw [hw'] at hk
      cases hk
    · cases hw : m.window with
      | none =>
          rw [full_iff.mpr ⟨m, hm, hw⟩] at hnot
          cases hnot
      | some n =>
          have hn := (le_last_iff.mpr (Or.inr ⟨m, n, hm, hw, le_refl n⟩)).trans hle
          have hpos := Nat.one_le_iff_ne_zero.mp (Mode.one_le_of_window hw)
          obtain ⟨m', k, hm', hw', hnk⟩ := (le_last_iff.mp hn).resolve_left hpos
          refine ⟨m', hm', fun j hj => ⟨n, hw, ?_⟩⟩
          cases hw'.symm.trans hj
          exact hnk
  · rintro ⟨hmodes, htags⟩
    refine ⟨fun t ht => mem_tags_iff.mpr (htags t (mem_tags_iff.mp ht)), ?_⟩
    refine or_iff_not_imp_left.mpr fun hnot' => ?_
    -- no mode of the others is full, so each has a number of places
    have hsome : ∀ m, Want.mode m ∈ ws →
        ∃ n, m.window = some n ∧ n ≤ (ws'.foldl add empty).last := by
      intro m hm
      obtain ⟨m', hm', hle⟩ := hmodes m hm
      cases hw' : m'.window with
      | none => exact absurd (full_iff.mpr ⟨m', hm', hw'⟩) hnot'
      | some k =>
          obtain ⟨n, hn, hnk⟩ := hle k hw'
          exact ⟨n, hn, le_last_iff.mpr (Or.inr ⟨m', k, hm', hw', hnk⟩)⟩
    constructor
    · refine Bool.not_eq_true _ ▸ fun hfull => ?_
      obtain ⟨m, hm, hw⟩ := full_iff.mp hfull
      obtain ⟨n, hn, -⟩ := hsome m hm
      cases hw.symm.trans hn
    · rcases le_last_iff.mp (le_refl (ws.foldl add empty).last) with hz | ⟨m, n, hm, hw, hle⟩
      · rw [hz]
        exact Nat.zero_le _
      · obtain ⟨n', hn', hle'⟩ := hsome m hm
        cases hw.symm.trans hn'
        exact hle.trans hle'

end Window

namespace Policy

variable [External] {policy policy' : Policy} {publisher : PublisherId} {name : Str}

/-! ### What all rules ask of an image -/

/-- The modes of all follows of the publisher. -/
def followModes (policy : Policy) (publisher : PublisherId) : List Mode :=
  (policy.follows.filter fun f => f.1 = publisher).map Prod.snd

/-- The modes of all seeds of the image without a tag. -/
def seedModes (policy : Policy) (publisher : PublisherId) (name : Str) : List Mode :=
  ((matching publisher name policy.seedRules).filter fun r => r.tag.isNone).map SeedRule.mode

/-- The tags of all seeds and pins of the image. -/
def ruleTags (policy : Policy) (publisher : PublisherId) (name : Str) : List Str :=
  (matching publisher name policy.seedRules ++ matching publisher name policy.pins).filterMap
    SeedRule.tag

/-- What each rule of the image asks. -/
def asked (policy : Policy) (publisher : PublisherId) (name : Str) : List Want :=
  (policy.followModes publisher ++ policy.seedModes publisher name).map Want.mode ++
    (policy.ruleTags publisher name).map Want.tag

/-- The window that keeps as much as any rule asks for. -/
def widest (policy : Policy) (publisher : PublisherId) (name : Str) : Window where
  full := (policy.followModes publisher ++ policy.seedModes publisher name).any
    fun m => m.window.isNone
  last := ((policy.followModes publisher ++ policy.seedModes publisher name).filterMap
    Mode.window).foldr max 0
  tags := policy.ruleTags publisher name

/-- The lists of rules, in another order. -/
def Reordered (policy policy' : Policy) : Prop :=
  ∃ seed follow pin, seed.Perm policy.seed ∧ follow.Perm policy.follow ∧ pin.Perm policy.pin ∧
    policy' = { policy with seed, follow, pin }

/-- The lists of rules, with one entry more. -/
def Inserted (policy policy' : Policy) : Prop :=
  (∃ before after e, policy.seed = before ++ after ∧
      policy' = { policy with seed := before ++ e :: after }) ∨
    (∃ before after e, policy.follow = before ++ after ∧
      policy' = { policy with follow := before ++ e :: after }) ∨
    ∃ before after e, policy.pin = before ++ after ∧
      policy' = { policy with pin := before ++ e :: after }

/-- The rules combine: the window is the widest one, does not depend on their order, and selects no
less with another rule. -/
structure Combines (policy : Policy) (publisher : PublisherId) (name : Str) : Prop where
  widest : policy.window publisher name ≤ policy.widest publisher name ∧
    policy.widest publisher name ≤ policy.window publisher name
  reordered : ∀ policy', policy.Reordered policy' →
    policy'.window publisher name ≤ policy.window publisher name ∧
      policy.window publisher name ≤ policy'.window publisher name
  inserted : ∀ policy', policy.Inserted policy' → ∀ known,
    (policy.window publisher name).select known ⊆ (policy'.window publisher name).select known

/-- The follows of the publisher ask for no more than each other and the seeds do, and for no more
than the newest release or the seeds do. -/
structure Agreed (policy : Policy) (publisher : PublisherId) (name : Str) : Prop where
  each : ∀ m ∈ policy.followModes publisher, ∀ m' ∈ policy.followModes publisher,
    m.Within {m'' | m'' = m' ∨ m'' ∈ policy.seedModes publisher name}
  newest : ∀ m ∈ policy.followModes publisher,
    ∃ m', (m' = .latest ∨ m' ∈ policy.seedModes publisher name) ∧ m.AtMost m'

theorem followMode_eq_head (policy : Policy) (publisher : PublisherId) :
    policy.followMode publisher = (policy.followModes publisher).head? := by
  rw [followMode, followModes, List.head?_map, List.head?_filter]

theorem mem_seedModes {m : Mode} : m ∈ policy.seedModes publisher name ↔
    ∃ r ∈ matching publisher name policy.seedRules, r.tag = none ∧ r.mode = m := by
  simp [seedModes, and_assoc]

theorem mem_ruleTags {t : Str} : t ∈ policy.ruleTags publisher name ↔
    ∃ r, (r ∈ matching publisher name policy.seedRules ∨ r ∈ matching publisher name policy.pins) ∧
      r.tag = some t := by
  simp [ruleTags, or_and_right, exists_or]

/-- The modes asked for are that of the first follow, and those of the seeds. -/
theorem mode_mem_wants_iff {m : Mode} : Want.mode m ∈ policy.wants publisher name ↔
    policy.followMode publisher = some m ∨ m ∈ policy.seedModes publisher name := by
  have hpins : ∀ r ∈ matching publisher name policy.pins, r.want ≠ .mode m := by
    intro r hr hwant
    obtain ⟨t, ht⟩ := Option.isSome_iff_exists.mp (tag_isSome_of_mem_pins (mem_matching.mp hr).1)
    rw [SeedRule.want, ht] at hwant
    cases hwant
  have hseed : ∀ r : SeedRule, r.want = .mode m ↔ r.tag = none ∧ r.mode = m := by
    intro r
    cases ht : r.tag <;> simp [SeedRule.want, ht]
  simp only [wants, List.mem_append, List.mem_map, Option.mem_toList, mem_seedModes, hseed,
    Want.mode.injEq, exists_eq_right]
  refine or_congr_right (or_iff_left ?_)
  rintro ⟨r, hr, htag, hmode⟩
  exact hpins r hr ((hseed r).mpr ⟨htag, hmode⟩)

theorem tag_mem_wants_iff {t : Str} : Want.tag t ∈ policy.wants publisher name ↔
    t ∈ policy.ruleTags publisher name := by
  have hwant : ∀ r : SeedRule, r.want = .tag t ↔ r.tag = some t := by
    intro r
    cases ht : r.tag <;> simp [SeedRule.want, ht]
  simp only [wants, List.mem_append, List.mem_map, mem_ruleTags, hwant, or_and_right, exists_or]
  simp

theorem mode_mem_asked {m : Mode} : Want.mode m ∈ policy.asked publisher name ↔
    m ∈ policy.followModes publisher ∨ m ∈ policy.seedModes publisher name := by
  simp [asked]

theorem tag_mem_asked {t : Str} : Want.tag t ∈ policy.asked publisher name ↔
    t ∈ policy.ruleTags publisher name := by
  simp [asked]

omit [External] in
theorem le_foldr_max {k : ℕ} (l : List ℕ) : k ≤ l.foldr max 0 ↔ k = 0 ∨ ∃ n ∈ l, k ≤ n := by
  induction l with
  | nil => simp
  | cons n l ih =>
      rw [List.foldr_cons, le_max_iff, ih]
      simp only [List.exists_mem_cons_iff]
      exact or_left_comm

theorem widest_eq (policy : Policy) (publisher : PublisherId) (name : Str) :
    policy.widest publisher name ≤ (policy.asked publisher name).foldl Window.add .empty ∧
      (policy.asked publisher name).foldl Window.add .empty ≤ policy.widest publisher name := by
  have hfull : (policy.widest publisher name).full = true ↔
      ((policy.asked publisher name).foldl Window.add .empty).full = true := by
    simp only [Window.full_iff, mode_mem_asked, widest, List.any_eq_true, List.mem_append,
      Option.isNone_iff_eq_none]
  have hlast : ∀ k, k ≤ (policy.widest publisher name).last ↔
      k ≤ ((policy.asked publisher name).foldl Window.add .empty).last := by
    intro k
    simp only [Window.le_last_iff, mode_mem_asked, widest, le_foldr_max, List.mem_filterMap,
      List.mem_append]
    refine or_congr_right ⟨?_, ?_⟩
    · rintro ⟨n, ⟨m, hm, hw⟩, hle⟩
      exact ⟨m, n, hm, hw, hle⟩
    · rintro ⟨m, n, hm, hw, hle⟩
      exact ⟨n, ⟨m, hm, hw⟩, hle⟩
  have htags : ∀ t, t ∈ (policy.widest publisher name).tags ↔
      t ∈ ((policy.asked publisher name).foldl Window.add .empty).tags := by
    intro t
    rw [Window.mem_tags_iff, tag_mem_asked]
    rfl
  exact ⟨⟨hfull.mp, (hlast _).mp (le_refl _), fun t => (htags t).mp⟩,
    ⟨hfull.mpr, (hlast _).mpr (le_refl _), fun t => (htags t).mpr⟩⟩

/-- **The widest window is the least one that grants what each rule asks.** -/
theorem widest_isLUB (policy : Policy) (publisher : PublisherId) (name : Str) :
    IsLUB {w | ∃ x ∈ policy.asked publisher name, w = Window.empty.add x}
      (policy.widest publisher name) := by
  obtain ⟨hle, hge⟩ := widest_eq policy publisher name
  constructor
  · rintro w ⟨x, hx, rfl⟩
    exact (Window.foldl_add_le_iff_forall.mp (le_refl _) x hx).trans hge
  · intro w hw
    exact hle.trans (Window.foldl_add_le_iff_forall.mpr fun x hx => hw ⟨x, hx, rfl⟩)

/-! ### The widest window -/

/-- The widest window, exactly when the other follows ask for no more than the first and the
seeds. -/
theorem window_widest_iff :
    policy.window publisher name ≤ policy.widest publisher name ∧
        policy.widest publisher name ≤ policy.window publisher name ↔
      ∀ m ∈ policy.followModes publisher, m.Within
        {m' | policy.followMode publisher = some m' ∨ m' ∈ policy.seedModes publisher name} := by
  obtain ⟨hle, hge⟩ := widest_eq policy publisher name
  have hfirst : ∀ {m}, policy.followMode publisher = some m → m ∈ policy.followModes publisher := by
    intro m hm
    rw [followMode_eq_head] at hm
    exact List.mem_of_mem_head? hm
  have hnarrow : policy.window publisher name ≤ policy.widest publisher name := by
    rw [window_eq_foldl]
    refine (Window.foldl_add_le (le_refl _) fun x hx => ?_).trans hge
    cases x with
    | mode m => exact mode_mem_asked.mpr ((mode_mem_wants_iff.mp hx).imp_left hfirst)
    | tag t => exact tag_mem_asked.mpr (tag_mem_wants_iff.mp hx)
  have hiff : policy.widest publisher name ≤ policy.window publisher name ↔
      (policy.asked publisher name).foldl Window.add .empty ≤
        (policy.wants publisher name).foldl Window.add .empty := by
    rw [window_eq_foldl]
    exact ⟨hge.trans, hle.trans⟩
  rw [and_iff_right hnarrow, hiff, Window.foldl_add_le_iff]
  simp only [mode_mem_asked, mode_mem_wants_iff, tag_mem_asked, tag_mem_wants_iff]
  constructor
  · rintro ⟨hmodes, -⟩ m hm
    exact hmodes m (Or.inl hm)
  · intro h
    refine ⟨fun m hm => hm.elim (h m) fun hseed => ?_, fun _ ht => ht⟩
    exact Mode.within_of_mem (Or.inr hseed)

/-! ### Rules in another order -/

/-- What a list of rules asks does not depend on its order, but for the first follow. -/
theorem reordered_mem (h : policy.Reordered policy') :
    (policy'.followModes publisher).Perm (policy.followModes publisher) ∧
      (∀ m, m ∈ policy'.seedModes publisher name ↔ m ∈ policy.seedModes publisher name) ∧
      ∀ t, t ∈ policy'.ruleTags publisher name ↔ t ∈ policy.ruleTags publisher name := by
  obtain ⟨seed, follow, pin, hseed, hfollow, hpin, rfl⟩ := h
  have hfollows : (Policy.follows { policy with seed, follow, pin }).Perm policy.follows :=
    hfollow.filterMap _
  have hseeds : ∀ r, r ∈ Policy.seedRules { policy with seed, follow, pin } ↔
      r ∈ policy.seedRules := fun r => (hseed.filterMap _).mem_iff
  have hpins : ∀ r, r ∈ Policy.pins { policy with seed, follow, pin } ↔ r ∈ policy.pins :=
    fun r => (hpin.filterMap _).mem_iff
  refine ⟨(hfollows.filter _).map _, fun m => ?_, fun t => ?_⟩
  · simp only [mem_seedModes, mem_matching, hseeds]
  · simp only [mem_ruleTags, mem_matching, hseeds, hpins]

/-- A follow written first says how its publisher is followed. -/
theorem followMode_cons (policy : Policy) {e : FollowEntry}
    (he : policy.parsePublisherArg e.publisher = .ok publisher) (entries : List FollowEntry) :
    Policy.followMode { policy with follow := e :: entries } publisher = some e.mode := by
  have hparse : ((policy.parsePublisherArg e.publisher).toOption.map fun p => (p, e.mode)) =
      some (publisher, e.mode) := by
    rw [he]
    rfl
  have hfollows : Policy.follows { policy with follow := e :: entries } =
      (publisher, e.mode) :: Policy.follows { policy with follow := entries } :=
    List.filterMap_cons_some (f := fun e : FollowEntry =>
      (policy.parsePublisherArg e.publisher).toOption.map fun p => (p, e.mode)) hparse
  rw [followMode, hfollows, List.find?_cons, decide_eq_true (rfl : publisher = publisher)]
  rfl

/-- Each mode is that of an entry. -/
theorem exists_entry {m : Mode} (hm : m ∈ policy.followModes publisher) :
    ∃ e ∈ policy.follow, policy.parsePublisherArg e.publisher = .ok publisher ∧ e.mode = m := by
  obtain ⟨f, hf, rfl⟩ := List.mem_map.mp hm
  obtain ⟨hf, hp⟩ := List.mem_filter.mp hf
  obtain ⟨e, he, hparse⟩ := List.mem_filterMap.mp hf
  obtain ⟨p, hp', rfl⟩ := Option.map_eq_some_iff.mp hparse
  obtain rfl : p = publisher := of_decide_eq_true hp
  exact ⟨e, he, toOption_eq_some.mp hp', rfl⟩

/-- Any follow of the publisher can be written first. -/
theorem exists_reordered {m : Mode} (hm : m ∈ policy.followModes publisher) :
    ∃ policy', policy.Reordered policy' ∧ policy'.followMode publisher = some m := by
  obtain ⟨e, he, hparse, rfl⟩ := exists_entry hm
  obtain ⟨before, after, hsplit⟩ := List.append_of_mem he
  refine ⟨{ policy with follow := e :: (before ++ after) }, ⟨policy.seed, e :: (before ++ after),
    policy.pin, List.Perm.refl _, ?_, List.Perm.refl _, rfl⟩, followMode_cons policy hparse _⟩
  rw [hsplit]
  exact List.perm_middle.symm

/-- The order of the rules does not matter, exactly when any two follows ask for no more than each
other and the seeds. -/
theorem window_reordered_iff :
    (∀ policy', policy.Reordered policy' →
      policy'.window publisher name ≤ policy.window publisher name ∧
        policy.window publisher name ≤ policy'.window publisher name) ↔
      ∀ m ∈ policy.followModes publisher, ∀ m' ∈ policy.followModes publisher,
        m.Within {m'' | m'' = m' ∨ m'' ∈ policy.seedModes publisher name} := by
  constructor
  · intro h m hm m' hm'
    obtain ⟨p, hp, hfirst⟩ := exists_reordered hm
    obtain ⟨p', hp', hfirst'⟩ := exists_reordered hm'
    have hle : p.window publisher name ≤ p'.window publisher name := (h p hp).1.trans (h p' hp').2
    have hwithin := (window_le_iff.mp hle).1 m (mode_mem_wants_iff.mpr (Or.inl hfirst))
    simp only [mode_mem_wants_iff, hfirst', (reordered_mem hp').2.1, Option.some.injEq,
      eq_comm (a := m')] at hwithin
    exact hwithin
  · intro h
    -- of two orders each grants what the other asks
    have key : ∀ {p p' : Policy}, (p = policy ∨ policy.Reordered p) →
        (p' = policy ∨ policy.Reordered p') →
        p.window publisher name ≤ p'.window publisher name := by
      intro p p' hp hp'
      have hmem : ∀ {q : Policy}, (q = policy ∨ policy.Reordered q) →
          (q.followModes publisher).Perm (policy.followModes publisher) ∧
            (∀ m, m ∈ q.seedModes publisher name ↔ m ∈ policy.seedModes publisher name) ∧
            ∀ t, t ∈ q.ruleTags publisher name ↔ t ∈ policy.ruleTags publisher name := by
        rintro q (rfl | hq)
        · exact ⟨List.Perm.refl _, fun _ => Iff.rfl, fun _ => Iff.rfl⟩
        · exact reordered_mem hq
      obtain ⟨hfollow, hseed, htags⟩ := hmem hp
      obtain ⟨hfollow', hseed', htags'⟩ := hmem hp'
      refine window_le_iff.mpr ⟨fun m hm => ?_, fun t ht => ?_⟩
      · simp only [mode_mem_wants_iff, hseed, hseed'] at hm ⊢
        rcases hm with hm | hm
        · rw [followMode_eq_head] at hm
          have hin : m ∈ policy.followModes publisher :=
            hfollow.mem_iff.mp (List.mem_of_mem_head? hm)
          cases hlist : p'.followModes publisher with
          | nil =>
              rw [hlist] at hfollow'
              rw [hfollow'.symm.eq_nil] at hin
              cases hin
          | cons m' ms =>
              have hin' : m' ∈ policy.followModes publisher :=
                hfollow'.mem_iff.mp (hlist ▸ List.mem_cons_self)
              have hfirst : p'.followMode publisher = some m' := by
                rw [followMode_eq_head, hlist]
                rfl
              simpa only [hfirst, Option.some.injEq, eq_comm (a := m')] using h m hin m' hin'
        · exact Mode.within_of_mem (Or.inr hm)
      · rw [tag_mem_wants_iff, htags']
        rwa [tag_mem_wants_iff, htags] at ht
    exact fun p hp => ⟨key (Or.inr hp) (Or.inl rfl), key (Or.inl rfl) (Or.inr hp)⟩

/-! ### One rule more -/

theorem narrower_window_iff : (policy.window publisher name).Narrower
      (policy'.window publisher name) ↔
    (∀ m, policy.followMode publisher = some m ∨ m ∈ policy.seedModes publisher name →
      ∃ m', (policy'.followMode publisher = some m' ∨ m' ∈ policy'.seedModes publisher name) ∧
        m.AtMost m') ∧
      ∀ t ∈ policy.ruleTags publisher name, t ∈ policy'.ruleTags publisher name := by
  rw [window_eq_foldl, window_eq_foldl, Window.narrower_iff]
  simp only [mode_mem_wants_iff, tag_mem_wants_iff]

/-- What the other rules ask is asked still, and who was followed is followed. -/
theorem inserted_mem (h : policy.Inserted policy') :
    (∀ m ∈ policy.followModes publisher, m ∈ policy'.followModes publisher) ∧
      (∀ m ∈ policy.seedModes publisher name, m ∈ policy'.seedModes publisher name) ∧
      ∀ t ∈ policy.ruleTags publisher name, t ∈ policy'.ruleTags publisher name := by
  have hsub : ∃ seed follow pin, policy.seed ⊆ seed ∧ policy.follow ⊆ follow ∧ policy.pin ⊆ pin ∧
      policy' = { policy with seed, follow, pin } := by
    have hinto : ∀ {α : Type} {l before after : List α} {e : α}, l = before ++ after →
        l ⊆ before ++ e :: after := by
      rintro α _ before after e rfl x hx
      rw [List.mem_append] at hx ⊢
      exact hx.imp_right (List.mem_cons_of_mem e)
    rcases h with ⟨before, after, e, hl, rfl⟩ | ⟨before, after, e, hl, rfl⟩ |
      ⟨before, after, e, hl, rfl⟩
    · exact ⟨_, _, _, hinto hl, List.Subset.refl _, List.Subset.refl _, rfl⟩
    · exact ⟨_, _, _, List.Subset.refl _, hinto hl, List.Subset.refl _, rfl⟩
    · exact ⟨_, _, _, List.Subset.refl _, List.Subset.refl _, hinto hl, rfl⟩
  obtain ⟨seed, follow, pin, hseed, hfollow, hpin, rfl⟩ := hsub
  have hseeds : policy.seedRules ⊆ Policy.seedRules { policy with seed, follow, pin } :=
    List.filterMap_subset _ hseed
  have hpins : policy.pins ⊆ Policy.pins { policy with seed, follow, pin } :=
    List.filterMap_subset _ hpin
  have hfollows : policy.follows ⊆ Policy.follows { policy with seed, follow, pin } :=
    List.filterMap_subset _ hfollow
  refine ⟨fun m hm => List.map_subset _ (List.filter_subset _ hfollows) hm, fun m hm => ?_,
    fun t ht => ?_⟩
  · obtain ⟨r, hr, hm⟩ := mem_seedModes.mp hm
    obtain ⟨hr, hat⟩ := mem_matching.mp hr
    exact mem_seedModes.mpr ⟨r, mem_matching.mpr ⟨hseeds hr, hat⟩, hm⟩
  · obtain ⟨r, hr, ht⟩ := mem_ruleTags.mp ht
    refine mem_ruleTags.mpr ⟨r, ?_, ht⟩
    simp only [mem_matching] at hr ⊢
    exact hr.imp (And.imp_left fun h => hseeds h) (And.imp_left fun h => hpins h)

/-- No insertion takes a tag away, exactly when the follow asks for no more than the newest release
or the seeds do. -/
theorem window_inserted_iff :
    (∀ policy', policy.Inserted policy' → ∀ known,
      (policy.window publisher name).select known ⊆
        (policy'.window publisher name).select known) ↔
      ∀ m, policy.followMode publisher = some m →
        ∃ m', (m' = .latest ∨ m' ∈ policy.seedModes publisher name) ∧ m.AtMost m' := by
  simp only [Window.select_subset_iff, narrower_window_iff]
  constructor
  · intro h m hm
    rw [followMode_eq_head] at hm
    obtain ⟨e, -, he, -⟩ := exists_entry (List.mem_of_mem_head? hm)
    -- the same publisher, followed for its newest release, above all other entries
    obtain ⟨hmodes, -⟩ := h { policy with follow := ⟨e.publisher, .latest⟩ :: policy.follow }
      (Or.inr (Or.inl ⟨[], policy.follow, _, rfl, rfl⟩))
    have hfirst := followMode_cons policy (e := ⟨e.publisher, .latest⟩) he policy.follow
    obtain ⟨m', hm', hle⟩ := hmodes m (Or.inl (followMode_eq_head policy publisher ▸ hm))
    rw [hfirst] at hm'
    exact ⟨m', hm'.imp_left fun h => (Option.some.inj h).symm, hle⟩
  · intro h p hp
    obtain ⟨hfollow, hseed, htags⟩ : _ ∧ _ ∧ ∀ t ∈ policy.ruleTags publisher name,
        t ∈ p.ruleTags publisher name := inserted_mem hp
    refine ⟨fun m hm => ?_, htags⟩
    rcases hm with hm | hm
    · obtain ⟨m', hm' | hm', hle⟩ := h m hm
      · -- whatever follow is the first now keeps the newest release
        rw [followMode_eq_head] at hm
        have hin := hfollow m (List.mem_of_mem_head? hm)
        obtain ⟨first, hfirst⟩ := Option.isSome_iff_exists.mp
          (List.isSome_head?.mpr (List.ne_nil_of_mem hin))
        rw [← followMode_eq_head] at hfirst
        exact ⟨first, Or.inl hfirst, (hm' ▸ hle).trans (Mode.latest_atMost first)⟩
      · exact ⟨m', Or.inr (hseed m' hm'), hle⟩
    · exact ⟨m, Or.inr (hseed m hm), Mode.AtMost.refl m⟩

/-- **The rules of an image combine exactly when the follows of its publisher agree.** -/
theorem combines_iff (policy : Policy) (publisher : PublisherId) (name : Str) :
    policy.Combines publisher name ↔ policy.Agreed publisher name := by
  have hhead : ∀ {m}, policy.followMode publisher = some m → m ∈ policy.followModes publisher := by
    intro m hm
    rw [followMode_eq_head] at hm
    exact List.mem_of_mem_head? hm
  constructor
  · intro h
    have heach := window_reordered_iff.mp h.reordered
    refine ⟨heach, fun m hm => ?_⟩
    obtain ⟨first, hfirst⟩ := Option.isSome_iff_exists.mp
      (List.isSome_head?.mpr (List.ne_nil_of_mem hm))
    rw [← followMode_eq_head] at hfirst
    -- a follow asks for no more than the first one does, or a seed
    obtain ⟨m', rfl | hm', hle⟩ := Mode.atMost_of_within (heach m hm first (hhead hfirst))
    · obtain ⟨m'', hm'', hle'⟩ := window_inserted_iff.mp h.inserted m' hfirst
      exact ⟨m'', hm'', hle.trans hle'⟩
    · exact ⟨m', Or.inr hm', hle⟩
  · intro h
    refine ⟨window_widest_iff.mpr fun m hm => ?_, window_reordered_iff.mpr h.each,
      window_inserted_iff.mpr fun m hm => h.newest m (hhead hm)⟩
    obtain ⟨first, hfirst⟩ := Option.isSome_iff_exists.mp
      (List.isSome_head?.mpr (List.ne_nil_of_mem hm))
    rw [← followMode_eq_head] at hfirst
    simpa only [hfirst, Option.some.injEq, eq_comm (a := first)] using
      h.each m hm first (hhead hfirst)

end Policy

/-! ### A publisher followed twice -/

namespace Sample

/-- The newest release of a publisher is followed, and further below all of them. -/
def followedTwice [External] : Policy :=
  { Policy.default with
    follow := [⟨alice.id.toStr, .latest⟩, ⟨didKey alice.id, .full⟩] }

end Sample

namespace Policy

/-- The follow further below is not seen. -/
theorem second_follow_not_seen : letI := sample
    ¬ Sample.followedTwice.Combines Sample.alice.id "app" := by
  let _ := sample
  intro h
  have hfull : (Sample.followedTwice.widest Sample.alice.id "app").full = true := by
    decide +kernel
  have hnot : (Sample.followedTwice.window Sample.alice.id "app").full = false := by
    decide +kernel
  have := h.widest.2.1 hfull
  rw [hnot] at this
  cases this

end Policy

end Ocid
