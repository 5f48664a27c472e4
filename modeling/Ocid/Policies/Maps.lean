import Ocid.Core.Wants
import Ocid.Naming.Explicit

/-!
# Policies — Maps — the rules as three maps

The lists of a policy hold texts, and one publisher or image can be written in hex, as a `did:key`
or by a domain of the policy.  `Policy.ruleMaps` reads the lists by what the texts resolve to: the
mode a publisher is followed with, the modes an image or a tag of it is seeded with, and the tags
that are pinned.

The six operations compare entries in different ways.  `addFollow`, `removeFollow` and `removeSeed`
compare what the entries resolve to, and change the maps at their argument and nowhere else.
`addSeed` and `addPin` compare the texts, `removePin` the text and the hex text; they do the same
exactly when no other spelling of their argument is in the list with something else to say
(`exact_iff`).
-/

namespace Ocid

/-- The image or the tag that a rule is about. -/
def SeedRule.target (r : SeedRule) : ImageRef := ⟨r.publisher, r.name, r.tag⟩

/-- The rules of a policy, by what they resolve to. -/
@[ext]
structure RuleMaps where
  /-- The mode of a follow. -/
  follow : PublisherId → Option Mode
  /-- The modes of a seed, one for each entry. -/
  seed : ImageRef → Set Mode
  pin : Set ImageRef

theorem RuleMaps.seed_inj (maps : RuleMaps) (f g : ImageRef → Set Mode) :
    ({ maps with seed := f } : RuleMaps) = { maps with seed := g } ↔ f = g :=
  ⟨congrArg RuleMaps.seed, fun h => by rw [h]⟩

theorem RuleMaps.follow_inj (maps : RuleMaps) (f g : PublisherId → Option Mode) :
    ({ maps with follow := f } : RuleMaps) = { maps with follow := g } ↔ f = g :=
  ⟨congrArg RuleMaps.follow, fun h => by rw [h]⟩

theorem RuleMaps.pin_inj (maps : RuleMaps) (f g : Set ImageRef) :
    ({ maps with pin := f } : RuleMaps) = { maps with pin := g } ↔ f = g :=
  ⟨congrArg RuleMaps.pin, fun h => by rw [h]⟩

/-- An operation on one of the lists. -/
inductive Mutator where
  | addSeed (rule : Str) (mode : Mode)
  | removeSeed (rule : Str)
  | addFollow (publisher : Str) (mode : Mode)
  | removeFollow (publisher : Str)
  | addPin (reference : Str)
  | removePin (reference : Str)

variable [External]

/-- The hex text of a key that was read is read as that key. -/
def KeysPrint : Prop :=
  ∀ s K, parsePublisher s = .ok K → External.keyFromStr K.toStr = some K

namespace Policy

/-- What a rule resolves to. -/
def target (policy : Policy) (rule : Str) : Option ImageRef :=
  (policy.parseSeedRule rule .full).toOption.map SeedRule.target

/-- A publisher is followed with the mode of its first entry, as `followMode` has it; the window of
an image absorbs the modes of all its seeds. -/
def ruleMaps (policy : Policy) : RuleMaps where
  follow := policy.followMode
  seed t := {m | ∃ r ∈ policy.seedRules, r.target = t ∧ r.mode = m}
  pin := {t | ∃ r ∈ policy.pins, r.target = t}

end Policy

namespace Mutator

/-- What a mutator does to the policy. -/
def apply (policy : Policy) : Mutator → Except Err (Policy × Bool)
  | addSeed rule mode => policy.addSeed rule mode
  | removeSeed rule => policy.removeSeed rule
  | addFollow publisher mode => policy.addFollow publisher mode
  | removeFollow publisher => policy.removeFollow publisher
  | addPin reference => policy.addPin reference
  | removePin reference => policy.removePin reference

/-- What an operation is for: its argument is set or deleted, for a seed without tag with all tags
of the image. -/
def meaning (policy : Policy) : Mutator → Except Err RuleMaps
  | addSeed rule mode => do
      let r ← policy.parseSeedRule rule mode
      pure { policy.ruleMaps with seed := Function.update policy.ruleMaps.seed r.target {mode} }
  | removeSeed rule => do
      let r ← policy.parseSeedRule rule .full
      pure { policy.ruleMaps with
        seed := fun t =>
          if t.publisher = r.publisher ∧ t.name = r.name ∧ (r.tag = none ∨ t.tag = r.tag) then ∅
          else policy.ruleMaps.seed t }
  | addFollow publisher mode => do
      let key ← policy.parsePublisherArg publisher
      pure { policy.ruleMaps with follow := Function.update policy.ruleMaps.follow key (some mode) }
  | removeFollow publisher => do
      let key ← policy.parsePublisherArg publisher
      pure { policy.ruleMaps with follow := Function.update policy.ruleMaps.follow key none }
  | addPin reference => do
      let r ← policy.parseSeedRule reference .full
      if r.tag.isNone then .error ["a pin needs a tag: " ++ reference]
      else pure { policy.ruleMaps with pin := insert r.target policy.ruleMaps.pin }
  | removePin reference => do
      let r ← policy.parseSeedRule reference .full
      pure { policy.ruleMaps with pin := policy.ruleMaps.pin \ {r.target} }

/-- An operation whose argument parses returns, changes the maps as it is meant to, and says whether
they changed. -/
def Exact (policy : Policy) (op : Mutator) : Prop :=
  ∀ maps, op.meaning policy = .ok maps → ∃ p b, op.apply policy = .ok (p, b) ∧
    p.ruleMaps = maps ∧ (b = true ↔ maps ≠ policy.ruleMaps)

/-- The entries of the list that resolve to the argument are written as the operation looks for
them: a seed by its text, or they carry the mode already; a pin by its text, or in hex for the one
that is removed. -/
def Alike (policy : Policy) : Mutator → Prop
  | addSeed rule mode => ∀ t, policy.target rule = some t →
      (∀ e ∈ policy.seed.eraseP fun e => e.reference = rule,
        policy.target e.reference = some t → e.mode = mode) ∧
      ((∃ e ∈ policy.seed, policy.target e.reference = some t) →
        ∃ e ∈ policy.seed, e.reference = rule)
  | addPin reference => ∀ t, policy.target reference = some t → t.tag.isSome = true →
      (∃ s ∈ policy.pin, policy.target s = some t) → reference ∈ policy.pin
  | removePin reference => ∀ r, policy.parseSeedRule reference .full = .ok r → ∀ s ∈ policy.pin,
      (s = reference ∨ s = seedRuleToString r ↔
        policy.target s = some r.target ∧ r.tag.isSome = true)
  | _ => True

end Mutator

/-! ### What the texts resolve to -/

namespace Policy

variable {policy p : Policy} {rule : Str} {mode : Mode} {r : SeedRule} {t : ImageRef} {b : Bool}

/-- A rule resolves to the same whatever its mode. -/
theorem parseSeedRule_ok : policy.parseSeedRule rule mode = .ok r ↔
    policy.target rule = some r.target ∧ r.mode = mode := by
  have hmode : policy.parseSeedRule rule mode =
      (policy.parseSeedRule rule .full).map fun r => { r with mode } := by
    rw [parseSeedRule, parseSeedRule]
    cases Str.splitOnce '/' rule with
    | none => rfl
    | some parts =>
        simp only [bind, Except.bind]
        cases policy.parsePublisherArg parts.1 with
        | error e => rfl
        | ok k => cases splitTag parts.2 <;> rfl
  rw [hmode, target]
  cases policy.parseSeedRule rule .full with
  | error e => exact ⟨nofun, fun h => nomatch h.1⟩
  | ok x =>
      obtain ⟨publisher, name, tag, m⟩ := r
      simp [Except.map, Except.toOption, SeedRule.target, and_assoc, eq_comm (a := mode)]

/-- The modes of the entries that resolve to an image or a tag. -/
def modesAt (policy : Policy) (entries : List SeedEntry) (t : ImageRef) : Set Mode :=
  {m | ∃ e ∈ entries, policy.target e.reference = some t ∧ e.mode = m}

theorem mem_modesAt {entries : List SeedEntry} : mode ∈ policy.modesAt entries t ↔
    ∃ e ∈ entries, policy.target e.reference = some t ∧ e.mode = mode :=
  Iff.rfl

/-- A list of seeds is read as the modes of its entries. -/
theorem ruleMaps_seed (policy : Policy) (seed : List SeedEntry) :
    Policy.ruleMaps { policy with seed } =
      { policy.ruleMaps with seed := policy.modesAt seed } := by
  ext t m
  · rfl
  · simp only [ruleMaps, seedRules, Set.mem_ofPred_eq, List.mem_filterMap, toOption_eq_some,
      parseSeedRule_ok, mem_modesAt]
    constructor
    · rintro ⟨r, ⟨e, he, htarget, hmode⟩, rfl, rfl⟩
      exact ⟨e, he, htarget, hmode.symm⟩
    · rintro ⟨e, he, htarget, hmode⟩
      exact ⟨⟨t.publisher, t.name, t.tag, e.mode⟩, ⟨e, he, htarget, rfl⟩, rfl, hmode⟩
  · rfl

theorem seed_ruleMaps (policy : Policy) : policy.ruleMaps.seed = policy.modesAt policy.seed :=
  congrArg RuleMaps.seed (ruleMaps_seed policy policy.seed)

/-- One entry more is one mode more of what it resolves to. -/
theorem modesAt_middle {e : SeedEntry} (ht : policy.target e.reference = some t)
    (before after : List SeedEntry) : policy.modesAt (before ++ e :: after) =
      Function.update (policy.modesAt (before ++ after)) t
        (insert e.mode (policy.modesAt (before ++ after) t)) := by
  funext u
  ext m
  have hmem : ∀ x, x ∈ before ++ e :: after ↔ x = e ∨ x ∈ before ++ after := fun x =>
    List.perm_middle.mem_iff.trans List.mem_cons
  simp only [mem_modesAt, hmem, or_and_right, exists_or, exists_eq_left, Function.update_apply]
  split
  · rename_i hu
    rw [hu, Set.mem_insert_iff, mem_modesAt, and_iff_right ht, eq_comm]
  · rename_i hu
    rw [mem_modesAt, or_iff_right fun h => hu (Option.some.inj (h.1.symm.trans ht))]

/-- The entries that are not the first of a text. -/
def others (policy : Policy) (rule : Str) : List SeedEntry :=
  policy.seed.eraseP fun e => e.reference = rule

/-- The mode of the first entry of a text. -/
def oldMode (policy : Policy) (rule : Str) : Option Mode :=
  (policy.seed.find? fun e => e.reference = rule).map SeedEntry.mode

theorem addSeed_maps (h : policy.addSeed rule mode = .ok (p, b)) (ht : policy.target rule = some t) :
    policy.ruleMaps.seed t =
      {m | m ∈ policy.oldMode rule} ∪ policy.modesAt (policy.others rule) t ∧
    p.ruleMaps = { policy.ruleMaps with
      seed := Function.update policy.ruleMaps.seed t
        (insert mode (policy.modesAt (policy.others rule) t)) } ∧
    (b = true ↔ policy.oldMode rule ≠ some mode) := by
  obtain ⟨-, seed, rfl, ⟨hnone, rfl, rfl⟩ | ⟨before, m, after, hseed, hbefore, rfl, hb⟩⟩ :=
    addSeed_ok h
  · have hothers : policy.others rule = policy.seed :=
      List.eraseP_of_forall_not fun e he => by simpa using hnone e he
    have hold : policy.oldMode rule = none := by
      rw [oldMode, List.find?_eq_none.mpr fun e he => by simpa using hnone e he]
      rfl
    refine ⟨by simp [hold, hothers, seed_ruleMaps], ?_, by simp [hold]⟩
    rw [ruleMaps_seed, hothers, seed_ruleMaps, modesAt_middle ht, List.append_nil]
  · have hothers : policy.others rule = before ++ after := by
      rw [others, hseed, List.eraseP_append_right _ fun e he => by simpa using hbefore e he,
        List.eraseP_cons_of_pos (by simp)]
    have hold : policy.oldMode rule = some m := by
      rw [oldMode, hseed, List.find?_append,
        List.find?_eq_none.mpr fun e he => by simpa using hbefore e he]
      simp
    have hold' : policy.modesAt policy.seed = Function.update (policy.modesAt (before ++ after)) t
        (insert m (policy.modesAt (before ++ after) t)) := by
      rw [hseed]
      exact modesAt_middle ht before after
    refine ⟨?_, ?_, by simp [hold, hb]⟩
    · rw [seed_ruleMaps, hold', hothers, hold, Function.update_self]
      ext x
      simp [eq_comm]
    · rw [ruleMaps_seed, hothers, seed_ruleMaps, hold', Function.update_idem, modesAt_middle ht]

/-- A list of pins is read as what its entries with a tag resolve to. -/
theorem ruleMaps_pin (policy : Policy) (pin : List Str) :
    Policy.ruleMaps { policy with pin } =
      { policy.ruleMaps with
        pin := {t | t.tag.isSome = true ∧ ∃ s ∈ pin, policy.target s = some t} } := by
  ext t
  · rfl
  · rfl
  · simp only [ruleMaps, pins, Set.mem_ofPred_eq, List.mem_filterMap, Option.filter_eq_some_iff,
      toOption_eq_some, parseSeedRule_ok]
    constructor
    · rintro ⟨r, ⟨s, hs, ⟨htarget, -⟩, htag⟩, rfl⟩
      exact ⟨htag, s, hs, htarget⟩
    · rintro ⟨htag, s, hs, htarget⟩
      exact ⟨⟨t.publisher, t.name, t.tag, .full⟩, ⟨s, hs, ⟨htarget, rfl⟩, htag⟩, rfl⟩

theorem mem_pin : t ∈ policy.ruleMaps.pin ↔
    t.tag.isSome = true ∧ ∃ s ∈ policy.pin, policy.target s = some t :=
  iff_of_eq (congrArg (t ∈ RuleMaps.pin ·) (ruleMaps_pin policy policy.pin))

/-- A pin that is added is a pin of what it resolves to, which has a tag. -/
theorem addPin_maps (h : policy.addPin rule = .ok (p, b)) (ht : policy.target rule = some t) :
    p.ruleMaps = { policy.ruleMaps with pin := insert t policy.ruleMaps.pin } ∧
      t.tag.isSome = true := by
  obtain ⟨r, hr, htag, hp⟩ := addPin_ok h
  have hsome : t.tag.isSome = true :=
    Option.some.inj ((parseSeedRule_ok.mp hr).1.symm.trans ht) ▸ htag
  refine ⟨?_, hsome⟩
  rcases hp with ⟨hin, hp, -⟩ | ⟨-, rfl, -⟩
  · have hmem : t ∈ policy.ruleMaps.pin := mem_pin.mpr ⟨hsome, rule, hin, ht⟩
    rw [hp, Set.insert_eq_of_mem hmem]
  · rw [ruleMaps_pin, RuleMaps.pin_inj]
    ext u
    simp only [Set.mem_insert_iff, mem_pin, Set.mem_ofPred_eq, List.mem_append, List.mem_singleton,
      or_and_right, exists_or, exists_eq_left, ht, Option.some.injEq, and_or_left]
    rw [or_comm]
    exact or_congr_left ⟨fun h => h.2.symm, fun h => ⟨h ▸ hsome, h.symm⟩⟩

/-- The mode of the first entry of a publisher. -/
def modeOf (policy : Policy) (entries : List FollowEntry) (q : PublisherId) : Option Mode :=
  (entries.find? fun e => (policy.parsePublisherArg e.publisher).toOption = some q).map
    FollowEntry.mode

theorem modeOf_eq_none {entries : List FollowEntry} {q : PublisherId} :
    policy.modeOf entries q = none ↔ ∀ e ∈ entries, policy.parsePublisherArg e.publisher ≠ .ok q := by
  simp only [modeOf, Option.map_eq_none_iff, List.find?_eq_none, decide_eq_true_eq, toOption_eq_some]

/-- The first entry of a publisher says with which mode it is followed. -/
theorem followMode_eq (policy : Policy) : policy.followMode = policy.modeOf policy.follow := by
  funext q
  rw [followMode, follows, modeOf]
  generalize policy.follow = entries
  induction entries with
  | nil => rfl
  | cons e entries ih =>
      rw [List.filterMap_cons, List.find?_cons]
      cases hp : (policy.parsePublisherArg e.publisher).toOption with
      | none => simpa using ih
      | some k =>
          by_cases hk : k = q
          · simp [hk]
          · simpa [hk] using ih

/-- A list of follows is read by the first entry of each publisher. -/
theorem ruleMaps_follow (policy : Policy) (follow : List FollowEntry) :
    Policy.ruleMaps { policy with follow } =
      { policy.ruleMaps with follow := policy.modeOf follow } := by
  ext q m
  · exact iff_of_eq (congrArg (· q = some m) (followMode_eq { policy with follow }))
  · rfl
  · rfl

theorem modeOf_middle {e : FollowEntry} {key : PublisherId} {before : List FollowEntry}
    (he : policy.parsePublisherArg e.publisher = .ok key)
    (hbefore : ∀ x ∈ before, policy.parsePublisherArg x.publisher ≠ .ok key)
    (after : List FollowEntry) : policy.modeOf (before ++ e :: after) =
      Function.update (policy.modeOf (before ++ after)) key (some e.mode) := by
  funext q
  have hkey : (policy.parsePublisherArg e.publisher).toOption = some key := toOption_eq_some.mpr he
  rw [Function.update_apply, modeOf, modeOf, List.find?_append, List.find?_append, List.find?_cons,
    hkey]
  by_cases hq : q = key
  · subst hq
    have hnone : (before.find? fun x =>
        (policy.parsePublisherArg x.publisher).toOption = some q) = none := by
      simpa [toOption_eq_some] using hbefore
    simp [hnone]
  · simp [hq, Ne.symm hq]

theorem modeOf_filter (policy : Policy) (entries : List FollowEntry) (key : PublisherId) :
    policy.modeOf (entries.filter fun e =>
        (policy.parsePublisherArg e.publisher).toOption ≠ some key) =
      Function.update (policy.modeOf entries) key none := by
  funext q
  rw [Function.update_apply]
  split
  · rename_i hq
    refine modeOf_eq_none.mpr fun e he hp => ?_
    rw [List.mem_filter, decide_eq_true_eq, ne_eq, toOption_eq_some, ← hq] at he
    exact he.2 hp
  · rename_i hq
    rw [modeOf, modeOf, List.find?_filter]
    congr 2
    funext e
    by_cases he : (policy.parsePublisherArg e.publisher).toOption = some q
    · simp [he, hq]
    · simp [he]

/-! ### What the maps ask of an image -/

theorem mode_mem_wants {publisher : PublisherId} {name : Str} :
    Want.mode mode ∈ policy.wants publisher name ↔
      policy.ruleMaps.follow publisher = some mode ∨
        mode ∈ policy.ruleMaps.seed ⟨publisher, name, none⟩ := by
  have hwant : ∀ r : SeedRule, r.want = Want.mode mode ↔ r.tag = none ∧ r.mode = mode := by
    intro r
    rw [SeedRule.want]
    cases r.tag <;> simp
  simp only [wants, List.mem_append, List.mem_map, hwant, mem_matching]
  constructor
  · rintro (⟨m, hm, heq⟩ | ⟨r, ⟨hr, rfl, rfl⟩, htag, hmode⟩ | ⟨r, ⟨hr, -, -⟩, htag, -⟩)
    · cases heq
      exact Or.inl (Option.mem_toList.mp hm)
    · exact Or.inr ⟨r, hr, by rw [SeedRule.target, htag], hmode⟩
    · have hsome := tag_isSome_of_mem_pins hr
      rw [htag] at hsome
      cases hsome
  · rintro (hfollow | ⟨r, hr, htarget, hmode⟩)
    · exact Or.inl ⟨mode, Option.mem_toList.mpr hfollow, rfl⟩
    · obtain ⟨publisher, name, tag, m⟩ := r
      cases htarget
      exact Or.inr (Or.inl ⟨_, ⟨hr, rfl, rfl⟩, rfl, hmode⟩)

theorem tag_mem_wants {publisher : PublisherId} {name x : Str} :
    Want.tag x ∈ policy.wants publisher name ↔
      (policy.ruleMaps.seed ⟨publisher, name, some x⟩).Nonempty ∨
        ⟨publisher, name, some x⟩ ∈ policy.ruleMaps.pin := by
  have hwant : ∀ r : SeedRule, r.want = Want.tag x ↔ r.tag = some x := by
    intro r
    rw [SeedRule.want]
    cases r.tag <;> simp
  simp only [wants, List.mem_append, List.mem_map, hwant, mem_matching]
  constructor
  · rintro (⟨m, -, heq⟩ | ⟨r, ⟨hr, rfl, rfl⟩, htag⟩ | ⟨r, ⟨hr, rfl, rfl⟩, htag⟩)
    · cases heq
    · exact Or.inl ⟨r.mode, r, hr, by rw [SeedRule.target, htag], rfl⟩
    · exact Or.inr ⟨r, hr, by rw [SeedRule.target, htag]⟩
  · rintro (⟨m, r, hr, htarget, -⟩ | ⟨r, hr, htarget⟩)
    · obtain ⟨publisher, name, tag, m⟩ := r
      cases htarget
      exact Or.inr (Or.inl ⟨_, ⟨hr, rfl, rfl⟩, rfl⟩)
    · obtain ⟨publisher, name, tag, m⟩ := r
      cases htarget
      exact Or.inr (Or.inr ⟨_, ⟨hr, rfl, rfl⟩, rfl⟩)

end Policy

/-! ### What the operations do to the maps -/

namespace Mutator

variable {policy p : Policy} {op : Mutator} {maps : RuleMaps} {b : Bool}

/-- An operation whose argument parses returns. -/
theorem applies (h : op.meaning policy = .ok maps) : ∃ p b, op.apply policy = .ok (p, b) := by
  cases op with
  | addSeed rule mode =>
      rw [meaning] at h
      rw [apply, Policy.addSeed]
      cases hr : policy.parseSeedRule rule mode with
      | error e =>
          rw [hr] at h
          cases h
      | ok r =>
          simp only [bind, Except.bind]
          split
          · split
            · exact ⟨_, _, rfl⟩
            · exact ⟨_, _, rfl⟩
          · exact ⟨_, _, rfl⟩
  | removeSeed rule =>
      rw [meaning] at h
      rw [apply, Policy.removeSeed]
      cases hr : policy.parseSeedRule rule .full with
      | error e =>
          rw [hr] at h
          cases h
      | ok r => exact ⟨_, _, rfl⟩
  | addFollow publisher mode =>
      rw [meaning] at h
      rw [apply, Policy.addFollow]
      cases hkey : policy.parsePublisherArg publisher with
      | error e =>
          rw [hkey] at h
          cases h
      | ok key =>
          simp only [bind, Except.bind]
          split
          · split
            · exact ⟨_, _, rfl⟩
            · exact ⟨_, _, rfl⟩
          · exact ⟨_, _, rfl⟩
  | removeFollow publisher =>
      rw [meaning] at h
      rw [apply, Policy.removeFollow]
      cases hkey : policy.parsePublisherArg publisher with
      | error e =>
          rw [hkey] at h
          cases h
      | ok key => exact ⟨_, _, rfl⟩
  | addPin reference =>
      rw [meaning] at h
      rw [apply, Policy.addPin]
      cases hr : policy.parseSeedRule reference .full with
      | error e =>
          rw [hr] at h
          cases h
      | ok r =>
          simp only [hr, bind, Except.bind] at h ⊢
          split at h
          · cases h
          · rename_i htag
            rw [if_neg htag]
            split
            · exact ⟨_, _, rfl⟩
            · exact ⟨_, _, rfl⟩
  | removePin reference =>
      rw [meaning] at h
      rw [apply, Policy.removePin]
      cases hr : policy.parseSeedRule reference .full with
      | error e =>
          rw [hr] at h
          cases h
      | ok r => exact ⟨_, _, rfl⟩

/-- What it returns decides whether it is exact. -/
theorem exact_of_apply (hm : op.meaning policy = .ok maps) (h : op.apply policy = .ok (p, b)) :
    Exact policy op ↔ p.ruleMaps = maps ∧ (b = true ↔ maps ≠ policy.ruleMaps) := by
  constructor
  · intro hexact
    obtain ⟨p', b', h', hmaps, hb⟩ := hexact maps hm
    cases h.symm.trans h'
    exact ⟨hmaps, hb⟩
  · rintro hp maps' hm'
    cases hm.symm.trans hm'
    exact ⟨p, b, h, hp⟩

/-- An operation whose argument does not parse is exact. -/
theorem exact_of_error {e : Err} (hm : op.meaning policy = .error e) : Exact policy op :=
  fun _ h => nomatch hm.symm.trans h

variable {rule reference publisher : Str} {mode : Mode} {t : ImageRef}

omit [External] in
/-- The modes that stay beside the new one decide whether it is the only one, and the mode that it
replaces whether the operation tells a change. -/
theorem replaces_iff {old : Option Mode} {stay : Set Mode} :
    (insert mode stay = {mode} ∧ (old ≠ some mode ↔ {mode} ≠ {m | m ∈ old} ∪ stay)) ↔
      stay ⊆ {mode} ∧ (({m | m ∈ old} ∪ stay).Nonempty → old ≠ none) := by
  have hinsert : insert mode stay = {mode} ↔ stay ⊆ {mode} :=
    ⟨fun h => h ▸ Set.subset_insert mode stay, fun h =>
      Set.Subset.antisymm (Set.insert_subset rfl h) (Set.singleton_subset_iff.mpr (Or.inl rfl))⟩
  rw [hinsert]
  refine and_congr_right fun hstay => ?_
  rcases Set.subset_singleton_iff_eq.mp hstay with rfl | rfl
  · cases old with
    | none => simp
    | some m => simp [eq_comm (a := mode)]
  · cases old with
    | none => simp
    | some m => simp [Set.ext_iff]

/-- A seed that is added. -/
theorem exact_addSeed : Exact policy (.addSeed rule mode) ↔ Alike policy (.addSeed rule mode) := by
  cases hr : policy.parseSeedRule rule mode with
  | error e =>
      have hnone : policy.target rule = none := by
        refine Option.eq_none_iff_forall_ne_some.mpr fun t ht => ?_
        have hok : policy.parseSeedRule rule mode = .ok ⟨t.publisher, t.name, t.tag, mode⟩ :=
          Policy.parseSeedRule_ok.mpr ⟨ht, rfl⟩
        cases hr.symm.trans hok
      refine iff_of_true (exact_of_error (e := e) ?_) fun t ht => nomatch hnone.symm.trans ht
      rw [meaning, hr]
      rfl
  | ok r =>
      have ht := (Policy.parseSeedRule_ok.mp hr).1
      have hm : meaning policy (.addSeed rule mode) = .ok { policy.ruleMaps with
          seed := Function.update policy.ruleMaps.seed r.target {mode} } := by
        rw [meaning, hr]
        rfl
      obtain ⟨p, b, h⟩ := applies hm
      obtain ⟨hold, hmaps, hb⟩ := Policy.addSeed_maps h ht
      have hstay : (∀ e ∈ policy.others rule, policy.target e.reference = some r.target →
          e.mode = mode) ↔ policy.modesAt (policy.others rule) r.target ⊆ {mode} :=
        ⟨fun h m ⟨e, he, hte, hem⟩ => hem ▸ h e he hte, fun h e he hte => h ⟨e, he, hte, rfl⟩⟩
      have hany : (∃ e ∈ policy.seed, policy.target e.reference = some r.target) ↔
          (policy.ruleMaps.seed r.target).Nonempty := by
        rw [Policy.seed_ruleMaps]
        exact ⟨fun ⟨e, he, hte⟩ => ⟨e.mode, e, he, hte, rfl⟩, fun ⟨m, e, he, hte, _⟩ => ⟨e, he, hte⟩⟩
      have htext : (∃ e ∈ policy.seed, e.reference = rule) ↔ policy.oldMode rule ≠ none := by
        rw [Policy.oldMode, ne_eq, Option.map_eq_none_iff, List.find?_eq_none]
        simp
      have hchanged : ({ policy.ruleMaps with
          seed := Function.update policy.ruleMaps.seed r.target {mode} } : RuleMaps) =
            policy.ruleMaps ↔ {mode} = policy.ruleMaps.seed r.target :=
        (RuleMaps.seed_inj _ _ policy.ruleMaps.seed).trans Function.update_eq_self_iff
      rw [exact_of_apply hm h, hmaps, RuleMaps.seed_inj, (Function.update_injective _ _).eq_iff, hb,
        ne_eq _ policy.ruleMaps, hchanged, hold, replaces_iff, ← hold, ← hany, ← htext, ← hstay]
      exact ⟨fun hp t h => Option.some.inj (ht.symm.trans h) ▸ hp, fun hp => hp _ ht⟩

/-- A seed that is removed, or all seeds of the image. -/
theorem exact_removeSeed : Exact policy (.removeSeed rule) := by
  cases hr : policy.parseSeedRule rule .full with
  | error e =>
      refine exact_of_error (e := e) ?_
      rw [meaning, hr]
      rfl
  | ok r =>
      set deleted : ImageRef → Prop := fun t =>
        t.publisher = r.publisher ∧ t.name = r.name ∧ (r.tag = none ∨ t.tag = r.tag) with hdeleted
      have hm : meaning policy (.removeSeed rule) = .ok { policy.ruleMaps with
          seed := fun t => if deleted t then ∅ else policy.ruleMaps.seed t } := by
        rw [meaning, hr]
        rfl
      obtain ⟨p, b, h⟩ := applies hm
      obtain ⟨r', hr', seed, rfl, hmem, hb⟩ := Policy.removeSeed_ok h
      cases hr.symm.trans hr'
      -- an entry stays unless it resolves to what is deleted
      have hstays : ∀ e, e ∈ seed ↔ e ∈ policy.seed ∧
          ∀ t, policy.target e.reference = some t → ¬ deleted t := by
        intro e
        rw [hmem]
        refine and_congr_right fun _ => ?_
        constructor
        · exact fun h t ht => h ⟨t.publisher, t.name, t.tag, e.mode⟩
            (Policy.parseSeedRule_ok.mpr ⟨ht, rfl⟩)
        · exact fun h x hx => h x.target (Policy.parseSeedRule_ok.mp hx).1
      rw [exact_of_apply hm h, Policy.ruleMaps_seed, RuleMaps.seed_inj]
      have hmaps : policy.modesAt seed = fun t =>
          if deleted t then ∅ else policy.ruleMaps.seed t := by
        funext t
        ext m
        rw [Policy.mem_modesAt, Policy.seed_ruleMaps]
        by_cases ht : deleted t
        · rw [if_pos ht]
          refine ⟨fun ⟨e, he, hte, _⟩ => ((hstays e).mp he).2 t hte ht, nofun⟩
        · rw [if_neg ht]
          constructor
          · rintro ⟨e, he, hte, hem⟩
            exact ⟨e, ((hstays e).mp he).1, hte, hem⟩
          · rintro ⟨e, he, hte, hem⟩
            exact ⟨e, (hstays e).mpr ⟨he, fun t' ht' => Option.some.inj (hte.symm.trans ht') ▸ ht⟩,
              hte, hem⟩
      refine ⟨hmaps, hb.trans ?_⟩
      rw [← hmaps, ne_eq, RuleMaps.seed_inj _ _ policy.ruleMaps.seed, Policy.seed_ruleMaps]
      constructor
      · rintro ⟨e, he, hout⟩ heq
        simp only [hstays, he, true_and, not_forall, not_not] at hout
        obtain ⟨t, hte, ht⟩ := hout
        have hin : e.mode ∈ policy.modesAt policy.seed t := ⟨e, he, hte, rfl⟩
        rw [← heq, hmaps] at hin
        simp only [if_pos ht] at hin
        exact hin
      · intro hne
        by_contra hall
        simp only [not_exists, not_and, not_not] at hall
        refine hne (funext fun t => Set.ext fun m => ?_)
        exact ⟨fun ⟨e, he, hp⟩ => ⟨e, ((hstays e).mp he).1, hp⟩, fun ⟨e, he, hp⟩ => ⟨e, hall e he, hp⟩⟩

/-- A follow that is added. -/
theorem exact_addFollow : Exact policy (.addFollow publisher mode) := by
  cases hkey : policy.parsePublisherArg publisher with
  | error e =>
      refine exact_of_error (e := e) ?_
      rw [meaning, hkey]
      rfl
  | ok key =>
      have hm : meaning policy (.addFollow publisher mode) = .ok { policy.ruleMaps with
          follow := Function.update policy.ruleMaps.follow key (some mode) } := by
        rw [meaning, hkey]
        rfl
      obtain ⟨p, b, h⟩ := applies hm
      obtain ⟨key', hkey', follow, rfl, hfollow⟩ := Policy.addFollow_ok h
      cases hkey.symm.trans hkey'
      rw [exact_of_apply hm h, Policy.ruleMaps_follow, RuleMaps.follow_inj, ne_eq,
        RuleMaps.follow_inj _ _ policy.ruleMaps.follow, Function.update_eq_self_iff,
        show policy.ruleMaps.follow = policy.followMode from rfl, Policy.followMode_eq]
      rcases hfollow with ⟨hnone, rfl, rfl⟩ | ⟨before, text, m, after, hlist, hnone, htext, rfl, hb⟩
      · rw [Policy.modeOf_middle hkey hnone, List.append_nil, Policy.modeOf_eq_none.mpr hnone]
        simp
      · have hold : policy.modeOf policy.follow = Function.update
            (policy.modeOf (before ++ after)) key (some m) := by
          rw [hlist]
          exact Policy.modeOf_middle htext hnone after
        rw [hold, Function.update_idem, Function.update_self, Policy.modeOf_middle htext hnone, hb]
        simp [eq_comm]

/-- A follow that is removed. -/
theorem exact_removeFollow : Exact policy (.removeFollow publisher) := by
  cases hkey : policy.parsePublisherArg publisher with
  | error e =>
      refine exact_of_error (e := e) ?_
      rw [meaning, hkey]
      rfl
  | ok key =>
      have hm : meaning policy (.removeFollow publisher) = .ok { policy.ruleMaps with
          follow := Function.update policy.ruleMaps.follow key none } := by
        rw [meaning, hkey]
        rfl
      obtain ⟨p, b, h⟩ := applies hm
      obtain ⟨key', hkey', rfl, hb⟩ := Policy.removeFollow_ok h
      cases hkey.symm.trans hkey'
      rw [exact_of_apply hm h, Policy.ruleMaps_follow, RuleMaps.follow_inj, ne_eq,
        RuleMaps.follow_inj _ _ policy.ruleMaps.follow, Function.update_eq_self_iff,
        show policy.ruleMaps.follow = policy.followMode from rfl, Policy.followMode_eq,
        Policy.modeOf_filter, hb]
      refine ⟨rfl, ?_⟩
      rw [eq_comm (a := none), Policy.modeOf_eq_none]
      simp only [not_forall, not_not, exists_prop, ne_eq]

/-- A pin that is added. -/
theorem exact_addPin : Exact policy (.addPin reference) ↔ Alike policy (.addPin reference) := by
  cases hr : policy.parseSeedRule reference .full with
  | error e =>
      refine iff_of_true (exact_of_error (e := e) ?_) fun t ht => ?_
      · rw [meaning, hr]
        rfl
      · rw [Policy.target, hr] at ht
        cases ht
  | ok r =>
      have ht : policy.target reference = some r.target := (Policy.parseSeedRule_ok.mp hr).1
      cases htag : r.tag with
      | none =>
          refine iff_of_true (exact_of_error (e := ["a pin needs a tag: " ++ reference]) ?_) ?_
          · rw [meaning, hr]
            simp [bind, Except.bind, htag]
          · intro t ht' hsome
            cases ht.symm.trans ht'
            rw [SeedRule.target, htag] at hsome
            cases hsome
      | some tag =>
          have hm : meaning policy (.addPin reference) = .ok { policy.ruleMaps with
              pin := insert r.target policy.ruleMaps.pin } := by
            rw [meaning, hr]
            simp [bind, Except.bind, htag, pure, Except.pure]
          have hsome : r.target.tag.isSome = true := by
            rw [SeedRule.target, htag]
            rfl
          obtain ⟨p, b, h⟩ := applies hm
          rw [exact_of_apply hm h, ne_eq, RuleMaps.pin_inj _ _ policy.ruleMaps.pin,
            Set.insert_eq_self, Policy.mem_pin, and_iff_right hsome]
          have halike : Alike policy (.addPin reference) ↔
              ((∃ s ∈ policy.pin, policy.target s = some r.target) → reference ∈ policy.pin) :=
            ⟨fun hp => hp _ ht hsome, fun hp t ht' _ => Option.some.inj (ht.symm.trans ht') ▸ hp⟩
          rw [halike, (Policy.addPin_maps h ht).1]
          obtain ⟨r', hr', -, ⟨hin, -, rfl⟩ | ⟨hout, -, rfl⟩⟩ := Policy.addPin_ok h
          · -- the text is there, and the pin with it
            have hpin : ∃ s ∈ policy.pin, policy.target s = some r.target := ⟨reference, hin, ht⟩
            simp [hpin, hin]
          · simp [hout]

/-! ### The canonical text of a rule -/

end Mutator

omit [External] in
theorem splitTag_eq_ok {s n : Str} {tag : Option Str} : splitTag s = .ok (n, tag) ↔
    cutTag s = (n, tag) ∧ validateName n = .ok () ∧ ∀ t ∈ tag, validateTag t = .ok () := by
  rw [splitTag]
  generalize cutTag s = c
  obtain ⟨name, tag'⟩ := c
  cases hn : validateName name with
  | error e =>
      constructor
      · intro h
        cases h
      · rintro ⟨h, hname, -⟩
        cases h
        cases hn.symm.trans hname
  | ok u =>
      simp only [bind, Except.bind]
      cases tag' with
      | none =>
          constructor
          · intro h
            cases h
            exact ⟨rfl, hn, fun _ ht => absurd ht (Option.not_mem_none _)⟩
          · rintro ⟨h, -, -⟩
            cases h
            rfl
      | some t =>
          cases hv : validateTag t with
          | error e =>
              simp only [hv]
              constructor
              · intro h
                cases h
              · rintro ⟨h, -, htag⟩
                cases h
                cases hv.symm.trans (htag t rfl)
          | ok u =>
              simp only [hv]
              constructor
              · intro h
                cases h
                exact ⟨rfl, hn, fun t' ht' => Option.some.inj ht' ▸ hv⟩
              · rintro ⟨h, -, -⟩
                cases h
                rfl

namespace Policy

variable {policy : Policy} {rule : Str} {r : SeedRule}

theorem printed_of_parsePublisherArg (hkeys : KeysPrint) {s : Str} {K : PublisherId}
    (h : policy.parsePublisherArg s = .ok K) : External.keyFromStr K.toStr = some K := by
  rw [parsePublisherArg] at h
  cases hs : parsePublisher s with
  | ok k =>
      rw [hs] at h
      cases h
      exact hkeys s K hs
  | error e =>
      simp only [hs] at h
      split at h
      · split at h
        · cases h
        · rename_i key _
          cases hk : parsePublisher key with
          | error e =>
              rw [hk] at h
              cases h
          | ok k =>
              rw [hk] at h
              cases h
              exact hkeys key K hk
      · cases h

omit [External] in
theorem seedRuleToString_eq (r : SeedRule) :
    seedRuleToString r = r.publisher.toStr ++ '/' :: tagged r.name r.tag := by
  rw [seedRuleToString]
  cases r.tag <;> rfl

/-- A key in hex with a name and a tag resolves to them. -/
theorem target_canonical {K : PublisherId} {n : Str} {tag : Option Str}
    (hkey : External.keyFromStr K.toStr = some K) (hname : validateName n = .ok ())
    (htag : ∀ t ∈ tag, validateTag t = .ok ()) :
    policy.target (K.toStr ++ '/' :: tagged n tag) = some ⟨K, n, tag⟩ := by
  have harg : policy.parsePublisherArg K.toStr = .ok K := by
    rw [parsePublisherArg, parsePublisher_toStr hkey]
  have hok : policy.parseSeedRule (K.toStr ++ '/' :: tagged n tag) .full = .ok ⟨K, n, tag, .full⟩ := by
    rw [parseSeedRule, Str.splitOnce_append (toStr_notMem K).1]
    simp only [harg, splitTag_tagged (validateName_eq_ok.mp hname).1 htag, hname, bind,
      Except.bind, Except.map, pure, Except.pure]
  exact (parseSeedRule_ok.mp hok).1

/-- The canonical text of a rule resolves to what the rule resolves to. -/
theorem target_seedRuleToString (hkeys : KeysPrint) (h : policy.parseSeedRule rule .full = .ok r) :
    policy.target (seedRuleToString r) = some r.target := by
  rw [seedRuleToString_eq]
  rw [parseSeedRule] at h
  split at h
  · cases h
  · rename_i pubs rest _
    cases hp : policy.parsePublisherArg pubs with
    | error e =>
        rw [hp] at h
        cases h
    | ok K =>
        cases hsplit : splitTag rest with
        | error e =>
            rw [hp, hsplit] at h
            cases h
        | ok x =>
            rw [hp, hsplit] at h
            cases h
            obtain ⟨-, hname, htag⟩ := splitTag_eq_ok.mp hsplit
            exact target_canonical (printed_of_parsePublisherArg hkeys hp) hname htag

end Policy

namespace Mutator

variable {policy : Policy} {reference : Str}

/-- A pin that is removed. -/
theorem exact_removePin (hkeys : KeysPrint) :
    Exact policy (.removePin reference) ↔ Alike policy (.removePin reference) := by
  cases hr : policy.parseSeedRule reference .full with
  | error e =>
      refine iff_of_true (exact_of_error (e := e) ?_) fun r hr' => nomatch hr.symm.trans hr'
      rw [meaning, hr]
      rfl
  | ok r =>
      have ht : policy.target reference = some r.target := (Policy.parseSeedRule_ok.mp hr).1
      have hcanonical := Policy.target_seedRuleToString hkeys hr
      have hm : meaning policy (.removePin reference) = .ok { policy.ruleMaps with
          pin := policy.ruleMaps.pin \ {r.target} } := by
        rw [meaning, hr]
        rfl
      obtain ⟨p, b, h⟩ := applies hm
      obtain ⟨r', hr', pin, rfl, hmem, hb⟩ := Policy.removePin_ok h
      cases hr.symm.trans hr'
      have htag : r.target.tag = r.tag := rfl
      have htargets : ∀ s, s = reference ∨ s = seedRuleToString r →
          policy.target s = some r.target := by
        rintro s (rfl | rfl)
        · exact ht
        · exact hcanonical
      have hmaps : Policy.ruleMaps { policy with pin } =
          { policy.ruleMaps with pin := policy.ruleMaps.pin \ {r.target} } ↔
            (r.tag.isSome = true → ∀ s ∈ policy.pin, policy.target s = some r.target →
              s = reference ∨ s = seedRuleToString r) := by
        rw [Policy.ruleMaps_pin, RuleMaps.pin_inj]
        constructor
        · intro h hsome s hs hts
          by_contra hne
          have hin : r.target ∈ {t | t.tag.isSome = true ∧ ∃ s ∈ pin, policy.target s = some t} :=
            ⟨hsome, s, (hmem s).mpr ⟨hs, not_or.mp hne⟩, hts⟩
          rw [h] at hin
          exact hin.2 rfl
        · intro h
          ext t
          rw [Set.mem_sdiff, Policy.mem_pin, Set.mem_singleton_iff]
          constructor
          · rintro ⟨hsome, s, hs, hts⟩
            obtain ⟨hin, hne⟩ := (hmem s).mp hs
            refine ⟨⟨hsome, s, hin, hts⟩, ?_⟩
            rintro rfl
            exact (not_or.mpr hne) (h hsome s hin hts)
          · rintro ⟨⟨hsome, s, hs, hts⟩, hne⟩
            refine ⟨hsome, s, (hmem s).mpr ⟨hs, not_or.mp fun heq => hne ?_⟩, hts⟩
            exact Option.some.inj (hts.symm.trans (htargets s heq))
      have hchanged : ({ policy.ruleMaps with pin := policy.ruleMaps.pin \ {r.target} } : RuleMaps) ≠
          policy.ruleMaps ↔
            r.tag.isSome = true ∧ ∃ s ∈ policy.pin, policy.target s = some r.target := by
        rw [ne_eq, RuleMaps.pin_inj _ _ policy.ruleMaps.pin, sdiff_eq_left,
          Set.disjoint_singleton_right, not_not, Policy.mem_pin, htag]
      rw [exact_of_apply hm h, hmaps, hb, hchanged]
      constructor
      · rintro ⟨hall, htell⟩ r' hr' s hs
        cases hr.symm.trans hr'
        constructor
        · intro heq
          exact ⟨htargets s heq, (htell.mp ⟨s, hs, heq⟩).1⟩
        · rintro ⟨hts, hsome⟩
          exact hall hsome s hs hts
      · intro halike
        have hs := halike r hr
        refine ⟨fun hsome s hin hts => (hs s hin).mpr ⟨hts, hsome⟩, ?_⟩
        constructor
        · rintro ⟨s, hin, heq⟩
          obtain ⟨hts, hsome⟩ := (hs s hin).mp heq
          exact ⟨hsome, s, hin, hts⟩
        · rintro ⟨hsome, s, hin, hts⟩
          exact ⟨s, hin, (hs s hin).mpr ⟨hts, hsome⟩⟩

/-- **The six operations and the maps**: an operation changes the maps exactly at its argument and
says whether it did, if and only if the entries of its argument are written as it looks for
them. -/
theorem exact_iff (hkeys : KeysPrint) (policy : Policy) (op : Mutator) :
    Exact policy op ↔ Alike policy op := by
  cases op with
  | addSeed rule mode => exact exact_addSeed
  | removeSeed rule => exact iff_of_true exact_removeSeed trivial
  | addFollow publisher mode => exact iff_of_true exact_addFollow trivial
  | removeFollow publisher => exact iff_of_true exact_removeFollow trivial
  | addPin reference => exact exact_addPin
  | removePin reference => exact exact_removePin hkeys

end Mutator

/-! ### A pin in another spelling -/

omit [External] in
theorem keysPrint_sample : letI := sample; KeysPrint := by
  intro s K _
  show (hexDecode (hexEncode K.key.bytes)).bind keyOfBytes = some K
  rw [hexDecode_hexEncode, Option.bind_some, keyOfBytes, dif_pos K.key.size]

namespace Sample

/-- A tag is pinned by the domain of its publisher. -/
def pinnedByDomain : Policy :=
  { Policy.default with
    pin := ["images.example.com/app:1.0"]
    dns := [("images.example.com", alice.id.toStr)] }

end Sample

namespace Mutator

omit [External] in
theorem exact_iff_at : letI := sample
    let op := Mutator.removePin "images.example.com/app:1.0"
    Exact Sample.pinnedByDomain op ↔ Alike Sample.pinnedByDomain op :=
  @exact_iff sample keysPrint_sample _ _

omit [External] in
/-- Removing the pin by the hex text of its publisher leaves the pin. -/
theorem hex_leaves_domain_pin : letI := sample
    ¬ Exact Sample.pinnedByDomain (.removePin (Sample.alice.id.toStr ++ "/app:1.0")) := by
  let _ := sample
  intro hexact
  have halike := (exact_removePin keysPrint_sample).mp hexact
  have hr : Sample.pinnedByDomain.parseSeedRule (Sample.alice.id.toStr ++ "/app:1.0") .full =
      .ok ⟨Sample.alice.id, "app", some "1.0", .full⟩ := by decide +kernel
  have hpinned : Sample.pinnedByDomain.target "images.example.com/app:1.0" =
      some ⟨Sample.alice.id, "app", some "1.0"⟩ := by decide +kernel
  have hwritten := (halike _ hr "images.example.com/app:1.0" (List.mem_singleton.mpr rfl)).mpr
    ⟨hpinned, rfl⟩
  revert hwritten
  decide +kernel

end Mutator

end Ocid
