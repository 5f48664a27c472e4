import Ocid.Daemon.Sample
import Ocid.Retention.Pruning

/-!
# Retention — Retained — windows, collections, fetches and policy changes, step by step

What runs on one store at a time: fetches, which hold the lock of the collector for reading; calls
that enforce a window, which read the policy and then take the lock for writing; and collections,
which take the lock and then read the policy.  A change of the policy takes no lock.

A call removes records by the policy it read.  `Current` says that the policy it read selects every
record that it looks at and the policy in force selects; a run in which that is so at every removal
removes nothing that is retained (`run_retains_iff`), and no other does.
-/

namespace Ocid

open Call

section
variable [External]

/-! ### Calls -/

/-- Where a call stands. -/
inductive PruneStage where
  | arrived
  /-- The policy is read, and the lock waited for. -/
  | read (policy : Policy)
  /-- The lock is held, and no policy read yet. -/
  | locked
  | ready (policy : Policy)
  | ended
deriving DecidableEq

/-- A call that removes records, and where it stands. -/
structure PruneRun where
  call : PruneCall
  stage : PruneStage

namespace PruneRun

variable (node : Node) (r : PruneRun)

/-- The call holds the lock for writing. -/
def holds : Bool :=
  match r.stage with
  | .locked | .ready _ => true
  | _ => false

/-- The policy it read, once it holds the lock. -/
def policy? : Option Policy :=
  match r.stage with
  | .ready policy => some policy
  | _ => none

/-- The call moves on. -/
def enter (stage : PruneStage) : PruneRun := { r with stage }

/-- Read the policy.  The images of the node itself, and images without a rule, are left alone. -/
def readPolicy (policy : Policy) : Option PruneRun :=
  match r.call, r.stage with
  | .window publisher name, .arrived =>
      some (r.enter (if publisher = node.id ∨ (policy.window publisher name).isEmpty then .ended
        else .read policy))
  | .collect _, .locked => some (r.enter (.ready policy))
  | _, _ => none

/-- Take the lock. -/
def lock : Option PruneRun :=
  match r.call, r.stage with
  | .window _ _, .read policy => some (r.enter (.ready policy))
  | .collect _, .arrived => some (r.enter .locked)
  | _, _ => none

end PruneRun

/-! ### The world -/

/-- A store, with the fetches and the removals that are running. -/
structure PruneWorld where
  store : Store
  /-- The policy in force. -/
  policy : Policy
  fetches : List FetchRun
  prunes : List PruneRun

/-- Before any of them. -/
def PruneWorld.start (s : Store) (policy : Policy) : PruneWorld := ⟨s, policy, [], []⟩

/-- One step of one of them. -/
inductive PruneAct where
  /-- The policy is replaced. -/
  | change (policy : Policy)
  /-- A fetch has verified its release and takes the lock for reading. -/
  | beginFetch (release : Release) (providers : List EndpointId)
  | fetch (i : ℕ) (a : FetchAct)
  | call (c : PruneCall)
  | readPolicy (i : ℕ)
  | lock (i : ℕ)
  /-- The records are removed, up to the fault, if any; the lock is given back. -/
  | prune (i : ℕ) (young : Release → Bool) (fault : Option (ℕ × Err))

namespace PruneWorld

variable (node : Node) (w : PruneWorld)

/-- What a step does. -/
def step : PruneAct → Option PruneWorld
  | .change policy => some { w with policy }
  | .beginFetch release providers =>
      if (∀ r ∈ w.prunes, r.holds = false) ∧ release.verify = .ok () then
        some { w with fetches := w.fetches ++ [⟨release, providers.filter fun q => q ≠ node.id, [],
          release.allBlobs, .looking⟩] }
      else none
  | .fetch i a => do
      let f ← w.fetches[i]?
      if f.live then do
        let (store, f') ← f.step w.store a
        some { w with store, fetches := w.fetches.set i f' }
      else none
  | .call c => some { w with prunes := w.prunes ++ [⟨c, .arrived⟩] }
  | .readPolicy i => do
      let r ← w.prunes[i]?
      let r' ← r.readPolicy node w.policy
      some { w with prunes := w.prunes.set i r' }
  | .lock i => do
      let r ← w.prunes[i]?
      if (∀ f ∈ w.fetches, f.live = false) ∧ ∀ r ∈ w.prunes, r.holds = false then do
        let r' ← r.lock
        some { w with prunes := w.prunes.set i r' }
      else none
  | .prune i young fault => do
      let r ← w.prunes[i]?
      let policy ← r.policy?
      some { w with
        store := ((r.call.op node policy young).cut fault).final w.store
        prunes := w.prunes.set i (r.enter .ended) }

/-- The policy in force retains the release: it is the node's own, pinned, or selected. -/
def Retains (q : Ref) : Prop :=
  q.publisher = node.id ∨ w.policy.Pins q ∨ w.store.Selected w.policy q

instance (q : Ref) : Decidable (w.Retains node q) := inferInstanceAs (Decidable (_ ∨ _ ∨ _))

/-- The step removes no release that is retained. -/
def Keeps (a : PruneAct) : Prop :=
  ∀ v, w.step node a = some v → ∀ rel ∈ w.store.releases.rows, w.Retains node rel.ref →
    v.store.releases.has rel.ref = true

/-- A call that removes records has read a policy that selects every release it looks at and the
policy in force selects. -/
def Current : PruneAct → Prop
  | .prune i young _ => ∀ r ∈ w.prunes[i]?, ∀ policy ∈ r.policy?,
      ∀ rel ∈ w.store.releases.rows, r.call.Reaches policy young rel → rel.publisher ≠ node.id →
        w.store.Selected w.policy rel.ref → w.store.Selected policy rel.ref
  | _ => True

instance (a : PruneAct) : Decidable (w.Current node a) := by
  unfold Current
  cases a <;> infer_instance

end PruneWorld

/-! ### One step -/

section
variable {node : Node} {s s' : Store} {w v : PruneWorld}

/-- A step of a fetch writes no record but its release, and that one as `putRelease` does. -/
theorem FetchRun.step_records {f f' : FetchRun} {a : FetchAct} (hv : f.release.verify = .ok ())
    (h : f.step s a = some (s', f')) : f'.release = f.release ∧
      (s'.releases = s.releases ∨ s'.releases = recorded s.releases f.release) := by
  obtain ⟨hname, htag⟩ := Release.valid_of_verify hv
  cases a with
  | stop =>
      cases h
      exact ⟨rfl, Or.inl rfl⟩
  | advance net =>
      obtain ⟨release, providers, done, todo, stage⟩ := f
      cases stage with
      | looking =>
          cases todo with
          | nil =>
              cases h
              exact ⟨rfl, (putRelease_triple hname htag s.releases).final_cut rfl none⟩
          | cons b todo =>
              simp only [FetchRun.step, FetchRun.advance] at h
              split at h
              · cases h
                exact ⟨rfl, Or.inl rfl⟩
              · split at h
                · cases h
                  exact ⟨rfl, Or.inl rfl⟩
                · cases h
                  exact ⟨rfl, Or.inl rfl⟩
      | downloading =>
          cases todo with
          | nil => cases h
          | cons b todo =>
              have hsame : ((download net done.length b).final s).releases = s.releases := by
                unfold download
                split <;> rfl
              simp only [FetchRun.step, FetchRun.advance] at h
              split at h
              · cases h
                exact ⟨rfl, Or.inl hsame⟩
              · cases h
                exact ⟨rfl, Or.inl hsame⟩
      | verifying temp =>
          cases todo with
          | nil => cases h
          | cons b todo =>
              simp only [FetchRun.step, FetchRun.advance] at h
              split at h
              · cases h
                exact ⟨rfl, Or.inl rfl⟩
              · cases h
                exact ⟨rfl, Or.inl rfl⟩
      | pinning temp =>
          cases todo with
          | nil => cases h
          | cons b todo =>
              cases h
              exact ⟨rfl, Or.inl rfl⟩
      | indexing temp =>
          cases todo with
          | nil => cases h
          | cons b todo =>
              cases h
              exact ⟨rfl, Or.inl rfl⟩
      | ended => cases todo <;> cases h

namespace PruneWorld

/-- Records are stored under valid names, and every release being fetched has verified. -/
structure Sound (w : PruneWorld) : Prop where
  named : w.store.Named
  verified : ∀ f ∈ w.fetches, f.release.verify = .ok ()

theorem sound_start {s : Store} (hs : s.Named) (policy : Policy) : (start s policy).Sound where
  named := hs
  verified f hf := by cases hf

/-- What a step can do: it leaves the records alone; it puts the verified release of a fetch; or it
removes what a call with the lock removes.  Every fetch it begins has verified its release. -/
theorem step_cases {a : PruneAct} (hs : w.Sound) (h : w.step node a = some v) :
    (∀ f ∈ v.fetches, f.release.verify = .ok ()) ∧
      (v.store.releases = w.store.releases ∨
      (∃ rel, rel.verify = .ok () ∧ v.store.releases = recorded w.store.releases rel) ∨
      ∃ i young fault r policy, a = .prune i young fault ∧ w.prunes[i]? = some r ∧
        r.policy? = some policy ∧
        v.store = ((r.call.op node policy young).cut fault).final w.store) := by
  cases a with
  | change policy | call c =>
      cases h
      exact ⟨hs.verified, Or.inl rfl⟩
  | beginFetch release providers =>
      simp only [step] at h
      split at h
      · rename_i hok
        cases h
        refine ⟨fun f hf => ?_, Or.inl rfl⟩
        rcases List.mem_append.mp hf with hf | hf
        · exact hs.verified f hf
        · obtain rfl := List.mem_singleton.mp hf
          exact hok.2
      · cases h
  | fetch i a =>
      simp only [step, Option.bind_eq_bind, Option.bind_eq_some_iff] at h
      obtain ⟨f, hf, h⟩ := h
      split at h
      · obtain ⟨⟨s', f'⟩, hstep, h⟩ := Option.bind_eq_some_iff.mp h
        cases h
        have hv := hs.verified f (List.mem_of_getElem? hf)
        obtain ⟨hrelease, hrecords⟩ := FetchRun.step_records hv hstep
        refine ⟨fun g hg => ?_, hrecords.imp_right fun hput => Or.inl ⟨f.release, hv, hput⟩⟩
        rcases List.mem_or_eq_of_mem_set hg with hg | rfl
        · exact hs.verified g hg
        · exact hrelease ▸ hv
      · cases h
  | readPolicy i =>
      simp only [step, Option.bind_eq_bind, Option.bind_eq_some_iff] at h
      obtain ⟨r, -, r', -, h⟩ := h
      cases h
      exact ⟨hs.verified, Or.inl rfl⟩
  | lock i =>
      simp only [step, Option.bind_eq_bind, Option.bind_eq_some_iff] at h
      obtain ⟨r, -, h⟩ := h
      split at h
      · obtain ⟨r', -, h⟩ := Option.bind_eq_some_iff.mp h
        cases h
        exact ⟨hs.verified, Or.inl rfl⟩
      · cases h
  | prune i young fault =>
      simp only [step, Option.bind_eq_bind, Option.bind_eq_some_iff] at h
      obtain ⟨r, hr, policy, hpolicy, h⟩ := h
      cases h
      exact ⟨hs.verified, Or.inr (Or.inr ⟨i, young, fault, r, policy, rfl, hr, hpolicy, rfl⟩)⟩

theorem Sound.step {a : PruneAct} (hs : w.Sound) (h : w.step node a = some v) : v.Sound where
  named := by
    intro q rel hget
    rcases (step_cases hs h).2 with hsame | ⟨x, hx, hput⟩ | ⟨i, young, fault, r, policy, -, -, -, heq⟩
    · exact hs.named q rel (hsame ▸ hget)
    · rw [hput, recorded] at hget
      split at hget
      · rw [Table.get_put] at hget
        split at hget
        · rename_i hq
          cases hget
          exact hq ▸ Release.valid_of_verify hx
        · exact hs.named q rel hget
      · exact hs.named q rel hget
    · rw [heq] at hget
      rcases written_of_get_final hget with hget | ⟨-, hw⟩
      · exact hs.named q rel hget
      · exact absurd rfl ((r.call.emits_op young).cut fault w.store _ hw rel)
  verified := (step_cases hs h).1

theorem has_of_mem {s : Store} {rel : Release} (h : rel ∈ s.releases.rows) :
    s.releases.has rel.ref = true :=
  Table.has_iff.mpr ⟨rel, Table.get_of_mem h⟩

omit [External] in
/-- Putting a release removes none. -/
theorem has_recorded {t : Table Release.ref} {rel x : Release} (h : rel ∈ t.rows) :
    (recorded t x).has rel.ref = true := by
  rw [Table.has_iff, recorded]
  split
  · rw [Table.get_put]
    split
    · exact ⟨x, rfl⟩
    · exact ⟨rel, Table.get_of_mem h⟩
  · exact ⟨rel, Table.get_of_mem h⟩

/-- What is pinned is selected; so what is retained is the node's own, or selected. -/
theorem retains_iff {q : Ref} :
    w.Retains node q ↔ q.publisher = node.id ∨ w.store.Selected w.policy q :=
  or_congr_right (or_iff_right_of_imp selected_of_pins)

/-- A removal by a policy that selects what the policy in force selects takes away nothing that is
retained. -/
theorem keeps_of_current {a : PruneAct} (hs : w.Sound) (hc : w.Current node a) : w.Keeps node a := by
  intro v h rel hrel hretains
  rcases (step_cases hs h).2 with hsame | ⟨x, -, hput⟩ |
    ⟨i, young, fault, r, policy, rfl, hr, hpolicy, heq⟩
  · rw [hsame]
    exact has_of_mem hrel
  · rw [hput]
    exact has_recorded hrel
  · by_contra hgone
    rw [Bool.not_eq_true, Table.has_eq_false_iff, heq] at hgone
    have hnone := get_final_of_cut (r.call.emits_op young) hgone
    obtain ⟨hreaches, hother, hout⟩ := (prune_spec hs.named r.call young hrel).mp hnone
    have hsel := (retains_iff.mp hretains).resolve_left hother
    exact hout (hc r hr policy hpolicy rel hrel hreaches hother hsel)

/-- A removal that is not cut and keeps what is retained is by such a policy. -/
theorem current_of_keeps {a : PruneAct} (hs : w.Sound)
    (hcut : ∀ i young fault, a = .prune i young fault → fault = none) (hk : w.Keeps node a) :
    w.Current node a := by
  cases a with
  | prune i young fault =>
      obtain rfl := hcut i young fault rfl
      intro r hr policy hpolicy rel hrel hreaches hother hsel
      by_contra hout
      have hnone := (prune_spec hs.named r.call young hrel).mpr ⟨hreaches, hother, hout⟩
      have hstep : w.step node (.prune i young none) = some { w with
          store := (r.call.op node policy young).final w.store
          prunes := w.prunes.set i (r.enter .ended) } := by
        have hr : w.prunes[i]? = some r := hr
        have hpolicy : r.policy? = some policy := hpolicy
        simp only [PruneWorld.step, hr, hpolicy, Option.bind_eq_bind, Option.bind_some]
        rfl
      have hheld := hk _ hstep rel hrel (retains_iff.mpr (Or.inr hsel))
      rw [Table.has_eq_false_iff.mpr hnone] at hheld
      cases hheld
  | _ => trivial

/-- What is retained throughout stays. -/
theorem held_of_keeps {q : Ref} : ∀ {w : PruneWorld} {acts : List PruneAct},
    Meets (step node) (Keeps node) w acts → Throughout (step node) (Retains node · q) w acts →
      w.store.releases.has q = true →
        Throughout (step node) (fun w => w.store.releases.has q = true) w acts
  | _, [], _, _, hq => hq
  | _, _ :: _, ⟨hk, hm⟩, ⟨hr, ht⟩, hq => by
      refine ⟨hq, fun v hv => held_of_keeps (hm v hv) (ht v hv) ?_⟩
      obtain ⟨rel, hget⟩ := Table.has_iff.mp hq
      obtain rfl := Table.key_of_get hget
      exact hk v hv rel (Table.mem_of_get hget) hr

end PruneWorld

/-- **Windows and collections while the policy changes.**  In every run of window enforcements,
collections, fetches and policy changes in which each removal is by a policy that selects what the
policy in force selects, no step removes a release that is the node's own, pinned, or selected by
the policy in force; so a release that is retained throughout stays.  A run whose removals are not
cut keeps what is retained only so. -/
theorem run_retains_iff {s : Store} (hs : s.Named) (policy : Policy) (acts : List PruneAct) :
    (Meets (PruneWorld.step node) (PruneWorld.Current node) (.start s policy) acts →
      Meets (PruneWorld.step node) (PruneWorld.Keeps node) (.start s policy) acts ∧
        ∀ q, s.releases.has q = true →
          Throughout (PruneWorld.step node) (PruneWorld.Retains node · q) (.start s policy) acts →
          Throughout (PruneWorld.step node) (fun w => w.store.releases.has q = true)
            (.start s policy) acts) ∧
    ((∀ i young fault, PruneAct.prune i young fault ∈ acts → fault = none) →
      Meets (PruneWorld.step node) (PruneWorld.Keeps node) (.start s policy) acts →
      Meets (PruneWorld.step node) (PruneWorld.Current node) (.start s policy) acts) := by
  have hsound : ∀ {C : PruneWorld → PruneAct → Prop},
      Meets (PruneWorld.step node) C (.start s policy) acts →
      Meets (PruneWorld.step node) (fun w _ => w.Sound) (.start s policy) acts := fun hm =>
    (throughout_of_meets (fun _ _ _ hw _ hstep => hw.step hstep)
      (PruneWorld.sound_start hs policy) hm).meets
  refine ⟨fun hm => ?_, fun hcut hk => ?_⟩
  · have hk : Meets (PruneWorld.step node) (PruneWorld.Keeps node) (.start s policy) acts :=
      ((hsound hm).and hm).mono fun w a h => PruneWorld.keeps_of_current h.1 h.2
    exact ⟨hk, fun q hq hr => PruneWorld.held_of_keeps hk hr hq⟩
  · have hcut : Meets (PruneWorld.step node)
        (fun _ a => ∀ i young fault, a = .prune i young fault → fault = none)
        (.start s policy) acts :=
      meets_of_forall fun a ha i young fault h => hcut i young fault (h ▸ ha)
    exact (((hsound hk).and hk).and hcut).mono fun w a h =>
      PruneWorld.current_of_keeps h.1.1 h.2 h.1.2

end

end

namespace Sample

/-- What a node holds after it fetched two tags. -/
def heldTags : @Store sample :=
  letI := sample
  let a := release alice "app" "1.0" index 1000
  let b := release alice "app" "2.0" index 2000
  (fetchRelease bob.id b [alice.id] downloads).final
    ((fetchRelease bob.id a [alice.id] downloads).final Store.empty)

/-- A policy that keeps the last release of a publisher's images. -/
def latest : Policy :=
  letI := sample
  { Policy.default with follow := [⟨alice.id.toStr, .latest⟩] }

/-- The same policy with a pin. -/
def latestPinned : Policy :=
  letI := sample
  { latest with pin := [alice.id.toStr ++ "/app:1.0"] }

/-- A window is enforced, and the policy is replaced by `latestPinned`, before it is read or after. -/
def pinFirst : List (@PruneAct sample) :=
  letI := sample
  [.change latestPinned, .call (.window alice.id "app"), .readPolicy 0, .lock 0,
    .prune 0 (fun _ => false) none]

/-- A window is enforced by a policy that was read before it was replaced. -/
def pinLast : List (@PruneAct sample) :=
  letI := sample
  [.call (.window alice.id "app"), .readPolicy 0, .change latestPinned, .lock 0]

end Sample

theorem named_heldTags : letI := sample; Sample.heldTags.Named := by
  let _ := sample
  intro q rel hget
  have hvalid : ∀ rel ∈ Sample.heldTags.releases.rows, validateName rel.name = .ok () ∧
      validateTag rel.payload.tag = .ok () := by decide +kernel
  obtain rfl := Table.key_of_get hget
  exact hvalid rel (Table.mem_of_get hget)

/-- A pin before the policy is read. -/
theorem run_retains_iff_at : letI := sample
    Meets (PruneWorld.step (Sample.node Sample.latest)) (PruneWorld.Keeps (Sample.node Sample.latest))
        (.start Sample.heldTags Sample.latest) Sample.pinFirst ∧
      ∀ q, Sample.heldTags.releases.has q = true →
        Throughout (PruneWorld.step (Sample.node Sample.latest))
          (PruneWorld.Retains (Sample.node Sample.latest) · q)
          (.start Sample.heldTags Sample.latest) Sample.pinFirst →
        Throughout (PruneWorld.step (Sample.node Sample.latest))
          (fun w => w.store.releases.has q = true)
          (.start Sample.heldTags Sample.latest) Sample.pinFirst :=
  (@run_retains_iff sample (Sample.node Sample.latest) _ named_heldTags Sample.latest
    Sample.pinFirst).1 (by decide +kernel)

/-- A pin after the policy is read, and before the lock is taken: the pinned release is removed. -/
theorem pinned_release_removed : letI := sample
    ¬ Meets (PruneWorld.step (Sample.node Sample.latest))
      (PruneWorld.Keeps (Sample.node Sample.latest))
      (.start Sample.heldTags Sample.latest)
      (Sample.pinLast ++ [.prune 0 (fun _ => false) none]) := by
  let _ := sample
  intro h
  have hrun : (run (PruneWorld.step (Sample.node Sample.latest))
      (.start Sample.heldTags Sample.latest) Sample.pinLast).any (fun w =>
        (w.step (Sample.node Sample.latest) (.prune 0 (fun _ => false) none)).any fun v =>
          w.store.releases.rows.any fun rel =>
            decide (w.policy.Pins rel.ref) && !v.store.releases.has rel.ref) = true := by
    decide +kernel
  obtain ⟨w, hw, hv⟩ := (Option.any_eq_true _ _).mp hrun
  obtain ⟨v, hv, hrel⟩ := (Option.any_eq_true _ _).mp hv
  obtain ⟨rel, hmem, hrel⟩ := List.any_eq_true.mp hrel
  obtain ⟨hpin, hgone⟩ := Bool.and_eq_true_iff.mp hrel
  have hheld := last_of_meets h hw v hv rel hmem (Or.inr (Or.inl (of_decide_eq_true hpin)))
  rw [hheld] at hgone
  cases hgone

end Ocid
