import Ocid.Core.Wants
import Ocid.Policies.Changes

/-!
# Policies — Topics — which publishers a node listens to

A change of the policy and a reload end with `sync_topics`: it reads the policy, and brings the
subscriptions in line with what it read once it has the lock on them.  Another call may put another
policy into memory in between, and bring the subscriptions in line with that one first.

Once all calls have returned, the node listens to itself and to the publishers of whom the policy in
memory wants some image, exactly when the last call to get the lock had read what the policy in
memory then says (`run_subscribed_iff`).
-/

namespace Ocid

section
variable [External]

/-- How far a `sync_topics` has come. -/
inductive TopicSync where
  | due
  /-- It read these publishers, and waits for the lock. -/
  | read (wanted : List PublisherId)
  | done
deriving DecidableEq

/-- The policy and its changes, with the topics that are subscribed to. -/
structure Subscriptions where
  policies : Policies
  /-- One for each policy that was put into memory. -/
  syncs : List TopicSync
  topics : List PublisherId

/-- One step of a change, or of the alignment that follows it. -/
inductive TopicStep where
  /-- A step of a change or a reload, before its `sync_topics`. -/
  | policy (a : PolicyStep)
  | read (i : ℕ)
  /-- The lock is taken, and the subscriptions are brought in line; some fail. -/
  | align (i : ℕ) (failing : List PublisherId)

/-- The publishers to listen to: our own topic plus one per publisher we follow, seed or pin. -/
def wantedTopics (selfId : PublisherId) (policy : Policy) : List PublisherId :=
  policy.publishers.insert selfId

/-- Leave the topics that are not wanted, and join those that are. -/
def alignTopics (topics wanted failing : List PublisherId) : List PublisherId :=
  topics.filter (· ∈ wanted) ++ wanted.filter fun p => p ∉ topics ∧ p ∉ failing

namespace Subscriptions

/-- A node that started with the policy `p`. -/
def start (selfId : PublisherId) (p : Policy) : Subscriptions :=
  ⟨.start p, [], alignTopics [] (wantedTopics selfId p) []⟩

/-- The step puts a policy into memory. -/
def isSwap : PolicyStep → Bool
  | .swap _ => true
  | _ => false

/-- What a step does. -/
def step (selfId : PublisherId) (s : Subscriptions) : TopicStep → Option Subscriptions
  | .policy a => do
      let policies ← s.policies.step selfId a
      some { s with policies, syncs := if isSwap a then s.syncs ++ [.due] else s.syncs }
  | .read i =>
      match s.syncs[i]? with
      | some .due =>
          some { s with syncs := s.syncs.set i (.read (wantedTopics selfId s.policies.memory)) }
      | _ => none
  | .align i failing =>
      match s.syncs[i]? with
      | some (.read wanted) => some { s with
          topics := alignTopics s.topics wanted failing
          syncs := s.syncs.set i .done }
      | _ => none

/-- All calls have returned. -/
def Quiet (s : Subscriptions) : Prop := s.policies.Quiet ∧ ∀ x ∈ s.syncs, x = .done

/-- The node listens to itself, and to the publishers of whom the policy in memory wants an
image. -/
def InLine (selfId : PublisherId) (s : Subscriptions) : Prop :=
  ∀ p, p ∈ s.topics ↔ p = selfId ∨ ∃ name, s.policies.memory.covers p name = true

/-- What was read is what the policy in memory now says. -/
def Current (selfId : PublisherId) (s : Subscriptions) : TopicStep → Prop
  | .align i _ =>
      match s.syncs[i]? with
      | some (.read wanted) => ∀ p, p ∈ wanted ↔ p ∈ wantedTopics selfId s.policies.memory
      | _ => True
  | _ => True

/-- The step brings the subscriptions in line with something. -/
def Aligns : TopicStep → Prop
  | .align _ _ => True
  | _ => False

variable {selfId : PublisherId} {s t : Subscriptions} {a : TopicStep}

/-! ### What a step does -/

theorem mem_wantedTopics {p : PublisherId} {policy : Policy} : p ∈ wantedTopics selfId policy ↔
    p = selfId ∨ ∃ name, policy.covers p name = true := by
  rw [wantedTopics, List.mem_insert_iff, Policy.mem_publishers_iff]

omit [External] in
/-- When no subscription fails, the topics are those that are wanted. -/
theorem mem_alignTopics {topics wanted : List PublisherId} {p : PublisherId} :
    p ∈ alignTopics topics wanted [] ↔ p ∈ wanted := by
  rw [alignTopics, List.mem_append, List.mem_filter, List.mem_filter]
  by_cases hp : p ∈ topics <;> simp [hp]

/-- Of the steps of a call, only a swap changes the policy in memory. -/
theorem memory_of_not_swap {p q : Policies} {a : PolicyStep} (h : p.step selfId a = some q)
    (ha : isSwap a = false) : q.memory = p.memory := by
  cases a with
  | call op =>
      cases h
      rfl
  | swap i => cases ha
  | read i | load i fault | save i fault =>
      obtain ⟨c, -, h⟩ := Option.bind_eq_some_iff.mp h
      split at h
      · split at h <;> cases h <;> rfl
      · cases h

theorem inLine_start (selfId : PublisherId) (p : Policy) : InLine selfId (start selfId p) := fun _ =>
  mem_alignTopics.trans mem_wantedTopics

/-- Bringing the subscriptions in line does so exactly when what was read is current. -/
theorem inLine_align {i : ℕ} (h : s.step selfId (.align i []) = some t) :
    t.policies.memory = s.policies.memory ∧
      (t.InLine selfId ↔ s.Current selfId (.align i [])) := by
  simp only [step] at h
  split at h
  · rename_i wanted hsync
    cases h
    refine ⟨rfl, ?_⟩
    simp only [InLine, Current, hsync, mem_alignTopics, ← mem_wantedTopics]
  · cases h

/-- A step that leaves nothing to be done changes neither the topics nor the policy in memory, unless
it brings the subscriptions in line. -/
theorem same_of_step (ha : ¬ Aligns a) (h : s.step selfId a = some t)
    (hdone : ∀ x ∈ t.syncs, x = .done) :
    (∀ x ∈ s.syncs, x = .done) ∧ t.topics = s.topics ∧ t.policies.memory = s.policies.memory := by
  cases a with
  | policy a =>
      obtain ⟨q, hq, h⟩ := Option.bind_eq_some_iff.mp h
      cases h
      cases hswap : isSwap a with
      | true =>
          -- the swap's own `sync_topics` is still to come
          have hdue := hdone .due (by simp [hswap])
          cases hdue
      | false =>
          simp only [hswap] at hdone
          exact ⟨hdone, rfl, memory_of_not_swap hq hswap⟩
  | read i =>
      simp only [step] at h
      split at h
      · rename_i hsync
        cases h
        have hi : i < s.syncs.length := (List.getElem?_eq_some_iff.mp hsync).1
        have hread := hdone _ (List.mem_set hi _)
        cases hread
      · cases h
  | align i failing => exact absurd trivial ha

theorem same_of_run {as : List TopicStep} (has : ∀ a ∈ as, ¬ Aligns a)
    (h : run (step selfId) s as = some t) (hdone : ∀ x ∈ t.syncs, x = .done) :
    (∀ x ∈ s.syncs, x = .done) ∧ t.topics = s.topics ∧ t.policies.memory = s.policies.memory := by
  induction as generalizing s with
  | nil =>
      cases h
      exact ⟨hdone, rfl, rfl⟩
  | cons a as ih =>
      obtain ⟨u, hu, h⟩ := run_cons.mp h
      obtain ⟨hu', htopics, hmemory⟩ := ih (fun b hb => has b (List.mem_cons_of_mem _ hb)) h
      obtain ⟨hs, htopics', hmemory'⟩ := same_of_step (has a List.mem_cons_self) hu hu'
      exact ⟨hs, htopics.trans htopics', hmemory.trans hmemory'⟩

/-! ### Runs -/

variable {p : Policy} {steps : List TopicStep}

/-- What the last one to align had read decides whether the node is in line in the end. -/
theorem inLine_iff_of_last {as : List TopicStep} {i : ℕ}
    (hstep : s.step selfId (.align i []) = some t) (has : ∀ a ∈ as, ¬ Aligns a)
    {u : Subscriptions} (hrun : run (step selfId) t as = some u) (hdone : ∀ x ∈ u.syncs, x = .done) :
    u.InLine selfId ↔ s.Current selfId (.align i []) := by
  obtain ⟨-, htopics, hmemory⟩ := same_of_run has hrun hdone
  rw [← (inLine_align hstep).2, InLine, InLine, htopics, hmemory]

/-- The node is in line when every sync is done, if each had read what is current. -/
theorem inLine_of_meets
    (hfails : ∀ i failing, TopicStep.align i failing ∈ steps → failing = [])
    (hm : Meets (step selfId) (Current selfId) (start selfId p) steps) :
    Throughout (step selfId) (fun s => s.Quiet → s.InLine selfId) (start selfId p) steps := by
  have hsound : Meets (step selfId) (fun _ a => ∀ i failing, a = .align i failing → failing = [])
      (start selfId p) steps :=
    meets_of_forall fun a ha i failing h => hfails i failing (h ▸ ha)
  have hm' := hm.and hsound
  refine (throughout_of_meets (I := fun s : Subscriptions => (∀ x ∈ s.syncs, x = .done) →
    s.InLine selfId) (fun s a t hs hc h hdone => ?_) (fun _ => inLine_start selfId p) hm').mono
      fun s hs hq => hs hq.2
  by_cases ha : Aligns a
  · cases a with
    | align i failing =>
        obtain rfl := hc.2 i failing rfl
        exact (inLine_align h).2.mpr hc.1
    | _ => cases ha
  · obtain ⟨hdone', htopics, hmemory⟩ := same_of_step ha h hdone
    have hline := hs hdone'
    rw [InLine] at hline ⊢
    rw [htopics, hmemory]
    exact hline

/-- **The topics of a node after concurrent changes.**  In a run in which no subscription fails, and
every `sync_topics` that gets the lock has read what the policy in memory then says, the node is in
line whenever all calls have returned.  A run that ends with all calls returned ends in line exactly
when the last `sync_topics` to get the lock had read what the policy in memory then said. -/
theorem run_subscribed_iff (p : Policy)
    (hfails : ∀ i failing, TopicStep.align i failing ∈ steps → failing = []) :
    (Meets (step selfId) (Current selfId) (start selfId p) steps →
      Throughout (step selfId) (fun s => s.Quiet → s.InLine selfId) (start selfId p) steps) ∧
    ∀ s, run (step selfId) (start selfId p) steps = some s → s.Quiet →
      (s.InLine selfId ↔
        MeetsLast (step selfId) Aligns (Current selfId) (start selfId p) steps) := by
  refine ⟨inLine_of_meets hfails, fun s hrun hquiet => ⟨fun hline => ?_, fun hlast => ?_⟩⟩
  · rintro as₁ a as₂ t rfl ha has hrun₁
    cases a with
    | align i failing =>
        obtain rfl := hfails i failing (List.mem_append_right _ List.mem_cons_self)
        obtain ⟨t', ht', hrun'⟩ := run_append.mp hrun
        obtain rfl : t = t' := Option.some.inj (hrun₁.symm.trans ht')
        obtain ⟨u, hu, hrun₂⟩ := run_cons.mp hrun'
        exact (inLine_iff_of_last hu has hrun₂ hquiet.2).mp hline
    | _ => cases ha
  · rcases exists_last Aligns steps with hnone | ⟨as₁, a, as₂, rfl, ha, has⟩
    · obtain ⟨-, htopics, hmemory⟩ := same_of_run hnone hrun hquiet.2
      have hline := inLine_start selfId p
      rw [InLine] at hline ⊢
      rw [htopics, hmemory]
      exact hline
    · cases a with
      | align i failing =>
          obtain rfl := hfails i failing (List.mem_append_right _ List.mem_cons_self)
          obtain ⟨t, hrun₁, hrun'⟩ := run_append.mp hrun
          obtain ⟨u, hu, hrun₂⟩ := run_cons.mp hrun'
          exact (inLine_iff_of_last hu has hrun₂ hquiet.2).mpr (hlast _ _ _ t rfl ha has hrun₁)
      | _ => cases ha

end Subscriptions

end

namespace Sample

/-- A publisher is followed and no longer followed, the second call before the first is in line. -/
def followUnfollow : List TopicStep :=
  letI := sample
  [.policy (.call (.follow alice.id.toStr alice.id .latest)), .policy (.read 0),
    .policy (.save 0 none), .policy (.swap 0), .read 0,
    .policy (.call (.unfollow alice.id.toStr)), .policy (.read 1), .policy (.save 1 none),
    .policy (.swap 1), .read 1]

end Sample

open Subscriptions

/-- The first call is the first to get the lock. -/
theorem run_subscribed_iff_at : letI := sample
    let steps := Sample.followUnfollow ++ [.align 0 [], .align 1 []]
    (Meets (step Sample.bob.id) (Current Sample.bob.id) (start Sample.bob.id .default) steps →
      Throughout (step Sample.bob.id) (fun s => s.Quiet → s.InLine Sample.bob.id)
        (start Sample.bob.id .default) steps) ∧
    ∀ s, run (step Sample.bob.id) (start Sample.bob.id .default) steps = some s → s.Quiet →
      (s.InLine Sample.bob.id ↔
        MeetsLast (step Sample.bob.id) Aligns (Current Sample.bob.id)
          (start Sample.bob.id .default) steps) := by
  let _ := sample
  exact run_subscribed_iff .default fun i failing h => by
    simp [Sample.followUnfollow] at h
    rcases h with ⟨-, rfl⟩ | ⟨-, rfl⟩ <;> rfl

/-- The second call is the first to get the lock: the node listens to a publisher that its policy
does not name. -/
theorem late_sync_revives_topic : letI := sample
    ¬ Throughout (step Sample.bob.id) (fun s => s.Quiet → s.InLine Sample.bob.id)
      (start Sample.bob.id .default) (Sample.followUnfollow ++ [.align 1 [], .align 0 []]) := by
  let _ := sample
  intro h
  have hrun : (run (step Sample.bob.id) (start Sample.bob.id .default)
      (Sample.followUnfollow ++ [.align 1 [], .align 0 []])).any (fun s =>
        s.policies.calls.all (·.phase.isReturned) && s.syncs.all (· = .done) &&
          s.topics.any fun p => p ∉ wantedTopics Sample.bob.id s.policies.memory) = true := by
    decide +kernel
  obtain ⟨s, hs, hbad⟩ := (Option.any_eq_true _ _).mp hrun
  simp only [Bool.and_eq_true, List.all_eq_true, List.any_eq_true, decide_eq_true_eq] at hbad
  obtain ⟨⟨hreturned, hdone⟩, p, hp, hout⟩ := hbad
  exact hout (mem_wantedTopics.mpr ((last_of_throughout h hs ⟨hreturned, hdone⟩ p).mp hp))

end Ocid
