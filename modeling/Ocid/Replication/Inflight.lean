import Ocid.Daemon.Sample
import Ocid.Lib.Runs

/-!
# Replication — Inflight — one fetch per reference

Calls of `fetch_release` for one reference do not fetch it at the same time.  A call waits until it
is the one that enters the reference into the set `inflight`, then fetches, then takes the
reference out again.  What the fetch does to the store does not touch the set, so of a fetch only
its end is a step here; it may end in any way.

A call can be dropped wherever it awaits: before it has entered its reference, while it fetches, or
while it waits for the set to take the reference out.  In the two last places nothing takes the
reference out any more.  `run_guarded_iff` says that no call is dropped there exactly when every
reference in the set is being fetched, by one call; `leaked_forever` says what a dropped one leaves
behind.
-/

namespace Ocid

/-- How far a call has come. -/
inductive FetchPhase where
  /-- In the loop, before the reference is entered. -/
  | waiting
  /-- The reference is entered; the fetch waits for the lock or is under way. -/
  | fetching
  /-- The fetch has ended; the reference is about to be taken out. -/
  | fetched (res : Except Err Unit)
  | returned (res : Except Err Unit)
  /-- The call was dropped. -/
  | dropped
deriving DecidableEq

namespace FetchPhase

/-- The call is executing the fetch of its reference. -/
def executing : FetchPhase → Bool
  | fetching | fetched _ => true
  | _ => false

/-- The call has neither returned nor been dropped. -/
def live : FetchPhase → Bool
  | waiting | fetching | fetched _ => true
  | _ => false

end FetchPhase

/-- A call of `fetchRelease`. -/
structure FetchCall where
  reference : Str
  phase : FetchPhase

/-- The references being fetched, and the calls. -/
structure Fetches where
  inflight : Finset Str
  calls : List FetchCall

/-- Nothing is fetched. -/
def Fetches.empty : Fetches := ⟨∅, []⟩

/-- One step of one call. -/
inductive FetchStep where
  /-- A call verifies its release, and fails or starts to wait. -/
  | call (release : Release)
  /-- A waiting call tries to enter its reference. -/
  | attempt (i : ℕ)
  /-- The fetch of a call ends. -/
  | finish (i : ℕ) (res : Except Err Unit)
  /-- A call takes its reference out and returns. -/
  | remove (i : ℕ)
  /-- A call is dropped at an await point. -/
  | drop (i : ℕ)

namespace Fetches

/-- Put the `i`-th call into a phase. -/
def enter (s : Fetches) (i : ℕ) (c : FetchCall) (phase : FetchPhase) : Fetches :=
  { s with calls := s.calls.set i { c with phase } }

/-- What a step does. -/
def step [External] (s : Fetches) : FetchStep → Option Fetches
  | .call release =>
      let phase := match release.verify with
        | .ok _ => .waiting
        | .error e => .returned (.error e)
      some { s with calls := s.calls ++ [⟨release.reference, phase⟩] }
  | .attempt i => do
      let c ← s.calls[i]?
      if c.phase = .waiting then
        if c.reference ∈ s.inflight then some s
        else some { s.enter i c .fetching with inflight := insert c.reference s.inflight }
      else none
  | .finish i res => do
      let c ← s.calls[i]?
      if c.phase = .fetching then some (s.enter i c (.fetched res)) else none
  | .remove i => do
      let c ← s.calls[i]?
      match c.phase with
      | .fetched res =>
          some { s.enter i c (.returned res) with inflight := s.inflight.erase c.reference }
      | _ => none
  | .drop i => do
      let c ← s.calls[i]?
      if c.phase.live then some (s.enter i c .dropped) else none

/-- The `i`-th call is executing the fetch of `ref`. -/
def Executes (s : Fetches) (i : ℕ) (ref : Str) : Prop :=
  ∃ c, s.calls[i]? = some c ∧ c.reference = ref ∧ c.phase.executing = true

/-- A reference is in the set exactly when one call is executing its fetch. -/
def Exact (s : Fetches) : Prop :=
  ∀ ref, (ref ∈ s.inflight ↔ ∃ i, s.Executes i ref) ∧
    ∀ i j, s.Executes i ref → s.Executes j ref → i = j

/-- A call that waits for a reference nobody is fetching stops waiting at its next attempt. -/
def Unblocked [External] (s : Fetches) : Prop :=
  ∀ i c, s.calls[i]? = some c → c.phase = .waiting → (∀ j, ¬ s.Executes j c.reference) →
    ∃ t, s.step (.attempt i) = some t ∧ t.Executes i c.reference

/-- The step drops no call that is executing. -/
def KeepsExecuting (s : Fetches) : FetchStep → Prop
  | .drop i => ∀ ref, ¬ s.Executes i ref
  | _ => True

/-! ### One call changes its phase -/

section
variable {s : Fetches} {i j : ℕ} {c : FetchCall} {phase : FetchPhase} {ref : Str}

theorem executes_enter (hc : s.calls[i]? = some c) :
    (s.enter i c phase).Executes j ref ↔
      if j = i then c.reference = ref ∧ phase.executing = true else s.Executes j ref := by
  have hi : i < s.calls.length := (List.getElem?_eq_some_iff.mp hc).1
  unfold Executes enter
  by_cases hj : j = i
  · subst hj
    simp [hi]
  · simp [Ne.symm hj, hj]

theorem executes_of_call (hc : s.calls[i]? = some c) :
    s.Executes i ref ↔ c.reference = ref ∧ c.phase.executing = true := by
  unfold Executes
  simp [hc]

/-- A change of phase that leaves the call executing, or not executing, as it was. -/
theorem executes_enter_same (hc : s.calls[i]? = some c)
    (h : phase.executing = c.phase.executing) :
    (s.enter i c phase).Executes j ref ↔ s.Executes j ref := by
  rw [executes_enter hc]
  split
  · rename_i hj
    subst hj
    rw [executes_of_call hc, h]
  · rfl

/-- A call starts executing. -/
theorem executes_enter_on (hc : s.calls[i]? = some c) (hon : phase.executing = true)
    (hoff : c.phase.executing = false) :
    (s.enter i c phase).Executes j ref ↔ (j = i ∧ c.reference = ref) ∨ s.Executes j ref := by
  rw [executes_enter hc]
  by_cases hj : j = i
  · subst hj
    simp [executes_of_call hc, hon, hoff]
  · simp [hj]

/-- A call stops executing. -/
theorem executes_enter_off (hc : s.calls[i]? = some c) (hoff : phase.executing = false) :
    (s.enter i c phase).Executes j ref ↔ j ≠ i ∧ s.Executes j ref := by
  rw [executes_enter hc]
  by_cases hj : j = i
  · simp [hj, hoff]
  · simp [hj]

@[simp] theorem executes_with_inflight (inflight : Finset Str) :
    Executes { s with inflight } j ref ↔ s.Executes j ref := Iff.rfl

theorem Exact.enter_same (hs : s.Exact) (hc : s.calls[i]? = some c)
    (h : phase.executing = c.phase.executing) : (s.enter i c phase).Exact := by
  intro ref
  simp only [executes_enter_same hc h]
  exact hs ref

/-- A reference that is not in the set is entered, and its call starts executing. -/
theorem Exact.entered (hs : s.Exact) (hc : s.calls[i]? = some c)
    (hfree : c.reference ∉ s.inflight) (hwaiting : c.phase = .waiting) :
    Exact { s.enter i c .fetching with inflight := insert c.reference s.inflight } := by
  have hnone : ∀ j, ¬ s.Executes j c.reference := fun j hj =>
    hfree ((hs c.reference).1.mpr ⟨j, hj⟩)
  have hon : ∀ j ref, (s.enter i c .fetching).Executes j ref ↔
      (j = i ∧ c.reference = ref) ∨ s.Executes j ref :=
    fun j ref => executes_enter_on hc rfl (by rw [hwaiting]; rfl)
  intro ref
  simp only [executes_with_inflight, Finset.mem_insert, hon]
  constructor
  · rw [(hs ref).1]
    constructor
    · rintro (rfl | ⟨j, hj⟩)
      · exact ⟨i, Or.inl ⟨rfl, rfl⟩⟩
      · exact ⟨j, Or.inr hj⟩
    · rintro ⟨j, ⟨-, hj⟩ | hj⟩
      · exact Or.inl hj.symm
      · exact Or.inr ⟨j, hj⟩
  · rintro j k (⟨rfl, rfl⟩ | hj) (⟨rfl, hk⟩ | hk)
    · rfl
    · exact absurd hk (hnone k)
    · subst hk
      exact absurd hj (hnone j)
    · exact (hs ref).2 j k hj hk

/-- A call takes its reference out, and stops executing. -/
theorem Exact.takenOut (hs : s.Exact) (hc : s.calls[i]? = some c)
    (hexec : c.phase.executing = true) (hoff : phase.executing = false) :
    Exact { s.enter i c phase with inflight := s.inflight.erase c.reference } := by
  have hi : s.Executes i c.reference := (executes_of_call hc).mpr ⟨rfl, hexec⟩
  intro ref
  simp only [executes_with_inflight, Finset.mem_erase, executes_enter_off hc hoff]
  refine ⟨?_, fun j k hj hk => (hs ref).2 j k hj.2 hk.2⟩
  rw [(hs ref).1]
  constructor
  · rintro ⟨hne, j, hj⟩
    refine ⟨j, fun hji => hne ?_, hj⟩
    subst hji
    exact (((executes_of_call hc).mp hj).1).symm
  · rintro ⟨j, hji, hj⟩
    refine ⟨fun href => hji ?_, j, hj⟩
    subst href
    exact (hs c.reference).2 j i hj hi

end

/-! ### Every run -/

/-- A call that is new executes nothing yet. -/
theorem executes_append {s : Fetches} {c : FetchCall} (hc : c.phase.executing = false) {j : ℕ}
    {ref : Str} : Executes { s with calls := s.calls ++ [c] } j ref ↔ s.Executes j ref := by
  unfold Executes
  rcases Nat.lt_trichotomy j s.calls.length with hj | rfl | hj
  · simp [List.getElem?_append_left hj]
  · simp [hc]
  · have hle : s.calls.length ≤ j := Nat.le_of_lt hj
    have hone : ¬ j - s.calls.length < 1 := by omega
    simp [List.getElem?_append_right hle, List.getElem?_eq_none hle, hone]

section
variable [External]

/-- What a step can do: a call begins; a call goes on waiting; it enters its reference; it changes
its phase without starting or ending its fetch; it takes its reference out; or it is dropped while
it executes. -/
theorem step_cases {s t : Fetches} {a : FetchStep} (h : s.step a = some t) :
    (∃ c, c.phase.executing = false ∧ t = { s with calls := s.calls ++ [c] }) ∨ t = s ∨
    ∃ i c, s.calls[i]? = some c ∧
      ((c.phase = .waiting ∧ c.reference ∉ s.inflight ∧
          t = { s.enter i c .fetching with inflight := insert c.reference s.inflight }) ∨
        (∃ phase, phase.executing = c.phase.executing ∧ t = s.enter i c phase) ∨
        (c.phase.executing = true ∧ ∃ res, t = { s.enter i c (.returned res) with
          inflight := s.inflight.erase c.reference }) ∨
        (c.phase.executing = true ∧ a = .drop i ∧ t = s.enter i c .dropped)) := by
  cases a with
  | call release =>
      cases h
      refine Or.inl ⟨_, ?_, rfl⟩
      cases release.verify <;> rfl
  | attempt i =>
      obtain ⟨c, hc, h⟩ := Option.bind_eq_some_iff.mp h
      split at h
      · rename_i hwaiting
        split at h
        · cases h
          exact Or.inr (Or.inl rfl)
        · rename_i hfree
          cases h
          exact Or.inr (Or.inr ⟨i, c, hc, Or.inl ⟨hwaiting, hfree, rfl⟩⟩)
      · cases h
  | finish i res =>
      obtain ⟨c, hc, h⟩ := Option.bind_eq_some_iff.mp h
      split at h
      · rename_i hfetching
        cases h
        refine Or.inr (Or.inr ⟨i, c, hc, Or.inr (Or.inl ⟨.fetched res, ?_, rfl⟩)⟩)
        rw [hfetching]
        rfl
      · cases h
  | remove i =>
      obtain ⟨c, hc, h⟩ := Option.bind_eq_some_iff.mp h
      split at h
      · rename_i res hfetched
        cases h
        refine Or.inr (Or.inr ⟨i, c, hc, Or.inr (Or.inr (Or.inl ⟨?_, res, rfl⟩))⟩)
        rw [hfetched]
        rfl
      · cases h
  | drop i =>
      obtain ⟨c, hc, h⟩ := Option.bind_eq_some_iff.mp h
      split at h
      · cases h
        refine Or.inr (Or.inr ⟨i, c, hc, Or.inr ?_⟩)
        cases hexec : c.phase.executing with
        | false => exact Or.inl ⟨.dropped, rfl, rfl⟩
        | true => exact Or.inr (Or.inr ⟨rfl, rfl, rfl⟩)
      · cases h

/-- Every step that drops no executing call keeps the set exact. -/
theorem exact_step {s t : Fetches} {a : FetchStep} (hs : s.Exact) (ha : s.KeepsExecuting a)
    (hstep : s.step a = some t) : t.Exact := by
  rcases step_cases hstep with ⟨c, hc, rfl⟩ | rfl | ⟨i, c, hc, ⟨hwaiting, hfree, rfl⟩ |
    ⟨phase, hphase, rfl⟩ | ⟨hexec, res, rfl⟩ | ⟨hexec, rfl, -⟩⟩
  · intro ref
    simp only [executes_append hc]
    exact hs ref
  · exact hs
  · exact hs.entered hc hfree hwaiting
  · exact hs.enter_same hc hphase
  · exact hs.takenOut hc hexec rfl
  · exact absurd ((executes_of_call hc).mpr ⟨rfl, hexec⟩) (ha c.reference)

/-- A step that drops an executing call leaves its reference in the set, and nobody fetches it. -/
theorem leaked_of_drop {s t : Fetches} {a : FetchStep} (hs : s.Exact)
    (ha : ¬ s.KeepsExecuting a) (hstep : s.step a = some t) :
    ∃ ref ∈ t.inflight, ∀ i, ¬ t.Executes i ref := by
  cases a with
  | drop i =>
      obtain ⟨ref, hexec⟩ := not_forall_not.mp ha
      obtain ⟨c, hc, h⟩ := Option.bind_eq_some_iff.mp hstep
      split at h
      · cases h
        refine ⟨ref, (hs ref).1.mpr ⟨i, hexec⟩, fun j hj => ?_⟩
        obtain ⟨hne, hj⟩ := (executes_enter_off hc rfl).mp hj
        exact hne ((hs ref).2 j i hj hexec)
      · cases h
  | _ => exact absurd trivial ha

/-- In an exact set, a reference that nobody is fetching is not entered. -/
theorem Exact.unblocked {s : Fetches} (hs : s.Exact) : s.Unblocked := by
  intro i c hc hwaiting hnone
  have hfree : c.reference ∉ s.inflight := by
    rw [(hs c.reference).1]
    exact not_exists.mpr hnone
  refine ⟨{ s.enter i c .fetching with inflight := insert c.reference s.inflight }, ?_, ?_⟩
  · simp [step, hc, hwaiting, hfree]
  · exact (executes_enter_on hc rfl (by rw [hwaiting]; rfl)).mpr (Or.inl ⟨rfl, rfl⟩)

/-- The set is exact, and nobody waits for a reference that nobody is fetching. -/
def Guarded (s : Fetches) : Prop := s.Exact ∧ s.Unblocked

/-- **One fetch per reference.**  In a run from no calls, the set is exact in every state reached,
and no call waits in vain, exactly when the run drops no call that is executing its fetch. -/
theorem run_guarded_iff {steps : List FetchStep} (hrun : (run step empty steps).isSome) :
    Throughout step Guarded empty steps ↔ Meets step KeepsExecuting empty steps := by
  constructor
  · intro h
    refine meets_of_throughout (fun s a t hs ha ht hexact => ?_) hrun (h.mono fun s hs => hs.1)
    obtain ⟨ref, hmem, hnone⟩ := leaked_of_drop hs ha ht
    obtain ⟨i, hi⟩ := (hexact ref).1.mp hmem
    exact hnone i hi
  · intro h
    have hempty : empty.Exact := by
      intro ref
      simp [empty, Executes]
    exact (throughout_of_meets (fun s a t hs ha ht => exact_step hs ha ht) hempty h).mono
      fun s hs => ⟨hs, hs.unblocked⟩

/-- A reference that was left behind stays: every later call for it waits for ever. -/
theorem leaked_forever {s t : Fetches} {ref : Str} {steps : List FetchStep}
    (hmem : ref ∈ s.inflight) (hnone : ∀ i, ¬ s.Executes i ref)
    (hrun : run step s steps = some t) : ref ∈ t.inflight ∧ ∀ i, ¬ t.Executes i ref := by
  refine run_keeps (C := fun _ _ => True)
    (I := fun s : Fetches => ref ∈ s.inflight ∧ ∀ i, ¬ s.Executes i ref) ?_ ⟨hmem, hnone⟩
    (meets_of_forall fun _ _ => trivial) hrun
  rintro s a t ⟨hmem, hnone⟩ - hstep
  rcases step_cases hstep with ⟨c, hc, rfl⟩ | rfl | ⟨i, c, hc, ⟨hwaiting, hfree, rfl⟩ |
    ⟨phase, hphase, rfl⟩ | ⟨hexec, res, rfl⟩ | ⟨hexec, -, rfl⟩⟩
  · exact ⟨hmem, fun j => mt (executes_append hc).mp (hnone j)⟩
  · exact ⟨hmem, hnone⟩
  · refine ⟨Finset.mem_insert_of_mem hmem, fun j hj => ?_⟩
    rcases (executes_enter_on hc rfl (by rw [hwaiting]; rfl)).mp hj with ⟨-, rfl⟩ | hj
    · exact hfree hmem
    · exact hnone j hj
  · exact ⟨hmem, fun j => mt (executes_enter_same hc hphase).mp (hnone j)⟩
  · -- the reference that is taken out is being fetched, so it is another one
    refine ⟨Finset.mem_erase.mpr ⟨?_, hmem⟩, fun j hj => hnone j ?_⟩
    · rintro rfl
      exact hnone i ((executes_of_call hc).mpr ⟨rfl, hexec⟩)
    · exact ((executes_enter_off hc rfl).mp hj).2
  · exact ⟨hmem, fun j hj => hnone j ((executes_enter_off hc rfl).mp hj).2⟩

end

/-- Two calls for one reference: the second waits, and fetches after the first has returned. -/
theorem run_guarded_iff_at : letI := sample
    let rel := Sample.release Sample.alice "app" "1.0" Sample.index 5
    let steps : List FetchStep := [.call rel, .call rel, .attempt 0, .attempt 1, .finish 0 (.ok ()),
      .remove 0, .attempt 1]
    Throughout step Guarded empty steps ↔ Meets step KeepsExecuting empty steps :=
  @run_guarded_iff sample _ (by decide +kernel)

/-- A call is dropped while it fetches: its reference stays in the set, and nobody fetches it. -/
theorem drop_leaks_reference : letI := sample
    let rel := Sample.release Sample.alice "app" "1.0" Sample.index 5
    ¬ Throughout step Guarded empty [.call rel, .attempt 0, .drop 0] := by
  let _ := sample
  intro rel h
  have hverify : rel.verify = .ok () := by decide +kernel
  have hcall : step empty (.call rel) = some ⟨∅, [⟨rel.reference, .waiting⟩]⟩ := by
    simp [step, empty, hverify]
  have hattempt : step ⟨∅, [⟨rel.reference, .waiting⟩]⟩ (.attempt 0) =
      some ⟨{rel.reference}, [⟨rel.reference, .fetching⟩]⟩ := by
    simp [step, enter]
  have hdrop : step ⟨{rel.reference}, [⟨rel.reference, .fetching⟩]⟩ (.drop 0) =
      some ⟨{rel.reference}, [⟨rel.reference, .dropped⟩]⟩ := by
    simp [step, enter, FetchPhase.live]
  obtain ⟨hexact, -⟩ := ((h.2 _ hcall).2 _ hattempt).2 _ hdrop
  obtain ⟨i, c, hc, -, hexec⟩ := (hexact rel.reference).1.mp (Finset.mem_singleton_self _)
  cases i with
  | zero =>
      cases hc
      cases hexec
  | succ i => cases hc

end Fetches

end Ocid
