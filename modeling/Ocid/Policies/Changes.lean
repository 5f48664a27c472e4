import Ocid.Core.Rules
import Ocid.Daemon.Sample
import Ocid.Lib.Runs
import Ocid.Lib.Slots

/-!
# Policies — Changes — operations on the policy, at the same time

The policy exists twice, in memory and in `policy.toml`.  An operation takes a copy of the one in
memory, changes the copy, saves it, and puts it into memory; a reload reads the file and puts that
into memory.  Each of these is one step, and no lock is held from one step to the next.

`run_settled` says when the operations are as if made one after the other.  Two things must not
happen: another operation saves between the copy and the save of one, whose change is then
overwritten (`Alone` at a save); or another one saves between the save, or the reading, and the put
into memory, which then differs from the file (`Alone` at a put).  The order is the one of the
saves.  `seeds_lose_one` is a run of two seeds that overwrites one of them.
-/

namespace Ocid

/-- How far an operation has come. -/
inductive PolicyPhase where
  | called
  /-- Made `next` of the copy `base`; to be saved. -/
  | changed (base next : Policy) (out : Bool)
  /-- Saved or read; to be put into memory. -/
  | pending (next : Policy) (out : Bool)
  | returned (res : Except Err Bool)

/-- A change or a reload that is running. -/
structure PolicyCall where
  op : PolicyOp
  phase : PolicyPhase

namespace PolicyPhase

/-- The copy the operation was made on, before it is saved. -/
def base : PolicyPhase → Option Policy
  | changed base _ _ => some base
  | _ => none

/-- What will be put into memory. -/
def next : PolicyPhase → Option Policy
  | pending next _ => some next
  | _ => none

/-- The call has returned. -/
def isReturned : PolicyPhase → Bool
  | returned _ => true
  | _ => false

end PolicyPhase

namespace PolicyCall

/-- The operation, if it returned `Ok`. -/
def succeeded (c : PolicyCall) : Option PolicyOp :=
  match c.phase with
  | .returned (.ok _) => some c.op
  | _ => none

/-- The operation, once nothing can make it fail any more. -/
def committed (c : PolicyCall) : Option PolicyOp :=
  match c.phase with
  | .pending _ _ | .returned (.ok _) => some c.op
  | _ => none

theorem of_returned {c : PolicyCall} (h : c.phase.isReturned = true) :
    c.phase.next = none ∧ c.committed = c.succeeded := by
  cases hp : c.phase with
  | returned res => cases res <;> simp [committed, succeeded, hp, PolicyPhase.next]
  | _ =>
      rw [hp] at h
      cases h

end PolicyCall

/-- The policy in memory and the one in the file, with the calls that are running. -/
structure Policies where
  memory : Policy
  file : Policy
  calls : List PolicyCall

/-- One step of one call. -/
inductive PolicyStep where
  | call (op : PolicyOp)
  /-- A change takes its copy and is made on it. -/
  | read (i : ℕ)
  /-- A reload reads the file, or fails. -/
  | load (i : ℕ) (fault : Option Err)
  /-- A change is saved, or the save fails. -/
  | save (i : ℕ) (fault : Option Err)
  | swap (i : ℕ)

namespace Policies

/-- No operation has begun. -/
def start (p : Policy) : Policies := ⟨p, p, []⟩

/-- A call moves on. -/
def enter (s : Policies) (i : ℕ) (c : PolicyCall) (phase : PolicyPhase) : Policies :=
  { s with calls := s.calls.set i { c with phase } }

/-- The phase of a change after it was made on a copy. -/
def changeOn [External] (op : PolicyOp) (base : Policy) : PolicyPhase :=
  match op.apply base with
  | .ok (next, out) => .changed base next out
  | .error e => .returned (.error e)

/-- What a step does. -/
def step [External] (selfId : PublisherId) (s : Policies) : PolicyStep → Option Policies
  | .call op =>
      let phase := match op.check selfId with
        | .ok _ => .called
        | .error e => .returned (.error e)
      some { s with calls := s.calls ++ [⟨op, phase⟩] }
  | .read i => do
      let c ← s.calls[i]?
      match c.phase with
      | .called => if c.op = .reload then none else some (s.enter i c (changeOn c.op s.memory))
      | _ => none
  | .load i fault => do
      let c ← s.calls[i]?
      match c.phase with
      | .called =>
          if c.op = .reload then
            some (s.enter i c (match fault with
              | none => .pending s.file false
              | some e => .returned (.error e)))
          else none
      | _ => none
  | .save i fault => do
      let c ← s.calls[i]?
      match c.phase with
      | .changed _ next out =>
          match fault with
          | none => some { s.enter i c (.pending next out) with file := next }
          | some e => some (s.enter i c (.returned (.error e)))
      | _ => none
  | .swap i => do
      let c ← s.calls[i]?
      match c.phase with
      | .pending next out => some { s.enter i c (.returned (.ok out)) with memory := next }
      | _ => none

/-- Every operation has returned. -/
def Quiet (s : Policies) : Prop := ∀ c ∈ s.calls, c.phase.isReturned = true

/-- Once all operations have returned, memory and file agree, and both are what the operations
that returned `Ok` make of `p` in some order. -/
def Settled [External] (p : Policy) (s : Policies) : Prop :=
  s.Quiet → s.memory = s.file ∧
    ∃ ops, ops.Perm (s.calls.filterMap PolicyCall.succeeded) ∧
      PolicyOp.applyAll p ops = .ok s.memory

/-- A change is saved over the policy it was made on, and what is put into memory is what the file
holds. -/
def Alone (s : Policies) : PolicyStep → Prop
  | .save i none => (s.calls[i]?.bind fun c => c.phase.base).all (· = s.file) = true
  | .swap i => (s.calls[i]?.bind fun c => c.phase.next).all (· = s.file) = true
  | _ => True

instance (s : Policies) (a : PolicyStep) : Decidable (s.Alone a) :=
  match a with
  | .save _ none => inferInstanceAs (Decidable (_ = true))
  | .save _ (some _) => isTrue trivial
  | .swap _ => inferInstanceAs (Decidable (_ = true))
  | .call _ => isTrue trivial
  | .read _ => isTrue trivial
  | .load _ _ => isTrue trivial

/-! ### The invariant -/

section
variable [External]

/-- The file is what the committed operations make of `p` in the order of their saves; memory
agrees with it unless something is to be put there; and a change is what its operation makes of
its copy. -/
structure Ordered (p : Policy) (s : Policies) : Prop where
  serial : ∃ ops, ops.Perm (s.calls.filterMap PolicyCall.committed) ∧
    PolicyOp.applyAll p ops = .ok s.file
  agree : (∀ c ∈ s.calls, c.phase.next = none) → s.memory = s.file
  made : ∀ c ∈ s.calls, ∀ base next out, c.phase = .changed base next out →
    c.op.apply base = .ok (next, out)

theorem ordered_start (p : Policy) : Ordered p (start p) where
  serial := ⟨[], List.Perm.refl _, rfl⟩
  agree _ := rfl
  made c hc := by cases hc

/-- In a quiet state what is committed has returned. -/
theorem Ordered.settled {p : Policy} {s : Policies} (h : Ordered p s) : Settled p s := by
  intro hq
  have hagree := h.agree fun c hc => (PolicyCall.of_returned (hq c hc)).1
  have hsucc : s.calls.filterMap PolicyCall.committed =
      s.calls.filterMap PolicyCall.succeeded :=
    List.filterMap_congr fun c hc => (PolicyCall.of_returned (hq c hc)).2
  obtain ⟨ops, hperm, hops⟩ := h.serial
  exact ⟨hagree, ops, hsucc ▸ hperm, hagree ▸ hops⟩

/-- An operation moves on without committing, and has nothing to put into memory before or
after. -/
theorem Ordered.enter {p : Policy} {s : Policies} (h : Ordered p s) {i : ℕ} {c : PolicyCall}
    (hc : s.calls[i]? = some c) {phase : PolicyPhase}
    (hcommit : PolicyCall.committed { c with phase } = PolicyCall.committed c)
    (hnext : c.phase.next = none)
    (hmade : ∀ base next out, phase = .changed base next out →
      c.op.apply base = .ok (next, out)) : Ordered p (s.enter i c phase) where
  serial := by
    obtain ⟨ops, hperm, hops⟩ := h.serial
    refine ⟨ops, ?_, hops⟩
    show ops.Perm ((s.calls.set i _).filterMap _)
    rw [Slots.filterMap_set_of_eq hc hcommit]
    exact hperm
  agree hall := by
    refine h.agree fun d hd => ?_
    obtain ⟨before, after, hl, hset⟩ := Slots.split_at hc
    rw [hl] at hd
    rw [Policies.enter, hset] at hall
    rcases List.mem_append.mp hd with hd | hd
    · exact hall d (List.mem_append_left _ hd)
    · rcases List.mem_cons.mp hd with rfl | hd
      · exact hnext
      · exact hall d (List.mem_append_right _ (List.mem_cons_of_mem _ hd))
  made := Slots.forall_mem_set h.made hmade

/-- An operation that commits is the last one of the order. -/
theorem Ordered.commit {p : Policy} {s : Policies} (h : Ordered p s) {i : ℕ} {c : PolicyCall}
    (hc : s.calls[i]? = some c) (hcommit : c.committed = none) {next : Policy} {out : Bool}
    (happly : c.op.apply s.file = .ok (next, out)) :
    Ordered p { s.enter i c (.pending next out) with file := next } where
  serial := by
    obtain ⟨ops, hperm, hops⟩ := h.serial
    refine ⟨ops ++ [c.op], ?_, PolicyOp.applyAll_append hops ?_⟩
    · exact (hperm.append_right [c.op]).trans (Slots.filterMap_set_of_none hc hcommit rfl)
    · simp [PolicyOp.applyAll, happly, bind, Except.bind]
  agree hall := by
    have hi := (List.getElem?_eq_some_iff.mp hc).1
    have := hall { c with phase := .pending next out } (List.mem_set hi _)
    cases this
  made := Slots.forall_mem_set h.made fun _ _ _ he => by cases he

/-- What the file holds is put into memory. -/
theorem Ordered.put {p : Policy} {s : Policies} (h : Ordered p s) {i : ℕ} {c : PolicyCall}
    (hc : s.calls[i]? = some c) {out : Bool} (hphase : c.phase = .pending s.file out) :
    Ordered p { s.enter i c (.returned (.ok out)) with memory := s.file } where
  serial := by
    obtain ⟨ops, hperm, hops⟩ := h.serial
    refine ⟨ops, ?_, hops⟩
    show ops.Perm ((s.calls.set i _).filterMap _)
    rw [Slots.filterMap_set_of_eq hc (by simp [PolicyCall.committed, hphase])]
    exact hperm
  agree _ := rfl
  made := Slots.forall_mem_set h.made fun _ _ _ he => by cases he

theorem ordered_step {selfId : PublisherId} {p : Policy} {s t : Policies} {a : PolicyStep}
    (h : Ordered p s) (ha : s.Alone a) (hstep : s.step selfId a = some t) : Ordered p t := by
  cases a with
  | call op =>
      cases hstep
      have hnew : ∀ phase : PolicyPhase, phase = .called ∨ (∃ e, phase = .returned (.error e)) →
          Ordered p { s with calls := s.calls ++ [⟨op, phase⟩] } := by
        intro phase hphase
        have hcommit : PolicyCall.committed ⟨op, phase⟩ = none := by
          rcases hphase with rfl | ⟨e, rfl⟩ <;> rfl
        refine ⟨?_, fun hall => h.agree fun c hc => hall c (List.mem_append_left _ hc), ?_⟩
        · rw [Slots.filterMap_concat_of_none hcommit]
          exact h.serial
        · refine Slots.forall_mem_concat h.made fun base next out he => ?_
          rcases hphase with rfl | ⟨e, rfl⟩ <;> cases he
      cases op.check selfId with
      | ok u => exact hnew _ (Or.inl rfl)
      | error e => exact hnew _ (Or.inr ⟨e, rfl⟩)
  | read i =>
      obtain ⟨c, hc, hstep⟩ := Option.bind_eq_some_iff.mp hstep
      split at hstep
      · rename_i hp
        have hnone : c.committed = none := by rw [PolicyCall.committed, hp]
        split at hstep
        · cases hstep
        · cases hstep
          -- the copy is changed, or the change fails
          unfold changeOn
          cases happly : c.op.apply s.memory with
          | ok r =>
              refine h.enter hc (hnone ▸ rfl) (by rw [hp]; rfl) ?_
              rintro base next out he
              cases he
              exact happly
          | error e => exact h.enter hc (hnone ▸ rfl) (by rw [hp]; rfl) fun _ _ _ he => by cases he
      · cases hstep
  | load i fault =>
      obtain ⟨c, hc, hstep⟩ := Option.bind_eq_some_iff.mp hstep
      split at hstep
      · rename_i hp
        have hnone : c.committed = none := by rw [PolicyCall.committed, hp]
        split at hstep
        · rename_i hreload
          cases hstep
          cases fault with
          | none => exact h.commit hc hnone (by rw [hreload]; rfl)
          | some e =>
              exact h.enter hc (hnone ▸ rfl) (by rw [hp]; rfl) fun _ _ _ he => by cases he
        · cases hstep
      · cases hstep
  | save i fault =>
      obtain ⟨c, hc, hstep⟩ := Option.bind_eq_some_iff.mp hstep
      split at hstep
      · rename_i base next out hp
        have hnone : c.committed = none := by rw [PolicyCall.committed, hp]
        cases fault with
        | none =>
            cases hstep
            have hbase : base = s.file := by simpa [Alone, hc, hp, PolicyPhase.base] using ha
            have hmade := h.made c (List.mem_of_getElem? hc) base next out hp
            exact h.commit hc hnone (hbase ▸ hmade)
        | some e =>
            cases hstep
            exact h.enter hc (hnone ▸ rfl) (by rw [hp]; rfl) fun _ _ _ he => by cases he
      · cases hstep
  | swap i =>
      obtain ⟨c, hc, hstep⟩ := Option.bind_eq_some_iff.mp hstep
      split at hstep
      · rename_i next out hp
        cases hstep
        have hnext : next = s.file := by simpa [Alone, hc, hp, PolicyPhase.next] using ha
        subst hnext
        exact h.put hc hp
      · cases hstep

/-- **One after the other.**  When no operation saves between the copy and the save of another, or
between the save and the put into memory of another, every state reached is settled. -/
theorem run_settled {selfId : PublisherId} {p : Policy} {steps : List PolicyStep}
    (hm : Meets (step selfId) Alone (start p) steps) :
    Throughout (step selfId) (Settled p) (start p) steps :=
  (throughout_of_meets (fun _ _ _ hs ha ht => ordered_step hs ha ht) (ordered_start p) hm).mono
    fun _ hs => hs.settled

end

/-- A seed and a pin, the pin made while the seed is already in memory. -/
theorem run_settled_at : letI := sample
    let app : ImageRef := ⟨Sample.alice.id, "app", none⟩
    let rule : Str := app.toStr
    let pin : Str := rule ++ ":1.0"
    let steps : List PolicyStep := [.call (.seed rule app .latest), .read 0, .save 0 none, .swap 0,
      .call (.pin pin { app with tag := some "1.0" }), .read 1, .save 1 none, .swap 1]
    Throughout (step Sample.bob.id) (Settled .default) (start .default) steps :=
  @run_settled sample _ _ _ (by decide +kernel)

/-- Two seeds take their copies before either saves: both return `Ok`, and one is lost. -/
theorem seeds_lose_one : letI := sample
    let app : ImageRef := ⟨Sample.alice.id, "app", none⟩
    let web : ImageRef := ⟨Sample.alice.id, "web", none⟩
    let steps : List PolicyStep := [.call (.seed app.toStr app .latest),
      .call (.seed web.toStr web .latest), .read 0, .read 1, .save 0 none, .swap 0, .save 1 none,
      .swap 1]
    ¬ Throughout (step Sample.bob.id) (Settled .default) (start .default) steps := by
  let _ := sample
  intro app web steps h
  let opApp : PolicyOp := .seed app.toStr app .latest
  let opWeb : PolicyOp := .seed web.toStr web .latest
  have hrun : (run (step Sample.bob.id) (start .default) steps).any (fun s =>
      s.calls.all (fun c => c.phase.isReturned) && s.memory.seed.length == 1 &&
        s.calls.filterMap PolicyCall.succeeded == [opApp, opWeb]) = true := by decide +kernel
  have hboth : ∀ ops ∈ [[opApp, opWeb], [opWeb, opApp]],
      ((PolicyOp.applyAll .default ops).toOption.map fun p => p.seed.length) = some 2 := by
    decide +kernel
  clear_value opApp opWeb steps app web
  obtain ⟨s, hs, hend⟩ := (Option.any_eq_true _ _).mp hrun
  simp only [Bool.and_eq_true, List.all_eq_true, beq_iff_eq] at hend
  obtain ⟨⟨hq, hlen⟩, hsucc⟩ := hend
  obtain ⟨-, ops, hperm, hops⟩ := last_of_throughout h hs hq
  rw [hsucc, List.perm_pair] at hperm
  have htwo := hboth ops (by simpa using hperm)
  rw [hops] at htwo
  cases hlen.symm.trans (Option.some.inj htwo)

end Policies

end Ocid
