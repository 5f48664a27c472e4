import Ocid.Daemon.DnsService
import Ocid.Daemon.Sample
import Ocid.Lib.Runs
import Ocid.Lib.Slots

/-!
# Naming — Rotation — the cache and the pins, while calls overlap

A resolution reads the cache, asks DNS, validates and pins under the pin lock, and then writes the
cache; an unpin removes the pin under the lock and then clears the cache, before it gives the lock
back.  The cache has a lock of its own, held only while it is read or written, so that other calls
come in between.

The cache should answer a key only while the zone is pinned to it (`CachePinned`).
`run_cachePinned_iff`: in every state of a run it does, exactly when no pin is removed under a
live answer, and no answer is written for a key that is no longer the pinned one.  The first
happens in every unpin of a zone in use, until the cache is cleared; what is left when such unpins
are let through is `run_forgets`: the cache answers a dropped key only until the unpin returns.
The second is a slip: `slow_resolve_revives_key`.
-/

namespace Ocid

/-- Where a resolution stands. -/
inductive ResolvePhase where
  /-- DNS is asked, by a call that began at `now`. -/
  | asking (now : ℕ)
  | found (now : ℕ) (record : DnsRecord) (ttl : ℕ)
  /-- Validated and pinned; the cache is to be written. -/
  | validated (publisher : PublisherId) (new : Bool) (record : DnsRecord) (expires : ℕ)
  | returned (res : Except Err ZoneOutcome)

/-- Where an unpin stands. -/
inductive UnpinPhase where
  | called
  /-- The pin is removed and the lock is held; the cache is to be cleared. -/
  | removed (was : Bool)
  | returned (res : Except Err Bool)

/-- A call of the resolver. -/
inductive DnsCall where
  | resolve (zone : Str) (phase : ResolvePhase)
  | unpin (zone : Str) (phase : UnpinPhase)

/-- The call holds the pin lock from one step to the next. -/
def DnsCall.locks : DnsCall → Bool
  | .unpin _ (.removed _) => true
  | _ => false

/-- The resolver, with the calls that are running. -/
structure Zones where
  state : DnsState
  /-- The monotonic clock. -/
  now : ℕ
  calls : List DnsCall

/-- One step of one call, or of the clock. -/
inductive ZoneStep where
  | tick (d : ℕ)
  /-- A resolution begins: it reads the clock and the cache. -/
  | resolve (zone : Str)
  /-- DNS answers; without a record, that is written to the cache. -/
  | answer (i : ℕ) (answer : Option (List TxtAnswer))
  /-- The record is validated under the pin lock. -/
  | validate (i wall : ℕ) (fault : Option Err)
  /-- The answer is written to the cache. -/
  | insert (i : ℕ)
  | unpin (zone : Str)
  /-- The pin is removed under the pin lock. -/
  | remove (i : ℕ) (fault : Option Err)
  /-- The cache is cleared, and the lock is given back. -/
  | clear (i : ℕ)

namespace Zones

/-- After a restart, with the pins of the disk. -/
def start (disk : DnsPins) (now : ℕ) : Zones := ⟨.boot disk, now, []⟩

/-- Nobody holds the pin lock. -/
def unlocked (w : Zones) : Bool := w.calls.all fun c => !c.locks

/-- The `i`-th call becomes `c`, and the state `s`. -/
def enter (w : Zones) (i : ℕ) (s : DnsState) (c : DnsCall) : Zones :=
  { w with state := s, calls := w.calls.set i c }

/-- What a step does. -/
def step [External] [Relays] (cfg : DnsConfig) (w : Zones) : ZoneStep → Option Zones
  | .tick d => some { w with now := w.now + d }
  | .resolve zone =>
      let phase := if !cfg.enabled then .returned (.ok .disabled)
        else match w.state.cached zone w.now with
          | some outcome => .returned (.ok outcome)
          | none => .asking w.now
      some { w with calls := w.calls ++ [.resolve zone phase] }
  | .answer i answer => do
      match ← w.calls[i]? with
      | .resolve zone (.asking now) => match recordOf answer with
          | none => some (w.enter i (w.state.cacheNegative zone now)
              (.resolve zone (.returned (.ok .noRecord))))
          | some (record, ttl) => some (w.enter i w.state (.resolve zone (.found now record ttl)))
      | _ => none
  | .validate i wall fault => do
      match ← w.calls[i]? with
      | .resolve zone (.found now record ttl) =>
          if w.unlocked then match w.state.validateAndPin cfg zone record wall fault with
            | (.ok (publisher, new), s) => some (w.enter i s (.resolve zone
                (.validated publisher new record (now + seconds ttl))))
            | (.error e, s) => some (w.enter i s (.resolve zone (.returned (.error e))))
          else none
      | _ => none
  | .insert i => do
      match ← w.calls[i]? with
      | .resolve zone (.validated publisher new record expires) =>
          some (w.enter i (w.state.cachePositive zone publisher record expires)
            (.resolve zone (.returned (.ok (.resolved publisher new record.relay record.seed)))))
      | _ => none
  | .unpin zone => some { w with calls := w.calls ++ [.unpin zone .called] }
  | .remove i fault => do
      match ← w.calls[i]? with
      | .unpin zone .called =>
          if w.unlocked then match w.state.removePin zone fault with
            | (.ok was, s) => some (w.enter i s (.unpin zone (.removed was)))
            | (.error e, s) => some (w.enter i s (.unpin zone (.returned (.error e))))
          else none
      | _ => none
  | .clear i => do
      match ← w.calls[i]? with
      | .unpin zone (.removed was) =>
          some (w.enter i (w.state.dropCached zone) (.unpin zone (.returned (.ok was))))
      | _ => none

/-- A key the cache answers for a zone is the one the zone is pinned to. -/
def CachePinned (w : Zones) : Prop := w.state.CachePinned w.now

/-- The cache answers no key for `zone`. -/
def silent (w : Zones) (zone : Str) : Bool :=
  match w.state.cached zone w.now with
  | some (.resolved _ _ _ _) => false
  | _ => true

/-- The answer that the call will write to the cache would be live, and its key is not the pinned
one. -/
def late (w : Zones) : DnsCall → Bool
  | .resolve zone (.validated publisher _ _ expires) =>
      w.now < expires && w.state.pins.keyOf zone != some publisher.toStr
  | _ => false

/-- No pin is removed under a live answer, and no answer is written for a key that is not the
pinned one. -/
def Settles (w : Zones) : ZoneStep → Prop
  | .remove i _ => (w.calls[i]?).all (fun c => match c with
      | .unpin zone .called => w.silent zone
      | _ => true) = true
  | .insert i => (w.calls[i]?).all (fun c => !w.late c) = true
  | _ => True

/-- An unpin of the zone has removed the pin, and not yet cleared the cache. -/
def Unpinning (w : Zones) (zone : Str) : Prop := ∃ was, .unpin zone (.removed was) ∈ w.calls

/-- A key the cache answers for a zone is the one the zone is pinned to, unless an unpin of the
zone is about to clear the cache. -/
def Forgets (w : Zones) : Prop := w.state.PinnedBut w.now w.Unpinning

/-- No removal fails under a live answer, and no answer is written for a key that is not the pinned
one. -/
def Prompt (w : Zones) : ZoneStep → Prop
  | .remove i (some _) => (w.calls[i]?).all (fun c => match c with
      | .unpin zone .called => w.silent zone
      | _ => true) = true
  | .insert i => (w.calls[i]?).all (fun c => !w.late c) = true
  | _ => True

theorem silent_iff {w : Zones} {zone : Str} :
    w.silent zone = true ↔ ∀ p, ¬ w.state.Answers zone w.now p := by
  unfold silent
  constructor
  · rintro h p ⟨new, relay, seed, hp⟩
    rw [hp] at h
    cases h
  · intro h
    split
    · rename_i p new relay seed hc
      exact absurd ⟨new, relay, seed, hc⟩ (h p)
    · rfl

/-! ### One step -/

section
variable [External] [Relays] {cfg : DnsConfig} {w v : Zones} {a : ZoneStep}

omit [External] [Relays] in
/-- Another call does not end an unpin. -/
theorem Unpinning.enter {i : ℕ} {c c' : DnsCall} {s : DnsState} {zone : Str}
    (h : w.Unpinning zone) (hc : w.calls[i]? = some c)
    (hother : ∀ was, c ≠ .unpin zone (.removed was)) : (w.enter i s c').Unpinning zone := by
  obtain ⟨was, hmem⟩ := h
  obtain ⟨before, after, hl, hset⟩ := Slots.split_at hc
  refine ⟨was, ?_⟩
  show _ ∈ w.calls.set i c'
  rw [hset]
  rw [hl] at hmem
  rcases List.mem_append.mp hmem with hmem | hmem
  · exact List.mem_append_left _ hmem
  · rcases List.mem_cons.mp hmem with rfl | hmem
    · exact absurd rfl (hother was)
    · exact List.mem_append_right _ (List.mem_cons_of_mem _ hmem)

/-- What a step does to the state: nothing, while time passes or a call begins; a negative answer;
a validation; a positive answer; the removal of a pin; the end of an unpin.  Only the last one ends
an unpin. -/
theorem step_cases (hstep : w.step cfg a = some v) :
    (v.state = w.state ∧ w.now ≤ v.now ∧ ∀ z, w.Unpinning z → v.Unpinning z) ∨
    v.now = w.now ∧
      ((∀ z, w.Unpinning z → v.Unpinning z) ∧
        ((∃ zone since, v.state = w.state.cacheNegative zone since) ∨
        (∃ zone record wall fault res,
          w.state.validateAndPin cfg zone record wall fault = (res, v.state)) ∨
        (∃ i zone p new record expires, a = .insert i ∧
          w.calls[i]? = some (.resolve zone (.validated p new record expires)) ∧
          v.state = w.state.cachePositive zone p record expires) ∨
        ∃ i zone fault res, a = .remove i fault ∧ w.calls[i]? = some (.unpin zone .called) ∧
          w.state.removePin zone fault = (res, v.state) ∧ (fault = none → v.Unpinning zone)) ∨
      ∃ zone, v.state = w.state.dropCached zone ∧
        ∀ z, z ≠ zone → w.Unpinning z → v.Unpinning z) := by
  have happend : ∀ c z, w.Unpinning z → Unpinning { w with calls := w.calls ++ [c] } z :=
    fun c z ⟨was, hmem⟩ => ⟨was, List.mem_append_left _ hmem⟩
  cases a with
  | tick d =>
      cases hstep
      exact Or.inl ⟨rfl, Nat.le_add_right _ _, fun _ h => h⟩
  | resolve zone =>
      cases hstep
      exact Or.inl ⟨rfl, le_rfl, happend _⟩
  | unpin zone =>
      cases hstep
      exact Or.inl ⟨rfl, le_rfl, happend _⟩
  | answer i answer =>
      obtain ⟨c, hc, hstep⟩ := Option.bind_eq_some_iff.mp hstep
      split at hstep
      · rename_i zone now
        have hstay : ∀ s c' z, w.Unpinning z → (w.enter i s c').Unpinning z :=
          fun s c' z h => h.enter hc nofun
        split at hstep
        · cases hstep
          exact Or.inr ⟨rfl, Or.inl ⟨hstay _ _, Or.inl ⟨zone, now, rfl⟩⟩⟩
        · cases hstep
          exact Or.inl ⟨rfl, le_rfl, hstay _ _⟩
      · cases hstep
  | validate i wall fault =>
      obtain ⟨c, hc, hstep⟩ := Option.bind_eq_some_iff.mp hstep
      split at hstep
      · rename_i zone now record ttl
        have hstay : ∀ s c' z, w.Unpinning z → (w.enter i s c').Unpinning z :=
          fun s c' z h => h.enter hc nofun
        split at hstep
        · split at hstep
          · rename_i hres
            cases hstep
            exact Or.inr ⟨rfl, Or.inl ⟨hstay _ _, Or.inr (Or.inl ⟨_, _, _, _, _, hres⟩)⟩⟩
          · rename_i hres
            cases hstep
            exact Or.inr ⟨rfl, Or.inl ⟨hstay _ _, Or.inr (Or.inl ⟨_, _, _, _, _, hres⟩)⟩⟩
        · cases hstep
      · cases hstep
  | insert i =>
      obtain ⟨c, hc, hstep⟩ := Option.bind_eq_some_iff.mp hstep
      split at hstep
      · cases hstep
        exact Or.inr ⟨rfl, Or.inl ⟨fun z h => h.enter hc nofun,
          Or.inr (Or.inr (Or.inl ⟨i, _, _, _, _, _, rfl, hc, rfl⟩))⟩⟩
      · cases hstep
  | remove i fault =>
      obtain ⟨c, hc, hstep⟩ := Option.bind_eq_some_iff.mp hstep
      split at hstep
      · rename_i zone
        have hi := (List.getElem?_eq_some_iff.mp hc).1
        split at hstep
        · split at hstep
          · rename_i was s hres
            cases hstep
            exact Or.inr ⟨rfl, Or.inl ⟨fun z h => h.enter hc nofun, Or.inr (Or.inr (Or.inr
              ⟨i, zone, fault, _, rfl, hc, hres, fun _ => ⟨was, List.mem_set hi _⟩⟩))⟩⟩
          · rename_i e s hres
            cases hstep
            refine Or.inr ⟨rfl, Or.inl ⟨fun z h => h.enter hc nofun, Or.inr (Or.inr (Or.inr
              ⟨i, zone, fault, _, rfl, hc, hres, fun hf => ?_⟩))⟩⟩
            obtain ⟨-, -, ⟨-, he, -⟩ | ⟨e', he, -⟩⟩ := removePin_cases hres
            · cases he
            · cases hf.symm.trans he
        · cases hstep
      · cases hstep
  | clear i =>
      obtain ⟨c, hc, hstep⟩ := Option.bind_eq_some_iff.mp hstep
      split at hstep
      · rename_i zone was
        cases hstep
        refine Or.inr ⟨rfl, Or.inr ⟨zone, rfl, fun z hz h => h.enter hc fun was' he => ?_⟩⟩
        cases he
        exact hz rfl
      · cases hstep

theorem cachePinned_step (h : w.CachePinned) (ha : w.Settles a)
    (hstep : w.step cfg a = some v) : v.CachePinned := by
  rw [CachePinned, DnsState.cachePinned_iff] at h ⊢
  rcases step_cases hstep with ⟨hs, hle, -⟩ | ⟨hnow, ⟨-, ⟨zone, since, hs⟩ |
    ⟨zone, record, wall, fault, res, hres⟩ | ⟨i, zone, p, new, record, expires, rfl, hc, hs⟩ |
    ⟨i, zone, fault, res, rfl, hc, hres, -⟩⟩ | ⟨zone, hs, -⟩⟩
  · exact hs ▸ h.later hle
  · exact hnow ▸ hs ▸ h.cacheNegative since
  · exact hnow ▸ h.validated hres
  · refine hnow ▸ hs ▸ h.cachePositive fun hlt => ?_
    simpa [Settles, hc, late, hlt] using ha
  · refine hnow ▸ h.removed (Or.inl (silent_iff.mp ?_)) hres
    simpa [Settles, hc] using ha
  · exact hnow ▸ hs ▸ h.dropCached fun _ _ hD => hD

/-- A step that misses the condition leaves a live answer for a key that is not the pinned one. -/
theorem not_cachePinned_step (ha : ¬ w.Settles a)
    (hstep : w.step cfg a = some v) : ¬ v.CachePinned := by
  intro hv
  cases a with
  | insert i =>
      obtain ⟨c, hc, hstep⟩ := Option.bind_eq_some_iff.mp hstep
      split at hstep
      · rename_i zone p new record expires
        cases hstep
        have hlate : w.late (.resolve zone (.validated p new record expires)) = true := by
          simpa [Settles, hc] using ha
        simp only [late, Bool.and_eq_true, decide_eq_true_eq, bne_iff_ne] at hlate
        exact hlate.2 (hv zone p (DnsState.answers_cachePositive.mpr
          (by rw [if_pos rfl]; exact ⟨rfl, hlate.1⟩)))
      · cases hstep
  | remove i fault =>
      obtain ⟨c, hc, hstep⟩ := Option.bind_eq_some_iff.mp hstep
      split at hstep
      · rename_i zone
        have hloud : w.silent zone ≠ true := by simpa [Settles, hc] using ha
        obtain ⟨p, hp⟩ := not_forall_not.mp (mt silent_iff.mpr hloud)
        -- the pin is gone, whether or not that could be saved
        have hgone : ∀ res s, w.state.removePin zone fault = (res, s) → ∀ c',
            ¬ (w.enter i s c').CachePinned := by
          rintro res s hres c' hv
          obtain ⟨disk, rfl⟩ := state_of_removePin hres
          cases ((DnsPins.keyOf_erase _ _ zone).trans (if_pos rfl)).symm.trans (hv zone p hp)
        split at hstep
        · split at hstep
          · rename_i hres
            cases hstep
            exact hgone _ _ hres _ hv
          · rename_i hres
            cases hstep
            exact hgone _ _ hres _ hv
        · cases hstep
      · cases hstep
  | _ => exact absurd trivial ha

theorem forgets_step (h : w.Forgets) (ha : w.Prompt a) (hstep : w.step cfg a = some v) :
    v.Forgets := by
  unfold Forgets at h ⊢
  rcases step_cases hstep with ⟨hs, hle, hstay⟩ | ⟨hnow, ⟨hstay, ⟨zone, since, hs⟩ |
    ⟨zone, record, wall, fault, res, hres⟩ | ⟨i, zone, p, new, record, expires, rfl, hc, hs⟩ |
    ⟨i, zone, fault, res, rfl, hc, hres, hun⟩⟩ | ⟨zone, hs, hstay⟩⟩
  · exact hs ▸ (h.mono hstay).later hle
  · exact hnow ▸ hs ▸ (h.mono hstay).cacheNegative since
  · exact hnow ▸ (h.mono hstay).validated hres
  · refine hnow ▸ hs ▸ (h.mono hstay).cachePositive fun hlt => ?_
    simpa [Prompt, hc, late, hlt] using ha
  · refine hnow ▸ (h.mono hstay).removed ?_ hres
    cases fault with
    | none => exact Or.inr (hun rfl)
    | some e => exact Or.inl (silent_iff.mp (by simpa [Prompt, hc] using ha))
  · exact hnow ▸ hs ▸ h.dropCached hstay

omit [External] [Relays] in
theorem cachePinned_start (disk : DnsPins) (now : ℕ) : (start disk now).CachePinned := by
  intro zone p hp
  obtain ⟨relay, seed, expires, -, he⟩ := DnsState.answers_iff.mp hp
  cases he

/-- **The cache answers pinned keys only.**  In every state of a run it does, exactly when no pin is
removed under a live answer and no answer is written for a key that is not the pinned one. -/
theorem run_cachePinned_iff {disk : DnsPins} {now : ℕ} {steps : List ZoneStep}
    (hrun : (run (step cfg) (start disk now) steps).isSome) :
    Throughout (step cfg) CachePinned (start disk now) steps ↔
      Meets (step cfg) Settles (start disk now) steps :=
  ⟨meets_of_throughout (fun _ _ _ _ ha ht => not_cachePinned_step ha ht) hrun,
    throughout_of_meets (fun _ _ _ hs ha ht => cachePinned_step hs ha ht)
      (cachePinned_start disk now)⟩

/-- **A dropped key is forgotten.**  When no removal fails under a live answer, and no answer is
written for a key that is not the pinned one, the cache answers a key that is not the pinned one
only while an unpin of the zone is about to clear it. -/
theorem run_forgets {disk : DnsPins} {now : ℕ} {steps : List ZoneStep}
    (hm : Meets (step cfg) Prompt (start disk now) steps) :
    Throughout (step cfg) Forgets (start disk now) steps :=
  throughout_of_meets (fun _ _ _ hs ha ht => forgets_step hs ha ht)
    ((DnsState.cachePinned_iff.mp (cachePinned_start disk now)).mono fun _ => False.elim) hm

end

/-- A zone is resolved, its answer expires, and the zone is unpinned. -/
theorem run_cachePinned_iff_at : letI := sample
    letI := Sample.relays
    let zone : Str := "images.example.com"
    let steps : List ZoneStep := [.resolve zone, .answer 0 (Sample.txtAnswer Sample.alice zone 100),
      .validate 0 200 none, .insert 0, .tick (seconds 60), .unpin zone, .remove 1 none, .clear 1]
    Throughout (step Sample.dnsConfig) CachePinned (start .empty 0) steps ↔
      Meets (step Sample.dnsConfig) Settles (start .empty 0) steps :=
  @run_cachePinned_iff sample Sample.relays _ _ _ _ (by decide +kernel)

/-- A resolution has pinned a key when the zone is unpinned, and writes its answer afterwards: the
cache answers the dropped key, although every call has returned. -/
theorem slow_resolve_revives_key : letI := sample
    letI := Sample.relays
    let zone : Str := "images.example.com"
    let steps : List ZoneStep := [.resolve zone, .answer 0 (Sample.txtAnswer Sample.alice zone 100),
      .validate 0 200 none, .unpin zone, .remove 1 none, .clear 1, .insert 0]
    ¬ Throughout (step Sample.dnsConfig) CachePinned (start .empty 0) steps := by
  let _ := sample
  let _ := Sample.relays
  intro zone steps h
  have hrun : (run (step Sample.dnsConfig) (start .empty 0) steps).any (fun w =>
      w.state.cached zone w.now = some (.resolved Sample.alice.id false none none) ∧
        w.state.pins.keyOf zone = none) = true := by decide +kernel
  obtain ⟨w, hw, hend⟩ := (Option.any_eq_true _ _).mp hrun
  obtain ⟨hcached, hnone⟩ := of_decide_eq_true hend
  cases hnone.symm.trans (last_of_throughout h hw zone _ ⟨_, _, _, hcached⟩)

end Zones

end Ocid
