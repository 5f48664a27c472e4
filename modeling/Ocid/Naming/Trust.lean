import Ocid.Daemon.DnsService
import Ocid.Daemon.Sample
import Ocid.Lib.Runs

/-!
# Naming — Trust — one key for a zone, through failures and restarts

A run of resolutions and unpins, one after the other, in which any write to disk may fail and the
daemon may restart between calls or during one: the pins in memory and the cache are then lost, and
the pins are read from disk.

Once a call has returned a key for a zone, no later call should return another one, unless the zone
was unpinned in between (`Agreed`).  What carries this over a restart is the pin on disk
(`Backed`), and it does unless memory and disk disagree on the zone when a record is validated:
`run_agreed`.  They disagree after a write that failed, as memory is changed first and not changed
back: `failed_save_switches_key`.
-/

namespace Ocid

/-- What a call has returned. -/
inductive DnsEvent where
  | resolved (zone : Str) (key : PublisherId)
  | unpinned (zone : Str)
deriving DecidableEq

/-- The resolver, and what happened to the zones. -/
structure TrustRun where
  state : DnsState
  /-- The last event first. -/
  log : List DnsEvent

/-- What happens to the resolver. -/
inductive TrustStep where
  | resolve (zone : Str) (q : Query)
  | unpin (zone : Str) (fault : Option Err)
  | restart
  /-- The daemon restarts during a resolution, before or after the write to disk. -/
  | resolveCut (zone : Str) (q : Query) (written : Bool)
  /-- The daemon restarts during an unpin, before or after the write to disk. -/
  | unpinCut (zone : Str) (fault : Option Err) (written : Bool)

namespace TrustRun

/-- After a restart, with the pins of the disk. -/
def start (disk : DnsPins) : TrustRun := ⟨.boot disk, []⟩

/-- The daemon restarts. -/
def reboot (w : TrustRun) (disk : DnsPins) : TrustRun := { w with state := .boot disk }

/-- The event of a resolution. -/
def resolution (zone : Str) : Except Err ZoneOutcome → List DnsEvent
  | .ok (.resolved p _ _ _) => [.resolved zone p]
  | _ => []

/-- The event of an unpin. -/
def removal (zone : Str) : Except Err Bool → List DnsEvent
  | .ok _ => [.unpinned zone]
  | .error _ => []

/-- What a step does. A call that is cut leaves what was written to the disk. -/
def step [External] [Relays] (cfg : DnsConfig) (w : TrustRun) : TrustStep → Option TrustRun
  | .resolve zone q =>
      let (res, state) := resolveZone cfg w.state zone q
      some ⟨state, resolution zone res ++ w.log⟩
  | .unpin zone fault =>
      let (res, state) := unpinZone w.state zone fault
      some ⟨state, removal zone res ++ w.log⟩
  | .restart => some (w.reboot w.state.disk)
  | .resolveCut zone q written =>
      some (w.reboot (if written then (resolveZone cfg w.state zone q).2.disk else w.state.disk))
  | .unpinCut zone fault written =>
      some (w.reboot (if written then (unpinZone w.state zone fault).2.disk else w.state.disk))

/-- What was returned since the zone was last unpinned. -/
def sinceUnpin (w : TrustRun) (z : Str) : List DnsEvent := w.log.takeWhile (· ≠ .unpinned z)

/-- The calls that returned a key for `z` since it was last unpinned all returned the same one. -/
def Agreed (z : Str) (w : TrustRun) : Prop :=
  ∀ p p', .resolved z p ∈ w.sinceUnpin z → .resolved z p' ∈ w.sinceUnpin z → p = p'

/-- Memory and disk agree on `z`. -/
def inStep (w : TrustRun) (z : Str) : Bool := w.state.pins.keyOf z = w.state.disk.keyOf z

/-- Writing the pins in memory to disk takes no pin of `z` away. -/
def keeps (w : TrustRun) (z : Str) : Bool := w.state.disk.keyOf z = none ∨ w.inStep z

/-- A resolution validates a record of `z` only when memory and disk agree on it, and one of
another zone writes a new pin only when that keeps the pin of `z`. -/
def resolves [External] [Relays] (cfg : DnsConfig) (z : Str) (w : TrustRun) (zone : Str)
    (q : Query) : Bool :=
  validates cfg w.state zone q → if zone = z then w.inStep z
    else w.state.pins.keyOf zone = none → q.fault = none → w.keeps z

/-- The condition on a step, for the zone `z`.  Besides, an unpin of `z` that is cut after its write
finds no pin on disk. -/
def Unbroken [External] [Relays] (cfg : DnsConfig) (z : Str) (w : TrustRun) : TrustStep → Prop
  | .resolve zone q => w.resolves cfg z zone q = true
  | .resolveCut zone q written => written = true → w.resolves cfg z zone q = true
  | .unpin zone fault => zone ≠ z → fault = none → w.keeps z = true
  | .unpinCut zone fault written => written = true → fault = none →
      if zone = z then w.state.disk.keyOf z = none else w.keeps z = true
  | .restart => True

/-! ### The invariant -/

/-- A key that was returned is pinned on disk, and a key that the cache answers was returned. -/
structure Backed (z : Str) (w : TrustRun) : Prop where
  disk : ∀ p, .resolved z p ∈ w.sinceUnpin z → w.state.disk.keyOf z = some p.toStr
  cache : ∀ now p, w.state.Answers z now p → .resolved z p ∈ w.sinceUnpin z

theorem Backed.agreed {z : Str} {w : TrustRun} (h : w.Backed z) : w.Agreed z := fun p p' hp hp' =>
  PublicKey.toStr_inj (Option.some.inj ((h.disk p hp).symm.trans (h.disk p' hp')))

theorem backed_start (disk : DnsPins) (z : Str) : (start disk).Backed z where
  disk p hp := by cases hp
  cache _ _ hp := absurd hp DnsState.answers_boot

/-- After a restart the cache is empty, and nothing else was returned. -/
theorem Backed.reboot {z : Str} {w : TrustRun} {disk : DnsPins}
    (h : ∀ p, .resolved z p ∈ w.sinceUnpin z → disk.keyOf z = some p.toStr) :
    (w.reboot disk).Backed z where
  disk := h
  cache _ _ hp := absurd hp DnsState.answers_boot

/-! ### What a call adds -/

section
variable {z zone : Str} {w : TrustRun}

/-- A resolution of the zone adds the key it returns. -/
theorem mem_sinceUnpin_resolution {res : Except Err ZoneOutcome} {state : DnsState}
    {p : PublisherId} :
    .resolved z p ∈ sinceUnpin ⟨state, resolution zone res ++ w.log⟩ z ↔
      (zone = z ∧ ∃ new relay seed, res = .ok (.resolved p new relay seed)) ∨
        .resolved z p ∈ w.sinceUnpin z := by
  have hother : ∀ log : List DnsEvent, (∀ new relay seed, res ≠ .ok (.resolved p new relay seed)) →
      (.resolved z p ∈ log ↔ (zone = z ∧ ∃ new relay seed, res = .ok (.resolved p new relay seed)) ∨
        .resolved z p ∈ log) := fun log h =>
    ⟨Or.inr, fun h' => h'.resolve_left fun ⟨_, new, relay, seed, he⟩ => h new relay seed he⟩
  unfold sinceUnpin
  cases res with
  | error e => exact hother _ nofun
  | ok outcome =>
      cases outcome with
      | resolved p' new relay seed =>
          by_cases hz : zone = z <;> by_cases hp : p' = p <;>
            simp [resolution, hz, hp, Ne.symm, eq_comm]
      | noRecord => exact hother _ nofun
      | disabled => exact hother _ nofun

/-- After an unpin of the zone nothing was returned since. -/
theorem sinceUnpin_self {state : DnsState} :
    sinceUnpin ⟨state, .unpinned z :: w.log⟩ z = [] := by
  simp [sinceUnpin]

theorem mem_sinceUnpin_other {state : DnsState} (hz : zone ≠ z) {p : PublisherId} :
    .resolved z p ∈ sinceUnpin ⟨state, .unpinned zone :: w.log⟩ z ↔
      .resolved z p ∈ w.sinceUnpin z := by
  simp [sinceUnpin, hz]

end

section
variable [External] [Relays] {cfg : DnsConfig} {z zone : Str} {w : TrustRun} {q : Query}
  {res : Except Err ZoneOutcome} {t : DnsState}

/-- A resolution leaves on disk what was returned before, and what it returns itself. -/
theorem Backed.disk_resolveZone (h : w.Backed z) (hok : w.resolves cfg z zone q = true)
    (hres : resolveZone cfg w.state zone q = (res, t)) {p : PublisherId}
    (hp : .resolved z p ∈ sinceUnpin ⟨t, resolution zone res ++ w.log⟩ z) :
    t.disk.keyOf z = some p.toStr := by
  replace hp := mem_sinceUnpin_resolution.mp hp
  rcases resolveZone_cases hres with ⟨rfl, hans⟩ | ⟨rfl, rfl⟩ |
    ⟨hval, record, ttl, -, out, u, hpin, hend⟩
  · -- nothing changes; a key that is returned was in the cache
    rcases hp with ⟨rfl, new, relay, seed, rfl⟩ | hp
    · exact h.disk p (h.cache _ p (hans p new relay seed rfl))
    · exact h.disk p hp
  · rcases hp with ⟨-, new, relay, seed, he⟩ | hp
    · cases he
    · exact h.disk p hp
  · have hdisk : t.disk = u.disk := by
      rcases hend with ⟨e, -, -, rfl⟩ | ⟨new, -, -, rfl⟩ <;> rfl
    have hkey : ∀ new relay seed, res = .ok (.resolved p new relay seed) →
        out = .ok (record.key, new) ∧ p = record.key := by
      rintro new relay seed he
      rcases hend with ⟨e, -, hr, -⟩ | ⟨new', ho, hr, -⟩
      · cases he.symm.trans hr
      · cases he.symm.trans hr
        exact ⟨ho, rfl⟩
    rw [hdisk]
    simp only [resolves, hval, true_imp_iff, decide_eq_true_eq] at hok
    by_cases hz : zone = z
    · subst hz
      -- memory and disk agree on the zone
      simp only [if_true, inStep, decide_eq_true_eq] at hok
      rcases validateAndPin_cases hpin with ⟨hpinned, -, rfl⟩ |
        ⟨pins, rfl, hnone, ⟨-, -, rfl⟩ | ⟨e, -, he, rfl⟩⟩ | ⟨⟨e, he⟩, rfl⟩
      · rcases hp with ⟨-, new, relay, seed, hr⟩ | hp
        · rw [(hkey new relay seed hr).2, ← hok, hpinned]
        · exact h.disk p hp
      · rcases hp with ⟨-, new, relay, seed, hr⟩ | hp
        · rw [(hkey new relay seed hr).2]
          exact (DnsPins.keyOf_pin _ _ _ _ zone).trans (if_pos rfl)
        · cases hnone.symm.trans (hok.trans (h.disk p hp))
      all_goals
        rcases hp with ⟨-, new, relay, seed, hr⟩ | hp
        · cases (hkey new relay seed hr).1.symm.trans he
        · exact h.disk p hp
    · replace hp : .resolved z p ∈ w.sinceUnpin z := hp.resolve_left fun ⟨h, _⟩ => hz h
      have hold := h.disk p hp
      rcases validateAndPin_cases hpin with ⟨-, -, rfl⟩ |
        ⟨pins, rfl, hnone, ⟨hfault, -, rfl⟩ | ⟨e, -, -, rfl⟩⟩ | ⟨-, rfl⟩
      · exact hold
      · -- the pins in memory are written, among them the one of `z`
        simp only [hz, if_false, hnone, hfault, true_imp_iff, keeps, inStep,
          decide_eq_true_eq] at hok
        refine (DnsPins.keyOf_pin _ _ _ _ z).trans ?_
        rw [if_neg (Ne.symm hz)]
        rcases hok with hok | hok
        · cases hok.symm.trans hold
        · exact hok.trans hold
      · exact hold
      · exact hold

/-- A key that the cache answers after a resolution was returned, by it or before. -/
theorem Backed.cache_resolveZone (h : w.Backed z)
    (hres : resolveZone cfg w.state zone q = (res, t)) {now : ℕ} {p : PublisherId}
    (hp : t.Answers z now p) : .resolved z p ∈ sinceUnpin ⟨t, resolution zone res ++ w.log⟩ z := by
  refine mem_sinceUnpin_resolution.mpr ?_
  rcases resolveZone_cases hres with ⟨rfl, -⟩ | ⟨rfl, rfl⟩ |
    ⟨hval, record, ttl, -, out, u, hpin, hend⟩
  · exact Or.inr (h.cache now p hp)
  · exact Or.inr (h.cache now p (DnsState.answers_cacheNegative.mp hp).2)
  · have hcache : ∀ {s : DnsState}, s.cache = w.state.cache → s.Answers z now p →
        .resolved z p ∈ w.sinceUnpin z := fun hs hp =>
      h.cache now p (DnsState.answers_iff.mpr (hs ▸ DnsState.answers_iff.mp hp))
    have hu : u.cache = w.state.cache := by
      rcases validateAndPin_cases hpin with ⟨-, -, rfl⟩ |
        ⟨pins, rfl, -, ⟨-, -, rfl⟩ | ⟨e, -, -, rfl⟩⟩ | ⟨-, rfl⟩ <;> rfl
    rcases hend with ⟨e, -, -, rfl⟩ | ⟨new, -, rfl, rfl⟩
    · exact Or.inr (hcache hu hp)
    · rw [DnsState.answers_cachePositive] at hp
      split at hp
      · rename_i hz
        obtain ⟨rfl, -⟩ := hp
        exact Or.inl ⟨hz.symm, new, _, _, rfl⟩
      · exact Or.inr (hcache hu hp)

end

/-- What an unpin leaves on disk, and in the cache. -/
theorem unpinZone_cases {s t : DnsState} {zone : Str} {fault : Option Err}
    {res : Except Err Bool} (h : unpinZone s zone fault = (res, t)) :
    (fault = none ∧ (∃ was, res = .ok was) ∧ t.disk = s.pins.erase zone ∧
        t.cache = s.cache.erase zone) ∨
      (∃ e, fault = some e ∧ res = .error e) ∧ t.disk = s.disk ∧ t.cache = s.cache := by
  cases fault with
  | none =>
      cases h
      exact Or.inl ⟨rfl, ⟨_, rfl⟩, rfl, rfl⟩
  | some e =>
      cases h
      exact Or.inr ⟨⟨e, rfl, rfl⟩, rfl, rfl⟩

/-- What is pinned on disk stays when the pins in memory are written without the one of another
zone. -/
theorem keyOf_erase_of_keeps {w : TrustRun} {z zone key : Str} (hz : z ≠ zone)
    (hkeeps : w.keeps z = true) (hkey : w.state.disk.keyOf z = some key) :
    DnsPins.keyOf (w.state.pins.erase zone) z = some key := by
  simp only [keeps, inStep, decide_eq_true_eq] at hkeeps
  rw [DnsPins.keyOf_erase, if_neg hz]
  rcases hkeeps with hnone | hsame
  · cases hnone.symm.trans hkey
  · exact hsame.trans hkey

section
variable [External] [Relays] {cfg : DnsConfig} {z : Str} {w v : TrustRun} {a : TrustStep}

theorem backed_step (h : w.Backed z) (ha : w.Unbroken cfg z a) (hstep : w.step cfg a = some v) :
    v.Backed z := by
  cases a with
  | resolve zone q =>
      cases hres : resolveZone cfg w.state zone q with
      | mk res t =>
          simp only [step, hres] at hstep
          cases hstep
          exact ⟨fun p hp => h.disk_resolveZone ha hres hp, fun now p hp => h.cache_resolveZone hres hp⟩
  | resolveCut zone q written =>
      cases hstep
      refine Backed.reboot fun p hp => ?_
      cases written with
      | false => exact h.disk p hp
      | true =>
          exact h.disk_resolveZone (ha rfl) (Prod.eta _).symm
            (mem_sinceUnpin_resolution.mpr (Or.inr hp))
  | restart =>
      cases hstep
      exact Backed.reboot h.disk
  | unpin zone fault =>
      cases hres : unpinZone w.state zone fault with
      | mk res t =>
          simp only [step, hres] at hstep
          cases hstep
          rcases unpinZone_cases hres with ⟨rfl, ⟨was, rfl⟩, hdisk, hcache⟩ |
            ⟨⟨e, rfl, rfl⟩, hdisk, hcache⟩
          · by_cases hz : zone = z
            · -- the cache has no entry of the zone any more, and nothing was returned since
              subst hz
              have hnil : sinceUnpin ⟨t, removal zone (.ok was) ++ w.log⟩ zone = [] :=
                sinceUnpin_self
              refine ⟨fun p hp => ?_, fun now p hp => ?_⟩
              · rw [hnil] at hp
                cases hp
              · obtain ⟨relay, seed, expires, -, he⟩ := DnsState.answers_iff.mp hp
                rw [hcache, Table.get_erase_self] at he
                cases he
            · have hsince : ∀ p, .resolved z p ∈ sinceUnpin ⟨t, removal zone (.ok was) ++ w.log⟩ z ↔
                  .resolved z p ∈ w.sinceUnpin z := fun p => mem_sinceUnpin_other hz
              refine ⟨fun p hp => ?_, fun now p hp => (hsince p).mpr ?_⟩
              · rw [hdisk]
                exact keyOf_erase_of_keeps (Ne.symm hz) (ha hz rfl) (h.disk p ((hsince p).mp hp))
              · obtain ⟨relay, seed, expires, hlt, he⟩ := DnsState.answers_iff.mp hp
                rw [hcache] at he
                exact h.cache now p (DnsState.answers_iff.mpr
                  ⟨relay, seed, expires, hlt, Table.get_of_get_erase he⟩)
          · refine ⟨fun p hp => ?_, fun now p hp => h.cache now p (DnsState.answers_iff.mpr ?_)⟩
            · rw [hdisk]
              exact h.disk p hp
            · exact hcache ▸ DnsState.answers_iff.mp hp
  | unpinCut zone fault written =>
      cases hstep
      refine Backed.reboot fun p hp => ?_
      have hold := h.disk p hp
      cases written with
      | false => exact hold
      | true =>
          cases hres : unpinZone w.state zone fault with
          | mk res t =>
              show DnsPins.keyOf t.disk z = _
              rcases unpinZone_cases hres with ⟨rfl, -, hdisk, -⟩ | ⟨-, hdisk, -⟩
              · replace ha := ha rfl rfl
                rw [hdisk]
                by_cases hz : zone = z
                · rw [if_pos hz] at ha
                  cases ha.symm.trans hold
                · rw [if_neg hz] at ha
                  exact keyOf_erase_of_keeps (Ne.symm hz) ha hold
              · rw [hdisk]
                exact hold

/-- **One key for a zone.**  When memory and disk agree on a zone whenever a record of it is
validated, and no write takes its pin off the disk but an unpin that returns, then in every state
reached all keys returned for the zone since its last unpin are one. -/
theorem run_agreed {disk : DnsPins} {steps : List TrustStep}
    (hm : Meets (step cfg) (Unbroken cfg z) (start disk) steps) :
    Throughout (step cfg) (Agreed z) (start disk) steps :=
  (throughout_of_meets (fun _ _ _ hs ha ht => backed_step hs ha ht) (backed_start disk z) hm).mono
    fun _ hs => hs.agreed

end

instance decideUnbroken [External] [Relays] (cfg : DnsConfig) (z : Str) (w : TrustRun) :
    ∀ a, Decidable (w.Unbroken cfg z a)
  | .resolve _ _ => inferInstanceAs (Decidable (_ = true))
  | .resolveCut _ _ _ => inferInstanceAs (Decidable (_ → _))
  | .unpin _ _ => inferInstanceAs (Decidable (_ → _ → _))
  | .unpinCut _ _ _ => inferInstanceAs (Decidable (_ → _ → _))
  | .restart => isTrue trivial

/-- A zone is resolved, the daemon restarts, and the zone is resolved again. -/
theorem run_agreed_at : letI := sample
    letI := Sample.relays
    let zone : Str := "images.example.com"
    let q : Query := ⟨0, Sample.txtAnswer Sample.alice zone 100, 200, none⟩
    Throughout (step Sample.dnsConfig) (Agreed zone) (start .empty)
      [.resolve zone q, .restart, .resolve zone q, .unpin zone none] :=
  @run_agreed sample Sample.relays _ _ _ _ (by decide +kernel)

/-- The first key of a zone is pinned in memory while the write to disk fails, and is returned by
the next call; after a restart the zone has no pin, and another key is returned. -/
theorem failed_save_switches_key : letI := sample
    letI := Sample.relays
    let zone : Str := "images.example.com"
    let ask (who : Identity) (fault : Option Err) : TrustStep :=
      .resolve zone ⟨0, Sample.txtAnswer who zone 100, 200, fault⟩
    ¬ Throughout (step Sample.dnsConfig) (Agreed zone) (start .empty)
      [ask Sample.alice (some ["disk full"]), ask Sample.alice none, .restart,
        ask Sample.mallory none] := by
  let _ := sample
  let _ := Sample.relays
  intro zone ask h
  have hrun : (run (step Sample.dnsConfig) (start .empty)
      [ask Sample.alice (some ["disk full"]), ask Sample.alice none, .restart,
        ask Sample.mallory none]).any (fun w => w.log =
          [.resolved zone Sample.mallory.id, .resolved zone Sample.alice.id]) = true := by
    decide +kernel
  obtain ⟨w, hw, hlog⟩ := (Option.any_eq_true _ _).mp hrun
  have hagreed := last_of_throughout h hw
  have hsince : w.sinceUnpin zone =
      [.resolved zone Sample.mallory.id, .resolved zone Sample.alice.id] := by
    simp [sinceUnpin, of_decide_eq_true hlog]
  have hne : Sample.mallory.id ≠ Sample.alice.id := by decide +kernel
  exact hne (hagreed _ _ (by simp [hsince]) (by simp [hsince]))

end TrustRun

end Ocid
