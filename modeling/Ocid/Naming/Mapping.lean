import Ocid.Daemon.DnsService
import Ocid.Daemon.Requests
import Ocid.Daemon.Sample
import Ocid.Lib.Runs

/-!
# Naming — Mapping — the pinned key of a zone and the mapped one

The key of a zone is kept twice: in the pins of the DNS service, written when a record of the zone
is first validated, and in the table `dns` of the policy, written when a rule with the zone is
saved.  Pulls by the zone go by the pins, the rules by the table.

In a run of resolutions, requests, unpins and restarts the two agree in every state exactly when no
step pins a key while the table has another one, no rule is saved for a zone under another key than
the pinned one, and no restart reads a pin that disagrees with the table (`run_agrees_iff`).  The
first is what happens after an unpin when the zone has a new key.
-/

namespace Ocid

/-- What a resolution meets, but for its time. -/
structure Lookup where
  answer : Option (List TxtAnswer)
  wall : ℕ
  fault : Option Err

/-- The lookup, made at `now`. -/
def Lookup.query (x : Lookup) (now : ℕ) : Query := ⟨now, x.answer, x.wall, x.fault⟩

/-- The DNS service and the policy of a daemon. -/
structure Mapping where
  state : DnsState
  policy : Policy
  /-- The monotonic clock. -/
  now : ℕ

/-- What happens to a node that maps zones to keys. -/
inductive MappingStep where
  | tick (d : ℕ)
  /-- A zone is resolved for a pull, or by name. -/
  | resolve (zone : Str) (x : Lookup)
  /-- A request changes the policy, and it is saved. -/
  | request (req : PolicyRequest) (x : Lookup) (saved : Except Err Unit)
  | unpin (zone : Str) (fault : Option Err)
  | restart

namespace Mapping

/-- After a restart, with the pins of the disk. -/
def start (disk : DnsPins) (policy : Policy) (now : ℕ) : Mapping := ⟨.boot disk, policy, now⟩

section
variable [External] [Relays] (cfg : DnsConfig) (selfId : PublisherId)

/-- What a request makes of the policy, unless it fails or the policy is not saved. -/
def served (w : Mapping) (dns : Str → Except Err ZoneOutcome) (req : PolicyRequest)
    (saved : Except Err Unit) : Policy :=
  match req.serve dns w.policy selfId, saved with
  | .ok (policy, _), .ok _ => policy
  | _, _ => w.policy

/-- What a step does; a change of the policy resolves a zone that it names first. -/
def step (w : Mapping) : MappingStep → Option Mapping
  | .tick d => some { w with now := w.now + d }
  | .resolve zone x => some { w with state := (resolveZone cfg w.state zone (x.query w.now)).2 }
  | .request req x saved =>
      match req.zone w.policy with
      | some zone =>
          let (res, state) := resolveZone cfg w.state zone (x.query w.now)
          some { w with state, policy := w.served selfId (fun _ => res) req saved }
      | none => some { w with policy := w.served selfId (fun _ => .ok .disabled) req saved }
  | .unpin zone fault => some { w with state := (unpinZone w.state zone fault).2 }
  | .restart => some { w with state := .boot w.state.disk }

/-- A zone that is pinned and mapped has one key. -/
def Agrees (w : Mapping) : Prop :=
  ∀ zone k k', w.state.pins.keyOf zone = some k → w.policy.dns.lookup zone = some k' → k = k'

/-- The key that a resolution pins. -/
def pinsNew (s : DnsState) (zone : Str) (q : Query) : Option PublisherId :=
  if validates cfg s zone q then
    (recordOf q.answer).bind fun r =>
      match validateRecord zone r.1 s.pins cfg.maxAgeSecs q.wall with
      | .ok (.new p) => some p
      | _ => none
  else none

/-- A resolution pins no key while the table has another one. -/
def PinsMapped (w : Mapping) (zone : Str) (x : Lookup) : Prop :=
  ∀ p, pinsNew cfg w.state zone (x.query w.now) = some p →
    ∀ k, w.policy.dns.lookup zone = some k → k = p.toStr

/-- The domain that a request maps, and its key, when it is served and saved. -/
def maps (w : Mapping) (dns : Str → Except Err ZoneOutcome) (req : PolicyRequest)
    (saved : Except Err Unit) : Option (Str × PublisherId) :=
  if (req.serve dns w.policy selfId).isOk && saved.isOk then
    (req.resolve dns w.policy selfId).toOption.bind PolicyOp.mapping
  else none

/-- The condition on a step. -/
def Careful (w : Mapping) : MappingStep → Prop
  | .resolve zone x => w.PinsMapped cfg zone x
  | .request req x saved =>
      match req.zone w.policy with
      | some zone =>
          -- a request that maps the zone maps it to the key it was resolved to
          let res := (resolveZone cfg w.state zone (x.query w.now)).1
          w.maps selfId (fun _ => res) req saved = none → w.PinsMapped cfg zone x
      | none =>
          -- an alias, or a key, that is written like a domain
          ∀ y, w.maps selfId (fun _ => .ok .disabled) req saved = some y →
            ∀ k, w.state.pins.keyOf y.1 = some k → k = y.2.toStr
  | .restart => ∀ zone k k', w.state.disk.keyOf zone = some k →
      w.policy.dns.lookup zone = some k' → k = k'
  | _ => True

/-- A key the cache answers is the pinned one, if the zone is pinned. -/
def Cached (w : Mapping) : Prop :=
  ∀ zone p, w.state.Answers zone w.now p → ∀ k, w.state.pins.keyOf zone = some k → k = p.toStr

end

/-! ### What a resolution does to the pins -/

section
variable [External] [Relays] {cfg : DnsConfig} {selfId : PublisherId} {s t : DnsState} {zone : Str}
  {q : Query} {res : Except Err ZoneOutcome}

/-- A resolution changes no pin, but for the one it adds. -/
theorem keyOf_resolveZone (cfg : DnsConfig) (s : DnsState) (zone : Str) (q : Query) (z : Str) :
    (resolveZone cfg s zone q).2.pins.keyOf z =
      if z = zone then ((pinsNew cfg s zone q).map PublicKey.toStr).or (s.pins.keyOf z)
      else s.pins.keyOf z := by
  have hstay : pinsNew cfg s zone q = none → s.pins.keyOf z =
      if z = zone then ((pinsNew cfg s zone q).map PublicKey.toStr).or (s.pins.keyOf z)
      else s.pins.keyOf z := by
    intro hnone
    simp [hnone]
  rw [resolveZone]
  cases hon : cfg.enabled with
  | false => exact hstay (by simp [pinsNew, validates, hon])
  | true =>
      cases hc : s.cached zone q.now with
      | some outcome => exact hstay (by simp [pinsNew, validates, hc])
      | none =>
          have hval : validates cfg s zone q = (recordOf q.answer).isSome := by
            simp [validates, hon, hc]
          cases hr : recordOf q.answer with
          | none => exact hstay (by simp [pinsNew, hval, hr])
          | some x =>
              obtain ⟨record, ttl⟩ := x
              have hnew : pinsNew cfg s zone q =
                  match validateRecord zone record s.pins cfg.maxAgeSecs q.wall with
                  | .ok (.new p) => some p
                  | _ => none := by
                simp [pinsNew, hval, hr]
              simp only [Bool.not_true, Bool.false_eq_true, if_false, DnsState.validateAndPin]
              cases hv : validateRecord zone record s.pins cfg.maxAgeSecs q.wall with
              | error e => exact hstay (by rw [hnew, hv])
              | ok v =>
                  cases v with
                  | pinned p => exact hstay (by rw [hnew, hv])
                  | new p =>
                      have hpins : ∀ u : DnsState, u.pins = DnsPins.pin s.pins zone p.toStr q.wall →
                          u.pins.keyOf z =
                            if z = zone then ((pinsNew cfg s zone q).map PublicKey.toStr).or
                              (s.pins.keyOf z) else s.pins.keyOf z := by
                        intro u hu
                        rw [hnew, hv, hu, DnsPins.keyOf_pin]
                        rfl
                      cases q.fault with
                      | none => exact hpins _ rfl
                      | some e => exact hpins _ rfl

/-- A key that the cache answers, or that a resolution returns, is the pinned one. -/
theorem cached_resolveZone {now : ℕ} (hnow : q.now = now)
    (h : ∀ z p, s.Answers z now p → ∀ k, s.pins.keyOf z = some k → k = p.toStr)
    (hres : resolveZone cfg s zone q = (res, t)) :
    (∀ z p, t.Answers z now p → ∀ k, t.pins.keyOf z = some k → k = p.toStr) ∧
      ∀ p new relay seed, res = .ok (.resolved p new relay seed) →
        ∀ k, t.pins.keyOf zone = some k → k = p.toStr := by
  subst hnow
  rcases resolveZone_cases hres with ⟨rfl, hans⟩ | ⟨rfl, rfl⟩ |
    ⟨hval, record, ttl, -, out, u, hpin, hend⟩
  · exact ⟨h, fun p new relay seed he => h zone p (hans p new relay seed he)⟩
  · exact ⟨fun z p hp => h z p (DnsState.answers_cacheNegative.mp hp).2,
      fun p new relay seed he => by cases he⟩
  · -- the cache did not answer for the zone
    have hsilent : ∀ p, ¬ s.Answers zone q.now p := by
      rintro p ⟨new, relay, seed, hc⟩
      simp [validates, hc] at hval
    have hu : (∀ z p, u.Answers z q.now p → ∀ k, u.pins.keyOf z = some k → k = p.toStr) ∧
        ∀ new, out = .ok (record.key, new) → u.pins.keyOf zone = some record.key.toStr := by
      have hadd : ∀ disk, ∀ z p, DnsState.Answers { s with
          pins := DnsPins.pin s.pins zone record.key.toStr q.wall, disk } z q.now p →
          ∀ k, (DnsPins.pin s.pins zone record.key.toStr q.wall).keyOf z = some k → k = p.toStr := by
        intro disk z p hp k hk
        rw [DnsPins.keyOf_pin] at hk
        split at hk
        · rename_i hz
          subst hz
          exact absurd hp (hsilent p)
        · exact h z p hp k hk
      rcases validateAndPin_cases hpin with ⟨hkey, rfl, rfl⟩ |
        ⟨pins, rfl, -, ⟨-, rfl, rfl⟩ | ⟨e, -, rfl, rfl⟩⟩ | ⟨⟨e, rfl⟩, rfl⟩
      · exact ⟨h, fun _ _ => hkey⟩
      · exact ⟨hadd _, fun _ _ => (DnsPins.keyOf_pin _ _ _ _ _).trans (if_pos rfl)⟩
      · exact ⟨hadd _, fun _ h => by cases h⟩
      · exact ⟨h, fun _ h => by cases h⟩
    rcases hend with ⟨e, rfl, rfl, rfl⟩ | ⟨new, rfl, rfl, rfl⟩
    · exact ⟨hu.1, fun _ _ _ _ h => by cases h⟩
    · have hkey := hu.2 new rfl
      refine ⟨fun z p hp k hk => ?_, fun p new' relay seed he k hk => ?_⟩
      · rw [DnsState.answers_cachePositive] at hp
        split at hp
        · rename_i hz
          subst hz
          rw [hp.1]
          exact Option.some.inj (hk.symm.trans hkey)
        · exact hu.1 z p hp k hk
      · cases he
        exact Option.some.inj (hk.symm.trans hkey)

/-! ### What a request does to the table -/

omit [Relays] in
theorem resolveRule_zone {policy : Policy} {reference : Str} (hzone : domainSlot reference = some zone)
    {x : Str × ImageRef} (hx : resolveRule (fun _ => res) policy selfId reference = .ok x) :
    x.1 = reference ∧ ∃ new relay seed, res = .ok (.resolved x.2.publisher new relay seed) := by
  rw [domainSlot] at hzone
  cases hsplit : Str.splitOnce '/' reference with
  | none =>
      rw [hsplit] at hzone
      cases hzone
  | some first =>
      obtain ⟨first, rest⟩ := first
      simp only [hsplit] at hzone
      split at hzone
      · rename_i hdomain
        obtain rfl := Option.some.inj hzone
        simp only [resolveRule, hsplit, Option.filter_some, hdomain, if_true] at hx
        cases hp : resolveZonePublisher (fun _ => res) first with
        | error e =>
            rw [hp] at hx
            cases hx
        | ok p =>
            cases ht : splitTag rest with
            | error e =>
                rw [hp, ht] at hx
                cases hx
            | ok nt =>
                rw [hp, ht] at hx
                cases hx
                exact ⟨rfl, resolveZonePublisher_ok.mp hp⟩
      · cases hzone

omit [Relays] in
/-- A request that asks DNS for a zone maps that one, to the key that was answered. -/
theorem mapping_of_zone {policy : Policy} {req : PolicyRequest} (hzone : req.zone policy = some zone)
    {op : PolicyOp} (hop : req.resolve (fun _ => res) policy selfId = .ok op)
    {y : Str × PublisherId} (hy : op.mapping = some y) :
    y.1 = zone ∧ ∃ new relay seed, res = .ok (.resolved y.2 new relay seed) := by
  have hrule : ∀ {reference : Str} {x : Str × ImageRef}, domainSlot reference = some zone →
      resolveRule (fun _ => res) policy selfId reference = .ok x →
      (domainSlot x.1).map (fun zone => (zone, x.2.publisher)) = some y →
      y.1 = zone ∧ ∃ new relay seed, res = .ok (.resolved y.2 new relay seed) := by
    intro reference x hslot hx hmap
    obtain ⟨htext, hres⟩ := resolveRule_zone hslot hx
    rw [htext, hslot] at hmap
    cases hmap
    exact ⟨rfl, hres⟩
  cases req with
  | seed reference mode | pin reference =>
      obtain ⟨x, hx, rfl⟩ := map_eq_ok.mp hop
      exact hrule hzone hx hy
  | unseed reference | unpin reference | unfollow arg =>
      obtain ⟨x, hx, rfl⟩ := map_eq_ok.mp hop
      cases hy
  | follow arg mode =>
      obtain ⟨x, hx, rfl⟩ := map_eq_ok.mp hop
      cases hkey : parsePublisher arg with
      | ok k => simp [PolicyRequest.zone, hkey] at hzone
      | error e =>
          -- no key and no alias, so that DNS is asked
          have hasked : (if isDomainName arg then some arg else none) = some zone →
              (if isDomainName arg then
                (resolveZonePublisher (fun _ => res) arg).map fun p => (arg, p)
              else .error ["not a publisher id, alias, or domain: " ++ Str.debug arg]) = .ok x →
              y.1 = zone ∧ ∃ new relay seed, res = .ok (.resolved y.2 new relay seed) := by
            intro hzone hx
            by_cases hdomain : isDomainName arg = true
            · rw [if_pos hdomain] at hzone hx
              obtain ⟨p, hp, rfl⟩ := map_eq_ok.mp hx
              cases hzone
              simp only [PolicyOp.mapping, hdomain, if_true] at hy
              cases hy
              exact ⟨rfl, resolveZonePublisher_ok.mp hp⟩
            · rw [if_neg hdomain] at hzone
              cases hzone
          rw [resolvePublisherRule, hkey] at hx
          simp only [PolicyRequest.zone, hkey] at hzone
          rcases halias : policy.resolveAlias arg with _ | ⟨k⟩ | ⟨k, n⟩
          · exact hasked (by simpa only [halias] using hzone) (by simpa only [halias] using hx)
          · simp [halias] at hzone
          · exact hasked (by simpa only [halias] using hzone) (by simpa only [halias] using hx)

omit [Relays] in
/-- A request that maps a domain was resolved. -/
theorem of_maps {w : Mapping} {dns : Str → Except Err ZoneOutcome} {req : PolicyRequest}
    {saved : Except Err Unit} {y : Str × PublisherId} (h : w.maps selfId dns req saved = some y) :
    ∃ op, req.resolve dns w.policy selfId = .ok op ∧ op.mapping = some y := by
  rw [maps] at h
  split at h
  · obtain ⟨op, hop, hy⟩ := Option.bind_eq_some_iff.mp h
    exact ⟨op, Policy.toOption_eq_some.mp hop, hy⟩
  · cases h

omit [Relays] in
/-- What the table has after a request. -/
theorem lookup_served (w : Mapping) (dns : Str → Except Err ZoneOutcome) (req : PolicyRequest)
    (saved : Except Err Unit) (z : Str) :
    (w.served selfId dns req saved).dns.lookup z = match w.maps selfId dns req saved with
      | some y => if z = y.1 then some y.2.toStr else w.policy.dns.lookup z
      | none => w.policy.dns.lookup z := by
  unfold served maps
  cases hserve : req.serve dns w.policy selfId with
  | error e => rfl
  | ok x =>
      obtain ⟨policy, b⟩ := x
      cases saved with
      | error e => rfl
      | ok u =>
          simp only [PolicyRequest.serve, bind, Except.bind] at hserve
          cases hop : req.resolve dns w.policy selfId with
          | error e =>
              rw [hop] at hserve
              cases hserve
          | ok op =>
              simp only [hop] at hserve
              cases hcheck : op.check selfId with
              | error e =>
                  rw [hcheck] at hserve
                  cases hserve
              | ok u' =>
                  simp only [hcheck] at hserve
                  exact PolicyOp.dns_apply hserve z

/-- A resolution without a request keeps the agreement exactly when it pins no other key. -/
theorem agrees_resolved {w : Mapping} (hw : w.Agrees) (x : Lookup) :
    w.PinsMapped cfg zone x ↔ ∀ z k k',
      (resolveZone cfg w.state zone (x.query w.now)).2.pins.keyOf z = some k →
        w.policy.dns.lookup z = some k' → k = k' := by
  simp only [keyOf_resolveZone]
  constructor
  · intro h z k k' hk hk'
    split at hk
    · rename_i hz
      subst hz
      cases hnew : pinsNew cfg w.state z (x.query w.now) with
      | none =>
          rw [hnew] at hk
          exact hw z k k' hk hk'
      | some p =>
          rw [hnew] at hk
          cases hk
          exact (h p hnew k' hk').symm
    · exact hw z k k' hk hk'
  · intro h p hp k hk
    refine (h zone p.toStr k ?_ hk).symm
    rw [if_pos rfl, hp]
    rfl

theorem cached_step {w v : Mapping} {a : MappingStep} (hc : w.Cached)
    (h : w.step cfg selfId a = some v) : v.Cached := by
  cases a with
  | tick d =>
      cases h
      exact fun z p hp => hc z p (DnsState.answers_mono (Nat.le_add_right _ _) hp)
  | resolve zone x =>
      cases h
      exact (cached_resolveZone (q := x.query w.now) rfl hc (Prod.eta _).symm).1
  | request req x saved =>
      simp only [step] at h
      split at h
      · cases h
        exact (cached_resolveZone (q := x.query w.now) rfl hc (Prod.eta _).symm).1
      · cases h
        exact hc
  | unpin zone fault =>
      cases h
      have herased : ∀ disk z p, w.state.Answers z w.now p → ∀ k,
          DnsPins.keyOf { w.state with pins := w.state.pins.erase zone, disk }.pins z = some k →
            k = p.toStr := by
        intro disk z p hp k hk
        rw [DnsPins.keyOf_erase] at hk
        split at hk
        · cases hk
        · exact hc z p hp k hk
      cases fault with
      | none => exact fun z p hp =>
          herased (w.state.pins.erase zone) z p (DnsState.answers_dropCached.mp hp).2
      | some e => exact herased w.state.disk
  | restart =>
      cases h
      exact fun z p hp => absurd hp DnsState.answers_boot

theorem careful_iff {w v : Mapping} {a : MappingStep} (hw : w.Agrees) (hc : w.Cached)
    (h : w.step cfg selfId a = some v) : w.Careful cfg selfId a ↔ v.Agrees := by
  cases a with
  | tick d =>
      cases h
      exact iff_of_true trivial hw
  | resolve zone x =>
      cases h
      exact agrees_resolved hw x
  | request req x saved =>
      simp only [step] at h
      simp only [Careful]
      cases hzone : req.zone w.policy with
      | some zone =>
          simp only [hzone] at h ⊢
          cases h
          simp only [Agrees, lookup_served]
          cases hmaps : w.maps selfId (fun _ => (resolveZone cfg w.state zone (x.query w.now)).1) req
              saved with
          | none =>
              simp only [true_imp_iff]
              exact agrees_resolved hw x
          | some y =>
              refine iff_of_true nofun fun z k k' hk hk' => ?_
              obtain ⟨op, hop, hy⟩ := of_maps hmaps
              obtain ⟨rfl, new, relay, seed, hres⟩ := mapping_of_zone hzone hop hy
              by_cases hz : z = y.1
              · -- the rule is mapped to the key it was resolved to
                subst hz
                replace hk' : (if y.1 = y.1 then some y.2.toStr else _) = some k' := hk'
                have hkey := (cached_resolveZone (q := x.query w.now) rfl hc (Prod.eta _).symm).2
                  y.2 new relay seed hres k hk
                rw [if_pos rfl] at hk'
                exact hkey.trans (Option.some.inj hk')
              · replace hk' : (if z = y.1 then some y.2.toStr else _) = some k' := hk'
                rw [keyOf_resolveZone, if_neg hz] at hk
                rw [if_neg hz] at hk'
                exact hw z k k' hk hk'
      | none =>
          simp only [hzone] at h ⊢
          cases h
          simp only [Agrees, lookup_served]
          cases hmaps : w.maps selfId (fun _ => .ok .disabled) req saved with
          | none => exact iff_of_true nofun hw
          | some y =>
              simp only [Option.some.injEq, forall_eq']
              constructor
              · intro h z k k' hk hk'
                by_cases hz : z = y.1
                · subst hz
                  rw [if_pos rfl] at hk'
                  exact (h k hk).trans (Option.some.inj hk')
                · rw [if_neg hz] at hk'
                  exact hw z k k' hk hk'
              · intro h k hk
                exact h y.1 k y.2.toStr hk (if_pos rfl)
  | unpin zone fault =>
      cases h
      refine iff_of_true trivial fun z k k' hk => hw z k k' ?_
      have hpins : (unpinZone w.state zone fault).2.pins = w.state.pins.erase zone := by
        cases fault <;> rfl
      simp only [hpins, DnsPins.keyOf_erase] at hk
      split at hk
      · cases hk
      · exact hk
  | restart =>
      cases h
      exact Iff.rfl

/-- **One key for a zone**, pinned and mapped. -/
theorem run_agrees_iff {disk : DnsPins} {policy : Policy} {now : ℕ} {steps : List MappingStep}
    (hstart : (start disk policy now).Agrees) :
    Throughout (step cfg selfId) Agrees (start disk policy now) steps ↔
      Meets (step cfg selfId) (Careful cfg selfId) (start disk policy now) steps := by
  have hcached : ∀ {steps : List MappingStep},
      Throughout (step cfg selfId) Cached (start disk policy now) steps := fun {steps} =>
    throughout_of_meets (C := fun _ _ => True) (fun _ _ _ hc _ h => cached_step hc h)
      (fun z p hp => absurd hp DnsState.answers_boot) (meets_of_forall fun _ _ => trivial)
  constructor
  · intro h
    refine meets_of_throughout (I := fun w => w.Agrees ∧ w.Cached) (fun w a v hw ha hv h => ?_) ?_
      (h.and hcached)
    · exact ha ((careful_iff hw.1 hw.2 hv).mpr h.1)
    · refine isSome_run (fun w a => ?_) _ _
      cases a with
      | request req x saved =>
          simp only [step]
          split <;> rfl
      | _ => rfl
  · intro h
    exact (throughout_of_meets (I := fun w => w.Agrees ∧ w.Cached) (fun w a v hw ha hv =>
      ⟨(careful_iff hw.1 hw.2 hv).mp ha, cached_step hw.2 hv⟩)
      ⟨hstart, fun z p hp => absurd hp DnsState.answers_boot⟩ h).mono fun _ hw => hw.1

end

/-- A zone is followed, unpinned, and followed again with its new key. -/
theorem run_agrees_iff_at : letI := sample
    letI := Sample.relays
    let zone : Str := "images.example.com"
    let lookup (who : Identity) : Lookup := ⟨Sample.txtAnswer who zone 100, 200, none⟩
    let steps : List MappingStep := [.request (.follow zone .full) (lookup Sample.alice) (.ok ()),
      .unpin zone none, .request (.follow zone .full) (lookup Sample.mallory) (.ok ())]
    Throughout (step Sample.dnsConfig Sample.bob.id) Agrees (start .empty Policy.default 0) steps ↔
      Meets (step Sample.dnsConfig Sample.bob.id) (Careful Sample.dnsConfig Sample.bob.id)
        (start .empty Policy.default 0) steps :=
  @run_agrees_iff sample Sample.relays _ _ _ _ _ _ nofun

/-- A zone is followed and unpinned, and resolved for a pull when it has a new key: the follow stays
with the old one. -/
theorem unpin_leaves_mapping : letI := sample
    letI := Sample.relays
    let zone : Str := "images.example.com"
    let lookup (who : Identity) : Lookup := ⟨Sample.txtAnswer who zone 100, 200, none⟩
    ¬ Throughout (step Sample.dnsConfig Sample.bob.id) Agrees (start .empty Policy.default 0)
      [.request (.follow zone .full) (lookup Sample.alice) (.ok ()), .unpin zone none,
        .resolve zone (lookup Sample.mallory)] := by
  let _ := sample
  let _ := Sample.relays
  intro zone lookup h
  have hrun : (run (step Sample.dnsConfig Sample.bob.id) (start .empty Policy.default 0)
      [.request (.follow zone .full) (lookup Sample.alice) (.ok ()), .unpin zone none,
        .resolve zone (lookup Sample.mallory)]).any (fun w =>
          w.state.pins.keyOf zone = some Sample.mallory.id.toStr &&
            w.policy.dns.lookup zone = some Sample.alice.id.toStr) = true := by
    decide +kernel
  obtain ⟨w, hw, hkeys⟩ := (Option.any_eq_true _ _).mp hrun
  rw [Bool.and_eq_true, decide_eq_true_eq, decide_eq_true_eq] at hkeys
  have hne : Sample.mallory.id.toStr ≠ Sample.alice.id.toStr := by decide +kernel
  exact hne (last_of_throughout h hw zone _ _ hkeys.1 hkeys.2)

end Mapping

end Ocid
