import Ocid.Core.Dns
import Ocid.Daemon.Naming

/-!
# Daemon — DnsService — resolving a zone

`resolveZone` looks a zone up in the cache, asks DNS, validates the record against the pins, and
remembers the answer.  The decision to trust a key lies in three places: the pins in memory, the
pins on disk, and the cache.  The parts that change them are definitions of their own: they are
what may run between the parts of another call.

Times of the monotonic clock are in nanoseconds; the wall clock, of which records and pins have
their times, is in seconds.
-/

namespace Ocid

/-- What a node remembers of a zone. -/
inductive Cached where
  | positive (publisher : PublisherId) (relay : Option Str) (seed : Option PublisherId)
      (expires : ℕ)
  | negative (expires : ℕ)
deriving DecidableEq

/-- What is cached for a zone. -/
structure CacheEntry where
  zone : Str
  cached : Cached
deriving DecidableEq

/-- What the resolver keeps. -/
structure DnsState where
  cache : Table CacheEntry.zone
  /-- The pins in memory. -/
  pins : DnsPins
  /-- The pins in `dns-pins.json`. -/
  disk : DnsPins
deriving DecidableEq

/-- The settings of the service. -/
structure DnsConfig where
  enabled : Bool
  maxAgeSecs : ℕ

/-- Seconds, in the nanoseconds of the clock. -/
def seconds (n : ℕ) : ℕ := n * 1000000000

/-- How long a verified answer is reused, in seconds. -/
def positiveTtlCap : ℕ := 60

/-- How long a "no record" answer is remembered, in seconds. -/
def negativeTtl : ℕ := 30

namespace DnsState

/-- The state after the daemon starts. -/
def boot (disk : DnsPins) : DnsState := ⟨.empty, disk, disk⟩

/-- What the cache answers at a time. -/
def cached (s : DnsState) (zone : Str) (now : ℕ) : Option ZoneOutcome :=
  match (s.cache.get zone).map CacheEntry.cached with
  | some (.positive publisher relay seed expires) =>
      if now < expires then some (.resolved publisher false relay seed) else none
  | some (.negative expires) => if now < expires then some .noRecord else none
  | none => none

/-- Remember for a while that a zone has no record. -/
def cacheNegative (s : DnsState) (zone : Str) (now : ℕ) : DnsState :=
  { s with cache := s.cache.put ⟨zone, .negative (now + seconds negativeTtl)⟩ }

/-- Remember the record of a zone until it expires. -/
def cachePositive (s : DnsState) (zone : Str) (publisher : PublisherId) (record : DnsRecord)
    (expires : ℕ) : DnsState :=
  { s with cache := s.cache.put ⟨zone, .positive publisher record.relay record.seed expires⟩ }

/-- Write the pins to disk, unless that fails. -/
def save (s : DnsState) (fault : Option Err) : Except Err Unit × DnsState :=
  match fault with
  | none => (.ok (), { s with disk := s.pins })
  | some e => (.error e, s)

/-- Under the pin lock: validate a record, and pin its key if it is new.  Returns the key, and
whether it was pinned now. -/
def validateAndPin [External] (cfg : DnsConfig) (s : DnsState) (zone : Str) (record : DnsRecord)
    (wall : ℕ) (fault : Option Err) : Except Err (PublisherId × Bool) × DnsState :=
  match validateRecord zone record s.pins cfg.maxAgeSecs wall with
  | .ok (.new p) =>
      let s := { s with pins := DnsPins.pin s.pins zone p.toStr wall }
      match s.save fault with
      | (.ok _, s) => (.ok (p, true), s)
      | (.error e, s) => (.error e, s)
  | .ok (.pinned p) => (.ok (p, false), s)
  | .error e => (.error [e.message], s)

/-- Under the pin lock: remove a pin. -/
def removePin (s : DnsState) (zone : Str) (fault : Option Err) : Except Err Bool × DnsState :=
  let removed := s.pins.has zone
  match ({ s with pins := s.pins.erase zone } : DnsState).save fault with
  | (.ok _, s) => (.ok removed, s)
  | (.error e, s) => (.error e, s)

/-- Forget what is cached for a zone. -/
def dropCached (s : DnsState) (zone : Str) : DnsState := { s with cache := s.cache.erase zone }

end DnsState

/-- What a call of `resolveZone` meets: its time, the answer of the resolver if there is one, the
wall clock, and the failure, if any, of a write to disk. -/
structure Query where
  now : ℕ
  answer : Option (List TxtAnswer)
  wall : ℕ
  fault : Option Err

/-- The record of an answer, and how long it is to be cached, in seconds. -/
def recordOf [External] [Relays] (answer : Option (List TxtAnswer)) : Option (DnsRecord × ℕ) :=
  (answer.bind fun answers => chooseRecord (2 ^ 32 - 1) answers).map fun r =>
    (r.1, min r.2 positiveTtlCap)

section
variable [External] [Relays]

/-- Resolve `zone` to a publisher id. -/
def resolveZone (cfg : DnsConfig) (s : DnsState) (zone : Str) (q : Query) :
    Except Err ZoneOutcome × DnsState :=
  if !cfg.enabled then (.ok .disabled, s)
  else match s.cached zone q.now with
    | some outcome => (.ok outcome, s)
    | none => match recordOf q.answer with
      | none => (.ok .noRecord, s.cacheNegative zone q.now)
      | some (record, ttl) =>
          match s.validateAndPin cfg zone record q.wall q.fault with
          | (.ok (publisher, new), s) => (.ok (.resolved publisher new record.relay record.seed),
              s.cachePositive zone publisher record (q.now + seconds ttl))
          | (.error e, s) => (.error e, s)

/-- Remove the pin for `zone`; true if one existed. -/
def unpinZone (s : DnsState) (zone : Str) (fault : Option Err) : Except Err Bool × DnsState :=
  match s.removePin zone fault with
  | (.ok removed, s) => (.ok removed, s.dropCached zone)
  | (.error e, s) => (.error e, s)

/-- The call gets as far as validating a record. -/
def validates (cfg : DnsConfig) (s : DnsState) (zone : Str) (q : Query) : Bool :=
  cfg.enabled && (s.cached zone q.now).isNone && (recordOf q.answer).isSome

/-! ### What the pin sections do -/

omit [Relays] in
/-- What the pin section does with a record: it agrees with its pin; it is new, and pinned in memory
and on disk, or in memory alone when the write fails; or it is rejected. -/
theorem validateAndPin_cases {cfg : DnsConfig} {s t : DnsState} {zone : Str} {record : DnsRecord}
    {wall : ℕ} {fault : Option Err} {res : Except Err (PublisherId × Bool)}
    (h : s.validateAndPin cfg zone record wall fault = (res, t)) :
    (s.pins.keyOf zone = some record.key.toStr ∧ res = .ok (record.key, false) ∧ t = s) ∨
    (∃ pins, pins = DnsPins.pin s.pins zone record.key.toStr wall ∧ s.pins.keyOf zone = none ∧
      ((fault = none ∧ res = .ok (record.key, true) ∧ t = { s with pins, disk := pins }) ∨
        ∃ e, fault = some e ∧ res = .error e ∧ t = { s with pins })) ∨
    (∃ e, res = .error e) ∧ t = s := by
  unfold DnsState.validateAndPin at h
  cases hv : validateRecord zone record s.pins cfg.maxAgeSecs wall with
  | error e =>
      rw [hv] at h
      cases h
      exact Or.inr (Or.inr ⟨⟨_, rfl⟩, rfl⟩)
  | ok v =>
      rcases validateRecord_ok hv with ⟨rfl, hkey⟩ | ⟨rfl, hkey⟩
      · rw [hv] at h
        cases h
        exact Or.inl ⟨hkey, rfl, rfl⟩
      · rw [hv] at h
        refine Or.inr (Or.inl ⟨_, rfl, hkey, ?_⟩)
        cases fault with
        | none =>
            cases h
            exact Or.inl ⟨rfl, rfl, rfl⟩
        | some e =>
            cases h
            exact Or.inr ⟨e, rfl, rfl, rfl⟩

omit [External] [Relays] in
/-- A pin is removed, in memory and on disk, or in memory alone when the write fails. -/
theorem removePin_cases {s t : DnsState} {zone : Str} {fault : Option Err}
    {res : Except Err Bool} (h : s.removePin zone fault = (res, t)) :
    ∃ pins, pins = s.pins.erase zone ∧
      ((fault = none ∧ res = .ok (s.pins.has zone) ∧ t = { s with pins, disk := pins }) ∨
        ∃ e, fault = some e ∧ res = .error e ∧ t = { s with pins }) := by
  cases fault with
  | none =>
      cases h
      exact ⟨_, rfl, Or.inl ⟨rfl, rfl, rfl⟩⟩
  | some e =>
      cases h
      exact ⟨_, rfl, Or.inr ⟨e, rfl, rfl, rfl⟩⟩

omit [External] [Relays] in
/-- In memory it is removed in any case. -/
theorem state_of_removePin {s t : DnsState} {zone : Str} {fault : Option Err}
    {res : Except Err Bool} (h : s.removePin zone fault = (res, t)) :
    ∃ disk, t = { s with pins := s.pins.erase zone, disk } := by
  obtain ⟨pins, rfl, ⟨-, -, rfl⟩ | ⟨e, -, -, rfl⟩⟩ := removePin_cases h
  · exact ⟨_, rfl⟩
  · exact ⟨_, rfl⟩

end

/-! ### What the cache answers -/

namespace DnsState

/-- The cache answers the key `p` for `zone` at a time. -/
def Answers (s : DnsState) (zone : Str) (now : ℕ) (p : PublisherId) : Prop :=
  ∃ new relay seed, s.cached zone now = some (.resolved p new relay seed)

/-- A key the cache answers for a zone is the one the zone is pinned to. -/
def CachePinned (s : DnsState) (now : ℕ) : Prop :=
  ∀ zone p, s.Answers zone now p → s.pins.keyOf zone = some p.toStr

variable {s : DnsState} {zone z : Str} {now : ℕ} {p : PublisherId}

/-- It answers an entry that has not expired. -/
theorem answers_iff : s.Answers zone now p ↔ ∃ relay seed expires, now < expires ∧
    s.cache.get zone = some ⟨zone, .positive p relay seed expires⟩ := by
  constructor
  · rintro ⟨new, relay, seed, h⟩
    unfold cached at h
    cases he : s.cache.get zone with
    | none =>
        rw [he] at h
        cases h
    | some e =>
        have hz := Table.key_of_get he
        obtain ⟨z, c⟩ := e
        rw [he] at h
        cases c with
        | positive p' relay' seed' expires =>
            simp only [Option.map_some] at h
            split at h
            · rename_i hlt
              cases h
              cases hz
              exact ⟨relay, seed, expires, hlt, rfl⟩
            · cases h
        | negative expires =>
            simp only [Option.map_some] at h
            split at h <;> cases h
  · rintro ⟨relay, seed, expires, hlt, he⟩
    exact ⟨false, relay, seed, by simp [cached, he, hlt]⟩

theorem answers_mono {later : ℕ} (hle : now ≤ later) (h : s.Answers zone later p) :
    s.Answers zone now p := by
  obtain ⟨relay, seed, expires, hlt, he⟩ := answers_iff.mp h
  exact answers_iff.mpr ⟨relay, seed, expires, Nat.lt_of_le_of_lt hle hlt, he⟩

theorem answers_cacheNegative {since : ℕ} :
    (s.cacheNegative z since).Answers zone now p ↔ zone ≠ z ∧ s.Answers zone now p := by
  rw [answers_iff, answers_iff]
  simp only [cacheNegative, Table.get_put]
  by_cases hz : z = zone
  · simp [hz]
  · simp [hz, Ne.symm hz]

theorem answers_cachePositive {q : PublisherId} {record : DnsRecord} {expires : ℕ} :
    (s.cachePositive z q record expires).Answers zone now p ↔
      if zone = z then p = q ∧ now < expires else s.Answers zone now p := by
  rw [answers_iff]
  simp only [cachePositive, Table.get_put]
  by_cases hz : z = zone
  · subst hz
    simp only [if_true, Option.some.injEq, CacheEntry.mk.injEq, Cached.positive.injEq, true_and]
    constructor
    · rintro ⟨relay, seed, e, hlt, rfl, -, -, rfl⟩
      exact ⟨rfl, hlt⟩
    · rintro ⟨rfl, hlt⟩
      exact ⟨_, _, expires, hlt, rfl, rfl, rfl, rfl⟩
  · rw [if_neg (Ne.symm hz), answers_iff]
    simp [hz]

theorem answers_dropCached :
    (s.dropCached z).Answers zone now p ↔ zone ≠ z ∧ s.Answers zone now p := by
  rw [answers_iff, answers_iff]
  simp only [dropCached, Table.get_erase]
  by_cases hz : z = zone
  · simp [hz]
  · simp [hz, Ne.symm hz]

/-- After the daemon starts it answers nothing. -/
theorem answers_boot {disk : DnsPins} : ¬ (boot disk).Answers z now p := by
  intro h
  obtain ⟨relay, seed, expires, -, he⟩ := answers_iff.mp h
  cases he

/-- The same, apart from some zones. -/
def PinnedBut (s : DnsState) (now : ℕ) (D : Str → Prop) : Prop :=
  ∀ zone p, s.Answers zone now p → s.pins.keyOf zone = some p.toStr ∨ D zone

theorem cachePinned_iff : s.CachePinned now ↔ s.PinnedBut now fun _ => False := by
  simp only [CachePinned, PinnedBut, or_false]

section
variable {D : Str → Prop}

theorem PinnedBut.mono {E : Str → Prop} (h : s.PinnedBut now D) (hDE : ∀ z, D z → E z) :
    s.PinnedBut now E :=
  fun z p hp => (h z p hp).imp_right (hDE z)

theorem PinnedBut.later {later : ℕ} (h : s.PinnedBut now D) (hle : now ≤ later) :
    s.PinnedBut later D :=
  fun z p hp => h z p (answers_mono hle hp)

/-- Validation changes no pin of a zone for which the cache answers. -/
theorem PinnedBut.validated [External] (h : s.PinnedBut now D) {cfg : DnsConfig}
    {record : DnsRecord} {wall : ℕ} {fault : Option Err} {res : Except Err (PublisherId × Bool)}
    {t : DnsState} (hres : s.validateAndPin cfg zone record wall fault = (res, t)) :
    t.PinnedBut now D := by
  -- a zone that is pinned now had no pin, so the cache did not answer for it
  have hnew : s.pins.keyOf zone = none → ∀ disk,
      PinnedBut { s with pins := DnsPins.pin s.pins zone record.key.toStr wall, disk } now D := by
    intro hnone disk z p hp
    rcases h z p hp with hpin | hD
    · refine Or.inl ((DnsPins.keyOf_pin _ _ _ _ z).trans ?_)
      rw [if_neg]
      · exact hpin
      · rintro rfl
        cases hnone.symm.trans hpin
    · exact Or.inr hD
  rcases validateAndPin_cases hres with ⟨-, -, rfl⟩ |
    ⟨pins, rfl, hnone, ⟨-, -, rfl⟩ | ⟨e, -, -, rfl⟩⟩ | ⟨-, rfl⟩
  · exact h
  · exact hnew hnone _
  · exact hnew hnone _
  · exact h

/-- A pin may be removed where the cache does not answer. -/
theorem PinnedBut.removed (h : s.PinnedBut now D)
    (hsilent : (∀ p, ¬ s.Answers zone now p) ∨ D zone) {fault : Option Err}
    {res : Except Err Bool} {t : DnsState} (hres : s.removePin zone fault = (res, t)) :
    t.PinnedBut now D := by
  obtain ⟨disk, rfl⟩ := state_of_removePin hres
  intro z p hp
  by_cases hz : z = zone
  · subst hz
    exact hsilent.imp (fun hsilent => absurd hp (hsilent p)) id
  · refine (h z p hp).imp_left fun hpin => ?_
    exact (DnsPins.keyOf_erase _ _ z).trans ((if_neg hz).trans hpin)

theorem PinnedBut.cacheNegative (h : s.PinnedBut now D) (since : ℕ) :
    (s.cacheNegative zone since).PinnedBut now D :=
  fun z p hp => h z p (answers_cacheNegative.mp hp).2

/-- A zone whose answer is dropped is no exception any more. -/
theorem PinnedBut.dropCached {E : Str → Prop} (h : s.PinnedBut now D)
    (hDE : ∀ z, z ≠ zone → D z → E z) : (s.dropCached zone).PinnedBut now E := fun z p hp =>
  (h z p (answers_dropCached.mp hp).2).imp_right (hDE z (answers_dropCached.mp hp).1)

/-- An answer may be written for a key that is the pinned one. -/
theorem PinnedBut.cachePositive (h : s.PinnedBut now D) {record : DnsRecord} {expires : ℕ}
    (hpin : now < expires → s.pins.keyOf zone = some p.toStr) :
    (s.cachePositive zone p record expires).PinnedBut now D := by
  intro z q hanswer
  rw [answers_cachePositive] at hanswer
  split at hanswer
  · rename_i hz
    obtain ⟨rfl, hlt⟩ := hanswer
    exact Or.inl (hz ▸ hpin hlt)
  · exact h z q hanswer

end

end DnsState

section
variable [External] [Relays]

/-- What a call does: it leaves the state as it is, and a key it returns is one the cache answers;
it remembers that there is no record; or it validates a record, and fails with what the pin section
left, or returns its key and remembers the answer. -/
theorem resolveZone_cases {cfg : DnsConfig} {s t : DnsState} {zone : Str} {q : Query}
    {res : Except Err ZoneOutcome} (h : resolveZone cfg s zone q = (res, t)) :
    (t = s ∧ ∀ p new relay seed, res = .ok (.resolved p new relay seed) →
      s.Answers zone q.now p) ∨
    (t = s.cacheNegative zone q.now ∧ res = .ok .noRecord) ∨
    validates cfg s zone q = true ∧ ∃ record ttl, recordOf q.answer = some (record, ttl) ∧
      ∃ out u, s.validateAndPin cfg zone record q.wall q.fault = (out, u) ∧
        ((∃ e, out = .error e ∧ res = .error e ∧ t = u) ∨
          ∃ new, out = .ok (record.key, new) ∧
            res = .ok (.resolved record.key new record.relay record.seed) ∧
            t = u.cachePositive zone record.key record (q.now + seconds ttl)) := by
  unfold resolveZone at h
  split at h
  · cases h
    exact Or.inl ⟨rfl, fun _ _ _ _ he => by cases he⟩
  · rename_i hon
    split at h
    · rename_i outcome hc
      cases h
      exact Or.inl ⟨rfl, fun p new relay seed he => by
        cases he
        exact ⟨new, relay, seed, hc⟩⟩
    · rename_i hc
      split at h
      · cases h
        exact Or.inr (Or.inl ⟨rfl, rfl⟩)
      · rename_i record ttl hr
        have hval : validates cfg s zone q = true := by
          simp [validates, hc, hr, Bool.eq_true_of_not_eq_false (by simpa using hon)]
        refine Or.inr (Or.inr ⟨hval, record, ttl, hr, ?_⟩)
        split at h
        · rename_i publisher new u hpin
          cases h
          have hkey : publisher = record.key := by
            rcases validateAndPin_cases hpin with ⟨-, he, -⟩ |
              ⟨pins, -, -, ⟨-, he, -⟩ | ⟨e, -, he, -⟩⟩ | ⟨⟨e, he⟩, -⟩ <;> cases he <;> rfl
          subst hkey
          exact ⟨_, _, hpin, Or.inr ⟨new, rfl, rfl, rfl⟩⟩
        · rename_i e u hpin
          cases h
          exact ⟨_, _, hpin, Or.inl ⟨e, rfl, rfl, rfl⟩⟩

end

end Ocid
