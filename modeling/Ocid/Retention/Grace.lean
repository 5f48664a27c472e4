import Ocid.Retention.Pruning

/-!
# Retention — Grace — how long a release outside the policy is kept

A collection that is not forced spares a record that was written less than the grace period ago, by
the system clock.  The clock may be set back, so that the record was written in its future; and a
fetch writes no record for a release that is stored already.

Along a run, a collection removes a release only when the grace period has passed since the release
was last fetched, as long as no fetch finds its own release stored and no collection finds the
clock behind a record (`run_grace`).
-/

namespace Ocid

open Call

/-! ### Times -/

/-- The clock of the system, in nanoseconds; it may be set at any time. -/
abbrev SystemTime : Type := ℤ

/-- `SystemTime::elapsed`: the time since `t`, unless the clock is behind it. -/
def elapsed (now t : SystemTime) : Option SystemTime := if t ≤ now then some (now - t) else none

/-- Seconds, in the nanoseconds of a time. -/
def nanos (secs : ℕ) : SystemTime := secs * 1000000000

/-- When the record files were last written. -/
abbrev Mtimes : Type := Ref → Option SystemTime

/-- A write sets the time of the record it writes. -/
def stamp (now : SystemTime) (m : Mtimes) : Write → Mtimes
  | .release rel => Function.update m rel.ref (some now)
  | .dropRelease r => Function.update m r none
  | _ => m

section
variable [External]

/-- A node and its store, with the time of each record, and the times at which fetches of a release
last returned. -/
structure Cache where
  node : Node
  store : Store
  mtimes : Mtimes
  fetched : Release → Option SystemTime

/-- What happens to a node, at a time. -/
inductive CacheAct where
  /-- A release is fetched that was announced, or found in an inventory. -/
  | fetch (release : Release) (providers : List EndpointId) (net : Exchange)
  | pull (publisher : PublisherId) (name tag : Str) (net : EndpointId → Exchange)
  | setPolicy (f : Policy → Except Err (Policy × Bool)) (saved : Except Err Unit)
  | enforce (publisher : PublisherId) (name : Str)
  /-- A collection that is not forced; `readable` says of which files the metadata can be read. -/
  | gc (dryRun : Bool) (readable : Ref → Bool)

/-- The first peer that answers a release. -/
def firstPeer (net : EndpointId → Exchange) : List EndpointId → Option (EndpointId × Release)
  | [] => none
  | peer :: peers =>
      match (net peer).answer with
      | .ok (some rel) => some (peer, rel)
      | .ok none | .error _ => firstPeer net peers

namespace Cache

variable (w : Cache) (now : SystemTime)

/-- Nothing is stored. -/
def start (node : Node) : Cache := ⟨node, Store.empty, fun _ => none, fun _ => none⟩

/-- Run an operation at the time `now`. -/
def exec {α : Type} (m : Op α) : Cache :=
  { w with store := m.final w.store, mtimes := (m.journal w.store).foldl (stamp now) w.mtimes }

/-- When the record was last written, if its file tells. -/
def releaseMtime (readable : Ref → Bool) (rel : Release) : Option SystemTime :=
  if readable rel.ref then w.mtimes rel.ref else none

/-- How old a record is, if that can be told. -/
def age (readable : Ref → Bool) (rel : Release) : Option SystemTime :=
  (w.releaseMtime readable rel).bind (elapsed now)

/-- A record whose age is not known is as old as can be. -/
def young (graceSecs : ℕ) (readable : Ref → Bool) (rel : Release) : Bool :=
  (w.age now readable rel).any fun age => age < nanos graceSecs

/-- The fetch that an act makes: the release, and whether a fault stops it. -/
def fetches : CacheAct → Option (Release × Bool)
  | .fetch release _ net => some (release, net.fault.isSome)
  | .pull publisher name tag net =>
      let held := (w.store.releases.get ⟨publisher, name, tag⟩).any fun rel => w.store.isComplete rel
      if !(releasePath publisher name tag).isOk || held || publisher = w.node.id then none
      else (firstPeer net (candidatePeers w.node publisher)).map fun x =>
        (x.2, (net x.1).fault.isSome)
  | _ => none

/-- The result of an act that fetches. -/
def returns : CacheAct → Bool
  | .fetch release providers net => ((net.fetch w.node release providers).result w.store).isOk
  | .pull publisher name tag net =>
      ((getOrFetch w.node publisher name tag net).result w.store).isOk
  | _ => false

/-- A fetch that returned is remembered. -/
def remember (a : CacheAct) : Release → Option SystemTime :=
  match w.fetches a with
  | some (rel, _) => if w.returns a then Function.update w.fetched rel (some now) else w.fetched
  | none => w.fetched

/-- What an act does at a time. -/
def step (graceSecs : ℕ) (w : Cache) : SystemTime × CacheAct → Option Cache
  | (now, a) =>
      let after := match a with
        | .fetch release providers net => w.exec now (net.fetch w.node release providers)
        | .pull publisher name tag net => w.exec now (getOrFetch w.node publisher name tag net)
        | .setPolicy f saved =>
            let m := mutatePolicy w.node f saved
            match m.result w.store with
            | .ok (node, _) => { w.exec now m with node }
            | .error _ => w.exec now m
        | .enforce publisher name => w.exec now (enforceWindow w.node publisher name)
        | .gc dryRun readable =>
            w.exec now (gc w.node ⟨dryRun, false⟩ (w.young now graceSecs readable))
      some { after with fetched := w.remember now a }

/-- No fetch finds its own release stored, nor, where a fault stops it, the clock behind the last
fetch of the release; and no collection finds a record without an age, as the clock is behind it. -/
def InOrder (w : Cache) : SystemTime × CacheAct → Prop
  | (now, a) => (∀ x, w.fetches a = some x → w.store.releases.get x.1.ref ≠ some x.1 ∧
      (x.2 = true → ∀ t, w.fetched x.1 = some t → t ≤ now)) ∧
    ∀ dryRun readable, a = .gc dryRun readable →
      ∀ rel ∈ w.store.releases.rows, (w.age now readable rel).isSome

/-- What a collection removes was last fetched a grace period ago, or before. -/
def Graceful (graceSecs : ℕ) (w : Cache) : SystemTime × CacheAct → Prop
  | (now, a) => ∀ dryRun readable, a = .gc dryRun readable →
      ∀ rel t, w.store.releases.get rel.ref = some rel → w.fetched rel = some t →
        (∀ w', w.step graceSecs (now, a) = some w' → w'.store.releases.get rel.ref = none) →
          t + nanos graceSecs ≤ now

/-- The records are named, and none was written before its last fetch. -/
structure Dated (w : Cache) : Prop where
  named : w.store.Named
  mtime : ∀ rel t, w.store.releases.get rel.ref = some rel → w.fetched rel = some t →
    ∃ m, w.mtimes rel.ref = some m ∧ t ≤ m

variable {w now}

/-! ### Records and their times -/

/-- What every write of an operation keeps, of the store and the times. -/
theorem exec_keeps {α : Type} {m : Op α} {P : Write → Prop} {I : Store → Mtimes → Prop}
    (hI : ∀ s times v, P v → I s times → I (s.apply v) (stamp now times v))
    (hm : ∀ v ∈ m.journal w.store, P v) (h : I w.store w.mtimes) :
    I (w.exec now m).store (w.exec now m).mtimes := by
  show I (replay w.store (m.journal w.store)) _
  simp only [exec]
  generalize m.journal w.store = ws at hm
  generalize w.store = s at h ⊢
  generalize w.mtimes = times at h ⊢
  induction ws generalizing s times with
  | nil => exact h
  | cons v ws ih =>
      exact ih (fun u hu => hm u (List.mem_cons_of_mem _ hu)) _ _
        (hI _ _ _ (hm v List.mem_cons_self) h)

/-- An operation that writes no record leaves the others with their times. -/
theorem exec_removes {α : Type} {m : Op α} (hm : Emits (fun v => ∀ rel, v ≠ .release rel) m) :
    ∀ r rel, (w.exec now m).store.releases.get r = some rel →
      w.store.releases.get r = some rel ∧ (w.exec now m).mtimes r = w.mtimes r := by
  refine exec_keeps (P := fun v => ∀ rel, v ≠ .release rel)
    (I := fun s times => ∀ r rel, s.releases.get r = some rel →
      w.store.releases.get r = some rel ∧ times r = w.mtimes r) (fun s times v hv h => ?_)
    (hm w.store) fun r rel hget => ⟨hget, rfl⟩
  cases v with
  | release rel => exact absurd rfl (hv rel)
  | dropRelease q =>
      intro r rel hget
      have hne : r ≠ q := by
        rintro rfl
        cases (Table.get_erase_self _ _).symm.trans hget
      obtain ⟨hold, htime⟩ := h r rel (Table.get_of_get_erase hget)
      exact ⟨hold, (Function.update_of_ne hne _ _).trans htime⟩
  | _ => exact h

/-- An operation that at most writes the record of `release`. -/
theorem exec_writes {α : Type} {m : Op α} {release : Release}
    (hm : Emits (fun v => v.part = .releases → v = .release release ∧ release.verify = .ok ()) m) :
    ∀ r, ((w.exec now m).store.releases.get r = w.store.releases.get r ∧
        (w.exec now m).mtimes r = w.mtimes r) ∨
      (r = release.ref ∧ release.verify = .ok ()) ∧
        (w.exec now m).store.releases.get r = some release ∧
          (w.exec now m).mtimes r = some now := by
  refine exec_keeps (I := fun s times => ∀ r,
      (s.releases.get r = w.store.releases.get r ∧ times r = w.mtimes r) ∨
        (r = release.ref ∧ release.verify = .ok ()) ∧
          s.releases.get r = some release ∧ times r = some now) (fun s times v hv h => ?_)
    (hm w.store) fun r => Or.inl ⟨rfl, rfl⟩
  cases v with
  | release rel =>
      obtain ⟨hrel, hverify⟩ := hv rfl
      cases hrel
      intro r
      by_cases hr : r = release.ref
      · subst hr
        exact Or.inr ⟨⟨rfl, hverify⟩, Table.get_put_self _ _, Function.update_self _ _ _⟩
      · rw [show (s.apply (.release release)).releases.get r = s.releases.get r from
          Table.get_put_of_ne (Ne.symm hr), stamp, Function.update_of_ne hr]
        exact h r
  | dropRelease q => cases (hv rfl).1
  | _ => exact h

/-- What removes records only keeps the times right. -/
theorem Dated.removes {α : Type} (hw : w.Dated) {m : Op α}
    (hm : Emits (fun v => ∀ rel, v ≠ .release rel) m) : (w.exec now m).Dated := by
  refine ⟨fun r rel hget => hw.named r rel (exec_removes hm r rel hget).1,
    fun rel t hget ht => ?_⟩
  obtain ⟨hold, htime⟩ := exec_removes hm _ _ hget
  obtain ⟨m', hm', hle⟩ := hw.mtime rel t hold ht
  exact ⟨m', htime.trans hm', hle⟩

/-- What fetches a release keeps the times right, when it is remembered that it returned. -/
theorem Dated.writes {α : Type} (hw : w.Dated) {m : Op α} {release : Release}
    (hm : Emits (fun v => v.part = .releases → v = .release release ∧ release.verify = .ok ()) m)
    (hnew : w.store.releases.get release.ref ≠ some release) {returned fault : Bool}
    (hrecord : ∀ v ∈ m.journal w.store, v.part = .releases → fault = false → returned = true)
    (hfault : fault = true → ∀ t, w.fetched release = some t → t ≤ now) :
    Dated { w.exec now m with
      fetched := if returned then Function.update w.fetched release (some now) else w.fetched } := by
  have hcases := @exec_writes _ w now _ m release hm
  refine ⟨fun r rel hget => ?_, fun rel t hget ht => ?_⟩
  · rcases hcases r with ⟨hold, -⟩ | ⟨⟨rfl, hverify⟩, -, -⟩
    · exact hw.named r rel (hold ▸ hget)
    · exact Release.valid_of_verify hverify
  · have hget' : (m.final w.store).releases.get rel.ref = some rel := hget
    by_cases hrel : rel = release
    · subst hrel
      -- the record was written, as it was not there
      rcases hcases rel.ref with ⟨hold, -⟩ | ⟨-, -, htime⟩
      · exact absurd (hold.symm.trans hget) hnew
      · refine ⟨now, htime, ?_⟩
        cases returned with
        | true =>
            simp only [if_true, Function.update_self] at ht
            exact le_of_eq (Option.some.inj ht).symm
        | false =>
            rcases written_of_get_final hget' with hold | ⟨-, hmem⟩
            · exact absurd hold hnew
            · refine hfault ?_ t ht
              by_contra hno
              cases hrecord _ hmem rfl (Bool.eq_false_of_not_eq_true hno)
    · have ht' : w.fetched rel = some t := by
        cases returned with
        | true => exact (Function.update_of_ne hrel _ _).symm.trans ht
        | false => exact ht
      rcases hcases rel.ref with ⟨hold, htime⟩ | ⟨-, hput, -⟩
      · obtain ⟨m', hm', hle⟩ := hw.mtime rel t (hold.symm.trans hget) ht'
        exact ⟨m', htime.trans hm', hle⟩
      · exact absurd (Option.some.inj (hget.symm.trans hput)) hrel

/-! ### What an act does -/

omit w now in
/-- What `askPeers` does: the fetch of the first answer. -/
theorem askPeers_apply (node : Node) (publisher : PublisherId) (net : EndpointId → Exchange)
    (peers : List EndpointId) (s : Store) :
    askPeers node publisher net peers s =
      match firstPeer net peers with
      | none => ([], .ok none)
      | some (peer, rel) => (do
          (net peer).fetch node rel (if publisher ≠ peer then [peer, publisher] else [peer])
          pure (some rel) : Op (Option Release)) s := by
  induction peers with
  | nil => rfl
  | cons peer peers ih =>
      rw [askPeers, firstPeer]
      rcases (net peer).answer with e | a | a
      · exact ih
      · exact ih
      · rfl

/-- A fetch that came to the record returned, unless a fault stopped it. -/
theorem returned_of_record {node : Node} {net : Exchange} {rel : Release}
    {providers : List EndpointId} {s : Store} {v : Write}
    (hv : v ∈ (net.fetch node rel providers).journal s) (hpart : v.part = .releases)
    (hfault : net.fault.isSome = false) : ((net.fetch node rel providers).result s).isOk = true := by
  have hnone : net.fault = none := Option.isSome_eq_false_iff.mp hfault |> Option.isNone_iff_eq_none.mp
  rw [Exchange.fetch, hnone, cut_none] at hv ⊢
  rw [fetchRelease_of_record hv hpart]
  rfl

theorem emits_fetch_record (net : Exchange) (node : Node) (rel : Release)
    (providers : List EndpointId) :
    Emits (fun v => v.part = .releases → v = .release rel ∧ rel.verify = .ok ())
      (net.fetch node rel providers) :=
  (emits_fetchRelease_record _ _ _ _).cut _

/-- A pull fetches a release, or writes nothing. -/
theorem getOrFetch_fetches (w : Cache) (publisher : PublisherId) (name tag : Str)
    (net : EndpointId → Exchange) :
    match w.fetches (.pull publisher name tag net) with
    | none => (getOrFetch w.node publisher name tag net).journal w.store = []
    | some (rel, fault) => ∃ x : Exchange, ∃ providers, fault = x.fault.isSome ∧
        (getOrFetch w.node publisher name tag net).journal w.store =
          (x.fetch w.node rel providers).journal w.store ∧
        ((getOrFetch w.node publisher name tag net).result w.store).isOk =
          ((x.fetch w.node rel providers).result w.store).isOk := by
  cases hp : releasePath publisher name tag with
  | error e =>
      have hnone : w.fetches (.pull publisher name tag net) = none := by
        simp [fetches, hp, Except.isOk, Except.toBool]
      rw [hnone]
      simp only [journal, getOrFetch, read_bind_apply,
        bind_apply_of_error (getRelease_apply_error hp _)]
  | ok r =>
      obtain ⟨-, -, rfl⟩ := releasePath_eq_ok.mp hp
      have happly := getOrFetch_apply w.node hp net w.store
      have hpath : (releasePath publisher name tag).isOk = true := by rw [hp]; rfl
      rw [journal, result]
      by_cases hheld : ((w.store.releases.get ⟨publisher, name, tag⟩).filter fun rel =>
          w.store.isComplete rel) = none
      · have hany : ((w.store.releases.get ⟨publisher, name, tag⟩).any fun rel =>
            w.store.isComplete rel) = false := by
          rw [← Option.isSome_filter, hheld]
          rfl
        rw [hheld] at happly
        by_cases hown : publisher = w.node.id
        · have hnone : w.fetches (.pull publisher name tag net) = none := by simp [fetches, hown]
          rw [hnone, happly, if_pos hown]
        · simp only [if_neg hown, askPeers_apply] at happly
          have hfetches : w.fetches (.pull publisher name tag net) =
              (firstPeer net (candidatePeers w.node publisher)).map fun x =>
                (x.2, (net x.1).fault.isSome) := by
            simp [fetches, hpath, hany, hown]
          rw [hfetches]
          cases hfirst : firstPeer net (candidatePeers w.node publisher) with
          | none =>
              rw [hfirst] at happly
              rw [Option.map_none, happly]
          | some x =>
              obtain ⟨peer, rel⟩ := x
              simp only [hfirst] at happly
              refine ⟨net peer, if publisher ≠ peer then [peer, publisher] else [peer], rfl, ?_⟩
              rw [happly]
              generalize (net peer).fetch w.node rel (if publisher ≠ peer then [peer, publisher] else
                [peer]) = m
              rcases hm : m w.store with ⟨ws, e | u⟩
              · simp only [bind_apply_of_error hm, journal, result, hm]
                exact ⟨trivial, rfl⟩
              · simp only [bind_apply_of_ok hm, journal, result, hm]
                exact ⟨List.append_nil _, rfl⟩
      · obtain ⟨rel, hrel⟩ := Option.ne_none_iff_exists'.mp hheld
        have hany : ((w.store.releases.get ⟨publisher, name, tag⟩).any fun rel =>
            w.store.isComplete rel) = true := by
          rw [← Option.isSome_filter, hrel]
          rfl
        have hnone : w.fetches (.pull publisher name tag net) = none := by simp [fetches, hany]
        rw [hrel] at happly
        rw [hnone, happly]

theorem emits_enforceAllWindows (node : Node) :
    Emits (fun v => ∀ rel, v ≠ .release rel) (enforceAllWindows node) := by
  have hrepos : ∀ repos, Emits (fun v => ∀ rel, v ≠ .release rel) (enforceRepos node repos) := by
    intro repos
    induction repos with
    | nil => exact Emits.pure _
    | cons repo repos ih => exact (emits_enforceWindow node repo.1 repo.2).bind fun _ => ih
  exact Emits.read.bind fun _ => hrepos _

theorem emits_mutatePolicy (node : Node) (f : Policy → Except Err (Policy × Bool))
    (saved : Except Err Unit) :
    Emits (fun v => ∀ rel, v ≠ .release rel) (mutatePolicy node f saved) :=
  (Emits.ofExcept _).bind fun _ => (Emits.ofExcept _).bind fun _ =>
    (emits_enforceAllWindows _).attempt.bind fun _ => Emits.pure _

theorem dated_step {graceSecs : ℕ} {a : SystemTime × CacheAct} {w' : Cache} (hw : w.Dated)
    (ha : w.InOrder a) (h : w.step graceSecs a = some w') : w'.Dated := by
  obtain ⟨now, a⟩ := a
  obtain rfl := Option.some.inj h
  obtain ⟨hfetch, -⟩ := ha
  cases a with
  | fetch release providers net =>
      obtain ⟨hnew, hfault⟩ := hfetch _ rfl
      exact hw.writes (emits_fetch_record net w.node release providers) hnew
        (fun v hv hpart hno => returned_of_record hv hpart hno) hfault
  | pull publisher name tag net =>
      have hspec := getOrFetch_fetches w publisher name tag net
      cases hf : w.fetches (.pull publisher name tag net) with
      | none =>
          rw [hf] at hspec
          simp only [remember, hf, exec, final, hspec]
          exact ⟨hw.named, hw.mtime⟩
      | some x =>
          obtain ⟨rel, fault⟩ := x
          rw [hf] at hspec
          obtain ⟨x, providers, rfl, hjournal, hreturned⟩ := hspec
          obtain ⟨hnew, hfault⟩ := hfetch _ hf
          simp only [remember, hf, returns, hreturned, exec, final, hjournal]
          exact hw.writes (emits_fetch_record x w.node rel providers) hnew
            (fun v hv hpart hno => returned_of_record hv hpart hno) hfault
  | setPolicy f saved =>
      have hdated : (w.exec now (mutatePolicy w.node f saved)).Dated :=
        hw.removes (emits_mutatePolicy _ _ _)
      simp only [remember, fetches]
      cases (mutatePolicy w.node f saved).result w.store with
      | ok x => exact ⟨hdated.named, hdated.mtime⟩
      | error e => exact ⟨hdated.named, hdated.mtime⟩
  | enforce publisher name => exact hw.removes (emits_enforceWindow _ _ _)
  | gc dryRun readable => exact hw.removes (emits_gc _ _ _)

/-- What a collection removes is older than the grace period. -/
theorem graceful_of_dated {graceSecs : ℕ} {a : SystemTime × CacheAct} (hw : w.Dated)
    (ha : w.InOrder a) : w.Graceful graceSecs a := by
  obtain ⟨now, a⟩ := a
  rintro dryRun readable rfl rel t hget ht hgone
  obtain ⟨m, hm, hle⟩ := hw.mtime rel t hget ht
  have hrow := Table.mem_of_get hget
  have hage := ha.2 dryRun readable rfl rel hrow
  have hnone : ((gc w.node ⟨dryRun, false⟩ (w.young now graceSecs readable)).final
      w.store).releases.get rel.ref = none := hgone _ rfl
  rw [get_gc hw.named, hget] at hnone
  split at hnone
  · rename_i hremoved
    obtain ⟨r, hr, hspared, -, href⟩ := hremoved
    obtain rfl : rel = r := List.inj_on_of_nodup_map w.store.releases.nodup hrow hr href
    have hold : w.young now graceSecs readable rel = false := by
      rw [GcReq.spares, Bool.or_eq_false_iff] at hspared
      simpa using hspared.2
    rw [age, releaseMtime] at hage
    rw [young, age, releaseMtime] at hold
    cases hread : readable rel.ref with
    | false => simp [hread] at hage
    | true =>
        simp only [hread, if_true, hm, Option.bind_some, elapsed] at hage hold
        by_cases hbehind : m ≤ now
        · simp only [hbehind, if_true, Option.any_some, decide_eq_false_iff_not, not_lt] at hold
          linarith
        · simp [hbehind] at hage
  · cases hnone

/-- **The grace period.** -/
theorem run_grace (node : Node) (graceSecs : ℕ) {as : List (SystemTime × CacheAct)}
    (h : Meets (step graceSecs) InOrder (start node) as) :
    Meets (step graceSecs) (Graceful graceSecs) (start node) as := by
  have hstart : (start node).Dated := ⟨nofun, nofun⟩
  have hdated := throughout_of_meets (fun _ _ _ hw ha hstep => dated_step hw ha hstep) hstart h
  exact (hdated.meets.and h).mono fun _ _ hwa => graceful_of_dated hwa.1 hwa.2

end Cache

end

namespace Sample

/-- A release of alice, and a fetch of it. -/
def fetched : Release := letI := sample; release alice "app" "1.0" index 1

/-- A fetch of the release, -/
def fetch : @CacheAct sample := letI := sample; .fetch fetched [alice.id] (exchange fetched)

/-- and a collection. -/
def collect : @CacheAct sample := letI := sample; .gc false fun _ => true

end Sample

open Cache in
/-- A release outside the policy that is fetched, and collected an hour later. -/
theorem run_grace_at : letI := sample
    Meets (step 3600) (Graceful 3600) (start (Sample.node Policy.default))
      [(0, Sample.fetch), (nanos 3600, Sample.collect)] := by
  let _ := sample
  refine run_grace (Sample.node Policy.default) 3600 ⟨⟨fun x hx => ?_, nofun⟩, fun w hw => ?_⟩
  · obtain rfl := Option.some.inj hx
    exact ⟨nofun, nofun⟩
  · refine ⟨⟨nofun, fun dryRun readable h => ?_⟩, fun _ _ => trivial⟩
    cases h
    have hages : ((step 3600 (start (Sample.node Policy.default)) (0, Sample.fetch)).all fun w =>
        w.store.releases.rows.all fun rel => (w.age (nanos 3600) (fun _ => true) rel).isSome) = true := by
      decide +kernel
    rw [hw, Option.all_some, List.all_eq_true] at hages
    exact hages

open Cache in
/-- With the clock set back by a second, and with the release fetched twice. -/
theorem gc_drops_fetched : letI := sample
    ¬ Meets (step 3600) (Graceful 3600) (start (Sample.node Policy.default))
        ([(nanos 5000, Sample.fetch)] ++ [(nanos 4999, Sample.collect)]) ∧
      ¬ Meets (step 3600) (Graceful 3600) (start (Sample.node Policy.default))
        ([(0, Sample.fetch), (nanos 4000, Sample.fetch)] ++ [(nanos 4001, Sample.collect)]) := by
  let _ := sample
  -- a run that loses the release a second after it was fetched
  have hlost {as : List (SystemTime × CacheAct)} (t : SystemTime) {now : SystemTime}
      (hlt : ¬ t + nanos 3600 ≤ now)
      (h : ((run (step 3600) (start (Sample.node Policy.default)) as).any fun w =>
        w.store.releases.get Sample.fetched.ref = some Sample.fetched &&
          w.fetched Sample.fetched = some t &&
            (step 3600 w (now, Sample.collect)).all fun w' =>
              (w'.store.releases.get Sample.fetched.ref).isNone) = true) :
      ¬ Meets (step 3600) (Graceful 3600) (start (Sample.node Policy.default))
        (as ++ [(now, Sample.collect)]) := by
    intro hmeets
    obtain ⟨w, hw, hfacts⟩ := (Option.any_eq_true _ _).mp h
    simp only [Bool.and_eq_true, decide_eq_true_eq] at hfacts
    obtain ⟨⟨hget, hfetched⟩, hgone⟩ := hfacts
    refine hlt (last_of_meets hmeets hw _ _ rfl Sample.fetched t hget hfetched fun w' hw' => ?_)
    rw [hw', Option.all_some] at hgone
    exact Option.isNone_iff_eq_none.mp hgone
  exact ⟨hlost (nanos 5000) (by decide) (by decide +kernel),
    hlost (nanos 4000) (by decide) (by decide +kernel)⟩

end Ocid
