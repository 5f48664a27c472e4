import Ocid.Daemon.Sample
import Ocid.Replication.Arrivals
import Ocid.Replication.Pull

/-!
# Replication — Answered — the version an announcement brings

`onAnnouncement` asks the peer that relayed the announcement, and then the publisher.  The first
release that is answered ends the search: it is fetched, and stored unless what is held is newer
(`onAnnouncement_fetched`).  Whether it is the version that was announced is not looked at.  So
that version, or a newer one, is held before the window is enforced exactly when the first release
answered is not older (`announced_held_iff`).
-/

namespace Ocid

open Call

section
variable [External] {node : Node} {s : Store}

/-- `askProviders` up to the enforcement of the window. -/
def fetchFirst (node : Node) (x : ReleaseSummary) (providers : List EndpointId)
    (net : EndpointId → Exchange) : List EndpointId → Op Unit
  | [] => fail ["no peer could provide release " ++ x.publisher.fmtShort ++ '/' :: (x.name ++
      ':' :: x.tag)]
  | p :: ps =>
      match (net p).answer with
      | .ok (some rel) => (net p).fetch node rel providers
      | .ok none | .error _ => fetchFirst node x providers net ps

namespace Announced

variable (a : Announced)

/-- `onAnnouncement` up to the enforcement of the window. -/
def fetched (node : Node) : Op Unit :=
  fetchFirst node a.summary a.providers a.net a.providers

/-- `selectWanted` chooses the announced release. -/
def Accepted (node : Node) (s : Store) : Prop :=
  a.summary ∈ chosenOf node ⟨a.summary.publisher, a.summary.name, [a.summary]⟩ s

instance (node : Node) (s : Store) : Decidable (a.Accepted node s) :=
  inferInstanceAs (Decidable (_ ∈ _))

/-- What the peers answer are validly signed releases of the announced reference. -/
def Signed : Prop :=
  ∀ p ∈ a.providers, ∀ rel, (a.net p).answer = .ok (some rel) →
    rel.verify = .ok () ∧ rel.ref = a.summary.ref

end Announced

theorem askProviders_eq (node : Node) (x : ReleaseSummary) (providers : List EndpointId)
    (net : EndpointId → Exchange) (peers : List EndpointId) :
    askProviders node x providers net peers = (do
      fetchFirst node x providers net peers
      enforceWindow node x.publisher x.name) := by
  induction peers with
  | nil => rfl
  | cons p ps ih =>
      rw [askProviders, fetchFirst]
      rcases (net p).answer with e | a | a
      · exact ih
      · exact ih
      · rfl

/-- The search ends at the first release that is answered. -/
theorem fetchFirst_ok {x : ReleaseSummary} {providers peers : List EndpointId}
    {net : EndpointId → Exchange} (h : (fetchFirst node x providers net peers).result s = .ok ()) :
    ∃ p ∈ peers, ∃ rel, (net p).answer = .ok (some rel) ∧ firstAnswer net peers = some rel ∧
      fetchFirst node x providers net peers = (net p).fetch node rel providers := by
  induction peers with
  | nil => cases h
  | cons p ps ih =>
      rcases ha : (net p).answer with e | a | rel
      · simp only [fetchFirst, firstAnswer, ha] at h ⊢
        obtain ⟨q, hq, hrest⟩ := ih h
        exact ⟨q, List.mem_cons_of_mem _ hq, hrest⟩
      · simp only [fetchFirst, firstAnswer, ha] at h ⊢
        obtain ⟨q, hq, hrest⟩ := ih h
        exact ⟨q, List.mem_cons_of_mem _ hq, hrest⟩
      · simp only [fetchFirst, firstAnswer, ha] at h ⊢
        exact ⟨p, List.mem_cons_self, rel, ha, rfl, rfl⟩

/-- An announcement that is accepted is fetched, and then the window is enforced. -/
theorem onAnnouncement_fetched {a : Announced} (h : a.Accepted node s) :
    (onAnnouncement node a.summary a.source a.net).result s =
        (do
          a.fetched node
          enforceWindow node a.summary.publisher a.summary.name).result s ∧
      (onAnnouncement node a.summary a.source a.net).final s =
        (do
          a.fetched node
          enforceWindow node a.summary.publisher a.summary.name).final s := by
  obtain ⟨ys, hys, hne⟩ : ∃ ys, (selectWanted node.policy a.summary.publisher a.summary.name
      [a.summary]).result s = .ok ys ∧ ys.isEmpty = false := by
    rw [Announced.Accepted, chosenOf] at h
    split at h
    · rename_i ys hys
      exact ⟨ys, hys, List.isEmpty_eq_false_iff_exists_mem.mpr ⟨_, h⟩⟩
    · cases h
  have hquiet := (final_of_emits_false
    (emits_selectWanted node.policy a.summary.publisher a.summary.name [a.summary]) s).2
  rw [onAnnouncement, result_bind_of_ok hys, final_bind_of_ok hys, hquiet,
    if_neg (by rw [hne]; exact Bool.false_ne_true)]
  have hask := askProviders_eq node a.summary a.providers a.net a.providers
  exact ⟨congrArg (result · s) hask, congrArg (final · s) hask⟩

/-- What is accepted is newer than what is held. -/
theorem lt_of_accepted {a : Announced} (h : a.Accepted node s) {e : Release}
    (he : s.releases.get a.summary.ref = some e) : e.payload.timestamp < a.summary.timestamp := by
  rw [Announced.Accepted, chosenOf] at h
  split at h
  · rename_i ys hys
    rw [selectWanted] at hys
    split at hys
    · cases hys
      cases h
    · obtain ⟨rs, hrs, hys⟩ := result_bind_ok.mp hys
      cases hys
      obtain ⟨hmem, hnodup, -⟩ := localReleasesOf_ok hrs
      have htag : e.payload.tag = a.summary.tag := congrArg Ref.tag (Table.key_of_get he)
      have hold := of_decide_eq_true (List.mem_filter.mp h).2
      refine (all_lookup_iff hnodup).mp hold.2 (e.payload.tag, e.payload.timestamp) ?_ htag
      refine List.mem_map_of_mem ((hmem e).mpr ?_)
      rw [htag]
      exact he
  · cases h

/-- **What an accepted announcement brings.**  When `onAnnouncement` returns, the store it enforces
the window of holds the announced version or a newer one exactly when the first release that was
answered is not older than the announced one. -/
theorem announced_held_iff {a : Announced} (haccepted : a.Accepted node s) (hsigned : a.Signed)
    (hok : (onAnnouncement node a.summary a.source a.net).result s = .ok ()) :
    (onAnnouncement node a.summary a.source a.net).final s =
        (enforceWindow node a.summary.publisher a.summary.name).final ((a.fetched node).final s) ∧
      ((∃ rel, ((a.fetched node).final s).releases.get a.summary.ref = some rel ∧
          a.summary.timestamp ≤ rel.payload.timestamp) ↔
        ∀ rel ∈ firstAnswer a.net a.providers, a.summary.timestamp ≤ rel.payload.timestamp) := by
  obtain ⟨hresult, hfinal⟩ := onAnnouncement_fetched haccepted
  rw [hresult] at hok
  obtain ⟨u, hfetched, -⟩ := result_bind_ok.mp hok
  refine ⟨hfinal.trans (final_bind_of_ok hfetched _), ?_⟩
  obtain ⟨p, hp, rel, hanswer, hfirst, hfetch⟩ := fetchFirst_ok hfetched
  have href : rel.ref = a.summary.ref := (hsigned p hp rel hanswer).2
  have hiff : (∀ r ∈ firstAnswer a.net a.providers, a.summary.timestamp ≤ r.payload.timestamp) ↔
      a.summary.timestamp ≤ rel.payload.timestamp := by simp [hfirst]
  rw [Announced.fetched, hfetch] at hfetched ⊢
  obtain ⟨-, hreleases⟩ := releases_fetch hfetched
  rw [hiff, hreleases, ← href]
  by_cases haccepts : s.accepts rel = true
  · rw [if_pos haccepts, Table.get_put_self]
    simp
  · -- what is held is older than what was announced, and not older than what was answered
    rw [if_neg haccepts]
    rw [Store.accepts] at haccepts
    cases hheld : s.releases.get rel.ref with
    | none =>
        rw [hheld] at haccepts
        exact absurd rfl haccepts
    | some e =>
        rw [hheld, Option.all_some, Bool.not_eq_true] at haccepts
        have hlt := lt_of_accepted haccepted (href ▸ hheld)
        have hle := Release.le_of_not_supersedes haccepts
        constructor
        · rintro ⟨r, hr, hge⟩
          cases hr
          exact absurd hge (Nat.not_le.mpr hlt)
        · intro hge
          exact absurd (hge.trans hle) (Nat.not_le.mpr hlt)

end

namespace Sample

/-- A pushed tag, and the same tag pushed again. -/
def pushed : Release :=
  letI := sample
  release alice "app" "1.0" index 1000

/-- The release of a tag, pushed again. -/
def pushedAgain : Release :=
  letI := sample
  release alice "app" "1.0" index2 2000

/-- The second push is announced; the peer that relays it answers `rel`, and the publisher what it
announced. -/
def relayed (rel : Release) : @Announced sample :=
  letI := sample
  ⟨pushedAgain.summary, mallory.id, fun p =>
    exchange (if p = mallory.id then rel else pushedAgain)⟩

end Sample

theorem signed_relayed {rel : Release} : letI := sample
    rel.verify = .ok () → rel.ref = Sample.pushedAgain.ref → (Sample.relayed rel).Signed := by
  let _ := sample
  intro hv href p _ r hr
  have hverify : Sample.pushedAgain.verify = .ok () := by decide +kernel
  have hanswer : (if p = Sample.mallory.id then rel else Sample.pushedAgain) = r :=
    Option.some.inj (Except.ok.inj hr)
  split at hanswer
  · exact hanswer ▸ ⟨hv, href⟩
  · exact hanswer ▸ ⟨hverify, rfl⟩

/-- A peer that relays an announcement holds what it relays. -/
theorem announced_held_iff_at : letI := sample
    let a := Sample.relayed Sample.pushedAgain
    (onAnnouncement Sample.follower a.summary a.source a.net).final Store.empty =
        (enforceWindow Sample.follower a.summary.publisher a.summary.name).final
          ((a.fetched Sample.follower).final Store.empty) ∧
      ((∃ rel, ((a.fetched Sample.follower).final Store.empty).releases.get a.summary.ref =
            some rel ∧ a.summary.timestamp ≤ rel.payload.timestamp) ↔
        ∀ rel ∈ firstAnswer a.net a.providers, a.summary.timestamp ≤ rel.payload.timestamp) := by
  let _ := sample
  intro a
  have haccepted : a.Accepted Sample.follower Store.empty := by decide +kernel
  have hverify : Sample.pushedAgain.verify = .ok () := by decide +kernel
  have hok : (onAnnouncement Sample.follower a.summary a.source a.net).result Store.empty =
      .ok () := by decide +kernel
  exact announced_held_iff haccepted (signed_relayed hverify rfl) hok

/-- A peer that relays an announcement still holds the tag as it was pushed first, and answers that;
the publisher is not asked, and the announcement is taken to be handled. -/
theorem older_answer_ends_search : letI := sample
    let a := Sample.relayed Sample.pushed
    a.Accepted Sample.follower Store.empty ∧ a.Signed ∧
      (a.net Sample.alice.id).answer = .ok (some Sample.pushedAgain) ∧
      (onAnnouncement Sample.follower a.summary a.source a.net).result Store.empty = .ok () ∧
      ¬ ∃ rel, ((a.fetched Sample.follower).final Store.empty).releases.get a.summary.ref =
          some rel ∧ a.summary.timestamp ≤ rel.payload.timestamp := by
  let _ := sample
  intro a
  refine ⟨by decide +kernel, signed_relayed (by decide +kernel) (by decide +kernel), rfl,
    by decide +kernel, ?_⟩
  have hheld : ((a.fetched Sample.follower).final Store.empty).releases.get a.summary.ref =
      some Sample.pushed := by decide +kernel
  have hlt : ¬ a.summary.timestamp ≤ Sample.pushed.payload.timestamp := by decide +kernel
  rintro ⟨rel, hget, hle⟩
  rw [hheld] at hget
  cases hget
  exact hlt hle

end Ocid
