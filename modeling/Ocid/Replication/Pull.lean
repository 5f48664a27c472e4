import Ocid.Daemon.Sample

/-!
# Replication — Pull — what a pull returns

`getOrFetch` answers a pull from a complete local record, or with the first release that a
candidate peer answers, once that release verified and its blobs are here.  Nothing compares the
answer with the request, and `putRelease` may keep the record it holds.  `getOrFetch_exact_iff`
says when the release returned is of the reference asked for and is the record then held.
-/

namespace Ocid

open Call

section
variable [External]

/-- The first release that one of `peers` answers. -/
def firstAnswer (net : EndpointId → Exchange) : List EndpointId → Option Release
  | [] => none
  | peer :: peers =>
      match (net peer).answer with
      | .ok (some rel) => some rel
      | .ok none | .error _ => firstAnswer net peers

/-- A pull of `r` in the store `s` is answered by the record `s` holds. -/
def Store.Holds (s : Store) (r : Ref) : Prop :=
  ∃ rel, s.releases.get r = some rel ∧ s.isComplete rel = true

/-- What `askPeers` returns is the first answer, fetched. -/
theorem askPeers_ok {node : Node} {publisher : PublisherId} {net : EndpointId → Exchange}
    {peers : List EndpointId} {s : Store} {rel : Release}
    (h : (askPeers node publisher net peers).result s = .ok (some rel)) :
    firstAnswer net peers = some rel ∧
      ((askPeers node publisher net peers).final s).releases =
        if s.accepts rel then s.releases.put rel else s.releases := by
  induction peers with
  | nil => cases h
  | cons peer peers ih =>
      rcases ha : (net peer).answer with e | a | a
      · simp only [askPeers, firstAnswer, ha] at h ⊢
        exact ih h
      · simp only [askPeers, firstAnswer, ha] at h ⊢
        exact ih h
      · simp only [askPeers, firstAnswer, ha] at h ⊢
        obtain ⟨u, hf, h⟩ := result_bind_ok.mp h
        cases h
        -- the fetch returned, so no fault stopped it
        have hcut := cut_of_result_ok hf
        rw [Exchange.fetch, hcut] at hf
        simp only [Exchange.fetch, hcut, true_and]
        rw [final_bind_of_ok hf, final_pure]
        exact releases_fetchRelease hf

/-- The two ways a pull returns a release: from the store, or from the first peer that answers
one. -/
theorem getOrFetch_ok {node : Node} {publisher : PublisherId} {name tag : Str}
    {net : EndpointId → Exchange} {s : Store} {rel : Release}
    (h : (getOrFetch node publisher name tag net).result s = .ok (some rel)) :
    (s.releases.get ⟨publisher, name, tag⟩ = some rel ∧ s.isComplete rel = true ∧
        (getOrFetch node publisher name tag net).final s = s) ∨
      (¬ s.Holds ⟨publisher, name, tag⟩ ∧
        firstAnswer net (candidatePeers node publisher) = some rel ∧
        ((getOrFetch node publisher name tag net).final s).releases =
          if s.accepts rel then s.releases.put rel else s.releases) := by
  cases hp : releasePath publisher name tag with
  | error e =>
      rw [getOrFetch, result, read_bind_apply,
        bind_apply_of_error (getRelease_apply_error hp s)] at h
      cases h
  | ok r =>
      obtain ⟨-, -, rfl⟩ := releasePath_eq_ok.mp hp
      have happly := getOrFetch_apply node hp net s
      rw [result] at h
      rw [final, journal]
      split at happly
      · rename_i held hheld
        obtain ⟨hg, hc⟩ := Option.filter_eq_some_iff.mp hheld
        rw [happly] at h ⊢
        cases h
        exact Or.inl ⟨hg, hc, rfl⟩
      · rename_i hnone
        have hnot : ¬ s.Holds ⟨publisher, name, tag⟩ := by
          rintro ⟨held, hg, hc⟩
          rw [hg, Option.filter_some, if_pos hc] at hnone
          cases hnone
        split at happly
        · rw [happly] at h
          cases h
        · rw [happly] at h ⊢
          obtain ⟨hfirst, hrel⟩ := askPeers_ok h
          exact Or.inr ⟨hnot, hfirst, hrel⟩

/-- **When a pull is right.**  The release a pull returns is of the reference asked for and is the
record then held, exactly when the store answered it, or the first release a candidate peer
answers is of that reference and is the record already held or one the store accepts; and it is
then no older than the record held before. -/
theorem getOrFetch_exact_iff {node : Node} {publisher : PublisherId} {name tag : Str}
    {net : EndpointId → Exchange} {s : Store} {rel : Release}
    (h : (getOrFetch node publisher name tag net).result s = .ok (some rel)) :
    let r : Ref := ⟨publisher, name, tag⟩
    let right := rel.ref = r ∧
      ((getOrFetch node publisher name tag net).final s).releases.get r = some rel
    (right ↔ s.Holds r ∨ ∃ a, firstAnswer net (candidatePeers node publisher) = some a ∧
        a.ref = r ∧ (s.releases.get r = some a ∨ s.accepts a = true)) ∧
      (right → ∀ held, s.releases.get r = some held →
        held.payload.timestamp ≤ rel.payload.timestamp) := by
  intro r right
  rcases getOrFetch_ok h with ⟨hg, hc, hfinal⟩ | ⟨hnot, hfirst, hrel⟩
  · have hright : right := ⟨Table.key_of_get hg, by rw [hfinal]; exact hg⟩
    refine ⟨⟨fun _ => Or.inl ⟨rel, hg, hc⟩, fun _ => hright⟩, fun _ held hheld => ?_⟩
    obtain rfl := Option.some.inj (hg.symm.trans hheld)
    exact Nat.le_refl _
  · have hafter : rel.ref = r →
        ((getOrFetch node publisher name tag net).final s).releases.get r =
          if s.accepts rel then some rel else s.releases.get r := by
      rintro hr
      rw [hrel]
      split
      · rw [← hr, Table.get_put_self]
      · rfl
    refine ⟨⟨?_, ?_⟩, ?_⟩
    · rintro ⟨hr, hg⟩
      refine Or.inr ⟨rel, hfirst, hr, ?_⟩
      rw [hafter hr] at hg
      split at hg
      · exact Or.inr ‹_›
      · exact Or.inl hg
    · rintro (hheld | ⟨a, ha, hr, hkeep⟩)
      · exact absurd hheld hnot
      · obtain rfl := Option.some.inj (hfirst.symm.trans ha)
        refine ⟨hr, ?_⟩
        rw [hafter hr]
        rcases hkeep with hg | hacc
        · rw [hg, ite_self]
        · rw [if_pos hacc]
    · rintro ⟨hr, hg⟩ held hheld
      rw [hafter hr] at hg
      cases hacc : s.accepts rel with
      | true =>
          rw [Store.accepts, hr, hheld, Option.all_some] at hacc
          exact Release.le_of_supersedes hacc
      | false =>
          rw [hacc, if_neg Bool.false_ne_true, hheld] at hg
          cases hg
          exact Nat.le_refl _

end

/-- A pull answered honestly: the release returned is the one asked for, and is then held. -/
theorem getOrFetch_exact_iff_at :
    letI := sample
    let node : Node := Sample.node Policy.default
    let rel := Sample.release Sample.alice "app" "1.0" Sample.index 1000
    let pull := getOrFetch node Sample.alice.id "app" "1.0" fun _ => Sample.exchange rel
    rel.ref = ⟨Sample.alice.id, "app", "1.0"⟩ ∧
      (pull.final Store.empty).releases.get ⟨Sample.alice.id, "app", "1.0"⟩ = some rel := by
  let _ := sample
  intro node rel pull
  have h : pull.result Store.empty = .ok (some rel) := by decide +kernel
  have hanswer : firstAnswer (fun _ => Sample.exchange rel)
      (candidatePeers node Sample.alice.id) = some rel := by decide +kernel
  exact (getOrFetch_exact_iff h).1.mpr (Or.inr ⟨rel, hanswer, by decide +kernel, Or.inr rfl⟩)

/-- A pull of one publisher's image returns a release of another publisher, under another name and
another tag, and the image asked for is still not held. -/
theorem getOrFetch_returns_another_release :
    letI := sample
    let node : Node := Sample.node Policy.default
    let other := Sample.release Sample.mallory "evil" "9" Sample.index 1000
    let pull := getOrFetch node Sample.alice.id "app" "1.0" fun _ => Sample.exchange other
    other.verify = .ok () ∧ pull.result Store.empty = .ok (some other) ∧
      other.ref ≠ ⟨Sample.alice.id, "app", "1.0"⟩ ∧
      (pull.final Store.empty).releases.get ⟨Sample.alice.id, "app", "1.0"⟩ = none := by
  decide +kernel

end Ocid
