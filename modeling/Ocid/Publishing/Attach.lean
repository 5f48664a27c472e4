import Ocid.Daemon.Sample
import Ocid.Daemon.Publish
import Ocid.Lib.Runs

/-!
# Publishing — Attach — referrers attached at the same time

A call of `attachReferrer` reads the release list once, and then extends and puts one record after
the other.  Calls that run at the same time interleave at these steps (`Attachments.step`); what
one call alone does is `attachReferrer` (`run_alone`).

A call puts an extension of the record it has read.  If that record is still the one held, the
extension carries all that was carried before and the call's own referrer as well
(`tracked_step`).  If another call has put an extension in between, the put is dropped or takes the
other referrer away; and the extension of a record with the last timestamp is always dropped.
`run_attached_all` therefore asks that no put finds another record than the one its call has read,
nor one with the last timestamp.
-/

namespace Ocid

open Call

/-- How far a call has come: it has the records it has still to look at, and how many it has
updated; or it has returned. -/
inductive Progress where
  | running (left : List Release) (n : ℕ)
  | returned (answer : Except Err ℕ)

/-- The call has returned `Ok`. -/
def Progress.isOk : Progress → Bool
  | .returned (.ok _) => true
  | _ => false

/-- The record a call looks at next. -/
def Progress.next : Progress → Option Release
  | .running (rel :: _) _ => some rel
  | _ => none

/-- A call that has published a record goes on, or fails. -/
def Progress.published (rels : List Release) (n : ℕ) : Except Err Unit → Progress
  | .ok _ => .running rels (n + 1)
  | .error e => .returned (.error e)

/-- A call of `attachReferrer`. -/
structure Attaching where
  referrer : Referrer
  blobs : List BlobRef
  progress : Progress

/-- One step of one call of `attachReferrer`. -/
inductive AttachStep where
  /-- A new call reads the release list. -/
  | read (referrer : Referrer) (blobs : List BlobRef)
  /-- The `i`-th call goes on. -/
  | work (i : ℕ) (now : ℕ) (gossip : Release → Except Err Unit)

section
variable [External]

/-- The calls on one subject, and the store they share. -/
structure Attachments where
  store : Store
  calls : List Attaching

/-- What a call does next: it extends a record that needs its referrer, passes over another one,
and returns when there are none left. -/
def Attaching.work (node : Node) (subject : Digest) (now : ℕ) (gossip : Release → Except Err Unit)
    (c : Attaching) (s : Store) : Option (Progress × Store) :=
  match c.progress with
  | .running [] n => some (.returned (.ok n), s)
  | .running (rel :: rels) n =>
      if needsReferrer node subject c.referrer rel then
        let m := publish node gossip (attachedRelease node c.referrer c.blobs rel now)
        some (.published rels n (m.result s), m.final s)
      else some (.running rels n, s)
  | .returned _ => none

/-- What a step does. -/
def Attachments.step (node : Node) (subject : Digest) (s : Attachments) :
    AttachStep → Option Attachments
  | .read referrer blobs =>
      some { s with calls := s.calls ++ [⟨referrer, blobs, .running s.store.listReleases 0⟩] }
  | .work i now gossip => do
      let c ← s.calls[i]?
      let (progress, store) ← c.work node subject now gossip s.store
      some { store, calls := s.calls.set i { c with progress } }

/-- A step of a call, by what it does to the records. -/
theorem Attaching.work_cases {node : Node} {subject : Digest} {now : ℕ}
    {gossip : Release → Except Err Unit} {c : Attaching} {s t : Store} {p : Progress}
    (h : c.work node subject now gossip s = some (p, t)) :
    (∃ n, c.progress = .running [] n ∧ p = .returned (.ok n) ∧ t = s) ∨
    (∃ rel rels n, c.progress = .running (rel :: rels) n ∧
      needsReferrer node subject c.referrer rel = false ∧ p = .running rels n ∧ t = s) ∨
    ∃ rel rels n, c.progress = .running (rel :: rels) n ∧
      needsReferrer node subject c.referrer rel = true ∧
      ((p = .running rels (n + 1) ∧ t.releases =
          recorded s.releases (attachedRelease node c.referrer c.blobs rel now)) ∨
        (∃ e, p = .returned (.error e)) ∧ (t.releases = s.releases ∨ t.releases =
          recorded s.releases (attachedRelease node c.referrer c.blobs rel now))) := by
  rw [work] at h
  split at h
  · rename_i n hc
    cases h
    exact Or.inl ⟨n, hc, rfl, rfl⟩
  · rename_i rel rels n hc
    refine Or.inr ?_
    split at h
    · rename_i hneeds
      have hpublish := publish_triple node gossip
        (attachedRelease node c.referrer c.blobs rel now) s.releases
      refine Or.inr ⟨rel, rels, n, hc, hneeds, ?_⟩
      cases h
      cases hr : (publish node gossip (attachedRelease node c.referrer c.blobs rel now)).result s with
      | ok u => exact Or.inl ⟨rfl, (hpublish.ok rfl hr).1⟩
      | error e => exact Or.inr ⟨⟨e, rfl⟩, hpublish.final_cut rfl none⟩
    · rename_i hneeds
      cases h
      exact Or.inl ⟨rel, rels, n, hc, Bool.eq_false_iff.mpr hneeds, rfl, rfl⟩
  · cases h

theorem Attachments.step_work {node : Node} {subject : Digest} {s t : Attachments} {i now : ℕ}
    {gossip : Release → Except Err Unit}
    (h : s.step node subject (.work i now gossip) = some t) :
    ∃ c p, s.calls[i]? = some c ∧ c.work node subject now gossip s.store = some (p, t.store) ∧
      t.calls = s.calls.set i { c with progress := p } := by
  simp only [step, Option.bind_eq_bind, Option.bind_eq_some_iff] at h
  obtain ⟨c, hc, ⟨p, store⟩, hw, h⟩ := h
  cases h
  exact ⟨c, p, hc, hw, rfl⟩

/-! ### One call alone -/

/-- The steps of one call on the records `rels` are what `attachAll` does with them. -/
theorem run_attachAll (node : Node) (gossip : Release → Except Err Unit) (clock : ℕ → ℕ)
    (subject : Digest) (referrer : Referrer) (blobs : List BlobRef) (rels : List Release)
    (i n : ℕ) (s : Store) :
    ∃ steps, run (Attachments.step node subject) ⟨s, [⟨referrer, blobs, .running rels n⟩]⟩ steps =
      some ⟨(attachAll node gossip clock subject referrer blobs i rels).final s,
        [⟨referrer, blobs, .returned (((attachAll node gossip clock subject referrer blobs i
          rels).result s).map (n + ·))⟩]⟩ := by
  induction rels generalizing i n s with
  | nil => exact ⟨[.work 0 (clock i) gossip], rfl⟩
  | cons rel rels ih =>
      by_cases hneeds : needsReferrer node subject referrer rel = true
      · have hall : attachAll node gossip clock subject referrer blobs i (rel :: rels) = (do
            publish node gossip (attachedRelease node referrer blobs rel (clock i))
            let k ← attachAll node gossip clock subject referrer blobs (i + 1) rels
            pure (k + 1)) := by
          rw [attachAll, if_pos hneeds]
        have hwork : Attachments.step node subject ⟨s, [⟨referrer, blobs, .running (rel :: rels) n⟩]⟩
            (.work 0 (clock i) gossip) =
            some ⟨(publish node gossip (attachedRelease node referrer blobs rel (clock i))).final s,
              [⟨referrer, blobs, .published rels n ((publish node gossip
                (attachedRelease node referrer blobs rel (clock i))).result s)⟩]⟩ := by
          simp [Attachments.step, Attaching.work, hneeds]
        rw [hall]
        generalize publish node gossip (attachedRelease node referrer blobs rel (clock i)) = m at *
        cases hr : m.result s with
        | error e =>
            refine ⟨[.work 0 (clock i) gossip], ?_⟩
            rw [final_bind_of_error hr, result_bind_of_error hr]
            rw [hr] at hwork
            exact run_cons.mpr ⟨_, hwork, rfl⟩
        | ok u =>
            obtain ⟨steps, hsteps⟩ := ih (i + 1) (n + 1) (m.final s)
            refine ⟨.work 0 (clock i) gossip :: steps, run_cons.mpr ⟨_, hwork, ?_⟩⟩
            rw [final_bind_of_ok hr, result_bind_of_ok hr]
            generalize attachAll node gossip clock subject referrer blobs (i + 1) rels = m' at *
            rw [hr, Progress.published, hsteps]
            cases hr' : m'.result (m.final s) with
            | error e =>
                rw [final_bind_of_error hr', result_bind_of_error hr']
                rfl
            | ok k =>
                rw [final_bind_of_ok hr', result_bind_of_ok hr', final_pure, result_pure]
                have hn : n + 1 + k = n + (k + 1) := by omega
                simp only [Except.map, hn]
      · obtain ⟨steps, hsteps⟩ := ih (i + 1) n s
        refine ⟨.work 0 (clock i) gossip :: steps, run_cons.mpr ⟨_, ?_, hsteps.trans ?_⟩⟩
        · simp [Attachments.step, Attaching.work, hneeds]
        · rw [attachAll, if_neg hneeds]

/-- A call that runs alone does what `attachReferrer` does. -/
theorem run_alone (node : Node) (gossip : Release → Except Err Unit) (clock : ℕ → ℕ)
    (subject : Digest) (referrer : Referrer) (blobs : List BlobRef) (s : Store) :
    ∃ steps, run (Attachments.step node subject) ⟨s, []⟩ (.read referrer blobs :: steps) =
      some ⟨(attachReferrer node gossip clock subject referrer blobs).final s,
        [⟨referrer, blobs,
          .returned ((attachReferrer node gossip clock subject referrer blobs).result s)⟩]⟩ := by
  obtain ⟨steps, hsteps⟩ :=
    run_attachAll node gossip clock subject referrer blobs s.listReleases 0 0 s
  refine ⟨steps, run_cons.mpr ⟨_, rfl, hsteps.trans ?_⟩⟩
  have hmap : ∀ x : Except Err ℕ, x.map (0 + ·) = x := by
    intro x
    cases x <;> simp [Except.map]
  rw [hmap]
  rfl

/-! ### Records that only grow -/

/-- `e` is `rel`, perhaps with more attached to it. -/
def Grown (rel e : Release) : Prop :=
  e.publisher = rel.publisher ∧ e.payload.manifest.digest = rel.payload.manifest.digest ∧
    ∀ d bs, Carries rel d bs → Carries e d bs

omit [External] in
theorem Grown.refl (rel : Release) : Grown rel rel := ⟨rfl, rfl, fun _ _ h => h⟩

omit [External] in
theorem Grown.trans {a b c : Release} (h : Grown a b) (h' : Grown b c) : Grown a c :=
  ⟨h'.1.trans h.1, h'.2.1.trans h.2.1, fun d bs hd => h'.2.2 d bs (h.2.2 d bs hd)⟩

theorem grown_attachedRelease {node : Node} {referrer : Referrer} {blobs : List BlobRef}
    {rel : Release} (hown : rel.publisher = node.id) (now : ℕ) :
    Grown rel (attachedRelease node referrer blobs rel now) := by
  refine ⟨?_, by rw [attachedRelease_manifest], fun d bs h => h.attach now⟩
  rw [hown, Release.publisher, attachedRelease_payload]

/-- `u` has the records of `t`, grown. -/
def Grows (t u : Table Release.ref) : Prop :=
  (∀ r e, t.get r = some e → ∃ e', u.get r = some e' ∧ Grown e e') ∧
    ∀ r e', u.get r = some e' → ∃ e, t.get r = some e ∧ Grown e e'

omit [External] in
theorem Grows.refl (t : Table Release.ref) : Grows t t :=
  ⟨fun _ e he => ⟨e, he, Grown.refl e⟩, fun _ e he => ⟨e, he, Grown.refl e⟩⟩

omit [External] in
/-- The records grow when one that is held is put with more attached to it. -/
theorem Grows.put {t : Table Release.ref} {rel x : Release} (hrel : t.get rel.ref = some rel)
    (hx : x.ref = rel.ref) (hgrown : Grown rel x) : Grows t (t.put x) := by
  constructor
  · intro r e he
    by_cases hr : x.ref = r
    · refine ⟨x, by rw [Table.get_put, if_pos hr], ?_⟩
      rw [← hr, hx, hrel] at he
      cases he
      exact hgrown
    · exact ⟨e, by rw [Table.get_put, if_neg hr]; exact he, Grown.refl e⟩
  · intro r e' he'
    rw [Table.get_put] at he'
    split at he'
    · rename_i hr
      cases he'
      exact ⟨rel, by rw [← hr, hx]; exact hrel, hgrown⟩
    · exact ⟨e', he', Grown.refl e'⟩

/-- The records a call has still to look at: it has read each of them, and holds it or a grown one;
and what it has not to look at any more carries its referrer. -/
def Attaching.Tracks (node : Node) (subject : Digest) (c : Attaching) (t : Table Release.ref)
    (left : List Release) : Prop :=
  (∀ rel ∈ left, ∃ e, t.get rel.ref = some e ∧ Grown rel e) ∧
    ∀ r e, t.get r = some e → e.publisher = node.id → e.payload.manifest.digest = subject →
      Carries e c.referrer.digest c.blobs ∨ ∃ rel ∈ left, rel.ref = r

/-- The records a call that has not failed has still to look at. -/
def Progress.left : Progress → Option (List Release)
  | .running left _ => some left
  | .returned (.ok _) => some []
  | .returned (.error _) => none

/-- Every running call has seen the records it has still to look at. -/
def Tracked (node : Node) (subject : Digest) (s : Attachments) : Prop :=
  ∀ c ∈ s.calls, ∀ left, c.progress.left = some left →
    c.Tracks node subject s.store.releases left

/-- Of the record a call looks at next: if it puts an extension of it, the record is still held, and
there is a later timestamp; and if it passes it over because it lists the referrer already, the
referrer's blobs are there. -/
def Attaching.Undisturbed (node : Node) (subject : Digest) (c : Attaching)
    (t : Table Release.ref) : Prop :=
  ∀ rel ∈ c.progress.next,
    (needsReferrer node subject c.referrer rel = true → t.get rel.ref = some rel ∧ rel.HasLater) ∧
    (rel.publisher = node.id ∧ rel.payload.manifest.digest = subject ∧
      (∃ l ∈ rel.payload.referrers, l.digest = c.referrer.digest) →
        Carries rel c.referrer.digest c.blobs)

instance (node : Node) (subject : Digest) (c : Attaching) (t : Table Release.ref) :
    Decidable (c.Undisturbed node subject t) :=
  inferInstanceAs (Decidable (∀ rel ∈ c.progress.next,
    (needsReferrer node subject c.referrer rel = true → t.get rel.ref = some rel ∧ rel.HasLater) ∧
    (rel.publisher = node.id ∧ rel.payload.manifest.digest = subject ∧
      (∃ l ∈ rel.payload.referrers, l.digest = c.referrer.digest) →
        Carries rel c.referrer.digest c.blobs)))

/-- Every put finds the record its call has read, and replaces it. -/
def Undisturbed (node : Node) (subject : Digest) (s : Attachments) : AttachStep → Prop
  | .read _ _ => True
  | .work i _ _ => ∀ c ∈ s.calls[i]?, c.Undisturbed node subject s.store.releases

instance (node : Node) (subject : Digest) (s : Attachments) :
    ∀ a, Decidable (Undisturbed node subject s a)
  | .read _ _ => isTrue trivial
  | .work i _ _ => inferInstanceAs
      (Decidable (∀ c ∈ s.calls[i]?, c.Undisturbed node subject s.store.releases))

section
variable {node : Node} {subject : Digest} {c : Attaching} {t u : Table Release.ref}
  {left : List Release}

/-- When the records have grown, a call still tracks them. -/
theorem Attaching.Tracks.grow (h : c.Tracks node subject t left)
    (hgrows : Grows t u) : c.Tracks node subject u left := by
  refine ⟨fun rel hrel => ?_, fun r e' he' hown hd => ?_⟩
  · obtain ⟨e, he, hgrown⟩ := h.1 rel hrel
    obtain ⟨e', he', hgrown'⟩ := hgrows.1 _ e he
    exact ⟨e', he', hgrown.trans hgrown'⟩
  · obtain ⟨e, he, hgrown⟩ := hgrows.2 r e' he'
    rcases h.2 r e he (hgrown.1 ▸ hown) (hgrown.2.1 ▸ hd) with hcarries | hleft
    · exact Or.inl (hgrown.2.2 _ _ hcarries)
    · exact Or.inr hleft

/-- A record that is passed over carries the referrer, or is none of the subject's. -/
theorem Attaching.Tracks.skip {rel : Release} {rels : List Release}
    (h : c.Tracks node subject t (rel :: rels))
    (hneeds : needsReferrer node subject c.referrer rel = false)
    (hlisted : rel.publisher = node.id ∧ rel.payload.manifest.digest = subject ∧
      (∃ l ∈ rel.payload.referrers, l.digest = c.referrer.digest) →
        Carries rel c.referrer.digest c.blobs) :
    c.Tracks node subject t rels := by
  refine ⟨fun r hr => h.1 r (List.mem_cons_of_mem _ hr), fun r e he hown hd => ?_⟩
  rcases h.2 r e he hown hd with hcarries | ⟨x, hx, hxr⟩
  · exact Or.inl hcarries
  · rcases List.mem_cons.mp hx with rfl | hx
    · obtain ⟨e', he', hgrown⟩ := h.1 x List.mem_cons_self
      rw [hxr, he] at he'
      cases he'
      have hown' : x.publisher = node.id := hgrown.1 ▸ hown
      have hd' : x.payload.manifest.digest = subject := hgrown.2.1 ▸ hd
      refine Or.inl (hgrown.2.2 _ _ (hlisted ⟨hown', hd', ?_⟩))
      by_contra hno
      rw [needsReferrer_iff.mpr ⟨hown', hd', fun l hl hld => hno ⟨l, hl, hld⟩⟩] at hneeds
      cases hneeds
    · exact Or.inr ⟨x, hx, hxr⟩

/-- A record that is extended carries the referrer. -/
theorem Attaching.Tracks.extend {rel x : Release} {rels : List Release}
    (h : c.Tracks node subject t (rel :: rels)) (hrel : t.get rel.ref = some rel)
    (hx : x.ref = rel.ref) (hgrown : Grown rel x) (hcarries : Carries x c.referrer.digest c.blobs) :
    c.Tracks node subject (t.put x) rels := by
  have hall := h.grow (Grows.put hrel hx hgrown)
  refine ⟨fun r hr => hall.1 r (List.mem_cons_of_mem _ hr), fun r e he hown hd => ?_⟩
  rcases hall.2 r e he hown hd with hcarries' | ⟨y, hy, hyr⟩
  · exact Or.inl hcarries'
  · rcases List.mem_cons.mp hy with rfl | hy
    · rw [← hyr, ← hx, Table.get_put_self] at he
      cases he
      exact Or.inl hcarries
    · exact Or.inr ⟨y, hy, hyr⟩

end

/-- Every step that is undisturbed keeps all calls tracked. -/
theorem tracked_step {node : Node} {subject : Digest} {s t : Attachments} {a : AttachStep}
    (hs : Tracked node subject s) (ha : Undisturbed node subject s a)
    (hstep : s.step node subject a = some t) : Tracked node subject t := by
  cases a with
  | read referrer blobs =>
      cases hstep
      intro c hc left hleft
      rcases List.mem_append.mp hc with hc | hc
      · exact hs c hc left hleft
      · obtain rfl := List.mem_singleton.mp hc
        cases hleft
        refine ⟨fun rel hrel => ⟨rel, Store.mem_listReleases.mp hrel, Grown.refl rel⟩, ?_⟩
        intro r e he _ _
        obtain rfl := Table.key_of_get he
        exact Or.inr ⟨e, Store.mem_listReleases.mpr he, rfl⟩
  | work i now gossip =>
      obtain ⟨c, p, hc, hwork, hcalls⟩ := Attachments.step_work hstep
      have hmem := List.mem_of_getElem? hc
      have hundisturbed := ha c hc
      -- the call that works is shown to track what it leaves, the others that the records grew
      have key : Grows s.store.releases t.store.releases →
          (∀ left, p.left = some left → c.Tracks node subject t.store.releases left) →
          Tracked node subject t := by
        intro hgrows hown d hd left hleft
        rw [hcalls] at hd
        rcases List.mem_or_eq_of_mem_set hd with hd | rfl
        · exact (hs d hd left hleft).grow hgrows
        · exact hown left hleft
      rcases Attaching.work_cases hwork with ⟨n, hp, rfl, ht⟩ | ⟨rel, rels, n, hp, hneeds, rfl, ht⟩ |
        ⟨rel, rels, n, hp, hneeds, hout⟩
      · rw [ht] at key
        refine key (Grows.refl _) fun left hleft => ?_
        cases hleft
        exact hs c hmem [] (by rw [hp]; rfl)
      · rw [ht] at key
        refine key (Grows.refl _) fun left hleft => ?_
        cases hleft
        have htracks := hs c hmem (rel :: rels) (by rw [hp]; rfl)
        exact htracks.skip hneeds (hundisturbed rel (by rw [hp]; rfl)).2
      · have htracks := hs c hmem (rel :: rels) (by rw [hp]; rfl)
        obtain ⟨hrel, hlater⟩ := (hundisturbed rel (by rw [hp]; rfl)).1 hneeds
        obtain ⟨hown, -, -⟩ := needsReferrer_iff.mp hneeds
        have href : (attachedRelease node c.referrer c.blobs rel now).ref = rel.ref :=
          attachedRelease_ref hown now
        have hgrown : Grown rel (attachedRelease node c.referrer c.blobs rel now) :=
          grown_attachedRelease hown now
        have hput := recorded_of_supersedes (href.symm ▸ hrel)
          (attachedRelease_supersedes hlater now :
            (attachedRelease node c.referrer c.blobs rel now).supersedes rel = true)
        have hgrows := Grows.put hrel href hgrown
        rw [hput] at hout
        rcases hout with ⟨rfl, ht⟩ | ⟨⟨e, rfl⟩, ht | ht⟩
        · rw [ht] at key
          refine key hgrows fun left hleft => ?_
          cases hleft
          exact htracks.extend hrel href hgrown (carries_attachedRelease now)
        · rw [ht] at key
          exact key (Grows.refl _) fun left hleft => by cases hleft
        · rw [ht] at key
          exact key hgrows fun left hleft => by cases hleft

/-- When all calls have returned `Ok`, every own release of the subject carries every one of their
referrers. -/
def AttachedAll (node : Node) (subject : Digest) (s : Attachments) : Prop :=
  (∀ c ∈ s.calls, c.progress.isOk = true) →
    ∀ rel ∈ s.store.releases.rows, rel.publisher = node.id →
      rel.payload.manifest.digest = subject →
        ∀ c ∈ s.calls, Carries rel c.referrer.digest c.blobs

instance (node : Node) (subject : Digest) (s : Attachments) :
    Decidable (AttachedAll node subject s) :=
  inferInstanceAs (Decidable ((∀ c ∈ s.calls, c.progress.isOk = true) →
    ∀ rel ∈ s.store.releases.rows, rel.publisher = node.id →
      rel.payload.manifest.digest = subject →
        ∀ c ∈ s.calls, Carries rel c.referrer.digest c.blobs))

/-- **The attached referrers.**  In every interleaving whose puts find the records their calls have
read, none of them with the last timestamp, once all calls have returned `Ok` no referrer is lost. -/
theorem run_attached_all {node : Node} {subject : Digest} {store : Store}
    {steps : List AttachStep}
    (h : Meets (Attachments.step node subject) (Undisturbed node subject) ⟨store, []⟩ steps) :
    Throughout (Attachments.step node subject) (AttachedAll node subject) ⟨store, []⟩ steps := by
  refine (throughout_of_meets (fun s a t hs ha ht => tracked_step hs ha ht)
    (fun c hc => by cases hc) h).mono fun s hs hok rel hrel hown hd c hc => ?_
  have hleft : c.progress.left = some [] := by
    have := hok c hc
    unfold Progress.isOk at this
    split at this
    · rename_i n hn
      rw [hn]
      rfl
    · cases this
  rcases (hs c hc [] hleft).2 rel.ref rel (Table.get_of_mem hrel) hown hd with hcarries | ⟨x, hx, -⟩
  · exact hcarries
  · cases hx

end

namespace Sample

/-- A referrer with the digest of some content. -/
def signature (c : Content) : Referrer := ⟨c.digest, mtOciIndex, c.bytes.length, none, []⟩

/-- A store with one release of the node's. -/
def ownStore : @Store sample :=
  letI := sample
  { Store.empty with releases := Table.empty.put (release bob "app" "1.0" index 5) }

end Sample

/-- Two calls, the second of which reads after the first has put. -/
theorem run_attached_all_at : letI := sample
    let node := Sample.node Policy.default
    Throughout (Attachments.step node Sample.index.digest)
      (AttachedAll node Sample.index.digest) ⟨Sample.ownStore, []⟩
      [.read (Sample.signature Sample.image) [Sample.image.blob none], .work 0 5 fun _ => .ok (),
        .read (Sample.signature Sample.index2) [Sample.index2.blob none],
        .work 1 5 fun _ => .ok (), .work 0 5 fun _ => .ok (), .work 1 5 fun _ => .ok ()] :=
  @run_attached_all sample (Sample.node Policy.default) Sample.index.digest Sample.ownStore _
    (by
      simp only [Sample.ownStore, Sample.signature, Sample.Content.blob, Sample.image_bytes]
      rw [Sample.sample_eq_prepared]
      decide +kernel)

/-- Two calls that have both read the release before either of them puts it: both return `Ok`, and
the second referrer is lost. -/
theorem attach_loses_referrer : letI := sample
    let node := Sample.node Policy.default
    ¬ Throughout (Attachments.step node Sample.index.digest)
      (AttachedAll node Sample.index.digest) ⟨Sample.ownStore, []⟩
      [.read (Sample.signature Sample.image) [Sample.image.blob none],
        .read (Sample.signature Sample.index2) [Sample.index2.blob none],
        .work 0 5 fun _ => .ok (), .work 1 5 fun _ => .ok (), .work 0 5 fun _ => .ok (),
        .work 1 5 fun _ => .ok ()] := by
  simp only [Sample.ownStore, Sample.signature, Sample.Content.blob, Sample.image_bytes]
  rw [Sample.sample_eq_prepared]
  decide +kernel

end Ocid
