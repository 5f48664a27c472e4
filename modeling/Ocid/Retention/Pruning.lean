import Ocid.Daemon.Collect
import Ocid.Replication.Arrivals
import Ocid.Retention.World

/-!
# Retention — Pruning — what is removed while the policy changes

`enforceWindow` reads the policy, waits for the lock of the collector, and removes the records of
one image that are outside the window it read; `gc` takes the lock first.  The policy may be
replaced at any time in between.

`prune_spec` says exactly which records one call removes, by the policy it read.  In a run of calls,
fetches and policy changes, no record is removed that the policy in force retains, exactly when
every call removes only what that policy would let it remove (`run_retains_iff`).
-/

namespace Ocid

open Call Windows

section
variable [External] {node : Node} {policy : Policy} {s : Store}

/-! ### What a collection leaves -/

theorem emits_removeRelease {P : Write → Prop} (hP : ∀ r, P (.dropRelease r))
    (publisher : PublisherId) (name tag : Str) : Emits P (removeRelease publisher name tag) :=
  (Emits.ofExcept _).bind fun _ => Emits.read.bind fun _ =>
    Emits.ite (fun _ => (Emits.write (hP _)).bind fun _ => Emits.pure _) fun _ => Emits.pure _

theorem emits_collectReleases {P : Write → Prop} (hP : ∀ r, P (.dropRelease r)) (req : GcReq)
    (keep : List Str) (young : Release → Bool) (rs : List Release) :
    Emits P (collectReleases req keep young rs) := by
  induction rs with
  | nil => exact Emits.pure _
  | cons r rs ih =>
      refine Emits.ite (fun _ => ih) fun _ => Emits.bind ?_ fun _ => ih.bind fun _ => Emits.pure _
      exact Emits.ite (fun _ => Emits.pure _) fun _ =>
        (emits_removeRelease hP _ _ _).bind fun _ => Emits.pure _

theorem emits_pruneReferrers {P : Write → Prop} (hP : ∀ d d', P (.dropReferrer d d')) :
    Emits P pruneReferrers := by
  have hdrop : ∀ ps, Emits P (dropReferrers ps) := by
    intro ps
    induction ps with
    | nil => exact Emits.pure _
    | cons p ps ih => exact (Emits.write (hP _ _)).bind fun _ => ih
  exact Emits.read.bind fun _ => (hdrop _).bind fun _ => Emits.pure _

theorem emits_collectReferrers {P : Write → Prop} (hP : ∀ d d', P (.dropReferrer d d'))
    (req : GcReq) : Emits P (collectReferrers req : Op Unit) :=
  Emits.ite (fun _ => Emits.pure _) fun _ =>
    (emits_pruneReferrers hP).bind fun _ => Emits.pure _

/-- A collection writes no record. -/
theorem emits_gc (node : Node) (req : GcReq) (young : Release → Bool) :
    Emits (fun w => ∀ rel, w ≠ .release rel) (gc node req young) := by
  refine Emits.read.bind fun _ => (emits_collectReleases (fun _ _ h => by cases h) _ _ _ _).bind
    fun _ => Emits.bind ?_ fun _ => Emits.bind ?_ fun _ => Emits.pure _
  · exact emits_sweepBlobsLocked (fun _ _ h => by cases h) (fun _ _ h => by cases h) _ _
  · exact emits_collectReferrers (fun _ _ _ h => by cases h) req

theorem returns_collectReferrers (req : GcReq) : Returns (collectReferrers req : Op Unit) := by
  have hdrop : ∀ ps, Returns (dropReferrers ps : Op Unit) := by
    intro ps
    induction ps with
    | nil => exact Returns.pure _
    | cons p ps ih => exact (Returns.write _).bind fun _ => ih
  exact Returns.ite (Returns.pure _) ((Returns.read.bind fun _ => (hdrop _).bind fun _ =>
    Returns.pure _).bind fun _ => Returns.pure _)

theorem returns_removeRelease {publisher : PublisherId} {name tag : Str}
    (hn : validateName name = .ok ()) (ht : validateTag tag = .ok ()) (s : Store) :
    ∃ b, (removeRelease publisher name tag).result s = .ok b := by
  rw [result, removeRelease_apply hn ht]
  split
  · exact ⟨true, rfl⟩
  · exact ⟨false, rfl⟩

/-- The record is removed, but for a dry run. -/
theorem collectRelease_spec (req : GcReq) {rel : Release} (hn : validateName rel.name = .ok ())
    (ht : validateTag rel.payload.tag = .ok ()) (s : Store) :
    (collectRelease req rel).result s = .ok () ∧
      ∀ q, ((collectRelease req rel).final s).releases.get q =
        if req.dryRun = false ∧ q = rel.ref then none else s.releases.get q := by
  rw [collectRelease]
  cases req.dryRun with
  | true => exact ⟨rfl, fun q => (if_neg (by simp)).symm⟩
  | false =>
      obtain ⟨b, hb⟩ := returns_removeRelease hn ht s
      refine ⟨result_bind_ok.mpr ⟨b, hb, rfl⟩, fun q => ?_⟩
      simp only [Bool.false_eq_true, if_false, true_and]
      rw [final_bind_of_ok hb, final_pure, get_removeRelease hn ht]
      rfl

/-- What is collected: the records listed that are not spared. -/
theorem collectReleases_spec (req : GcReq) (keep : List Str) (young : Release → Bool)
    {rs : List Release} (hrs : ∀ rel ∈ rs, validateName rel.name = .ok () ∧
      validateTag rel.payload.tag = .ok ()) (s : Store) :
    (∃ removed, (collectReleases req keep young rs).result s = .ok removed) ∧
      ∀ q, ((collectReleases req keep young rs).final s).releases.get q =
        if ∃ rel ∈ rs, req.spares keep young rel = false ∧ req.dryRun = false ∧ q = rel.ref then none
        else s.releases.get q := by
  induction rs generalizing s with
  | nil => exact ⟨⟨[], rfl⟩, fun q => (if_neg (by simp)).symm⟩
  | cons rel rs ih =>
      have ih' := ih fun r hr => hrs r (List.mem_cons_of_mem _ hr)
      obtain ⟨hn, ht⟩ := hrs rel List.mem_cons_self
      rw [collectReleases]
      by_cases hspared : req.spares keep young rel = true
      · rw [if_pos hspared]
        refine ⟨(ih' s).1, fun q => ?_⟩
        rw [(ih' s).2 q]
        simp [hspared]
      · rw [if_neg hspared]
        obtain ⟨hfirst, hget⟩ := collectRelease_spec req hn ht s
        obtain ⟨⟨removed, hremoved⟩, hrest⟩ := ih' ((collectRelease req rel).final s)
        refine ⟨⟨_, result_bind_ok.mpr ⟨(), hfirst, result_bind_ok.mpr ⟨removed, hremoved, rfl⟩⟩⟩,
          fun q => ?_⟩
        rw [final_bind_of_ok hfirst, final_bind_of_ok hremoved, final_pure, hrest, hget]
        have hspared' := Bool.eq_false_of_not_eq_true hspared
        by_cases hq : req.dryRun = false ∧ q = rel.ref
        · simp [hq, hspared']
        · by_cases hq' : q = rel.ref
          · have hdry : req.dryRun = true := by simpa [hq'] using hq
            simp [hdry]
          · simp [hq']

/-- A collection removes exactly the records that are not spared. -/
theorem get_gc (hs : s.Named) (req : GcReq) (young : Release → Bool) (q : Ref) :
    ((gc node req young).final s).releases.get q =
      if ∃ rel ∈ s.releases.rows, req.spares (retainedSet node node.policy s.listReleases) young rel =
        false ∧ req.dryRun = false ∧ q = rel.ref then none else s.releases.get q := by
  have hvalid : ∀ rel ∈ s.listReleases, validateName rel.name = .ok () ∧
      validateTag rel.payload.tag = .ok () := fun rel hrel =>
    hs _ _ (Store.mem_listReleases.mp hrel)
  have hrows : ∀ rel, rel ∈ s.listReleases ↔ rel ∈ s.releases.rows := fun rel =>
    List.mem_insertionSort _
  obtain ⟨⟨removed, hremoved⟩, hget⟩ := collectReleases_spec req
    (retainedSet node node.policy s.listReleases) young hvalid s
  -- what follows touches no record
  obtain ⟨counts, hcounts⟩ := returns_sweepBlobsLocked req.dryRun removed
    ((collectReleases req (retainedSet node node.policy s.listReleases) young
      s.listReleases).final s)
  have hreferrers : ∀ t : Store, ((collectReferrers req).final t).releases = t.releases := fun t =>
    releases_final (emits_collectReferrers (fun _ _ => by simp [Write.part]) req)
  obtain ⟨u, hu⟩ := returns_collectReferrers req ((sweepBlobsLocked req.dryRun removed).final
    ((collectReleases req (retainedSet node node.policy s.listReleases) young
      s.listReleases).final s))
  have hread : (read : Op Store).result s = .ok s := rfl
  rw [gc, final_bind_of_ok hread, final_read, final_bind_of_ok hremoved, final_bind_of_ok hcounts,
    final_bind_of_ok hu, final_pure, hreferrers, releases_sweepBlobsLocked, hget]
  simp only [hrows]

/-! ### What one call removes -/

/-- The policy selects the tag of the records held of its image. -/
def Store.Selected (s : Store) (policy : Policy) (q : Ref) : Prop :=
  q.tag ∈ (policy.window q.publisher q.name).select (tagTimes (s.localReleases q.publisher q.name))

instance (policy : Policy) (q : Ref) : Decidable (s.Selected policy q) :=
  inferInstanceAs (Decidable (_ ∈ _))

/-- The policy pins the release. -/
def Policy.Pins (policy : Policy) (q : Ref) : Prop :=
  ∃ rule ∈ policy.pins, rule.publisher = q.publisher ∧ rule.name = q.name ∧ rule.tag = some q.tag

instance (policy : Policy) (q : Ref) : Decidable (policy.Pins q) :=
  inferInstanceAs (Decidable (∃ rule ∈ policy.pins, _))

omit [External] in
/-- The tags of pins are in the window, whatever else is. -/
theorem mem_tags_foldl_pinWindow {rules : List SeedRule} {w : Window} {t : Str}
    (h : t ∈ w.tags ∨ ∃ rule ∈ rules, rule.tag = some t) :
    t ∈ (rules.foldl Policy.pinWindow w).tags := by
  induction rules generalizing w with
  | nil => simpa using h
  | cons rule rules ih =>
      refine ih ?_
      rcases h with h | ⟨r, hr, htag⟩
      · refine Or.inl ?_
        rw [Policy.pinWindow]
        split
        · exact List.mem_insert_of_mem h
        · exact h
      · rcases List.mem_cons.mp hr with rfl | hr
        · refine Or.inl ?_
          rw [Policy.pinWindow, htag]
          exact List.mem_insert_self
        · exact Or.inr ⟨r, hr, htag⟩

/-- What is pinned is selected. -/
theorem selected_of_pins {q : Ref} (h : policy.Pins q) : s.Selected policy q := by
  obtain ⟨rule, hrule, hp, hn, htag⟩ := h
  have htags : q.tag ∈ (policy.window q.publisher q.name).tags :=
    mem_tags_foldl_pinWindow (Or.inr ⟨rule, List.mem_filter.mpr
      ⟨hrule, decide_eq_true ⟨hp, hn⟩⟩, htag⟩)
  simp only [Store.Selected, Window.select]
  split
  · exact List.mem_append_left _ htags
  · split
    · exact List.mem_append_left _ htags
    · exact htags

/-- Of the records held, those are selected that are inside the window. -/
theorem selected_iff_inside (hs : s.Named) {rel : Release} (hrel : rel ∈ s.releases.rows) :
    s.Selected policy rel.ref ↔ (rel.payload.tag, rel.payload.timestamp) ∈
      (policy.window rel.publisher rel.name).inside (s.held rel.publisher rel.name) := by
  have hget := Table.get_of_mem hrel
  exact mem_select_local_iff (localReleases_ok hs (hs _ _ hget).1)
    (x := (rel.payload.tag, rel.payload.timestamp)) ⟨rel, hget, rfl⟩

/-- The records listed of an image give each version held of it, once. -/
theorem tagTimes_listReleases (s : Store) (publisher : PublisherId) (name : Str) :
    ((tagTimes (s.listReleases.filter fun r =>
        (r.publisher, r.name) = (publisher, name))).map Prod.fst).Nodup ∧
      {x | x ∈ tagTimes (s.listReleases.filter fun r =>
        (r.publisher, r.name) = (publisher, name))} = s.held publisher name := by
  have himage : ∀ rel, (rel ∈ s.listReleases.filter fun r =>
      (r.publisher, r.name) = (publisher, name)) ↔
        s.releases.get ⟨publisher, name, rel.payload.tag⟩ = some rel := by
    intro rel
    rw [List.mem_filter, Store.mem_listReleases, decide_eq_true_eq]
    constructor
    · rintro ⟨hget, hkey⟩
      rw [← hget]
      exact congrArg _ (congrArg₂ (fun p n => (⟨p, n, rel.payload.tag⟩ : Ref))
        (congrArg Prod.fst hkey) (congrArg Prod.snd hkey)).symm
    · intro hget
      have hkey := Table.key_of_get hget
      refine ⟨hkey ▸ hget, Prod.ext ?_ ?_⟩
      · exact congrArg Ref.publisher hkey
      · exact congrArg Ref.name hkey
  refine ⟨?_, ?_⟩
  · rw [tagTimes, List.map_map]
    have hrows : s.listReleases.Nodup :=
      (List.perm_insertionSort _ _).nodup_iff.mpr (List.Nodup.of_map _ s.releases.nodup)
    refine (hrows.filter _).map_on fun x hx y hy hxy => ?_
    have hxy' : x.payload.tag = y.payload.tag := hxy
    have hx := (himage x).mp hx
    rw [hxy', (himage y).mp hy] at hx
    exact (Option.some.inj hx).symm
  · ext x
    simp only [Set.mem_ofPred_eq, tagTimes, List.mem_map, himage]
    constructor
    · rintro ⟨rel, hget, rfl⟩
      exact ⟨rel, hget, rfl⟩
    · rintro ⟨rel, hget, ht⟩
      have htag : rel.payload.tag = x.1 := congrArg Ref.tag (Table.key_of_get hget)
      exact ⟨rel, htag ▸ hget, Prod.ext htag ht⟩

/-- A collection keeps the node's own records, and those that the policy selects. -/
theorem reference_mem_retainedSet_iff (hs : s.Named) {rel : Release}
    (hrel : rel ∈ s.releases.rows) :
    rel.reference ∈ retainedSet node policy s.listReleases ↔
      rel.publisher = node.id ∨ s.Selected policy rel.ref := by
  have hget := Table.get_of_mem hrel
  obtain ⟨hnodup, hheld⟩ := tagTimes_listReleases s rel.publisher rel.name
  rw [reference_mem_retainedSet (fun r hr => (hs _ _ (Store.mem_listReleases.mp hr)).1)
    (Store.mem_listReleases.mpr hget), selected_iff_inside hs hrel, ← hheld]
  have hin : (rel.payload.tag, rel.payload.timestamp) ∈ {x | x ∈ tagTimes
      (s.listReleases.filter fun r => (r.publisher, r.name) = (rel.publisher, rel.name))} := by
    rw [hheld]
    exact ⟨rel, hget, rfl⟩
  exact or_congr_right (Window.mem_select_iff_inside hnodup hin)

/-- A collection does not spare the records of other publishers that the policy does not select, but
for the young ones. -/
theorem spares_eq_false_iff (node : Node) (hs : s.Named) {rel : Release} (hrel : rel ∈ s.releases.rows)
    (req : GcReq) (young : Release → Bool) :
    req.spares (retainedSet node node.policy s.listReleases) young rel = false ↔
      (rel.publisher ≠ node.id ∧ ¬ s.Selected node.policy rel.ref) ∧
        (req.force = true ∨ young rel = false) := by
  rw [GcReq.spares, Bool.or_eq_false_iff, decide_eq_false_iff_not,
    reference_mem_retainedSet_iff hs hrel, not_or, Bool.and_eq_false_iff]
  simp

/-- A call that removes records: the window of an image, or a collection. -/
inductive PruneCall where
  | window (publisher : PublisherId) (name : Str)
  | collect (req : GcReq)

namespace PruneCall

/-- What the call does once it has the lock, by the policy it read. -/
def op (node : Node) (policy : Policy) (young : Release → Bool) : PruneCall → Op Unit
  | .window publisher name => enforceWindow { node with policy } publisher name
  | .collect req => do
      let _ ← gc { node with policy } req young
      pure ()

/-- The call looks at the record, and removes it unless the policy it read retains it. -/
def Reaches (policy : Policy) (young : Release → Bool) (rel : Release) : PruneCall → Prop
  | .window publisher name => (rel.publisher = publisher ∧ rel.name = name) ∧
      (policy.window publisher name).isEmpty = false
  | .collect req => req.dryRun = false ∧ (req.force = true ∨ young rel = false)

instance (policy : Policy) (young : Release → Bool) (rel : Release) (call : PruneCall) :
    Decidable (call.Reaches policy young rel) := by
  cases call <;> unfold Reaches <;> infer_instance

theorem emits_op (call : PruneCall) (young : Release → Bool) :
    Emits (fun w => ∀ rel, w ≠ .release rel) (call.op node policy young) := by
  cases call with
  | window publisher name => exact emits_enforceWindow _ _ _
  | collect req => exact (emits_gc _ _ _).bind fun _ => Emits.pure _

end PruneCall

/-- Enforcing the window of an image removes no record of another. -/
theorem get_enforceWindow_of_image (hs : s.Named) {publisher : PublisherId} {name : Str} {q : Ref}
    (hq : ¬ (q.publisher = publisher ∧ q.name = name)) :
    ((enforceWindow node publisher name).final s).releases.get q = s.releases.get q := by
  by_cases hown : publisher = node.id
  · simp [enforceWindow, hown]
  · cases hn : validateName name with
    | ok u => exact get_enforceWindow_of_ne hown hs hn hq
    | error e =>
        have hfail : (localReleasesOf publisher name).result s = .error e := by
          rw [localReleasesOf, listTags, hn]
          rfl
        cases hw : (node.policy.window publisher name).isEmpty with
        | true => simp [enforceWindow, hown, hw]
        | false =>
            simp only [enforceWindow, hown, hw, if_false, Bool.false_eq_true]
            rw [final_bind_of_error hfail,
              (final_of_emits_false (emits_localReleasesOf publisher name) s).2]

/-- Of the image itself it removes the records outside the window, unless the node left it alone. -/
theorem get_enforceWindow_eq_none (hs : s.Named) {rel : Release} (hrel : rel ∈ s.releases.rows) :
    ((enforceWindow node rel.publisher rel.name).final s).releases.get rel.ref = none ↔
      (node.policy.window rel.publisher rel.name).isEmpty = false ∧ rel.publisher ≠ node.id ∧
        ¬ s.Selected node.policy rel.ref := by
  have hget := Table.get_of_mem hrel
  by_cases hown : rel.publisher = node.id
  · simp [enforceWindow, hown, hget]
  · cases hw : (node.policy.window rel.publisher rel.name).isEmpty with
    | true => simp [enforceWindow, hw, hget]
    | false =>
        obtain ⟨-, hheld, hkeep⟩ := enforceWindow_spec hown hw hs (hs _ _ hget).1
        rw [selected_iff_inside hs hrel]
        constructor
        · intro hnone
          refine ⟨rfl, hown, fun hin => ?_⟩
          rw [hkeep rel.ref (Or.inr fun r hr => ?_)] at hnone
          · cases hget.symm.trans hnone
          · cases hget.symm.trans hr
            exact hin
        · rintro ⟨-, -, hout⟩
          rw [← hheld] at hout
          cases hfinal : ((enforceWindow node rel.publisher rel.name).final s).releases.get rel.ref with
          | none => rfl
          | some r =>
              -- a record that stays is the one that was held
              rcases written_of_get_final hfinal with h | ⟨-, hw⟩
              · cases hget.symm.trans h
                exact absurd ⟨rel, hfinal, rfl⟩ hout
              · exact absurd rfl (emits_enforceWindow node _ _ s _ hw r)

/-- **What a call removes**: of the records it looks at, those of other publishers that the policy
it read does not select. -/
theorem prune_spec (hs : s.Named) (call : PruneCall) (young : Release → Bool) {rel : Release}
    (hrel : rel ∈ s.releases.rows) :
    ((call.op node policy young).final s).releases.get rel.ref = none ↔
      call.Reaches policy young rel ∧ rel.publisher ≠ node.id ∧ ¬ s.Selected policy rel.ref := by
  have hget := Table.get_of_mem hrel
  cases call with
  | window publisher name =>
      by_cases himage : rel.publisher = publisher ∧ rel.name = name
      · obtain ⟨rfl, rfl⟩ := himage
        refine (get_enforceWindow_eq_none hs hrel).trans ?_
        constructor
        · rintro ⟨hw, hown, hout⟩
          exact ⟨⟨⟨rfl, rfl⟩, hw⟩, hown, hout⟩
        · rintro ⟨⟨-, hw⟩, hown, hout⟩
          exact ⟨hw, hown, hout⟩
      · rw [PruneCall.op, get_enforceWindow_of_image hs himage, hget]
        simp [PruneCall.Reaches, himage]
  | collect req =>
      rw [PruneCall.op, final_bind_pure, get_gc hs, hget]
      have hspares := spares_eq_false_iff { node with policy } hs hrel req young
      rw [PruneCall.Reaches]
      split
      · rename_i h
        obtain ⟨r, hr, hspared, hdry, href⟩ := h
        obtain rfl : rel = r := List.inj_on_of_nodup_map s.releases.nodup hrel hr href
        obtain ⟨hout, hold⟩ := hspares.mp hspared
        exact ⟨fun _ => ⟨⟨hdry, hold⟩, hout⟩, fun _ => rfl⟩
      · rename_i h
        refine ⟨nofun, fun ⟨⟨hdry, hold⟩, hout⟩ => ?_⟩
        exact absurd ⟨rel, hrel, hspares.mpr ⟨hout, hold⟩, hdry, rfl⟩ h

/-- What a call that writes no record has removed when it is cut, it removes. -/
theorem get_final_of_cut {α : Type} {m : Op α} (hm : Emits (fun w => ∀ rel, w ≠ .release rel) m)
    {fault : Option (ℕ × Err)} {q : Ref}
    (h : ((m.cut fault).final s).releases.get q = none) : (m.final s).releases.get q = none := by
  cases fault with
  | none => exact h
  | some f =>
      obtain ⟨k, e⟩ := f
      rw [final_cut_some] at h
      rw [final, ← List.take_append_drop k (m.journal s), replay_append]
      refine replay_keeps (P := fun w => ∀ rel, w ≠ .release rel)
        (I := fun t : Store => t.releases.get q = none) (fun t w hw ht => ?_)
        (fun w hw => hm s w (List.mem_of_mem_drop hw)) h
      cases w with
      | release rel => exact absurd rfl (hw rel)
      | dropRelease r =>
          show (t.releases.erase r).get q = none
          rw [Table.get_erase, ht, ite_self]
      | _ => exact ht

end

end Ocid
