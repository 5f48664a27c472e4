import Ocid.Daemon.Sample
import Ocid.Retention.World

/-!
# Retention — Kept — every record keeps its blobs

`Sound` is the invariant: every blob of a record is held, and so is every blob that a push in
flight relies on or a fetch has obtained; a sweep has marked every record but those written since.
Each kind of step has its lemma, and `run_intact` joins them: in every run whose steps are all
considerate, every store on the way is intact.

Two steps of the daemon itself are not: a sweep drops the blobs of a push that has been checked and
has not written its record (`sweep_breaks_push`), since a push does not take the lock that a fetch
takes.
-/

namespace Ocid

open Call

section
variable [External]

/-! ### The invariant -/

/-- What a fetch that holds the lock has obtained. -/
structure FetchRun.Sound (f : FetchRun) (s : Store) : Prop where
  verified : f.release.verify = .ok ()
  blobs : f.release.allBlobs = f.done ++ f.todo
  done : ∀ b ∈ f.done, Holds s b
  /-- Verified content stays. -/
  here : ∀ temp, f.stage = .pinning temp → ∀ b ∈ f.todo.head?, s.hasHash b.hash = true
  pinned : ∀ temp, f.stage = .indexing temp → ∀ b ∈ f.todo.head?,
    s.pins.get b.digest = some (b.digest, b.hash)

/-- What a sweep knows of the records `t`. -/
structure SweepRun.Sound (node : Node) (sw : SweepRun) (t : Table Release.ref) : Prop where
  /-- A record pruned under the lock is gone, and no push writes it. -/
  pruned : ∀ rs, sw.stage = .locked rs → ∀ r ∈ rs,
    r.publisher ≠ node.id ∧ validateName r.name = .ok () ∧ t.get r = none
  /-- A record that is not fresh is live. -/
  live : (∀ rs, sw.stage ≠ .locked rs) → ∀ rel ∈ t.rows, rel ∈ sw.fresh ∨
    ∀ b ∈ rel.allBlobs, b.hash ∈ sw.live
  /-- A record that is not fresh has none of the blobs about to be dropped. -/
  pending : ∀ rel ∈ t.rows, rel ∈ sw.fresh ∨ ∀ b ∈ rel.allBlobs, b.digest ∉ sw.pending

/-- Every blob of a record, and every blob that a push or a fetch relies on, is kept; the sweep may
be halfway through the blob of a digest. While it runs, no fetch does. -/
structure World.Sound (node : Node) (w : World) : Prop where
  indexed : Indexed w.store w.halfway
  records : ∀ rel ∈ w.store.releases.rows, ∀ b ∈ rel.allBlobs, Holds w.store b
  named : ∀ rel ∈ w.store.releases.rows, validateName rel.name = .ok ()
  pushes : ∀ p ∈ w.pushes, ∀ b ∈ p.relied node, Found w.store w.halfway b
  fetches : ∀ f ∈ w.fetches, f.live = true → f.Sound w.store
  lock : w.sweep.isSome → ∀ f ∈ w.fetches, f.live = false
  sweep : ∀ sw ∈ w.sweep, sw.Sound node w.store.releases

/-- A world that is sound keeps the blobs of its records. -/
theorem World.Sound.intact {node : Node} {w : World} (h : w.Sound node) : w.store.Intact := by
  intro rel hrel b hb
  obtain ⟨hpin, ⟨e, he, -⟩, hdata⟩ := h.records rel hrel b hb
  exact ⟨hpin, Option.isSome_iff_exists.mpr ⟨e, he⟩, hdata⟩

theorem World.sound_empty (node : Node) : World.empty.Sound node where
  indexed := .mk (fun h => nomatch h) fun h => nomatch h
  records _ h := by cases h
  named _ h := by cases h
  pushes _ h := by cases h
  fetches _ h := by cases h
  lock h := by cases h
  sweep _ h := by cases h

/-! ### The parts of a step -/

section
variable {node : Node} {w : World} {s' : Store}

theorem FetchRun.Sound.retained {f : FetchRun} {s : Store} (h : f.Sound s) (hg : Retains s s') :
    f.Sound s' where
  verified := h.verified
  blobs := h.blobs
  done b hb := (h.done b hb).retained hg
  here temp ht b hb := hg.data (h.here temp ht b hb)
  pinned temp ht b hb := hg.pin (h.pinned temp ht b hb)

/-- A store that grows, with the records it had. -/
theorem World.Sound.grow (hs : w.Sound node) (hg : Retains w.store s')
    (hr : s'.releases = w.store.releases) (hi : Indexed s' w.halfway) :
    World.Sound node { w with store := s' } where
  indexed := hi
  records rel hrel b hb := (hs.records rel (hr ▸ hrel) b hb).retained hg
  named rel hrel := hs.named rel (hr ▸ hrel)
  pushes p hp b hb := (hs.pushes p hp b hb).retained hg
  fetches f hf hl := (hs.fetches f hf hl).retained hg
  lock := hs.lock
  sweep sw hsw := hr.symm ▸ hs.sweep sw hsw

/-- A push goes on, relying on what is found. -/
theorem World.Sound.setPush (hs : w.Sound node) {p : PushRun}
    (hp : ∀ b ∈ p.relied node, Found w.store w.halfway b) (i : ℕ) :
    World.Sound node { w with pushes := w.pushes.set i p } where
  indexed := hs.indexed
  records := hs.records
  named := hs.named
  pushes q hq := by
    rcases List.mem_or_eq_of_mem_set hq with hq | rfl
    · exact hs.pushes q hq
    · exact hp
  fetches := hs.fetches
  lock := hs.lock
  sweep := hs.sweep

/-- A fetch goes on, or ends. -/
theorem World.Sound.setFetch (hs : w.Sound node) {f : FetchRun}
    (hf : f.live = true → f.Sound w.store) (hl : w.sweep.isSome → f.live = false) (i : ℕ) :
    World.Sound node { w with fetches := w.fetches.set i f } where
  indexed := hs.indexed
  records := hs.records
  named := hs.named
  pushes := hs.pushes
  fetches g hg := by
    rcases List.mem_or_eq_of_mem_set hg with hg | rfl
    · exact hs.fetches g hg
    · exact hf
  lock h g hg := by
    rcases List.mem_or_eq_of_mem_set hg with hg | rfl
    · exact hs.lock h g hg
    · exact hl h
  sweep := hs.sweep

omit [External] in
theorem mem_recorded {t : Table Release.ref} {rel r : Release} (h : r ∈ (recorded t rel).rows) :
    r = rel ∨ r ∈ t.rows := by
  unfold recorded at h
  split at h
  · exact (Table.mem_put.mp h).imp_right fun h => h.1
  · exact Or.inr h

omit [External] in
@[simp] theorem SweepRun.sees_none (sw : SweepRun) : sw.sees none = sw := by simp [SweepRun.sees]

theorem World.halfway_sees (rel : Option Release) :
    World.halfway { w with store := s', sweep := w.sweep.map fun sw => sw.sees rel } =
      w.halfway := by
  unfold World.halfway
  cases w.sweep <;> rfl

/-- Records that were there before, or that the sweep counts as fresh. -/
theorem SweepRun.Sound.sees {sw : SweepRun} {t t' : Table Release.ref} (h : sw.Sound node t)
    {rel : Release} (hown : rel.publisher = node.id)
    (hmem : ∀ r ∈ t'.rows, r = rel ∨ r ∈ t.rows) : (sw.sees (some rel)).Sound node t' where
  pruned := by
    intro rs hrs r hr
    obtain ⟨hother, hname, hgone⟩ := h.pruned rs hrs r hr
    refine ⟨hother, hname, Table.get_eq_none_iff.mpr fun x hx => ?_⟩
    rcases hmem x hx with rfl | hx
    · rintro rfl
      exact hother hown
    · exact Table.get_eq_none_iff.mp hgone x hx
  live := by
    intro hmarked x hx
    rcases hmem x hx with rfl | hx
    · exact Or.inl (List.mem_append_right _ List.mem_cons_self)
    · exact (h.live hmarked x hx).imp_left fun h => List.mem_append_left _ h
  pending := by
    intro x hx
    rcases hmem x hx with rfl | hx
    · exact Or.inl (List.mem_append_right _ List.mem_cons_self)
    · exact (h.pending x hx).imp_left fun h => List.mem_append_left _ h

/-- Fewer records. -/
theorem SweepRun.Sound.shrink {sw : SweepRun} {t t' : Table Release.ref} (h : sw.Sound node t)
    (hmem : ∀ r ∈ t'.rows, r ∈ t.rows) : sw.Sound node t' where
  pruned := by
    intro rs hrs r hr
    obtain ⟨hother, hname, hgone⟩ := h.pruned rs hrs r hr
    exact ⟨hother, hname, Table.get_eq_none_iff.mpr fun x hx =>
      Table.get_eq_none_iff.mp hgone x (hmem x hx)⟩
  live hmarked x hx := h.live hmarked x (hmem x hx)
  pending x hx := h.pending x (hmem x hx)

/-- A record whose blobs are held is written, or refused. -/
theorem World.Sound.put (hs : w.Sound node) {rel : Release}
    (hname : rel ∈ s'.releases.rows → validateName rel.name = .ok ())
    (hown : w.sweep.isSome → rel.publisher = node.id)
    (hblobs : ∀ b ∈ rel.allBlobs, Holds w.store b) (hsame : SameBlobs w.store s')
    (hr : ∀ r ∈ s'.releases.rows, r = rel ∨ r ∈ w.store.releases.rows) :
    World.Sound node
      { w with store := s', sweep := w.sweep.map fun sw => sw.sees (some rel) } where
  indexed := by
    rw [World.halfway_sees]
    exact hsame.indexed hs.indexed
  records x hx b hb := by
    rcases hr x hx with rfl | hx
    · exact (hblobs b hb).retained hsame.retained
    · exact (hs.records x hx b hb).retained hsame.retained
  named x hx := by
    rcases hr x hx with rfl | hx'
    · exact hname hx
    · exact hs.named x hx'
  pushes p hp b hb := by
    rw [World.halfway_sees]
    exact (hs.pushes p hp b hb).retained hsame.retained
  fetches f hf hl := (hs.fetches f hf hl).retained hsame.retained
  lock h := hs.lock (by rwa [Option.isSome_map] at h)
  sweep := by
    intro sw hsw
    obtain ⟨sw, hsw', rfl⟩ := Option.map_eq_some_iff.mp hsw
    have hsome : w.sweep.isSome := Option.isSome_iff_exists.mpr ⟨sw, hsw'⟩
    exact (hs.sweep sw hsw').sees (hown hsome) hr

/-- Records are removed. -/
theorem World.Sound.shrink (hs : w.Sound node) (hsame : SameBlobs w.store s')
    (hr : ∀ r ∈ s'.releases.rows, r ∈ w.store.releases.rows) :
    World.Sound node { w with store := s' } where
  indexed := hsame.indexed hs.indexed
  records x hx b hb := (hs.records x (hr x hx) b hb).retained hsame.retained
  named x hx := hs.named x (hr x hx)
  pushes p hp b hb := (hs.pushes p hp b hb).retained hsame.retained
  fetches f hf hl := (hs.fetches f hf hl).retained hsame.retained
  lock := hs.lock
  sweep sw hsw := (hs.sweep sw hsw).shrink hr

/-- What is in flight is held, unless a sweep is between its pin and its entry. -/
theorem World.Sound.holds (hs : w.Sound node) (hc : ∀ d ∈ w.halfway, w.Unneeded node d)
    {p : PushRun} (hp : p ∈ w.pushes) {b : BlobRef} (hb : b ∈ p.relied node) :
    Holds w.store b := by
  rcases hs.pushes p hp b hb with h | h
  · exact h
  · exact absurd rfl ((hc b.digest h).1 p hp b hb)

/-! ### Pushes -/

section
variable {p p' : PushRun} {i : ℕ} {a : PushAct}

/-- The blobs of a record that a push extends. -/
theorem PushRun.mem_extend {rel : Release} {now : ℕ} {b : BlobRef}
    (h : b ∈ (p.extend node rel now).allBlobs) : b ∈ p.blobs ∨ b ∈ rel.allBlobs := by
  rw [PushRun.extend, Release.allBlobs, attachedRelease_manifest, attachedRelease_blobs] at h
  rcases List.mem_cons.mp h with rfl | h
  · exact Or.inr List.mem_cons_self
  · exact (mem_of_mem_foldl_addBlob h).symm.imp_right fun h => List.mem_cons_of_mem _ h

/-- A push goes on without writing a record. -/
theorem World.Sound.pushOn (hs : w.Sound node) (hg : Retains w.store s')
    (hr : s'.releases = w.store.releases) (hi : Indexed s' w.halfway)
    (hp : ∀ b ∈ p'.relied node, Found s' w.halfway b) :
    World.Sound node { w with
      store := s', pushes := w.pushes.set i p', sweep := w.sweep.map fun sw => sw.sees none } := by
  have hsame : w.sweep.map (fun sw => sw.sees none) = w.sweep := by simp
  rw [hsame]
  exact (hs.grow hg hr hi).setPush hp i

/-- A push writes a record of its own publisher, or is refused. -/
theorem World.Sound.pushPut (hs : w.Sound node) {rel : Release} (hown : rel.publisher = node.id)
    (hblobs : ∀ b ∈ rel.allBlobs, Holds w.store b) (announced : Except Err Unit)
    (hp : ∀ b ∈ p'.relied node, Found w.store w.halfway b) :
    World.Sound node { w with
      store := (publish node (fun _ => announced) rel).final w.store
      pushes := w.pushes.set i p'
      sweep := w.sweep.map fun sw => sw.sees (some rel) } := by
  have hsame := sameBlobs_publish node (fun _ => announced) rel w.store
  have hrecords : ∀ r ∈ ((publish node (fun _ => announced) rel).final w.store).releases.rows,
      r = rel ∨ r ∈ w.store.releases.rows := by
    intro r hr
    rcases (publish_triple node (fun _ => announced) rel w.store.releases).final_cut rfl none with
      h | h
    · exact Or.inr (h ▸ hr)
    · exact mem_recorded (h ▸ hr)
  have hname : rel ∈ ((publish node (fun _ => announced) rel).final w.store).releases.rows →
      validateName rel.name = .ok () := by
    intro hr
    cases hv : rel.verify with
    | error e =>
        have hfinal : (publish node (fun _ => announced) rel).final w.store = w.store := by
          rw [publish, hv]
          exact final_bind_of_error rfl _
        exact hs.named rel (hfinal ▸ hr)
    | ok u => exact (Release.valid_of_verify hv).1
  refine ((hs.put hname (fun _ => hown) hblobs hsame hrecords).setPush (fun b hb => ?_) i)
  rw [World.halfway_sees]
  exact (hp b hb).retained hsame.retained

theorem PushRun.mem_relied {b : BlobRef} :
    b ∈ p.relied node ↔ p.writes node = true ∧ b ∈ p.wanted node := by
  unfold PushRun.relied
  cases p.writes node <;> simp

/-- What a push relies on while it attaches: less and less. -/
theorem PushRun.relied_attaching {push : Push} {c : Checked} {rel : Release} {rels : List Release}
    {b : BlobRef} (hb : b ∈ PushRun.relied node ⟨push, c, .attaching rels⟩) :
    b ∈ PushRun.relied node ⟨push, c, .attaching (rel :: rels)⟩ := by
  obtain ⟨hw, hb⟩ := PushRun.mem_relied.mp hb
  refine PushRun.mem_relied.mpr ⟨?_, ?_⟩
  · show (push.isTag || (rel :: rels).any _) = true
    rw [List.any_cons, Bool.or_eq_true, Bool.or_eq_true]
    exact (Bool.or_eq_true _ _ ▸ hw).imp_right Or.inr
  · refine (List.mem_append.mp hb).elim (fun h => List.mem_append_left _ h) fun h => ?_
    obtain ⟨r, hr, hb⟩ := List.mem_flatMap.mp h
    obtain ⟨hr, hneeds⟩ := List.mem_filter.mp hr
    exact List.mem_append_right _ (List.mem_flatMap.mpr
      ⟨r, List.mem_filter.mpr ⟨List.mem_cons_of_mem _ hr, hneeds⟩, hb⟩)

/-- A step of a push. -/
theorem World.Sound.push (hs : w.Sound node) (hc : w.Considerate node (.push i a))
    (hp : w.pushes[i]? = some p) (h : p.step node w.store a = some (s', p')) :
    World.Sound node { w with
      store := s'
      pushes := w.pushes.set i p'
      sweep := w.sweep.map fun sw => sw.sees (p.puts node a) } := by
  have hheld : ∀ b ∈ p.relied node, Holds w.store b :=
    fun b hb => hs.holds hc.1 (List.mem_of_getElem? hp) hb
  obtain ⟨push, c, stage⟩ := p
  cases a with
  | store =>
      cases stage with
      | checked =>
          cases h
          obtain ⟨hg, hi, hholds⟩ := putBlobBytes_keeps hs.indexed c.bytes
            (some (Digest.sha256 c.bytes)) (some (c.mediaType push)) fun _ => hc.2 _ hp
          refine hs.pushOn hg ?_ hi fun b hb => Or.inl ?_
          · exact releases_final (emits_putBlobBytes (by simp [Write.part])
              (fun _ _ => by simp [Write.part]) (fun _ => by simp [Write.part]) _ _)
          · obtain ⟨hw, hb⟩ := PushRun.mem_relied.mp hb
            rcases List.mem_cons.mp hb with rfl | hb
            · exact hholds fun e he => (Option.some.inj he).symm
            · exact (hheld b (PushRun.mem_relied.mpr ⟨hw, hb⟩)).retained hg
      | _ => cases h
  | list =>
      cases stage with
      | stored =>
          simp only [PushRun.step] at h
          split at h
          · rename_i hsubject
            cases h
            refine hs.pushOn (Retains.refl _) rfl hs.indexed fun b hb => Or.inl (hheld b ?_)
            obtain ⟨hw, hb⟩ := PushRun.mem_relied.mp hb
            refine PushRun.mem_relied.mpr ⟨?_, ?_⟩
            · simpa [PushRun.writes, hsubject] using hw
            · exact (List.mem_append.mp hb).resolve_right List.not_mem_nil
          · rename_i subject hsubject
            cases h
            have hsame : SameBlobs w.store
                ((putReferrer subject.digest (c.referrer push)).final w.store) := ⟨rfl, rfl, rfl⟩
            refine hs.pushOn hsame.retained rfl (hsame.indexed hs.indexed) fun b hb => Or.inl ?_
            refine Holds.retained ?_ hsame.retained
            obtain ⟨-, hb⟩ := PushRun.mem_relied.mp hb
            rcases List.mem_append.mp hb with hb | hb
            · refine hheld b (PushRun.mem_relied.mpr ⟨?_, hb⟩)
              simp [PushRun.writes, hsubject]
            · obtain ⟨rel, hrel, hb⟩ := List.mem_flatMap.mp hb
              have hrow := Store.mem_listReleases.mp (List.mem_filter.mp hrel).1
              exact hs.records rel (Table.mem_of_get hrow) b hb
      | _ => cases h
  | attach now announced =>
      cases stage with
      | attaching rels =>
          cases rels with
          | nil => cases h
          | cons rel rels =>
              simp only [PushRun.step] at h
              split at h
              · rename_i hneeds
                cases h
                have hputs : PushRun.puts node ⟨push, c, .attaching (rel :: rels)⟩
                    (.attach now announced) =
                      some (PushRun.extend node ⟨push, c, .attaching (rel :: rels)⟩ rel now) :=
                  if_pos hneeds
                rw [hputs]
                have hw : PushRun.writes node ⟨push, c, .attaching (rel :: rels)⟩ = true := by
                  show (push.isTag || (rel :: rels).any _) = true
                  rw [List.any_cons, hneeds, Bool.true_or, Bool.or_true]
                refine hs.pushPut ?_ (fun b hb => hheld b ?_) announced fun b hb =>
                  Or.inl (hheld b ?_)
                · exact congrArg ReleasePayload.publisher (attachedRelease_payload now)
                · refine PushRun.mem_relied.mpr ⟨hw, ?_⟩
                  rcases PushRun.mem_extend hb with hb | hb
                  · exact List.mem_append_left _ hb
                  · exact List.mem_append_right _ (List.mem_flatMap.mpr
                      ⟨rel, List.mem_filter.mpr ⟨List.mem_cons_self, hneeds⟩, hb⟩)
                · split at hb
                  · exact PushRun.relied_attaching hb
                  · obtain ⟨-, hb⟩ := PushRun.mem_relied.mp hb
                    cases hb
              · rename_i hneeds
                cases h
                have hputs : PushRun.puts node ⟨push, c, .attaching (rel :: rels)⟩
                    (.attach now announced) = none := if_neg hneeds
                rw [hputs]
                exact hs.pushOn (Retains.refl _) rfl hs.indexed fun b hb =>
                  Or.inl (hheld b (PushRun.relied_attaching hb))
      | _ => cases h
  | publish now announced =>
      cases stage with
      | attaching rels =>
          cases rels with
          | nil =>
              cases h
              have hended : ∀ b ∈ PushRun.relied node ⟨push, c, .ended⟩,
                  Found w.store w.halfway b := fun b hb => by cases hb
              cases htag : push.isTag with
              | false =>
                  have hputs : PushRun.puts node ⟨push, c, .attaching []⟩ (.publish now announced) =
                      none := if_neg (by rw [htag]; exact Bool.false_ne_true)
                  have hfinal : (publishTag node (fun _ => announced) c.image push.reference
                      (c.blob push) c.blobs now).final w.store = w.store := by
                    rw [publishTag_eq, htag]
                    rfl
                  have hsame := hs.pushOn (i := i) (Retains.refl _) rfl hs.indexed hended
                  rwa [hputs, PushRun.blob, hfinal]
              | true =>
                  have hputs : PushRun.puts node ⟨push, c, .attaching []⟩ (.publish now announced) =
                      some (c.release push node now) := if_pos htag
                  have hfinal : (publishTag node (fun _ => announced) c.image push.reference
                      (c.blob push) c.blobs now).final w.store =
                        (Ocid.publish node (fun _ => announced) (c.release push node now)).final
                          w.store := by
                    rw [publishTag_eq, htag]
                    rfl
                  rw [hputs, PushRun.blob, hfinal]
                  refine hs.pushPut rfl (fun b hb => hheld b ?_) announced hended
                  refine PushRun.mem_relied.mpr ⟨?_, List.mem_append_left _ hb⟩
                  simp [PushRun.writes, htag]
          | cons rel rels => cases h
      | _ => cases h
  | abandon =>
      cases h
      exact hs.pushOn (Retains.refl _) rfl hs.indexed fun b hb => by cases hb

end

/-! ### Fetches -/

/-- Verified content is here. -/
theorem hasHash_of_verifyBlob {s : Store} {b : BlobRef} {u : Unit}
    (h : (verifyBlob b).result s = .ok u) : s.hasHash b.hash = true := by
  obtain ⟨c, hread, -⟩ := result_bind_ok.mp h
  rw [readHash, result, read_bind_apply] at hread
  cases hget : s.blobs.get b.hash with
  | none =>
      rw [hget] at hread
      cases hread
  | some c => exact Table.has_iff.mpr ⟨c, hget⟩

section
variable {f f' : FetchRun} {i : ℕ}

/-- While a fetch holds the lock, no sweep runs. -/
theorem World.Sound.noSweep (hs : w.Sound node) (hf : f ∈ w.fetches) (hl : f.live = true) :
    w.sweep = none := by
  by_contra h
  have := hs.lock (Option.isSome_iff_ne_none.mpr h) f hf
  rw [hl] at this
  cases this

/-- A fetch goes on. -/
theorem World.Sound.fetchOn (hs : w.Sound node) (hsweep : w.sweep = none) (hg : Retains w.store s')
    (hr : s'.releases = w.store.releases) (hi : Indexed s' none)
    (hf : f'.live = true → f'.Sound s') :
    World.Sound node { w with store := s', fetches := w.fetches.set i f' } := by
  have hhalf : w.halfway = none := by rw [World.halfway, hsweep]; rfl
  refine (hs.grow hg hr (hhalf ▸ hi)).setFetch hf (fun h => ?_) i
  rw [show World.sweep { w with store := s' } = none from hsweep] at h
  cases h

/-- The fetch has obtained its next blob. -/
theorem FetchRun.Sound.next {s : Store} (h : f.Sound s) {b : BlobRef} {todo : List BlobRef}
    (htodo : f.todo = b :: todo) (hb : Holds s b) : f.next.Sound s where
  verified := h.verified
  blobs := by
    rw [FetchRun.next, htodo]
    show f.release.allBlobs = f.done ++ [b] ++ todo
    rw [h.blobs, htodo, List.append_assoc]
    rfl
  done := by
    intro c hc
    rw [FetchRun.next, htodo] at hc
    rcases List.mem_append.mp hc with hc | hc
    · exact h.done c hc
    · obtain rfl := List.mem_singleton.mp hc
      exact hb
  here _ ht := by cases ht
  pinned _ ht := by cases ht

/-- A step of a fetch. -/
theorem World.Sound.fetch (hs : w.Sound node) {net : Downloads}
    (hc : w.Considerate node (.fetch i (.advance net))) (hf : w.fetches[i]? = some f)
    (hl : f.live = true) (h : f.advance net w.store = some (s', f')) :
    World.Sound node { w with store := s', fetches := w.fetches.set i f' } := by
  have hmem := List.mem_of_getElem? hf
  have hsweep := hs.noSweep hmem hl
  have hhalf : w.halfway = none := by rw [World.halfway, hsweep]; rfl
  have hi : Indexed w.store none := hhalf ▸ hs.indexed
  have hsound := hs.fetches f hmem hl
  have hagrees := hc.2 f hf
  -- an entry is pinned on its hash
  have hentry : ∀ {e : BlobRef} {d}, w.store.digests.get d = some e →
      w.store.pins.get d = some (d, e.hash) := by
    intro e d he
    obtain rfl := Table.key_of_get he
    exact (hi.entry he).resolve_right fun hd => by cases hd.1
  have hstay : ∀ stage, (∀ temp, stage ≠ .pinning temp) → (∀ temp, stage ≠ .indexing temp) →
      World.Sound node { w with store := w.store, fetches := w.fetches.set i (f.enter stage) } := by
    intro stage hp hx
    refine hs.fetchOn hsweep (Retains.refl _) rfl hi fun _ => ⟨hsound.verified, hsound.blobs,
      hsound.done, fun temp ht => absurd ht (hp temp), fun temp ht => absurd ht (hx temp)⟩
  obtain ⟨release, providers, done, todo, stage⟩ := f
  cases stage with
  | looking =>
      cases todo with
      | nil =>
          cases h
          obtain ⟨hname, htag⟩ := Release.valid_of_verify hsound.verified
          have hblobs : ∀ b ∈ release.allBlobs, Holds w.store b := by
            intro b hb
            have hall : release.allBlobs = done := hsound.blobs.trans (List.append_nil _)
            exact hsound.done b (hall ▸ hb)
          have hrecords : ∀ r ∈ ((putRelease release).final w.store).releases.rows,
              r = release ∨ r ∈ w.store.releases.rows := by
            intro r hr
            rcases (putRelease_triple hname htag w.store.releases).final_cut rfl none with h | h
            · exact Or.inr (h ▸ hr)
            · exact mem_recorded (h ▸ hr)
          have hput := hs.put (fun _ => hname) (fun h => by rw [hsweep] at h; cases h) hblobs
            (sameBlobs_putRelease release w.store) hrecords
          rw [hsweep, Option.map_none, ← hsweep] at hput
          exact hput.setFetch (fun h => by cases h) (fun _ => rfl) i
      | cons b todo =>
          simp only [FetchRun.advance] at h
          split at h
          · cases h
            refine hstay _ (fun temp => ?_) fun temp => ?_
            · split <;> exact nofun
            · split <;> exact nofun
          · rename_i hhere
            split at h
            · cases h
              exact hstay _ nofun nofun
            · rename_i hindexed
              cases h
              -- the blob is passed over: it is indexed, and pinned on the hash of its entry
              have hhere : w.store.hasHash b.hash = true := by simpa using hhere
              obtain ⟨e, he⟩ := Option.isSome_iff_exists.mp (Option.isSome_iff_ne_none.mpr
                (mt Option.isNone_iff_eq_none.mpr hindexed))
              have hhash : e.hash = b.hash := (hagrees b rfl).1 rfl hhere e he
              have hb : Holds w.store b := ⟨hhash ▸ hentry he, ⟨e, he, hhash⟩, hhere⟩
              exact hs.fetchOn hsweep (Retains.refl _) rfl hi fun _ => hsound.next rfl hb
  | downloading =>
      cases todo with
      | nil => cases h
      | cons b todo =>
          have hg : Retains w.store ((download net done.length b).final w.store) ∧
              Indexed ((download net done.length b).final w.store) none ∧
                ((download net done.length b).final w.store).releases = w.store.releases := by
            unfold download
            split
            · exact ⟨Retains.data_apply _ _, hi.data_apply _, rfl⟩
            · exact ⟨Retains.refl _, hi, rfl⟩
          simp only [FetchRun.advance] at h
          split at h
          · cases h
            exact hs.fetchOn hsweep hg.1 hg.2.2 hg.2.1 fun _ => ⟨hsound.verified, hsound.blobs,
              fun b hb => (hsound.done b hb).retained hg.1, nofun, nofun⟩
          · cases h
            exact hs.fetchOn hsweep hg.1 hg.2.2 hg.2.1 fun h => by cases h
  | verifying temp =>
      cases todo with
      | nil => cases h
      | cons b todo =>
          simp only [FetchRun.advance] at h
          split at h
          · rename_i hverify
            cases h
            refine hs.fetchOn hsweep (Retains.refl _) rfl hi fun _ => ⟨hsound.verified,
              hsound.blobs, hsound.done, fun _ _ c hc => ?_, nofun⟩
            cases hc
            exact hasHash_of_verifyBlob hverify
          · cases h
            exact hstay _ nofun nofun
  | pinning temp =>
      cases todo with
      | nil => cases h
      | cons b todo =>
          cases h
          have hfits : w.store.Fits b.digest b.hash := by
            refine (hagrees b rfl).2 ?_
            cases temp
            · exact Or.inr rfl
            · exact Or.inl rfl
          have hg := Retains.tag_apply hfits
          have hi' := hi.tag_apply (hsound.here temp rfl b rfl) fun e he =>
            congrArg Prod.snd (hfits _ (hentry he))
          refine hs.fetchOn hsweep hg rfl hi' fun _ => ⟨hsound.verified, hsound.blobs,
            fun b hb => (hsound.done b hb).retained hg, nofun, fun _ _ c hc => ?_⟩
          cases hc
          rw [pin_apply_tag, if_pos rfl]
  | indexing temp =>
      cases todo with
      | nil => cases h
      | cons b todo =>
          cases h
          have hpin := hsound.pinned temp rfl b rfl
          have hg := Retains.blobRef_apply hpin
          have hi' := hi.blobRef_apply hpin
          have hb : Holds (w.store.apply (.blobRef b)) b := by
            refine ⟨hpin, ⟨b, ?_, rfl⟩, hi'.data hpin⟩
            rw [entry_apply_blobRef, if_pos rfl]
          exact hs.fetchOn hsweep hg rfl hi' fun _ => (hsound.retained hg).next rfl hb
  | ended => cases hl

end

/-! ### Sweeps -/

/-- `s'` is `s` without the pin, the entry, or neither, of the digest `d`. -/
structure Drops (s s' : Store) (d : Digest) : Prop where
  pins : ∀ k, k ≠ d → s'.pins.get k = s.pins.get k
  entries : ∀ k, k ≠ d → s'.digests.get k = s.digests.get k
  blobs : s'.blobs = s.blobs
  releases : s'.releases = s.releases

theorem Holds.drops {s : Store} {b : BlobRef} {d : Digest} (h : Holds s b) (hd : b.digest ≠ d)
    (hdrops : Drops s s' d) : Holds s' b where
  pin := (hdrops.pins _ hd).trans h.pin
  entry := by
    rw [hdrops.entries _ hd]
    exact h.entry
  data := by
    rw [Store.hasHash, hdrops.blobs]
    exact h.data

theorem removeBlobRef_final (d : Digest) (s : Store) :
    Drops s ((removeBlobRef d).final s) d ∧ ((removeBlobRef d).final s).pins = s.pins ∧
      ((removeBlobRef d).final s).digests.get d = none := by
  have hm : removeBlobRef d s = (if s.digests.has d then do
      write (.dropBlobRef d)
      pure true
    else pure false : Op Bool) s := rfl
  rw [final, journal, hm]
  split
  · refine ⟨⟨fun _ _ => rfl, fun k hk => ?_, rfl, rfl⟩, rfl, ?_⟩
    · exact Table.get_erase_of_ne (Ne.symm hk)
    · exact Table.get_erase_self _ _
  · rename_i hhas
    exact ⟨⟨fun _ _ => rfl, fun _ _ => rfl, rfl, rfl⟩, rfl,
      Table.has_eq_false_iff.mp (Bool.not_eq_true _ ▸ hhas)⟩

/-- What a store keeps when the entry of `d` goes. -/
theorem Indexed.removeBlobRef {s : Store} {k : Option Digest} {d : Digest} (h : Indexed s k)
    (hk : k = none ∨ k = some d) : Indexed ((removeBlobRef d).final s) none := by
  obtain ⟨hdrops, hpins, hgone⟩ := removeBlobRef_final d s
  refine ⟨?_, ?_⟩
  · intro j g hp
    rw [hpins] at hp
    rw [Store.hasHash, hdrops.blobs]
    exact h.data hp
  · intro e he
    have hne : e.digest ≠ d := by
      rintro rfl
      rw [hgone] at he
      cases he
    rw [hdrops.entries _ hne] at he
    rw [hpins]
    refine Or.inl ((h.entry he).resolve_right fun hd => ?_)
    rcases hk with hk | hk
    · cases hk.symm.trans hd.1
    · exact hne (Option.some.inj (hd.1.symm.trans hk))

/-- What a store keeps when the pin of `d` goes. -/
theorem Indexed.unpinBlob {s : Store} {d : Digest} (h : Indexed s none) :
    Drops s ((unpinBlob d).final s) d ∧ Indexed ((unpinBlob d).final s) (some d) := by
  have hfinal : (Ocid.unpinBlob d).final s = s.apply (.untag d) := rfl
  rw [hfinal]
  refine ⟨⟨fun k hk => ?_, fun _ _ => rfl, rfl, rfl⟩, ?_, ?_⟩
  · rw [pin_apply_untag, if_neg (Ne.symm hk)]
  · intro j g hp
    rw [pin_apply_untag] at hp
    split at hp
    · cases hp
    · exact h.data hp
  · intro e he
    rw [pin_apply_untag]
    by_cases hd : d = e.digest
    · rw [if_pos hd, hd]
      exact Or.inr ⟨rfl, rfl⟩
    · rw [if_neg hd]
      exact Or.inl ((h.entry he).resolve_right fun hd => by cases hd.1)

section
variable {sw : SweepRun} {a : SweepAct} {sweep : Option SweepRun}

/-- A sweep goes on after its mark, with nothing more to drop. -/
theorem SweepRun.Sound.enter {t : Table Release.ref} (h : sw.Sound node t)
    (hmarked : ∀ rs, sw.stage ≠ .locked rs) {stage : SweepStage} (hstage : ∀ rs, stage ≠ .locked rs)
    (hpending : ∀ d ∈ (sw.enter stage).pending, d ∈ sw.pending) :
    (sw.enter stage).Sound node t where
  pruned rs hrs := absurd hrs (hstage rs)
  live _ := h.live hmarked
  pending rel hrel := (h.pending rel hrel).imp_right fun hb b hmem hd =>
    hb b hmem (hpending _ hd)

/-- A sweep goes on, or ends, leaving the store as it is. -/
theorem World.Sound.setSweep (hs : w.Sound node) (hhalf : w.halfway = none) (hsw : w.sweep.isSome)
    (h : ∀ sw ∈ sweep, sw.Sound node w.store.releases) : World.Sound node { w with sweep } where
  indexed := (hhalf ▸ hs.indexed).mono
  records := hs.records
  named := hs.named
  pushes p hp b hb := by
    have := hs.pushes p hp b hb
    rw [hhalf] at this
    exact Or.inl (this.resolve_right nofun)
  fetches := hs.fetches
  lock _ := hs.lock hsw
  sweep := h

/-- A sweep drops the pin or the entry of `d`, which nothing needs. -/
theorem World.Sound.drop (hs : w.Sound node) (hsw : w.sweep = some sw) {d : Digest}
    (hd : d ∈ sw.pending) (hhalf : w.halfway = none ∨ w.halfway = some d)
    (hun : w.Unneeded node d) (hdrops : Drops w.store s' d)
    (hi : Indexed s' (sweep.bind SweepRun.halfway))
    (h : ∀ sw ∈ sweep, sw.Sound node w.store.releases) :
    World.Sound node { w with store := s', sweep } where
  indexed := hi
  records rel hrel b hb := by
    rw [hdrops.releases] at hrel
    refine (hs.records rel hrel b hb).drops ?_ hdrops
    rcases (hs.sweep sw hsw).pending rel hrel with hfresh | hother
    · exact hun.2 sw hsw rel hfresh hrel b hb
    · rintro rfl
      exact hother b hb hd
  named rel hrel := hs.named rel (hdrops.releases ▸ hrel)
  pushes p hp b hb := by
    have hne := hun.1 p hp b hb
    refine Or.inl (Holds.drops ?_ hne hdrops)
    refine (hs.pushes p hp b hb).resolve_right fun hhalf' => ?_
    rcases hhalf with h | h
    · cases h.symm.trans hhalf'
    · exact hne (Option.some.inj (h.symm.trans hhalf')).symm
  fetches f hf hl := by
    have := hs.lock (Option.isSome_iff_exists.mpr ⟨sw, hsw⟩) f hf
    rw [hl] at this
    cases this
  lock _ := hs.lock (Option.isSome_iff_exists.mpr ⟨sw, hsw⟩)
  sweep sw' hsw' := hdrops.releases ▸ h sw' hsw'

/-- The pins to be dropped are not those of a record listed. -/
theorem World.Sound.orphans (hs : w.Sound node) (hsw : w.sweep = some sw)
    (hmarked : ∀ rs, sw.stage ≠ .locked rs) {rel : Release} (hrel : rel ∈ w.store.releases.rows) :
    rel ∈ sw.fresh ∨ ∀ b ∈ rel.allBlobs, b.digest ∉ sw.orphans w.store.listPins := by
  refine ((hs.sweep sw hsw).live hmarked rel hrel).imp_right fun hlive b hb hd => ?_
  obtain ⟨⟨k, g⟩, hmem, hk⟩ := List.mem_map.mp hd
  obtain ⟨hrow, hdead⟩ := List.mem_filter.mp hmem
  have hpin : w.store.pins.get k = some (k, g) := Table.get_of_mem hrow
  obtain rfl : k = b.digest := hk
  have := (hs.records rel hrel b hb).pin
  cases hpin.symm.trans this
  exact of_decide_eq_true hdead (hlive b hb)

/-- The entries to be dropped are not those of a record listed. -/
theorem World.Sound.strays (hs : w.Sound node) (hsw : w.sweep = some sw)
    (hmarked : ∀ rs, sw.stage ≠ .locked rs) (pinned : List Blake3) {rel : Release}
    (hrel : rel ∈ w.store.releases.rows) :
    rel ∈ sw.fresh ∨ ∀ b ∈ rel.allBlobs, b.digest ∉ sw.strays pinned w.store.listBlobRefs := by
  refine ((hs.sweep sw hsw).live hmarked rel hrel).imp_right fun hlive b hb hd => ?_
  obtain ⟨e, hmem, hk⟩ := List.mem_map.mp hd
  obtain ⟨hrow, hdead⟩ := List.mem_filter.mp hmem
  obtain ⟨e', he', hhash⟩ := (hs.records rel hrel b hb).entry
  have he : w.store.digests.get e.digest = some e := Table.get_of_mem hrow
  rw [hk] at he
  cases he.symm.trans he'
  exact (of_decide_eq_true hdead).1 (hhash ▸ hlive b hb)

/-- The mark: every record is live that was not pruned under the lock. -/
theorem World.Sound.mark (hs : w.Sound node) (hsw : w.sweep = some sw) {rs : List Ref}
    (hstage : sw.stage = .locked rs) (gc : Bool) :
    SweepRun.Sound node
      ⟨.marked, liveHashes w.store (if gc then rs.map Ref.toStr else []), []⟩ w.store.releases where
  pruned _ h := by cases h
  live := by
    intro _ rel hrel
    have hkept : rel.reference ∉ if gc then rs.map Ref.toStr else [] := by
      cases gc with
      | false => exact List.not_mem_nil
      | true =>
          intro hmem
          obtain ⟨r, hr, href⟩ := List.mem_map.mp hmem
          obtain ⟨-, hname, hgone⟩ := (hs.sweep sw hsw).pruned rs hstage r hr
          cases Ref.toStr_inj hname (hs.named rel hrel) href
          rw [Table.get_of_mem hrel] at hgone
          cases hgone
    refine Or.inr fun b hb => List.mem_flatMap.mpr ⟨rel, List.mem_filter.mpr ⟨?_, ?_⟩, ?_⟩
    · exact Store.mem_listReleases.mpr (Table.get_of_mem hrel)
    · exact decide_eq_true hkept
    · exact List.mem_map_of_mem hb
  pending _ _ := Or.inr fun _ _ => List.not_mem_nil

/-- A step of a sweep. -/
theorem World.Sound.sweepStep (hs : w.Sound node) (hc : w.Considerate node (.sweep a))
    (hsw : w.sweep = some sw) (h : sw.step node w.store a = some (s', sweep)) :
    World.Sound node { w with store := s', sweep } := by
  have hsome : w.sweep.isSome := Option.isSome_iff_exists.mpr ⟨sw, hsw⟩
  have hsound := hs.sweep sw hsw
  have hhalf : w.halfway = sw.halfway := by rw [World.halfway, hsw]; rfl
  obtain ⟨stage, live, fresh⟩ := sw
  cases a with
  | prune r =>
      cases stage with
      | locked rs =>
          simp only [SweepRun.step] at h
          split at h
          · cases h
          · rename_i hother
            cases h
            obtain ⟨hcases, hgone⟩ := removeRelease_cases r.publisher r.name r.tag w.store
            have hsame : SameBlobs w.store
                ((removeRelease r.publisher r.name r.tag).final w.store) := by
              rcases hcases with h | h
              · rw [h]
                exact SameBlobs.refl _
              · rw [h]
                exact ⟨rfl, rfl, rfl⟩
            have hrows : ∀ x ∈ ((removeRelease r.publisher r.name r.tag).final
                w.store).releases.rows, x ∈ w.store.releases.rows := by
              intro x hx
              rcases hcases with h | h
              · rwa [h] at hx
              · rw [h] at hx
                exact (Table.mem_erase.mp hx).1
            refine (hs.shrink hsame hrows).setSweep hhalf hsome fun sw' hsw' => ?_
            split at hsw'
            · rename_i x hx
              cases hsw'
              obtain ⟨hname, hnone⟩ := hgone x hx
              refine ⟨?_, fun h => absurd rfl (h _), fun _ _ => Or.inr fun _ _ => List.not_mem_nil⟩
              intro rs' hrs' q hq
              cases hrs'
              rcases List.mem_cons.mp hq with rfl | hq
              · exact ⟨hother, hname, hnone⟩
              · exact (hsound.shrink hrows).pruned rs rfl q hq
            · cases hsw'
      | _ => cases h
  | mark gc =>
      cases stage with
      | locked rs =>
          cases h
          refine hs.setSweep hhalf hsome fun sw' hsw' => ?_
          cases hsw'
          exact hs.mark hsw rfl gc
      | _ => cases h
  | advance =>
      cases stage with
      | locked rs => cases h
      | marked =>
          cases h
          refine hs.setSweep hhalf hsome fun sw' hsw' => ?_
          cases hsw'
          exact ⟨nofun, fun _ => hsound.live nofun, fun rel hrel => hs.orphans hsw nofun hrel⟩
      | unpinning ds =>
          cases ds with
          | nil =>
              cases h
              refine hs.setSweep hhalf hsome fun sw' hsw' => ?_
              cases hsw'
              exact hsound.enter nofun nofun nofun
          | cons d ds =>
              cases h
              have hnone : w.halfway = none := hhalf
              obtain ⟨hdrops, hi⟩ := Indexed.unpinBlob (d := d) (hnone ▸ hs.indexed)
              refine hs.drop hsw List.mem_cons_self (Or.inl hhalf) (hc.2 _ hsw d rfl) hdrops hi ?_
              rintro sw' hsw'
              cases hsw'
              exact hsound.enter nofun nofun fun _ h => h
      | unpinned d ds =>
          cases h
          have hi := hs.indexed.removeBlobRef (d := d) (Or.inr hhalf)
          refine hs.drop hsw List.mem_cons_self (Or.inr hhalf) (hc.2 _ hsw d rfl)
            (removeBlobRef_final d _).1 hi ?_
          rintro sw' hsw'
          cases hsw'
          exact hsound.enter nofun nofun fun _ h => List.mem_cons_of_mem _ h
      | relisted pinned =>
          cases h
          refine hs.setSweep hhalf hsome fun sw' hsw' => ?_
          cases hsw'
          exact ⟨nofun, fun _ => hsound.live nofun, fun rel hrel => hs.strays hsw nofun pinned hrel⟩
      | cleaning ds =>
          cases ds with
          | nil =>
              cases h
              exact hs.setSweep hhalf hsome nofun
          | cons d ds =>
              cases h
              have hi := hs.indexed.removeBlobRef (d := d) (Or.inl hhalf)
              refine hs.drop hsw List.mem_cons_self (Or.inl hhalf) (hc.2 _ hsw d rfl)
                (removeBlobRef_final d _).1 hi ?_
              rintro sw' hsw'
              cases hsw'
              exact hsound.enter nofun nofun fun _ h => List.mem_cons_of_mem _ h
  | stop =>
      cases h
      exact hs.setSweep hc.2 hsome nofun

end

/-! ### Every step, and every run -/

/-- Content that nothing protects is deleted. -/
theorem World.Sound.delete (hs : w.Sound node) {h : Blake3} (hc : w.Considerate node (.delete h))
    (hfree : w.protects h = false) :
    World.Sound node { w with store := w.store.apply (.dropData h) } := by
  have hunpinned : ∀ {k g}, w.store.pins.get k = some (k, g) → g ≠ h := by
    rintro k g hp rfl
    have := (Bool.or_eq_false_iff.mp hfree).1
    rw [List.any_eq_false] at this
    exact this (k, g) (Table.mem_of_get hp) (decide_eq_true rfl)
  have htemp : ∀ f ∈ w.fetches, f.temp ≠ some h := by
    intro f hf ht
    have := (Bool.or_eq_false_iff.mp hfree).2
    rw [List.any_eq_false] at this
    exact this f hf (decide_eq_true ht)
  have hkeeps : ∀ {g}, g ≠ h → w.store.hasHash g = true →
      (w.store.apply (.dropData h)).hasHash g = true := by
    intro g hne hg
    rw [hasHash_apply_dropData, hg, Bool.and_true]
    exact decide_eq_true (Ne.symm hne)
  have hholds : ∀ {b}, Holds w.store b → Holds (w.store.apply (.dropData h)) b := fun hb =>
    ⟨hb.pin, hb.entry, hkeeps (hunpinned hb.pin) hb.data⟩
  refine ⟨⟨fun hp => hkeeps (hunpinned hp) (hs.indexed.data hp), hs.indexed.entry⟩, ?_, hs.named,
    ?_, ?_, hs.lock, hs.sweep⟩
  · exact fun rel hrel b hb => hholds (hs.records rel hrel b hb)
  · exact fun p hp b hb => (hs.pushes p hp b hb).imp_left hholds
  · intro f hf hl
    have hsound := hs.fetches f hf hl
    refine ⟨hsound.verified, hsound.blobs, fun b hb => hholds (hsound.done b hb), ?_, hsound.pinned⟩
    intro temp ht b hb
    refine hkeeps ?_ (hsound.here temp ht b hb)
    cases temp with
    | false => exact hc.2 f hf ht b hb
    | true =>
        rintro rfl
        refine htemp f hf ?_
        rw [FetchRun.temp, ht]
        exact congrArg (Option.map BlobRef.hash) hb

/-- **Every step.**  A considerate step keeps the invariant. -/
theorem World.Sound.step {a : Act} {w' : World} (hs : w.Sound node) (hc : w.Considerate node a)
    (h : w.step node a = some w') : w'.Sound node := by
  cases a with
  | upload data expect mediaType =>
      cases h
      obtain ⟨hg, hi, -⟩ := putBlobBytes_keeps hs.indexed data expect mediaType hc.2
      exact hs.grow hg (releases_final (emits_putBlobBytes (by simp [Write.part])
        (fun _ _ => by simp [Write.part]) (fun _ => by simp [Write.part]) _ _)) hi
  | remove publisher name tag =>
      cases h
      obtain ⟨h | h, -⟩ := removeRelease_cases publisher name tag w.store
      · rw [h]
        exact hs
      · rw [h]
        exact hs.shrink ⟨rfl, rfl, rfl⟩ fun r hr => (Table.mem_erase.mp hr).1
  | delete h' =>
      simp only [World.step] at h
      split at h
      · cases h
      · rename_i hfree
        cases h
        exact hs.delete hc (Bool.not_eq_true _ ▸ hfree)
  | beginPush push =>
      cases h
      have hstart : Collecting w.store w.halfway w.store := ⟨Retains.refl _, hs.indexed⟩
      have hkeep := (checkPush_found node push).final_cut hstart none
      have hrecords := (checkPush_triple node push w.store).final_cut rfl none
      have hgrown := hs.grow hkeep.1 hrecords hkeep.2
      refine ⟨hgrown.indexed, hgrown.records, hgrown.named, fun p hp => ?_, hgrown.fetches,
        hgrown.lock, hgrown.sweep⟩
      rcases List.mem_append.mp hp with hp | hp
      · exact hgrown.pushes p hp
      · split at hp
        · rename_i c hchecked
          obtain rfl := List.mem_singleton.mp hp
          intro b hb
          obtain ⟨-, hb⟩ := PushRun.mem_relied.mp hb
          exact ((checkPush_found node push).ok hstart hchecked).2 b hb
        · cases hp
  | push i a =>
      obtain ⟨p, hp, h⟩ := Option.bind_eq_some_iff.mp h
      obtain ⟨⟨s', p'⟩, hstep, h⟩ := Option.bind_eq_some_iff.mp h
      cases h
      exact hs.push hc hp hstep
  | beginFetch release providers =>
      simp only [World.step] at h
      split at h
      · rename_i hfree
        cases h
        refine ⟨hs.indexed, hs.records, hs.named, hs.pushes, fun f hf => ?_, fun h => ?_, hs.sweep⟩
        · rcases List.mem_append.mp hf with hf | hf
          · exact hs.fetches f hf
          · obtain rfl := List.mem_singleton.mp hf
            exact fun _ => ⟨hfree.2, rfl, fun _ hb => absurd hb List.not_mem_nil,
              fun _ hstage => (by cases hstage), fun _ hstage => (by cases hstage)⟩
        · rw [Option.isNone_iff_eq_none.mp hfree.1] at h
          cases h
      · cases h
  | fetch i a =>
      obtain ⟨f, hf, h⟩ := Option.bind_eq_some_iff.mp h
      split at h
      · rename_i hl
        obtain ⟨⟨s', f'⟩, hstep, h⟩ := Option.bind_eq_some_iff.mp h
        cases h
        cases a with
        | advance net => exact hs.fetch hc hf hl hstep
        | stop =>
            cases hstep
            exact hs.setFetch (fun h => by cases h) (fun _ => rfl) i
      · cases h
  | beginSweep =>
      simp only [World.step] at h
      split at h
      · rename_i hfree
        cases h
        have hnone : w.sweep = none := Option.isNone_iff_eq_none.mp hfree.1
        have hhalf : w.halfway = none := by rw [World.halfway, hnone]; rfl
        have hi := hs.indexed
        rw [hhalf] at hi
        refine ⟨hi, hs.records, hs.named, fun p hp b hb => ?_, hs.fetches,
          fun _ => hfree.2, fun sw hsw => ?_⟩
        · have := hs.pushes p hp b hb
          rwa [hhalf] at this
        · cases hsw
          refine ⟨fun rs hrs r hr => ?_, fun h => absurd rfl (h []), fun _ _ =>
            Or.inr fun _ _ => List.not_mem_nil⟩
          cases hrs
          cases hr
      · cases h
  | sweep a =>
      obtain ⟨sw, hsw, h⟩ := Option.bind_eq_some_iff.mp h
      obtain ⟨⟨s', sweep⟩, hstep, h⟩ := Option.bind_eq_some_iff.mp h
      cases h
      exact hs.sweepStep hc hsw hstep

/-- **Every run.**  In a run from nothing whose steps are all considerate, each record of each
store on the way has its blobs pinned, indexed and here. -/
theorem run_intact {acts : List Act}
    (h : Meets (World.step node) (World.Considerate node) World.empty acts) :
    Throughout (World.step node) (fun w => w.store.Intact) World.empty acts :=
  (throughout_of_meets (fun _ _ _ hs hc hstep => hs.step hc hstep) (World.sound_empty node) h).mono
    fun _ hs => hs.intact

end

end

namespace Sample

/-- A push of `image` by the node itself. -/
def pushImage : Push where
  name := "app"
  reference := "1.0"
  contentType := some mtOciManifest
  body := .ok image.bytes

/-- The steps of a push that has been checked. -/
def pushSteps (i : ℕ) : List (@Act sample) :=
  letI := sample
  [.push i .store, .push i .list, .push i (.publish 5 (.ok ()))]

/-- A sweep with `n` steps after the mark. -/
def sweepSteps (n : ℕ) : List (@Act sample) :=
  letI := sample
  [.beginSweep, .sweep (.mark false)] ++ List.replicate n (.sweep .advance)

end Sample

/-- A blob is uploaded, an image of it pushed, and the store swept: the record is there and its
blobs are kept. -/
theorem run_intact_at : letI := sample
    let node := Sample.node Policy.default
    Throughout (World.step node) (fun w => w.store.Intact) World.empty
      ([.upload Sample.config.bytes none none, .beginPush Sample.pushImage] ++ Sample.pushSteps 0 ++
        Sample.sweepSteps 4) :=
  @run_intact sample _ _ (by
    simp only [Sample.pushImage, Sample.pushSteps, Sample.sweepSteps, Sample.image_bytes]
    rw [Sample.sample_eq_prepared]
    decide +kernel)

/-- The sweep runs after the check of the push, and drops the config of the image: the record is
written all the same. -/
theorem sweep_breaks_push : letI := sample
    let node := Sample.node Policy.default
    ¬ Throughout (World.step node) (fun w => w.store.Intact) World.empty
      ([.upload Sample.config.bytes none none, .beginPush Sample.pushImage] ++ Sample.sweepSteps 6 ++
        Sample.pushSteps 0) := by
  simp only [Sample.pushImage, Sample.pushSteps, Sample.sweepSteps, Sample.image_bytes]
  rw [Sample.sample_eq_prepared]
  decide +kernel

end Ocid
