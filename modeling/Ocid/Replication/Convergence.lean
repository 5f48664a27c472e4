import Ocid.Index.Refinement
import Ocid.Lib.Latest

/-!
# Replication — Convergence — replicas that have seen the same records

Two nodes are offered the same verified records of one reference, each in its own order and with
repetitions.  `Index.putRelease` keeps a record by its timestamp and, within one second, by its
manifest: it is `keep` of the general cell (`get_recorded_eq_keep`), so both nodes end with a record
of the greatest timestamp.  They end with the same one, whatever the orders, exactly when a single
record has that timestamp (`putAll_converge_iff`).

A node can hold a record of another image whose file is a directory of this one's path, or the other
way round; it then stores none of the records.  `Vacant` leaves such nodes out.
-/

namespace Ocid

open Call Files

/-- What `supersedes` compares first. -/
def Release.rank (r : Release) : ℕ := r.payload.timestamp

/-- What `supersedes` compares within one second. -/
def Release.manifestDigest (r : Release) : Digest := r.payload.manifest.digest

theorem supersedes_iff_beats {r other : Release} :
    r.supersedes other = true ↔ Beats Release.rank Release.manifestDigest r other :=
  Release.supersedes_iff

/-- One release offered to the cell of its reference. -/
theorem get_recorded_eq_keep (rs : Table Release.ref) (rel : Release) :
    (recorded rs rel).get rel.ref =
      keep Release.rank Release.manifestDigest (rs.get rel.ref) rel := by
  rw [recorded]
  cases hg : rs.get rel.ref with
  | none =>
      rw [Option.all_none, if_pos rfl, Table.get_put_self]
      rfl
  | some e =>
      simp only [keep, Option.all_some, ← supersedes_iff_beats]
      split
      · exact Table.get_put_self _ _
      · exact hg

section
variable [External]

/-- Offer releases to the index of a node, one after the other. -/
def Index.putAll : List Release → IndexOp Unit
  | [] => pure ()
  | r :: rs => do
      let _stored ← Index.putRelease r
      Index.putAll rs

/-- The record the files have under a reference. -/
def Index.held (r : Ref) : IndexOp (Option Release) := Index.getRelease r.publisher r.name r.tag

/-- The files are those of records, without one of `r`, and without one in the way of it. -/
def Vacant (r : Ref) (t : IndexTree) : Prop :=
  ∃ rs : Table Release.ref, Filed recordPlace rs t ∧ rs.get r = none ∧
    ∀ e ∈ rs.rows, e.ref.Apart r

variable {r : Ref} {t : IndexTree}

omit [External] in
theorem vacant_empty (r : Ref) : Vacant r .empty :=
  ⟨.empty, filed_empty, rfl, fun _ he => absurd he List.not_mem_nil⟩

/-- Releases of one reference offered one after the other, where nothing is in the way. -/
theorem putAll_files {l : List Release} (h : ∀ x ∈ l, x.ref = r ∧ x.verify = .ok ())
    {rs : Table Release.ref} (hfiled : Filed recordPlace rs t)
    (hclear : ∀ e ∈ rs.rows, e.ref.Apart r) :
    (Index.putAll l).result t = .ok () ∧ ∃ rs' : Table Release.ref,
      Filed recordPlace rs' ((Index.putAll l).final t) ∧
      (∀ e ∈ rs'.rows, e.ref.Apart r) ∧
        rs'.get r = latest Release.rank Release.manifestDigest (rs.get r) l := by
  induction l generalizing rs t with
  | nil => exact ⟨rfl, rs, hfiled, hclear, rfl⟩
  | cons x l ih =>
      obtain ⟨rfl, hv⟩ := h x List.mem_cons_self
      have hvalid : x.ref.Valid := Release.valid_of_verify hv
      obtain ⟨hok, hput⟩ := putRelease_files hfiled hvalid
        (IndexWorld.free_iff.mpr fun e he => (hclear e he).1)
        (IndexWorld.open_iff.mpr fun e he => (hclear e he).2)
      have hclear' : ∀ e ∈ (recorded rs x).rows, e.ref.Apart x.ref := by
        intro e he
        rw [recorded] at he
        split at he
        · rcases Table.mem_put.mp he with rfl | he
          · exact Ref.apart_self _
          · exact hclear e he.1
        · exact hclear e he
      obtain ⟨hrest, rs', hfiled', hclear', hget⟩ :=
        ih (fun y hy => h y (List.mem_cons_of_mem _ hy)) hput hclear'
      rw [Index.putAll, result_bind_of_ok hok, final_bind_of_ok hok]
      refine ⟨hrest, rs', hfiled', hclear', ?_⟩
      rw [hget, get_recorded_eq_keep]
      rfl

/-- What a vacant node holds after the releases are offered to it. -/
theorem held_putAll {l : List Release} (hr : r.Valid)
    (h : ∀ x ∈ l, x.ref = r ∧ x.verify = .ok ()) (ht : Vacant r t) :
    (Index.putAll l).result t = .ok () ∧ (Index.held r).result ((Index.putAll l).final t) =
      .ok (latest Release.rank Release.manifestDigest none l) := by
  obtain ⟨rs, hfiled, hnone, hclear⟩ := ht
  obtain ⟨hok, rs', hfiled', hclear', hget⟩ := putAll_files h hfiled hclear
  refine ⟨hok, ?_⟩
  have hfree := IndexWorld.free_iff.mpr fun e he => (hclear' e he).1
  rw [Index.held, result, getRelease_files hfiled' hr hfree, hget, hnone]

/-- **Replicas of one reference.**  Whatever the order in which a nonempty set of verified records
is offered to a node without that reference, and without a record in the way of it, the record kept
is one of them, of the greatest timestamp; and all orders, on all such nodes, keep the same record
exactly when one record alone has the greatest timestamp. -/
theorem putAll_converge_iff {r : Ref} {S : Finset Release} (hS : S.Nonempty)
    (h : ∀ x ∈ S, x.ref = r ∧ x.verify = .ok ()) :
    (∀ (l : List Release) (t : IndexTree), (∀ x, x ∈ l ↔ x ∈ S) → Vacant r t →
      ∃ z ∈ S, (Index.putAll l).result t = .ok () ∧
        (Index.held r).result ((Index.putAll l).final t) = .ok (some z) ∧
          ∀ x ∈ S, x.payload.timestamp ≤ z.payload.timestamp) ∧
    ((∀ (l l' : List Release) (t t' : IndexTree), (∀ x, x ∈ l ↔ x ∈ S) → (∀ x, x ∈ l' ↔ x ∈ S) →
        Vacant r t → Vacant r t' → (Index.held r).result ((Index.putAll l).final t) =
          (Index.held r).result ((Index.putAll l').final t')) ↔
      ∃! z, z ∈ S ∧ ∀ x ∈ S, x.payload.timestamp ≤ z.payload.timestamp) := by
  have hr : r.Valid := by
    obtain ⟨x, hx⟩ := hS
    obtain ⟨rfl, hv⟩ := h x hx
    exact Release.valid_of_verify hv
  have hheld : ∀ (l : List Release) (t : IndexTree), (∀ x, x ∈ l ↔ x ∈ S) → Vacant r t →
      (Index.putAll l).result t = .ok () ∧ (Index.held r).result ((Index.putAll l).final t) =
        .ok (latest Release.rank Release.manifestDigest none l) :=
    fun l t hl ht => held_putAll hr (fun x hx => h x ((hl x).mp hx)) ht
  refine ⟨fun l t hl ht => ?_, ?_⟩
  · have hne : l ≠ [] := by
      obtain ⟨x, hx⟩ := hS
      rintro rfl
      exact absurd ((hl x).mpr hx) List.not_mem_nil
    obtain ⟨z, hz, hkept, hmax⟩ := exists_latest Release.rank Release.manifestDigest hne
    obtain ⟨hok, hget⟩ := hheld l t hl ht
    rw [hkept] at hget
    exact ⟨z, (hl z).mp hz, hok, hget, fun x hx => hmax x ((hl x).mpr hx)⟩
  · have hagree := latest_agree_iff Release.rank Release.manifestDigest hS
    refine Iff.trans ⟨fun hall l l' hl hl' => ?_, fun hall l l' t t' hl hl' ht ht' => ?_⟩ hagree
    · have heq := hall l l' .empty .empty hl hl' (vacant_empty r) (vacant_empty r)
      rw [(hheld l _ hl (vacant_empty r)).2, (hheld l' _ hl' (vacant_empty r)).2] at heq
      exact Except.ok.inj heq
    · rw [(hheld l t hl ht).2, (hheld l' t' hl' ht').2, hall l l' hl hl']

end

namespace Sample

/-- A release of one tag, signed at a time. -/
def tagged (manifest : Content) (timestamp : ℕ) : Release :=
  release alice "app" "1.0" manifest timestamp

/-- Two releases of one second, and a later one. -/
def tags : List Release := [tagged index 1000, tagged index2 1000, tagged index 1005]

/-- The files of a node that has the other image. -/
def libraryFiles : IndexTree :=
  letI := sample
  (Index.putRelease library).final .empty

end Sample

theorem Sample.vacant_libraryFiles : letI := sample
    Vacant (Sample.tagged Sample.index 1005).ref Sample.libraryFiles := by
  let _ := sample
  have hvalid : Sample.library.ref.Valid := ⟨by decide +kernel, by decide +kernel⟩
  have hfiled : Filed recordPlace (recorded .empty Sample.library)
      ((Index.putRelease Sample.library).final .empty) :=
    (putRelease_files filed_empty hvalid (fun e he => absurd he List.not_mem_nil)
      (fun e he => absurd he List.not_mem_nil)).2
  exact ⟨_, hfiled, by decide +kernel, by decide +kernel⟩

/-- Two nodes, one of which has another image, are offered three releases in two orders. -/
theorem putAll_converge_iff_at : letI := sample
    let r := (Sample.tagged Sample.index 1005).ref
    let l := Sample.tags ++ [Sample.tagged Sample.index 1000]
    let l' := Sample.tags.reverse
    (∃ z ∈ Sample.tags.toFinset, (Index.putAll l).result .empty = .ok () ∧
      (Index.held r).result ((Index.putAll l).final .empty) = .ok (some z) ∧
        ∀ x ∈ Sample.tags.toFinset, x.payload.timestamp ≤ z.payload.timestamp) ∧
      (Index.held r).result ((Index.putAll l).final .empty) =
        (Index.held r).result ((Index.putAll l').final Sample.libraryFiles) := by
  let _ := sample
  intro r l l'
  have hall : ∀ x ∈ Sample.tags, x.ref = r ∧ x.verify = .ok () := by decide +kernel
  have hl : ∀ x, x ∈ l ↔ x ∈ Sample.tags.toFinset := fun x => by
    simp only [l, List.mem_append, List.mem_toFinset, Sample.tags,
      List.mem_cons, List.not_mem_nil]
    tauto
  have hl' : ∀ x, x ∈ l' ↔ x ∈ Sample.tags.toFinset := fun x => by
    rw [List.mem_toFinset, List.mem_reverse]
  obtain ⟨hkept, hagree⟩ := putAll_converge_iff (r := r) (S := Sample.tags.toFinset)
    ⟨_, List.mem_toFinset.mpr List.mem_cons_self⟩ fun x hx => hall x (List.mem_toFinset.mp hx)
  refine ⟨hkept l .empty hl (vacant_empty r), hagree.mpr ⟨Sample.tagged Sample.index 1005, ?_, ?_⟩
    l l' .empty Sample.libraryFiles hl hl' (vacant_empty r) Sample.vacant_libraryFiles⟩
  · decide +kernel
  · -- the other two are of an earlier second
    have honly : ∀ z ∈ Sample.tags, z = Sample.tagged Sample.index 1005 ∨
        z.payload.timestamp < 1005 := by decide +kernel
    rintro z ⟨hz, hmax⟩
    refine (honly z (List.mem_toFinset.mp hz)).resolve_right fun hlt => ?_
    exact absurd (hmax (Sample.tagged Sample.index 1005) (by decide +kernel)) (Nat.not_le.mpr hlt)

/-- Two verified records of one second with different manifests: the orders end differently. -/
theorem putAll_order_matters : letI := sample
    let first := Sample.tagged Sample.index 1000
    let second := Sample.tagged Sample.index2 1000
    first.verify = .ok () ∧ second.verify = .ok () ∧ first.ref = second.ref ∧
      (Index.held first.ref).result ((Index.putAll [first, second]).final .empty) ≠
        (Index.held first.ref).result ((Index.putAll [second, first]).final .empty) := by
  decide +kernel

end Ocid
