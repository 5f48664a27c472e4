import Ocid.Daemon.Sample
import Ocid.Daemon.Registry

/-!
# Publishing — Catalog — the repositories of a node

The catalog lists the images of the releases a node holds, in the order of their full references,
and drops an image only when it follows itself.  A name has no `:`, so of two references the one
whose image comes first, with a `:` after it, comes first (`terminated_le`): the references of one
image stand together, also where its name begins another's, and every image is listed once
(`catalog_once`).
-/

namespace Ocid

open Call

/-- `<hex>/<name>` -/
def Release.image (r : Release) : Str := r.publisher.toStr ++ '/' :: r.name

section
variable [External]

/-- `GET /v2/_catalog`: the repositories of the response. -/
def catalog : Handler (List Str) := do
  let s ← Call.read
  pure ((s.listReleases.map Release.image).destutter (· ≠ ·))

end

/-! ### Texts with an end -/

/-- Different texts are told apart before their ends. -/
theorem terminated_lt {c : Char} {a b : Str} (ha : c ∉ a) (hb : c ∉ b)
    (h : a ++ [c] < b ++ [c]) (x y : Str) : a ++ c :: x < b ++ c :: y := by
  induction a generalizing b with
  | nil =>
      cases b with
      | nil => exact absurd h (lt_irrefl _)
      | cons e b =>
          have hne : c ≠ e := fun he => hb (he ▸ List.mem_cons_self)
          rcases List.cons_lt_cons_iff.mp h with hlt | ⟨heq, -⟩
          · exact List.cons_lt_cons_iff.mpr (Or.inl hlt)
          · exact absurd heq hne
  | cons d a ih =>
      obtain ⟨hd, ha⟩ := not_or.mp (mt List.mem_cons.mpr ha)
      cases b with
      | nil =>
          rcases List.cons_lt_cons_iff.mp h with hlt | ⟨heq, -⟩
          · exact List.cons_lt_cons_iff.mpr (Or.inl hlt)
          · exact absurd heq.symm hd
      | cons e b =>
          have hb : c ∉ b := fun hmem => hb (List.mem_cons_of_mem _ hmem)
          rcases List.cons_lt_cons_iff.mp h with hlt | ⟨heq, hlt⟩
          · exact List.cons_lt_cons_iff.mpr (Or.inl hlt)
          · exact List.cons_lt_cons_iff.mpr (Or.inr ⟨heq, ih ha hb hlt⟩)

/-- What comes after the ends does not matter for the order of different texts. -/
theorem terminated_le {c : Char} {a b x y : Str} (ha : c ∉ a) (hb : c ∉ b)
    (h : a ++ c :: x ≤ b ++ c :: y) : a ++ [c] ≤ b ++ [c] :=
  not_lt.mp fun hlt => not_lt.mpr h (terminated_lt hb ha hlt y x)

/-- The order of texts with an end. -/
def EndedLe (c : Char) (a b : Str) : Prop := a ++ [c] ≤ b ++ [c]

instance (c : Char) : Std.Antisymm (EndedLe c) :=
  ⟨fun _ _ h h' => List.append_cancel_right (le_antisymm h h')⟩

/-! ### Images -/

namespace Release

theorem reference_eq (r : Release) : r.reference = r.image ++ ':' :: r.payload.tag := by
  simp [reference, Ref.toStr, ref, image, publisher, name]

/-- The text of an image has no `:`. -/
theorem colon_notMem_image {r : Release} (h : validateName r.name = .ok ()) : ':' ∉ r.image := by
  intro hmem
  rcases List.mem_append.mp hmem with hmem | hmem
  · exact absurd (PublicKey.isLowerHex_of_mem hmem) (by decide)
  · rcases List.mem_cons.mp hmem with hmem | hmem
    · exact absurd hmem (by decide)
    · exact ((validateName_eq_ok.mp h).1.of_mem hmem).1 rfl

/-- It says which image it is. -/
theorem image_eq_iff (r : Release) (K : PublisherId) (n : Str) :
    r.image = K.toStr ++ '/' :: n ↔ r.publisher = K ∧ r.name = n := by
  constructor
  · intro h
    obtain ⟨hK, hn⟩ := List.append_inj h (by rw [PublicKey.length_toStr, PublicKey.length_toStr])
    exact ⟨PublicKey.toStr_inj hK, (List.cons.inj hn).2⟩
  · rintro ⟨rfl, rfl⟩
    rfl

end Release

/-- In the order of their references, releases are in the order of their images. -/
theorem pairwise_images {rs : List Release} (hvalid : ∀ r ∈ rs, validateName r.name = .ok ())
    (h : rs.Pairwise fun a b => a.reference ≤ b.reference) :
    (rs.map Release.image).Pairwise (EndedLe ':') := by
  rw [List.pairwise_map]
  refine h.imp_of_mem fun {a b} ha hb hle => ?_
  rw [a.reference_eq, b.reference_eq] at hle
  exact terminated_le (Release.colon_notMem_image (hvalid a ha))
    (Release.colon_notMem_image (hvalid b hb)) hle

section
variable [External] {s : Store}

theorem catalog_result (hs : ∀ r ∈ s.releases.rows, r.verify = .ok ()) :
    catalog.result s = .ok (s.listReleases.map Release.image).dedup := by
  have hvalid : ∀ r ∈ s.listReleases, validateName r.name = .ok () := fun r hr =>
    (Release.valid_of_verify (hs r (Table.mem_of_get (Store.mem_listReleases.mp hr)))).1
  have hsorted : s.listReleases.Pairwise fun a b => a.reference ≤ b.reference :=
    List.pairwise_insertionSort _ _
  rw [← (pairwise_images hvalid hsorted).destutter_eq_dedup]
  rfl

/-- **Of verified releases, the catalog lists every image once, and nothing else.** -/
theorem catalog_once (hs : ∀ r ∈ s.releases.rows, r.verify = .ok ()) :
    ∃ repos, catalog.result s = .ok repos ∧
      (∀ (K : PublisherId) (n : Str), (∃ r ∈ s.releases.rows, r.publisher = K ∧ r.name = n) ↔
        repos.count (K.toStr ++ '/' :: n) = 1) ∧
      repos.Nodup ∧
      ∀ repo ∈ repos, ∃ r ∈ s.releases.rows, repo = r.publisher.toStr ++ '/' :: r.name := by
  have hmem : ∀ repo, repo ∈ (s.listReleases.map Release.image).dedup ↔
      ∃ r ∈ s.releases.rows, r.image = repo := fun repo => by
    rw [List.mem_dedup, List.mem_map]
    refine exists_congr fun r => and_congr_left fun _ => ?_
    exact ⟨fun h => Table.mem_of_get (Store.mem_listReleases.mp h),
      fun h => Store.mem_listReleases.mpr (Table.get_of_mem h)⟩
  have hnodup := List.nodup_dedup (s.listReleases.map Release.image)
  refine ⟨_, catalog_result hs, fun K n => ?_, hnodup, fun repo hrepo => ?_⟩
  · simp only [← Release.image_eq_iff, ← hmem]
    exact ⟨List.count_eq_one_of_mem hnodup, fun h => List.count_pos_iff.mp (by omega)⟩
  · obtain ⟨r, hr, rfl⟩ := (hmem repo).mp hrepo
    exact ⟨r, hr, rfl⟩

end

namespace Sample

/-- Releases of images whose names begin one another, and two tags of one. -/
def catalogued : @Store sample :=
  letI := sample
  let put (s : Store) (r : Release) : Store := { s with releases := s.releases.put r }
  [release alice "a" "2" index 100, release alice "a-b" "1" index 101,
    release alice "a" "1" index 102, release bob "a.b" "1" index 103].foldl put Store.empty

end Sample

theorem catalog_once_at : letI := sample
    ∃ repos, catalog.result Sample.catalogued = .ok repos ∧
      (∀ (K : PublisherId) (n : Str),
        (∃ r ∈ Sample.catalogued.releases.rows, r.publisher = K ∧ r.name = n) ↔
          repos.count (K.toStr ++ '/' :: n) = 1) ∧
      repos.Nodup ∧
      ∀ repo ∈ repos, ∃ r ∈ Sample.catalogued.releases.rows,
        repo = r.publisher.toStr ++ '/' :: r.name := by
  let _ := sample
  have hs : ∀ r ∈ Sample.catalogued.releases.rows, r.verify = .ok () := by decide +kernel
  exact catalog_once hs

end Ocid
