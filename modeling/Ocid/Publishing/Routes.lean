import Ocid.Lib.Search
import Ocid.Publishing.Uploads

/-!
# Publishing — Routes — which operation a path is

Below `/v2/` a path is the name of a repository and the operation on it.  Names have slashes, and
`route` looks for the words of the operations one after another: the last `/blobs/uploads` first,
wherever it is, then the last `/manifests/`, `/referrers/` and `/blobs/`.

The path of an operation is read as this operation exactly when no word that is looked for earlier
is in the name (`Operation.Unshadowed`, `route_path_iff`).  What follows `/blobs/uploads` is the id of
an upload when a slash is between; anything else but nothing is dropped, and the path is read as a
start of an upload (`Glued`, `route_uploadStart_iff`).
-/

namespace Ocid

open Search

/-- What a path under `/v2/` leads to. -/
inductive Route where
  | catalog
  | tags (name : Str)
  | manifest (name reference : Str)
  | uploadStart (name : Str)
  | upload (name id : Str)
  | blob (name digest : Str)
  | referrers (name digest : Str)
deriving DecidableEq

/-- Look for the words of the operations, one after another. -/
def routeWords (path : Str) : Option Route :=
  match lastIndex "/blobs/uploads" path with
  | some i =>
      let name := path.take i
      some (match path.drop (i + 14) with
        | '/' :: d :: id => .upload name (d :: id)
        -- nothing, a slash, or no slash at all
        | _ => .uploadStart name)
  | none => match lastIndex "/manifests/" path with
    | some i => some (.manifest (path.take i) (path.drop (i + 11)))
    | none => match lastIndex "/referrers/" path with
      | some i => some (.referrers (path.take i) (path.drop (i + 11)))
      | none => match lastIndex "/blobs/" path with
        | some i => some (.blob (path.take i) (path.drop (i + 7)))
        | none => none

/-- Where a path leads: names have slashes, so what follows them is looked for from the end. -/
def route (path : Str) : Option Route :=
  let path := Str.trimEndMatches '/' path
  if path = ("_catalog" : Str) then some .catalog
  else match stripSuffix "/tags/list" path with
  | some name => some (.tags name)
  | none => routeWords path

/-! ### Operations -/

/-- A name that is valid. -/
structure RepositoryName where
  text : Str
  valid : validateName text = .ok ()

/-- A manifest is named by a tag or by its digest. -/
inductive ManifestReference where
  | tag (t : Str) (valid : validateTag t = .ok ())
  | digest (d : Digest)

/-- A tag or a digest, as it stands in a path. -/
def ManifestReference.text : ManifestReference → Str
  | tag t _ => t
  | digest d => d.str

/-- An operation of the registry on what can be named. -/
inductive Operation where
  | catalog
  | tags (name : RepositoryName)
  | manifest (name : RepositoryName) (reference : ManifestReference)
  | uploadStart (name : RepositoryName)
  | upload (name : RepositoryName) (id : Uuid)
  | blob (name : RepositoryName) (digest : Digest)
  | referrers (name : RepositoryName) (digest : Digest)

namespace Operation

/-- The path of the operation. -/
def path : Operation → Str
  | catalog => "_catalog"
  | tags name => name.text ++ "/tags/list"
  | manifest name reference => name.text ++ ("/manifests/" ++ reference.text)
  | uploadStart name => name.text ++ "/blobs/uploads"
  | upload name id => name.text ++ ("/blobs/uploads/" ++ id.text)
  | blob name digest => name.text ++ ("/blobs/" ++ digest.str)
  | referrers name digest => name.text ++ ("/referrers/" ++ digest.str)

/-- Where a path leads: names have slashes, so what follows them is looked for from the end. -/
def route : Operation → Route
  | catalog => .catalog
  | tags name => .tags name.text
  | manifest name reference => .manifest name.text reference.text
  | uploadStart name => .uploadStart name.text
  | upload name id => .upload name.text id.text
  | blob name digest => .blob name.text digest.str
  | referrers name digest => .referrers name.text digest.str

/-- No word that is looked for before the operation's own is in the name. -/
def Unshadowed : Operation → Prop
  | manifest name _ => ¬ ("/blobs/uploads" : Str) <:+: name.text
  | referrers name _ => ¬ ("/blobs/uploads" : Str) <:+: name.text ∧
      ¬ ("/manifests/" : Str) <:+: name.text ++ "/"
  | blob name _ => ¬ ("/blobs/uploads" : Str) <:+: name.text ∧
      ¬ ("/manifests/" : Str) <:+: name.text ++ "/" ∧ ¬ ("/referrers/" : Str) <:+: name.text ++ "/"
  | _ => True

end Operation

/-- The path of an upload is where a client is sent. -/
theorem uploadLocation_eq (name : RepositoryName) (id : Uuid) :
    uploadLocation name.text id.text = "/v2/" ++ (Operation.upload name id).path :=
  rfl

/-! ### What the parts of a path are made of -/

theorem Digest.str_ne_nil (d : Digest) : d.str ≠ [] := by
  rw [d.str_eq.1]
  exact List.cons_ne_nil _ _

theorem Digest.slash_notMem (d : Digest) : '/' ∉ d.str := by
  obtain ⟨hstr, hhex⟩ := d.str_eq
  rw [hstr, List.mem_append, not_or]
  refine ⟨by decide, fun h => ?_⟩
  have := hhex _ h
  revert this
  decide

theorem ManifestReference.text_ne (reference : ManifestReference) :
    reference.text ≠ [] ∧ '/' ∉ reference.text := by
  cases reference with
  | tag t valid =>
      refine ⟨?_, fun h => (of_mem_tag valid h).2.1 rfl⟩
      rintro h
      have h : t = [] := h
      subst h
      cases valid
  | digest d => exact ⟨d.str_ne_nil, d.slash_notMem⟩

theorem Uuid.text_ne (id : Uuid) : '/' ∉ id.text ∧ id.text ≠ [] := by
  have hwf := id.wf
  rw [Uuid.wellFormed, Bool.and_eq_true, List.all_eq_true] at hwf
  refine ⟨fun h => ?_, fun h => ?_⟩
  · have := hwf.2 _ h
    revert this
    decide
  · have := hwf.1
    rw [h] at this
    revert this
    decide

/-! ### Slashes at the end -/

theorem trimEnd_slashes {s : Str} (hs : ∀ c ∈ s.getLast?, c ≠ '/') (n : ℕ) :
    Str.trimEndMatches '/' (s ++ List.replicate n '/') = s := by
  induction n with
  | zero =>
      rw [List.replicate_zero, List.append_nil, Str.trimEndMatches, List.rdropWhile_eq_self_iff]
      intro hne
      simpa using hs (s.getLast hne) (List.getLast?_eq_getLast_of_ne_nil hne)
  | succ n ih =>
      rw [List.replicate_succ', ← List.append_assoc, Str.trimEndMatches,
        List.rdropWhile_concat_pos _ _ _ (by decide)]
      exact ih

theorem exists_slashes (s : Str) :
    ∃ n, s = Str.trimEndMatches '/' s ++ List.replicate n '/' := by
  refine ⟨(s.rtakeWhile (· == '/')).length, ?_⟩
  have hslashes : s.rtakeWhile (· == '/') =
      List.replicate (s.rtakeWhile (· == '/')).length '/' :=
    List.eq_replicate_of_mem fun c hc => by simpa using List.mem_rtakeWhile_imp hc
  rw [← hslashes, Str.trimEndMatches, List.rdropWhile_append_rtakeWhile]

/-! ### Reading the path of an operation -/

section
variable {a v r : Str}

/-- The last word of a path that is neither the catalog nor a list of tags. -/
theorem route_eq_words (hv : '/' ∉ v) (hr : '/' ∉ r) (hne : r ≠ [])
    (htags : ¬ (("tags" : Str) = v ∧ ("list" : Str) = r)) (n : ℕ) :
    route (a ++ '/' :: (v ++ '/' :: r) ++ List.replicate n '/') =
      routeWords (a ++ '/' :: (v ++ '/' :: r)) := by
  have hlast : ∀ c ∈ (a ++ '/' :: (v ++ '/' :: r)).getLast?, c ≠ '/' := by
    rintro c hc rfl
    have hc : '/' ∈ r.getLast? := by
      rw [List.getLast?_append_of_ne_nil _ (List.cons_ne_nil _ _),
        List.getLast?_cons_of_ne_nil (by simp),
        List.getLast?_append_of_ne_nil _ (List.cons_ne_nil _ _),
        List.getLast?_cons_of_ne_nil hne] at hc
      exact hc
    exact hr (List.mem_of_getLast? hc)
  have hcatalog : a ++ '/' :: (v ++ '/' :: r) ≠ ("_catalog" : Str) := by
    intro h
    have hmem : '/' ∈ ("_catalog" : Str) :=
      h ▸ List.mem_append_right a List.mem_cons_self
    revert hmem
    decide
  have hsuffix : stripSuffix "/tags/list" (a ++ '/' :: (v ++ '/' :: r)) = none := by
    rw [stripSuffix_eq_none]
    intro h
    have hpath : a ++ '/' :: (v ++ '/' :: r) = (a ++ '/' :: v) ++ '/' :: r := by simp
    have htwo : ("/tags/list" : Str) = ('/' :: ("tags" : Str)) ++ '/' :: ("list" : Str) := rfl
    rw [hpath, htwo, word_suffix_iff (by decide) hr] at h
    obtain ⟨hlist, h⟩ := h
    have hone : '/' :: ("tags" : Str) = [] ++ '/' :: ("tags" : Str) := rfl
    rw [hone, word_suffix_iff (by decide) hv] at h
    exact htags ⟨h.1, hlist⟩
  rw [route, trimEnd_slashes hlast]
  simp only [hcatalog, hsuffix, if_false]

/-- `/blobs/uploads` is in a path when it is in the name. -/
theorem uploads_infix_iff (hv : '/' ∉ v) (hr : '/' ∉ r)
    (hword : ¬ ("uploads" : Str) <+: v ++ '/' :: r)
    (hid : ¬ (("blobs" : Str) = v ∧ ("uploads" : Str) <+: r)) :
    ("/blobs/uploads" : Str) <:+: a ++ '/' :: (v ++ '/' :: r) ↔
      ("/blobs/uploads" : Str) <:+: a := by
  have htwo : ("/blobs/uploads" : Str) = '/' :: (("blobs" : Str) ++ '/' :: ("uploads" : Str)) := rfl
  rw [htwo, mark_infix_iff (by decide) (by decide) hv hr]
  exact or_iff_left (not_or.mpr ⟨fun h => hword h.2, hid⟩)

/-- A marked word is in a path when it is in the name with the mark behind it, or is the last
word. -/
theorem word_infix_iff {w : Str} (hw : '/' ∉ w) (hv : '/' ∉ v) (hr : '/' ∉ r) :
    '/' :: (w ++ ['/']) <:+: a ++ '/' :: (v ++ '/' :: r) ↔
      '/' :: (w ++ ['/']) <:+: a ++ ['/'] ∨ w = v := by
  rw [mark_infix_iff hw (by simp) hv hr, mark_infix_concat_iff, or_assoc]
  simp

/-- The last word is found where the name ends. -/
theorem lastIndex_word (hv : '/' ∉ v) (hr : '/' ∉ r) :
    lastIndex ('/' :: (v ++ ['/'])) (a ++ '/' :: (v ++ '/' :: r)) = some a.length := by
  have hpath : a ++ '/' :: (v ++ '/' :: r) = a ++ ('/' :: (v ++ ['/']) ++ r) := by simp
  have hlater : ¬ '/' :: (v ++ ['/']) <:+: ('/' :: (v ++ ['/']) ++ r).tail := by
    have htail : ('/' :: (v ++ ['/']) ++ r).tail = v ++ '/' :: r := by simp
    rw [htail, infix_append_of_notMem hv, infix_mark_iff]
    refine not_or.mpr ⟨fun h => hr (h.subset ?_), not_infix_of_notMem hr⟩
    exact List.mem_append_right _ List.mem_cons_self
  rw [hpath, lastIndex_append (List.cons_ne_nil _ _) hlater]

theorem take_name : (a ++ '/' :: (v ++ '/' :: r)).take a.length = a := by simp

theorem drop_name : (a ++ '/' :: (v ++ '/' :: r)).drop (a.length + (v.length + 2)) = r := by
  have hpath : a ++ '/' :: (v ++ '/' :: r) = (a ++ '/' :: (v ++ ['/'])) ++ r := by simp
  have hlength : a.length + (v.length + 2) = (a ++ '/' :: (v ++ ['/'])).length := by
    simp
  rw [hpath, hlength, List.drop_left]

/-! ### What is found -/

/-- A path with `/blobs/uploads` is read as one of the uploads. -/
theorem routeWords_uploads {path : Str} (h : ("/blobs/uploads" : Str) <:+: path) :
    ∃ name, routeWords path = some (.uploadStart name) ∨
      ∃ id, routeWords path = some (.upload name id) := by
  rw [routeWords]
  cases hi : lastIndex ("/blobs/uploads" : Str) path with
  | none => exact absurd h (lastIndex_eq_none.mp hi)
  | some i =>
      refine ⟨path.take i, ?_⟩
      dsimp only
      split
      · exact Or.inr ⟨_, rfl⟩
      · exact Or.inl rfl

theorem routeWords_manifests {path : Str} (huploads : ¬ ("/blobs/uploads" : Str) <:+: path)
    (h : ("/manifests/" : Str) <:+: path) :
    ∃ i, lastIndex ("/manifests/" : Str) path = some i ∧
      routeWords path = some (.manifest (path.take i) (path.drop (i + 11))) := by
  rw [routeWords, lastIndex_eq_none.mpr huploads]
  cases hi : lastIndex ("/manifests/" : Str) path with
  | none => exact absurd h (lastIndex_eq_none.mp hi)
  | some i => exact ⟨i, rfl, rfl⟩

theorem routeWords_referrers {path : Str} (huploads : ¬ ("/blobs/uploads" : Str) <:+: path)
    (hmanifests : ¬ ("/manifests/" : Str) <:+: path) (h : ("/referrers/" : Str) <:+: path) :
    ∃ i, lastIndex ("/referrers/" : Str) path = some i ∧
      routeWords path = some (.referrers (path.take i) (path.drop (i + 11))) := by
  rw [routeWords, lastIndex_eq_none.mpr huploads, lastIndex_eq_none.mpr hmanifests]
  cases hi : lastIndex ("/referrers/" : Str) path with
  | none => exact absurd h (lastIndex_eq_none.mp hi)
  | some i => exact ⟨i, rfl, rfl⟩

theorem routeWords_blobs {path : Str} (huploads : ¬ ("/blobs/uploads" : Str) <:+: path)
    (hmanifests : ¬ ("/manifests/" : Str) <:+: path)
    (hreferrers : ¬ ("/referrers/" : Str) <:+: path) (h : ("/blobs/" : Str) <:+: path) :
    ∃ i, lastIndex ("/blobs/" : Str) path = some i ∧
      routeWords path = some (.blob (path.take i) (path.drop (i + 7))) := by
  rw [routeWords, lastIndex_eq_none.mpr huploads, lastIndex_eq_none.mpr hmanifests,
    lastIndex_eq_none.mpr hreferrers]
  cases hi : lastIndex ("/blobs/" : Str) path with
  | none => exact absurd h (lastIndex_eq_none.mp hi)
  | some i => exact ⟨i, rfl, rfl⟩

end

namespace Operation

variable {name : RepositoryName}

theorem route_catalog (n : ℕ) :
    Ocid.route (catalog.path ++ List.replicate n '/') = some catalog.route := by
  have hlast : ∀ c ∈ ("_catalog" : Str).getLast?, c ≠ '/' := by
    intro c hc
    have hg : ("_catalog" : Str).getLast? = some 'g' := rfl
    rw [hg] at hc
    cases hc
    decide
  have htrim : Str.trimEndMatches '/' (catalog.path ++ List.replicate n '/') = "_catalog" :=
    trimEnd_slashes hlast n
  rw [Ocid.route, htrim]
  exact if_pos rfl

theorem route_tags (name : RepositoryName) (n : ℕ) :
    Ocid.route ((tags name).path ++ List.replicate n '/') = some (tags name).route := by
  have hlast : ∀ c ∈ (name.text ++ ("/tags/list" : Str)).getLast?, c ≠ '/' := by
    intro c hc
    have hlist : ("/tags/list" : Str).getLast? = some 't' := by decide
    rw [List.getLast?_append_of_ne_nil _ (by decide), hlist] at hc
    obtain rfl := Option.some.inj hc
    decide
  have hcatalog : name.text ++ ("/tags/list" : Str) ≠ ("_catalog" : Str) := by
    intro h
    have hmem : '/' ∈ name.text ++ ("/tags/list" : Str) :=
      List.mem_append_right _ (by decide)
    rw [h] at hmem
    revert hmem
    decide
  have hsuffix : stripSuffix ("/tags/list" : Str) (name.text ++ ("/tags/list" : Str)) =
      some name.text := stripSuffix_eq_some.mpr rfl
  have hpath : (tags name).path = name.text ++ ("/tags/list" : Str) := rfl
  rw [hpath, Ocid.route, trimEnd_slashes hlast, if_neg hcatalog, hsuffix]
  rfl

/-- Nothing of `/blobs/uploads` can be found behind its first slash, nor in the id. -/
theorem lastIndex_uploads (a : Str) {b : Str}
    (hb : ¬ ("/blobs/uploads" : Str) <:+: b) (hone : ¬ ("blobs/uploads" : Str) <+: ("uploads" ++ b)) :
    lastIndex ("/blobs/uploads" : Str) (a ++ (("/blobs/uploads" : Str) ++ b)) = some a.length := by
  refine lastIndex_append (by decide) ?_ a
  have htail : (("/blobs/uploads" : Str) ++ b).tail =
      ("blobs" : Str) ++ '/' :: (("uploads" : Str) ++ b) := rfl
  have hmark : ("/blobs/uploads" : Str) = '/' :: ("blobs/uploads" : Str) := rfl
  rw [htail, hmark, infix_append_of_notMem (by decide), infix_mark_iff,
    infix_append_of_notMem (by decide)]
  exact not_or.mpr ⟨hone, hb⟩

theorem route_uploadStart (name : RepositoryName) (n : ℕ) :
    Ocid.route ((uploadStart name).path ++ List.replicate n '/') =
      some (uploadStart name).route := by
  have hwords := route_eq_words (a := name.text) (v := "blobs") (r := "uploads") (by decide)
    (by decide) (by decide) (by decide) n
  have hlast := lastIndex_uploads name.text (b := []) (by decide) (by decide)
  refine hwords.trans ?_
  show routeWords (name.text ++ (("/blobs/uploads" : Str) ++ [])) = _
  rw [routeWords, hlast]
  simp [route]

theorem route_upload (name : RepositoryName) (id : Uuid) (n : ℕ) :
    Ocid.route ((upload name id).path ++ List.replicate n '/') = some (upload name id).route := by
  obtain ⟨hid, hne⟩ := Uuid.text_ne id
  have hpath : (upload name id).path =
      (name.text ++ ("/blobs" : Str)) ++ '/' :: (("uploads" : Str) ++ '/' :: id.text) := by
    rw [List.append_assoc]
    rfl
  have hwords := route_eq_words (a := name.text ++ ("/blobs" : Str)) (v := "uploads") (by decide)
    hid hne (fun h => absurd h.1 (by decide)) n
  have hmark : ("/blobs/uploads" : Str) = '/' :: ("blobs/uploads" : Str) := rfl
  have hnone : ¬ ("/blobs/uploads" : Str) <:+: '/' :: id.text := by
    rw [hmark, infix_mark_iff]
    refine not_or.mpr ⟨fun h => hid (h.subset (by decide)), not_infix_of_notMem hid⟩
  have hlast := lastIndex_uploads name.text hnone (by simp)
  rw [hpath, hwords, ← hpath]
  show routeWords (name.text ++ (("/blobs/uploads" : Str) ++ '/' :: id.text)) = _
  rw [routeWords, hlast]
  have hdrop : (name.text ++ (("/blobs/uploads" : Str) ++ '/' :: id.text)).drop
      (name.text.length + 14) = '/' :: id.text := by
    rw [← List.drop_drop, List.drop_left]
    rfl
  cases htext : id.text with
  | nil => exact absurd htext hne
  | cons d rest =>
      rw [htext] at hdrop
      simp only [hdrop, List.take_left]
      rw [route, htext]

/-- What is looked for is found where the name ends. -/
theorem found {a v r : Str} {i : ℕ} (hv : '/' ∉ v) (hr : '/' ∉ r)
    (h : lastIndex ('/' :: (v ++ ['/'])) (a ++ '/' :: (v ++ '/' :: r)) = some i) :
    (a ++ '/' :: (v ++ '/' :: r)).take i = a ∧
      (a ++ '/' :: (v ++ '/' :: r)).drop (i + (v.length + 2)) = r := by
  rw [lastIndex_word hv hr] at h
  obtain rfl := Option.some.inj h
  exact ⟨take_name, drop_name⟩

/-- What is read as anything else has no `/blobs/uploads`. -/
theorem not_uploads {path : Str} {m : Route}
    (h : routeWords path = some m) (hstart : ∀ name, m ≠ .uploadStart name)
    (hupload : ∀ name id, m ≠ .upload name id) : ¬ ("/blobs/uploads" : Str) <:+: path := by
  intro hshadow
  obtain ⟨name, hroute | ⟨id, hroute⟩⟩ := routeWords_uploads hshadow
  · exact hstart name (Option.some.inj (h.symm.trans hroute))
  · exact hupload name id (Option.some.inj (h.symm.trans hroute))

theorem route_manifest (name : RepositoryName) (reference : ManifestReference) (n : ℕ) :
    Ocid.route ((manifest name reference).path ++ List.replicate n '/') =
        some (manifest name reference).route ↔
      (manifest name reference).Unshadowed := by
  obtain ⟨hne, hslash⟩ := reference.text_ne
  have hpath : (manifest name reference).path =
      name.text ++ '/' :: (("manifests" : Str) ++ '/' :: reference.text) := rfl
  have hwords := route_eq_words (a := name.text) (v := "manifests") (by decide) hslash hne
    (fun h => absurd h.1 (by decide)) n
  have huploads := uploads_infix_iff (a := name.text) (v := "manifests") (by decide) hslash
    (by simp) (fun h => absurd h.1 (by decide))
  rw [hpath, hwords, Unshadowed, ← huploads]
  constructor
  · intro h
    exact not_uploads h nofun nofun
  · intro h
    have hin := (word_infix_iff (a := name.text) (w := "manifests") (by decide) (by decide)
      hslash).mpr (Or.inr rfl)
    obtain ⟨i, hi, hroute⟩ := routeWords_manifests h hin
    obtain ⟨htake, hdrop⟩ := found (a := name.text) (v := "manifests") (by decide) hslash hi
    rw [hroute, htake]
    exact congrArg (fun r => some (Route.manifest name.text r)) hdrop

theorem route_referrers (name : RepositoryName) (digest : Digest) (n : ℕ) :
    Ocid.route ((referrers name digest).path ++ List.replicate n '/') =
        some (referrers name digest).route ↔
      (referrers name digest).Unshadowed := by
  have hslash := digest.slash_notMem
  have hpath : (referrers name digest).path =
      name.text ++ '/' :: (("referrers" : Str) ++ '/' :: digest.str) := rfl
  have hwords := route_eq_words (a := name.text) (v := "referrers") (by decide) hslash
    digest.str_ne_nil (fun h => absurd h.1 (by decide)) n
  have huploads := uploads_infix_iff (a := name.text) (v := "referrers") (by decide) hslash
    (by simp) (fun h => absurd h.1 (by decide))
  have hmanifests := word_infix_iff (a := name.text) (w := "manifests") (v := "referrers")
    (by decide) (by decide) hslash
  have hin := (word_infix_iff (a := name.text) (w := "referrers") (by decide) (by decide)
    hslash).mpr (Or.inr rfl)
  rw [or_iff_left (by decide)] at hmanifests
  rw [hpath, hwords, Unshadowed, ← huploads]
  constructor
  · intro h
    have hnot := not_uploads h nofun nofun
    refine ⟨hnot, fun hshadow => ?_⟩
    obtain ⟨i, -, hroute⟩ := routeWords_manifests hnot (hmanifests.mpr hshadow)
    rw [hroute] at h
    cases h
  · rintro ⟨hnot, hnotm⟩
    obtain ⟨i, hi, hroute⟩ := routeWords_referrers hnot (fun h => hnotm (hmanifests.mp h)) hin
    obtain ⟨htake, hdrop⟩ := found (a := name.text) (v := "referrers") (by decide) hslash hi
    rw [hroute, htake]
    exact congrArg (fun r => some (Route.referrers name.text r)) hdrop

theorem route_blob (name : RepositoryName) (digest : Digest) (n : ℕ) :
    Ocid.route ((blob name digest).path ++ List.replicate n '/') =
        some (blob name digest).route ↔
      (blob name digest).Unshadowed := by
  have hslash := digest.slash_notMem
  have hpath : (blob name digest).path =
      name.text ++ '/' :: (("blobs" : Str) ++ '/' :: digest.str) := rfl
  have hwords := route_eq_words (a := name.text) (v := "blobs") (by decide) hslash
    digest.str_ne_nil (fun h => absurd h.1 (by decide)) n
  have hsha : ¬ ("uploads" : Str) <+: digest.str := by
    rw [digest.str_eq.1]
    simp
  have huploads := uploads_infix_iff (a := name.text) (v := "blobs") (by decide) hslash
    (by simp) (fun h => hsha h.2)
  have hmanifests := word_infix_iff (a := name.text) (w := "manifests") (v := "blobs")
    (by decide) (by decide) hslash
  have hreferrers := word_infix_iff (a := name.text) (w := "referrers") (v := "blobs")
    (by decide) (by decide) hslash
  have hin := (word_infix_iff (a := name.text) (w := "blobs") (by decide) (by decide)
    hslash).mpr (Or.inr rfl)
  rw [or_iff_left (by decide)] at hmanifests hreferrers
  rw [hpath, hwords, Unshadowed, ← huploads]
  constructor
  · intro h
    have hnot := not_uploads h nofun nofun
    have hnotm : ¬ ("/manifests/" : Str) <:+: name.text ++ "/" := by
      intro hshadow
      obtain ⟨i, -, hroute⟩ := routeWords_manifests hnot (hmanifests.mpr hshadow)
      rw [hroute] at h
      cases h
    refine ⟨hnot, hnotm, fun hshadow => ?_⟩
    obtain ⟨i, -, hroute⟩ := routeWords_referrers hnot (fun h => hnotm (hmanifests.mp h))
      (hreferrers.mpr hshadow)
    rw [hroute] at h
    cases h
  · rintro ⟨hnot, hnotm, hnotr⟩
    obtain ⟨i, hi, hroute⟩ := routeWords_blobs hnot (fun h => hnotm (hmanifests.mp h))
      (fun h => hnotr (hreferrers.mp h)) hin
    obtain ⟨htake, hdrop⟩ := found (a := name.text) (v := "blobs") (by decide) hslash hi
    rw [hroute, htake]
    exact congrArg (fun r => some (Route.blob name.text r)) hdrop

/-- The path of an operation is read as this operation when nothing in the name shadows it. -/
theorem route_path_iff (op : Operation) (n : ℕ) :
    Ocid.route (op.path ++ List.replicate n '/') = some op.route ↔ op.Unshadowed := by
  cases op with
  | catalog => exact iff_of_true (route_catalog n) trivial
  | tags name => exact iff_of_true (route_tags name n) trivial
  | manifest name reference => exact route_manifest name reference n
  | uploadStart name => exact iff_of_true (route_uploadStart name n) trivial
  | upload name id => exact iff_of_true (route_upload name id n) trivial
  | blob name digest => exact route_blob name digest n
  | referrers name digest => exact route_referrers name digest n

end Operation

/-! ### What is read as the start of an upload -/

/-- The last `/blobs/uploads` of a path is followed by something that no slash cuts off. -/
def Glued (path : Str) : Prop :=
  ∃ a c b, path = a ++ (("/blobs/uploads" : Str) ++ c :: b) ∧ c ≠ '/' ∧
    ¬ ("/blobs/uploads" : Str) <:+: c :: b ∧ ¬ ("/tags/list" : Str) <:+ path

/-- What is glued to the word is dropped. -/
theorem route_of_glued {path a b : Str} {c : Char}
    (hpath : Str.trimEndMatches '/' path = a ++ (("/blobs/uploads" : Str) ++ c :: b)) (hc : c ≠ '/')
    (hb : ¬ ("/blobs/uploads" : Str) <:+: c :: b)
    (htags : ¬ ("/tags/list" : Str) <:+ a ++ (("/blobs/uploads" : Str) ++ c :: b)) :
    route path = some (.uploadStart a) := by
  have hcatalog : a ++ (("/blobs/uploads" : Str) ++ c :: b) ≠ ("_catalog" : Str) := by
    intro h
    have hmem : '/' ∈ a ++ (("/blobs/uploads" : Str) ++ c :: b) :=
      List.mem_append_right _ (List.mem_append_left _ (by decide))
    rw [h] at hmem
    revert hmem
    decide
  have hlast := Operation.lastIndex_uploads a hb (by simp)
  have hdrop : (a ++ (("/blobs/uploads" : Str) ++ c :: b)).drop (a.length + 14) = c :: b := by
    rw [← List.drop_drop, List.drop_left]
    rfl
  rw [route, hpath, if_neg hcatalog, stripSuffix_eq_none.mpr htags]
  show routeWords _ = _
  rw [routeWords, hlast]
  simp only [hdrop, List.take_left]
  split
  · rename_i hcons
    exact absurd (List.cons.inj hcons).1 hc
  · rfl

/-- A path is read as the start of an upload only when it ends with the word and slashes, exactly
when nothing is glued to the word. -/
theorem route_uploadStart_iff (path : Str) :
    (∀ name, route path = some (.uploadStart name) →
      ∃ n, path = name ++ (("/blobs/uploads" : Str) ++ List.replicate n '/')) ↔
      ¬ Glued (Str.trimEndMatches '/' path) := by
  obtain ⟨m, hm⟩ := exists_slashes path
  generalize hq : Str.trimEndMatches '/' path = q at hm
  constructor
  · rintro h ⟨a, c, b, rfl, hc, hb, htags⟩
    obtain ⟨n, hn⟩ := h a (route_of_glued hq hc hb htags)
    rw [hm, List.append_assoc, List.append_assoc, List.append_cancel_left_eq,
      List.append_cancel_left_eq] at hn
    have hmem : c ∈ List.replicate n '/' := hn ▸ List.mem_cons_self
    exact hc (List.eq_of_mem_replicate hmem)
  · intro hglued name h
    rw [route, hq] at h
    split at h
    · cases h
    · cases hsuffix : stripSuffix ("/tags/list" : Str) q with
      | some a =>
          rw [hsuffix] at h
          cases h
      | none =>
          rw [hsuffix] at h
          have h : routeWords q = some (.uploadStart name) := h
          have hin : ("/blobs/uploads" : Str) <:+: q := by
            by_contra hnot
            rw [routeWords, lastIndex_eq_none.mpr hnot] at h
            dsimp only at h
            split at h
            · cases h
            · split at h
              · cases h
              · split at h <;> cases h
          cases hi : lastIndex ("/blobs/uploads" : Str) q with
          | none => exact absurd hin (lastIndex_eq_none.mp hi)
          | some i =>
              obtain ⟨a, b, rfl, rfl, hlater⟩ := lastIndex_eq_some (by decide) hi
              have hdrop : (a ++ (("/blobs/uploads" : Str) ++ b)).drop (a.length + 14) = b := by
                rw [← List.drop_drop, List.drop_left]
                rfl
              rw [routeWords, hi] at h
              simp only [hdrop, List.take_left] at h
              split at h
              · cases h
              · rename_i hno
                cases h
                -- a character other than a slash would be glued to the word
                cases b with
                | nil => exact ⟨m, by rw [hm, List.append_nil, List.append_assoc]⟩
                | cons c b =>
                    have hlonger : c :: b <:+: ("blobs/uploads" : Str) ++ c :: b :=
                      List.infix_append_right
                    have hb : ¬ ("/blobs/uploads" : Str) <:+: c :: b := fun h =>
                      hlater (h.trans hlonger)
                    by_cases hc : c = '/'
                    · subst hc
                      cases b with
                      | nil =>
                          refine ⟨m + 1, ?_⟩
                          rw [hm, List.replicate_succ]
                          simp
                      | cons d b => exact absurd rfl (hno d b)
                    · exact absurd ⟨_, c, b, rfl, hc, hb, stripSuffix_eq_none.mp hsuffix⟩ hglued

/-- **Every path of an operation is read as this operation that no word in the name shadows, and
every path that is read as the start of an upload is one, with nothing glued to it.** -/
theorem route_iff (op : Operation) (n : ℕ) (path : Str) :
    (Ocid.route (op.path ++ List.replicate n '/') = some op.route ↔ op.Unshadowed) ∧
      ((∀ name, Ocid.route path = some (.uploadStart name) →
        ∃ n, path = name ++ (("/blobs/uploads" : Str) ++ List.replicate n '/')) ↔
          ¬ Glued (Str.trimEndMatches '/' path)) :=
  ⟨Operation.route_path_iff op n, route_uploadStart_iff path⟩

/-- The manifest of a repository whose name has the word in it is read as the start of an upload to
another one. -/
theorem manifest_read_as_upload :
    ¬ ∀ op : Operation, route op.path = some op.route := by
  intro h
  have hop := h (.manifest ⟨"team/blobs/uploads-mirror", by decide +kernel⟩
    (.tag "v1" (by decide +kernel)))
  have hroute : route ("team/blobs/uploads-mirror/manifests/v1" : Str) =
      some (.uploadStart "team") := by decide +kernel
  cases hroute.symm.trans hop

end Ocid
