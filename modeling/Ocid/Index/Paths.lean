import Ocid.Index.Refinement

/-!
# Index — Paths — the file names of release records

The path of a record is put together from texts: the directory of the releases, the publisher, the
name as it stands, with its slashes, and the tag with `.json` behind it.  Names and tags come from
clients and peers, and are checked first; so the path is the directory followed by plain components,
which say whose record it is (`releasePath_contained`).  An operation on a name or a tag that is not
valid fails before it looks at any file.
-/

namespace Ocid

open Call Files

/-- `Path::join`: an absolute path replaces the base, and a `/` is put in where there is none. -/
def Path.join (base p : Str) : Str :=
  if p.head? = some '/' then p
  else if base = [] ∨ base.getLast? = some '/' then base ++ p
  else base ++ '/' :: p

namespace Index

/-- The directory of an image, below the directory `root` of the releases. -/
def releaseDirIn (root : Str) (publisher : PublisherId) (name : Str) : Except Err Str := do
  validateName name
  pure (Path.join (Path.join root publisher.toStr) name)

/-- The path of a record. -/
def releasePathIn (root : Str) (publisher : PublisherId) (name tag : Str) : Except Err Str := do
  validateTag tag
  let dir ← releaseDirIn root publisher name
  pure (Path.join dir (tag ++ ".json"))

end Index

/-- A component that is the name of one file or directory, and not hidden. -/
structure PlainComponent (c : Str) : Prop where
  ne_nil : c ≠ []
  ne_dot : c ≠ ("." : Str)
  ne_dots : c ≠ (".." : Str)
  shown : c.head? ≠ some '.'
  no_slash : '/' ∉ c
  no_backslash : '\\' ∉ c

/-! ### Joining -/

/-- Some text that neither starts nor ends with a slash. -/
structure Inner (a : Str) : Prop where
  ne_nil : a ≠ []
  first : a.head? ≠ some '/'
  last : a.getLast? ≠ some '/'

theorem Inner.append {a b : Str} (ha : Inner a) (hb : Inner b) : Inner (a ++ '/' :: b) where
  ne_nil := List.append_ne_nil_of_left_ne_nil ha.ne_nil _
  first := by
    rw [List.head?_append_of_ne_nil _ ha.ne_nil]
    exact ha.first
  last := by
    rw [List.getLast?_append_of_ne_nil _ (List.cons_ne_nil _ _), List.getLast?_cons_of_ne_nil hb.ne_nil]
    exact hb.last

theorem inner_of_notMem {a : Str} (hne : a ≠ []) (h : '/' ∉ a) : Inner a where
  ne_nil := hne
  first hfirst := h (List.mem_of_mem_head? hfirst)
  last hlast := h (List.mem_of_mem_getLast? hlast)

/-- Two relative parts may be joined to a base one after the other, or at once. -/
theorem join_join {a b : Str} (ha : Inner a) (hb : Inner b) (base : Str) :
    Path.join (Path.join base a) b = Path.join base (a ++ '/' :: b) := by
  have hfirst := (ha.append hb).first
  have hjoined : ∀ u : Str, Path.join (u ++ a) b = u ++ (a ++ '/' :: b) := by
    intro u
    have hopen : ¬ (u ++ a = [] ∨ (u ++ a).getLast? = some '/') := by
      rintro (hnil | hlast)
      · exact ha.ne_nil (List.append_eq_nil_iff.mp hnil).2
      · rw [List.getLast?_append_of_ne_nil _ ha.ne_nil] at hlast
        exact ha.last hlast
    rw [Path.join, if_neg hb.first, if_neg hopen, List.append_assoc]
  have hcases : (Path.join base a = base ++ a ∧
      Path.join base (a ++ '/' :: b) = base ++ (a ++ '/' :: b)) ∨
      (Path.join base a = base ++ ['/'] ++ a ∧
        Path.join base (a ++ '/' :: b) = base ++ ['/'] ++ (a ++ '/' :: b)) := by
    simp only [Path.join, if_neg ha.first, if_neg hfirst]
    split
    · exact Or.inl ⟨rfl, rfl⟩
    · exact Or.inr ⟨by simp, by simp⟩
  rcases hcases with ⟨h, h'⟩ | ⟨h, h'⟩
  · rw [h, h', hjoined]
  · rw [h, h', hjoined]

/-- What is joined to a base is found again. -/
theorem join_inj {base a b : Str} (ha : Inner a) (hb : Inner b)
    (h : Path.join base a = Path.join base b) : a = b := by
  simp only [Path.join, if_neg ha.first, if_neg hb.first] at h
  split at h
  · exact List.append_cancel_left h
  · exact (List.cons.inj (List.append_cancel_left h)).2

/-! ### Components -/

/-- The characters of names and tags, the first of them no dot. -/
theorem PlainComponent.of_chars {c : Str} (hne : c ≠ []) (hfirst : c.head? ≠ some '.')
    (hchars : ∀ ch ∈ c, isTagChar ch = true) : PlainComponent c where
  ne_nil := hne
  ne_dot h := hfirst (h ▸ rfl)
  ne_dots h := hfirst (h ▸ rfl)
  shown := hfirst
  no_slash hmem := absurd (hchars _ hmem) (by decide)
  no_backslash hmem := absurd (hchars _ hmem) (by decide)

theorem plain_component {c : Str} (h : nameComponentOk c = true) : PlainComponent c := by
  obtain ⟨hne, hchars, hfirst, -, -⟩ := nameComponentOk_iff.mp h
  refine .of_chars hne (fun hdot => ?_) fun ch hch => isTagChar_of_isNameChar (hchars ch hch)
  rw [hdot] at hfirst
  exact absurd hfirst (by decide)

theorem plain_toStr (K : PublisherId) : PlainComponent K.toStr := by
  have hchars : ∀ ch ∈ K.toStr, isTagChar ch = true := fun ch hch =>
    isTagChar_of_isNameChar (isNameChar_of_isLowerHex (PublicKey.isLowerHex_of_mem hch))
  refine .of_chars ?_ (fun hdot => ?_) hchars
  · exact List.ne_nil_of_length_pos (by rw [PublicKey.length_toStr]; decide)
  · exact absurd (PublicKey.isLowerHex_of_mem (List.mem_of_mem_head? hdot)) (by decide)

theorem plain_file {tag : Str} (h : validateTag tag = .ok ()) : PlainComponent (tag ++ ".json") := by
  obtain ⟨hne, hfirst, hchars⟩ := validateTag_ok h
  refine .of_chars (List.append_ne_nil_of_left_ne_nil hne _) ?_ fun ch hch => ?_
  · rwa [List.head?_append_of_ne_nil _ hne]
  · rcases List.mem_append.mp hch with hch | hch
    · exact hchars ch hch
    · have hjson : (".json" : Str).all isTagChar = true := by decide
      exact List.all_eq_true.mp hjson ch hch

/-! ### The path of a record -/

/-- The path of a record as a text. -/
def Ref.text (q : Ref) : Str := q.publisher.toStr ++ '/' :: (q.name ++ '/' :: (q.tag ++ ".json"))

theorem split_text {q : Ref} (h : q.Valid) : Str.split '/' q.text = q.path := by
  rw [Ref.text, Str.split_append (plain_toStr q.publisher).no_slash, Str.split_append_cons,
    Str.split_eq_self (plain_file h.2).no_slash]
  rfl

/-- Every component of the path of a valid record is plain. -/
theorem plain_path {q : Ref} (h : q.Valid) : ∀ c ∈ q.path, PlainComponent c := by
  intro c hc
  rcases List.mem_append.mp hc with hc | hc
  · rcases List.mem_cons.mp hc with rfl | hc
    · exact plain_toStr q.publisher
    · exact plain_component ((validateName_eq_ok.mp h.1).1 c hc)
  · rw [List.mem_singleton.mp hc]
    exact plain_file h.2

theorem inner_name {name : Str} (h : validateName name = .ok ()) : Inner name := by
  have hok := (validateName_eq_ok.mp h).1
  exact ⟨hok.ne_nil, fun hfirst => hok.ends.1 _ hfirst rfl, fun hlast => hok.ends.2 _ hlast rfl⟩

theorem inner_text {q : Ref} (h : q.Valid) : Inner q.text := by
  have hfile := plain_file h.2
  have hhex := plain_toStr q.publisher
  exact (inner_of_notMem hhex.ne_nil hhex.no_slash).append
    ((inner_name h.1).append (inner_of_notMem hfile.ne_nil hfile.no_slash))

/-- The path of a valid record is its components, with slashes between them, below the directory of
the releases. -/
theorem releasePathIn_eq_ok {root : Str} {K : PublisherId} {name tag p : Str} :
    Index.releasePathIn root K name tag = .ok p ↔
      (⟨K, name, tag⟩ : Ref).Valid ∧ p = Path.join root (⟨K, name, tag⟩ : Ref).text := by
  have hjoin : (⟨K, name, tag⟩ : Ref).Valid →
      Path.join (Path.join (Path.join root K.toStr) name) (tag ++ ".json") =
        Path.join root (⟨K, name, tag⟩ : Ref).text := by
    intro h
    have hfile := plain_file h.2
    have hhex := plain_toStr K
    have hK := inner_of_notMem hhex.ne_nil hhex.no_slash
    have hname : Inner name := inner_name h.1
    rw [join_join hK hname, join_join (hK.append hname)
      (inner_of_notMem hfile.ne_nil hfile.no_slash), List.append_assoc]
    rfl
  simp only [Index.releasePathIn, Index.releaseDirIn, bind, Except.bind, pure, Except.pure]
  cases ht : validateTag tag with
  | error e => exact iff_of_false nofun fun h => absurd (ht.symm.trans h.1.2) nofun
  | ok u =>
      cases hn : validateName name with
      | error e => exact iff_of_false nofun fun h => absurd (hn.symm.trans h.1.1) nofun
      | ok u' =>
          have hvalid : (⟨K, name, tag⟩ : Ref).Valid := ⟨hn, ht⟩
          rw [← hjoin hvalid]
          exact ⟨fun h => ⟨hvalid, (Except.ok.inj h).symm⟩, fun h => congrArg Except.ok h.2.symm⟩

/-- It fails as the check of the tag or of the name does, wherever the releases are. -/
theorem releasePath_error_iff {root : Str} {K : PublisherId} {name tag : Str} {e : Err} :
    Index.releasePathIn root K name tag = .error e ↔ Index.releasePath K name tag = .error e := by
  simp only [Index.releasePathIn, Index.releaseDirIn, Index.releasePath, Index.releaseDir, bind,
    Except.bind, pure, Except.pure]
  cases validateTag tag with
  | error e => simp
  | ok u =>
      cases validateName name with
      | error e => simp
      | ok u' =>
          refine iff_of_false (fun h => ?_) fun h => ?_
          · cases h
          · cases h

/-! ### Operations on names and tags that are not valid -/

section
variable {K : PublisherId} {name tag : Str} {e : Err}

theorem getRelease_eq_fail (h : Index.releasePath K name tag = .error e) :
    Index.getRelease K name tag = fail e := by
  rw [Index.getRelease, h]
  rfl

theorem putRelease_eq_fail [External] {rel : Release}
    (h : Index.releasePath rel.publisher rel.name rel.payload.tag = .error e) :
    Index.putRelease rel = fail e := by
  rw [Index.putRelease, getRelease_eq_fail h]
  rfl

theorem removeRelease_eq_fail (h : Index.releasePath K name tag = .error e) :
    Index.removeRelease K name tag = fail e := by
  rw [Index.removeRelease, h]
  rfl

/-- The tags of a name are listed exactly when the name is valid: there is no tag to check. -/
theorem listTags_eq_fail (h : validateName name = .error e) : Index.listTags K name = fail e := by
  rw [Index.listTags, Index.releaseDir, h]
  rfl

theorem listTags_ok_of_valid (h : validateName name = .ok ()) (t : IndexTree) :
    ∃ ts, Index.listTags K name t = ([], .ok ts) := by
  rw [Index.listTags, Index.releaseDir, h]
  exact ⟨_, rfl⟩

/-- **The path of a record lies below the directory of the releases, has plain components only, and
says which record it is; and without a path, an operation fails before it looks at any file.**  The
tags of an image need no path of a record, but a valid name. -/
theorem releasePath_contained [External] (root : Str) (K : PublisherId) (name tag : Str) :
    (∀ p, Index.releasePathIn root K name tag = .ok p →
      (∃ text : Str, p = Path.join root text ∧
        Str.split '/' text = K.toStr :: Str.split '/' name ++ [tag ++ ".json"] ∧
        ∀ c ∈ Str.split '/' text, PlainComponent c) ∧
      ∀ K' name' tag', Index.releasePathIn root K' name' tag' = .ok p →
        K' = K ∧ name' = name ∧ tag' = tag) ∧
    (∀ e, Index.releasePathIn root K name tag = .error e →
      Index.getRelease K name tag = fail e ∧ Index.removeRelease K name tag = fail e ∧
      ∀ rel : Release, rel.ref = ⟨K, name, tag⟩ → Index.putRelease rel = fail e) ∧
    (∀ e, validateName name = .error e → Index.listTags K name = fail e) ∧
    (validateName name = .ok () → ∀ t, ∃ ts, Index.listTags K name t = ([], .ok ts)) := by
  refine ⟨fun p hp => ?_, fun e he => ?_, fun e he => listTags_eq_fail he, listTags_ok_of_valid⟩
  · obtain ⟨hvalid, rfl⟩ := releasePathIn_eq_ok.mp hp
    refine ⟨⟨_, rfl, split_text hvalid, ?_⟩, fun K' name' tag' hp' => ?_⟩
    · rw [split_text hvalid]
      exact plain_path hvalid
    · obtain ⟨hvalid', htext⟩ := releasePathIn_eq_ok.mp hp'
      have htext := join_inj (inner_text hvalid) (inner_text hvalid') htext
      have hpath := congrArg (Str.split '/') htext
      rw [split_text hvalid, split_text hvalid'] at hpath
      have hq := Ref.path_injective hpath
      cases hq
      exact ⟨rfl, rfl, rfl⟩
  · have h := releasePath_error_iff.mp he
    refine ⟨getRelease_eq_fail h, removeRelease_eq_fail h, fun rel hrel => putRelease_eq_fail ?_⟩
    cases hrel
    exact h

end

/-- With a tag that is not valid there is no path of a record, but the tags of the name are listed. -/
theorem tags_listed_without_path : letI := sample
    (∃ e, Index.releasePathIn "/releases" Sample.alice.id "app" ".." = .error e) ∧
      Index.listTags Sample.alice.id "app" (.empty : IndexTree) = ([], .ok []) := by
  let _ := sample
  exact ⟨⟨_, rfl⟩, rfl⟩

end Ocid
