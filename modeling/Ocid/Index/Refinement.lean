import Ocid.Daemon.Sample
import Ocid.Index.Releases
import Ocid.Lib.Filed
import Ocid.Lib.Runs

/-!
# Index — Refinement — the files of the index as a map of records

The index keeps a record at `<publisher>/<name>/<tag>.json`.  The components of a name may end in
`.json` themselves, so the path of one record can be a directory of another: `app:x` is kept in the
file `app/x.json`, and `app/x.json:1.0` in a directory of that name.  `Clear` says that an operation
does not meet with this; as long as every operation is `Clear`, the files are the records of a
`Store` (`represents_step`) and every operation answers what it answers on the store.  An operation
that is not `Clear` fails (`agrees_iff_clear`), so a run is right throughout exactly when all of its
operations are (`run_refines_iff`).
-/

namespace Ocid

open Call Files

/-! ### Where a record is kept -/

/-- The directory of an image. -/
def Ref.dir (q : Ref) : List Str := q.publisher.toStr :: Str.split '/' q.name

/-- The path of a record below the directory of the releases. -/
def Ref.path (q : Ref) : List Str := q.dir ++ [q.tag ++ ".json"]

/-- The name and the tag are valid. -/
def Ref.Valid (q : Ref) : Prop := validateName q.name = .ok () ∧ validateTag q.tag = .ok ()

instance (q : Ref) : Decidable q.Valid := inferInstanceAs (Decidable (_ ∧ _))

theorem Ref.dir_inj {q r : Ref} (h : q.dir = r.dir) :
    q.publisher = r.publisher ∧ q.name = r.name := by
  obtain ⟨hp, hn⟩ := List.cons.inj h
  exact ⟨PublicKey.toStr_inj hp, Str.split_injective '/' hn⟩

theorem Ref.path_injective : Function.Injective Ref.path := by
  intro q r h
  obtain ⟨hdir, hfile⟩ := List.append_inj' h rfl
  obtain ⟨hp, hn⟩ := Ref.dir_inj hdir
  have ht := List.append_cancel_right (List.cons.inj hfile).1
  obtain ⟨publisher, name, tag⟩ := q
  obtain ⟨publisher', name', tag'⟩ := r
  cases hp
  cases hn
  cases ht
  rfl

/-- The place of a record. -/
def recordPlace : Placement Ref Str where
  path := Ref.path
  injective := Ref.path_injective
  ne_nil q := by simp [Ref.path]

theorem dropLast_path (q : Ref) : q.path.dropLast = q.dir := by
  rw [Ref.path, List.dropLast_concat]

/-- The file of `q` is among the directories of `r`. -/
def Ref.Through (r q : Ref) : Prop :=
  r.publisher = q.publisher ∧ Str.split '/' q.name ++ [q.tag ++ ".json"] <+: Str.split '/' r.name

instance (r q : Ref) : Decidable (r.Through q) := inferInstanceAs (Decidable (_ ∧ _))

/-- Neither of the two records is in the way of the other. -/
def Ref.Apart (q r : Ref) : Prop := ¬ q.Through r ∧ ¬ r.Through q

instance (q r : Ref) : Decidable (q.Apart r) := inferInstanceAs (Decidable (_ ∧ _))

theorem Ref.Apart.symm {q r : Ref} (h : q.Apart r) : r.Apart q := ⟨h.2, h.1⟩

theorem above_path_iff {q r : Ref} : Above q.path r.path ↔ r.Through q := by
  have hne : r.path ≠ [] := recordPlace.ne_nil r
  rw [above_iff_dropLast hne, dropLast_path, Ref.path, Ref.dir, Ref.dir, List.cons_append,
    List.cons_prefix_cons, Ref.Through]
  refine and_congr_left' ⟨fun h => (PublicKey.toStr_inj h).symm, ?_⟩
  rintro h
  rw [h]

theorem Ref.apart_self (q : Ref) : q.Apart q :=
  ⟨fun h => (above_path_iff.mpr h).2 rfl, fun h => (above_path_iff.mpr h).2 rfl⟩

theorem releasePath_of_valid {q : Ref} (h : q.Valid) :
    Index.releasePath q.publisher q.name q.tag = .ok q.path := by
  rw [Index.releasePath, h.2]
  show (Index.releaseDir q.publisher q.name >>= _) = _
  rw [Index.releaseDir, h.1]
  rfl

theorem tag_ne_nil {q : Ref} (h : q.Valid) : q.tag ≠ [] := by
  intro hnil
  have := h.2
  rw [hnil] at this
  cases this

/-! ### The operations on the files -/

section
variable {rs : Table Release.ref} {t : IndexTree} {q : Ref} {rel : Release}

theorem present_path (q : Ref) : t.present q.path = (t.node q.path).isSome := by
  have hpath : q.path.isEmpty = false := List.isEmpty_eq_false_iff.mpr (recordPlace.ne_nil q)
  rw [Tree.present, hpath, Bool.false_or]

/-- Reading answers with the record that is held. -/
theorem getRelease_files (h : Filed recordPlace rs t) (hq : q.Valid) (hfree : Free recordPlace rs q) :
    Index.getRelease q.publisher q.name q.tag t = ([], .ok (rs.get q)) := by
  have hnode : t.node q.path = (rs.get q).map some := h.node_path hfree
  rw [Index.getRelease, releasePath_of_valid hq, ofExcept_bind_apply, read_bind_apply, present_path,
    hnode]
  cases hget : rs.get q with
  | none => rfl
  | some rel =>
      have hread : Index.io (readFile q.path) t = ([], .ok rel) := by
        rw [Index.io, mapErr, readFile_file (hnode.trans (by rw [hget]; rfl))]
        rfl
      exact bind_apply_of_ok hread _

/-- A directory in the place of a file cannot be read. -/
theorem getRelease_files_error (h : Filed recordPlace rs t) (hq : q.Valid)
    (hfree : ¬ Free recordPlace rs q) : Index.getRelease q.publisher q.name q.tag t =
      ([], .error (Index.ioError .isADirectory)) := by
  have hnode : t.node q.path = some none := h.node_of_not_free hfree
  rw [Index.getRelease, releasePath_of_valid hq, ofExcept_bind_apply, read_bind_apply, present_path,
    hnode]
  have hread : Index.io (readFile q.path) t = ([], .error (Index.ioError .isADirectory)) := by
    rw [Index.io, mapErr, readFile_dir hnode]
    rfl
  exact bind_apply_of_error hread _

/-- A record is stored in its place, or refused. -/
theorem putRelease_files (h : Filed recordPlace rs t) (hq : rel.ref.Valid)
    (hfree : Free recordPlace rs rel.ref) (hopen : Open recordPlace rs rel.ref) :
    (Index.putRelease rel).result t =
        .ok ((rs.get rel.ref).all fun existing => rel.supersedes existing) ∧
      Filed recordPlace (recorded rs rel) ((Index.putRelease rel).final t) := by
  have hget : Index.getRelease rel.publisher rel.name rel.payload.tag t =
      ([], .ok (rs.get rel.ref)) := getRelease_files h hq hfree
  rw [result, final, journal, Index.putRelease, bind_apply_of_ok hget, recorded]
  by_cases haccepts : ((rs.get rel.ref).all fun existing => rel.supersedes existing) = true
  · obtain ⟨hok, hfiled⟩ := h.put (a := rel) hfree hopen
    have hio : (Index.io (writeAtomic rel.ref.path rel)).result t = .ok () :=
      result_mapErr_ok.mpr hok
    have hp : Index.releasePath rel.publisher rel.name rel.payload.tag = .ok rel.ref.path :=
      releasePath_of_valid hq
    rw [if_pos haccepts, if_pos haccepts, haccepts, replay_nil, hp, List.nil_append]
    constructor
    · exact result_bind_of_ok hio _
    · show Filed recordPlace (rs.put rel) ((Index.io (writeAtomic rel.ref.path rel) >>= _).final t)
      rw [final_bind_of_ok hio]
      exact hfiled
  · rw [if_neg haccepts, if_neg haccepts, Bool.eq_false_iff.mpr haccepts]
    exact ⟨rfl, h⟩

/-- Below the file of another record, a record cannot be stored. -/
theorem putRelease_files_error (h : Filed recordPlace rs t) (hq : rel.ref.Valid)
    (hclear : ¬ (Free recordPlace rs rel.ref ∧ Open recordPlace rs rel.ref)) :
    ∃ e, (Index.putRelease rel).result t = .error e := by
  by_cases hfree : Free recordPlace rs rel.ref
  · have hopen : ¬ Open recordPlace rs rel.ref := fun hopen => hclear ⟨hfree, hopen⟩
    have hget : Index.getRelease rel.publisher rel.name rel.payload.tag t =
        ([], .ok (rs.get rel.ref)) := getRelease_files h hq hfree
    -- nothing is held there, so it would be stored
    have hnone : rs.get rel.ref = none := by
      have hnode := (h.node_path hfree).symm.trans (h.node_of_not_open hopen)
      exact Option.map_eq_none_iff.mp hnode
    obtain ⟨e, he⟩ := h.put_error (a := rel) hopen
    have hio : (Index.io (writeAtomic rel.ref.path rel)).result t = .error (Index.ioError e) :=
      congrArg (Except.mapError Index.ioError) he
    have hp : Index.releasePath rel.publisher rel.name rel.payload.tag = .ok rel.ref.path :=
      releasePath_of_valid hq
    refine ⟨Index.ioError e, ?_⟩
    rw [result, Index.putRelease, bind_apply_of_ok hget, hnone, Option.all_none, if_pos rfl,
      replay_nil, hp]
    exact result_bind_of_error hio _
  · have hget : Index.getRelease rel.publisher rel.name rel.payload.tag t =
        ([], .error (Index.ioError .isADirectory)) := getRelease_files_error h hq hfree
    exact ⟨_, result_bind_of_error (congrArg Prod.snd hget) _⟩

/-- A record is removed from its place. -/
theorem removeRelease_files (h : Filed recordPlace rs t) (hq : q.Valid)
    (hfree : Free recordPlace rs q) :
    (Index.removeRelease q.publisher q.name q.tag).result t = .ok (rs.has q) ∧
      Filed recordPlace (if rs.has q then rs.erase q else rs)
        ((Index.removeRelease q.publisher q.name q.tag).final t) := by
  have hnode : t.node q.path = (rs.get q).map some := h.node_path hfree
  rw [result, final, journal, Index.removeRelease, releasePath_of_valid hq, ofExcept_bind_apply,
    read_bind_apply, present_path, hnode, Option.isSome_map, Table.has]
  cases hget : rs.get q with
  | none => exact ⟨rfl, h⟩
  | some rel =>
      obtain rfl : rel.ref = q := Table.key_of_get hget
      obtain ⟨hremove, hprune, hfiled⟩ := h.erase (Table.mem_of_get hget)
      have hio : (Index.io (removeFile rel.ref.path)).result t = .ok () :=
        result_mapErr_ok.mpr hremove
      have hio' : (Index.io (pruneDirs rel.ref.path.dropLast.reverse)).result
          ((Index.io (removeFile rel.ref.path)).final t) = .ok () := result_mapErr_ok.mpr hprune
      constructor
      · show (Index.io (removeFile rel.ref.path) >>= _).result t = _
        rw [result_bind_of_ok hio]
        exact result_bind_of_ok hio' _
      · show Filed recordPlace (rs.erase rel.ref) ((Index.io (removeFile rel.ref.path) >>= _).final t)
        rw [final_bind_of_ok hio, final_bind_of_ok hio']
        exact hfiled

theorem removeRelease_files_error (h : Filed recordPlace rs t) (hq : q.Valid)
    (hfree : ¬ Free recordPlace rs q) :
    ∃ e, (Index.removeRelease q.publisher q.name q.tag).result t = .error e := by
  have hnode : t.node q.path = some none := h.node_of_not_free hfree
  have hio : (Index.io (removeFile q.path)).result t = .error (Index.ioError .isADirectory) := by
    rw [result, Index.io, mapErr, removeFile_dir hnode]
    rfl
  refine ⟨Index.ioError .isADirectory, ?_⟩
  rw [result, Index.removeRelease, releasePath_of_valid hq, ofExcept_bind_apply, read_bind_apply,
    present_path, hnode]
  exact result_bind_of_error hio _

/-! ### Listing -/

theorem splitAtDot_tag (h : rel.ref.Valid) : Index.splitAtDot (rel.payload.tag ++ ".json") =
    (rel.payload.tag, some ("json" : Str)) :=
  Index.splitAtDot_json (tag_ne_nil h)

/-- A tag does not start with a dot. -/
theorem head?_append_ne (h : rel.ref.Valid) (s : Str) : (rel.payload.tag ++ s).head? ≠ some '.' := by
  have htag : validateTag rel.payload.tag = .ok () := h.2
  cases hcons : rel.payload.tag with
  | nil => exact absurd hcons (tag_ne_nil h)
  | cons c tag =>
      rw [hcons] at htag
      rintro hdot
      obtain rfl : c = '.' := Option.some.inj hdot
      simp [validateTag, isAsciiAlphanumeric] at htag

/-- The files of an image are those of its records. -/
theorem isFile_dir_iff {n : Str} (h : Filed recordPlace rs t) (q : Ref) :
    t.isFile (q.dir ++ [n]) = true ↔
      ∃ rel ∈ rs.rows, rel.ref.dir = q.dir ∧ n = rel.payload.tag ++ ".json" := by
  constructor
  · intro hfile
    obtain ⟨rel, hnode⟩ : ∃ rel, t.node (q.dir ++ [n]) = some (some rel) := by
      rw [Tree.isFile] at hfile
      split at hfile
      · exact ⟨_, ‹_›⟩
      · cases hfile
      · cases hfile
    obtain ⟨hmem, hpath⟩ := (h.file _ _).mp hnode
    obtain ⟨hdir, hname⟩ := List.append_inj' hpath rfl
    exact ⟨rel, hmem, hdir, (List.cons.inj hname).1.symm⟩
  · rintro ⟨rel, hmem, hdir, rfl⟩
    have hnode : t.node (q.dir ++ [rel.payload.tag ++ ".json"]) = some (some rel) :=
      (h.file _ _).mpr ⟨hmem, by rw [← hdir]; rfl⟩
    rw [Tree.isFile, hnode]

/-- The tags in the directory of an image are those of its records. -/
theorem mem_tagsIn (h : Filed recordPlace rs t) (hvalid : ∀ rel ∈ rs.rows, rel.ref.Valid) (q : Ref)
    (tag : Str) : tag ∈ Index.tagsIn t q.dir ↔
      ∃ rel, rs.get ⟨q.publisher, q.name, tag⟩ = some rel := by
  simp only [Index.tagsIn, List.mem_map, List.mem_filter, Bool.and_eq_true, beq_iff_eq,
    isFile_dir_iff h]
  constructor
  · rintro ⟨n, ⟨-, ⟨rel, hmem, hdir, rfl⟩, -⟩, rfl⟩
    obtain ⟨hp, hn⟩ := Ref.dir_inj hdir
    rw [Index.fileStem, splitAtDot_tag (hvalid rel hmem), ← hp, ← hn]
    exact ⟨rel, Table.get_of_mem hmem⟩
  · rintro ⟨rel, hget⟩
    have hmem := Table.mem_of_get hget
    have href := Table.key_of_get hget
    have hsplit := splitAtDot_tag (hvalid rel hmem)
    have hdir : rel.ref.dir = q.dir := by rw [href]; rfl
    have htag : rel.payload.tag = tag := congrArg Ref.tag href
    have hnode : t.node (q.dir ++ [rel.payload.tag ++ ".json"]) = some (some rel) :=
      (h.file _ _).mpr ⟨hmem, by rw [← hdir]; rfl⟩
    have hisDir : t.isDir q.dir = true := by
      refine (isDir_iff (List.cons_ne_nil _ _)).mpr
        ((h.dir _).mpr ⟨List.cons_ne_nil _ _, rel, hmem, ?_⟩)
      have hprefix : q.dir <+: rel.ref.path.dropLast := by
        rw [dropLast_path, hdir]
      exact (above_iff_dropLast (recordPlace.ne_nil _)).mpr hprefix
    refine ⟨rel.payload.tag ++ ".json", ⟨?_, ⟨rel, hmem, hdir, rfl⟩, congrArg Prod.snd hsplit⟩,
      (congrArg Prod.fst hsplit).trans htag⟩
    rw [if_pos hisDir, mem_children, hnode]
    exact Option.some_ne_none _

theorem nodup_tagsIn (h : Filed recordPlace rs t) (hvalid : ∀ rel ∈ rs.rows, rel.ref.Valid) (q : Ref) :
    (Index.tagsIn t q.dir).Nodup := by
  refine List.Nodup.map_on ?_ (List.Nodup.filter _ ?_)
  · -- a file is named by its tag
    have hname : ∀ n ∈ (if t.isDir q.dir then t.children q.dir else []).filter fun n =>
        t.isFile (q.dir ++ [n]) && Index.extension n == some "json",
          n = Index.fileStem n ++ ".json" := by
      intro n hn
      obtain ⟨hfile, -⟩ := Bool.and_eq_true_iff.mp (List.mem_filter.mp hn).2
      obtain ⟨rel, hmem, -, rfl⟩ := (isFile_dir_iff h q).mp hfile
      rw [Index.fileStem, splitAtDot_tag (hvalid rel hmem)]
    intro n hn m hm heq
    rw [hname n hn, hname m hm, heq]
  · split
    · exact nodup_children _ _
    · exact List.nodup_nil

/-- The files that are walked over are those of the records. -/
theorem walk_perm (h : Filed recordPlace rs t) (hvalid : ∀ rel ∈ rs.rows, rel.ref.Valid) :
    (walk Index.isRecordFile t t.depth []).Perm (rs.rows.map fun rel => rel.ref.path) := by
  have hnodup : (rs.rows.map fun rel => rel.ref.path).Nodup := by
    have := rs.nodup.map Ref.path_injective
    rwa [List.map_map] at this
  refine (List.perm_ext_iff_of_nodup (nodup_walk _ _ _ _) hnodup).mpr fun p => ?_
  rw [mem_walk h.closed, List.mem_map]
  constructor
  · rintro ⟨d, n, rfl, -, -, rel, hnode⟩
    obtain ⟨hmem, hpath⟩ := (h.file _ _).mp hnode
    exact ⟨rel, hmem, hpath⟩
  · rintro ⟨rel, hmem, rfl⟩
    have hnode : t.node rel.ref.path = some (some rel) := (h.file _ _).mpr ⟨hmem, rfl⟩
    have hdepth : rel.ref.path.length ≤ t.depth :=
      length_le_depth (by rw [hnode]; exact Option.some_ne_none _)
    refine ⟨rel.ref.dir, rel.payload.tag ++ ".json", rfl, ?_, ?_, rel, hnode⟩
    · rw [Ref.path, List.length_append, List.length_singleton] at hdepth
      exact hdepth
    · have hsplit := splitAtDot_tag (hvalid rel hmem)
      have hhead : (rel.payload.tag ++ (".json" : Str)).head? ≠ some '.' :=
        head?_append_ne (hvalid rel hmem) _
      rw [Index.isRecordFile, Index.extension, hsplit, beq_self_eq_true, Bool.true_and]
      exact bne_iff_ne.mpr hhead

/-- What is collected from all files is what is held. -/
theorem recordsIn_perm (h : Filed recordPlace rs t) (hvalid : ∀ rel ∈ rs.rows, rel.ref.Valid) :
    (Index.recordsIn t).Perm rs.rows := by
  refine ((walk_perm h hvalid).filterMap _).trans (List.Perm.of_eq ?_)
  have hread : ∀ rel ∈ rs.rows, (t.node rel.ref.path).join = some rel := fun rel hmem => by
    rw [show t.node rel.ref.path = some (some rel) from (h.file _ _).mpr ⟨hmem, rfl⟩, Option.join_some]
  rw [List.filterMap_map]
  exact (List.filterMap_congr hread).trans (List.filterMap_some)

end

section
variable [External] {s : Store} {t : IndexTree}

/-- What is listed of an image is what the map lists. -/
theorem listTags_files (h : Filed recordPlace s.releases t)
    (hvalid : ∀ rel ∈ s.releases.rows, rel.ref.Valid) {publisher : PublisherId} {name : Str}
    (hname : validateName name = .ok ()) :
    ∃ ts, (Index.listTags publisher name).result t = .ok ts ∧
      (listTags publisher name).result s = .ok ts := by
  have hdir : Index.releaseDir publisher name = .ok (Ref.dir ⟨publisher, name, []⟩) := by
    rw [Index.releaseDir, hname]
    rfl
  have hfiles : (Index.listTags publisher name).result t =
      .ok ((Index.tagsIn t (Ref.dir ⟨publisher, name, []⟩)).insertionSort (· ≤ ·)) := by
    rw [Index.listTags, hdir]
    rfl
  obtain ⟨ts, hts, hsorted⟩ : ∃ ts, (listTags publisher name).result s = .ok ts ∧
      ts.Pairwise (· ≤ ·) := by
    refine ⟨_, result_bind_ok.mpr ⟨(), hname, result_bind_ok.mpr ⟨s, rfl, rfl⟩⟩, ?_⟩
    exact List.pairwise_insertionSort _ _
  obtain ⟨hnodup, hmem⟩ := listTags_ok hts
  have hperm : ((Index.tagsIn t (Ref.dir ⟨publisher, name, []⟩)).insertionSort (· ≤ ·)).Perm ts := by
    refine (List.perm_insertionSort _ _).trans ?_
    refine (List.perm_ext_iff_of_nodup (nodup_tagsIn h hvalid _) hnodup).mpr fun tag => ?_
    rw [hmem]
    exact mem_tagsIn h hvalid _ tag
  refine ⟨ts, ?_, hts⟩
  rw [hfiles, hperm.eq_of_pairwise' (List.pairwise_insertionSort _ _) hsorted]

/-- The order of references, on records. -/
instance : Std.Total fun a b : Release => a.reference ≤ b.reference :=
  ⟨fun a b => le_total a.reference b.reference⟩

instance : IsTrans Release fun a b => a.reference ≤ b.reference :=
  ⟨fun _ _ _ hab hbc => le_trans hab hbc⟩

/-- What is listed of all files is what the map lists. -/
theorem listReleases_files (h : Filed recordPlace s.releases t)
    (hvalid : ∀ rel ∈ s.releases.rows, rel.ref.Valid) :
    Index.listReleases t = ([], .ok s.listReleases) := by
  have hperm := recordsIn_perm h hvalid
  have heq : (Index.recordsIn t).insertionSort (fun a b => a.reference ≤ b.reference) =
      s.listReleases := by
    refine @List.Perm.eq_of_pairwise _ (fun a b => a.reference ≤ b.reference) _ _ ?_
      (List.pairwise_insertionSort _ _) (List.pairwise_insertionSort _ _)
      (((List.perm_insertionSort _ _).trans hperm).trans (List.perm_insertionSort _ _).symm)
    -- two records have one reference only if they are the same
    intro a b ha hb hab hba
    have ha' := hperm.mem_iff.mp ((List.mem_insertionSort _).mp ha)
    have hb' := (List.mem_insertionSort _).mp hb
    refine List.inj_on_of_nodup_map s.releases.nodup ha' hb' ?_
    exact Ref.toStr_inj (hvalid a ha').1 (hvalid b hb').1 (le_antisymm hab hba)
  rw [Index.listReleases, read_bind_apply, heq]
  rfl

/-! ### Both side by side -/

/-- The files of the index, and the records of a store. -/
structure IndexWorld where
  files : IndexTree
  store : Store

/-- Without a record. -/
def IndexWorld.empty : IndexWorld := ⟨.empty, .empty⟩

/-- An operation on the index. -/
inductive IndexAct where
  | get (q : Ref)
  | put (rel : Release)
  | remove (q : Ref)
  | tags (publisher : PublisherId) (name : Str)
  | list

/-- What an operation answers. -/
inductive IndexAnswer where
  | record (rel : Option Release)
  | done (changed : Bool)
  | tags (ts : List Str)
  | records (rels : List Release)

namespace IndexAct

/-- The operation on the files. -/
def onFiles : IndexAct → IndexOp IndexAnswer
  | get q => do
      let rel ← Index.getRelease q.publisher q.name q.tag
      pure (.record rel)
  | put rel => do
      let changed ← Index.putRelease rel
      pure (.done changed)
  | remove q => do
      let changed ← Index.removeRelease q.publisher q.name q.tag
      pure (.done changed)
  | tags publisher name => do
      let ts ← Index.listTags publisher name
      pure (.tags ts)
  | list => do
      let rels ← Index.listReleases
      pure (.records rels)

/-- The operation on the records. -/
def onStore : IndexAct → Op IndexAnswer
  | get q => do
      let rel ← getRelease q.publisher q.name q.tag
      pure (.record rel)
  | put rel => do
      let changed ← putRelease rel
      pure (.done changed)
  | remove q => do
      let changed ← removeRelease q.publisher q.name q.tag
      pure (.done changed)
  | tags publisher name => do
      let ts ← listTags publisher name
      pure (.tags ts)
  | list => do
      let s ← read
      pure (.records s.listReleases)

/-- The names and the tags are valid. -/
def Valid : IndexAct → Prop
  | get q | remove q => q.Valid
  | put rel => rel.ref.Valid
  | tags _ name => validateName name = .ok ()
  | list => True

end IndexAct

namespace IndexWorld

/-- One operation, on both. -/
def step (w : IndexWorld) (a : IndexAct) : Option IndexWorld :=
  some ⟨a.onFiles.final w.files, a.onStore.final w.store⟩

/-- The files answer what the records answer, and not with an error. -/
def Agrees (w : IndexWorld) (a : IndexAct) : Prop :=
  ∃ x, a.onFiles.result w.files = .ok x ∧ a.onStore.result w.store = .ok x

/-- No record that is held has the file of the operation among its directories; and for a record
that is put, none is held whose file is among its own. -/
def Clear (w : IndexWorld) : IndexAct → Prop
  | .get q | .remove q => ∀ r ∈ w.store.releases.rows, ¬ r.ref.Through q
  | .put rel => ∀ r ∈ w.store.releases.rows, ¬ r.ref.Through rel.ref ∧ ¬ rel.ref.Through r.ref
  | .tags _ _ | .list => True

/-- The files are those of the records, and these are valid. -/
structure Represents (w : IndexWorld) : Prop where
  filed : Filed recordPlace w.store.releases w.files
  valid : ∀ rel ∈ w.store.releases.rows, rel.ref.Valid

theorem represents_empty : Represents .empty := ⟨filed_empty, nofun⟩

/-- Valid records none of which is in the way of another one can be kept in files. -/
theorem exists_represents (hvalid : ∀ rel ∈ s.releases.rows, rel.ref.Valid)
    (h : ∀ a ∈ s.releases.rows, ∀ b ∈ s.releases.rows, a.ref.Apart b.ref) :
    ∃ t, Represents ⟨t, s⟩ := by
  obtain ⟨t, ht⟩ := Filed.exists_of_rows (P := recordPlace) s.releases fun a ha b hb habove =>
    (h b hb a ha).1 (above_path_iff.mp habove)
  exact ⟨t, ht, hvalid⟩

/-! ### One operation -/

variable {w w' : IndexWorld} {a : IndexAct}

omit [External] in
theorem free_iff {rs : Table Release.ref} {q : Ref} :
    Free recordPlace rs q ↔ ∀ r ∈ rs.rows, ¬ r.ref.Through q :=
  forall₂_congr fun _ _ => not_congr above_path_iff

omit [External] in
theorem open_iff {rs : Table Release.ref} {q : Ref} :
    Open recordPlace rs q ↔ ∀ r ∈ rs.rows, ¬ q.Through r.ref :=
  forall₂_congr fun _ _ => not_congr above_path_iff

/-- An answer is agreed on when both operations return it. -/
theorem agrees_of_results {β : Type} {m : IndexOp β} {n : Op β} {f : β → IndexAnswer} {b : β}
    (hm : m.result w.files = .ok b) (hn : n.result w.store = .ok b) :
    ∃ x, (do let b ← m; pure (f b)).result w.files = .ok x ∧
      (do let b ← n; pure (f b)).result w.store = .ok x :=
  ⟨f b, result_bind_of_ok hm _, result_bind_of_ok hn _⟩

theorem not_agrees_of_error {β : Type} {m : IndexOp β} {f : β → IndexAnswer}
    (hm : ∃ e, m.result w.files = .error e) {x : IndexAnswer} :
    (do let b ← m; pure (f b)).result w.files ≠ .ok x := by
  obtain ⟨e, he⟩ := hm
  rw [result_bind_of_error he]
  exact nofun

theorem not_agrees_of_isNone (h : (a.onFiles.result w.files).toOption.isNone = true) :
    ¬ w.Agrees a := by
  rintro ⟨x, hx, -⟩
  rw [hx] at h
  cases h

/-- Where the operation is clear the files answer what the records do, and elsewhere they fail. -/
theorem agrees_iff_clear (h : w.Represents) (ha : a.Valid) : w.Agrees a ↔ w.Clear a := by
  cases a with
  | get q =>
      have hp : Ocid.releasePath q.publisher q.name q.tag = .ok q :=
        releasePath_eq_ok.mpr ⟨ha.2, ha.1, rfl⟩
      by_cases hfree : Free recordPlace w.store.releases q
      · refine iff_of_true (agrees_of_results (b := w.store.releases.get q) ?_ ?_) (free_iff.mp hfree)
        · exact congrArg Prod.snd (getRelease_files h.filed ha hfree)
        · exact congrArg Prod.snd (getRelease_apply hp w.store)
      · refine iff_of_false ?_ (mt free_iff.mpr hfree)
        rintro ⟨x, hx, -⟩
        exact not_agrees_of_error ⟨_, congrArg Prod.snd (getRelease_files_error h.filed ha hfree)⟩ hx
  | put rel =>
      have hiff : w.Clear (.put rel) ↔ Free recordPlace w.store.releases rel.ref ∧
          Open recordPlace w.store.releases rel.ref := by
        rw [free_iff, open_iff, Clear]
        exact forall₂_and
      rw [hiff]
      by_cases hclear : Free recordPlace w.store.releases rel.ref ∧
          Open recordPlace w.store.releases rel.ref
      · refine iff_of_true (agrees_of_results (b := w.store.accepts rel) ?_ ?_) hclear
        · exact (putRelease_files h.filed ha hclear.1 hclear.2).1
        · rw [result, putRelease_apply ha.1 ha.2]
          cases w.store.accepts rel <;> rfl
      · refine iff_of_false ?_ hclear
        rintro ⟨x, hx, -⟩
        exact not_agrees_of_error (putRelease_files_error h.filed ha hclear) hx
  | remove q =>
      by_cases hfree : Free recordPlace w.store.releases q
      · refine iff_of_true (agrees_of_results (b := w.store.releases.has q) ?_ ?_) (free_iff.mp hfree)
        · exact (removeRelease_files h.filed ha hfree).1
        · rw [result, removeRelease_apply ha.1 ha.2]
          cases w.store.releases.has q <;> rfl
      · refine iff_of_false ?_ (mt free_iff.mpr hfree)
        rintro ⟨x, hx, -⟩
        exact not_agrees_of_error (removeRelease_files_error h.filed ha hfree) hx
  | tags publisher name =>
      obtain ⟨ts, hts, hts'⟩ := listTags_files h.filed h.valid ha
      exact iff_of_true (agrees_of_results hts hts') trivial
  | list =>
      have hfiles := congrArg Prod.snd (listReleases_files h.filed h.valid)
      exact iff_of_true ⟨_, result_bind_of_ok hfiles _, rfl⟩ trivial

/-- An operation that is clear leaves the files those of the records. -/
theorem represents_step (h : w.Represents) (ha : a.Valid) (hc : w.Clear a)
    (hs : w.step a = some w') : w'.Represents := by
  cases hs
  cases a with
  | get q =>
      have hfree := free_iff.mpr hc
      have hp : Ocid.releasePath q.publisher q.name q.tag = .ok q :=
        releasePath_eq_ok.mpr ⟨ha.2, ha.1, rfl⟩
      have hfiles : (IndexAct.get q).onFiles.final w.files = w.files := by
        rw [IndexAct.onFiles, final_bind_pure, final, journal, getRelease_files h.filed ha hfree]
        rfl
      have hstore : (IndexAct.get q).onStore.final w.store = w.store := by
        rw [IndexAct.onStore, final_bind_pure, final, journal, getRelease_apply hp]
        rfl
      rw [hfiles, hstore]
      exact h
  | put rel =>
      have hfree := free_iff.mpr fun r hr => (hc r hr).1
      have hopen := open_iff.mpr fun r hr => (hc r hr).2
      rw [IndexAct.onFiles, IndexAct.onStore, final_bind_pure, final_bind_pure]
      have hreleases : ((putRelease rel).final w.store).releases = recorded w.store.releases rel :=
        releases_putRelease ha.1 ha.2 w.store
      refine ⟨?_, ?_⟩
      · rw [hreleases]
        exact (putRelease_files h.filed ha hfree hopen).2
      · rw [hreleases, recorded]
        split
        · intro r hr
          rcases Table.mem_put.mp hr with rfl | hr
          · exact ha
          · exact h.valid r hr.1
        · exact h.valid
  | remove q =>
      have hfree := free_iff.mpr hc
      rw [IndexAct.onFiles, IndexAct.onStore, final_bind_pure, final_bind_pure]
      have hreleases : ((removeRelease q.publisher q.name q.tag).final w.store).releases =
          if w.store.releases.has q then w.store.releases.erase q else w.store.releases := by
        rw [final, journal, removeRelease_apply ha.1 ha.2]
        cases w.store.releases.has q <;> rfl
      refine ⟨?_, ?_⟩
      · rw [hreleases]
        exact (removeRelease_files h.filed ha hfree).2
      · rw [hreleases]
        split
        · exact fun r hr => h.valid r (Table.mem_erase.mp hr).1
        · exact h.valid
  | tags publisher name =>
      have hfiles : (IndexAct.tags publisher name).onFiles.final w.files = w.files := by
        rw [IndexAct.onFiles, final_bind_pure]
        exact (final_of_emits_false (Emits.ofExcept _ |>.bind fun _ => Emits.read.bind fun _ =>
          Emits.pure _) _).2
      have hstore : (IndexAct.tags publisher name).onStore.final w.store = w.store := by
        rw [IndexAct.onStore, final_bind_pure]
        exact (final_of_emits_false (emits_listTags publisher name) _).2
      rw [hfiles, hstore]
      exact h
  | list =>
      have hfiles : IndexAct.list.onFiles.final w.files = w.files := by
        rw [IndexAct.onFiles, final_bind_pure, final, journal, listReleases_files h.filed h.valid]
        rfl
      rw [hfiles]
      exact h

end IndexWorld

/-- **The index is a map of its records** in a run exactly when every operation of the run is clear
of the records that are held where it is taken. -/
theorem run_refines_iff {as : List IndexAct} (has : ∀ a ∈ as, a.Valid) :
    Meets IndexWorld.step IndexWorld.Agrees .empty as ↔
      Meets IndexWorld.step IndexWorld.Clear .empty as :=
  meets_congr (I := IndexWorld.Represents) (P := IndexAct.Valid)
    (fun _ _ h ha => IndexWorld.agrees_iff_clear h ha)
    (fun _ _ _ h ha hc hs => IndexWorld.represents_step h ha hc hs) IndexWorld.represents_empty has

end

namespace Sample

/-- A tag of an image, and a tag of another image whose name goes on with the file of the first. -/
def outer : Release :=
  letI := sample
  release alice "app" "x" index 1000

/-- A tag of an image whose name goes on with the file of `outer`. -/
def inner : Release :=
  letI := sample
  release alice "app/x.json" "1.0" index 1000

/-- Another image. -/
def library : Release :=
  letI := sample
  release alice "lib" "1.0" index 1000

end Sample

/-- Records of two images, one of them put twice; both are read and listed, and one is removed. -/
theorem run_refines_iff_at : letI := sample
    let as : List IndexAct := [.put Sample.outer, .put Sample.library, .put Sample.outer,
      .get Sample.outer.ref, .get Sample.library.ref, .tags Sample.alice.id "app", .list,
      .remove Sample.outer.ref, .list]
    Meets IndexWorld.step IndexWorld.Agrees .empty as ↔
      Meets IndexWorld.step IndexWorld.Clear .empty as := by
  let _ := sample
  intro as
  have houter : Sample.outer.ref.Valid := by decide +kernel
  have hlibrary : Sample.library.ref.Valid := by decide +kernel
  have hvalid : ∀ a ∈ as, a.Valid := by
    intro a ha
    simp only [as, List.mem_cons, List.not_mem_nil, or_false] at ha
    rcases ha with rfl | rfl | rfl | rfl | rfl | rfl | rfl | rfl | rfl
    · exact houter
    · exact hlibrary
    · exact houter
    · exact houter
    · exact hlibrary
    · exact houter.1
    · trivial
    · exact houter
    · trivial
  exact run_refines_iff hvalid

/-- `app:x` is kept in a file of the name of the directory of `app/x.json:1.0`: whichever is put
first, the other one fails, though nothing was ever stored under it. -/
theorem record_hides_image : letI := sample
    Sample.outer.ref.Valid ∧ Sample.inner.ref.Valid ∧
      ¬ Meets IndexWorld.step IndexWorld.Agrees .empty [.put Sample.outer, .put Sample.inner] ∧
      ¬ Meets IndexWorld.step IndexWorld.Agrees .empty
        [.put Sample.inner, .get Sample.outer.ref] := by
  let _ := sample
  refine ⟨by decide +kernel, by decide +kernel, fun h => ?_, fun h => ?_⟩
  · have hlast := @last_of_meets _ _ _ _ _ _ [IndexAct.put Sample.outer] _ h rfl
    exact IndexWorld.not_agrees_of_isNone (by decide +kernel) hlast
  · have hlast := @last_of_meets _ _ _ _ _ _ [IndexAct.put Sample.inner] _ h rfl
    exact IndexWorld.not_agrees_of_isNone (by decide +kernel) hlast

end Ocid
