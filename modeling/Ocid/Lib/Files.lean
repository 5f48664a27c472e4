import Ocid.Lib.Calls
import Ocid.Lib.Table

/-!
# Lib — Files — files and directories below one root

A `Tree` holds at most one inode at each path: a file with its content, or a directory.  The root
is the empty path; it is a directory and is not listed.  The operations are the primitive ones of a
file system, and the three that are built of them: creating a directory with all its parents,
removing the directories that became empty, and walking over all files.

`Tree.Closed` says that what is listed lies in directories.  What the operations do is said of
`Tree.node`, at every path.
-/

namespace Ocid.Files

open Call

/-- What is at a path: a file with its content, or a directory. -/
structure Inode (κ α : Type) where
  path : List κ
  content : Option α
deriving DecidableEq

/-- A directory with all that is below it. -/
abbrev Tree (κ α : Type) : Type := Table (Inode.path : Inode κ α → List κ)

/-- Why an operation fails. -/
inductive FileError where
  | notFound
  | alreadyExists
  | notADirectory
  | isADirectory
  | notEmpty
deriving DecidableEq

/-- A primitive change. -/
inductive Change (κ α : Type) where
  | mkdir (p : List κ)
  | file (p : List κ) (a : α)
  | remove (p : List κ)

variable {κ α β : Type} [DecidableEq κ]

instance : Journalled (Tree κ α) (Change κ α) where
  apply t
    | .mkdir p => t.put ⟨p, none⟩
    | .file p a => t.put ⟨p, some a⟩
    | .remove p => t.erase p

/-- An operation on files. -/
abbrev FileOp (κ α β : Type) : Type := Call (Tree κ α) (Change κ α) FileError β

namespace Tree

variable (t : Tree κ α)

/-- What is at a path below the root: nothing, a directory (`some none`) or a file. -/
def node (p : List κ) : Option (Option α) := (t.get p).map Inode.content

/-- `Path::exists`. -/
def present (p : List κ) : Bool := p.isEmpty || (t.node p).isSome

/-- `Path::is_dir`. -/
def isDir (p : List κ) : Bool :=
  p.isEmpty || match t.node p with
    | some none => true
    | some (some _) | none => false

/-- `Path::is_file`. -/
def isFile (p : List κ) : Bool :=
  match t.node p with
  | some (some _) => true
  | some none | none => false

/-- Something lies below the path. -/
def hasBelow (p : List κ) : Bool := t.rows.any fun i => p.isPrefixOf i.path && p ≠ i.path

/-- The names in a directory. -/
def children (dir : List κ) : List κ :=
  t.rows.filterMap fun i => if i.path ≠ [] ∧ i.path.dropLast = dir then i.path.getLast? else none

/-- What is listed lies in directories. -/
def Closed : Prop :=
  t.node [] = none ∧ ∀ p n, t.node (p ++ [n]) ≠ none → p = [] ∨ t.node p = some none

end Tree

/-! ### Operations -/

/-- `fs::read`. -/
def readFile (p : List κ) : FileOp κ α α := do
  let t ← read
  match t.node p with
  | some (some a) => pure a
  | some none => fail .isADirectory
  | none => fail .notFound

/-- A file is written beside `p`, and renamed to `p`. -/
def renameTo (p : List κ) (a : α) : FileOp κ α Unit := do
  let t ← read
  if t.isDir p then fail .isADirectory else write (.file p a)

/-- `fs::remove_file`. -/
def removeFile (p : List κ) : FileOp κ α Unit := do
  let t ← read
  match t.node p with
  | some (some _) => write (.remove p)
  | some none => fail .isADirectory
  | none => fail .notFound

/-- `fs::remove_dir`: only an empty directory is removed. -/
def removeDir (p : List κ) : FileOp κ α Unit := do
  let t ← read
  match t.node p with
  | some none => if t.hasBelow p then fail .notEmpty else write (.remove p)
  | some (some _) => fail .notADirectory
  | none => fail .notFound

/-- `fs::create_dir_all`: the directories along `rest` below `done`. -/
def createDirAll : List κ → List κ → FileOp κ α Unit
  | _, [] => pure ()
  | done, n :: rest => do
      let t ← read
      match t.node (done ++ [n]) with
      | some none => createDirAll (done ++ [n]) rest
      | some (some _) => fail (if rest.isEmpty then .alreadyExists else .notADirectory)
      | none => do
          write (.mkdir (done ++ [n]))
          createDirAll (done ++ [n]) rest

/-- A file is put in its place, whose directories are created. -/
def writeAtomic (p : List κ) (a : α) : FileOp κ α Unit := do
  createDirAll [] p.dropLast
  renameTo p a

/-- Remove the now empty directories from a path, given by its names in reverse, up to the root. -/
def pruneDirs : List κ → FileOp κ α Unit
  | [] => pure ()
  | n :: rev => do
      match ← attempt (removeDir (n :: rev).reverse) with
      | .ok () => pruneDirs rev
      | .error _ => pure ()

/-- The paths of the files below a directory whose names are kept. -/
def walk (keep : κ → Bool) (t : Tree κ α) : ℕ → List κ → List (List κ)
  | 0, _ => []
  | fuel + 1, dir => (t.children dir).flatMap fun n =>
      if t.isDir (dir ++ [n]) then walk keep t fuel (dir ++ [n])
      else if keep n then [dir ++ [n]] else []

/-- No path is longer. -/
def Tree.depth (t : Tree κ α) : ℕ := (t.rows.map fun i => i.path.length).foldr max 0

/-! ### Single changes -/

section
variable {t : Tree κ α} {p q dir : List κ} {n : κ}

@[simp] theorem node_put (i : Inode κ α) :
    Tree.node (t.put i) p = if i.path = p then some i.content else t.node p := by
  rw [Tree.node, Table.get_put]
  split <;> rfl

@[simp] theorem node_erase : Tree.node (t.erase q) p = if q = p then none else t.node p := by
  rw [Tree.node, Table.get_erase]
  split <;> rfl

theorem mem_rows_iff {c : Option α} : ⟨p, c⟩ ∈ t.rows ↔ t.node p = some c := by
  rw [Tree.node, Option.map_eq_some_iff]
  constructor
  · exact fun h => ⟨⟨p, c⟩, Table.get_of_mem h, rfl⟩
  · rintro ⟨i, hget, rfl⟩
    obtain rfl := Table.key_of_get hget
    exact Table.mem_of_get hget

theorem mem_children : n ∈ t.children dir ↔ t.node (dir ++ [n]) ≠ none := by
  rw [Tree.children, List.mem_filterMap]
  constructor
  · rintro ⟨i, hi, hn⟩
    split at hn
    · rename_i h
      obtain ⟨hne, rfl⟩ := h
      rw [List.dropLast_append_getLast? n hn]
      rw [mem_rows_iff.mp hi]
      exact Option.some_ne_none _
    · cases hn
  · intro h
    obtain ⟨c, hc⟩ := Option.ne_none_iff_exists'.mp h
    refine ⟨⟨dir ++ [n], c⟩, mem_rows_iff.mpr hc, ?_⟩
    simp

theorem hasBelow_iff : t.hasBelow p = true ↔ ∃ q, t.node q ≠ none ∧ p <+: q ∧ p ≠ q := by
  simp only [Tree.hasBelow, List.any_eq_true, Bool.and_eq_true, List.isPrefixOf_iff_prefix,
    decide_eq_true_eq]
  constructor
  · rintro ⟨i, hi, hp, hne⟩
    refine ⟨i.path, ?_, hp, hne⟩
    rw [mem_rows_iff.mp hi]
    exact Option.some_ne_none _
  · rintro ⟨q, hq, hp, hne⟩
    obtain ⟨c, hc⟩ := Option.ne_none_iff_exists'.mp hq
    exact ⟨⟨q, c⟩, mem_rows_iff.mpr hc, hp, hne⟩

theorem readFile_file {a : α} (h : t.node p = some (some a)) : readFile p t = ([], .ok a) := by
  rw [readFile, read_bind_apply, h]
  rfl

theorem readFile_dir (h : t.node p = some none) : readFile p t = ([], .error .isADirectory) := by
  rw [readFile, read_bind_apply, h]
  rfl

theorem removeFile_file {a : α} (h : t.node p = some (some a)) :
    removeFile p t = ([.remove p], .ok ()) := by
  rw [removeFile, read_bind_apply, h]
  rfl

theorem removeFile_dir (h : t.node p = some none) :
    removeFile p t = ([], .error .isADirectory) := by
  rw [removeFile, read_bind_apply, h]
  rfl

/-! ### Creating directories -/

/-- The paths from below `done` to the end of `rest`. -/
def Along (done rest p : List κ) : Prop := ∃ q, q ≠ [] ∧ q <+: rest ∧ p = done ++ q

omit [DecidableEq κ] in
theorem along_nil {done p : List κ} : ¬ Along done [] p := by
  rintro ⟨q, hne, hq, -⟩
  exact hne (List.prefix_nil.mp hq)

omit [DecidableEq κ] in
/-- The first of them, and those behind it. -/
theorem along_cons {done rest p : List κ} {n : κ} :
    Along done (n :: rest) p ↔ p = done ++ [n] ∨ Along (done ++ [n]) rest p := by
  constructor
  · rintro ⟨q, hne, hq, rfl⟩
    cases q with
    | nil => exact absurd rfl hne
    | cons m q =>
        obtain ⟨rfl, hq'⟩ := List.cons_prefix_cons.mp hq
        by_cases hnil : q = []
        · exact Or.inl (by rw [hnil])
        · exact Or.inr ⟨q, hnil, hq', by simp⟩
  · rintro (rfl | ⟨q, hne, hq, rfl⟩)
    · exact ⟨[n], by simp, by simp, rfl⟩
    · exact ⟨n :: q, by simp, List.cons_prefix_cons.mpr ⟨rfl, hq⟩, by simp⟩

omit [DecidableEq κ] in
theorem not_along_self {done rest : List κ} : ¬ Along done rest done := by
  rintro ⟨q, hne, -, hq⟩
  exact hne (List.self_eq_append_right.mp hq)

/-- Where no file is in the way, every directory along the path is there, and nothing else changes. -/
theorem createDirAll_spec {done rest : List κ} {t : Tree κ α}
    (h : ∀ p, Along done rest p → ∀ a, t.node p ≠ some (some a)) :
    (createDirAll done rest).result t = .ok () ∧
      ∀ p c, Tree.node ((createDirAll done rest).final t) p = some c ↔
        t.node p = some c ∨ (c = none ∧ t.node p = none ∧ Along done rest p) := by
  induction rest generalizing done t with
  | nil => exact ⟨rfl, fun p c => (or_iff_left fun hp => along_nil hp.2.2).symm⟩
  | cons n rest ih =>
      have hread : (read : FileOp κ α (Tree κ α)).result t = .ok t := rfl
      rw [createDirAll, result_bind_of_ok hread, final_bind_of_ok hread, final_read]
      cases hnode : t.node (done ++ [n]) with
      | some c =>
          cases c with
          | some a => exact absurd hnode (h _ (along_cons.mpr (Or.inl rfl)) a)
          | none =>
              obtain ⟨hres, hget⟩ := ih fun p hp => h p (along_cons.mpr (Or.inr hp))
              refine ⟨hres, fun p c => (hget p c).trans ?_⟩
              simp only [along_cons]
              refine or_congr_right (and_congr_right fun _ => and_congr_right fun hp => ?_)
              refine (or_iff_right ?_).symm
              rintro rfl
              cases hp.symm.trans hnode
      | none =>
          have hput : ∀ p, Tree.node (Table.put t ⟨done ++ [n], none⟩) p =
              if done ++ [n] = p then some none else t.node p := fun p => node_put _
          obtain ⟨hres, hget⟩ := ih (t := Table.put t ⟨done ++ [n], none⟩) fun p hp a ha => by
            rw [hput] at ha
            split at ha
            · cases ha
            · exact h p (along_cons.mpr (Or.inr hp)) a ha
          have hwrite : (write (.mkdir (done ++ [n])) : FileOp κ α Unit).result t = .ok () := rfl
          show (write (.mkdir (done ++ [n])) >>= fun _ => createDirAll (done ++ [n]) rest).result t =
            .ok () ∧ ∀ p c, Tree.node ((write (.mkdir (done ++ [n])) >>= fun _ =>
              createDirAll (done ++ [n]) rest).final t) p = some c ↔ _
          rw [result_bind_of_ok hwrite, final_bind_of_ok hwrite]
          refine ⟨hres, fun p c => (hget p c).trans ?_⟩
          simp only [along_cons, hput]
          by_cases hp : p = done ++ [n]
          · subst hp
            simp [hnode, eq_comm]
          · simp [hp, Ne.symm hp]

/-- A file in the way stops it. -/
theorem createDirAll_error {done rest p : List κ} {t : Tree κ α} {a : α} (hp : Along done rest p)
    (hfile : t.node p = some (some a)) : ∃ e, (createDirAll done rest).result t = .error e := by
  induction rest generalizing done t with
  | nil => exact absurd hp along_nil
  | cons n rest ih =>
      have hread : (read : FileOp κ α (Tree κ α)).result t = .ok t := rfl
      rw [createDirAll, result_bind_of_ok hread, final_read]
      cases hnode : t.node (done ++ [n]) with
      | some c =>
          cases c with
          | some b => exact ⟨_, rfl⟩
          | none =>
              refine ih ((along_cons.mp hp).resolve_left ?_) hfile
              rintro rfl
              cases hnode.symm.trans hfile
      | none =>
          have hrest := (along_cons.mp hp).resolve_left (by
            rintro rfl
            cases hnode.symm.trans hfile)
          have hput : Tree.node (Table.put t ⟨done ++ [n], none⟩) p = some (some a) := by
            rw [node_put, if_neg ?_]
            · exact hfile
            · rintro rfl
              exact not_along_self hrest
          exact ih hrest hput

/-! ### Removing directories -/

/-- The directory `p` on the way to `D`, when nothing lies below it but what is on that way. -/
def Emptied (t : Tree κ α) (D p : List κ) : Prop :=
  p ≠ [] ∧ p <+: D ∧ ∀ q, t.node q ≠ none → p <+: q → q <+: D

/-- A directory is removed when nothing lies below it. -/
theorem removeDir_spec {t : Tree κ α} {p : List κ} (h : t.node p = some none) :
    (removeDir p).result t = (if t.hasBelow p then .error .notEmpty else .ok ()) ∧
      (removeDir p).final t = if t.hasBelow p then t else Table.erase t p := by
  have happly : removeDir p t =
      if t.hasBelow p then ([], .error .notEmpty) else ([.remove p], .ok ()) := by
    rw [removeDir, read_bind_apply, h]
    show (if t.hasBelow p then fail .notEmpty else write (.remove p) : FileOp κ α Unit) t = _
    split <;> rfl
  rw [result, final, journal, happly]
  split <;> exact ⟨rfl, rfl⟩

/-- The directories on the way that hold nothing else are gone, and nothing else changes. -/
theorem pruneDirs_spec {rev : List κ} {t : Tree κ α}
    (h : ∀ q, q ≠ [] → q <+: rev.reverse → t.node q = some none) :
    (pruneDirs rev).result t = .ok () ∧
      ∀ p c, Tree.node ((pruneDirs rev).final t) p = some c ↔
        t.node p = some c ∧ ¬ Emptied t rev.reverse p := by
  induction rev generalizing t with
  | nil =>
      refine ⟨rfl, fun p c => (and_iff_left ?_).symm⟩
      rintro ⟨hne, hp, -⟩
      exact hne (List.prefix_nil.mp hp)
  | cons n rev ih =>
      have hD : (n :: rev).reverse = rev.reverse ++ [n] := List.reverse_cons
      obtain ⟨hres, hfinal⟩ := removeDir_spec (h _ (by simp) (List.prefix_refl _))
      have hattempt : ∀ r, (removeDir (n :: rev).reverse).result t = r →
          (attempt (removeDir (n :: rev).reverse) : FileOp κ α _).result t = .ok r :=
        fun r hr => by rw [result_attempt, hr]
      cases hbelow : t.hasBelow (n :: rev).reverse with
      | true =>
          -- what lies below the last directory lies below all of them
          rw [hbelow, if_pos rfl] at hres hfinal
          rw [pruneDirs, result_bind_of_ok (hattempt _ hres), final_bind_of_ok (hattempt _ hres),
            final_attempt, hfinal]
          refine ⟨rfl, fun p c => (and_iff_left ?_).symm⟩
          rintro ⟨-, hp, hemptied⟩
          obtain ⟨q, hq, hDq, hne⟩ := hasBelow_iff.mp hbelow
          have hqD := hemptied q hq (hp.trans hDq)
          exact hne (hDq.eq_of_length_le hqD.length_le)
      | false =>
          rw [hbelow, if_neg Bool.false_ne_true] at hres hfinal
          rw [pruneDirs, result_bind_of_ok (hattempt _ hres), final_bind_of_ok (hattempt _ hres),
            final_attempt, hfinal, hD]
          rw [hD] at hbelow h
          have hlast : ∀ q, t.node q ≠ none → rev.reverse ++ [n] <+: q → q = rev.reverse ++ [n] := by
            intro q hq hDq
            by_contra hne
            rw [hasBelow_iff.mpr ⟨q, hq, hDq, fun h => hne h.symm⟩] at hbelow
            cases hbelow
          have herase : ∀ p, Tree.node (Table.erase t (rev.reverse ++ [n])) p =
              if rev.reverse ++ [n] = p then none else t.node p := fun p => node_erase
          obtain ⟨ihres, ihget⟩ := ih (t := Table.erase t (rev.reverse ++ [n])) fun q hne hq => by
            rw [herase, if_neg ?_]
            · exact h q hne (hq.trans (List.prefix_append _ _))
            · rintro rfl
              exact absurd hq.length_le (by simp)
          refine ⟨ihres, fun p c => (ihget p c).trans ?_⟩
          by_cases hp : p = rev.reverse ++ [n]
          · -- the last directory is empty
            subst hp
            rw [herase, if_pos rfl]
            refine iff_of_false (fun h => by cases h.1) fun h => h.2 ⟨by simp, List.prefix_refl _, ?_⟩
            intro q hq hDq
            rw [hlast q hq hDq]
          · rw [herase, if_neg (Ne.symm hp)]
            refine and_congr_right fun _ => not_congr (and_congr_right fun _ => ?_)
            rw [List.prefix_concat_iff, or_iff_right hp]
            refine and_congr_right fun _ => forall_congr' fun q => ?_
            rw [herase, List.prefix_concat_iff]
            by_cases hq : q = rev.reverse ++ [n]
            · simp [hq]
            · simp [hq, Ne.symm hq]

/-! ### Walking -/

theorem Tree.Closed.dir_of_prefix {t : Tree κ α} (h : t.Closed) {p q : List κ} (hp : p ≠ [])
    (hq : q ≠ []) (hnode : t.node (p ++ q) ≠ none) : t.node p = some none := by
  induction q using List.reverseRecOn with
  | nil => exact absurd rfl hq
  | append_singleton q n ih =>
      rw [← List.append_assoc] at hnode
      have hdir := (h.2 _ _ hnode).resolve_left (by simp [hp])
      by_cases hnil : q = []
      · rwa [hnil, List.append_nil] at hdir
      · exact ih hnil (by rw [hdir]; exact Option.some_ne_none _)

theorem isDir_iff {t : Tree κ α} {p : List κ} (hp : p ≠ []) :
    t.isDir p = true ↔ t.node p = some none := by
  rw [Tree.isDir, List.isEmpty_eq_false_iff.mpr hp, Bool.false_or]
  cases t.node p with
  | none => simp
  | some c => cases c <;> simp

/-- Exactly the files below the directory are walked over, as deep as the fuel reaches. -/
theorem mem_walk {keep : κ → Bool} {t : Tree κ α} (h : t.Closed) {fuel : ℕ} {dir p : List κ} :
    p ∈ walk keep t fuel dir ↔ ∃ q n, p = dir ++ (q ++ [n]) ∧ q.length < fuel ∧ keep n = true ∧
      ∃ a, t.node p = some (some a) := by
  induction fuel generalizing dir p with
  | zero => simp [walk]
  | succ fuel ih =>
      rw [walk, List.mem_flatMap]
      constructor
      · rintro ⟨m, hm, hp⟩
        split at hp
        · obtain ⟨q, n, rfl, hlt, hkeep, hfile⟩ := ih.mp hp
          exact ⟨m :: q, n, by simp, Nat.succ_lt_succ hlt, hkeep, hfile⟩
        · rename_i hdir
          split at hp
          · rename_i hkeep
            obtain rfl := List.mem_singleton.mp hp
            refine ⟨[], m, rfl, Nat.succ_pos _, hkeep, ?_⟩
            obtain ⟨c, hc⟩ := Option.ne_none_iff_exists'.mp (mem_children.mp hm)
            cases c with
            | none => exact absurd ((isDir_iff (by simp)).mpr hc) hdir
            | some a => exact ⟨a, hc⟩
          · cases hp
      · rintro ⟨q, n, rfl, hlt, hkeep, a, hfile⟩
        cases q with
        | nil =>
            refine ⟨n, mem_children.mpr (by rw [List.nil_append] at hfile; simp [hfile]), ?_⟩
            rw [List.nil_append] at hfile ⊢
            have hdir : t.isDir (dir ++ [n]) = false := by
              rw [Bool.eq_false_iff]
              intro hdir
              cases ((isDir_iff (by simp)).mp hdir).symm.trans hfile
            simp [hdir, hkeep]
        | cons m q =>
            have hpath : dir ++ (m :: q ++ [n]) = (dir ++ [m]) ++ (q ++ [n]) := by simp
            rw [hpath] at hfile ⊢
            have hdir : t.node (dir ++ [m]) = some none :=
              h.dir_of_prefix (q := q ++ [n]) (by simp) (by simp)
                (by rw [hfile]; exact Option.some_ne_none _)
            refine ⟨m, mem_children.mpr (by rw [hdir]; exact Option.some_ne_none _), ?_⟩
            rw [if_pos ((isDir_iff (by simp)).mpr hdir)]
            exact ih.mpr ⟨q, n, rfl, Nat.lt_of_succ_lt_succ hlt, hkeep, a, hfile⟩

theorem nodup_children (t : Tree κ α) (dir : List κ) : (t.children dir).Nodup := by
  have hpaths : t.children dir = (t.rows.map Inode.path).filterMap fun p =>
      if p ≠ [] ∧ p.dropLast = dir then p.getLast? else none := by
    rw [List.filterMap_map]
    rfl
  rw [hpaths]
  refine t.nodup.filterMap fun p p' n hn hn' => ?_
  split at hn
  · rename_i h
    split at hn'
    · rename_i h'
      rw [← List.dropLast_append_getLast? n hn, ← List.dropLast_append_getLast? n hn', h.2, h'.2]
    · cases hn'
  · cases hn

/-- No file is walked over twice. -/
theorem nodup_walk (keep : κ → Bool) (t : Tree κ α) (fuel : ℕ) (dir : List κ) :
    (walk keep t fuel dir).Nodup := by
  induction fuel generalizing dir with
  | zero => exact List.nodup_nil
  | succ fuel ih =>
      rw [walk, List.nodup_flatMap]
      have hbelow : ∀ (fuel : ℕ) (dir p : List κ), p ∈ walk keep t fuel dir → dir <+: p := by
        intro fuel
        induction fuel with
        | zero => exact fun dir p hp => by cases hp
        | succ fuel ih =>
            intro dir p hp
            obtain ⟨m, -, hp⟩ := List.mem_flatMap.mp hp
            split at hp
            · exact (List.prefix_append _ _).trans (ih _ _ hp)
            · split at hp
              · obtain rfl := List.mem_singleton.mp hp
                exact List.prefix_append _ _
              · cases hp
      refine ⟨fun m _ => ?_, (nodup_children t dir).imp fun {m m'} hne => ?_⟩
      · split
        · exact ih _
        · split
          · exact List.nodup_singleton _
          · exact List.nodup_nil
      · -- what lies below two names differs at the name
        have hstart : ∀ (m : κ) (p : List κ), (p ∈ if t.isDir (dir ++ [m]) then
            walk keep t fuel (dir ++ [m]) else if keep m then [dir ++ [m]] else []) →
              dir ++ [m] <+: p := by
          intro m p hp
          split at hp
          · exact hbelow _ _ _ hp
          · split at hp
            · exact List.mem_singleton.mp hp ▸ List.prefix_refl _
            · cases hp
        intro p hp hp'
        have h1 := hstart m p hp
        have h2 := hstart m' p hp'
        have heq := (List.prefix_of_prefix_length_le h1 h2 (by simp)).eq_of_length (by simp)
        exact hne (by simpa using heq)

/-- The depth of the tree is fuel enough. -/
theorem length_le_depth {t : Tree κ α} {p : List κ} (h : t.node p ≠ none) :
    p.length ≤ t.depth := by
  obtain ⟨c, hc⟩ := Option.ne_none_iff_exists'.mp h
  have hmem := List.mem_map_of_mem (f := fun i : Inode κ α => i.path.length) (mem_rows_iff.mpr hc)
  rw [Tree.depth]
  generalize t.rows.map (fun i => i.path.length) = ls at hmem
  induction ls with
  | nil => cases hmem
  | cons l ls ih =>
      rcases List.mem_cons.mp hmem with rfl | hmem
      · exact le_max_left _ _
      · exact (ih hmem).trans (le_max_right _ _)

end

end Ocid.Files
