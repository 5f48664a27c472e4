import Ocid.Lib.Files

/-!
# Lib — Filed — records as the files of a tree

A `Placement` gives every key a path of its own.  A tree holds the records of a table, each as the
file at the path of its key, when `Filed`: these are its files, and the directories above them are
its directories.  Reading, writing and removing a file are then the operations of the table, as
long as no path has to be a file and a directory at once: `Free` says that no record lies below a
path, and `Open` that no record lies above it.
-/

namespace Ocid.Files

open Call

/-- A path above another one. -/
def Above {κ : Type} (p q : List κ) : Prop := p <+: q ∧ p ≠ q

instance {κ : Type} [DecidableEq κ] (p q : List κ) : Decidable (Above p q) :=
  inferInstanceAs (Decidable (_ ∧ _))

/-- A path for every key. -/
structure Placement (K κ : Type) where
  path : K → List κ
  injective : Function.Injective path
  ne_nil : ∀ k, path k ≠ []

section
variable {κ K α : Type} {key : α → K} (P : Placement K κ) (rs : Table key)

/-- No record lies below the path of `k`. -/
def Free (k : K) : Prop := ∀ a ∈ rs.rows, ¬ Above (P.path k) (P.path (key a))

/-- No record lies above the path of `k`. -/
def Open (k : K) : Prop := ∀ a ∈ rs.rows, ¬ Above (P.path (key a)) (P.path k)

instance [DecidableEq κ] (k : K) : Decidable (Free P rs k) :=
  inferInstanceAs (Decidable (∀ a ∈ rs.rows, _))

instance [DecidableEq κ] (k : K) : Decidable (Open P rs k) :=
  inferInstanceAs (Decidable (∀ a ∈ rs.rows, _))

/-- The files of the tree are the records, and its directories lie above them. -/
structure Filed [DecidableEq κ] (t : Tree κ α) : Prop where
  file : ∀ p a, t.node p = some (some a) ↔ a ∈ rs.rows ∧ P.path (key a) = p
  dir : ∀ p, t.node p = some none ↔ p ≠ [] ∧ ∃ a ∈ rs.rows, Above p (P.path (key a))

end

section
variable {κ K α : Type} {key : α → K} {P : Placement K κ} {rs : Table key}

/-! ### Paths -/

theorem above_extend {p q r : List κ} (h : Above p q) (hqr : q <+: r) : Above p r := by
  refine ⟨h.1.trans hqr, ?_⟩
  rintro rfl
  exact h.2 (h.1.eq_of_length_le hqr.length_le)

theorem above_of_above {p q r : List κ} (hpq : p <+: q) (h : Above q r) : Above p r := by
  refine ⟨hpq.trans h.1, ?_⟩
  rintro rfl
  exact h.2 (h.1.eq_of_length_le hpq.length_le)

/-- What is above a path is a prefix of its directory. -/
theorem above_iff_dropLast {p q : List κ} (hq : q ≠ []) : Above p q ↔ p <+: q.dropLast := by
  obtain ⟨d, n, rfl⟩ : ∃ d n, q = d ++ [n] := ⟨_, _, (List.dropLast_append_getLast hq).symm⟩
  rw [List.dropLast_concat, Above, List.prefix_concat_iff]
  constructor
  · rintro ⟨rfl | h, hne⟩
    · exact absurd rfl hne
    · exact h
  · intro h
    refine ⟨Or.inr h, ?_⟩
    rintro rfl
    exact absurd h.length_le (by simp)

theorem along_iff {d p : List κ} : Along [] d p ↔ p ≠ [] ∧ p <+: d := by
  constructor
  · rintro ⟨q, hne, hq, rfl⟩
    exact ⟨hne, hq⟩
  · exact fun h => ⟨p, h.1, h.2, rfl⟩

variable [DecidableEq κ] [DecidableEq K] {t : Tree κ α} {k : K} {a b : α}

/-! ### Reading -/

omit [DecidableEq K] in
theorem filed_empty : Filed P (.empty : Table key) (.empty : Tree κ α) :=
  ⟨fun _ _ => ⟨nofun, fun h => by cases h.1⟩, fun _ => ⟨nofun, fun ⟨_, _, h, _⟩ => by cases h⟩⟩

namespace Filed

variable (h : Filed P rs t)
include h

omit [DecidableEq K] in
/-- No record lies above another one. -/
theorem not_above (ha : a ∈ rs.rows) (hb : b ∈ rs.rows) :
    ¬ Above (P.path (key a)) (P.path (key b)) := by
  intro habove
  have hfile := (h.file _ _).mpr ⟨ha, rfl⟩
  have hdir := (h.dir _).mpr ⟨P.ne_nil _, b, hb, habove⟩
  cases hfile.symm.trans hdir

omit [DecidableEq K] in
theorem closed : t.Closed := by
  have hdir : ∀ p n, ∀ a ∈ rs.rows, p ++ [n] <+: P.path (key a) →
      p = [] ∨ t.node p = some none := by
    intro p n a ha hp
    by_cases hnil : p = []
    · exact Or.inl hnil
    · have habove : Above p (p ++ [n]) := ⟨List.prefix_append _ _, by simp⟩
      exact Or.inr ((h.dir p).mpr ⟨hnil, a, ha, above_extend habove hp⟩)
  constructor
  · cases hnode : t.node [] with
    | none => rfl
    | some c =>
        cases c with
        | none => exact absurd rfl ((h.dir _).mp hnode).1
        | some a => exact absurd ((h.file _ _).mp hnode).2 (P.ne_nil _)
  · intro p n hp
    obtain ⟨c, hc⟩ := Option.ne_none_iff_exists'.mp hp
    cases c with
    | none =>
        obtain ⟨-, a, ha, habove⟩ := (h.dir _).mp hc
        exact hdir p n a ha habove.1
    | some a =>
        obtain ⟨ha, hpath⟩ := (h.file _ _).mp hc
        exact hdir p n a ha (hpath ▸ List.prefix_refl _)

/-- What is at the path of a key, when nothing lies below it. -/
theorem node_path (hfree : Free P rs k) : t.node (P.path k) = (rs.get k).map some := by
  cases hget : rs.get k with
  | some a => exact (h.file _ _).mpr ⟨Table.mem_of_get hget, by rw [Table.key_of_get hget]⟩
  | none =>
      cases hnode : t.node (P.path k) with
      | none => rfl
      | some c =>
          cases c with
          | none =>
              obtain ⟨-, b, hb, habove⟩ := (h.dir _).mp hnode
              exact absurd habove (hfree b hb)
          | some b =>
              obtain ⟨hb, hpath⟩ := (h.file _ _).mp hnode
              exact absurd (P.injective hpath) (Table.get_eq_none_iff.mp hget b hb)

omit [DecidableEq K] in
/-- A directory, when a record lies below it. -/
theorem node_of_not_free (hfree : ¬ Free P rs k) : t.node (P.path k) = some none := by
  simp only [Free, not_forall, not_not] at hfree
  obtain ⟨a, ha, habove⟩ := hfree
  exact (h.dir _).mpr ⟨P.ne_nil k, a, ha, habove⟩

omit [DecidableEq K] in
/-- Where a record lies above a path, nothing is. -/
theorem node_of_not_open (hopen : ¬ Open P rs k) : t.node (P.path k) = none := by
  simp only [Open, not_forall, not_not] at hopen
  obtain ⟨a, ha, habove⟩ := hopen
  cases hnode : t.node (P.path k) with
  | none => rfl
  | some c =>
      exfalso
      cases c with
      | none =>
          obtain ⟨-, b, hb, hbelow⟩ := (h.dir _).mp hnode
          exact h.not_above ha hb (above_extend habove hbelow.1)
      | some b =>
          obtain ⟨hb, hpath⟩ := (h.file _ _).mp hnode
          exact h.not_above ha hb (hpath ▸ habove)

/-! ### Writing -/

omit [DecidableEq K] in
/-- Where a record lies above a path, no file is written. -/
theorem put_error (hopen : ¬ Open P rs k) :
    ∃ e, (writeAtomic (P.path k) a).result t = .error e := by
  simp only [Open, not_forall, not_not] at hopen
  obtain ⟨b, hb, habove⟩ := hopen
  have hprefix := (above_iff_dropLast (P.ne_nil k)).mp habove
  obtain ⟨e, he⟩ := createDirAll_error (along_iff.mpr ⟨P.ne_nil _, hprefix⟩)
    ((h.file _ _).mpr ⟨hb, rfl⟩)
  exact ⟨e, result_bind_of_error he _⟩

/-- Elsewhere the record is filed. -/
theorem put (hfree : Free P rs (key a)) (hopen : Open P rs (key a)) :
    (writeAtomic (P.path (key a)) a).result t = .ok () ∧
      Filed P (rs.put a) ((writeAtomic (P.path (key a)) a).final t) := by
  have hup : ∀ p, Above p (P.path (key a)) ↔ p <+: (P.path (key a)).dropLast :=
    fun p => above_iff_dropLast (P.ne_nil _)
  -- no file is where a directory has to be
  have hfile : ∀ p, Above p (P.path (key a)) → ∀ b, t.node p ≠ some (some b) := by
    intro p hp b hb
    obtain ⟨hmem, rfl⟩ := (h.file _ _).mp hb
    exact hopen b hmem hp
  have hclear : ∀ p, Along [] (P.path (key a)).dropLast p → ∀ b, t.node p ≠ some (some b) :=
    fun p hp => hfile p ((hup p).mpr (along_iff.mp hp).2)
  obtain ⟨hdirs, hnode⟩ := createDirAll_spec hclear
  simp only [along_iff, ← hup] at hnode
  generalize ht' : (createDirAll [] (P.path (key a)).dropLast).final t = t' at hnode
  have hnodir : t'.isDir (P.path (key a)) = false := by
    rw [Bool.eq_false_iff, ne_eq, isDir_iff (P.ne_nil _), hnode]
    rintro (hdir | ⟨-, -, -, habove⟩)
    · obtain ⟨-, b, hb, habove⟩ := (h.dir _).mp hdir
      exact hfree b hb habove
    · exact habove.2 rfl
  have hrename : (renameTo (P.path (key a)) a).result t' = .ok () ∧
      (renameTo (P.path (key a)) a).final t' = Table.put t' ⟨P.path (key a), some a⟩ := by
    rw [result, final, journal, renameTo, read_bind_apply, hnodir]
    exact ⟨rfl, rfl⟩
  rw [writeAtomic, result_bind_of_ok hdirs, final_bind_of_ok hdirs, ht', hrename.2]
  refine ⟨hrename.1, fun p b => ?_, fun p => ?_⟩
  · rw [node_put, Table.mem_put]
    by_cases hp : P.path (key a) = p
    · subst hp
      simp only [if_true, Option.some.injEq, P.injective.eq_iff]
      constructor
      · rintro rfl
        exact ⟨Or.inl rfl, rfl⟩
      · rintro ⟨rfl | hb, hkey⟩
        · rfl
        · exact absurd hkey hb.2
    · rw [if_neg hp, hnode, h.file]
      constructor
      · rintro (⟨hb, rfl⟩ | ⟨hnone, -⟩)
        · exact ⟨Or.inr ⟨hb, fun hkey => hp (congrArg P.path hkey).symm⟩, rfl⟩
        · cases hnone
      · rintro ⟨rfl | hb, rfl⟩
        · exact absurd rfl hp
        · exact Or.inl ⟨hb.1, rfl⟩
  · rw [node_put]
    by_cases hp : P.path (key a) = p
    · subst hp
      refine iff_of_false (by simp) ?_
      rintro ⟨-, b, hb, habove⟩
      rcases Table.mem_put.mp hb with rfl | hb
      · exact habove.2 rfl
      · exact hfree b hb.1 habove
    · rw [if_neg hp, hnode, h.dir]
      constructor
      · rintro (⟨hne, b, hb, habove⟩ | ⟨-, -, hne, habove⟩)
        · refine ⟨hne, ?_⟩
          by_cases hkey : key b = key a
          · exact ⟨a, Table.mem_put.mpr (Or.inl rfl), hkey ▸ habove⟩
          · exact ⟨b, Table.mem_put.mpr (Or.inr ⟨hb, hkey⟩), habove⟩
        · exact ⟨hne, a, Table.mem_put.mpr (Or.inl rfl), habove⟩
      · rintro ⟨hne, b, hb, habove⟩
        rcases Table.mem_put.mp hb with rfl | hb
        · cases hold : t.node p with
          | none => exact Or.inr ⟨rfl, rfl, hne, habove⟩
          | some c =>
              cases c with
              | none => exact Or.inl ((h.dir p).mp hold)
              | some c => exact absurd hold (hfile p habove c)
        · exact Or.inl ⟨hne, b, hb.1, habove⟩

omit h in
/-- Records none of which lies above another one can be kept in files. -/
theorem exists_of_rows (rs : Table key)
    (h : ∀ a ∈ rs.rows, ∀ b ∈ rs.rows, ¬ Above (P.path (key a)) (P.path (key b))) :
    ∃ t : Tree κ α, Filed P rs t := by
  obtain ⟨rows, hnodup⟩ := rs
  induction rows with
  | nil => exact ⟨.empty, filed_empty⟩
  | cons a rows ih =>
      obtain ⟨hnew, hrows⟩ := List.nodup_cons.mp hnodup
      obtain ⟨t, ht⟩ := ih hrows fun b hb c hc =>
        h b (List.mem_cons_of_mem a hb) c (List.mem_cons_of_mem a hc)
      obtain ⟨-, hfiled⟩ := ht.put (a := a)
        (fun b hb => h a List.mem_cons_self b (List.mem_cons_of_mem a hb))
        (fun b hb => h b (List.mem_cons_of_mem a hb) a List.mem_cons_self)
      -- putting the record replaces none of the others
      have hput : (⟨rows, hrows⟩ : Table key).put a = ⟨a :: rows, hnodup⟩ := by
        have hkept : rows.filter (fun u => decide (key u ≠ key a)) = rows :=
          List.filter_eq_self.mpr fun b hb => decide_eq_true fun hkey =>
            hnew (hkey ▸ List.mem_map_of_mem hb)
        simp only [Table.put, hkept]
      exact ⟨_, hput ▸ hfiled⟩

/-! ### Removing -/

/-- A record that is held is removed, with the directories that held nothing else. -/
theorem erase (ha : a ∈ rs.rows) :
    (removeFile (P.path (key a))).result t = .ok () ∧
      (pruneDirs (P.path (key a)).dropLast.reverse).result
          ((removeFile (P.path (key a))).final t) = .ok () ∧
      Filed P (rs.erase (key a)) ((pruneDirs (P.path (key a)).dropLast.reverse).final
        ((removeFile (P.path (key a))).final t)) := by
  have hup : ∀ p, Above p (P.path (key a)) ↔ p <+: (P.path (key a)).dropLast :=
    fun p => above_iff_dropLast (P.ne_nil _)
  have hremove : (removeFile (P.path (key a))).result t = .ok () ∧
      (removeFile (P.path (key a))).final t = Table.erase t (P.path (key a)) := by
    rw [result, final, journal, removeFile_file ((h.file _ _).mpr ⟨ha, rfl⟩)]
    exact ⟨rfl, rfl⟩
  refine ⟨hremove.1, ?_⟩
  rw [hremove.2]
  have hnode : ∀ p, Tree.node (Table.erase t (P.path (key a))) p =
      if P.path (key a) = p then none else t.node p := fun p => node_erase
  generalize Table.erase t (P.path (key a)) = t' at hnode
  have hdirs : ∀ p, p ≠ [] → p <+: (P.path (key a)).dropLast →
      Tree.node t' p = some none := by
    intro p hne hp
    have habove := (hup p).mpr hp
    rw [hnode, if_neg (Ne.symm habove.2)]
    exact (h.dir p).mpr ⟨hne, a, ha, habove⟩
  rw [← List.reverse_reverse (P.path (key a)).dropLast] at hdirs
  obtain ⟨hprune, hleft⟩ := pruneDirs_spec hdirs
  rw [List.reverse_reverse] at hleft
  refine ⟨hprune, fun p b => ?_, fun p => ?_⟩
  · rw [hleft, hnode, Table.mem_erase]
    by_cases hp : P.path (key a) = p
    · rw [if_pos hp]
      refine iff_of_false (by simp) ?_
      rintro ⟨⟨-, hkey⟩, hpath⟩
      exact hkey (P.injective (hpath.trans hp.symm))
    · rw [if_neg hp, h.file]
      constructor
      · rintro ⟨⟨hb, rfl⟩, -⟩
        exact ⟨⟨hb, fun hkey => hp (congrArg P.path hkey).symm⟩, rfl⟩
      · rintro ⟨⟨hb, -⟩, rfl⟩
        -- a file is not above the record that goes
        exact ⟨⟨hb, rfl⟩, fun hempty => h.not_above hb ha ((hup _).mpr hempty.2.1)⟩
  · rw [hleft, hnode]
    by_cases hp : P.path (key a) = p
    · subst hp
      refine iff_of_false (by simp) ?_
      rintro ⟨-, b, hb, habove⟩
      exact h.not_above ha (Table.mem_erase.mp hb).1 habove
    · rw [if_neg hp, h.dir]
      constructor
      · rintro ⟨⟨hne, b, hb, habove⟩, hempty⟩
        refine ⟨hne, ?_⟩
        by_cases hkey : key b = key a
        · -- the directory stays because something else lies below it
          rw [hkey] at habove
          simp only [Emptied, not_and, not_forall] at hempty
          obtain ⟨q, hq, hpq, hqd⟩ := hempty hne ((hup p).mp habove)
          rw [hnode] at hq
          split at hq
          · exact absurd rfl hq
          rename_i hqa
          obtain ⟨c, hc⟩ := Option.ne_none_iff_exists'.mp hq
          have hrest : ∀ b ∈ rs.rows, q <+: P.path (key b) → key b ≠ key a := by
            intro b _ hqb hkey
            rw [hkey] at hqb
            exact hqd ((hup q).mp ⟨hqb, fun h => hqa h.symm⟩)
          cases c with
          | none =>
              obtain ⟨-, b', hb', hbelow⟩ := (h.dir q).mp hc
              exact ⟨b', Table.mem_erase.mpr ⟨hb', hrest b' hb' hbelow.1⟩,
                above_of_above hpq hbelow⟩
          | some b' =>
              obtain ⟨hb', rfl⟩ := (h.file q _).mp hc
              refine ⟨b', Table.mem_erase.mpr ⟨hb', hrest b' hb' (List.prefix_refl _)⟩, hpq, ?_⟩
              rintro rfl
              exact h.not_above hb' ha habove
        · exact ⟨b, Table.mem_erase.mpr ⟨hb, hkey⟩, habove⟩
      · rintro ⟨hne, b, hb, habove⟩
        obtain ⟨hb, hkey⟩ := Table.mem_erase.mp hb
        refine ⟨⟨hne, b, hb, habove⟩, fun hempty => ?_⟩
        have hfile := (h.file _ _).mpr ⟨hb, rfl⟩
        have hbelow := hempty.2.2 (P.path (key b)) (by
          rw [hnode, if_neg fun h => hkey (P.injective h).symm, hfile]
          exact Option.some_ne_none _) habove.1
        exact h.not_above hb ha ((hup _).mpr hbelow)

end Filed

end

end Ocid.Files
