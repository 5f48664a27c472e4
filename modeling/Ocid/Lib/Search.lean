import Mathlib

/-!
# Lib — Search — the first and the last place of a pattern

`firstIndex p s` is where the pattern `p` first occurs in `s`: `s` is cut there when the pattern
ends there, and nowhere before (`firstIndex_eq_some_iff`).  `lastIndex p s` is where it last occurs:
where `s` was cut when the pattern does not occur again in what follows (`lastIndex_append`).  There
is neither when the pattern does not occur at all (`firstIndex_eq_none`, `lastIndex_eq_none`).

A pattern of two marks, `c w c w'` with no mark in `w` and `w'`, occurs in a text that ends in two
marked words `c v c r` either before them, or with its first word at the end of what is before them,
or as these words (`mark_infix_iff`).
-/

namespace Ocid.Search

variable {α : Type*} [DecidableEq α]

/-- Where the pattern last occurs. -/
def lastIndex (p : List α) : List α → Option ℕ
  | [] => if p.isPrefixOf [] then some 0 else none
  | c :: s => match lastIndex p s with
    | some i => some (i + 1)
    | none => if p.isPrefixOf (c :: s) then some 0 else none

/-- Where the pattern first occurs. -/
def firstIndex (p : List α) : List α → Option ℕ
  | [] => if p.isPrefixOf [] then some 0 else none
  | c :: s => if p.isPrefixOf (c :: s) then some 0 else (firstIndex p s).map (· + 1)

/-- What is before the suffix, if the list ends with it. -/
def stripSuffix (p s : List α) : Option (List α) :=
  if p.isSuffixOf s then some (s.take (s.length - p.length)) else none

variable {p s : List α} {i : ℕ}

theorem lastIndex_eq_none : lastIndex p s = none ↔ ¬ p <:+: s := by
  induction s with
  | nil => cases p <;> simp [lastIndex]
  | cons c s ih =>
      rw [lastIndex, List.infix_cons_iff, not_or, ← ih]
      cases h : lastIndex p s with
      | none => simp
      | some i => simp

/-- The last place of a pattern is where it occurs, and does not occur again later. -/
theorem lastIndex_eq_some (hp : p ≠ []) (h : lastIndex p s = some i) :
    ∃ a b, s = a ++ (p ++ b) ∧ a.length = i ∧ ¬ p <:+: (p ++ b).tail := by
  induction s generalizing i with
  | nil =>
      cases p with
      | nil => exact absurd rfl hp
      | cons d p => cases h
  | cons c s ih =>
      rw [lastIndex] at h
      cases hlast : lastIndex p s with
      | some j =>
          rw [hlast] at h
          cases h
          obtain ⟨a, b, rfl, rfl, hlater⟩ := ih hlast
          exact ⟨c :: a, b, rfl, rfl, hlater⟩
      | none =>
          rw [hlast] at h
          dsimp only at h
          split at h
          · rename_i hstarts
            cases h
            obtain ⟨b, hb⟩ := List.isPrefixOf_iff_prefix.mp hstarts
            refine ⟨[], b, hb.symm, rfl, ?_⟩
            rw [hb]
            exact lastIndex_eq_none.mp hlast
          · cases h

theorem lastIndex_append (hp : p ≠ []) {b : List α} (h : ¬ p <:+: (p ++ b).tail) (a : List α) :
    lastIndex p (a ++ (p ++ b)) = some a.length := by
  induction a with
  | nil =>
      cases p with
      | nil => exact absurd rfl hp
      | cons c p =>
          have hnone : lastIndex (c :: p) (p ++ b) = none := lastIndex_eq_none.mpr h
          have hstarts : (c :: p).isPrefixOf (c :: (p ++ b)) = true :=
            List.isPrefixOf_iff_prefix.mpr (List.prefix_append (c :: p) b)
          rw [List.nil_append, List.cons_append, lastIndex, hnone]
          simp only [hstarts, if_true, List.length_nil]
  | cons c a ih => rw [List.cons_append, lastIndex, ih, List.length_cons]

theorem firstIndex_eq_none : firstIndex p s = none ↔ ¬ p <:+: s := by
  induction s with
  | nil => cases p <;> simp [firstIndex]
  | cons c s ih =>
      rw [firstIndex, List.infix_cons_iff, not_or, ← ih]
      by_cases h : p <+: c :: s <;> simp [h]

/-- The first place of a pattern is where it occurs, and does not end earlier. -/
theorem firstIndex_eq_some_iff (hp : p ≠ []) : firstIndex p s = some i ↔
    ∃ a b, s = a ++ (p ++ b) ∧ a.length = i ∧ ¬ p <:+: (a ++ p).dropLast := by
  have hpos := List.length_pos_of_ne_nil hp
  have hfront : ∀ a b : List α, (a ++ p).dropLast <+: a ++ (p ++ b) := fun a b => by
    rw [← List.append_assoc]
    exact (List.dropLast_prefix _).trans (List.prefix_append _ _)
  constructor
  · intro h
    induction s generalizing i with
    | nil =>
        cases p with
        | nil => exact absurd rfl hp
        | cons d p => cases h
    | cons c s ih =>
        rw [firstIndex] at h
        split at h
        · rename_i hstarts
          cases h
          obtain ⟨b, hb⟩ := List.isPrefixOf_iff_prefix.mp hstarts
          refine ⟨[], b, hb.symm, rfl, fun hin => ?_⟩
          have hle := hin.length_le
          rw [List.nil_append, List.length_dropLast] at hle
          omega
        · rename_i hstarts
          obtain ⟨j, hj, rfl⟩ := Option.map_eq_some_iff.mp h
          obtain ⟨a, b, rfl, rfl, hearlier⟩ := ih hj
          refine ⟨c :: a, b, rfl, rfl, ?_⟩
          rw [List.cons_append, List.dropLast_cons_of_ne_nil (List.append_ne_nil_of_right_ne_nil _ hp),
            List.infix_cons_iff, not_or]
          refine ⟨fun hin => hstarts (List.isPrefixOf_iff_prefix.mpr (hin.trans ?_)), hearlier⟩
          exact List.cons_prefix_cons.mpr ⟨rfl, hfront a b⟩
  · rintro ⟨a, b, rfl, rfl, hearlier⟩
    induction a with
    | nil =>
        cases p with
        | nil => exact absurd rfl hp
        | cons c p =>
            rw [List.nil_append, List.cons_append, firstIndex, if_pos]
            · rfl
            · exact List.isPrefixOf_iff_prefix.mpr (List.prefix_append (c :: p) b)
    | cons c a ih =>
        rw [List.cons_append, List.dropLast_cons_of_ne_nil (List.append_ne_nil_of_right_ne_nil _ hp),
          List.infix_cons_iff, not_or] at hearlier
        rw [List.cons_append, firstIndex, if_neg, ih hearlier.2]
        · rfl
        · intro hstarts
          refine hearlier.1 (List.prefix_of_prefix_length_le
            (List.isPrefixOf_iff_prefix.mp hstarts)
            (List.cons_prefix_cons.mpr ⟨rfl, hfront a b⟩) ?_)
          rw [List.length_cons, List.length_dropLast, List.length_append]
          omega

theorem stripSuffix_eq_some {a : List α} : stripSuffix p s = some a ↔ s = a ++ p := by
  rw [stripSuffix]
  constructor
  · intro h
    split at h
    · rename_i hsuffix
      obtain ⟨b, rfl⟩ := List.isSuffixOf_iff_suffix.mp hsuffix
      cases h
      simp
    · cases h
  · rintro rfl
    rw [if_pos (List.isSuffixOf_iff_suffix.mpr (List.suffix_append a p))]
    simp

theorem stripSuffix_eq_none : stripSuffix p s = none ↔ ¬ p <:+ s := by
  rw [stripSuffix]
  split
  · rename_i h
    exact iff_of_false nofun (not_not.mpr (List.isSuffixOf_iff_suffix.mp h))
  · rename_i h
    exact iff_of_true rfl fun hs => h (List.isSuffixOf_iff_suffix.mpr hs)

/-! ### Marked words -/

variable {c : α} {a v r w w' t : List α}

omit [DecidableEq α] in
/-- A pattern that starts with a mark does not start in a word without one. -/
theorem infix_append_of_notMem (h : c ∉ a) : c :: p <:+: a ++ t ↔ c :: p <:+: t := by
  induction a with
  | nil => rfl
  | cons d a ih =>
      obtain ⟨hd, ha⟩ := not_or.mp fun hmem => h (List.mem_cons.mpr hmem)
      rw [List.cons_append, List.infix_cons_iff, ih ha]
      refine or_iff_right fun hstarts => hd ?_
      exact (List.cons_prefix_cons.mp hstarts).1

omit [DecidableEq α] in
theorem not_infix_of_notMem (h : c ∉ a) : ¬ c :: p <:+: a := fun hin =>
  h (hin.subset List.mem_cons_self)

omit [DecidableEq α] in
theorem infix_mark_iff : c :: p <:+: c :: t ↔ p <+: t ∨ c :: p <:+: t := by
  rw [List.infix_cons_iff, List.cons_prefix_cons]
  simp

omit [DecidableEq α] in
/-- A word and a mark are at the start of another word and a mark when the words are the same. -/
theorem word_prefix_iff (hw : c ∉ w) (hv : c ∉ v) :
    w ++ c :: w' <+: v ++ c :: t ↔ w = v ∧ w' <+: t := by
  induction w generalizing v with
  | nil =>
      cases v with
      | nil => simp
      | cons e v =>
          refine iff_of_false (fun h => hv ?_) fun h => by cases h.1
          rw [List.nil_append, List.cons_append, List.cons_prefix_cons] at h
          exact h.1 ▸ List.mem_cons_self
  | cons d w ih =>
      obtain ⟨hd, hw⟩ := not_or.mp fun hmem => hw (List.mem_cons.mpr hmem)
      cases v with
      | nil =>
          refine iff_of_false (fun h => hd ?_) fun h => by cases h.1
          rw [List.nil_append, List.cons_append, List.cons_prefix_cons] at h
          exact h.1.symm
      | cons e v =>
          obtain ⟨-, hv⟩ := not_or.mp fun hmem => hv (List.mem_cons.mpr hmem)
          rw [List.cons_append, List.cons_append, List.cons_prefix_cons, ih hw hv, List.cons.injEq,
            and_assoc]

omit [DecidableEq α] in
/-- A word and a mark are at the end of a text and a marked word when the words are the same. -/
theorem word_suffix_iff (hw' : c ∉ w') (hr : c ∉ r) :
    w ++ c :: w' <:+ a ++ c :: r ↔ w' = r ∧ w <:+ a := by
  rw [← List.reverse_prefix]
  simp only [List.reverse_append, List.reverse_cons, List.append_assoc, List.singleton_append]
  rw [word_prefix_iff (by simpa using hw') (by simpa using hr), List.reverse_inj,
    List.reverse_prefix]

omit [DecidableEq α] in
/-- Where two marked words can occur in a text that ends in two marked words. -/
theorem mark_infix_iff (hw : c ∉ w) (hw' : c ∉ w') (hv : c ∉ v) (hr : c ∉ r) :
    c :: (w ++ c :: w') <:+: a ++ c :: (v ++ c :: r) ↔
      c :: (w ++ c :: w') <:+: a ∨ (c :: w <:+ a ∧ w' <+: v ++ c :: r) ∨ (w = v ∧ w' <+: r) := by
  have hlast : c :: (w ++ c :: w') <:+: c :: (v ++ c :: r) ↔ w = v ∧ w' <+: r := by
    rw [infix_mark_iff, word_prefix_iff hw hv, infix_append_of_notMem hv, infix_mark_iff]
    refine or_iff_left (not_or.mpr ⟨fun h => hr ?_, not_infix_of_notMem hr⟩)
    exact h.subset (List.mem_append_right _ List.mem_cons_self)
  rw [List.infix_append_iff_ne_nil, hlast]
  refine or_congr_right ?_
  rw [or_comm]
  refine or_congr_left ?_
  constructor
  · -- the second part of a cut pattern starts with a mark, so it is cut at its second one
    rintro ⟨x, y, hx, hy, hxy, hsuffix, hstarts⟩
    cases x with
    | nil => exact absurd rfl hx
    | cons d x =>
        cases y with
        | nil => exact absurd rfl hy
        | cons e y =>
            rw [List.cons_append, List.cons.injEq] at hxy
            obtain ⟨rfl, hcut⟩ := hxy
            rw [List.cons_prefix_cons] at hstarts
            obtain ⟨rfl, hstarts⟩ := hstarts
            obtain ⟨rfl, -, rfl⟩ := (List.append_cons_inj_of_notMem hw hw').mp hcut
            exact ⟨hsuffix, hstarts⟩
  · rintro ⟨hsuffix, hstarts⟩
    exact ⟨c :: w, c :: w', List.cons_ne_nil _ _, List.cons_ne_nil _ _, rfl, hsuffix,
      List.cons_prefix_cons.mpr ⟨rfl, hstarts⟩⟩

omit [DecidableEq α] in
/-- A marked word and a mark are in a text with a mark behind it when they are in the text, or the
word is at its end. -/
theorem mark_infix_concat_iff :
    c :: (w ++ [c]) <:+: a ++ [c] ↔ c :: (w ++ [c]) <:+: a ∨ c :: w <:+ a := by
  rw [List.infix_concat_iff, or_comm]
  refine or_congr_right ?_
  rw [List.suffix_concat_iff]
  constructor
  · rintro (h | ⟨t, h, ht⟩)
    · cases h
    · have ht' : c :: w = t := List.append_cancel_right h
      rwa [ht']
  · exact fun h => Or.inr ⟨c :: w, rfl, h⟩

end Ocid.Search
