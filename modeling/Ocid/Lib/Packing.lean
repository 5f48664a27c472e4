import Mathlib

/-!
# Lib — Packing — items put into groups, first fit

Items come one after the other, and each goes into the group that is open if it fits there, or else
closes it and opens the next (`place`).  The groups say all of the items in their order, none of
them is empty, and what a group may hold follows from what fits (`pack_forall`).

An item that fits with nothing has a group of its own (`mem_pack_of_alone`).
-/

namespace Packing

variable {α : Type} (fits : List α → α → Bool)

/-- Put one more item: into the open group if it fits there, else into a new one. -/
def place (s : List (List α) × List α) (a : α) : List (List α) × List α :=
  if s.2 ≠ [] ∧ fits s.2 a = false then (s.1 ++ [s.2], [a]) else (s.1, s.2 ++ [a])

/-- The groups, with the one that is open. -/
def close (s : List (List α) × List α) : List (List α) := if s.2 = [] then s.1 else s.1 ++ [s.2]

/-- The groups of some items. -/
def pack (as : List α) : List (List α) := close (as.foldl (place fits) ([], []))

/-! ### What the groups hold -/

theorem place_cases (s : List (List α) × List α) (a : α) :
    (s.2 ≠ [] ∧ fits s.2 a = false ∧ place fits s a = (s.1 ++ [s.2], [a])) ∨
      ((s.2 = [] ∨ fits s.2 a = true) ∧ place fits s a = (s.1, s.2 ++ [a])) := by
  unfold place
  split
  · rename_i h
    exact Or.inl ⟨h.1, h.2, rfl⟩
  · rename_i h
    refine Or.inr ⟨?_, rfl⟩
    by_cases hs : s.2 = []
    · exact Or.inl hs
    · exact Or.inr (Bool.not_eq_false _ ▸ fun hf => h ⟨hs, hf⟩)

theorem flatten_foldl (as : List α) (s : List (List α) × List α) :
    (as.foldl (place fits) s).1.flatten ++ (as.foldl (place fits) s).2 =
      s.1.flatten ++ s.2 ++ as := by
  induction as generalizing s with
  | nil => simp
  | cons a as ih =>
      rw [List.foldl_cons, ih]
      rcases place_cases fits s a with ⟨-, -, h⟩ | ⟨-, h⟩ <;> simp [h]

/-- The groups are the items, in their order. -/
theorem flatten_pack (as : List α) : (pack fits as).flatten = as := by
  have h := flatten_foldl fits as ([], [])
  unfold pack close
  split
  · rename_i hopen
    simpa [hopen] using h
  · simpa using h

/-- What holds of an item alone, and of what grows by an item that fits, holds of every group. -/
theorem pack_forall {P : List α → Prop} {as : List α} (hone : ∀ a ∈ as, P [a])
    (hmore : ∀ g, g ≠ [] → P g → ∀ a ∈ as, fits g a = true → P (g ++ [a])) :
    ∀ g ∈ pack fits as, P g := by
  suffices h : ∀ bs ⊆ as, ∀ s : List (List α) × List α, (∀ g ∈ s.1, P g) → (s.2 ≠ [] → P s.2) →
      (∀ g ∈ (bs.foldl (place fits) s).1, P g) ∧
        ((bs.foldl (place fits) s).2 ≠ [] → P (bs.foldl (place fits) s).2) by
    obtain ⟨hclosed, hopen⟩ := h as (List.Subset.refl as) ([], []) (by simp) (by simp)
    unfold pack close
    split
    · exact hclosed
    · rename_i hne
      intro g hg
      rcases List.mem_append.mp hg with hg | hg
      · exact hclosed g hg
      · exact List.mem_singleton.mp hg ▸ hopen hne
  intro bs
  induction bs with
  | nil => exact fun _ s hclosed hopen => ⟨hclosed, hopen⟩
  | cons a bs ih =>
      intro hsub s hclosed hopen
      have ha : a ∈ as := hsub List.mem_cons_self
      have hbs : bs ⊆ as := fun b hb => hsub (List.mem_cons_of_mem _ hb)
      rw [List.foldl_cons]
      rcases place_cases fits s a with ⟨hne, -, h⟩ | ⟨hfits, h⟩
      · refine ih hbs _ ?_ ?_
        · rw [h]
          intro g hg
          rcases List.mem_append.mp hg with hg | hg
          · exact hclosed g hg
          · exact List.mem_singleton.mp hg ▸ hopen hne
        · rw [h]
          exact fun _ => hone a ha
      · refine ih hbs _ (by rwa [h]) ?_
        rw [h]
        intro _
        by_cases hs : s.2 = []
        · rw [hs]
          exact hone a ha
        · exact hmore s.2 hs (hopen hs) a ha (hfits.resolve_left hs)

theorem ne_nil_of_mem_pack {as : List α} : ∀ g ∈ pack fits as, g ≠ [] :=
  pack_forall fits (fun a _ => List.cons_ne_nil a []) fun g _ _ a _ _ => by simp

/-! ### Items alone -/

/-- A group that is closed stays. -/
theorem mem_foldl_of_mem {g : List α} (as : List α) (s : List (List α) × List α) (h : g ∈ s.1) :
    g ∈ (as.foldl (place fits) s).1 := by
  induction as generalizing s with
  | nil => exact h
  | cons a as ih =>
      rw [List.foldl_cons]
      refine ih _ ?_
      rcases place_cases fits s a with ⟨-, -, hplace⟩ | ⟨-, hplace⟩
      · rw [hplace]
        exact List.mem_append_left _ h
      · rw [hplace]
        exact h

/-- An item that fits nowhere, and that nothing fits with, is a group. -/
theorem mem_pack_of_alone {t : α} (hbefore : ∀ g, fits g t = false)
    (hafter : ∀ a, fits [t] a = false) {as : List α} (h : t ∈ as) : [t] ∈ pack fits as := by
  obtain ⟨bs, cs, rfl⟩ := List.append_of_mem h
  rw [pack, List.foldl_append, List.foldl_cons]
  generalize bs.foldl (place fits) ([], []) = s
  have hopen : (place fits s t).2 = [t] := by
    rcases place_cases fits s t with ⟨-, -, hplace⟩ | ⟨hfits, hplace⟩
    · rw [hplace]
    · rw [hplace, hfits.resolve_right (by simp [hbefore]), List.nil_append]
  generalize hs : place fits s t = s' at hopen ⊢
  cases cs with
  | nil => simp [close, hopen]
  | cons c cs =>
      have hclosed : [t] ∈ (place fits s' c).1 := by
        rcases place_cases fits s' c with ⟨-, -, hplace⟩ | ⟨hfits, -⟩
        · rw [hplace, hopen]
          exact List.mem_append_right _ List.mem_cons_self
        · rw [hopen, hafter] at hfits
          exact absurd hfits (by simp)
      have hmem := mem_foldl_of_mem fits cs _ hclosed
      rw [List.foldl_cons, close]
      split
      · exact hmem
      · exact List.mem_append_left _ hmem

end Packing
