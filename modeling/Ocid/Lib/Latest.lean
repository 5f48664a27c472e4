import Mathlib

/-!
# Lib — Latest — keeping the newest of what arrives

A cell keeps one value.  A value that arrives replaces the one kept when its rank is greater, or
when the ranks are equal and the keys differ (`Beats`).  `latest` is what is kept after a list of
arrivals.

The rank kept is always the greatest one (`exists_latest`).  Which of several values of the
greatest rank is kept depends on the order: of two with different keys the later one, of two with
the same key the earlier one.  So all orders agree exactly when one value alone has the greatest
rank (`latest_agree_iff`).
-/

namespace Ocid

universe u v w

section
variable {α : Type u} {β : Type v} {κ : Type w} [LinearOrder β]
variable (rank : α → β) (key : α → κ)

/-- `x` replaces `y`. -/
def Beats (x y : α) : Prop := rank y < rank x ∨ (rank x = rank y ∧ key x ≠ key y)

section
variable {rank key} {x y : α}

theorem Beats.rank_le (h : Beats rank key x y) : rank y ≤ rank x := by
  rcases h with h | h
  · exact le_of_lt h
  · exact le_of_eq h.1.symm

theorem rank_le_of_not_beats (h : ¬ Beats rank key x y) : rank x ≤ rank y :=
  le_of_not_gt fun hlt => h (Or.inl hlt)

/-- A value of the greatest rank is refused only for one of the same rank and key. -/
theorem eq_of_not_beats (h : ¬ Beats rank key x y) (hle : rank y ≤ rank x) :
    rank x = rank y ∧ key x = key y := by
  have hr := le_antisymm (rank_le_of_not_beats h) hle
  exact ⟨hr, not_not.mp fun hk => h (Or.inr ⟨hr, hk⟩)⟩

end

variable [DecidableEq κ]

instance (x y : α) : Decidable (Beats rank key x y) :=
  inferInstanceAs (Decidable (rank y < rank x ∨ (rank x = rank y ∧ key x ≠ key y)))

/-- What is kept when `x` arrives. -/
def keep : Option α → α → Option α
  | none, x => some x
  | some y, x => if Beats rank key x y then some x else some y

/-- What is kept after the arrivals `l`. -/
def latest (e : Option α) (l : List α) : Option α := l.foldl (keep rank key) e

theorem latest_append (e : Option α) (l l' : List α) :
    latest rank key e (l ++ l') = latest rank key (latest rank key e l) l' :=
  List.foldl_append

variable {x : α} {l : List α}

/-! ### The rank that is kept -/

/-- From a value on, what is kept is that value or an arrival, and of the greatest rank. -/
theorem exists_latest_some (y : α) (l : List α) :
    ∃ z, latest rank key (some y) l = some z ∧ (z = y ∨ z ∈ l) ∧ rank y ≤ rank z ∧
      ∀ x ∈ l, rank x ≤ rank z := by
  induction l generalizing y with
  | nil => exact ⟨y, rfl, Or.inl rfl, le_refl _, fun x hx => absurd hx List.not_mem_nil⟩
  | cons x l ih =>
      by_cases h : Beats rank key x y
      · obtain ⟨z, hz, hmem, hle, hall⟩ := ih x
        refine ⟨z, by simp only [latest, List.foldl_cons, keep, if_pos h]; exact hz, Or.inr ?_,
          le_trans h.rank_le hle, fun a ha => ?_⟩
        · rcases hmem with rfl | hmem
          · exact List.mem_cons_self
          · exact List.mem_cons_of_mem _ hmem
        · rcases List.mem_cons.mp ha with rfl | ha
          · exact hle
          · exact hall a ha
      · obtain ⟨z, hz, hmem, hle, hall⟩ := ih y
        refine ⟨z, by simp only [latest, List.foldl_cons, keep, if_neg h]; exact hz,
          hmem.imp_right (List.mem_cons_of_mem _), hle, fun a ha => ?_⟩
        rcases List.mem_cons.mp ha with rfl | ha
        · exact le_trans (rank_le_of_not_beats h) hle
        · exact hall a ha

/-- **What is kept is of the greatest rank.** -/
theorem exists_latest (hl : l ≠ []) :
    ∃ z ∈ l, latest rank key none l = some z ∧ ∀ x ∈ l, rank x ≤ rank z := by
  cases l with
  | nil => exact absurd rfl hl
  | cons y l =>
      obtain ⟨z, hz, hmem, hle, hall⟩ := exists_latest_some rank key y l
      refine ⟨z, ?_, hz, fun x hx => ?_⟩
      · rcases hmem with rfl | hmem
        · exact List.mem_cons_self
        · exact List.mem_cons_of_mem _ hmem
      · rcases List.mem_cons.mp hx with rfl | hx
        · exact hle
        · exact hall x hx

/-! ### The order of ties -/

/-- When a value of the greatest rank arrives last, its key is the one kept. -/
theorem key_latest_concat (hx : ∀ a ∈ l, rank a ≤ rank x) :
    ∃ z, latest rank key none (l ++ [x]) = some z ∧ key z = key x := by
  rw [latest_append]
  cases he : latest rank key none l with
  | none => exact ⟨x, rfl, rfl⟩
  | some y =>
      have hy : rank y ≤ rank x := by
        have hl : l ≠ [] := by
          rintro rfl
          cases he
        obtain ⟨z, hz, hzl, -⟩ := exists_latest rank key hl
        obtain rfl := Option.some.inj (he.symm.trans hzl)
        exact hx y hz
      by_cases h : Beats rank key x y
      · exact ⟨x, by simp [latest, keep, h], rfl⟩
      · exact ⟨y, by simp [latest, keep, h], (eq_of_not_beats h hy).2.symm⟩

/-- When a value of the greatest rank arrives first, and all others of that rank have its key, it is
the one kept. -/
theorem latest_cons_of_key (hx : ∀ a ∈ l, rank a ≤ rank x)
    (hkey : ∀ a ∈ l, rank a = rank x → key a = key x) :
    latest rank key none (x :: l) = some x := by
  have key' : ∀ l' : List α, (∀ a ∈ l', a ∈ l) → latest rank key (some x) l' = some x := by
    intro l'
    induction l' with
    | nil => exact fun _ => rfl
    | cons a l' ih =>
        intro hsub
        have ha := hsub a List.mem_cons_self
        have hnot : ¬ Beats rank key a x := by
          rintro (h | ⟨hr, hk⟩)
          · exact absurd h (not_lt_of_ge (hx a ha))
          · exact hk (hkey a ha hr)
        simp only [latest, List.foldl_cons, keep, if_neg hnot]
        exact ih fun b hb => hsub b (List.mem_cons_of_mem _ hb)
  exact key' l fun _ ha => ha

/-- **When all orders agree.**  Every listing of `S`, with repetitions, keeps the same value exactly
when one value of `S` alone has the greatest rank. -/
theorem latest_agree_iff {S : Finset α} (hS : S.Nonempty) :
    (∀ l l' : List α, (∀ a, a ∈ l ↔ a ∈ S) → (∀ a, a ∈ l' ↔ a ∈ S) →
        latest rank key none l = latest rank key none l') ↔
      ∃! z, z ∈ S ∧ ∀ a ∈ S, rank a ≤ rank z := by
  obtain ⟨s, hs⟩ := hS
  have hne : ∀ l : List α, (∀ a, a ∈ l ↔ a ∈ S) → l ≠ [] := by
    rintro l hl rfl
    exact absurd ((hl s).mpr hs) List.not_mem_nil
  constructor
  · intro hagree
    have hlist : ∀ a, a ∈ S.toList ↔ a ∈ S := fun a => Finset.mem_toList
    obtain ⟨z, hz, -, hmax⟩ := exists_latest rank key (hne _ hlist)
    refine ⟨z, ⟨Finset.mem_toList.mp hz, fun a ha => hmax a (Finset.mem_toList.mpr ha)⟩, ?_⟩
    rintro y ⟨hy, hymax⟩
    have hzmax : ∀ a ∈ S.toList, rank a ≤ rank z := hmax
    have hymax' : ∀ a ∈ S.toList, rank a ≤ rank y := fun a ha =>
      hymax a (Finset.mem_toList.mp ha)
    have hadd : ∀ x ∈ S, (∀ a, a ∈ S.toList ++ [x] ↔ a ∈ S) ∧
        (∀ a, a ∈ x :: S.toList ↔ a ∈ S) := by
      intro x hx
      refine ⟨fun a => ?_, fun a => ?_⟩
      · rw [List.mem_append, List.mem_singleton, Finset.mem_toList]
        exact ⟨fun h => h.elim id fun h => h ▸ hx, Or.inl⟩
      · rw [List.mem_cons, Finset.mem_toList]
        exact ⟨fun h => h.elim (fun h => h ▸ hx) id, Or.inr⟩
    have hzS := Finset.mem_toList.mp hz
    -- whichever of the greatest rank arrives last decides the key, so all of them have one key
    have hkeys : ∀ a ∈ S.toList, rank a = rank z → key a = key z := by
      intro a ha har
      have haS := Finset.mem_toList.mp ha
      obtain ⟨b, hb, hbk⟩ := key_latest_concat rank key (x := a)
        fun c hc => har ▸ hzmax c hc
      obtain ⟨c, hc, hck⟩ := key_latest_concat rank key (x := z) hzmax
      have := hagree _ _ (hadd a haS).1 (hadd z hzS).1
      rw [hb, hc] at this
      rw [← hbk, ← hck, Option.some.inj this]
    -- then whichever of them arrives first is kept
    have hyz : rank y = rank z := le_antisymm (hzmax y (Finset.mem_toList.mpr hy)) (hymax z hzS)
    have h1 := latest_cons_of_key rank key hzmax hkeys
    have h2 := latest_cons_of_key rank key hymax' fun a ha har =>
      (hkeys a ha (har.trans hyz)).trans (hkeys y (Finset.mem_toList.mpr hy) hyz).symm
    have := hagree _ _ (hadd y hy).2 (hadd z hzS).2
    rw [h1, h2] at this
    exact Option.some.inj this
  · rintro ⟨z, -, huniq⟩ l l' hl hl'
    have hkept : ∀ l : List α, (∀ a, a ∈ l ↔ a ∈ S) → latest rank key none l = some z := by
      intro l hl
      obtain ⟨y, hy, hkeep, hmax⟩ := exists_latest rank key (hne l hl)
      rw [hkeep, huniq y ⟨(hl y).mp hy, fun a ha => hmax a ((hl a).mpr ha)⟩]
    rw [hkept l hl, hkept l' hl']

end

end Ocid
