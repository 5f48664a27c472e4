import Mathlib

/-!
# Lib — Runs — what holds along every run of a step function

`step : σ → α → Option σ` is a labelled transition system: `none` where the label is not enabled.
`run` follows a list of labels.  `Meets C` says that every step of a run is taken from a state in
which its label satisfies `C`; where the run is an interleaving, `C` is what the environment
promises about each step.

`run_keeps` is the induction every safety result uses: what each step that meets `C` keeps, every
run whose steps meet `C` keeps.  `meets_of_throughout` is its converse at one condition: when the
first step that misses `C` falsifies `I`, a run with `I` in every state reached meets `C`
throughout.
-/

namespace Ocid

variable {σ α : Type}

/-- The state a run along `as` ends in. -/
def run (step : σ → α → Option σ) : σ → List α → Option σ
  | s, [] => some s
  | s, a :: as => (step s a).bind fun t => run step t as

/-- Every step of the run along `as` is taken where its label satisfies `C`. -/
def Meets (step : σ → α → Option σ) (C : σ → α → Prop) : σ → List α → Prop
  | _, [] => True
  | s, a :: as => C s a ∧ ∀ t, step s a = some t → Meets step C t as

/-- `I` holds of every state the run along `as` passes through, its first state included. -/
def Throughout (step : σ → α → Option σ) (I : σ → Prop) : σ → List α → Prop
  | s, [] => I s
  | s, a :: as => I s ∧ ∀ t, step s a = some t → Throughout step I t as

variable {step : σ → α → Option σ} {C : σ → α → Prop} {I : σ → Prop}

/-- Both are decided by following the run. -/
instance Meets.decide [∀ s a, Decidable (C s a)] :
    ∀ (s : σ) (as : List α), Decidable (Meets step C s as)
  | _, [] => isTrue trivial
  | s, a :: as =>
      match h : step s a with
      | none => decidable_of_iff (C s a) ⟨fun hC => ⟨hC, fun _ ht => by
          rw [h] at ht
          cases ht⟩, fun hm => hm.1⟩
      | some t =>
          have := Meets.decide t as
          decidable_of_iff (C s a ∧ Meets step C t as) ⟨fun hm => ⟨hm.1, fun u hu => by
            obtain rfl : t = u := Option.some.inj (h.symm.trans hu)
            exact hm.2⟩, fun hm => ⟨hm.1, hm.2 t h⟩⟩

instance Throughout.decide [∀ s, Decidable (I s)] :
    ∀ (s : σ) (as : List α), Decidable (Throughout step I s as)
  | s, [] => inferInstanceAs (Decidable (I s))
  | s, a :: as =>
      match h : step s a with
      | none => decidable_of_iff (I s) ⟨fun hI => ⟨hI, fun _ ht => by
          rw [h] at ht
          cases ht⟩, fun hm => hm.1⟩
      | some t =>
          have := Throughout.decide t as
          decidable_of_iff (I s ∧ Throughout step I t as) ⟨fun hm => ⟨hm.1, fun u hu => by
            obtain rfl : t = u := Option.some.inj (h.symm.trans hu)
            exact hm.2⟩, fun hm => ⟨hm.1, hm.2 t h⟩⟩

@[simp] theorem run_nil (s : σ) : run step s [] = some s := rfl

theorem run_cons {s t : σ} {a : α} {as : List α} :
    run step s (a :: as) = some t ↔ ∃ u, step s a = some u ∧ run step u as = some t := by
  simp only [run, Option.bind_eq_some_iff]

theorem run_append {s t : σ} {as bs : List α} :
    run step s (as ++ bs) = some t ↔ ∃ u, run step s as = some u ∧ run step u bs = some t := by
  induction as generalizing s with
  | nil => simp
  | cons a as ih =>
      simp only [List.cons_append, run_cons, ih]
      constructor
      · rintro ⟨u, hu, v, hv, ht⟩
        exact ⟨v, ⟨u, hu, hv⟩, ht⟩
      · rintro ⟨v, ⟨u, hu, hv⟩, ht⟩
        exact ⟨u, hu, v, hv, ht⟩

/-- Where every label is enabled, every run ends. -/
theorem isSome_run (h : ∀ s a, (step s a).isSome) (s : σ) (as : List α) :
    (run step s as).isSome := by
  induction as generalizing s with
  | nil => rfl
  | cons a as ih =>
      obtain ⟨t, ht⟩ := Option.isSome_iff_exists.mp (h s a)
      rw [run, ht]
      exact ih t

/-- **The induction over a run.**  What every step that meets `C` keeps holds throughout. -/
theorem throughout_of_meets (hstep : ∀ s a t, I s → C s a → step s a = some t → I t) :
    ∀ {s : σ} {as : List α}, I s → Meets step C s as → Throughout step I s as
  | _, [], hs, _ => hs
  | s, a :: _, hs, ⟨hC, hm⟩ =>
      ⟨hs, fun t ht => throughout_of_meets hstep (hstep s a t hs hC ht) (hm t ht)⟩

theorem Throughout.mono {J : σ → Prop} (h : ∀ s, I s → J s) :
    ∀ {s : σ} {as : List α}, Throughout step I s as → Throughout step J s as
  | s, [], hs => h s hs
  | s, _ :: _, ⟨hs, ht⟩ => ⟨h s hs, fun t hst => Throughout.mono h (ht t hst)⟩

theorem last_of_throughout {s t : σ} {as : List α} (h : Throughout step I s as)
    (hr : run step s as = some t) : I t := by
  induction as generalizing s with
  | nil => cases hr; exact h
  | cons a as ih =>
      obtain ⟨u, hu, hr⟩ := run_cons.mp hr
      exact ih (h.2 u hu) hr

theorem run_keeps (hstep : ∀ s a t, I s → C s a → step s a = some t → I t) {s t : σ}
    {as : List α} (hs : I s) (hm : Meets step C s as) (hr : run step s as = some t) : I t :=
  last_of_throughout (throughout_of_meets hstep hs hm) hr

/-- When a step that misses `C` falsifies `I`, a run that keeps `I` throughout meets `C`. -/
theorem meets_of_throughout (hbad : ∀ s a t, I s → ¬ C s a → step s a = some t → ¬ I t) :
    ∀ {s : σ} {as : List α}, (run step s as).isSome → Throughout step I s as → Meets step C s as
  | _, [], _, _ => trivial
  | s, a :: as, hr, ⟨hs, ht⟩ => by
      obtain ⟨t, htr⟩ := Option.isSome_iff_exists.mp hr
      obtain ⟨u, hu, hr'⟩ := run_cons.mp htr
      have hIu : I u := by
        cases as with
        | nil => exact ht u hu
        | cons _ _ => exact (ht u hu).1
      refine ⟨by_contra fun hC => hbad s a u hs hC hu hIu, fun v hv => ?_⟩
      obtain rfl : u = v := Option.some.inj (hu.symm.trans hv)
      exact meets_of_throughout hbad (Option.isSome_iff_exists.mpr ⟨t, hr'⟩) (ht u hu)

/-- Where each step keeps `I` exactly when its label satisfies `C`, and keeps `J` anyway, the runs
that keep `I` throughout are those that meet `C`. -/
theorem throughout_iff_meets {J : σ → Prop} (hJ : ∀ s a t, J s → step s a = some t → J t)
    (hiff : ∀ s a t, J s → I s → step s a = some t → (I t ↔ C s a))
    (hoff : ∀ s a, step s a = none → C s a) :
    ∀ {s : σ} {as : List α}, J s → I s → (Throughout step I s as ↔ Meets step C s as)
  | s, [], _, hI => iff_of_true hI trivial
  | s, a :: as, hs, hI => by
      rw [Throughout, Meets, and_iff_right hI]
      cases hstep : step s a with
      | none => exact iff_of_true nofun ⟨hoff s a hstep, nofun⟩
      | some t =>
          have ih : I t → (Throughout step I t as ↔ Meets step C t as) :=
            throughout_iff_meets hJ hiff hoff (hJ s a t hs hstep)
          constructor
          · intro h
            have ht : I t := by
              cases as with
              | nil => exact h t rfl
              | cons _ _ => exact (h t rfl).1
            refine ⟨(hiff s a t hs hI hstep).mp ht, ?_⟩
            rintro _ ⟨⟩
            exact (ih ht).mp (h t rfl)
          · rintro ⟨hC, hm⟩ _ ⟨⟩
            exact (ih ((hiff s a t hs hI hstep).mpr hC)).mpr (hm t rfl)

/-- The condition is met at the last step. -/
theorem last_of_meets {s t : σ} {as : List α} {a : α} (h : Meets step C s (as ++ [a]))
    (hr : run step s as = some t) : C t a := by
  induction as generalizing s with
  | nil =>
      cases hr
      exact h.1
  | cons b as ih =>
      obtain ⟨u, hu, hr⟩ := run_cons.mp hr
      exact ih (h.2 u hu) hr

/-- The last step of the run along `as` whose label satisfies `P` is taken where it satisfies
`C`. -/
def MeetsLast (step : σ → α → Option σ) (P : α → Prop) (C : σ → α → Prop) (s : σ) (as : List α) :
    Prop :=
  ∀ as₁ a as₂ t, as = as₁ ++ a :: as₂ → P a → (∀ b ∈ as₂, ¬ P b) →
    run step s as₁ = some t → C t a

/-- A list has a last label that satisfies `P`, or none. -/
theorem exists_last (P : α → Prop) (as : List α) : (∀ a ∈ as, ¬ P a) ∨
    ∃ as₁ a as₂, as = as₁ ++ a :: as₂ ∧ P a ∧ ∀ b ∈ as₂, ¬ P b := by
  induction as with
  | nil => exact Or.inl nofun
  | cons a as ih =>
      rcases ih with hnone | ⟨as₁, b, as₂, rfl, hb, hrest⟩
      · by_cases ha : P a
        · exact Or.inr ⟨[], a, as, rfl, ha, hnone⟩
        · exact Or.inl (List.forall_mem_cons.mpr ⟨ha, hnone⟩)
      · exact Or.inr ⟨a :: as₁, b, as₂, rfl, hb, hrest⟩

/-- What follows from the condition at a step holds at every step of a run that meets it. -/
theorem Meets.mono {D : σ → α → Prop} (h : ∀ s a, C s a → D s a) :
    ∀ {s : σ} {as : List α}, Meets step C s as → Meets step D s as
  | _, [], _ => trivial
  | s, a :: _, ⟨hC, hm⟩ => ⟨h s a hC, fun t ht => Meets.mono h (hm t ht)⟩

theorem Meets.and {D : σ → α → Prop} :
    ∀ {s : σ} {as : List α}, Meets step C s as → Meets step D s as →
      Meets step (fun s a => C s a ∧ D s a) s as
  | _, [], _, _ => trivial
  | _, _ :: _, ⟨hC, hm⟩, ⟨hD, hn⟩ => ⟨⟨hC, hD⟩, fun t ht => Meets.and (hm t ht) (hn t ht)⟩

/-- What holds throughout holds where each step is taken. -/
theorem Throughout.meets :
    ∀ {s : σ} {as : List α}, Throughout step I s as → Meets step (fun s _ => I s) s as
  | _, [], _ => trivial
  | _, _ :: _, ⟨hs, ht⟩ => ⟨hs, fun u hu => Throughout.meets (ht u hu)⟩

theorem Throughout.and {J : σ → Prop} :
    ∀ {s : σ} {as : List α}, Throughout step I s as → Throughout step J s as →
      Throughout step (fun s => I s ∧ J s) s as
  | _, [], hs, ht => ⟨hs, ht⟩
  | _, _ :: _, ⟨hs, hm⟩, ⟨ht, hn⟩ => ⟨⟨hs, ht⟩, fun u hu => Throughout.and (hm u hu) (hn u hu)⟩

/-- Two conditions that agree where `I` holds are met by the same runs, when a step that meets them
keeps `I`. -/
theorem meets_congr {D : σ → α → Prop} {P : α → Prop}
    (hiff : ∀ s a, I s → P a → (C s a ↔ D s a))
    (hstep : ∀ s a t, I s → P a → D s a → step s a = some t → I t) :
    ∀ {s : σ} {as : List α}, I s → (∀ a ∈ as, P a) → (Meets step C s as ↔ Meets step D s as)
  | _, [], _, _ => Iff.rfl
  | s, a :: _, hs, has => by
      have ha := has a List.mem_cons_self
      have hrest : D s a → ∀ t, step s a = some t → (Meets step C t _ ↔ Meets step D t _) :=
        fun hD t ht => meets_congr hiff hstep (hstep s a t hs ha hD ht) fun b hb =>
          has b (List.mem_cons_of_mem _ hb)
      rw [Meets, Meets, hiff s a hs ha]
      exact and_congr_right fun hD => forall_congr' fun t => imp_congr_right (hrest hD t)

/-- A condition that does not read the state is met as soon as every label satisfies it. -/
theorem meets_of_forall {P : α → Prop} :
    ∀ {s : σ} {as : List α}, (∀ a ∈ as, P a) → Meets step (fun _ a => P a) s as
  | _, [], _ => trivial
  | _, a :: _, h => ⟨h a List.mem_cons_self,
      fun _ _ => meets_of_forall fun b hb => h b (List.mem_cons_of_mem _ hb)⟩

end Ocid
