import Mathlib

/-!
# Lib — Walks — depth-first collection by key

A `Walk` goes through things that have a `key` and `children`: it has a list of what is still to
do, and the keys it has seen, in order.  A thing whose key was seen is passed over, whatever its
children are; any other is followed into its children before the rest of the list.

Things with one key may have different children, so what a walk sees depends on which of them comes
first.  `covers_iff` says exactly when nothing is missed: a walk sees every key that can be come to
if and only if it never passes over a thing from which a key can be come to that is neither seen
nor to be come to from the rest.  Where things of one key have the same children this is always so
(`not_loses_of_agree`).
-/

namespace Ocid

open Relation

variable {α κ : Type}

/-- `b` can be come to from `ds`. -/
def Reaches (children : α → List α) (ds : List α) (b : α) : Prop :=
  ∃ a ∈ ds, ReflTransGen (fun x y => y ∈ children x) a b

section
variable {children : α → List α} {a b : α} {ds es : List α}

theorem not_reaches_nil : ¬ Reaches children [] b := by
  rintro ⟨a, ha, -⟩
  cases ha

theorem reaches_append : Reaches children (ds ++ es) b ↔
    Reaches children ds b ∨ Reaches children es b := by
  simp only [Reaches, List.mem_append, or_and_right, exists_or]

theorem reaches_singleton : Reaches children [a] b ↔ b = a ∨ Reaches children (children a) b := by
  constructor
  · rintro ⟨a', ha', h⟩
    obtain rfl := List.mem_singleton.mp ha'
    rcases h.cases_head with rfl | ⟨c, hc, h⟩
    · exact Or.inl rfl
    · exact Or.inr ⟨c, hc, h⟩
  · rintro (rfl | ⟨c, hc, h⟩)
    · exact ⟨b, List.mem_singleton_self b, .refl⟩
    · exact ⟨a, List.mem_singleton_self a, .head hc h⟩

theorem Reaches.child (h : Reaches children ds a) (hb : b ∈ children a) :
    Reaches children ds b := by
  obtain ⟨c, hc, hca⟩ := h
  exact ⟨c, hc, hca.tail hb⟩

end

/-- Where a walk over a graph stands. -/
structure Walk (α κ : Type) where
  todo : List α
  /-- The keys seen, in order. -/
  seen : List κ

namespace Walk

variable [DecidableEq κ] (key : α → κ) (children : α → List α)

/-- One thing is passed over, or followed into its children. -/
def next : Walk α κ → Option (Walk α κ)
  | ⟨[], _⟩ => none
  | ⟨a :: todo, seen⟩ =>
      if key a ∈ seen then some ⟨todo, seen⟩ else some ⟨children a ++ todo, seen ++ [key a]⟩

/-- `v` comes to `w`. -/
def Runs (v w : Walk α κ) : Prop := ReflTransGen (fun v w => next key children v = some w) v w

/-- The key is seen, or can be come to from what is still to do. -/
def Covers (w : Walk α κ) (k : κ) : Prop :=
  k ∈ w.seen ∨ ∃ b, Reaches children w.todo b ∧ key b = k

/-- The walk is about to pass over a thing from which a key can be come to that the rest does not
cover. -/
def Loses : Walk α κ → Prop
  | ⟨[], _⟩ => False
  | ⟨a :: todo, seen⟩ =>
      key a ∈ seen ∧ ∃ b, Reaches children [a] b ∧ ¬ Covers key children ⟨todo, seen⟩ (key b)

variable {key children} {v w : Walk α κ} {a b : α} {ds : List α}

/-- The two steps of a walk. -/
theorem next_cases (h : next key children w = some v) : ∃ a todo, w.todo = a :: todo ∧
    ((key a ∈ w.seen ∧ v = ⟨todo, w.seen⟩) ∨
      (key a ∉ w.seen ∧ v = ⟨children a ++ todo, w.seen ++ [key a]⟩)) := by
  obtain ⟨todo, seen⟩ := w
  cases todo with
  | nil => cases h
  | cons a todo =>
      refine ⟨a, todo, rfl, ?_⟩
      rw [next] at h
      split at h
      · rename_i hseen
        cases h
        exact Or.inl ⟨hseen, rfl⟩
      · rename_i hseen
        cases h
        exact Or.inr ⟨hseen, rfl⟩

omit [DecidableEq κ] in
theorem covers_cons {a : α} {todo : List α} {seen : List κ} {k : κ} :
    Covers key children ⟨a :: todo, seen⟩ k ↔
      (∃ b, Reaches children [a] b ∧ key b = k) ∨ Covers key children ⟨todo, seen⟩ k := by
  have hcons : ∀ b, Reaches children ([a] ++ todo) b ↔
      Reaches children [a] b ∨ Reaches children todo b := fun b => reaches_append
  rw [List.singleton_append] at hcons
  simp only [Covers, hcons, or_and_right, exists_or]
  rw [or_left_comm]

omit [DecidableEq κ] in
/-- Following a thing loses nothing. -/
theorem covers_follow {a : α} {todo : List α} {seen : List κ} {k : κ} :
    Covers key children ⟨children a ++ todo, seen ++ [key a]⟩ k ↔
      Covers key children ⟨a :: todo, seen⟩ k := by
  rw [covers_cons]
  simp only [Covers, reaches_append, reaches_singleton, or_and_right, exists_or,
    exists_eq_left, List.mem_append, List.mem_singleton, @eq_comm κ k]
  simp only [or_assoc, or_left_comm]

/-- A step covers what was covered unless it loses a key, and nothing else. -/
theorem covers_next_iff (h : next key children w = some v) :
    (∀ k, Covers key children v k → Covers key children w k) ∧
      ((∀ k, Covers key children w k → Covers key children v k) ↔ ¬ Loses key children w) := by
  obtain ⟨a, todo, hw, ⟨hseen, rfl⟩ | ⟨hseen, rfl⟩⟩ := next_cases h
  · obtain ⟨_, seen⟩ := w
    subst hw
    refine ⟨fun k hk => covers_cons.mpr (Or.inr hk), ?_⟩
    constructor
    · rintro hall ⟨-, b, hb, hlost⟩
      exact hlost (hall _ (covers_cons.mpr (Or.inl ⟨b, hb, rfl⟩)))
    · intro hkeep k hk
      rcases covers_cons.mp hk with ⟨b, hb, rfl⟩ | hk
      · by_contra hlost
        exact hkeep ⟨hseen, b, hb, hlost⟩
      · exact hk
  · obtain ⟨_, seen⟩ := w
    subst hw
    refine ⟨fun k hk => covers_follow.mp hk, ?_⟩
    exact iff_of_true (fun k hk => covers_follow.mpr hk) fun hlose => hseen hlose.1

/-- What a walk comes to is where its next step comes to. -/
theorem runs_iff_of_next (h : next key children w = some v) {u : Walk α κ} :
    Runs key children w u ↔ u = w ∨ Runs key children v u := by
  constructor
  · intro hu
    rcases ReflTransGen.cases_head hu with rfl | ⟨v', hv', hu⟩
    · exact Or.inl rfl
    · obtain rfl := Option.some.inj (h.symm.trans hv')
      exact Or.inr hu
  · rintro (rfl | hu)
    · exact .refl
    · exact .head h hu

/-- A walk covers what it covers at its end. -/
theorem covers_of_runs (h : Runs key children w v) {k : κ} (hk : Covers key children v k) :
    Covers key children w k := by
  induction h using ReflTransGen.head_induction_on with
  | refl => exact hk
  | head hstep _ ih => exact (covers_next_iff hstep).1 k ih

/-- **What a walk misses.**  At its end a walk has seen every key it covered at its start, and no
others, exactly when it loses none on the way. -/
theorem covers_iff (h : Runs key children w v) (hdone : v.todo = []) :
    (∀ k, k ∈ v.seen ↔ Covers key children w k) ↔
      ∀ u, Runs key children w u → ¬ Loses key children u := by
  obtain ⟨todo, seen⟩ := v
  obtain rfl : todo = [] := hdone
  have hend : ∀ k, k ∈ seen ↔ Covers key children ⟨[], seen⟩ k := fun k =>
    ⟨Or.inl, fun hk => hk.resolve_right fun ⟨b, hb, _⟩ => not_reaches_nil hb⟩
  induction h using ReflTransGen.head_induction_on with
  | refl =>
      refine iff_of_true hend fun u hu => ?_
      rcases ReflTransGen.cases_head hu with rfl | ⟨v, hv, -⟩
      · exact id
      · cases hv
  | head hstep hrun ih =>
      have hcovered := fun k hk => covers_of_runs (k := k) hrun ((hend k).mp hk)
      obtain ⟨hsub, hiff⟩ := covers_next_iff hstep
      constructor
      · intro hall u hu
        have hfirst := hiff.mp fun k hk => hcovered k ((hall k).mpr hk)
        rcases (runs_iff_of_next hstep).mp hu with rfl | hu
        · exact hfirst
        · exact ih.mp (fun k => ⟨hcovered k, fun hk => (hall k).mpr (hsub k hk)⟩) u hu
      · intro hkeep k
        have hfirst := hiff.mpr (hkeep _ .refl) k
        have hlater := ih.mpr (fun u hu => hkeep u ((runs_iff_of_next hstep).mpr (Or.inr hu))) k
        exact ⟨fun hk => hsub k (hlater.mp hk), fun hk => hlater.mpr (hfirst hk)⟩

/-- No key is seen twice. -/
theorem nodup_of_runs (h : Runs key children w v) (hw : w.seen.Nodup) : v.seen.Nodup := by
  induction h with
  | refl => exact hw
  | tail _ hstep ih =>
      obtain ⟨a, todo, -, ⟨-, rfl⟩ | ⟨hseen, rfl⟩⟩ := next_cases hstep
      · exact ih
      · refine List.nodup_append.mpr ⟨ih, List.nodup_singleton _, fun k hk k' hk' => ?_⟩
        rw [List.mem_singleton.mp hk']
        exact fun heq => hseen (heq ▸ hk)

/-! ### Where things of one key have the same children -/

/-- What was followed is reached from `ds`, and its children are seen or still to do. -/
structure Closed (key : α → κ) (children : α → List α) (ds : List α) (w : Walk α κ) : Prop where
  todo : ∀ a ∈ w.todo, Reaches children ds a
  seen : ∀ k ∈ w.seen, ∃ a, Reaches children ds a ∧ key a = k ∧
    ∀ b ∈ children a, key b ∈ w.seen ∨ b ∈ w.todo

theorem Closed.next (h : Closed key children ds w) (hstep : next key children w = some v) :
    Closed key children ds v := by
  obtain ⟨a, todo, hw, hv⟩ := next_cases hstep
  have ha : Reaches children ds a := h.todo a (hw ▸ List.mem_cons_self)
  have htodo : ∀ b ∈ todo, Reaches children ds b := fun b hb =>
    h.todo b (hw ▸ List.mem_cons_of_mem _ hb)
  rcases hv with ⟨hseen, rfl⟩ | ⟨-, rfl⟩
  · refine ⟨htodo, fun k hk => ?_⟩
    obtain ⟨c, hc, hkey, hclosed⟩ := h.seen k hk
    refine ⟨c, hc, hkey, fun b hb => ?_⟩
    rcases hclosed b hb with hb | hb
    · exact Or.inl hb
    · rcases List.mem_cons.mp (hw ▸ hb) with rfl | hb
      · exact Or.inl hseen
      · exact Or.inr hb
  · refine ⟨fun b hb => ?_, fun k hk => ?_⟩
    · rcases List.mem_append.mp hb with hb | hb
      · exact ha.child hb
      · exact htodo b hb
    · rcases List.mem_append.mp hk with hk | hk
      · obtain ⟨c, hc, hkey, hclosed⟩ := h.seen k hk
        refine ⟨c, hc, hkey, fun b hb => ?_⟩
        rcases hclosed b hb with hb | hb
        · exact Or.inl (List.mem_append_left _ hb)
        · rcases List.mem_cons.mp (hw ▸ hb) with rfl | hb
          · exact Or.inl (List.mem_append_right _ (List.mem_singleton_self _))
          · exact Or.inr (List.mem_append_right _ hb)
      · obtain rfl := List.mem_singleton.mp hk
        exact ⟨a, ha, rfl, fun b hb => Or.inr (List.mem_append_left _ hb)⟩

/-- A walk loses nothing where things of one key have the same children. -/
theorem not_loses_of_agree (hagree : ∀ a b, Reaches children ds a → Reaches children ds b →
    key a = key b → children a = children b) (h : Runs key children ⟨ds, []⟩ w) :
    ¬ Loses key children w := by
  have hclosed : Closed key children ds w := by
    induction h with
    | refl =>
        exact ⟨fun a ha => ⟨a, ha, .refl⟩, fun k hk => nomatch hk⟩
    | tail _ hstep ih => exact ih.next hstep
  obtain ⟨todo, seen⟩ := w
  cases todo with
  | nil => exact id
  | cons a todo =>
      rintro ⟨hseen, b, ⟨a', ha', hab⟩, hlost⟩
      obtain rfl := List.mem_singleton.mp ha'
      have hds : ∀ c, ReflTransGen (fun x y => y ∈ children x) a' c → Reaches children ds c := by
        intro c hc
        obtain ⟨r, hr, hra⟩ := hclosed.todo a' List.mem_cons_self
        exact ⟨r, hr, hra.trans hc⟩
      -- along the way from `a'` to `b`, each thing is seen or comes up again in the rest
      have hway : ∀ c, ReflTransGen (fun x y => y ∈ children x) a' c →
          key c ∈ seen ∨ Reaches children todo c := by
        intro c hac
        induction hac with
        | refl => exact Or.inl hseen
        | @tail c e hac hce ih =>
            rcases ih with hc | hc
            · obtain ⟨d, hd, hkey, hchildren⟩ := hclosed.seen _ hc
              rw [hagree d c hd (hds c hac) hkey] at hchildren
              rcases hchildren e hce with he | he
              · exact Or.inl he
              · rcases List.mem_cons.mp he with rfl | he
                · exact Or.inl hseen
                · exact Or.inr ⟨e, he, .refl⟩
            · exact Or.inr (hc.child hce)
      rcases hway b hab with hb | hb
      · exact hlost (Or.inl hb)
      · exact hlost (Or.inr ⟨b, hb, rfl⟩)

end Walk

end Ocid
