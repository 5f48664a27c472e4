import Mathlib

/-!
# Lib — Slots — a list of which one element changes

Concurrent calls are a list; a step replaces the element of one of them, or appends a new one.
What holds of all elements is then checked for the one that is new (`forall_mem_set`,
`forall_mem_concat`); a property of some elements' values is kept up to order
(`filterMap_set_of_eq`, `filterMap_set_of_none`).
-/

namespace Ocid.Slots

variable {α β : Type} {P : α → Prop} {f : α → Option β} {l : List α} {i : ℕ} {a b : α}

theorem forall_mem_set (h : ∀ x ∈ l, P x) (hb : P b) : ∀ x ∈ l.set i b, P x := fun x hx =>
  (List.mem_or_eq_of_mem_set hx).elim (h x) fun e => e ▸ hb

theorem forall_mem_concat (h : ∀ x ∈ l, P x) (hb : P b) : ∀ x ∈ l ++ [b], P x := fun x hx =>
  (List.mem_append.mp hx).elim (h x) fun hx => List.mem_singleton.mp hx ▸ hb

/-- The list with the element at `i` singled out. -/
theorem split_at (h : l[i]? = some a) :
    ∃ before after, l = before ++ a :: after ∧ ∀ b, l.set i b = before ++ b :: after := by
  obtain ⟨hi, rfl⟩ := List.getElem?_eq_some_iff.mp h
  refine ⟨l.take i, l.drop (i + 1), ?_, fun b => ?_⟩
  · rw [List.cons_getElem_drop_succ, List.take_append_drop]
  · rw [List.set_eq_take_append_cons_drop, if_pos hi]

theorem filterMap_set_of_eq (h : l[i]? = some a) (hab : f b = f a) :
    (l.set i b).filterMap f = l.filterMap f := by
  obtain ⟨before, after, hl, hset⟩ := split_at h
  rw [hset, hl, List.filterMap_append, List.filterMap_append, List.filterMap_cons,
    List.filterMap_cons, hab]

/-- An element that had no value gets one. -/
theorem filterMap_set_of_none (h : l[i]? = some a) (ha : f a = none) {y : β} (hb : f b = some y) :
    (l.filterMap f ++ [y]).Perm ((l.set i b).filterMap f) := by
  obtain ⟨before, after, hl, hset⟩ := split_at h
  rw [hset, hl, List.filterMap_append, List.filterMap_append, List.filterMap_cons_none ha,
    List.filterMap_cons_some hb, List.append_assoc]
  exact List.Perm.append_left _ (List.perm_append_singleton y _)

theorem filterMap_concat_of_none (hb : f b = none) : (l ++ [b]).filterMap f = l.filterMap f := by
  rw [List.filterMap_append, List.filterMap_cons_none hb, List.filterMap_nil, List.append_nil]

end Ocid.Slots
