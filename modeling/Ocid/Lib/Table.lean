import Mathlib

/-!
# Lib — Table — records stored under the key they carry

A `Table key` holds records of one type, at most one for each key, where the key of a record is
computed from the record itself.  A record can therefore never sit under another record's key:
`Table.key_of_get` is the invariant, and no operation has to re-establish it.

`get_put` and `get_erase` say what the two updates do to every key; `mem_of_get` and `get_of_mem` tie
the lookup to the list of rows, so that what is said of all rows is said of all keys.
-/

namespace Ocid

universe u v

/-- Records of `V`, at most one for each key. -/
structure Table {K : Type u} {V : Type v} (key : V → K) where
  rows : List V
  nodup : (rows.map key).Nodup

namespace Table

variable {K : Type u} {V : Type v} {key : V → K}

instance [DecidableEq V] : DecidableEq (Table key) := fun s t =>
  decidable_of_iff (s.rows = t.rows) (by cases s; cases t; simp)

/-- Without a record. -/
def empty : Table key := ⟨[], by simp⟩

section
variable [DecidableEq K]

/-- The record stored under `k`. -/
def get (t : Table key) (k : K) : Option V := t.rows.find? fun v => decide (key v = k)

/-- Some record is stored under `k`. -/
def has (t : Table key) (k : K) : Bool := (t.get k).isSome

/-- Store `v` under its key, in place of what was there. -/
def put (t : Table key) (v : V) : Table key where
  rows := v :: t.rows.filter fun u => decide (key u ≠ key v)
  nodup := by
    refine List.nodup_cons.mpr ⟨fun h => ?_, t.nodup.sublist (List.filter_sublist.map key)⟩
    obtain ⟨u, hu, he⟩ := List.mem_map.mp h
    exact (of_decide_eq_true (List.mem_filter.mp hu).2) he

/-- Drop the record stored under `k`, if any. -/
def erase (t : Table key) (k : K) : Table key where
  rows := t.rows.filter fun u => decide (key u ≠ k)
  nodup := t.nodup.sublist (List.filter_sublist.map key)

/-! ### Lookup and rows -/

theorem key_of_get {t : Table key} {k : K} {v : V} (h : t.get k = some v) : key v = k :=
  of_decide_eq_true (List.find?_some (p := fun v => decide (key v = k)) h)

theorem mem_of_get {t : Table key} {k : K} {v : V} (h : t.get k = some v) : v ∈ t.rows :=
  List.mem_of_find?_eq_some h

theorem get_of_mem {t : Table key} {v : V} (h : v ∈ t.rows) : t.get (key v) = some v := by
  cases hg : t.get (key v) with
  | none =>
      have := List.find?_eq_none.mp hg v h
      simp at this
  | some u =>
      have := List.inj_on_of_nodup_map t.nodup (mem_of_get hg) h (key_of_get hg)
      rw [this]

/-- The lookup finds nothing exactly when no row has that key. -/
theorem get_eq_none_iff {t : Table key} {k : K} : t.get k = none ↔ ∀ v ∈ t.rows, key v ≠ k := by
  simp [get]

theorem has_iff {t : Table key} {k : K} : t.has k ↔ ∃ v, t.get k = some v := by
  rw [has, Option.isSome_iff_exists]

theorem has_eq_false_iff {t : Table key} {k : K} : t.has k = false ↔ t.get k = none := by
  rw [has, Option.isSome_eq_false_iff, Option.isNone_iff_eq_none]

/-! ### The two updates, at every key -/

@[simp] theorem get_empty (k : K) : (empty : Table key).get k = none := rfl

theorem get_put (t : Table key) (v : V) (k : K) :
    (t.put v).get k = if key v = k then some v else t.get k := by
  by_cases h : key v = k
  · simp [get, put, h]
  · have hf : (t.rows.filter fun u => decide (key u ≠ key v)).find? (fun u => decide (key u = k)) =
        t.rows.find? fun u => decide (key u = k) := by
      rw [List.find?_filter]
      congr 1
      funext u
      by_cases hu : key u = k <;> simp [hu, Ne.symm h]
    simp only [get, put, List.find?_cons, h, decide_false, if_false]
    exact hf

@[simp] theorem get_put_self (t : Table key) (v : V) : (t.put v).get (key v) = some v := by
  rw [get_put, if_pos rfl]

theorem get_put_of_ne {t : Table key} {v : V} {k : K} (h : key v ≠ k) :
    (t.put v).get k = t.get k := by
  rw [get_put, if_neg h]

/-- What is stored under a key may be replaced, but stays stored. -/
theorem has_put {t : Table key} {k : K} (v : V) (h : t.has k = true) : (t.put v).has k = true := by
  obtain ⟨u, hu⟩ := has_iff.mp h
  by_cases hk : key v = k
  · exact has_iff.mpr ⟨v, hk ▸ get_put_self t v⟩
  · exact has_iff.mpr ⟨u, (get_put_of_ne hk).trans hu⟩

theorem get_erase (t : Table key) (j k : K) :
    (t.erase j).get k = if j = k then none else t.get k := by
  by_cases h : j = k
  · subst h
    simp [get, erase]
  · rw [if_neg h, get, erase, List.find?_filter]
    congr 1
    funext u
    by_cases hu : key u = k <;> simp [hu, Ne.symm h]

@[simp] theorem get_erase_self (t : Table key) (k : K) : (t.erase k).get k = none := by
  rw [get_erase, if_pos rfl]

theorem get_erase_of_ne {t : Table key} {j k : K} (h : j ≠ k) : (t.erase j).get k = t.get k := by
  rw [get_erase, if_neg h]

/-- What an erased table still holds, it held before. -/
theorem get_of_get_erase {t : Table key} {j k : K} {v : V} (h : (t.erase j).get k = some v) :
    t.get k = some v := by
  rw [get_erase] at h
  split at h
  · cases h
  · exact h

theorem mem_put {t : Table key} {u v : V} :
    u ∈ (t.put v).rows ↔ u = v ∨ (u ∈ t.rows ∧ key u ≠ key v) := by
  simp [put]

theorem mem_erase {t : Table key} {k : K} {u : V} :
    u ∈ (t.erase k).rows ↔ u ∈ t.rows ∧ key u ≠ k := by
  simp [erase]

end

end Table

end Ocid
