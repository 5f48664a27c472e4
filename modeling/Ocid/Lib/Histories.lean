import Mathlib

/-!
# Lib — Histories — a map, by what happened to it

The history of a map is what was put and erased, in that order, each event with who did it.  Calls
that take a while are run at the same time; `Linearized` says that a call that was answered can be
taken to have happened at one moment: after it was called, and before it was answered, with the
answer that a call in that moment gives, and with no effect but there.
-/

namespace Ocid

/-- What happens to a map. -/
inductive MapEvent (κ α : Type) where
  | put (k : κ) (a : α)
  | erase (k : κ)
deriving DecidableEq

/-- What is asked of a map. -/
inductive MapCall (κ α : Type) where
  | put (k : κ) (a : α)
  | get (k : κ)
  | remove (k : κ)
deriving DecidableEq

/-- What a call is answered. -/
inductive MapAnswer (α : Type) where
  | stored
  | value (v : Option α)
  | removed (b : Bool)
deriving DecidableEq

variable {κ α ι : Type}

/-- Events, with who did them. -/
abbrev History (ι κ α : Type) : Type := List (ι × MapEvent κ α)

/-- What an answered call did to the map. -/
def MapCall.effect : MapCall κ α → MapAnswer α → Option (MapEvent κ α)
  | .put k a, .stored => some (.put k a)
  | .remove k, .removed true => some (.erase k)
  | _, _ => none

/-- How a look for what is not there is answered. -/
def MapCall.absent : MapCall κ α → Option (MapAnswer α)
  | .put _ _ => none
  | .get _ => some (.value none)
  | .remove _ => some (.removed false)

variable [DecidableEq κ]

/-- The map after an event. -/
def MapEvent.apply (m : κ → Option α) : MapEvent κ α → κ → Option α
  | .put k a => Function.update m k (some a)
  | .erase k => Function.update m k none

/-- The answer to a call of the map `m`. -/
def MapCall.Right (m : κ → Option α) : MapCall κ α → MapAnswer α → Prop
  | .put _ _, .stored => True
  | .get k, .value v => m k = v
  | .remove k, .removed b => (m k).isSome = b
  | _, _ => False

namespace History

/-- The map after the history, from `base` on. -/
def after (base : κ → Option α) (h : History ι κ α) : κ → Option α :=
  h.foldl (fun m e => e.2.apply m) base

variable {base : κ → Option α} {h h' : History ι κ α} {n : ℕ} {k : κ} {v : Option α}

@[simp] theorem after_nil : after base ([] : History ι κ α) = base := rfl

theorem after_append (base : κ → Option α) (h h' : History ι κ α) :
    after base (h ++ h') = after (after base h) h' := List.foldl_append

@[simp] theorem after_put (base : κ → Option α) (h : History ι κ α) (i : ι) (a : α) :
    after base (h ++ [(i, .put k a)]) = Function.update (after base h) k (some a) := by
  rw [after_append]
  rfl

@[simp] theorem after_erase (base : κ → Option α) (h : History ι κ α) (i : ι) :
    after base (h ++ [(i, .erase k)]) = Function.update (after base h) k none := by
  rw [after_append]
  rfl

/-- At some moment since the first `n` events, `v` was the value of `k`. -/
def Since (base : κ → Option α) (h : History ι κ α) (n : ℕ) (k : κ) (v : Option α) : Prop :=
  ∃ m, n ≤ m ∧ m ≤ h.length ∧ after base (h.take m) k = v

theorem since_now (hn : n ≤ h.length) : Since base h n k (after base h k) :=
  ⟨h.length, hn, Nat.le_refl _, by rw [List.take_length]⟩

theorem Since.append (hs : Since base h n k v) (h' : History ι κ α) :
    Since base (h ++ h') n k v := by
  obtain ⟨m, hn, hm, hv⟩ := hs
  exact ⟨m, hn, by rw [List.length_append]; omega, by rw [List.take_append_of_le_length hm, hv]⟩

/-- The call of `i`, made after the first `n` events, happened in one moment with this answer. -/
def Linearized (base : κ → Option α) (h : History ι κ α) (i : ι) (n : ℕ) (call : MapCall κ α)
    (answer : MapAnswer α) : Prop :=
  ∃ m, n ≤ m ∧ m ≤ h.length ∧ call.Right (after base (h.take m)) answer ∧
    ∀ e, call.effect answer = some e → h[m]? = some (i, e)

theorem Linearized.append {i : ι} {call : MapCall κ α} {answer : MapAnswer α}
    (hl : Linearized base h i n call answer) (h' : History ι κ α) :
    Linearized base (h ++ h') i n call answer := by
  obtain ⟨m, hn, hm, hright, heffect⟩ := hl
  refine ⟨m, hn, by rw [List.length_append]; omega, ?_, fun e he => ?_⟩
  · rw [List.take_append_of_le_length hm]
    exact hright
  · obtain ⟨hlt, -⟩ := List.getElem?_eq_some_iff.mp (heffect e he)
    rw [List.getElem?_append_left hlt]
    exact heffect e he

/-- A call whose effect is the next event. -/
theorem linearized_event {i : ι} {call : MapCall κ α} {answer : MapAnswer α} {e : MapEvent κ α}
    (hn : n ≤ h.length) (hright : call.Right (after base h) answer)
    (heffect : call.effect answer = some e) :
    Linearized base (h ++ [(i, e)]) i n call answer := by
  refine ⟨h.length, hn, by simp, ?_, fun e' he' => ?_⟩
  · rw [List.take_left]
    exact hright
  · obtain rfl := Option.some.inj (heffect.symm.trans he')
    simp

/-- A look at the map that was right at some moment. -/
theorem Since.linearized {i : ι} (hs : Since base h n k v) :
    Linearized base h i n (.get k) (.value v) := by
  obtain ⟨m, hn, hm, hv⟩ := hs
  exact ⟨m, hn, hm, hv, fun _ h => by cases h⟩

end History

end Ocid
