import Mathlib

/-!
# Lib — Calls — programs over a store, with their journal

A `Call` reads a store, makes primitive writes to it one after the other, and returns a value or
an error.  An error does not undo the writes made before it, and `Call.cut` is a call that a fault
stops after any number of its writes.  `Call.journal` is the list of the writes, in order, and the
store the call leaves is the store it found with the journal replayed (`Call.final`), so what a
call does to the store is said twice in one definition: by the state it ends in, and by every
write on the way there.

The rules come in two families.  `Emits P m` bounds the journal: every write `m` makes, whatever
store it runs on and whether it fails or not, satisfies `P`.  `Triple P m Q E` starts from a store
in `P`: every store on the way is in `E`, so that `E` is what a fault leaves, and a value `m`
returns is related to the last store by `Q`.  Both have one rule for each way calls are built.
-/

namespace Ocid

/-- Stores `σ` changed by primitive writes `ω`. -/
class Journalled (σ : Type) (ω : outParam Type) where
  apply : σ → ω → σ

/-- What a program does on a store: the writes it makes, in order, and what it returns. -/
def Call (σ ω ε α : Type) := σ → List ω × Except ε α

namespace Call

variable {σ ω ε ε' α β : Type}

/-- What a call writes. -/
def journal (m : Call σ ω ε α) (s : σ) : List ω := (m s).1

/-- How a call ends. -/
def result (m : Call σ ω ε α) (s : σ) : Except ε α := (m s).2

/-- Return the store. -/
def read : Call σ ω ε σ := fun s => ([], .ok s)

/-- Write. -/
def write (w : ω) : Call σ ω ε Unit := fun _ => ([w], .ok ())

/-- Fail. -/
def fail (e : ε) : Call σ ω ε α := fun _ => ([], .error e)

/-- Fail with `e` unless `b` holds. -/
def ensure (b : Bool) (e : ε) : Call σ ω ε Unit := fun _ => ([], if b then .ok () else .error e)

/-- Return a value computed without the store, or fail with its error. -/
def ofExcept (x : Except ε α) : Call σ ω ε α := fun _ => ([], x)

/-- `m` stopped after `k` of its writes, with the error `e`, when `fault` is `some (k, e)`. -/
def cut (fault : Option (ℕ × ε)) (m : Call σ ω ε α) : Call σ ω ε α := fun s =>
  match fault with
  | none => m s
  | some (k, e) => ((m s).1.take k, .error e)

/-- Run `m` and return its result as a value. -/
def attempt (m : Call σ ω ε α) : Call σ ω ε' (Except ε α) := fun s => ((m s).1, .ok (m s).2)

/-- Run `m` and translate its error. -/
def mapErr (f : ε → ε') (m : Call σ ω ε α) : Call σ ω ε' α := fun s => ((m s).1, (m s).2.mapError f)

/-! ### What the primitive calls return -/

@[simp] theorem result_read (s : σ) : (read : Call σ ω ε σ).result s = .ok s := rfl

@[simp] theorem result_write (w : ω) (s : σ) : (write w : Call σ ω ε Unit).result s = .ok () := rfl

@[simp] theorem result_fail (e : ε) (s : σ) : (fail e : Call σ ω ε α).result s = .error e := rfl

@[simp] theorem result_ensure (b : Bool) (e : ε) (s : σ) :
    (ensure b e : Call σ ω ε Unit).result s = if b then .ok () else .error e := rfl

@[simp] theorem result_ofExcept (x : Except ε α) (s : σ) :
    (ofExcept x : Call σ ω ε α).result s = x := rfl

@[simp] theorem cut_none (m : Call σ ω ε α) : cut none m = m := rfl

/-- A call that returns was not cut. -/
theorem cut_of_result_ok {fault : Option (ℕ × ε)} {m : Call σ ω ε α} {s : σ} {a : α}
    (h : (cut fault m).result s = .ok a) : cut fault m = m := by
  cases fault with
  | none => rfl
  | some f => cases h

@[simp] theorem result_attempt (m : Call σ ω ε α) (s : σ) :
    (attempt m : Call σ ω ε' _).result s = .ok (m.result s) := rfl

theorem result_mapErr_ok {f : ε → ε'} {m : Call σ ω ε α} {s : σ} {a : α} :
    (mapErr f m).result s = .ok a ↔ m.result s = .ok a := by
  simp only [mapErr, result]
  cases (m s).2 <;> simp [Except.mapError]

/-! ### The writes of a call -/

/-- Every write `m` makes satisfies `P`, on every store and on every path. -/
def Emits (P : ω → Prop) (m : Call σ ω ε α) : Prop := ∀ s, ∀ w ∈ m.journal s, P w

namespace Emits

variable {P Q : ω → Prop}

theorem read : Emits P (Call.read : Call σ ω ε σ) := fun _ _ h => by cases h

theorem fail (e : ε) : Emits P (Call.fail e : Call σ ω ε α) := fun _ _ h => by cases h

theorem ensure (b : Bool) (e : ε) : Emits P (Call.ensure b e : Call σ ω ε Unit) :=
  fun _ _ h => by cases h

theorem write {w : ω} (h : P w) : Emits P (Call.write w : Call σ ω ε Unit) := fun _ v hv => by
  obtain rfl : v = w := List.mem_singleton.mp hv
  exact h

theorem ofExcept (x : Except ε α) : Emits P (Call.ofExcept x : Call σ ω ε α) :=
  fun _ _ h => by cases h

/-- What is true of every write of a call is true of every write of a part of it. -/
theorem cut {m : Call σ ω ε α} (h : Emits P m) (fault : Option (ℕ × ε)) :
    Emits P (m.cut fault) := by
  intro s w hw
  cases fault with
  | none => exact h s w hw
  | some f => exact h s w (List.mem_of_mem_take hw)

theorem attempt {m : Call σ ω ε α} (h : Emits P m) : Emits P (m.attempt : Call σ ω ε' _) := h

theorem mapErr {m : Call σ ω ε α} (h : Emits P m) (f : ε → ε') : Emits P (m.mapErr f) := h

theorem mono {m : Call σ ω ε α} (h : Emits P m) (hPQ : ∀ w, P w → Q w) : Emits Q m :=
  fun s w hw => hPQ w (h s w hw)

theorem ite {b : Prop} [Decidable b] {m n : Call σ ω ε α} (hm : b → Emits P m)
    (hn : ¬ b → Emits P n) : Emits P (if b then m else n) := by
  split
  · exact hm ‹_›
  · exact hn ‹_›

end Emits

variable [Journalled σ ω]

/-- The store after the writes `ws`. -/
def replay (s : σ) (ws : List ω) : σ := ws.foldl Journalled.apply s

/-- The store `m` leaves. -/
def final (m : Call σ ω ε α) (s : σ) : σ := replay s (m.journal s)

instance : Monad (Call σ ω ε) where
  pure a := fun _ => ([], .ok a)
  bind m f := fun s => match m s with
    | (ws, .error e) => (ws, .error e)
    | (ws, .ok a) => (ws ++ (f a (replay s ws)).1, (f a (replay s ws)).2)

@[simp] theorem replay_nil (s : σ) : replay s ([] : List ω) = s := rfl

@[simp] theorem replay_cons (s : σ) (w : ω) (ws : List ω) :
    replay s (w :: ws) = replay (Journalled.apply s w) ws := rfl

theorem replay_append (s : σ) (ws ws' : List ω) : replay s (ws ++ ws') = replay (replay s ws) ws' :=
  List.foldl_append

/-- What every write of `ws` keeps, replaying `ws` keeps. -/
theorem replay_keeps {P : ω → Prop} {I : σ → Prop}
    (hI : ∀ s w, P w → I s → I (Journalled.apply s w)) {ws : List ω} (hws : ∀ w ∈ ws, P w) {s : σ}
    (hs : I s) : I (replay s ws) := by
  induction ws generalizing s with
  | nil => exact hs
  | cons w ws ih =>
      exact ih (fun v hv => hws v (List.mem_cons_of_mem _ hv))
        (hI s w (hws w List.mem_cons_self) hs)

/-! ### Sequences, and the store a call leaves -/

@[simp] theorem result_pure (a : α) (s : σ) : (pure a : Call σ ω ε α).result s = .ok a := rfl

@[simp] theorem final_pure (a : α) (s : σ) : (pure a : Call σ ω ε α).final s = s := rfl

@[simp] theorem final_read (s : σ) : (read : Call σ ω ε σ).final s = s := rfl

@[simp] theorem final_write (w : ω) (s : σ) :
    (write w : Call σ ω ε Unit).final s = Journalled.apply s w := rfl

@[simp] theorem final_fail (e : ε) (s : σ) : (fail e : Call σ ω ε α).final s = s := rfl

@[simp] theorem final_ensure (b : Bool) (e : ε) (s : σ) :
    (ensure b e : Call σ ω ε Unit).final s = s := rfl

@[simp] theorem final_ofExcept (x : Except ε α) (s : σ) :
    (ofExcept x : Call σ ω ε α).final s = s := rfl

@[simp] theorem final_attempt (m : Call σ ω ε α) (s : σ) :
    (attempt m : Call σ ω ε' _).final s = m.final s := rfl

@[simp] theorem final_mapErr (f : ε → ε') (m : Call σ ω ε α) (s : σ) :
    (mapErr f m).final s = m.final s := rfl

theorem result_bind_of_ok {m : Call σ ω ε α} {s : σ} {a : α} (h : m.result s = .ok a)
    (f : α → Call σ ω ε β) : (m >>= f).result s = (f a).result (m.final s) := by
  simp only [result, final, journal, bind] at h ⊢
  split
  · simp_all
  · rename_i ws b hm
    rw [hm] at h
    cases h
    rw [hm]

theorem final_bind_of_ok {m : Call σ ω ε α} {s : σ} {a : α} (h : m.result s = .ok a)
    (f : α → Call σ ω ε β) : (m >>= f).final s = (f a).final (m.final s) := by
  simp only [result, final, journal, bind] at h ⊢
  split
  · simp_all
  · rename_i ws b hm
    rw [hm] at h
    cases h
    rw [hm, replay_append]

theorem result_bind_of_error {m : Call σ ω ε α} {s : σ} {e : ε} (h : m.result s = .error e)
    (f : α → Call σ ω ε β) : (m >>= f).result s = .error e := by
  simp only [result, bind] at h ⊢
  split <;> simp_all

theorem final_bind_of_error {m : Call σ ω ε α} {s : σ} {e : ε} (h : m.result s = .error e)
    (f : α → Call σ ω ε β) : (m >>= f).final s = m.final s := by
  simp only [result, final, journal, bind] at h ⊢
  split <;> simp_all

/-- Returning something else leaves the same store. -/
theorem final_bind_pure (m : Call σ ω ε α) (f : α → β) (s : σ) :
    (m >>= fun a => pure (f a)).final s = m.final s := by
  cases h : m.result s with
  | error e => exact final_bind_of_error h _
  | ok a => exact final_bind_of_ok h _

/-- What a sequence does, when its first part returns. -/
theorem bind_apply_of_ok {m : Call σ ω ε α} {s : σ} {ws : List ω} {a : α} (h : m s = (ws, .ok a))
    (f : α → Call σ ω ε β) :
    (m >>= f) s = (ws ++ (f a).journal (replay s ws), (f a).result (replay s ws)) := by
  simp only [bind, h, journal, result]

theorem bind_apply_of_error {m : Call σ ω ε α} {s : σ} {ws : List ω} {e : ε}
    (h : m s = (ws, .error e)) (f : α → Call σ ω ε β) : (m >>= f) s = (ws, .error e) := by
  simp only [bind, h]

/-- Two sequences do the same on a store where their parts do. -/
theorem bind_congr_at {m m' : Call σ ω ε α} {f g : α → Call σ ω ε β} {s : σ} (hm : m s = m' s)
    (h : ∀ a, m'.result s = .ok a → f a (m'.final s) = g a (m'.final s)) :
    (m >>= f) s = (m' >>= g) s := by
  cases hr : m' s with
  | mk ws r =>
      cases r with
      | error e => rw [bind_apply_of_error hr, bind_apply_of_error (hm.trans hr)]
      | ok a =>
          have hf := h a (congrArg Prod.snd hr)
          rw [final, journal, hr] at hf
          rw [bind_apply_of_ok hr, bind_apply_of_ok (hm.trans hr), journal, result, hf]
          rfl

/-- When only the first part of a sequence can fail, a sequence that fails is its first part. -/
theorem bind_eq_of_error {m : Call σ ω ε α} {f : α → Call σ ω ε β} {s : σ} {e : ε}
    (hf : ∀ a, m.result s = .ok a → ∃ b, (f a).result (m.final s) = .ok b)
    (h : (m >>= f).result s = .error e) : (m >>= f) s = (m.journal s, .error e) := by
  cases hr : m s with
  | mk ws r =>
      cases r with
      | error e' =>
          rw [result, bind_apply_of_error hr] at h
          rw [bind_apply_of_error hr, journal, hr]
          exact congrArg (Prod.mk ws) h
      | ok a =>
          obtain ⟨b, hb⟩ := hf a (congrArg Prod.snd hr)
          rw [result_bind_of_ok (congrArg Prod.snd hr), hb] at h
          cases h

/-- A sequence that starts by reading the store runs on what it reads. -/
@[simp] theorem read_bind_apply (f : σ → Call σ ω ε β) (s : σ) : (read >>= f) s = f s s := by
  rfl

theorem ofExcept_bind_apply (a : α) (f : α → Call σ ω ε β) (s : σ) :
    (ofExcept (.ok a) >>= f) s = f a s := rfl

@[simp] theorem write_bind_apply (w : ω) (f : Unit → Call σ ω ε β) (s : σ) :
    (write w >>= f) s =
      (w :: ((f ()) (Journalled.apply s w)).1, ((f ()) (Journalled.apply s w)).2) := rfl

/-- A sequence returns exactly when both of its parts do. -/
theorem result_bind_ok {m : Call σ ω ε α} {f : α → Call σ ω ε β} {s : σ} {b : β} :
    (m >>= f).result s = .ok b ↔
      ∃ a, m.result s = .ok a ∧ (f a).result (m.final s) = .ok b := by
  cases h : m.result s with
  | error e => simp [result_bind_of_error h]
  | ok a => simp [result_bind_of_ok h]

/-- A sequence fails exactly when one of its parts does. -/
theorem result_bind_error {m : Call σ ω ε α} {f : α → Call σ ω ε β} {s : σ} {e : ε} :
    (m >>= f).result s = .error e ↔
      m.result s = .error e ∨ ∃ a, m.result s = .ok a ∧ (f a).result (m.final s) = .error e := by
  cases h : m.result s with
  | error e' => simp [result_bind_of_error h]
  | ok a => simp [result_bind_of_ok h]

/-- A write of a sequence is one of its first part, or of its second part after the first. -/
theorem mem_journal_bind {m : Call σ ω ε α} {f : α → Call σ ω ε β} {s : σ} {w : ω} :
    w ∈ (m >>= f).journal s ↔
      w ∈ m.journal s ∨ ∃ a, m.result s = .ok a ∧ w ∈ (f a).journal (m.final s) := by
  cases hm : m s with
  | mk ws r =>
      have hws : m.journal s = ws := congrArg Prod.fst hm
      have hr : m.result s = r := congrArg Prod.snd hm
      cases r with
      | error e => rw [journal, bind_apply_of_error hm, hws, hr]; simp
      | ok a =>
          rw [journal, bind_apply_of_ok hm, List.mem_append, hws, hr, final, hws]
          constructor
          · rintro (h | h)
            · exact Or.inl h
            · exact Or.inr ⟨a, rfl, h⟩
          · rintro (h | ⟨b, hb, h⟩)
            · exact Or.inl h
            · cases hb
              exact Or.inr h

/-- A call that makes no writes leaves the store as it is. -/
theorem final_of_emits_false {m : Call σ ω ε α} (h : Emits (fun _ => False) m) (s : σ) :
    m.journal s = [] ∧ m.final s = s := by
  have hnil : m.journal s = [] := List.eq_nil_iff_forall_not_mem.mpr fun w hw => h s w hw
  refine ⟨hnil, ?_⟩
  rw [final, hnil, replay_nil]

namespace Emits

variable {P Q : ω → Prop}

theorem pure (a : α) : Emits P (Pure.pure a : Call σ ω ε α) := fun _ _ h => by cases h

theorem bind {m : Call σ ω ε α} {f : α → Call σ ω ε β} (h : Emits P m) (k : ∀ a, Emits P (f a)) :
    Emits P (m >>= f) := by
  intro s w hw
  simp only [journal, Bind.bind] at hw
  split at hw
  · rename_i ws e hm
    exact h s w (by simpa [journal, hm] using hw)
  · rename_i ws a hm
    rcases List.mem_append.mp hw with hw | hw
    · exact h s w (by simpa [journal, hm] using hw)
    · exact k a _ w hw

/-- What every write of a call keeps, the call keeps. -/
theorem keeps {m : Call σ ω ε α} (h : Emits P m) {I : σ → Prop}
    (hI : ∀ s w, P w → I s → I (Journalled.apply s w)) {s : σ} (hs : I s) : I (m.final s) :=
  replay_keeps hI (h s) hs

end Emits

/-! ### Calls that never fail -/

/-- `m` returns a value on every store. -/
def Returns (m : Call σ ω ε α) : Prop := ∀ s, ∃ a, m.result s = .ok a

namespace Returns

theorem pure (a : α) : Returns (Pure.pure a : Call σ ω ε α) := fun _ => ⟨a, rfl⟩

omit [Journalled σ ω] in
theorem read : Returns (Call.read : Call σ ω ε σ) := fun s => ⟨s, rfl⟩

omit [Journalled σ ω] in
theorem write (w : ω) : Returns (Call.write w : Call σ ω ε Unit) := fun _ => ⟨(), rfl⟩

theorem bind {m : Call σ ω ε α} {f : α → Call σ ω ε β} (h : Returns m) (k : ∀ a, Returns (f a)) :
    Returns (m >>= f) := by
  intro s
  obtain ⟨a, ha⟩ := h s
  obtain ⟨b, hb⟩ := k a (m.final s)
  exact ⟨b, (result_bind_of_ok ha f).trans hb⟩

omit [Journalled σ ω] in
theorem ite {b : Prop} [Decidable b] {m n : Call σ ω ε α} (hm : Returns m) (hn : Returns n) :
    Returns (if b then m else n) := by
  split
  · exact hm
  · exact hn

end Returns

/-! ### Pre- and postconditions -/

theorem final_cut_some (m : Call σ ω ε α) (k : ℕ) (e : ε) (s : σ) :
    (cut (some (k, e)) m).final s = replay s ((m.journal s).take k) := rfl

/-- From a store in `P`, every store `m` passes through is in `E`, the last one included, and a
value `m` returns is related by `Q` to the store it leaves. -/
def Triple (P : σ → Prop) (m : Call σ ω ε α) (Q : α → σ → Prop) (E : σ → Prop) : Prop :=
  ∀ s, P s → (∀ k, E (replay s ((m.journal s).take k))) ∧
    ∀ a, m.result s = .ok a → Q a (m.final s)

namespace Triple

variable {P P' : σ → Prop} {Q Q' : α → σ → Prop} {R : β → σ → Prop} {E : σ → Prop}

theorem pure {a : α} (h : ∀ s, P s → E s ∧ Q a s) : Triple P (Pure.pure a : Call σ ω ε α) Q E := by
  refine fun s hs => ⟨fun k => ?_, fun b hb => ?_⟩
  · rw [journal, show (Pure.pure a : Call σ ω ε α) s = ([], .ok a) from rfl, List.take_nil]
    exact (h s hs).1
  · cases hb
    exact (h s hs).2

theorem read {Q : σ → σ → Prop} (h : ∀ s, P s → E s ∧ Q s s) :
    Triple P (Call.read : Call σ ω ε σ) Q E := by
  refine fun s hs => ⟨fun k => ?_, fun b hb => ?_⟩
  · rw [journal, show (Call.read : Call σ ω ε σ) s = ([], .ok s) from rfl, List.take_nil]
    exact (h s hs).1
  · cases hb
    exact (h s hs).2

theorem write {w : ω} {Q : Unit → σ → Prop}
    (h : ∀ s, P s → E s ∧ E (Journalled.apply s w) ∧ Q () (Journalled.apply s w)) :
    Triple P (Call.write w : Call σ ω ε Unit) Q E := by
  refine fun s hs => ⟨fun k => ?_, fun b hb => (h s hs).2.2⟩
  rw [journal, show (Call.write w : Call σ ω ε Unit) s = ([w], .ok ()) from rfl]
  cases k with
  | zero => exact (h s hs).1
  | succ k =>
      rw [List.take_succ_cons, List.take_nil]
      exact (h s hs).2.1

theorem ofExcept {x : Except ε α} (h : ∀ s, P s → E s ∧ ∀ a, x = .ok a → Q a s) :
    Triple P (Call.ofExcept x : Call σ ω ε α) Q E := by
  refine fun s hs => ⟨fun k => ?_, fun a ha => (h s hs).2 a ha⟩
  rw [journal, show (Call.ofExcept x : Call σ ω ε α) s = ([], x) from rfl, List.take_nil]
  exact (h s hs).1

theorem fail {e : ε} (h : ∀ s, P s → E s) : Triple P (Call.fail e : Call σ ω ε α) Q E :=
  ofExcept (x := .error e) fun s hs => ⟨h s hs, fun _ ha => by cases ha⟩

theorem ensure {b : Bool} {e : ε} {Q : Unit → σ → Prop}
    (h : ∀ s, P s → E s ∧ (b = true → Q () s)) :
    Triple P (Call.ensure b e : Call σ ω ε Unit) Q E := by
  refine ofExcept (x := if b then .ok () else .error e) fun s hs => ⟨(h s hs).1, fun a ha => ?_⟩
  cases b with
  | true => exact (h s hs).2 rfl
  | false => cases ha

theorem bind {m : Call σ ω ε α} {f : α → Call σ ω ε β} (h : Triple P m Q E)
    (k : ∀ a, Triple (Q a) (f a) R E) : Triple P (m >>= f) R E := by
  intro s hs
  obtain ⟨hE, hQ⟩ := h s hs
  cases hr : m s with
  | mk ws r =>
      have hws : m.journal s = ws := congrArg Prod.fst hr
      cases r with
      | error e =>
          have hm := bind_apply_of_error hr f
          refine ⟨fun n => ?_, fun b hb => ?_⟩
          · rw [journal, hm]
            exact hws ▸ hE n
          · rw [result, hm] at hb
            cases hb
      | ok a =>
          have hm := bind_apply_of_ok hr f
          have hfinal : m.final s = replay s ws := by rw [final, hws]
          obtain ⟨hE', hR⟩ := k a _ (hQ a (congrArg Prod.snd hr))
          rw [hfinal] at hE' hR
          refine ⟨fun n => ?_, fun b hb => ?_⟩
          · -- a point of the sequence lies in its first part or after all of it
            rw [journal, hm, List.take_append, replay_append]
            rcases Nat.le_total n ws.length with hn | hn
            · rw [Nat.sub_eq_zero_of_le hn, List.take_zero, replay_nil]
              exact hws ▸ hE n
            · rw [List.take_of_length_le hn]
              exact hE' _
          · rw [final, journal, hm, replay_append]
            rw [result, hm] at hb
            exact hR b hb

/-- A precondition is looked at one store at a time. -/
theorem each {m : Call σ ω ε α} (h : ∀ s, P s → Triple (fun s' => s' = s) m Q E) :
    Triple P m Q E :=
  fun s hs => h s hs s rfl

/-- From one store, with what the call returns there. -/
theorem at_store {m : Call σ ω ε α} (h : Triple P m Q E) {s : σ} (hs : P s) :
    Triple (fun s' => s' = s) m (fun a s' => Q a s' ∧ m.result s = .ok a) E := by
  rintro _ rfl
  exact ⟨(h _ hs).1, fun a ha => ⟨(h _ hs).2 a ha, ha⟩⟩

/-- A call that makes no writes, with what its result says of the store. -/
theorem quiet {m : Call σ ω ε α} (h : Emits (fun _ => False) m) (hE : ∀ s, P s → E s) :
    Triple P m (fun a s => P s ∧ m.result s = .ok a) E := by
  refine fun s hs => ⟨fun k => ?_, fun a ha => ?_⟩
  · rw [(final_of_emits_false h s).1, List.take_nil]
    exact hE s hs
  · rw [(final_of_emits_false h s).2]
    exact ⟨hs, ha⟩

/-- What every write of a call keeps holds of every store on the way. -/
theorem ofEmits {W : ω → Prop} {m : Call σ ω ε α} (h : Emits W m) {I : σ → Prop}
    (hI : ∀ s w, W w → I s → I (Journalled.apply s w)) : Triple I m (fun _ => I) I :=
  fun s hs => ⟨fun _ => replay_keeps hI (fun w hw => h s w (List.mem_of_mem_take hw)) hs,
    fun _ _ => replay_keeps hI (h s) hs⟩

/-- Two triples about one call. -/
theorem and {m : Call σ ω ε α} {E' : σ → Prop} (h : Triple P m Q E) (h' : Triple P' m Q' E') :
    Triple (fun s => P s ∧ P' s) m (fun a s => Q a s ∧ Q' a s) (fun s => E s ∧ E' s) :=
  fun s hs => ⟨fun k => ⟨(h s hs.1).1 k, (h' s hs.2).1 k⟩,
    fun a ha => ⟨(h s hs.1).2 a ha, (h' s hs.2).2 a ha⟩⟩

theorem pre {m : Call σ ω ε α} (h : Triple P m Q E) (hP : ∀ s, P' s → P s) : Triple P' m Q E :=
  fun s hs => h s (hP s hs)

theorem post {m : Call σ ω ε α} (h : Triple P m Q E) (hQ : ∀ a s, Q a s → Q' a s) :
    Triple P m Q' E :=
  fun s hs => ⟨(h s hs).1, fun a ha => hQ a _ ((h s hs).2 a ha)⟩

theorem weaken {E' : σ → Prop} {m : Call σ ω ε α} (h : Triple P m Q E) (hE : ∀ s, E s → E' s) :
    Triple P m Q E' :=
  fun s hs => ⟨fun _ => hE _ ((h s hs).1 _), (h s hs).2⟩

theorem ite {b : Prop} [Decidable b] {m n : Call σ ω ε α} (hm : b → Triple P m Q E)
    (hn : ¬ b → Triple P n Q E) : Triple P (if b then m else n) Q E := by
  split
  · exact hm ‹_›
  · exact hn ‹_›

/-- A fault stops a call at one of the stores it passes through. -/
theorem cut {m : Call σ ω ε α} (h : Triple P m Q E) (fault : Option (ℕ × ε)) :
    Triple P (m.cut fault) Q E := by
  intro s hs
  cases fault with
  | none => exact h s hs
  | some f =>
      refine ⟨fun k => ?_, nofun⟩
      have htake : ((m.cut (some f)).journal s).take k = (m.journal s).take (min k f.1) :=
        List.take_take
      rw [htake]
      exact (h s hs).1 _

theorem mapErr {f : ε → ε'} {m : Call σ ω ε α} (h : Triple P m Q E) : Triple P (m.mapErr f) Q E :=
  fun s hs => ⟨(h s hs).1, fun a ha => (h s hs).2 a (result_mapErr_ok.mp ha)⟩

/-- The value a call returns, and the store it then leaves. -/
theorem ok {m : Call σ ω ε α} (h : Triple P m Q E) {s : σ} (hs : P s) {a : α}
    (hr : m.result s = .ok a) : Q a (m.final s) :=
  (h s hs).2 a hr

/-- The store a call leaves, whether it returns, fails, or is cut. -/
theorem final_cut {m : Call σ ω ε α} (h : Triple P m Q E) {s : σ} (hs : P s)
    (fault : Option (ℕ × ε)) : E ((m.cut fault).final s) := by
  cases fault with
  | none =>
      have := (h s hs).1 (m.journal s).length
      rwa [List.take_length] at this
  | some f => exact (h s hs).1 f.1

end Triple

end Call

end Ocid
