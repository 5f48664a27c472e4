import Ocid.Lib.Calls

/-!
# Lib — Guards — what a call writes, and where

`Call.Emits` says what every write of a call is, on every store.  `Call.Guarded C m s` says it of
each write together with the store in which the write is made, for the call `m` on the store `s`:
a record is written where it is newer, an entry is dropped where nothing uses it.

What every guarded write keeps, the call keeps (`Guarded.keeps`); and what a write establishes and
the later ones keep holds in the end (`Guarded.after`).

`Call.Judgement` is a judgement on a call that its parts decide, so that it goes from the parts of a
program to the whole.  Being guarded is one.  Another is `crash I L`: from `I` to `I`, and where the
call may be stopped on the way, `L`.

`Call.Yields I P m Q` is for calls whose writes depend on what they read: from a store that
satisfies `I`, every write of `m` satisfies `P`, and what it returns satisfies `Q`.  Where such
writes keep `I`, the rules follow the parts of a call.
-/

namespace Ocid

namespace Call

variable {σ ω ε ε' α β : Type} [Journalled σ ω] {C D : σ → ω → Prop} {s : σ}

/-- Each of the writes `ws`, replayed from `s`, is made in a store where it satisfies `C`. -/
def Along (C : σ → ω → Prop) : σ → List ω → Prop
  | _, [] => True
  | s, w :: ws => C s w ∧ Along C (Journalled.apply s w) ws

namespace Along

variable {ws ws' : List ω}

theorem append : Along C s (ws ++ ws') ↔ Along C s ws ∧ Along C (replay s ws) ws' := by
  induction ws generalizing s with
  | nil => exact (and_iff_right trivial).symm
  | cons w ws ih =>
      rw [List.cons_append, Along, Along, ih, and_assoc]
      rfl

theorem take (h : Along C s ws) (k : ℕ) : Along C s (ws.take k) := by
  rw [← List.take_append_drop k ws] at h
  exact (append.mp h).1

theorem mono (hCD : ∀ s w, C s w → D s w) (h : Along C s ws) : Along D s ws := by
  induction ws generalizing s with
  | nil => trivial
  | cons w ws ih => exact ⟨hCD _ _ h.1, ih h.2⟩

theorem of_forall (h : ∀ s, ∀ w ∈ ws, C s w) : Along C s ws := by
  induction ws generalizing s with
  | nil => trivial
  | cons w ws ih =>
      exact ⟨h _ _ List.mem_cons_self, ih fun t v hv => h t v (List.mem_cons_of_mem _ hv)⟩

theorem keeps {I : σ → Prop} (hI : ∀ s w, C s w → I s → I (Journalled.apply s w))
    (h : Along C s ws) (hs : I s) : I (replay s ws) := by
  induction ws generalizing s with
  | nil => exact hs
  | cons w ws ih => exact ih h.2 (hI _ _ h.1 hs)

/-- Every write is made somewhere. -/
theorem of_mem (h : Along C s ws) {w : ω} (hw : w ∈ ws) : ∃ t, C t w := by
  induction ws generalizing s with
  | nil => cases hw
  | cons v ws ih =>
      rcases List.mem_cons.mp hw with rfl | hw
      · exact ⟨s, h.1⟩
      · exact ih h.2 hw

/-- Where the writes keep what they need, they all satisfy it. -/
theorem forall_of_keeps {I : σ → Prop} {P : ω → Prop}
    (hI : ∀ s w, P w → I s → I (Journalled.apply s w)) (h : Along (fun s w => I s → P w) s ws)
    (hs : I s) : ∀ w ∈ ws, P w := by
  induction ws generalizing s with
  | nil => exact fun _ hw => absurd hw List.not_mem_nil
  | cons v ws ih =>
      intro w hw
      rcases List.mem_cons.mp hw with rfl | hw
      · exact h.1 hs
      · exact ih h.2 (hI _ _ (h.1 hs) hs) w hw

/-- What a write establishes and the later ones keep. -/
theorem after {I : σ → Prop} {w : ω} (hw : ∀ s, C s w → I (Journalled.apply s w))
    (hI : ∀ s w, C s w → I s → I (Journalled.apply s w)) (h : Along C s ws) (hmem : w ∈ ws) :
    I (replay s ws) := by
  induction ws generalizing s with
  | nil => cases hmem
  | cons v ws ih =>
      rcases List.mem_cons.mp hmem with rfl | hmem
      · have hrest : I (replay (Journalled.apply s w) ws) := keeps hI h.2 (hw s h.1)
        exact hrest
      · exact ih h.2 hmem

end Along

/-- Each write that `m` makes on `s` is made in a store where it satisfies `C`. -/
def Guarded (C : σ → ω → Prop) (m : Call σ ω ε α) (s : σ) : Prop := Along C s (m.journal s)

namespace Guarded

variable {m : Call σ ω ε α}

theorem mono (hCD : ∀ s w, C s w → D s w) (h : Guarded C m s) : Guarded D m s := Along.mono hCD h

theorem of_emits {P : ω → Prop} (h : Emits P m) (hPC : ∀ s w, P w → C s w) : Guarded C m s :=
  Along.of_forall fun t w hw => hPC t w (h s w hw)

/-- A call that makes no writes. -/
theorem quiet (h : Emits (fun _ => False) m) : Guarded C m s := of_emits h fun _ _ hw => hw.elim

theorem pure (a : α) : Guarded C (Pure.pure a : Call σ ω ε α) s := trivial

theorem write {w : ω} (h : C s w) : Guarded C (Call.write w : Call σ ω ε Unit) s := ⟨h, trivial⟩

theorem fail (e : ε) : Guarded C (Call.fail e : Call σ ω ε α) s := trivial

theorem ensure (b : Bool) (e : ε) : Guarded C (Call.ensure b e : Call σ ω ε Unit) s := trivial

theorem ofExcept (x : Except ε α) : Guarded C (Call.ofExcept x : Call σ ω ε α) s := trivial

theorem ite {b : Prop} [Decidable b] {n : Call σ ω ε α} (hm : b → Guarded C m s)
    (hn : ¬ b → Guarded C n s) : Guarded C (if b then m else n) s := by
  split
  · exact hm ‹_›
  · exact hn ‹_›

theorem bind {f : α → Call σ ω ε β} (h : Guarded C m s)
    (k : ∀ a, m.result s = .ok a → Guarded C (f a) (m.final s)) : Guarded C (m >>= f) s := by
  cases hm : m s with
  | mk ws r =>
      have hws : m.journal s = ws := congrArg Prod.fst hm
      have hr : m.result s = r := congrArg Prod.snd hm
      rw [Guarded, hws] at h
      cases r with
      | error e =>
          rw [Guarded, journal, bind_apply_of_error hm]
          exact h
      | ok a =>
          rw [Guarded, journal, bind_apply_of_ok hm]
          have hk := k a hr
          rw [final, hws] at hk
          exact Along.append.mpr ⟨h, hk⟩

/-- A sequence that starts by reading the store. -/
theorem read_bind {f : σ → Call σ ω ε β} (h : Guarded C (f s) s) : Guarded C (read >>= f) s := h

/-- A sequence whose first part makes no writes. -/
theorem quiet_bind {f : α → Call σ ω ε β} (h : Emits (fun _ => False) m)
    (k : ∀ a, m.result s = .ok a → Guarded C (f a) s) : Guarded C (m >>= f) s := by
  refine (quiet h).bind fun a ha => ?_
  rw [(final_of_emits_false h s).2]
  exact k a ha

theorem cut (h : Guarded C m s) (fault : Option (ℕ × ε)) : Guarded C (m.cut fault) s := by
  cases fault with
  | none => exact h
  | some f => exact h.take f.1

theorem attempt (h : Guarded C m s) : Guarded C (m.attempt : Call σ ω ε' _) s := h

theorem mapErr (h : Guarded C m s) (f : ε → ε') : Guarded C (m.mapErr f) s := h

/-- What every guarded write keeps, the call keeps. -/
theorem keeps {I : σ → Prop} (h : Guarded C m s)
    (hI : ∀ s w, C s w → I s → I (Journalled.apply s w)) (hs : I s) : I (m.final s) :=
  Along.keeps hI h hs

theorem after {I : σ → Prop} {w : ω} (h : Guarded C m s)
    (hw : ∀ s, C s w → I (Journalled.apply s w))
    (hI : ∀ s w, C s w → I s → I (Journalled.apply s w)) (hmem : w ∈ m.journal s) : I (m.final s) :=
  Along.after hw hI h hmem

end Guarded

/-- A judgement on calls that follows their parts. -/
structure Judgement (σ ω : Type) [Journalled σ ω] where
  Covers : {ε α : Type} → Call σ ω ε α → σ → Prop
  quiet : ∀ {ε α : Type} {m : Call σ ω ε α}, Emits (fun _ => False) m → ∀ s, Covers m s
  bind : ∀ {ε α β : Type} {m : Call σ ω ε α} {f : α → Call σ ω ε β} {s : σ}, Covers m s →
    (∀ a, m.result s = .ok a → Covers (f a) (m.final s)) → Covers (m >>= f) s
  attempt : ∀ {ε ε' α : Type} {m : Call σ ω ε α} {s : σ}, Covers m s →
    Covers (m.attempt : Call σ ω ε' (Except ε α)) s

namespace Judgement

/-- The writes of the call are guarded by `C`. -/
def guarded (C : σ → ω → Prop) : Judgement σ ω where
  Covers := Guarded C
  quiet h _ := Guarded.quiet h
  bind := Guarded.bind
  attempt := Guarded.attempt

/-- The call keeps `I`; in between there is only `L`. -/
def crash (I L : σ → Prop) (hIL : ∀ s, I s → L s) : Judgement σ ω where
  Covers m s := I s → (∀ k, L (replay s ((m.journal s).take k))) ∧ I (m.final s)
  quiet h s hs := by
    obtain ⟨hnil, hfinal⟩ := final_of_emits_false h s
    refine ⟨fun k => ?_, hfinal.symm ▸ hs⟩
    rw [hnil, List.take_nil]
    exact hIL s hs
  bind {_ _ _ m f s} hm hf hs := by
    obtain ⟨hL, hI⟩ := hm hs
    cases hr : m s with
    | mk ws r =>
        have hws : m.journal s = ws := congrArg Prod.fst hr
        have hfinal : m.final s = replay s ws := by rw [final, hws]
        rw [hws] at hL
        rw [hfinal] at hI
        cases r with
        | error e =>
            rw [final, journal, bind_apply_of_error hr]
            exact ⟨hL, hI⟩
        | ok a =>
            obtain ⟨hL', hI'⟩ := hf a (congrArg Prod.snd hr) (hfinal ▸ hI)
            rw [hfinal] at hL' hI'
            rw [final, journal, bind_apply_of_ok hr, replay_append]
            refine ⟨fun n => ?_, hI'⟩
            -- a point of the sequence lies in its first part or after all of it
            rw [List.take_append, replay_append]
            rcases Nat.le_total n ws.length with hn | hn
            · rw [Nat.sub_eq_zero_of_le hn, List.take_zero, replay_nil]
              exact hL n
            · rw [List.take_of_length_le hn]
              exact hL' _
  attempt h := h

variable (J : Judgement σ ω) {m : Call σ ω ε α}

theorem pure (a : α) (s : σ) : J.Covers (Pure.pure a : Call σ ω ε α) s :=
  J.quiet (Emits.pure a) s

variable {J}

theorem ite {b : Prop} [Decidable b] {n : Call σ ω ε α} (hm : b → J.Covers m s)
    (hn : ¬ b → J.Covers n s) : J.Covers (if b then m else n) s := by
  split
  · exact hm ‹_›
  · exact hn ‹_›

/-- A sequence whose first part makes no writes. -/
theorem quiet_bind {f : α → Call σ ω ε β} (h : Emits (fun _ => False) m)
    (k : ∀ a, m.result s = .ok a → J.Covers (f a) s) : J.Covers (m >>= f) s := by
  refine J.bind (J.quiet h s) fun a ha => ?_
  rw [(final_of_emits_false h s).2]
  exact k a ha

/-- A sequence that starts by reading the store. -/
theorem read_bind {f : σ → Call σ ω ε β} (h : J.Covers (f s) s) : J.Covers (read >>= f) s := by
  refine quiet_bind Emits.read fun t ht => ?_
  cases ht
  exact h

/-- What keeps `I` at every write. -/
theorem crash_of_triple {I L : σ → Prop} {hIL : ∀ s, I s → L s}
    (h : Triple I m (fun _ => I) I) (s : σ) : (crash I L hIL).Covers m s := by
  intro hs
  refine ⟨fun k => hIL _ ((h s hs).1 k), ?_⟩
  have hall := (h s hs).1 (m.journal s).length
  rwa [List.take_length] at hall

/-- A call that is stopped. -/
theorem of_cut {I L : σ → Prop} {hIL : ∀ s, I s → L s} (h : (crash I L hIL).Covers m s) (hs : I s)
    (fault : Option (ℕ × ε)) :
    L ((m.cut fault).final s) ∧ (fault = none → I ((m.cut fault).final s)) := by
  obtain ⟨hL, hI⟩ := h hs
  cases fault with
  | none => exact ⟨hIL _ hI, fun _ => hI⟩
  | some f => exact ⟨hL f.1, fun hnone => by cases hnone⟩

end Judgement

/-- From a store that satisfies `I`, the writes of `m` satisfy `P`, and what it returns `Q`. -/
def Yields (I : σ → Prop) (P : ω → Prop) (m : Call σ ω ε α) (Q : α → Prop) : Prop :=
  ∀ s, I s → (∀ w ∈ m.journal s, P w) ∧ ∀ a, m.result s = .ok a → Q a

namespace Yields

variable {I : σ → Prop} {P : ω → Prop} {Q : α → Prop} {R : β → Prop} {m : Call σ ω ε α}

theorem pure {a : α} (h : Q a) : Yields I P (Pure.pure a : Call σ ω ε α) Q := by
  refine fun s _ => ⟨fun _ hw => absurd hw List.not_mem_nil, fun b hb => ?_⟩
  cases hb
  exact h

omit [Journalled σ ω] in
theorem fail (e : ε) : Yields I P (Call.fail e : Call σ ω ε α) Q :=
  fun _ _ => ⟨fun _ hw => absurd hw List.not_mem_nil, fun _ h => by cases h⟩

omit [Journalled σ ω] in
theorem of_emits (h : Emits P m) (hQ : ∀ s, I s → ∀ a, m.result s = .ok a → Q a) :
    Yields I P m Q := fun s hs => ⟨h s, hQ s hs⟩

omit [Journalled σ ω] in
theorem ofExcept (x : Except ε α) : Yields I P (Call.ofExcept x : Call σ ω ε α) (x = .ok ·) :=
  of_emits (Emits.ofExcept x) fun _ _ _ h => h

theorem bind {f : α → Call σ ω ε β} (hI : ∀ s w, P w → I s → I (Journalled.apply s w))
    (h : Yields I P m Q) (k : ∀ a, Q a → Yields I P (f a) R) : Yields I P (m >>= f) R := by
  intro s hs
  obtain ⟨hw, hQ⟩ := h s hs
  have hfinal : I (m.final s) := replay_keeps hI hw hs
  refine ⟨fun w hmem => ?_, fun b hb => ?_⟩
  · rcases mem_journal_bind.mp hmem with hmem | ⟨a, ha, hmem⟩
    · exact hw w hmem
    · exact (k a (hQ a ha) _ hfinal).1 w hmem
  · obtain ⟨a, ha, hb⟩ := result_bind_ok.mp hb
    exact (k a (hQ a ha) _ hfinal).2 b hb

/-- A sequence that starts by reading the store. -/
theorem read_bind {f : σ → Call σ ω ε β} (h : ∀ s, I s → Yields I P (f s) R) :
    Yields I P (read >>= f) R := fun s hs => by
  simpa only [journal, result, read_bind_apply] using h s hs s hs

omit [Journalled σ ω] in
theorem ite {b : Prop} [Decidable b] {n : Call σ ω ε α} (hm : b → Yields I P m Q)
    (hn : ¬ b → Yields I P n Q) : Yields I P (if b then m else n) Q := by
  split
  · exact hm ‹_›
  · exact hn ‹_›

omit [Journalled σ ω] in
theorem mono {Q' : α → Prop} (h : Yields I P m Q) (hQ : ∀ a, Q a → Q' a) : Yields I P m Q' :=
  fun s hs => ⟨(h s hs).1, fun a ha => hQ a ((h s hs).2 a ha)⟩

omit [Journalled σ ω] in
theorem mapErr {f : ε → ε'} (h : Yields I P m Q) : Yields I P (m.mapErr f) Q :=
  fun s hs => ⟨(h s hs).1, fun a ha => (h s hs).2 a (result_mapErr_ok.mp ha)⟩

omit [Journalled σ ω] in
/-- The writes of the call, stopped anywhere. -/
theorem cut (h : Yields I P m Q) (fault : Option (ℕ × ε)) {s : σ} (hs : I s) :
    ∀ w ∈ (m.cut fault).journal s, P w := by
  cases fault with
  | none => exact (h s hs).1
  | some f => exact fun w hw => (h s hs).1 w (List.mem_of_mem_take hw)

end Yields

end Call

end Ocid
