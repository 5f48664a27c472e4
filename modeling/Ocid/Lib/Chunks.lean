import Ocid.Lib.Search

/-!
# Lib — Chunks — parsers that are fed in chunks

A `Cutter` takes the next token off the front of a list, if a whole one is there.  What it takes off
does not change when more comes behind (`more`).  A reader keeps what is not cut off yet, appends
each chunk to it, and handles the tokens that are then there (`feed`).

Then the tokens are those of all chunks in one, and so is the rest (`foldlM_feed`): where the chunks
were cut does not matter.  `separated` cuts at a separator: the tokens of a list and their rest are
the only way to write it as pieces that have the separator at their ends and nowhere else
(`isFrames_iff`).
-/

namespace Ocid

/-- A parser of one token. -/
structure Cutter (α β : Type) where
  cut : List α → Option (β × List α)
  shorter : ∀ {s b r}, cut s = some (b, r) → r.length < s.length
  more : ∀ {s b r}, cut s = some (b, r) → ∀ t, cut (s ++ t) = some (b, r ++ t)

namespace Cutter

variable {α β : Type} (C : Cutter α β)

/-- The tokens of a list, and what is left of it. -/
def drain (s : List α) : List β × List α :=
  match _h : C.cut s with
  | none => ([], s)
  | some (b, r) => (b :: (drain r).1, (drain r).2)
termination_by s.length
decreasing_by all_goals exact C.shorter _h

variable {C} {s r t : List α} {b : β}

theorem drain_of_none (h : C.cut s = none) : C.drain s = ([], s) := by
  rw [drain]
  split
  · rfl
  · rename_i h'
    cases h.symm.trans h'

theorem drain_of_some (h : C.cut s = some (b, r)) :
    C.drain s = (b :: (C.drain r).1, (C.drain r).2) := by
  rw [drain]
  split
  · rename_i h'
    cases h.symm.trans h'
  · rename_i h'
    cases h.symm.trans h'
    rfl

variable (C)

/-- What is left has no whole token. -/
theorem cut_drain (s : List α) : C.cut (C.drain s).2 = none := by
  induction s using drain.induct C with
  | case1 s h => rwa [drain_of_none h]
  | case2 s b r h ih =>
      rw [drain_of_some h]
      exact ih

/-- The tokens of a longer list are those of its front, and of what these leave with the rest. -/
theorem drain_append (s t : List α) : C.drain (s ++ t) =
    ((C.drain s).1 ++ (C.drain ((C.drain s).2 ++ t)).1, (C.drain ((C.drain s).2 ++ t)).2) := by
  induction s using drain.induct C with
  | case1 s h => rw [drain_of_none h, List.nil_append]
  | case2 s b r h ih => rw [drain_of_some h, drain_of_some (C.more h t), ih, List.cons_append]

/-! ### Reading -/

variable {σ : Type} {m : Type → Type} [Monad m] (handle : σ → β → m σ)

/-- Handle the tokens that are there. -/
def consume (s : List α) (st : σ) : m (List α × σ) :=
  match _h : C.cut s with
  | none => pure (s, st)
  | some (b, r) => handle st b >>= fun st => consume r st
termination_by s.length
decreasing_by exact C.shorter _h

/-- Read one more chunk. -/
def feed (st : List α × σ) (chunk : List α) : m (List α × σ) :=
  C.consume handle (st.1 ++ chunk) st.2

variable [LawfulMonad m]

/-- The tokens are handled in their order, and the rest is kept. -/
theorem consume_eq (s : List α) (st : σ) : C.consume handle s st =
    (C.drain s).1.foldlM handle st >>= fun st => pure ((C.drain s).2, st) := by
  induction s using drain.induct C generalizing st with
  | case1 s h =>
      rw [consume, drain_of_none h, List.foldlM_nil, pure_bind]
      split
      · rfl
      · rename_i h'
        cases h.symm.trans h'
  | case2 s b r h ih =>
      rw [consume, drain_of_some h, List.foldlM_cons, bind_assoc]
      split
      · rename_i h'
        cases h.symm.trans h'
      · rename_i h'
        cases h.symm.trans h'
        exact bind_congr ih

/-- Reading on where the reader stopped. -/
theorem consume_append (s t : List α) (st : σ) : C.consume handle (s ++ t) st =
    C.consume handle s st >>= fun p => C.consume handle (p.1 ++ t) p.2 := by
  rw [consume_eq, drain_append, List.foldlM_append, bind_assoc, consume_eq C handle s, bind_assoc]
  refine bind_congr fun st => ?_
  rw [pure_bind, consume_eq]

/-- **Where the chunks are cut does not matter.** -/
theorem foldlM_feed {s : List α} (hs : C.cut s = none) (chunks : List (List α)) (st : σ) :
    chunks.foldlM (C.feed handle) (s, st) = C.consume handle (s ++ chunks.flatten) st := by
  induction chunks generalizing s st with
  | nil =>
      rw [List.flatten_nil, List.append_nil, consume_eq, drain_of_none hs, List.foldlM_nil,
        List.foldlM_nil, pure_bind]
  | cons chunk chunks ih =>
      have hcat : s ++ (chunk :: chunks).flatten = s ++ chunk ++ chunks.flatten := by simp
      have hfeed : C.feed handle (s, st) chunk = C.consume handle (s ++ chunk) st := rfl
      rw [List.foldlM_cons, hfeed, hcat, C.consume_append handle (s ++ chunk), consume_eq,
        bind_assoc, bind_assoc]
      refine bind_congr fun st => ?_
      rw [pure_bind, pure_bind]
      exact ih (C.cut_drain _) st

end Cutter

/-! ### Separators -/

variable {α : Type} [DecidableEq α]

/-- The pieces of a list that have the separator at their ends and nowhere else, and a rest without
it. -/
structure IsFrames (sep s : List α) (fs : List (List α)) (r : List α) : Prop where
  eq : s = fs.flatten ++ r
  frame : ∀ f ∈ fs, sep <:+ f ∧ ¬ sep <:+: f.dropLast
  rest : ¬ sep <:+: r

/-- What comes up to and with the first separator. -/
def cutFrame (sep s : List α) : Option (List α × List α) :=
  (Search.firstIndex sep s).map fun pos => (s.take (pos + sep.length), s.drop (pos + sep.length))

variable {sep s f r : List α} {fs : List (List α)}

theorem cutFrame_eq_none : cutFrame sep s = none ↔ ¬ sep <:+: s := by
  rw [cutFrame, Option.map_eq_none_iff, Search.firstIndex_eq_none]

theorem cutFrame_eq_some_iff (h : sep ≠ []) : cutFrame sep s = some (f, r) ↔
    s = f ++ r ∧ sep <:+ f ∧ ¬ sep <:+: f.dropLast := by
  have hcut : ∀ a b : List α, (a ++ (sep ++ b)).take (a.length + sep.length) = a ++ sep ∧
      (a ++ (sep ++ b)).drop (a.length + sep.length) = b := fun a b => by
    rw [← List.append_assoc, ← List.length_append]
    exact ⟨List.take_left, List.drop_left⟩
  rw [cutFrame, Option.map_eq_some_iff]
  constructor
  · rintro ⟨pos, hpos, heq⟩
    obtain ⟨a, b, rfl, rfl, hearlier⟩ := (Search.firstIndex_eq_some_iff h).mp hpos
    obtain ⟨rfl, rfl⟩ := Prod.mk.inj heq
    rw [(hcut a b).1, (hcut a b).2]
    exact ⟨(List.append_assoc _ _ _).symm, List.suffix_append _ _, hearlier⟩
  · rintro ⟨rfl, ⟨a, rfl⟩, hearlier⟩
    rw [List.append_assoc]
    refine ⟨a.length, (Search.firstIndex_eq_some_iff h).mpr ⟨a, r, rfl, rfl, hearlier⟩, ?_⟩
    rw [(hcut a r).1, (hcut a r).2]

/-- The pieces up to a separator. -/
def separated (sep : List α) (h : sep ≠ []) : Cutter α (List α) where
  cut := cutFrame sep
  shorter := fun hcut => by
    obtain ⟨rfl, hsep, -⟩ := (cutFrame_eq_some_iff h).mp hcut
    have hpos := List.length_pos_of_ne_nil h
    have hle := hsep.length_le
    rw [List.length_append]
    omega
  more := fun hcut t => by
    obtain ⟨rfl, hsep, hearlier⟩ := (cutFrame_eq_some_iff h).mp hcut
    exact (cutFrame_eq_some_iff h).mpr ⟨List.append_assoc _ _ _, hsep, hearlier⟩

/-- **The pieces and the rest are the only ones.** -/
theorem isFrames_iff (h : sep ≠ []) :
    IsFrames sep s fs r ↔ (separated sep h).drain s = (fs, r) := by
  constructor
  · rintro ⟨rfl, hframe, hrest⟩
    induction fs with
    | nil => exact Cutter.drain_of_none (cutFrame_eq_none.mpr hrest)
    | cons f fs ih =>
        obtain ⟨hf, hfs⟩ := List.forall_mem_cons.mp hframe
        have hcut : (separated sep h).cut ((f :: fs).flatten ++ r) = some (f, fs.flatten ++ r) :=
          (cutFrame_eq_some_iff h).mpr ⟨by simp, hf⟩
        rw [Cutter.drain_of_some hcut, ih hfs]
  · intro hdrain
    induction s using Cutter.drain.induct (separated sep h) generalizing fs r with
    | case1 s hcut =>
        rw [Cutter.drain_of_none hcut] at hdrain
        obtain ⟨rfl, rfl⟩ := Prod.mk.inj hdrain
        exact ⟨rfl, nofun, cutFrame_eq_none.mp hcut⟩
    | case2 s f t hcut ih =>
        rw [Cutter.drain_of_some hcut] at hdrain
        obtain ⟨rfl, rfl⟩ := Prod.mk.inj hdrain
        obtain ⟨rfl, hf⟩ := (cutFrame_eq_some_iff h).mp hcut
        have hrest := ih rfl
        exact ⟨by rw [List.flatten_cons, List.append_assoc, ← hrest.eq],
          List.forall_mem_cons.mpr ⟨hf, hrest.frame⟩, hrest.rest⟩

end Ocid
