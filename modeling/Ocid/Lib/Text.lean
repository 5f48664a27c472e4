import Mathlib

/-!
# Lib — Text — strings as sequences of scalar values

`Str` is a string as the list of its Unicode scalar values.  The operations below are the ones of
Rust's `str` the development needs; where Rust counts bytes (`len`) they do too, where it cuts at
a byte offset found by a search for an ASCII character they cut at the same character.  `trim`
removes what Unicode calls white space.

Removing a prefix is `List.isPrefixOf?`.
-/

namespace Ocid

/-- A text, by its characters. -/
abbrev Str := List Char

instance : Coe String Str := ⟨String.toList⟩

instance : LawfulBEq Str := inferInstance

namespace Str

/-- `char::is_whitespace`: the scalar values with the property White_Space. -/
def isWhitespace (c : Char) : Bool :=
  let n := c.toNat
  (9 ≤ n && n ≤ 13) || n == 0x20 || n == 0x85 || n == 0xA0 || n == 0x1680 ||
    (0x2000 ≤ n && n ≤ 0x200A) || n == 0x2028 || n == 0x2029 || n == 0x202F || n == 0x205F ||
    n == 0x3000

/-- The length in bytes of the UTF-8 encoding. -/
def len (s : Str) : ℕ := (s.map Char.utf8Size).sum

/-- The UTF-8 encoding. -/
def toUtf8 (s : Str) : List UInt8 := s.flatMap String.utf8EncodeChar

/-- The `Debug` form: in double quotes, with the escapes that form uses for ASCII text. -/
def debug (s : Str) : Str := '"' :: (s.flatMap escape ++ ['"'])
where
  escape (c : Char) : Str :=
    if c = '"' then ['\\', '"']
    else if c = '\\' then ['\\', '\\']
    else if c = '\t' then ['\\', 't']
    else if c = '\r' then ['\\', 'r']
    else if c = '\n' then ['\\', 'n']
    else if c = '\x00' then ['\\', '0']
    else [c]

/-- `str::trim`. -/
def trim (s : Str) : Str := (s.dropWhile isWhitespace).rdropWhile isWhitespace

/-- `str::trim_end_matches`. -/
def trimEndMatches (c : Char) (s : Str) : Str := s.rdropWhile (· == c)

/-- `str::trim_matches`. -/
def trimMatches (c : Char) (s : Str) : Str := trimEndMatches c (s.dropWhile (· == c))

/-- The pieces between the occurrences of `c`. -/
def split (c : Char) : Str → List Str
  | [] => [[]]
  | d :: s => if d = c then [] :: split c s else match split c s with
    | [] => [[d]]
    | p :: ps => (d :: p) :: ps

/-- The parts before and after the first `c`. -/
def splitOnce (c : Char) : Str → Option (Str × Str)
  | [] => none
  | d :: s => if d = c then some ([], s) else (splitOnce c s).map fun p => (d :: p.1, p.2)

/-- The position of the last `c`. -/
def rfind (c : Char) : Str → Option ℕ
  | [] => none
  | d :: s => match rfind c s with
    | some i => some (i + 1)
    | none => if d = c then some 0 else none

/-- Different texts have different encodings. -/
theorem toUtf8_injective : Function.Injective toUtf8 := by
  intro a b h
  have hbytes : a.utf8Encode = b.utf8Encode := congrArg List.toByteArray h
  have hdecode := congrArg ByteArray.utf8Decode? hbytes
  rw [List.utf8Decode?_utf8Encode, List.utf8Decode?_utf8Encode] at hdecode
  simpa using hdecode

/-- The encoding of a string literal is at hand. -/
theorem toUtf8_toList (s : String) : toUtf8 s.toList = s.toByteArray.data.toList := by
  have h : (toUtf8 s.toList).toByteArray = s.toByteArray := String.utf8Encode_toList
  rw [← h, List.data_toByteArray, List.toList_toArray]

/-! ### Splitting at a separator that does not occur before or after -/

theorem split_append {c : Char} {a : Str} (h : c ∉ a) (b : Str) :
    split c (a ++ c :: b) = a :: split c b := by
  induction a with
  | nil => simp [split]
  | cons d a ih =>
      obtain ⟨hd, ha⟩ := not_or.mp (mt List.mem_cons.mpr h)
      simp [split, Ne.symm hd, ih ha]

theorem split_eq_self {c : Char} {s : Str} (h : c ∉ s) : split c s = [s] := by
  induction s with
  | nil => rfl
  | cons d s ih =>
      obtain ⟨hd, hs⟩ := not_or.mp (mt List.mem_cons.mpr h)
      simp [split, Ne.symm hd, ih hs]

theorem split_ne_nil (c : Char) (s : Str) : split c s ≠ [] := by
  cases s with
  | nil => simp [split]
  | cons d s => simp only [split]; split <;> [simp; (split <;> simp)]

/-- The pieces of two joined texts. -/
theorem split_append_cons (c : Char) (a b : Str) :
    split c (a ++ c :: b) = split c a ++ split c b := by
  induction a with
  | nil => simp [split]
  | cons d a ih =>
      by_cases hd : d = c
      · simp [split, hd, ih]
      · cases hs : split c a with
        | nil => exact absurd hs (split_ne_nil c a)
        | cons p ps => simp [split, hd, ih, hs]

theorem split_concat (c : Char) (s : Str) : split c (s ++ [c]) = split c s ++ [[]] :=
  split_append_cons c s []

theorem intercalate_split (c : Char) (s : Str) : [c].intercalate (split c s) = s := by
  induction s with
  | nil => rfl
  | cons d s ih =>
      cases hs : split c s with
      | nil => exact absurd hs (split_ne_nil c s)
      | cons p ps =>
          by_cases hd : d = c
          · simpa [split, hd, hs, List.intercalate_cons_cons] using ih
          · cases ps with
            | nil => simpa [split, hd, hs] using ih
            | cons q qs => simpa [split, hd, hs, List.intercalate_cons_cons] using ih

/-- The pieces and the separators between them are the text. -/
theorem length_split (c : Char) (s : Str) :
    ((split c s).map List.length).sum + (split c s).length = s.length + 1 := by
  induction s with
  | nil => rfl
  | cons d s ih =>
      cases hs : split c s with
      | nil => exact absurd hs (split_ne_nil c s)
      | cons p ps =>
          rw [hs] at ih
          by_cases hd : d = c
          · simp [split, hd, hs] at ih ⊢
            omega
          · simp [split, hd, hs] at ih ⊢
            omega

/-- Pieces without the separator are found again. -/
theorem split_intercalate {c : Char} {ts : List Str} (hne : ts ≠ []) (h : ∀ t ∈ ts, c ∉ t) :
    split c ([c].intercalate ts) = ts := by
  induction ts with
  | nil => exact absurd rfl hne
  | cons t ts ih =>
      have ht := h t List.mem_cons_self
      cases ts with
      | nil => simpa [List.intercalate] using split_eq_self ht
      | cons u us =>
          have hcons : [c].intercalate (t :: u :: us) = t ++ c :: [c].intercalate (u :: us) := by
            simp [List.intercalate, List.intersperse]
          rw [hcons, split_append ht, ih (List.cons_ne_nil _ _) fun v hv =>
            h v (List.mem_cons_of_mem _ hv)]

/-- The pieces say all of the text. -/
theorem split_injective (c : Char) : Function.Injective (split c) := fun a b h => by
  rw [← intercalate_split c a, ← intercalate_split c b, h]

/-- Every character but the separator lies in a piece. -/
theorem exists_mem_split {c d : Char} {s : Str} (hd : d ∈ s) (hc : d ≠ c) :
    ∃ p ∈ split c s, d ∈ p := by
  induction s with
  | nil => cases hd
  | cons e s ih =>
      by_cases he : e = c
      · obtain ⟨p, hp, hdp⟩ := ih ((List.mem_cons.mp hd).resolve_left fun h => hc (h.trans he))
        exact ⟨p, by simp [split, he, hp], hdp⟩
      · cases hs : split c s with
        | nil => exact absurd hs (split_ne_nil c s)
        | cons q qs =>
            simp only [split, he, if_false, hs]
            rcases List.mem_cons.mp hd with rfl | hd
            · exact ⟨d :: q, by simp, by simp⟩
            · obtain ⟨p, hp, hdp⟩ := ih hd
              rcases List.mem_cons.mp (hs ▸ hp) with rfl | hp
              · exact ⟨e :: p, by simp, by simp [hdp]⟩
              · exact ⟨p, by simp [hp], hdp⟩

/-- The first piece is what comes before the first separator. -/
theorem head?_split {c : Char} {w : Str} (h : c ∉ w) (s : Str) :
    (split c s).head? = some w ↔ s = w ∨ ∃ t, s = w ++ c :: t := by
  constructor
  · intro hs
    by_cases hc : c ∈ s
    · obtain ⟨a, t, rfl, ha⟩ := List.eq_append_cons_of_mem hc
      rw [split_append ha] at hs
      exact Or.inr ⟨t, congrArg (· ++ c :: t) (Option.some.inj hs)⟩
    · rw [split_eq_self hc] at hs
      exact Or.inl (Option.some.inj hs)
  · rintro (rfl | ⟨t, rfl⟩)
    · rw [split_eq_self h]
      rfl
    · rw [split_append h]
      rfl

/-- A separator and what comes after it do not change the first piece. -/
theorem head?_split_append (c : Char) (s t : Str) :
    (split c (s ++ c :: t)).head? = (split c s).head? := by
  rw [split_append_cons, List.head?_append_of_ne_nil _ (split_ne_nil c s)]

/-- A text that ends in another character than the separator has a piece that does. -/
theorem exists_mem_split_of_getLast? {c d : Char} {s : Str} (h : s.getLast? = some d)
    (hd : d ≠ c) : ∃ p ∈ split c s, p.getLast? = some d := by
  induction s with
  | nil => cases h
  | cons e s ih =>
      cases s with
      | nil =>
          obtain rfl : e = d := Option.some.inj h
          exact ⟨[e], by rw [split, if_neg hd]; exact List.mem_singleton_self _, rfl⟩
      | cons f s =>
          obtain ⟨p, hp, hlast⟩ := ih (List.getLast?_cons_cons ▸ h)
          rw [split]
          split
          · exact ⟨p, List.mem_cons_of_mem _ hp, hlast⟩
          · cases hs : split c (f :: s) with
            | nil => exact absurd hs (split_ne_nil c _)
            | cons q qs =>
                rcases List.mem_cons.mp (hs ▸ hp) with rfl | hp
                · exact ⟨e :: p, List.mem_cons_self, by rw [List.getLast?_cons, hlast]; rfl⟩
                · exact ⟨p, List.mem_cons_of_mem _ hp, hlast⟩

theorem splitOnce_append {c : Char} {a : Str} (h : c ∉ a) (b : Str) :
    splitOnce c (a ++ c :: b) = some (a, b) := by
  induction a with
  | nil => simp [splitOnce]
  | cons d a ih =>
      obtain ⟨hd, ha⟩ := not_or.mp (mt List.mem_cons.mpr h)
      simp [splitOnce, Ne.symm hd, ih ha]

theorem splitOnce_eq_none {c : Char} {s : Str} : splitOnce c s = none ↔ c ∉ s := by
  induction s with
  | nil => simp [splitOnce]
  | cons d s ih =>
      by_cases hd : d = c
      · simp [splitOnce, hd]
      · simp [splitOnce, hd, ih, Ne.symm hd]

theorem splitOnce_eq_some {c : Char} {s a b : Str} :
    splitOnce c s = some (a, b) ↔ s = a ++ c :: b ∧ c ∉ a := by
  constructor
  · induction s generalizing a with
    | nil => simp [splitOnce]
    | cons d s ih =>
        by_cases hd : d = c
        · simp only [splitOnce, hd, if_true, Option.some.injEq, Prod.mk.injEq]
          rintro ⟨rfl, rfl⟩
          simp
        · simp only [splitOnce, hd, if_false, Option.map_eq_some_iff, Prod.exists, Prod.mk.injEq]
          rintro ⟨a', b', h, rfl, rfl⟩
          obtain ⟨rfl, hn⟩ := ih h
          exact ⟨rfl, mt List.mem_cons.mp (not_or.mpr ⟨Ne.symm hd, hn⟩)⟩
  · rintro ⟨rfl, h⟩
    exact splitOnce_append h b

theorem rfind_eq_none {c : Char} {s : Str} : rfind c s = none ↔ c ∉ s := by
  induction s with
  | nil => simp [rfind]
  | cons d s ih =>
      cases hs : rfind c s with
      | some i =>
          have : c ∈ s := by_contra fun h => by rw [ih.mpr h] at hs; cases hs
          simp [rfind, hs, this]
      | none =>
          by_cases hd : d = c
          · simp [rfind, hs, hd]
          · simp [rfind, hs, hd, ih.mp hs, Ne.symm hd]

theorem rfind_append {c : Char} (a : Str) {b : Str} (h : c ∉ b) :
    rfind c (a ++ c :: b) = some a.length := by
  induction a with
  | nil => simp [rfind, rfind_eq_none.mpr h]
  | cons d a ih => simp [rfind, ih]

/-- Behind a separator the last one is looked for further on. -/
theorem rfind_append_cons (c : Char) (a b : Str) :
    rfind c (a ++ c :: b) = some (((rfind c b).map (a.length + 1 + ·)).getD a.length) := by
  induction a with
  | nil => cases h : rfind c b <;> simp [rfind, h, Nat.add_comm]
  | cons d a ih => cases h : rfind c b <;> simp [rfind, ih, h, Nat.add_right_comm]

theorem append_of_rfind {c : Char} {s : Str} {i : ℕ} (h : rfind c s = some i) :
    s = s.take i ++ c :: s.drop (i + 1) := by
  induction s generalizing i with
  | nil => cases h
  | cons d s ih =>
      simp only [rfind] at h
      split at h
      · rename_i j hj
        cases h
        exact congrArg (d :: ·) (ih hj)
      · split at h
        · rename_i hd
          cases h
          exact congrArg (· :: s) hd
        · cases h

theorem rfind_append_of_notMem {c : Char} (a : Str) {b : Str} (h : c ∉ b) :
    rfind c (a ++ b) = rfind c a := by
  induction a with
  | nil => simp [rfind, rfind_eq_none.mpr h]
  | cons d a ih => simp [rfind, ih]

theorem rfind_lt {c : Char} {s : Str} {i : ℕ} (h : rfind c s = some i) : i < s.length := by
  induction s generalizing i with
  | nil => cases h
  | cons d s ih =>
      simp only [rfind] at h
      split at h
      · rename_i j hj
        cases h
        exact Nat.succ_lt_succ (ih hj)
      · split at h
        · cases h
          exact Nat.succ_pos _
        · cases h

/-- A piece has no separator. -/
theorem notMem_of_mem_split {c : Char} {s p : Str} (h : p ∈ split c s) : c ∉ p := by
  induction s generalizing p with
  | nil =>
      obtain rfl := List.mem_singleton.mp h
      exact List.not_mem_nil
  | cons d s ih =>
      rw [split] at h
      split at h
      · rcases List.mem_cons.mp h with rfl | h
        · exact List.not_mem_nil
        · exact ih h
      · rename_i hd
        split at h
        · obtain rfl := List.mem_singleton.mp h
          exact fun hc => hd (List.mem_singleton.mp hc).symm
        · rename_i q qs hs
          rcases List.mem_cons.mp h with rfl | h
          · have hq : c ∉ q := ih (hs ▸ List.mem_cons_self)
            exact fun hc => (List.mem_cons.mp hc).elim (fun e => hd e.symm) hq
          · exact ih (hs ▸ List.mem_cons_of_mem _ h)

/-- A piece consists of characters of the text. -/
theorem mem_of_mem_split {c d : Char} {s p : Str} (h : p ∈ split c s) (hd : d ∈ p) : d ∈ s := by
  induction s generalizing p with
  | nil =>
      obtain rfl := List.mem_singleton.mp h
      cases hd
  | cons e s ih =>
      rw [split] at h
      split at h
      · rcases List.mem_cons.mp h with rfl | h
        · cases hd
        · exact List.mem_cons_of_mem _ (ih h hd)
      · split at h
        · obtain rfl := List.mem_singleton.mp h
          exact List.mem_singleton.mp hd ▸ List.mem_cons_self
        · rename_i q qs hs
          rcases List.mem_cons.mp h with rfl | h
          · rcases List.mem_cons.mp hd with rfl | hd
            · exact List.mem_cons_self
            · exact List.mem_cons_of_mem _ (ih (hs ▸ List.mem_cons_self) hd)
          · exact List.mem_cons_of_mem _ (ih (hs ▸ List.mem_cons_of_mem _ h) hd)

/-! ### Trimming what has nothing to trim -/

theorem trim_eq_self {s : Str} (hf : ∀ c ∈ s.head?, isWhitespace c = false)
    (hl : ∀ c ∈ s.getLast?, isWhitespace c = false) : trim s = s := by
  have hd : s.dropWhile isWhitespace = s := by
    cases s with
    | nil => rfl
    | cons c s => simp [hf c (by simp)]
  rw [trim, hd, List.rdropWhile_eq_self_iff]
  intro hs
  simp [hl (s.getLast hs) (by simp [List.getLast?_eq_getLast_of_ne_nil hs])]

theorem trim_of_forall {s : Str} (h : ∀ c ∈ s, isWhitespace c = false) : trim s = s :=
  trim_eq_self (fun c hc => h c (List.mem_of_mem_head? hc))
    fun c hc => h c (List.mem_of_getLast? hc)

/-- What is no white space is not trimmed. -/
theorem mem_trim {c : Char} {s : Str} (h : c ∈ s) (hc : isWhitespace c = false) : c ∈ trim s := by
  have hdrop : c ∈ s.dropWhile isWhitespace := by
    rw [← List.takeWhile_append_dropWhile (p := isWhitespace) (l := s)] at h
    refine (List.mem_append.mp h).resolve_left fun htake => ?_
    simp [List.mem_takeWhile_imp htake] at hc
  rw [← List.rdropWhile_append_rtakeWhile (p := isWhitespace) (l := s.dropWhile _)] at hdrop
  refine (List.mem_append.mp hdrop).resolve_right fun htake => ?_
  simp [List.mem_rtakeWhile_imp htake] at hc

theorem trimMatches_eq_self {c : Char} {s : Str} (hf : ∀ d ∈ s.head?, d ≠ c)
    (hl : ∀ d ∈ s.getLast?, d ≠ c) : trimMatches c s = s := by
  have hd : s.dropWhile (· == c) = s := by
    cases s with
    | nil => rfl
    | cons d s => simp [hf d (by simp)]
  rw [trimMatches, trimEndMatches, hd, List.rdropWhile_eq_self_iff]
  intro hs
  simp [hl (s.getLast hs) (by simp [List.getLast?_eq_getLast_of_ne_nil hs])]

/-! ### Trimming behind a separator -/

/-- Nothing is dropped past a character that stays. -/
theorem rdropWhile_append_cons {p : Char → Bool} {c : Char} (hc : p c = false)
    (a b : Str) :
    (a ++ c :: b).rdropWhile p = a ++ c :: b.rdropWhile p := by
  induction b using List.reverseRecOn with
  | nil => rw [List.rdropWhile_concat_neg _ _ _ (by simp [hc]), List.rdropWhile_nil]
  | append_singleton b x ih =>
      have happ : a ++ c :: (b ++ [x]) = (a ++ c :: b) ++ [x] := by simp
      rw [happ, List.rdropWhile_concat, List.rdropWhile_concat, ih]
      split
      · rfl
      · rw [happ]

/-- Where all of it is dropped, the separator may go too. -/
theorem rdropWhile_append (p : Char → Bool) (a b : Str) : (a ++ b).rdropWhile p =
    if b.rdropWhile p = [] then a.rdropWhile p else a ++ b.rdropWhile p := by
  simp only [List.rdropWhile, List.reverse_append, List.dropWhile_append, List.isEmpty_iff,
    List.reverse_eq_nil_iff]
  split
  · rfl
  · simp

@[simp] theorem len_append (a b : Str) : len (a ++ b) = len a + len b := by simp [len]

@[simp] theorem len_nil : len [] = 0 := rfl

@[simp] theorem len_cons (c : Char) (s : Str) : len (c :: s) = c.utf8Size + len s := by simp [len]

/-- A text of one-byte characters is as long in bytes as in characters. -/
theorem len_eq_length {s : Str} (h : ∀ c ∈ s, c.utf8Size = 1) : len s = s.length := by
  rw [len, List.map_congr_left h, List.map_const', List.sum_replicate_nat, Nat.mul_one]

end Str

end Ocid
