import Ocid.Lib.Json

/-!
# Lib — JsonText — what the text of a value says

The compact text of a value says all of it (`render_inj`), as long as no number is given by its
text: a string ends at its first quote that is not escaped, a number at the first character that is
no digit, and an array or an object at the bracket that closes it.

`pretty` is the text with line breaks and two spaces for each level.  A reader keeps the members of
an object by name, in the order of the names: what it reads from either text is the value with the
members of every object sorted (`sorted`).
-/

namespace Ocid.Json

/-! ### The pretty text -/

/-- A new line, indented. -/
def newline (depth : ℕ) : Str := '\n' :: List.replicate (2 * depth) ' '

mutual

/-- The text of a value, on several lines, at a depth. -/
def pretty (depth : ℕ) : Json → Str
  | .arr [] => "[]"
  | .arr (j :: js) => '[' :: (prettyItems (depth + 1) (j :: js) ++ (newline depth ++ [']']))
  | .obj [] => "\x7b\x7d"
  | .obj (m :: ms) => Char.ofNat 0x7b ::
      (prettyMembers (depth + 1) (m :: ms) ++ (newline depth ++ [Char.ofNat 0x7d]))
  | j => render j

/-- The items of an array, each on a line of its own. -/
def prettyItems (depth : ℕ) : List Json → Str
  | [] => []
  | [j] => newline depth ++ pretty depth j
  | j :: js => newline depth ++ (pretty depth j ++ ',' :: prettyItems depth js)

/-- The members of an object, each on a line of its own. -/
def prettyMembers (depth : ℕ) : List (Str × Json) → Str
  | [] => []
  | [(k, j)] => newline depth ++ (quote k ++ (": " ++ pretty depth j))
  | (k, j) :: ms => newline depth ++ (quote k ++ (": " ++ (pretty depth j ++
      ',' :: prettyMembers depth ms)))

end

/-! ### Members by name -/

mutual

/-- The value as it is kept: the members of an object are in the order of their names. -/
def sorted : Json → Json
  | .arr items => .arr (sortedItems items)
  | .obj members => .obj ((sortedMembers members).insertionSort fun a b => a.1 ≤ b.1)
  | j => j

/-- The items of an array, sorted inside. -/
def sortedItems : List Json → List Json
  | [] => []
  | j :: js => sorted j :: sortedItems js

/-- The members of an object, sorted inside. -/
def sortedMembers : List (Str × Json) → List (Str × Json)
  | [] => []
  | (k, j) :: ms => (k, sorted j) :: sortedMembers ms

end

theorem sortedItems_eq (js : List Json) : sortedItems js = js.map sorted := by
  induction js with
  | nil => rfl
  | cons j js ih => rw [sortedItems, ih, List.map_cons]

theorem sortedMembers_eq (ms : List (Str × Json)) :
    sortedMembers ms = ms.map fun m => (m.1, m.2.sorted) := by
  induction ms with
  | nil => rfl
  | cons m ms ih => rw [sortedMembers, ih, List.map_cons]

/-- Where each name is there once, a lookup does not depend on the order. -/
theorem lookup_perm {α : Type} {k : Str} {ms ns : List (Str × α)} (h : ms.Perm ns)
    (hms : (ms.map Prod.fst).Nodup) : ms.lookup k = ns.lookup k := by
  induction h with
  | nil => rfl
  | cons m _ ih =>
      obtain ⟨k', v⟩ := m
      rw [List.lookup_cons, List.lookup_cons, ih (List.nodup_cons.mp hms).2]
  | swap m n l =>
      obtain ⟨k₁, v₁⟩ := m
      obtain ⟨k₂, v₂⟩ := n
      have hne : k₂ ≠ k₁ := by
        intro heq
        exact (List.nodup_cons.mp hms).1 (heq ▸ List.mem_cons_self)
      simp only [List.lookup_cons]
      split
      · rename_i h₂
        split
        · rename_i h₁
          exact absurd ((eq_of_beq h₂).symm.trans (eq_of_beq h₁)) hne
        · rfl
      · rfl
  | trans h _ ih ih' => exact (ih hms).trans (ih' ((h.map Prod.fst).nodup_iff.mp hms))

/-- A member of an object is found under its name when the object is kept in order. -/
theorem get_sorted {ms : List (Str × Json)} (h : (ms.map Prod.fst).Nodup) (k : Str) :
    (Json.obj ms).sorted.get k = (ms.lookup k).map sorted := by
  have hnames : ((sortedMembers ms).map Prod.fst).Nodup := by
    rw [sortedMembers_eq, List.map_map]
    exact h
  rw [sorted, get, ← lookup_perm (List.perm_insertionSort _ _).symm hnames, sortedMembers_eq]
  induction ms with
  | nil => rfl
  | cons m ms ih =>
      obtain ⟨k', v⟩ := m
      have h' := (List.nodup_cons.mp h).2
      have hnames' : ((sortedMembers ms).map Prod.fst).Nodup := by
        rw [sortedMembers_eq, List.map_map]
        exact h'
      simp only [List.map_cons, List.lookup_cons, ih h' hnames']
      cases k == k' <;> rfl

/-! ### Strings -/

/-- What an escape by one letter stands for. -/
def ofLetter : Char → Option Char
  | '"' => some '"'
  | '\\' => some '\\'
  | 'b' => some '\x08'
  | 't' => some '\t'
  | 'n' => some '\n'
  | 'f' => some '\x0c'
  | 'r' => some '\r'
  | _ => none

/-- A character stands for itself, or is escaped by one letter, or by its hex digits. -/
theorem escape_cases (c : Char) :
    (escape c = [c] ∧ c ≠ '"' ∧ c ≠ '\\') ∨ (∃ e, escape c = ['\\', e] ∧ ofLetter e = some c) ∨
      (escape c = ['\\', 'u', '0', '0', hexDigit (c.toNat / 16), hexDigit (c.toNat % 16)] ∧
        c.toNat < 32) := by
  unfold escape
  split_ifs with h₁ h₂ h₃ h₄ h₅ h₆ h₇ h₈
  · exact Or.inr (Or.inl ⟨'"', rfl, by rw [h₁]; rfl⟩)
  · exact Or.inr (Or.inl ⟨'\\', rfl, by rw [h₂]; rfl⟩)
  · exact Or.inr (Or.inl ⟨'b', rfl, by rw [h₃]; rfl⟩)
  · exact Or.inr (Or.inl ⟨'t', rfl, by rw [h₄]; rfl⟩)
  · exact Or.inr (Or.inl ⟨'n', rfl, by rw [h₅]; rfl⟩)
  · exact Or.inr (Or.inl ⟨'f', rfl, by rw [h₆]; rfl⟩)
  · exact Or.inr (Or.inl ⟨'r', rfl, by rw [h₇]; rfl⟩)
  · exact Or.inr (Or.inr ⟨rfl, h₈⟩)
  · exact Or.inl ⟨rfl, h₁, h₂⟩

theorem hexDigit_inj {n m : ℕ} (hn : n < 16) (hm : m < 16) (h : hexDigit n = hexDigit m) :
    n = m := by
  have hall : ∀ n < 16, ∀ m < 16, hexDigit n = hexDigit m → n = m := by decide
  exact hall n hn m hm h

/-- Escaped characters are told apart by how they begin. -/
theorem escape_append_inj {c c' : Char} {t t' : Str} (h : escape c ++ t = escape c' ++ t') :
    c = c' ∧ t = t' := by
  rcases escape_cases c with ⟨hc, -, hslash⟩ | ⟨e, hc, he⟩ | ⟨hc, hlt⟩ <;>
    rcases escape_cases c' with ⟨hc', -, hslash'⟩ | ⟨e', hc', he'⟩ | ⟨hc', hlt'⟩ <;>
      rw [hc, hc'] at h
  · exact ⟨(List.cons.inj h).1, (List.cons.inj h).2⟩
  · exact absurd (List.cons.inj h).1 hslash
  · exact absurd (List.cons.inj h).1 hslash
  · exact absurd (List.cons.inj h).1.symm hslash'
  · obtain ⟨heq, ht⟩ := List.cons.inj (List.cons.inj h).2
    rw [heq, he'] at he
    exact ⟨(Option.some.inj he).symm, ht⟩
  · rw [(List.cons.inj (List.cons.inj h).2).1] at he
    cases he
  · exact absurd (List.cons.inj h).1.symm hslash'
  · rw [← (List.cons.inj (List.cons.inj h).2).1] at he'
    cases he'
  · simp only [List.cons_append, List.nil_append, List.cons.injEq, true_and] at h
    obtain ⟨hhi, hlo, ht⟩ := h
    have hhi := hexDigit_inj (by omega) (by omega) hhi
    have hlo := hexDigit_inj (by omega) (by omega) hlo
    have hnat : c.toNat = c'.toNat := by omega
    exact ⟨Char.toNat_inj.mp hnat, ht⟩

/-- No character is escaped as a quote, which ends the string. -/
theorem escape_ne_quote {c : Char} {t t' : Str} : escape c ++ t ≠ '"' :: t' := by
  intro h
  rcases escape_cases c with ⟨hc, hquote, -⟩ | ⟨e, hc, -⟩ | ⟨hc, -⟩ <;> rw [hc] at h
  · exact hquote (List.cons.inj h).1
  · cases h
  · cases h

theorem quote_append_inj {s s' t t' : Str} (h : quote s ++ t = quote s' ++ t') :
    s = s' ∧ t = t' := by
  have hbody : ∀ s s' : Str, s.flatMap escape ++ '"' :: t = s'.flatMap escape ++ '"' :: t' →
      s = s' ∧ t = t' := by
    intro s
    induction s with
    | nil =>
        intro s' h
        cases s' with
        | nil => exact ⟨rfl, (List.cons.inj h).2⟩
        | cons c s' =>
            rw [List.flatMap_cons, List.append_assoc] at h
            exact absurd h.symm escape_ne_quote
    | cons c s ih =>
        intro s' h
        cases s' with
        | nil =>
            rw [List.flatMap_cons, List.append_assoc] at h
            exact absurd h escape_ne_quote
        | cons c' s' =>
            rw [List.flatMap_cons, List.flatMap_cons, List.append_assoc, List.append_assoc] at h
            obtain ⟨rfl, hrest⟩ := escape_append_inj h
            obtain ⟨rfl, ht⟩ := ih s' hrest
            exact ⟨rfl, ht⟩
  refine hbody s s' ?_
  simpa [quote] using h

/-! ### Numbers -/

/-- A text that does not go on with a digit. -/
def NoDigit (t : Str) : Prop := ∀ c ∈ t.head?, c.isDigit = false

theorem noDigit_cons {c : Char} {t : Str} (h : c.isDigit = false) : NoDigit (c :: t) := by
  intro c' hc'
  cases hc'
  exact h

theorem takeWhile_isDigit {ds t : Str} (hds : ∀ c ∈ ds, c.isDigit = true) (ht : NoDigit t) :
    (ds ++ t).takeWhile Char.isDigit = ds := by
  induction ds with
  | nil =>
      cases t with
      | nil => rfl
      | cons c t => rw [List.nil_append, List.takeWhile_cons, ht c rfl, if_neg Bool.false_ne_true]
  | cons c ds ih =>
      rw [List.cons_append, List.takeWhile_cons, hds c List.mem_cons_self, if_pos rfl,
        ih fun c hc => hds c (List.mem_cons_of_mem _ hc)]

theorem digits_append_inj {n m : ℕ} {t t' : Str} (ht : NoDigit t) (ht' : NoDigit t')
    (h : Nat.toDigits 10 n ++ t = Nat.toDigits 10 m ++ t') : n = m ∧ t = t' := by
  have hdigit : ∀ n, ∀ c ∈ Nat.toDigits 10 n, c.isDigit = true := fun n c hc =>
    Nat.isDigit_of_mem_toDigits (by decide) (by decide) hc
  have hds := congrArg (List.takeWhile Char.isDigit) h
  rw [takeWhile_isDigit (hdigit n) ht, takeWhile_isDigit (hdigit m) ht'] at hds
  have hn : n = m := by
    have := congrArg (fun ds => Nat.ofDigitChars 10 ds 0) hds
    simpa only [Nat.ofDigitChars_ten_toDigits] using this
  rw [hds] at h
  exact ⟨hn, List.append_cancel_left h⟩

/-! ### Values -/

mutual

/-- No number of the value is given by its text. -/
def Plain : Json → Prop
  | .num _ => False
  | .arr items => PlainItems items
  | .obj members => PlainMembers members
  | _ => True

/-- All items are plain. -/
def PlainItems : List Json → Prop
  | [] => True
  | j :: js => Plain j ∧ PlainItems js

/-- The values of all members are plain. -/
def PlainMembers : List (Str × Json) → Prop
  | [] => True
  | (_, j) :: ms => Plain j ∧ PlainMembers ms

end

theorem plainItems_iff {js : List Json} : PlainItems js ↔ ∀ j ∈ js, j.Plain := by
  induction js with
  | nil => simp [PlainItems]
  | cons j js ih => simp [PlainItems, ih]

theorem plainMembers_iff {ms : List (Str × Json)} : PlainMembers ms ↔ ∀ m ∈ ms, m.2.Plain := by
  induction ms with
  | nil => simp [PlainMembers]
  | cons m ms ih =>
      obtain ⟨k, j⟩ := m
      simp [PlainMembers, ih]

/-- The kind of value whose text begins with a character. -/
def kindOf (c : Char) : ℕ :=
  if c = 'n' then 0 else if c = 't' then 1 else if c = 'f' then 2 else if c = '"' then 4
  else if c = '[' then 5 else if c = Char.ofNat 0x7b then 6 else if c.isDigit then 3 else 7

/-- What tells the kinds of values apart. -/
def kind : Json → ℕ
  | .null => 0
  | .bool b => if b then 1 else 2
  | .nat _ => 3
  | .num _ => 7
  | .str _ => 4
  | .arr _ => 5
  | .obj _ => 6

theorem kind_of_render {v : Json} {t : Str} (hv : v.Plain) :
    ∃ c rest, v.render ++ t = c :: rest ∧ kindOf c = v.kind ∧ kindOf c < 7 := by
  cases v with
  | num text => exact hv.elim
  | null => exact ⟨'n', _, rfl, rfl, by decide⟩
  | bool b =>
      cases b with
      | true => exact ⟨'t', _, rfl, rfl, by decide⟩
      | false => exact ⟨'f', _, rfl, rfl, by decide⟩
  | nat n =>
      have hdigit : ∀ c ∈ Nat.toDigits 10 n, c.isDigit = true := fun c hc =>
        Nat.isDigit_of_mem_toDigits (by decide) (by decide) hc
      cases hds : Nat.toDigits 10 n with
      | nil => exact absurd hds Nat.toDigits_ne_nil
      | cons d ds =>
          have hd := hdigit d (hds ▸ List.mem_cons_self)
          have hkind : kindOf d = 3 := by
            have hne : ∀ c : Char, c.isDigit = false → d ≠ c := by
              rintro c hc rfl
              rw [hc] at hd
              cases hd
            rw [kindOf, if_neg (hne _ (by decide)), if_neg (hne _ (by decide)),
              if_neg (hne _ (by decide)), if_neg (hne _ (by decide)), if_neg (hne _ (by decide)),
              if_neg (hne _ (by decide)), if_pos hd]
          refine ⟨d, ds ++ t, ?_, hkind, by omega⟩
          rw [render, hds, List.cons_append]
  | str s => exact ⟨'"', _, rfl, rfl, by decide⟩
  | arr items => exact ⟨'[', _, rfl, rfl, by decide⟩
  | obj members => exact ⟨Char.ofNat 0x7b, _, rfl, rfl, by decide⟩

/-- What follows the first item of an array. -/
def itemsTail : List Json → Str
  | [] => []
  | j :: js => ',' :: (render j ++ itemsTail js)

/-- What follows the first member of an object. -/
def membersTail : List (Str × Json) → Str
  | [] => []
  | (k, j) :: ms => ',' :: (quote k ++ ':' :: (render j ++ membersTail ms))

theorem renderItems_cons (j : Json) (js : List Json) :
    renderItems (j :: js) = render j ++ itemsTail js := by
  induction js generalizing j with
  | nil => rw [renderItems, itemsTail, List.append_nil]
  | cons k js ih =>
      rw [renderItems, ih, itemsTail]
      exact nofun

theorem renderMembers_cons (k : Str) (j : Json) (ms : List (Str × Json)) :
    renderMembers ((k, j) :: ms) = quote k ++ ':' :: (render j ++ membersTail ms) := by
  induction ms generalizing k j with
  | nil => rw [renderMembers, membersTail, List.append_nil]
  | cons m ms ih =>
      obtain ⟨k', j'⟩ := m
      rw [renderMembers, ih, membersTail]
      exact nofun

theorem noDigit_itemsTail (js : List Json) (t : Str) : NoDigit (itemsTail js ++ ']' :: t) := by
  cases js with
  | nil => exact noDigit_cons (by decide)
  | cons j js => exact noDigit_cons (by decide)

theorem noDigit_membersTail (ms : List (Str × Json)) (t : Str) :
    NoDigit (membersTail ms ++ Char.ofNat 0x7d :: t) := by
  cases ms with
  | nil => exact noDigit_cons (by decide)
  | cons m ms => exact noDigit_cons (by decide)

theorem kind_eq_of_render {v w : Json} {t t' : Str} (hv : v.Plain) (hw : w.Plain)
    (h : v.render ++ t = w.render ++ t') : v.kind = w.kind := by
  obtain ⟨c, rest, hc, hcv, -⟩ := kind_of_render (t := t) hv
  obtain ⟨c', rest', hc', hcw, -⟩ := kind_of_render (t := t') hw
  rw [hc, hc'] at h
  rw [← hcv, ← hcw, (List.cons.inj h).1]

/-- The text of a value does not begin with the bracket that closes an array. -/
theorem render_ne_close {v : Json} (hv : v.Plain) {t t' : Str} : v.render ++ t ≠ ']' :: t' := by
  intro h
  obtain ⟨c, rest, hc, -, hkind⟩ := kind_of_render (t := t) hv
  rw [hc] at h
  rw [(List.cons.inj h).1] at hkind
  exact absurd hkind (by decide)

mutual

/-- A value is read from the beginning of a text in one way, unless digits follow it. -/
theorem render_append_inj : ∀ (v w : Json) {t t' : Str}, v.Plain → w.Plain → NoDigit t →
    NoDigit t' → v.render ++ t = w.render ++ t' → v = w ∧ t = t'
  | .null, w, t, t', hv, hw, _, _, h => by
      have hkind := kind_eq_of_render hv hw h
      cases w with
      | null => exact ⟨rfl, List.append_cancel_left h⟩
      | bool b => cases b <;> cases hkind
      | _ => cases hkind
  | .bool b, w, t, t', hv, hw, _, _, h => by
      have hkind := kind_eq_of_render hv hw h
      cases w with
      | bool b' =>
          cases b <;> cases b' <;>
            first
            | exact ⟨rfl, List.append_cancel_left h⟩
            | cases hkind
      | _ => cases b <;> cases hkind
  | .nat n, w, t, t', hv, hw, ht, ht', h => by
      have hkind := kind_eq_of_render hv hw h
      cases w with
      | nat m =>
          obtain ⟨rfl, ht⟩ := digits_append_inj ht ht' h
          exact ⟨rfl, ht⟩
      | bool b => cases b <;> cases hkind
      | _ => cases hkind
  | .num _, _, _, _, hv, _, _, _, _ => hv.elim
  | .str s, w, t, t', hv, hw, _, _, h => by
      have hkind := kind_eq_of_render hv hw h
      cases w with
      | str s' =>
          obtain ⟨rfl, ht⟩ := quote_append_inj h
          exact ⟨rfl, ht⟩
      | bool b => cases b <;> cases hkind
      | _ => cases hkind
  | .arr js, w, t, t', hv, hw, _, _, h => by
      have hkind := kind_eq_of_render hv hw h
      cases w with
      | arr ks =>
          simp only [render, List.cons_append, List.append_assoc, List.nil_append, List.cons.injEq,
            true_and] at h
          obtain ⟨rfl, ht⟩ := renderItems_append_inj js ks hv hw h
          exact ⟨rfl, ht⟩
      | bool b => cases b <;> cases hkind
      | _ => cases hkind
  | .obj ms, w, t, t', hv, hw, _, _, h => by
      have hkind := kind_eq_of_render hv hw h
      cases w with
      | obj ns =>
          simp only [render, List.cons_append, List.append_assoc, List.nil_append, List.cons.injEq,
            true_and] at h
          obtain ⟨rfl, ht⟩ := renderMembers_append_inj ms ns hv hw h
          exact ⟨rfl, ht⟩
      | bool b => cases b <;> cases hkind
      | _ => cases hkind

theorem renderItems_append_inj : ∀ (js ks : List Json) {t t' : Str}, PlainItems js →
    PlainItems ks → renderItems js ++ ']' :: t = renderItems ks ++ ']' :: t' → js = ks ∧ t = t'
  | [], [], _, _, _, _, h => ⟨rfl, (List.cons.inj h).2⟩
  | [], k :: ks, _, _, _, hks, h => by
      rw [renderItems_cons, List.append_assoc] at h
      exact absurd h.symm (render_ne_close hks.1)
  | j :: js, [], _, _, hjs, _, h => by
      rw [renderItems_cons, List.append_assoc] at h
      exact absurd h (render_ne_close hjs.1)
  | j :: js, k :: ks, t, t', hjs, hks, h => by
      rw [renderItems_cons, renderItems_cons, List.append_assoc, List.append_assoc] at h
      obtain ⟨rfl, hrest⟩ := render_append_inj j k hjs.1 hks.1 (noDigit_itemsTail js t)
        (noDigit_itemsTail ks t') h
      obtain ⟨rfl, ht⟩ := itemsTail_append_inj js ks hjs.2 hks.2 hrest
      exact ⟨rfl, ht⟩

theorem itemsTail_append_inj : ∀ (js ks : List Json) {t t' : Str}, PlainItems js →
    PlainItems ks → itemsTail js ++ ']' :: t = itemsTail ks ++ ']' :: t' → js = ks ∧ t = t'
  | [], [], _, _, _, _, h => ⟨rfl, (List.cons.inj h).2⟩
  | [], _ :: _, _, _, _, _, h => absurd (List.cons.inj h).1 (by decide)
  | _ :: _, [], _, _, _, _, h => absurd (List.cons.inj h).1 (by decide)
  | j :: js, k :: ks, t, t', hjs, hks, h => by
      simp only [itemsTail, List.cons_append, List.append_assoc, List.cons.injEq, true_and] at h
      obtain ⟨rfl, hrest⟩ := render_append_inj j k hjs.1 hks.1 (noDigit_itemsTail js t)
        (noDigit_itemsTail ks t') h
      obtain ⟨rfl, ht⟩ := itemsTail_append_inj js ks hjs.2 hks.2 hrest
      exact ⟨rfl, ht⟩

theorem renderMembers_append_inj : ∀ (ms ns : List (Str × Json)) {t t' : Str}, PlainMembers ms →
    PlainMembers ns →
    renderMembers ms ++ Char.ofNat 0x7d :: t = renderMembers ns ++ Char.ofNat 0x7d :: t' →
      ms = ns ∧ t = t'
  | [], [], _, _, _, _, h => ⟨rfl, (List.cons.inj h).2⟩
  | [], (k, j) :: ns, _, _, _, _, h => by
      rw [renderMembers_cons] at h
      exact absurd (List.cons.inj h).1 (by decide)
  | (k, j) :: ms, [], _, _, _, _, h => by
      rw [renderMembers_cons] at h
      exact absurd (List.cons.inj h).1 (by decide)
  | (k, j) :: ms, (k', j') :: ns, t, t', hms, hns, h => by
      simp only [renderMembers_cons, List.append_assoc, List.cons_append] at h
      obtain ⟨rfl, hvalue⟩ := quote_append_inj h
      obtain ⟨rfl, hrest⟩ := render_append_inj j j' hms.1 hns.1 (noDigit_membersTail ms t)
        (noDigit_membersTail ns t') (List.cons.inj hvalue).2
      obtain ⟨rfl, ht⟩ := membersTail_append_inj ms ns hms.2 hns.2 hrest
      exact ⟨rfl, ht⟩

theorem membersTail_append_inj : ∀ (ms ns : List (Str × Json)) {t t' : Str}, PlainMembers ms →
    PlainMembers ns →
    membersTail ms ++ Char.ofNat 0x7d :: t = membersTail ns ++ Char.ofNat 0x7d :: t' →
      ms = ns ∧ t = t'
  | [], [], _, _, _, _, h => ⟨rfl, (List.cons.inj h).2⟩
  | [], _ :: _, _, _, _, _, h => absurd (List.cons.inj h).1 (by decide)
  | _ :: _, [], _, _, _, _, h => absurd (List.cons.inj h).1 (by decide)
  | (k, j) :: ms, (k', j') :: ns, t, t', hms, hns, h => by
      simp only [membersTail, List.cons_append, List.append_assoc, List.cons.injEq, true_and] at h
      obtain ⟨rfl, hvalue⟩ := quote_append_inj h
      obtain ⟨rfl, hrest⟩ := render_append_inj j j' hms.1 hns.1 (noDigit_membersTail ms t)
        (noDigit_membersTail ns t') (List.cons.inj hvalue).2
      obtain ⟨rfl, ht⟩ := membersTail_append_inj ms ns hms.2 hns.2 hrest
      exact ⟨rfl, ht⟩

end

/-- **The text of a value says all of it.** -/
theorem render_inj {v w : Json} (hv : v.Plain) (hw : w.Plain) (h : v.render = w.render) : v = w := by
  have hnil : NoDigit [] := fun c hc => nomatch hc
  exact (render_append_inj v w hv hw hnil hnil (by rw [h])).1

end Ocid.Json
