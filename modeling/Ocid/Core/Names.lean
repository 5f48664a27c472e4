import Ocid.Core.Identity

/-!
# Core — Names — image names, tags, and cutting a reference

`validateName` and `validateTag` bound every name and tag a release or a reference may carry.  A
name is one or more components between slashes, of lower-case letters, digits, `.`, `_` and `-`,
each starting with a letter or digit; so a name has no `:` and no white space, and neither starts
nor ends with a slash.  `splitTag` cuts `name[:tag]` at the last `:` after the last `/`;
`stripRegistryLocation` removes a pasted scheme and `host:port/`.
-/

namespace Ocid

/-- `char::is_ascii_alphanumeric`. -/
def isAsciiAlphanumeric (c : Char) : Bool :=
  ('0' ≤ c && c ≤ '9') || ('a' ≤ c && c ≤ 'z') || ('A' ≤ c && c ≤ 'Z')

/-- A character of a name component. -/
def isNameChar (c : Char) : Bool :=
  ('a' ≤ c && c ≤ 'z') || ('0' ≤ c && c ≤ '9') || c == '.' || c == '_' || c == '-'

/-- A character of a tag. -/
def isTagChar (c : Char) : Bool := isAsciiAlphanumeric c || c == '.' || c == '_' || c == '-'

/-- One component of an image name. -/
def nameComponentOk (comp : Str) : Bool :=
  !comp.isEmpty && comp.all isNameChar && comp.head?.any isAsciiAlphanumeric &&
    comp != ("." : Str) && comp != (".." : Str)

/-- Validate an OCI repository name component path (`a/b/c`). -/
def validateName (name : Str) : Except Err Unit :=
  if name.isEmpty || 255 < name.len then .error ["invalid image name " ++ name.debug]
  else match (name.split '/').find? fun comp => !nameComponentOk comp with
    | some comp => .error ["invalid image name component " ++ comp.debug ++ " in " ++ name.debug]
    | none => .ok ()

/-- A tag has 1 to 128 of these characters, and starts with a letter, a digit or a `_`. -/
def validateTag (tag : Str) : Except Err Unit :=
  if !tag.isEmpty && tag.len ≤ 128 && tag.all isTagChar &&
      tag.head?.any (fun c => isAsciiAlphanumeric c || c == '_') then .ok ()
  else .error ["invalid tag " ++ tag.debug]

/-- Strip a pasted registry location off the front of a reference: an optional scheme and a
leading segment that carries a port, is an IP literal, or is `localhost`. -/
def stripRegistryLocation (s : Str) : Str :=
  let s := Str.trim s
  let s := (("https://" : Str).isPrefixOf? s <|> ("http://" : Str).isPrefixOf? s).getD s
  match Str.splitOnce '/' s with
  | none => s
  | some (first, rest) =>
      if rest = [] then s
      else if isLocation first then rest
      else s
where
  isLocation (first : Str) : Bool :=
    first.contains ':' || first == ("localhost" : Str) ||
      (first.all (fun c => ('0' ≤ c && c ≤ '9') || c == '.') && first.contains '.')

/-- The name and the tag of `name[:tag]`, cut at the last ':' after the last '/'. -/
def cutTag (s : Str) : Str × Option Str :=
  let lastSlash := ((Str.rfind '/' s).map (· + 1)).getD 0
  match Str.rfind ':' (s.drop lastSlash) with
  | some i => (s.take (lastSlash + i), some (s.drop (lastSlash + i + 1)))
  | none => (s, none)

/-- A tag is cut off behind the last slash. -/
theorem cutTag_slash (a b : Str) :
    cutTag (a ++ '/' :: b) = (a ++ '/' :: (cutTag b).1, (cutTag b).2) := by
  have hlast : ((Str.rfind '/' (a ++ '/' :: b)).map (· + 1)).getD 0 =
      a.length + 1 + ((Str.rfind '/' b).map (· + 1)).getD 0 := by
    rw [Str.rfind_append_cons]
    cases Str.rfind '/' b with
    | none => rfl
    | some i => rfl
  simp only [cutTag, hlast]
  generalize ((Str.rfind '/' b).map (· + 1)).getD 0 = k
  have hdrop : ∀ j, (a ++ '/' :: b).drop (a.length + 1 + j) = b.drop j := fun j => by
    rw [Nat.add_assoc, ← List.drop_drop, List.drop_left, Nat.add_comm, List.drop_succ_cons]
  have htake : ∀ j, (a ++ '/' :: b).take (a.length + 1 + j) = a ++ '/' :: b.take j := fun j => by
    rw [Nat.add_assoc, List.take_length_add_append, Nat.add_comm, List.take_succ_cons]
  rw [hdrop]
  cases Str.rfind ':' (b.drop k) with
  | none => rfl
  | some i =>
      simp only [Nat.add_assoc (a.length + 1), hdrop, htake]

/-- Split `name[:tag]`, validating both parts. -/
def splitTag (s : Str) : Except Err (Str × Option Str) := do
  validateName (cutTag s).1
  match (cutTag s).2 with
  | some t => validateTag t
  | none => pure ()
  pure (cutTag s)

/-! ### What a valid name and a valid tag are made of -/

/-- Every component is one of a name; only the length is left open. -/
def NameOk (n : Str) : Prop := ∀ comp ∈ Str.split '/' n, nameComponentOk comp = true

theorem nameComponentOk_iff {comp : Str} : nameComponentOk comp = true ↔
    comp ≠ [] ∧ (∀ c ∈ comp, isNameChar c = true) ∧ comp.head?.any isAsciiAlphanumeric = true ∧
      comp ≠ ("." : Str) ∧ comp ≠ (".." : Str) := by
  simp only [nameComponentOk, Bool.and_eq_true, Bool.not_eq_true', List.isEmpty_eq_false_iff,
    List.all_eq_true, bne_iff_ne, and_assoc]

theorem NameOk.ne_nil {n : Str} (h : NameOk n) : n ≠ [] := by
  rintro rfl
  exact (nameComponentOk_iff.mp (h [] List.mem_cons_self)).1 rfl

theorem validateName_eq_ok {n : Str} : validateName n = .ok () ↔ NameOk n ∧ Str.len n ≤ 255 := by
  simp only [validateName, Bool.or_eq_true, List.isEmpty_iff, decide_eq_true_eq]
  split
  · rename_i h
    refine ⟨fun h' => (by cases h'), fun ⟨hok, hlen⟩ => ?_⟩
    exact absurd h (not_or.mpr ⟨hok.ne_nil, Nat.not_lt.mpr hlen⟩)
  · rename_i h
    obtain ⟨hne, hlen⟩ := not_or.mp h
    split
    · rename_i comp hfind
      have hbad := List.find?_some hfind
      refine ⟨fun h' => (by cases h'), fun ⟨hok, _⟩ => ?_⟩
      rw [hok comp (List.mem_of_find?_eq_some hfind)] at hbad
      cases hbad
    · rename_i hfind
      refine ⟨fun _ => ⟨fun comp hc => ?_, Nat.not_lt.mp hlen⟩, fun _ => rfl⟩
      simpa using List.find?_eq_none.mp hfind comp hc

/-- A name of two parts. -/
theorem nameOk_append {a b : Str} (ha : '/' ∉ a) :
    NameOk (a ++ '/' :: b) ↔ nameComponentOk a = true ∧ NameOk b := by
  rw [NameOk, Str.split_append ha]
  exact List.forall_mem_cons

theorem range_of_isTagChar {c : Char} (h : isTagChar c = true) :
    (48 ≤ c.toNat ∧ c.toNat ≤ 57) ∨ (97 ≤ c.toNat ∧ c.toNat ≤ 122) ∨
      (65 ≤ c.toNat ∧ c.toNat ≤ 90) ∨ c.toNat = 46 ∨ c.toNat = 95 ∨ c.toNat = 45 := by
  simp only [isTagChar, isAsciiAlphanumeric, Bool.or_eq_true, Bool.and_eq_true, decide_eq_true_eq,
    beq_iff_eq, Char.le_def, UInt32.le_iff_toNat_le] at h
  rcases h with ((((h | h) | h) | rfl) | rfl) | rfl
  · exact Or.inl h
  · exact Or.inr (Or.inl h)
  · exact Or.inr (Or.inr (Or.inl h))
  · decide
  · decide
  · decide

/-- A tag character is no separator and no white space. -/
theorem of_isTagChar {c : Char} (h : isTagChar c = true) :
    c ≠ ':' ∧ c ≠ '/' ∧ Str.isWhitespace c = false := by
  have hr := range_of_isTagChar h
  refine ⟨?_, ?_, ?_⟩
  · rintro rfl
    revert hr
    decide
  · rintro rfl
    revert hr
    decide
  · have hne : ∀ n : ℕ, n < 33 ∨ 126 < n → (c.toNat == n) = false := fun n hn => by
      rw [beq_eq_false_iff_ne]
      omega
    simp only [Str.isWhitespace, Bool.or_eq_false_iff, Bool.and_eq_false_iff,
      decide_eq_false_iff_not]
    refine ⟨⟨⟨⟨⟨⟨⟨⟨⟨⟨?_, ?_⟩, ?_⟩, ?_⟩, ?_⟩, ?_⟩, ?_⟩, ?_⟩, ?_⟩, ?_⟩, ?_⟩
    all_goals first | (apply hne; omega) | omega

theorem isTagChar_of_isNameChar {c : Char} (h : isNameChar c = true) : isTagChar c = true := by
  simp only [isNameChar, isTagChar, isAsciiAlphanumeric, Bool.or_eq_true] at h ⊢
  tauto

theorem isNameChar_of_isLowerHex {c : Char} (h : isLowerHex c = true) : isNameChar c = true := by
  simp only [isLowerHex, isNameChar, Bool.or_eq_true, Bool.and_eq_true, decide_eq_true_eq,
    beq_iff_eq] at h ⊢
  have hz : 'f' ≤ 'z' := by decide
  rcases h with h | h
  · exact Or.inl (Or.inl (Or.inl (Or.inr h)))
  · exact Or.inl (Or.inl (Or.inl (Or.inl ⟨h.1, Char.le_trans h.2 hz⟩)))

/-- The characters of a name. -/
theorem NameOk.of_mem {n : Str} (h : NameOk n) {c : Char} (hc : c ∈ n) :
    c ≠ ':' ∧ Str.isWhitespace c = false := by
  by_cases hs : c = '/'
  · subst hs
    decide
  · obtain ⟨comp, hcomp, hmem⟩ := Str.exists_mem_split hc hs
    have hname := (nameComponentOk_iff.mp (h comp hcomp)).2.1 c hmem
    have := of_isTagChar (isTagChar_of_isNameChar hname)
    exact ⟨this.1, this.2.2⟩

/-- A name neither starts nor ends with a slash. -/
theorem NameOk.ends {n : Str} (h : NameOk n) :
    (∀ c ∈ n.head?, c ≠ '/') ∧ ∀ c ∈ n.getLast?, c ≠ '/' := by
  have hempty : ([] : Str) ∉ Str.split '/' n := fun hmem => (nameComponentOk_iff.mp (h [] hmem)).1 rfl
  constructor
  · rintro c hc rfl
    cases n with
    | nil => cases hc
    | cons d n =>
        cases hc
        exact hempty (by simp [Str.split])
  · rintro c hc rfl
    obtain ⟨m, rfl⟩ := List.getLast?_eq_some_iff.mp hc
    rw [Str.split_concat] at hempty
    exact hempty (List.mem_append_right _ List.mem_cons_self)

/-- What a valid tag is made of. -/
theorem validateTag_ok {tag : Str} (h : validateTag tag = .ok ()) :
    tag ≠ [] ∧ tag.head? ≠ some '.' ∧ ∀ ch ∈ tag, isTagChar ch = true := by
  unfold validateTag at h
  split at h
  · rename_i hok
    simp only [Bool.and_eq_true, Bool.not_eq_true', List.isEmpty_eq_false_iff, List.all_eq_true]
      at hok
    refine ⟨hok.1.1.1, fun hdot => ?_, hok.1.2⟩
    have hfirst := hok.2
    rw [hdot] at hfirst
    exact absurd hfirst (by decide)
  · cases h

theorem of_mem_tag {t : Str} (h : validateTag t = .ok ()) {c : Char} (hc : c ∈ t) :
    c ≠ ':' ∧ c ≠ '/' ∧ Str.isWhitespace c = false :=
  of_isTagChar ((validateTag_ok h).2.2 c hc)

end Ocid
