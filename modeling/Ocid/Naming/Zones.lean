import Ocid.Naming.Signed

/-!
# Naming — Zones — the zones that are accepted, and their spellings

The documented grammar of a zone (`IsZone`): two labels or more with dots between them, 253 bytes in
all, each label of 1 to 63 lower-case letters, digits and dashes, with no dash at either end, and
not of digits only.  `isDomainName` asks the same of the text, but of letters of either case: it
accepts a text exactly when its lower-case form is a zone (`isDomainName_iff_isZone_lower`).

DNS does not tell the two spellings apart, and the pins do.
-/

namespace Ocid

/-! ### The grammar -/

/-- A character of a label. -/
def ZoneChar (c : Char) : Prop := ('a' ≤ c ∧ c ≤ 'z') ∨ ('0' ≤ c ∧ c ≤ '9') ∨ c = '-'

/-- A label of a zone. -/
structure ZoneLabel (label : Str) : Prop where
  nonempty : 1 ≤ label.length
  short : label.length ≤ 63
  chars : ∀ c ∈ label, ZoneChar c
  first : label.head? ≠ some '-'
  last : label.getLast? ≠ some '-'
  notNumber : ∃ c ∈ label, ¬ ('0' ≤ c ∧ c ≤ '9')

/-- A zone: its labels, with dots between them. -/
def IsZone (s : Str) : Prop :=
  Str.len s ≤ 253 ∧ ∃ labels : List Str, 2 ≤ labels.length ∧ (∀ label ∈ labels, ZoneLabel label) ∧
    s = ['.'].intercalate labels

/-- The lower-case form of a text, as DNS compares names. -/
def lower (s : Str) : Str := s.map Char.toLower

/-- Two texts that are one DNS name. -/
def SameName (s t : Str) : Prop := lower s = lower t

/-! ### Lower case -/

/-- An upper-case letter becomes the small one, and nothing else changes. -/
theorem toLower_cases (c : Char) :
    (c.toLower = c ∧ ¬ ('A' ≤ c ∧ c ≤ 'Z')) ∨
      (('A' ≤ c ∧ c ≤ 'Z') ∧ c.toLower.toNat = c.toNat + 32) := by
  unfold Char.toLower
  split
  · rename_i h
    refine Or.inr ⟨h, ?_⟩
    have hn : c.val.toNat ≤ 90 := h.2
    show (c.val + 32).toNat = c.val.toNat + 32
    rw [UInt32.toNat_add]
    exact Nat.mod_eq_of_lt (by show c.val.toNat + 32 < 2 ^ 32; omega)
  · exact Or.inl ⟨rfl, ‹_›⟩

theorem toNat_le_iff {c d : Char} : c ≤ d ↔ c.toNat ≤ d.toNat := by
  rw [Char.le_def, UInt32.le_iff_toNat_le]
  rfl

/-- The letters, digits and the dash of either case are those whose small form is of a zone. -/
theorem zoneChar_toLower_iff (c : Char) :
    ZoneChar c.toLower ↔ (isAsciiAlphanumeric c || c == '-') = true := by
  simp only [ZoneChar, isAsciiAlphanumeric, Bool.or_eq_true, Bool.and_eq_true, decide_eq_true_eq,
    beq_iff_eq]
  rcases toLower_cases c with ⟨hsame, hupper⟩ | ⟨hupper, hto⟩
  · rw [hsame]
    tauto
  · have hsmall : 'a' ≤ c.toLower ∧ c.toLower ≤ 'z' := by
      simp only [toNat_le_iff] at hupper ⊢
      have h := hupper
      simp only [Char.reduceToNat] at h ⊢
      omega
    tauto

/-- What lies before the letters is itself, and nothing else becomes it. -/
theorem toLower_eq_iff {c d : Char} (hd : d.toNat < 65) : c.toLower = d ↔ c = d := by
  rcases toLower_cases c with ⟨hsame, -⟩ | ⟨hupper, hto⟩
  · rw [hsame]
  · have hle : 65 ≤ c.toNat := toNat_le_iff.mp hupper.1
    constructor
    · rintro rfl
      omega
    · rintro rfl
      omega

theorem digit_toLower_iff (c : Char) :
    ('0' ≤ c.toLower ∧ c.toLower ≤ '9') ↔ ('0' ≤ c ∧ c ≤ '9') := by
  rcases toLower_cases c with ⟨hsame, -⟩ | ⟨hupper, hto⟩
  · rw [hsame]
  · have hle : 65 ≤ c.toNat := toNat_le_iff.mp hupper.1
    have hnot : ∀ d : Char, 65 ≤ d.toNat → ¬ ('0' ≤ d ∧ d ≤ '9') := fun d hd h => by
      have h9 : d.toNat ≤ 57 := toNat_le_iff.mp h.2
      omega
    exact iff_of_false (hnot _ (by omega)) (hnot _ hle)

/-- An ASCII character is one byte. -/
theorem utf8Size_eq_one {c : Char} (h : c.toNat ≤ 127) : c.utf8Size = 1 :=
  Char.utf8Size_eq_one_iff.mpr (UInt32.le_iff_toNat_le.mpr h)

theorem utf8Size_toLower (c : Char) : c.toLower.utf8Size = c.utf8Size := by
  rcases toLower_cases c with ⟨hsame, -⟩ | ⟨hupper, hto⟩
  · rw [hsame]
  · have hle : c.toNat ≤ 90 := toNat_le_iff.mp hupper.2
    rw [utf8Size_eq_one (c := c.toLower) (by omega), utf8Size_eq_one (by omega)]

theorem len_lower (s : Str) : Str.len (lower s) = Str.len s := by
  rw [Str.len, Str.len, lower, List.map_map]
  exact congrArg List.sum (List.map_congr_left fun c _ => utf8Size_toLower c)

/-- The pieces of the lower-case form. -/
theorem split_lower (s : Str) : Str.split '.' (lower s) = (Str.split '.' s).map lower := by
  induction s with
  | nil => rfl
  | cons c s ih =>
      have hcons : lower (c :: s) = c.toLower :: lower s := rfl
      by_cases hc : c = '.'
      · rw [hcons, hc]
        simp [Str.split, ← ih, lower]
      · have hne : c.toLower ≠ '.' := mt (toLower_eq_iff (by decide)).mp hc
        rw [hcons, Str.split, if_neg hne, ih, Str.split, if_neg hc]
        cases Str.split '.' s with
        | nil => rfl
        | cons p ps => rfl

/-! ### The test and the grammar -/

theorem map_toLower_eq_dash {c : Option Char} : c.map Char.toLower = some '-' ↔ c = some '-' := by
  cases c with
  | none => exact iff_of_false nofun nofun
  | some c => simp only [Option.map_some, Option.some.injEq, toLower_eq_iff (d := '-') (by decide)]

/-- The characters of a label are one byte each. -/
theorem len_label {label : Str} (h : ∀ c ∈ label, ZoneChar c.toLower) :
    Str.len label = label.length := by
  have hone : ∀ c ∈ label, c.utf8Size = 1 := fun c hc => by
    have htag : isTagChar c = true := by
      have hok := (zoneChar_toLower_iff c).mp (h c hc)
      simp only [isTagChar, Bool.or_eq_true] at hok ⊢
      tauto
    have := range_of_isTagChar htag
    exact utf8Size_eq_one (by omega)
  exact Str.len_eq_length hone

/-- The test of a label, on its lower-case form. -/
theorem zoneLabelOk_iff (label : Str) : zoneLabelOk label = true ↔ ZoneLabel (lower label) := by
  have hchars : (∀ c ∈ lower label, ZoneChar c) ↔ ∀ c ∈ label, ZoneChar c.toLower :=
    List.forall_mem_map
  have hlength : (lower label).length = label.length := List.length_map _
  have hfirst : (lower label).head? = some '-' ↔ label.head? = some '-' := by
    rw [lower, List.head?_map, map_toLower_eq_dash]
  have hlast : (lower label).getLast? = some '-' ↔ label.getLast? = some '-' := by
    rw [lower, List.getLast?_map, map_toLower_eq_dash]
  have hnumber : (∃ c ∈ lower label, ¬ ('0' ≤ c ∧ c ≤ '9')) ↔
      ∃ c ∈ label, ¬ isAsciiDigit c = true := by
    simp only [lower, List.mem_map, exists_exists_and_eq_and, digit_toLower_iff, isAsciiDigit,
      Bool.and_eq_true, decide_eq_true_eq]
  simp only [zoneLabelOk, Bool.and_eq_true, Bool.not_eq_true', List.isEmpty_eq_false_iff,
    decide_eq_true_eq, List.all_eq_true, bne_iff_ne, List.all_eq_false, ← zoneChar_toLower_iff]
  constructor
  · rintro ⟨⟨⟨⟨⟨hne, hlen⟩, hok⟩, hhead⟩, hend⟩, hdigits⟩
    exact ⟨hlength ▸ List.length_pos_of_ne_nil hne, hlength ▸ len_label hok ▸ hlen,
      hchars.mpr hok, mt hfirst.mp hhead, mt hlast.mp hend, hnumber.mpr hdigits⟩
  · intro h
    have hok := hchars.mp h.chars
    exact ⟨⟨⟨⟨⟨List.ne_nil_of_length_pos (hlength ▸ h.nonempty),
      len_label hok ▸ hlength ▸ h.short⟩, hok⟩, mt hfirst.mpr h.first⟩,
      mt hlast.mpr h.last⟩, hnumber.mp h.notNumber⟩

/-- The labels of a zone are the pieces between its dots. -/
theorem isZone_iff_split (s : Str) : IsZone s ↔
    Str.len s ≤ 253 ∧ '.' ∈ s ∧ ∀ label ∈ Str.split '.' s, ZoneLabel label := by
  constructor
  · rintro ⟨hlen, labels, htwo, hlabels, rfl⟩
    have hdot : ∀ label ∈ labels, '.' ∉ label := fun label hl hmem =>
      absurd ((hlabels label hl).chars '.' hmem) (by unfold ZoneChar; decide)
    have hne : labels ≠ [] := List.ne_nil_of_length_pos (by omega)
    refine ⟨hlen, ?_, by rwa [Str.split_intercalate hne hdot]⟩
    match labels, htwo with
    | a :: b :: ls, _ =>
        rw [List.intercalate_cons_cons]
        simp
  · rintro ⟨hlen, hdot, hlabels⟩
    refine ⟨hlen, Str.split '.' s, ?_, hlabels, (Str.intercalate_split '.' s).symm⟩
    obtain ⟨a, b, rfl, ha⟩ := List.eq_append_cons_of_mem hdot
    rw [Str.split_append ha, List.length_cons]
    have := List.length_pos_of_ne_nil (Str.split_ne_nil '.' b)
    omega

/-- **A text is accepted exactly when its lower-case form is a zone.** -/
theorem isDomainName_iff_isZone_lower (s : Str) : isDomainName s = true ↔ IsZone (lower s) := by
  have hok : isDomainName s = true ↔
      Str.len s ≤ 253 ∧ '.' ∈ s ∧ ∀ label ∈ Str.split '.' s, zoneLabelOk label = true := by
    rw [isDomainName, validateZone]
    split
    · rename_i h
      simp only [Bool.and_eq_true, decide_eq_true_eq, List.contains_iff_mem, List.all_eq_true] at h
      exact iff_of_true rfl ⟨h.1.1, h.1.2, h.2⟩
    · rename_i h
      simp only [Bool.and_eq_true, decide_eq_true_eq, List.contains_iff_mem, List.all_eq_true] at h
      exact iff_of_false Bool.false_ne_true fun hs => h ⟨⟨hs.1, hs.2.1⟩, hs.2.2⟩
  have hdot : '.' ∈ lower s ↔ '.' ∈ s := by
    simp only [lower, List.mem_map, toLower_eq_iff (d := '.') (by decide), exists_eq_right]
  rw [hok, isZone_iff_split, len_lower, hdot, split_lower, List.forall_mem_map]
  simp only [zoneLabelOk_iff]

/-- A zone is in lower case. -/
theorem IsZone.lower_eq {s : Str} (h : IsZone s) : lower s = s := by
  obtain ⟨-, -, hlabels⟩ := (isZone_iff_split s).mp h
  have hfixed : ∀ c ∈ s, c.toLower = c := fun c hc => by
    rcases toLower_cases c with ⟨hsame, -⟩ | ⟨hupper, -⟩
    · exact hsame
    · have hdot : c ≠ '.' := by
        rintro rfl
        exact absurd hupper (by decide)
      obtain ⟨label, hl, hmem⟩ := Str.exists_mem_split hc hdot
      have hchar := (hlabels label hl).chars c hmem
      simp only [ZoneChar, toNat_le_iff, Char.reduceToNat] at hchar hupper
      rcases hchar with h | h | rfl
      · omega
      · omega
      · exact absurd hupper (by decide)
  exact List.map_congr_left hfixed |>.trans (List.map_id s)

/-! ### Spellings of a zone -/

/-- A text that is in lower case, or no zone in any case. -/
def PlainlySpelled (s : Str) : Prop := lower s = s ∨ ¬ IsZone (lower s)

theorem isDomainName_iff_isZone (s : Str) :
    (isDomainName s = true ↔ IsZone s) ↔ PlainlySpelled s := by
  rw [isDomainName_iff_isZone_lower]
  constructor
  · intro h
    by_cases hzone : IsZone (lower s)
    · exact Or.inl (h.mp hzone).lower_eq
    · exact Or.inr hzone
  · rintro (h | h)
    · rw [h]
    · exact iff_of_false h fun hs => h (hs.lower_eq.symm ▸ hs)

section
variable [External]

/-- **The test is the grammar's, and one DNS name is accepted in one spelling only, exactly of the
texts that are in lower case or no zone in any case.**  Where it is, a pin holds for its zone
however that is spelled. -/
theorem zones_spelled_once (s t : Str) :
    ((isDomainName s = true ↔ IsZone s) ∧ (isDomainName t = true ↔ IsZone t) ∧
      (isDomainName s = true → isDomainName t = true → SameName s t → s = t ∧
        ∀ (pins : DnsPins) (record : DnsRecord) (maxAgeSecs wall : ℕ) (v : DnsValidated) (key : Str),
          pins.keyOf s = some key → validateRecord t record pins maxAgeSecs wall = .ok v →
          record.key.toStr = key)) ↔
      PlainlySpelled s ∧ PlainlySpelled t := by
  rw [isDomainName_iff_isZone, isDomainName_iff_isZone]
  refine ⟨fun h => ⟨h.1, h.2.1⟩, fun h => ⟨h.1, h.2, fun hs ht hsame => ?_⟩⟩
  have hplain : ∀ {u : Str}, PlainlySpelled u → isDomainName u = true → lower u = u :=
    fun hu hd => hu.resolve_right (not_not.mpr ((isDomainName_iff_isZone_lower _).mp hd))
  have heq : s = t := by
    rw [← hplain h.1 hs, ← hplain h.2 ht]
    exact hsame
  refine ⟨heq, fun pins record maxAgeSecs wall v key hpin hvalid => ?_⟩
  rw [heq] at hpin
  rcases validateRecord_ok hvalid with ⟨-, hkey⟩ | ⟨-, hkey⟩
  · exact Option.some.inj (hkey.symm.trans hpin)
  · exact absurd (hpin.symm.trans hkey) nofun

end

/-- A zone with a capital letter is accepted, and the pin of the zone does not hold for it: a record
of another key is taken for new. -/
theorem respelled_zone_accepted : letI := sample
    let zone : Str := "images.example.com"
    let respelled : Str := "Images.example.com"
    let pins := DnsPins.pin .empty zone Sample.alice.id.toStr 1700000000
    let record : DnsRecord :=
      { key := Sample.bob.id, ts := 1700000000, relay := none, seed := none
        sig := Sample.bob.sign (canonicalPayload respelled Sample.bob.id 1700000000 none none) }
    isDomainName zone = true ∧ isDomainName respelled = true ∧ ¬ IsZone respelled ∧
      SameName zone respelled ∧ zone ≠ respelled ∧
      pins.keyOf zone = some Sample.alice.id.toStr ∧
      validateRecord respelled record pins 86400 1700000000 = .ok (.new Sample.bob.id) := by
  let _ := sample
  refine ⟨by decide +kernel, by decide +kernel, fun h => absurd h.lower_eq (by decide +kernel),
    ?_, by decide +kernel, by decide +kernel, by decide +kernel⟩
  show lower "images.example.com" = lower "Images.example.com"
  decide +kernel

end Ocid
