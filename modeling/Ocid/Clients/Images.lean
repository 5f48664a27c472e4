import Ocid.Naming.Zones

/-!
# Clients — Images — where the desktop extension pushes an image

An image that was pulled from the registry carries its publisher's namespace in its name, and is
pushed again without it (`ocidTarget`).  The extension decides by a pattern of its own whether the
first segment of the name is a publisher (`isPublisherSegment`), which is to be the daemon's own
test (`isPublisherSlot`).

Of the first segments of image names, the pattern takes those that have the shape of a host name
(`HostShaped`), however long they and their labels are, and wherever inside them dots and dashes
meet.  A zone has labels that fit (`LabelsFit`).  So the two agree exactly at the segments that have
no such shape, or whose labels fit (`publisherSegment_iff`).
-/

namespace Ocid

open Computability

/-! ### The names of the extension -/

/-- `[a-z0-9]`. -/
def isLowerAlphanumeric (c : Char) : Bool := ('a' ≤ c && c ≤ 'z') || ('0' ≤ c && c ≤ '9')

/-- `[a-z0-9.-]`. -/
def isHostChar (c : Char) : Bool := isLowerAlphanumeric c || c == '.' || c == '-'

/-- `/^[a-z0-9]([a-z0-9.-]*[a-z0-9])?$/`. -/
def hostnameLike (seg : Str) : Bool :=
  seg.head?.any isLowerAlphanumeric && seg.all isHostChar && seg.getLast?.any isLowerAlphanumeric

/-- A leading path segment that names a publisher's namespace. -/
def isPublisherSegment (seg : Str) : Bool :=
  if seg.length = 64 ∧ seg.all isLowerHex then true
  else if !hostnameLike seg || !seg.contains '.' then false
  else !(Str.split '.' seg).any fun l => !l.isEmpty && l.all isAsciiDigit

/-- Drop a leading publisher's segment, if any. -/
def stripPublisherNamespace (name : Str) : Str :=
  match Str.splitOnce '/' name with
  | none => name
  | some (first, rest) => if !rest.isEmpty && isPublisherSegment first then rest else name

/-- A reference that is pinned to a digest, as a name with a tag. -/
def withDerivedTag (named : Str) : Str :=
  match Str.splitOnce '@' named with
  | none => named
  | some (name, digest) =>
      if name.contains ':' then name
      else name ++ (":sha256-" : Str) ++
        ((("sha256:" : Str).isPrefixOf? digest).getD digest).take 12

/-- The name without its registry. -/
def ocidName (repoTag : Str) : Str :=
  match Str.splitOnce '/' repoTag with
  | none => repoTag
  | some (first, rest) =>
      if first.contains '.' || first.contains ':' || first = "localhost" then
        (("library/" : Str).isPrefixOf? rest).getD rest
      else repoTag

/-- The name and tag under which an image is pushed. -/
def ocidTarget (source : Str) (registryHost : Option Str) : Str :=
  match (registryHost.filter fun host => !host.isEmpty).bind
      fun host => (host ++ ['/']).isPrefixOf? source with
  | some rest => withDerivedTag (stripPublisherNamespace rest)
  | none =>
      match Str.splitOnce '@' source with
      | none => ocidName source
      | some (image, digest) => withDerivedTag (ocidName image ++ '@' :: digest)

/-- The daemon's test of a first segment. -/
def isPublisherSlot (seg : Str) : Bool := isHexPublisher seg || isDomainName seg

/-! ### The pattern -/

/-- The words of one character of a class. -/
def oneOf (p : Char → Bool) : Language Char := {w | ∃ c, p c = true ∧ w = [c]}

/-- The words of `[a-z0-9]([a-z0-9.-]*[a-z0-9])?`. -/
def hostnames : Language Char :=
  oneOf isLowerAlphanumeric * (1 + (oneOf isHostChar)∗ * oneOf isLowerAlphanumeric)

theorem mem_kstar_oneOf {p : Char → Bool} {w : Str} :
    w ∈ (oneOf p)∗ ↔ ∀ c ∈ w, p c = true := by
  rw [Language.mem_kstar]
  constructor
  · rintro ⟨ws, rfl, hws⟩ c hc
    obtain ⟨v, hv, hcv⟩ := List.mem_flatten.mp hc
    obtain ⟨d, hd, rfl⟩ := hws v hv
    exact List.mem_singleton.mp hcv ▸ hd
  · intro h
    refine ⟨w.map fun c => [c], ?_, fun v hv => ?_⟩
    · rw [← List.flatMap_def, List.flatMap_singleton']
    · obtain ⟨c, hc, rfl⟩ := List.mem_map.mp hv
      exact ⟨c, h c hc, rfl⟩

theorem isHostChar_of_isLowerAlphanumeric {c : Char} (h : isLowerAlphanumeric c = true) :
    isHostChar c = true := by
  rw [isHostChar, h, Bool.true_or, Bool.true_or]

/-- The test of the ends and of every character is the pattern. -/
theorem hostnameLike_iff {seg : Str} : hostnameLike seg = true ↔ seg ∈ hostnames := by
  simp only [hostnameLike, Bool.and_eq_true, List.all_eq_true, hostnames, Language.mem_mul,
    Language.mem_add, Language.mem_one]
  constructor
  · rintro ⟨⟨hfirst, hall⟩, hlast⟩
    cases seg with
    | nil => cases hfirst
    | cons c rest =>
        refine ⟨[c], ⟨c, hfirst, rfl⟩, rest, ?_, rfl⟩
        rcases List.eq_nil_or_concat' rest with rfl | ⟨mid, d, rfl⟩
        · exact Or.inl rfl
        · have hd : (c :: (mid ++ [d])).getLast? = some d := List.getLast?_concat (l := c :: mid)
          have hmid : ∀ e ∈ mid, isHostChar e = true := fun e he => hall e (by simp [he])
          rw [hd] at hlast
          exact Or.inr ⟨mid, mem_kstar_oneOf.mpr hmid, [d], ⟨d, hlast, rfl⟩, rfl⟩
  · rintro ⟨_, ⟨c, hc, rfl⟩, rest, hrest, rfl⟩
    have hhost := isHostChar_of_isLowerAlphanumeric hc
    rcases hrest with rfl | ⟨mid, hmid, _, ⟨d, hd, rfl⟩, rfl⟩
    · exact ⟨⟨hc, List.forall_mem_singleton.mpr hhost⟩, hc⟩
    · have hlast : ([c] ++ (mid ++ [d])).getLast? = some d := List.getLast?_concat (l := c :: mid)
      refine ⟨⟨hc, fun e he => ?_⟩, hlast ▸ hd⟩
      rcases List.mem_append.mp he with he | he
      · exact List.mem_singleton.mp he ▸ hhost
      · rcases List.mem_append.mp he with he | he
        · exact mem_kstar_oneOf.mp hmid e he
        · exact List.mem_singleton.mp he ▸ isHostChar_of_isLowerAlphanumeric hd

/-! ### First segments of names -/

/-- A segment with a dot, but no underscore, that does not end in a dot or a dash, and of whose
labels none is a number. -/
structure HostShaped (seg : Str) : Prop where
  dot : '.' ∈ seg
  noUnderscore : '_' ∉ seg
  last : seg.getLast? ≠ some '.' ∧ seg.getLast? ≠ some '-'
  noNumber : ∀ label ∈ Str.split '.' seg, label = [] ∨ ∃ c ∈ label, ¬ ('0' ≤ c ∧ c ≤ '9')

/-- A segment of at most 253 characters whose labels are of 1 to 63 of them, with no dash at either
end. -/
def LabelsFit (seg : Str) : Prop :=
  seg.length ≤ 253 ∧ ∀ label ∈ Str.split '.' seg,
    1 ≤ label.length ∧ label.length ≤ 63 ∧ label.head? ≠ some '-' ∧ label.getLast? ≠ some '-'

/-- The characters of a name that are not an underscore are the pattern's. -/
theorem isHostChar_iff {c : Char} (h : isNameChar c = true) : isHostChar c = true ↔ c ≠ '_' := by
  simp only [isNameChar, isHostChar, isLowerAlphanumeric, Bool.or_eq_true, Bool.and_eq_true,
    decide_eq_true_eq, beq_iff_eq] at h ⊢
  constructor
  · rintro h rfl
    revert h
    decide
  · tauto

theorem isLowerAlphanumeric_iff {c : Char} (h : isNameChar c = true) :
    isLowerAlphanumeric c = true ↔ c ≠ '_' ∧ c ≠ '.' ∧ c ≠ '-' := by
  simp only [isNameChar, isLowerAlphanumeric, Bool.or_eq_true, Bool.and_eq_true,
    decide_eq_true_eq, beq_iff_eq] at h ⊢
  constructor
  · intro h
    refine ⟨?_, ?_, ?_⟩ <;> rintro rfl <;> revert h <;> decide
  · tauto

/-- A segment of a name matches when it has no underscore and does not end in a dot or a dash. -/
theorem hostnameLike_of_component {seg : Str} (h : nameComponentOk seg = true) :
    hostnameLike seg = true ↔
      '_' ∉ seg ∧ seg.getLast? ≠ some '.' ∧ seg.getLast? ≠ some '-' := by
  obtain ⟨hne, hchars, hfirst, -, -⟩ := nameComponentOk_iff.mp h
  have hhead : seg.head?.any isLowerAlphanumeric = true := by
    cases seg with
    | nil => exact absurd rfl hne
    | cons c seg =>
        have hother : ∀ d, isAsciiAlphanumeric d = false → c ≠ d := by
          rintro d hd rfl
          exact Bool.false_ne_true (hd.symm.trans hfirst)
        exact (isLowerAlphanumeric_iff (hchars c List.mem_cons_self)).mpr
          ⟨hother _ rfl, hother _ rfl, hother _ rfl⟩
  have hall : seg.all isHostChar = true ↔ '_' ∉ seg := by
    rw [List.all_eq_true]
    constructor
    · exact fun hall hmem => (isHostChar_iff (hchars _ hmem)).mp (hall _ hmem) rfl
    · exact fun hno c hc => (isHostChar_iff (hchars c hc)).mpr fun heq => hno (heq ▸ hc)
  have hlast : seg.getLast?.any isLowerAlphanumeric = true ↔
      seg.getLast? ≠ some '_' ∧ seg.getLast? ≠ some '.' ∧ seg.getLast? ≠ some '-' := by
    rw [List.getLast?_eq_some_getLast hne, Option.any_some,
      isLowerAlphanumeric_iff (hchars _ (List.getLast_mem hne))]
    simp only [ne_eq, Option.some.injEq]
  rw [hostnameLike, hhead, Bool.true_and, Bool.and_eq_true, hall, hlast]
  have hmem : seg.getLast? = some '_' → '_' ∈ seg := List.mem_of_getLast?
  tauto

theorem HostShaped.notHex {seg : Str} (h : HostShaped seg) : ¬ seg.all isLowerHex = true := fun hex =>
  absurd (List.all_eq_true.mp hex '.' h.dot) (by decide)

/-- What the pattern takes. -/
theorem isPublisherSegment_eq_true {seg : Str} (h : nameComponentOk seg = true) :
    isPublisherSegment seg = true ↔ isHexPublisher seg = true ∨ HostShaped seg := by
  have hhex : isHexPublisher seg = true ↔ seg.length = 64 ∧ seg.all isLowerHex = true := by
    rw [isHexPublisher, Bool.and_eq_true, beq_iff_eq]
    refine and_congr_left fun hall => ?_
    rw [Str.len_eq_length fun c hc => utf8Size_of_isLowerHex (List.all_eq_true.mp hall c hc)]
  have hnumber : ∀ label : Str, ¬ (!label.isEmpty && label.all isAsciiDigit) = true ↔
      label = [] ∨ ∃ c ∈ label, ¬ ('0' ≤ c ∧ c ≤ '9') := fun label => by
    rw [Bool.and_eq_true, not_and_or, Bool.not_eq_true', List.isEmpty_eq_false_iff, not_not,
      List.all_eq_true]
    simp only [isAsciiDigit, Bool.and_eq_true, decide_eq_true_eq, not_forall, exists_prop]
  have hshape : HostShaped seg ↔ hostnameLike seg = true ∧ seg.contains '.' = true ∧
      (Str.split '.' seg).any (fun l => !l.isEmpty && l.all isAsciiDigit) = false := by
    rw [hostnameLike_of_component h, List.contains_iff_mem, List.any_eq_false]
    simp only [hnumber]
    exact ⟨fun hs => ⟨⟨hs.noUnderscore, hs.last⟩, hs.dot, hs.noNumber⟩,
      fun h => ⟨h.2.1, h.1.1, h.1.2, h.2.2⟩⟩
  rw [hhex, hshape, isPublisherSegment]
  split
  · exact iff_of_true rfl (Or.inl ‹_›)
  · rename_i hno
    rw [or_iff_right hno]
    cases hostnameLike seg <;> cases seg.contains '.' <;> simp

theorem toLower_of_isNameChar {c : Char} (h : isNameChar c = true) : c.toLower = c := by
  rcases toLower_cases c with ⟨hsame, -⟩ | ⟨hupper, -⟩
  · exact hsame
  · simp only [isNameChar, Bool.or_eq_true, Bool.and_eq_true, decide_eq_true_eq, beq_iff_eq,
      toNat_le_iff, Char.reduceToNat] at h hupper
    rcases h with (((h | h) | rfl) | rfl) | rfl
    · omega
    · omega
    all_goals exact absurd hupper (by decide)

/-- The labels of a segment are of letters, digits and dashes when it has no underscore. -/
theorem zoneChar_of_component {seg label : Str} (h : ∀ c ∈ seg, isNameChar c = true)
    (hno : '_' ∉ seg) (hl : label ∈ Str.split '.' seg) :
    ∀ c ∈ label, ZoneChar c := fun c hc => by
  have hmem := Str.mem_of_mem_split hl hc
  have hname := h c hmem
  have hdot : c ≠ '.' := fun heq => Str.notMem_of_mem_split hl (heq ▸ hc)
  have hunder : c ≠ '_' := fun heq => hno (heq ▸ hmem)
  simp only [isNameChar, Bool.or_eq_true, Bool.and_eq_true, decide_eq_true_eq, beq_iff_eq] at hname
  unfold ZoneChar
  tauto

/-- Zones among the segments of names. -/
theorem isDomainName_of_component {seg : Str} (h : nameComponentOk seg = true) :
    isDomainName seg = true ↔ HostShaped seg ∧ LabelsFit seg := by
  have hchars := (nameComponentOk_iff.mp h).2.1
  have hlower : lower seg = seg :=
    (List.map_congr_left fun c hc => toLower_of_isNameChar (hchars c hc)).trans (List.map_id seg)
  have hlen : Str.len seg = seg.length := Str.len_eq_length fun c hc => by
    have := range_of_isTagChar (isTagChar_of_isNameChar (hchars c hc))
    exact utf8Size_eq_one (by omega)
  rw [isDomainName_iff_isZone_lower, hlower, isZone_iff_split, hlen]
  constructor
  · rintro ⟨hshort, hdot, hlabels⟩
    refine ⟨⟨hdot, fun hmem => ?_, ⟨fun hend => ?_, fun hend => ?_⟩, fun label hl => ?_⟩,
      hshort, fun label hl => ?_⟩
    · obtain ⟨label, hl, hc⟩ := Str.exists_mem_split hmem (by decide : '_' ≠ '.')
      exact absurd ((hlabels label hl).chars _ hc) (by unfold ZoneChar; decide)
    · obtain ⟨init, rfl⟩ := List.getLast?_eq_some_iff.mp hend
      have hempty : [] ∈ Str.split '.' (init ++ ['.']) := by
        rw [Str.split_concat]
        exact List.mem_append_right _ (List.mem_singleton_self _)
      exact absurd (hlabels _ hempty).nonempty (by decide)
    · obtain ⟨label, hl, hlast⟩ := Str.exists_mem_split_of_getLast? hend (by decide : '-' ≠ '.')
      exact (hlabels label hl).last hlast
    · exact Or.inr (hlabels label hl).notNumber
    · have hlabel := hlabels label hl
      exact ⟨hlabel.nonempty, hlabel.short, hlabel.first, hlabel.last⟩
  · rintro ⟨hshape, hshort, hfit⟩
    refine ⟨hshort, hshape.dot, fun label hl => ?_⟩
    obtain ⟨hone, hlong, hfirst, hlast⟩ := hfit label hl
    exact ⟨hone, hlong, zoneChar_of_component hchars hshape.noUnderscore hl, hfirst, hlast,
      (hshape.noNumber label hl).resolve_left (List.ne_nil_of_length_pos hone)⟩

/-- The pattern and the daemon's test. -/
theorem isPublisherSegment_eq_slot_iff {seg : Str} (h : nameComponentOk seg = true) :
    isPublisherSegment seg = isPublisherSlot seg ↔ (HostShaped seg → LabelsFit seg) := by
  rw [Bool.eq_iff_iff, isPublisherSegment_eq_true h, isPublisherSlot, Bool.or_eq_true,
    isDomainName_of_component h]
  have hnot : HostShaped seg → ¬ isHexPublisher seg = true := fun hs hex =>
    hs.notHex (Bool.and_eq_true .. ▸ hex).2
  tauto

/-! ### Targets -/

/-- The target of a reference of the registry. -/
theorem ocidTarget_of_registry {host : Str} (h : host ≠ []) (rest : Str) :
    ocidTarget (host ++ '/' :: rest) (some host) =
      withDerivedTag (stripPublisherNamespace rest) := by
  have hhost : (some host).filter (fun host => !host.isEmpty) = some host := by
    rw [Option.filter_some, List.isEmpty_eq_false_iff.mpr h]
    rfl
  have hrest : (host ++ ['/']).isPrefixOf? (host ++ '/' :: rest) = some rest :=
    List.isPrefixOf?_eq_some_iff_append_eq.mpr (by simp)
  rw [ocidTarget, hhost, Option.bind_some, hrest]

theorem stripPublisherNamespace_append {first : Str} (h : '/' ∉ first) (rest : Str) :
    stripPublisherNamespace (first ++ '/' :: rest) =
      if rest ≠ [] ∧ isPublisherSegment first = true then rest else first ++ '/' :: rest := by
  rw [stripPublisherNamespace, Str.splitOnce_append h]
  cases rest <;> simp

/-- **The extension's pattern is the daemon's test of the first segment of a name, and an image of
the registry loses that segment exactly when it names a publisher, at exactly the segments that do
not have the shape of a host name, or whose labels fit.** -/
theorem publisherSegment_iff {name seg : Str} (hname : validateName name = .ok ())
    (hseg : (Str.split '/' name).head? = some seg) :
    (isPublisherSegment seg = isPublisherSlot seg ∧
      (∀ host rest, host ≠ [] → ocidTarget (host ++ '/' :: (seg ++ '/' :: rest)) (some host) =
        withDerivedTag
          (if rest ≠ [] ∧ isPublisherSlot seg = true then rest else seg ++ '/' :: rest)) ∧
      ∀ host suff, host ≠ [] → '/' ∉ suff →
        ocidTarget (host ++ '/' :: (seg ++ suff)) (some host) = withDerivedTag (seg ++ suff)) ↔
      (HostShaped seg → LabelsFit seg) := by
  have hmem : seg ∈ Str.split '/' name := List.mem_of_head? hseg
  have hslash : '/' ∉ seg := Str.notMem_of_mem_split hmem
  rw [← isPublisherSegment_eq_slot_iff ((validateName_eq_ok.mp hname).1 seg hmem)]
  constructor
  · exact fun h => h.1
  · intro h
    refine ⟨h, fun host rest hhost => ?_, fun host suff hhost hsuff => ?_⟩
    · rw [ocidTarget_of_registry hhost, stripPublisherNamespace_append hslash, h]
    · have hnone : Str.splitOnce '/' (seg ++ suff) = none :=
        Str.splitOnce_eq_none.mpr fun hc => (List.mem_append.mp hc).elim hslash hsuff
      rw [ocidTarget_of_registry hhost, stripPublisherNamespace, hnone]

/-- An image of the domain `bob.example`. -/
theorem publisherSegment_at :
    isPublisherSegment "bob.example" = isPublisherSlot "bob.example" ∧
      ocidTarget "127.0.0.1:5050/bob.example/app:1" (some "127.0.0.1:5050") = "app:1" := by
  have hname : validateName "bob.example/app" = .ok () := by decide +kernel
  have hseg : (Str.split '/' "bob.example/app").head? = some ("bob.example" : Str) := by
    decide +kernel
  have hfit : LabelsFit "bob.example" := by
    unfold LabelsFit
    decide
  have h := (publisherSegment_iff hname hseg).mpr fun _ => hfit
  exact ⟨h.1, h.2.1 "127.0.0.1:5050" "app:1" (by decide)⟩

namespace Sample

/-- A segment whose first label has 64 characters. -/
def longLabel : Str := List.replicate 64 'a' ++ ".b"

end Sample

/-- An image of one's own, with a label of 64 characters or an empty one, is taken for another
publisher's, and loses its first segment. -/
theorem longLabel_stripped :
    validateName (Sample.longLabel ++ ("/app" : Str)) = .ok () ∧
      isPublisherSegment Sample.longLabel = true ∧ isPublisherSlot Sample.longLabel = false ∧
      ocidTarget ("127.0.0.1:5050/" ++ Sample.longLabel ++ ("/app:1" : Str))
        (some "127.0.0.1:5050") = "app:1" ∧
      isPublisherSegment "a..b" = true ∧ isPublisherSlot "a..b" = false := by
  decide +kernel

end Ocid
