import Ocid.Naming.Explicit
import Ocid.Daemon.Registry

/-!
# Naming — Pinned — names of a zone whose key is pinned

Once a zone is pinned to a key, a name of the zone is meant to resolve to that key or not at all.
`resolveZone` reads the pin only to check a record.  When there is no record to check, because the
lookup fails, no text of the answer parses, or the cache remembers that there was none, the name
goes on unchanged to the rules for names without a key: the policy's domain table, its aliases, and
the node's own namespace (`RuleOwner`).

A name of the zone has no other owner than the pinned key exactly when the cache answers no other
key, and, where no record is checked, none of these rules names another one
(`owner_pinned_iff`).
-/

namespace Ocid.Pinned

open Ocid

/-! ### The first part of a text -/

/-- A first part that is neither trimmed nor stripped: it has no separator and no white space, and
is not taken for a location. -/
structure Front (first : Str) : Prop where
  ne_nil : first ≠ []
  plain : ∀ c ∈ first, c ≠ ':' ∧ c ≠ '/' ∧ Str.isWhitespace c = false
  stays : stripRegistryLocation.isLocation first = false

theorem front_toStr (K : PublisherId) : Front K.toStr where
  ne_nil := toStr_ne (by decide)
  plain _ hc := of_isTagChar (isTagChar_of_isNameChar (of_mem_toStr hc).1)
  stays := isLocation_toStr K

section
variable {zone : Str}

/-- A domain has a dot, and its labels are letters, digits and dashes, not all digits. -/
theorem of_isDomainName (h : isDomainName zone = true) :
    '.' ∈ zone ∧ ∀ label ∈ Str.split '.' zone, zoneLabelOk label = true := by
  rw [isDomainName, validateZone] at h
  split at h
  · rename_i hok
    simp only [Bool.and_eq_true, List.all_eq_true, List.contains_iff_mem] at hok
    exact ⟨hok.1.2, hok.2⟩
  · cases h

theorem isTagChar_of_mem_domain (h : isDomainName zone = true) {c : Char} (hc : c ∈ zone) :
    isTagChar c = true := by
  by_cases hdot : c = '.'
  · subst hdot
    decide
  · obtain ⟨label, hlabel, hmem⟩ := Str.exists_mem_split hc hdot
    have hok := (of_isDomainName h).2 label hlabel
    simp only [zoneLabelOk, Bool.and_eq_true, List.all_eq_true] at hok
    have := hok.1.1.1.2 c hmem
    simp only [Bool.or_eq_true] at this
    simp only [isTagChar, Bool.or_eq_true]
    tauto

/-- A domain is no IP literal, as no label of it is a number. -/
theorem front_domain (h : isDomainName zone = true) : Front zone := by
  obtain ⟨hdot, hlabels⟩ := of_isDomainName h
  have hplain : ∀ c ∈ zone, c ≠ ':' ∧ c ≠ '/' ∧ Str.isWhitespace c = false :=
    fun c hc => of_isTagChar (isTagChar_of_mem_domain h hc)
  refine ⟨List.ne_nil_of_mem hdot, hplain, ?_⟩
  have hcolon : zone.contains ':' = false := by
    rw [Bool.eq_false_iff]
    intro hc
    exact (hplain ':' (List.contains_iff_mem.mp hc)).1 rfl
  have hlocal : (zone == ("localhost" : Str)) = false := by
    rw [beq_eq_false_iff_ne]
    rintro rfl
    revert hdot
    decide
  have hnumber : zone.all (fun c => ('0' ≤ c && c ≤ '9') || c == '.') = false := by
    rw [Bool.eq_false_iff]
    intro hall
    cases hs : Str.split '.' zone with
    | nil => exact Str.split_ne_nil _ _ hs
    | cons label labels =>
        have hmem : label ∈ Str.split '.' zone := hs ▸ List.mem_cons_self
        have hok := hlabels label hmem
        simp only [zoneLabelOk, Bool.and_eq_true, Bool.not_eq_true', List.all_eq_false] at hok
        obtain ⟨c, hc, hdigit⟩ := hok.2
        have hzone := List.all_eq_true.mp hall c (Str.mem_of_mem_split hmem hc)
        have hne : c ≠ '.' := by
          rintro rfl
          exact Str.notMem_of_mem_split hmem hc
        simp only [Bool.or_eq_true, beq_iff_eq, hne, or_false] at hzone
        exact hdigit hzone
  simp only [stripRegistryLocation.isLocation, hcolon, hlocal, hnumber]
  rfl

/-- A domain is no key in hex. -/
theorem isHexPublisher_domain (h : isDomainName zone = true) : isHexPublisher zone = false := by
  rw [isHexPublisher, Bool.and_eq_false_iff, List.all_eq_false]
  exact Or.inr ⟨'.', (of_isDomainName h).1, by decide⟩

end

section
variable {first rest : Str}

namespace Front

theorem slash_notMem (h : Front first) : '/' ∉ first := fun hc => (h.plain _ hc).2.1 rfl

theorem colon_notMem (h : Front first) : ':' ∉ first := fun hc => (h.plain _ hc).1 rfl

/-- White space goes from the end only. -/
theorem trim_append (h : Front first) (rest : Str) :
    Str.trim (first ++ '/' :: rest) = first ++ '/' :: rest.rdropWhile Str.isWhitespace := by
  have hhead : (first ++ '/' :: rest).dropWhile Str.isWhitespace = first ++ '/' :: rest := by
    cases first with
    | nil => exact absurd rfl h.ne_nil
    | cons d first => simp [(h.plain d List.mem_cons_self).2.2]
  rw [Str.trim, hhead, Str.rdropWhile_append_cons (by decide)]

/-- A text with this first part and no white space behind it is stripped of nothing. -/
theorem strip_eq {s : Str} (h : Front first) (hs : Str.trim s = first ++ '/' :: rest) :
    stripRegistryLocation s = first ++ '/' :: rest := by
  -- a scheme would put a colon into the first part
  have hscheme : ∀ scheme : Str, ':' ∈ scheme → '/' ∉ scheme →
      ((scheme ++ "//".toList).isPrefixOf? (first ++ '/' :: rest)) = none := by
    intro scheme hcolon hslash
    cases hp : (scheme ++ "//".toList).isPrefixOf? (first ++ '/' :: rest) with
    | none => rfl
    | some r =>
        have heq := List.isPrefixOf?_eq_some_iff_append_eq.mp hp
        have hsplit := congrArg (Str.splitOnce '/') heq
        rw [Str.splitOnce_append h.slash_notMem, List.append_assoc] at hsplit
        have hsch := Str.splitOnce_append hslash ("/".toList ++ r)
        cases hsch.symm.trans hsplit
        exact absurd hcolon h.colon_notMem
  have hnone : (("https://" : Str).isPrefixOf? (first ++ '/' :: rest) <|>
      ("http://" : Str).isPrefixOf? (first ++ '/' :: rest)).getD (first ++ '/' :: rest) =
        first ++ '/' :: rest := by
    have hhttps := hscheme "https:" (by decide) (by decide)
    have hhttp := hscheme "http:" (by decide) (by decide)
    show (("https:".toList ++ "//".toList).isPrefixOf? _ <|>
      ("http:".toList ++ "//".toList).isPrefixOf? _).getD _ = _
    rw [hhttps, hhttp]
    rfl
  unfold stripRegistryLocation
  simp only [hs, hnone, Str.splitOnce_append h.slash_notMem, h.stays]
  split <;> rfl

theorem ne_didKey (h : Front first) (rest : Str) :
    ("did:key:" : Str).isPrefixOf (first ++ '/' :: rest) = false := by
  rw [Bool.eq_false_iff]
  intro hpre
  obtain ⟨r, hr⟩ := List.isPrefixOf_iff_prefix.mp hpre
  rcases List.append_eq_append_iff.mp hr with ⟨m, hm, -⟩ | ⟨m, hm, hm'⟩
  · exact h.colon_notMem (hm ▸ List.mem_append_left _ (by decide))
  · cases m with
    | nil =>
        rw [List.append_nil] at hm
        exact h.colon_notMem (hm ▸ by decide)
    | cons d m =>
        cases hm'
        have hslash : '/' ∈ ("did:key:" : Str) := hm ▸ List.mem_append_right _ List.mem_cons_self
        revert hslash
        decide

/-- Slashes at the end of a path go, and with an empty rest the one before it. -/
theorem trimMatches_append (h : Front first) (rest : Str) :
    Str.trimMatches '/' (first ++ '/' :: rest) =
      if Str.trimEndMatches '/' rest = [] then first
      else first ++ '/' :: Str.trimEndMatches '/' rest := by
  have hhead : (first ++ '/' :: rest).dropWhile (· == '/') = first ++ '/' :: rest := by
    cases first with
    | nil => exact absurd rfl h.ne_nil
    | cons d first => simp [(h.plain d List.mem_cons_self).2.1]
  have hself : first.rdropWhile (· == '/') = first := by
    rw [List.rdropWhile_eq_self_iff]
    intro hne
    simp [(h.plain _ (List.getLast_mem hne)).2.1]
  have happ : first ++ '/' :: rest = (first ++ ['/']) ++ rest := by simp
  rw [Str.trimMatches, hhead, Str.trimEndMatches, happ, Str.rdropWhile_append,
    List.rdropWhile_concat_pos _ _ _ (by simp), hself, List.append_assoc]
  rfl

end Front

end

section
variable [External]

/-! ### The rules for names without a key -/

/-- The path of a name behind a first part; an empty name has no slash in front. -/
def pathOf (first name : Str) : Str := if name = [] then first else first ++ '/' :: name

/-- No publisher is read from the zone through the domain table: there is no name behind it, or the
table has no key for it. -/
def Untabled (policy : Policy) (zone name : Str) : Prop :=
  name = [] ∨ (policy.parsePublisherArg zone).toOption = none

theorem Untabled.ne_ok {policy : Policy} {zone name : Str} (h : Untabled policy zone name)
    (hne : name ≠ []) {p : PublisherId} : policy.parsePublisherArg zone ≠ .ok p := fun hp => by
  have hnone := h.resolve_left hne
  rw [hp] at hnone
  cases hnone

/-- The rules for a path of a zone, in the order they are tried, and the owner each of them names. -/
inductive RuleOwner (policy : Policy) (selfId : PublisherId) (zone name : Str) :
    PublisherId → Prop where
  /-- The policy's domain table has a key for the zone. -/
  | table {p : PublisherId} (hne : name ≠ []) (htable : policy.parsePublisherArg zone = .ok p)
      (hname : validateName name = .ok ()) : RuleOwner policy selfId zone name p
  /-- The whole path is an alias of an image. -/
  | image {p : PublisherId} {n : Str} (hno : Untabled policy zone name)
      (halias : policy.resolveAlias (pathOf zone name) = some (.image p n)) :
      RuleOwner policy selfId zone name p
  /-- The zone is an alias of a publisher. -/
  | publisher {p : PublisherId} (hno : Untabled policy zone name)
      (himage : ∀ p n, policy.resolveAlias (pathOf zone name) ≠ some (.image p n))
      (halias : policy.resolveAlias zone = some (.publisher p))
      (hname : name ≠ [] ∧ validateName name = .ok ()) : RuleOwner policy selfId zone name p
  /-- The path is an image of the node's own. -/
  | own (hno : Untabled policy zone name)
      (himage : ∀ p n, policy.resolveAlias (pathOf zone name) ≠ some (.image p n))
      (halias : ∀ p, policy.resolveAlias zone ≠ some (.publisher p))
      (hpath : validateName (pathOf zone name) = .ok ()) : RuleOwner policy selfId zone name selfId

section
variable {policy : Policy} {selfId p : PublisherId} {zone rest : Str}

/-- The owner a path resolves to. -/
def pathOwner (policy : Policy) (selfId : PublisherId) (path : Str) : Option PublisherId :=
  (resolveRepo path policy selfId).toOption.map Prod.fst

omit [External] in
theorem owner_check {check : Except Err Unit} {p q : PublisherId} {n : Str} :
    (do check; pure (p, n) : Except Err (PublisherId × Str)).toOption.map Prod.fst = some q ↔
      check = .ok () ∧ p = q := by
  cases check <;> simp [bind, Except.bind, pure, Except.pure, Except.toOption]

/-- The alias rules and the node's own namespace. -/
theorem owner_aliases {name : Str} (hno : Untabled policy zone name)
    {aliased : PublisherId → Except Err (PublisherId × Str)}
    (haliased : ∀ q, (aliased q).toOption.map Prod.fst = some p ↔
      (name ≠ [] ∧ validateName name = .ok ()) ∧ q = p) :
    ((match policy.resolveAlias (pathOf zone name) with
      | some (.image publisher name) => .ok (publisher, name)
      | _ =>
          match policy.resolveAlias zone with
          | some (.publisher q) => aliased q
          | _ => do
              validateName (pathOf zone name)
              pure (selfId, pathOf zone name) :
        Except Err (PublisherId × Str)).toOption.map Prod.fst = some p) ↔
      RuleOwner policy selfId zone name p := by
  -- an alias of the path that is no image is passed over, and the zone is looked up
  have key : (∀ q n, policy.resolveAlias (pathOf zone name) ≠ some (.image q n)) →
      (((match policy.resolveAlias zone with
          | some (.publisher q) => aliased q
          | _ => do
              validateName (pathOf zone name)
              pure (selfId, pathOf zone name) :
        Except Err (PublisherId × Str)).toOption.map Prod.fst = some p) ↔
      RuleOwner policy selfId zone name p) := by
    intro himage
    have hown : (∀ q, policy.resolveAlias zone ≠ some (.publisher q)) →
        (((do
              validateName (pathOf zone name)
              pure (selfId, pathOf zone name) :
        Except Err (PublisherId × Str)).toOption.map Prod.fst = some p) ↔
        RuleOwner policy selfId zone name p) := by
      intro halias
      rw [owner_check]
      constructor
      · rintro ⟨hpath, rfl⟩
        exact .own hno himage halias hpath
      · intro h
        cases h with
        | table hne htable _ => exact absurd htable (hno.ne_ok hne)
        | image _ h => exact absurd h (himage _ _)
        | publisher _ _ h _ => exact absurd h (halias _)
        | own _ _ _ hpath => exact ⟨hpath, rfl⟩
    cases hz : policy.resolveAlias zone with
    | none => exact hown fun q h => by rw [hz] at h; cases h
    | some target =>
        cases target with
        | image q n => exact hown fun q' h => by rw [hz] at h; cases h
        | publisher q =>
            refine (haliased q).trans ?_
            constructor
            · rintro ⟨hname, rfl⟩
              exact .publisher hno himage hz hname
            · intro h
              cases h with
              | table hne htable _ => exact absurd htable (hno.ne_ok hne)
              | image _ h => exact absurd h (himage _ _)
              | publisher _ _ h hname =>
                  rw [hz] at h
                  cases h
                  exact ⟨hname, rfl⟩
              | own _ _ h _ => exact absurd hz (h _)
  cases hpath : policy.resolveAlias (pathOf zone name) with
  | none => exact key fun q n h => by rw [hpath] at h; cases h
  | some target =>
      cases target with
      | publisher q => exact key fun q n h => by rw [hpath] at h; cases h
      | image q n =>
          simp only [Except.toOption, Option.map_some, Option.some.injEq]
          constructor
          · rintro rfl
            exact .image hno hpath
          · intro h
            cases h with
            | table hne htable _ => exact absurd htable (hno.ne_ok hne)
            | image _ h =>
                rw [hpath] at h
                cases h
                rfl
            | publisher _ h _ _ => exact absurd hpath (h _ _)
            | own _ h _ _ => exact absurd hpath (h _ _)

/-- A path of a zone has the owner the rules name. -/
theorem pathOwner_domain (hzone : isDomainName zone = true) :
    pathOwner policy selfId (zone ++ '/' :: rest) = some p ↔
      RuleOwner policy selfId zone (Str.trimEndMatches '/' rest) p := by
  have hfront := front_domain hzone
  have htrim := hfront.trimMatches_append rest
  generalize Str.trimEndMatches '/' rest = name at htrim
  rw [pathOwner, resolveRepo]
  simp only [htrim]
  by_cases hne : name = []
  · subst hne
    have hempty : zone.isEmpty = false := List.isEmpty_eq_false_iff.mpr hfront.ne_nil
    have hsplit := Str.splitOnce_eq_none.mpr hfront.slash_notMem
    simp only [if_true, hempty, Bool.false_eq_true, if_false, hsplit, isHexPublisher_domain hzone,
      Option.map_none, Option.bind_none]
    refine @owner_aliases _ _ _ _ _ _ (Or.inl rfl) (fun _ => .error _) fun q => ?_
    simp [Except.toOption]
  · have hpath : pathOf zone name = zone ++ '/' :: name := if_neg hne
    have hempty : (zone ++ '/' :: name).isEmpty = false :=
      List.isEmpty_eq_false_iff.mpr (by simp)
    simp only [hne, if_false, hempty, Bool.false_eq_true, Str.splitOnce_append hfront.slash_notMem,
      isHexPublisher_domain hzone, Option.map_some, Option.bind_some]
    cases htable : (policy.parsePublisherArg zone).toOption with
    | some q =>
        have hq : policy.parsePublisherArg zone = .ok q := by
          cases h : policy.parsePublisherArg zone <;> rw [h] at htable <;> cases htable
          rfl
        simp only [Option.map_some]
        rw [owner_check]
        constructor
        · rintro ⟨hname, rfl⟩
          exact .table hne hq hname
        · intro h
          cases h with
          | table _ h hname =>
              rw [hq] at h
              cases h
              exact ⟨hname, rfl⟩
          | image hno _ => exact absurd hq (hno.ne_ok hne)
          | publisher hno _ _ _ => exact absurd hq (hno.ne_ok hne)
          | own hno _ _ _ => exact absurd hq (hno.ne_ok hne)
    | none =>
        simp only [Option.map_none, ← hpath]
        refine @owner_aliases _ _ _ _ _ _ (Or.inr htable)
          (fun q => do validateName name; pure (q, name)) fun q => ?_
        rw [owner_check]
        simp [hne]

/-- A path behind a key in hex has that key as its owner, if what is behind it is a name. -/
theorem pathOwner_toStr {K : PublisherId} (hkey : External.keyFromStr K.toStr = some K) :
    pathOwner policy selfId (K.toStr ++ '/' :: rest) = some p ↔
      validateName (Str.trimEndMatches '/' rest) = .ok () ∧ K = p := by
  have hfront := front_toStr K
  have htrim := hfront.trimMatches_append rest
  generalize Str.trimEndMatches '/' rest = name at htrim
  rw [pathOwner, resolveRepo]
  simp only [htrim]
  by_cases hne : name = []
  · subst hne
    have hempty : K.toStr.isEmpty = false := List.isEmpty_eq_false_iff.mpr hfront.ne_nil
    have hsplit := Str.splitOnce_eq_none.mpr hfront.slash_notMem
    have hv : validateName [] ≠ .ok () := fun h => (validateName_eq_ok.mp h).1.ne_nil rfl
    simp [hempty, hsplit, isHexPublisher_toStr, Except.toOption, hv]
  · have hempty : (K.toStr ++ '/' :: name).isEmpty = false :=
      List.isEmpty_eq_false_iff.mpr (by simp)
    simp only [hne, if_false, hempty, Bool.false_eq_true, Str.splitOnce_append hfront.slash_notMem,
      isHexPublisher_toStr, if_true, Option.map_some, parsePublisher_toStr hkey]
    exact owner_check

end

/-! ### A path or a reference -/

/-- How a name of a zone is used: as the path of a registry route, or as a reference. -/
inductive Use where
  | path
  | reference
deriving DecidableEq

namespace Use

/-- The owner of the image a text resolves to. -/
def owner (node : Node) (text : Str) : Use → Option PublisherId
  | path => (resolve node text).toOption.map Prod.fst
  | reference =>
      (resolveImageRef node.dns node.policy node.id text).toOption.map ImageRef.publisher

/-- What of the text behind the zone is looked at: white space behind a reference is not. -/
def shown (rest : Str) : Use → Str
  | path => rest
  | reference => rest.rdropWhile Str.isWhitespace

/-- The name in it: a path may end in slashes, a reference in a tag. -/
def name (use : Use) (rest : Str) : Str := match use with
  | path => Str.trimEndMatches '/' (use.shown rest)
  | reference => (cutTag (use.shown rest)).1

/-- What is checked of the text before its owner is: of a reference, that the first part and the
name make a name, and that the tag is one. -/
def Admits (use : Use) (first rest : Str) : Prop := match use with
  | path => True
  | reference => validateName (first ++ '/' :: use.name rest) = .ok () ∧
      ∀ t ∈ (cutTag (use.shown rest)).2, validateTag t = .ok ()

end Use

/-- The owner of a text in which no DNS name is left. -/
def ruleOwner (node : Node) (text : Str) : Use → Option PublisherId
  | .path => pathOwner node.policy node.id text
  | .reference => (ImageRef.parse text node.policy node.id).toOption.map ImageRef.publisher

section
variable {node : Node} {p : PublisherId} {first zone rest : Str}

/-- The parse of a reference looks at the path before its tag. -/
theorem ruleOwner_reference (hfront : Front first) (rest : Str) :
    ruleOwner node (first ++ '/' :: Use.reference.shown rest) .reference = some p ↔
      Use.reference.Admits first rest ∧
        pathOwner node.policy node.id (first ++ '/' :: Use.reference.name rest) = some p := by
  have htrim : Str.trim (first ++ '/' :: Use.reference.shown rest) =
      first ++ '/' :: Use.reference.shown rest := by
    rw [hfront.trim_append, Use.shown, List.rdropWhile_idempotent]
  have hstrip := hfront.strip_eq htrim
  simp only [ruleOwner, ImageRef.parse, htrim, hfront.ne_didKey, Bool.false_eq_true, if_false,
    hstrip, splitTag, cutTag_slash, Use.Admits, Use.name, pathOwner]
  generalize cutTag (Use.reference.shown rest) = c
  obtain ⟨n, tag⟩ := c
  cases hv : validateName (first ++ '/' :: n) with
  | error e => simp [bind, Except.bind, Except.toOption]
  | ok u =>
      -- the tag is checked before the path is resolved
      have hpath : ∀ t : Option Str, ((do
          let r ← resolveRepo (first ++ '/' :: n) node.policy node.id
          pure ⟨r.1, r.2, t⟩ : Except Err ImageRef)).toOption.map ImageRef.publisher = some p ↔
            (resolveRepo (first ++ '/' :: n) node.policy node.id).toOption.map Prod.fst =
              some p := by
        intro t
        cases resolveRepo (first ++ '/' :: n) node.policy node.id <;>
          simp [bind, Except.bind, pure, Except.pure, Except.toOption]
      cases tag with
      | none => simpa [bind, Except.bind, pure, Except.pure] using hpath none
      | some t =>
          cases ht : validateTag t with
          | error e => simp [bind, Except.bind, Except.toOption, ht]
          | ok u => simpa [bind, Except.bind, pure, Except.pure, ht] using hpath (some t)

omit [External] in
/-- A name without a slash at its end is all of the path. -/
theorem trimEndMatches_name (hslash : '/' ∉ first)
    (h : validateName (first ++ '/' :: rest) = .ok ()) : Str.trimEndMatches '/' rest = rest := by
  have hok := ((nameOk_append hslash).mp (validateName_eq_ok.mp h).1).2
  rw [Str.trimEndMatches, List.rdropWhile_eq_self_iff]
  intro hne
  have := hok.ends.2 _ (List.getLast?_eq_some_getLast hne)
  simpa using this

/-- Where DNS leaves a text of a zone unchanged, its owner is the one the rules name. -/
theorem ruleOwner_domain (hzone : isDomainName zone = true) (use : Use) (rest : Str) :
    ruleOwner node (zone ++ '/' :: use.shown rest) use = some p ↔
      use.Admits zone rest ∧ RuleOwner node.policy node.id zone (use.name rest) p := by
  cases use with
  | path => exact (pathOwner_domain hzone).trans (and_iff_right trivial).symm
  | reference =>
      have hfront := front_domain hzone
      refine (ruleOwner_reference hfront rest).trans (and_congr_right fun hadmits => ?_)
      rw [pathOwner_domain hzone, trimEndMatches_name hfront.slash_notMem hadmits.1]

/-- Where DNS puts a key in the place of the zone, that key is the owner. -/
theorem ruleOwner_toStr {K : PublisherId} (hkey : External.keyFromStr K.toStr = some K) (use : Use)
    (rest : Str) :
    ruleOwner node (K.toStr ++ '/' :: use.shown rest) use = some p ↔
      (use.Admits K.toStr rest ∧ validateName (use.name rest) = .ok ()) ∧ K = p := by
  cases use with
  | path =>
      refine (pathOwner_toStr hkey).trans (and_congr_left fun _ => ?_)
      exact (and_iff_right trivial).symm
  | reference =>
      have hfront := front_toStr K
      rw [ruleOwner_reference hfront rest, and_assoc]
      refine and_congr_right fun hadmits => ?_
      rw [pathOwner_toStr hkey, trimEndMatches_name hfront.slash_notMem hadmits.1]

/-- The owner of a text of a zone: the key DNS answers, or, where there is nothing behind the zone
or DNS has no record, the one the rules name. -/
theorem owner_domain (hzone : isDomainName zone = true) (use : Use) (rest : Str) :
    use.owner node (zone ++ '/' :: rest) = some p ↔
      (use.shown rest ≠ [] ∧ ∃ K new relay seed,
        node.dns zone = .ok (.resolved K new relay seed) ∧
          ruleOwner node (K.toStr ++ '/' :: use.shown rest) use = some p) ∨
      ((use.shown rest = [] ∨ node.dns zone = .ok .noRecord ∨ node.dns zone = .ok .disabled) ∧
        ruleOwner node (zone ++ '/' :: use.shown rest) use = some p) := by
  have hfront := front_domain hzone
  -- both uses rewrite the text that is shown, and hand the result to the rules
  have hrewrite : use.owner node (zone ++ '/' :: rest) =
      (rewriteDnsPublisher node.dns (zone ++ '/' :: use.shown rest)).toOption.bind fun text =>
        ruleOwner node text use := by
    cases use with
    | path =>
        rw [Use.owner, Use.shown, resolve]
        cases rewriteDnsPublisher node.dns (zone ++ '/' :: rest) with
        | error e => rfl
        | ok text =>
            simp only [Except.toOption, Option.bind_some, ruleOwner, pathOwner]
            cases resolveRepo text node.policy node.id <;> rfl
    | reference =>
        rw [Use.owner, Use.shown, resolveImageRef, hfront.strip_eq (hfront.trim_append rest)]
        cases rewriteDnsPublisher node.dns _ with
        | error e => rfl
        | ok text =>
            simp only [Except.toOption, Option.bind_some, ruleOwner, bind, Except.bind]
            cases ImageRef.parse text node.policy node.id <;> rfl
  rw [hrewrite, rewriteDnsPublisher, Str.splitOnce_append hfront.slash_notMem]
  by_cases hne : use.shown rest = []
  · simp [hne, Except.toOption]
  · simp only [hne, hzone, Bool.and_true, Bool.not_eq_true', List.isEmpty_eq_false_iff, ne_eq,
      not_false_iff, if_true, true_and, false_or]
    cases hdns : node.dns zone with
    | error e => simp [Except.toOption]
    | ok outcome => cases outcome <;> simp [Except.toOption]

end

/-! ### A pinned zone -/

section
variable [Relays] {cfg : DnsConfig} {s : DnsState} {zone : Str} {q : Query} {K : PublisherId}

/-- No record is checked: the cache remembers that there is none, or it has no answer and neither
has the resolver. -/
def Unchecked (s : DnsState) (zone : Str) (q : Query) : Prop :=
  s.cached zone q.now = some .noRecord ∨
    s.cached zone q.now = none ∧ recordOf q.answer = none

/-- What DNS says of a zone: a key the cache answers, the pinned key, or, with no record to check,
nothing. -/
theorem resolveZone_pinned (hon : cfg.enabled = true) (hpin : s.pins.keyOf zone = some K.toStr) :
    (∀ P, s.Answers zone q.now P → ∃ new relay seed,
      (resolveZone cfg s zone q).1 = .ok (.resolved P new relay seed)) ∧
    (∀ P new relay seed, (resolveZone cfg s zone q).1 = .ok (.resolved P new relay seed) →
      s.Answers zone q.now P ∨ P = K) ∧
    ((resolveZone cfg s zone q).1 = .ok .noRecord ↔ Unchecked s zone q) ∧
    (resolveZone cfg s zone q).1 ≠ .ok .disabled := by
  have hcached : ∀ outcome, s.cached zone q.now = some outcome →
      (resolveZone cfg s zone q).1 = .ok outcome := by
    intro outcome h
    simp [resolveZone, hon, h]
  cases hc : s.cached zone q.now with
  | some outcome =>
      rw [hcached outcome hc]
      have hkind : outcome ≠ .disabled := by
        rintro rfl
        unfold DnsState.cached at hc
        split at hc
        · split at hc <;> cases hc
        · split at hc <;> cases hc
        · cases hc
      refine ⟨?_, ?_, ?_, fun h => hkind (by cases h; rfl)⟩
      · rintro P ⟨new, relay, seed, h⟩
        rw [hc] at h
        cases h
        exact ⟨new, relay, seed, rfl⟩
      · intro P new relay seed h
        cases h
        exact Or.inl ⟨new, relay, seed, hc⟩
      · simp [Unchecked, hc]
  | none =>
      have hsilent : ∀ P, ¬ s.Answers zone q.now P := by
        rintro P ⟨new, relay, seed, h⟩
        rw [hc] at h
        cases h
      cases hr : recordOf q.answer with
      | none =>
          have hres : (resolveZone cfg s zone q).1 = .ok .noRecord := by
            simp [resolveZone, hon, hc, hr]
          rw [hres]
          refine ⟨fun P h => absurd h (hsilent P), fun P _ _ _ h => (by cases h), ?_,
            fun h => by cases h⟩
          simp [Unchecked, hc, hr]
      | some r =>
          obtain ⟨record, ttl⟩ := r
          cases hv : s.validateAndPin cfg zone record q.wall q.fault with
          | mk out t =>
              have hres : (resolveZone cfg s zone q).1 = out.map fun o =>
                  .resolved o.1 o.2 record.relay record.seed := by
                cases out <;> simp [resolveZone, hon, hc, hr, hv, Except.map]
              have hunchecked : ¬ Unchecked s zone q := by simp [Unchecked, hc, hr]
              rw [hres]
              -- the record is of the pinned key, or it is rejected
              rcases validateAndPin_cases hv with ⟨hkey, rfl, -⟩ | ⟨pins, -, hnone, -⟩ |
                ⟨⟨e, rfl⟩, -⟩
              · have hK : record.key = K := PublicKey.toStr_inj (Option.some.inj (hkey.symm.trans hpin))
                refine ⟨fun P h => absurd h (hsilent P), ?_, ?_, fun h => by cases h⟩
                · intro P new relay seed h
                  cases h
                  exact Or.inr hK
                · exact iff_of_false (fun h => by cases h) hunchecked
              · cases hnone.symm.trans hpin
              · refine ⟨fun P h => absurd h (hsilent P), fun P _ _ _ h => (by cases h), ?_,
                  fun h => by cases h⟩
                exact iff_of_false (fun h => by cases h) hunchecked

/-- A text of a zone that is pinned to `K` resolves to an image of `K` or to none, exactly when the
cache answers no other key for it, and, where no record is checked, the rules name no other
owner. -/
theorem owner_pinned_iff {node : Node} (hon : cfg.enabled = true)
    (hdns : node.dns = fun zone => (resolveZone cfg s zone q).1) (hzone : isDomainName zone = true)
    (hpin : s.pins.keyOf zone = some K.toStr)
    (hkeys : ∀ P, P = K ∨ s.Answers zone q.now P → External.keyFromStr P.toStr = some P)
    (use : Use) (rest : Str) :
    (∀ p, use.owner node (zone ++ '/' :: rest) = some p → p = K) ↔
      (use.shown rest ≠ [] → ∀ P, s.Answers zone q.now P → use.Admits P.toStr rest →
        validateName (use.name rest) = .ok () → P = K) ∧
      (use.shown rest = [] ∨ Unchecked s zone q → use.Admits zone rest →
        ∀ p, RuleOwner node.policy node.id zone (use.name rest) p → p = K) := by
  obtain ⟨hanswers, hresolved, hnone, hdisabled⟩ := resolveZone_pinned (q := q) hon hpin
  have hzoneDns : node.dns zone = (resolveZone cfg s zone q).1 := by rw [hdns]
  constructor
  · intro h
    refine ⟨fun hshown P hP hadmits hname => ?_, fun hrules hadmits p hp => ?_⟩
    · refine h P ((owner_domain hzone use rest).mpr (Or.inl ⟨hshown, ?_⟩))
      obtain ⟨new, relay, seed, hres⟩ := hanswers P hP
      exact ⟨P, new, relay, seed, hzoneDns.trans hres,
        (ruleOwner_toStr (hkeys P (Or.inr hP)) use rest).mpr ⟨⟨hadmits, hname⟩, rfl⟩⟩
    · refine h p ((owner_domain hzone use rest).mpr (Or.inr ⟨?_, ?_⟩))
      · exact hrules.imp_right fun hun => Or.inl (hzoneDns.trans (hnone.mpr hun))
      · exact (ruleOwner_domain hzone use rest).mpr ⟨hadmits, hp⟩
  · rintro ⟨hcache, hrules⟩ p hp
    rcases (owner_domain hzone use rest).mp hp with ⟨hshown, P, new, relay, seed, hres, hp⟩ |
      ⟨hun, hp⟩
    · have hP := hresolved P new relay seed (hzoneDns.symm.trans hres)
      have hkey := hkeys P hP.symm
      obtain ⟨⟨hadmits, hname⟩, rfl⟩ := (ruleOwner_toStr hkey use rest).mp hp
      exact hP.elim (fun hP => hcache hshown P hP hadmits hname) id
    · obtain ⟨hadmits, hp⟩ := (ruleOwner_domain hzone use rest).mp hp
      refine hrules (hun.imp_right fun hun => ?_) hadmits p hp
      rw [hzoneDns] at hun
      exact hnone.mp (hun.resolve_right hdisabled)

end

end

/-- A zone pinned to alice, and a query at which the zone's record is read. -/
theorem owner_pinned_iff_at : letI := sample
    letI := Sample.relays
    let zone : Str := "images.example.com"
    let s := DnsState.boot (DnsPins.pin .empty zone Sample.alice.id.toStr 100)
    let q : Query := ⟨0, Sample.txtAnswer Sample.alice zone 100, 200, none⟩
    let node := { Sample.node Policy.default with
      dns := fun zone => (resolveZone Sample.dnsConfig s zone q).1 }
    (∀ p, Use.reference.owner node (zone ++ '/' :: "app:1.0".toList) = some p →
        p = Sample.alice.id) ↔
      (Use.reference.shown "app:1.0" ≠ [] → ∀ P, s.Answers zone q.now P →
        Use.reference.Admits P.toStr "app:1.0" →
          validateName (Use.reference.name "app:1.0") = .ok () → P = Sample.alice.id) ∧
      (Use.reference.shown "app:1.0" = [] ∨ Unchecked s zone q →
        Use.reference.Admits zone "app:1.0" →
          ∀ p, RuleOwner node.policy node.id zone (Use.reference.name "app:1.0") p →
            p = Sample.alice.id) := by
  let _ := sample
  let _ := Sample.relays
  intro zone s q node
  refine @owner_pinned_iff sample Sample.relays Sample.dnsConfig s zone q Sample.alice.id node rfl
    rfl (by decide +kernel) (by decide +kernel) ?_ Use.reference "app:1.0"
  rintro P (rfl | ⟨new, relay, seed, h⟩)
  · decide +kernel
  · cases h

/-- A zone is pinned to alice, and its lookup fails: the path is an image of bob's own. -/
theorem silence_unpins : letI := sample
    letI := Sample.relays
    let zone : Str := "images.example.com"
    let s := DnsState.boot (DnsPins.pin .empty zone Sample.alice.id.toStr 100)
    let q : Query := ⟨0, none, 200, none⟩
    let node := { Sample.node Policy.default with
      dns := fun zone => (resolveZone Sample.dnsConfig s zone q).1 }
    s.pins.keyOf zone = some Sample.alice.id.toStr ∧
      ¬ ∀ p, Use.path.owner node (zone ++ '/' :: "app".toList) = some p → p = Sample.alice.id := by
  let _ := sample
  let _ := Sample.relays
  intro zone s q node
  refine ⟨by decide +kernel, fun h => ?_⟩
  have hbob : Use.path.owner node (zone ++ '/' :: "app".toList) = some Sample.bob.id := by
    decide +kernel
  have hne : Sample.bob.id ≠ Sample.alice.id := by decide +kernel
  exact hne (h _ hbob)

end Ocid.Pinned
