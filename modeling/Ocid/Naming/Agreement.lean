import Ocid.Naming.Pinned

/-!
# Naming — Agreement — the registry and the command line read one reference

The registry splits a path from its tag before it resolves it; the control API is given `path:tag`,
strips a pasted location twice, trims, cuts the tag off and takes what is left for a name.

Both always read the same image where the path is itself a name that is not stripped, or such a name
behind white space that starts with a key (`Agreeable`).  For every other path that the registry
accepts under some policy there is a policy and a node for which they read different images, or only
the registry reads one (`agrees_iff`).  Under one policy, for one node, they read the same image where
what is left of the path, when it was stripped, is that image (`Leaves`).
-/

namespace Ocid

/-! ### What is done to the path in front of a tag -/

/-- What `stripRegistryLocation` makes of a path that a tag follows. -/
def stripFront (s : Str) : Str :=
  let s := s.dropWhile Str.isWhitespace
  let s := (("https://" : Str).isPrefixOf? s <|> ("http://" : Str).isPrefixOf? s).getD s
  match Str.splitOnce '/' s with
  | none => s
  | some (first, rest) => if stripRegistryLocation.isLocation first then rest else s

section
variable {r s t : Str}

theorem trim_tagged (ht : validateTag t = .ok ()) (s : Str) :
    Str.trim (s ++ ':' :: t) = s.dropWhile Str.isWhitespace ++ ':' :: t := by
  have hcolon : Str.isWhitespace ':' = false := by decide
  have hdrop : (s ++ ':' :: t).dropWhile Str.isWhitespace =
      s.dropWhile Str.isWhitespace ++ ':' :: t := by
    rw [List.dropWhile_append]
    split
    · rename_i hnil
      rw [List.isEmpty_iff.mp hnil, List.dropWhile_cons_of_neg (by simp [hcolon]), List.nil_append]
    · rfl
  have hlast : t.rdropWhile Str.isWhitespace = t := by
    rw [List.rdropWhile_eq_self_iff]
    intro hne
    simp [(of_mem_tag ht (List.getLast_mem hne)).2.2]
  rw [Str.trim, hdrop, Str.rdropWhile_append_cons hcolon, hlast]

/-- A scheme ends before a tag begins. -/
theorem isPrefixOf?_tagged (ht : validateTag t = .ok ()) {scheme : Str}
    (hscheme : scheme.getLast? = some '/') (s : Str) :
    scheme.isPrefixOf? (s ++ ':' :: t) = (scheme.isPrefixOf? s).map (· ++ ':' :: t) := by
  cases h : scheme.isPrefixOf? s with
  | some x =>
      obtain rfl := List.isPrefixOf?_eq_some_iff_append_eq.mp h
      rw [List.append_assoc]
      exact List.isPrefixOf?_eq_some_iff_append_eq.mpr rfl
  | none =>
      rw [Option.map_none]
      cases h' : scheme.isPrefixOf? (s ++ ':' :: t) with
      | none => rfl
      | some x =>
          have happ := List.isPrefixOf?_eq_some_iff_append_eq.mp h'
          rcases List.append_eq_append_iff.mp happ with ⟨y, rfl, -⟩ | ⟨y, rfl, hy⟩
          · rw [List.isPrefixOf?_eq_some_iff_append_eq.mpr rfl] at h
            cases h
          · -- then the tag would have the scheme's last slash
            cases y with
            | nil =>
                rw [List.append_nil] at h
                rw [List.isPrefixOf?_eq_some_iff_append_eq.mpr (List.append_nil s)] at h
                cases h
            | cons c y =>
                obtain ⟨rfl, rfl⟩ := List.cons.inj hy
                cases y with
                | nil => simp at hscheme
                | cons d y =>
                    have hlast : (d :: y).getLast? = some '/' := by
                      rw [List.getLast?_append_of_ne_nil _ (List.cons_ne_nil _ _),
                        List.getLast?_cons_cons] at hscheme
                      exact hscheme
                    exact absurd rfl
                      (of_mem_tag ht (List.mem_append_left _ (List.mem_of_getLast? hlast))).2.1

theorem slash_notMem_tag (ht : validateTag t = .ok ()) : '/' ∉ ':' :: t := by
  intro h
  rcases List.mem_cons.mp h with h | h
  · revert h
    decide
  · exact (of_mem_tag ht h).2.1 rfl

theorem splitOnce_tagged (ht : validateTag t = .ok ()) (s : Str) :
    Str.splitOnce '/' (s ++ ':' :: t) =
      (Str.splitOnce '/' s).map fun p => (p.1, p.2 ++ ':' :: t) := by
  cases h : Str.splitOnce '/' s with
  | none =>
      have hno := Str.splitOnce_eq_none.mp h
      refine Str.splitOnce_eq_none.mpr fun hmem => ?_
      exact (List.mem_append.mp hmem).elim hno (slash_notMem_tag ht)
  | some p =>
      obtain ⟨rfl, ha⟩ := Str.splitOnce_eq_some.mp h
      rw [List.append_assoc, List.cons_append]
      exact Str.splitOnce_append ha _

/-- Stripping works on the path and leaves the tag. -/
theorem stripRegistryLocation_path (ht : validateTag t = .ok ()) (s : Str) :
    stripRegistryLocation (s ++ ':' :: t) = stripFront s ++ ':' :: t := by
  have hscheme : (("https://" : Str).isPrefixOf? (s.dropWhile Str.isWhitespace ++ ':' :: t) <|>
      ("http://" : Str).isPrefixOf? (s.dropWhile Str.isWhitespace ++ ':' :: t)).getD
        (s.dropWhile Str.isWhitespace ++ ':' :: t) =
      (("https://" : Str).isPrefixOf? (s.dropWhile Str.isWhitespace) <|>
        ("http://" : Str).isPrefixOf? (s.dropWhile Str.isWhitespace)).getD
          (s.dropWhile Str.isWhitespace) ++ ':' :: t := by
    rw [isPrefixOf?_tagged ht (by decide), isPrefixOf?_tagged ht (by decide)]
    cases ("https://" : Str).isPrefixOf? (s.dropWhile Str.isWhitespace) with
    | some x => rfl
    | none => cases ("http://" : Str).isPrefixOf? (s.dropWhile Str.isWhitespace) <;> rfl
  rw [stripRegistryLocation, stripFront, trim_tagged ht]
  simp only [hscheme, splitOnce_tagged ht]
  generalize (("https://" : Str).isPrefixOf? (s.dropWhile Str.isWhitespace) <|>
    ("http://" : Str).isPrefixOf? (s.dropWhile Str.isWhitespace)).getD
      (s.dropWhile Str.isWhitespace) = x
  cases Str.splitOnce '/' x with
  | none => rfl
  | some p =>
      have hne : p.2 ++ ':' :: t ≠ [] := by simp
      simp only [Option.map_some, hne, if_false]
      split <;> rfl

theorem stripFront_suffix (s : Str) : stripFront s <:+ s := by
  have hscheme : (("https://" : Str).isPrefixOf? (s.dropWhile Str.isWhitespace) <|>
      ("http://" : Str).isPrefixOf? (s.dropWhile Str.isWhitespace)).getD
        (s.dropWhile Str.isWhitespace) <:+ s := by
    have hdrop : s.dropWhile Str.isWhitespace <:+ s := List.dropWhile_suffix _
    cases h : ("https://" : Str).isPrefixOf? (s.dropWhile Str.isWhitespace) with
    | some x =>
        have happ := List.isPrefixOf?_eq_some_iff_append_eq.mp h
        exact List.IsSuffix.trans ⟨_, happ⟩ hdrop
    | none =>
        cases h' : ("http://" : Str).isPrefixOf? (s.dropWhile Str.isWhitespace) with
        | some x =>
            have happ := List.isPrefixOf?_eq_some_iff_append_eq.mp h'
            exact List.IsSuffix.trans ⟨_, happ⟩ hdrop
        | none => exact hdrop
  rw [stripFront]
  generalize (("https://" : Str).isPrefixOf? (s.dropWhile Str.isWhitespace) <|>
    ("http://" : Str).isPrefixOf? (s.dropWhile Str.isWhitespace)).getD
      (s.dropWhile Str.isWhitespace) = x at hscheme
  cases hsplit : Str.splitOnce '/' x with
  | none => exact hscheme
  | some p =>
      obtain ⟨rfl, -⟩ := Str.splitOnce_eq_some.mp hsplit
      simp only
      split
      · exact List.IsSuffix.trans ⟨p.1 ++ ['/'], by simp⟩ hscheme
      · exact hscheme

/-- White space in front makes no difference. -/
theorem stripFront_dropWhile (s : Str) :
    stripFront (s.dropWhile Str.isWhitespace) = stripFront s := by
  rw [stripFront, stripFront, List.dropWhile_idempotent]

theorem dropWhile_slash (first rest : Str) : (first ++ '/' :: rest).dropWhile Str.isWhitespace =
    first.dropWhile Str.isWhitespace ++ '/' :: rest := by
  have hslash : Str.isWhitespace '/' = false := by decide
  rw [List.dropWhile_append]
  split
  · rename_i hnil
    rw [List.isEmpty_iff.mp hnil, List.dropWhile_cons_of_neg (by simp [hslash]), List.nil_append]
  · rfl

/-- A path with a first part and a name behind it has no scheme. -/
theorem stripFront_append {first rest : Str} (hfirst : '/' ∉ first) (hrest : NameOk rest) :
    stripFront (first ++ '/' :: rest) =
      if stripRegistryLocation.isLocation (first.dropWhile Str.isWhitespace) then rest
      else first.dropWhile Str.isWhitespace ++ '/' :: rest := by
  have hfirst' : '/' ∉ first.dropWhile Str.isWhitespace := fun h =>
    hfirst ((List.dropWhile_suffix _).subset h)
  rw [stripFront]
  simp only [dropWhile_slash]
  generalize first.dropWhile Str.isWhitespace = f at hfirst'
  -- a scheme would leave an empty part behind the first slash
  have hno : ∀ scheme front : Str, scheme = front ++ ("//" : Str) → '/' ∉ front →
      scheme.isPrefixOf? (f ++ '/' :: rest) = none := by
    rintro scheme front rfl hfront
    cases h : (front ++ ("//" : Str)).isPrefixOf? (f ++ '/' :: rest) with
    | none => rfl
    | some x =>
        have happ := List.isPrefixOf?_eq_some_iff_append_eq.mp h
        have hsplit := Str.splitOnce_append hfirst' rest
        rw [← happ, List.append_assoc] at hsplit
        have hsplit' := Str.splitOnce_append hfront ('/' :: x)
        cases hsplit.symm.trans hsplit'
        exact absurd rfl (hrest.ends.1 '/' rfl)
  rw [hno "https://" "https:" rfl (by decide), hno "http://" "http:" rfl (by decide)]
  show (match Str.splitOnce '/' (f ++ '/' :: rest) with | none => _ | some (_, _) => _) = _
  rw [Str.splitOnce_append hfirst']
  rfl

theorem splitTag_append (ht : validateTag t = .ok ()) (s : Str) :
    splitTag (s ++ ':' :: t) = (validateName s).map fun _ => (s, some t) := by
  rw [splitTag, cutTag_append ht]
  cases validateName s with
  | error e => rfl
  | ok u => simp [ht, bind, Except.bind, pure, Except.pure, Except.map]

end

section
variable [External] {r s t : Str} {policy : Policy} {selfId : PublisherId}

/-- What is left starts like a `did:key`, once the white space in front is gone. -/
def LooksExplicit (s t : Str) : Prop :=
  ("did:key:" : Str).isPrefixOf (s.dropWhile Str.isWhitespace ++ ':' :: t) = true

instance (s t : Str) : Decidable (LooksExplicit s t) := inferInstanceAs (Decidable (_ = true))

omit [External] in
/-- No name starts like a `did:key`. -/
theorem not_looksExplicit (ht : validateTag t = .ok ()) (hs : NameOk (s.dropWhile Str.isWhitespace)) :
    ¬ LooksExplicit s t := by
  have htag : ∀ t' ∈ some t, validateTag t' = .ok () := fun _ h => Option.some.inj h ▸ ht
  have hplain := tagged_ne_didKey hs htag
  rw [tagged] at hplain
  rw [LooksExplicit, hplain]
  exact Bool.false_ne_true

/-- What is read as a `did:key` depends on neither the policy nor the node. -/
theorem parse_path (ht : validateTag t = .ok ()) (s : Str) (policy : Policy)
    (selfId : PublisherId) :
    (LooksExplicit s t → ImageRef.parse (s ++ ':' :: t) policy selfId =
      ImageRef.parseExplicit (s.dropWhile Str.isWhitespace ++ ':' :: t)) ∧
    (¬ LooksExplicit s t → ImageRef.parse (s ++ ':' :: t) policy selfId =
      (validateName (stripFront s)).bind fun _ =>
        (resolveRepo (stripFront s) policy selfId).map fun x => ⟨x.1, x.2, some t⟩) := by
  rw [LooksExplicit]
  refine ⟨fun h => ?_, fun h => ?_⟩
  · simp only [ImageRef.parse, trim_tagged ht, h, if_true]
  · simp only [ImageRef.parse, trim_tagged ht, h, stripRegistryLocation_path ht, stripFront_dropWhile,
      splitTag_append ht, Bool.false_eq_true, if_false]
    cases validateName (stripFront s) with
    | error e => rfl
    | ok u => cases hr : resolveRepo (stripFront s) policy selfId <;>
        simp [Except.map, Except.bind, bind, pure, Except.pure, hr]

/-- An explicit reference that is read has a first part, and a name behind it. -/
theorem parseExplicit_path (ht : validateTag t = .ok ()) {K : PublisherId} {n : Str}
    {tag : Option Str} (h : ImageRef.parseExplicit (s.dropWhile Str.isWhitespace ++ ':' :: t) =
      .ok ⟨K, n, tag⟩) : NameOk n ∧ n <:+ s := by
  have hlast : (s.dropWhile Str.isWhitespace ++ ':' :: t).rdropWhile (· == '/') =
      s.dropWhile Str.isWhitespace ++ ':' :: t := by
    rw [Str.rdropWhile_append_cons (by decide)]
    refine congrArg (fun x => s.dropWhile Str.isWhitespace ++ ':' :: x) ?_
    rw [List.rdropWhile_eq_self_iff]
    intro hne
    simpa using (of_mem_tag ht (List.getLast_mem hne)).2.1
  simp only [ImageRef.parseExplicit, trim_tagged ht, List.dropWhile_idempotent,
    Str.trimEndMatches, hlast, splitOnce_tagged ht] at h
  cases hsplit : Str.splitOnce '/' (s.dropWhile Str.isWhitespace) with
  | none =>
      rw [hsplit] at h
      cases h
  | some p =>
      obtain ⟨pubs, rest⟩ := p
      simp only [hsplit, Option.map_some, splitTag_append ht] at h
      cases hpub : parsePublisher pubs with
      | error e =>
          rw [hpub] at h
          cases h
      | ok k =>
          cases hv : validateName rest with
          | error e =>
              rw [hpub, hv] at h
              cases h
          | ok u =>
              rw [hpub, hv] at h
              cases h
              have hs := (Str.splitOnce_eq_some.mp hsplit).1
              refine ⟨(validateName_eq_ok.mp hv).1, ?_⟩
              have hrest : rest <:+ s.dropWhile Str.isWhitespace := ⟨pubs ++ ['/'], by simp [hs]⟩
              exact hrest.trans (List.dropWhile_suffix _)

section
variable {dns : Str → Except Err ZoneOutcome}

theorem resolveImageRef_ok (hdns : ∀ zone, dns zone = .ok .noRecord) (ht : validateTag t = .ok ())
    {x : ImageRef} : resolveImageRef dns policy selfId (r ++ ':' :: t) = .ok x ↔
      ImageRef.parse (stripFront r ++ ':' :: t) policy selfId = .ok x := by
  simp only [resolveImageRef, stripRegistryLocation_path ht, rewriteDnsPublisher_noRecord hdns, bind,
    Except.bind]
  cases ImageRef.parse (stripFront r ++ ':' :: t) policy selfId <;>
    simp [Except.context, Except.mapError]

/-- What is read as a `did:key` is the same for every policy and every node. -/
theorem resolveImageRef_explicit (hdns : ∀ zone, dns zone = .ok .noRecord)
    (ht : validateTag t = .ok ()) (h : LooksExplicit (stripFront r) t) {p : PublisherId} {n : Str}
    (hx : resolveImageRef dns policy selfId (r ++ ':' :: t) = .ok ⟨p, n, some t⟩) :
    (NameOk n ∧ n <:+ r) ∧ ∀ policy' selfId',
      resolveImageRef dns policy' selfId' (r ++ ':' :: t) = .ok ⟨p, n, some t⟩ := by
  rw [resolveImageRef_ok hdns ht, (parse_path ht _ _ _).1 h] at hx
  obtain ⟨hn, hsub⟩ := parseExplicit_path ht hx
  refine ⟨⟨hn, hsub.trans (stripFront_suffix r)⟩, fun policy' selfId' => ?_⟩
  rw [resolveImageRef_ok hdns ht, (parse_path ht _ _ _).1 h, hx]

/-- Otherwise what is left of the path is a name, and is resolved. -/
theorem resolveImageRef_left (hdns : ∀ zone, dns zone = .ok .noRecord)
    (ht : validateTag t = .ok ()) (h : ¬ LooksExplicit (stripFront r) t) {p : PublisherId} {n : Str} :
    resolveImageRef dns policy selfId (r ++ ':' :: t) = .ok ⟨p, n, some t⟩ ↔
      validateName (stripFront (stripFront r)) = .ok () ∧
        resolveRepo (stripFront (stripFront r)) policy selfId = .ok (p, n) := by
  rw [resolveImageRef_ok hdns ht, (parse_path ht _ _ _).2 h]
  cases validateName (stripFront (stripFront r)) with
  | error e => simp [Except.bind]
  | ok u =>
      cases resolveRepo (stripFront (stripFront r)) policy selfId with
      | error e => simp [Except.bind, Except.map]
      | ok x =>
          obtain ⟨K, m⟩ := x
          simp [Except.bind, Except.map]

/-- What is left of the path is the image: the key and the name it says where it looks explicit, and
what it resolves to as a name elsewhere. -/
def Leaves (policy : Policy) (selfId : PublisherId) (r t : Str) (p : PublisherId) (n : Str) : Prop :=
  if LooksExplicit (stripFront r) t then
    ImageRef.parseExplicit ((stripFront r).dropWhile Str.isWhitespace ++ ':' :: t) =
      .ok ⟨p, n, some t⟩
  else validateName (stripFront (stripFront r)) = .ok () ∧
    resolveRepo (stripFront (stripFront r)) policy selfId = .ok (p, n)

theorem resolveImageRef_iff_leaves (hdns : ∀ zone, dns zone = .ok .noRecord)
    (ht : validateTag t = .ok ()) {p : PublisherId} {n : Str} :
    resolveImageRef dns policy selfId (r ++ ':' :: t) = .ok ⟨p, n, some t⟩ ↔
      Leaves policy selfId r t p n := by
  rw [Leaves]
  split
  · rename_i h
    rw [resolveImageRef_ok hdns ht, (parse_path ht _ _ _).1 h]
  · rename_i h
    exact resolveImageRef_left hdns ht h

/-- What is read has no slash at its ends. -/
theorem trimMatches_of_resolveImageRef (hdns : ∀ zone, dns zone = .ok .noRecord)
    (ht : validateTag t = .ok ()) {p : PublisherId} {n : Str}
    (h : resolveImageRef dns policy selfId (r ++ ':' :: t) = .ok ⟨p, n, some t⟩) :
    Str.trimMatches '/' r = r := by
  have hname : ∃ m, NameOk m ∧ m <:+ r := by
    by_cases hex : LooksExplicit (stripFront r) t
    · exact ⟨n, (resolveImageRef_explicit hdns ht hex h).1⟩
    · obtain ⟨hv, -⟩ := (resolveImageRef_left hdns ht hex).mp h
      exact ⟨_, (validateName_eq_ok.mp hv).1, (stripFront_suffix _).trans (stripFront_suffix r)⟩
  refine Str.trimMatches_eq_self (fun c hc hslash => ?_) fun c hc => ?_
  · -- a slash in front is never stripped
    obtain ⟨s, rfl⟩ : ∃ s, r = '/' :: s := by
      cases r with
      | nil => cases hc
      | cons d s =>
          cases hc
          exact ⟨s, by rw [hslash]⟩
    have hws : ('/' :: s).dropWhile Str.isWhitespace = '/' :: s := rfl
    have hstay : stripFront ('/' :: s) = '/' :: s := rfl
    have hex : ¬ LooksExplicit (stripFront ('/' :: s)) t := by
      rw [hstay, LooksExplicit, hws]
      exact Bool.false_ne_true
    obtain ⟨hv, -⟩ := (resolveImageRef_left hdns ht hex).mp h
    rw [hstay, hstay] at hv
    exact (validateName_eq_ok.mp hv).1.ends.1 '/' rfl rfl
  · obtain ⟨m, hm, a, rfl⟩ := hname
    rw [List.getLast?_append_of_ne_nil _ hm.ne_nil] at hc
    exact hm.ends.2 c hc

end

/-! ### What a path is read as -/

/-- No publisher is read from the first part of a path. -/
def NoSlot (policy : Policy) (repo : Str) : Prop :=
  isHexPublisher (firstPart repo) = false ∧
    ('/' ∈ repo → (policy.parsePublisherArg (firstPart repo)).toOption = none)

/-- The four ways to read a path that neither starts nor ends with a slash. -/
inductive Reading (policy : Policy) (selfId : PublisherId) (repo : Str) : PublisherId → Str → Prop
  | slot {first rest : Str} {K : PublisherId} (hrepo : repo = first ++ '/' :: rest)
      (hfirst : '/' ∉ first) (hslot : policy.parsePublisherArg first = .ok K)
      (hrest : validateName rest = .ok ()) : Reading policy selfId repo K rest
  | image {K : PublisherId} {n : Str} (hslot : NoSlot policy repo)
      (himage : policy.resolveAlias repo = some (.image K n)) : Reading policy selfId repo K n
  | aliased {first rest : Str} {K : PublisherId} (hslot : NoSlot policy repo)
      (himage : ∀ p m, policy.resolveAlias repo ≠ some (.image p m))
      (hrepo : repo = first ++ '/' :: rest) (hfirst : '/' ∉ first)
      (halias : policy.resolveAlias first = some (.publisher K))
      (hrest : validateName rest = .ok ()) : Reading policy selfId repo K rest
  | self (hslot : NoSlot policy repo)
      (himage : ∀ p m, policy.resolveAlias repo ≠ some (.image p m))
      (halias : ∀ p, policy.resolveAlias (firstPart repo) ≠ some (.publisher p))
      (hname : validateName repo = .ok ()) : Reading policy selfId repo selfId repo

omit [External] in
theorem firstPart_append {first : Str} (hfirst : '/' ∉ first) (rest : Str) :
    firstPart (first ++ '/' :: rest) = first := by
  rw [firstPart, Str.splitOnce_append hfirst]
  rfl

/-- A key in hex is no domain. -/
theorem parsePublisherArg_of_isHex {first : Str} (h : isHexPublisher first = true) {K : PublisherId} :
    policy.parsePublisherArg first = .ok K ↔ parsePublisher first = .ok K := by
  have hdomain : isDomainName first = false := by
    by_contra hzone
    rw [Pinned.isHexPublisher_domain (Bool.eq_true_of_not_eq_false hzone)] at h
    cases h
  rw [Policy.parsePublisherArg]
  cases hp : parsePublisher first with
  | ok k => simp
  | error e => simp [hdomain, Except.context, Except.mapError]

/-- **What a path resolves to**, once the slashes at its ends are gone. -/
theorem resolveRepo_eq_ok {repo : Str} {K : PublisherId} {n : Str} :
    resolveRepo repo policy selfId = .ok (K, n) ↔
      Str.trimMatches '/' repo ≠ [] ∧ Reading policy selfId (Str.trimMatches '/' repo) K n := by
  rw [resolveRepo]
  generalize Str.trimMatches '/' repo = u
  cases hu : u.isEmpty with
  | true => simp [List.isEmpty_iff.mp hu]
  | false =>
      have hne : u ≠ [] := List.isEmpty_eq_false_iff.mp hu
      simp only [Bool.false_eq_true, if_false, hne, ne_eq, not_false_eq_true, true_and]
      cases hsplit : Str.splitOnce '/' u with
      | none =>
          have hslash := Str.splitOnce_eq_none.mp hsplit
          have hfirst : firstPart u = u := by rw [firstPart, hsplit]; rfl
          have hno : ∀ first rest : Str, u ≠ first ++ '/' :: rest := by
            rintro first rest rfl
            exact hslash (List.mem_append_right _ List.mem_cons_self)
          simp only [Option.map_none, Option.bind_none]
          cases hhex : isHexPublisher u with
          | true =>
              simp only [if_true, reduceCtorEq, false_iff]
              intro h
              cases h with
              | slot hrepo => exact hno _ _ hrepo
              | aliased _ _ hrepo => exact hno _ _ hrepo
              | image hslot | self hslot => exact absurd (hfirst ▸ hslot.1) (by simp [hhex])
          | false =>
              have hslot : NoSlot policy u := ⟨by rw [hfirst, hhex], fun h => absurd h hslash⟩
              simp only [Bool.false_eq_true, if_false]
              refine (resolveRepo_end fun _ => .error ["missing image name after alias"]).trans ?_
              constructor
              · rintro (h | ⟨himage, ⟨p, -, h⟩ | ⟨halias, hv, rfl, rfl⟩⟩)
                · exact .image hslot h
                · cases h
                · exact .self hslot himage (hfirst.symm ▸ halias) hv
              · intro h
                cases h with
                | slot hrepo => exact absurd hrepo (hno _ _)
                | aliased _ _ hrepo => exact absurd hrepo (hno _ _)
                | image _ h => exact Or.inl h
                | self _ himage halias hv =>
                    exact Or.inr ⟨himage, Or.inr ⟨hfirst ▸ halias, hv, rfl, rfl⟩⟩
      | some ab =>
          obtain ⟨first, rest⟩ := ab
          obtain ⟨rfl, hfirst⟩ := Str.splitOnce_eq_some.mp hsplit
          have hpart := firstPart_append hfirst rest
          -- the parts of the path are determined
          have hparts : ∀ a b : Str, first ++ '/' :: rest = a ++ '/' :: b → '/' ∉ a →
              a = first ∧ b = rest := by
            intro a b hab ha
            have h := Str.splitOnce_append ha b
            rw [← hab, hsplit] at h
            cases h
            exact ⟨rfl, rfl⟩
          simp only [Option.map_some, Option.bind_some]
          cases hhex : isHexPublisher first with
          | true =>
              simp only [if_true]
              constructor
              · intro h
                cases hv : validateName rest with
                | error e => rw [hv] at h; cases h
                | ok u =>
                    cases hp : parsePublisher first with
                    | error e => rw [hv, hp] at h; cases h
                    | ok k =>
                        rw [hv, hp] at h
                        cases h
                        exact .slot rfl hfirst ((parsePublisherArg_of_isHex hhex).mpr hp) hv
              · intro h
                cases h with
                | slot hrepo ha hslot hrest =>
                    obtain ⟨rfl, rfl⟩ := hparts _ _ hrepo ha
                    rw [hrest, (parsePublisherArg_of_isHex hhex).mp hslot]
                    rfl
                | aliased hslot | image hslot | self hslot =>
                    exact absurd (hpart ▸ hslot.1) (by simp [hhex])
          | false =>
              simp only [Bool.false_eq_true, if_false]
              cases harg : policy.parsePublisherArg first with
              | ok k =>
                  simp only [Except.toOption, Option.map_some, check_then_eq_ok]
                  constructor
                  · rintro ⟨hv, rfl, rfl⟩
                    exact .slot rfl hfirst harg hv
                  · intro h
                    cases h with
                    | slot hrepo ha hslot hrest =>
                        obtain ⟨rfl, rfl⟩ := hparts _ _ hrepo ha
                        cases harg.symm.trans hslot
                        exact ⟨hrest, rfl, rfl⟩
                    | aliased hslot | image hslot | self hslot =>
                        have hnone := hslot.2 (by simp)
                        rw [hpart, harg] at hnone
                        cases hnone
              | error e =>
                  have hslot : NoSlot policy (first ++ '/' :: rest) :=
                    ⟨hpart.symm ▸ hhex, fun _ => by rw [hpart, harg]; rfl⟩
                  simp only [Except.toOption, Option.map_none]
                  refine (resolveRepo_end fun p => do validateName rest; pure (p, rest)).trans ?_
                  simp only [check_then_eq_ok]
                  constructor
                  · rintro (h | ⟨himage, ⟨p, halias, hv, rfl, rfl⟩ | ⟨halias, hv, rfl, rfl⟩⟩)
                    · exact .image hslot h
                    · exact .aliased hslot himage rfl hfirst halias hv
                    · exact .self hslot himage (hpart.symm ▸ halias) hv
                  · intro h
                    cases h with
                    | slot hrepo ha harg' =>
                        obtain ⟨rfl, rfl⟩ := hparts _ _ hrepo ha
                        cases harg.symm.trans harg'
                    | image _ h => exact Or.inl h
                    | aliased _ himage hrepo ha halias hrest =>
                        obtain ⟨rfl, rfl⟩ := hparts _ _ hrepo ha
                        exact Or.inr ⟨himage, Or.inl ⟨_, halias, hrest, rfl, rfl⟩⟩
                    | self _ himage halias hv =>
                        exact Or.inr ⟨himage, Or.inr ⟨hpart ▸ halias, hv, rfl, rfl⟩⟩

theorem Reading.resolveRepo {repo : Str} {K : PublisherId} {n : Str}
    (h : Reading policy selfId repo K n) (htrim : Str.trimMatches '/' repo = repo) (hne : repo ≠ []) :
    Ocid.resolveRepo repo policy selfId = .ok (K, n) :=
  resolveRepo_eq_ok.mpr ⟨by rwa [htrim], by rwa [htrim]⟩

/-! ### Paths that are read alike -/

/-- Once the white space in front is gone the path is a name that is not stripped; and there was
none, or the path starts with a key. -/
def Agreeable (r : Str) : Prop :=
  validateName (r.dropWhile Str.isWhitespace) = .ok () ∧
    stripRegistryLocation (r.dropWhile Str.isWhitespace) = r.dropWhile Str.isWhitespace ∧
    (r.dropWhile Str.isWhitespace = r ∨ '/' ∈ r.dropWhile Str.isWhitespace ∧
      (parsePublisher (firstPart (r.dropWhile Str.isWhitespace))).isOk = true)

omit [External] in
/-- A name is stripped the same way with a tag and without. -/
theorem stripFront_name (hs : NameOk s) : stripFront s = stripRegistryLocation s := by
  have ht : validateTag "t" = .ok () := by decide
  have htag : ∀ t ∈ some ("t" : Str), validateTag t = .ok () := fun _ h => Option.some.inj h ▸ ht
  have htagged := (stripRegistryLocation_tagged hs htag).1
  exact List.append_cancel_right ((stripRegistryLocation_path ht s).symm.trans htagged)

theorem parsePublisher_congr {a b : Str} (h : Str.trim a = Str.trim b) :
    parsePublisher a = parsePublisher b := by
  rw [parsePublisher, parsePublisher, h]

theorem parsePublisher_dropWhile (s : Str) :
    parsePublisher (s.dropWhile Str.isWhitespace) = parsePublisher s :=
  parsePublisher_congr (by rw [Str.trim, Str.trim, List.dropWhile_idempotent])

theorem parsePublisherArg_of_key {K : PublisherId} (h : parsePublisher s = .ok K) :
    policy.parsePublisherArg s = .ok K := by
  rw [Policy.parsePublisherArg, h]

/-- Without a domain that is mapped, only a key is read. -/
theorem parsePublisherArg_of_no_dns (hdns : policy.dns = []) {K : PublisherId} :
    policy.parsePublisherArg s = .ok K ↔ parsePublisher s = .ok K := by
  refine ⟨fun h => ?_, parsePublisherArg_of_key⟩
  rw [Policy.parsePublisherArg, hdns] at h
  cases hp : parsePublisher s with
  | ok k =>
      rw [hp] at h
      exact h
  | error e =>
      rw [hp] at h
      cases hzone : isDomainName s with
      | true => simp [hzone] at h
      | false => simp [hzone, Except.context, Except.mapError] at h

/-- A path that is agreeable is read alike, whatever the policy. -/
theorem Agreeable.agrees {dns : Str → Except Err ZoneOutcome} (h : Agreeable r)
    (hdns : ∀ zone, dns zone = .ok .noRecord) (ht : validateTag t = .ok ()) {K : PublisherId} {n : Str}
    (hr : resolveRepo r policy selfId = .ok (K, n)) :
    resolveImageRef dns policy selfId (r ++ ':' :: t) = .ok ⟨K, n, some t⟩ := by
  obtain ⟨hv, hstrip, hcase⟩ := h
  have hok := (validateName_eq_ok.mp hv).1
  have hfront : stripFront r = r.dropWhile Str.isWhitespace := by
    rw [← stripFront_dropWhile, stripFront_name hok, hstrip]
  have hleft : stripFront (stripFront r) = r.dropWhile Str.isWhitespace := by
    rw [hfront, stripFront_dropWhile, hfront]
  have hex : ¬ LooksExplicit (stripFront r) t :=
    not_looksExplicit ht (by rwa [hfront, List.dropWhile_idempotent])
  refine (resolveImageRef_left hdns ht hex).mpr ⟨hleft.symm ▸ hv, ?_⟩
  rw [hleft]
  rcases hcase with hsame | ⟨hslash, hkey⟩
  · rw [hsame, hr]
  · -- the key is read with the white space and without
    obtain ⟨⟨f, rest⟩, hsplit⟩ := Option.ne_none_iff_exists'.mp
      (mt Str.splitOnce_eq_none.mp (not_not.mpr hslash))
    obtain ⟨hu, hf⟩ := Str.splitOnce_eq_some.mp hsplit
    have hws : ∀ c ∈ r.takeWhile Str.isWhitespace, Str.isWhitespace c = true := fun _ hc =>
      List.mem_takeWhile_imp hc
    have hwhole : r = (r.takeWhile Str.isWhitespace ++ f) ++ '/' :: rest := by
      rw [List.append_assoc, ← hu, List.takeWhile_append_dropWhile]
    have hfirst : '/' ∉ r.takeWhile Str.isWhitespace ++ f := by
      intro hmem
      rcases List.mem_append.mp hmem with hmem | hmem
      · exact absurd (hws _ hmem) (by decide)
      · exact hf hmem
    obtain ⟨k, hk⟩ : ∃ k, parsePublisher f = .ok k := by
      rw [hu, firstPart_append hf] at hkey
      cases hp : parsePublisher f with
      | ok k => exact ⟨k, rfl⟩
      | error e =>
          rw [hp] at hkey
          cases hkey
    have hk' : parsePublisher (r.takeWhile Str.isWhitespace ++ f) = .ok k := by
      rw [← hk]
      refine parsePublisher_congr ?_
      rw [Str.trim, Str.trim, List.dropWhile_append_of_pos hws]
    -- the slashes at the ends of the name are the ones at the ends of the path
    have htrim : Str.trimMatches '/' r = r := by
      refine Str.trimMatches_eq_self (fun c hc => ?_) fun c hc => ?_
      · cases hr' : r.takeWhile Str.isWhitespace with
        | nil =>
            rw [hr', List.nil_append] at hwhole
            exact hok.ends.1 c (by rwa [hu, ← hwhole])
        | cons d w =>
            rw [hwhole, hr'] at hc
            cases hc
            rintro rfl
            exact absurd (hws _ (hr' ▸ List.mem_cons_self)) (by decide)
      · refine hok.ends.2 c ?_
        have hlast := List.getLast?_append_of_ne_nil (r.takeWhile Str.isWhitespace) hok.ne_nil
        rw [List.takeWhile_append_dropWhile] at hlast
        rwa [← hlast]
    obtain ⟨-, hreading⟩ := resolveRepo_eq_ok.mp hr
    rw [htrim] at hreading
    have hno : ¬ NoSlot policy r := by
      intro hslot
      have hnone := hslot.2 (by rw [hwhole]; simp)
      rw [hwhole, firstPart_append hfirst, parsePublisherArg_of_key hk'] at hnone
      cases hnone
    cases hreading with
    | slot hrepo ha hslot hrest =>
        have hparts := Str.splitOnce_append ha n
        rw [← hrepo, hwhole, Str.splitOnce_append hfirst] at hparts
        cases hparts
        cases (parsePublisherArg_of_key hk').symm.trans hslot
        refine resolveRepo_eq_ok.mpr ?_
        rw [Str.trimMatches_eq_self hok.ends.1 hok.ends.2]
        exact ⟨hok.ne_nil, .slot hu hf (parsePublisherArg_of_key hk) hrest⟩
    | image hslot | aliased hslot | self hslot => exact absurd hslot hno

/-! ### Paths that are not agreeable are read in two ways -/

/-- No text of a key has a slash. -/
structure SlashFree : Prop where
  keyFromStr : ∀ s K, External.keyFromStr s = some K → '/' ∉ s
  base58Decode : ∀ s bs, External.base58Decode s = some bs → '/' ∉ s

theorem SlashFree.parsePublisher (hkeys : SlashFree) {K : PublisherId}
    (h : Ocid.parsePublisher s = .ok K) : '/' ∉ s := by
  suffices htrim : '/' ∉ Str.trim s from fun hmem => htrim (Str.mem_trim hmem (by decide))
  rw [Ocid.parsePublisher] at h
  generalize Str.trim s = u at h
  cases hpre : ("did:key:" : Str).isPrefixOf? u with
  | none =>
      rw [hpre] at h
      cases hkey : External.keyFromStr u with
      | none =>
          rw [hkey] at h
          cases h
      | some k => exact hkeys.keyFromStr _ _ hkey
  | some x =>
      simp only [hpre] at h
      cases hz : ("z" : Str).isPrefixOf? x with
      | none =>
          rw [hz] at h
          cases h
      | some b58 =>
          simp only [hz] at h
          cases hd : External.base58Decode b58 with
          | none =>
              rw [hd] at h
              cases h
          | some bs =>
              have hno := hkeys.base58Decode _ _ hd
              have hu := List.isPrefixOf?_eq_some_iff_append_eq.mp hpre
              have hx := List.isPrefixOf?_eq_some_iff_append_eq.mp hz
              rw [← hu, ← hx]
              intro hmem
              rcases List.mem_append.mp hmem with hmem | hmem
              · exact absurd hmem (by decide)
              · exact (List.mem_append.mp hmem).elim (fun hmem => absurd hmem (by decide)) hno

omit [External] in
theorem exists_other (K : PublisherId) : ∃ L : PublisherId, L ≠ K := by
  by_cases h : K = ⟨Sample.bytes32 0⟩
  · exact ⟨⟨Sample.bytes32 1⟩, by rw [h]; decide⟩
  · exact ⟨_, Ne.symm h⟩

/-- A name that is not stripped is agreeable. -/
theorem agreeable_of_left (hv : validateName (stripFront (stripFront r)) = .ok ())
    (h : stripFront (stripFront r) = r) : Agreeable r := by
  rw [h] at hv
  have hsuffix {a b : Str} (hab : a <:+ b) (hba : b <:+ a) : a = b :=
    hab.eq_of_length (le_antisymm hab.length_le hba.length_le)
  have hfront : stripFront r = r := by
    refine hsuffix (stripFront_suffix r) ?_
    have hs := stripFront_suffix (stripFront r)
    rwa [h] at hs
  have hdrop : r.dropWhile Str.isWhitespace = r := by
    refine hsuffix (List.dropWhile_suffix _) ?_
    have hs := stripFront_suffix (r.dropWhile Str.isWhitespace)
    rwa [stripFront_dropWhile, hfront] at hs
  refine ⟨hdrop.symm ▸ hv, ?_, Or.inl hdrop⟩
  rw [hdrop, ← stripFront_name (validateName_eq_ok.mp hv).1, hfront]

omit [External] in
/-- What starts like a `did:key` has it in its first part. -/
theorem colon_mem_of_looksExplicit {first rest : Str}
    (h : LooksExplicit (first ++ '/' :: rest) t) : ':' ∈ first.dropWhile Str.isWhitespace := by
  rw [LooksExplicit, dropWhile_slash, List.append_assoc, List.isPrefixOf_iff_prefix] at h
  obtain ⟨x, hx⟩ := h
  rcases List.append_eq_append_iff.mp hx with ⟨y, hy, -⟩ | ⟨y, hy, hrest⟩
  · rw [hy]
    exact List.mem_append_left _ (by decide)
  · cases y with
    | nil =>
        rw [List.append_nil] at hy
        rw [← hy]
        decide
    | cons c y =>
        obtain ⟨rfl, -⟩ := List.cons.inj hrest
        have hslash : '/' ∈ ("did:key:" : Str) := hy ▸ List.mem_append_right _ List.mem_cons_self
        exact absurd hslash (by decide)

/-- Where the first part decides for another key, nothing but white space is stripped. -/
theorem left_of_parts {dns : Str → Except Err ZoneOutcome} (hdns : ∀ zone, dns zone = .ok .noRecord)
    (ht : validateTag t = .ok ()) {first rest : Str} {K : PublisherId} (hfirst : '/' ∉ first)
    (hrest : validateName rest = .ok ()) (hself : selfId ≠ K)
    (himage : ∀ x p m, policy.resolveAlias x ≠ some (.image p m))
    (h : resolveImageRef dns policy selfId ((first ++ '/' :: rest) ++ ':' :: t) =
      .ok ⟨K, rest, some t⟩) :
    validateName (first.dropWhile Str.isWhitespace ++ '/' :: rest) = .ok () ∧
      stripFront (first.dropWhile Str.isWhitespace ++ '/' :: rest) =
        first.dropWhile Str.isWhitespace ++ '/' :: rest ∧
      Reading policy selfId (first.dropWhile Str.isWhitespace ++ '/' :: rest) K rest := by
  have hok := (validateName_eq_ok.mp hrest).1
  have hfront := stripFront_append hfirst hok
  have hname {m : Str} (hv : validateName m = .ok ())
      (hm : resolveRepo m policy selfId = .ok (K, rest)) :
      Reading policy selfId m K rest := by
    have hends := (validateName_eq_ok.mp hv).1.ends
    have hreading := (resolveRepo_eq_ok.mp hm).2
    rwa [Str.trimMatches_eq_self hends.1 hends.2] at hreading
  by_cases hloc : stripRegistryLocation.isLocation (first.dropWhile Str.isWhitespace) = true
  · -- a location is stripped, and what is left is too short to have a first part
    rw [if_pos hloc] at hfront
    have hspace : rest.dropWhile Str.isWhitespace = rest :=
      List.dropWhile_eq_self_iff.mpr fun hne hws => by
        have := (hok.of_mem (List.getElem_mem hne)).2
        simp [this] at hws
    have hex : ¬ LooksExplicit (stripFront (first ++ '/' :: rest)) t := by
      rw [hfront]
      exact not_looksExplicit ht (by rwa [hspace])
    obtain ⟨hv, hm⟩ := (resolveImageRef_left hdns ht hex).mp h
    rw [hfront] at hv hm
    have hlen := (stripFront_suffix rest).length_le
    have hreading := hname hv hm
    generalize stripFront rest = m at hlen hreading
    cases hreading with
    | slot hrepo | aliased _ _ hrepo =>
        rw [hrepo] at hlen
        simp at hlen
        omega
    | image _ hi => exact absurd hi (himage _ _ _)
    | self => exact absurd rfl hself
  · rw [if_neg hloc] at hfront
    have hfirst' : '/' ∉ first.dropWhile Str.isWhitespace := fun hmem =>
      hfirst ((List.dropWhile_suffix _).subset hmem)
    have hstay := stripFront_append hfirst' hok
    rw [List.dropWhile_idempotent, if_neg hloc] at hstay
    have hex : ¬ LooksExplicit (stripFront (first ++ '/' :: rest)) t := by
      intro hex
      rw [hfront] at hex
      have hcolon := colon_mem_of_looksExplicit hex
      rw [List.dropWhile_idempotent] at hcolon
      simp [stripRegistryLocation.isLocation, hcolon] at hloc
    obtain ⟨hv, hm⟩ := (resolveImageRef_left hdns ht hex).mp h
    rw [hfront, hstay] at hv hm
    exact ⟨hv, hstay, hname hv hm⟩

section
variable {dns : Str → Except Err ZoneOutcome} {p : PublisherId} {n : Str}

/-- Both read `r`, whatever the policy and the node, as the same image. -/
def ReadAlike (dns : Str → Except Err ZoneOutcome) (r t : Str) : Prop :=
  ∀ (policy : Policy) (selfId p : PublisherId) (n : Str), resolveRepo r policy selfId = .ok (p, n) →
    resolveImageRef dns policy selfId (r ++ ':' :: t) = .ok ⟨p, n, some t⟩

/-- With a key or a domain in front: a policy with the same domains and no alias tells. -/
theorem ReadAlike.agreeable_of_slot (h : ReadAlike dns r t) (hdns : ∀ zone, dns zone = .ok .noRecord)
    (ht : validateTag t = .ok ()) (htrim : Str.trimMatches '/' r = r) (hne : r ≠ [])
    {first rest : Str} {K : PublisherId} (hrepo : r = first ++ '/' :: rest) (hfirst : '/' ∉ first)
    (hslot : policy.parsePublisherArg first = .ok K) (hrest : validateName rest = .ok ()) :
    Agreeable r := by
  obtain ⟨self, hself⟩ := exists_other K
  let policy' : Policy := { Policy.default with dns := policy.dns }
  have hreading : Reading policy' self r K rest := .slot hrepo hfirst hslot hrest
  have hr := h policy' self K rest (hreading.resolveRepo htrim hne)
  rw [hrepo] at hr
  obtain ⟨hv, hstay, -⟩ := left_of_parts hdns ht hfirst hrest hself (fun _ _ _ hi => by cases hi) hr
  have hdrop : r.dropWhile Str.isWhitespace = first.dropWhile Str.isWhitespace ++ '/' :: rest := by
    rw [hrepo, dropWhile_slash]
  refine ⟨by rwa [hdrop], ?_, ?_⟩
  · rw [hdrop, ← stripFront_name (validateName_eq_ok.mp hv).1, hstay]
  cases hp : parsePublisher first with
  | ok k =>
      refine Or.inr ⟨by rw [hdrop]; simp, ?_⟩
      rw [hdrop, firstPart_append fun hmem => hfirst ((List.dropWhile_suffix _).subset hmem),
        parsePublisher_dropWhile, hp]
      rfl
  | error e =>
      -- a domain has no white space
      have hzone : isDomainName first = true := by
        by_contra hzone
        rw [Policy.parsePublisherArg, hp] at hslot
        simp [hzone, Except.context, Except.mapError] at hslot
      refine Or.inl ?_
      rw [hdrop, hrepo, List.dropWhile_eq_self_iff.mpr fun hne hws => ?_]
      simp [((Pinned.front_domain hzone).plain _ (List.getElem_mem hne)).2.2] at hws

/-- With one alias, and no domain. -/
theorem noSlot_single (hno : NoSlot policy r) (aliases : List (Str × Str)) :
    NoSlot { Policy.default with aliases } r := by
  refine ⟨hno.1, fun hslash => ?_⟩
  have hnone := hno.2 hslash
  cases hp : parsePublisher (firstPart r) with
  | ok k =>
      rw [parsePublisherArg_of_key hp] at hnone
      cases hnone
  | error e =>
      cases harg : ({ Policy.default with aliases } : Policy).parsePublisherArg (firstPart r) with
      | error e => rfl
      | ok k =>
          rw [parsePublisherArg_of_no_dns rfl, hp] at harg
          cases harg

/-- With an alias of a publisher in front: a policy with that alias alone tells. -/
theorem ReadAlike.agreeable_of_aliased (h : ReadAlike dns r t)
    (hdns : ∀ zone, dns zone = .ok .noRecord) (ht : validateTag t = .ok ())
    (htrim : Str.trimMatches '/' r = r) (hne : r ≠ []) {first rest : Str} {K : PublisherId}
    (hno : NoSlot policy r) (hrepo : r = first ++ '/' :: rest) (hfirst : '/' ∉ first)
    (halias : policy.resolveAlias first = some (.publisher K))
    (hrest : validateName rest = .ok ()) : Agreeable r := by
  obtain ⟨self, hself⟩ := exists_other K
  obtain ⟨target, -, htarget⟩ := Option.bind_eq_some_iff.mp halias
  let policy' : Policy := { Policy.default with aliases := [(first, target)] }
  have hsome : policy'.resolveAlias first = some (.publisher K) := by
    simp [policy', Policy.resolveAlias, htarget]
  have hother : ∀ x, x ≠ first → policy'.resolveAlias x = none := by
    intro x hx
    simp [policy', Policy.resolveAlias, List.lookup, beq_false_of_ne hx]
  have himage : ∀ x p m, policy'.resolveAlias x ≠ some (.image p m) := by
    intro x p m hx
    by_cases hxf : x = first
    · rw [hxf, hsome] at hx
      cases hx
    · rw [hother x hxf] at hx
      cases hx
  have hno' : NoSlot policy' r := noSlot_single hno _
  have hreading : Reading policy' self r K rest :=
    .aliased hno' (himage r) hrepo hfirst hsome hrest
  have hr := h policy' self K rest (hreading.resolveRepo htrim hne)
  rw [hrepo] at hr
  obtain ⟨hv, hstay, hleft⟩ := left_of_parts hdns ht hfirst hrest hself himage hr
  -- the alias is found for what is left as well
  have hsame : first.dropWhile Str.isWhitespace = first := by
    have hfirst' : '/' ∉ first.dropWhile Str.isWhitespace := fun hmem =>
      hfirst ((List.dropWhile_suffix _).subset hmem)
    have hparts {a b : Str} (ha : '/' ∉ a)
        (hab : first.dropWhile Str.isWhitespace ++ '/' :: rest = a ++ '/' :: b) :
        a = first.dropWhile Str.isWhitespace := by
      rw [← firstPart_append ha b, ← hab, firstPart_append hfirst']
    generalize hu : first.dropWhile Str.isWhitespace ++ '/' :: rest = u at hleft
    cases hleft with
    | slot hu' ha hslot =>
        subst hu'
        rw [hparts ha hu, parsePublisherArg_of_no_dns rfl, parsePublisher_dropWhile] at hslot
        have hnone := hno'.2 (by rw [hrepo]; simp)
        rw [hrepo, firstPart_append hfirst, parsePublisherArg_of_key hslot] at hnone
        cases hnone
    | image _ hi => exact absurd hi (himage _ _ _)
    | aliased _ _ hu' ha halias' =>
        subst hu'
        by_contra hne
        rw [hparts ha hu, hother _ hne] at halias'
        cases halias'
    | self => exact absurd rfl hself
  rw [hsame, ← hrepo] at hv hstay
  exact agreeable_of_left (by rw [hstay, hstay, hv]) (by rw [hstay, hstay])

theorem key_of_image {target : Str}
    (h : (parseAliasTarget target).toOption = some (.image p n)) :
    (∃ key, parsePublisher key = .ok p) ∧ validateName n = .ok () := by
  rw [parseAliasTarget] at h
  cases htarget : parsePublisher target with
  | ok k =>
      rw [htarget] at h
      cases h
  | error e =>
      cases hsplit : Str.splitOnce '/' target with
      | none =>
          rw [htarget, hsplit] at h
          cases h
      | some ab =>
          obtain ⟨key, m⟩ := ab
          simp only [htarget, hsplit] at h
          cases hkey : parsePublisher key with
          | error e =>
              rw [hkey] at h
              cases h
          | ok k =>
              cases hv : validateName m with
              | error e =>
                  rw [hkey, hv] at h
                  cases h
              | ok u =>
                  rw [hkey, hv] at h
                  cases h
                  exact ⟨⟨key, hkey⟩, hv⟩

/-- A key, and behind it a name. -/
theorem parseAliasTarget_image (hkeys : SlashFree) {key : Str} (hkey : parsePublisher key = .ok p)
    (hv : validateName n = .ok ()) : parseAliasTarget (key ++ '/' :: n) = .ok (.image p n) := by
  rw [parseAliasTarget]
  cases hwhole : parsePublisher (key ++ '/' :: n) with
  | ok k => exact absurd (hkeys.parsePublisher hwhole) (by simp)
  | error e =>
      simp only [Str.splitOnce_append (hkeys.parsePublisher hkey), hkey, hv]
      rfl

/-- With an alias of an image: a policy with an alias for `a` and one with an alias for `b` tell. -/
theorem ReadAlike.agreeable_of_image (hkeys : SlashFree) (h : ReadAlike dns r t)
    (hdns : ∀ zone, dns zone = .ok .noRecord) (ht : validateTag t = .ok ())
    (htrim : Str.trimMatches '/' r = r) (hne : r ≠ []) {K : PublisherId} {n : Str}
    (hno : NoSlot policy r) (himage : policy.resolveAlias r = some (.image K n)) : Agreeable r := by
  obtain ⟨self, hself⟩ := exists_other K
  obtain ⟨target, -, htarget⟩ := Option.bind_eq_some_iff.mp himage
  obtain ⟨⟨key, hkey⟩, -⟩ := key_of_image htarget
  let policyFor (c : Char) : Policy := { Policy.default with aliases := [(r, key ++ ['/', c])] }
  have hsome (c : Char) (hc : validateName [c] = .ok ()) :
      (policyFor c).resolveAlias r = some (.image K [c]) := by
    simp [policyFor, Policy.resolveAlias, parseAliasTarget_image hkeys hkey hc, Except.toOption]
  have hother (c : Char) : ∀ x, x ≠ r → (policyFor c).resolveAlias x = none := by
    intro x hx
    simp [policyFor, Policy.resolveAlias, List.lookup, beq_false_of_ne hx]
  have hr (c : Char) (hc : validateName [c] = .ok ()) :=
    h (policyFor c) self K [c]
      ((Reading.image (noSlot_single hno _) (hsome c hc)).resolveRepo htrim hne)
  have hex : ¬ LooksExplicit (stripFront r) t := by
    intro hex
    have hb := (resolveImageRef_explicit hdns ht hex (hr 'a' (by decide))).2 (policyFor 'b') self
    cases hb.symm.trans (hr 'b' (by decide))
  have hleft (c : Char) (hc : validateName [c] = .ok ()) :
      validateName (stripFront (stripFront r)) = .ok () ∧ (stripFront (stripFront r) = r ∨
        ∃ a, stripFront (stripFront r) = a ++ ['/', c]) := by
    obtain ⟨hv, hm⟩ := (resolveImageRef_left hdns ht hex).mp (hr c hc)
    refine ⟨hv, ?_⟩
    have hends := (validateName_eq_ok.mp hv).1.ends
    have hreading := (resolveRepo_eq_ok.mp hm).2
    rw [Str.trimMatches_eq_self hends.1 hends.2] at hreading
    generalize stripFront (stripFront r) = m at hreading
    cases hreading with
    | @slot first _ _ hm => exact Or.inr ⟨first, hm⟩
    | @aliased first _ _ _ _ hm _ halias =>
        -- no other path has an alias
        by_cases hfr : first = r
        · rw [hfr, hsome c hc] at halias
          cases halias
        · rw [hother c first hfr] at halias
          cases halias
    | image _ hi =>
        refine Or.inl ?_
        by_contra hmr
        rw [hother c m hmr] at hi
        cases hi
    | self => exact absurd rfl hself
  rcases (hleft 'a' (by decide)).2 with ha | ⟨a, ha⟩
  · exact agreeable_of_left (hleft 'a' (by decide)).1 ha
  · rcases (hleft 'b' (by decide)).2 with hb | ⟨b, hb⟩
    · exact agreeable_of_left (hleft 'a' (by decide)).1 hb
    · have hlast := congrArg List.getLast? (ha.symm.trans hb)
      simp at hlast

/-- Without any: two nodes tell. -/
theorem ReadAlike.agreeable_of_self (h : ReadAlike dns r t) (hdns : ∀ zone, dns zone = .ok .noRecord)
    (ht : validateTag t = .ok ()) (hno : NoSlot policy r) (hname : validateName r = .ok ()) :
    Agreeable r := by
  have hr (self : PublisherId) : resolveImageRef dns Policy.default self (r ++ ':' :: t) =
      .ok ⟨self, r, some t⟩ := by
    have hends := (validateName_eq_ok.mp hname).1.ends
    have hreading : Reading Policy.default self r self r :=
      .self (noSlot_single hno []) (fun _ _ hi => by cases hi) (fun _ hi => by cases hi) hname
    exact h Policy.default self self r (hreading.resolveRepo
      (Str.trimMatches_eq_self hends.1 hends.2) (validateName_eq_ok.mp hname).1.ne_nil)
  obtain ⟨self, hself⟩ := exists_other ⟨Sample.bytes32 0⟩
  have hex : ¬ LooksExplicit (stripFront r) t := by
    intro hex
    have hb := (resolveImageRef_explicit hdns ht hex (hr self)).2 Policy.default ⟨Sample.bytes32 0⟩
    cases hb.symm.trans (hr _)
    exact hself rfl
  obtain ⟨hv, hm⟩ := (resolveImageRef_left hdns ht hex).mp (hr self)
  refine agreeable_of_left hv ?_
  have hends := (validateName_eq_ok.mp hv).1.ends
  have hreading := (resolveRepo_eq_ok.mp hm).2
  rw [Str.trimMatches_eq_self hends.1 hends.2] at hreading
  have hlen := ((stripFront_suffix _).trans (stripFront_suffix r)).length_le
  generalize stripFront (stripFront r) = m at hreading hlen
  cases hreading with
  | slot hrepo =>
      rw [hrepo] at hlen
      simp at hlen
      omega
  | image _ hi => cases hi
  | aliased _ _ _ _ halias => cases halias
  | self => rfl

/-- **The registry and the command line read one reference** alike, whatever the policy and the
node, exactly if the path is agreeable; and under the policy and for the node by which the registry
reads it, exactly if what is left of the path is the image it reads. -/
theorem agrees_iff (hkeys : SlashFree) (hdns : ∀ zone, dns zone = .ok .noRecord)
    (ht : validateTag t = .ok ()) (haccept : resolveRepo r policy selfId = .ok (p, n)) :
    (ReadAlike dns r t ↔ Agreeable r) ∧
      (resolveImageRef dns policy selfId (r ++ ':' :: t) = .ok ⟨p, n, some t⟩ ↔
        Leaves policy selfId r t p n) := by
  refine ⟨⟨fun h => ?_, fun h policy' self' p' n' hr => h.agrees hdns ht hr⟩,
    resolveImageRef_iff_leaves hdns ht⟩
  have htrim := trimMatches_of_resolveImageRef hdns ht (h policy selfId p n haccept)
  obtain ⟨hne, hreading⟩ := resolveRepo_eq_ok.mp haccept
  rw [htrim] at hne hreading
  cases hreading with
  | slot hrepo hfirst hslot hrest =>
      exact h.agreeable_of_slot hdns ht htrim hne hrepo hfirst hslot hrest
  | image hno himage => exact h.agreeable_of_image hkeys hdns ht htrim hne hno himage
  | aliased hno _ hrepo hfirst halias hrest =>
      exact h.agreeable_of_aliased hdns ht htrim hne hno hrepo hfirst halias hrest
  | self hno _ _ hname => exact h.agreeable_of_self hdns ht hno hname

end

end

theorem slash_notMem_of_hexDecode {s : Str} {bs : Bytes} (h : hexDecode s = some bs) : '/' ∉ s := by
  induction s using hexDecode.induct generalizing bs with
  | case1 => exact List.not_mem_nil
  | case2 => cases h
  | case3 c d s ih =>
      simp only [hexDecode, Option.bind_eq_bind, Option.bind_eq_some_iff] at h
      obtain ⟨hi, hc, lo, hd, bs', hs, -⟩ := h
      simp only [List.mem_cons, not_or]
      refine ⟨?_, ?_, ih hs⟩
      · rintro rfl
        cases hc
      · rintro rfl
        cases hd

theorem slashFree_sample : letI := sample; SlashFree := by
  let _ := sample
  refine ⟨fun s K h => ?_, fun s bs h => ?_⟩
  · obtain ⟨bs, hbs, -⟩ := Option.bind_eq_some_iff.mp h
    exact slash_notMem_of_hexDecode hbs
  · by_cases hs : s = Sample.base58
    · rw [hs]
      decide +kernel
    · exact slash_notMem_of_hexDecode ((if_neg hs).symm.trans h)

/-- The path `localhost/app`, which the registry takes for an image of the node. -/
theorem agrees_iff_at : letI := sample
    (ReadAlike (fun _ => .ok .noRecord) "localhost/app" "1.0" ↔ Agreeable "localhost/app") ∧
      (resolveImageRef (fun _ => .ok .noRecord) Policy.default Sample.bob.id "localhost/app:1.0" =
          .ok ⟨Sample.bob.id, "localhost/app", some "1.0"⟩ ↔
        Leaves Policy.default Sample.bob.id "localhost/app" "1.0" Sample.bob.id "localhost/app") := by
  let _ := sample
  have ht : validateTag "1.0" = .ok () := by decide +kernel
  have haccept : resolveRepo "localhost/app" Policy.default Sample.bob.id =
      .ok (Sample.bob.id, "localhost/app") := by decide +kernel
  exact agrees_iff slashFree_sample (fun _ => rfl) ht haccept

/-- The registry has an image `localhost/app`; the command line reads the image `app`. -/
theorem localhost_stripped : letI := sample
    resolveRepo "localhost/app" Policy.default Sample.bob.id =
        .ok (Sample.bob.id, "localhost/app") ∧ validateTag "1.0" = .ok () ∧
      resolveImageRef (fun _ => .ok .noRecord) Policy.default Sample.bob.id "localhost/app:1.0" =
        .ok ⟨Sample.bob.id, "app", some "1.0"⟩ ∧
      ¬ ReadAlike (fun _ => .ok .noRecord) "localhost/app" "1.0" := by
  let _ := sample
  have hrepo : resolveRepo "localhost/app" Policy.default Sample.bob.id =
      .ok (Sample.bob.id, "localhost/app") := by decide +kernel
  have himage : resolveImageRef (fun _ => .ok .noRecord) Policy.default Sample.bob.id
      "localhost/app:1.0" = .ok ⟨Sample.bob.id, "app", some "1.0"⟩ := by decide +kernel
  refine ⟨hrepo, by decide +kernel, himage, fun h => ?_⟩
  cases himage.symm.trans (h Policy.default Sample.bob.id _ _ hrepo)

end Ocid
