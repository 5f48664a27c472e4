import Ocid.Daemon.Sample

/-!
# Naming — Explicit — references that name their publisher's key

A reference may carry its publisher's key in hex, in hex behind a pasted `host:port/`, or as a
`did:key`.  `resolveImageRef` takes such a reference through three passes: it strips a registry
location, rewrites a DNS name, and parses what is left.

The hex forms resolve to the key, the name and the tag that were written, as long as key and name
together fit the length of one name.  In the `did:key` form the key itself is stripped as if it
were a `host:port`, so the rest is resolved as a reference of the node's own, and reaches the
written image only where the policy or the node's own key leads there (`resolveImageRef_iff`).
-/

namespace Ocid

/-- A name with an optional tag behind it. -/
def tagged (name : Str) : Option Str → Str
  | some t => name ++ ':' :: t
  | none => name

/-! ### Cutting a tagged name -/

section
variable {n : Str} {tag : Option Str}

/-- The characters of a tagged name are no white space. -/
theorem tagged_notWhitespace (hn : NameOk n) (ht : ∀ t ∈ tag, validateTag t = .ok ()) :
    ∀ c ∈ tagged n tag, Str.isWhitespace c = false := by
  intro c hc
  cases tag with
  | none => exact (hn.of_mem hc).2
  | some t =>
      rcases List.mem_append.mp hc with hc | hc
      · exact (hn.of_mem hc).2
      · rcases List.mem_cons.mp hc with rfl | hc
        · decide
        · exact (of_mem_tag (ht t rfl) hc).2.2

theorem tagged_append (a b : Str) : tagged (a ++ '/' :: b) tag = a ++ '/' :: tagged b tag := by
  cases tag with
  | none => rfl
  | some t => simp [tagged]

/-- A tag adds no slash. -/
theorem slash_notMem_tagged (hn : '/' ∉ n) (ht : ∀ t ∈ tag, validateTag t = .ok ()) :
    '/' ∉ tagged n tag := by
  cases tag with
  | none => exact hn
  | some t =>
      intro h
      rcases List.mem_append.mp h with h | h
      · exact hn h
      · rcases List.mem_cons.mp h with h | h
        · revert h
          decide
        · exact (of_mem_tag (ht t rfl) h).2.1 rfl

/-- `cutTag` finds the tag that was put behind a text. -/
theorem cutTag_append {t : Str} (ht : validateTag t = .ok ()) (n : Str) :
    cutTag (n ++ ':' :: t) = (n, some t) := by
  have ht' : ∀ c ∈ t, c ≠ ':' ∧ c ≠ '/' ∧ Str.isWhitespace c = false := fun c hc => of_mem_tag ht hc
  have hslash : Str.rfind '/' (n ++ ':' :: t) = Str.rfind '/' n := by
    refine Str.rfind_append_of_notMem n fun h => ?_
    rcases List.mem_cons.mp h with h | h
    · revert h
      decide
    · exact (ht' _ h).2.1 rfl
  -- the last slash lies in the text, so its rest and the tag are searched for a colon
  have hle : ((Str.rfind '/' n).map (· + 1)).getD 0 ≤ n.length := by
    cases hr : Str.rfind '/' n with
    | none => exact Nat.zero_le _
    | some i => exact Str.rfind_lt hr
  simp only [cutTag, hslash]
  generalize ((Str.rfind '/' n).map (· + 1)).getD 0 = k at hle
  rw [List.drop_append_of_le_length hle, Str.rfind_append _ fun h => (ht' _ h).1 rfl,
    List.length_drop]
  have hk : k + (n.length - k) = n.length := by omega
  simp [hk]

/-- `cutTag` finds the tag that was put behind a name. -/
theorem cutTag_tagged (hn : NameOk n) (ht : ∀ t ∈ tag, validateTag t = .ok ()) :
    cutTag (tagged n tag) = (n, tag) := by
  have hcolon : ':' ∉ n := fun h => (hn.of_mem h).1 rfl
  cases tag with
  | none =>
      rw [tagged, cutTag, Str.rfind_eq_none.mpr fun h => hcolon (List.mem_of_mem_drop h)]
  | some t => exact cutTag_append (ht t rfl) n

theorem splitTag_tagged (hn : NameOk n) (ht : ∀ t ∈ tag, validateTag t = .ok ()) :
    splitTag (tagged n tag) = (validateName n).map fun _ => (n, tag) := by
  rw [splitTag, cutTag_tagged hn ht]
  cases hv : validateName n with
  | error e => rfl
  | ok u =>
      cases tag with
      | none => rfl
      | some t =>
          have := ht t rfl
          simp [this, bind, Except.bind, pure, Except.pure, Except.map]

end

/-! ### Stripping a location -/

/-- What `stripRegistryLocation` does to a text that needs no trimming and has no empty part after
its first slash. -/
theorem stripRegistryLocation_eq {s : Str} (hs : Str.trim s = s)
    (hrest : ∀ a b, Str.splitOnce '/' s = some (a, b) → b.head? ≠ some '/') :
    stripRegistryLocation s = match Str.splitOnce '/' s with
      | none => s
      | some (first, rest) =>
          if rest = [] then s
          else if stripRegistryLocation.isLocation first then rest else s := by
  have hscheme : ∀ scheme r : Str, '/' ∉ scheme → s ≠ scheme ++ '/' :: '/' :: r := by
    rintro scheme r hslash rfl
    exact hrest scheme ('/' :: r) (Str.splitOnce_append hslash _) rfl
  have hhttps : ("https://" : Str).isPrefixOf? s = none := by
    cases h : ("https://" : Str).isPrefixOf? s with
    | none => rfl
    | some r =>
        exact absurd (List.isPrefixOf?_eq_some_iff_append_eq.mp h).symm
          (hscheme "https:" r (by decide))
  have hhttp : ("http://" : Str).isPrefixOf? s = none := by
    cases h : ("http://" : Str).isPrefixOf? s with
    | none => rfl
    | some r =>
        exact absurd (List.isPrefixOf?_eq_some_iff_append_eq.mp h).symm
          (hscheme "http:" r (by decide))
  have hsame : (("https://" : Str).isPrefixOf? s <|> ("http://" : Str).isPrefixOf? s).getD s = s := by
    rw [hhttps, hhttp]
    rfl
  show (match Str.splitOnce '/' ((("https://" : Str).isPrefixOf? (Str.trim s) <|>
    ("http://" : Str).isPrefixOf? (Str.trim s)).getD (Str.trim s)) with | none => _ | some (_, _) => _) = _
  rw [hs, hsame]

/-- A first part with a port is stripped. -/
theorem stripRegistryLocation_port {first rest : Str} (hslash : '/' ∉ first) (hport : ':' ∈ first)
    (hhead : ∀ c ∈ first.head?, Str.isWhitespace c = false) (hne : rest ≠ [])
    (hrest : ∀ c ∈ rest, Str.isWhitespace c = false) (hfirst : rest.head? ≠ some '/') :
    stripRegistryLocation (first ++ '/' :: rest) = rest := by
  have htrim : Str.trim (first ++ '/' :: rest) = first ++ '/' :: rest := by
    refine Str.trim_eq_self (fun c hc => ?_) fun c hc => ?_
    · cases first with
      | nil => cases hport
      | cons d first => exact hhead c hc
    · rw [List.getLast?_append, List.getLast?_cons_of_ne_nil hne] at hc
      cases hl : rest.getLast? with
      | none => exact absurd (List.getLast?_eq_none_iff.mp hl) hne
      | some d =>
          rw [hl] at hc
          cases hc
          exact hrest _ (List.mem_of_getLast? hl)
  rw [stripRegistryLocation_eq htrim, Str.splitOnce_append hslash]
  · have hloc : stripRegistryLocation.isLocation first = true := by
      simp [stripRegistryLocation.isLocation, hport]
    simp [hne, hloc]
  · intro a b hab
    rw [Str.splitOnce_append hslash] at hab
    cases hab
    exact hfirst

section
variable {n : Str} {tag : Option Str}

/-- A name is stripped the same way with a tag and without one, and leaves a name. -/
theorem stripRegistryLocation_tagged (hn : NameOk n) (ht : ∀ t ∈ tag, validateTag t = .ok ()) :
    stripRegistryLocation (tagged n tag) = tagged (stripRegistryLocation n) tag ∧
      NameOk (stripRegistryLocation n) ∧ (stripRegistryLocation n).length ≤ n.length ∧
      Str.len (stripRegistryLocation n) ≤ Str.len n := by
  have hnil : ∀ t ∈ (none : Option Str), validateTag t = .ok () := fun _ h => by cases h
  cases hsplit : Str.splitOnce '/' n with
  | none =>
      have hno := Str.splitOnce_eq_none.mp hsplit
      have hstrip : ∀ tag : Option Str, (∀ t ∈ tag, validateTag t = .ok ()) →
          stripRegistryLocation (tagged n tag) = tagged n tag := by
        intro tag ht
        have hnone := Str.splitOnce_eq_none.mpr (slash_notMem_tagged hno ht)
        rw [stripRegistryLocation_eq (Str.trim_of_forall (tagged_notWhitespace hn ht)), hnone]
        intro a b hab
        rw [hnone] at hab
        cases hab
      have hself : stripRegistryLocation n = n := hstrip none hnil
      rw [hself]
      exact ⟨hstrip tag ht, hn, Nat.le_refl _, Nat.le_refl _⟩
  | some ab =>
      obtain ⟨a, b⟩ := ab
      obtain ⟨rfl, ha⟩ := Str.splitOnce_eq_some.mp hsplit
      obtain ⟨hcomp, hb⟩ := (nameOk_append ha).mp hn
      have hstrip : ∀ tag : Option Str, (∀ t ∈ tag, validateTag t = .ok ()) →
          stripRegistryLocation (tagged (a ++ '/' :: b) tag) =
            tagged (if stripRegistryLocation.isLocation a then b else a ++ '/' :: b) tag := by
        intro tag ht
        have hsome : Str.splitOnce '/' (tagged (a ++ '/' :: b) tag) = some (a, tagged b tag) := by
          rw [tagged_append, Str.splitOnce_append ha]
        have hne : tagged b tag ≠ [] := by
          cases tag with
          | none => exact hb.ne_nil
          | some t => simp [tagged]
        rw [stripRegistryLocation_eq (Str.trim_of_forall (tagged_notWhitespace hn ht)), hsome]
        · simp only [hne, if_false]
          split <;> rfl
        · intro x y hxy
          rw [hsome] at hxy
          cases hxy
          intro hhead
          cases b with
          | nil => exact hb.ne_nil rfl
          | cons c b =>
              refine hb.ends.1 c (by simp) ?_
              cases tag <;> simpa [tagged] using hhead
      have hself : stripRegistryLocation (a ++ '/' :: b) =
          if stripRegistryLocation.isLocation a then b else a ++ '/' :: b := hstrip none hnil
      rw [hself]
      refine ⟨hstrip tag ht, ?_⟩
      split
      · refine ⟨hb, ?_, ?_⟩
        · rw [List.length_append, List.length_cons]
          omega
        · rw [Str.len_append, Str.len_cons]
          omega
      · exact ⟨hn, Nat.le_refl _, Nat.le_refl _⟩

/-- A tagged name does not start like a `did:key`. -/
theorem tagged_ne_didKey (hn : NameOk n) (ht : ∀ t ∈ tag, validateTag t = .ok ()) :
    ("did:key:" : Str).isPrefixOf (tagged n tag) = false := by
  have hcolon : ':' ∉ n := fun h => (hn.of_mem h).1 rfl
  rw [Bool.eq_false_iff]
  intro hpre
  obtain ⟨r, hr⟩ := List.isPrefixOf_iff_prefix.mp hpre
  have hsplit : Str.splitOnce ':' (tagged n tag) = some ("did".toList, "key:".toList ++ r) := by
    rw [← hr]
    exact Str.splitOnce_append (a := "did".toList) (by decide) _
  cases tag with
  | none =>
      rw [tagged, Str.splitOnce_eq_none.mpr hcolon] at hsplit
      cases hsplit
  | some t =>
      rw [tagged, Str.splitOnce_append hcolon] at hsplit
      cases hsplit
      exact (of_mem_tag (ht _ rfl) (c := ':') (by simp)).1 rfl

end

/-! ### A key in front of a name -/

theorem of_mem_toStr {K : PublisherId} {c : Char} (h : c ∈ K.toStr) :
    isNameChar c = true ∧ c ≠ '.' := by
  have hx := PublicKey.isLowerHex_of_mem h
  refine ⟨isNameChar_of_isLowerHex hx, ?_⟩
  rintro rfl
  revert hx
  decide

theorem toStr_notMem (K : PublisherId) : '/' ∉ K.toStr ∧ ':' ∉ K.toStr ∧ '.' ∉ K.toStr := by
  refine ⟨fun h => ?_, fun h => ?_, fun h => (of_mem_toStr h).2 rfl⟩
  · exact (of_isTagChar (isTagChar_of_isNameChar (of_mem_toStr h).1)).2.1 rfl
  · exact (of_isTagChar (isTagChar_of_isNameChar (of_mem_toStr h).1)).1 rfl

theorem toStr_ne {K : PublisherId} {s : Str} (h : s.length ≠ 64) : K.toStr ≠ s := by
  rintro rfl
  exact h K.length_toStr

/-- A key is a component of a name. -/
theorem nameComponentOk_toStr (K : PublisherId) : nameComponentOk K.toStr = true := by
  refine nameComponentOk_iff.mpr ⟨toStr_ne (by decide), fun c hc => (of_mem_toStr hc).1, ?_,
    toStr_ne (by decide), toStr_ne (by decide)⟩
  cases hK : K.toStr with
  | nil => exact absurd hK (toStr_ne (by decide))
  | cons c cs =>
      have hmem : c ∈ K.toStr := hK ▸ List.mem_cons_self
      have hx : isLowerHex c = true := PublicKey.isLowerHex_of_mem hmem
      simp only [isLowerHex, Bool.or_eq_true, Bool.and_eq_true, decide_eq_true_eq] at hx
      have hz : 'f' ≤ 'z' := by decide
      simp only [List.head?_cons, Option.any_some, isAsciiAlphanumeric, Bool.or_eq_true,
        Bool.and_eq_true, decide_eq_true_eq]
      rcases hx with hx | hx
      · exact Or.inl (Or.inl hx)
      · exact Or.inl (Or.inr ⟨hx.1, Char.le_trans hx.2 hz⟩)

/-- A key is not taken for a location. -/
theorem isLocation_toStr (K : PublisherId) :
    stripRegistryLocation.isLocation K.toStr = false := by
  obtain ⟨-, hcolon, hdot⟩ := toStr_notMem K
  have hlocal : (K.toStr == ("localhost" : Str)) = false :=
    beq_eq_false_iff_ne.mpr (toStr_ne (by decide))
  simp only [stripRegistryLocation.isLocation, hlocal]
  simp [hcolon, hdot]

theorem nameOk_toStr_append {K : PublisherId} {n : Str} (hn : NameOk n) :
    NameOk (K.toStr ++ '/' :: n) :=
  (nameOk_append (toStr_notMem K).1).mpr ⟨nameComponentOk_toStr K, hn⟩

theorem stripRegistryLocation_toStr {K : PublisherId} {n : Str} (hn : NameOk n) :
    stripRegistryLocation (K.toStr ++ '/' :: n) = K.toStr ++ '/' :: n := by
  have hsplit := Str.splitOnce_append (toStr_notMem K).1 n
  have htrim := Str.trim_of_forall fun c hc => ((nameOk_toStr_append (K := K) hn).of_mem hc).2
  rw [stripRegistryLocation_eq htrim, hsplit]
  · simp [isLocation_toStr]
  · intro a b hab
    rw [hsplit] at hab
    cases hab
    intro hhead
    exact hn.ends.1 '/' hhead rfl

section
variable [External] {n : Str} {tag : Option Str}

theorem parsePublisher_toStr {K : PublisherId} (hkey : External.keyFromStr K.toStr = some K) :
    parsePublisher K.toStr = .ok K := by
  have htrim : Str.trim K.toStr = K.toStr := Str.trim_of_forall fun c hc =>
    (of_isTagChar (isTagChar_of_isNameChar (of_mem_toStr hc).1)).2.2
  have hdid : ("did:key:" : Str).isPrefixOf? K.toStr = none := by
    cases h : ("did:key:" : Str).isPrefixOf? K.toStr with
    | none => rfl
    | some r =>
        have hpre := List.isPrefixOf?_eq_some_iff_append_eq.mp h
        refine absurd ?_ (toStr_notMem K).2.1
        rw [← hpre]
        exact List.mem_append_left _ (by decide)
  simp only [parsePublisher, htrim, hdid, hkey]

/-- The parse of a tagged name: what is left after stripping is validated and resolved. -/
theorem parse_tagged (hn : NameOk n) (ht : ∀ t ∈ tag, validateTag t = .ok ()) (policy : Policy)
    (selfId : PublisherId) :
    ImageRef.parse (tagged n tag) policy selfId =
      (validateName (stripRegistryLocation n)).bind fun _ =>
        (resolveRepo (stripRegistryLocation n) policy selfId).map fun r => ⟨r.1, r.2, tag⟩ := by
  obtain ⟨hstrip, hok, -, -⟩ := stripRegistryLocation_tagged hn ht
  simp only [ImageRef.parse, Str.trim_of_forall (tagged_notWhitespace hn ht),
    tagged_ne_didKey hn ht, Bool.false_eq_true, if_false, hstrip, splitTag_tagged hok ht]
  cases validateName (stripRegistryLocation n) with
  | error e => rfl
  | ok u =>
      cases h : resolveRepo (stripRegistryLocation n) policy selfId <;>
        simp [Except.map, Except.bind, bind, pure, Except.pure, h]

/-! ### Resolving what is left -/

/-- The part of a repository path that may name a publisher. -/
def firstPart (repo : Str) : Str := ((Str.splitOnce '/' repo).map Prod.fst).getD repo

/-- The policy, or the node's own key, leads from a path without a key to an image: no publisher is
read from its first part, and either an alias of the whole path names the image, or there is no
alias and the path is the image's own name in the node's own namespace. -/
def LeadsTo (policy : Policy) (selfId : PublisherId) (repo : Str) (K : PublisherId) (n : Str) :
    Prop :=
  isHexPublisher (firstPart repo) = false ∧
    ('/' ∈ repo → (policy.parsePublisherArg (firstPart repo)).toOption = none) ∧
    (policy.resolveAlias repo = some (.image K n) ∨
      (∀ p m, policy.resolveAlias repo ≠ some (.image p m)) ∧
        (∀ p, policy.resolveAlias (firstPart repo) ≠ some (.publisher p)) ∧ repo = n ∧ selfId = K)

/-- A path that starts with a key. -/
theorem resolveRepo_toStr {K : PublisherId} (hkey : External.keyFromStr K.toStr = some K)
    (hn : NameOk n) (hlen : Str.len n ≤ 255) (policy : Policy) (selfId : PublisherId) :
    resolveRepo (K.toStr ++ '/' :: n) policy selfId = .ok (K, n) := by
  have hok := nameOk_toStr_append (K := K) hn
  have htrim := Str.trimMatches_eq_self hok.ends.1 hok.ends.2
  have hempty : (K.toStr ++ '/' :: n).isEmpty = false := List.isEmpty_eq_false_iff.mpr hok.ne_nil
  simp only [resolveRepo, htrim, hempty, Bool.false_eq_true, if_false,
    Str.splitOnce_append (toStr_notMem K).1, isHexPublisher_toStr, if_true, Option.map_some,
    validateName_eq_ok.mpr ⟨hn, hlen⟩, parsePublisher_toStr hkey]
  rfl

omit [External] in
/-- A reading of a path: a check, then a publisher and a name. -/
theorem check_then_eq_ok {check : Except Err Unit} {p K : PublisherId} {m n : Str} :
    (do check; pure (p, m) : Except Err (PublisherId × Str)) = .ok (K, n) ↔
      check = .ok () ∧ p = K ∧ m = n := by
  cases check <;> simp [bind, Except.bind, pure, Except.pure]

/-- The end of `resolveRepo`, where no publisher was read from the first part: an alias of the whole
path for an image decides, then an alias of the first part. -/
theorem resolveRepo_end {repo first : Str} {policy : Policy} {selfId K : PublisherId}
    (aliased : PublisherId → Except Err (PublisherId × Str)) :
    (match policy.resolveAlias repo with
      | some (.image publisher name) => .ok (publisher, name)
      | _ =>
          match policy.resolveAlias first with
          | some (.publisher p) => aliased p
          | _ => do
              validateName repo
              pure (selfId, repo) : Except Err (PublisherId × Str)) = .ok (K, n) ↔
      policy.resolveAlias repo = some (.image K n) ∨
        (∀ p m, policy.resolveAlias repo ≠ some (.image p m)) ∧
          ((∃ p, policy.resolveAlias first = some (.publisher p) ∧ aliased p = .ok (K, n)) ∨
            (∀ p, policy.resolveAlias first ≠ some (.publisher p)) ∧
              validateName repo = .ok () ∧ selfId = K ∧ repo = n) := by
  -- any other alias of the whole path is passed over
  have key : ∀ a : Option AliasTarget, (∀ p m, a ≠ some (.image p m)) →
      ((match policy.resolveAlias first with
        | some (.publisher p) => aliased p
        | _ => do
            validateName repo
            pure (selfId, repo) : Except Err (PublisherId × Str)) = .ok (K, n) ↔
        a = some (.image K n) ∨ (∀ p m, a ≠ some (.image p m)) ∧
          ((∃ p, policy.resolveAlias first = some (.publisher p) ∧ aliased p = .ok (K, n)) ∨
            (∀ p, policy.resolveAlias first ≠ some (.publisher p)) ∧
              validateName repo = .ok () ∧ selfId = K ∧ repo = n)) := by
    intro a ha
    rw [or_iff_right (ha K n), and_iff_right ha]
    rcases policy.resolveAlias first with _ | p | ⟨p, m⟩
    · simp only [check_then_eq_ok]
      simp
    · simp
    · simp only [check_then_eq_ok]
      simp
  rcases policy.resolveAlias repo with _ | p | ⟨p, m⟩
  · exact key none fun _ _ h => by cases h
  · exact key (some (.publisher p)) fun _ _ h => by cases h
  · simp

/-- The same, where an alias of the first part does not lead to the image. -/
theorem resolveRepo_alias {repo first : Str} {policy : Policy} {selfId K : PublisherId}
    (hv : validateName repo = .ok ()) (aliased : PublisherId → Except Err (PublisherId × Str))
    (hne : ∀ p, aliased p ≠ .ok (K, n)) :
    (match policy.resolveAlias repo with
      | some (.image publisher name) => .ok (publisher, name)
      | _ =>
          match policy.resolveAlias first with
          | some (.publisher p) => aliased p
          | _ => do
              validateName repo
              pure (selfId, repo) : Except Err (PublisherId × Str)) = .ok (K, n) ↔
      policy.resolveAlias repo = some (.image K n) ∨
        (∀ p m, policy.resolveAlias repo ≠ some (.image p m)) ∧
          (∀ p, policy.resolveAlias first ≠ some (.publisher p)) ∧ repo = n ∧ selfId = K := by
  rw [resolveRepo_end]
  simp [hne, hv, and_comm (a := selfId = K)]

/-- A path that is no longer than the name it should lead to: the readings that take its first part
for a publisher leave a shorter name. -/
theorem resolveRepo_iff {repo : Str} (hrepo : NameOk repo) (hlen : Str.len repo ≤ 255)
    (hle : repo.length ≤ n.length) (policy : Policy) (selfId K : PublisherId) :
    resolveRepo repo policy selfId = .ok (K, n) ↔ LeadsTo policy selfId repo K n := by
  have htrim := Str.trimMatches_eq_self hrepo.ends.1 hrepo.ends.2
  have hempty : repo.isEmpty = false := List.isEmpty_eq_false_iff.mpr hrepo.ne_nil
  have hv := validateName_eq_ok.mpr ⟨hrepo, hlen⟩
  simp only [resolveRepo, htrim, hempty, Bool.false_eq_true, if_false, LeadsTo, firstPart]
  cases hsplit : Str.splitOnce '/' repo with
  | none =>
      have hslash := Str.splitOnce_eq_none.mp hsplit
      simp only [Option.map_none, Option.getD_none, hslash, false_imp_iff, true_and,
        Option.bind_none]
      cases isHexPublisher repo with
      | true => simp
      | false =>
          simp only [Bool.false_eq_true, if_false, true_and]
          refine resolveRepo_alias hv (fun _ => .error ["missing image name after alias"]) ?_
          intro p h
          cases h
  | some ab =>
      obtain ⟨first, rest⟩ := ab
      obtain ⟨rfl, hfirst⟩ := Str.splitOnce_eq_some.mp hsplit
      have hne : rest ≠ n := by
        rintro rfl
        rw [List.length_append, List.length_cons] at hle
        omega
      have hcheck : ∀ p : PublisherId,
          (do validateName rest; pure (p, rest) : Except Err (PublisherId × Str)) ≠ .ok (K, n) :=
        fun p h => hne (check_then_eq_ok.mp h).2.2
      have hslash : '/' ∈ first ++ '/' :: rest := by simp
      simp only [Option.map_some, Option.getD_some, hslash, true_imp_iff, Option.bind_some]
      cases isHexPublisher first with
      | true => cases validateName rest <;> cases parsePublisher first <;>
          simp [bind, Except.bind, pure, Except.pure, hne]
      | false =>
          simp only [Bool.false_eq_true, if_false, true_and]
          cases (policy.parsePublisherArg first).toOption with
          | some p =>
              simp only [Option.map_some, reduceCtorEq, false_and, iff_false]
              exact hcheck p
          | none =>
              simp only [Option.map_none, true_and]
              exact resolveRepo_alias hv (fun p => do validateName rest; pure (p, rest)) hcheck

/-! ### An explicit reference -/

/-- How a reference carries its publisher's key. -/
inductive Form where
  | hex
  /-- In hex, with a pasted `host:port/` in front. -/
  | located (hostPort : Str)
  | didKey

/-- The reference to an image of a key, in a form. -/
def Form.write (K : PublisherId) (image : Str) : Form → Str
  | hex => K.toStr ++ '/' :: image
  | located hostPort => hostPort ++ '/' :: (K.toStr ++ '/' :: image)
  | didKey => Ocid.didKey K ++ '/' :: image

/-- What is pasted has a port, and is one part. -/
def Form.Ok : Form → Prop
  | located hostPort =>
      ':' ∈ hostPort ∧ '/' ∉ hostPort ∧ ∀ c ∈ hostPort, Str.isWhitespace c = false
  | _ => True

/-- When a form leads to the image it names: in hex, key and name fit one name; a `did:key` is
stripped, and the rest must lead there. -/
def Form.Leads (policy : Policy) (selfId K : PublisherId) (n : Str) : Form → Prop
  | didKey => LeadsTo policy selfId (stripRegistryLocation n) K n
  | _ => 65 + Str.len n ≤ 255

/-- The parse after the key in hex. -/
theorem parse_toStr {K : PublisherId} (hkey : External.keyFromStr K.toStr = some K)
    (hn : validateName n = .ok ()) (ht : ∀ t ∈ tag, validateTag t = .ok ()) (policy : Policy)
    (selfId : PublisherId) :
    ImageRef.parse (K.toStr ++ '/' :: tagged n tag) policy selfId = .ok ⟨K, n, tag⟩ ↔
      65 + Str.len n ≤ 255 := by
  obtain ⟨hok, hlen⟩ := validateName_eq_ok.mp hn
  have hcap : validateName (K.toStr ++ '/' :: n) = .ok () ↔ 65 + Str.len n ≤ 255 := by
    rw [validateName_eq_ok, and_iff_right (nameOk_toStr_append hok), Str.len_append, Str.len_cons,
      K.len_toStr]
    have hslash : '/'.utf8Size = 1 := by decide
    omega
  rw [← hcap, ← tagged_append, parse_tagged (nameOk_toStr_append hok) ht,
    stripRegistryLocation_toStr hok, resolveRepo_toStr hkey hok hlen]
  cases validateName (K.toStr ++ '/' :: n) <;> simp [Except.bind, Except.map]

/-- The parse of what is left of a `did:key` reference. -/
theorem parse_name {K : PublisherId} (hn : validateName n = .ok ())
    (ht : ∀ t ∈ tag, validateTag t = .ok ()) (policy : Policy) (selfId : PublisherId) :
    ImageRef.parse (tagged n tag) policy selfId = .ok ⟨K, n, tag⟩ ↔
      LeadsTo policy selfId (stripRegistryLocation n) K n := by
  obtain ⟨hok, hlen⟩ := validateName_eq_ok.mp hn
  obtain ⟨-, hrest, hle, hlen'⟩ := stripRegistryLocation_tagged hok ht
  have hlen'' := Nat.le_trans hlen' hlen
  rw [parse_tagged hok ht, validateName_eq_ok.mpr ⟨hrest, hlen''⟩,
    ← resolveRepo_iff hrest hlen'' hle]
  cases resolveRepo (stripRegistryLocation n) policy selfId with
  | error e => simp [Except.bind, Except.map]
  | ok r =>
      obtain ⟨p, m⟩ := r
      simp [Except.bind, Except.map]

/-- An explicit reference resolves to the key, the name and the tag it was written with exactly
when its form leads there. -/
theorem resolveImageRef_iff {K : PublisherId} {form : Form}
    {dns : Str → Except Err ZoneOutcome} (policy : Policy) (selfId : PublisherId)
    (hkey : External.keyFromStr K.toStr = some K)
    (h58 : '/' ∉ External.base58Encode (0xed :: 0x01 :: K.key.bytes))
    (hdns : ∀ zone, dns zone = .ok .noRecord) (hform : form.Ok)
    (hn : validateName n = .ok ()) (ht : ∀ t ∈ tag, validateTag t = .ok ()) :
    resolveImageRef dns policy selfId (form.write K (tagged n tag)) = .ok ⟨K, n, tag⟩ ↔
      form.Leads policy selfId K n := by
  obtain ⟨hok, -⟩ := validateName_eq_ok.mp hn
  have hN := nameOk_toStr_append (K := K) hok
  -- with DNS silent, stripping is all that happens before the parse
  have hparse : ∀ reference left : Str, stripRegistryLocation reference = left →
      (resolveImageRef dns policy selfId reference = .ok ⟨K, n, tag⟩ ↔
        ImageRef.parse left policy selfId = .ok ⟨K, n, tag⟩) := by
    rintro reference left rfl
    simp only [resolveImageRef, rewriteDnsPublisher_noRecord hdns, bind, Except.bind]
    cases ImageRef.parse (stripRegistryLocation reference) policy selfId <;>
      simp [Except.context, Except.mapError]
  -- neither a key in hex nor a name is stripped away behind a location
  have hleft : ∀ N, NameOk N → tagged N tag ≠ [] ∧
      (∀ c ∈ tagged N tag, Str.isWhitespace c = false) ∧ (tagged N tag).head? ≠ some '/' := by
    intro N hN
    refine ⟨?_, tagged_notWhitespace hN ht, fun h => ?_⟩
    · cases tag with
      | none => exact hN.ne_nil
      | some t => simp [tagged]
    · cases N with
      | nil => exact hN.ne_nil rfl
      | cons c N =>
          refine hN.ends.1 c (by simp) ?_
          cases tag <;> simpa [tagged] using h
  cases form with
  | hex =>
      have hstrip : stripRegistryLocation (K.toStr ++ '/' :: tagged n tag) =
          K.toStr ++ '/' :: tagged n tag := by
        rw [← tagged_append, (stripRegistryLocation_tagged hN ht).1,
          stripRegistryLocation_toStr hok]
      exact (hparse _ _ hstrip).trans (parse_toStr hkey hn ht policy selfId)
  | located hostPort =>
      obtain ⟨hport, hslash, hspace⟩ := hform
      obtain ⟨hne, hws, hhead⟩ := hleft _ hN
      have hstrip := stripRegistryLocation_port hslash hport
        (fun c hc => hspace c (List.mem_of_mem_head? hc)) hne hws hhead
      rw [tagged_append] at hstrip
      exact (hparse _ _ hstrip).trans (parse_toStr hkey hn ht policy selfId)
  | didKey =>
      obtain ⟨hne, hws, hhead⟩ := hleft _ hok
      have hkey58 : '/' ∉ Ocid.didKey K := by
        intro h
        rcases List.mem_append.mp h with h | h
        · revert h
          decide
        · exact h58 h
      have hport : ':' ∈ Ocid.didKey K := List.mem_append_left _ (by decide)
      have hspace : ∀ c ∈ (Ocid.didKey K).head?, Str.isWhitespace c = false := by
        have hd : (Ocid.didKey K).head? = some 'd' := rfl
        rw [hd]
        intro c hc
        cases hc
        rfl
      have hstrip := stripRegistryLocation_port hkey58 hport hspace hne hws hhead
      exact (hparse _ _ hstrip).trans (parse_name hn ht policy selfId)

end

/-- A `did:key` reference to an image of another key, under a policy with an alias that leads
there. -/
theorem resolveImageRef_iff_at : letI := sample
    let policy : Policy := { Policy.default with
      aliases := [("app", Sample.alice.id.toStr ++ "/app".toList)] }
    resolveImageRef (fun _ => .ok .noRecord) policy Sample.bob.id
      (Form.didKey.write Sample.alice.id (tagged "app" (some "1.0"))) =
        .ok ⟨Sample.alice.id, "app", some "1.0"⟩ ↔
      Form.didKey.Leads policy Sample.bob.id Sample.alice.id "app" := by
  let _ := sample
  intro policy
  exact resolveImageRef_iff policy Sample.bob.id (by decide +kernel) (by decide +kernel)
    (fun _ => rfl) trivial (by decide +kernel) (by decide +kernel)

/-- A `did:key` reference to an image of alice resolves to bob's own. -/
theorem resolveImageRef_drops_didKey : letI := sample
    resolveImageRef (fun _ => .ok .noRecord) Policy.default Sample.bob.id
      (Form.didKey.write Sample.alice.id (tagged "app" (some "1.0"))) =
        .ok ⟨Sample.bob.id, "app", some "1.0"⟩ ∧ Sample.bob.id ≠ Sample.alice.id := by
  decide +kernel

end Ocid
