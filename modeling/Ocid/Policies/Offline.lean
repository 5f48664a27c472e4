import Ocid.Daemon.Requests
import Ocid.Naming.Agreement
import Ocid.Policies.Maps

/-!
# Policies — Offline — the daemon and the command line change the policy

While the daemon runs it changes the policy, and a rule is stored as it was written.  Without a
daemon `ocictl` changes the file, and stores the rule in its canonical form.  Both resolve the
argument first.

The two agree on follows.  On images they agree where the argument is itself a rule, that is, starts
with a key (`Keyed`); an alias, a name of the node's own and a pasted location resolve, but the
policy of the daemon does not take them.  Where it does, the windows can still differ: a seed
replaces the mode of the entry of its text, and an unpin removes the text it was given
(`serve_offline_iff`).
-/

namespace Ocid

/-- What `ocictl` refuses without a daemon. -/
def offlineDomainCheck (arg : Str) : Except Err Unit :=
  let first := ((Str.splitOnce '/' arg).map Prod.fst).getD arg
  if isDomainName first then
    .error [Str.debug first ++ " is a DNS publisher name; run the daemon to resolve it " ++
      "(ocictl resolve " ++ first ++ ") or use the publisher id / an alias"]
  else .ok ()

variable [External]

namespace PolicyRequest

/-- The reference or the publisher of a request. -/
def arg : PolicyRequest → Str
  | seed reference _ | unseed reference | pin reference | unpin reference => reference
  | follow publisher _ | unfollow publisher => publisher

/-- What `ocictl` makes of the policy without a daemon, and whether it changed it. -/
def offline (policy : Policy) (selfId : PublisherId) : PolicyRequest → Except Err (Policy × Bool)
  | seed reference mode => do
      offlineDomainCheck reference
      let r ← ImageRef.parse reference policy selfId
      if r.publisher = selfId then
        .error [r.toStr ++ " is published by this node; it is always seeded"]
      else policy.addSeed r.toStr mode
  | unseed reference => do
      offlineDomainCheck reference
      let r ← ImageRef.parse reference policy selfId
      policy.removeSeed r.toStr
  | follow publisher mode => do
      offlineDomainCheck publisher
      let p ← parsePublisher publisher
      policy.addFollow p.toStr mode
  | unfollow publisher => do
      offlineDomainCheck publisher
      let p ← parsePublisher publisher
      policy.removeFollow p.toStr
  | pin reference => do
      offlineDomainCheck reference
      let r ← ImageRef.parse reference policy selfId
      if r.tag.isNone then .error ["a pin needs a tag: " ++ r.toStr ++ ":<tag>"]
      else policy.addPin r.toStr
  | unpin reference => do
      offlineDomainCheck reference
      let r ← ImageRef.parse reference policy selfId
      policy.removePin r.toStr

end PolicyRequest

/-! ### When the two agree -/

/-- Every window is as wide in the one policy as in the other. -/
def SameWindows (p q : Policy) : Prop :=
  ∀ publisher name, p.window publisher name ≤ q.window publisher name ∧
    q.window publisher name ≤ p.window publisher name

/-- Both fail, or both succeed and leave the same windows. -/
def SameEffect : Except Err (Policy × Bool) → Except Err (Policy × Bool) → Prop
  | .error _, .error _ => True
  | .ok (p, _), .ok (q, _) => SameWindows p q
  | _, _ => False

/-- A text that is itself a rule: a key, and a name with an optional tag. -/
def Keyed (s : Str) : Prop :=
  ∃ pubs rest, Str.splitOnce '/' s = some (pubs, rest) ∧ (parsePublisher pubs).isOk = true ∧
    (splitTag rest).isOk = true

/-- What is asked of an image once a seed has its new mode: that mode, the follow of the publisher,
and the entries that the change leaves alone. -/
def Policy.askedWith (policy : Policy) (rule : Str) (mode : Mode) (t : ImageRef) : Set Mode :=
  {m | policy.followMode t.publisher = some m ∨
    m ∈ insert mode (policy.modesAt (policy.others rule) t)}

/-- Giving the entry of this text its new mode makes the window of the image no smaller. -/
def Policy.Widens (policy : Policy) (rule : Str) (mode : Mode) (t : ImageRef) : Prop :=
  ∀ m, policy.oldMode rule = some m → m.Within (policy.askedWith rule mode t)

/-- The tag is asked for by a rule that is no pin of these texts. -/
def Policy.AsksOtherwise (policy : Policy) (texts : List Str) (t : ImageRef) : Prop :=
  (policy.ruleMaps.seed t).Nonempty ∨
    ∃ s ∈ policy.pin, s ∉ texts ∧ policy.target s = some t

namespace PolicyRequest

/-- The daemon and `ocictl` agree. -/
def Agrees (dns : Str → Except Err ZoneOutcome) (policy : Policy) (selfId : PublisherId)
    (req : PolicyRequest) : Prop :=
  SameEffect (req.serve dns policy selfId) (req.offline policy selfId)

/-- The daemon seeds and pins what resolves to another publisher. -/
def Admitted (dns : Str → Except Err ZoneOutcome) (policy : Policy) (selfId : PublisherId) :
    PolicyRequest → Prop
  | seed reference mode => ∀ r, ImageRef.parse reference policy selfId = .ok r →
      r.publisher ≠ selfId → ((seed reference mode).serve dns policy selfId).isOk = true
  | pin reference => ∀ r, ImageRef.parse reference policy selfId = .ok r →
      r.publisher ≠ selfId → r.tag.isSome = true →
        ((pin reference).serve dns policy selfId).isOk = true
  | _ => True

/-- The condition under which they do. -/
def Alike (policy : Policy) (selfId : PublisherId) : PolicyRequest → Prop
  | seed reference mode => ∀ r, ImageRef.parse reference policy selfId = .ok r →
      r.publisher ≠ selfId → Keyed reference ∧ (r.tag = none → reference ≠ r.toStr →
        policy.Widens reference mode r ∧ policy.Widens r.toStr mode r)
  | unseed reference => ∀ r, ImageRef.parse reference policy selfId = .ok r → Keyed reference
  | pin reference => ∀ r, ImageRef.parse reference policy selfId = .ok r → r.tag.isSome = true →
      Keyed reference
  | unpin reference => ∀ r, ImageRef.parse reference policy selfId = .ok r → Keyed reference ∧
      (r.tag.isSome = true → reference ≠ r.toStr → reference ∈ policy.pin →
        policy.AsksOtherwise [reference, r.toStr] r)
  | follow _ _ | unfollow _ => True

end PolicyRequest

/-! ### A rule resolves to what it parses to -/

/-- The text of a key has letters and digits only, 64 of them in hex and 52 in Base32. -/
def KeysPlain : Prop :=
  ∀ s K, External.keyFromStr s = some K →
    (s.length = 64 ∨ s.length = 52) ∧ ∀ c ∈ s, isAsciiAlphanumeric c = true

section
variable {s n pubs rest first : Str} {tag : Option Str} {K selfId : PublisherId} {policy : Policy}

omit [External] in
theorem tagged_of_cutTag (h : cutTag s = (n, tag)) : s = tagged n tag := by
  simp only [cutTag] at h
  generalize ((Str.rfind '/' s).map (· + 1)).getD 0 = k at h
  split at h
  · rename_i i hi
    cases h
    have hcolon := Str.append_of_rfind hi
    calc s = s.take k ++ s.drop k := (List.take_append_drop k s).symm
      _ = s.take k ++ ((s.drop k).take i ++ ':' :: (s.drop k).drop (i + 1)) := by rw [← hcolon]
      _ = s.take (k + i) ++ ':' :: s.drop (k + i + 1) := by
        rw [← List.append_assoc, ← List.take_add, List.drop_drop, Nat.add_assoc]
  · cases h
    rfl

/-- A key is no location. -/
theorem isLocation_key (hplain : KeysPlain) (hp : parsePublisher first = .ok K)
    (hdid : ("did:key:" : Str).isPrefixOf? (Str.trim first) = none) :
    stripRegistryLocation.isLocation first = false := by
  have hkey : External.keyFromStr (Str.trim first) = some K := by
    simp only [parsePublisher, hdid] at hp
    cases hk : External.keyFromStr (Str.trim first) with
    | none =>
        rw [hk] at hp
        cases hp
    | some k =>
        rw [hk] at hp
        cases hp
        rfl
  obtain ⟨hlength, hchars⟩ := hplain _ _ hkey
  have hno : ∀ c, isAsciiAlphanumeric c = false → Str.isWhitespace c = false → c ∉ first := by
    intro c hc hws hmem
    rw [hchars c (Str.mem_trim hmem hws)] at hc
    cases hc
  have hcolon : ':' ∉ first := hno ':' (by decide) (by decide)
  have hdot : '.' ∉ first := hno '.' (by decide) (by decide)
  have hlocal : (first == ("localhost" : Str)) = false := by
    rw [beq_eq_false_iff_ne]
    rintro rfl
    revert hlength
    decide
  simp only [stripRegistryLocation.isLocation, hlocal]
  simp [hcolon, hdot]

omit [External] in
/-- A tagged name has no slash at its ends. -/
theorem tagged_ends (hn : NameOk n) (ht : ∀ t ∈ tag, validateTag t = .ok ()) :
    (tagged n tag).head? ≠ some '/' ∧ (tagged n tag).getLast? ≠ some '/' := by
  cases tag with
  | none => exact ⟨fun h => hn.ends.1 '/' h rfl, fun h => hn.ends.2 '/' h rfl⟩
  | some t =>
      rw [tagged, List.head?_append_of_ne_nil _ hn.ne_nil,
        List.getLast?_append_of_ne_nil _ (List.cons_ne_nil _ _)]
      exact ⟨fun h => hn.ends.1 '/' h rfl, fun h =>
        slash_notMem_tag (ht t rfl) (List.mem_of_getLast? h)⟩

/-- **A rule is read as what it says**, where it is read as a reference. -/
theorem parse_keyed (hplain : KeysPlain) (hsplit : Str.splitOnce '/' s = some (pubs, rest))
    (hp : parsePublisher pubs = .ok K) (hrest : splitTag rest = .ok (n, tag)) {r : ImageRef}
    (h : ImageRef.parse s policy selfId = .ok r) : r = ⟨K, n, tag⟩ := by
  obtain ⟨rfl, hpubs⟩ := Str.splitOnce_eq_some.mp hsplit
  obtain ⟨hcut, hname, htag⟩ := splitTag_eq_ok.mp hrest
  have hok := (validateName_eq_ok.mp hname).1
  have hrest' : rest = tagged n tag := tagged_of_cutTag hcut
  have hplainRest : ∀ c ∈ rest, Str.isWhitespace c = false := by
    rw [hrest']
    exact tagged_notWhitespace hok htag
  have hfirst : '/' ∉ pubs.dropWhile Str.isWhitespace := fun hmem =>
    hpubs ((List.dropWhile_suffix _).subset hmem)
  have hkey := (parsePublisher_dropWhile pubs).trans hp
  have hend : rest.rdropWhile Str.isWhitespace = rest := by
    rw [List.rdropWhile_eq_self_iff]
    intro hne
    simp [hplainRest _ (List.getLast_mem hne)]
  have htrim : Str.trim (pubs ++ '/' :: rest) = pubs.dropWhile Str.isWhitespace ++ '/' :: rest := by
    rw [Str.trim, dropWhile_slash, Str.rdropWhile_append_cons (by decide), hend]
  have htrim' : Str.trim (pubs.dropWhile Str.isWhitespace ++ '/' :: rest) =
      pubs.dropWhile Str.isWhitespace ++ '/' :: rest := by
    rw [Str.trim, dropWhile_slash, List.dropWhile_idempotent,
      Str.rdropWhile_append_cons (by decide), hend]
  have hidem : (pubs.dropWhile Str.isWhitespace).dropWhile Str.isWhitespace =
      pubs.dropWhile Str.isWhitespace := List.dropWhile_idempotent _ _
  obtain ⟨hhead, hlast⟩ := tagged_ends hok htag
  rw [← hrest'] at hhead hlast
  simp only [ImageRef.parse, htrim] at h
  generalize pubs.dropWhile Str.isWhitespace = f at hfirst hkey htrim' hidem h
  split at h
  · -- a `did:key` is split at its first slash
    have hslash : (f ++ '/' :: rest).rdropWhile (· == '/') = f ++ '/' :: rest := by
      rw [List.rdropWhile_eq_self_iff]
      intro hne heq
      refine hlast ?_
      have hrestne : rest ≠ [] := by
        rintro rfl
        cases tag <;> simp [tagged, hok.ne_nil] at hrest'
      rw [← beq_iff_eq.mp heq, List.getLast_append_of_ne_nil _ (List.cons_ne_nil _ _),
        List.getLast_cons hrestne, List.getLast?_eq_getLast_of_ne_nil hrestne]
    simp only [ImageRef.parseExplicit, htrim', Str.trimEndMatches, hslash,
      Str.splitOnce_append hfirst, hkey, hrest] at h
    cases h
    rfl
  · rename_i hdid
    have hnone : ("did:key:" : Str).isPrefixOf? (Str.trim f) = none := by
      cases hpre : ("did:key:" : Str).isPrefixOf? (Str.trim f) with
      | none => rfl
      | some x =>
          refine absurd (List.isPrefixOf_iff_prefix.mpr ?_) hdid
          have hpre' : ("did:key:" : Str) <+: Str.trim f :=
            ⟨x, List.isPrefixOf?_eq_some_iff_append_eq.mp hpre⟩
          rw [Str.trim, hidem] at hpre'
          exact (hpre'.trans (List.rdropWhile_prefix _ _)).trans (List.prefix_append _ _)
    have hstrip : stripRegistryLocation (f ++ '/' :: rest) = f ++ '/' :: rest := by
      rw [stripRegistryLocation_eq htrim', Str.splitOnce_append hfirst]
      · simp [isLocation_key hplain hkey hnone]
      · intro a b hab
        rw [Str.splitOnce_append hfirst] at hab
        cases hab
        exact hhead
    rw [hstrip] at h
    cases hst : splitTag (f ++ '/' :: rest) with
    | error e =>
        rw [hst] at h
        cases h
    | ok x =>
        obtain ⟨hcut', hname', -⟩ := splitTag_eq_ok.mp hst
        rw [cutTag_slash, hcut] at hcut'
        obtain rfl : x = (f ++ '/' :: n, tag) := hcut'.symm
        have hok' := (validateName_eq_ok.mp hname').1
        have hread : Reading policy selfId (f ++ '/' :: n) K n :=
          .slot rfl hfirst (parsePublisherArg_of_key hkey) hname
        have hrepo := hread.resolveRepo
          (Str.trimMatches_eq_self hok'.ends.1 hok'.ends.2) hok'.ne_nil
        simp only [hst, hrepo, bind, Except.bind] at h
        cases h
        rfl

theorem key_of_publisher {target : Str}
    (h : (parseAliasTarget target).toOption = some (.publisher K)) : parsePublisher target = .ok K := by
  rw [parseAliasTarget] at h
  cases htarget : parsePublisher target with
  | ok k =>
      rw [htarget] at h
      cases h
      rfl
  | error e =>
      rw [htarget] at h
      cases hsplit : Str.splitOnce '/' target with
      | none =>
          rw [hsplit] at h
          cases h
      | some ab =>
          simp only [hsplit] at h
          cases hkey : parsePublisher ab.1 with
          | error e =>
              rw [hkey] at h
              cases h
          | ok k =>
              cases hv : validateName ab.2 <;> rw [hkey, hv] at h <;> cases h

/-- What a reference is read as: a key that can be written, a name and a tag. -/
theorem valid_of_parse (hkeys : KeysPrint) (hself : External.keyFromStr selfId.toStr = some selfId)
    {r : ImageRef} (h : ImageRef.parse s policy selfId = .ok r) :
    External.keyFromStr r.publisher.toStr = some r.publisher ∧ validateName r.name = .ok () ∧
      ∀ t ∈ r.tag, validateTag t = .ok () := by
  simp only [ImageRef.parse] at h
  split at h
  · simp only [ImageRef.parseExplicit] at h
    split at h
    · cases h
    · rename_i pubs rest _
      cases hp : parsePublisher pubs with
      | error e =>
          rw [hp] at h
          cases h
      | ok K =>
          cases hst : splitTag rest with
          | error e =>
              rw [hp, hst] at h
              cases h
          | ok x =>
              rw [hp, hst] at h
              cases h
              obtain ⟨-, hname, htag⟩ := splitTag_eq_ok.mp hst
              exact ⟨hkeys _ _ hp, hname, htag⟩
  · cases hst : splitTag (stripRegistryLocation (Str.trim s)) with
    | error e =>
        rw [hst] at h
        cases h
    | ok x =>
        obtain ⟨repo, tag⟩ := x
        obtain ⟨-, -, htag⟩ := splitTag_eq_ok.mp hst
        cases hrepo : resolveRepo repo policy selfId with
        | error e =>
            simp only [hst, hrepo, bind, Except.bind] at h
            cases h
        | ok y =>
            obtain ⟨K, n⟩ := y
            simp only [hst, hrepo, bind, Except.bind] at h
            cases h
            obtain ⟨-, hread⟩ := resolveRepo_eq_ok.mp hrepo
            cases hread with
            | slot _ _ hslot hrest =>
                exact ⟨Policy.printed_of_parsePublisherArg hkeys hslot, hrest, htag⟩
            | image _ himage =>
                obtain ⟨target, -, htarget⟩ := Option.bind_eq_some_iff.mp himage
                obtain ⟨⟨key, hkey⟩, hname⟩ := key_of_image htarget
                exact ⟨hkeys _ _ hkey, hname, htag⟩
            | aliased _ _ _ _ halias hrest =>
                obtain ⟨target, -, htarget⟩ := Option.bind_eq_some_iff.mp halias
                exact ⟨hkeys _ _ (key_of_publisher htarget), hrest, htag⟩
            | self _ _ _ hname => exact ⟨hself, hname, htag⟩

omit [External] in
theorem toStr_eq (r : ImageRef) :
    r.toStr = r.publisher.toStr ++ '/' :: tagged r.name r.tag := by
  rw [ImageRef.toStr]
  cases r.tag with
  | none => rw [List.append_nil]; rfl
  | some t => rfl

/-- The canonical form of a reference is a rule for it. -/
theorem target_toStr (hkeys : KeysPrint) (hself : External.keyFromStr selfId.toStr = some selfId)
    {r : ImageRef} (h : ImageRef.parse s policy selfId = .ok r) :
    policy.target r.toStr = some r := by
  obtain ⟨hkey, hname, htag⟩ := valid_of_parse hkeys hself h
  rw [toStr_eq]
  exact Policy.target_canonical hkey hname htag

/-- A rule resolves to what it is read as. -/
theorem target_keyed (hplain : KeysPlain) (hkeyed : Keyed s) {r : ImageRef}
    (h : ImageRef.parse s policy selfId = .ok r) : policy.target s = some r := by
  obtain ⟨pubs, rest, hsplit, hp, hrest⟩ := hkeyed
  cases hp' : parsePublisher pubs with
  | error e =>
      rw [hp'] at hp
      cases hp
  | ok K =>
      cases hrest' : splitTag rest with
      | error e =>
          rw [hrest'] at hrest
          cases hrest
      | ok x =>
          obtain ⟨n, tag⟩ := x
          rw [parse_keyed hplain hsplit hp' hrest' h]
          have hok : policy.parseSeedRule s .full = .ok ⟨K, n, tag, .full⟩ := by
            simp only [Policy.parseSeedRule, hsplit, parsePublisherArg_of_key hp', hrest', bind,
              Except.bind, pure, Except.pure]
          exact (Policy.parseSeedRule_ok.mp hok).1

/-- Without a domain in front, a text is a rule only if it starts with a key. -/
theorem keyed_of_target (hnd : offlineDomainCheck s = .ok ()) {r : ImageRef}
    (h : policy.target s = some r) : Keyed s := by
  have hok := (Policy.parseSeedRule_ok (r := ⟨r.publisher, r.name, r.tag, .full⟩)).mpr ⟨h, rfl⟩
  rw [Policy.parseSeedRule] at hok
  split at hok
  · cases hok
  · rename_i pubs rest hsplit
    have hzone : isDomainName pubs = false := by
      rw [offlineDomainCheck, hsplit] at hnd
      by_contra hzone
      simp [hzone] at hnd
    refine ⟨pubs, rest, hsplit, ?_, ?_⟩
    · cases hp : parsePublisher pubs with
      | ok k => rfl
      | error e =>
          rw [Policy.parsePublisherArg, hp] at hok
          simp only [hzone] at hok
          cases hok
    · cases hrest : splitTag rest with
      | ok x => rfl
      | error e =>
          rw [hrest] at hok
          cases hp : policy.parsePublisherArg pubs <;> rw [hp] at hok <;> cases hok

/-! ### What the two do to the policy -/

omit [External] in
theorem domainSlot_eq_none (hnd : offlineDomainCheck s = .ok ()) :
    (Str.splitOnce '/' s).filter (fun p => isDomainName p.1) = none ∧ domainSlot s = none := by
  rw [domainSlot]
  cases hsplit : Str.splitOnce '/' s with
  | none => exact ⟨rfl, rfl⟩
  | some ab =>
      have hzone : isDomainName ab.1 = false := by
        rw [offlineDomainCheck, hsplit] at hnd
        by_contra hzone
        simp [hzone] at hnd
      simp [hzone]

variable {dns : Str → Except Err ZoneOutcome} {mode : Mode}

theorem resolveRule_plain (hnd : offlineDomainCheck s = .ok ()) :
    resolveRule dns policy selfId s = (Except.context ("invalid reference " ++ Str.debug s)
      (ImageRef.parse s policy selfId)).map fun r => (s, r) := by
  rw [resolveRule, (domainSlot_eq_none hnd).1]
  cases ImageRef.parse s policy selfId <;> rfl

/-- A request on a reference that is not read fails on both ways. -/
theorem sameEffect_of_error {req : PolicyRequest} (hnd : offlineDomainCheck s = .ok ()) {e : Err}
    (hreq : (∃ mode, req = .seed s mode) ∨ req = .unseed s ∨ req = .pin s ∨ req = .unpin s)
    (h : ImageRef.parse s policy selfId = .error e) : req.Agrees dns policy selfId := by
  rcases hreq with ⟨mode, rfl⟩ | rfl | rfl | rfl
  all_goals
    simp only [PolicyRequest.Agrees, PolicyRequest.serve, PolicyRequest.resolve,
      PolicyRequest.offline, resolveRule_plain hnd, hnd, h, bind, Except.bind]
    trivial

section
variable {r : ImageRef} (hnd : offlineDomainCheck s = .ok ())
  (h : ImageRef.parse s policy selfId = .ok r)
include hnd h

theorem serve_seed : (PolicyRequest.seed s mode).serve dns policy selfId =
    if r.publisher = selfId then
      .error [r.toStr ++ " is published by this node; it is always seeded"]
    else policy.addSeed s mode := by
  simp only [PolicyRequest.serve, PolicyRequest.resolve, resolveRule_plain hnd, h, Except.context,
    Except.mapError, Except.map, bind, Except.bind, PolicyOp.check, PolicyOp.apply,
    PolicyOp.mapDomain, (domainSlot_eq_none hnd).2]
  by_cases hown : r.publisher = selfId
  · simp [hown]
  · simp [hown]

theorem offline_seed : (PolicyRequest.seed s mode).offline policy selfId =
    if r.publisher = selfId then
      .error [r.toStr ++ " is published by this node; it is always seeded"]
    else policy.addSeed r.toStr mode := by
  simp only [PolicyRequest.offline, hnd, h, bind, Except.bind]

theorem serve_unseed : (PolicyRequest.unseed s).serve dns policy selfId = policy.removeSeed s := by
  simp only [PolicyRequest.serve, PolicyRequest.resolve, resolveRule_plain hnd, h, Except.context,
    Except.mapError, Except.map, bind, Except.bind, PolicyOp.check, PolicyOp.apply]

theorem offline_unseed :
    (PolicyRequest.unseed s).offline policy selfId = policy.removeSeed r.toStr := by
  simp only [PolicyRequest.offline, hnd, h, bind, Except.bind]

theorem serve_pin : (PolicyRequest.pin s).serve dns policy selfId =
    if r.tag.isNone then .error ["a pin needs a tag: " ++ r.toStr ++ ":<tag>"]
    else policy.addPin s := by
  simp only [PolicyRequest.serve, PolicyRequest.resolve, resolveRule_plain hnd, h, Except.context,
    Except.mapError, Except.map, bind, Except.bind, PolicyOp.check, PolicyOp.apply,
    PolicyOp.mapDomain, (domainSlot_eq_none hnd).2]
  cases r.tag with
  | none => simp
  | some t => simp

theorem offline_pin : (PolicyRequest.pin s).offline policy selfId =
    if r.tag.isNone then .error ["a pin needs a tag: " ++ r.toStr ++ ":<tag>"]
    else policy.addPin r.toStr := by
  simp only [PolicyRequest.offline, hnd, h, bind, Except.bind]

theorem serve_unpin : (PolicyRequest.unpin s).serve dns policy selfId = policy.removePin s := by
  simp only [PolicyRequest.serve, PolicyRequest.resolve, resolveRule_plain hnd, h, Except.context,
    Except.mapError, Except.map, bind, Except.bind, PolicyOp.check, PolicyOp.apply]

theorem offline_unpin :
    (PolicyRequest.unpin s).offline policy selfId = policy.removePin r.toStr := by
  simp only [PolicyRequest.offline, hnd, h, bind, Except.bind]

end

/-! ### When windows are the same -/

end

/-- Maps that are the same ask for the same. -/
theorem sameWindows_of_maps {p q : Policy} (h : p.ruleMaps = q.ruleMaps) : SameWindows p q := by
  have hwants : ∀ publisher name x, x ∈ p.wants publisher name ↔ x ∈ q.wants publisher name := by
    intro publisher name x
    cases x with
    | mode m => rw [Policy.mode_mem_wants, Policy.mode_mem_wants, h]
    | tag t => rw [Policy.tag_mem_wants, Policy.tag_mem_wants, h]
  exact fun publisher name => ⟨Policy.window_le fun x => (hwants publisher name x).mp,
    Policy.window_le fun x => (hwants publisher name x).mpr⟩

section
variable {policy p q : Policy} {s : Str} {mode : Mode} {r : ImageRef} {b b' : Bool}

/-- Two policies that differ in the modes of one seed. -/
theorem sameWindows_update {maps : RuleMaps} {modes modes' : Set Mode}
    (hp : p.ruleMaps = { maps with seed := Function.update maps.seed r modes })
    (hq : q.ruleMaps = { maps with seed := Function.update maps.seed r modes' })
    (hmodes : modes.Nonempty) (hmodes' : modes'.Nonempty) :
    SameWindows p q ↔ (r.tag = none →
      (∀ m ∈ modes, m.Within {m' | maps.follow r.publisher = some m' ∨ m' ∈ modes'}) ∧
        ∀ m ∈ modes', m.Within {m' | maps.follow r.publisher = some m' ∨ m' ∈ modes}) := by
  have htags : ∀ publisher name x, Want.tag x ∈ p.wants publisher name ↔
      Want.tag x ∈ q.wants publisher name := by
    intro publisher name x
    rw [Policy.tag_mem_wants, Policy.tag_mem_wants, hp, hq]
    refine or_congr_left ?_
    by_cases hr : (⟨publisher, name, some x⟩ : ImageRef) = r
    · simp [hr, hmodes, hmodes']
    · simp [hr]
  have helse : ∀ publisher name m, (⟨publisher, name, none⟩ : ImageRef) ≠ r →
      (Want.mode m ∈ p.wants publisher name ↔ Want.mode m ∈ q.wants publisher name) := by
    intro publisher name m hne
    simp [Policy.mode_mem_wants, hp, hq, hne]
  constructor
  · intro h htag
    obtain ⟨K, n, tag⟩ := r
    obtain rfl : tag = none := htag
    obtain ⟨hle, hge⟩ := h K n
    have hle := (Policy.window_le_iff.mp hle).1
    have hge := (Policy.window_le_iff.mp hge).1
    simp only [Policy.mode_mem_wants, hp, hq, Function.update_self] at hle hge
    exact ⟨fun m hm => hle m (Or.inr hm), fun m hm => hge m (Or.inr hm)⟩
  · intro h publisher name
    rw [Policy.window_le_iff, Policy.window_le_iff]
    refine ⟨⟨fun m hm => ?_, fun x => (htags _ _ x).mp⟩, fun m hm => ?_, fun x => (htags _ _ x).mpr⟩
    · by_cases hr : (⟨publisher, name, none⟩ : ImageRef) = r
      · subst hr
        simp only [Policy.mode_mem_wants, hp, hq, Function.update_self] at hm ⊢
        rcases hm with hfollow | hm
        · exact Mode.within_of_mem (Or.inl hfollow)
        · exact (h rfl).1 m hm
      · exact Mode.within_of_mem ((helse _ _ m hr).mp hm)
    · by_cases hr : (⟨publisher, name, none⟩ : ImageRef) = r
      · subst hr
        simp only [Policy.mode_mem_wants, hp, hq, Function.update_self] at hm ⊢
        rcases hm with hfollow | hm
        · exact Mode.within_of_mem (Or.inl hfollow)
        · exact (h rfl).2 m hm
      · exact Mode.within_of_mem ((helse _ _ m hr).mpr hm)

omit [External] in
/-- An entry of another text is one that the change leaves alone. -/
theorem oldMode_mem_others {c : Str} (hne : s ≠ c) {m : Mode} (h : policy.oldMode s = some m) :
    (⟨s, m⟩ : SeedEntry) ∈ policy.others c := by
  obtain ⟨e, he, rfl⟩ := Option.map_eq_some_iff.mp h
  have hs : e.reference = s := by simpa using List.find?_some he
  subst hs
  exact (List.mem_eraseP_of_neg (by simpa using hne)).mpr (List.mem_of_find?_eq_some he)

/-- Two texts of one seed leave the same windows if neither change makes the window smaller. -/
theorem sameWindows_addSeed {c : Str} (hs : policy.addSeed s mode = .ok (p, b))
    (hc : policy.addSeed c mode = .ok (q, b')) (hts : policy.target s = some r)
    (htc : policy.target c = some r) : SameWindows p q ↔ (r.tag = none → s ≠ c →
      policy.Widens s mode r ∧ policy.Widens c mode r) := by
  obtain ⟨holds, hmaps, -⟩ := Policy.addSeed_maps hs hts
  obtain ⟨holdc, hmaps', -⟩ := Policy.addSeed_maps hc htc
  rw [sameWindows_update hmaps hmaps' (Set.insert_nonempty _ _) (Set.insert_nonempty _ _)]
  refine imp_congr_right fun _ => ?_
  constructor
  · rintro ⟨hle, hge⟩ hne
    refine ⟨fun m hm => hge m (Or.inr ⟨_, oldMode_mem_others hne hm, hts, rfl⟩),
      fun m hm => hle m (Or.inr ⟨_, oldMode_mem_others (Ne.symm hne) hm, htc, rfl⟩)⟩
  · intro h
    by_cases hsc : s = c
    · subst hsc
      exact ⟨fun m hm => Mode.within_of_mem (Or.inr hm), fun m hm => Mode.within_of_mem (Or.inr hm)⟩
    · obtain ⟨hws, hwc⟩ := h hsc
      -- an entry that the one change leaves alone is left alone by the other, or is the one changed
      have hsub : ∀ {a d : Str}, policy.ruleMaps.seed r =
            {m | m ∈ policy.oldMode a} ∪ policy.modesAt (policy.others a) r →
          policy.ruleMaps.seed r = {m | m ∈ policy.oldMode d} ∪ policy.modesAt (policy.others d) r →
          policy.Widens d mode r → ∀ m ∈ insert mode (policy.modesAt (policy.others a) r),
            m.Within (policy.askedWith d mode r) := by
        intro a d ha hd hwd m hm
        rcases hm with rfl | hm
        · exact Mode.within_of_mem (Or.inr (Or.inl rfl))
        · have hall : m ∈ policy.ruleMaps.seed r := by
            rw [ha]
            exact Or.inr hm
          rw [hd] at hall
          rcases hall with hold | hin
          · exact hwd m hold
          · exact Mode.within_of_mem (Or.inr (Or.inr hin))
      exact ⟨hsub holds holdc hwc, hsub holdc holds hws⟩

/-- A pin of two texts that resolve to one tag. -/
theorem sameWindows_addPin {c : Str} (hs : policy.addPin s = .ok (p, b))
    (hc : policy.addPin c = .ok (q, b')) (hts : policy.target s = some r)
    (htc : policy.target c = some r) : SameWindows p q :=
  sameWindows_of_maps ((Policy.addPin_maps hs hts).1.trans (Policy.addPin_maps hc htc).1.symm)

/-- Two operations that are exact and mean the same. -/
theorem sameEffect_of_exact {op op' : Mutator} (hexact : op.Exact policy)
    (hexact' : op'.Exact policy) {maps : RuleMaps} (hm : op.meaning policy = .ok maps)
    (hm' : op'.meaning policy = .ok maps) :
    SameEffect (op.apply policy) (op'.apply policy) := by
  obtain ⟨p, b, h, hp, -⟩ := hexact maps hm
  obtain ⟨q, b', h', hq, -⟩ := hexact' maps hm'
  rw [h, h']
  exact sameWindows_of_maps (hp.trans hq.symm)

theorem sameWindows_removeSeed {c : Str} (hs : policy.removeSeed s = .ok (p, b))
    (hc : policy.removeSeed c = .ok (q, b')) (hts : policy.target s = some r)
    (htc : policy.target c = some r) : SameWindows p q := by
  have hok : ∀ {rule}, policy.target rule = some r →
      policy.parseSeedRule rule .full = .ok ⟨r.publisher, r.name, r.tag, .full⟩ := fun ht =>
    Policy.parseSeedRule_ok.mpr ⟨ht, rfl⟩
  have hsame : Mutator.meaning policy (.removeSeed s) = Mutator.meaning policy (.removeSeed c) := by
    rw [Mutator.meaning, Mutator.meaning, hok hts, hok htc]
  have hm : ∃ maps, Mutator.meaning policy (.removeSeed s) = .ok maps := by
    rw [Mutator.meaning, hok hts]
    exact ⟨_, rfl⟩
  obtain ⟨maps, hm⟩ := hm
  have heffect := sameEffect_of_exact Mutator.exact_removeSeed Mutator.exact_removeSeed hm
    (hsame.symm.trans hm)
  rwa [Mutator.apply, Mutator.apply, hs, hc] at heffect

/-- Two texts of one pin that is removed: the second text removes nothing but itself. -/
theorem sameWindows_removePin {c : Str} (hs : policy.removePin s = .ok (p, b))
    (hc : policy.removePin c = .ok (q, b')) (hts : policy.target s = some r)
    (htc : policy.target c = some r) (hcanonical : c = r.toStr) :
    SameWindows p q ↔ (r.tag.isSome = true → s ≠ c → s ∈ policy.pin →
      policy.AsksOtherwise [s, c] r) := by
  obtain ⟨x, hx, pin, rfl, hpin, -⟩ := Policy.removePin_ok hs
  obtain ⟨y, hy, pin', rfl, hpin', -⟩ := Policy.removePin_ok hc
  have htext : ∀ {rule z}, policy.parseSeedRule rule .full = .ok z →
      policy.target rule = some r → seedRuleToString z = c := by
    intro rule z hz ht
    have hzr : z.target = r := Option.some.inj ((Policy.parseSeedRule_ok.mp hz).1.symm.trans ht)
    rw [Policy.seedRuleToString_eq, hcanonical, toStr_eq, ← hzr]
    rfl
  simp only [htext hx hts, htext hy htc, and_self] at hpin hpin'
  have hmode : ∀ publisher name m,
      Want.mode m ∈ Policy.wants { policy with pin := pin } publisher name ↔
        Want.mode m ∈ Policy.wants { policy with pin := pin' } publisher name := by
    intro publisher name m
    rw [Policy.mode_mem_wants, Policy.mode_mem_wants, Policy.ruleMaps_pin policy pin,
      Policy.ruleMaps_pin policy pin']
  have htag : ∀ (pin : List Str) publisher name x,
      Want.tag x ∈ Policy.wants { policy with pin := pin } publisher name ↔
        (policy.ruleMaps.seed ⟨publisher, name, some x⟩).Nonempty ∨
          ∃ y ∈ pin, policy.target y = some ⟨publisher, name, some x⟩ := by
    intro pin publisher name x
    rw [Policy.tag_mem_wants, Policy.ruleMaps_pin policy pin]
    exact or_congr_right (and_iff_right rfl)
  constructor
  · intro h hsome hne hin
    obtain ⟨K, n, tag⟩ := r
    obtain ⟨x, rfl⟩ := Option.isSome_iff_exists.mp hsome
    have hge := (Policy.window_le_iff.mp (h K n).2).2 x
      ((htag _ _ _ _).mpr (Or.inr ⟨s, (hpin' s).mpr ⟨hin, hne⟩, hts⟩))
    rcases (htag _ _ _ _).mp hge with hseed | ⟨y, hy, hty⟩
    · exact Or.inl hseed
    · obtain ⟨hy, hys, hyc⟩ := (hpin y).mp hy
      exact Or.inr ⟨y, hy, by simp [hys, hyc], hty⟩
  · intro h publisher name
    rw [Policy.window_le_iff, Policy.window_le_iff]
    refine ⟨⟨fun m hm => Mode.within_of_mem ((hmode _ _ m).mp hm), fun x hx => ?_⟩,
      fun m hm => Mode.within_of_mem ((hmode _ _ m).mpr hm), fun x hx => ?_⟩
    · rw [htag] at hx ⊢
      refine hx.imp_right fun ⟨y, hy, hty⟩ => ⟨y, (hpin' y).mpr ?_, hty⟩
      exact ⟨((hpin y).mp hy).1, ((hpin y).mp hy).2.2⟩
    · rw [htag] at hx ⊢
      rcases hx with hseed | ⟨y, hy, hty⟩
      · exact Or.inl hseed
      · obtain ⟨hin, hyc⟩ := (hpin' y).mp hy
        by_cases hys : y = s
        · -- the daemon removed this text as well
          subst hys
          obtain rfl : r = ⟨publisher, name, some x⟩ := Option.some.inj (hts.symm.trans hty)
          rcases h rfl hyc hin with hseed | ⟨z, hz, hout, htz⟩
          · exact Or.inl hseed
          · simp only [List.mem_cons, List.not_mem_nil, or_false, not_or] at hout
            exact Or.inr ⟨z, (hpin z).mpr ⟨hz, hout⟩, htz⟩
        · exact Or.inr ⟨y, (hpin y).mpr ⟨hin, hys, hyc⟩, hty⟩

/-! ### Where an operation returns -/

/-- An operation on a rule. -/
inductive OnRule (s : Str) : Mutator → Prop
  | addSeed (mode : Mode) : OnRule s (.addSeed s mode)
  | removeSeed : OnRule s (.removeSeed s)
  | addPin : OnRule s (.addPin s)
  | removePin : OnRule s (.removePin s)

/-- It returns where the rule resolves, for a pin that is added to a tag. -/
theorem OnRule.returns {op : Mutator} (hop : OnRule s op) (ht : policy.target s = some r)
    (htag : op = .addPin s → r.tag.isSome = true) : ∃ maps, op.meaning policy = .ok maps := by
  have hok : ∀ m, policy.parseSeedRule s m = .ok ⟨r.publisher, r.name, r.tag, m⟩ := fun m =>
    Policy.parseSeedRule_ok.mpr ⟨ht, rfl⟩
  cases hop with
  | addSeed mode => exact ⟨_, by simp only [Mutator.meaning, hok, bind, Except.bind]; rfl⟩
  | removeSeed => exact ⟨_, by simp only [Mutator.meaning, hok, bind, Except.bind]; rfl⟩
  | addPin =>
      obtain ⟨x, hx⟩ := Option.isSome_iff_exists.mp (htag rfl)
      exact ⟨_, by simp only [Mutator.meaning, hok, hx, bind, Except.bind]; rfl⟩
  | removePin => exact ⟨_, by simp only [Mutator.meaning, hok, bind, Except.bind]; rfl⟩

theorem OnRule.target {op : Mutator} (hop : OnRule s op) (h : op.apply policy = .ok (p, b)) :
    ∃ r, policy.target s = some r := by
  cases hop with
  | addSeed mode =>
      obtain ⟨⟨r, hr⟩, -⟩ := Policy.addSeed_ok h
      exact ⟨_, (Policy.parseSeedRule_ok.mp hr).1⟩
  | removeSeed =>
      obtain ⟨r, hr, -⟩ := Policy.removeSeed_ok h
      exact ⟨_, (Policy.parseSeedRule_ok.mp hr).1⟩
  | addPin =>
      obtain ⟨r, hr, -⟩ := Policy.addPin_ok h
      exact ⟨_, (Policy.parseSeedRule_ok.mp hr).1⟩
  | removePin =>
      obtain ⟨r, hr, -⟩ := Policy.removePin_ok h
      exact ⟨_, (Policy.parseSeedRule_ok.mp hr).1⟩

/-! ### The daemon and the command line -/

/-- An operation on a rule and the same on the canonical text: the second returns. -/
theorem sameEffect_iff {f : Str → Mutator} (hf : ∀ s, OnRule s (f s)) {c : Str}
    (hc : policy.target c = some r) (htag : ∀ s, f s = .addPin s → r.tag.isSome = true) :
    SameEffect ((f s).apply policy) ((f c).apply policy) ↔
      ∃ p b q b', (f s).apply policy = .ok (p, b) ∧ (f c).apply policy = .ok (q, b') ∧
        SameWindows p q := by
  obtain ⟨maps, hm⟩ := (hf c).returns hc (htag c)
  obtain ⟨q, b', hq⟩ := Mutator.applies hm
  rw [hq]
  cases (f s).apply policy with
  | error e => exact ⟨False.elim, nofun⟩
  | ok x =>
      obtain ⟨p, b⟩ := x
      constructor
      · exact fun h => ⟨p, b, q, b', rfl, rfl, h⟩
      · rintro ⟨p', b₁, q', b₂, hp, hq', h⟩
        cases hp
        cases hq'
        exact h

/-- The two have one effect if the text is a rule, and the windows that they leave are the same. -/
theorem sameEffect_iff_keyed (hplain : KeysPlain) {selfId : PublisherId}
    (hnd : offlineDomainCheck s = .ok ()) (h : ImageRef.parse s policy selfId = .ok r)
    (hc : policy.target r.toStr = some r) {f : Str → Mutator} (hf : ∀ s, OnRule s (f s))
    (htag : ∀ s, f s = .addPin s → r.tag.isSome = true) {P : Prop}
    (hwindows : policy.target s = some r → ∀ p b q b', (f s).apply policy = .ok (p, b) →
      (f r.toStr).apply policy = .ok (q, b') → (SameWindows p q ↔ P)) :
    SameEffect ((f s).apply policy) ((f r.toStr).apply policy) ↔ Keyed s ∧ P := by
  rw [sameEffect_iff hf hc htag]
  constructor
  · rintro ⟨p, b, q, b', hp, hq, hsame⟩
    obtain ⟨t, ht⟩ := (hf s).target hp
    have hkeyed := keyed_of_target hnd ht
    exact ⟨hkeyed, (hwindows (target_keyed hplain hkeyed h) p b q b' hp hq).mp hsame⟩
  · rintro ⟨hkeyed, hP⟩
    have ht := target_keyed hplain hkeyed h
    obtain ⟨maps, hm⟩ := (hf s).returns ht (htag s)
    obtain ⟨p, b, hp⟩ := Mutator.applies hm
    obtain ⟨maps', hm'⟩ := (hf r.toStr).returns hc (htag r.toStr)
    obtain ⟨q, b', hq⟩ := Mutator.applies hm'
    exact ⟨p, b, q, b', hp, hq, (hwindows ht p b q b' hp hq).mpr hP⟩

variable {dns : Str → Except Err ZoneOutcome} {selfId : PublisherId}

omit [External] in
theorem domain_of_check (hnd : offlineDomainCheck s = .ok ()) : isDomainName s = false := by
  rw [offlineDomainCheck] at hnd
  cases hsplit : Str.splitOnce '/' s with
  | none =>
      by_contra hzone
      simp [hsplit, hzone] at hnd
  | some ab =>
      by_contra hzone
      have hslash := (Pinned.front_domain (Bool.eq_true_of_not_eq_false hzone)).slash_notMem
      rw [Str.splitOnce_eq_none.mpr hslash] at hsplit
      cases hsplit

/-- A follow that is not a key is refused on both ways, and one that is a key is one follow. -/
theorem agrees_follow (hkeys : KeysPrint) {req : PolicyRequest}
    (hnd : offlineDomainCheck s = .ok ()) (hreq : (∃ mode, req = .follow s mode) ∨ req = .unfollow s) :
    req.Agrees dns policy selfId := by
  cases hp : parsePublisher s with
  | ok K =>
      have hs : policy.parsePublisherArg s = .ok K := parsePublisherArg_of_key hp
      have hc : policy.parsePublisherArg K.toStr = .ok K :=
        parsePublisherArg_of_key (parsePublisher_toStr (hkeys s K hp))
      have hzone : isDomainName s = false := domain_of_check hnd
      rcases hreq with ⟨mode, rfl⟩ | rfl
      · obtain ⟨maps, hm, hm'⟩ : ∃ maps, Mutator.meaning policy (.addFollow s mode) = .ok maps ∧
            Mutator.meaning policy (.addFollow K.toStr mode) = .ok maps := by
          rw [Mutator.meaning, Mutator.meaning, hs, hc]
          exact ⟨_, rfl, rfl⟩
        simp only [PolicyRequest.Agrees, PolicyRequest.serve, PolicyRequest.resolve,
          resolvePublisherRule, hp, PolicyRequest.offline, hnd, hzone, bind, Except.bind,
          Except.map, PolicyOp.check, PolicyOp.apply, Bool.false_eq_true, if_false]
        exact sameEffect_of_exact Mutator.exact_addFollow Mutator.exact_addFollow hm hm'
      · obtain ⟨maps, hm, hm'⟩ : ∃ maps, Mutator.meaning policy (.removeFollow s) = .ok maps ∧
            Mutator.meaning policy (.removeFollow K.toStr) = .ok maps := by
          rw [Mutator.meaning, Mutator.meaning, hs, hc]
          exact ⟨_, rfl, rfl⟩
        simp only [PolicyRequest.Agrees, PolicyRequest.serve, PolicyRequest.resolve,
          resolvePublisherRule, hp, PolicyRequest.offline, hnd, bind, Except.bind, Except.map,
          PolicyOp.check, PolicyOp.apply]
        exact sameEffect_of_exact Mutator.exact_removeFollow Mutator.exact_removeFollow hm hm'
  | error e =>
      -- an alias resolves, but the policy does not take it for a publisher
      have hzone : isDomainName s = false := domain_of_check hnd
      have hs : policy.parsePublisherArg s =
          Except.context "not a publisher id or known domain" (.error e) := by
        rw [Policy.parsePublisherArg, hp]
        simp only [hzone, Bool.false_eq_true, if_false]
      rcases hreq with ⟨mode, rfl⟩ | rfl
      · simp only [PolicyRequest.Agrees, PolicyRequest.serve, PolicyRequest.resolve,
          resolvePublisherRule, hp, PolicyRequest.offline, hnd, hzone, bind, Except.bind]
        rcases policy.resolveAlias s with _ | K | ⟨K, n⟩
        · trivial
        · simp only [Except.map, PolicyOp.check, PolicyOp.apply, hzone, Policy.addFollow, hs, bind,
            Except.bind, Bool.false_eq_true, if_false]
          trivial
        · trivial
      · simp only [PolicyRequest.Agrees, PolicyRequest.serve, PolicyRequest.resolve,
          resolvePublisherRule, hp, PolicyRequest.offline, hnd, hzone, bind, Except.bind]
        rcases policy.resolveAlias s with _ | K | ⟨K, n⟩
        · trivial
        · simp only [Except.map, PolicyOp.check, PolicyOp.apply, Policy.removeFollow, hs, bind,
            Except.bind]
          trivial
        · trivial

section
variable (hkeys : KeysPrint) (hplain : KeysPlain)
  (hself : External.keyFromStr selfId.toStr = some selfId) (hnd : offlineDomainCheck s = .ok ())
include hkeys hplain hself hnd

theorem agrees_seed : (PolicyRequest.seed s mode).Agrees dns policy selfId ∧
    (PolicyRequest.seed s mode).Admitted dns policy selfId ↔
      (PolicyRequest.seed s mode).Alike policy selfId := by
  cases h : ImageRef.parse s policy selfId with
  | error e =>
      refine iff_of_true ⟨sameEffect_of_error hnd (Or.inl ⟨_, rfl⟩) h, ?_⟩ ?_
      · exact fun r hr => nomatch h.symm.trans hr
      · exact fun r hr => nomatch h.symm.trans hr
  | ok r =>
      have hc := target_toStr hkeys hself h
      have hadmitted : (PolicyRequest.seed s mode).Admitted dns policy selfId ↔
          (r.publisher ≠ selfId → (policy.addSeed s mode).isOk = true) := by
        simp only [PolicyRequest.Admitted, h, Except.ok.injEq, forall_eq', serve_seed hnd h]
        exact forall_congr' fun hown => by rw [if_neg hown]
      have halike : (PolicyRequest.seed s mode).Alike policy selfId ↔ (r.publisher ≠ selfId →
          Keyed s ∧ (r.tag = none → s ≠ r.toStr →
            policy.Widens s mode r ∧ policy.Widens r.toStr mode r)) := by
        simp only [PolicyRequest.Alike, h, Except.ok.injEq, forall_eq']
      rw [PolicyRequest.Agrees, serve_seed hnd h, offline_seed hnd h, hadmitted, halike]
      by_cases hown : r.publisher = selfId
      · rw [if_pos hown, if_pos hown]
        exact iff_of_true ⟨trivial, fun hne => absurd hown hne⟩ fun hne => absurd hown hne
      · rw [if_neg hown, if_neg hown]
        have hsame := sameEffect_iff_keyed hplain hnd h hc (fun s => OnRule.addSeed mode)
          (fun _ heq => nomatch heq) fun ht p b q b' hp hq => sameWindows_addSeed hp hq ht hc
        rw [forall_prop_of_true hown, forall_prop_of_true hown, ← hsame]
        refine and_iff_left_of_imp fun heffect => ?_
        obtain ⟨p, b, q, b', hp, -, -⟩ := (sameEffect_iff (fun s => OnRule.addSeed mode) hc
          fun _ heq => nomatch heq).mp heffect
        rw [show policy.addSeed s mode = .ok (p, b) from hp]
        rfl

theorem agrees_unseed : (PolicyRequest.unseed s).Agrees dns policy selfId ↔
    (PolicyRequest.unseed s).Alike policy selfId := by
  cases h : ImageRef.parse s policy selfId with
  | error e =>
      refine iff_of_true (sameEffect_of_error hnd (Or.inr (Or.inl rfl)) h) fun r hr => ?_
      cases h.symm.trans hr
  | ok r =>
      have hc := target_toStr hkeys hself h
      have hsame := sameEffect_iff_keyed hplain hnd h hc (fun s => OnRule.removeSeed)
        (fun _ heq => nomatch heq) fun ht p b q b' hp hq =>
          iff_of_true (sameWindows_removeSeed hp hq ht hc) trivial
      simp only [PolicyRequest.Agrees, serve_unseed hnd h, offline_unseed hnd h, PolicyRequest.Alike,
        h, Except.ok.injEq, forall_eq']
      exact hsame.trans (and_iff_left trivial)

theorem agrees_pin : (PolicyRequest.pin s).Agrees dns policy selfId ∧
    (PolicyRequest.pin s).Admitted dns policy selfId ↔
      (PolicyRequest.pin s).Alike policy selfId := by
  cases h : ImageRef.parse s policy selfId with
  | error e =>
      refine iff_of_true ⟨sameEffect_of_error hnd (Or.inr (Or.inr (Or.inl rfl))) h, ?_⟩ ?_
      · exact fun r hr => nomatch h.symm.trans hr
      · exact fun r hr => nomatch h.symm.trans hr
  | ok r =>
      have hc := target_toStr hkeys hself h
      simp only [PolicyRequest.Agrees, serve_pin hnd h, offline_pin hnd h, PolicyRequest.Admitted,
        PolicyRequest.Alike, h, Except.ok.injEq, forall_eq']
      cases htag : r.tag with
      | none => simp [SameEffect]
      | some x =>
          have hsame := sameEffect_iff_keyed hplain hnd h hc (fun s => OnRule.addPin)
            (fun _ _ => htag ▸ rfl) fun ht p b q b' hp hq =>
              iff_of_true (sameWindows_addPin hp hq ht hc) trivial
          rw [and_iff_left trivial] at hsame
          simp only [Option.isNone_some, Option.isSome_some, Bool.false_eq_true, if_false,
            forall_prop_of_true]
          rw [← hsame]
          refine and_iff_left_of_imp fun heffect _ => ?_
          obtain ⟨p, b, q, b', hp, -, -⟩ := (sameEffect_iff (fun s => OnRule.addPin) hc
            fun _ _ => htag ▸ rfl).mp heffect
          rw [show policy.addPin s = .ok (p, b) from hp]
          rfl

theorem agrees_unpin : (PolicyRequest.unpin s).Agrees dns policy selfId ↔
    (PolicyRequest.unpin s).Alike policy selfId := by
  cases h : ImageRef.parse s policy selfId with
  | error e =>
      refine iff_of_true (sameEffect_of_error hnd (Or.inr (Or.inr (Or.inr rfl))) h) fun r hr => ?_
      cases h.symm.trans hr
  | ok r =>
      have hc := target_toStr hkeys hself h
      have hsame := sameEffect_iff_keyed hplain hnd h hc (fun s => OnRule.removePin)
        (fun _ heq => nomatch heq) fun ht p b q b' hp hq => sameWindows_removePin hp hq ht hc rfl
      simp only [PolicyRequest.Agrees, serve_unpin hnd h, offline_unpin hnd h, PolicyRequest.Alike,
        h, Except.ok.injEq, forall_eq']
      exact hsame

end

/-- **The daemon and `ocictl` change the policy alike** for an argument without a domain, and the
daemon takes what resolves to another publisher, if and only if the argument is a rule and the texts
of the policy do not tell the two ways apart. -/
theorem serve_offline_iff (hkeys : KeysPrint) (hplain : KeysPlain)
    (hself : External.keyFromStr selfId.toStr = some selfId) (dns : Str → Except Err ZoneOutcome)
    (policy : Policy) (req : PolicyRequest) (hnd : offlineDomainCheck req.arg = .ok ()) :
    req.Agrees dns policy selfId ∧ req.Admitted dns policy selfId ↔ req.Alike policy selfId := by
  cases req with
  | seed s mode => exact agrees_seed hkeys hplain hself hnd
  | unseed s => exact (and_iff_left trivial).trans (agrees_unseed hkeys hplain hself hnd)
  | follow s mode => exact iff_of_true ⟨agrees_follow hkeys hnd (Or.inl ⟨_, rfl⟩), trivial⟩ trivial
  | unfollow s => exact iff_of_true ⟨agrees_follow hkeys hnd (Or.inr rfl), trivial⟩ trivial
  | pin s => exact agrees_pin hkeys hplain hself hnd
  | unpin s => exact (and_iff_left trivial).trans (agrees_unpin hkeys hplain hself hnd)

end

/-! ### An alias -/

omit [External] in
theorem hex_of_hexDecode {s : Str} {bs : Bytes} (h : hexDecode s = some bs) :
    s.length = 2 * bs.length ∧ ∀ c ∈ s, isAsciiAlphanumeric c = true := by
  have hval : ∀ {c n}, hexVal c = some n → isAsciiAlphanumeric c = true := by
    intro c n h
    simp only [hexVal] at h
    simp only [isAsciiAlphanumeric, Bool.or_eq_true, Bool.and_eq_true, decide_eq_true_eq]
    split at h
    · rename_i hc
      exact Or.inl (Or.inl hc)
    · split at h
      · rename_i hc
        exact Or.inl (Or.inr ⟨hc.1, hc.2.trans (by decide)⟩)
      · split at h
        · rename_i hc
          exact Or.inr ⟨hc.1, hc.2.trans (by decide)⟩
        · cases h
  induction s using hexDecode.induct generalizing bs with
  | case1 =>
      cases h
      exact ⟨rfl, fun _ hc => absurd hc List.not_mem_nil⟩
  | case2 => cases h
  | case3 c d s ih =>
      simp only [hexDecode, Option.bind_eq_bind, Option.bind_eq_some_iff] at h
      obtain ⟨hi, hc, lo, hd, bs', hs, heq⟩ := h
      cases heq
      obtain ⟨hlength, hchars⟩ := ih hs
      refine ⟨by simp [hlength]; omega, ?_⟩
      exact List.forall_mem_cons.mpr ⟨hval hc, List.forall_mem_cons.mpr ⟨hval hd, hchars⟩⟩

omit [External] in
theorem keysPlain_sample : letI := sample; KeysPlain := by
  intro s K h
  obtain ⟨bs, hbs, hK⟩ := Option.bind_eq_some_iff.mp h
  obtain ⟨hlength, hchars⟩ := hex_of_hexDecode hbs
  refine ⟨Or.inl ?_, hchars⟩
  rw [keyOfBytes] at hK
  split at hK
  · rename_i hsize
    rw [hlength, hsize]
  · cases hK

/-- An alias of an image of another publisher. -/
def Sample.aliasing : Policy :=
  { Policy.default with aliases := [("web", Sample.alice.id.toStr ++ "/app")] }

omit [External] in
theorem serve_offline_iff_at : letI := sample
    let dns : Str → Except Err ZoneOutcome := fun _ => .ok .noRecord
    let req := PolicyRequest.pin (Sample.alice.id.toStr ++ "/app:1.0")
    req.Agrees dns Sample.aliasing Sample.bob.id ∧ req.Admitted dns Sample.aliasing Sample.bob.id ↔
      req.Alike Sample.aliasing Sample.bob.id := by
  let _ := sample
  have hself : External.keyFromStr (PublicKey.toStr Sample.bob.id) = some Sample.bob.id := by
    decide +kernel
  have hnd : offlineDomainCheck (Sample.alice.id.toStr ++ "/app:1.0") = .ok () := by decide +kernel
  exact serve_offline_iff keysPrint_sample keysPlain_sample hself _ _ _ hnd

omit [External] in
/-- The daemon refuses to pin by an alias what `ocictl` pins without it. -/
theorem daemon_refuses_alias : letI := sample
    ¬ (PolicyRequest.pin "web:1.0").Agrees (fun _ => .ok .noRecord) Sample.aliasing Sample.bob.id ∧
      ¬ (PolicyRequest.pin "web:1.0").Admitted (fun _ => .ok .noRecord) Sample.aliasing
        Sample.bob.id := by
  let _ := sample
  have hread : ImageRef.parse "web:1.0" Sample.aliasing Sample.bob.id =
      .ok ⟨Sample.alice.id, "app", some "1.0"⟩ := by decide +kernel
  have hother : Sample.alice.id ≠ Sample.bob.id := by decide +kernel
  have hdaemon : ((PolicyRequest.pin "web:1.0").serve (fun _ => .ok .noRecord) Sample.aliasing
      Sample.bob.id).isOk = false := by decide +kernel
  have hoffline : ((PolicyRequest.pin "web:1.0").offline Sample.aliasing Sample.bob.id).isOk =
      true := by decide +kernel
  constructor
  · intro h
    rw [PolicyRequest.Agrees] at h
    revert hdaemon hoffline h
    cases PolicyRequest.serve _ _ _ _ with
    | ok x => exact nofun
    | error e => cases PolicyRequest.offline _ _ _ with
      | ok y => exact fun _ _ h => h
      | error e => exact nofun
  · intro h
    have hok := h _ hread hother rfl
    rw [hdaemon] at hok
    cases hok

end Ocid
