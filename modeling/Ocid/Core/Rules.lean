import Ocid.Core.Resolve

/-!
# Core — Rules — changing the policy

What the six operations on the policy do to it: a seed, a follow and a pin are added or removed by
the text of their rule.  Each says whether the policy changed, and fails on a rule that does not
parse, which leaves the policy as it was.

A rule keeps the domain it was written with; the key that domain resolved to goes into the table
`dns` of the same policy, so the rule is parsed through the table that was just written.
-/

namespace Ocid

/-- `BTreeMap::insert`, on the rows in the order of their keys. -/
def mapInsert (k v : Str) : List (Str × Str) → List (Str × Str)
  | [] => [(k, v)]
  | row :: rows =>
      if k = row.1 then (k, v) :: rows
      else if k < row.1 then (k, v) :: row :: rows
      else row :: mapInsert k v rows

theorem lookup_mapInsert (k v j : Str) (rows : List (Str × Str)) :
    (mapInsert k v rows).lookup j = if j = k then some v else rows.lookup j := by
  induction rows with
  | nil =>
      rw [mapInsert, List.lookup_cons]
      by_cases hj : j = k
      · simp [hj]
      · simp [hj, beq_false_of_ne hj]
  | cons row rows ih =>
      obtain ⟨key, value⟩ := row
      by_cases hj : j = k
      · subst hj
        simp only [if_true] at ih ⊢
        rw [mapInsert]
        by_cases hkey : j = key
        · simp [hkey]
        · by_cases hlt : j < key
          · simp [hkey, hlt]
          · simp [hkey, hlt, List.lookup_cons, beq_false_of_ne hkey, ih]
      · simp only [if_neg hj] at ih ⊢
        rw [mapInsert]
        by_cases hkey : k = key
        · subst hkey
          simp [List.lookup_cons, beq_false_of_ne hj]
        · by_cases hlt : k < key
          · simp [hkey, hlt, List.lookup_cons, beq_false_of_ne hj]
          · simp [hkey, hlt, List.lookup_cons, ih]

/-- The domain in the publisher slot of a rule. -/
def domainSlot (rule : Str) : Option Str :=
  match Str.splitOnce '/' rule with
  | some (first, _) => if isDomainName first then some first else none
  | none => none

/-- A rule as it is written into the policy, with the key in hex. -/
def seedRuleToString (r : SeedRule) : Str :=
  match r.tag with
  | some t => r.publisher.toStr ++ '/' :: (r.name ++ ':' :: t)
  | none => r.publisher.toStr ++ '/' :: r.name

namespace Policy

/-- Record the publisher a domain resolved to. -/
def setDnsMapping (policy : Policy) (zone : Str) (publisher : PublisherId) : Policy :=
  { policy with dns := mapInsert zone publisher.toStr policy.dns }

variable [External]

/-- Add or update a seed rule. -/
def addSeed (policy : Policy) (rule : Str) (mode : Mode) : Except Err (Policy × Bool) := do
  let _ ← policy.parseSeedRule rule mode
  match policy.seed.findIdx? fun e => e.reference = rule with
  | some i =>
      if (policy.seed[i]?).any fun e => e.mode = mode then pure (policy, false)
      else pure ({ policy with seed := policy.seed.modify i fun e => { e with mode } }, true)
  | none => pure ({ policy with seed := policy.seed ++ [⟨rule, mode⟩] }, true)

/-- Remove a seed rule.  Without a tag, every rule for that image. -/
def removeSeed (policy : Policy) (rule : Str) : Except Err (Policy × Bool) := do
  let parsed ← policy.parseSeedRule rule .full
  let keep (e : SeedEntry) : Bool := match policy.parseSeedRule e.reference e.mode with
    | .ok r => !(r.publisher = parsed.publisher && r.name = parsed.name &&
        (parsed.tag.isNone || r.tag = parsed.tag))
    | .error _ => true
  let seed := policy.seed.filter keep
  pure ({ policy with seed }, seed.length != policy.seed.length)

/-- Add or update a follow, comparing what the entries resolve to. -/
def addFollow (policy : Policy) (publisher : Str) (mode : Mode) :
    Except Err (Policy × Bool) := do
  let key ← policy.parsePublisherArg publisher
  match policy.follow.findIdx? fun e =>
      (policy.parsePublisherArg e.publisher).toOption = some key with
  | some i =>
      if (policy.follow[i]?).any fun e => e.mode = mode then pure (policy, false)
      else pure ({ policy with follow := policy.follow.modify i fun e => { e with mode } }, true)
  | none => pure ({ policy with follow := policy.follow ++ [⟨publisher, mode⟩] }, true)

/-- Remove what is followed under the argument's key, however it is written; says whether something
was. -/
def removeFollow (policy : Policy) (publisher : Str) : Except Err (Policy × Bool) := do
  let key ← policy.parsePublisherArg publisher
  let resolved (s : Str) : Option PublisherId := match parsePublisher s with
    | .ok p => some p
    | .error _ =>
        if isDomainName s then
          (policy.dns.lookup s).bind fun k => (parsePublisher k).toOption
        else none
  let follow := policy.follow.filter fun e => resolved e.publisher ≠ some key
  pure ({ policy with follow }, follow.length != policy.follow.length)

/-- Add a pin, as it is written; says whether it was not there in these words. -/
def addPin (policy : Policy) (reference : Str) : Except Err (Policy × Bool) := do
  let parsed ← policy.parseSeedRule reference .full
  if parsed.tag.isNone then .error ["a pin needs a tag: " ++ reference]
  else if policy.pin.contains reference then pure (policy, false)
  else pure ({ policy with pin := policy.pin ++ [reference] }, true)

/-- Remove a pin by its written form or by its hex form. -/
def removePin (policy : Policy) (reference : Str) : Except Err (Policy × Bool) := do
  let parsed ← policy.parseSeedRule reference .full
  let canonical := seedRuleToString parsed
  let pin := policy.pin.filter fun p => p ≠ reference ∧ p ≠ canonical
  pure ({ policy with pin }, pin.length != policy.pin.length)

/-! ### What the operations do -/

section
variable {policy p : Policy} {rule : Str} {mode : Mode} {b : Bool}

omit [External] in
/-- The list around the first entry that satisfies `q`. -/
theorem split_of_findIdx? {α : Type} {q : α → Bool} {l : List α} {i : ℕ}
    (h : l.findIdx? q = some i) : ∃ before e after, l = before ++ e :: after ∧
      (∀ x ∈ before, q x = false) ∧ q e = true ∧ l[i]? = some e ∧
        ∀ f : α → α, l.modify i f = before ++ f e :: after := by
  induction l generalizing i with
  | nil => cases h
  | cons a l ih =>
      rw [List.findIdx?_cons] at h
      split at h
      · rename_i ha
        cases h
        exact ⟨[], a, l, rfl, nofun, ha, rfl, fun f => rfl⟩
      · rename_i ha
        obtain ⟨j, hj, rfl⟩ := Option.map_eq_some_iff.mp h
        obtain ⟨before, e, after, rfl, hbefore, he, hget, hmodify⟩ := ih hj
        refine ⟨a :: before, e, after, rfl, ?_, he, hget, fun f => ?_⟩
        · exact List.forall_mem_cons.mpr ⟨Bool.eq_false_of_not_eq_true ha, hbefore⟩
        · rw [List.modify_succ_cons, hmodify, List.cons_append]

/-- A seed is added at the end, or the first entry with the same text gets the mode. -/
theorem addSeed_ok (h : policy.addSeed rule mode = .ok (p, b)) :
    (∃ r, policy.parseSeedRule rule mode = .ok r) ∧ ∃ seed, p = { policy with seed } ∧
      ((∀ e ∈ policy.seed, e.reference ≠ rule) ∧ seed = policy.seed ++ [⟨rule, mode⟩] ∧ b = true ∨
        ∃ before m after, policy.seed = before ++ ⟨rule, m⟩ :: after ∧
          (∀ e ∈ before, e.reference ≠ rule) ∧ seed = before ++ ⟨rule, mode⟩ :: after ∧
            (b = true ↔ m ≠ mode)) := by
  cases hr : policy.parseSeedRule rule mode with
  | error e =>
      simp only [addSeed, hr, bind, Except.bind] at h
      cases h
  | ok r =>
      refine ⟨⟨r, rfl⟩, ?_⟩
      simp only [addSeed, hr, bind, Except.bind] at h
      cases hfind : policy.seed.findIdx? fun e => e.reference = rule with
      | none =>
          rw [hfind] at h
          cases h
          refine ⟨_, rfl, Or.inl ⟨fun e he => ?_, rfl, rfl⟩⟩
          exact of_decide_eq_false (List.findIdx?_eq_none_iff.mp hfind e he)
      | some i =>
          obtain ⟨before, e, after, hseed, hbefore, he, hget, hmodify⟩ := split_of_findIdx? hfind
          obtain ⟨text, m⟩ := e
          obtain rfl := of_decide_eq_true he
          have hrest : ∀ e ∈ before, e.reference ≠ text := fun e he =>
            of_decide_eq_false (hbefore e he)
          simp only [hfind, hget, Option.any_some] at h
          by_cases hm : m = mode
          · subst hm
            simp only [decide_true, if_true] at h
            cases h
            exact ⟨_, rfl, Or.inr ⟨before, m, after, hseed, hrest, hseed, by simp⟩⟩
          · simp only [hm, decide_false, Bool.false_eq_true, if_false, hmodify] at h
            cases h
            exact ⟨_, rfl, Or.inr ⟨before, m, after, hseed, hrest, rfl, by simp [hm]⟩⟩

omit [External] in
theorem toOption_eq_some {α : Type} {x : Except Err α} {a : α} :
    x.toOption = some a ↔ x = .ok a := by
  cases x <;> simp [Except.toOption]

/-- A follow is added at the end, or the first entry of the publisher gets the mode. -/
theorem addFollow_ok (h : policy.addFollow rule mode = .ok (p, b)) :
    ∃ key, policy.parsePublisherArg rule = .ok key ∧ ∃ follow, p = { policy with follow } ∧
      ((∀ e ∈ policy.follow, policy.parsePublisherArg e.publisher ≠ .ok key) ∧
          follow = policy.follow ++ [⟨rule, mode⟩] ∧ b = true ∨
        ∃ before text m after, policy.follow = before ++ ⟨text, m⟩ :: after ∧
          (∀ e ∈ before, policy.parsePublisherArg e.publisher ≠ .ok key) ∧
          policy.parsePublisherArg text = .ok key ∧ follow = before ++ ⟨text, mode⟩ :: after ∧
            (b = true ↔ m ≠ mode)) := by
  cases hkey : policy.parsePublisherArg rule with
  | error e =>
      simp only [addFollow, hkey, bind, Except.bind] at h
      cases h
  | ok key =>
      refine ⟨key, rfl, ?_⟩
      simp only [addFollow, hkey, bind, Except.bind] at h
      cases hfind : policy.follow.findIdx? fun e =>
          (policy.parsePublisherArg e.publisher).toOption = some key with
      | none =>
          rw [hfind] at h
          cases h
          refine ⟨_, rfl, Or.inl ⟨fun e he hres => ?_, rfl, rfl⟩⟩
          exact of_decide_eq_false (List.findIdx?_eq_none_iff.mp hfind e he)
            (toOption_eq_some.mpr hres)
      | some i =>
          obtain ⟨before, e, after, hfollow, hbefore, he, hget, hmodify⟩ := split_of_findIdx? hfind
          obtain ⟨text, m⟩ := e
          have htext := toOption_eq_some.mp (of_decide_eq_true he)
          have hrest : ∀ e ∈ before, policy.parsePublisherArg e.publisher ≠ .ok key :=
            fun e he hres => of_decide_eq_false (hbefore e he) (toOption_eq_some.mpr hres)
          simp only [hfind, hget, Option.any_some] at h
          by_cases hm : m = mode
          · subst hm
            simp only [decide_true, if_true] at h
            cases h
            exact ⟨_, rfl, Or.inr ⟨before, text, m, after, hfollow, hrest, htext, hfollow, by simp⟩⟩
          · simp only [hm, decide_false, Bool.false_eq_true, if_false, hmodify] at h
            cases h
            exact ⟨_, rfl, Or.inr ⟨before, text, m, after, hfollow, hrest, htext, rfl,
              by simp [hm]⟩⟩

/-- A pin is added at the end, unless the text is there. -/
theorem addPin_ok (h : policy.addPin rule = .ok (p, b)) :
    ∃ r, policy.parseSeedRule rule .full = .ok r ∧ r.tag.isSome = true ∧
      (rule ∈ policy.pin ∧ p = policy ∧ b = false ∨
        rule ∉ policy.pin ∧ p = { policy with pin := policy.pin ++ [rule] } ∧ b = true) := by
  cases hr : policy.parseSeedRule rule .full with
  | error e =>
      simp only [addPin, hr, bind, Except.bind] at h
      cases h
  | ok r =>
      refine ⟨r, rfl, ?_⟩
      simp only [addPin, hr, bind, Except.bind] at h
      split at h
      · cases h
      · rename_i htag
        refine ⟨Option.isSome_iff_ne_none.mpr (by simpa using htag), ?_⟩
        split at h
        · rename_i hmem
          cases h
          exact Or.inl ⟨List.contains_iff_mem.mp hmem, rfl, rfl⟩
        · rename_i hmem
          cases h
          exact Or.inr ⟨fun hin => hmem (List.contains_iff_mem.mpr hin), rfl, rfl⟩

omit [External] in
/-- The list gets shorter exactly if an entry is dropped. -/
theorem length_filter_bne {α : Type} (q : α → Bool) (l : List α) :
    ((l.filter q).length != l.length) = true ↔ ∃ a ∈ l, q a = false := by
  rw [bne_iff_ne, ne_eq, List.length_filter_eq_length_iff]
  simp only [not_forall, exists_prop, Bool.not_eq_true]

/-- The seeds of the image are removed, or those of the tag. -/
theorem removeSeed_ok (h : policy.removeSeed rule = .ok (p, b)) :
    ∃ r, policy.parseSeedRule rule .full = .ok r ∧ ∃ seed, p = { policy with seed } ∧
      (∀ e, e ∈ seed ↔ e ∈ policy.seed ∧ ∀ x, policy.parseSeedRule e.reference e.mode = .ok x →
        ¬ (x.publisher = r.publisher ∧ x.name = r.name ∧ (r.tag = none ∨ x.tag = r.tag))) ∧
      (b = true ↔ ∃ e ∈ policy.seed, e ∉ seed) := by
  cases hr : policy.parseSeedRule rule .full with
  | error e =>
      simp only [removeSeed, hr, bind, Except.bind] at h
      cases h
  | ok r =>
      simp only [removeSeed, hr, bind, Except.bind] at h
      cases h
      refine ⟨r, rfl, _, rfl, fun e => ?_, ?_⟩
      · rw [List.mem_filter]
        refine and_congr_right fun _ => ?_
        cases policy.parseSeedRule e.reference e.mode with
        | error e => simp
        | ok x =>
            simp only [Except.ok.injEq, forall_eq', Bool.not_eq_true', Bool.and_eq_false_iff,
              decide_eq_false_iff_not, Bool.or_eq_false_iff, Option.isNone_eq_false_iff,
              ← Option.isSome_iff_ne_none, not_and_or, not_or, or_assoc]
      · rw [length_filter_bne]
        refine exists_congr fun e => and_congr_right fun he => ?_
        rw [List.mem_filter, and_iff_right he, Bool.not_eq_true]

/-- The follows of the publisher are removed. -/
theorem removeFollow_ok (h : policy.removeFollow rule = .ok (p, b)) :
    ∃ key, policy.parsePublisherArg rule = .ok key ∧
      p = { policy with follow := policy.follow.filter fun e =>
        (policy.parsePublisherArg e.publisher).toOption ≠ some key } ∧
      (b = true ↔ ∃ e ∈ policy.follow, policy.parsePublisherArg e.publisher = .ok key) := by
  cases hkey : policy.parsePublisherArg rule with
  | error e =>
      simp only [removeFollow, hkey, bind, Except.bind] at h
      cases h
  | ok key =>
      -- the operation resolves an entry in its own words
      have hresolved : ∀ s : Str, (match parsePublisher s with
          | .ok p => some p
          | .error _ =>
              if isDomainName s then
                (policy.dns.lookup s).bind fun k => (parsePublisher k).toOption
              else none) = (policy.parsePublisherArg s).toOption := by
        intro s
        rw [parsePublisherArg]
        cases hp : parsePublisher s with
        | ok k => rfl
        | error err =>
            cases hzone : isDomainName s with
            | false => rfl
            | true =>
                cases hdns : policy.dns.lookup s with
                | none => rfl
                | some k => cases hk : parsePublisher k <;>
                    simp [hk, Except.context, Except.mapError, Except.toOption]
      simp only [removeFollow, hkey, bind, Except.bind, hresolved] at h
      cases h
      refine ⟨key, rfl, rfl, ?_⟩
      rw [length_filter_bne]
      simp only [decide_eq_false_iff_not, not_not, toOption_eq_some]

/-- The pins of the text are removed, and those of the canonical text. -/
theorem removePin_ok (h : policy.removePin rule = .ok (p, b)) :
    ∃ r, policy.parseSeedRule rule .full = .ok r ∧ ∃ pin, p = { policy with pin } ∧
      (∀ x, x ∈ pin ↔ x ∈ policy.pin ∧ x ≠ rule ∧ x ≠ seedRuleToString r) ∧
      (b = true ↔ ∃ x ∈ policy.pin, x = rule ∨ x = seedRuleToString r) := by
  cases hr : policy.parseSeedRule rule .full with
  | error e =>
      simp only [removePin, hr, bind, Except.bind] at h
      cases h
  | ok r =>
      simp only [removePin, hr, bind, Except.bind] at h
      cases h
      refine ⟨r, rfl, _, rfl, fun x => ?_, ?_⟩
      · rw [List.mem_filter, decide_eq_true_eq]
      · rw [length_filter_bne]
        simp only [decide_eq_false_iff_not, not_and_or, not_not]

end

end Policy

/-! ### The operations -/

/-- An operation on the policy, with what its rule was resolved to. -/
inductive PolicyOp where
  | seed (rule : Str) (resolved : ImageRef) (mode : Mode)
  | unseed (rule : Str)
  | follow (rule : Str) (publisher : PublisherId) (mode : Mode)
  | unfollow (rule : Str)
  | pin (rule : Str) (resolved : ImageRef)
  | unpin (rule : Str)
  /-- Read the file again. -/
  | reload
deriving DecidableEq

/-- A reference as it is printed. -/
def ImageRef.toStr (r : ImageRef) : Str :=
  r.publisher.toStr ++ '/' :: (r.name ++ match r.tag with
    | some t => ':' :: t
    | none => [])

namespace PolicyOp

/-- What an operation refuses before it looks at the policy. -/
def check (selfId : PublisherId) : PolicyOp → Except Err Unit
  | .seed _ resolved _ =>
      if resolved.publisher = selfId then
        .error [resolved.toStr ++ " is published by this node; it is always seeded"]
      else .ok ()
  | .pin _ resolved =>
      if resolved.tag.isNone then
        .error ["a pin needs a tag: " ++ resolved.toStr ++ ":<tag>"]
      else .ok ()
  | _ => .ok ()

/-- The policy with the domain of a rule mapped. -/
def mapDomain (policy : Policy) (rule : Str) (publisher : PublisherId) : Policy :=
  match domainSlot rule with
  | some zone => policy.setDnsMapping zone publisher
  | none => policy

/-- What an operation makes of the policy, and whether it changed it.  A reload changes nothing of
its own. -/
def apply [External] (policy : Policy) : PolicyOp → Except Err (Policy × Bool)
  | .seed rule resolved mode => (mapDomain policy rule resolved.publisher).addSeed rule mode
  | .unseed rule => policy.removeSeed rule
  | .follow rule publisher mode =>
      (if isDomainName rule then policy.setDnsMapping rule publisher else policy).addFollow rule mode
  | .unfollow rule => policy.removeFollow rule
  | .pin rule resolved => (mapDomain policy rule resolved.publisher).addPin rule
  | .unpin rule => policy.removePin rule
  | .reload => .ok (policy, false)

/-- The domain that an operation maps, and its key. -/
def mapping : PolicyOp → Option (Str × PublisherId)
  | .seed rule resolved _ | .pin rule resolved =>
      (domainSlot rule).map fun zone => (zone, resolved.publisher)
  | .follow rule publisher _ => if isDomainName rule then some (rule, publisher) else none
  | _ => none

/-- An operation changes the table in no other way. -/
theorem dns_apply [External] {policy policy' : Policy} {op : PolicyOp} {b : Bool}
    (h : op.apply policy = .ok (policy', b)) (z : Str) :
    policy'.dns.lookup z = match op.mapping with
      | some y => if z = y.1 then some y.2.toStr else policy.dns.lookup z
      | none => policy.dns.lookup z := by
  have hmapped : ∀ rule publisher, (mapDomain policy rule publisher).dns.lookup z =
      match (domainSlot rule).map fun zone => (zone, publisher) with
        | some y => if z = y.1 then some y.2.toStr else policy.dns.lookup z
        | none => policy.dns.lookup z := by
    intro rule publisher
    rw [mapDomain]
    cases domainSlot rule with
    | none => rfl
    | some zone => exact lookup_mapInsert zone publisher.toStr z policy.dns
  cases op with
  | seed rule resolved mode =>
      obtain ⟨-, seed, rfl, -⟩ := Policy.addSeed_ok h
      exact hmapped rule resolved.publisher
  | unseed rule =>
      obtain ⟨r, -, seed, rfl, -⟩ := Policy.removeSeed_ok h
      rfl
  | follow rule publisher mode =>
      obtain ⟨key, -, follow, rfl, -⟩ := Policy.addFollow_ok h
      rw [mapping]
      cases isDomainName rule with
      | false => rfl
      | true => exact lookup_mapInsert rule publisher.toStr z policy.dns
  | unfollow rule =>
      obtain ⟨key, -, rfl, -⟩ := Policy.removeFollow_ok h
      rfl
  | pin rule resolved =>
      obtain ⟨r, -, -, ⟨-, rfl, -⟩ | ⟨-, rfl, -⟩⟩ := Policy.addPin_ok h
      · exact hmapped rule resolved.publisher
      · exact hmapped rule resolved.publisher
  | unpin rule =>
      obtain ⟨r, -, pin, rfl, -⟩ := Policy.removePin_ok h
      rfl
  | reload =>
      cases h
      rfl

/-- The policy after operations applied one after the other. -/
def applyAll [External] : Policy → List PolicyOp → Except Err Policy
  | policy, [] => .ok policy
  | policy, op :: ops => do
      let (next, _) ← op.apply policy
      applyAll next ops

theorem applyAll_append [External] {p q r : Policy} {ops ops' : List PolicyOp}
    (h : applyAll p ops = .ok q) (h' : applyAll q ops' = .ok r) :
    applyAll p (ops ++ ops') = .ok r := by
  induction ops generalizing p with
  | nil =>
      cases h
      exact h'
  | cons op ops ih =>
      rw [List.cons_append]
      simp only [applyAll, bind, Except.bind] at h ⊢
      cases hop : op.apply p with
      | error e =>
          rw [hop] at h
          cases h
      | ok next =>
          rw [hop] at h
          exact ih h

end PolicyOp

end Ocid
