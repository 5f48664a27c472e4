import Ocid.Daemon.Sample
import Ocid.Naming.Pinned

/-!
# Naming — Signed — what the signature of a record covers

The bytes that are signed are the version, the zone, the key, the time and the hints, with a space
between each two and no labels (`DnsRecord.signedFields`).  None of them has a space in it, so the
bytes say how many there are and which; and where there is one hint only, a relay has a colon, as
every URL does, and a peer id has none.  So the bytes say for which zone they are signed, and the
key, the time and both hints of the record (`canonicalPayload_eq_iff`).
-/

namespace Ocid

/-- A text that is read as a URL has a colon, after its scheme. -/
def Relays.Schemed [Relays] : Prop := ∀ s scheme, Relays.scheme s = some scheme → ':' ∈ s

namespace DnsRecord

variable [Relays] [External]

/-- `relay.map(validate_relay).transpose()`. -/
def checkHint : Option Str → Except Err (Option Str)
  | some relay => (validateRelay relay).map some
  | none => .ok none

/-- Sign a record for `zone` with optional reachability hints. -/
def signFull (zone : Str) (id : Identity) (ts : ℕ) (relay : Option Str)
    (seed : Option PublisherId) : Except Err DnsRecord := do
  validateZone zone
  let relay ← checkHint relay
  let sig := id.sign (canonicalPayload zone id.id ts relay seed)
  pure { key := id.id, ts, relay, seed, sig }

/-- A record that was signed here or read from a text. -/
def Made (r : DnsRecord) : Prop :=
  (∃ zone id ts relay seed, signFull zone id ts relay seed = .ok r) ∨ ∃ txt, parse txt = .ok r

/-- The fields the signature covers. -/
def signedFields (zone : Str) (r : DnsRecord) : List Str :=
  [dnsVersion, zone, r.key.toStr, Nat.toDigits 10 r.ts] ++ r.relay.toList ++
    (r.seed.map PublicKey.toStr).toList

/-! ### The relay of a record -/

omit [External] in
theorem validateRelay_ok {u v : Str} (h : validateRelay u = .ok v) :
    v = u ∧ (∀ c ∈ u, Str.isWhitespace c = false) ∧ (Relays.scheme u).isSome = true := by
  unfold validateRelay at h
  split at h
  · cases h
  · rename_i hspace
    split at h
    · cases h
    · rename_i scheme hscheme
      have hplain : ∀ c ∈ u, Str.isWhitespace c = false := fun c hc =>
        Bool.eq_false_iff.mpr fun hw => hspace (List.any_eq_true.mpr ⟨c, hc, hw⟩)
      split at h
      · cases h
      · split at h
        · cases h
        · cases h
          exact ⟨rfl, hplain, Option.isSome_iff_exists.mpr ⟨scheme, hscheme⟩⟩

/-- The relay that was read, if any, passed the check. -/
def relayRead (f : RecordFields) : Prop := ∀ u ∈ f.relay, validateRelay u = .ok u

theorem relayRead_read {f g : RecordFields} {tok : Str} (hf : relayRead f)
    (h : f.read tok = .ok g) : relayRead g := by
  unfold RecordFields.read at h
  split at h
  · cases h
  · rename_i k v _
    split at h
    · cases h
      exact hf
    · split at h
      · cases hkey : recordKey "k" "publisher" v with
        | error e => rw [hkey] at h; cases h
        | ok key => rw [hkey] at h; cases h; exact hf
      · split at h
        · split at h
          · cases h
            exact hf
          · cases h
        · split at h
          · -- the one field that changes the relay
            cases hv : validateRelay v with
            | error e => rw [hv] at h; cases h
            | ok u =>
                rw [hv] at h
                cases h
                intro u' hu'
                cases hu'
                obtain ⟨rfl, -⟩ := validateRelay_ok hv
                exact hv
          · split at h
            · cases hseed : recordKey "seed" "peer" v with
              | error e => rw [hseed] at h; cases h
              | ok seed => rw [hseed] at h; cases h; exact hf
            · split at h
              · split at h
                · cases h
                · split at h
                  · cases h
                  · cases h
                    exact hf
              · cases h

theorem relayRead_foldlM {toks : List Str} {f g : RecordFields} (hf : relayRead f)
    (h : toks.foldlM RecordFields.read f = .ok g) : relayRead g := by
  induction toks generalizing f with
  | nil =>
      cases h
      exact hf
  | cons tok toks ih =>
      rw [List.foldlM_cons] at h
      cases hread : f.read tok with
      | error e => rw [hread] at h; cases h
      | ok f' =>
          rw [hread] at h
          exact ih (relayRead_read hf hread) h

omit [External] in
theorem checkHint_ok {relay checked : Option Str} (h : checkHint relay = .ok checked) :
    ∀ u ∈ checked, validateRelay u = .ok u := by
  intro u hu
  cases relay with
  | none =>
      cases h
      cases hu
  | some v =>
      rw [checkHint] at h
      cases hv : validateRelay v with
      | error e => rw [hv] at h; cases h
      | ok v' =>
          rw [hv] at h
          cases h
          cases hu
          obtain ⟨rfl, -⟩ := validateRelay_ok hv
          exact hv

/-- The relay of a record has no white space, and is a URL. -/
theorem Made.relay {r : DnsRecord} (h : r.Made) {u : Str} (hu : r.relay = some u) :
    validateRelay u = .ok u := by
  rcases h with ⟨zone, id, ts, relay, seed, h⟩ | ⟨txt, h⟩
  · simp only [signFull, bind, Except.bind] at h
    split at h
    · cases h
    · split at h
      · cases h
      · rename_i checked hcheck
        cases h
        exact checkHint_ok hcheck u hu
  · simp only [parse, bind, Except.bind] at h
    split at h
    · cases h
    · rename_i f hread
      have hnone : relayRead ⟨none, none, none, none, none, none⟩ := fun _ h => by cases h
      have hf : relayRead f := relayRead_foldlM hnone hread
      split at h
      · cases h
      · split at h
        · cases h
        · split at h
          · cases h
          · split at h
            · cases h
            · cases h
              exact hf u hu

/-! ### Reading the fields back -/

/-- No field has a space in it. -/
theorem notMem_signedFields {zone : Str} {r : DnsRecord} (hz : validateZone zone = .ok ())
    (hr : r.Made) : ∀ f ∈ signedFields zone r, ' ' ∉ f := by
  have hhex : ∀ key : PublicKey, ' ' ∉ key.toStr := fun key hmem =>
    absurd (PublicKey.isLowerHex_of_mem hmem) (by decide)
  intro f hf
  simp only [signedFields, List.cons_append, List.nil_append, List.mem_cons, List.mem_append,
    Option.mem_toList, Option.map_eq_some_iff] at hf
  rcases hf with rfl | rfl | rfl | rfl | hrelay | ⟨seed, -, rfl⟩
  · decide
  · have hdomain : isDomainName f = true := by rw [isDomainName, hz]; rfl
    exact fun hmem => absurd (Pinned.isTagChar_of_mem_domain hdomain hmem) (by decide)
  · exact hhex r.key
  · exact fun hmem => absurd (Nat.isDigit_of_mem_toDigits (by decide) (by decide) hmem) (by decide)
  · intro hmem
    obtain ⟨-, hplain, -⟩ := validateRelay_ok (hr.relay hrelay)
    exact absurd (hplain ' ' hmem) (by decide)
  · exact hhex seed

omit [Relays] [External] in
/-- The bytes that are signed are the fields, with a space between each two. -/
theorem canonicalPayload_eq (zone : Str) (r : DnsRecord) :
    canonicalPayload zone r.key r.ts r.relay r.seed =
      Str.toUtf8 ([' '].intercalate (signedFields zone r)) := by
  unfold canonicalPayload signedFields
  cases r.relay <;> cases r.seed <;> simp [List.intercalate, List.intersperse]

omit [Relays] [External] in
/-- Hints are read back when no relay is written as a peer id is. -/
theorem hints_inj {u u' : Option Str} {k k' : Option PublicKey}
    (hu : ∀ v ∈ u, ∀ key : PublicKey, v ≠ key.toStr)
    (hu' : ∀ v ∈ u', ∀ key : PublicKey, v ≠ key.toStr)
    (h : u.toList ++ (k.map PublicKey.toStr).toList =
      u'.toList ++ (k'.map PublicKey.toStr).toList) : u = u' ∧ k = k' := by
  have hkeys : ∀ {k k' : Option PublicKey}, (k.map PublicKey.toStr).toList =
      (k'.map PublicKey.toStr).toList → k = k' := by
    intro k k' h
    cases k with
    | none => cases k' with
      | none => rfl
      | some key' => cases h
    | some key => cases k' with
      | none => cases h
      | some key' => exact congrArg some (PublicKey.toStr_inj (List.cons.inj h).1)
  cases u with
  | none =>
      cases u' with
      | none => exact ⟨rfl, hkeys h⟩
      | some v' =>
          cases k with
          | none => cases h
          | some key => exact absurd (List.cons.inj h).1.symm (hu' v' rfl key)
  | some v =>
      cases u' with
      | none =>
          cases k' with
          | none => cases h
          | some key => exact absurd (List.cons.inj h).1 (hu v rfl key)
      | some v' =>
          obtain ⟨hv, hrest⟩ := List.cons.inj h
          exact ⟨congrArg some hv, hkeys hrest⟩

/-- **The signed bytes say for which zone they are, and every field of the record but its
signature.** -/
theorem canonicalPayload_eq_iff (hurl : Relays.Schemed) {zone zone' : Str}
    (hz : validateZone zone = .ok ()) (hz' : validateZone zone' = .ok ()) {r r' : DnsRecord}
    (hr : r.Made) (hr' : r'.Made) :
    canonicalPayload zone r.key r.ts r.relay r.seed =
        canonicalPayload zone' r'.key r'.ts r'.relay r'.seed ↔
      zone = zone' ∧ r.key = r'.key ∧ r.ts = r'.ts ∧ r.relay = r'.relay ∧ r.seed = r'.seed := by
  refine ⟨fun h => ?_, fun h => by simp only [h]⟩
  rw [canonicalPayload_eq, canonicalPayload_eq] at h
  have hfields := congrArg (Str.split ' ') (Str.toUtf8_injective h)
  rw [Str.split_intercalate (by simp [signedFields]) (notMem_signedFields hz hr),
    Str.split_intercalate (by simp [signedFields]) (notMem_signedFields hz' hr')] at hfields
  simp only [signedFields, List.cons_append, List.nil_append, List.cons.injEq, true_and] at hfields
  obtain ⟨hzone, hkey, hts, hhints⟩ := hfields
  have hts : r.ts = r'.ts := by
    have := congrArg (fun ds => Nat.ofDigitChars 10 ds 0) hts
    simpa only [Nat.ofDigitChars_ten_toDigits] using this
  -- a relay has a colon, and a peer id has none
  have hrelay : ∀ {x : DnsRecord}, x.Made → ∀ {u}, x.relay = some u → ∀ key : PublicKey,
      u ≠ key.toStr := by
    intro x hx u hu key hkey
    obtain ⟨-, -, hscheme⟩ := validateRelay_ok (hx.relay hu)
    obtain ⟨scheme, hscheme⟩ := Option.isSome_iff_exists.mp hscheme
    have hcolon := hurl u scheme hscheme
    rw [hkey] at hcolon
    exact absurd (PublicKey.isLowerHex_of_mem hcolon) (by decide)
  exact ⟨hzone, PublicKey.toStr_inj hkey, hts,
    hints_inj (fun u hu => hrelay hr hu) (fun u hu => hrelay hr' hu) hhints⟩

end DnsRecord

namespace Sample

/-- A relay URL parser that knows the URLs of HTTPS. -/
@[reducible] def urls : Relays :=
  ⟨fun s => if ("https:" : Str).isPrefixOf s then some "https" else none⟩

/-- A record with a relay, of alice. -/
def withRelay : DnsRecord :=
  letI := sample
  { key := alice.id, ts := 1700000000, relay := some "https://relay.iroh.network", seed := none
    sig := alice.sign (canonicalPayload "images.example.com" alice.id 1700000000
      (some "https://relay.iroh.network") none) }

/-- One with a peer id instead. -/
def withSeed : DnsRecord :=
  letI := sample
  { key := alice.id, ts := 1700000000, relay := none, seed := some bob.id
    sig := alice.sign (canonicalPayload "images.example.com" alice.id 1700000000
      none (some bob.id)) }

theorem schemed_urls : letI := urls; Relays.Schemed := by
  intro s scheme h
  have hs : ("https:" : Str).isPrefixOf s = true := by
    by_contra hnot
    have hnone : (if ("https:" : Str).isPrefixOf s then some ("https" : Str) else none) = none :=
      if_neg hnot
    exact absurd (hnone.symm.trans h) nofun
  obtain ⟨rest, rfl⟩ := List.isPrefixOf_iff_prefix.mp hs
  exact List.mem_append_left _ (by decide)

end Sample

namespace DnsRecord

theorem canonicalPayload_eq_iff_at : letI := sample; letI := Sample.urls
    let r := Sample.withRelay
    let r' := Sample.withSeed
    canonicalPayload "images.example.com" r.key r.ts r.relay r.seed =
        canonicalPayload "images.example.com" r'.key r'.ts r'.relay r'.seed ↔
      ("images.example.com" : Str) = "images.example.com" ∧ r.key = r'.key ∧ r.ts = r'.ts ∧
        r.relay = r'.relay ∧ r.seed = r'.seed := by
  let _ := sample
  let _ := Sample.urls
  have hrelayed : signFull "images.example.com" Sample.alice 1700000000
      (some "https://relay.iroh.network") none = .ok Sample.withRelay := by decide +kernel
  have hintroduced : signFull "images.example.com" Sample.alice 1700000000 none
      (some Sample.bob.id) = .ok Sample.withSeed := by decide +kernel
  exact canonicalPayload_eq_iff Sample.schemed_urls (by decide +kernel) (by decide +kernel)
    (Or.inl ⟨_, _, _, _, _, hrelayed⟩) (Or.inl ⟨_, _, _, _, _, hintroduced⟩)

end DnsRecord

end Ocid
