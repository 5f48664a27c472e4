import Ocid.Core.Config
import Ocid.Lib.Table

/-!
# Core — Dns — publisher records and pins

A DNS zone claims a name for a publisher with a TXT record of its key, a time, and a signature by
that key over the zone, the key, the time and the hints (`canonicalPayload`).  `DnsRecord.parse`
reads one text; `chooseRecord` takes the first text of an answer that parses.

DNS is not trusted.  The key a zone is first resolved to is pinned, and `validateRecord` accepts a
record only when it is signed for the zone, fresh, and of the pinned key, if there is one.
-/

namespace Ocid

/-- What the relay URL parser says of a text: the scheme of the URL, if it is one. -/
class Relays where
  scheme : Str → Option Str

/-! ### Reading texts -/

/-- `str::split_whitespace`. -/
def Str.splitWhitespace (s : Str) : List Str := (s.splitOnP Str.isWhitespace).filter (· ≠ [])

/-- `u64::from_str`: decimal digits, after a `+` or not. -/
def parseU64 (s : Str) : Option ℕ :=
  let digits := if s.head? = some '+' then s.tail else s
  if digits.isEmpty || !digits.all isAsciiDigit then none
  else
    let n := digits.foldl (fun n c => 10 * n + (c.toNat - 48)) 0
    if n < 2 ^ 64 then some n else none

theorem isDigit_of_mem_toDigits {c : Char} {n : ℕ} (h : c ∈ Nat.toDigits 10 n) :
    isAsciiDigit c = true :=
  Nat.isDigit_of_mem_toDigits (by decide) (by decide) h

theorem isWhitespace_of_isDigit {c : Char} (h : isAsciiDigit c = true) :
    Str.isWhitespace c = false := by
  have htag : isTagChar c = true := by
    simp only [isAsciiDigit, isTagChar, isAsciiAlphanumeric, Bool.or_eq_true] at h ⊢
    tauto
  exact (of_isTagChar htag).2.2

/-- A number is read back from its digits. -/
theorem parseU64_toDigits {n : ℕ} (h : n < 2 ^ 64) : parseU64 (Nat.toDigits 10 n) = some n := by
  have hplus : (Nat.toDigits 10 n).head? ≠ some '+' := fun hhead =>
    absurd (isDigit_of_mem_toDigits (List.mem_of_mem_head? hhead)) (by decide)
  have hvalue : (Nat.toDigits 10 n).foldl (fun n c => 10 * n + (c.toNat - 48)) 0 = n :=
    Nat.ofDigitChars_ten_toDigits
  have hdigits : ((Nat.toDigits 10 n).isEmpty || !(Nat.toDigits 10 n).all isAsciiDigit) = false := by
    rw [Bool.or_eq_false_iff, List.isEmpty_eq_false_iff, Bool.not_eq_false', List.all_eq_true]
    exact ⟨Nat.toDigits_ne_nil, fun _ hc => isDigit_of_mem_toDigits hc⟩
  simpa [parseU64, hplus, hvalue, hdigits] using h

/-- The TXT record version this build understands. -/
def dnsVersion : Str := "ocid1"

/-- A single DNS TXT character-string holds at most 255 bytes. -/
def txtStringMax : ℕ := 255

/-- A parsed and structurally valid `_ocid` TXT record. -/
structure DnsRecord where
  /-- The publisher the zone claims. -/
  key : PublisherId
  /-- When the record was signed (unix seconds). -/
  ts : ℕ
  /-- A relay URL the publisher is reachable through. -/
  relay : Option Str
  /-- An introducer peer that knows the publisher's address. -/
  seed : Option PublisherId
  /-- Signature by `key` over the canonical payload. -/
  sig : Bytes
deriving DecidableEq

/-- The fields read so far. -/
structure RecordFields where
  version : Option Str
  key : Option PublisherId
  ts : Option ℕ
  relay : Option Str
  seed : Option PublisherId
  sig : Option Bytes

/-- The exact bytes a record signature covers. -/
def canonicalPayload (zone : Str) (key : PublisherId) (ts : ℕ) (relay : Option Str)
    (seed : Option PublisherId) : Bytes :=
  let hint (h : Option Str) : Str := match h with
    | some h => ' ' :: h
    | none => []
  Str.toUtf8 (dnsVersion ++ ' ' :: (zone ++ ' ' :: (key.toStr ++ ' ' :: (Nat.toDigits 10 ts ++
    hint relay ++ hint (seed.map PublicKey.toStr)))))

/-- Validate a `relay=` value: an absolute http(s) URL with no whitespace, short enough for one
character-string. -/
def validateRelay [Relays] (relay : Str) : Except Err Str :=
  if relay.any Str.isWhitespace then .error ["relay URL must not contain whitespace"]
  else match Relays.scheme relay with
    | none => .error ["relay " ++ Str.debug relay ++ " is not a valid URL"]
    | some scheme =>
        if scheme ≠ ("http" : Str) ∧ scheme ≠ ("https" : Str) then
          .error ["relay URL scheme must be http or https, got " ++ Str.debug scheme]
        else if txtStringMax < Str.len relay + 6 then
          .error ["relay URL is too long for a DNS TXT string (" ++
            (Nat.toDigits 10 (Str.len relay) ++ [')'])]
        else .ok relay

variable [External]

/-- A publisher or a peer id in a field: 64 hex digits of a key. -/
def recordKey (field kind v : Str) : Except Err PublisherId :=
  if !isHexPublisher v then
    .error ["record field " ++ (field ++ (" is not a 64-hex " ++ (kind ++ " id")))]
  else match External.keyFromStr v with
    | some key => .ok key
    | none => .error ["record field " ++ field]

/-- Read one `key=value`. -/
def RecordFields.read [Relays] (f : RecordFields) (tok : Str) : Except Err RecordFields :=
  match Str.splitOnce '=' tok with
  | none => .error ["record fields are key=value"]
  | some (k, v) =>
      if k = ("v" : Str) then .ok { f with version := some v }
      else if k = ("k" : Str) then (recordKey "k" "publisher" v).map fun key =>
        { f with key := some key }
      else if k = ("ts" : Str) then match parseU64 v with
        | some ts => .ok { f with ts := some ts }
        | none => .error ["record field ts must be unix seconds"]
      else if k = ("relay" : Str) then (validateRelay v).map fun relay =>
        { f with relay := some relay }
      else if k = ("seed" : Str) then (recordKey "seed" "peer" v).map fun seed =>
        { f with seed := some seed }
      else if k = ("sig" : Str) then match hexDecode v with
        | none => .error ["record field sig is not hex"]
        | some bytes =>
            if bytes.length ≠ 64 then .error ["record field sig must be 128 hex chars"]
            else .ok { f with sig := some bytes }
      else .error ["unknown record field " ++ Str.debug k]

namespace DnsRecord

/-- Parse a TXT string.  Structural only. -/
def parse [Relays] (txt : Str) : Except Err DnsRecord := do
  let f ← (Str.splitWhitespace txt).foldlM RecordFields.read ⟨none, none, none, none, none, none⟩
  if f.version ≠ some dnsVersion then .error ["record must start with v=" ++ dnsVersion]
  else match f.key with
    | none => .error ["record is missing k="]
    | some key => match f.ts with
      | none => .error ["record is missing ts="]
      | some ts => match f.sig with
        | none => .error ["record is missing sig="]
        | some sig => .ok { key, ts, relay := f.relay, seed := f.seed, sig }

/-- Verify the signature over the canonical payload for `zone`. -/
def verifySig (r : DnsRecord) (zone : Str) : Except Err Unit := do
  validateZone zone
  Ocid.verify r.key (canonicalPayload zone r.key r.ts r.relay r.seed) r.sig

/-- Seconds elapsed since the record was signed. -/
def ageSecs (r : DnsRecord) (wall : ℕ) : ℕ := wall - r.ts

end DnsRecord

/-! ### Answers -/

/-- One resource record of an answer: its TTL, and its text if it is a TXT record. -/
structure TxtAnswer where
  ttl : ℕ
  txt : Option Str

/-- The first record that parses, and the least TTL up to it. -/
def chooseRecord [Relays] : ℕ → List TxtAnswer → Option (DnsRecord × ℕ)
  | _, [] => none
  | ttl, r :: rs =>
      match r.txt.bind fun txt => (DnsRecord.parse txt).toOption with
      | some record => some (record, min ttl r.ttl)
      | none => chooseRecord (min ttl r.ttl) rs

/-! ### Pins -/

/-- The pinned key of a zone. -/
structure PinEntry where
  zone : Str
  /-- Publisher id (hex). -/
  key : Str
  /-- When the pin was recorded (unix seconds). -/
  pinnedAt : ℕ
deriving DecidableEq

/-- Locally pinned publisher keys per zone. -/
abbrev DnsPins := Table PinEntry.zone

namespace DnsPins

/-- Pin `zone` to a key, unless it is pinned to it already. -/
def pin (pins : DnsPins) (zone keyHex : Str) (wall : ℕ) : DnsPins :=
  if (pins.get zone).any fun p => p.key = keyHex then pins
  else pins.put ⟨zone, keyHex, wall⟩

/-- The key a zone is pinned to. -/
def keyOf (pins : DnsPins) (zone : Str) : Option Str := (pins.get zone).map PinEntry.key

omit [External] in
theorem keyOf_pin (pins : DnsPins) (zone keyHex : Str) (wall : ℕ) (z : Str) :
    keyOf (pin pins zone keyHex wall) z = if z = zone then some keyHex else keyOf pins z := by
  unfold pin keyOf
  split
  · rename_i h
    obtain ⟨p, hp, hkey⟩ := (Option.any_eq_true _ _).mp h
    split
    · rename_i hz
      rw [hz, hp]
      simpa using hkey
    · rfl
  · rw [Table.get_put]
    by_cases hz : z = zone
    · simp [hz]
    · simp [hz, Ne.symm hz]

omit [External] in
theorem keyOf_erase (pins : DnsPins) (zone z : Str) :
    keyOf (pins.erase zone) z = if z = zone then none else keyOf pins z := by
  unfold keyOf
  rw [Table.get_erase]
  by_cases hz : z = zone
  · simp [hz]
  · simp [hz, Ne.symm hz]

end DnsPins

/-! ### Validation -/

/-- Outcome of validating a record against the pin store. -/
inductive DnsValidated where
  /-- Record verified, fresh, and matches the existing pin. -/
  | pinned (p : PublisherId)
  /-- Record verified and fresh; to be pinned now. -/
  | new (p : PublisherId)
deriving DecidableEq

/-- Verify a record for `zone`: signature, freshness, and pin agreement. -/
def validateRecord (zone : Str) (record : DnsRecord) (pins : DnsPins) (maxAgeSecs wall : ℕ) :
    Except Err DnsValidated := do
  record.verifySig zone
  let age := record.ageSecs wall
  if maxAgeSecs < age then
    .error ["DNS record for " ++ (zone ++ (" is stale: signed " ++ (Nat.toDigits 10 age ++
      ("s ago (max " ++ (Nat.toDigits 10 maxAgeSecs ++
        "s) — the zone admin must re-publish")))))]
  else match pins.get zone with
    | some p =>
        if p.key ≠ record.key.toStr then
          .error ["DNS record for " ++ (zone ++ (" gives publisher " ++ (record.key.toStr ++
            (", but this machine pinned " ++ (p.key ++ (" — refusing to switch keys (possible " ++
              "hijack). If this change is intentional, remove the pin and re-resolve"))))))]
        else .ok (.pinned record.key)
    | none => .ok (.new record.key)

/-- A record is accepted as pinned only with the pinned key, and as new only without a pin. -/
theorem validateRecord_ok {zone : Str} {record : DnsRecord} {pins : DnsPins}
    {maxAgeSecs wall : ℕ} {v : DnsValidated}
    (h : validateRecord zone record pins maxAgeSecs wall = .ok v) :
    (v = .pinned record.key ∧ pins.keyOf zone = some record.key.toStr) ∨
      (v = .new record.key ∧ pins.keyOf zone = none) := by
  simp only [validateRecord, bind, Except.bind] at h
  split at h
  · cases h
  · split at h
    · cases h
    · split at h
      · rename_i p hp
        split at h
        · cases h
        · rename_i hkey
          cases h
          refine Or.inl ⟨rfl, ?_⟩
          rw [DnsPins.keyOf, hp, Option.map_some, not_not.mp hkey]
      · rename_i hp
        cases h
        exact Or.inr ⟨rfl, by rw [DnsPins.keyOf, hp, Option.map_none]⟩

end Ocid
