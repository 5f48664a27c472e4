import Ocid.Lib.Json

/-!
# Core — External — what the repository takes from elsewhere

Bytes, the 32-byte values the hashes and keys are, and the functions that live outside the
repository: the two hash functions, the Ed25519 scheme with the text and byte forms of its keys,
Base58, and the JSON reader.  They are the fields of `External`, which no definition of the model
looks inside.  Nothing is assumed of them here; a result that relies on a law of one of them
states it as a hypothesis.

A hex text has two lower-case digits for each byte; reading one accepts both cases.
-/

namespace Ocid

/-- Bytes, as `Vec<u8>` holds them. -/
abbrev Bytes := List UInt8

/-- A hash or a key: 32 bytes. -/
structure Bytes32 where
  bytes : Bytes
  size : bytes.length = 32
deriving DecidableEq

/-- A BLAKE3 hash, as the blob store uses it. -/
structure Blake3 where
  hash : Bytes32
deriving DecidableEq

/-- An Ed25519 public key: a node's endpoint id and its publisher id. -/
structure PublicKey where
  key : Bytes32
deriving DecidableEq

/-- An Ed25519 secret key. -/
structure SecretKey where
  key : Bytes32
deriving DecidableEq

/-- A publisher is its key. -/
abbrev PublisherId := PublicKey

/-- A node on the network is its key, too. -/
abbrev EndpointId := PublicKey

/-- What the program takes from other crates: the hash functions, the keys and their texts, the
signatures and the JSON reader. A theorem about it holds of all such functions, or says what it asks
of them. -/
class External where
  /-- `Sha256::digest`. -/
  sha256 : Bytes → Bytes32
  /-- The BLAKE3 hash of a blob's content. -/
  blake3 : Bytes → Blake3
  /-- `SecretKey::public`. -/
  publicKey : SecretKey → PublicKey
  /-- `SecretKey::sign`, 64 bytes. -/
  sign : SecretKey → Bytes → Bytes
  /-- `PublicKey::verify`. -/
  verifies : PublicKey → Bytes → Bytes → Bool
  /-- `PublicKey::from_str`: 64 hex digits, or Base32, of a valid key. -/
  keyFromStr : Str → Option PublicKey
  /-- `PublicKey::from_bytes`. -/
  keyFromBytes : Bytes → Option PublicKey
  /-- `bs58::encode`. -/
  base58Encode : Bytes → Str
  /-- `bs58::decode`. -/
  base58Decode : Str → Option Bytes
  /-- `serde_json::from_slice`, to a value. -/
  jsonFromSlice : Bytes → Option Json

/-- An error, as the messages of its chain: the outermost context first. -/
abbrev Err := List Str

/-- `{e}`: the outermost message. -/
def Err.message (e : Err) : Str := e.headD []

/-- `{e:#}`: the whole chain. -/
def Err.chain (e : Err) : Str := (e.intersperse ": ".toList).flatten

/-! ### Hex -/

/-- `hex::encode`. -/
def hexEncode (bs : Bytes) : Str :=
  bs.flatMap fun b => [Json.hexDigit (b.toNat / 16), Json.hexDigit (b.toNat % 16)]

/-- A lower-case hex digit. -/
def isLowerHex (c : Char) : Bool := ('0' ≤ c && c ≤ '9') || ('a' ≤ c && c ≤ 'f')

/-- The value of a hex digit of either case. -/
def hexVal (c : Char) : Option ℕ :=
  if '0' ≤ c ∧ c ≤ '9' then some (c.toNat - 48)
  else if 'a' ≤ c ∧ c ≤ 'f' then some (c.toNat - 87)
  else if 'A' ≤ c ∧ c ≤ 'F' then some (c.toNat - 55)
  else none

/-- `hex::decode`. -/
def hexDecode : Str → Option Bytes
  | [] => some []
  | [_] => none
  | c :: d :: s => do
      let hi ← hexVal c
      let lo ← hexVal d
      let bs ← hexDecode s
      pure (UInt8.ofNat (16 * hi + lo) :: bs)

/-- `Display`: 64 lower-case hex digits. -/
def Blake3.toStr (h : Blake3) : Str := hexEncode h.hash.bytes

/-- First 10 hex chars, for messages. -/
def Blake3.fmtShort (h : Blake3) : Str := hexEncode (h.hash.bytes.take 5)

theorem isLowerHex_hexDigit {n : ℕ} (h : n < 16) : isLowerHex (Json.hexDigit n) = true := by
  interval_cases n <;> decide

theorem length_hexEncode (bs : Bytes) : (hexEncode bs).length = 2 * bs.length := by
  induction bs with
  | nil => rfl
  | cons b bs ih =>
      have : hexEncode (b :: bs) = Json.hexDigit (b.toNat / 16) :: Json.hexDigit (b.toNat % 16) ::
        hexEncode bs := rfl
      rw [this, List.length_cons, List.length_cons, ih, List.length_cons]
      omega

theorem hexVal_hexDigit {n : ℕ} (h : n < 16) : hexVal (Json.hexDigit n) = some n := by
  interval_cases n <;> rfl

/-- A hex text reads back as the bytes it was made from. -/
theorem hexDecode_hexEncode (bs : Bytes) : hexDecode (hexEncode bs) = some bs := by
  induction bs with
  | nil => rfl
  | cons b bs ih =>
      have hb := b.toNat_lt
      have hcons : hexEncode (b :: bs) = Json.hexDigit (b.toNat / 16) ::
          Json.hexDigit (b.toNat % 16) :: hexEncode bs := rfl
      have hbyte : UInt8.ofNat (16 * (b.toNat / 16) + b.toNat % 16) = b := by
        rw [Nat.div_add_mod]
        exact UInt8.ofNat_toNat
      rw [hcons, hexDecode, hexVal_hexDigit (by omega), hexVal_hexDigit (by omega), ih]
      show some (UInt8.ofNat _ :: bs) = some (b :: bs)
      rw [hbyte]

theorem isLowerHex_of_mem_hexEncode {bs : Bytes} {c : Char} (h : c ∈ hexEncode bs) :
    isLowerHex c = true := by
  obtain ⟨b, -, hc⟩ := List.mem_flatMap.mp h
  have hb := b.toNat_lt
  simp only [List.mem_cons, List.not_mem_nil, or_false] at hc
  rcases hc with rfl | rfl
  · exact isLowerHex_hexDigit (by omega)
  · exact isLowerHex_hexDigit (by omega)

/-- Hex text is ASCII: its length in bytes is its length. -/
theorem utf8Size_of_isLowerHex {c : Char} (h : isLowerHex c = true) : c.utf8Size = 1 := by
  simp only [isLowerHex, Bool.or_eq_true, Bool.and_eq_true, decide_eq_true_eq] at h
  have h9 : '9' ≤ 'f' := by decide
  have hc : c ≤ 'f' := h.elim (fun h => Char.le_trans h.2 h9) (fun h => h.2)
  have h127 : 'f'.val ≤ 127 := by decide
  exact Char.utf8Size_eq_one_iff.mpr (UInt32.le_trans hc h127)

/-! ### UUIDs -/

/-- `8-4-4-4-12` lower-case hex digits. -/
def Uuid.wellFormed (s : Str) : Bool :=
  (Str.split '-' s).map List.length == [8, 4, 4, 4, 12] && s.all fun c => c == '-' || isLowerHex c

/-- A UUID, printed: the id of an upload, and what tells temporary files apart. -/
structure Uuid where
  text : Str
  wf : Uuid.wellFormed text = true

instance : DecidableEq Uuid := fun u v =>
  decidable_of_iff (u.text = v.text) (Uuid.mk.injEq .. ▸ Iff.rfl)

theorem Uuid.length_text (id : Uuid) : id.text.length = 36 := by
  obtain ⟨hlengths, -⟩ := Bool.and_eq_true_iff.mp id.wf
  have hsum := congrArg List.sum (eq_of_beq hlengths)
  have hpieces := congrArg List.length (eq_of_beq hlengths)
  rw [List.length_map] at hpieces
  have hjoined := Str.length_split '-' id.text
  rw [hsum, hpieces] at hjoined
  simpa using hjoined

end Ocid
