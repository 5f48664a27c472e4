import Ocid.Core.External

/-!
# Core — Identity — publisher keys and their two texts

One Ed25519 key is a node's transport identity and its publisher identity.  Its text is 64
lower-case hex digits (`PublicKey.toStr`) or the `did:key` form (`didKey`); `parsePublisher` reads
either.
-/

namespace Ocid

/-- `Display`: 64 lower-case hex digits. -/
def PublicKey.toStr (pk : PublicKey) : Str := hexEncode pk.key.bytes

/-- The first five bytes in hex, for messages. -/
def PublicKey.fmtShort (pk : PublicKey) : Str := hexEncode (pk.key.bytes.take 5)

/-- The key pair of a node. -/
structure Identity where
  secret : SecretKey
deriving DecidableEq

/-- True if `s` looks like a 64-char lower-case hex public key. -/
def isHexPublisher (s : Str) : Bool := s.len == 64 && s.all isLowerHex

theorem PublicKey.length_toStr (pk : PublicKey) : pk.toStr.length = 64 := by
  rw [PublicKey.toStr, length_hexEncode, pk.key.size]

theorem PublicKey.isLowerHex_of_mem {pk : PublicKey} {c : Char} (h : c ∈ pk.toStr) :
    isLowerHex c = true :=
  isLowerHex_of_mem_hexEncode h

theorem PublicKey.toStr_inj {a b : PublicKey} (h : a.toStr = b.toStr) : a = b := by
  have := congrArg hexDecode h
  rw [toStr, toStr, hexDecode_hexEncode, hexDecode_hexEncode] at this
  obtain ⟨⟨x, hx⟩⟩ := a
  obtain ⟨⟨y, hy⟩⟩ := b
  cases this
  rfl

theorem PublicKey.len_toStr (pk : PublicKey) : Str.len pk.toStr = 64 := by
  rw [Str.len_eq_length fun _ hc => utf8Size_of_isLowerHex (isLowerHex_of_mem hc), pk.length_toStr]

theorem isHexPublisher_toStr (pk : PublicKey) : isHexPublisher pk.toStr = true := by
  rw [isHexPublisher, pk.len_toStr]
  simpa using fun c hc => PublicKey.isLowerHex_of_mem hc

section
variable [External]

/-- The public key of an identity. -/
def Identity.id (i : Identity) : PublisherId := External.publicKey i.secret

/-- The signature of a message. -/
def Identity.sign (i : Identity) (msg : Bytes) : Bytes := External.sign i.secret msg

/-- Render a public key as `did:key:z6Mk...`. -/
def didKey (pk : PublicKey) : Str :=
  "did:key:z" ++ External.base58Encode (0xed :: 0x01 :: pk.key.bytes)

/-- Parse a publisher id from hex, Base32, or `did:key:z...`. -/
def parsePublisher (s : Str) : Except Err PublisherId :=
  let s := Str.trim s
  match ("did:key:" : Str).isPrefixOf? s with
  | some rest =>
      match ("z" : Str).isPrefixOf? rest with
      | none => .error ["did:key must use base58btc ('z' prefix)"]
      | some b58 =>
          match External.base58Decode b58 with
          | none => .error ["did:key is not valid base58"]
          | some bytes =>
              if bytes.length ≠ 34 ∨ bytes[0]? ≠ some 0xed ∨ bytes[1]? ≠ some 0x01 then
                .error ["did:key is not an ed25519 key"]
              else match External.keyFromBytes (bytes.drop 2) with
                | some pk => .ok pk
                | none => .error ["invalid did:key"]
  | none =>
      match External.keyFromStr s with
      | some pk => .ok pk
      | none => .error ["invalid publisher id " ++ Str.debug s]

/-- Verify `sig` over `msg` by `pk`. -/
def verify (pk : PublicKey) (msg sig : Bytes) : Except Err Unit :=
  if External.verifies pk msg sig then .ok ()
  else .error ["invalid signature for " ++ pk.fmtShort]

end

end Ocid
