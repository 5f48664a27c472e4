import Ocid.Daemon.DnsService
import Ocid.Daemon.Node

/-!
# Daemon — Sample — one `External` that computes

Concrete inputs are evaluated with `sample`.  On the contents of `Sample.contents` its hash
functions and its JSON reader give what SHA-256, BLAKE3 and a JSON reader give; on the keys of the
three identities, so do the public key and its two texts.  Its signatures name the signer, and
verify exactly for that signer.
-/

namespace Ocid

namespace Sample

/-- The 32 bytes of a number, the most significant first. -/
def bytes32 (n : ℕ) : Bytes32 where
  bytes := (List.range 32).map fun i => UInt8.ofNat (n / 256 ^ (31 - i))
  size := by simp

/-- Content, with what is known of it. -/
structure Content where
  text : Str
  sha256 : ℕ
  blake3 : ℕ
  json : Option Json

/-- The bytes of a content. -/
def Content.bytes (c : Content) : Bytes := Str.toUtf8 c.text

/-- Its digest. -/
def Content.digest (c : Content) : Digest := Digest.ofSha256Bytes (bytes32 c.sha256)

/-- Its BLAKE3 hash. -/
def Content.hash (c : Content) : Blake3 := ⟨bytes32 c.blake3⟩

/-- The content as a release names it. -/
def Content.blob (c : Content) (mediaType : Option Str) : BlobRef :=
  { digest := c.digest, hash := c.hash, size := c.bytes.length, mediaType }

/-- An empty config. -/
def config : Content where
  text := "\x7b\x7d"
  sha256 := 0x44136fa355b3678a1146ad16f7e8649e94fb4fc21fe77e8310c060f61caaff8a
  blake3 := 0x6e46dd10defc9b56c29a6ec56b508c21f54c08192194e4df25bf36f0c9c3c279
  json := some (.obj [])

/-- An index of nothing. -/
def index : Content where
  text := "\x7b\"manifests\":[]\x7d"
  sha256 := 0x27b7a2ad77ebd6c3663a9dc5d493a96943c48d8c7c77b3c123d2f6712f1ff7ed
  blake3 := 0xda51e4ffd0e8ff9607e8db934a21f40fc8cba8a0956b2024fe903a0db11f0e62
  json := some (.obj [("manifests", .arr [])])

/-- Another index of nothing. -/
def index2 : Content where
  text := "\x7b\"manifests\":[],\"artifactType\":\"v2\"\x7d"
  sha256 := 0x0231222466d5db8c2fd8f66187cd84110c18f0723b16bba649e80d5373f685c3
  blake3 := 0x278502e977e042cdce85c58ac056146204dec941dafadc2da84c21a90a4f8265
  json := some (.obj [("manifests", .arr []), ("artifactType", .str "v2")])

/-- A referrer of `index`. -/
def referrer : Content where
  text := "\x7b\"manifests\":[],\"subject\":\x7b\"mediaType\":\"application/vnd.oci.image.index.v1+json\",\"digest\":\"sha256:27b7a2ad77ebd6c3663a9dc5d493a96943c48d8c7c77b3c123d2f6712f1ff7ed\",\"size\":16\x7d\x7d"
  sha256 := 0x2d3f35ff35f9b4cfde5a7d45c1d3f2306c4420a0e063637c7663b5bb01a3eb52
  blake3 := 0xf9d6e6ac6bc5fdc7b46552325f68bb07e5361b2d06dfdd93c1afb4c09877291b
  json := some (.obj [("manifests", .arr []), ("subject", .obj [
    ("mediaType", .str "application/vnd.oci.image.index.v1+json"),
    ("digest", .str "sha256:27b7a2ad77ebd6c3663a9dc5d493a96943c48d8c7c77b3c123d2f6712f1ff7ed"),
    ("size", .nat 16)])])

/-- An image manifest of `config`. -/
def image : Content where
  text := "\x7b\"config\":\x7b\"mediaType\":\"application/vnd.oci.image.config.v1+json\",\"digest\":\"sha256:44136fa355b3678a1146ad16f7e8649e94fb4fc21fe77e8310c060f61caaff8a\",\"size\":2\x7d\x7d"
  sha256 := 0x3b3ae1f408a0d50b2984cb86ad2292eb1835a78fe799ffdcc0cfeadef7ab596c
  blake3 := 0x2c922061c7fb9591a2bcd22a92420898357a4013798318dedbc6b4f4aa899f67
  json := some (.obj [("config", .obj [
    ("mediaType", .str "application/vnd.oci.image.config.v1+json"),
    ("digest", .str "sha256:44136fa355b3678a1146ad16f7e8649e94fb4fc21fe77e8310c060f61caaff8a"),
    ("size", .nat 2)])])

/-- All contents. -/
def contents : List Content := [config, index, index2, referrer, image]

/-- The content of some bytes. -/
def find (bs : Bytes) : Option Content := contents.find? fun c => c.bytes = bs

/-- A stand-in for the hash of any other content. -/
def mix (bs : Bytes) : ℕ := bs.foldl (fun n b => (257 * n + b.toNat + 1) % 2 ^ 256) 0

/-- Three identities, by their secret and public keys. -/
def keys : List (ℕ × ℕ) :=
  [(0x9d61b19deffd5a60ba844af492ec2cc44449c5697b326919703bac031cae7f60,
      0xd75a980182b10ab7d54bfed3c964073a0ee172f3daa62325af021a68f707511a),
    (0x4ccd089b28ff96da9db6c346ec114e0f5b8a319f35aba624da8cf6ed4fb8a6fb,
      0x3d4017c3e843895a92b70aa74d1b7ebc9c982ccf2ec4968cc0cd55f12af4660c),
    (0xc5aa8df43f9f837bedb7442f31dcb7b166d38535076f094b85ce3a2e0b4458f7,
      0xfc51cd8e6218a1a38da47ed00230f0580816ed13ba3303ac5deb911548908025)]

/-- A publisher. -/
def alice : Identity := ⟨⟨bytes32 0x9d61b19deffd5a60ba844af492ec2cc44449c5697b326919703bac031cae7f60⟩⟩

/-- The identity of the node. -/
def bob : Identity := ⟨⟨bytes32 0x4ccd089b28ff96da9db6c346ec114e0f5b8a319f35aba624da8cf6ed4fb8a6fb⟩⟩

/-- Another publisher, or a peer. -/
def mallory : Identity := ⟨⟨bytes32 0xc5aa8df43f9f837bedb7442f31dcb7b166d38535076f094b85ce3a2e0b4458f7⟩⟩

/-- The public key of an identity; other secret keys are their own. -/
def publicKey (sk : SecretKey) : PublicKey :=
  match keys.find? fun k => bytes32 k.1 = sk.key with
  | some k => ⟨bytes32 k.2⟩
  | none => ⟨sk.key⟩

/-- The Base58 form of the first identity's `did:key`. -/
def base58 : Str := "6MktwupdmLXVVqTzCw4i46r4uGyosGXRnR3XjN4Zq7oMMsw"

/-- The bytes of the first identity's `did:key`. -/
def multicodec : Bytes :=
  0xed :: 0x01 :: (bytes32 0xd75a980182b10ab7d54bfed3c964073a0ee172f3daa62325af021a68f707511a).bytes

end Sample

/-- 32 bytes as a key. -/
def keyOfBytes (bs : Bytes) : Option PublicKey :=
  if h : bs.length = 32 then some ⟨⟨bs, h⟩⟩ else none

/-- The `External` that concrete inputs are evaluated with. -/
@[reducible] def sample : External where
  sha256 bs := Sample.bytes32 (((Sample.find bs).map Sample.Content.sha256).getD (Sample.mix bs))
  blake3 bs := ⟨Sample.bytes32 (((Sample.find bs).map Sample.Content.blake3).getD (Sample.mix bs))⟩
  publicKey := Sample.publicKey
  sign sk _ := (Sample.publicKey sk).key.bytes ++ (Sample.publicKey sk).key.bytes
  verifies pk _ sig := sig == pk.key.bytes ++ pk.key.bytes
  keyFromStr s := (hexDecode s).bind keyOfBytes
  keyFromBytes := keyOfBytes
  base58Encode bs := if bs = Sample.multicodec then Sample.base58 else hexEncode bs
  base58Decode s := if s = Sample.base58 then some Sample.multicodec else hexDecode s
  jsonFromSlice bs := (Sample.find bs).bind Sample.Content.json

namespace Sample

/-- A node of one of the identities, alone, whose DNS knows no zone. -/
def node (policy : Policy) : Node := ⟨bob, policy, [], [], fun _ => .ok .noRecord⟩

/-- A signed release. -/
def releaseOf (who : Identity) (name tag : Str) (manifest : BlobRef) (blobs : List BlobRef)
    (timestamp : ℕ) : Release :=
  letI := sample
  Release.sign who
    { version := 0, publisher := who.id, name, tag, manifest, blobs, timestamp, referrers := [] }
    timestamp

/-- A release of one index without further blobs. -/
def release (who : Identity) (name tag : Str) (manifest : Content) (timestamp : ℕ) : Release :=
  releaseOf who name tag (manifest.blob (some mtOciIndex)) [] timestamp

/-- A network that has every content of the list. -/
def downloads : @Downloads sample := fun _ h =>
  match contents.find? fun c => c.hash = h with
  | some c => if hc : sample.blake3 c.bytes = h then .ok ⟨c.bytes, hc⟩ else .error ["not found"]
  | none => .error ["not found"]

/-- A peer that answers `rel`. -/
def exchange (rel : Release) : @Exchange sample :=
  @Exchange.mk sample (.ok (some rel)) downloads none

/-- A relay URL parser that knows no URL. -/
@[reducible] def relays : Relays := ⟨fun _ => none⟩

/-- The TXT record of a publisher for a zone. -/
def txtRecord (who : Identity) (zone : Str) (ts : ℕ) : Str :=
  letI := sample
  "v=ocid1 k=" ++ (who.id.toStr ++ (" ts=" ++ (Nat.toDigits 10 ts ++ (" sig=" ++
    hexEncode (who.sign (canonicalPayload zone who.id ts none none))))))

/-- An answer of one TXT record. -/
def txtAnswer (who : Identity) (zone : Str) (ts : ℕ) : Option (List TxtAnswer) :=
  some [⟨300, some (txtRecord who zone ts)⟩]

/-- DNS names are on, and a record may be a day old. -/
def dnsConfig : DnsConfig := ⟨true, 86400⟩

/-! ### Evaluation -/

/-- The bytes of a number, the most significant first. -/
def bytesOf (len n : ℕ) : Bytes := (List.range len).map fun i => UInt8.ofNat (n / 256 ^ (len - 1 - i))

/-- The bytes of `referrer`, which are known sooner than its text is read. -/
def referrerBytes : Bytes := bytesOf 175
  0x7b226d616e696665737473223a5b5d2c227375626a656374223a7b226d6564696154797065223a226170706c69636174696f6e2f766e642e6f63692e696d6167652e696e6465782e76312b6a736f6e222c22646967657374223a227368613235363a32376237613261643737656264366333363633613964633564343933613936393433633438643863376337376233633132336432663637313266316666376564222c2273697a65223a31367d7d

/-- The bytes of `image`. -/
def imageBytes : Bytes := bytesOf 159
  0x7b22636f6e666967223a7b226d6564696154797065223a226170706c69636174696f6e2f766e642e6f63692e696d6167652e636f6e6669672e76312b6a736f6e222c22646967657374223a227368613235363a34343133366661333535623336373861313134366164313666376538363439653934666234666332316665373765383331306330363066363163616166663861222c2273697a65223a327d7d

set_option maxRecDepth 4000 in
theorem referrer_bytes : referrer.bytes = referrerBytes :=
  (Str.toUtf8_toList _).trans (by decide +kernel)

set_option maxRecDepth 4000 in
theorem image_bytes : image.bytes = imageBytes := (Str.toUtf8_toList _).trans (by decide +kernel)

/-- What is known of some bytes. -/
def known (bs : Bytes) : Option Content :=
  [(config.bytes, config), (index.bytes, index), (index2.bytes, index2), (referrerBytes, referrer),
    (imageBytes, image)].lookup bs

theorem find_eq_known : find = known := by
  have hlookup : ∀ (bs : Bytes) (cs : List Content), cs.find? (fun c => c.bytes = bs) =
      (cs.map fun c => (c.bytes, c)).lookup bs := by
    intro bs cs
    induction cs with
    | nil => rfl
    | cons c cs ih =>
        rw [List.find?_cons, List.map_cons, List.lookup_cons, ih]
        by_cases hc : c.bytes = bs
        · simp [hc]
        · have hne : (bs == c.bytes) = false := beq_eq_false_iff_ne.mpr fun h => hc h.symm
          simp only [hc, hne, decide_false]
  funext bs
  rw [find, hlookup, known, ← referrer_bytes, ← image_bytes]
  rfl

/-- `sample`, with the bytes of its contents at hand. -/
@[reducible] def prepared : External where
  __ := sample
  sha256 bs := bytes32 (((known bs).map Content.sha256).getD (mix bs))
  blake3 bs := ⟨bytes32 (((known bs).map Content.blake3).getD (mix bs))⟩
  jsonFromSlice bs := (known bs).bind Content.json

theorem sample_eq_prepared : sample = prepared := by
  rw [prepared, ← find_eq_known]
  rfl

end Sample

end Ocid
