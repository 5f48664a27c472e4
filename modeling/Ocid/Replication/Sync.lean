import Ocid.Core.Encoding
import Ocid.Daemon.Sample
import Ocid.Daemon.Store

/-!
# Replication — Sync — a record on its way between stores

A peer answers a request of the sync protocol from its store (`handle`): a record that it can serve
the blobs of travels as its compact JSON text, and is decoded at the other end (`intoRelease`).  On
disk a record is its pretty text.

Whatever way a record goes, it stays the record it was: `release_travels`, which relies on the JSON
reader to read back the two texts of the record, and on the publisher's key to be read back.
-/

namespace Ocid

open Call Relation

/-! ### The protocol -/

/-- What is asked of a peer. -/
inductive SyncRequest where
  /-- Everything the peer seeds. -/
  | inventory
  /-- One release record. -/
  | getRelease (publisher : PublisherId) (name tag : Str)
  /-- Tags of one image. -/
  | listTags (publisher : PublisherId) (name : Str)

/-- What a peer answers. -/
inductive SyncResponse where
  | inventory (rs : List ReleaseSummary)
  /-- A signed release record as its exact JSON bytes. -/
  | release (bytes : Option Bytes)
  | tags (ts : List Str)
  | ok
  | error (e : Str)
deriving DecidableEq

section
variable [External]

/-- Decode a `release` response; errors on other variants.  The message of that error goes on with
the response itself. -/
def SyncResponse.intoRelease : SyncResponse → Except Err (Option Release)
  | .release none => .ok none
  | .release (some bytes) =>
      match Release.fromSlice bytes with
      | some r => .ok (some r)
      | none => .error ["decoding release"]
  | _ => .error ["unexpected response"]

/-- How a request is answered, or fails. -/
def handleInner : SyncRequest → Op SyncResponse
  | .inventory => do
      let s ← read
      pure (.inventory ((s.listReleases.filter s.isComplete).map Release.summary))
  | .getRelease publisher name tag => do
      let rel ← getRelease publisher name tag
      let s ← read
      -- only releases that the blobs can be served of are handed out
      pure (.release ((rel.filter s.isComplete).map Release.toVec))
  | .listTags publisher name => do
      let ts ← listTags publisher name
      pure (.tags ts)

/-- What a peer answers. -/
def handle (req : SyncRequest) : Op SyncResponse := do
  match ← attempt (handleInner req) with
  | .ok resp => pure resp
  | .error e => pure (.error e.message)

/-! ### Records on their way -/

/-- The JSON reader reads back both texts of a value. -/
structure ReadsBack (v : Json) : Prop where
  compact : External.jsonFromSlice (Str.toUtf8 v.render) = some v.sorted
  pretty : External.jsonFromSlice (Str.toUtf8 (v.pretty 0)) = some v.sorted

/-- `r'` is what becomes of `r` when it is sent to a peer, or written to disk and read again. -/
def Moved (r r' : Release) : Prop :=
  SyncResponse.intoRelease (.release (some r.toVec)) = .ok (some r') ∨
    Release.fromSlice r.toVecPretty = some r'

section
variable {r : Release} (h : r.payload.Typed) (hkey : KeyReads r.publisher)
  (hread : ReadsBack r.toJson)
include h hkey hread

theorem intoRelease_toVec : SyncResponse.intoRelease (.release (some r.toVec)) = .ok (some r) := by
  have hslice : Release.fromSlice r.toVec = some r := by
    rw [Release.fromSlice, Release.toVec, hread.compact, Option.bind_some,
      Release.fromValue_toJson h hkey]
  rw [SyncResponse.intoRelease, hslice]

theorem fromSlice_toVecPretty : Release.fromSlice r.toVecPretty = some r := by
  rw [Release.fromSlice, Release.toVecPretty, hread.pretty, Option.bind_some,
    Release.fromValue_toJson h hkey]

theorem eq_of_moved {r' : Release} (hmoved : Moved r r') : r' = r := by
  rcases hmoved with hmoved | hmoved
  · rw [intoRelease_toVec h hkey hread] at hmoved
    exact (Option.some.inj (Except.ok.inj hmoved)).symm
  · rw [fromSlice_toVecPretty h hkey hread] at hmoved
    exact (Option.some.inj hmoved).symm

end

/-- **Records keep what was signed.**  A record is decoded from the bytes that a peer sends, and from
those on disk, as the record that it was; so after any number of moves its signed bytes are the same.
And the signed bytes say all of the payload. -/
theorem release_travels {r : Release} (h : r.payload.Typed) (hkey : KeyReads r.publisher)
    (hread : ReadsBack r.toJson) :
    SyncResponse.intoRelease (.release (some r.toVec)) = .ok (some r) ∧
      Release.fromSlice r.toVecPretty = some r ∧
      (∀ r', ReflTransGen Moved r r' →
        r' = r ∧ r'.payload.canonicalBytes = r.payload.canonicalBytes) ∧
      ∀ p q : ReleasePayload, p.canonicalBytes = q.canonicalBytes → p = q := by
  refine ⟨intoRelease_toVec h hkey hread, fromSlice_toVecPretty h hkey hread, fun r' hr' => ?_,
    fun p q hpq => ReleasePayload.canonicalBytes_injective hpq⟩
  have heq : r' = r := by
    induction hr' with
    | refl => rfl
    | tail _ hmoved ih =>
        subst ih
        exact eq_of_moved h hkey hread hmoved
  exact ⟨heq, by rw [heq]⟩

end

namespace Sample

/-- `sample`, with a JSON reader that knows the texts of one value. -/
@[reducible] def reading (v : Json) : External where
  __ := sample
  jsonFromSlice bs :=
    if bs = Str.toUtf8 v.render ∨ bs = Str.toUtf8 (v.pretty 0) then some v.sorted else none

/-- A release with an annotated signature. -/
def annotated : Release :=
  letI := sample
  Release.sign alice
    { version := 0, publisher := alice.id, name := "team/app", tag := "1.0",
      manifest := index.blob (some mtOciIndex), blobs := [config.blob none, referrer.blob none],
      timestamp := 7,
      referrers := [⟨referrer.digest, mtOciIndex, 217, none, [("a", "\"1\"\n"), ("b", "")]⟩] } 7

end Sample

/-- A release with referrers is sent and stored. -/
theorem release_travels_at : letI := Sample.reading Sample.annotated.toJson
    SyncResponse.intoRelease (.release (some Sample.annotated.toVec)) =
        .ok (some Sample.annotated) ∧
      Release.fromSlice Sample.annotated.toVecPretty = some Sample.annotated := by
  let _ := Sample.reading Sample.annotated.toJson
  have htyped : Sample.annotated.payload.Typed := by
    refine ⟨by decide +kernel, fun r hr => ?_⟩
    obtain rfl := List.mem_singleton.mp hr
    refine List.pairwise_pair.mpr ?_
    decide
  have hkey : KeyReads Sample.annotated.publisher := by
    show (hexDecode (hexEncode Sample.annotated.publisher.key.bytes)).bind keyOfBytes = _
    rw [hexDecode_hexEncode, Option.bind_some, keyOfBytes,
      dif_pos Sample.annotated.publisher.key.size]
  have hread : ReadsBack Sample.annotated.toJson :=
    ⟨if_pos (Or.inl rfl), if_pos (Or.inr rfl)⟩
  have htravels := release_travels htyped hkey hread
  exact ⟨htravels.1, htravels.2.1⟩

end Ocid
