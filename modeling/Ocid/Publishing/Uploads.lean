import Ocid.Lib.Slots
import Ocid.Replication.Truthful

/-!
# Publishing — Uploads — blobs sent in pieces

An upload session is a file to which `PATCH` requests append.  A `PUT` appends its own body, takes
the session away, computes the digest of the file, and then lets the blob store import the file.
The two read the file at two moments, and a request that opened the file before still appends to
it.

Every request is a list of steps, and a run is any order of the steps of all requests.  A file is
never forgotten: an open file that was removed is only no longer found by its path (`linked`).

`run_indexed`: if no request appends to a file between the digest and the import, every index
entry is true of the content under its hash.  `chunk_breaks_entry` is a run in which one does, and
`untrue_of_length` says that whenever the file has changed its length since its digest was
computed, the request can go on to an untrue entry.
-/

namespace Ocid

/-- A session: where the uploaded file is, and its size after the last request. -/
structure Upload where
  id : Str
  size : ℕ

/-- The file that the bytes of an upload are appended to. -/
structure UploadFile where
  id : Str
  content : Bytes
  /-- The path leads to the file. -/
  linked : Bool

/-- Where the next bytes of an upload are sent. -/
def uploadLocation (name id : Str) : Str := "/v2/" ++ (name ++ ("/blobs/uploads/" ++ id))

/-- There is no such upload. -/
def uploadUnknown (id : Str) : OciError :=
  .notFound "BLOB_UPLOAD_UNKNOWN" ("upload " ++ (id ++ " unknown"))

/-- The `202 Accepted` of a `PATCH`. -/
def patched (name id : Str) (size : ℕ) : Response where
  status := 202
  headers := [("location", uploadLocation name id), ("docker-upload-uuid", id),
    ("range", "0-" ++ Nat.toDigits 10 (size - 1)), ("content-length", "0")]
  body := []

/-- The `201 Created` of a `PUT`. -/
def uploaded (name : Str) (blob : BlobRef) : Response where
  status := 201
  headers := [("location", "/v2/" ++ (name ++ ("/blobs/" ++ blob.digest.str))),
    ("docker-content-digest", blob.digest.str), ("content-length", "0")]
  body := []

/-- The digest a `PUT` has to name. -/
def uploadDigest (query : Option Str) : Except OciError Digest :=
  match query with
  | none => .error (.badRequest "DIGEST_INVALID" "missing digest")
  | some d => (Digest.parse d).mapError fun e => .badRequest "DIGEST_INVALID" e.message

/-- What is asked of an upload. -/
inductive UploadRequest where
  | patch
  /-- With the query parameter `digest`. -/
  | put (digest : Option Str)

/-- Where a request stands. -/
inductive UploadPhase where
  /-- The session was found; its file is to be opened. -/
  | located
  | appending
  /-- A `PUT` has appended its body. -/
  | appended
  /-- The session was taken. -/
  | taken
  | hashed (digest : Digest) (size : ℕ)
  | imported (blob : BlobRef)
  /-- The file is removed; the entry is to be written. -/
  | removed (blob : BlobRef)
  | returned (res : Except OciError Response)

namespace UploadPhase

/-- The digest and the size that were computed, until the file is imported. -/
def digested : UploadPhase → Option (Digest × ℕ)
  | hashed digest size => some (digest, size)
  | _ => none

/-- The blob that was imported, until its entry is written. -/
def blob : UploadPhase → Option BlobRef
  | imported b | removed b => some b
  | _ => none

end UploadPhase

/-- A request that is running. -/
structure UploadCall where
  id : Str
  name : Str
  /-- The digest a `PUT` names. -/
  expect : Option Digest
  phase : UploadPhase

/-- One step of one request. -/
inductive UploadStep where
  /-- A session is created, under a new id. -/
  | start (id : Str)
  /-- A request arrives and looks its session up. -/
  | request (name id : Str) (req : UploadRequest)
  | openFile (i : ℕ)
  | chunk (i : ℕ) (c : Bytes)
  /-- The body has ended. -/
  | finish (i : ℕ)
  | take (i : ℕ)
  | hash (i : ℕ)
  | importFile (i : ℕ)
  | removeFile (i : ℕ)
  | record (i : ℕ)
  /-- A request fails where it stands: on its body, or on a file. -/
  | fail (i : ℕ) (e : OciError)
  | cancel (id : Str)

section
variable [External]

/-- The uploads of a node, with the requests that are running. -/
structure Uploads where
  store : Store
  sessions : Table Upload.id
  files : Table UploadFile.id
  calls : List UploadCall

namespace Uploads

/-- A node without uploads. -/
def start (s : Store) : Uploads := ⟨s, .empty, .empty, []⟩

/-- A request moves on. -/
def enter (w : Uploads) (i : ℕ) (c : UploadCall) (phase : UploadPhase) : Uploads :=
  { w with calls := w.calls.set i { c with phase } }

/-- The path of a file does not lead to it any more. -/
def unlink (w : Uploads) (id : Str) : Uploads :=
  match w.files.get id with
  | some f => { w with files := w.files.put { f with linked := false } }
  | none => w

/-- The file that the path leads to. -/
def fileAt (w : Uploads) (id : Str) : Option UploadFile := (w.files.get id).filter fun f => f.linked

/-- What is at the path cannot be opened. -/
def noFile (id : Str) : OciError := .internal ["opening uploads/" ++ id]

/-- How a request begins. -/
def arrive (w : Uploads) (id : Str) : UploadRequest → Option Digest × UploadPhase
  | .patch => (none, lookup)
  | .put query => match uploadDigest query with
      | .ok digest => (some digest, lookup)
      | .error e => (none, .returned (.error e))
where
  lookup : UploadPhase :=
    if w.sessions.has id then .located else .returned (.error (uploadUnknown id))

/-- The body of a request is appended: its session, if it still exists, is told the size. -/
def finished (w : Uploads) (i : ℕ) (c : UploadCall) (size : ℕ) : Uploads :=
  let w := if w.sessions.has c.id then { w with sessions := w.sessions.put ⟨c.id, size⟩ } else w
  match c.expect with
  | none => w.enter i c (.returned (.ok (patched c.name c.id size)))
  | some _ => w.enter i c .appended

/-- The digest of the file, compared with the one the request names. -/
def digested (w : Uploads) (i : ℕ) (c : UploadCall) (content : Bytes) : Uploads :=
  let digest := Digest.sha256 content
  match (expectDigest c.expect digest).result w.store with
  | .ok _ => w.enter i c (.hashed digest content.length)
  | .error e => (w.unlink c.id).enter i c
      (.returned (.error (.badRequest "DIGEST_INVALID" e.message)))

/-- What a step does. -/
def step (w : Uploads) : UploadStep → Option Uploads
  | .start id =>
      if w.files.has id then none
      else some { w with
        files := w.files.put ⟨id, [], true⟩
        sessions := w.sessions.put ⟨id, 0⟩ }
  | .request name id req =>
      let (expect, phase) := w.arrive id req
      some { w with calls := w.calls ++ [⟨id, name, expect, phase⟩] }
  | .openFile i => do
      let c ← w.calls[i]?
      match c.phase with
      | .located => match w.fileAt c.id with
          | some _ => some (w.enter i c .appending)
          | none => some (w.enter i c (.returned (.error (noFile c.id))))
      | _ => none
  | .chunk i bytes => do
      let c ← w.calls[i]?
      let f ← w.files.get c.id
      match c.phase with
      | .appending => some { w with files := w.files.put { f with content := f.content ++ bytes } }
      | _ => none
  | .finish i => do
      let c ← w.calls[i]?
      let f ← w.files.get c.id
      match c.phase with
      | .appending => some (w.finished i c f.content.length)
      | _ => none
  | .take i => do
      let c ← w.calls[i]?
      match c.phase with
      | .appended =>
          if w.sessions.has c.id then
            some { w.enter i c .taken with sessions := w.sessions.erase c.id }
          else some (w.enter i c (.returned (.error (uploadUnknown c.id))))
      | _ => none
  | .hash i => do
      let c ← w.calls[i]?
      match c.phase with
      | .taken => match w.fileAt c.id with
          | some f => some (w.digested i c f.content)
          | none => some (w.enter i c (.returned (.error
              (.badRequest "DIGEST_INVALID" (noFile c.id).message))))
      | _ => none
  | .importFile i => do
      let c ← w.calls[i]?
      match c.phase with
      | .hashed digest size => match w.fileAt c.id with
          | some f =>
              let hash := External.blake3 f.content
              some { w.enter i c (.imported ⟨digest, hash, size, none⟩) with
                store := (w.store.apply (.data f.content)).apply (.tag digest hash) }
          | none => some (w.enter i c (.returned (.error
              (.badRequest "DIGEST_INVALID" (noFile c.id).message))))
      | _ => none
  | .removeFile i => do
      let c ← w.calls[i]?
      match c.phase with
      | .imported blob => some ((w.unlink c.id).enter i c (.removed blob))
      | _ => none
  | .record i => do
      let c ← w.calls[i]?
      match c.phase with
      | .removed blob => some { w.enter i c (.returned (.ok (uploaded c.name blob))) with
          store := w.store.apply (.blobRef blob) }
      | _ => none
  | .fail i e => do
      let c ← w.calls[i]?
      match c.phase with
      | .appended | .returned _ => none
      | .taken | .hashed _ _ | .imported _ | .removed _ =>
          some ((w.unlink c.id).enter i c (.returned (.error
            (.badRequest "DIGEST_INVALID" e.message))))
      | _ => some (w.enter i c (.returned (.error e)))
  | .cancel id =>
      if w.sessions.has id then
        some { w.unlink id with sessions := w.sessions.erase id }
      else some w

/-- Every index entry is true of the content under its hash. -/
def Indexed (w : Uploads) : Prop := ∀ d e, w.store.blobRef d = some e → w.store.Truthful e

/-- Nothing is appended to a file between its digest and its import, and the content that is
imported does not share its BLAKE3 hash with other content. -/
def Settled (w : Uploads) : UploadStep → Prop
  | .chunk i bytes => bytes = [] ∨ ∀ d ∈ w.calls, w.calls[i]?.map UploadCall.id = some d.id →
      d.phase.digested = none
  | .importFile i => (w.calls[i]?.bind fun c => w.fileAt c.id).all (fun f =>
      (w.store.blobs.get (External.blake3 f.content)).all fun b => b = f.content) = true
  | _ => True

instance (w : Uploads) (a : UploadStep) : Decidable (w.Settled a) :=
  match a with
  | .chunk i bytes => inferInstanceAs (Decidable (bytes = [] ∨ ∀ d ∈ w.calls,
      w.calls[i]?.map UploadCall.id = some d.id → d.phase.digested = none))
  | .importFile _ => inferInstanceAs (Decidable (_ = true))
  | .start _ | .request _ _ _ | .openFile _ | .finish _ | .take _ | .hash _ | .removeFile _
  | .record _ | .fail _ _ | .cancel _ => isTrue trivial

/-! ### The invariant -/

/-- What a file holds, whether or not its path still leads to it. -/
def contentOf (w : Uploads) (id : Str) : Option Bytes := (w.files.get id).map UploadFile.content

/-- The index is true, a digest that was computed is still the one of its file, and what was
imported is true of its content. -/
structure Sound (w : Uploads) : Prop where
  index : w.Indexed
  digested : ∀ c ∈ w.calls, ∀ p, c.phase.digested = some p →
    ∃ b, w.contentOf c.id = some b ∧ (Digest.sha256 b, b.length) = p
  imported : ∀ c ∈ w.calls, ∀ b, c.phase.blob = some b → w.store.Truthful b

variable {w v : Uploads} {i : ℕ} {c : UploadCall} {phase : UploadPhase}

/-- Sessions do not matter, nor what happens to a file that is not between its digest and its
import. -/
theorem Sound.of_same (h : w.Sound) (hstore : v.store = w.store) (hcalls : v.calls = w.calls)
    (hcontent : ∀ c ∈ w.calls, c.phase.digested ≠ none → v.contentOf c.id = w.contentOf c.id) :
    v.Sound where
  index d e he := by
    rw [hstore] at he ⊢
    exact h.index d e he
  digested c hc p hp := by
    rw [hcalls] at hc
    obtain ⟨b, hb, heq⟩ := h.digested c hc p hp
    exact ⟨b, (hcontent c hc (by rw [hp]; exact Option.some_ne_none p)).trans hb, heq⟩
  imported c hc b hb := by
    rw [hcalls] at hc
    rw [hstore]
    exact h.imported c hc b hb

theorem contentOf_unlink (w : Uploads) (id k : Str) :
    (w.unlink id).contentOf k = w.contentOf k := by
  unfold unlink contentOf
  cases hf : w.files.get id with
  | none => rfl
  | some f =>
      by_cases hk : f.id = k
      · have hid : id = k := (Table.key_of_get hf).symm.trans hk
        simp [hk, ← hid, hf]
      · simp [Table.get_put, hk]

theorem store_unlink (w : Uploads) (id : Str) : (w.unlink id).store = w.store := by
  unfold unlink
  split <;> rfl

theorem calls_unlink (w : Uploads) (id : Str) : (w.unlink id).calls = w.calls := by
  unfold unlink
  split <;> rfl

theorem Sound.unlink (h : w.Sound) (id : Str) : (w.unlink id).Sound :=
  h.of_same (store_unlink w id) (calls_unlink w id) fun c _ _ => contentOf_unlink w id c.id

/-- A request moves on, to a phase about which the facts hold. -/
theorem Sound.enter (h : w.Sound)
    (hdigest : ∀ p, phase.digested = some p →
      ∃ b, w.contentOf c.id = some b ∧ (Digest.sha256 b, b.length) = p)
    (hblob : ∀ b, phase.blob = some b → w.store.Truthful b) : (w.enter i c phase).Sound where
  index := h.index
  digested := Slots.forall_mem_set h.digested hdigest
  imported := Slots.forall_mem_set h.imported hblob

/-- A request moves on to a phase in which nothing is said of its file. -/
theorem Sound.enter_plain (h : w.Sound) (hdigest : phase.digested = none)
    (hblob : phase.blob = none) : (w.enter i c phase).Sound :=
  h.enter (fun p hp => by rw [hdigest] at hp; cases hp) fun b hb => by rw [hblob] at hb; cases hb

theorem Sound.sessions (h : w.Sound) (sessions : Table Upload.id) :
    Sound { w with sessions } :=
  h.of_same rfl rfl fun _ _ _ => rfl

/-- Content is added to a store without displacing other content. -/
theorem Sound.store {s : Store} (h : w.Sound) (hdata : w.store.HoldsData s)
    (hentries : s.digests = w.store.digests) : Sound { w with store := s } where
  index d e he := by
    have he' : w.store.blobRef d = some e := by
      rw [← he, Store.blobRef, Store.blobRef, hentries]
    exact (h.index d e he').mono hdata
  digested := h.digested
  imported c hc b hb := (h.imported c hc b hb).mono hdata

theorem Sound.finished (h : w.Sound) (size : ℕ) : (w.finished i c size).Sound := by
  unfold Uploads.finished
  have hsessions : (if w.sessions.has c.id then
      { w with sessions := w.sessions.put ⟨c.id, size⟩ } else w).Sound := by
    split
    · exact h.sessions _
    · exact h
  cases c.expect with
  | none => exact hsessions.enter_plain rfl rfl
  | some d => exact hsessions.enter_plain rfl rfl

theorem Sound.hash (h : w.Sound) {b : Bytes} (hb : w.contentOf c.id = some b) :
    (w.digested i c b).Sound := by
  unfold Uploads.digested
  dsimp only
  split
  · refine h.enter (fun p hp => ?_) fun _ he => by cases he
    cases hp
    exact ⟨b, hb, rfl⟩
  · exact (h.unlink c.id).enter_plain rfl rfl

theorem contentOf_of_fileAt {id : Str} {f : UploadFile} (h : w.fileAt id = some f) :
    w.contentOf id = some f.content := by
  rw [contentOf, (Option.filter_eq_some_iff.mp h).1, Option.map_some]

/-- The file is imported under the digest and the size that were computed. -/
theorem Sound.imports (h : w.Sound) (hc : w.calls[i]? = some c) {digest : Digest} {size : ℕ}
    (hphase : c.phase = .hashed digest size) {f : UploadFile} (hf : w.fileAt c.id = some f)
    (hfree : ∀ b, w.store.blobs.get (External.blake3 f.content) = some b → b = f.content) :
    Sound { w.enter i c (.imported ⟨digest, External.blake3 f.content, size, none⟩) with
      store := (w.store.apply (.data f.content)).apply (.tag digest (External.blake3 f.content)) } := by
  let s := (w.store.apply (.data f.content)).apply (.tag digest (External.blake3 f.content))
  have hdata : w.store.HoldsData s := holdsData_data hfree
  obtain ⟨b, hb, heq⟩ := h.digested c (List.mem_of_getElem? hc) (digest, size) (by rw [hphase]; rfl)
  cases hb.symm.trans (contentOf_of_fileAt hf)
  cases heq
  refine (h.store hdata rfl).enter (fun p hp => by cases hp) fun r hr => ?_
  cases hr
  exact ⟨f.content, Table.get_put_self _ _, rfl, rfl⟩

/-- The entry of an imported file is written. -/
theorem Sound.records (h : w.Sound) {blob : BlobRef} (hblob : w.store.Truthful blob)
    {res : Except OciError Response} :
    Sound { w.enter i c (.returned res) with store := w.store.apply (.blobRef blob) } where
  index d e he := by
    simp only [Store.blobRef, Store.apply, Table.get_put] at he
    split at he
    · cases he
      exact hblob
    · exact h.index d e he
  digested := Slots.forall_mem_set h.digested fun _ hp => by cases hp
  imported := Slots.forall_mem_set h.imported fun _ hb => by cases hb

theorem digested_of_arrive (w : Uploads) (id : Str) (req : UploadRequest) :
    (w.arrive id req).2.digested = none ∧ (w.arrive id req).2.blob = none := by
  have hlookup : (arrive.lookup w id).digested = none ∧ (arrive.lookup w id).blob = none := by
    unfold arrive.lookup
    split <;> exact ⟨rfl, rfl⟩
  cases req with
  | patch => exact hlookup
  | put query =>
      simp only [arrive]
      split
      · exact hlookup
      · exact ⟨rfl, rfl⟩

/-- Bytes are appended to a file, of which no digest is in use unless nothing is appended. -/
theorem Sound.chunk (h : w.Sound) {f : UploadFile} (hf : w.files.get c.id = some f) {bytes : Bytes}
    (hquiet : bytes = [] ∨ ∀ d ∈ w.calls, d.id = c.id → d.phase.digested = none) :
    Sound { w with files := w.files.put { f with content := f.content ++ bytes } } := by
  have hfid := Table.key_of_get hf
  refine h.of_same rfl rfl fun d hd hp => ?_
  simp only [contentOf, Table.get_put]
  by_cases hid : f.id = d.id
  · rcases hquiet with rfl | hquiet
    · rw [if_pos hid, List.append_nil, ← hid, hfid, hf]
      rfl
    · exact absurd (hquiet d hd (hid.symm.trans hfid)) hp
  · rw [if_neg hid]

theorem sound_step {a : UploadStep} (h : w.Sound) (ha : w.Settled a) (hstep : w.step a = some v) :
    v.Sound := by
  cases a with
  | start id =>
      simp only [step] at hstep
      split at hstep
      · cases hstep
      · rename_i hnew
        cases hstep
        -- no request has the new id, as none of its files has it
        refine h.of_same rfl rfl fun c hc hp => ?_
        obtain ⟨p, hp⟩ := Option.ne_none_iff_exists'.mp hp
        obtain ⟨b, hb, -⟩ := h.digested c hc p hp
        have hne : id ≠ c.id := by
          rintro rfl
          obtain ⟨f, hf, -⟩ := Option.map_eq_some_iff.mp hb
          exact hnew (Table.has_iff.mpr ⟨f, hf⟩)
        simp [contentOf, Table.get_put, hne]
  | request name id req =>
      cases hstep
      have hnew := w.digested_of_arrive id req
      refine ⟨h.index, Slots.forall_mem_concat h.digested fun p hp => ?_,
        Slots.forall_mem_concat h.imported fun b hb => ?_⟩
      · cases hnew.1.symm.trans hp
      · cases hnew.2.symm.trans hb
  | openFile i =>
      obtain ⟨c, hc, hstep⟩ := Option.bind_eq_some_iff.mp hstep
      split at hstep
      · split at hstep <;> cases hstep <;> exact h.enter_plain rfl rfl
      · cases hstep
  | chunk i bytes =>
      obtain ⟨c, hc, hstep⟩ := Option.bind_eq_some_iff.mp hstep
      obtain ⟨f, hf, hstep⟩ := Option.bind_eq_some_iff.mp hstep
      split at hstep
      · cases hstep
        refine h.chunk hf (ha.imp_right fun ha d hd hid => ha d hd ?_)
        rw [hc, Option.map_some, hid]
      · cases hstep
  | finish i =>
      obtain ⟨c, hc, hstep⟩ := Option.bind_eq_some_iff.mp hstep
      obtain ⟨f, hf, hstep⟩ := Option.bind_eq_some_iff.mp hstep
      split at hstep
      · cases hstep
        exact h.finished _
      · cases hstep
  | take i =>
      obtain ⟨c, hc, hstep⟩ := Option.bind_eq_some_iff.mp hstep
      split at hstep
      · split at hstep
        · cases hstep
          exact (h.enter_plain rfl rfl).sessions _
        · cases hstep
          exact h.enter_plain rfl rfl
      · cases hstep
  | hash i =>
      obtain ⟨c, hc, hstep⟩ := Option.bind_eq_some_iff.mp hstep
      split at hstep
      · split at hstep
        · rename_i f hf
          cases hstep
          exact h.hash (contentOf_of_fileAt hf)
        · cases hstep
          exact h.enter_plain rfl rfl
      · cases hstep
  | importFile i =>
      obtain ⟨c, hc, hstep⟩ := Option.bind_eq_some_iff.mp hstep
      split at hstep
      · rename_i digest size hphase
        split at hstep
        · rename_i f hf
          cases hstep
          have hfree : (w.store.blobs.get (External.blake3 f.content)).all
              (fun b => b = f.content) = true := by simpa [Settled, hc, hf] using ha
          exact h.imports hc hphase hf fun b hb => by simpa [hb] using hfree
        · cases hstep
          exact h.enter_plain rfl rfl
      · cases hstep
  | removeFile i =>
      obtain ⟨c, hc, hstep⟩ := Option.bind_eq_some_iff.mp hstep
      split at hstep
      · rename_i blob hphase
        cases hstep
        have hblob := h.imported c (List.mem_of_getElem? hc) blob (by rw [hphase]; rfl)
        refine (h.unlink c.id).enter (fun p hp => by cases hp) fun b hb => ?_
        cases hb
        rw [store_unlink]
        exact hblob
      · cases hstep
  | record i =>
      obtain ⟨c, hc, hstep⟩ := Option.bind_eq_some_iff.mp hstep
      split at hstep
      · rename_i blob hphase
        cases hstep
        exact h.records (h.imported c (List.mem_of_getElem? hc) blob (by rw [hphase]; rfl))
      · cases hstep
  | fail i e =>
      obtain ⟨c, hc, hstep⟩ := Option.bind_eq_some_iff.mp hstep
      split at hstep <;> cases hstep
      all_goals first | exact h.enter_plain rfl rfl | exact (h.unlink c.id).enter_plain rfl rfl
  | cancel id =>
      simp only [step] at hstep
      split at hstep
      · cases hstep
        exact (h.unlink id).sessions _
      · cases hstep
        exact h

/-- **Every entry is true.**  In a run in which nothing is appended to a file between its digest
and its import, the index is true of the content in every state reached. -/
theorem run_indexed {s : Store} {steps : List UploadStep}
    (hs : ∀ d e, s.blobRef d = some e → s.Truthful e) (hm : Meets step Settled (start s) steps) :
    Throughout step Indexed (start s) steps := by
  have hstart : (start s).Sound := ⟨hs, fun c hc => (by cases hc), fun c hc => (by cases hc)⟩
  exact (throughout_of_meets (fun _ _ _ hs ha ht => sound_step hs ha ht) hstart hm).mono
    fun _ h => h.index

/-- When the file of a request has another length than the one computed with its digest, the
request can go on to write an entry that is untrue. -/
theorem untrue_of_length (hc : w.calls[i]? = some c) {digest : Digest} {size : ℕ}
    (hphase : c.phase = .hashed digest size) {f : UploadFile} (hf : w.fileAt c.id = some f)
    (hlen : f.content.length ≠ size) :
    ∃ v, run step w [.importFile i, .removeFile i, .record i] = some v ∧ ¬ v.Indexed := by
  have hi := (List.getElem?_eq_some_iff.mp hc).1
  let hash := External.blake3 f.content
  let blob : BlobRef := ⟨digest, hash, size, none⟩
  let w₁ : Uploads := { w.enter i c (.imported blob) with
    store := (w.store.apply (.data f.content)).apply (.tag digest hash) }
  have h₁ : w.step (.importFile i) = some w₁ := by simp [step, hc, hphase, hf, w₁, blob, hash]
  let c₁ : UploadCall := { c with phase := .imported blob }
  have hc₁ : w₁.calls[i]? = some c₁ := by simp [w₁, enter, hi, c₁]
  let w₂ := (w₁.unlink c.id).enter i c₁ (.removed blob)
  have h₂ : w₁.step (.removeFile i) = some w₂ := by simp [step, hc₁, w₂, c₁]
  let c₂ : UploadCall := { c₁ with phase := .removed blob }
  have hc₂ : w₂.calls[i]? = some c₂ := by simp [w₂, enter, calls_unlink, w₁, hi, c₂]
  let w₃ : Uploads := { w₂.enter i c₂ (.returned (.ok (uploaded c.name blob))) with
    store := w₂.store.apply (.blobRef blob) }
  have h₃ : w₂.step (.record i) = some w₃ := by simp [step, hc₂, w₃, c₂, c₁]
  refine ⟨w₃, by simp [run, h₁, h₂, h₃], fun htrue => ?_⟩
  obtain ⟨b, hb, -, hsize⟩ := htrue digest blob (Table.get_put_self _ blob)
  have hstore : w₃.store.blobs = w.store.blobs.put f.content := by
    show (w₁.unlink c.id).store.blobs = _
    rw [store_unlink]
    rfl
  rw [hstore, show blob.hash = External.blake3 f.content from rfl, Table.get_put_self] at hb
  cases hb
  exact hlen hsize

end Uploads

end

namespace Uploads

/-- A patch and a put of one session, the body of the put arriving before the digest. -/
theorem run_indexed_at : letI := sample
    let steps : List UploadStep := [.start "u", .request "app" "u" .patch,
      .request "app" "u" (.put (some Sample.config.digest.str)), .openFile 0, .openFile 1,
      .chunk 0 (Sample.config.bytes.take 1), .finish 0, .chunk 1 (Sample.config.bytes.drop 1),
      .finish 1, .take 1, .hash 1, .importFile 1, .removeFile 1, .record 1]
    @Throughout (@Uploads sample) UploadStep (@step sample) (@Indexed sample)
      (@start sample (@Store.empty sample)) steps :=
  @run_indexed sample _ _ (by intro d e he; cases he) (by decide +kernel)

/-- A patch that opened the file appends to it between the digest and the import: the entry says
two bytes, the content has three. -/
theorem chunk_breaks_entry : letI := sample
    let steps : List UploadStep := [.start "u", .request "app" "u" .patch,
      .request "app" "u" (.put (some Sample.config.digest.str)), .openFile 0, .openFile 1,
      .chunk 1 Sample.config.bytes, .finish 1, .take 1, .hash 1, .chunk 0 [32], .importFile 1,
      .removeFile 1, .record 1]
    ¬ @Throughout (@Uploads sample) UploadStep (@step sample) (@Indexed sample)
      (@start sample (@Store.empty sample)) steps := by
  let known := sample
  intro steps h
  have hrun : (run step (start Store.empty) steps).any (fun w =>
      (w.store.blobRef Sample.config.digest).any fun e => e.digest = Sample.config.digest ∧
        (w.store.blobs.get e.hash).all fun b => b.length ≠ e.size) = true := by
    subst known
    rw [Sample.sample_eq_prepared]
    decide +kernel
  obtain ⟨w, hw, hend⟩ := (Option.any_eq_true _ _).mp hrun
  obtain ⟨e, he, hbad⟩ := (Option.any_eq_true _ _).mp hend
  obtain ⟨b, hb, -, hsize⟩ := last_of_throughout h hw _ e he
  rw [hb] at hbad
  simp [hsize] at hbad

end Uploads

end Ocid
