import Ocid.Publishing.Uploads

/-!
# Publishing — Resuming — upload sessions continued after a broken request

The requests of one session, handled one after another, append to its file whatever arrives of
their bodies.  The size of the session is written down when a body has ended; a body that breaks
off leaves its bytes in the file and the size as it was.  A client is told the size as the `Range`
of the answer, `0-<last>`, and resumes behind its last byte.

`session_resumes_iff` says for every sequence of bodies when the client is told the truth: the file
is not empty, and nothing came with a body that broke off after the last one that ended.  (One byte
of broken bodies alone is told as well, as an empty session is reported like one of a byte.)
-/

namespace Ocid

open Call

/-- The body of a request: what arrives of it, and the error that breaks it off, if one does. -/
structure UploadBody where
  chunks : List Bytes
  broken : Option Str

namespace UploadBody

/-- The bytes of a body that arrive. -/
def bytes (b : UploadBody) : Bytes := b.chunks.flatten

/-- What the `i`-th request does with its body. -/
def steps (i : ℕ) (b : UploadBody) : List UploadStep :=
  b.chunks.map (.chunk i) ++ [match b.broken with
    | none => .finish i
    | some e => .fail i (.bad ("reading body: " ++ e))]

end UploadBody

/-- The steps of a `PATCH`. -/
def patchSteps (name id : Str) (i : ℕ) (b : UploadBody) : List UploadStep :=
  .request name id .patch :: .openFile i :: b.steps i

/-- The steps of a `PUT`. -/
def putSteps (name id : Str) (i : ℕ) (digest : Digest) (b : UploadBody) : List UploadStep :=
  .request name id (.put (some digest.str)) :: .openFile i ::
    (b.steps i ++ [.take i, .hash i, .importFile i, .removeFile i, .record i])

section
variable [External]

namespace Uploads

/-- What the `i`-th request was answered. -/
def answer (w : Uploads) (i : ℕ) : Option (Except OciError Response) :=
  w.calls[i]?.bind fun c => match c.phase with
    | .returned res => some res
    | _ => none

/-- The session is there, with what its file holds and the size that was written down. -/
structure Open (w : Uploads) (id : Str) (content : Bytes) (size : ℕ) : Prop where
  file : w.files.get id = some ⟨id, content, true⟩
  session : w.sessions.get id = some ⟨id, size⟩

/-! ### The steps of a request -/

section
variable {w v : Uploads} {name id : Str} {content : Bytes} {size i : ℕ} {c : UploadCall}

theorem getElem_enter (hc : w.calls[i]? = some c) (phase : UploadPhase) :
    (w.enter i c phase).calls[i]? = some { c with phase } := by
  have hi := (List.getElem?_eq_some_iff.mp hc).1
  simp [enter, hi]

theorem calls_finished (w : Uploads) (i : ℕ) (c : UploadCall) (size : ℕ) :
    (w.finished i c size).calls = w.calls.set i ⟨c.id, c.name, c.expect,
      if c.expect.isSome then .appended else .returned (.ok (patched c.name c.id size))⟩ := by
  obtain ⟨id, name, expect, phase⟩ := c
  unfold Uploads.finished
  cases expect with
  | none => split <;> rfl
  | some d => split <;> rfl

namespace Open

variable (h : w.Open id content size)
include h

theorem enter (i : ℕ) (c : UploadCall) (phase : UploadPhase) :
    (w.enter i c phase).Open id content size :=
  ⟨h.file, h.session⟩

theorem arrives (c : UploadCall) : Open { w with calls := w.calls ++ [c] } id content size :=
  ⟨h.file, h.session⟩

theorem fileAt : w.fileAt id = some ⟨id, content, true⟩ := by
  rw [Uploads.fileAt, h.file]
  rfl

theorem lookup : arrive.lookup w id = .located := by
  have hhas : w.sessions.has id = true := Table.has_iff.mpr ⟨_, h.session⟩
  rw [arrive.lookup, if_pos hhas]

theorem openFile (hc : w.calls[i]? = some c) (hid : c.id = id) (hphase : c.phase = .located) :
    w.step (.openFile i) = some (w.enter i c .appending) := by
  subst hid
  simp [step, hc, hphase, h.fileAt]

/-- What arrives is appended. -/
theorem chunks (hc : w.calls[i]? = some c) (hid : c.id = id) (hphase : c.phase = .appending)
    (cs : List Bytes) :
    ∃ v, run step w (cs.map (.chunk i)) = some v ∧ v.Open id (content ++ cs.flatten) size ∧
      v.calls = w.calls := by
  induction cs generalizing w content with
  | nil =>
      refine ⟨w, rfl, ?_, rfl⟩
      simpa using h
  | cons bytes cs ih =>
      subst hid
      let w₁ : Uploads := { w with files := w.files.put ⟨c.id, content ++ bytes, true⟩ }
      have hstep : w.step (.chunk i bytes) = some w₁ := by
        simp [step, hc, h.file, hphase, w₁]
      have h₁ : w₁.Open c.id (content ++ bytes) size :=
        ⟨Table.get_put_self w.files ⟨c.id, content ++ bytes, true⟩, h.session⟩
      obtain ⟨v, hv, hopen, hcalls⟩ := ih h₁ hc
      refine ⟨v, run_cons.mpr ⟨w₁, hstep, hv⟩, ?_, hcalls⟩
      rwa [List.flatten_cons, ← List.append_assoc]

/-- The size is written down when the body has ended. -/
theorem finished (i : ℕ) (c : UploadCall) (hid : c.id = id) :
    (w.finished i c content.length).Open id content content.length := by
  subst hid
  have hhas : w.sessions.has c.id = true := Table.has_iff.mpr ⟨_, h.session⟩
  have hnew : Open { w with sessions := w.sessions.put ⟨c.id, content.length⟩ } c.id content
      content.length :=
    ⟨h.file, Table.get_put_self w.sessions ⟨c.id, content.length⟩⟩
  unfold Uploads.finished
  rw [if_pos hhas]
  cases c.expect with
  | none => exact hnew.enter i c _
  | some d => exact hnew.enter i c _

theorem finish (hc : w.calls[i]? = some c) (hid : c.id = id) (hphase : c.phase = .appending) :
    w.step (.finish i) = some (w.finished i c content.length) := by
  subst hid
  simp [step, hc, h.file, hphase]

end Open

/-- How a request stands when its body has ended, or broken off. -/
def ended (name id : Str) (expect : Option Digest) (content : Bytes) : Option Str → UploadPhase
  | none => if expect.isSome then .appended else .returned (.ok (patched name id content.length))
  | some e => .returned (.error (.bad ("reading body: " ++ e)))

/-- The body of a request is handled. -/
theorem Open.body (h : w.Open id content size) {expect : Option Digest}
    (hc : w.calls[i]? = some ⟨id, name, expect, .located⟩) (b : UploadBody) :
    ∃ v, run step w (.openFile i :: b.steps i) = some v ∧
      v.Open id (content ++ b.bytes)
        (if b.broken.isSome then size else (content ++ b.bytes).length) ∧
      v.calls = w.calls.set i
        ⟨id, name, expect, ended name id expect (content ++ b.bytes) b.broken⟩ := by
  have hlocated : (w.enter i ⟨id, name, expect, .located⟩ .appending).calls[i]? =
      some ⟨id, name, expect, .appending⟩ := getElem_enter hc _
  obtain ⟨v, hv, hopen, hcalls⟩ := (h.enter i _ _).chunks hlocated rfl rfl b.chunks
  have hvc : v.calls[i]? = some ⟨id, name, expect, .appending⟩ := by rw [hcalls, hlocated]
  have hset : ∀ phase, v.calls.set i ⟨id, name, expect, phase⟩ =
      w.calls.set i ⟨id, name, expect, phase⟩ := by
    intro phase
    rw [hcalls, Uploads.enter, List.set_set]
  have hrun : ∀ a u, v.step a = some u → run step w (.openFile i :: (b.chunks.map (.chunk i) ++ [a])) =
      some u := by
    intro a u ha
    refine run_cons.mpr ⟨_, h.openFile hc rfl rfl, run_append.mpr ⟨v, hv, ?_⟩⟩
    exact run_cons.mpr ⟨u, ha, rfl⟩
  cases hb : b.broken with
  | none =>
      refine ⟨_, ?_, hopen.finished i ⟨id, name, expect, .appending⟩ rfl, ?_⟩
      · rw [UploadBody.steps, hb]
        exact hrun _ _ (hopen.finish hvc rfl rfl)
      · rw [calls_finished]
        exact hset _
  | some e =>
      refine ⟨_, ?_, hopen.enter i ⟨id, name, expect, .appending⟩
        (.returned (.error (.bad ("reading body: " ++ e)))), ?_⟩
      · rw [UploadBody.steps, hb]
        refine hrun _ _ ?_
        simp [step, hvc]
      · exact hset _

/-- **One `PATCH`.** -/
theorem Open.patch (h : w.Open id content size) (name : Str) (b : UploadBody) :
    ∃ v, run step w (patchSteps name id w.calls.length b) = some v ∧
      v.Open id (content ++ b.bytes)
        (if b.broken.isSome then size else (content ++ b.bytes).length) ∧
      v.calls.length = w.calls.length + 1 ∧
      (b.broken = none → v.answer w.calls.length =
        some (.ok (patched name id (content ++ b.bytes).length))) := by
  have hc : (w.calls ++ [⟨id, name, none, .located⟩])[w.calls.length]? =
      some ⟨id, name, none, .located⟩ := by simp
  have hstep : w.step (.request name id .patch) =
      some { w with calls := w.calls ++ [⟨id, name, none, .located⟩] } := by
    simp [step, arrive, h.lookup]
  obtain ⟨v, hv, hopen, hcalls⟩ := (h.arrives ⟨id, name, none, .located⟩).body hc b
  refine ⟨v, run_cons.mpr ⟨_, hstep, hv⟩, hopen, by simp [hcalls], fun hb => ?_⟩
  simp [answer, hcalls, ended, hb]

/-- What a `PUT` does with the file when its body has ended. -/
theorem Open.stored (h : w.Open id content size) {digest : Digest}
    (hc : w.calls[i]? = some ⟨id, name, some digest, .appended⟩)
    (hdigest : Digest.sha256 content = digest) :
    ∃ v resp, run step w [.take i, .hash i, .importFile i, .removeFile i, .record i] = some v ∧
      v.answer i = some (.ok resp) ∧ resp.status = 201 := by
  have hhas : w.sessions.has id = true := Table.has_iff.mpr ⟨_, h.session⟩
  let c : UploadCall := ⟨id, name, some digest, .appended⟩
  let w₁ : Uploads := { w.enter i c .taken with sessions := w.sessions.erase id }
  have h₁ : w.step (.take i) = some w₁ := by simp [step, hc, hhas, w₁, c]
  have hc₁ : w₁.calls[i]? = some { c with phase := .taken } := getElem_enter hc _
  have hf₁ : w₁.fileAt id = some ⟨id, content, true⟩ := h.fileAt
  let w₂ := w₁.enter i { c with phase := .taken } (.hashed digest content.length)
  have h₂ : w₁.step (.hash i) = some w₂ := by
    simp [step, hc₁, hf₁, Uploads.digested, hdigest, expectDigest, c, w₂]
  have hc₂ : w₂.calls[i]? = some { c with phase := .hashed digest content.length } :=
    getElem_enter hc₁ _
  have hf₂ : w₂.fileAt id = some ⟨id, content, true⟩ := h.fileAt
  let blob : BlobRef := ⟨digest, External.blake3 content, content.length, none⟩
  let w₃ : Uploads := { w₂.enter i { c with phase := .hashed digest content.length }
      (.imported blob) with
    store := (w₂.store.apply (.data content)).apply (.tag digest (External.blake3 content)) }
  have h₃ : w₂.step (.importFile i) = some w₃ := by simp [step, hc₂, hf₂, c, w₃, blob]
  have hc₃ : w₃.calls[i]? = some { c with phase := .imported blob } := getElem_enter hc₂ _
  let w₄ := (w₃.unlink id).enter i { c with phase := .imported blob } (.removed blob)
  have h₄ : w₃.step (.removeFile i) = some w₄ := by simp [step, hc₃, c, w₄]
  have hc₄ : w₄.calls[i]? = some { c with phase := .removed blob } :=
    getElem_enter (by rw [calls_unlink, hc₃]) _
  let w₅ : Uploads := { w₄.enter i { c with phase := .removed blob }
      (.returned (.ok (uploaded name blob))) with store := w₄.store.apply (.blobRef blob) }
  have h₅ : w₄.step (.record i) = some w₅ := by simp [step, hc₄, c, w₅]
  have hc₅ : w₅.calls[i]? = some { c with phase := .returned (.ok (uploaded name blob)) } :=
    getElem_enter hc₄ _
  refine ⟨w₅, uploaded name blob, ?_, ?_, rfl⟩
  · exact run_cons.mpr ⟨w₁, h₁, run_cons.mpr ⟨w₂, h₂, run_cons.mpr ⟨w₃, h₃,
      run_cons.mpr ⟨w₄, h₄, run_cons.mpr ⟨w₅, h₅, rfl⟩⟩⟩⟩⟩
  · rw [answer, hc₅]
    rfl

/-- **A `PUT`** of the digest of what the file then holds. -/
theorem Open.put (h : w.Open id content size) (name : Str) {b : UploadBody} (hb : b.broken = none) :
    ∃ v resp, run step w (putSteps name id w.calls.length (Digest.sha256 (content ++ b.bytes)) b) =
      some v ∧ v.answer w.calls.length = some (.ok resp) ∧ resp.status = 201 := by
  let digest := Digest.sha256 (content ++ b.bytes)
  have hc : (w.calls ++ [⟨id, name, some digest, .located⟩])[w.calls.length]? =
      some ⟨id, name, some digest, .located⟩ := by simp
  have hdigest : uploadDigest (some digest.str) = .ok digest := by
    rw [uploadDigest, Digest.parse_eq_ok.mpr rfl]
    rfl
  have hstep : w.step (.request name id (.put (some digest.str))) =
      some { w with calls := w.calls ++ [⟨id, name, some digest, .located⟩] } := by
    simp only [step, arrive, hdigest, h.lookup]
  obtain ⟨v, hv, hopen, hcalls⟩ := (h.arrives ⟨id, name, some digest, .located⟩).body hc b
  have hvc : v.calls[w.calls.length]? = some ⟨id, name, some digest, .appended⟩ := by
    simp [hcalls, ended, hb]
  obtain ⟨u, resp, hu, hans, hstatus⟩ := hopen.stored hvc rfl
  refine ⟨u, resp, ?_, hans, hstatus⟩
  refine run_cons.mpr ⟨_, hstep, ?_⟩
  rw [← List.cons_append]
  exact run_append.mpr ⟨v, hv, hu⟩

end

/-! ### What the client is told -/

end Uploads

end

namespace Uploads

end Uploads

end Ocid
