import Ocid.Daemon.Sample
import Ocid.Lib.Files
import Ocid.Lib.Histories
import Ocid.Lib.Runs

/-!
# Index — Writes — index files written, read and removed at the same time

The daemon and `ocictl` use one directory of index files, in several processes.  A file is written
under a temporary name and then renamed (`write_atomic`); it is read and removed after a look
whether it exists.  `IndexDir.step` runs such calls system call by system call, in any order: the
temporary file is written in pieces of any length, and so is a file read.  A system call may fail,
and a process may be killed anywhere, also after a file was renamed or unlinked and before the call
is answered.  Collecting garbage unlinks files, the temporary ones too, and removes the directory
when it is empty.

Every call that is answered happened in one moment, and a read returns what one write wrote; a call
that fails has changed nothing, and one that is killed nothing, or what it was called for, in one
moment as well (`run_linearizes`).  There is one exception: a look whether a file exists that fails
says that there is none, and the call is answered so.
-/

namespace Ocid

open Files (FileError)

/-- The file of a digest. -/
def Digest.fileName (d : Digest) : Str := d.hex ++ ".json"

/-- The temporary file for a file. -/
def tempName (name : Str) (uuid : Uuid) : Str := '.' :: (name ++ (".tmp-" ++ uuid.text))

/-- Where a call stands. -/
inductive DirPhase where
  | entered
  /-- `put`: the directory was created, or was there. -/
  | made
  /-- `put`: the temporary file is open, with `rest` to be written. -/
  | writing (temp : Str) (inode : ℕ) (rest : Bytes)
  /-- The file exists. -/
  | found
  /-- `get`: the file is open, and `got` was read. -/
  | reading (inode : ℕ) (got : Bytes)
  /-- The file was renamed or unlinked, and the call is to be answered. -/
  | done (answer : MapAnswer Bytes)
  | answered (answer : Except FileError (MapAnswer Bytes))
  /-- It was answered that there is no file, as the look at it failed. -/
  | overlooked (answer : MapAnswer Bytes)
  /-- The process was killed; before the file was renamed or unlinked, or after, when it would have
  answered so. -/
  | dead (did : Option (MapAnswer Bytes))
deriving DecidableEq

/-- `put_blob_ref`, `blob_ref` or `remove_blob_ref`. -/
structure DirCall where
  call : MapCall Digest Bytes
  /-- How much had happened when it was called. -/
  since : ℕ
  phase : DirPhase
deriving DecidableEq

/-- The inode that a call works on. -/
def DirPhase.inode : DirPhase → Option ℕ
  | .writing _ inode _ | .reading inode _ => some inode
  | _ => none

/-- The answer of a call that came to its end, or would have. -/
def DirCall.outcome (c : DirCall) : Option (MapAnswer Bytes) :=
  match c.phase with
  | .done a | .answered (.ok a) | .dead (some a) => some a
  | _ => none

/-- What a call did. -/
def DirCall.effect (c : DirCall) : Option (MapEvent Digest Bytes) :=
  c.outcome.bind c.call.effect

/-- A system call can fail here, and the call with it. -/
def DirCall.Fails (c : DirCall) : Bool :=
  match c.phase, c.call with
  | .entered, .put .. | .made, _ | .writing .., _ | .found, _ | .reading .., _ => true
  | _, _ => false

/-- One step: a system call, or what stops a call. -/
inductive DirStep where
  | enter (call : MapCall Digest Bytes)
  /-- The next system call of a call; a new UUID, and how many bytes are written or read. -/
  | advance (i : ℕ) (uuid : Uuid) (n : ℕ)
  /-- The next system call of a call fails, -/
  | fail (i : ℕ) (error : FileError)
  /-- or is the look whether the file exists, which says no when it fails, -/
  | overlook (i : ℕ)
  /-- or the process is killed before it. -/
  | kill (i : ℕ)
  /-- Collecting garbage unlinks the file of a digest, -/
  | unlinkRecord (d : Digest)
  /-- or another one, -/
  | unlinkTemp (name : Str)
  /-- and removes the directory. -/
  | rmdir

/-- A directory of the index: the names with their inodes, and the content of the inodes. -/
structure IndexDir where
  present : Bool
  files : Table (Prod.fst : Str × ℕ → Str)
  inodes : List Bytes
  calls : List DirCall
  /-- The UUIDs used. -/
  uuids : List Uuid
  /-- What was there at the start. -/
  base : Digest → Option Bytes
  /-- What happened to the files of the digests since, and in which call. -/
  history : History (Option ℕ) Digest Bytes

namespace IndexDir

variable (w : IndexDir)

/-- The content of a file. -/
def content (name : Str) : Option Bytes := (w.files.get name).bind fun f => w.inodes[f.2]?

/-- A call moves on. -/
def enter (i : ℕ) (c : DirCall) (phase : DirPhase) : IndexDir :=
  { w with calls := w.calls.set i { c with phase } }

/-- Create the temporary file of a write. -/
def create (d : Digest) (uuid : Uuid) : IndexDir :=
  { w with
    files := w.files.put (tempName d.fileName uuid, w.inodes.length)
    inodes := w.inodes ++ [[]]
    uuids := uuid :: w.uuids }

/-- Write the next bytes of a file. -/
def append (inode : ℕ) (bytes : Bytes) : IndexDir :=
  { w with inodes := w.inodes.modify inode (· ++ bytes) }

/-- Rename the temporary file, which has the inode `inode`. -/
def rename (i : ℕ) (d : Digest) (data : Bytes) (temp : Str) (inode : ℕ) : IndexDir :=
  { w with
    files := (w.files.erase temp).put (d.fileName, inode)
    history := w.history ++ [(some i, .put d data)] }

/-- Unlink the file of a digest. -/
def unlink (who : Option ℕ) (d : Digest) : IndexDir :=
  { w with files := w.files.erase d.fileName, history := w.history ++ [(who, .erase d)] }

/-- The next system call of a write. -/
def advancePut (i : ℕ) (c : DirCall) (d : Digest) (data : Bytes) (uuid : Uuid) (n : ℕ) :
    Option IndexDir :=
  match c.phase with
  | .entered => some ({ w with present := true }.enter i c .made)
  | .made =>
      if uuid ∈ w.uuids then none
      else if w.present then
        some ((w.create d uuid).enter i c (.writing (tempName d.fileName uuid) w.inodes.length data))
      else some (w.enter i c (.answered (.error .notFound)))
  | .writing temp inode rest =>
      if rest = [] then
        match w.files.get temp with
        | some f => some ((w.rename i d data temp f.2).enter i c (.done .stored))
        | none => some (w.enter i c (.answered (.error .notFound)))
      else if n = 0 then none
      else some ((w.append inode (rest.take n)).enter i c (.writing temp inode (rest.drop n)))
  | .done a => some (w.enter i c (.answered (.ok a)))
  | _ => none

/-- The next system call of a read. -/
def advanceGet (i : ℕ) (c : DirCall) (d : Digest) (n : ℕ) : Option IndexDir :=
  match c.phase with
  | .entered =>
      if w.files.has d.fileName then some (w.enter i c .found)
      else some (w.enter i c (.answered (.ok (.value none))))
  | .found =>
      match w.files.get d.fileName with
      | some f => some (w.enter i c (.reading f.2 []))
      | none => some (w.enter i c (.answered (.error .notFound)))
  | .reading inode got =>
      let content := w.inodes[inode]?.getD []
      if content.length ≤ got.length then
        some (w.enter i c (.answered (.ok (.value (some got)))))
      else if n = 0 then none
      else some (w.enter i c (.reading inode (content.take (got.length + n))))
  | _ => none

/-- The next system call of a removal. -/
def advanceRemove (i : ℕ) (c : DirCall) (d : Digest) : Option IndexDir :=
  match c.phase with
  | .entered =>
      if w.files.has d.fileName then some (w.enter i c .found)
      else some (w.enter i c (.answered (.ok (.removed false))))
  | .found =>
      if w.files.has d.fileName then
        some ((w.unlink (some i) d).enter i c (.done (.removed true)))
      else some (w.enter i c (.answered (.error .notFound)))
  | .done a => some (w.enter i c (.answered (.ok a)))
  | _ => none

/-- What a step does. -/
def step : DirStep → Option IndexDir
  | .enter call =>
      some { w with calls := w.calls ++ [⟨call, w.history.length, .entered⟩] }
  | .advance i uuid n =>
      w.calls[i]?.bind fun c =>
        match c.call with
        | .put d data => w.advancePut i c d data uuid n
        | .get d => w.advanceGet i c d n
        | .remove d => w.advanceRemove i c d
  | .fail i error =>
      w.calls[i]?.bind fun c =>
        if c.Fails then some (w.enter i c (.answered (.error error))) else none
  | .overlook i =>
      w.calls[i]?.bind fun c =>
        if c.phase = .entered then c.call.absent.map fun a => w.enter i c (.overlooked a) else none
  | .kill i =>
      w.calls[i]?.bind fun c =>
        match c.phase with
        | .answered _ | .overlooked _ | .dead _ => none
        | _ => some (w.enter i c (.dead c.outcome))
  | .unlinkRecord d => if w.files.has d.fileName then some (w.unlink none d) else none
  | .unlinkTemp name =>
      if name.head? = some '.' then some { w with files := w.files.erase name } else none
  | .rmdir => if w.files.rows.isEmpty then some { w with present := false } else some w

end IndexDir

/-- The files of a directory, before anyone uses it: temporary files of calls that were killed may be
among them. -/
structure IndexFiles where
  files : Table (Prod.fst : Str × ℕ → Str)
  inodes : List Bytes
  uuids : List Uuid
  linked : ∀ f ∈ files.rows, f.2 < inodes.length
  unused : ∀ name uuid, uuid ∉ uuids → files.get (tempName name uuid) = none

/-- The directory before the first call. -/
def IndexDir.start (x : IndexFiles) : IndexDir where
  present := true
  files := x.files
  inodes := x.inodes
  calls := []
  uuids := x.uuids
  base d := (x.files.get d.fileName).bind fun f => x.inodes[f.2]?
  history := []

/-! ### Names -/

theorem Digest.fileName_injective : Function.Injective Digest.fileName :=
  fun _ _ h => hex_injective (List.append_cancel_right h)

/-- No file of a digest is a hidden one. -/
theorem Digest.head?_fileName (d : Digest) : d.fileName.head? ≠ some '.' := by
  intro hdot
  rw [fileName, List.head?_append_of_ne_nil _ d.hex_ne_nil] at hdot
  exact absurd (d.str_eq.2 _ (List.mem_of_mem_head? hdot)) (by decide)

theorem tempName_ne (name : Str) (uuid : Uuid) (d : Digest) : tempName name uuid ≠ d.fileName :=
  fun h => d.head?_fileName (h ▸ rfl)

theorem tempName_uuid {name name' : Str} {u v : Uuid} (h : tempName name u = tempName name' v) :
    u = v := by
  have htail := (List.cons.inj h).2
  rw [← List.append_assoc, ← List.append_assoc] at htail
  obtain ⟨-, hstr⟩ := List.append_inj' htail (u.length_text.trans v.length_text.symm)
  cases u
  cases v
  cases hstr
  rfl

namespace IndexDir

/-! ### What every state has -/

variable {w v : IndexDir} {i j : ℕ} {c : DirCall}

/-- The call `j` is writing to the inode. -/
def Writer (w : IndexDir) (inode j : ℕ) : Prop :=
  ∃ c temp rest, w.calls[j]? = some c ∧ c.phase = .writing temp inode rest

/-- What holds of the `j`-th call, by where it stands.  The inode of a write is its own, is linked
under its temporary name only, and has what was written so far; the inode of a read is complete. -/
def Fits (w : IndexDir) (j : ℕ) (c : DirCall) : Prop :=
  match c.phase with
  | .writing temp inode rest => ∃ d data uuid b, c.call = .put d data ∧
      temp = tempName d.fileName uuid ∧ uuid ∈ w.uuids ∧ w.inodes[inode]? = some b ∧
      b ++ rest = data ∧ (∀ f ∈ w.files.rows, f.2 = inode ↔ f.1 = temp) ∧
      ∀ k, w.Writer inode k → k = j
  | .reading inode got => ∃ d b, c.call = .get d ∧ w.inodes[inode]? = some b ∧ got <+: b ∧
      History.Since w.base w.history c.since d (some b) ∧ ∀ k, ¬ w.Writer inode k
  | .done a | .answered (.ok a) | .dead (some a) =>
      History.Linearized w.base w.history (some j) c.since c.call a
  | .overlooked a => c.call.absent = some a
  | _ => True

/-- The files are what the history says. -/
structure Stored (w : IndexDir) : Prop where
  linked : ∀ f ∈ w.files.rows, f.2 < w.inodes.length
  unused : ∀ name uuid, uuid ∉ w.uuids → w.files.get (tempName name uuid) = none
  visible : ∀ d, w.content d.fileName = History.after w.base w.history d

/-- And every call is where it should be. -/
structure Sound (w : IndexDir) : Prop extends w.Stored where
  called : ∀ (j : ℕ) (c : DirCall), w.calls[j]? = some c → c.since ≤ w.history.length
  events : ∀ (j : ℕ) (c : DirCall), w.calls[j]? = some c →
    w.history.filter (fun e => e.1 = some j) = c.effect.toList.map fun e => (some j, e)
  fresh : ∀ e ∈ w.history, ∀ j, e.1 = some j → j < w.calls.length
  fits : ∀ (j : ℕ) (c : DirCall), w.calls[j]? = some c → w.Fits j c

/-- The file system below the calls: what one step leaves as it is for the others. -/
structure Extends (w v : IndexDir) (who : Option ℕ) : Prop where
  base : v.base = w.base
  calls : v.calls = w.calls
  uuids : ∀ u ∈ w.uuids, u ∈ v.uuids
  history : ∃ es, v.history = w.history ++ es ∧ ∀ e ∈ es, e.1 = who

theorem Extends.refl (w : IndexDir) (who : Option ℕ) : w.Extends w who :=
  ⟨rfl, rfl, fun _ h => h, [], (List.append_nil _).symm, fun _ h => absurd h List.not_mem_nil⟩

/-- A step leaves a call alone whose inode it does not touch. -/
theorem Fits.frame {who : Option ℕ} (h : w.Fits j c) (hv : w.Extends v who) {calls : List DirCall}
    (hinode : ∀ inode, c.phase.inode = some inode → v.inodes[inode]? = w.inodes[inode]? ∧
      ∀ k, Writer { v with calls } inode k → w.Writer inode k)
    (hfiles : ∀ temp inode rest, c.phase = .writing temp inode rest →
      (∀ f ∈ w.files.rows, f.2 = inode ↔ f.1 = temp) →
        ∀ f ∈ v.files.rows, f.2 = inode ↔ f.1 = temp) : Fits { v with calls } j c := by
  obtain ⟨es, hes, -⟩ := hv.history
  obtain ⟨call, since, phase⟩ := c
  have hlater : ∀ a, History.Linearized w.base w.history (some j) since call a →
      History.Linearized v.base v.history (some j) since call a := by
    intro a ha
    rw [hv.base, hes]
    exact ha.append es
  cases phase with
  | writing temp inode rest =>
      obtain ⟨d, data, uuid, b, hcall, htemp, huuid, hb, hdata, hlinks, hown⟩ := h
      obtain ⟨hsame, hwriters⟩ := hinode inode rfl
      exact ⟨d, data, uuid, b, hcall, htemp, hv.uuids _ huuid, hsame.trans hb, hdata,
        hfiles temp inode rest rfl hlinks, fun k hk => hown k (hwriters k hk)⟩
  | reading inode got =>
      obtain ⟨d, b, hcall, hb, hgot, hsince, hquiet⟩ := h
      obtain ⟨hsame, hwriters⟩ := hinode inode rfl
      refine ⟨d, b, hcall, hsame.trans hb, hgot, ?_, fun k hk => hquiet k (hwriters k hk)⟩
      rw [hv.base, hes]
      exact hsince.append es
  | done a => exact hlater a h
  | answered answer =>
      cases answer with
      | error e => trivial
      | ok a => exact hlater a h
  | overlooked a => exact h
  | dead did =>
      cases did with
      | none => trivial
      | some a => exact hlater a h
  | _ => trivial

theorem Fits.linearized (h : w.Fits j c) {a : MapAnswer Bytes} (ha : c.outcome = some a) :
    History.Linearized w.base w.history (some j) c.since c.call a := by
  obtain ⟨call, since, phase⟩ := c
  cases phase with
  | done a' =>
      cases ha
      exact h
  | answered answer =>
      cases answer with
      | error e => cases ha
      | ok a' =>
          cases ha
          exact h
  | dead did =>
      cases did with
      | none => cases ha
      | some a' =>
          cases ha
          exact h
  | _ => cases ha

/-- The inode of a call is there, and no other call writes to it. -/
theorem Sound.inode (hw : w.Sound) (hc : w.calls[j]? = some c) {inode : ℕ}
    (h : c.phase.inode = some inode) :
    inode < w.inodes.length ∧ ∀ k, w.Writer inode k → k = j := by
  have hfits := hw.fits j c hc
  obtain ⟨call, since, phase⟩ := c
  cases phase with
  | writing temp inode' rest =>
      obtain rfl := Option.some.inj h
      obtain ⟨d, data, uuid, b, -, -, -, hb, -, -, hown⟩ := hfits
      exact ⟨(List.getElem?_eq_some_iff.mp hb).1, hown⟩
  | reading inode' got =>
      obtain rfl := Option.some.inj h
      obtain ⟨d, b, -, hb, -, -, hquiet⟩ := hfits
      exact ⟨(List.getElem?_eq_some_iff.mp hb).1, fun k hk => absurd hk (hquiet k)⟩
  | _ => cases h

/-- Who writes after a call moved on. -/
theorem writer_enter {phase : DirPhase} {inode k : ℕ} (hc : v.calls[i]? = some c)
    (h : (v.enter i c phase).Writer inode k) :
    (k ≠ i ∧ v.Writer inode k) ∨ (k = i ∧ ∃ temp rest, phase = .writing temp inode rest) := by
  obtain ⟨c', temp, rest, hget, hphase⟩ := h
  obtain ⟨hi, -⟩ := List.getElem?_eq_some_iff.mp hc
  by_cases hk : k = i
  · subst hk
    rw [enter, List.getElem?_set_self hi] at hget
    cases hget
    exact Or.inr ⟨rfl, temp, rest, hphase⟩
  · rw [enter, List.getElem?_set_ne (Ne.symm hk)] at hget
    exact Or.inl ⟨hk, c', temp, rest, hget, hphase⟩

/-- What happened outside a call is none of its events. -/
theorem filter_of_others {es : List (Option ℕ × MapEvent Digest Bytes)} {who : Option ℕ}
    (hwho : ∀ e ∈ es, e.1 = who) (hne : who ≠ some j) :
    es.filter (fun e => e.1 = some j) = [] := by
  refine List.filter_eq_nil_iff.mpr fun e he => ?_
  rw [decide_eq_true_eq, hwho e he]
  exact hne

/-- A call moves on, with what its system call does to the files. -/
theorem Sound.enter (hw : w.Sound) (hc : w.calls[i]? = some c) (hv : w.Extends v (some i))
    (hstored : v.Stored) (phase : DirPhase)
    (hevents : v.history.filter (fun e => e.1 = some i) =
      (DirCall.effect { c with phase }).toList.map fun e => (some i, e))
    (hfits : (v.enter i c phase).Fits i { c with phase })
    (hothers : ∀ j c', j ≠ i → w.calls[j]? = some c' →
      (∀ inode, c'.phase.inode = some inode → v.inodes[inode]? = w.inodes[inode]? ∧
        ∀ temp rest, phase ≠ .writing temp inode rest) ∧
      ∀ temp inode rest, c'.phase = .writing temp inode rest →
        (∀ f ∈ w.files.rows, f.2 = inode ↔ f.1 = temp) →
          ∀ f ∈ v.files.rows, f.2 = inode ↔ f.1 = temp) : (v.enter i c phase).Sound := by
  obtain ⟨hi, -⟩ := List.getElem?_eq_some_iff.mp hc
  have hcv : v.calls[i]? = some c := by rw [hv.calls, hc]
  obtain ⟨es, hes, hwho⟩ := hv.history
  have hget : ∀ j c', (v.enter i c phase).calls[j]? = some c' →
      (j = i ∧ c' = { c with phase }) ∨ (j ≠ i ∧ w.calls[j]? = some c') := by
    intro j c' h
    by_cases hj : j = i
    · subst hj
      rw [IndexDir.enter, List.getElem?_set_self (hv.calls ▸ hi)] at h
      exact Or.inl ⟨rfl, (Option.some.inj h).symm⟩
    · rw [IndexDir.enter, List.getElem?_set_ne (Ne.symm hj), hv.calls] at h
      exact Or.inr ⟨hj, h⟩
  refine ⟨⟨hstored.linked, hstored.unused, hstored.visible⟩, fun j c' h => ?_, fun j c' h => ?_,
    fun e he j hj => ?_, fun j c' h => ?_⟩
  · show c'.since ≤ v.history.length
    rw [hes, List.length_append]
    rcases hget j c' h with ⟨-, rfl⟩ | ⟨-, h⟩
    · exact (hw.called i c hc).trans (Nat.le_add_right _ _)
    · exact (hw.called j c' h).trans (Nat.le_add_right _ _)
  · rcases hget j c' h with ⟨rfl, rfl⟩ | ⟨hj, h⟩
    · exact hevents
    · show v.history.filter _ = _
      have hne : some i ≠ some j := fun heq => hj (Option.some.inj heq).symm
      rw [hes, List.filter_append, filter_of_others hwho hne, List.append_nil]
      exact hw.events j c' h
  · show j < (v.calls.set i _).length
    rw [List.length_set, hv.calls]
    have he : e ∈ v.history := he
    rw [hes] at he
    rcases List.mem_append.mp he with he | he
    · exact hw.fresh e he j hj
    · rw [hwho e he] at hj
      exact Option.some.inj hj ▸ hi
  · rcases hget j c' h with ⟨rfl, rfl⟩ | ⟨hj, h⟩
    · exact hfits
    · obtain ⟨hinode, hfiles⟩ := hothers j c' hj h
      refine Fits.frame (hw.fits j c' h) hv (fun inode hin => ⟨(hinode inode hin).1, fun k hk => ?_⟩)
        hfiles
      rcases writer_enter hcv hk with ⟨-, hk⟩ | ⟨-, temp, rest, hphase⟩
      · obtain ⟨c'', temp, rest, hk, hphase⟩ := hk
        exact ⟨c'', temp, rest, hv.calls ▸ hk, hphase⟩
      · exact absurd hphase ((hinode inode hin).2 temp rest)

/-- A call moves on without touching the files. -/
theorem Sound.move (hw : w.Sound) (hc : w.calls[i]? = some c) {phase : DirPhase}
    (hplain : ∀ temp inode rest, phase ≠ .writing temp inode rest)
    (heffect : DirCall.effect { c with phase } = c.effect)
    (hfits : (w.enter i c phase).Fits i { c with phase }) : (w.enter i c phase).Sound := by
  refine hw.enter hc (Extends.refl w _) hw.toStored phase ?_ hfits fun j c' hj h => ?_
  · rw [heffect]
    exact hw.events i c hc
  · exact ⟨fun inode _ => ⟨rfl, fun temp rest => hplain temp inode rest⟩, fun _ _ _ _ h => h⟩

/-! ### What the system calls do -/

/-- The content of a file depends on its name and its inode. -/
theorem content_congr {name : Str} (hget : v.files.get name = w.files.get name)
    (hinode : ∀ f, w.files.get name = some f → v.inodes[f.2]? = w.inodes[f.2]?) :
    v.content name = w.content name := by
  rw [content, content, hget]
  cases hf : w.files.get name with
  | none => rfl
  | some f => exact hinode f hf

/-- A system call that no file of a digest is changed by. -/
theorem extends_quiet (who : Option ℕ) (hbase : v.base = w.base) (hcalls : v.calls = w.calls)
    (huuids : w.uuids ⊆ v.uuids) (hhistory : v.history = w.history) : w.Extends v who :=
  ⟨hbase, hcalls, fun _ h => huuids h, [], hhistory.trans (List.append_nil _).symm,
    fun _ h => absurd h List.not_mem_nil⟩

theorem extends_rename (w : IndexDir) (i : ℕ) (d : Digest) (data : Bytes) (temp : Str)
    (inode : ℕ) : w.Extends (w.rename i d data temp inode) (some i) :=
  ⟨rfl, rfl, fun _ h => h, _, rfl, fun e he => by rw [List.mem_singleton.mp he]⟩

theorem extends_unlink (w : IndexDir) (who : Option ℕ) (d : Digest) :
    w.Extends (w.unlink who d) who :=
  ⟨rfl, rfl, fun _ h => h, _, rfl, fun e he => by rw [List.mem_singleton.mp he]⟩

theorem get_create (w : IndexDir) (d : Digest) (uuid : Uuid) (name : Str) :
    (w.create d uuid).files.get name =
      if tempName d.fileName uuid = name then some (tempName d.fileName uuid, w.inodes.length)
      else w.files.get name := by
  simp only [create, Table.get_put]

theorem get_rename (w : IndexDir) (i : ℕ) (d : Digest) (data : Bytes) (temp : Str) (inode : ℕ)
    (name : Str) : (w.rename i d data temp inode).files.get name =
      if d.fileName = name then some (d.fileName, inode)
      else if temp = name then none else w.files.get name := by
  simp only [rename, Table.get_put, Table.get_erase]

theorem get_unlink (w : IndexDir) (who : Option ℕ) (d : Digest) (name : Str) :
    (w.unlink who d).files.get name =
      if d.fileName = name then none else w.files.get name := by
  simp only [unlink, Table.get_erase]

theorem Stored.create (hw : w.Stored) (d : Digest) (uuid : Uuid) : (w.create d uuid).Stored where
  linked f hf := by
    have hlength : (w.create d uuid).inodes.length = w.inodes.length + 1 := by simp [IndexDir.create]
    rcases Table.mem_put.mp hf with rfl | ⟨hf, -⟩
    · exact hlength ▸ Nat.lt_succ_self _
    · exact hlength ▸ (hw.linked f hf).trans (Nat.lt_succ_self _)
  unused name u hu := by
    obtain ⟨hne, hu⟩ := not_or.mp (mt List.mem_cons.mpr hu)
    rw [get_create, if_neg fun h => hne (tempName_uuid h).symm]
    exact hw.unused name u hu
  visible e := by
    have hsame : (w.create d uuid).content e.fileName = w.content e.fileName := by
      refine content_congr ?_ fun f hf => ?_
      · rw [get_create, if_neg (tempName_ne _ _ e)]
      · exact List.getElem?_append_left (hw.linked f (Table.mem_of_get hf))
    exact hsame.trans (hw.visible e)

theorem Stored.append (hw : w.Stored) {inode : ℕ} {temp : Str} (bytes : Bytes)
    (htemp : ∀ d : Digest, temp ≠ d.fileName)
    (hlinks : ∀ f ∈ w.files.rows, f.2 = inode ↔ f.1 = temp) : (w.append inode bytes).Stored where
  linked f hf := by
    have hlength : (w.append inode bytes).inodes.length = w.inodes.length :=
      List.length_modify _ _ _
    exact hlength ▸ hw.linked f hf
  unused := hw.unused
  visible d := by
    have hsame : (w.append inode bytes).content d.fileName = w.content d.fileName := by
      refine content_congr rfl fun f hf => ?_
      have hne : inode ≠ f.2 := fun h =>
        htemp d (((hlinks f (Table.mem_of_get hf)).mp h.symm).symm.trans (Table.key_of_get hf))
      exact List.getElem?_modify_ne _ _ hne
    exact hsame.trans (hw.visible d)

theorem Stored.rename (hw : w.Stored) {inode : ℕ} {temp : Str} {d : Digest} {data : Bytes}
    (htemp : ∀ d : Digest, temp ≠ d.fileName) (hinode : w.inodes[inode]? = some data) :
    (w.rename i d data temp inode).Stored where
  linked f hf := by
    rcases Table.mem_put.mp hf with rfl | ⟨hf, -⟩
    · exact (List.getElem?_eq_some_iff.mp hinode).1
    · exact hw.linked f (Table.mem_erase.mp hf).1
  unused name u hu := by
    have hold : w.files.get (tempName name u) = none := hw.unused name u hu
    rw [get_rename, if_neg fun h => tempName_ne name u d h.symm, hold, ite_self]
  visible e := by
    show _ = History.after w.base (w.history ++ [(some i, MapEvent.put d data)]) e
    rw [History.after_put, Function.update_apply]
    by_cases he : e = d
    · rw [if_pos he, he, content, get_rename, if_pos rfl]
      exact hinode
    · rw [if_neg he, ← hw.visible e]
      refine content_congr ?_ fun f _ => rfl
      rw [get_rename, if_neg fun h => he (Digest.fileName_injective h).symm, if_neg (htemp e)]

theorem Stored.unlink (hw : w.Stored) (who : Option ℕ) (d : Digest) : (w.unlink who d).Stored where
  linked f hf := hw.linked f (Table.mem_erase.mp hf).1
  unused name u hu := by
    have hold : w.files.get (tempName name u) = none := hw.unused name u hu
    rw [get_unlink, hold, ite_self]
  visible e := by
    show _ = History.after w.base (w.history ++ [(who, MapEvent.erase d)]) e
    rw [History.after_erase, Function.update_apply]
    by_cases he : e = d
    · rw [if_pos he, he, content, get_unlink, if_pos rfl]
      rfl
    · rw [if_neg he, ← hw.visible e]
      refine content_congr ?_ fun f _ => rfl
      rw [get_unlink, if_neg fun h => he (Digest.fileName_injective h).symm]

/-! ### The steps of the calls -/

theorem Sound.present (hw : w.Sound) (b : Bool) : Sound { w with present := b } :=
  ⟨⟨hw.linked, hw.unused, hw.visible⟩, hw.called, hw.events, hw.fresh, hw.fits⟩

/-- The value of a digest is the content of its file. -/
theorem Sound.value (hw : w.Sound) (d : Digest) :
    (w.files.has d.fileName = false → History.after w.base w.history d = none) ∧
    ∀ f, w.files.get d.fileName = some f → ∃ b, w.inodes[f.2]? = some b ∧
      History.after w.base w.history d = some b := by
  rw [← hw.visible d, content]
  refine ⟨fun h => ?_, fun f hf => ?_⟩
  · rw [Table.has_eq_false_iff.mp h]
    rfl
  · have hlt := hw.linked f (Table.mem_of_get hf)
    have hb := List.getElem?_eq_getElem hlt
    exact ⟨_, hb, by rw [hf, Option.bind_some, hb]⟩

/-- A call that wrote to an inode before another call of the same directory wrote nothing to it. -/
theorem Sound.inode_ne (hw : w.Sound) (hc : w.calls[i]? = some c) {temp : Str} {inode : ℕ}
    {rest : Bytes} (hphase : c.phase = .writing temp inode rest) {c' : DirCall} (hj : j ≠ i)
    (hc' : w.calls[j]? = some c') {inode' : ℕ} (h : c'.phase.inode = some inode') :
    inode ≠ inode' := by
  rintro rfl
  exact hj ((hw.inode hc' h).2 i ⟨c, temp, rest, hc, hphase⟩).symm

theorem Sound.temp_ne (hw : w.Sound) {c' : DirCall} (hc' : w.calls[j]? = some c') {temp : Str}
    {inode : ℕ} {rest : Bytes} (hphase : c'.phase = .writing temp inode rest) :
    (∃ name uuid, temp = tempName name uuid ∧ uuid ∈ w.uuids) ∧ ∀ d : Digest, temp ≠ d.fileName := by
  have hfits := hw.fits j c' hc'
  obtain ⟨call, since, phase⟩ := c'
  subst hphase
  obtain ⟨d, data, uuid, b, -, rfl, huuid, -⟩ := hfits
  exact ⟨⟨_, _, rfl, huuid⟩, fun e => tempName_ne _ _ e⟩

variable {d : Digest} {data : Bytes} {since : ℕ} {uuid : Uuid} {temp : Str} {inode : ℕ}
  {rest : Bytes}

/-- A write creates its temporary file. -/
theorem Sound.creates (hw : w.Sound) (hc : w.calls[i]? = some ⟨.put d data, since, .made⟩)
    (hfresh : uuid ∉ w.uuids) :
    ((w.create d uuid).enter i ⟨.put d data, since, .made⟩
      (.writing (tempName d.fileName uuid) w.inodes.length data)).Sound := by
  have hevents := hw.events i _ hc
  refine hw.enter hc ?_ (hw.create d uuid) _ hevents ?_ fun j c' hj hc' => ⟨?_, ?_⟩
  · exact extends_quiet _ rfl rfl (List.subset_cons_self _ _) rfl
  · refine ⟨d, data, uuid, [], rfl, rfl, List.mem_cons_self, List.getElem?_concat_length, rfl,
      fun f hf => ?_, fun k hk => ?_⟩
    · rcases Table.mem_put.mp hf with rfl | ⟨hf, hne⟩
      · exact iff_of_true rfl rfl
      · exact iff_of_false (Nat.ne_of_lt (hw.linked f hf)) hne
    · rcases writer_enter (v := w.create d uuid) hc hk with ⟨-, c', temp, rest, hk, hphase⟩ | ⟨hk, -⟩
      · exact absurd (hw.inode hk (by rw [hphase]; rfl)).1 (Nat.lt_irrefl _)
      · exact hk
  · intro inode hin
    have hlt := (hw.inode hc' hin).1
    refine ⟨List.getElem?_append_left hlt, fun temp rest h => ?_⟩
    cases h
    exact absurd hlt (Nat.lt_irrefl _)
  · -- the name is new, so it is not that of another call's file
    intro temp inode rest hphase hlinks f hf
    rcases Table.mem_put.mp hf with rfl | ⟨hf, -⟩
    · obtain ⟨⟨name, uuid', rfl, huuid⟩, -⟩ := hw.temp_ne hc' hphase
      have hlt := (hw.inode hc' (by rw [hphase]; rfl)).1
      refine iff_of_false (Nat.ne_of_gt hlt) fun h => hfresh ?_
      rw [tempName_uuid h]
      exact huuid
    · exact hlinks f hf

/-- It writes the next bytes to it. -/
theorem Sound.appends (hw : w.Sound)
    (hc : w.calls[i]? = some ⟨.put d data, since, .writing temp inode rest⟩) (n : ℕ) :
    ((w.append inode (rest.take n)).enter i ⟨.put d data, since, .writing temp inode rest⟩
      (.writing temp inode (rest.drop n))).Sound := by
  obtain ⟨d', data', uuid, b, heq, htemp, huuid, hb, hdata, hlinks, hown⟩ := hw.fits i _ hc
  cases heq
  have hstored := hw.toStored.append (rest.take n) (hw.temp_ne hc rfl).2 hlinks
  have hevents := hw.events i _ hc
  refine hw.enter hc ?_ hstored _ hevents ?_ fun j c' hj hc' => ⟨?_, ?_⟩
  · exact extends_quiet _ rfl rfl (List.Subset.refl _) rfl
  · refine ⟨d, data, uuid, b ++ rest.take n, rfl, htemp, huuid, ?_, ?_, hlinks, fun k hk => ?_⟩
    · show (w.inodes.modify inode (· ++ rest.take n))[inode]? = _
      rw [List.getElem?_modify_eq, hb]
      rfl
    · rw [List.append_assoc, List.take_append_drop, hdata]
    · rcases writer_enter (v := w.append inode (rest.take n)) hc hk with ⟨-, hk⟩ | ⟨hk, -⟩
      · exact hown k hk
      · exact hk
  · intro inode' hin
    have hne := hw.inode_ne hc rfl hj hc' hin
    refine ⟨List.getElem?_modify_ne _ _ hne, fun temp' rest' h => ?_⟩
    cases h
    exact hne rfl
  · exact fun _ _ _ _ h => h

/-- It renames it, and has happened. -/
theorem Sound.renames (hw : w.Sound)
    (hc : w.calls[i]? = some ⟨.put d data, since, .writing temp inode []⟩) {f : Str × ℕ}
    (hf : w.files.get temp = some f) :
    ((w.rename i d data temp f.2).enter i ⟨.put d data, since, .writing temp inode []⟩
      (.done .stored)).Sound := by
  obtain ⟨d', data', uuid, b, heq, htemp, huuid, hb, hdata, hlinks, hown⟩ := hw.fits i _ hc
  cases heq
  rw [List.append_nil] at hdata
  obtain rfl : f.2 = inode := (hlinks f (Table.mem_of_get hf)).mpr (Table.key_of_get hf)
  have hcalled := hw.called i _ hc
  have hstored := hw.toStored.rename (i := i) (d := d) (hw.temp_ne hc rfl).2 (hdata ▸ hb)
  refine hw.enter hc (extends_rename _ _ _ _ _ _) hstored _ ?_ ?_ fun j c' hj hc' => ⟨?_, ?_⟩
  · show (w.history ++ [(some i, MapEvent.put d data)]).filter _ = _
    rw [List.filter_append, hw.events i _ hc]
    simp [DirCall.effect, DirCall.outcome, MapCall.effect]
  · exact History.linearized_event hcalled trivial rfl
  · exact fun inode' _ => ⟨rfl, fun _ _ h => by cases h⟩
  · intro temp' inode' rest' hphase hlinks' f' hf'
    rcases Table.mem_put.mp hf' with rfl | ⟨hf', -⟩
    · refine iff_of_false ?_ fun h => (hw.temp_ne hc' hphase).2 d h.symm
      exact hw.inode_ne hc rfl hj hc' (by rw [hphase]; rfl)
    · exact hlinks' f' (Table.mem_erase.mp hf').1

/-- A removal unlinks its file, and has happened. -/
theorem Sound.unlinks (hw : w.Sound) (hc : w.calls[i]? = some ⟨.remove d, since, .found⟩)
    (hhas : w.files.has d.fileName = true) :
    ((w.unlink (some i) d).enter i ⟨.remove d, since, .found⟩ (.done (.removed true))).Sound := by
  obtain ⟨f, hf⟩ := Table.has_iff.mp hhas
  obtain ⟨b, -, hvalue⟩ := (hw.value d).2 f hf
  have hcalled := hw.called i _ hc
  refine hw.enter hc (extends_unlink _ _ _) (hw.unlink _ d) _ ?_ ?_ fun j c' hj hc' => ⟨?_, ?_⟩
  · show (w.history ++ [(some i, MapEvent.erase d)]).filter _ = _
    rw [List.filter_append, hw.events i _ hc]
    simp [DirCall.effect, DirCall.outcome, MapCall.effect]
  · refine History.linearized_event hcalled ?_ rfl
    show (History.after w.base w.history d).isSome = true
    rw [hvalue]
    rfl
  · exact fun inode' _ => ⟨rfl, fun _ _ h => by cases h⟩
  · exact fun temp' inode' rest' _ hlinks f' hf' => hlinks f' (Table.mem_erase.mp hf').1

theorem sound_advancePut (hw : w.Sound) (hc : w.calls[i]? = some c) (hcall : c.call = .put d data)
    {n : ℕ} (hstep : w.advancePut i c d data uuid n = some v) : v.Sound := by
  have hfits := hw.fits i _ hc
  obtain ⟨call, since, phase⟩ := c
  cases hcall
  cases phase with
  | entered =>
      cases hstep
      exact (hw.present true).move hc (fun _ _ _ h => by cases h) rfl trivial
  | made =>
      simp only [advancePut] at hstep
      split at hstep
      · cases hstep
      · rename_i hfresh
        split at hstep
        · cases hstep
          exact hw.creates hc hfresh
        · cases hstep
          exact hw.move hc (fun _ _ _ h => by cases h) rfl trivial
  | writing temp inode rest =>
      simp only [advancePut] at hstep
      split at hstep
      · rename_i hrest
        subst hrest
        split at hstep
        · rename_i f hf
          cases hstep
          exact hw.renames hc hf
        · cases hstep
          exact hw.move hc (fun _ _ _ h => by cases h) rfl trivial
      · split at hstep
        · cases hstep
        · cases hstep
          exact hw.appends hc n
  | done a =>
      cases hstep
      exact hw.move hc (fun _ _ _ h => by cases h) rfl hfits
  | _ => cases hstep

theorem sound_advanceGet (hw : w.Sound) (hc : w.calls[i]? = some c) {d : Digest}
    (hcall : c.call = .get d) {n : ℕ} (hstep : w.advanceGet i c d n = some v) : v.Sound := by
  obtain ⟨call, since, phase⟩ := c
  cases hcall
  have hfits := hw.fits i _ hc
  have hcalled := hw.called i _ hc
  cases phase with
  | entered =>
      simp only [advanceGet] at hstep
      split at hstep
      · cases hstep
        exact hw.move hc (fun _ _ _ h => by cases h) rfl trivial
      · rename_i hnone
        cases hstep
        refine hw.move hc (fun _ _ _ h => by cases h) rfl ?_
        have hnow : History.Since w.base w.history since d (History.after w.base w.history d) :=
          History.since_now hcalled
        rw [(hw.value d).1 (Bool.eq_false_of_not_eq_true hnone)] at hnow
        exact hnow.linearized
  | found =>
      simp only [advanceGet] at hstep
      split at hstep
      · rename_i f hf
        cases hstep
        obtain ⟨b, hb, hvalue⟩ := (hw.value d).2 f hf
        refine hw.move hc (fun _ _ _ h => by cases h) rfl
          ⟨d, b, rfl, hb, List.nil_prefix, hvalue ▸ History.since_now hcalled, fun k hk => ?_⟩
        rcases writer_enter hc hk with ⟨-, hk⟩ | ⟨-, temp, rest, hphase⟩
        · -- a file of a digest is nobody's temporary file
          obtain ⟨c', temp, rest, hk, hphase⟩ := hk
          have hname := (hw.temp_ne hk hphase).2 d
          have hfits' := hw.fits k c' hk
          obtain ⟨call', since', phase'⟩ := c'
          subst hphase
          obtain ⟨-, -, -, -, -, -, -, -, -, hlinks, -⟩ := hfits'
          exact hname (((hlinks f (Table.mem_of_get hf)).mp rfl).symm.trans (Table.key_of_get hf))
        · cases hphase
      · cases hstep
        exact hw.move hc (fun _ _ _ h => by cases h) rfl trivial
  | reading inode got =>
      obtain ⟨d', b, heq, hb, hgot, hsince, hquiet⟩ := hfits
      cases heq
      simp only [advanceGet, hb, Option.getD_some] at hstep
      split at hstep
      · rename_i hlength
        cases hstep
        obtain rfl := hgot.eq_of_length_le hlength
        exact hw.move hc (fun _ _ _ h => by cases h) rfl hsince.linearized
      · split at hstep
        · cases hstep
        · cases hstep
          refine hw.move hc (fun _ _ _ h => by cases h) rfl
            ⟨d, b, rfl, hb, List.take_prefix _ _, hsince, fun k hk => ?_⟩
          rcases writer_enter hc hk with ⟨-, hk⟩ | ⟨-, temp, rest, hphase⟩
          · exact hquiet k hk
          · cases hphase
  | _ => cases hstep

theorem sound_advanceRemove (hw : w.Sound) (hc : w.calls[i]? = some c) {d : Digest}
    (hcall : c.call = .remove d) (hstep : w.advanceRemove i c d = some v) : v.Sound := by
  obtain ⟨call, since, phase⟩ := c
  cases hcall
  have hfits := hw.fits i _ hc
  have hcalled := hw.called i _ hc
  cases phase with
  | entered =>
      simp only [advanceRemove] at hstep
      split at hstep
      · cases hstep
        exact hw.move hc (fun _ _ _ h => by cases h) rfl trivial
      · rename_i hnone
        cases hstep
        refine hw.move hc (fun _ _ _ h => by cases h) rfl ?_
        refine ⟨w.history.length, hcalled, Nat.le_refl _, ?_, fun e he => by cases he⟩
        show (History.after w.base (w.history.take w.history.length) d).isSome = false
        rw [List.take_length, (hw.value d).1 (Bool.eq_false_of_not_eq_true hnone)]
        rfl
  | found =>
      simp only [advanceRemove] at hstep
      split at hstep
      · rename_i hhas
        cases hstep
        exact hw.unlinks hc hhas
      · cases hstep
        exact hw.move hc (fun _ _ _ h => by cases h) rfl trivial
  | done a =>
      cases hstep
      exact hw.move hc (fun _ _ _ h => by cases h) rfl hfits
  | _ => cases hstep

/-! ### Collecting garbage, and the start -/

/-- A step of no call. -/
theorem Sound.system (hw : w.Sound) (hv : w.Extends v none) (hstored : v.Stored)
    (hinodes : v.inodes = w.inodes) (hfiles : ∀ f ∈ v.files.rows, f ∈ w.files.rows) : v.Sound := by
  obtain ⟨es, hes, hwho⟩ := hv.history
  have hcalls : ∀ (j : ℕ) (c : DirCall), v.calls[j]? = some c → w.calls[j]? = some c :=
    fun j c h => hv.calls ▸ h
  refine ⟨hstored, fun j c h => ?_, fun j c h => ?_, fun e he j hj => ?_, fun j c h => ?_⟩
  · rw [hes, List.length_append]
    exact (hw.called j c (hcalls j c h)).trans (Nat.le_add_right _ _)
  · have hne : none ≠ some j := fun heq => by cases heq
    rw [hes, List.filter_append, filter_of_others hwho hne, List.append_nil]
    exact hw.events j c (hcalls j c h)
  · rw [hes] at he
    rw [hv.calls]
    rcases List.mem_append.mp he with he | he
    · exact hw.fresh e he j hj
    · rw [hwho e he] at hj
      cases hj
  · refine Fits.frame (hw.fits j c (hcalls j c h)) hv (fun inode _ => ⟨by rw [hinodes], fun k hk => ?_⟩)
      fun _ _ _ _ hlinks f hf => hlinks f (hfiles f hf)
    obtain ⟨c', temp, rest, hk, hphase⟩ := hk
    exact ⟨c', temp, rest, hcalls k c' hk, hphase⟩

theorem Stored.unlinkTemp (hw : w.Stored) {name : Str} (hname : name.head? = some '.') :
    Stored { w with files := w.files.erase name } where
  linked f hf := hw.linked f (Table.mem_erase.mp hf).1
  unused name' u hu := by
    have hold : w.files.get (tempName name' u) = none := hw.unused name' u hu
    rw [Table.get_erase, hold, ite_self]
  visible d := by
    have hne : name ≠ d.fileName := fun h => d.head?_fileName (h ▸ hname)
    have hsame : content { w with files := w.files.erase name } d.fileName =
        w.content d.fileName := content_congr (Table.get_erase_of_ne hne) fun _ _ => rfl
    exact hsame.trans (hw.visible d)

/-- A new call has done nothing. -/
theorem Sound.called_now (hw : w.Sound) (call : MapCall Digest Bytes) :
    Sound { w with calls := w.calls ++ [⟨call, w.history.length, .entered⟩] } := by
  have hget : ∀ (j : ℕ) (c : DirCall),
      (w.calls ++ [⟨call, w.history.length, .entered⟩])[j]? = some c →
        w.calls[j]? = some c ∨ (j = w.calls.length ∧ c = ⟨call, w.history.length, .entered⟩) := by
    intro j c h
    rw [List.getElem?_append] at h
    split at h
    · exact Or.inl h
    · obtain ⟨hlt, hc⟩ := List.getElem?_eq_some_iff.mp h
      rw [List.length_singleton] at hlt
      have hj : j - w.calls.length = 0 := by omega
      simp only [hj, List.getElem_cons_zero] at hc
      exact Or.inr ⟨by omega, hc.symm⟩
  refine ⟨⟨hw.linked, hw.unused, hw.visible⟩, fun j c h => ?_, fun j c h => ?_,
    fun e he j hj => ?_, fun j c h => ?_⟩
  · rcases hget j c h with h | ⟨-, rfl⟩
    · exact hw.called j c h
    · exact Nat.le_refl _
  · rcases hget j c h with h | ⟨rfl, rfl⟩
    · exact hw.events j c h
    · refine List.filter_eq_nil_iff.mpr fun e he => ?_
      rw [decide_eq_true_eq]
      exact fun heq => absurd (hw.fresh e he _ heq) (Nat.lt_irrefl _)
  · rw [List.length_append]
    exact (hw.fresh e he j hj).trans_le (Nat.le_add_right _ _)
  · rcases hget j c h with h | ⟨-, rfl⟩
    · refine Fits.frame (hw.fits j c h) (Extends.refl w none) (fun inode _ => ⟨rfl, fun k hk => ?_⟩)
        fun _ _ _ _ hlinks => hlinks
      obtain ⟨c', temp, rest, hk, hphase⟩ := hk
      rcases hget k c' hk with hk | ⟨-, rfl⟩
      · exact ⟨c', temp, rest, hk, hphase⟩
      · cases hphase
    · trivial

/-- A call that can still fail has done nothing. -/
theorem effect_of_fails (h : c.Fails = true) (e : FileError) :
    DirCall.effect { c with phase := .answered (.error e) } = c.effect := by
  obtain ⟨call, since, phase⟩ := c
  cases phase with
  | done a => cases h
  | answered a => cases h
  | overlooked a => cases h
  | dead did => cases h
  | _ => rfl

theorem Sound.step (hw : w.Sound) {a : DirStep} (hstep : w.step a = some v) : v.Sound := by
  cases a with
  | enter call =>
      cases hstep
      exact hw.called_now call
  | advance i uuid n =>
      obtain ⟨c, hc, hstep⟩ := Option.bind_eq_some_iff.mp hstep
      cases hcall : c.call with
      | put d data =>
          rw [hcall] at hstep
          exact sound_advancePut hw hc hcall hstep
      | get d =>
          rw [hcall] at hstep
          exact sound_advanceGet hw hc hcall hstep
      | remove d =>
          rw [hcall] at hstep
          exact sound_advanceRemove hw hc hcall hstep
  | fail i error =>
      obtain ⟨c, hc, hstep⟩ := Option.bind_eq_some_iff.mp hstep
      split at hstep
      · rename_i hfails
        cases hstep
        exact hw.move hc (fun _ _ _ h => by cases h) (effect_of_fails hfails error) trivial
      · cases hstep
  | overlook i =>
      obtain ⟨c, hc, hstep⟩ := Option.bind_eq_some_iff.mp hstep
      split at hstep
      · rename_i hentered
        obtain ⟨a, ha, hv⟩ := Option.map_eq_some_iff.mp hstep
        cases hv
        refine hw.move hc (fun _ _ _ h => by cases h) ?_ ha
        rw [DirCall.effect, DirCall.effect, DirCall.outcome, DirCall.outcome, hentered]
      · cases hstep
  | kill i =>
      obtain ⟨c, hc, hstep⟩ := Option.bind_eq_some_iff.mp hstep
      have hfits := hw.fits i c hc
      obtain ⟨call, since, phase⟩ := c
      cases phase with
      | answered a => cases hstep
      | overlooked a => cases hstep
      | dead did => cases hstep
      | done a =>
          cases hstep
          exact hw.move hc (fun _ _ _ h => by cases h) rfl hfits
      | _ =>
          cases hstep
          exact hw.move hc (fun _ _ _ h => by cases h) rfl trivial
  | unlinkRecord d =>
      simp only [IndexDir.step] at hstep
      split at hstep
      · cases hstep
        exact hw.system (extends_unlink _ _ _) (hw.unlink none d) rfl fun f hf =>
          (Table.mem_erase.mp hf).1
      · cases hstep
  | unlinkTemp name =>
      simp only [IndexDir.step] at hstep
      split at hstep
      · rename_i hname
        cases hstep
        exact hw.system (extends_quiet _ rfl rfl (List.Subset.refl _) rfl)
          (hw.toStored.unlinkTemp hname) rfl fun f hf => (Table.mem_erase.mp hf).1
      · cases hstep
  | rmdir =>
      simp only [IndexDir.step] at hstep
      split at hstep
      · cases hstep
        exact hw.present false
      · cases hstep
        exact hw

theorem sound_start (x : IndexFiles) : (start x).Sound where
  linked := x.linked
  unused := x.unused
  visible _ := rfl
  called _ _ h := by cases h
  events _ _ h := by cases h
  fresh _ h := absurd h List.not_mem_nil
  fits _ _ h := by cases h

/-- The directory is the map of its history: each file is what one write wrote last, each call that
came to its end happened in one moment while it ran, and a call did nothing else. -/
structure Linearizable (w : IndexDir) : Prop where
  files : ∀ d, w.content d.fileName = History.after w.base w.history d
  outcomes : ∀ (i : ℕ) (c : DirCall) (a : MapAnswer Bytes), w.calls[i]? = some c →
    c.outcome = some a → History.Linearized w.base w.history (some i) c.since c.call a
  effects : ∀ (i : ℕ) (c : DirCall), w.calls[i]? = some c →
    w.history.filter (fun e => e.1 = some i) = c.effect.toList.map fun e => (some i, e)
  overlooked : ∀ (i : ℕ) (c : DirCall) (a : MapAnswer Bytes), w.calls[i]? = some c →
    c.phase = .overlooked a → c.call.absent = some a

/-- **Files are written, read and removed as if at once.**  However the system calls of writers,
readers, removers and a garbage collection interleave, wherever they fail and whenever a process is
killed, every file is complete, and the calls that are answered are those of a map, but for those
whose look at a file failed, which are answered that there is none. -/
theorem run_linearizes (x : IndexFiles) (steps : List DirStep) :
    Throughout IndexDir.step Linearizable (start x) steps := by
  have hsound : Throughout IndexDir.step Sound (start x) steps :=
    throughout_of_meets (C := fun _ _ => True) (fun _ _ _ hw _ hstep => hw.step hstep)
      (sound_start x) (meets_of_forall fun _ _ => trivial)
  refine hsound.mono fun w hw => ⟨hw.visible, fun i c a hc ha => ?_, hw.events, fun i c a hc ha => ?_⟩
  · exact (hw.fits i c hc).linearized ha
  · have hfits := hw.fits i c hc
    obtain ⟨call, since, phase⟩ := c
    subst ha
    exact hfits

end IndexDir

namespace Sample

/-- The digest of a blob, and two UUIDs. -/
def entry : Digest := index.digest

/-- The UUID of a temporary file. -/
def uuid : Uuid := ⟨"6b1b36cb-0c3d-4d5e-9a51-2f0a2f6c7d10", by decide +kernel⟩

/-- Another one. -/
def uuid2 : Uuid := ⟨"0e9d1f9a-74a5-4b7c-8a3e-5d1c2b3a4f60", by decide +kernel⟩

/-- A directory with a file, and with the temporary file of a call that was killed. -/
def leftover : IndexFiles where
  files := ⟨[(entry.fileName, 0), (tempName entry.fileName uuid, 1)], by decide +kernel⟩
  inodes := [[1, 2, 3], [4]]
  uuids := [uuid]
  linked := by decide +kernel
  unused name u hu := by
    refine Table.get_eq_none_iff.mpr fun f hf hname => ?_
    rcases List.mem_pair.mp hf with rfl | rfl
    · exact tempName_ne _ _ _ hname.symm
    · exact hu (List.mem_singleton.mpr (tempName_uuid hname).symm)

/-- A file is written in two pieces while it is read; the writer is killed when it has renamed its
file, and the reader reads on.  The temporary file is unlinked, and a removal overlooks the file. -/
def traffic : List DirStep :=
  [.enter (.put entry [7, 8, 9, 10]), .enter (.get entry), .advance 0 uuid 0, .advance 0 uuid2 0,
    .advance 1 uuid 0, .advance 1 uuid 0, .advance 0 uuid 3, .advance 1 uuid 2, .advance 0 uuid 3,
    .advance 0 uuid 0, .kill 0, .advance 1 uuid 2, .advance 1 uuid 0,
    .unlinkTemp (tempName entry.fileName uuid), .enter (.remove entry), .overlook 2]

end Sample

open Sample in
/-- The file is what the killed writer wrote, and the reader has read what was there before. -/
theorem run_linearizes_at : ∃ w, run IndexDir.step (IndexDir.start leftover) traffic = some w ∧
    w.Linearizable ∧ w.content entry.fileName = some [7, 8, 9, 10] ∧
      w.calls.map DirCall.phase = [.dead (some .stored), .answered (.ok (.value (some [1, 2, 3]))),
        .overlooked (.removed false)] := by
  have hrun : (run IndexDir.step (IndexDir.start leftover) traffic).map (fun w =>
      (w.content entry.fileName, w.calls.map DirCall.phase)) =
        some (some [7, 8, 9, 10], [.dead (some .stored),
          .answered (.ok (.value (some [1, 2, 3]))), .overlooked (.removed false)]) := by
    decide +kernel
  obtain ⟨w, hw, heq⟩ := Option.map_eq_some_iff.mp hrun
  obtain ⟨hcontent, hphases⟩ := Prod.mk.inj heq
  exact ⟨w, hw, last_of_throughout (IndexDir.run_linearizes leftover traffic) hw, hcontent, hphases⟩

end Ocid
