import Ocid.Core.Release
import Ocid.Lib.Calls
import Ocid.Lib.Table

/-!
# Daemon — Store — the index and the blob store

A `Store` is what the daemon keeps on disk: the release records, the index from digests to
`BlobRef`s, the referrer records, the `blob:<sha256>` pins, and the content of the blobs.  Each is
a table keyed by what its entries say of themselves, so a record sits under its own reference and
content under its own BLAKE3 hash.

Everything that changes a store is a `Write`, and an operation of the daemon is an `Op`: a call
that reads a store and makes writes.  The disk may fail, or the process stop, between any two
writes: that is `Call.cut`, applied where an operation is run.
-/

namespace Ocid

variable [External]

/-- A referrer record is kept by its subject and its own digest. -/
def referrerKey (p : Digest × Referrer) : Digest × Digest := (p.1, p.2.digest)

/-- A named tag is kept by its digest. -/
def pinKey (p : Digest × Blake3) : Digest := p.1

/-- What a node keeps: the files of its index, and its blob store. -/
structure Store where
  releases : Table Release.ref
  /-- The index entries: sha256 -> `BlobRef`. -/
  digests : Table BlobRef.digest
  referrers : Table referrerKey
  /-- The named tags `blob:<sha256>` of the blob store. -/
  pins : Table pinKey
  /-- The content of the blobs, by BLAKE3 hash. -/
  blobs : Table External.blake3

/-- The store of a new node. -/
def Store.empty : Store := ⟨.empty, .empty, .empty, .empty, .empty⟩

/-- One change of the store. -/
inductive Write where
  /-- Add content to the blob store. -/
  | data (c : Bytes)
  /-- The blob store deletes content. -/
  | dropData (h : Blake3)
  /-- Set the tag `blob:<d>` to `h`. -/
  | tag (d : Digest) (h : Blake3)
  | untag (d : Digest)
  /-- Write an index entry. -/
  | blobRef (r : BlobRef)
  | dropBlobRef (d : Digest)
  /-- Write a release record. -/
  | release (r : Release)
  | dropRelease (r : Ref)
  /-- Write a referrer record. -/
  | referrer (subject : Digest) (r : Referrer)
  | dropReferrer (subject d : Digest)
deriving DecidableEq

/-- The store after one change. -/
def Store.apply (s : Store) : Write → Store
  | .data c => { s with blobs := s.blobs.put c }
  | .dropData h => { s with blobs := s.blobs.erase h }
  | .tag d h => { s with pins := s.pins.put (d, h) }
  | .untag d => { s with pins := s.pins.erase d }
  | .blobRef r => { s with digests := s.digests.put r }
  | .dropBlobRef d => { s with digests := s.digests.erase d }
  | .release r => { s with releases := s.releases.put r }
  | .dropRelease r => { s with releases := s.releases.erase r }
  | .referrer subject r => { s with referrers := s.referrers.put (subject, r) }
  | .dropReferrer subject d => { s with referrers := s.referrers.erase (subject, d) }

instance : Journalled Store Write := ⟨Store.apply⟩

/-- The five parts of a store. -/
inductive Part where
  | releases
  | digests
  | referrers
  | pins
  | blobs
deriving DecidableEq

/-- The part a write changes. -/
def Write.part : Write → Part
  | .data _ | .dropData _ => .blobs
  | .tag _ _ | .untag _ => .pins
  | .blobRef _ | .dropBlobRef _ => .digests
  | .release _ | .dropRelease _ => .releases
  | .referrer _ _ | .dropReferrer _ _ => .referrers

/-- An operation of the daemon on its store. -/
abbrev Op (α : Type) : Type := Call Store Write Err α

open Call

/-! ### What a call leaves unchanged -/

namespace Store

theorem releases_apply {s : Store} {w : Write} (h : w.part ≠ .releases) :
    (s.apply w).releases = s.releases := by
  cases w <;> first | rfl | exact absurd rfl h

theorem digests_apply {s : Store} {w : Write} (h : w.part ≠ .digests) :
    (s.apply w).digests = s.digests := by
  cases w <;> first | rfl | exact absurd rfl h

theorem referrers_apply {s : Store} {w : Write} (h : w.part ≠ .referrers) :
    (s.apply w).referrers = s.referrers := by
  cases w <;> first | rfl | exact absurd rfl h

theorem pins_apply {s : Store} {w : Write} (h : w.part ≠ .pins) : (s.apply w).pins = s.pins := by
  cases w <;> first | rfl | exact absurd rfl h

theorem blobs_apply {s : Store} {w : Write} (h : w.part ≠ .blobs) :
    (s.apply w).blobs = s.blobs := by
  cases w <;> first | rfl | exact absurd rfl h

end Store

section
variable {α : Type} {m : Op α} {s : Store}

theorem releases_final (h : Emits (fun w : Write => w.part ≠ .releases) m) :
    (m.final s).releases = s.releases :=
  h.keeps (I := fun t => t.releases = s.releases) (fun _ _ hw ht => (Store.releases_apply hw).trans ht)
    rfl

theorem digests_final (h : Emits (fun w : Write => w.part ≠ .digests) m) :
    (m.final s).digests = s.digests :=
  h.keeps (I := fun t => t.digests = s.digests) (fun _ _ hw ht => (Store.digests_apply hw).trans ht)
    rfl

theorem pins_final (h : Emits (fun w : Write => w.part ≠ .pins) m) : (m.final s).pins = s.pins :=
  h.keeps (I := fun t => t.pins = s.pins) (fun _ _ hw ht => (Store.pins_apply hw).trans ht) rfl

theorem referrers_final (h : Emits (fun w : Write => w.part ≠ .referrers) m) :
    (m.final s).referrers = s.referrers :=
  h.keeps (I := fun t => t.referrers = s.referrers)
    (fun _ _ hw ht => (Store.referrers_apply hw).trans ht) rfl

theorem blobs_final (h : Emits (fun w : Write => w.part ≠ .blobs) m) :
    (m.final s).blobs = s.blobs :=
  h.keeps (I := fun t => t.blobs = s.blobs) (fun _ _ hw ht => (Store.blobs_apply hw).trans ht) rfl

end

/-! ### Reading the store -/

namespace Store

/-- The content of a hash is held. -/
def hasHash (s : Store) (h : Blake3) : Bool := s.blobs.has h

/-- The index entry of a digest. -/
def blobRef (s : Store) (d : Digest) : Option BlobRef := s.digests.get d

/-- True if the manifest and every blob of the release are present. -/
def isComplete (s : Store) (r : Release) : Bool := r.allBlobs.all fun b => s.hasHash b.hash

/-- Every indexed blob. -/
def listBlobRefs (s : Store) : List BlobRef := s.digests.rows

/-- All `blob:<sha256>` pins. -/
def listPins (s : Store) : List (Digest × Blake3) := s.pins.rows

/-- All releases we hold, sorted by reference. -/
def listReleases (s : Store) : List Release :=
  s.releases.rows.insertionSort fun a b => a.reference ≤ b.reference

/-- The records of one subject, sorted by digest. -/
def listReferrers (s : Store) (subject : Digest) : List Referrer :=
  ((s.referrers.rows.filter fun p => p.1 = subject).map Prod.snd).insertionSort
    fun a b => a.digest.str ≤ b.digest.str

theorem mem_listReleases {s : Store} {r : Release} :
    r ∈ s.listReleases ↔ s.releases.get r.ref = some r := by
  rw [listReleases, List.mem_insertionSort]
  exact ⟨fun h => Table.get_of_mem h, fun h => Table.mem_of_get h⟩

end Store

/-! ### The index -/

/-- The path of a release record, by its components, when the name and the tag are valid. -/
def releasePath (publisher : PublisherId) (name tag : Str) : Except Err Ref := do
  validateTag tag
  validateName name
  pure ⟨publisher, name, tag⟩

/-- The record of a reference, if one is held. -/
def getRelease (publisher : PublisherId) (name tag : Str) : Op (Option Release) := do
  let p ← ofExcept (releasePath publisher name tag)
  let s ← read
  pure (s.releases.get p)

/-- Record a referrer of a manifest. -/
def putReferrer (subject : Digest) (r : Referrer) : Op Unit := write (.referrer subject r)

/-- Write a referrer record for each of `rs`, in order. -/
def putReferrers (subject : Digest) : List Referrer → Op Unit
  | [] => pure ()
  | r :: rs => do
      putReferrer subject r
      putReferrers subject rs

/-- Store a release if it is new or supersedes the existing one.  Returns `true` if written.

On disk it also fails where the file of another record is a directory of this one's, or the other way
round: that is `Index.putRelease`, which does the same as this one everywhere else. -/
def putRelease (release : Release) : Op Bool := do
  let p := release.payload
  match ← getRelease p.publisher p.name p.tag with
  | some existing =>
      if !release.supersedes existing then pure false
      else do
        write (.release release)
        putReferrers p.manifest.digest p.referrers
        pure true
  | none => do
      write (.release release)
      putReferrers p.manifest.digest p.referrers
      pure true

/-- Remove a record; says whether there was one. -/
def removeRelease (publisher : PublisherId) (name tag : Str) : Op Bool := do
  let p ← ofExcept (releasePath publisher name tag)
  let s ← read
  if s.releases.has p then do
    write (.dropRelease p)
    pure true
  else pure false

/-- The tags of the releases held of one image, sorted. -/
def listTags (publisher : PublisherId) (name : Str) : Op (List Str) := do
  ofExcept (validateName name)
  let s ← read
  let tags := (s.releases.rows.filter fun r => r.publisher = publisher ∧ r.name = name).map
    fun r => r.payload.tag
  pure (tags.insertionSort (· ≤ ·))

/-! ### What `putRelease` does -/

omit [External] in
theorem releasePath_eq_ok {publisher : PublisherId} {name tag : Str} {p : Ref} :
    releasePath publisher name tag = .ok p ↔
      validateTag tag = .ok () ∧ validateName name = .ok () ∧ p = ⟨publisher, name, tag⟩ := by
  simp only [releasePath, bind, Except.bind, pure, Except.pure]
  cases validateTag tag with
  | error e => simp
  | ok u =>
      cases validateName name with
      | error e => simp
      | ok u' => simp [eq_comm]

theorem getRelease_apply {publisher : PublisherId} {name tag : Str} {p : Ref}
    (h : releasePath publisher name tag = .ok p) (s : Store) :
    getRelease publisher name tag s = ([], .ok (s.releases.get p)) := by
  rw [getRelease, h]
  rfl

theorem getRelease_apply_error {publisher : PublisherId} {name tag : Str} {e : Err}
    (h : releasePath publisher name tag = .error e) (s : Store) :
    getRelease publisher name tag s = ([], .error e) := by
  rw [getRelease, h]
  rfl

/-- The writes of `putReferrers`. -/
theorem putReferrers_apply (subject : Digest) (rs : List Referrer) (s : Store) :
    putReferrers subject rs s = (rs.map (Write.referrer subject), .ok ()) := by
  induction rs generalizing s with
  | nil => rfl
  | cons r rs ih =>
      rw [putReferrers, putReferrer, write_bind_apply, ih]
      rfl

/-- `rel` would be stored: there is no record under its reference, or one it supersedes. -/
def Store.accepts (s : Store) (rel : Release) : Bool :=
  (s.releases.get rel.ref).all fun existing => rel.supersedes existing

/-- The writes that store a release. -/
def releaseWrites (rel : Release) : List Write :=
  .release rel :: rel.payload.referrers.map (Write.referrer rel.payload.manifest.digest)

theorem putRelease_apply {rel : Release} (h : validateName rel.name = .ok ())
    (ht : validateTag rel.payload.tag = .ok ()) (s : Store) :
    putRelease rel s =
      if s.accepts rel then (releaseWrites rel, .ok true) else ([], .ok false) := by
  have hp : releasePath rel.payload.publisher rel.payload.name rel.payload.tag = .ok rel.ref :=
    releasePath_eq_ok.mpr ⟨ht, h, rfl⟩
  have hput : ∀ t : Store, (do
      write (.release rel)
      putReferrers rel.payload.manifest.digest rel.payload.referrers
      pure true : Op Bool) t = (releaseWrites rel, .ok true) := by
    intro t
    rw [write_bind_apply, bind_apply_of_ok (putReferrers_apply _ _ _)]
    simp [releaseWrites, journal, result, pure]
  rw [putRelease, bind_apply_of_ok (getRelease_apply hp s), replay_nil]
  cases hg : s.releases.get rel.ref with
  | none =>
      simp only [Store.accepts, hg, Option.all_none, if_true, journal, result, hput, List.nil_append]
  | some e =>
      cases hs : rel.supersedes e with
      | false => simp [Store.accepts, hg, hs, journal, result, pure]
      | true =>
          simp only [Store.accepts, hg, Option.all_some, hs, Bool.not_true, journal, result]
          simp only [Bool.false_eq_true, if_false, if_true, hput, List.nil_append]

/-- A release with a valid name and tag is stored or refused, without an error. -/
theorem putRelease_returns {rel : Release} (h : validateName rel.name = .ok ())
    (ht : validateTag rel.payload.tag = .ok ()) (s : Store) :
    ∃ b, (putRelease rel).result s = .ok b := by
  rw [result, putRelease_apply h ht]
  split
  · exact ⟨true, rfl⟩
  · exact ⟨false, rfl⟩

/-- Storing a release makes no other writes than `releaseWrites`. -/
theorem emits_putRelease (rel : Release) :
    Emits (fun w => w ∈ releaseWrites rel) (putRelease rel) := by
  have hput : Emits (fun w => w ∈ releaseWrites rel) (do
      write (.release rel)
      putReferrers rel.payload.manifest.digest rel.payload.referrers
      pure true : Op Bool) := by
    refine (Emits.write List.mem_cons_self).bind fun _ => Emits.bind ?_ fun _ => Emits.pure _
    intro s w hw
    rw [journal, putReferrers_apply] at hw
    exact List.mem_cons_of_mem _ hw
  refine Emits.bind ?_ fun x => ?_
  · exact (Emits.ofExcept _).bind fun _ => Emits.read.bind fun _ => Emits.pure _
  · cases x with
    | none => exact hput
    | some e => exact Emits.ite (fun _ => Emits.pure _) fun _ => hput

omit [External] in
/-- Among them the release is the only record. -/
theorem eq_of_mem_releaseWrites {rel r : Release} (h : Write.release r ∈ releaseWrites rel) :
    r = rel := by
  rcases List.mem_cons.mp h with h | h
  · cases h
    rfl
  · obtain ⟨x, -, hx⟩ := List.mem_map.mp h
    cases hx

/-- Writes of the other parts leave the records as they are. -/
theorem releases_replay {ws : List Write} (h : ∀ w ∈ ws, w.part ≠ .releases) (s : Store) :
    (replay s ws).releases = s.releases :=
  replay_keeps (P := fun w : Write => w.part ≠ .releases)
    (I := fun t : Store => t.releases = s.releases)
    (fun _ _ hw ht => (Store.releases_apply hw).trans ht) h rfl

/-- Writes of the other parts leave the index as it is. -/
theorem digests_replay {ws : List Write} (h : ∀ w ∈ ws, w.part ≠ .digests) (s : Store) :
    (replay s ws).digests = s.digests :=
  replay_keeps (P := fun w : Write => w.part ≠ .digests)
    (I := fun t : Store => t.digests = s.digests)
    (fun _ _ hw ht => (Store.digests_apply hw).trans ht) h rfl

/-- The records with `rel` put: in its place, or refused. -/
def recorded (t : Table Release.ref) (rel : Release) : Table Release.ref :=
  if (t.get rel.ref).all fun existing => rel.supersedes existing then t.put rel else t

omit [External] in
theorem recorded_of_supersedes {t : Table Release.ref} {rel e : Release}
    (hg : t.get rel.ref = some e) (h : rel.supersedes e = true) : recorded t rel = t.put rel := by
  rw [recorded, hg, Option.all_some, if_pos h]

omit [External] in
theorem recorded_of_refused {t : Table Release.ref} {rel e : Release}
    (hg : t.get rel.ref = some e) (h : rel.supersedes e = false) : recorded t rel = t := by
  rw [recorded, hg, Option.all_some, h]
  rfl

/-- The records while `putRelease` runs, and after it. -/
theorem putRelease_triple {rel : Release} (h : validateName rel.name = .ok ())
    (ht : validateTag rel.payload.tag = .ok ()) (t : Table Release.ref) :
    Triple (fun s : Store => s.releases = t) (putRelease rel)
      (fun _ s => s.releases = recorded t rel)
      (fun s => s.releases = t ∨ s.releases = recorded t rel) := by
  rintro s rfl
  have hreferrers : ∀ k, ∀ w ∈ (rel.payload.referrers.map
      (Write.referrer rel.payload.manifest.digest)).take k, w.part ≠ .releases := by
    intro k w hw
    obtain ⟨x, -, rfl⟩ := List.mem_map.mp (List.mem_of_mem_take hw)
    exact nofun
  have hafter : ∀ k, 0 < k → s.accepts rel = true →
      (replay s ((releaseWrites rel).take k)).releases = recorded s.releases rel := by
    intro k hk ha
    obtain ⟨k, rfl⟩ := Nat.exists_eq_succ_of_ne_zero (Nat.ne_of_gt hk)
    rw [releaseWrites, List.take_succ_cons, replay_cons, releases_replay (hreferrers k), recorded]
    exact (if_pos ha).symm
  rw [final, journal, putRelease_apply h ht]
  cases ha : s.accepts rel with
  | false =>
      have hsame : recorded s.releases rel = s.releases :=
        if_neg (by rw [← Store.accepts, ha]; exact Bool.false_ne_true)
      exact ⟨fun k => Or.inl (by rw [if_neg Bool.false_ne_true, List.take_nil, replay_nil]),
        fun _ _ => hsame.symm⟩
  | true =>
      rw [if_pos rfl]
      refine ⟨fun k => ?_, fun _ _ => ?_⟩
      · rcases Nat.eq_zero_or_pos k with rfl | hk
        · exact Or.inl rfl
        · exact Or.inr (hafter k hk ha)
      · have := hafter (releaseWrites rel).length (Nat.succ_pos _) ha
        rwa [List.take_length] at this

/-- The records after `putRelease`: the release in its place, or what was there. -/
theorem releases_putRelease {rel : Release} (h : validateName rel.name = .ok ())
    (ht : validateTag rel.payload.tag = .ok ()) (s : Store) :
    ((putRelease rel).final s).releases =
      if s.accepts rel then s.releases.put rel else s.releases := by
  obtain ⟨b, hb⟩ := putRelease_returns h ht s
  exact (putRelease_triple h ht s.releases).ok rfl hb

/-! ### What `removeRelease` does -/

theorem removeRelease_apply {publisher : PublisherId} {name tag : Str}
    (hn : validateName name = .ok ()) (ht : validateTag tag = .ok ()) (s : Store) :
    removeRelease publisher name tag s =
      if s.releases.has ⟨publisher, name, tag⟩ then
        ([.dropRelease ⟨publisher, name, tag⟩], .ok true)
      else ([], .ok false) := by
  have hp : releasePath publisher name tag = .ok ⟨publisher, name, tag⟩ :=
    releasePath_eq_ok.mpr ⟨ht, hn, rfl⟩
  rw [removeRelease, hp]
  show (if s.releases.has ⟨publisher, name, tag⟩ then do
      write (.dropRelease ⟨publisher, name, tag⟩)
      pure true
    else pure false : Op Bool) s = _
  split <;> rfl

/-- The record is gone, and nothing else. -/
theorem get_removeRelease {publisher : PublisherId} {name tag : Str}
    (hn : validateName name = .ok ()) (ht : validateTag tag = .ok ()) (s : Store) (q : Ref) :
    ((removeRelease publisher name tag).final s).releases.get q =
      if q = ⟨publisher, name, tag⟩ then none else s.releases.get q := by
  rw [final, journal, removeRelease_apply hn ht]
  by_cases hhas : s.releases.has ⟨publisher, name, tag⟩ = true
  · rw [if_pos hhas]
    simp only [replay_cons, replay_nil, Journalled.apply, Store.apply, Table.get_erase,
      eq_comm (a := q)]
  · rw [if_neg hhas, replay_nil]
    split
    · rename_i h
      rw [h]
      exact Table.has_eq_false_iff.mp (Bool.eq_false_of_not_eq_true hhas)
    · rfl

/-- A record held after a call was held before it, or the call wrote it. -/
theorem written_of_get_final {ε α : Type} {m : Call Store Write ε α} {s : Store} {r : Ref}
    {rel : Release}
    (h : (m.final s).releases.get r = some rel) :
    s.releases.get r = some rel ∨ (rel.ref = r ∧ Write.release rel ∈ m.journal s) := by
  have key : ∀ (ws : List Write) (s : Store), (replay s ws).releases.get r = some rel →
      s.releases.get r = some rel ∨ (rel.ref = r ∧ Write.release rel ∈ ws) := by
    intro ws
    induction ws with
    | nil => exact fun _ h => Or.inl h
    | cons w ws ih =>
        intro s h
        rcases ih _ h with h | ⟨hr, hw⟩
        · cases w with
          | release rel' =>
              simp only [Journalled.apply, Store.apply, Table.get_put] at h
              split at h
              · rename_i hr
                cases h
                exact Or.inr ⟨hr, List.mem_cons_self⟩
              · exact Or.inl h
          | dropRelease r' => exact Or.inl (Table.get_of_get_erase h)
          | _ => exact Or.inl h
        · exact Or.inr ⟨hr, List.mem_cons_of_mem _ hw⟩
  exact key _ _ h

/-! ### The tags of an image -/

/-- The tags of an image, in order. -/
theorem listTags_ok {publisher : PublisherId} {name : Str} {s : Store} {ts : List Str}
    (h : (listTags publisher name).result s = .ok ts) :
    ts.Nodup ∧ ∀ t, t ∈ ts ↔ ∃ rel, s.releases.get ⟨publisher, name, t⟩ = some rel := by
  obtain ⟨u, -, h⟩ := result_bind_ok.mp h
  obtain ⟨t, ht, h⟩ := result_bind_ok.mp h
  cases ht
  cases h
  have himage : ∀ rel ∈ s.releases.rows.filter fun r => r.publisher = publisher ∧ r.name = name,
      rel ∈ s.releases.rows ∧ rel.ref = ⟨publisher, name, rel.payload.tag⟩ := by
    intro rel hrel
    obtain ⟨hmem, hkey⟩ := List.mem_filter.mp hrel
    obtain ⟨rfl, rfl⟩ := of_decide_eq_true hkey
    exact ⟨hmem, rfl⟩
  refine ⟨(List.perm_insertionSort _ _).nodup_iff.mpr ?_, fun t => ?_⟩
  · refine (List.Nodup.of_map _ s.releases.nodup).filter _ |>.map_on fun x hx y hy hxy => ?_
    refine List.inj_on_of_nodup_map s.releases.nodup (himage x hx).1 (himage y hy).1 ?_
    rw [(himage x hx).2, (himage y hy).2, hxy]
  · rw [List.mem_insertionSort, List.mem_map]
    constructor
    · rintro ⟨rel, hrel, rfl⟩
      obtain ⟨hmem, hkey⟩ := himage rel hrel
      exact ⟨rel, hkey ▸ Table.get_of_mem hmem⟩
    · rintro ⟨rel, hget⟩
      have hkey := Table.key_of_get hget
      refine ⟨rel, List.mem_filter.mpr ⟨Table.mem_of_get hget, ?_⟩, congrArg Ref.tag hkey⟩
      exact decide_eq_true ⟨congrArg Ref.publisher hkey, congrArg Ref.name hkey⟩

theorem emits_listTags {P : Write → Prop} (publisher : PublisherId) (name : Str) :
    Emits P (listTags publisher name) :=
  (Emits.ofExcept _).bind fun _ => Emits.read.bind fun _ => Emits.pure _

/-! ### The blob store -/

/-- Record an index entry and pin the blob with a named tag. -/
def recordBlob (r : BlobRef) : Op Unit := do
  write (.tag r.digest r.hash)
  write (.blobRef r)

/-- Import data under its own digest and pin it. -/
def importBlob (data : Bytes) (mediaType : Option Str) : Op BlobRef := do
  let r : BlobRef :=
    { digest := Digest.sha256 data, hash := External.blake3 data, size := data.length, mediaType }
  write (.data data)
  write (.tag r.digest r.hash)
  write (.blobRef r)
  pure r

/-- If `expect` is given the sha256 must match. -/
def expectDigest (expect : Option Digest) (digest : Digest) : Op Unit :=
  match expect with
  | some e =>
      ensure (e == digest) ["digest mismatch: expected " ++ e.str ++ ", got " ++ digest.str]
  | none => pure ()

/-- Import in-memory data. -/
def putBlobBytes (data : Bytes) (expect : Option Digest) (mediaType : Option Str) : Op BlobRef := do
  expectDigest expect (Digest.sha256 data)
  importBlob data mediaType

/-- The content of a blob. -/
def readHash (h : Blake3) : Op Bytes := do
  let s ← read
  match s.blobs.get h with
  | some c => pure c
  | none => fail ["hash " ++ h.toStr ++ " not found"]

/-- Verify that the blob stored under `r.hash` really has sha256 `r.digest` and size `r.size`. -/
def verifyBlob (r : BlobRef) : Op Unit := do
  let c ← readHash r.hash
  let digest := Digest.sha256 c
  ensure (digest == r.digest)
    ["blob " ++ r.hash.fmtShort ++ " has sha256 " ++ digest.str ++ ", expected " ++ r.digest.str]
  ensure (c.length == r.size)
    ["blob " ++ r.digest.str ++ " has size " ++ Nat.toDigits 10 c.length ++ ", expected " ++
      Nat.toDigits 10 r.size]

end Ocid
