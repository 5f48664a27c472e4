import Ocid.Core.Encoding
import Ocid.Naming.Signed

/-!
# Naming — Printed — the text of a record

A record is published as the text of its fields, `key=value`, with a space between each two
(`DnsRecord.toTxt`).  Reading sets one field for each word of the text, and the words of a record set
different ones; so a text of the same words is read as the record, in any order and with any white
space between them (`parse_of_perm`).
-/

namespace Ocid

/-! ### Words -/

/-- A word: some characters, none of them white space. -/
def IsWord (t : Str) : Prop := t ≠ [] ∧ ∀ c ∈ t, Str.isWhitespace c = false

/-- A text of words, with white space between each two. -/
inductive Spaced : List Str → Str → Prop where
  | last (t : Str) : Spaced [t] t
  | cons (t : Str) {w : Str} {ts : List Str} {s : Str} (hne : w ≠ [])
      (hw : ∀ c ∈ w, Str.isWhitespace c = true) (h : Spaced ts s) : Spaced (t :: ts) (t ++ w ++ s)

/-- White space at the front is skipped. -/
theorem splitWhitespace_cons {c : Char} (hc : Str.isWhitespace c = true) (s : Str) :
    Str.splitWhitespace (c :: s) = Str.splitWhitespace s := by
  simp [Str.splitWhitespace, List.splitOnP_cons_eq_if_modifyHead, hc]

theorem splitWhitespace_spaces {w : Str} (hw : ∀ c ∈ w, Str.isWhitespace c = true) (s : Str) :
    Str.splitWhitespace (w ++ s) = Str.splitWhitespace s := by
  induction w with
  | nil => rfl
  | cons c w ih =>
      rw [List.cons_append, splitWhitespace_cons (hw c List.mem_cons_self),
        ih fun d hd => hw d (List.mem_cons_of_mem _ hd)]

/-- A word ends at the first white space after it. -/
theorem splitWhitespace_word {t : Str} (ht : IsWord t) {c : Char}
    (hc : Str.isWhitespace c = true) (s : Str) :
    Str.splitWhitespace (t ++ c :: s) = t :: Str.splitWhitespace s := by
  rw [Str.splitWhitespace, List.splitOnP_append_cons_of_forall_mem ht.2 c hc, Str.splitWhitespace]
  simp [ht.1]

theorem splitWhitespace_self {t : Str} (ht : IsWord t) : Str.splitWhitespace t = [t] := by
  rw [Str.splitWhitespace, List.splitOnP_eq_singleton ht.2]
  simp [ht.1]

/-- The words of a text are those it was made of. -/
theorem Spaced.words {ts : List Str} {s : Str} (h : Spaced ts s) (hts : ∀ t ∈ ts, IsWord t) :
    Str.splitWhitespace s = ts := by
  induction h with
  | last t => exact splitWhitespace_self (hts t List.mem_cons_self)
  | @cons t w ts s hne hw h ih =>
      obtain ⟨c, w, rfl⟩ := List.exists_cons_of_ne_nil hne
      have ht := hts t List.mem_cons_self
      rw [List.append_assoc, List.cons_append, splitWhitespace_word ht (hw c List.mem_cons_self),
        splitWhitespace_spaces (fun d hd => hw d (List.mem_cons_of_mem _ hd)),
        ih fun u hu => hts u (List.mem_cons_of_mem _ hu)]

/-- Words with the same white space between each two. -/
theorem spaced_intercalate {w : Str} (hne : w ≠ []) (hw : ∀ c ∈ w, Str.isWhitespace c = true)
    {ts : List Str} (h : ts ≠ []) : Spaced ts (w.intercalate ts) := by
  induction ts with
  | nil => exact absurd rfl h
  | cons t ts ih =>
      cases ts with
      | nil =>
          rw [List.intercalate_singleton]
          exact Spaced.last t
      | cons u us =>
          rw [List.intercalate_cons_cons]
          exact Spaced.cons t hne hw (ih (List.cons_ne_nil u us))

/-! ### The text -/

/-- One field of a record. -/
inductive RecordField where
  | version
  | key (k : PublisherId)
  | ts (n : ℕ)
  | relay (u : Str)
  | seed (k : PublisherId)
  | sig (bs : Bytes)

namespace RecordField

/-- What stands before the `=`. -/
def label : RecordField → Str
  | version => "v"
  | key _ => "k"
  | ts _ => "ts"
  | relay _ => "relay"
  | seed _ => "seed"
  | sig _ => "sig"

/-- What stands behind it. -/
def value : RecordField → Str
  | version => dnsVersion
  | key k => k.toStr
  | ts n => Nat.toDigits 10 n
  | relay u => u
  | seed k => k.toStr
  | sig bs => hexEncode bs

/-- The word of a field. -/
def token (fd : RecordField) : Str := fd.label ++ '=' :: fd.value

/-- Reading the word sets the field. -/
def set (f : RecordFields) : RecordField → RecordFields
  | version => { f with version := some dnsVersion }
  | key k => { f with key := some k }
  | ts n => { f with ts := some n }
  | relay u => { f with relay := some u }
  | seed k => { f with seed := some k }
  | sig bs => { f with sig := some bs }

/-- The key of a field, if it has one. -/
def keyOf : RecordField → Option PublisherId
  | key k | seed k => some k
  | _ => none

/-- A number of 64 bits, a relay that passes its check, a signature of its length. -/
def Valid [Relays] : RecordField → Prop
  | ts n => n < 2 ^ 64
  | relay u => validateRelay u = .ok u
  | sig bs => bs.length = 64
  | _ => True

/-- A field whose text is read back. -/
def Reads [Relays] [External] (fd : RecordField) : Prop :=
  fd.Valid ∧ ∀ k ∈ fd.keyOf, KeyReads k

end RecordField

namespace DnsRecord

/-- The TXT payload: one space-separated string. -/
def toTxt (r : DnsRecord) : Str :=
  let s : Str := "v=" ++ (dnsVersion ++ (" k=" ++ (r.key.toStr ++ (" ts=" ++ Nat.toDigits 10 r.ts))))
  let s := match r.relay with
    | some relay => s ++ (" relay=" ++ relay)
    | none => s
  let s := match r.seed with
    | some seed => s ++ (" seed=" ++ seed.toStr)
    | none => s
  s ++ (" sig=" ++ hexEncode r.sig)

/-- The fields of a record, in the order of its text. -/
def fields (r : DnsRecord) : List RecordField :=
  [.version, .key r.key, .ts r.ts] ++ r.relay.toList.map .relay ++ r.seed.toList.map .seed ++
    [.sig r.sig]

/-- The words of a record. -/
def tokens (r : DnsRecord) : List Str := r.fields.map RecordField.token

/-- The text of a record is its words, with a space between each two. -/
theorem toTxt_eq (r : DnsRecord) : r.toTxt = [' '].intercalate r.tokens := by
  unfold toTxt tokens fields
  cases r.relay <;> cases r.seed <;>
    simp [RecordField.token, RecordField.label, RecordField.value, List.intercalate,
      List.intersperse]

end DnsRecord

/-! ### Words of fields -/

theorem isWhitespace_of_isLowerHex {c : Char} (h : isLowerHex c = true) :
    Str.isWhitespace c = false :=
  (of_isTagChar (isTagChar_of_isNameChar (isNameChar_of_isLowerHex h))).2.2

/-- A label has no `=` and no white space in it. -/
theorem RecordField.plain_label (fd : RecordField) :
    ∀ c ∈ fd.label, c ≠ '=' ∧ Str.isWhitespace c = false := by
  cases fd <;> (simp [label]; decide)

section
variable [Relays]

/-- The value of a field has no white space in it. -/
theorem RecordField.plain_value {fd : RecordField} (h : fd.Valid) :
    ∀ c ∈ fd.value, Str.isWhitespace c = false := by
  have hhex : ∀ bs : Bytes, ∀ c ∈ hexEncode bs, Str.isWhitespace c = false := fun bs c hc =>
    isWhitespace_of_isLowerHex (isLowerHex_of_mem_hexEncode hc)
  cases fd with
  | version => simp [value, dnsVersion, Str.isWhitespace]
  | key k => exact hhex k.key.bytes
  | ts n =>
      exact fun c hc =>
        isWhitespace_of_isDigit (isDigit_of_mem_toDigits hc)
  | relay u => exact (DnsRecord.validateRelay_ok h).2.1
  | seed k => exact hhex k.key.bytes
  | sig bs => exact hhex bs

theorem RecordField.isWord_token {fd : RecordField} (h : fd.Valid) : IsWord fd.token := by
  refine ⟨by simp [token], fun c hc => ?_⟩
  rcases List.mem_append.mp hc with hc | hc
  · exact (fd.plain_label c hc).2
  · rcases List.mem_cons.mp hc with rfl | hc
    · decide
    · exact plain_value h c hc

/-- The words of some fields are words. -/
theorem RecordField.isWord_of_mem {fds : List RecordField} (h : ∀ fd ∈ fds, fd.Valid) :
    ∀ t ∈ fds.map token, IsWord t := by
  intro t ht
  obtain ⟨fd, hfd, rfl⟩ := List.mem_map.mp ht
  exact isWord_token (h fd hfd)

/-- The pieces of the text between its spaces are the words. -/
theorem DnsRecord.split_toTxt {r : DnsRecord} (h : ∀ fd ∈ r.fields, fd.Valid) :
    Str.split ' ' r.toTxt = r.tokens := by
  rw [toTxt_eq]
  refine Str.split_intercalate (by simp [tokens, fields]) fun t ht hspace => ?_
  exact absurd ((RecordField.isWord_of_mem h t ht).2 ' ' hspace) (by decide)

variable [External]

omit [Relays] in
theorem recordKey_toStr {key : PublicKey} (h : KeyReads key) (field kind : Str) :
    recordKey field kind key.toStr = .ok key := by
  have h : External.keyFromStr key.toStr = some key := h
  simp [recordKey, isHexPublisher_toStr, h]

/-- A word is read as its field, whatever was read before. -/
theorem RecordField.read_token {fd : RecordField} (h : fd.Reads) (f : RecordFields) :
    f.read fd.token = .ok (fd.set f) := by
  obtain ⟨hvalid, hkey⟩ := h
  have hsplit : Str.splitOnce '=' fd.token = some (fd.label, fd.value) :=
    Str.splitOnce_append (fun hmem => (fd.plain_label _ hmem).1 rfl) fd.value
  rw [RecordFields.read, hsplit]
  cases fd with
  | version => rfl
  | key k => simp [label, value, recordKey_toStr (hkey k rfl), set, Except.map]
  | ts n => simp [label, value, parseU64_toDigits hvalid, set]
  | relay u =>
      have hu : validateRelay u = .ok u := hvalid
      simp [label, value, hu, set, Except.map]
  | seed k => simp [label, value, recordKey_toStr (hkey k rfl), set, Except.map]
  | sig bs =>
      have hlen : bs.length = 64 := hvalid
      simp [label, value, hexDecode_hexEncode, hlen, set]

/-- The words of some fields are read as those fields, one after the other. -/
theorem RecordField.foldlM_token {fds : List RecordField} (h : ∀ fd ∈ fds, fd.Reads)
    (f : RecordFields) :
    (fds.map token).foldlM RecordFields.read f = .ok (fds.foldl set f) := by
  induction fds generalizing f with
  | nil => rfl
  | cons fd fds ih =>
      rw [List.map_cons, List.foldlM_cons, read_token (h fd List.mem_cons_self)]
      exact ih (fun fd' hfd' => h fd' (List.mem_cons_of_mem _ hfd')) _

end

/-! ### Any order -/

/-- A list with the members of an image is an image of a list with the same members. -/
theorem exists_perm_of_perm_map {α β : Type} {f : α → β} {as : List α} {bs : List β}
    (h : bs.Perm (as.map f)) : ∃ as' : List α, bs = as'.map f ∧ as'.Perm as := by
  have himage : List.Forall₂ (fun b a => b = f a) (as.map f) as :=
    List.forall₂_map_left_iff.mpr (List.forall₂_same.mpr fun _ _ => rfl)
  obtain ⟨as', hbs, hperm⟩ := List.perm_comp_forall₂ h himage
  have heq : List.Forall₂ Eq bs (as'.map f) := List.forall₂_map_right_iff.mpr hbs
  rw [List.forall₂_eq_eq_eq] at heq
  exact ⟨as', heq, hperm⟩

/-- Fields of different labels may be set in either order. -/
theorem RecordField.set_comm {x y : RecordField} (h : x.label ≠ y.label) (f : RecordFields) :
    set (set f x) y = set (set f y) x := by
  cases x <;> cases y <;> first | rfl | exact absurd rfl h

namespace DnsRecord

/-- The fields of a record have different labels. -/
theorem nodup_labels (r : DnsRecord) : (r.fields.map RecordField.label).Nodup := by
  unfold fields
  cases r.relay <;> cases r.seed <;> simp [RecordField.label]

/-- The fields of a record set what it says, in any order. -/
theorem foldl_set {r : DnsRecord} {fds : List RecordField} (h : fds.Perm r.fields) :
    fds.foldl RecordField.set ⟨none, none, none, none, none, none⟩ =
      ⟨some dnsVersion, some r.key, some r.ts, r.relay, r.seed, some r.sig⟩ := by
  have hnodup : (fds.map RecordField.label).Nodup :=
    (h.map RecordField.label).nodup_iff.mpr r.nodup_labels
  have hcomm : ∀ x ∈ fds, ∀ y ∈ fds, ∀ f,
      RecordField.set (RecordField.set f x) y = RecordField.set (RecordField.set f y) x := by
    intro x hx y hy f
    by_cases hlabel : x.label = y.label
    · rw [List.inj_on_of_nodup_map hnodup hx hy hlabel]
    · exact RecordField.set_comm hlabel f
  rw [h.foldl_eq' hcomm, fields]
  cases r.relay <;> cases r.seed <;> rfl

variable [Relays] [External]

/-- **A text of the words of a record, in any order and with any white space between them, is read
as the record.** -/
theorem parse_of_perm {r : DnsRecord} (hreads : ∀ fd ∈ r.fields, fd.Reads) {toks : List Str}
    (hperm : toks.Perm r.tokens) {txt : Str} (hspaced : Spaced toks txt) :
    parse txt = .ok r := by
  obtain ⟨fds, rfl, hfds⟩ := exists_perm_of_perm_map hperm
  have hreads : ∀ fd ∈ fds, fd.Reads := fun fd hfd => hreads fd (hfds.mem_iff.mp hfd)
  have hwords := RecordField.isWord_of_mem fun fd hfd => (hreads fd hfd).1
  rw [parse, hspaced.words hwords, RecordField.foldlM_token hreads, foldl_set hfds]
  rfl

omit [External] in
/-- The hint that is signed is the one that was given. -/
theorem checkHint_eq {relay checked : Option Str} (h : checkHint relay = .ok checked) :
    checked = relay := by
  cases relay with
  | none => exact (Except.ok.inj h).symm
  | some u =>
      rw [checkHint] at h
      cases hu : validateRelay u with
      | error e =>
          rw [hu] at h
          cases h
      | ok v =>
          rw [hu] at h
          rw [← Except.ok.inj h, (validateRelay_ok hu).1]

/-- What is signed, and what was checked of it. -/
theorem signFull_ok {zone : Str} {id : Identity} {ts : ℕ} {relay : Option Str}
    {seed : Option PublisherId} {r : DnsRecord} (h : signFull zone id ts relay seed = .ok r) :
    validateZone zone = .ok () ∧ (∀ u ∈ relay, validateRelay u = .ok u) ∧
      r = ⟨id.id, ts, relay, seed, id.sign (canonicalPayload zone id.id ts relay seed)⟩ := by
  simp only [signFull, bind, Except.bind] at h
  split at h
  · cases h
  · rename_i hzone
    split at h
    · cases h
    · rename_i checked hcheck
      have hrelay := checkHint_ok hcheck
      rw [checkHint_eq hcheck] at hrelay h
      exact ⟨hzone, hrelay, (Except.ok.inj h).symm⟩

end DnsRecord

/-- Ed25519: a signature is 64 bytes, and is accepted for the key and the message it was made
for. -/
structure SignatureLaws [External] : Prop where
  length : ∀ sk msg, (External.sign sk msg).length = 64
  verifies : ∀ sk msg, External.verifies (External.publicKey sk) msg (External.sign sk msg) = true

namespace DnsRecord

variable [Relays] [External]

section
variable {zone : Str} {id : Identity} {ts : ℕ} {relay : Option Str} {seed : Option PublisherId}
  {r : DnsRecord}

/-- The fields of a signed record are valid. -/
theorem valid_signed (hlength : ∀ sk msg, (External.sign sk msg).length = 64) (hts : ts < 2 ^ 64)
    (h : signFull zone id ts relay seed = .ok r) : ∀ fd ∈ r.fields, fd.Valid := by
  obtain ⟨-, hrelay, rfl⟩ := signFull_ok h
  intro fd hfd
  simp only [fields, List.cons_append, List.nil_append, List.mem_cons, List.mem_append,
    List.mem_map, Option.mem_toList, List.not_mem_nil, or_false] at hfd
  rcases hfd with rfl | rfl | rfl | (⟨u, hu, rfl⟩ | ⟨k, hk, rfl⟩) | rfl
  · trivial
  · trivial
  · exact hts
  · exact hrelay u hu
  · trivial
  · exact hlength _ _

/-- They are read back, as the keys are. -/
theorem reads_signed (hlength : ∀ sk msg, (External.sign sk msg).length = 64)
    (hkeys : ∀ sk, KeyReads (External.publicKey sk)) (hts : ts < 2 ^ 64)
    (hseed : ∀ k ∈ seed, KeyReads k) (h : signFull zone id ts relay seed = .ok r) :
    ∀ fd ∈ r.fields, fd.Reads := by
  refine fun fd hfd => ⟨valid_signed hlength hts h fd hfd, ?_⟩
  obtain ⟨-, -, rfl⟩ := signFull_ok h
  simp only [fields, List.cons_append, List.nil_append, List.mem_cons, List.mem_append,
    List.mem_map, Option.mem_toList, List.not_mem_nil, or_false] at hfd
  rcases hfd with rfl | rfl | rfl | (⟨u, hu, rfl⟩ | ⟨k, hk, rfl⟩) | rfl
  · nofun
  · rintro k ⟨⟩
    exact hkeys id.secret
  · nofun
  · nofun
  · rintro k' ⟨⟩
    exact hseed k hk
  · nofun

end

/-- **A signed record is read back from its words in any order, with any white space between them,
and its signature is accepted for the zone.** -/
theorem parse_signed (hsig : SignatureLaws) (hkeys : ∀ sk, KeyReads (External.publicKey sk))
    {zone : Str} {id : Identity} {ts : ℕ} {relay : Option Str} {seed : Option PublisherId}
    {r : DnsRecord} (hts : ts < 2 ^ 64) (hseed : ∀ k ∈ seed, KeyReads k)
    (h : signFull zone id ts relay seed = .ok r) {toks : List Str}
    (hperm : toks.Perm (Str.split ' ' r.toTxt)) {txt : Str} (hspaced : Spaced toks txt) :
    parse txt = .ok r ∧ r.verifySig zone = .ok () := by
  have hreads := reads_signed hsig.length hkeys hts hseed h
  rw [split_toTxt fun fd hfd => (hreads fd hfd).1] at hperm
  refine ⟨parse_of_perm hreads hperm hspaced, ?_⟩
  obtain ⟨hzone, -, rfl⟩ := signFull_ok h
  have hverify : External.verifies id.id (canonicalPayload zone id.id ts relay seed)
      (id.sign (canonicalPayload zone id.id ts relay seed)) = true := hsig.verifies _ _
  rw [verifySig, hzone]
  exact if_pos hverify

end DnsRecord

namespace Sample

theorem signatureLaws : @SignatureLaws sample := by
  let _ := sample
  refine ⟨fun sk _ => ?_, fun sk _ => beq_self_eq_true _⟩
  show ((publicKey sk).key.bytes ++ (publicKey sk).key.bytes).length = 64
  rw [List.length_append, (publicKey sk).key.size]

theorem keyReads (key : PublicKey) : @KeyReads sample key := by
  show (hexDecode (hexEncode key.key.bytes)).bind keyOfBytes = some key
  rw [hexDecode_hexEncode, Option.bind_some, keyOfBytes, dif_pos key.key.size]

end Sample

namespace DnsRecord

theorem parse_signed_at : letI := sample; letI := Sample.urls
    parse (("\t\n" : Str).intercalate (Str.split ' ' Sample.withRelay.toTxt).reverse) =
        .ok Sample.withRelay ∧
      Sample.withRelay.verifySig "images.example.com" = .ok () := by
  let _ := sample
  let _ := Sample.urls
  have hsigned : signFull "images.example.com" Sample.alice 1700000000
      (some "https://relay.iroh.network") none = .ok Sample.withRelay := by decide +kernel
  have htoks : (Str.split ' ' Sample.withRelay.toTxt).reverse ≠ [] := by
    rw [List.reverse_ne_nil_iff]
    exact Str.split_ne_nil _ _
  exact parse_signed Sample.signatureLaws (fun sk => Sample.keyReads _) (by decide)
    (fun _ hk => absurd hk (Option.not_mem_none _)) hsigned
    (List.reverse_perm _) (spaced_intercalate (by decide) (List.all_eq_true.mp (by decide)) htoks)

end DnsRecord

end Ocid
