import Ocid.Lib.Packing
import Ocid.Naming.Printed

/-!
# Naming — Strings — the character-strings of a record

A character-string of DNS holds 255 bytes.  The text of a longer record is put into several, word by
word, and every string but the last is given the space that stood after it (`txtStrings`); so what
was put together may have 254 bytes.  A relay of 249 bytes passes its check and makes a word of 255
bytes, which goes into a string of its own: with the space that string has 256.

No other word is that long, so the strings fit for all other records (`txtStrings_fit_iff`).
-/

namespace Ocid

/-- Put one more word into the open string, with a space before it, or into a new one: room is kept
for the space and for the one that may follow. -/
def packToken (s : List Str × Str) (tok : Str) : List Str × Str :=
  let s := if !s.2.isEmpty && txtStringMax < Str.len s.2 + 1 + Str.len tok + 1 then
      (s.1 ++ [s.2], [])
    else s
  let cur := if s.2.isEmpty then s.2 else s.2 ++ [' ']
  (s.1, cur ++ tok)

/-- Every string but the last gets its space. -/
def trailing (out : List Str) : List Str := out.dropLast.map (· ++ [' ']) ++ out.getLast?.toList

namespace DnsRecord

/-- The record as DNS TXT character-strings. -/
def txtStrings (r : DnsRecord) : List Str :=
  let txt := r.toTxt
  if Str.len txt ≤ txtStringMax then [txt]
  else
    let s := (Str.split ' ' txt).foldl packToken ([], [])
    trailing (if s.2.isEmpty then s.1 else s.1 ++ [s.2])

end DnsRecord

/-! ### Strings as groups of words -/

/-- The words of a string, with a space between each two. -/
def spaced (g : List Str) : Str := [' '].intercalate g

/-- A word fits into the open string. -/
def fitsIn (g : List Str) (tok : Str) : Bool :=
  Str.len (spaced g) + 1 + Str.len tok + 1 ≤ txtStringMax

theorem spaced_singleton (t : Str) : spaced [t] = t := List.intercalate_singleton

theorem spaced_cons (t : Str) {g : List Str} (h : g ≠ []) :
    spaced (t :: g) = t ++ ' ' :: spaced g := by
  obtain ⟨u, us, rfl⟩ := List.exists_cons_of_ne_nil h
  rw [spaced, List.intercalate_cons_cons, List.append_assoc]
  rfl

theorem spaced_append {g k : List Str} (hg : g ≠ []) (hk : k ≠ []) :
    spaced (g ++ k) = spaced g ++ ' ' :: spaced k := by
  induction g with
  | nil => exact absurd rfl hg
  | cons t g ih =>
      by_cases h : g = []
      · rw [h, List.singleton_append, spaced_cons t hk, spaced_singleton]
      · rw [List.cons_append, spaced_cons t (List.append_ne_nil_of_left_ne_nil h k), ih h,
          spaced_cons t h, List.append_assoc, List.cons_append]

theorem spaced_concat {g : List Str} (h : g ≠ []) (t : Str) :
    spaced (g ++ [t]) = spaced g ++ ' ' :: t := by
  rw [spaced_append h (List.cons_ne_nil t []), spaced_singleton]

theorem len_spaced_concat {g : List Str} (h : g ≠ []) (t : Str) :
    Str.len (spaced (g ++ [t])) = Str.len (spaced g) + 1 + Str.len t := by
  have hspace : ' '.utf8Size = 1 := by decide
  rw [spaced_concat h, Str.len_append, Str.len_cons, hspace]
  omega

theorem spaced_eq_nil_iff {g : List Str} (h : ∀ t ∈ g, t ≠ []) : spaced g = [] ↔ g = [] := by
  cases g with
  | nil => exact iff_of_true rfl rfl
  | cons t ts =>
      have ht := h t List.mem_cons_self
      refine iff_of_false (fun hnil => ht ?_) (List.cons_ne_nil t ts)
      by_cases hts : ts = []
      · rwa [hts, spaced_singleton] at hnil
      · rw [spaced_cons t hts] at hnil
        exact (List.append_eq_nil_iff.mp hnil).1

/-- Putting a word into the open string is putting it into the open group. -/
theorem packToken_spaced (tok : Str) (s : List (List Str) × List Str) (hs : ∀ t ∈ s.2, t ≠ []) :
    packToken (s.1.map spaced, spaced s.2) tok =
      ((Packing.place fitsIn s tok).1.map spaced, spaced (Packing.place fitsIn s tok).2) := by
  have hempty := spaced_eq_nil_iff hs
  rcases Packing.place_cases fitsIn s tok with ⟨hne, hfits, hplace⟩ | ⟨hfits, hplace⟩
  · have hcur : spaced s.2 ≠ [] := mt hempty.mp hne
    have hfull : txtStringMax < Str.len (spaced s.2) + 1 + Str.len tok + 1 := by
      simpa [fitsIn] using hfits
    rw [hplace]
    simp [packToken, hcur, hfull, spaced_singleton]
  · rw [hplace]
    by_cases hopen : s.2 = []
    · have hcur : spaced [] = [] := rfl
      simp [packToken, hopen, hcur, spaced_singleton]
    · have hcur : spaced s.2 ≠ [] := mt hempty.mp hopen
      have hroom : ¬ txtStringMax < Str.len (spaced s.2) + 1 + Str.len tok + 1 := by
        simpa [fitsIn] using hfits.resolve_left hopen
      simp [packToken, hcur, hroom, spaced_concat hopen]

/-- The strings are the groups of the words. -/
theorem foldl_packToken {toks : List Str} (h : ∀ t ∈ toks, t ≠ []) (s : List (List Str) × List Str)
    (hs : ∀ t ∈ s.2, t ≠ []) :
    toks.foldl packToken (s.1.map spaced, spaced s.2) =
        ((toks.foldl (Packing.place fitsIn) s).1.map spaced,
          spaced (toks.foldl (Packing.place fitsIn) s).2) ∧
      ∀ t ∈ (toks.foldl (Packing.place fitsIn) s).2, t ≠ [] := by
  induction toks generalizing s with
  | nil => exact ⟨rfl, hs⟩
  | cons tok toks ih =>
      have htok := h tok List.mem_cons_self
      rw [List.foldl_cons, List.foldl_cons, packToken_spaced tok s hs]
      refine ih (fun t ht => h t (List.mem_cons_of_mem _ ht)) _ fun t ht => ?_
      rcases Packing.place_cases fitsIn s tok with ⟨-, -, hplace⟩ | ⟨-, hplace⟩
      · rw [hplace] at ht
        exact List.mem_singleton.mp ht ▸ htok
      · rw [hplace] at ht
        rcases List.mem_append.mp ht with ht | ht
        · exact hs t ht
        · exact List.mem_singleton.mp ht ▸ htok

/-- The groups the words of a record are put into. -/
def DnsRecord.groups (r : DnsRecord) : List (List Str) := Packing.pack fitsIn r.tokens

/-! ### What the strings say together -/

theorem trailing_singleton (a : Str) : trailing [a] = [a] := rfl

theorem trailing_cons (a : Str) {out : List Str} (h : out ≠ []) :
    trailing (a :: out) = (a ++ [' ']) :: trailing out := by
  obtain ⟨b, out, rfl⟩ := List.exists_cons_of_ne_nil h
  simp [trailing]

/-- One after the other the strings are the text. -/
theorem flatten_trailing (out : List Str) : (trailing out).flatten = spaced out := by
  induction out with
  | nil => rfl
  | cons a out ih =>
      by_cases h : out = []
      · rw [h, trailing_singleton, List.flatten_singleton, spaced_singleton]
      · rw [trailing_cons a h, List.flatten_cons, ih, spaced_cons a h, List.append_assoc]
        rfl

theorem splitWhitespace_concat_space (s : Str) :
    Str.splitWhitespace (s ++ [' ']) = Str.splitWhitespace s := by
  rw [Str.splitWhitespace, List.splitOnP_append_cons s [] (by decide), Str.splitWhitespace]
  simp

/-- The spaces at the ends add no words. -/
theorem words_trailing (out : List Str) :
    (trailing out).flatMap Str.splitWhitespace = out.flatMap Str.splitWhitespace := by
  induction out with
  | nil => rfl
  | cons a out ih =>
      by_cases h : out = []
      · rw [h, trailing_singleton]
      · rw [trailing_cons a h, List.flatMap_cons, ih, splitWhitespace_concat_space,
          List.flatMap_cons]

theorem spaced_flatten {gs : List (List Str)} (h : ∀ g ∈ gs, g ≠ []) :
    spaced (gs.map spaced) = spaced gs.flatten := by
  induction gs with
  | nil => rfl
  | cons g gs ih =>
      have hg := h g List.mem_cons_self
      have hgs : ∀ k ∈ gs, k ≠ [] := fun k hk => h k (List.mem_cons_of_mem _ hk)
      by_cases hnil : gs = []
      · rw [hnil, List.map_singleton, spaced_singleton, List.flatten_singleton]
      · have hflat : gs.flatten ≠ [] := by
          obtain ⟨k, ks, rfl⟩ := List.exists_cons_of_ne_nil hnil
          exact List.append_ne_nil_of_left_ne_nil (hgs k List.mem_cons_self) _
        rw [List.map_cons, spaced_cons _ (mt List.map_eq_nil_iff.mp hnil), ih hgs,
          List.flatten_cons, spaced_append hg hflat]

/-- A string that is not the last has its space. -/
theorem mem_trailing {a : Str} {out rest : List Str} (h : rest ≠ []) :
    a ++ [' '] ∈ trailing (out ++ a :: rest) := by
  induction out with
  | nil =>
      rw [List.nil_append, trailing_cons a h]
      exact List.mem_cons_self
  | cons b out ih =>
      rw [List.cons_append, trailing_cons b (List.append_ne_nil_of_right_ne_nil _ (by simp))]
      exact List.mem_cons_of_mem _ ih

/-- A space is added to a string of the list, or not. -/
theorem of_mem_trailing {a : Str} {out : List Str} (h : a ∈ trailing out) :
    ∃ b ∈ out, a = b ∨ a = b ++ [' '] := by
  rcases List.mem_append.mp h with h | h
  · obtain ⟨b, hb, rfl⟩ := List.mem_map.mp h
    exact ⟨b, List.dropLast_subset _ hb, Or.inr rfl⟩
  · exact ⟨a, List.mem_of_mem_getLast? (Option.mem_toList.mp h), Or.inl rfl⟩

/-! ### Lengths of words -/

theorem len_hexEncode (bs : Bytes) : Str.len (hexEncode bs) = 2 * bs.length := by
  rw [Str.len_eq_length fun _ hc => utf8Size_of_isLowerHex (isLowerHex_of_mem_hexEncode hc),
    length_hexEncode]

/-- A number of 64 bits has 20 digits at most. -/
theorem len_toDigits {n : ℕ} (h : n < 2 ^ 64) : Str.len (Nat.toDigits 10 n) ≤ 20 := by
  have hdigit : ∀ c ∈ Nat.toDigits 10 n, c.utf8Size = 1 := fun c hc => by
    exact utf8Size_of_isLowerHex (Bool.or_eq_true_iff.mpr (Or.inl (isDigit_of_mem_toDigits hc)))
  rw [Str.len_eq_length hdigit, Nat.length_toDigits_le_iff (by decide) (by decide)]
  exact h.trans (by decide)

namespace RecordField

theorem len_token (fd : RecordField) :
    Str.len fd.token = Str.len fd.label + 1 + Str.len fd.value := by
  have heq : '='.utf8Size = 1 := by decide
  rw [token, Str.len_append, Str.len_cons, heq]
  omega

theorem len_label_le (fd : RecordField) : Str.len fd.label ≤ 5 := by
  cases fd <;> (simp only [label]; decide)

variable [Relays]

/-- A relay that passes its check is 249 bytes at most. -/
theorem len_relay_le {u : Str} (h : validateRelay u = .ok u) : Str.len u ≤ 249 := by
  unfold validateRelay at h
  split at h
  · cases h
  · split at h
    · cases h
    · split at h
      · cases h
      · split at h
        · cases h
        · rename_i hlen
          rw [txtStringMax] at hlen
          omega

/-- No word but that of a relay of 249 bytes is longer than 254. -/
theorem len_token_le {fd : RecordField} (h : fd.Valid)
    (hrelay : ∀ u, fd = relay u → Str.len u ≠ 249) : Str.len fd.token ≤ 254 := by
  have hlabel := fd.len_label_le
  rw [len_token]
  cases fd with
  | version =>
      have hvalue : Str.len version.value = 5 := by decide
      omega
  | key k =>
      have hvalue : Str.len (key k).value = 64 := k.len_toStr
      omega
  | ts n =>
      have hvalue : Str.len (ts n).value ≤ 20 := len_toDigits h
      omega
  | relay u =>
      have hvalue : Str.len (relay u).value ≤ 249 := len_relay_le h
      have hne : Str.len (relay u).value ≠ 249 := hrelay u rfl
      omega
  | seed k =>
      have hvalue : Str.len (seed k).value = 64 := k.len_toStr
      omega
  | sig bs =>
      have hvalue : Str.len (sig bs).value = 2 * bs.length := len_hexEncode bs
      have hbytes : bs.length = 64 := h
      omega

end RecordField

/-! ### The strings of a record -/

namespace DnsRecord

variable [Relays] {r : DnsRecord} (hvalid : ∀ fd ∈ r.fields, fd.Valid)
include hvalid

/-- A record that is too long for one string is published as its groups. -/
theorem txtStrings_eq (hlong : txtStringMax < Str.len r.toTxt) :
    r.txtStrings = trailing (r.groups.map spaced) := by
  have hne : ∀ t ∈ r.tokens, t ≠ [] := fun t ht => (RecordField.isWord_of_mem hvalid t ht).1
  obtain ⟨hfold, hopen⟩ := foldl_packToken hne ([], []) (by simp)
  have hstart : (([] : List (List Str)).map spaced, spaced []) = (([], []) : List Str × Str) := rfl
  rw [hstart] at hfold
  rw [txtStrings, if_neg (by omega), split_toTxt hvalid, hfold, groups, Packing.pack,
    Packing.close]
  generalize r.tokens.foldl (Packing.place fitsIn) ([], []) = s at hopen ⊢
  by_cases hs : s.2 = []
  · have hcur : spaced [] = [] := rfl
    simp [hs, hcur]
  · have hcur : spaced s.2 ≠ [] := mt (spaced_eq_nil_iff hopen).mp hs
    simp [hs, hcur]

omit [Relays] hvalid in
theorem flatten_groups (r : DnsRecord) : r.groups.flatten = r.tokens :=
  Packing.flatten_pack fitsIn r.tokens

omit [Relays] hvalid in
theorem ne_nil_of_mem_groups (r : DnsRecord) : ∀ g ∈ r.groups, g ≠ [] :=
  Packing.ne_nil_of_mem_pack fitsIn

/-- The words of a group. -/
theorem isWord_of_mem_group {g : List Str} (hg : g ∈ r.groups) : ∀ t ∈ g, IsWord t := by
  intro t ht
  have hmem : t ∈ r.groups.flatten := List.mem_flatten_of_mem hg ht
  rw [flatten_groups] at hmem
  exact RecordField.isWord_of_mem hvalid t hmem

/-- One after the other the strings are the text. -/
theorem flatten_txtStrings : r.txtStrings.flatten = r.toTxt := by
  by_cases hlong : txtStringMax < Str.len r.toTxt
  · rw [txtStrings_eq hvalid hlong, flatten_trailing,
      spaced_flatten r.ne_nil_of_mem_groups, flatten_groups, toTxt_eq]
    rfl
  · rw [txtStrings, if_pos (by omega), List.flatten_singleton]

/-- No word is cut: the words of the strings are the words. -/
theorem words_txtStrings : r.txtStrings.flatMap Str.splitWhitespace = r.tokens := by
  have hwords := RecordField.isWord_of_mem hvalid
  by_cases hlong : txtStringMax < Str.len r.toTxt
  · have hgroup : ∀ g ∈ r.groups, Str.splitWhitespace (spaced g) = g := fun g hg =>
      (spaced_intercalate (by simp) (List.all_eq_true.mp (by decide))
        (r.ne_nil_of_mem_groups g hg)).words (isWord_of_mem_group hvalid hg)
    rw [txtStrings_eq hvalid hlong, words_trailing, List.flatMap_map,
      List.flatMap_congr hgroup, List.flatMap_id']
    exact r.flatten_groups
  · have htokens : r.tokens ≠ [] := by simp [tokens, fields]
    rw [txtStrings, if_pos (by omega), List.flatMap_singleton, toTxt_eq]
    exact (spaced_intercalate (by simp) (List.all_eq_true.mp (by decide)) htokens).words hwords

/-- Without a relay of 249 bytes the strings fit. -/
theorem txtStrings_fit (hrelay : ∀ u ∈ r.relay, Str.len u ≠ 249) :
    ∀ s ∈ r.txtStrings, Str.len s ≤ txtStringMax := by
  by_cases hlong : txtStringMax < Str.len r.toTxt
  · have hshort : ∀ t ∈ r.tokens, Str.len t ≤ 254 := by
      intro t ht
      obtain ⟨fd, hfd, rfl⟩ := List.mem_map.mp ht
      refine RecordField.len_token_le (hvalid fd hfd) fun u hu => hrelay u ?_
      subst hu
      simpa [fields] using hfd
    have hgroup : ∀ g ∈ r.groups, Str.len (spaced g) ≤ 254 := by
      refine Packing.pack_forall fitsIn (fun t ht => ?_) fun g hg _ t _ hfits => ?_
      · rw [spaced_singleton]
        exact hshort t ht
      · have hroom : Str.len (spaced g) + 1 + Str.len t + 1 ≤ 255 := of_decide_eq_true hfits
        rw [len_spaced_concat hg]
        omega
    rw [txtStrings_eq hvalid hlong]
    intro s hs
    obtain ⟨b, hb, hsb⟩ := of_mem_trailing hs
    obtain ⟨g, hg, rfl⟩ := List.mem_map.mp hb
    have hlen := hgroup g hg
    have hspace : ' '.utf8Size = 1 := by decide
    rw [txtStringMax]
    rcases hsb with rfl | rfl
    · omega
    · rw [Str.len_append, Str.len_cons, Str.len_nil, hspace]
      omega
  · rw [txtStrings, if_pos (by omega)]
    intro s hs
    rw [List.mem_singleton.mp hs]
    omega

omit [Relays] hvalid in
/-- The word of a relay of 249 bytes is as long as a string may be. -/
theorem len_token_relay {u : Str} (hlen : Str.len u = 249) :
    Str.len (RecordField.relay u).token = 255 := by
  have hlabel : Str.len (RecordField.relay u).label = 5 := show Str.len "relay" = 5 by decide
  have hvalue : Str.len (RecordField.relay u).value = 249 := hlen
  rw [RecordField.len_token]
  omega

omit [Relays] hvalid in
/-- Before the word of a relay there are others, and after it too. -/
theorem tokens_of_relay {u : Str} (hu : u ∈ r.relay) : ∃ before after, before ≠ [] ∧
    r.tokens = before ++ (RecordField.relay u).token :: (after ++ [(RecordField.sig r.sig).token]) := by
  refine ⟨[RecordField.version, .key r.key, .ts r.ts].map RecordField.token,
    (r.seed.toList.map RecordField.seed).map RecordField.token, by simp, ?_⟩
  rw [tokens, fields, Option.mem_def.mp hu]
  simp

/-- The word of a relay of 249 bytes has a string of its own, of 256 bytes with its space. -/
theorem mem_txtStrings_of_relay {u : Str} (hu : u ∈ r.relay) (hlen : Str.len u = 249) :
    (RecordField.relay u).token ++ [' '] ∈ r.txtStrings := by
  obtain ⟨before, after, hbefore, htokens⟩ := tokens_of_relay hu
  have htoken := len_token_relay hlen
  have hlast : (RecordField.relay u).token ≠ (RecordField.sig r.sig).token := nofun
  generalize (RecordField.relay u).token = t at htokens htoken hlast ⊢
  have hlong : txtStringMax < Str.len r.toTxt := by
    have hspace : ' '.utf8Size = 1 := by decide
    have hspaced : r.toTxt = spaced before ++ ' ' :: (t ++ ' ' ::
        spaced (after ++ [(RecordField.sig r.sig).token])) := by
      rw [toTxt_eq, htokens, ← spaced_cons t (by simp), ← spaced_append hbefore (by simp)]
      rfl
    rw [hspaced, Str.len_append, Str.len_cons, Str.len_append, hspace, htoken, txtStringMax]
    omega
  have halone : [t] ∈ r.groups := by
    refine Packing.mem_pack_of_alone fitsIn (fun g => ?_) (fun a => ?_) (by simp [htokens])
    · refine decide_eq_false ?_
      rw [htoken, txtStringMax]
      omega
    · refine decide_eq_false ?_
      rw [spaced_singleton, htoken, txtStringMax]
      omega
  obtain ⟨out, rest, hgroups⟩ := List.append_of_mem halone
  have hrest : rest ≠ [] := by
    rintro rfl
    have hflat := r.flatten_groups
    have hends : out.flatten ++ [t] = (before ++ t :: after) ++ [(RecordField.sig r.sig).token] := by
      simpa [hgroups, htokens] using hflat
    exact hlast (List.singleton_inj.mp (List.append_inj' hends rfl).2)
  rw [txtStrings_eq hvalid hlong, hgroups, List.map_append, List.map_cons, spaced_singleton]
  exact mem_trailing (mt List.map_eq_nil_iff.mp hrest)

end DnsRecord

section
variable [Relays] [External]

/-- **The strings of a signed record fit, say its text and cut no word, exactly when its relay, if it
has one, is not of 249 bytes.** -/
theorem DnsRecord.txtStrings_fit_iff (hlength : ∀ sk msg, (External.sign sk msg).length = 64)
    {zone : Str} {id : Identity} {ts : ℕ} {relay : Option Str} {seed : Option PublisherId}
    {r : DnsRecord} (hts : ts < 2 ^ 64) (h : signFull zone id ts relay seed = .ok r) :
    ((∀ s ∈ r.txtStrings, Str.len s ≤ txtStringMax) ∧ r.txtStrings.flatten = r.toTxt ∧
        r.txtStrings.flatMap Str.splitWhitespace = Str.split ' ' r.toTxt) ↔
      ∀ u ∈ relay, Str.len u ≠ 249 := by
  have hvalid := valid_signed hlength hts h
  obtain ⟨-, -, rfl⟩ := signFull_ok h
  constructor
  · rintro ⟨hfit, -, -⟩ u hu hlen
    have hstring := hfit _ (mem_txtStrings_of_relay hvalid hu hlen)
    have hspace : ' '.utf8Size = 1 := by decide
    rw [Str.len_append, Str.len_cons, Str.len_nil, hspace, len_token_relay hlen,
      txtStringMax] at hstring
    omega
  · intro hrelay
    refine ⟨txtStrings_fit hvalid hrelay, flatten_txtStrings hvalid, ?_⟩
    rw [words_txtStrings hvalid, split_toTxt hvalid]

end

namespace Sample

/-- A relay URL of `26 + n` bytes. -/
def relayUrl (n : ℕ) : Str := "https://relay.example.com/" ++ List.replicate n 'a'

/-- A record with a relay. -/
def withRelayUrl (relay : Str) : DnsRecord :=
  letI := sample
  { key := alice.id, ts := 1700000000, relay := some relay, seed := none
    sig := alice.sign (canonicalPayload "images.example.com" alice.id 1700000000 (some relay) none) }

end Sample

namespace DnsRecord

/-- A record that is split into three strings. -/
theorem txtStrings_fit_iff_at : letI := sample; letI := Sample.urls
    let r := Sample.withRelayUrl (Sample.relayUrl 200)
    r.txtStrings.length = 3 ∧
      (((∀ s ∈ r.txtStrings, Str.len s ≤ txtStringMax) ∧ r.txtStrings.flatten = r.toTxt ∧
          r.txtStrings.flatMap Str.splitWhitespace = Str.split ' ' r.toTxt) ↔
        ∀ u ∈ some (Sample.relayUrl 200), Str.len u ≠ 249) := by
  let _ := sample
  let _ := Sample.urls
  have hsigned : signFull "images.example.com" Sample.alice 1700000000
      (some (Sample.relayUrl 200)) none = .ok (Sample.withRelayUrl (Sample.relayUrl 200)) := by
    decide +kernel
  exact ⟨by decide +kernel, txtStrings_fit_iff Sample.signatureLaws.length (by decide) hsigned⟩

/-- A record with a relay of 249 bytes is signed, and one of its strings has 256 bytes. -/
theorem long_relay_overflows : letI := sample; letI := Sample.urls
    signFull "images.example.com" Sample.alice 1700000000 (some (Sample.relayUrl 223)) none =
        .ok (Sample.withRelayUrl (Sample.relayUrl 223)) ∧
      ∃ s ∈ (Sample.withRelayUrl (Sample.relayUrl 223)).txtStrings, Str.len s = 256 := by
  let _ := sample
  let _ := Sample.urls
  exact ⟨by decide +kernel, by decide +kernel⟩

end DnsRecord

end Ocid
