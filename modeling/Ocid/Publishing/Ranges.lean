import Ocid.Daemon.Registry
import Ocid.Daemon.Sample

/-!
# Publishing — Ranges — blobs served in parts

A blob is served whole, or in the part that a `Range` header asks for: from a byte to a byte, from a
byte on, or so many bytes at the end.  `parseRange` reads the header and clamps what it asks for to
the blob, so that the part it returns, first and last byte included, lies in the blob and is not
empty (`parseRange_bounds`).

However a blob is cut into consecutive parts, the answers put together are the blob
(`ranges_reassemble`).
-/

namespace Ocid

open Call

/-! ### The route -/

/-- The first and the last byte of `start-end`, `start-` or `-suffix`. -/
def rangeEnds (a b : Str) (size : ℕ) : Option (ℕ × ℕ) :=
  match a, b with
  | [], suffix => (parseU64 suffix).bind fun n =>
      if n = 0 then none else some (size - n, size - 1)
  | start, [] => (parseU64 start).map fun start => (start, size - 1)
  | start, stop => (parseU64 start).bind fun start =>
      (parseU64 stop).map fun stop => (start, min stop (size - 1))

/-- Parse a single `bytes=` range into an inclusive `(start, end)`. -/
def parseRange (spec : Str) (size : ℕ) : Option (ℕ × ℕ) :=
  (("bytes=" : Str).isPrefixOf? spec).bind fun spec =>
    let spec := Str.trim spec
    if spec.contains ',' || size == 0 then none
    else (Str.splitOnce '-' spec).bind fun p =>
      (rangeEnds (Str.trim p.1) (Str.trim p.2) size).filter fun r => r.1 ≤ r.2 && r.1 < size

/-- The answer to a range that does not lie in the blob. -/
def rangeNotSatisfiable (size : ℕ) : Response where
  status := 416
  headers := [("content-range", "bytes */" ++ Nat.toDigits 10 size)]
  body := []

section
variable [External]

/-- The part of a blob from `start` on, of `len` bytes. -/
def servePart (blob : BlobRef) (range : Option (ℕ × ℕ)) (head : Bool) : Handler Response := do
  let (status, start, len) := match range with
    | some (start, stop) => (206, start, stop - start + 1)
    | none => (200, 0, blob.size)
  let headers : List (Str × Str) :=
    [("content-type", "application/octet-stream"), ("content-length", Nat.toDigits 10 len),
      ("accept-ranges", "bytes"), ("docker-content-digest", blob.digest.str)]
  let headers := match range with
    | some (start, stop) => headers ++ [(("content-range" : Str), "bytes " ++
        (Nat.toDigits 10 start ++ '-' :: (Nat.toDigits 10 stop ++
          '/' :: Nat.toDigits 10 blob.size)))]
    | none => headers
  if head then pure ⟨status, headers, []⟩
  else do
    let bytes ← (readHash blob.hash).lift
    pure ⟨status, headers, (bytes.drop start).take len⟩

/-- `GET` and `HEAD /v2/<name>/blobs/<digest>`. -/
def blobGet (node : Node) (name digest : Str) (range : Option Str) (head : Bool) :
    Handler Response := do
  let _ ← ofExcept (resolve node name)
  let digest ← ofExcept ((Digest.parse digest).mapError fun e =>
    .badRequest "DIGEST_INVALID" e.message)
  let s ← read
  match (s.blobRef digest).filter fun b => s.hasHash b.hash with
  | none => fail (.notFound "BLOB_UNKNOWN" ("blob " ++ digest.str ++ " not found"))
  | some blob =>
      match range with
      | none => servePart blob none head
      | some spec =>
          match parseRange spec blob.size with
          | some r => servePart blob (some r) head
          | none => pure (rangeNotSatisfiable blob.size)

end

/-! ### What a range may be -/

theorem rangeEnds_stop {a b : Str} {size : ℕ} {r : ℕ × ℕ} (h : rangeEnds a b size = some r) :
    r.2 ≤ size - 1 := by
  unfold rangeEnds at h
  split at h
  · obtain ⟨n, -, h⟩ := Option.bind_eq_some_iff.mp h
    split at h
    · cases h
    · rw [← Option.some.inj h]
  · obtain ⟨start, -, rfl⟩ := Option.map_eq_some_iff.mp h
    exact le_refl _
  · obtain ⟨start, -, h⟩ := Option.bind_eq_some_iff.mp h
    obtain ⟨stop, -, rfl⟩ := Option.map_eq_some_iff.mp h
    exact Nat.min_le_right _ _

/-- **A range that is accepted lies in the blob, and is not empty.** -/
theorem parseRange_bounds {spec : Str} {size start stop : ℕ}
    (h : parseRange spec size = some (start, stop)) : start ≤ stop ∧ stop < size := by
  obtain ⟨rest, -, h⟩ := Option.bind_eq_some_iff.mp h
  dsimp only at h
  split at h
  · cases h
  · obtain ⟨p, -, h⟩ := Option.bind_eq_some_iff.mp h
    obtain ⟨hends, hin⟩ := Option.filter_eq_some_iff.mp h
    have hstop := rangeEnds_stop hends
    simp only [Bool.and_eq_true, decide_eq_true_eq] at hin
    simp only at hstop
    omega

/-! ### The headers of the parts -/

/-- `bytes=<start>-<last>` of the part from `start` up to `stop`. -/
def closedRange (start stop : ℕ) : Str :=
  "bytes=" ++ (Nat.toDigits 10 start ++ '-' :: Nat.toDigits 10 (stop - 1))

/-- `bytes=<start>-` -/
def openRange (start : ℕ) : Str := "bytes=" ++ (Nat.toDigits 10 start ++ ['-'])

/-- `bytes=-<len>` -/
def suffixRange (len : ℕ) : Str := "bytes=" ++ '-' :: Nat.toDigits 10 len

/-- The texts before and after the dash of a range. -/
theorem parseRange_eq {a b : Str} {size : ℕ} (ha : ∀ c ∈ a, isAsciiDigit c = true)
    (hb : ∀ c ∈ b, isAsciiDigit c = true) (hsize : 0 < size) :
    parseRange ("bytes=" ++ (a ++ '-' :: b)) size =
      (rangeEnds a b size).filter fun r => r.1 ≤ r.2 && r.1 < size := by
  have hplain : ∀ {s : Str}, (∀ c ∈ s, isAsciiDigit c = true) →
      ∀ c ∈ s, c ≠ '-' ∧ c ≠ ',' ∧ Str.isWhitespace c = false := by
    refine fun hs c hc => ⟨?_, ?_, isWhitespace_of_isDigit (hs c hc)⟩
    · rintro rfl
      exact absurd (hs _ hc) (by decide)
    · rintro rfl
      exact absurd (hs _ hc) (by decide)
  have hstrip : ("bytes=" : Str).isPrefixOf? ("bytes=" ++ (a ++ '-' :: b)) = some (a ++ '-' :: b) :=
    List.isPrefixOf?_eq_some_iff_append_eq.mpr rfl
  have hspec : ∀ c ∈ a ++ '-' :: b, c ≠ ',' ∧ Str.isWhitespace c = false := by
    intro c hc
    rcases List.mem_append.mp hc with hc | hc
    · exact (hplain ha c hc).2
    · rcases List.mem_cons.mp hc with rfl | hc
      · decide
      · exact (hplain hb c hc).2
  have hcomma : (a ++ '-' :: b).contains ',' = false := by
    rw [Bool.eq_false_iff]
    exact fun hc => (hspec _ (List.contains_iff_mem.mp hc)).1 rfl
  have hne : (size == 0) = false := beq_eq_false_iff_ne.mpr (by omega)
  have hsplit : Str.splitOnce '-' (a ++ '-' :: b) = some (a, b) :=
    Str.splitOnce_append (fun hmem => (hplain ha _ hmem).1 rfl) b
  have htrim : ∀ {s : Str}, (∀ c ∈ s, isAsciiDigit c = true) → Str.trim s = s := fun hs =>
    Str.trim_of_forall fun c hc => (hplain hs c hc).2.2
  rw [parseRange, hstrip, Option.bind_some]
  dsimp only
  rw [Str.trim_of_forall fun c hc => (hspec c hc).2, hcomma, hne, Bool.or_false,
    if_neg Bool.false_ne_true, hsplit, Option.bind_some, htrim ha, htrim hb]

theorem rangeEnds_digits {start stop : ℕ} (hstart : start < 2 ^ 64) (hstop : stop < 2 ^ 64)
    (size : ℕ) : rangeEnds (Nat.toDigits 10 start) (Nat.toDigits 10 stop) size =
      some (start, min stop (size - 1)) := by
  obtain ⟨c, cs, hc⟩ := List.exists_cons_of_ne_nil (Nat.toDigits_ne_nil (n := start) (b := 10))
  obtain ⟨d, ds, hd⟩ := List.exists_cons_of_ne_nil (Nat.toDigits_ne_nil (n := stop) (b := 10))
  have hread := parseU64_toDigits hstart
  have hread' := parseU64_toDigits hstop
  rw [hc] at hread ⊢
  rw [hd] at hread' ⊢
  rw [rangeEnds, hread, hread']
  · rfl
  · nofun
  · nofun

theorem rangeEnds_open {start : ℕ} (hstart : start < 2 ^ 64) (size : ℕ) :
    rangeEnds (Nat.toDigits 10 start) [] size = some (start, size - 1) := by
  obtain ⟨c, cs, hc⟩ := List.exists_cons_of_ne_nil (Nat.toDigits_ne_nil (n := start) (b := 10))
  have hread := parseU64_toDigits hstart
  rw [hc] at hread ⊢
  rw [rangeEnds, hread]
  · rfl
  · nofun

section
variable {start stop size : ℕ} (h : start < stop) (hstop : stop ≤ size) (h64 : size < 2 ^ 64)
include h hstop h64

theorem parseRange_closed : parseRange (closedRange start stop) size = some (start, stop - 1) := by
  have hin : min (stop - 1) (size - 1) = stop - 1 := by omega
  have hheader : closedRange start stop =
      ("bytes=" : Str) ++ (Nat.toDigits 10 start ++ '-' :: Nat.toDigits 10 (stop - 1)) := rfl
  rw [hheader, parseRange_eq (fun _ => isDigit_of_mem_toDigits)
    (fun _ => isDigit_of_mem_toDigits) (by omega), rangeEnds_digits (by omega) (by omega), hin]
  exact Option.filter_eq_some_iff.mpr ⟨rfl, by simp; omega⟩

end

section
variable {start size : ℕ} (h : start < size) (h64 : size < 2 ^ 64)
include h h64

theorem parseRange_open : parseRange (openRange start) size = some (start, size - 1) := by
  have hheader : openRange start =
      ("bytes=" : Str) ++ (Nat.toDigits 10 start ++ '-' :: []) := rfl
  rw [hheader, parseRange_eq (fun _ => isDigit_of_mem_toDigits) (by simp) (by omega),
    rangeEnds_open (by omega)]
  exact Option.filter_eq_some_iff.mpr ⟨rfl, by simp; omega⟩

theorem parseRange_suffix :
    parseRange (suffixRange (size - start)) size = some (start, size - 1) := by
  have hlen : size - (size - start) = start := by omega
  have hne : size - start ≠ 0 := by omega
  have hheader : suffixRange (size - start) =
      ("bytes=" : Str) ++ ([] ++ '-' :: Nat.toDigits 10 (size - start)) := rfl
  rw [hheader, parseRange_eq (by simp) (fun _ => isDigit_of_mem_toDigits) (by omega),
    rangeEnds, parseU64_toDigits (by omega), Option.bind_some, if_neg hne, hlen]
  exact Option.filter_eq_some_iff.mpr ⟨rfl, by simp; omega⟩

end

/-! ### A blob in parts -/

/-- How the last part is asked for. -/
inductive LastRange where
  | closed
  | opened
  | suffix

/-- The header of the last part, from `start` to the end of the blob. -/
def LastRange.header : LastRange → ℕ → ℕ → Str
  | closed, start, size => closedRange start size
  | opened, start, _ => openRange start
  | suffix, start, size => suffixRange (size - start)

/-- The headers of the parts between cut points. -/
def rangeHeaders (last : LastRange) : List ℕ → List Str
  | [start, size] => [last.header start size]
  | start :: stop :: rest => closedRange start stop :: rangeHeaders last (stop :: rest)
  | _ => []

theorem parseRange_last (last : LastRange) {start size : ℕ} (h : start < size)
    (h64 : size < 2 ^ 64) : parseRange (last.header start size) size = some (start, size - 1) := by
  cases last with
  | closed => exact parseRange_closed h (le_refl _) h64
  | opened => exact parseRange_open h h64
  | suffix => exact parseRange_suffix h h64

/-- The bytes from a cut point up to the next, and those behind. -/
theorem drop_cut {start stop : ℕ} (h : start < stop) (c : Bytes) :
    (c.drop start).take (stop - 1 - start + 1) ++ c.drop stop = c.drop start := by
  have hlen : stop - 1 - start + 1 = stop - start := by omega
  have hdrop : c.drop stop = (c.drop start).drop (stop - start) := by
    rw [List.drop_drop]
    congr 1
    omega
  rw [hlen, hdrop, List.take_append_drop]

/-- Cut points are below the last one. -/
theorem lt_of_cuts {start size : ℕ} {cuts : List ℕ} (hne : cuts ≠ [])
    (hcuts : (start :: cuts).IsChain (· < ·)) (hend : (start :: cuts).getLast? = some size) :
    start < size ∧ ∀ stop ∈ cuts, stop ≤ size := by
  have hsorted := List.isChain_iff_pairwise.mp hcuts
  obtain ⟨before, hbefore⟩ := List.getLast?_eq_some_iff.mp hend
  have hle : ∀ stop ∈ start :: cuts, stop ≤ size := by
    rw [hbefore] at hsorted ⊢
    intro stop hstop
    rcases List.mem_append.mp hstop with hstop | hstop
    · exact le_of_lt ((List.pairwise_append.mp hsorted).2.2 stop hstop size List.mem_cons_self)
    · exact le_of_eq (List.mem_singleton.mp hstop)
  obtain ⟨stop, rest, rfl⟩ := List.exists_cons_of_ne_nil hne
  have hlt : start < stop := (List.pairwise_cons.mp hsorted).1 stop List.mem_cons_self
  have hstop := hle stop (List.mem_cons_of_mem _ List.mem_cons_self)
  exact ⟨by omega, fun k hk => hle k (List.mem_cons_of_mem _ hk)⟩

section
variable [External] {node : Node} {name : Str} {s : Store} {b : BlobRef} {d : Digest} {c : Bytes}
  {K : PublisherId × Str}

/-- The answer to a range that is accepted. -/
theorem blobGet_range (hresolve : resolve node name = .ok K) (hentry : s.blobRef d = some b)
    (hdata : s.blobs.get b.hash = some c) {spec : Str} {start stop : ℕ}
    (hrange : parseRange spec b.size = some (start, stop)) :
    ∃ r : Response, (blobGet node name d.str (some spec) false).result s = .ok r ∧ r.status = 206 ∧
      r.header "content-length" = some (Nat.toDigits 10 (stop - start + 1)) ∧
      r.header "content-range" = some ("bytes " ++ (Nat.toDigits 10 start ++
        '-' :: (Nat.toDigits 10 stop ++ '/' :: Nat.toDigits 10 b.size))) ∧
      r.body = (c.drop start).take (stop - start + 1) := by
  have hread : (readHash b.hash).result s = .ok c := by
    rw [readHash, result, read_bind_apply, hdata]
    rfl
  have hfound : (s.blobRef d).filter (fun b => s.hasHash b.hash) = some b :=
    Option.filter_eq_some_iff.mpr ⟨hentry, Option.isSome_iff_exists.mpr ⟨c, hdata⟩⟩
  have hdigest : ∀ f : Err → OciError, (Digest.parse d.str).mapError f = .ok d := by
    intro f
    rw [Digest.parse_eq_ok.mpr rfl]
    rfl
  have hserve : (blobGet node name d.str (some spec) false).result s =
      (servePart b (some (start, stop)) false).result s := by
    rw [blobGet, hresolve, hdigest, result, ofExcept_bind_apply, ofExcept_bind_apply,
      read_bind_apply, hfound]
    dsimp only
    rw [hrange]
    rfl
  rw [hserve]
  exact ⟨_, result_bind_ok.mpr ⟨c, result_mapErr_ok.mpr hread, rfl⟩, rfl, rfl, rfl, rfl⟩

/-- An answer with a part of a blob of `size` bytes: its length is announced. -/
def Response.IsPart (r : Response) : Prop :=
  r.status = 206 ∧ r.header "content-length" = some (Nat.toDigits 10 r.body.length)

/-- The parts from a cut point on are the blob from there on. -/
theorem parts_from (hresolve : resolve node name = .ok K) (hentry : s.blobRef d = some b)
    (hdata : s.blobs.get b.hash = some c) (hsize : c.length = b.size) (h64 : b.size < 2 ^ 64)
    (last : LastRange) {start : ℕ} {cuts : List ℕ} (hne : cuts ≠ [])
    (hcuts : (start :: cuts).IsChain (· < ·)) (hend : (start :: cuts).getLast? = some b.size) :
    ∃ rs : List Response, (rangeHeaders last (start :: cuts)).mapM (fun spec =>
        (blobGet node name d.str (some spec) false).result s) = .ok rs ∧
      (rs.map Response.body).flatten = c.drop start ∧ ∀ r ∈ rs, r.IsPart := by
  induction cuts generalizing start with
  | nil => exact absurd rfl hne
  | cons stop rest ih =>
      obtain ⟨hlt, hle⟩ := lt_of_cuts hne hcuts hend
      cases rest with
      | nil =>
          obtain rfl : stop = b.size := Option.some.inj hend
          obtain ⟨r, hr, hstatus, hlen, -, hbody⟩ :=
            blobGet_range hresolve hentry hdata (parseRange_last last hlt h64)
          have hall : r.body = c.drop start := by
            rw [hbody, List.take_of_length_le (by rw [List.length_drop]; omega)]
          refine ⟨[r], ?_, by simp [hall], ?_⟩
          · rw [rangeHeaders, List.mapM_cons, hr]
            rfl
          · intro r' hr'
            rw [List.mem_singleton.mp hr']
            refine ⟨hstatus, ?_⟩
            rw [hlen, hall, List.length_drop]
            congr 2
            omega
      | cons next rest =>
          have hstop : stop ≤ b.size := hle stop List.mem_cons_self
          have hcut := List.isChain_cons_cons.mp hcuts
          obtain ⟨r, hr, hstatus, hlen, -, hbody⟩ :=
            blobGet_range hresolve hentry hdata (parseRange_closed hcut.1 hstop h64)
          obtain ⟨rs, hrs, hflat, hparts⟩ := ih (List.cons_ne_nil next rest) hcut.2 hend
          refine ⟨r :: rs, ?_, ?_, ?_⟩
          · have hheaders : rangeHeaders last (start :: stop :: next :: rest) =
                closedRange start stop :: rangeHeaders last (stop :: next :: rest) := rfl
            rw [hheaders, List.mapM_cons, hr]
            exact congrArg (fun tail => tail >>= fun tail => pure (r :: tail)) hrs
          · rw [List.map_cons, List.flatten_cons, hflat, hbody, drop_cut hcut.1]
          · intro r' hr'
            rcases List.mem_cons.mp hr' with rfl | hr'
            · refine ⟨hstatus, ?_⟩
              rw [hlen, hbody, List.length_take, List.length_drop]
              congr 2
              omega
            · exact hparts r' hr'

/-- **A blob served in consecutive parts is the blob, and every range lies in it.** -/
theorem ranges_reassemble (hresolve : resolve node name = .ok K) (hentry : s.blobRef d = some b)
    (hdata : s.blobs.get b.hash = some c) (hsize : c.length = b.size) (hpos : 0 < b.size)
    (h64 : b.size < 2 ^ 64) {cuts : List ℕ} (hcuts : cuts.IsChain (· < ·))
    (hfirst : cuts.head? = some 0) (hend : cuts.getLast? = some b.size) (last : LastRange) :
    (∃ rs : List Response, (rangeHeaders last cuts).mapM (fun spec =>
        (blobGet node name d.str (some spec) false).result s) = .ok rs ∧
      (rs.map Response.body).flatten = c ∧ ∀ r ∈ rs, r.IsPart) ∧
    ∀ (spec : Str) (size start stop : ℕ), size < 2 ^ 64 →
      parseRange spec size = some (start, stop) →
      start ≤ stop ∧ stop < size ∧ stop - start + 1 ≤ size ∧ start + (stop - start + 1) ≤ size := by
  constructor
  · obtain ⟨rest, rfl⟩ := List.head?_eq_some_iff.mp hfirst
    have hne : rest ≠ [] := by
      rintro rfl
      have hzero : 0 = b.size := Option.some.inj hend
      omega
    exact parts_from hresolve hentry hdata hsize h64 last hne hcuts hend
  · intro spec size start stop _ hrange
    have hbounds := parseRange_bounds hrange
    omega

end

namespace Sample

/-- A store with one blob. -/
def withBlob : @Store sample :=
  letI := sample
  (importBlob index.bytes none).final Store.empty

end Sample

/-- A blob of 16 bytes in three parts, the last one as a suffix. -/
theorem ranges_reassemble_at : letI := sample
    let b := Sample.index.blob none
    (∃ rs : List Response, (rangeHeaders .suffix [0, 5, 6, 16]).mapM (fun spec =>
        (blobGet (Sample.node Policy.default) "app" b.digest.str (some spec) false).result
          Sample.withBlob) = .ok rs ∧
      (rs.map Response.body).flatten = Sample.index.bytes ∧ ∀ r ∈ rs, r.IsPart) ∧
    ∀ (spec : Str) (size start stop : ℕ), size < 2 ^ 64 →
      parseRange spec size = some (start, stop) →
      start ≤ stop ∧ stop < size ∧ stop - start + 1 ≤ size ∧
        start + (stop - start + 1) ≤ size := by
  let _ := sample
  have hresolve : resolve (Sample.node Policy.default) "app" = .ok (Sample.bob.id, "app") := by
    decide +kernel
  have hentry : Sample.withBlob.blobRef (Sample.index.blob none).digest =
      some (Sample.index.blob none) := by decide +kernel
  have hdata : Sample.withBlob.blobs.get (Sample.index.blob none).hash =
      some Sample.index.bytes := by decide +kernel
  exact ranges_reassemble hresolve hentry hdata rfl (by decide +kernel) (by decide +kernel)
    (by decide) rfl rfl .suffix

end Ocid
