import Ocid.Core.External
import Ocid.Lib.Chunks

/-!
# Clients — Events — the event stream of the daemon

The terminal client reads the stream of server-sent events as it arrives, in chunks that may be cut
anywhere.  It keeps the bytes it has until a blank line ends a frame, and hands the events of the
frame's `data:` lines on, until there is nobody to take them (`listenChunks`).

The frames are the pieces of the stream up to its blank lines, and what is handed on is what they
say, in their order, wherever the chunks were cut (`listen_chunks`).  The daemon writes each event
as a frame of one line, so each arrives once and in order (`events_arrive`).
-/

namespace Ocid

/-! ### Texts -/

namespace Str

/-- `str::lines`: a line ends at `\n` or `\r\n`, and at the end of the text if it is not empty. -/
def lines (s : Str) : List Str :=
  ((split '\n' s).dropLast.map fun l => if l.getLast? = some '\r' then l.dropLast else l) ++
    (split '\n' s).getLast?.toList.filter fun l => !l.isEmpty

/-- `str::from_utf8`. -/
def fromUtf8 (bs : Bytes) : Option Str := bs.toByteArray.utf8Decode?.map Array.toList

theorem fromUtf8_toUtf8 (s : Str) : fromUtf8 s.toUtf8 = some s := by
  have h : (List.toByteArray s.toUtf8).utf8Decode? = some s.toArray := List.utf8Decode?_utf8Encode
  rw [fromUtf8, h]
  rfl

end Str

/-! ### The listener -/

variable {E : Type} (decode : Str → Option E) (accepts : ℕ → Bool)

/-- The channel takes the event, after those that were sent, or its other end is gone. -/
def send (sent : List E) (ev : E) : Except (List E) (List E) :=
  if accepts sent.length then .ok (sent ++ [ev]) else .error sent

/-- The event of a `data:` line, if it has one. -/
def lineEvent (line : Str) : Option E :=
  (("data:" : Str).isPrefixOf? (line.dropWhile Str.isWhitespace)).bind fun rest =>
    decode (((" " : Str).isPrefixOf? rest).getD rest)

/-- What is done with one line. -/
def onLine (sent : List E) (line : Str) : Except (List E) (List E) :=
  match lineEvent decode line with
  | none => .ok sent
  | some ev => send accepts sent ev

/-- What is done with one frame. -/
def onFrame (sent : List E) (frame : Bytes) : Except (List E) (List E) :=
  match Str.fromUtf8 frame with
  | none => .ok sent
  | some text => (Str.lines text).foldlM (onLine decode accepts) sent

/-- `b"\n\n"`. -/
def frameEnd : Bytes := [10, 10]

/-- The frames of a stream: what stands between blank lines. -/
def frames : Cutter UInt8 Bytes := separated frameEnd (List.cons_ne_nil _ _)

/-- Read one response, chunk by chunk: the bytes that are kept and the events that were sent; or an
error with these, when the listener returns. -/
def listenChunks (chunks : List Bytes) (sent : List E) : Except (List E) (Bytes × List E) :=
  chunks.foldlM (frames.feed (onFrame decode accepts)) ([], sent)

/-- Read the responses one after the other.  A request that fails is a response without chunks. -/
def listenSse (responses : List (List Bytes)) : Except (List E) (List E) :=
  responses.foldlM (fun sent chunks => Prod.snd <$> listenChunks decode accepts chunks sent) []

/-! ### What is sent -/

/-- The frames of a stream and the rest. -/
theorem isFrames_iff_drain {s rest : Bytes} {fs : List Bytes} :
    IsFrames frameEnd s fs rest ↔ frames.drain s = (fs, rest) := isFrames_iff _

/-- The events of a frame. -/
def frameEvents (frame : Bytes) : List E :=
  ((Str.fromUtf8 frame).map fun text => (Str.lines text).filterMap (lineEvent decode)).getD []

variable {decode accepts}

theorem foldlM_onLine (lines : List Str) (sent : List E) :
    lines.foldlM (onLine decode accepts) sent =
      (lines.filterMap (lineEvent decode)).foldlM (send accepts) sent := by
  induction lines generalizing sent with
  | nil => rfl
  | cons line lines ih =>
      rw [List.foldlM_cons, onLine, List.filterMap_cons]
      cases lineEvent decode line with
      | none => exact ih sent
      | some ev =>
          rw [List.foldlM_cons]
          exact bind_congr ih

theorem onFrame_eq (sent : List E) (frame : Bytes) : onFrame decode accepts sent frame =
    (frameEvents decode frame).foldlM (send accepts) sent := by
  rw [onFrame, frameEvents]
  cases Str.fromUtf8 frame with
  | none => rfl
  | some text => exact foldlM_onLine _ sent

theorem foldlM_onFrame (fs : List Bytes) (sent : List E) :
    fs.foldlM (onFrame decode accepts) sent =
      (fs.flatMap (frameEvents decode)).foldlM (send accepts) sent := by
  induction fs generalizing sent with
  | nil => rfl
  | cons f fs ih =>
      rw [List.foldlM_cons, onFrame_eq, List.flatMap_cons, List.foldlM_append]
      exact bind_congr ih

/-- Where everything is taken, everything is sent. -/
theorem foldlM_send (h : ∀ n, accepts n = true) (evs sent : List E) :
    evs.foldlM (send accepts) sent = .ok (sent ++ evs) := by
  induction evs generalizing sent with
  | nil => rw [List.append_nil]; rfl
  | cons ev evs ih =>
      rw [List.foldlM_cons, send, if_pos (h _)]
      exact (ih _).trans (by rw [List.append_assoc]; rfl)

/-- What is read of the chunks is what is read of the stream. -/
theorem listenChunks_eq (chunks : List Bytes) (sent : List E) :
    listenChunks decode accepts chunks sent =
      ((frames.drain chunks.flatten).1.flatMap (frameEvents decode)).foldlM (send accepts) sent >>=
        fun sent => pure ((frames.drain chunks.flatten).2, sent) := by
  have hempty : frames.cut [] = none := rfl
  rw [listenChunks, Cutter.foldlM_feed _ _ hempty, Cutter.consume_eq, foldlM_onFrame,
    List.nil_append]

theorem listenChunks_flatten (chunks : List Bytes) (sent : List E) :
    listenChunks decode accepts chunks sent =
      listenChunks decode accepts [chunks.flatten] sent := by
  rw [listenChunks_eq, listenChunks_eq, List.flatten_singleton]

/-- The bytes that are kept have no frame. -/
theorem rest_of_listenChunks {chunks : List Bytes} {sent sent' : List E} {buf : Bytes}
    (h : listenChunks decode accepts chunks sent = .ok (buf, sent')) : ¬ frameEnd <:+: buf := by
  rw [listenChunks_eq] at h
  cases hsend : ((frames.drain chunks.flatten).1.flatMap (frameEvents decode)).foldlM
      (send accepts) sent with
  | error gone =>
      rw [hsend] at h
      cases h
  | ok st =>
      rw [hsend] at h
      obtain ⟨rfl, -⟩ := Prod.mk.inj (Except.ok.inj h)
      exact cutFrame_eq_none.mp (frames.cut_drain _)

variable (decode accepts)

/-- **The listener sends the same events however the stream is cut into chunks: those of the `data:`
lines of its frames, in their order.**  After each chunk it keeps no complete frame. -/
theorem listen_chunks (chunks : List Bytes) (sent : List E) :
    listenChunks decode accepts chunks sent =
        listenChunks decode accepts [chunks.flatten] sent ∧
      (∃ fs rest, IsFrames frameEnd chunks.flatten fs rest ∧
        listenChunks decode accepts chunks sent =
          (fun sent => (rest, sent)) <$>
            (fs.flatMap (frameEvents decode)).foldlM (send accepts) sent ∧
        ((∀ n, accepts n = true) → listenChunks decode accepts chunks sent =
          .ok (rest, sent ++ fs.flatMap (frameEvents decode)))) ∧
      ∀ front, front <+: chunks → ∀ buf sent',
        listenChunks decode accepts front sent = .ok (buf, sent') → ¬ frameEnd <:+: buf := by
  refine ⟨listenChunks_flatten chunks sent, ?_, fun front _ buf sent' h => rest_of_listenChunks h⟩
  refine ⟨(frames.drain chunks.flatten).1, (frames.drain chunks.flatten).2,
    isFrames_iff_drain.mpr rfl, ?_, fun hall => ?_⟩
  · rw [listenChunks_eq, map_eq_pure_bind]
  · rw [listenChunks_eq, foldlM_send hall]
    rfl

/-- Nor does it matter in which chunks the responses came. -/
theorem listenSse_flatten (responses : List (List Bytes)) : listenSse decode accepts responses =
    listenSse decode accepts (responses.map fun chunks => [chunks.flatten]) := by
  rw [listenSse, listenSse, List.foldlM_map]
  refine congrArg (fun f => List.foldlM f [] responses) ?_
  funext sent chunks
  rw [listenChunks_flatten]

/-! ### What the daemon writes -/

/-- One item of the stream: an event, or a comment that keeps the connection alive. -/
inductive SseItem (E : Type) where
  | data (ev : E)
  | comment (text : Str)

namespace SseItem

variable (encode : E → Str)

/-- An item as the server writes it, without the blank line that ends it. -/
def text : SseItem E → Str
  | data ev => ("data: " : Str) ++ encode ev
  | comment text => ':' :: text

/-- An item with the blank line that ends it. -/
def bytes (item : SseItem E) : Bytes := Str.toUtf8 (item.text encode ++ ['\n', '\n'])

/-- The event of an item. -/
def event : SseItem E → Option E
  | data ev => some ev
  | comment _ => none

end SseItem

/-- A text of one line. -/
structure OneLine (s : Str) : Prop where
  newline : '\n' ∉ s
  last : s.getLast? ≠ some '\r'

/-- No other character has the byte of the newline in it. -/
theorem eq_newline_of_mem {c : Char} (h : 10 ∈ String.utf8EncodeChar c) : c = '\n' := by
  have hbyte : ∀ n < 256, (10 : UInt8) = UInt8.ofNat n → n = 10 := fun n hn heq => by
    have := congrArg UInt8.toNat heq
    rw [UInt8.toNat_ofNat_of_lt' hn] at this
    exact this.symm
  have hhigh : ∀ n, 128 ≤ n → n < 256 → (10 : UInt8) ≠ UInt8.ofNat n := fun n hlow hn heq => by
    have := hbyte n hn heq
    omega
  simp only [String.utf8EncodeChar] at h
  split at h
  · rename_i hone
    have hn := hbyte _ (by omega) (List.mem_singleton.mp h)
    exact Char.ext (UInt32.toNat_inj.mp hn)
  · exfalso
    split at h
    · simp only [List.mem_cons, List.not_mem_nil, or_false] at h
      rcases h with h | h
      all_goals exact hhigh _ (by omega) (by omega) h
    · split at h
      all_goals simp only [List.mem_cons, List.not_mem_nil, or_false] at h
      · rcases h with h | h | h
        all_goals exact hhigh _ (by omega) (by omega) h
      · rcases h with h | h | h | h
        all_goals exact hhigh _ (by omega) (by omega) h

theorem lines_item {s : Str} (h : OneLine s) : Str.lines (s ++ ['\n', '\n']) = [s, []] := by
  have hsplit : Str.split '\n' (s ++ ['\n', '\n']) = [s, [], []] := Str.split_append h.newline _
  rw [Str.lines, hsplit]
  simp [h.last]

variable {decode}

/-- What is read of one item is its event. -/
theorem frameEvents_item {encode : E → Str} (hdecode : ∀ ev, decode (encode ev) = some ev)
    {item : SseItem E} (h : OneLine (item.text encode)) :
    frameEvents decode (item.bytes encode) = item.event.toList := by
  have hempty : lineEvent decode [] = none := rfl
  have hline : lineEvent decode (item.text encode) = item.event := by
    cases item with
    | data ev => exact hdecode ev
    | comment text => rfl
  rw [frameEvents, SseItem.bytes, Str.fromUtf8_toUtf8, Option.map_some, Option.getD_some,
    lines_item h, List.filterMap_cons, List.filterMap_cons, hempty, hline]
  cases item.event <;> rfl

/-- The items of a stream are its frames. -/
theorem isFrames_items {encode : E → Str} {items : List (SseItem E)} {part : Bytes}
    (h : ∀ item ∈ items, OneLine (item.text encode)) (hpart : ¬ frameEnd <:+: part) :
    IsFrames frameEnd (items.flatMap (SseItem.bytes encode) ++ part)
      (items.map (SseItem.bytes encode)) part := by
  refine ⟨by rw [List.flatMap_def], fun f hf => ?_, hpart⟩
  obtain ⟨item, hitem, rfl⟩ := List.mem_map.mp hf
  have hbytes : item.bytes encode = (item.text encode).toUtf8 ++ frameEnd := by
    rw [SseItem.bytes, Str.toUtf8, List.flatMap_append]
    rfl
  have hno : (10 : UInt8) ∉ (item.text encode).toUtf8 := fun hmem => by
    obtain ⟨c, hc, hbyte⟩ := List.mem_flatMap.mp hmem
    exact (h item hitem).newline (eq_newline_of_mem hbyte ▸ hc)
  rw [hbytes]
  refine ⟨List.suffix_append _ _, fun hin => ?_⟩
  have hdrop : ((item.text encode).toUtf8 ++ frameEnd).dropLast =
      (item.text encode).toUtf8 ++ [10] := by
    rw [frameEnd, List.dropLast_append_of_ne_nil (List.cons_ne_nil _ _)]
    rfl
  rw [hdrop, frameEnd, Search.infix_append_of_notMem hno] at hin
  exact absurd hin.length_le (by decide)

/-- **Every event that the daemon writes is sent once, in order, and nothing else, however the
stream is cut into chunks.** -/
theorem events_arrive {encode : E → Str} (hdecode : ∀ ev, decode (encode ev) = some ev)
    {items : List (SseItem E)} {part : Bytes} {chunks : List Bytes}
    (h : ∀ item ∈ items, OneLine (item.text encode)) (hpart : ¬ frameEnd <:+: part)
    (hchunks : chunks.flatten = items.flatMap (SseItem.bytes encode) ++ part) :
    listenChunks decode (fun _ => true) chunks [] = .ok (part, items.filterMap SseItem.event) := by
  have hdrain := isFrames_iff_drain.mp (isFrames_items h hpart)
  have hevents : (items.map (SseItem.bytes encode)).flatMap (frameEvents decode) =
      items.filterMap SseItem.event := by
    rw [List.flatMap_map, List.filterMap_eq_flatMap_toList]
    exact List.flatMap_congr fun item hitem => frameEvents_item hdecode (h item hitem)
  rw [listenChunks_eq, foldlM_send fun _ => rfl, hchunks, hdrain, hevents]
  rfl

end Ocid
