import Ocid.Core.Wants
import Ocid.Daemon.Node
import Ocid.Naming.Printed

/-!
# Clients — Follows — which releases the desktop extension announces

The extension learns of a release from an event, and of the follows from the node's `Status` reply,
where each is a text: the slot of the entry as the policy holds it, and the mode.  An event is of a
followed publisher when the first word of some text is the publisher's hex.

The daemon reads the slots: a hex, a `did:key` and a domain name follow the same publisher.  So the
two agree about every other publisher than the node exactly when each that is followed is followed
in hex too, and no entry begins with the hex of one that none follows (`FollowsInHex`,
`announced_iff`).
-/

namespace Ocid

/-! ### The reply -/

/-- `Display`. -/
def Mode.toStr : Mode → Str
  | .full => "full"
  | .latest => "latest"
  | .last n => ("last:" : Str) ++ Nat.toDigits 10 n

/-- A rule and its mode. -/
def ruleText (rule : Str) (mode : Mode) : Str := rule ++ (" [" : Str) ++ mode.toStr ++ [']']

/-- What the reply to `GET /_ocid/status` says of the node's state. -/
structure Status where
  id : Str
  did : Str
  neighbors : List Str
  knownPeers : ℕ
  releases : ℕ
  seeds : List Str
  follows : List Str
  pins : List Str
deriving DecidableEq

section
variable [External]

/-- What `GET /_ocid/status` replies. -/
def Node.status (node : Node) (s : Store) : Status where
  id := node.id.toStr
  did := didKey node.id
  neighbors := node.neighbors.map PublicKey.toStr
  knownPeers := node.peers.length
  releases := s.listReleases.length
  seeds := node.policy.seed.map fun e => ruleText e.reference e.mode
  follows := node.policy.follow.map fun e => ruleText e.publisher e.mode
  pins := node.policy.pin

end

/-! ### The extension -/

/-- The events that the daemon sends; only saved releases are announced. -/
inductive DaemonEvent where
  | releaseSaved (publisher name tag : Str)
  | other
deriving DecidableEq

/-- What the extension does about a release: it pulls it, or shows a notice. -/
inductive Announcement where
  | autoPullRelease (publisher name tag : Str)
  | onFollowedRelease (publisher name tag : Str)
deriving DecidableEq

/-- The last reply, if the daemon is there, and the references announced since it is. -/
structure DashboardState where
  status : Option Status
  notified : List Str
deriving DecidableEq

/-- Is a publisher other than the node a followed one? -/
def Status.followed (status : Status) (publisher : Str) : Bool :=
  publisher != status.id &&
    status.follows.any fun f => (Str.split ' ' f).head? == some publisher

namespace DashboardState

/-- The key of a release. -/
def key (publisher name tag : Str) : Str := publisher ++ '/' :: (name ++ ':' :: tag)

/-- What an event does to the dashboard, and what is announced to the user. -/
def onEvent (autoPull : Bool) (st : DashboardState) :
    DaemonEvent → DashboardState × List Announcement
  | .other => (st, [])
  | .releaseSaved publisher name tag =>
      if st.status.any fun status => status.followed publisher then
        if key publisher name tag ∈ st.notified then (st, [])
        else
          ({ st with notified := st.notified ++ [key publisher name tag] },
            [if autoPull then .autoPullRelease publisher name tag
              else .onFollowedRelease publisher name tag])
      else (st, [])

/-- A release that was not announced before is announced when its publisher is followed. -/
theorem onEvent_announces {autoPull : Bool} {st : DashboardState} {status : Status}
    {publisher name tag : Str} (hstatus : st.status = some status)
    (hnew : key publisher name tag ∉ st.notified) :
    (st.onEvent autoPull (.releaseSaved publisher name tag)).2 ≠ [] ↔
      status.followed publisher = true := by
  rw [onEvent, hstatus, Option.any_some, if_neg hnew]
  split
  · exact iff_of_true (List.cons_ne_nil _ _) ‹_›
  · exact iff_of_false (fun h => h rfl) ‹_›

end DashboardState

/-! ### Slots -/

/-- White space at the end is trimmed. -/
theorem Str.trim_append_blank {a blank : Str} (ha : ∀ c ∈ a, isWhitespace c = false)
    (h : ∀ c ∈ blank, isWhitespace c = true) : trim (a ++ blank) = a := by
  have hend : blank.rdropWhile isWhitespace = [] := List.rdropWhile_eq_nil_iff.mpr h
  cases a with
  | nil =>
      rw [List.nil_append, trim, List.dropWhile_eq_nil_iff.mpr h]
      rfl
  | cons c a =>
      have hc : isWhitespace c = false := ha c List.mem_cons_self
      rw [trim, List.cons_append, List.dropWhile_cons_of_neg (by simp [hc]), ← List.cons_append,
        rdropWhile_append, if_pos hend]
      exact List.rdropWhile_eq_self_iff.mpr fun hne =>
        Bool.eq_false_iff.mp (ha _ (List.getLast_mem hne))

/-- A text that is the hex of a publisher, or goes on behind it with a space. -/
def HexWord (publisher : PublisherId) (text : Str) : Prop :=
  text = publisher.toStr ∨ ∃ rest, text = publisher.toStr ++ ' ' :: rest

/-- The first word of a printed rule. -/
theorem head?_ruleText (publisher : PublisherId) (rule : Str) (mode : Mode) :
    (Str.split ' ' (ruleText rule mode)).head? = some publisher.toStr ↔ HexWord publisher rule := by
  have hspace : ' ' ∉ publisher.toStr := fun hc =>
    absurd (PublicKey.isLowerHex_of_mem hc) (by decide)
  have htext : ruleText rule mode = rule ++ ' ' :: ('[' :: mode.toStr ++ [']']) := by
    simp [ruleText]
  rw [htext, Str.head?_split_append, Str.head?_split hspace, HexWord]

section
variable [External]

theorem followed_iff (node : Node) (s : Store) {publisher : PublisherId}
    (h : publisher ≠ node.id) : (node.status s).followed publisher.toStr = true ↔
      ∃ e ∈ node.policy.follow, HexWord publisher e.publisher := by
  have hne : publisher.toStr ≠ node.id.toStr := fun he => h (PublicKey.toStr_inj he)
  rw [Status.followed, Bool.and_eq_true, List.any_eq_true]
  simp only [Node.status, List.mem_map, exists_exists_and_eq_and, beq_iff_eq, head?_ruleText]
  exact and_iff_right (bne_iff_ne.mpr hne)

/-- The slots that follow a publisher. -/
theorem followMode_isSome_iff (policy : Policy) (publisher : PublisherId) :
    (policy.followMode publisher).isSome = true ↔
      ∃ e ∈ policy.follow, policy.parsePublisherArg e.publisher = .ok publisher := by
  rw [Policy.followMode_isSome, Policy.follows, List.mem_map]
  constructor
  · rintro ⟨f, hf, rfl⟩
    obtain ⟨e, he, hmap⟩ := List.mem_filterMap.mp hf
    obtain ⟨p, hp, rfl⟩ := Option.map_eq_some_iff.mp hmap
    exact ⟨e, he, Policy.toOption_eq_some.mp hp⟩
  · rintro ⟨e, he, hparse⟩
    exact ⟨(publisher, e.mode), List.mem_filterMap.mpr ⟨e, he, by rw [hparse]; rfl⟩, rfl⟩

theorem parsePublisherArg_toStr {publisher : PublisherId} (hkey : KeyReads publisher)
    (policy : Policy) : policy.parsePublisherArg publisher.toStr = .ok publisher := by
  rw [Policy.parsePublisherArg, parsePublisher_toStr hkey]

/-- White space behind a hex is not read. -/
theorem parsePublisherArg_blank {publisher : PublisherId} (hkey : KeyReads publisher)
    (policy : Policy) {blank : Str} (h : ∀ c ∈ blank, Str.isWhitespace c = true) :
    policy.parsePublisherArg (publisher.toStr ++ blank) = .ok publisher := by
  have hhex : ∀ c ∈ publisher.toStr, Str.isWhitespace c = false := fun c hc =>
    (of_isTagChar (isTagChar_of_isNameChar (of_mem_toStr hc).1)).2.2
  have hparse : parsePublisher (publisher.toStr ++ blank) = .ok publisher := by
    rw [← parsePublisher_toStr hkey, parsePublisher, parsePublisher,
      Str.trim_append_blank hhex h, Str.trim_of_forall hhex]
  rw [Policy.parsePublisherArg, hparse]

/-- Every publisher other than the node that a slot follows has an entry that begins with its hex;
and none has an entry that goes on behind its hex with something that is not white space, unless
some slot follows it. -/
structure FollowsInHex (policy : Policy) (own : PublisherId) : Prop where
  hex : ∀ e ∈ policy.follow, ∀ publisher, publisher ≠ own →
    policy.parsePublisherArg e.publisher = .ok publisher →
    ∃ e' ∈ policy.follow, HexWord publisher e'.publisher
  slot : ∀ e ∈ policy.follow, ∀ publisher rest, publisher ≠ own →
    e.publisher = publisher.toStr ++ ' ' :: rest → (∃ c ∈ rest, Str.isWhitespace c = false) →
    ∃ e' ∈ policy.follow, policy.parsePublisherArg e'.publisher = .ok publisher

/-- **The extension takes an event of a saved release for one of a followed publisher, and announces
it, exactly when the daemon follows the publisher, for every publisher other than the node, in
exactly the policies that follow in hex.** -/
theorem announced_iff (hkeys : ∀ publisher, KeyReads publisher) (node : Node) (s : Store) :
    (∀ publisher, publisher ≠ node.id →
      ((node.status s).followed publisher.toStr = true ↔
        (node.policy.followMode publisher).isSome = true) ∧
      ∀ autoPull (st : DashboardState) name tag, st.status = some (node.status s) →
        DashboardState.key publisher.toStr name tag ∉ st.notified →
        ((st.onEvent autoPull (.releaseSaved publisher.toStr name tag)).2 ≠ [] ↔
          (node.policy.followMode publisher).isSome = true)) ↔
      FollowsInHex node.policy node.id := by
  constructor
  · intro h
    refine ⟨fun e he publisher hne hparse => ?_, fun e he publisher rest hne htext _ => ?_⟩
    · have hmode := (followMode_isSome_iff _ _).mpr ⟨e, he, hparse⟩
      exact (followed_iff node s hne).mp ((h publisher hne).1.mpr hmode)
    · have hfollowed := (followed_iff node s hne).mpr ⟨e, he, Or.inr ⟨rest, htext⟩⟩
      exact (followMode_isSome_iff _ _).mp ((h publisher hne).1.mp hfollowed)
  · intro h publisher hne
    have hagree : (node.status s).followed publisher.toStr = true ↔
        (node.policy.followMode publisher).isSome = true := by
      rw [followed_iff node s hne, followMode_isSome_iff]
      constructor
      · rintro ⟨e, he, htext | ⟨rest, htext⟩⟩
        · exact ⟨e, he, htext ▸ parsePublisherArg_toStr (hkeys publisher) node.policy⟩
        · by_cases hword : ∃ c ∈ rest, Str.isWhitespace c = false
          · exact h.slot e he publisher rest hne htext hword
          · have hblank : ∀ c ∈ ' ' :: rest, Str.isWhitespace c = true :=
              List.forall_mem_cons.mpr ⟨by decide, fun c hc => by
                by_contra hc'
                exact hword ⟨c, hc, Bool.not_eq_true _ ▸ hc'⟩⟩
            exact ⟨e, he, htext ▸ parsePublisherArg_blank (hkeys publisher) node.policy hblank⟩
      · rintro ⟨e, he, hparse⟩
        exact h.hex e he publisher hne hparse
    exact ⟨hagree, fun autoPull st name tag hstatus hnew =>
      (DashboardState.onEvent_announces hstatus hnew).trans hagree⟩

end

namespace Sample

/-- A policy with one follow, and a mapped domain. -/
def following (slot : Str) : Policy :=
  letI := sample
  { Policy.default with
    follow := [⟨slot, .full⟩]
    dns := [("alice.example", alice.id.toStr)] }

/-- What the extension does about a release of the identity's, before any other. -/
def heard (policy : Policy) (who : Identity) : List Announcement :=
  letI := sample
  (DashboardState.onEvent false ⟨some ((node policy).status Store.empty), []⟩
    (.releaseSaved who.id.toStr "app" "1")).2

end Sample

/-- A node that follows by hex. -/
theorem announced_at : letI := sample
    (DashboardState.onEvent false
        ⟨some ((Sample.node (Sample.following Sample.alice.id.toStr)).status Store.empty), []⟩
        (.releaseSaved Sample.alice.id.toStr "app" "1.0")).2 ≠ [] ↔
      ((Sample.following Sample.alice.id.toStr).followMode Sample.alice.id).isSome = true := by
  let _ := sample
  have hslots : FollowsInHex (Sample.following Sample.alice.id.toStr) Sample.bob.id := by
    have hparse := parsePublisherArg_toStr (Sample.keyReads Sample.alice.id)
      (Sample.following Sample.alice.id.toStr)
    refine ⟨fun e he publisher _ hslot => ?_, fun e he publisher rest _ htext _ => ?_⟩
    · obtain rfl := List.mem_singleton.mp he
      obtain rfl := Except.ok.inj (hparse.symm.trans hslot)
      exact ⟨_, he, Or.inl rfl⟩
    · obtain rfl := List.mem_singleton.mp he
      have hspace : ' ' ∈ Sample.alice.id.toStr := by
        rw [show Sample.alice.id.toStr = publisher.toStr ++ ' ' :: rest from htext]
        exact List.mem_append_right _ List.mem_cons_self
      exact absurd (PublicKey.isLowerHex_of_mem hspace) (by decide)
  exact ((announced_iff Sample.keyReads (Sample.node (Sample.following Sample.alice.id.toStr))
    Store.empty).mpr hslots Sample.alice.id (by decide +kernel)).2 _ _ _ _ rfl List.not_mem_nil

/-- A publisher that is followed by its `did:key`, or by its domain, is followed, and its release is
not announced. -/
theorem didKey_unannounced : letI := sample
    let did := Sample.following (didKey Sample.alice.id)
    let domain := Sample.following "alice.example"
    Sample.bob.id ≠ Sample.alice.id ∧
      did.followMode Sample.alice.id = some .full ∧ Sample.heard did Sample.alice = [] ∧
      domain.followMode Sample.alice.id = some .full ∧ Sample.heard domain Sample.alice = [] := by
  let _ := sample
  refine ⟨?_, ?_, ?_, ?_, ?_⟩ <;> decide +kernel

end Ocid
