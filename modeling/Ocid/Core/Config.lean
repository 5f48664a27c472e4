import Ocid.Core.Names

/-!
# Core — Config — the seeding policy and its windows

A `Policy` is what `policy.toml` says: images to replicate, publishers to follow, pinned releases,
local aliases, and the publishers its domain names resolved to.  Its rules stay texts and are
parsed at every use; an invalid one is skipped.

The rules for one image combine into a `Window`, and `Window.select` decides which of the known
releases of the image are inside it: the newest ones by timestamp and then by tag, and every tag
the window names.
-/

namespace Ocid

/-- Put a message in front of an error. -/
def Except.context {α : Type} (msg : Str) (x : Except Err α) : Except Err α :=
  x.mapError fun e => msg :: e

/-! ### Domain names -/

/-- `char::is_ascii_digit`. -/
def isAsciiDigit (c : Char) : Bool := '0' ≤ c && c ≤ '9'

/-- One label of a DNS name. -/
def zoneLabelOk (label : Str) : Bool :=
  !label.isEmpty && Str.len label ≤ 63 && label.all (fun c => isAsciiAlphanumeric c || c == '-') &&
    label.head? != some '-' && label.getLast? != some '-' && !label.all isAsciiDigit

/-- A zone we are willing to look up. -/
def validateZone (zone : Str) : Except Err Unit :=
  if Str.len zone ≤ 253 && zone.contains '.' && (Str.split '.' zone).all zoneLabelOk then .ok ()
  else .error ["zone " ++ Str.debug zone ++ " is not a valid DNS name"]

/-- True if `s` looks like a DNS zone rather than an image name. -/
def isDomainName (s : Str) : Bool := (validateZone s).isOk

/-! ### Windows -/

/-- How many releases of an image to keep. -/
inductive Mode where
  | full
  | latest
  | last (n : ℕ)
deriving DecidableEq

/-- Window size; `none` for unlimited. -/
def Mode.window : Mode → Option ℕ
  | .full => none
  | .latest => some 1
  | .last n => some (max n 1)

/-- Effective retention for one image, combining every matching rule. -/
structure Window where
  /-- Keep everything. -/
  full : Bool
  /-- Keep the N most recent releases (0 = no window rule). -/
  last : ℕ
  /-- Specific tags to keep (seed rules with a tag, pins). -/
  tags : List Str
deriving DecidableEq

namespace Window

/-- The window that keeps nothing. -/
def empty : Window := ⟨false, 0, []⟩

/-- Nothing is in the window. -/
def isEmpty (w : Window) : Bool := !w.full && w.last == 0 && w.tags.isEmpty

/-- Widen the window by what a mode keeps. -/
def absorb (w : Window) (mode : Mode) : Window :=
  match mode.window with
  | none => { w with full := true }
  | some n => { w with last := max w.last n }

/-- Widen the window by one tag, which is always kept. -/
def insertTag (w : Window) (t : Str) : Window := { w with tags := w.tags.insert t }

/-- Newest first; of one second, the greater tag first. -/
def before (a b : Str × ℕ) : Prop := b.2 < a.2 ∨ (a.2 = b.2 ∧ b.1 ≤ a.1)

instance : DecidableRel before := fun a b =>
  inferInstanceAs (Decidable (b.2 < a.2 ∨ (a.2 = b.2 ∧ b.1 ≤ a.1)))

/-- Given every known release of the image (`(tag, timestamp)`), the tags inside the window. -/
def select (w : Window) (known : List (Str × ℕ)) : List Str :=
  let known := (known.insertionSort before).destutter fun a b => a.1 ≠ b.1
  if w.full then w.tags ++ known.map Prod.fst
  else if 0 < w.last then w.tags ++ (known.take w.last).map Prod.fst
  else w.tags

end Window

/-! ### The policy -/

/-- A `[[seed]]` of the policy file: an image, or one tag of it, as it is written. -/
structure SeedEntry where
  reference : Str
  mode : Mode
deriving DecidableEq

/-- A `[[follow]]` of the policy file: a publisher as it is written. -/
structure FollowEntry where
  publisher : Str
  mode : Mode
deriving DecidableEq

/-- What the policy file says. Its references are texts, and are parsed where they are used. -/
structure Policy where
  /-- Images to replicate. -/
  seed : List SeedEntry
  /-- Publishers whose every image we replicate. -/
  follow : List FollowEntry
  /-- `<publisher>/<name>:<tag>` releases that are always kept and fetched. -/
  pin : List Str
  /-- alias -> publisher (hex) or publisher/name -/
  aliases : List (Str × Str)
  /-- DNS publisher names mapped to the publisher key they resolve to. -/
  dns : List (Str × Str)
deriving DecidableEq

/-- The policy that says nothing. -/
def Policy.default : Policy := ⟨[], [], [], [], []⟩

/-- One parsed seed rule. -/
structure SeedRule where
  publisher : PublisherId
  name : Str
  /-- `some` = exactly this tag; `none` = the image, kept per `mode`. -/
  tag : Option Str
  mode : Mode
deriving DecidableEq

/-- What an alias stands for. -/
inductive AliasTarget where
  | publisher (p : PublisherId)
  | image (publisher : PublisherId) (name : Str)
deriving DecidableEq

section
variable [External]

/-- Parse the target of an alias: a key, or a key and a name behind it. -/
def parseAliasTarget (target : Str) : Except Err AliasTarget :=
  match parsePublisher target with
  | .ok p => .ok (.publisher p)
  | .error _ =>
      match Str.splitOnce '/' target with
      | none => .error ["alias target must be <publisher> or <publisher>/<name>"]
      | some (pubs, name) => do
          let publisher ← parsePublisher pubs
          validateName name
          pure (.image publisher name)

namespace Policy

/-- Resolve a policy publisher slot: hex or `did:key`, or a domain name mapped through the
`dns` table. -/
def parsePublisherArg (policy : Policy) (s : Str) : Except Err PublisherId :=
  match parsePublisher s with
  | .ok p => .ok p
  | .error _ =>
      if isDomainName s then
        match policy.dns.lookup s with
        | none => .error ["domain " ++ Str.debug s ++
            " has no recorded publisher mapping; resolve it first"]
        | some key => Except.context
            ("domain " ++ Str.debug s ++ " maps to an invalid publisher id") (parsePublisher key)
      else Except.context "not a publisher id or known domain" (parsePublisher s)

/-- Parse a seed rule, resolving a domain in the publisher slot through the `dns` table. -/
def parseSeedRule (policy : Policy) (s : Str) (mode : Mode) : Except Err SeedRule :=
  match Str.splitOnce '/' s with
  | none => .error ["rule " ++ Str.debug s ++ " must be <publisher>/<name>[:<tag>]"]
  | some (pubs, rest) => do
      let publisher ← policy.parsePublisherArg pubs
      let (name, tag) ← splitTag rest
      pure { publisher, name, tag, mode }

/-- The seeds that parse; the others are skipped. -/
def seedRules (policy : Policy) : List SeedRule :=
  policy.seed.filterMap fun e => (policy.parseSeedRule e.reference e.mode).toOption

/-- The follow entries that parse, in order. -/
def follows (policy : Policy) : List (PublisherId × Mode) :=
  policy.follow.filterMap fun e =>
    (policy.parsePublisherArg e.publisher).toOption.map fun p => (p, e.mode)

/-- The mode of the first follow entry of the publisher. -/
def followMode (policy : Policy) (publisher : PublisherId) : Option Mode :=
  (policy.follows.find? fun f => f.1 = publisher).map Prod.snd

/-- The pins that parse and have a tag. -/
def pins (policy : Policy) : List SeedRule :=
  policy.pin.filterMap fun s =>
    (policy.parseSeedRule s .full).toOption.filter fun r => r.tag.isSome

/-- What one seed rule of the image adds to its window. -/
def seedWindow (w : Window) (r : SeedRule) : Window :=
  match r.tag with
  | some t => w.insertTag t
  | none => w.absorb r.mode

/-- What one pin of the image adds to its window. -/
def pinWindow (w : Window) (r : SeedRule) : Window :=
  match r.tag with
  | some t => w.insertTag t
  | none => w

/-- Effective retention window for an image from all matching rules. -/
def window (policy : Policy) (publisher : PublisherId) (name : Str) : Window :=
  let matching (rules : List SeedRule) : List SeedRule :=
    rules.filter fun r => r.publisher = publisher ∧ r.name = name
  let w := match policy.followMode publisher with
    | some mode => Window.empty.absorb mode
    | none => Window.empty
  let w := (matching policy.seedRules).foldl seedWindow w
  (matching policy.pins).foldl pinWindow w

/-- Is there any rule at all for this image? -/
def covers (policy : Policy) (publisher : PublisherId) (name : Str) : Bool :=
  !(policy.window publisher name).isEmpty

/-- What the policy has a name stand for. -/
def resolveAlias (policy : Policy) (name : Str) : Option AliasTarget :=
  (policy.aliases.lookup name).bind fun target => (parseAliasTarget target).toOption

end Policy

end

end Ocid
