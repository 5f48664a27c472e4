import Ocid.Core.Wants
import Ocid.Retention.Settled

/-!
# Policies — Additive — what a new rule costs

A rule that is added asks more of the images it names and nothing less of any other
(`mem_wants_iff`), so every window stays as wide as it was, or gets wider, and what a window
selected of the records held it still selects (`selected_of_le`).

Enforcing all windows removes exactly the foreign records that a rule covers and no window selects
(`get_enforceAllWindows`).  Among them may be records that nobody wanted gone: those of an image that
had no rule, and those pulled of an image that had one and outside its window.  So a change that
only adds a rule keeps every record exactly when the wider windows select all that they cover
(`addition_keeps_iff`).
-/

namespace Ocid

open Call Windows

section
variable [External] {node : Node} {s : Store}

/-! ### Enforcing all windows -/

/-- A rule covers the record, which is foreign, and no rule keeps it. -/
def Store.Outside (s : Store) (node : Node) (rel : Release) : Prop :=
  (node.policy.window rel.publisher rel.name).isEmpty = false ∧ rel.publisher ≠ node.id ∧
    ¬ s.Selected node.policy rel.ref

theorem enforceWindow_returns (hs : s.Named) {publisher : PublisherId} {name : Str}
    (hn : validateName name = .ok ()) : (enforceWindow node publisher name).result s = .ok () := by
  by_cases hown : publisher = node.id
  · simp [enforceWindow, hown]
  · cases hw : (node.policy.window publisher name).isEmpty with
    | true => simp [enforceWindow, hown, hw]
    | false => exact (enforceWindow_spec hown hw hs hn).1

/-- Of the images of the list, the records outside are removed. -/
theorem get_enforceRepos (hs : s.Named) {repos : List (PublisherId × Str)}
    (hrepos : ∀ repo ∈ repos, validateName repo.2 = .ok ()) {rel : Release}
    (hrel : s.releases.get rel.ref = some rel) :
    ((enforceRepos node repos).final s).releases.get rel.ref = none ↔
      (rel.publisher, rel.name) ∈ repos ∧ s.Outside node rel := by
  induction repos generalizing s with
  | nil => simp [enforceRepos, hrel]
  | cons repo repos ih =>
      have hname := hrepos repo List.mem_cons_self
      have hrest := fun r hr => hrepos r (List.mem_cons_of_mem _ hr)
      have hok : (enforceWindow node repo.1 repo.2).result s = .ok () := enforceWindow_returns hs hname
      have hbetween := between_enforceWindow node hs repo.1 repo.2
      rw [enforceRepos, final_bind_of_ok hok]
      set t := (enforceWindow node repo.1 repo.2).final s with ht
      have hgone : t.releases.get rel.ref = none ↔
          (rel.publisher, rel.name) = repo ∧ s.Outside node rel := by
        by_cases himage : (rel.publisher, rel.name) = repo
        · obtain rfl := himage
          simpa [ht, Store.Outside] using get_enforceWindow_eq_none hs (Table.mem_of_get hrel)
        · have hne : ¬ (rel.ref.publisher = repo.1 ∧ rel.ref.name = repo.2) := fun h =>
            himage (Prod.ext h.1 h.2)
          simp [ht, get_enforceWindow_of_image hs hne, hrel, himage]
      cases hget : t.releases.get rel.ref with
      | none =>
          -- what is gone stays gone
          have hsub := (between_enforceRepos node repos (hbetween.named hs)).releases rel.ref
          have hnone : ((enforceRepos node repos).final t).releases.get rel.ref = none := by
            cases hlast : ((enforceRepos node repos).final t).releases.get rel.ref with
            | none => rfl
            | some r => exact absurd (hget.symm.trans (hsub r hlast)) (Option.some_ne_none r).symm
          obtain ⟨himage, hout⟩ := hgone.mp hget
          exact iff_of_true hnone ⟨himage ▸ List.mem_cons_self, hout⟩
      | some r =>
          obtain rfl : r = rel := Option.some.inj ((hbetween.releases _ _ hget).symm.trans hrel)
          have hstays : ¬ ((r.publisher, r.name) = repo ∧ s.Outside node r) := fun h => by
            rw [hgone.mpr h] at hget
            cases hget
          have hout : t.Outside node r ↔ s.Outside node r := by
            rw [Store.Outside, Store.Outside, hbetween.selected_iff hs hget]
          rw [ih (hbetween.named hs) hrest hget, hout, List.mem_cons]
          constructor
          · rintro ⟨hin, hout⟩
            exact ⟨Or.inr hin, hout⟩
          · rintro ⟨hin, hout⟩
            exact ⟨hin.resolve_left fun himage => hstays ⟨himage, hout⟩, hout⟩

/-- Enforcing all windows removes the records outside, and no others. -/
theorem get_enforceAllWindows (hs : s.Named) {rel : Release} (hrel : rel ∈ s.releases.rows) :
    ((enforceAllWindows node).final s).releases.get rel.ref = none ↔ s.Outside node rel := by
  have hget := Table.get_of_mem hrel
  have hrepos : ∀ repo ∈ reposOf s.listReleases, validateName repo.2 = .ok () := by
    intro repo hrepo
    obtain ⟨r, hr, rfl⟩ := mem_reposOf.mp hrepo
    exact (hs _ _ (Store.mem_listReleases.mp hr)).1
  have hin : (rel.publisher, rel.name) ∈ reposOf s.listReleases :=
    mem_reposOf.mpr ⟨rel, Store.mem_listReleases.mpr hget, rfl⟩
  exact (get_enforceRepos hs hrepos hget).trans (and_iff_right hin)

/-! ### Adding a rule -/

/-- A change that adds a rule. -/
inductive Addition where
  | follow (publisher : Str) (mode : Mode)
  | seed (rule : Str) (mode : Mode)
  | pin (reference : Str)

namespace Addition

variable {policy policy' : Policy} {publisher : PublisherId} {name : Str}

/-- What an addition does to the policy. -/
def apply (policy : Policy) : Addition → Except Err (Policy × Bool)
  | .follow publisher mode => policy.addFollow publisher mode
  | .seed rule mode => policy.addSeed rule mode
  | .pin reference => policy.addPin reference

/-- The publisher is not followed, the rule not present, the reference not pinned. -/
def New (policy : Policy) : Addition → Prop
  | .follow publisher _ => ∀ p, policy.parsePublisherArg publisher = .ok p →
      policy.followMode p = none
  | .seed rule _ => ∀ e ∈ policy.seed, e.reference ≠ rule
  | .pin reference => reference ∉ policy.pin

/-- What the added rule asks of an image. -/
def asks (policy : Policy) (publisher : PublisherId) (name : Str) : Addition → List Want
  | .follow arg mode =>
      if (policy.parsePublisherArg arg).toOption = some publisher then [.mode mode] else []
  | .seed rule mode => (Policy.matching publisher name
      (policy.parseSeedRule rule mode).toOption.toList).map SeedRule.want
  | .pin reference => (Policy.matching publisher name
      (policy.parseSeedRule reference .full).toOption.toList).map SeedRule.want

/-- The window of an image, made wider by the added rule. -/
def widened (add : Addition) (policy : Policy) (publisher : PublisherId) (name : Str) : Window :=
  (add.asks policy publisher name).foldl Window.add (policy.window publisher name)

/-- A follow that is added is the last one. -/
theorem addFollow_new {arg : Str} {mode : Mode} {changed : Bool}
    (hnew : New policy (.follow arg mode))
    (h : policy.addFollow arg mode = .ok (policy', changed)) :
    ∃ key, policy.parsePublisherArg arg = .ok key ∧
      policy' = { policy with follow := policy.follow ++ [⟨arg, mode⟩] } := by
  cases hkey : policy.parsePublisherArg arg with
  | error e =>
      simp only [Policy.addFollow, hkey, bind, Except.bind] at h
      cases h
  | ok key =>
      have hnone : (policy.follow.findIdx? fun e =>
          (policy.parsePublisherArg e.publisher).toOption = some key) = none := by
        refine List.findIdx?_eq_none_iff.mpr fun e he => decide_eq_false fun hres => ?_
        have hmem : key ∈ policy.follows.map Prod.fst := by
          refine List.mem_map.mpr ⟨(key, e.mode), List.mem_filterMap.mpr ⟨e, he, ?_⟩, rfl⟩
          rw [hres]
          rfl
        have hsome := Policy.followMode_isSome.mpr hmem
        rw [hnew key hkey] at hsome
        cases hsome
      simp only [Policy.addFollow, hkey, hnone, bind, Except.bind] at h
      cases h
      exact ⟨key, rfl, rfl⟩

/-- A seed that is added is the last one. -/
theorem addSeed_new {rule : Str} {mode : Mode} {changed : Bool} (hnew : New policy (.seed rule mode))
    (h : policy.addSeed rule mode = .ok (policy', changed)) :
    ∃ r, policy.parseSeedRule rule mode = .ok r ∧
      policy' = { policy with seed := policy.seed ++ [⟨rule, mode⟩] } := by
  cases hr : policy.parseSeedRule rule mode with
  | error e =>
      simp only [Policy.addSeed, hr, bind, Except.bind] at h
      cases h
  | ok r =>
      have hnone : (policy.seed.findIdx? fun e => e.reference = rule) = none :=
        List.findIdx?_eq_none_iff.mpr fun e he => decide_eq_false (hnew e he)
      simp only [Policy.addSeed, hr, hnone, bind, Except.bind] at h
      cases h
      exact ⟨r, rfl, rfl⟩

/-- A pin that is added is the last one, and has a tag. -/
theorem addPin_new {reference : Str} {changed : Bool} (hnew : New policy (.pin reference))
    (h : policy.addPin reference = .ok (policy', changed)) :
    ∃ r, policy.parseSeedRule reference .full = .ok r ∧ r.tag.isSome = true ∧
      policy' = { policy with pin := policy.pin ++ [reference] } := by
  cases hr : policy.parseSeedRule reference .full with
  | error e =>
      simp only [Policy.addPin, hr, bind, Except.bind] at h
      cases h
  | ok r =>
      have hout : reference ∉ policy.pin := hnew
      have hnone : policy.pin.contains reference = false := by simpa using hout
      simp only [Policy.addPin, hr, hnone, bind, Except.bind] at h
      split at h
      · cases h
      · rename_i htag
        cases h
        exact ⟨r, rfl, Option.isSome_iff_ne_none.mpr (by simpa using htag), rfl⟩

/-- **What a new policy asks of an image** is what the old one asked, and what the added rule
asks. -/
theorem mem_wants_iff {add : Addition} {changed : Bool} (hnew : add.New policy)
    (h : add.apply policy = .ok (policy', changed)) {x : Want} :
    x ∈ policy'.wants publisher name ↔
      x ∈ policy.wants publisher name ∨ x ∈ add.asks policy publisher name := by
  cases add with
  | follow arg mode =>
      obtain ⟨key, hkey, rfl⟩ := addFollow_new hnew h
      have hfollows : Policy.follows { policy with follow := policy.follow ++ [⟨arg, mode⟩] } =
          policy.follows ++ [(key, mode)] := by
        rw [Policy.follows, List.filterMap_append]
        refine congrArg (policy.follows ++ ·) ?_
        show [FollowEntry.mk arg mode].filterMap (fun e =>
          (policy.parsePublisherArg e.publisher).toOption.map fun p => (p, e.mode)) = _
        simp [hkey, Except.toOption]
      have hmode : Policy.followMode { policy with follow := policy.follow ++ [⟨arg, mode⟩] }
          publisher =
            (policy.followMode publisher).or (if key = publisher then some mode else none) := by
        rw [Policy.followMode, hfollows, List.find?_append, Option.map_or, ← Policy.followMode]
        by_cases hp : key = publisher <;> simp [hp]
      have hasks : asks policy publisher name (.follow arg mode) =
          if key = publisher then [.mode mode] else [] := by
        simp [asks, hkey, Except.toOption]
      have hfirst : x ∈ ((policy.followMode publisher).or
            (if key = publisher then some mode else none)).toList.map Want.mode ↔
          x ∈ (policy.followMode publisher).toList.map Want.mode ∨
            x ∈ if key = publisher then [Want.mode mode] else [] := by
        by_cases hp : key = publisher
        · have hnone := hnew key hkey
          rw [hp] at hnone
          simp [hp, hnone]
        · simp [hp]
      have hrules : Policy.seedRules { policy with follow := policy.follow ++ [⟨arg, mode⟩] } =
          policy.seedRules := rfl
      have hpins : Policy.pins { policy with follow := policy.follow ++ [⟨arg, mode⟩] } =
          policy.pins := rfl
      rw [hasks, Policy.wants, Policy.wants, hmode, hrules, hpins]
      simp only [List.mem_append, hfirst]
      tauto
  | seed rule mode =>
      obtain ⟨r, hr, rfl⟩ := addSeed_new hnew h
      have hrules : Policy.seedRules { policy with seed := policy.seed ++ [⟨rule, mode⟩] } =
          policy.seedRules ++ [r] := by
        rw [Policy.seedRules, List.filterMap_append]
        refine congrArg (policy.seedRules ++ ·) ?_
        show [SeedEntry.mk rule mode].filterMap (fun e =>
          (policy.parseSeedRule e.reference e.mode).toOption) = _
        simp [hr, Except.toOption]
      have hasks : asks policy publisher name (.seed rule mode) =
          (Policy.matching publisher name [r]).map SeedRule.want := by
        simp [asks, hr, Except.toOption]
      have hfollow : Policy.followMode { policy with seed := policy.seed ++ [⟨rule, mode⟩] } publisher =
          policy.followMode publisher := rfl
      have hpins : Policy.pins { policy with seed := policy.seed ++ [⟨rule, mode⟩] } = policy.pins :=
        rfl
      rw [hasks, Policy.wants, Policy.wants, hrules, hfollow, hpins, Policy.matching_append,
        List.map_append]
      simp only [List.mem_append]
      tauto
  | pin reference =>
      obtain ⟨r, hr, htag, rfl⟩ := addPin_new hnew h
      have hpins : Policy.pins { policy with pin := policy.pin ++ [reference] } =
          policy.pins ++ [r] := by
        rw [Policy.pins, List.filterMap_append]
        refine congrArg (policy.pins ++ ·) ?_
        have hpin : ((policy.parseSeedRule reference .full).toOption.filter fun r => r.tag.isSome) =
            some r := by
          rw [hr]
          exact Option.filter_eq_some_iff.mpr ⟨rfl, htag⟩
        exact List.filterMap_cons_some (f := fun s => (policy.parseSeedRule s .full).toOption.filter
          fun r => r.tag.isSome) hpin
      have hasks : asks policy publisher name (.pin reference) =
          (Policy.matching publisher name [r]).map SeedRule.want := by
        simp [asks, hr, Except.toOption]
      have hfollow : Policy.followMode { policy with pin := policy.pin ++ [reference] } publisher =
          policy.followMode publisher := rfl
      have hrules : Policy.seedRules { policy with pin := policy.pin ++ [reference] } =
          policy.seedRules := rfl
      rw [hasks, Policy.wants, Policy.wants, hpins, hfollow, hrules, Policy.matching_append,
        List.map_append]
      simp only [List.mem_append]
      tauto

theorem widened_eq (add : Addition) (policy : Policy) (publisher : PublisherId) (name : Str) :
    add.widened policy publisher name =
      (policy.wants publisher name ++ add.asks policy publisher name).foldl Window.add .empty := by
  rw [widened, Policy.window_eq_foldl, List.foldl_append]

/-- The wider window is as wide as the old one, or wider. -/
theorem le_widened (add : Addition) (policy : Policy) (publisher : PublisherId) (name : Str) :
    policy.window publisher name ≤ add.widened policy publisher name := by
  rw [widened_eq, Policy.window_eq_foldl]
  exact Window.foldl_add_le (le_refl _) (List.subset_append_left _ _)

/-- The window of the new policy keeps what the wider window keeps, and no more. -/
theorem widened_le {add : Addition} {changed : Bool} (hnew : add.New policy)
    (h : add.apply policy = .ok (policy', changed)) :
    add.widened policy publisher name ≤ policy'.window publisher name ∧
      policy'.window publisher name ≤ add.widened policy publisher name := by
  have hwants : ∀ x, x ∈ policy'.wants publisher name ↔
      x ∈ policy.wants publisher name ∨ x ∈ add.asks policy publisher name :=
    fun _ => mem_wants_iff hnew h
  rw [widened_eq, Policy.window_eq_foldl]
  refine ⟨Window.foldl_add_le (le_refl _) fun x hx => ?_,
    Window.foldl_add_le (le_refl _) fun x hx => ?_⟩
  · exact (hwants x).mpr (List.mem_append.mp hx)
  · exact List.mem_append.mpr ((hwants x).mp hx)

end Addition

/-! ### What an addition costs -/

omit [External] in
theorem Window.inside_mono {w w' : Window} (h : w ≤ w') (K : Set (Str × ℕ)) :
    w.inside K ⊆ w'.inside K :=
  window_mono (fun _ ht => ht.imp h.1 fun ht => h.2.2 ht) h.2.1

/-- A wider window selects of the records held what the window selected. -/
theorem selected_of_le (hs : s.Named) {w w' : Window} (h : w ≤ w') {rel : Release}
    (hrel : rel ∈ s.releases.rows)
    (hsel : rel.payload.tag ∈ w.select (tagTimes (s.localReleases rel.publisher rel.name))) :
    rel.payload.tag ∈ w'.select (tagTimes (s.localReleases rel.publisher rel.name)) := by
  have hget := Table.get_of_mem hrel
  have hlocal : (localReleasesOf rel.publisher rel.name).result s =
      .ok (s.localReleases rel.publisher rel.name) := localReleases_ok hs (hs _ _ hget).1
  have hheld : (rel.payload.tag, rel.payload.timestamp) ∈ s.held rel.publisher rel.name :=
    ⟨rel, hget, rfl⟩
  rw [mem_select_local_iff hlocal hheld] at hsel ⊢
  exact Window.inside_mono h _ hsel

theorem mutatePolicy_final {f : Policy → Except Err (Policy × Bool)} {policy' : Policy}
    {changed : Bool} (h : f node.policy = .ok (policy', changed)) :
    (mutatePolicy node f (.ok ())).final s =
      (enforceAllWindows { node with policy := policy' }).final s := by
  have hf : (ofExcept (f node.policy) : Op (Policy × Bool)).result s = .ok (policy', changed) := h
  have hsaved : (ofExcept (.ok ()) : Op Unit).result s = .ok () := rfl
  have hwindows : (attempt (enforceAllWindows { node with policy := policy' }) :
      Op (Except Err Unit)).result s =
        .ok ((enforceAllWindows { node with policy := policy' }).result s) := rfl
  rw [mutatePolicy, final_bind_of_ok hf, final_ofExcept, final_bind_of_ok hsaved, final_ofExcept,
    final_bind_of_ok hwindows, final_pure, final_attempt]

/-- A change that is refused, or cannot be saved, leaves the store as it is. -/
theorem mutatePolicy_final_of_error {f : Policy → Except Err (Policy × Bool)}
    {saved : Except Err Unit} (h : (f node.policy).isOk = false ∨ saved.isOk = false) :
    (mutatePolicy node f saved).final s = s := by
  rw [mutatePolicy]
  cases hf : f node.policy with
  | error e => exact final_bind_of_error rfl _
  | ok out =>
      have hout : (ofExcept (.ok out) : Op (Policy × Bool)).result s = .ok out := rfl
      rw [final_bind_of_ok hout, final_ofExcept]
      cases saved with
      | error e => exact final_bind_of_error rfl _
      | ok u =>
          rw [hf] at h
          exact absurd h (by simp [Except.isOk, Except.toBool])

/-- The record is the node's own, or no rule covers its image with the added one, or the window of
its image, made wider by the added rule, selects it. -/
def Addition.Spares (add : Addition) (node : Node) (s : Store) (rel : Release) : Prop :=
  rel.publisher = node.id ∨ (add.widened node.policy rel.publisher rel.name).isEmpty = true ∨
    rel.payload.tag ∈ (add.widened node.policy rel.publisher rel.name).select
      (tagTimes (s.localReleases rel.publisher rel.name))

instance (add : Addition) (rel : Release) : Decidable (add.Spares node s rel) :=
  inferInstanceAs (Decidable (_ ∨ _ ∨ _))

/-- What is selected before is spared. -/
theorem spares_of_kept (hs : s.Named) (add : Addition) {rel : Release}
    (hrel : rel ∈ s.releases.rows)
    (h : rel.publisher = node.id ∨ s.Selected node.policy rel.ref) : add.Spares node s rel :=
  h.imp_right fun hsel => Or.inr
    (selected_of_le hs (add.le_widened node.policy rel.publisher rel.name) hrel hsel)

/-- The records that are spared stay. -/
theorem stays_iff (hs : s.Named) {add : Addition} (hnew : add.New node.policy) {policy' : Policy}
    {changed : Bool} (happly : add.apply node.policy = .ok (policy', changed)) {rel : Release}
    (hrel : rel ∈ s.releases.rows) :
    ((enforceAllWindows { node with policy := policy' }).final s).releases.get rel.ref = some rel ↔
      add.Spares node s rel := by
  have hbetween := between_enforceAllWindows { node with policy := policy' } hs
  obtain ⟨hle, hge⟩ : add.widened node.policy rel.publisher rel.name ≤
        policy'.window rel.publisher rel.name ∧ policy'.window rel.publisher rel.name ≤
          add.widened node.policy rel.publisher rel.name := Addition.widened_le hnew happly
  have hempty : (policy'.window rel.publisher rel.name).isEmpty =
      (add.widened node.policy rel.publisher rel.name).isEmpty :=
    Bool.eq_iff_iff.mpr ⟨Window.isEmpty_of_le hle, Window.isEmpty_of_le hge⟩
  have hsel : s.Selected policy' rel.ref ↔
      rel.payload.tag ∈ (add.widened node.policy rel.publisher rel.name).select
        (tagTimes (s.localReleases rel.publisher rel.name)) :=
    ⟨selected_of_le hs hge hrel, selected_of_le hs hle hrel⟩
  have hout : ¬ s.Outside { node with policy := policy' } rel ↔ add.Spares node s rel := by
    rw [Store.Outside, Addition.Spares, ← hsel, ← hempty]
    cases (policy'.window rel.publisher rel.name).isEmpty with
    | true => simp
    | false => simp [Node.id, or_iff_not_imp_left]
  rw [← hout, ← get_enforceAllWindows hs hrel]
  constructor
  · intro h hnone
    exact nomatch h.symm.trans hnone
  · intro h
    obtain ⟨r, hr⟩ := Option.ne_none_iff_exists'.mp h
    rw [hr, ← hbetween.releases _ _ hr, Table.get_of_mem hrel]

/-- **What an added rule costs.**  A record that is the node's own, or that the policy selected
before, stays.  Every record stays exactly when the change is not made, or each record is the node's
own, of an image that no rule covers with the added one, or selected by the window of its image made
wider by the added rule. -/
theorem addition_keeps_iff (hs : s.Named) {add : Addition} (hnew : add.New node.policy)
    (saved : Except Err Unit) :
    (∀ rel ∈ s.releases.rows, rel.publisher = node.id ∨ s.Selected node.policy rel.ref →
      ((mutatePolicy node (add.apply ·) saved).final s).releases.get rel.ref = some rel) ∧
    ((∀ q rel, s.releases.get q = some rel →
        ((mutatePolicy node (add.apply ·) saved).final s).releases.get q = some rel) ↔
      ((add.apply node.policy).isOk = true → saved.isOk = true →
        ∀ rel ∈ s.releases.rows, add.Spares node s rel)) := by
  have hsame : (add.apply node.policy).isOk = false ∨ saved.isOk = false →
      ∀ q rel, s.releases.get q = some rel →
        ((mutatePolicy node (add.apply ·) saved).final s).releases.get q = some rel := by
    intro h q rel hget
    rw [mutatePolicy_final_of_error h, hget]
  cases happly : add.apply node.policy with
  | error e =>
      have hkept := hsame (Or.inl (by rw [happly]; rfl))
      exact ⟨fun rel hrel _ => hkept _ _ (Table.get_of_mem hrel), iff_of_true hkept nofun⟩
  | ok out =>
      obtain ⟨policy', changed⟩ := out
      cases saved with
      | error e =>
          have hkept := hsame (Or.inr rfl)
          exact ⟨fun rel hrel _ => hkept _ _ (Table.get_of_mem hrel), iff_of_true hkept fun _ => nofun⟩
      | ok u =>
          have hfinal : (mutatePolicy node (add.apply ·) (.ok u)).final s =
              (enforceAllWindows { node with policy := policy' }).final s :=
            mutatePolicy_final happly
          rw [hfinal]
          refine ⟨fun rel hrel hkept => ?_, fun hall _ _ rel hrel => ?_, fun hall q rel hget => ?_⟩
          · exact (stays_iff hs hnew happly hrel).mpr (spares_of_kept hs add hrel hkept)
          · exact (stays_iff hs hnew happly hrel).mp (hall _ _ (Table.get_of_mem hrel))
          · obtain rfl := Table.key_of_get hget
            have hrel := Table.mem_of_get hget
            exact (stays_iff hs hnew happly hrel).mpr (hall rfl rfl rel hrel)

end

namespace Sample

/-- A follow of the publisher of the records held. -/
def followAlice : Addition :=
  letI := sample
  .follow alice.id.toStr .latest

/-- A follow of someone else. -/
def followMallory : Addition :=
  letI := sample
  .follow mallory.id.toStr .latest

end Sample

/-- Two tags are cached of an image without a rule, and another publisher is followed. -/
theorem addition_keeps_iff_at : letI := sample
    let node := Sample.node Policy.default
    (∀ rel ∈ Sample.heldTags.releases.rows,
      rel.publisher = node.id ∨ Sample.heldTags.Selected node.policy rel.ref →
        ((mutatePolicy node (Sample.followMallory.apply ·) (.ok ())).final
          Sample.heldTags).releases.get rel.ref = some rel) ∧
    ((∀ q rel, Sample.heldTags.releases.get q = some rel →
        ((mutatePolicy node (Sample.followMallory.apply ·) (.ok ())).final
          Sample.heldTags).releases.get q = some rel) ↔
      ((Sample.followMallory.apply node.policy).isOk = true → (Except.ok () : Except Err Unit).isOk =
        true → ∀ rel ∈ Sample.heldTags.releases.rows,
          Sample.followMallory.Spares node Sample.heldTags rel)) := by
  let _ := sample
  have hnamed := named_heldTags
  revert hnamed
  generalize Sample.heldTags = s
  intro hnamed node
  have hnew : Sample.followMallory.New node.policy := fun _ _ => rfl
  exact addition_keeps_iff hnamed hnew (.ok ())

/-- Two tags are cached of an image without a rule, and its publisher is followed: one tag goes. -/
theorem follow_removes_cached : letI := sample
    Sample.followAlice.New Policy.default ∧ ∃ rel ∈ Sample.heldTags.releases.rows,
      ((mutatePolicy (Sample.node Policy.default) (Sample.followAlice.apply ·) (.ok ())).final
        Sample.heldTags).releases.get rel.ref = none :=
  ⟨fun _ _ => rfl, by decide +kernel⟩

end Ocid
