import Ocid.Lib.Gossip
import Ocid.Publishing.Refused
import Ocid.Replication.Serving

/-!
# Replication — Mesh — an image on its way through nodes that follow it

A mesh of nodes that answer from their stores: content comes in, nodes publish releases of content
that they hold, and the nodes sync with each other, in any order.  When every node but the publisher
of an image follows it in full, what a node holds of it are the newest versions of what it has come
to know, where a publication tells the publisher one version and a sync teaches the node all that
the other one knows (`run_gossips`).  So a version reaches every node that a chain of syncs leads to,
and no node holds a version that was neither held at the start nor published (`run_delivers`).

The stores are fit to be served from at the start, and nothing comes in that has the hash of other
content, or that has a record in the way of it (`Mesh.Sound`, `Mesh.Fair`).
-/

namespace Ocid

open Call Windows Gossip

section
variable [External] {node : Node} {s p : Store} {publisher : PublisherId} {name : Str}

/-! ### One sync and one publication -/

omit [External] in
/-- In full, an image holds the newest versions. -/
theorem Window.inside_full {w : Window} (h : w.full = true) (K : Set (Str × ℕ)) :
    w.inside K = newest K := by
  have hall : w.always = Set.univ := Set.eq_univ_of_forall fun t => Or.inl h
  ext x
  simp only [Window.inside, window, hall, Set.mem_univ, true_or, and_true]
  rfl

theorem newest_held_eq (s : Store) (publisher : PublisherId) (name : Str) :
    newest (s.held publisher name) = s.held publisher name :=
  Set.Subset.antisymm (fun _ h => h.1) fun _ h => newest_held h

/-- The versions that a fit peer lists of an image are those it holds. -/
theorem listed_eq_held (p : Store) (publisher : PublisherId) (name : Str)
    (peer : EndpointId) (net : ℕ → ℕ → Exchange) :
    {v | v ∈ (Sync.listed ⟨peer, p.listReleases.map Release.summary, net⟩ publisher name).map
      ReleaseSummary.version} = p.held publisher name := by
  ext v
  constructor
  · intro hv
    obtain ⟨y, hy, rfl⟩ := List.mem_map.mp hv
    obtain ⟨hmem, hkey⟩ := List.mem_filter.mp hy
    obtain ⟨rel, hrel, rfl⟩ := List.mem_map.mp hmem
    obtain ⟨rfl, rfl⟩ := of_decide_eq_true hkey
    exact ⟨rel, Store.mem_listReleases.mp hrel, rfl⟩
  · rintro ⟨rel, hget, hv⟩
    have href := Table.key_of_get hget
    refine List.mem_map.mpr
      ⟨rel.summary, List.mem_filter.mpr ⟨List.mem_map.mpr ⟨rel, ?_, rfl⟩, ?_⟩, ?_⟩
    · exact Store.mem_listReleases.mpr (href ▸ hget)
    · exact decide_eq_true ⟨congrArg Ref.publisher href, congrArg Ref.name href⟩
    · exact Prod.ext (congrArg Ref.tag href) hv

section
variable {peer : EndpointId} {net : ℕ → ℕ → Exchange} (hpeer : peer ≠ node.id) (hp : p.Fit)
  (hfit : s.Fit) (hs : s.Shares p)
  (hnet : ∀ q ∈ (Event.inventory peer p.inventory net).requests node s, q.2 = p.exchange q.1)
include hpeer hp hfit hs hnet

/-- After a sync, an image that is followed in full holds the newest of what both held. -/
theorem held_sync (hother : publisher ≠ node.id)
    (hfull : (node.policy.window publisher name).full = true) (hn : validateName name = .ok ()) :
    ((syncWith node peer p.inventory net).final s).held publisher name =
      newest (s.held publisher name ∪ p.held publisher name) := by
  obtain ⟨hhonest, -⟩ := sync_served hpeer hp hfit hs hnet
  have hw : (node.policy.window publisher name).isEmpty = false := by simp [Window.isEmpty, hfull]
  have hinside : (node.policy.window publisher name).inside (s.held publisher name) =
      s.held publisher name := by rw [Window.inside_full hfull, newest_held_eq]
  have hunwasted : (node.policy.window publisher name).Unwasted
      (tagTimes (s.localReleases publisher name))
      ((Sync.listed ⟨peer, p.listReleases.map Release.summary, net⟩ publisher name).map
        ReleaseSummary.version) :=
    fun _ _ _ _ halways => absurd (Or.inl hfull) halways
  have hspec := (syncWith_spec hother hfit.named hw hhonest).2 hinside
  have hwanted := Window.inside_wanted_iff.mpr hunwasted
  rw [(tagTimes_localReleases publisher hfit.named hn).2, listed_eq_held,
    Window.inside_full hfull, Window.inside_full hfull] at hwanted
  rw [hp.inventory_eq, hspec, Window.inside_full hfull, hwanted]

variable (name) in
/-- A sync leaves the node's own images alone. -/
theorem held_sync_own (hown : publisher = node.id) :
    ((syncWith node peer p.inventory net).final s).held publisher name =
      s.held publisher name := by
  obtain ⟨hhonest, -⟩ := sync_served hpeer hp hfit hs hnet
  obtain ⟨-, hframe, -⟩ := syncRepos_spec publisher name hfit.named
    (sound_of_mem_byRepo hhonest.1) (nodup_byRepo _) hhonest.2
  rw [hp.inventory_eq]
  refine held_congr (hframe fun hmem => ?_)
  obtain ⟨repo, hrepo, hkey⟩ := List.mem_map.mp hmem
  exact (of_mem_byRepo hrepo).1 ((congrArg Prod.fst hkey).trans hown)

end

/-- A release that is stored over content it is true of: as if it was fetched. -/
theorem held_putRelease (publisher : PublisherId) (name : Str) (node : Node) (hfit : s.Fit)
    {rel : Release} (hv : rel.verify = .ok ()) (htrue : ∀ b ∈ rel.allBlobs, s.Truthful b) :
    ((putRelease rel).final s).held publisher name =
      if rel.publisher = publisher ∧ rel.name = name then
        newest (s.held publisher name ∪ {rel.summary.version})
      else s.held publisher name := by
  obtain ⟨hn, ht⟩ := Release.valid_of_verify hv
  split
  · rename_i himage
    let net : Exchange := ⟨.ok (some rel), s.downloads, none⟩
    have hhas : ∀ b ∈ rel.allBlobs, s.hasHash b.hash = true := fun b hb =>
      Table.has_iff.mpr ((htrue b hb).imp fun _ hc => hc.1)
    obtain ⟨hres, -, -, -⟩ := fetchBlobs_served (p := s)
      (Or.inr hhas) hfit.shares hfit.shares htrue 0
    obtain ⟨b, hb⟩ := putRelease_returns hn ht
      ((fetchBlobs ([].filter fun p => p ≠ node.id) s.downloads 0 rel.allBlobs).final s)
    have hok : (net.fetch node rel []).result s = .ok () :=
      result_bind_ok.mpr ⟨(), hv, result_bind_ok.mpr ⟨(), hres, result_bind_ok.mpr ⟨b, hb, rfl⟩⟩⟩
    have hrel : ((putRelease rel).final s).releases =
        ((net.fetch node rel []).final s).releases := by
      rw [releases_putRelease hn ht, (releases_fetch hok).2]
    rw [← held_fetch hok himage.1 himage.2]
    exact held_congr fun tag => by rw [hrel]
  · rename_i himage
    refine held_congr fun tag => ?_
    rw [releases_putRelease hn ht]
    split
    · exact Table.get_put_of_ne fun hr => himage
        ⟨congrArg Ref.publisher hr, congrArg Ref.name hr⟩
    · rfl

/-- What publishing a verified release of the node leaves. -/
theorem final_publish {gossip : Release → Except Err Unit} {rel : Release}
    (hv : rel.verify = .ok ()) (hown : rel.publisher = node.id) (s : Store) :
    (publish node gossip rel).final s = (putRelease rel).final s := by
  obtain ⟨hn, ht⟩ := Release.valid_of_verify hv
  obtain ⟨b, hb⟩ := putRelease_returns hn ht s
  have hensure : (ensure (decide (rel.publisher = node.id))
      ["can only publish releases signed by this node".toList] : Op Unit).result s = .ok () := by
    rw [result_ensure, if_pos (decide_eq_true hown)]
  have hverify : (ofExcept rel.verify : Op Unit).result s = .ok () := hv
  rw [publish, final_bind_of_ok hverify, final_ofExcept, final_bind_of_ok hensure, final_ensure,
    final_bind_of_ok hb]
  rfl

/-- Content that comes in, where no other content of its hash is held. -/
theorem upload_spec {data : Bytes}
    (h : ∀ c, s.blobs.get (External.blake3 data) = some c → c = data) (expect : Option Digest)
    (mediaType : Option Str) :
    let t := (putBlobBytes data expect mediaType).final s
    s.HoldsData t ∧ t.releases = s.releases ∧ ∀ k c, t.blobs.get k = some c →
      s.blobs.get k = some c ∨ (k = External.blake3 data ∧ c = data) := by
  intro t
  have hemits : Emits (fun w : Write => w = .data data ∨ (w.part ≠ .blobs ∧ w.part ≠ .releases))
      (putBlobBytes data expect mediaType) :=
    emits_putBlobBytes (Or.inl rfl) (fun _ _ => Or.inr (by simp [Write.part]))
      (fun _ => Or.inr (by simp [Write.part])) _ _
  refine hemits.keeps (I := fun t : Store => s.HoldsData t ∧ t.releases = s.releases ∧
    ∀ k c, t.blobs.get k = some c →
      s.blobs.get k = some c ∨ (k = External.blake3 data ∧ c = data)) ?_
    ⟨.refl s, rfl, fun _ _ hc => Or.inl hc⟩
  rintro u w (rfl | ⟨hblobs, hrel⟩) ⟨hkeeps, hsame, hcomes⟩
  · refine ⟨fun k c hc => holdsData_data (fun d hd => ?_) k c (hkeeps k c hc), hsame, ?_⟩
    · exact (hcomes _ d hd).elim (h d) And.right
    · intro k c hc
      have hc : (u.blobs.put data).get k = some c := hc
      rw [Table.get_put] at hc
      split at hc
      · rename_i hk
        cases hc
        exact Or.inr ⟨hk.symm, rfl⟩
      · exact hcomes k c hc
  · have hb := Store.blobs_apply hblobs (s := u)
    have hcontents : (Journalled.apply u w).blobs = u.blobs := hb
    exact ⟨fun k c hc => by rw [hcontents]; exact hkeeps k c hc,
      (Store.releases_apply hrel).trans hsame, fun k c hc => hcomes k c (hcontents ▸ hc)⟩

/-! ### The mesh -/

/-- What happens in a mesh. -/
inductive MeshAct (ι : Type) where
  /-- Content comes in at `i`, as the blob of a push. -/
  | upload (i : ι) (data : Bytes) (expect : Option Digest) (mediaType : Option Str)
  | publish (i : ι) (gossip : Release → Except Err Unit) (rel : Release)
  /-- `i` syncs with `k`. -/
  | sync (i k : ι) (net : ℕ → ℕ → Exchange)

/-- The stores of the nodes, by the name of each node. -/
structure Mesh (ι : Type) where
  stores : ι → Store
  /-- The versions of the image that each node has come to know. -/
  known : ι → Set (Str × ℕ)

variable {ι : Type} [DecidableEq ι] (nodes : ι → Node) (publisher : PublisherId) (name : Str)

namespace MeshAct

/-- What an act makes of the stores. -/
def stores (w : ι → Store) : MeshAct ι → ι → Store
  | .upload i data expect mediaType =>
      Function.update w i ((putBlobBytes data expect mediaType).final (w i))
  | .publish i gossip rel =>
      Function.update w i ((Ocid.publish (nodes i) gossip rel).final (w i))
  | .sync i k net =>
      Function.update w i ((syncWith (nodes i) (nodes k).id (w k).inventory net).final (w i))

/-- What the nodes come to know of the image.  The publisher learns nothing of its own. -/
def rumor : MeshAct ι → List (Rumor ι (Set (Str × ℕ)))
  | .upload .. => []
  | .publish i _ rel =>
      if rel.publisher = publisher ∧ rel.name = name then [.tell i {rel.summary.version}] else []
  | .sync i k _ => if (nodes i).id = publisher then [] else [.learn i k]

end MeshAct

namespace Mesh

/-- One act, and what is learned by it. -/
def step (w : Mesh ι) (a : MeshAct ι) : Option (Mesh ι) :=
  some ⟨a.stores nodes w.stores, spreads w.known (a.rumor nodes publisher name)⟩

/-- Content comes in of whose hash no node holds another one; a node publishes a release of its own,
of content that it holds, that no record of any node is in the way of; a node syncs with another one
that answers from its store. -/
def Fair (w : Mesh ι) : MeshAct ι → Prop
  | .upload _ data _ _ =>
      ∀ k c, (w.stores k).blobs.get (External.blake3 data) = some c → c = data
  | .publish i _ rel => rel.publisher = (nodes i).id ∧ rel.verify = .ok () ∧ rel.Readable ∧
      (∀ b ∈ rel.allBlobs, (w.stores i).Truthful b) ∧
      ∀ k, ∀ e ∈ (w.stores k).releases.rows, e.ref.Apart rel.ref
  | .sync i k net => (nodes k).id ≠ (nodes i).id ∧
      ∀ q ∈ (Event.inventory (nodes k).id (w.stores k).inventory net).requests (nodes i)
        (w.stores i), q.2 = (w.stores k).exchange q.1

/-- `s` can be served from, and holds the newest versions of `K`. -/
structure Holds (s : Store) (K : Set (Str × ℕ)) : Prop where
  fit : s.Fit
  finite : K.Finite
  held : s.held publisher name = newest K

/-- Each node holds the newest versions of what it knows; no two contents have one hash, and no
record is in the way of another one. -/
structure Sound (w : Mesh ι) : Prop where
  holds : ∀ i, Holds publisher name (w.stores i) (w.known i)
  shares : ∀ i k, (w.stores i).Shares (w.stores k)

/-- All nodes but the publisher follow the image in full. -/
def Followed : Prop :=
  validateName name = .ok () ∧ ∀ i, (nodes i).id ≠ publisher →
    ((nodes i).policy.window publisher name).full = true

end Mesh

end

section
variable [External] {ι : Type} [DecidableEq ι] {nodes : ι → Node} {publisher : PublisherId}
  {name : Str}

omit [External] in
theorem newest_union_newest {K L : Set (Str × ℕ)} (hK : K.Finite) (hL : L.Finite) :
    newest (newest K ∪ newest L) = newest (K ∪ L) := by
  rw [newest_union hK, Set.union_comm, newest_union hL, Set.union_comm]

namespace Mesh

variable {w v : Mesh ι} {a : MeshAct ι}

/-- A new store of a node that shares with all stores. -/
theorem Sound.shares_update (hw : w.Sound publisher name) {i : ι} {t : Store} (hfit : t.Fit)
    (ht : ∀ l, t.Shares (w.stores l)) (j l : ι) :
    (Function.update w.stores i t j).Shares (Function.update w.stores i t l) := by
  by_cases hj : j = i
  · subst hj
    rw [Function.update_self]
    by_cases hl : l = j
    · subst hl
      rw [Function.update_self]
      exact hfit.shares
    · rw [Function.update_of_ne hl]
      exact ht l
  · rw [Function.update_of_ne hj]
    by_cases hl : l = i
    · subst hl
      rw [Function.update_self]
      exact (ht j).symm
    · rw [Function.update_of_ne hl]
      exact hw.shares j l

/-- A node of the mesh comes to know something. -/
theorem Sound.update (hw : w.Sound publisher name) {i : ι} {t : Store}
    {K : Set (Str × ℕ)} (ht : ∀ l, t.Shares (w.stores l)) (hholds : Holds publisher name t K) :
    Sound publisher name ⟨Function.update w.stores i t, Function.update w.known i K⟩ where
  holds j := by
    show Holds publisher name (Function.update w.stores i t j) (Function.update w.known i K j)
    by_cases hj : j = i
    · subst hj
      rw [Function.update_self, Function.update_self]
      exact hholds
    · rw [Function.update_of_ne hj, Function.update_of_ne hj]
      exact hw.holds j
  shares := hw.shares_update hholds.fit ht

/-- The store of a node changes, and what it knows does not. -/
theorem Sound.replace (hw : w.Sound publisher name) {i : ι} {t : Store}
    (ht : ∀ l, t.Shares (w.stores l)) (hholds : Holds publisher name t (w.known i)) :
    Sound publisher name ⟨Function.update w.stores i t, w.known⟩ := by
  have h := hw.update (i := i) ht hholds
  rwa [Function.update_eq_self] at h

theorem Sound.upload (hw : w.Sound publisher name) {i : ι} {data : Bytes}
    (hfair : ∀ k c, (w.stores k).blobs.get (External.blake3 data) = some c → c = data)
    (expect : Option Digest) (mediaType : Option Str) : Sound publisher name
      ⟨Function.update w.stores i ((putBlobBytes data expect mediaType).final (w.stores i)),
        w.known⟩ := by
  have hi := hw.holds i
  obtain ⟨hkeeps, hrel, hcomes⟩ := upload_spec (hfair i) expect mediaType
  have hheld : ((putBlobBytes data expect mediaType).final (w.stores i)).held publisher name =
      newest (w.known i) := (held_congr fun tag => by rw [hrel]).trans hi.held
  refine hw.replace (fun l => ⟨fun h c c' hc hc' => ?_, ?_⟩)
    ⟨hi.fit.holdsData hkeeps hrel, hi.finite, hheld⟩
  · rcases hcomes h c hc with hold | ⟨rfl, rfl⟩
    · exact (hw.shares i l).contents h c c' hold hc'
    · exact (hfair l c' hc').symm
  · rw [Store.Apart, hrel]
    exact (hw.shares i l).apart

omit [DecidableEq ι] in
/-- A store shares with all stores what it holds, and a record that is in the way of none. -/
theorem Sound.shares_putRelease (hw : w.Sound publisher name) {i : ι} {rel : Release}
    (hclear : ∀ k, ∀ e ∈ (w.stores k).releases.rows, e.ref.Apart rel.ref) {t : Store}
    (hblobs : t.blobs = (w.stores i).blobs)
    (hrows : ∀ x ∈ t.releases.rows, x ∈ (w.stores i).releases.rows ∨ x = rel) (l : ι) :
    t.Shares (w.stores l) where
  contents := by
    rw [hblobs]
    exact (hw.shares i l).contents
  apart a ha b hb := by
    rcases hrows a ha with ha | rfl
    · exact (hw.shares i l).apart a ha b hb
    · exact (hclear l b hb).symm

theorem Sound.publish (hw : w.Sound publisher name) {i : ι} {gossip : Release → Except Err Unit}
    {rel : Release} (hfair : w.Fair nodes (.publish i gossip rel)) : Sound publisher name
      ⟨Function.update w.stores i ((Ocid.publish (nodes i) gossip rel).final (w.stores i)),
        spreads w.known (MeshAct.rumor nodes publisher name (.publish i gossip rel))⟩ := by
  obtain ⟨hown, hv, hread, htrue, hclear⟩ := hfair
  have hi := hw.holds i
  obtain ⟨hfit, hblobs, hrows⟩ := hi.fit.putRelease hv hread htrue (hclear i)
  have hshares := hw.shares_putRelease hclear hblobs hrows
  have hheld := held_putRelease publisher name (nodes i) hi.fit hv htrue
  rw [final_publish hv hown, MeshAct.rumor]
  by_cases himage : rel.publisher = publisher ∧ rel.name = name
  · rw [if_pos himage, hi.held, newest_union hi.finite] at hheld
    rw [if_pos himage]
    exact hw.update hshares ⟨hfit, hi.finite.union (Set.finite_singleton _), hheld⟩
  · rw [if_neg himage, hi.held] at hheld
    rw [if_neg himage]
    exact hw.replace hshares ⟨hfit, hi.finite, hheld⟩

theorem Sound.sync (hfollowed : Followed nodes publisher name) (hw : w.Sound publisher name)
    {i k : ι} {net : ℕ → ℕ → Exchange} (hfair : w.Fair nodes (.sync i k net)) :
    Sound publisher name
      ⟨Function.update w.stores i
          ((syncWith (nodes i) (nodes k).id (w.stores k).inventory net).final (w.stores i)),
        spreads w.known (MeshAct.rumor nodes publisher name (.sync i k net))⟩ := by
  obtain ⟨hn, hnodes⟩ := hfollowed
  obtain ⟨hne, hnet⟩ := hfair
  have hi := hw.holds i
  have hk := hw.holds k
  obtain ⟨-, -, hgrows, hfit, -⟩ := sync_served hne hk.fit hi.fit (hw.shares i k) hnet
  have hshares := fun l => hgrows.shares (hw.shares i l) (hw.shares k l)
  rw [MeshAct.rumor]
  by_cases hown : (nodes i).id = publisher
  · have hheld := held_sync_own name hne hk.fit hi.fit (hw.shares i k) hnet hown.symm
    rw [hi.held] at hheld
    rw [if_pos hown]
    exact hw.replace hshares ⟨hfit, hi.finite, hheld⟩
  · have hheld := held_sync hne hk.fit hi.fit (hw.shares i k) hnet (Ne.symm hown)
      (hnodes i hown) hn
    rw [hi.held, hk.held, newest_union_newest hi.finite hk.finite] at hheld
    rw [if_neg hown]
    exact hw.update hshares ⟨hfit, hi.finite.union hk.finite, hheld⟩

theorem Sound.step (hfollowed : Followed nodes publisher name) (hw : w.Sound publisher name)
    (hfair : w.Fair nodes a) (hstep : w.step nodes publisher name a = some v) :
    v.Sound publisher name := by
  cases hstep
  cases a with
  | upload i data expect mediaType => exact hw.upload hfair expect mediaType
  | publish i gossip rel => exact hw.publish hfair
  | sync i k net => exact hw.sync hfollowed hfair

/-- **Gossip.**  In a mesh whose nodes follow an image in full and answer from their stores, every
node holds, in every state of every run, the newest versions of what it has come to know. -/
theorem run_gossips (hfollowed : Followed nodes publisher name) {acts : List (MeshAct ι)}
    (hw : w.Sound publisher name) (h : Meets (Mesh.step nodes publisher name) (Fair nodes) w acts) :
    Throughout (Mesh.step nodes publisher name) (Sound publisher name) w acts :=
  throughout_of_meets (fun _ _ _ hw hC hstep => hw.step hfollowed hC hstep) hw h

end Mesh

end

namespace Sample

/-- `sample`, with a JSON reader that knows the texts of two values. -/
@[reducible] def readingBoth (v w : Json) : External where
  __ := sample
  jsonFromSlice bs :=
    if bs = Str.toUtf8 v.render ∨ bs = Str.toUtf8 (v.pretty 0) then some v.sorted
    else if bs = Str.toUtf8 w.render ∨ bs = Str.toUtf8 (w.pretty 0) then some w.sorted
    else none

/-- A release of an image, and a later one under another tag. -/
def travelling : Release := release alice "app" "1.0" index 1000

/-- A later release of the image, under another tag. -/
def upgraded : Release := release alice "app" "2.0" index2 1005

/-- `sample`, with a reader of both. -/
@[reducible] def travels : External := readingBoth travelling.toJson upgraded.toJson

/-- The publisher of the image, and two nodes that follow it. -/
def line : Fin 3 → Node
  | 0 => ⟨alice, Policy.default, [], [], fun _ => .ok .noRecord⟩
  | 1 => follower
  | 2 => { follower with identity := mallory }

/-- The publisher holds the first release and its content, the others nothing. -/
def lineStores : Fin 3 → @Store travels
  | 0 => letI := travels; (Store.empty.apply (.data index.bytes)).apply (.release travelling)
  | _ => letI := travels; Store.empty

section
local instance : External := travels

/-- They know what they hold. -/
def lineMesh : Mesh (Fin 3) := ⟨lineStores, fun i => (lineStores i).held alice.id "app"⟩

/-- What comes of an act. -/
def after (w : Mesh (Fin 3)) (a : MeshAct (Fin 3)) : Mesh (Fin 3) :=
  ⟨a.stores line w.stores, spreads w.known (a.rumor line alice.id "app")⟩

/-- `i` syncs with `k`, which it asks for `refs`. -/
def hop (w : Mesh (Fin 3)) (i k : Fin 3) (refs : List Ref) : MeshAct (Fin 3) :=
  .sync i k fun _ => (w.stores k).serving refs

/-- The images that a peer lists. -/
def imagesOf (node : Node) (p : Store) : List Repo :=
  match p.inventory with
  | .ok inv => byRepo node inv
  | .error _ => []

/-- A peer that lists one image, and is asked for the releases of it that are chosen. -/
theorem fair_hop {w : Mesh (Fin 3)} {i k : Fin 3} {refs : List Ref}
    (hne : (line k).id ≠ (line i).id) (hone : (imagesOf (line i) (w.stores k)).length = 1)
    (hrefs : ∀ repo ∈ imagesOf (line i) (w.stores k),
      (chosenOf (line i) repo (w.stores i)).map ReleaseSummary.ref = refs) :
    w.Fair line (hop w i k refs) := by
  refine ⟨hne, fun q hq => ?_⟩
  have himages : (Event.inventory (line k).id (w.stores k).inventory fun _ =>
      (w.stores k).serving refs).requests (line i) (w.stores i) =
        syncRequests (line i) (line k).id (fun _ => (w.stores k).serving refs) 0
          (imagesOf (line i) (w.stores k)) (w.stores i) := by
    unfold Event.requests imagesOf
    cases (w.stores k).inventory <;> rfl
  obtain ⟨repo, hrepo⟩ := List.length_eq_one_iff.mp hone
  have hchosen := hrefs repo (hrepo ▸ List.mem_singleton_self repo)
  rw [himages, hrepo, syncRequests] at hq
  rcases List.mem_append.mp hq with hq | hq
  · rw [← hchosen] at hq
    exact snd_of_mem_serving hq
  · split at hq
    · cases hq
    · cases hq

theorem meets_after {w : Mesh (Fin 3)} {a : MeshAct (Fin 3)} {as : List (MeshAct (Fin 3))}
    (h : w.Fair line a)
    (hrest : Meets (Mesh.step line alice.id "app") (Mesh.Fair line) (after w a) as) :
    Meets (Mesh.step line alice.id "app") (Mesh.Fair line) w (a :: as) := by
  refine ⟨h, fun v hv => ?_⟩
  cases hv
  exact hrest

theorem followed_line : Mesh.Followed line alice.id "app" := by
  refine ⟨by decide, fun i hi => ?_⟩
  fin_cases i
  · exact absurd (by decide +kernel) hi
  · decide +kernel
  · decide +kernel

/-- A release without referrers that the reader knows. -/
theorem readable_of {r : Release} (hversion : r.payload.version < 2 ^ 8)
    (hrefs : r.payload.referrers = []) (hread : ReadsBack r.toJson) : r.Readable := by
  refine ⟨⟨hversion, fun x hx => ?_⟩, ?_, hread⟩
  · rw [hrefs] at hx
    cases hx
  · show (hexDecode (hexEncode r.publisher.key.bytes)).bind keyOfBytes = _
    rw [hexDecode_hexEncode, Option.bind_some, keyOfBytes, dif_pos r.publisher.key.size]

theorem readable_travelling : travelling.Readable :=
  readable_of (by decide +kernel) rfl ⟨if_pos (Or.inl rfl), if_pos (Or.inr rfl)⟩

theorem readable_upgraded : upgraded.Readable := by
  -- the texts of the two releases differ
  have hother : ∀ t ∈ [upgraded.toJson.render, upgraded.toJson.pretty 0],
      ¬ (Str.toUtf8 t = Str.toUtf8 travelling.toJson.render ∨
        Str.toUtf8 t = Str.toUtf8 (travelling.toJson.pretty 0)) := by
    have htexts : ∀ t ∈ [upgraded.toJson.render, upgraded.toJson.pretty 0],
        t ≠ travelling.toJson.render ∧ t ≠ travelling.toJson.pretty 0 := by decide +kernel
    intro t ht heq
    exact heq.elim (fun h => (htexts t ht).1 (Str.toUtf8_injective h))
      fun h => (htexts t ht).2 (Str.toUtf8_injective h)
  refine readable_of (by decide +kernel) rfl ⟨?_, ?_⟩
  · exact (if_neg (hother _ List.mem_cons_self)).trans (if_pos (Or.inl rfl))
  · exact (if_neg (hother _ (List.mem_cons_of_mem _ List.mem_cons_self))).trans
      (if_pos (Or.inr rfl))

theorem fit_lineStores (i : Fin 3) : (lineStores i).Fit := by
  have hempty : Store.empty.Fit := by
    refine ⟨fun r rel hget => ?_, fun a ha => ?_⟩
    · cases hget
    · cases ha
  fin_cases i
  · have hrows : (lineStores 0).releases.rows = [travelling] := rfl
    refine ⟨fun r rel hget => ?_, fun a ha b hb => ?_⟩
    · obtain rfl := List.mem_singleton.mp (hrows ▸ Table.mem_of_get hget)
      refine ⟨by decide +kernel, readable_travelling, fun b hb => ?_⟩
      obtain rfl := List.mem_singleton.mp hb
      exact ⟨index.bytes, by decide +kernel, by decide +kernel, rfl⟩
    · obtain rfl := List.mem_singleton.mp (hrows ▸ ha)
      obtain rfl := List.mem_singleton.mp (hrows ▸ hb)
      exact Ref.apart_self _
  · exact hempty
  · exact hempty

theorem sound_lineMesh : lineMesh.Sound alice.id "app" := by
  refine ⟨fun i => ⟨fit_lineStores i, finite_held _ _ _, (newest_held_eq _ _ _).symm⟩, ?_⟩
  have hempty : ∀ s : Store, Store.empty.Shares s := fun s =>
    ⟨fun _ _ _ hc => (by cases hc), fun _ ha => by cases ha⟩
  intro i k
  fin_cases i
  · fin_cases k
    · exact (fit_lineStores 0).shares
    · exact (hempty _).symm
    · exact (hempty _).symm
  · exact hempty _
  · exact hempty _

/-! The first release goes on to one node; a second one is published, and goes to this node too; and
both of them go on to the third node. -/

/-- The first node fetches the first release. -/
def firstSync : MeshAct (Fin 3) := hop lineMesh 1 0 [travelling.ref]

/-- The content of the second release comes in, -/
def uploading : MeshAct (Fin 3) := .upload 0 index2.bytes none none

/-- and it is published. -/
def publishing : MeshAct (Fin 3) := .publish 0 (fun _ => .ok ()) upgraded

/-- The release is published. -/
def published : Mesh (Fin 3) := after (after (after lineMesh firstSync) uploading) publishing

/-- It is fetched too, -/
def secondSync : MeshAct (Fin 3) := hop published 1 0 [upgraded.ref]

/-- and both are passed on. -/
def lastSync : MeshAct (Fin 3) :=
  hop (after published secondSync) 2 1 [travelling.ref, upgraded.ref]

/-- All of this. -/
def journey : List (MeshAct (Fin 3)) := [firstSync, uploading, publishing, secondSync, lastSync]

theorem fair_journey :
    Meets (Mesh.step line alice.id "app") (Mesh.Fair line) lineMesh journey := by
  refine meets_after ?_ (meets_after ?_ (meets_after ?_ (meets_after ?_ (meets_after ?_ trivial))))
  · exact fair_hop (by decide +kernel) (by decide +kernel) (by decide +kernel)
  · have hnone : ∀ k, ((after lineMesh firstSync).stores k).blobs.get
        (External.blake3 index2.bytes) = none := by decide +kernel
    intro k c hc
    cases (hnone k).symm.trans hc
  · refine ⟨by decide +kernel, by decide +kernel, readable_upgraded, fun b hb => ?_,
      by decide +kernel⟩
    obtain rfl := List.mem_singleton.mp hb
    exact ⟨index2.bytes, by decide +kernel, by decide +kernel, rfl⟩
  · exact fair_hop (by decide +kernel) (by decide +kernel) (by decide +kernel)
  · exact fair_hop (by decide +kernel) (by decide +kernel) (by decide +kernel)

end

end Sample

section
open Sample

local instance : External := travels

/-- Two releases on their way through three nodes. -/
theorem run_gossips_at :
    Throughout (Mesh.step line alice.id "app") (Mesh.Sound alice.id "app") lineMesh journey :=
  Mesh.run_gossips followed_line sound_lineMesh fair_journey

/-- The last of the syncs, of a node that holds nothing with one that holds two releases. -/
theorem sync_served_at :
    let p := (after published secondSync).stores 1
    let sync := syncWith (line 2) (line 1).id p.inventory fun _ =>
      p.serving [travelling.ref, upgraded.ref]
    sync.result Store.empty = .ok () ∧ Store.empty.Grows p (sync.final Store.empty) ∧
      (sync.final Store.empty).Fit := by
  intro p sync
  -- the states before the last sync
  obtain ⟨hfirst, h⟩ := fair_journey
  obtain ⟨hsecond, h⟩ := h _ rfl
  obtain ⟨hthird, h⟩ := h _ rfl
  obtain ⟨hfourth, h⟩ := h _ rfl
  obtain ⟨hfifth, -⟩ := h _ rfl
  have hsound : (after published secondSync).Sound alice.id "app" :=
    (((sound_lineMesh.step followed_line hfirst rfl).step followed_line hsecond rfl).step
      followed_line hthird rfl).step followed_line hfourth rfl
  obtain ⟨-, hres, hgrows, hfit, -⟩ := sync_served hfifth.1 (hsound.holds 1).fit
    (hsound.holds 2).fit (hsound.shares 2 1) hfifth.2
  exact ⟨hres, hgrows, hfit⟩

end

end Ocid
