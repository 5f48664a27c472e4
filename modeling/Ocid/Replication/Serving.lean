import Ocid.Index.Refinement
import Ocid.Replication.Filling
import Ocid.Replication.Sync
import Ocid.Replication.Truthful

/-!
# Replication — Serving — syncing with a peer that answers from its store

A node answers `Inventory` and `GetRelease` from its store, and serves blobs from it
(`Store.inventory`, `Store.exchange`).  A store is fit to serve when all its records verify, can be
read back from their bytes, and are true of the content held, and none of them is in the way of
another one (`Store.Fit`).

A node that syncs with a peer whose store is fit is served what was listed, and each fetch returns,
so what the node then holds is known; and the records it obtained are fit to be served by it in turn
(`sync_served`), as long as the two stores hold no two contents of one hash, and no record of one is
in the way of a record of the other (`Store.Shares`).  Where a record is in the way, the files refuse
the other one; elsewhere they do what is done here with the records (`agrees_of_shares`).
-/

namespace Ocid

open Call

section
variable [External]

/-! ### What a peer answers -/

/-- The answer to a request, as the client takes it: an error response is an error. -/
def Store.ask (p : Store) (req : SyncRequest) : Except Err SyncResponse :=
  match (handle req).result p with
  | .ok (.error e) => .error ["peer error: " ++ e]
  | .ok resp => .ok resp
  | .error e => .error e

/-- What a peer lists. -/
def Store.inventory (p : Store) : Except Err (List ReleaseSummary) :=
  match p.ask .inventory with
  | .ok (.inventory inv) => .ok inv
  | .ok _ => .error ["unexpected response"]
  | .error e => .error e

/-- The content that the blob store serves. -/
def Store.downloads (p : Store) : Downloads := fun _ h =>
  match hget : p.blobs.get h with
  | some c => .ok ⟨c, Table.key_of_get hget⟩
  | none => .error ["not found"]

/-- What comes of asking for `r`. -/
def Store.exchange (p : Store) (r : Ref) : Exchange where
  answer := (p.ask (.getRelease r.publisher r.name r.tag)).bind SyncResponse.intoRelease
  downloads := p.downloads
  fault := none

/-- The record is read back from the bytes it travels as. -/
structure Release.Readable (r : Release) : Prop where
  typed : r.payload.Typed
  key : KeyReads r.publisher
  text : ReadsBack r.toJson

/-- No record of one store is in the way of a record of the other. -/
def Store.Apart (s p : Store) : Prop :=
  ∀ a ∈ s.releases.rows, ∀ b ∈ p.releases.rows, a.ref.Apart b.ref

/-- What is held verifies, can be read back, and is true of its content, and can be kept in files. -/
structure Store.Fit (p : Store) : Prop where
  served : ∀ r rel, p.releases.get r = some rel →
    rel.verify = .ok () ∧ rel.Readable ∧ ∀ b ∈ rel.allBlobs, p.Truthful b
  apart : p.Apart p

/-- What the two stores hold can be held by one. -/
structure Store.Shares (s p : Store) : Prop where
  /-- They hold no two contents of one hash. -/
  contents : ∀ h c c', s.blobs.get h = some c → p.blobs.get h = some c' → c = c'
  apart : s.Apart p

/-- `t` holds the contents `s` held, and what came from `p`. -/
structure Store.Grows (s p t : Store) : Prop where
  keeps : s.HoldsData t
  comes : ∀ h c, t.blobs.get h = some c → s.blobs.get h = some c ∨ p.blobs.get h = some c
  records : ∀ rel ∈ t.releases.rows, rel ∈ s.releases.rows ∨ rel ∈ p.releases.rows

variable {node : Node} {s p t u : Store}

theorem Store.Fit.named (h : p.Fit) : p.Named := fun _ _ hget =>
  Table.key_of_get hget ▸ Release.valid_of_verify (h.served _ _ hget).1

theorem Store.Fit.valid (h : p.Fit) : ∀ rel ∈ p.releases.rows, rel.ref.Valid := fun _ hmem =>
  Release.valid_of_verify (h.served _ _ (Table.get_of_mem hmem)).1

theorem Store.Fit.complete (h : p.Fit) {r : Ref} {rel : Release}
    (hget : p.releases.get r = some rel) : p.isComplete rel = true := by
  refine List.all_eq_true.mpr fun b hb => Table.has_iff.mpr ?_
  obtain ⟨c, hc, -, -⟩ := (h.served r rel hget).2.2 b hb
  exact ⟨c, hc⟩

theorem Store.Fit.inventory_eq (h : p.Fit) :
    p.inventory = .ok (p.listReleases.map Release.summary) := by
  have hall : p.listReleases.filter p.isComplete = p.listReleases :=
    List.filter_eq_self.mpr fun rel hrel => h.complete (Store.mem_listReleases.mp hrel)
  have hask : p.ask .inventory =
      .ok (.inventory ((p.listReleases.filter p.isComplete).map Release.summary)) := rfl
  rw [Store.inventory, hask, hall]

/-- A record that is held is answered. -/
theorem Store.Fit.answer_eq (h : p.Fit) {r : Ref} {rel : Release}
    (hget : p.releases.get r = some rel) : (p.exchange r).answer = .ok (some rel) := by
  obtain ⟨hn, ht⟩ := h.named r rel hget
  have hp : releasePath r.publisher r.name r.tag = .ok r := releasePath_eq_ok.mpr ⟨ht, hn, rfl⟩
  have hhandle : handleInner (.getRelease r.publisher r.name r.tag) p =
      ([], .ok (.release (some rel.toVec))) := by
    rw [handleInner, bind_apply_of_ok (getRelease_apply hp p), hget]
    simp only [journal, result, replay_nil, read_bind_apply, List.nil_append, Option.filter_some,
      h.complete hget, if_true]
    rfl
  have hask : p.ask (.getRelease r.publisher r.name r.tag) = .ok (.release (some rel.toVec)) := by
    have hres : (handle (.getRelease r.publisher r.name r.tag)).result p =
        .ok (.release (some rel.toVec)) := by
      have hattempt : (attempt (handleInner (.getRelease r.publisher r.name r.tag)) : Op _) p =
          ([], .ok (.ok (.release (some rel.toVec)))) := by rw [attempt, hhandle]
      rw [handle, result, bind_apply_of_ok hattempt]
      rfl
    rw [Store.ask, hres]
  obtain ⟨-, hread, -⟩ := h.served r rel hget
  rw [Store.exchange, hask]
  exact intoRelease_toVec hread.typed hread.key hread.text

/-! ### Contents on their way -/

theorem Store.HoldsData.refl (s : Store) : s.HoldsData s := fun _ _ h => h

theorem Store.HoldsData.hasHash (h : s.HoldsData t) {k : Blake3} (hk : s.hasHash k = true) :
    t.hasHash k = true := by
  obtain ⟨c, hc⟩ := Table.has_iff.mp hk
  exact Table.has_iff.mpr ⟨c, h k c hc⟩

theorem Store.Grows.refl (s p : Store) : s.Grows p s :=
  ⟨.refl s, fun _ _ h => Or.inl h, fun _ h => Or.inl h⟩

theorem Store.Grows.trans (h : s.Grows p t) (h' : t.Grows p u) : s.Grows p u where
  keeps k c hc := h'.keeps k c (h.keeps k c hc)
  comes k c hc := (h'.comes k c hc).elim (h.comes k c) Or.inr
  records rel hrel := (h'.records rel hrel).elim (h.records rel) Or.inr

theorem Store.Grows.of_blobs (h : t.blobs = s.blobs)
    (hrecords : ∀ rel ∈ t.releases.rows, rel ∈ s.releases.rows ∨ rel ∈ p.releases.rows) :
    s.Grows p t where
  keeps _ _ hc := by rw [h]; exact hc
  comes _ _ hc := Or.inl (by rw [← h]; exact hc)
  records := hrecords

/-- A store that grows by another one shares with all that both share with. -/
theorem Store.Grows.shares {q : Store} (h : s.Grows p t) (hs : s.Shares q) (hp : p.Shares q) :
    t.Shares q where
  contents k c c' hc hc' := by
    rcases h.comes k c hc with hold | hnew
    · exact hs.contents k c c' hold hc'
    · exact hp.contents k c c' hnew hc'
  apart a ha b hb := by
    rcases h.records a ha with hold | hnew
    · exact hs.apart a hold b hb
    · exact hp.apart a hnew b hb

theorem Store.Shares.symm (h : s.Shares p) : p.Shares s :=
  ⟨fun k c c' hc hc' => (h.contents k c' c hc' hc).symm, fun a ha b hb => (h.apart b hb a ha).symm⟩

theorem Store.Fit.shares (h : p.Fit) : p.Shares p :=
  ⟨fun _ _ _ hc hc' => Option.some.inj (hc.symm.trans hc'), h.apart⟩

theorem Store.downloads_eq {h : Blake3} {c : Bytes} (hget : p.blobs.get h = some c) (i : ℕ) :
    ∃ hc, p.downloads i h = .ok ⟨c, hc⟩ := by
  rw [Store.downloads]
  split
  · rename_i c' hget'
    obtain rfl := Option.some.inj (hget.symm.trans hget')
    exact ⟨Table.key_of_get hget, rfl⟩
  · rename_i hnone
    cases hget.symm.trans hnone

theorem grows_data {c : Bytes} (hs : s.Shares p) (hc : p.blobs.get (External.blake3 c) = some c) :
    s.Grows p (s.apply (.data c)) where
  keeps := holdsData_data fun d hd => hs.contents _ d c hd hc
  comes k d hd := by
    have hd : (s.blobs.put c).get k = some d := hd
    rw [Table.get_put] at hd
    split at hd
    · rename_i hk
      cases hd
      exact Or.inr (hk ▸ hc)
    · exact Or.inl hd
  records _ h := Or.inl h

/-- A blob that the peer holds is true of what is held of it. -/
theorem truthful_of_shares {b : BlobRef} (hs : s.Shares p) (hb : p.Truthful b)
    (hhas : s.hasHash b.hash = true) : s.Truthful b := by
  obtain ⟨c, hc, hd, hsize⟩ := hb
  obtain ⟨c', hc'⟩ := Table.has_iff.mp hhas
  obtain rfl := hs.contents _ _ _ hc' hc
  exact ⟨c', hc', hd, hsize⟩

/-- What recording a blob leaves. -/
theorem recordBlob_spec (b : BlobRef) (s : Store) : (recordBlob b).result s = .ok () ∧
    ((recordBlob b).final s).blobs = s.blobs ∧ ((recordBlob b).final s).releases = s.releases :=
  ⟨rfl, rfl, rfl⟩

/-- Verifying what is true changes nothing, and then the blob is recorded. -/
theorem recordVerified_spec {b : BlobRef} (h : t.Truthful b) :
    let m : Op Unit := do
      verifyBlob b
      recordBlob b
    m.result t = .ok () ∧ (m.final t).blobs = t.blobs ∧ (m.final t).releases = t.releases := by
  intro m
  have hok := verifyBlob_ok.mpr h
  rw [result_bind_of_ok hok, final_bind_of_ok hok, (final_of_emits_false (emits_verifyBlob b) t).2]
  exact recordBlob_spec b t

/-- One round of the loop against a peer that holds the blob. -/
theorem fetchBlob_served {providers : List EndpointId} {b : BlobRef}
    (hproviders : providers ≠ [] ∨ s.hasHash b.hash = true) (hs : s.Shares p) (hb : p.Truthful b)
    (i : ℕ) :
    (fetchBlob providers p.downloads i b).result s = .ok () ∧
      s.Grows p ((fetchBlob providers p.downloads i b).final s) ∧
      ((fetchBlob providers p.downloads i b).final s).releases = s.releases ∧
      ((fetchBlob providers p.downloads i b).final s).Truthful b := by
  have hstart : ∀ m : Op Unit, fetchBlob providers p.downloads i b s = m s → ∀ t : Store,
      s.Grows p t → t.releases = s.releases → t.Truthful b → m.result s = .ok () →
        (m.final s).blobs = t.blobs → (m.final s).releases = t.releases →
      (fetchBlob providers p.downloads i b).result s = .ok () ∧
        s.Grows p ((fetchBlob providers p.downloads i b).final s) ∧
        ((fetchBlob providers p.downloads i b).final s).releases = s.releases ∧
        ((fetchBlob providers p.downloads i b).final s).Truthful b := by
    intro m hm t hgrows hrel htrue hres hblobs hrel'
    have hsame : (fetchBlob providers p.downloads i b).final s = m.final s := by
      rw [final, journal, hm]
      rfl
    rw [hsame, result, hm]
    have hlast : t.Grows p (m.final s) :=
      .of_blobs hblobs fun x hx => Or.inl (hrel' ▸ hx)
    exact ⟨hres, hgrows.trans hlast, hrel'.trans hrel, htrue.mono hlast.keeps⟩
  cases hhas : s.hasHash b.hash with
  | false =>
      obtain ⟨c, hc, hd, hsize⟩ := hb
      obtain ⟨hhash, hdown⟩ := p.downloads_eq hc i
      have hdownload : download p.downloads i b = write (.data c) := by rw [download, hdown]
      have hsome : (ensure (!providers.isEmpty) ["no providers for blob " ++ b.digest.str] :
          Op Unit).result s = .ok () := by
        rw [hhas] at hproviders
        cases providers with
        | nil => simp at hproviders
        | cons _ _ => rfl
      have htrue : (s.apply (.data c)).Truthful b :=
        ⟨c, hhash ▸ Table.get_put_self _ _, hd, hsize⟩
      obtain ⟨hres, hblobs, hrel⟩ := recordVerified_spec htrue
      refine hstart (do
        ensure (!providers.isEmpty) ["no providers for blob " ++ b.digest.str]
        write (.data c)
        verifyBlob b
        recordBlob b) ?_ _ (grows_data hs (hhash ▸ hc)) rfl htrue ?_ ?_ ?_
      · rw [fetchBlob, read_bind_apply, hhas, hdownload]
        rfl
      all_goals
        simp only [result_bind_of_ok hsome, final_bind_of_ok hsome, final_ensure,
          result_bind_of_ok (result_write _ s), final_bind_of_ok (result_write _ s), final_write]
      · exact hres
      · exact hblobs
      · exact hrel
  | true =>
      have htrue := truthful_of_shares hs hb hhas
      obtain ⟨hres, hblobs, hrel⟩ := recordVerified_spec htrue
      cases hindexed : (s.blobRef b.digest).isNone with
      | true =>
          refine hstart (verifyBlob b >>= fun _ => recordBlob b) ?_ s (.refl s p) rfl htrue hres
            hblobs hrel
          rw [fetchBlob, read_bind_apply, hhas, hindexed]
          rfl
      | false =>
          refine hstart (pure ()) ?_ s (.refl s p) rfl htrue rfl rfl rfl
          rw [fetchBlob, read_bind_apply, hhas, hindexed]
          rfl

theorem fetchBlobs_served {providers : List EndpointId} {bs : List BlobRef}
    (hproviders : providers ≠ [] ∨ ∀ b ∈ bs, s.hasHash b.hash = true) (hs : s.Shares p)
    (hp : p.Shares p) (hbs : ∀ b ∈ bs, p.Truthful b) (i : ℕ) :
    (fetchBlobs providers p.downloads i bs).result s = .ok () ∧
      s.Grows p ((fetchBlobs providers p.downloads i bs).final s) ∧
      ((fetchBlobs providers p.downloads i bs).final s).releases = s.releases ∧
      ∀ b ∈ bs, ((fetchBlobs providers p.downloads i bs).final s).Truthful b := by
  induction bs generalizing i s with
  | nil => exact ⟨rfl, .refl s p, rfl, fun _ h => by cases h⟩
  | cons b bs ih =>
      obtain ⟨hres, hgrows, hrel, htrue⟩ :=
        fetchBlob_served (hproviders.imp_right fun h => h b List.mem_cons_self) hs
          (hbs b List.mem_cons_self) i
      have hproviders' := hproviders.imp_right fun h c hc =>
        hgrows.keeps.hasHash (h c (List.mem_cons_of_mem _ hc))
      obtain ⟨hres', hgrows', hrel', htrue'⟩ := ih hproviders' (hgrows.shares hs hp)
        (fun c hc => hbs c (List.mem_cons_of_mem _ hc)) (i + 1)
      rw [fetchBlobs, result_bind_of_ok hres, final_bind_of_ok hres]
      refine ⟨hres', hgrows.trans hgrows', hrel'.trans hrel, fun c hc => ?_⟩
      rcases List.mem_cons.mp hc with rfl | hc
      · exact htrue.mono hgrows'.keeps
      · exact htrue' c hc

/-- The blobs of what a fit store held are still true of what it holds. -/
theorem Store.Fit.holdsData (h : s.Fit) (hkeeps : s.HoldsData t)
    (hrel : t.releases = s.releases) : t.Fit := by
  refine ⟨fun r rel hget => ?_, ?_⟩
  · obtain ⟨hv, hread, htrue⟩ := h.served r rel (hrel ▸ hget)
    exact ⟨hv, hread, fun b hb => (htrue b hb).mono hkeeps⟩
  · rw [Store.Apart, hrel]
    exact h.apart

/-- A release that is fit to be served can be stored, where nothing is in the way of it. -/
theorem Store.Fit.putRelease {rel : Release} (h : s.Fit) (hv : rel.verify = .ok ())
    (hread : rel.Readable) (htrue : ∀ b ∈ rel.allBlobs, s.Truthful b)
    (hclear : ∀ e ∈ s.releases.rows, e.ref.Apart rel.ref) :
    ((putRelease rel).final s).Fit ∧ ((putRelease rel).final s).blobs = s.blobs ∧
      ∀ x ∈ ((Ocid.putRelease rel).final s).releases.rows, x ∈ s.releases.rows ∨ x = rel := by
  obtain ⟨hn, ht⟩ := Release.valid_of_verify hv
  have hblobs : ((Ocid.putRelease rel).final s).blobs = s.blobs := by
    refine blobs_final ((emits_putRelease rel).mono fun w hw => ?_)
    rcases List.mem_cons.mp hw with rfl | hw
    · simp [Write.part]
    · obtain ⟨x, -, rfl⟩ := List.mem_map.mp hw
      simp [Write.part]
  have hkeeps : ∀ b, s.Truthful b → ((Ocid.putRelease rel).final s).Truthful b := by
    rintro b ⟨c, hc, hd, hsize⟩
    exact ⟨c, by rw [hblobs]; exact hc, hd, hsize⟩
  have hrows : ∀ x ∈ ((Ocid.putRelease rel).final s).releases.rows,
      x ∈ s.releases.rows ∨ x = rel := by
    intro x hx
    rw [releases_putRelease hn ht] at hx
    split at hx
    · exact (Table.mem_put.mp hx).symm.imp_left fun h => h.1
    · exact Or.inl hx
  refine ⟨⟨fun r x hget => ?_, fun a ha b hb => ?_⟩, hblobs, hrows⟩
  · rcases hrows x (Table.mem_of_get hget) with hold | rfl
    · obtain ⟨hv', hread', htrue'⟩ := h.served _ x (Table.get_of_mem hold)
      exact ⟨hv', hread', fun b hb => hkeeps b (htrue' b hb)⟩
    · exact ⟨hv, hread, fun b hb => hkeeps b (htrue b hb)⟩
  · rcases hrows a ha with hold | rfl
    · rcases hrows b hb with hold' | rfl
      · exact h.apart a hold b hold'
      · exact hclear a hold
    · rcases hrows b hb with hold' | rfl
      · exact (hclear b hold').symm
      · exact Ref.apart_self _

/-- A fit store can be kept in files, and where it has come to by what `p` holds, the files take a
record of `p` as the store does. -/
theorem agrees_of_shares (hp : p.Fit) (hs : s.Shares p) (hgrows : s.Grows p u) (hu : u.Fit) :
    (∃ t, IndexWorld.Represents ⟨t, u⟩) ∧ ∀ t, IndexWorld.Represents ⟨t, u⟩ →
      ∀ rel ∈ p.releases.rows, IndexWorld.Agrees ⟨t, u⟩ (.put rel) := by
  refine ⟨IndexWorld.exists_represents hu.valid hu.apart, fun t ht rel hrel => ?_⟩
  have hvalid : (IndexAct.put rel).Valid := hp.valid rel hrel
  exact (IndexWorld.agrees_iff_clear ht hvalid).mpr fun e he =>
    (hgrows.shares hs hp.shares).apart e he rel hrel

/-- Fetching a release that a fit peer holds returns, and the release can then be served. -/
theorem fetch_served {peer : EndpointId} (hpeer : peer ≠ node.id) (hp : p.Fit) (hfit : s.Fit)
    (hs : s.Shares p) {r : Ref} {rel : Release} (hget : p.releases.get r = some rel) :
    ((p.exchange r).fetch node rel [peer]).result s = .ok () ∧
      s.Grows p (((p.exchange r).fetch node rel [peer]).final s) ∧
      (((p.exchange r).fetch node rel [peer]).final s).Fit := by
  obtain ⟨hv, hread, htrue⟩ := hp.served r rel hget
  have hmem := Table.mem_of_get hget
  have hproviders : [peer].filter (fun p => p ≠ node.id) ≠ [] := by
    simp [hpeer]
  obtain ⟨hres, hgrows, hrel, htrue'⟩ := fetchBlobs_served (Or.inl hproviders) hs hp.shares htrue 0
  have hfetched := hfit.holdsData hgrows.keeps hrel
  have hclear := fun e he => (hgrows.shares hs hp.shares).apart e he rel hmem
  obtain ⟨hput, hblobs, hrows⟩ := hfetched.putRelease hv hread htrue' hclear
  obtain ⟨b, hb⟩ := putRelease_returns (Release.valid_of_verify hv).1 (Release.valid_of_verify hv).2
    ((fetchBlobs ([peer].filter fun p => p ≠ node.id) p.downloads 0 rel.allBlobs).final s)
  have hok : (fetchRelease node.id rel [peer] p.downloads).result s = .ok () :=
    result_bind_ok.mpr ⟨(), hv, result_bind_ok.mpr ⟨(), hres, result_bind_ok.mpr ⟨b, hb, rfl⟩⟩⟩
  have hfinal := (fetchRelease_ok hok).2.2
  have hfetch : (p.exchange r).fetch node rel [peer] =
      fetchRelease node.id rel [peer] p.downloads := rfl
  rw [hfetch, hfinal]
  refine ⟨hok, hgrows.trans (.of_blobs hblobs fun x hx => (hrows x hx).imp_right ?_), hput⟩
  rintro rfl
  exact hmem

/-! ### A sync with a peer that answers from its store -/

theorem replicate_served {peer : EndpointId} (hpeer : peer ≠ node.id) (hp : p.Fit) (hfit : s.Fit)
    (hs : s.Shares p) {net : ℕ → Exchange} {i : ℕ} {xs : List ReleaseSummary}
    (hxs : ∀ x ∈ xs, ∃ rel, p.releases.get x.ref = some rel ∧ rel.summary = x)
    (hnet : ∀ q ∈ wantedRequests net i xs, q.2 = p.exchange q.1) :
    Serves node peer net i xs s ∧ (replicate node peer net i xs).result s = .ok () ∧
      s.Grows p ((replicate node peer net i xs).final s) ∧
      ((replicate node peer net i xs).final s).Fit := by
  induction xs generalizing i s with
  | nil => exact ⟨trivial, rfl, .refl s p, hfit⟩
  | cons x xs ih =>
      obtain ⟨rel, hget, hsum⟩ := hxs x List.mem_cons_self
      have hexchange : net i = p.exchange x.ref :=
        hnet (x.ref, net i) (by rw [wantedRequests]; exact List.mem_cons_self)
      have ha : (net i).answer = .ok (some rel) := by rw [hexchange, hp.answer_eq hget]
      obtain ⟨hres, hgrows, hfit'⟩ := fetch_served hpeer hp hfit hs hget
      rw [← hexchange] at hres hgrows hfit'
      have hrest : ∀ q ∈ wantedRequests net (i + 1) xs, q.2 = p.exchange q.1 := by
        intro q hq
        refine hnet q ?_
        rw [wantedRequests, ha]
        exact List.mem_cons_of_mem _ hq
      obtain ⟨hserves, hres', hgrows', hfit''⟩ := ih hfit' (hgrows.shares hs hp.shares)
        (fun y hy => hxs y (List.mem_cons_of_mem _ hy)) hrest
      have hattempt : (attempt ((net i).fetch node rel [peer]) : Op _).result s = .ok (.ok ()) := by
        rw [result_attempt, hres]
      have hstep : replicate node peer net i (x :: xs) = (do
          let _ ← attempt ((net i).fetch node rel [peer])
          replicate node peer net (i + 1) xs) := by
        rw [replicate, ha]
      rw [hstep, result_bind_of_ok hattempt, final_bind_of_ok hattempt, final_attempt]
      exact ⟨⟨rel, ha, hsum, hres, hserves⟩, hres', hgrows.trans hgrows', hfit''⟩

/-- A window leaves the blobs, and what stays is as it was. -/
theorem fit_enforceWindow (node : Node) (hfit : s.Fit) (publisher : PublisherId) (name : Str) :
    s.Grows p ((enforceWindow node publisher name).final s) ∧
      ((enforceWindow node publisher name).final s).Fit := by
  have hblobs : ((enforceWindow node publisher name).final s).blobs = s.blobs :=
    blobs_final (emits_enforceWindow_of (by simp [Write.part]) (by simp [Write.part])
      (by simp [Write.part]) node publisher name)
  have hrows : ∀ rel ∈ ((enforceWindow node publisher name).final s).releases.rows,
      rel ∈ s.releases.rows := by
    intro rel hrel
    rcases written_of_get_final (Table.get_of_mem hrel) with hold | ⟨-, hw⟩
    · exact Table.mem_of_get hold
    · exact absurd rfl (emits_enforceWindow node publisher name s _ hw rel)
  have hgrows : s.Grows p ((enforceWindow node publisher name).final s) :=
    .of_blobs hblobs fun rel hrel => Or.inl (hrows rel hrel)
  refine ⟨hgrows, fun r rel hget => ?_, fun a ha b hb => ?_⟩
  · obtain ⟨hv, hread, htrue⟩ :=
      hfit.served _ rel (Table.get_of_mem (hrows rel (Table.mem_of_get hget)))
    exact ⟨hv, hread, fun b hb => (htrue b hb).mono hgrows.keeps⟩
  · exact hfit.apart a (hrows a ha) b (hrows b hb)

theorem syncRepo_served {peer : EndpointId} (hpeer : peer ≠ node.id) (hp : p.Fit) (hfit : s.Fit)
    (hs : s.Shares p) {net : ℕ → Exchange} {repo : Repo} (hsound : repo.Sound node)
    (hrepo : ∀ x ∈ repo.remote, ∃ rel, p.releases.get x.ref = some rel ∧ rel.summary = x)
    (hnet : ∀ q ∈ wantedRequests net 0 (chosenOf node repo s), q.2 = p.exchange q.1) :
    Serves node peer net 0 (chosenOf node repo s) s ∧
      (syncRepo node peer net repo).result s = .ok () ∧
      s.Grows p ((syncRepo node peer net repo).final s) ∧
      ((syncRepo node peer net repo).final s).Fit := by
  obtain ⟨publisher, name, remote⟩ := repo
  obtain ⟨hother, hn, hremote⟩ := hsound
  obtain ⟨hserves, hres, hgrows, hfit'⟩ := replicate_served hpeer hp hfit hs
    (fun x hx => hrepo x (mem_of_mem_chosenOf hx).1) hnet
  obtain ⟨hres', -⟩ := syncRepo_spec hother hn hfit.named hremote hserves
  refine ⟨hserves, hres', ?_⟩
  have hwanted := selectWanted_ok node publisher remote hfit.named hn
  rw [syncRepo, final_bind_of_ok hwanted,
    (final_of_emits_false (emits_selectWanted node.policy publisher name remote) s).2]
  split
  · exact ⟨.refl s p, hfit⟩
  · rw [final_bind_of_ok hres]
    obtain ⟨hgrows', hfit''⟩ := fit_enforceWindow node hfit' publisher name
    exact ⟨hgrows.trans hgrows', hfit''⟩

theorem syncRepos_served {peer : EndpointId} (hpeer : peer ≠ node.id) (hp : p.Fit) (hfit : s.Fit)
    (hs : s.Shares p) {net : ℕ → ℕ → Exchange} {j : ℕ} {repos : List Repo}
    (hsound : ∀ repo ∈ repos, repo.Sound node)
    (hrepos : ∀ repo ∈ repos, ∀ x ∈ repo.remote,
      ∃ rel, p.releases.get x.ref = some rel ∧ rel.summary = x)
    (hnet : ∀ q ∈ syncRequests node peer net j repos s, q.2 = p.exchange q.1) :
    ServesRepos node peer net j repos s ∧ (syncRepos node peer net j repos).result s = .ok () ∧
      s.Grows p ((syncRepos node peer net j repos).final s) ∧
      ((syncRepos node peer net j repos).final s).Fit := by
  induction repos generalizing j s with
  | nil => exact ⟨trivial, rfl, .refl s p, hfit⟩
  | cons repo repos ih =>
      rw [syncRequests] at hnet
      obtain ⟨hserves, hres, hgrows, hfit'⟩ := syncRepo_served hpeer hp hfit hs
        (hsound repo List.mem_cons_self) (hrepos repo List.mem_cons_self)
        fun q hq => hnet q (List.mem_append_left _ hq)
      rw [hres] at hnet
      obtain ⟨hserves', hres', hgrows', hfit''⟩ := ih hfit' (hgrows.shares hs hp.shares)
        (fun r hr => hsound r (List.mem_cons_of_mem _ hr))
        (fun r hr => hrepos r (List.mem_cons_of_mem _ hr))
        fun q hq => hnet q (List.mem_append_right _ hq)
      rw [syncRepos, result_bind_of_ok hres, final_bind_of_ok hres]
      exact ⟨⟨hserves, hserves'⟩, hres', hgrows.trans hgrows', hfit''⟩

/-- The requests for one image, and the exchanges they are made through. -/
theorem mem_wantedRequests {net : ℕ → Exchange} {i : ℕ} {xs : List ReleaseSummary}
    {q : Ref × Exchange} (h : q ∈ wantedRequests net i xs) :
    ∃ k, ∃ x ∈ xs[k]?, q = (x.ref, net (i + k)) := by
  induction xs generalizing i with
  | nil => cases h
  | cons x xs ih =>
      rw [wantedRequests] at h
      rcases List.mem_cons.mp h with rfl | h
      · exact ⟨0, x, rfl, rfl⟩
      · split at h
        · cases h
        · obtain ⟨k, y, hy, rfl⟩ := ih h
          exact ⟨k + 1, y, hy, by rw [Nat.add_assoc, Nat.add_comm 1]⟩

/-- How `p` serves one request after the other. -/
def Store.serving (p : Store) (refs : List Ref) (k : ℕ) : Exchange :=
  match refs[k]? with
  | some r => p.exchange r
  | none => ⟨.ok none, p.downloads, none⟩

theorem snd_of_mem_serving {xs : List ReleaseSummary} {q : Ref × Exchange}
    (h : q ∈ wantedRequests (p.serving (xs.map ReleaseSummary.ref)) 0 xs) :
    q.2 = p.exchange q.1 := by
  obtain ⟨k, x, hx, rfl⟩ := mem_wantedRequests h
  have hget : (xs.map ReleaseSummary.ref)[k]? = some x.ref := by
    rw [List.getElem?_map, hx]
    rfl
  rw [Nat.zero_add, Store.serving, hget]

/-- **A sync with an honest peer.**  A peer whose store is fit lists its releases, and answers each
request with what it listed.  The sync returns; the node's store grows by contents of the peer, and
stays fit to be served from.  Wherever it has come to on the way, the files of the index take a
record of the peer as the store does. -/
theorem sync_served {peer : EndpointId} (hpeer : peer ≠ node.id) (hp : p.Fit) (hfit : s.Fit)
    (hs : s.Shares p) {net : ℕ → ℕ → Exchange}
    (hnet : ∀ q ∈ (Event.inventory peer p.inventory net).requests node s, q.2 = p.exchange q.1) :
    Sync.Honest node s ⟨peer, p.listReleases.map Release.summary, net⟩ ∧
      (syncWith node peer p.inventory net).result s = .ok () ∧
      s.Grows p ((syncWith node peer p.inventory net).final s) ∧
      ((syncWith node peer p.inventory net).final s).Fit ∧
      ∀ u, s.Grows p u → u.Fit → (∃ t, IndexWorld.Represents ⟨t, u⟩) ∧
        ∀ t, IndexWorld.Represents ⟨t, u⟩ → ∀ rel ∈ p.releases.rows,
          IndexWorld.Agrees ⟨t, u⟩ (.put rel) := by
  have hlisted : ∀ x ∈ p.listReleases.map Release.summary,
      ∃ rel, p.releases.get x.ref = some rel ∧ rel.summary = x := by
    intro x hx
    obtain ⟨rel, hrel, rfl⟩ := List.mem_map.mp hx
    exact ⟨rel, Store.mem_listReleases.mp hrel, rfl⟩
  have hnames : ∀ x ∈ p.listReleases.map Release.summary, validateName x.name = .ok () := by
    intro x hx
    obtain ⟨rel, hget, rfl⟩ := hlisted x hx
    exact (hp.named _ rel hget).1
  have hremote : ∀ repo ∈ byRepo node (p.listReleases.map Release.summary), ∀ x ∈ repo.remote,
      ∃ rel, p.releases.get x.ref = some rel ∧ rel.summary = x := by
    intro repo hrepo x hx
    obtain ⟨k, -, rfl⟩ := List.mem_map.mp hrepo
    exact hlisted x (List.mem_filter.mp (List.mem_filter.mp hx).1).1
  rw [hp.inventory_eq] at hnet ⊢
  obtain ⟨hserves, hres, hgrows, hfit'⟩ :=
    syncRepos_served hpeer hp hfit hs (sound_of_mem_byRepo hnames) hremote hnet
  exact ⟨⟨hnames, hserves⟩, hres, hgrows, hfit', fun u => agrees_of_shares hp hs⟩

end

end Ocid
