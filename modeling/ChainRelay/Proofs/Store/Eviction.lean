import ChainRelay.Proofs.Store.Account
import ChainRelay.Proofs.Store.Walk

/-!
Which chunk a full store gives up. The arrivals on record are a part of everything that ever came
in, in the same order (`Dated`), and the first of them that is still held goes (`Sound.clears`).
So the oldest chunk is the one to go, unless it came in under an identifier that had been taken out
before, whose earlier arrival may still be on record (`Chronicle.oldest_is_evicted`).
-/

namespace ChainRelay

/-- The second list is a part of the first, in which each of the chosen identifiers stands for the
last time that it occurs. -/
inductive Dated (chosen : ChunkId → Prop) : List ChunkId → List ChunkId → Prop where
  | nil : Dated chosen [] []
  | skip {id : ChunkId} {log arrivals : List ChunkId} (h : Dated chosen log arrivals) :
      Dated chosen (id :: log) arrivals
  | keep {id : ChunkId} {log arrivals : List ChunkId} (h : Dated chosen log arrivals)
      (hlast : chosen id → id ∉ log) : Dated chosen (id :: log) (id :: arrivals)

namespace Dated

variable {chosen chosen' : ChunkId → Prop} {log arrivals : List ChunkId} {id : ChunkId}

theorem sublist (h : Dated chosen log arrivals) : arrivals.Sublist log := by
  induction h with
  | nil => exact .refl _
  | skip _ ih => exact ih.cons _
  | keep _ _ ih => exact ih.cons_cons _

/-- Fewer arrivals are as well dated. -/
theorem mono (h : Dated chosen log arrivals) {fewer : List ChunkId} (hs : fewer.Sublist arrivals)
    (hc : ∀ id ∈ fewer, chosen' id → chosen id) : Dated chosen' log fewer := by
  induction h generalizing fewer with
  | nil =>
    obtain rfl := List.sublist_nil.mp hs
    exact .nil
  | skip _ ih => exact .skip (ih hs hc)
  | @keep id log arrivals _ hlast ih =>
    cases hs with
    | cons _ hs => exact .skip (ih hs hc)
    | cons_cons _ hs =>
      rw [List.forall_mem_cons] at hc
      exact .keep (ih hs hc.2) fun h => hlast (hc.1 h)

/-- What comes in is put on record after all others. -/
theorem push (h : Dated chosen log arrivals) (hnew : chosen id → id ∉ arrivals) :
    Dated chosen (log ++ [id]) (arrivals ++ [id]) := by
  induction h with
  | nil => exact .keep .nil nofun
  | skip _ ih => exact .skip (ih hnew)
  | @keep x log arrivals _ hlast ih =>
    refine .keep (ih fun h hin => hnew h (List.mem_cons_of_mem _ hin)) fun hx hin => ?_
    rcases List.mem_append.mp hin with hin | hin
    · exact hlast hx hin
    · obtain rfl := List.mem_singleton.mp hin
      exact hnew hx List.mem_cons_self

/-- The arrivals after one of them came in after it. -/
theorem split {stale rest : List ChunkId} (h : Dated chosen log (stale ++ id :: rest)) :
    ∃ pre post, log = pre ++ id :: post ∧ rest.Sublist post ∧ (chosen id → id ∉ post) := by
  generalize harr : stale ++ id :: rest = arrivals at h
  induction h generalizing stale with
  | nil => exact absurd harr (by simp)
  | @skip x log arrivals _ ih =>
    obtain ⟨pre, post, rfl, hrest, hlast⟩ := ih harr
    exact ⟨x :: pre, post, rfl, hrest, hlast⟩
  | @keep x log arrivals h hlast ih =>
    cases stale with
    | nil =>
      obtain ⟨rfl, rfl⟩ := List.cons.inj harr
      exact ⟨[], log, rfl, h.sublist, hlast⟩
    | cons gone stale =>
      obtain ⟨pre, post, rfl, hrest, hlast⟩ := ih (List.cons.inj harr).2
      exact ⟨x :: pre, post, rfl, hrest, hlast⟩

end Dated

namespace Store

variable {s : Store} {id : ChunkId}

/-- What a store still holds and has on record when it has made way for a chunk: it replaces one, or
has room, or gives up the chunk that is the first of those on record to be held. -/
inductive Clears (s : Store) (id : ChunkId) : List StoredChunk → List ChunkId → Prop where
  | replaces (h : s.contains id = true) :
      Clears s id (s.erase id).chunks (s.arrivals.filter (· ≠ id))
  | adds (h : s.contains id = false) : Clears s id s.chunks s.arrivals
  | evicts {stale rest : List ChunkId} {first : ChunkId} (h : s.contains id = false)
      (harrivals : s.arrivals = stale ++ first :: rest)
      (hstale : ∀ gone ∈ stale, s.contains gone = false) (hfirst : s.contains first = true) :
      Clears s id (s.erase first).chunks rest

/-- A full store gives up a single chunk, the first of those on record that it still holds. -/
theorem makeRoom_full {arrivals : List ChunkId} (hd : (s.chunks.map (·.id)).Nodup) {n : Nat}
    (hfull : s.size = n) (hheld : ∃ id ∈ arrivals, s.contains id = true) :
    ∃ stale first rest, arrivals = stale ++ first :: rest ∧
      (∀ gone ∈ stale, s.contains gone = false) ∧ s.contains first = true ∧
      (makeRoom n arrivals s).1 =
        { s.erase first with arrivals := rest, evicted := s.evicted + 1 } := by
  induction arrivals with
  | nil =>
    obtain ⟨id, hin, -⟩ := hheld
    cases hin
  | cons id rest ih =>
    unfold makeRoom
    rw [if_neg (by omega)]
    by_cases hc : s.contains id = true
    · have hsize := size_erase hd hc
      have hroom : Store.size { s.erase id with evicted := s.evicted + 1 } < n := by
        rw [← hfull, ← hsize]
        exact Nat.lt_succ_self _
      refine ⟨[], id, rest, rfl, List.forall_mem_nil _, hc, ?_⟩
      rw [if_pos hc, makeRoom_of_lt hroom]
    · rw [if_neg hc]
      obtain ⟨x, hx, hheld⟩ := hheld
      have hx := (List.mem_cons.mp hx).resolve_left fun he => hc (he ▸ hheld)
      obtain ⟨stale, first, rest', rfl, hstale, hfirst, hroom⟩ := ih ⟨x, hx, hheld⟩
      exact ⟨id :: stale, first, rest', rfl,
        List.forall_mem_cons.mpr ⟨Bool.eq_false_iff.mpr hc, hstale⟩, hfirst, hroom⟩

theorem arrivals_reassemble (s : Store) (head : ChunkId) (maxChunks : Nat) :
    (s.reassemble head maxChunks).2.arrivals = s.arrivals := by
  unfold reassemble
  dsimp only
  split
  · rfl
  · dsimp only
    rw [eraseAll_eq]

/-- Taking in a chunk clears the way for it, and puts it last on record. -/
theorem Sound.clears (h : s.Sound) (ch : StoredChunk) : ∃ chunks arrivals,
    s.Clears ch.id chunks arrivals ∧ (s.insert ch).store.chunks = ch :: chunks ∧
      (s.insert ch).store.arrivals.Sublist (arrivals ++ [ch.id]) := by
  obtain ⟨t, ht⟩ : ∃ t, t = (makeRoom (s.dropDuplicate ch.id).1.maxPending
    (s.dropDuplicate ch.id).1.arrivals (s.dropDuplicate ch.id).1).1 := ⟨_, rfl⟩
  have hinsert : (s.insert ch).store.chunks = ch :: t.chunks ∧
      (s.insert ch).store.arrivals.Sublist (t.arrivals ++ [ch.id]) := by
    unfold Store.insert
    dsimp only
    rw [← ht]
    split
    · exact ⟨rfl, .refl _⟩
    · split
      · exact ⟨rfl, List.filter_sublist⟩
      · exact ⟨rfl, .refl _⟩
  refine ⟨t.chunks, t.arrivals, ?_, hinsert⟩
  have hle := h.size_le
  unfold Store.dropDuplicate at ht
  by_cases hc : s.contains ch.id = true
  · have hsize := size_erase h.distinct hc
    have hroom : Store.size { s.erase ch.id with
        arrivals := s.arrivals.filter (· ≠ ch.id)
        duplicates := s.duplicates + 1 } < s.maxPending := by
      simp only [size, erase] at hsize hle ⊢
      omega
    rw [if_pos hc] at ht
    dsimp only [erase] at ht hroom
    rw [makeRoom_of_lt hroom] at ht
    subst ht
    exact .replaces hc
  · rw [if_neg hc] at ht
    have hfree := Bool.eq_false_iff.mpr hc
    by_cases hroom : s.size < s.maxPending
    · rw [makeRoom_of_lt hroom] at ht
      subst ht
      exact .adds hfree
    · have hpos := h.maxPending_pos
      obtain ⟨x, hx⟩ := List.exists_mem_of_length_pos (show 0 < s.chunks.length by
        unfold size at hroom
        omega)
      obtain ⟨stale, first, rest, harrivals, hstale, hfirst, hgone⟩ :=
        makeRoom_full h.distinct (by omega : s.size = s.maxPending)
          ⟨x.id, h.arrived x hx, contains_iff.mpr ⟨x, hx, rfl⟩⟩
      rw [hgone] at ht
      subst ht
      exact .evicts hfree harrivals hstale hfirst

end Store

/-- A store with its past. -/
structure Chronicle where
  store : Store
  /-- The identifiers under which chunks came in, the first one first. -/
  log : List ChunkId := []
  /-- The identifiers of chunks that were taken out with a chain. -/
  spent : List ChunkId := []
  /-- The identifiers under which a chunk came in although one had been taken out under it before,
  and that were not replaced since. -/
  returned : List ChunkId := []

namespace Chronicle

def ingested (a : Chronicle) (id : ChunkId) (store : Store) : Chronicle where
  store
  log := a.log ++ [id]
  spent := a.spent
  returned :=
    if a.store.contains id then a.returned.filter (· ≠ id)
    else if id ∈ a.spent then id :: a.returned
    else a.returned

def relieved (a : Chronicle) (store : Store) : Chronicle :=
  { a with
    store
    spent := a.spent ++ (a.store.chunks.map (·.id)).filter (!store.contains ·) }

/-- What may happen to a store, step by step. A drain ingests records and counts those that it
rejects (`drained`), and the chains of a record are taken out one by one (`resolved`). -/
inductive Step : Chronicle → Chronicle → Prop where
  | ingest {a : Chronicle} {record : Bytes} {id : ChunkId}
      (h : (a.store.ingest record).result = .ok id) :
      Step a (a.ingested id (a.store.ingest record).store)
  | reject {a : Chronicle} {record : Bytes} {e : Store.IngestError}
      (h : (a.store.ingest record).result = .error e) :
      Step a { a with store := (a.store.ingest record).store }
  | count (a : Chronicle) (n : Nat) : Step a { a with store := { a.store with rejected := n } }
  | reassemble (a : Chronicle) (head : ChunkId) (maxChunks : Nat) :
      Step a (a.relieved (a.store.reassemble head maxChunks).2)

def opened (n : Nat) : Chronicle := { store := .ofMaxPending n }

open Relation (ReflTransGen)

/-- Whatever becomes of a record at the front of a channel, it is ingested or left there. -/
theorem took (a : Chronicle) (v : Channel) (shared : Shared) :
    ∃ b, ReflTransGen Step a b ∧ b.store = (a.store.takeOne v shared).2.1 := by
  unfold Store.takeOne
  split
  · exact ⟨a, .refl, rfl⟩
  · exact ⟨a, .refl, rfl⟩
  · dsimp only
    split
    · rename_i hok
      exact ⟨_, .single (.ingest hok), rfl⟩
    · rename_i herr
      exact ⟨_, (ReflTransGen.single (.reject herr)).tail (.count _ (a.store.rejected + 1)), rfl⟩
    · rename_i herr
      exact ⟨_, .single (.reject herr), rfl⟩

theorem tookMany (a : Chronicle) (v : Channel) (fuel : Nat) (shared : Shared) :
    ∃ b, ReflTransGen Step a b ∧ b.store = (Store.takeMany v fuel a.store shared).2.1 := by
  induction fuel generalizing a shared with
  | zero => exact ⟨a, .refl, rfl⟩
  | succ fuel ih =>
    obtain ⟨b, hrun, hb⟩ := a.took v shared
    unfold Store.takeMany
    split
    · rename_i hone
      rw [hone] at hb
      exact ⟨b, hrun, hb⟩
    · rename_i hone
      rw [hone] at hb
      exact ⟨b, hrun, hb⟩
    · rename_i store shared' _ hone
      rw [hone] at hb
      obtain rfl : b.store = store := hb
      obtain ⟨d, hrun', hd⟩ := ih b shared'
      refine ⟨d, hrun.trans hrun', hd.trans ?_⟩
      split <;> simp [*]

/-- A drain is made of steps. -/
theorem drained (a : Chronicle) (v : Channel) (shared : Shared) :
    ∃ b, ReflTransGen Step a b ∧ b.store = (a.store.drain v shared).2.1 := by
  unfold Store.drain
  exact a.tookMany v _ shared

theorem reassembledAll (a : Chronicle) (maxChunks : Nat) (heads : List ChunkId) :
    ∃ b, ReflTransGen Step a b ∧
      b.store = (Store.reassembleAll maxChunks heads a.store).2 := by
  induction heads generalizing a with
  | nil => exact ⟨a, .refl, rfl⟩
  | cons head heads ih =>
    obtain ⟨b, hrun, hb⟩ := ih (a.relieved (a.store.reassemble head maxChunks).2)
    exact ⟨b, hrun.head (.reassemble a head maxChunks), hb⟩

/-- Resolving a record is made of steps. -/
theorem resolved (a : Chronicle) (t : Task) (maxChunks : Nat) :
    ∃ b, ReflTransGen Step a b ∧ b.store = (a.store.resolveTask t maxChunks).2 := by
  rw [Store.resolveTask_store]
  exact a.reassembledAll maxChunks t.heads

/-- The arrivals on record are those of the chunks that are held, and some of chunks that were taken
out. But for the identifiers that were used again, an arrival on record is the last one. -/
structure Orderly (n : Nat) (a : Chronicle) : Prop where
  sound : a.store.Sound
  maxPending_eq : a.store.maxPending = max n 1
  dated : Dated (· ∉ a.returned) a.log a.store.arrivals
  known : ∀ id ∈ a.store.arrivals, a.store.contains id = true ∨ id ∈ a.spent
  returned_spent : ∀ id ∈ a.returned, id ∈ a.spent

variable {n : Nat} {a b : Chronicle}

theorem Orderly.doubles (h : a.Orderly n) (hn : n * 2 < sizeLimit) :
    a.store.maxPending * 2 < sizeLimit := by
  rw [h.maxPending_eq]
  unfold sizeLimit at *
  omega

theorem orderly_opened (n : Nat) : (opened n).Orderly n :=
  ⟨Store.sound_ofMaxPending n, rfl, .nil, nofun, nofun⟩

theorem ingested_returned (ha : ∀ id ∈ a.returned, id ∈ a.spent) (id : ChunkId) (store : Store) :
    ∀ x ∈ (a.ingested id store).returned, x ∈ a.spent := by
  intro x hx
  dsimp only [ingested] at hx
  split at hx
  · exact ha x (List.mem_filter.mp hx).1
  · split at hx
    · rcases List.mem_cons.mp hx with rfl | hx
      · assumption
      · exact ha x hx
    · exact ha x hx

/-- The way is cleared for a chunk without forgetting the order of those that are left. -/
theorem Orderly.cleared (h : a.Orderly n) {id : ChunkId} {chunks : List StoredChunk}
    {arrivals : List ChunkId} (hc : a.store.Clears id chunks arrivals) (store : Store) :
    Dated (· ∉ (a.ingested id store).returned) a.log arrivals ∧
      (id ∉ (a.ingested id store).returned → id ∉ arrivals) ∧
      ∀ x ∈ arrivals, (∃ ch ∈ chunks, ch.id = x) ∨ x ∈ a.spent := by
  -- The identifier is not held. If it is on record nevertheless, it was taken out before.
  have hfresh (hfree : a.store.contains id = false) {fewer : List ChunkId}
      (hs : fewer.Sublist a.store.arrivals) :
      Dated (· ∉ (a.ingested id store).returned) a.log fewer ∧
        (id ∉ (a.ingested id store).returned → id ∉ fewer) := by
    simp only [ingested, hfree, Bool.false_eq_true, if_false]
    refine ⟨h.dated.mono hs fun x _ hx hin => hx ?_, fun hx hin => ?_⟩
    · split
      · exact List.mem_cons_of_mem _ hin
      · exact hin
    · rcases h.known id (hs.subset hin) with hheld | hspent
      · rw [hfree] at hheld
        cases hheld
      · rw [if_pos hspent] at hx
        exact hx List.mem_cons_self
  cases hc with
  | replaces hheld =>
    simp only [ingested, hheld, if_true]
    refine ⟨h.dated.mono List.filter_sublist fun x hx hnot hin => hnot ?_, fun _ hin => ?_, ?_⟩
    · exact List.mem_filter.mpr ⟨hin, (List.mem_filter.mp hx).2⟩
    · exact of_decide_eq_true (List.mem_filter.mp hin).2 rfl
    · intro x hx
      obtain ⟨hx, hne⟩ := List.mem_filter.mp hx
      refine (h.known x hx).imp_left fun hin => ?_
      obtain ⟨ch, hch, rfl⟩ := Store.contains_iff.mp hin
      exact ⟨ch, Store.mem_erase.mpr ⟨hch, of_decide_eq_true hne⟩, rfl⟩
  | adds hfree =>
    obtain ⟨hdated, hnew⟩ := hfresh hfree (.refl _)
    exact ⟨hdated, hnew, fun x hx => (h.known x hx).imp_left Store.contains_iff.mp⟩
  | @evicts stale _ first hfree harrivals hstale hfirst =>
    have hsub : arrivals.Sublist a.store.arrivals := by
      rw [harrivals]
      exact (List.sublist_cons_self first arrivals).trans (List.sublist_append_right _ _)
    obtain ⟨hdated, hnew⟩ := hfresh hfree hsub
    refine ⟨hdated, hnew, fun x hx => ?_⟩
    by_cases he : x = first
    · -- Only an identifier that was used again is on record twice.
      subst he
      obtain ⟨pre, post, -, hrest, hlast⟩ := (harrivals ▸ h.dated).split
      exact .inr (h.returned_spent x (not_not.mp fun hnot => hlast hnot (hrest.subset hx)))
    · refine (h.known x (hsub.subset hx)).imp_left fun hin => ?_
      obtain ⟨ch, hch, rfl⟩ := Store.contains_iff.mp hin
      exact ⟨ch, Store.mem_erase.mpr ⟨hch, he⟩, rfl⟩

/-- A record that is kept was decoded to a chunk. -/
theorem Orderly.ingest (h : a.Orderly n) (hn : n * 2 < sizeLimit) {record : Bytes} {id : ChunkId}
    (hok : (a.store.ingest record).result = .ok id) :
    ∃ ch : StoredChunk, ch.id = id ∧ a.store.ingest record = a.store.insert ch := by
  have hspec := h.sound.ingest (h.doubles hn) record
  cases hd : decodeChunk record with
  | error e =>
    rw [hd] at hspec
    rw [hspec] at hok
    cases hok
  | ok v =>
    rw [hd] at hspec
    rw [hspec.1] at hok
    refine ⟨v.stored, Except.ok.inj hok, ?_⟩
    rw [Store.ingest, hd]
    rfl

theorem Orderly.step (h : a.Orderly n) (hn : n * 2 < sizeLimit) (hs : Step a b) : b.Orderly n := by
  have hmax := h.doubles hn
  cases hs with
  | @ingest record id hok =>
    obtain ⟨ch, rfl, hinsert⟩ := h.ingest hn hok
    obtain ⟨chunks, arrivals, hclears, hchunks, harrivals⟩ := h.sound.clears ch
    obtain ⟨hsound, -, hbound, -⟩ := Store.ingest_stored h.sound hmax hok
    obtain ⟨hdated, hnew, hknown⟩ := h.cleared hclears (a.store.ingest record).store
    rw [← hinsert] at hchunks harrivals
    refine ⟨hsound, hbound.trans h.maxPending_eq, ?_, ?_, ?_⟩
    · exact (hdated.push hnew).mono harrivals fun _ _ hx => hx
    · intro x hx
      rw [Store.contains_iff]
      dsimp only [ingested]
      rw [hchunks]
      rcases List.mem_append.mp (harrivals.subset hx) with hx | hx
      · exact (hknown x hx).imp_left fun ⟨d, hd, he⟩ => ⟨d, List.mem_cons_of_mem _ hd, he⟩
      · exact .inl ⟨ch, List.mem_cons_self, (List.mem_singleton.mp hx).symm⟩
    · exact ingested_returned h.returned_spent ch.id _
  | reject herr =>
    rw [Store.ingest_rejected h.sound hmax herr]
    exact h
  | count m =>
    exact ⟨h.sound.rejecting m, h.maxPending_eq, h.dated, h.known, h.returned_spent⟩
  | reassemble head maxChunks =>
    obtain ⟨hsound, -, hbound⟩ := h.sound.reassemble head maxChunks
    have harrivals := a.store.arrivals_reassemble head maxChunks
    refine ⟨hsound, hbound.trans h.maxPending_eq, ?_, ?_, ?_⟩
    · exact h.dated.mono (by rw [← harrivals]; exact .refl _) fun _ _ hx => hx
    · intro x hx
      dsimp only [relieved] at hx ⊢
      rw [harrivals] at hx
      rw [List.mem_append, List.mem_filter]
      cases hc : (a.store.reassemble head maxChunks).2.contains x with
      | true => exact .inl rfl
      | false =>
        refine .inr ((h.known x hx).symm.imp_right fun hin => ⟨?_, rfl⟩)
        obtain ⟨d, hd, rfl⟩ := Store.contains_iff.mp hin
        exact List.mem_map_of_mem hd
    · exact fun x hx => List.mem_append_left _ (h.returned_spent x hx)

theorem Orderly.run (h : a.Orderly n) (hn : n * 2 < sizeLimit) (hs : ReflTransGen Step a b) :
    b.Orderly n := by
  induction hs with
  | refl => exact h
  | tail _ hlast ih => exact ih.step hn hlast

/-- Whatever happens to a store, a chunk that it gives up to take in another came in before all
others that it holds at that moment, and these it keeps. This is about the last time that each of
them came in, unless the chunk that goes came in under an identifier that had been taken out before
and was not replaced since: then they came in after some arrival under its identifier. All this
covers the chunks that a drain takes in, and a store that the chains of records are taken out of. -/
theorem oldest_is_evicted (hn : n * 2 < sizeLimit) (hrun : ReflTransGen Step (opened n) a) :
    (∀ (record : Bytes) (id : ChunkId), (a.store.ingest record).result = .ok id →
      ∀ x ∈ a.store.chunks, x.id ≠ id → x ∉ (a.store.ingest record).store.chunks →
      ∃ pre post, a.log = pre ++ x.id :: post ∧ (x.id ∉ a.returned → x.id ∉ post) ∧
        ∀ y ∈ a.store.chunks, y ≠ x →
          y.id ∈ post ∧ y ∈ (a.store.ingest record).store.chunks) ∧
    (∀ (v : Channel) (shared : Shared),
      ∃ b, ReflTransGen Step a b ∧ b.store = (a.store.drain v shared).2.1) ∧
    ∀ (t : Task) (maxChunks : Nat),
      ∃ b, ReflTransGen Step a b ∧ b.store = (a.store.resolveTask t maxChunks).2 := by
  refine ⟨?_, a.drained, a.resolved⟩
  have h := (orderly_opened n).run hn hrun
  intro record id hok x hx hne hgone
  obtain ⟨ch, rfl, hinsert⟩ := h.ingest hn hok
  obtain ⟨chunks, arrivals, hclears, hchunks, -⟩ := h.sound.clears ch
  rw [hinsert, hchunks] at hgone ⊢
  have hgone : x ∉ chunks := fun hin => hgone (List.mem_cons_of_mem _ hin)
  cases hclears with
  | replaces => exact absurd (Store.mem_erase.mpr ⟨hx, hne⟩) hgone
  | adds => exact absurd hx hgone
  | @evicts stale _ first _ harrivals hstale hfirst =>
    obtain rfl : x.id = first := not_not.mp fun he => hgone (Store.mem_erase.mpr ⟨hx, he⟩)
    obtain ⟨pre, post, hlog, hrest, hlast⟩ := (harrivals ▸ h.dated).split
    refine ⟨pre, post, hlog, hlast, fun y hy hother => ?_⟩
    have hid : y.id ≠ x.id := fun he =>
      hother (List.inj_on_of_nodup_map h.sound.distinct hy hx he)
    refine ⟨hrest.subset ?_, List.mem_cons_of_mem _ (Store.mem_erase.mpr ⟨hy, hid⟩)⟩
    have harrived := h.sound.arrived y hy
    rw [harrivals, List.mem_append, List.mem_cons] at harrived
    rcases harrived with hin | he | hin
    · have hnot := hstale y.id hin
      rw [Store.contains_iff.mpr ⟨y, hy, rfl⟩] at hnot
      cases hnot
    · exact absurd he hid
    · exact hin

/-- A store with room for two chunks gives up the first of three. -/
theorem oldest_is_evicted_of_three : 2 * 2 < sizeLimit ∧ ∃ a : Chronicle,
    ReflTransGen Step (opened 2) a ∧
    ((a.store.ingest (Account.smallChunk 3)).result = .ok ⟨3⟩ ∧
      ∃ x ∈ a.store.chunks, x.id ≠ ⟨3⟩ ∧
        x ∉ (a.store.ingest (Account.smallChunk 3)).store.chunks ∧ x.id ∉ a.returned) ∧
    ∃ pre post, a.log = pre ++ ⟨1⟩ :: post ∧ ⟨1⟩ ∉ post ∧ ⟨2⟩ ∈ post := by
  have h₁ : ((opened 2).store.ingest (Account.smallChunk 1)).result = .ok ⟨1⟩ := by decide
  have h₂ : (((opened 2).store.ingest (Account.smallChunk 1)).store.ingest
      (Account.smallChunk 2)).result = .ok ⟨2⟩ := by decide
  obtain ⟨a, ha⟩ : ∃ a : Chronicle, a = ((opened 2).ingested ⟨1⟩
      ((opened 2).store.ingest (Account.smallChunk 1)).store).ingested ⟨2⟩
      (((opened 2).store.ingest (Account.smallChunk 1)).store.ingest
        (Account.smallChunk 2)).store := ⟨_, rfl⟩
  have hrun : ReflTransGen Step (opened 2) a :=
    ha ▸ (ReflTransGen.single (.ingest h₁)).tail (.ingest h₂)
  have h₃ : (a.store.ingest (Account.smallChunk 3)).result = .ok ⟨3⟩ := by
    subst ha
    decide
  have hheld : a.store.chunks = [⟨⟨2⟩, .none, [7]⟩, ⟨⟨1⟩, .none, [7]⟩] := by
    subst ha
    decide
  have hfirst : (⟨⟨1⟩, .none, [7]⟩ : StoredChunk) ∈ a.store.chunks := by
    rw [hheld]
    decide
  have hgone : (⟨⟨1⟩, .none, [7]⟩ : StoredChunk) ∉
      (a.store.ingest (Account.smallChunk 3)).store.chunks := by
    subst ha
    decide
  have hnever : (⟨1⟩ : ChunkId) ∉ a.returned := by
    subst ha
    decide
  obtain ⟨hevicted, -, -⟩ := oldest_is_evicted (by decide) hrun
  obtain ⟨pre, post, hlog, hlast, hafter⟩ := hevicted _ _ h₃ _ hfirst (by decide) hgone
  have hsecond := hafter ⟨⟨2⟩, .none, [7]⟩ (by rw [hheld]; decide) (by decide)
  exact ⟨by decide, a, hrun, ⟨h₃, _, hfirst, by decide, hgone, hnever⟩, pre, post, hlog,
    hlast hnever, hsecond.1⟩

/-- After a chunk was taken out, one that comes in under its identifier takes over its arrival, and
is given up before one that came in earlier. -/
example :
    let first := ((Store.ofMaxPending 2).ingest (Account.smallChunk 1)).store
    let second := ((first.reassemble ⟨1⟩ 1).2.ingest (Account.smallChunk 2)).store
    let again := (second.ingest (Account.smallChunk 1)).store
    let full := (again.ingest (Account.smallChunk 3)).store
    full.contains ⟨1⟩ = false ∧ full.contains ⟨2⟩ = true := by
  decide

end Chronicle
end ChainRelay
