import Mathlib.Data.List.Nodup
import ChainRelay.Store
import ChainRelay.Proofs.Channel.View
import ChainRelay.Proofs.Copy.Trail

/-!
A store that is large enough keeps every chunk it is given. A walk along a chain finds the chain if
all of it has arrived, and a missing chunk otherwise.
-/

namespace ChainRelay

open ChainRelay.Ring

def ChunkView.stored (v : ChunkView) : StoredChunk := ⟨v.header.id, v.header.next, v.data⟩

namespace Store

/-- What a store has that never gave up a chunk for want of room: the chunks that arrived, in this
order, and those among them that are kept. -/
structure Keeps (s : Store) (got kept : List ChunkView) : Prop where
  chunks_eq : s.chunks = (kept.map (·.stored)).reverse
  arrived : kept.Sublist got
  distinct : (got.map (·.header.id)).Nodup

variable {s : Store} {got kept : List ChunkView} {v : ChunkView}

theorem keeps_ofMaxPending (n : Nat) : (ofMaxPending n).Keeps [] [] :=
  ⟨rfl, .refl _, .nil⟩

theorem Keeps.size_le (h : s.Keeps got kept) : s.size ≤ got.length := by
  rw [size, h.chunks_eq, List.length_reverse, List.length_map]
  exact h.arrived.length_le

theorem Keeps.kept_distinct (h : s.Keeps got kept) : (kept.map (·.header.id)).Nodup :=
  h.distinct.sublist (h.arrived.map _)

/-- A chunk that arrived under an identifier is the one that is kept under it. -/
theorem Keeps.kept_of_id (h : s.Keeps got kept) (hv : v ∈ got)
    (hid : v.header.id ∈ kept.map (·.header.id)) : v ∈ kept := by
  obtain ⟨w, hw, he⟩ := List.mem_map.mp hid
  have heq : w = v := List.inj_on_of_nodup_map h.distinct (h.arrived.subset hw) hv he
  rwa [← heq]

theorem Keeps.find?_of_mem (h : s.Keeps got kept) (hv : v ∈ kept) :
    s.find? v.header.id = some v.stored := by
  obtain ⟨pre, post, rfl⟩ := List.append_of_mem hv
  have hpost : ∀ w ∈ post, ¬w.header.id = v.header.id := by
    intro w hw he
    have hn := h.kept_distinct
    simp only [List.map_append, List.map_cons] at hn
    have hcons := List.nodup_cons.mp (List.nodup_append.mp hn).2.1
    exact hcons.1 (he ▸ List.mem_map_of_mem hw)
  unfold find?
  rw [h.chunks_eq, List.map_append, List.map_cons, List.reverse_append, List.reverse_cons,
    List.append_assoc, List.find?_append]
  have hnone : (post.map (·.stored)).reverse.find? (·.id = v.header.id) = none := by
    rw [List.find?_eq_none]
    intro x hx
    obtain ⟨w, hw, rfl⟩ := List.mem_map.mp (List.mem_reverse.mp hx)
    intro he
    exact hpost w hw (of_decide_eq_true he)
  rw [hnone, Option.none_or]
  exact List.find?_cons_of_pos (by simp [ChunkView.stored])

theorem Keeps.find?_eq_none (h : s.Keeps got kept) {id : ChunkId}
    (hid : id ∉ kept.map (·.header.id)) : s.find? id = none := by
  unfold find?
  rw [h.chunks_eq, List.find?_eq_none]
  intro x hx
  obtain ⟨w, hw, rfl⟩ := List.mem_map.mp (List.mem_reverse.mp hx)
  simp only [decide_eq_true_eq]
  intro he
  exact hid (he ▸ List.mem_map_of_mem hw)

theorem makeRoom_of_lt {n : Nat} {arrivals : List ChunkId} (hroom : s.size < n) :
    makeRoom n arrivals s = ({ s with arrivals }, []) := by
  cases arrivals with
  | nil => rfl
  | cons id rest => rw [makeRoom, if_pos hroom]

/-- A new chunk is kept beside the others, as long as there is room. -/
theorem Keeps.ingest {record : Bytes} (h : s.Keeps got kept) (hd : decodeChunk record = .ok v)
    (hid : v.header.id ∉ got.map (·.header.id)) (hroom : s.size < s.maxPending)
    (hmax : s.maxPending * 2 < sizeLimit) :
    ∃ s', s.ingest record = ⟨.ok v.header.id, s', []⟩ ∧ s'.Keeps (got ++ [v]) (kept ++ [v]) ∧
      s'.maxPending = s.maxPending ∧ s'.size = s.size + 1 := by
  have hfresh : s.contains v.header.id = false := by
    unfold contains
    rw [h.find?_eq_none fun hk => hid ((h.arrived.map _).subset hk)]
    rfl
  have hkeeps (arrivals : List ChunkId) :
      Keeps { s with chunks := v.stored :: s.chunks, arrivals } (got ++ [v]) (kept ++ [v]) := by
    constructor
    case chunks_eq => simp [h.chunks_eq]
    case arrived => exact h.arrived.append (.refl _)
    case distinct =>
      rw [List.map_append, List.nodup_append]
      refine ⟨h.distinct, List.pairwise_singleton _ _, ?_⟩
      intro x hx y hy he
      rw [he, List.mem_singleton.mp hy] at hx
      exact hid hx
  have hingest : ∃ arrivals, s.ingest record =
      ⟨.ok v.header.id, { s with chunks := v.stored :: s.chunks, arrivals }, []⟩ := by
    simp only [Store.ingest, hd, insert, dropDuplicate, hfresh, Bool.false_eq_true, if_false,
      makeRoom_of_lt hroom]
    rw [if_neg (Nat.not_le.mpr hmax)]
    split
    · exact ⟨_, rfl⟩
    · exact ⟨_, rfl⟩
  obtain ⟨arrivals, hingest⟩ := hingest
  exact ⟨_, hingest, hkeeps arrivals, rfl, rfl⟩

theorem maxPending_dropDuplicate (s : Store) (id : ChunkId) :
    (s.dropDuplicate id).1.maxPending = s.maxPending := by
  unfold dropDuplicate
  split <;> rfl

theorem maxPending_makeRoom (n : Nat) (arrivals : List ChunkId) (s : Store) :
    (makeRoom n arrivals s).1.maxPending = s.maxPending := by
  induction arrivals generalizing s with
  | nil => rfl
  | cons id rest ih =>
    unfold makeRoom
    split
    · rfl
    · split
      · exact ih _
      · exact ih s

/-- The bound is doubled for every chunk, and not every bound can be. -/
theorem ingest_overflow {record : Bytes} (hd : decodeChunk record = .ok v)
    (hmax : sizeLimit ≤ s.maxPending * 2) : (s.ingest record).result = .error .overflow := by
  have hroom := (maxPending_makeRoom (s.dropDuplicate v.header.id).1.maxPending
    (s.dropDuplicate v.header.id).1.arrivals (s.dropDuplicate v.header.id).1).trans
    (maxPending_dropDuplicate s v.header.id)
  simp only [Store.ingest, hd, insert]
  rw [if_pos (by rw [hroom]; exact hmax)]

theorem Keeps.erase (h : s.Keeps got kept) (id : ChunkId) :
    (s.erase id).Keeps got (kept.filter (·.header.id ≠ id)) := by
  refine ⟨?_, List.filter_sublist.trans h.arrived, h.distinct⟩
  simp only [Store.erase, h.chunks_eq, List.filter_reverse, List.filter_map]
  rfl

/-- Taking out a chain leaves all other chunks. -/
theorem Keeps.eraseAll (h : s.Keeps got kept) (chain : List ChunkView) :
    ∃ kept', ((chain.map (·.stored)).foldl (fun s c => s.erase c.id) s).Keeps got kept' ∧
      (∀ v ∈ kept, v ∈ kept' ∨ ∃ w ∈ chain, v.header.id = w.header.id) ∧
      ((chain.map (·.stored)).foldl (fun s c => s.erase c.id) s).maxPending = s.maxPending := by
  induction chain generalizing s kept with
  | nil => exact ⟨kept, h, fun v hv => .inl hv, rfl⟩
  | cons w chain ih =>
    obtain ⟨kept', hk, hleft, hmax⟩ := ih (h.erase w.header.id)
    refine ⟨kept', hk, fun v hv => ?_, hmax⟩
    by_cases he : v.header.id = w.header.id
    · exact .inr ⟨w, List.mem_cons_self, he⟩
    · rcases hleft v (List.mem_filter.mpr ⟨hv, by simpa using he⟩) with hv | ⟨x, hx, he⟩
      · exact .inl hv
      · exact .inr ⟨x, List.mem_cons_of_mem _ hx, he⟩

section Walk

variable {shard : UInt16} {limit : Nat}

theorem walk_none (s : Store) (shard : UInt16) (limit more : Nat) :
    s.walk shard limit more .none = .ok [] := by
  unfold walk
  exact if_pos rfl

theorem walk_step {more : Nat} {id : ChunkId} (hne : id ≠ .none) (hshard : id.shard = shard) :
    s.walk shard limit (more + 1) id =
      match s.find? id with
      | none => .error (.missing id)
      | some c =>
        match s.walk shard limit more c.next with
        | .error e => .error e
        | .ok rest => .ok (c :: rest) := by
  conv => lhs; unfold walk
  rw [if_neg (fun h => hne ((ChunkId.isNone_iff id).mp h))]
  exact if_neg (fun h => h hshard)

/-- A walk that comes to the end of a chain does so with more steps, too. -/
theorem walk_more {more more' : Nat} {id : ChunkId} {chain : List StoredChunk}
    (h : s.walk shard limit more id = .ok chain) (hle : more ≤ more') (limit' : Nat) :
    s.walk shard limit' more' id = .ok chain := by
  induction more generalizing id chain more' with
  | zero =>
    unfold walk at h ⊢
    split at h
    · rw [if_pos ‹_›]
      exact h
    · cases h
  | succ more ih =>
    obtain ⟨more', rfl⟩ : ∃ fewer, more' = fewer + 1 := ⟨more' - 1, by omega⟩
    by_cases hnone : id = .none
    · subst hnone
      rw [walk_none] at h ⊢
      exact h
    by_cases hshard : id.shard = shard
    · rw [walk_step hnone hshard] at h ⊢
      split at h
      · cases h
      · split at h
        · cases h
        · rename_i rest hrest
          simp only [ih hrest (Nat.le_of_succ_le_succ hle)]
          exact h
    · unfold walk at h
      rw [if_neg (fun he => hnone ((ChunkId.isNone_iff id).mp he))] at h
      dsimp only at h
      rw [if_pos hshard] at h
      cases h

theorem reassemble_error {id : ChunkId} {maxChunks : Nat} {e : ChainError} {s' : Store}
    (h : s.reassemble id maxChunks = (.error e, s')) : s' = s := by
  unfold reassemble at h
  dsimp only at h
  split at h
  · exact (congrArg Prod.snd h).symm
  · cases h

/-- A chain that is taken out under some limit is taken out under a higher one. -/
theorem reassemble_more {id : ChunkId} {maxChunks maxChunks' : Nat} {res : Reassembled}
    {s' : Store} (h : s.reassemble id maxChunks = (.ok res, s')) (hle : maxChunks ≤ maxChunks') :
    s.reassemble id maxChunks' = (.ok res, s') := by
  unfold reassemble at h ⊢
  dsimp only at h ⊢
  split at h
  · cases h
  · rename_i chain hchain
    have hle : max 1 (min maxChunks maxChunksLimit) ≤ max 1 (min maxChunks' maxChunksLimit) := by
      omega
    rw [walk_more hchain hle]
    exact h

/-- The chain to walk along: its chunks are named and belong to the shard. -/
structure Walkable (shard : UInt16) (vs : List ChunkView) (stop : ChunkId) : Prop where
  leads : Copy.Trail.Leads vs stop
  named : ∀ v ∈ vs, v.header.id ≠ .none ∧ v.header.id.shard = shard
  stop_shard : stop = .none ∨ stop.shard = shard

theorem Walkable.tail {vs : List ChunkView} {stop : ChunkId} (h : Walkable shard (v :: vs) stop) :
    v.header.next = vs.head?.elim stop (·.header.id) ∧ Walkable shard vs stop :=
  ⟨h.leads.1, h.leads.2, fun w hw => h.named w (List.mem_cons_of_mem _ hw), h.stop_shard⟩

/-- A chain that has arrived is found. -/
theorem Keeps.walk_all (h : s.Keeps got kept) (limit : Nat) {vs : List ChunkView}
    (hw : Walkable shard vs .none) (hall : ∀ v ∈ vs, v ∈ kept) {more : Nat}
    (hmore : vs.length ≤ more) :
    s.walk shard limit more (vs.head?.elim .none (·.header.id)) = .ok (vs.map (·.stored)) := by
  induction vs generalizing more with
  | nil => exact walk_none s shard limit more
  | cons v vs ih =>
    obtain ⟨more, rfl⟩ : ∃ fewer, more = fewer + 1 := ⟨more - 1, by
      rw [List.length_cons] at hmore
      omega⟩
    obtain ⟨hnext, htail⟩ := hw.tail
    obtain ⟨hne, hshard⟩ := hw.named v List.mem_cons_self
    have ih := ih htail (fun w hw => hall w (List.mem_cons_of_mem _ hw))
      (Nat.le_of_succ_le_succ hmore)
    show s.walk shard limit (more + 1) v.header.id = _
    have hnext : v.stored.next = vs.head?.elim .none (·.header.id) := hnext
    rw [walk_step hne hshard, h.find?_of_mem (hall v List.mem_cons_self)]
    simp only [hnext, ih, List.map_cons]

/-- Such a chain is taken out whole. -/
theorem Keeps.reassemble_all (h : s.Keeps got kept) {vs : List ChunkView} {head : ChunkId}
    (hw : Walkable shard vs .none) (hhead : head = vs.head?.elim .none (·.header.id))
    (hshard : head.shard = shard) (hall : ∀ v ∈ vs, v ∈ kept) {maxChunks : Nat}
    (hlen : vs.length ≤ max 1 (min maxChunks maxChunksLimit)) :
    s.reassemble head maxChunks = (.ok ⟨vs.flatMap (·.data), vs.length⟩,
      (vs.map (·.stored)).foldl (fun s c => s.erase c.id) s) := by
  have hfound := h.walk_all (max 1 (min maxChunks maxChunksLimit)) hw hall hlen
  unfold reassemble
  dsimp only
  rw [hshard, hhead, hfound]
  simp only [List.flatMap_map, List.length_map]
  rfl

/-- If a chunk of the chain, or the one it leads to, has not arrived, the walk says so. -/
theorem Keeps.walk_missing (h : s.Keeps got kept) (limit : Nat) {vs : List ChunkView}
    {stop : ChunkId} (hw : Walkable shard vs stop)
    (hkept : ∀ v ∈ vs, v ∈ kept ∨ v.header.id ∉ kept.map (·.header.id))
    (hlack : (∃ v ∈ vs, v.header.id ∉ kept.map (·.header.id)) ∨
      stop ≠ .none ∧ stop ∉ kept.map (·.header.id)) {more : Nat}
    (hmore : vs.length + (if stop = .none then 0 else 1) ≤ more) :
    ∃ id, s.walk shard limit more (vs.head?.elim stop (·.header.id)) = .error (.missing id) := by
  induction vs generalizing more with
  | nil =>
    obtain ⟨hne, hid⟩ : stop ≠ .none ∧ stop ∉ kept.map (·.header.id) := by
      rcases hlack with ⟨v, hv, -⟩ | hlack
      · cases hv
      · exact hlack
    rw [if_neg hne, List.length_nil, Nat.zero_add] at hmore
    obtain ⟨more, rfl⟩ : ∃ fewer, more = fewer + 1 := ⟨more - 1, by omega⟩
    have hshard := hw.stop_shard.resolve_left hne
    refine ⟨stop, ?_⟩
    show s.walk shard limit (more + 1) stop = _
    rw [walk_step hne hshard, h.find?_eq_none hid]
  | cons v vs ih =>
    obtain ⟨more, rfl⟩ : ∃ fewer, more = fewer + 1 := ⟨more - 1, by
      rw [List.length_cons] at hmore
      omega⟩
    obtain ⟨hnext, htail⟩ := hw.tail
    obtain ⟨hne, hshard⟩ := hw.named v List.mem_cons_self
    show ∃ id, s.walk shard limit (more + 1) v.header.id = _
    rw [walk_step hne hshard]
    rcases hkept v List.mem_cons_self with hv | hv
    · have hlack : (∃ v ∈ vs, v.header.id ∉ kept.map (·.header.id)) ∨
          stop ≠ .none ∧ stop ∉ kept.map (·.header.id) := by
        rcases hlack with ⟨w, hw, hlack⟩ | hlack
        · rcases List.mem_cons.mp hw with rfl | hw
          · exact absurd (List.mem_map_of_mem hv) hlack
          · exact .inl ⟨w, hw, hlack⟩
        · exact .inr hlack
      have hfewer : vs.length + (if stop = .none then 0 else 1) ≤ more := by
        rw [List.length_cons] at hmore
        omega
      obtain ⟨id, hid⟩ := ih htail (fun w hw => hkept w (List.mem_cons_of_mem _ hw)) hlack hfewer
      have hnext : v.stored.next = vs.head?.elim stop (·.header.id) := hnext
      refine ⟨id, ?_⟩
      rw [h.find?_of_mem hv]
      simp only [hnext, hid]
    · exact ⟨v.header.id, by rw [h.find?_eq_none hv]⟩

end Walk

section Take

variable {c u : Channel} {shared : Shared} {q : List Booking}

theorem foldl_report (events : List Event) (shared : Shared) :
    events.foldl Shared.report shared =
      { shared with events := events.reverse ++ shared.events } := by
  induction events generalizing shared with
  | nil => rfl
  | cons e events ih => simp [ih, Shared.report]

/-- One record at the front is ingested, if it is ready, and released unless the bound of the store
overflows. -/
theorem takeOne_spec (hq : c.Queued shared q) (hu : c.Views u) (s : Store) :
    ∃ shared', c.Queued shared' (Queue.rest q) ∧ shared'.allocators = shared.allocators ∧
      (∀ n, n ≠ c.region → shared'.regions.get n = shared.regions.get n) ∧
      match Queue.ready? q with
      | none => s.takeOne u shared = (.ok .nothing, s, shared')
      | some data =>
        match (s.ingest data).result with
        | .ok _ => s.takeOne u shared = (.ok .stored, (s.ingest data).store, shared')
        | .error (.decode _) => s.takeOne u shared =
            (.ok .rejected, { (s.ingest data).store with rejected := s.rejected + 1 }, shared')
        | .error .overflow => (s.takeOne u shared).1 = .error .overflow := by
  obtain ⟨hr, hb⟩ := hu
  obtain ⟨m', ⟨hready, hfront, hrest⟩ | ⟨f, hready, hfront, hrest⟩⟩ := Band.Queued.front hq
  · have htake : shared.withRegion c.region c.band.front =
        (.ok none, { shared with regions := shared.regions.set c.region m' }) := by
      unfold Shared.withRegion
      unfold Channel.memory at hfront
      rw [hfront]
    refine ⟨{ shared with regions := shared.regions.set c.region m' }, ?_, rfl,
      fun n hn => Sparse.get_set_other _ _ (Ne.symm hn), ?_⟩
    · unfold Channel.Queued Channel.memory
      rw [Sparse.get_set_same]
      exact hrest
    · rw [hready]
      simp only [takeOne, hr, hb, htake]
  · have htake : shared.withRegion c.region c.band.front =
        (.ok (some f), { shared with regions := shared.regions.set c.region m' }) := by
      unfold Shared.withRegion
      unfold Channel.memory at hfront
      rw [hfront]
    -- Reports are all that the two outcomes of a release differ in.
    have hrelease : ∀ events : List Event,
        let shared' : Shared := { shared with
          regions := (shared.regions.set c.region m').modify c.region (setConsumed · f.next)
          events }
        c.Queued shared' (Queue.rest q) ∧ shared'.allocators = shared.allocators ∧
          ∀ n, n ≠ c.region → shared'.regions.get n = shared.regions.get n := by
      intro events
      refine ⟨?_, rfl, fun n hn => ?_⟩
      · unfold Channel.Queued Channel.memory
        rw [Sparse.get_modify_same, Sparse.get_set_same]
        exact hrest
      · rw [Sparse.get_modify_other _ _ (Ne.symm hn)]
        exact Sparse.get_set_other _ _ (Ne.symm hn)
    rw [hready]
    rcases hi : s.ingest f.data with ⟨⟨e | -⟩ | id, s', events⟩
    · obtain ⟨hq', ha, ho⟩ := hrelease (.chunkCorrupt e :: (events.reverse ++ shared.events))
      refine ⟨_, hq', ha, ho, ?_⟩
      simp only [takeOne, hr, hb, htake, hi, foldl_report, Shared.onRegion, Shared.report]
    · obtain ⟨hq', ha, ho⟩ := hrelease shared.events
      refine ⟨_, hq', ha, ho, ?_⟩
      simp only [takeOne, hr, hb, htake, hi]
    · obtain ⟨hq', ha, ho⟩ := hrelease (events.reverse ++ shared.events)
      refine ⟨_, hq', ha, ho, ?_⟩
      simp only [takeOne, hr, hb, htake, hi, foldl_report, Shared.onRegion]

theorem get_takeOne (hq : c.Queued shared q) (hu : c.Views u) {answer : Taken} {s' : Store}
    {shared' : Shared} (h : s.takeOne u shared = (.ok answer, s', shared')) :
    shared'.allocators = shared.allocators ∧
      ∀ n, n ≠ c.region → shared'.regions.get n = shared.regions.get n := by
  obtain ⟨shared'', -, hallocs, hregions, htake⟩ := takeOne_spec hq hu s
  rw [h] at htake
  split at htake
  · cases htake
    exact ⟨hallocs, hregions⟩
  · split at htake
    · cases htake
      exact ⟨hallocs, hregions⟩
    · cases htake
      exact ⟨hallocs, hregions⟩
    · cases htake

end Take

end Store
end ChainRelay
