import Mathlib.Algebra.GroupWithZero.Nat
import Mathlib.Data.List.Perm.Basic
import ChainRelay.Proofs.Store.Balance

/-!
The order in which chunks arrive is forgotten. A store with room for all of them ends up with just
the chunks it was given, whatever it was asked for in vain in between (`Fed.holds`), and stores that
hold the same chunks give the same answers from then on (`Alike.collect`).
-/

namespace ChainRelay.Store

variable {s t : Store} {n : Nat} {records : List Bytes}

/-- Both hold the same chunk under every identifier, or neither holds one. -/
def Alike (s t : Store) : Prop := ∀ id, s.find? id = t.find? id

theorem find?_erase (s : Store) (id x : ChunkId) :
    (s.erase id).find? x = if x = id then none else s.find? x := by
  unfold find? erase
  dsimp only
  rw [List.find?_filter]
  split
  case isTrue he =>
    subst he
    simp
  case isFalse hne =>
    congr 1
    funext ch
    by_cases hx : ch.id = x
    · simp [hx, hne]
    · simp [hx]

theorem Alike.erase (h : s.Alike t) (id : ChunkId) : (s.erase id).Alike (t.erase id) := by
  intro x
  rw [find?_erase, find?_erase, h x]

theorem Alike.eraseAll (h : s.Alike t) (chain : List StoredChunk) :
    (chain.foldl (fun s c => s.erase c.id) s).Alike (chain.foldl (fun s c => s.erase c.id) t) := by
  induction chain generalizing s t with
  | nil => exact h
  | cons ch chain ih => exact ih (h.erase ch.id)

/-- A walk looks chunks up, and does nothing else with the store. -/
theorem Alike.walk (h : s.Alike t) (shard : UInt16) (limit more : Nat) (cursor : ChunkId) :
    s.walk shard limit more cursor = t.walk shard limit more cursor := by
  induction more generalizing cursor with
  | zero =>
    unfold Store.walk
    rfl
  | succ more ih =>
    unfold Store.walk
    simp only [h cursor, ih]

theorem Alike.reassemble (h : s.Alike t) (head : ChunkId) (maxChunks : Nat) :
    (s.reassemble head maxChunks).1 = (t.reassemble head maxChunks).1 ∧
      (s.reassemble head maxChunks).2.Alike (t.reassemble head maxChunks).2 := by
  unfold Store.reassemble
  dsimp only
  rw [h.walk]
  split
  · exact ⟨rfl, h⟩
  · exact ⟨rfl, h.eraseAll _⟩

def collect : List (ChunkId × Nat) → Store → List (Except ChainError Reassembled) × Store
  | [], s => ([], s)
  | (head, maxChunks) :: asks, s =>
    let (answer, s) := s.reassemble head maxChunks
    let (answers, s) := collect asks s
    (answer :: answers, s)

theorem Alike.collect (h : s.Alike t) (asks : List (ChunkId × Nat)) :
    (collect asks s).1 = (collect asks t).1 ∧ (collect asks s).2.Alike (collect asks t).2 := by
  induction asks generalizing s t with
  | nil => exact ⟨rfl, h⟩
  | cons ask asks ih =>
    obtain ⟨head, maxChunks⟩ := ask
    obtain ⟨hanswer, hstore⟩ := h.reassemble head maxChunks
    obtain ⟨hanswers, hlast⟩ := ih hstore
    exact ⟨List.cons_eq_cons.mpr ⟨hanswer, hanswers⟩, hlast⟩

/-- Which of the chunks is held first makes no difference, as no two share an identifier. -/
theorem alike_of_perm (hd : (s.chunks.map (·.id)).Nodup) (hperm : t.chunks.Perm s.chunks) :
    s.Alike t := by
  have hmem {s : Store} (hd : (s.chunks.map (·.id)).Nodup) (id : ChunkId) (ch : StoredChunk) :
      s.find? id = some ch ↔ ch ∈ s.chunks ∧ ch.id = id := by
    constructor
    · intro h
      exact ⟨(find?_id h).2, (find?_id h).1⟩
    · rintro ⟨hch, rfl⟩
      obtain ⟨d, hf⟩ := Option.isSome_iff_exists.mp (contains_iff.mpr ⟨ch, hch, rfl⟩)
      rw [hf, List.inj_on_of_nodup_map hd (find?_id hf).2 hch (find?_id hf).1]
  have hd' : (t.chunks.map (·.id)).Nodup := (hperm.map _).nodup_iff.mpr hd
  intro id
  ext ch
  rw [hmem hd, hmem hd', hperm.mem_iff]

def chunksOf (records : List Bytes) : List ChunkView :=
  records.filterMap fun record => (decodeChunk record).toOption

/-- A store for `n` chunks after the records have arrived in this order. Now and then a chain was
asked for, which was not to be had. -/
inductive Fed (n : Nat) : List Bytes → Store → Prop where
  | empty : Fed n [] (ofMaxPending n)
  | arrive {records : List Bytes} {s : Store} (h : Fed n records s) (record : Bytes) :
      Fed n (records ++ [record]) (s.ingest record).store
  | ask {records : List Bytes} {s : Store} (h : Fed n records s) (head : ChunkId) (maxChunks : Nat)
      {e : ChainError} (hfail : (s.reassemble head maxChunks).1 = .error e) :
      Fed n records (s.reassemble head maxChunks).2

structure Holds (n : Nat) (records : List Bytes) (s : Store) : Prop where
  keeps : s.Keeps (chunksOf records) (chunksOf records)
  sound : s.Sound
  maxPending_eq : s.maxPending = max n 1
  answered_eq : s.answered = (chunksOf records).length
  rejected_eq : s.rejected = 0

theorem Holds.size_eq (h : s.Holds n records) : s.size = (chunksOf records).length := by
  rw [size, h.keeps.chunks_eq, List.length_reverse, List.length_map]

theorem Holds.arrive (h : s.Holds n records) {record : Bytes}
    (hd : ((chunksOf (records ++ [record])).map (·.header.id)).Nodup)
    (hroom : (chunksOf (records ++ [record])).length ≤ max n 1) (hn : n < 2 ^ 63) :
    (s.ingest record).store.Holds n (records ++ [record]) := by
  have hmax : s.maxPending * 2 < sizeLimit := by
    rw [h.maxPending_eq, sizeLimit]
    omega
  have hspec := h.sound.ingest hmax record
  cases hr : decodeChunk record with
  | error e =>
    have hsame : chunksOf (records ++ [record]) = chunksOf records := by
      simp [chunksOf, hr, Except.toOption]
    rw [hr] at hspec
    rw [hspec]
    exact ⟨hsame ▸ h.keeps, h.sound, h.maxPending_eq, hsame ▸ h.answered_eq, h.rejected_eq⟩
  | ok v =>
    have hmore : chunksOf (records ++ [record]) = chunksOf records ++ [v] := by
      simp [chunksOf, hr, Except.toOption]
    rw [hr] at hspec
    rw [hmore] at hd hroom
    rw [List.length_append, List.length_singleton] at hroom
    have hfresh : v.header.id ∉ (chunksOf records).map (·.header.id) := by
      rw [List.map_append, List.nodup_append] at hd
      exact fun hin => hd.2.2 _ hin _ List.mem_cons_self rfl
    have hless : s.size < s.maxPending := by
      rw [h.size_eq, h.maxPending_eq]
      omega
    obtain ⟨s', hs', hkeeps, -⟩ := h.keeps.ingest hr hfresh hless hmax
    obtain ⟨-, hsound, -, hanswered, hm, hrej⟩ := hspec
    refine ⟨?_, hsound, hm.trans h.maxPending_eq, ?_, hrej.trans h.rejected_eq⟩
    · rw [hmore, hs']
      exact hkeeps
    · rw [hanswered, h.answered_eq, hmore, List.length_append, List.length_singleton]

/-- By induction on the arrivals: every prefix of them has distinct identifiers and room, too. -/
theorem Fed.holds (h : Fed n records s) (hd : ((chunksOf records).map (·.header.id)).Nodup)
    (hroom : (chunksOf records).length ≤ max n 1) (hn : n < 2 ^ 63) : s.Holds n records := by
  induction h with
  | empty => exact ⟨keeps_ofMaxPending n, sound_ofMaxPending n, rfl, rfl, rfl⟩
  | @arrive records s _ record ih =>
    have hsub : (chunksOf records).Sublist (chunksOf (records ++ [record])) :=
      (List.sublist_append_left _ _).filterMap _
    exact (ih (hd.sublist (hsub.map _)) (Nat.le_trans hsub.length_le hroom)).arrive hd hroom hn
  | @ask records s _ head maxChunks e hfail ih =>
    have hsame : (s.reassemble head maxChunks).2 = s := reassemble_error (Prod.ext hfail rfl)
    rw [hsame]
    exact ih hd hroom

/-- In whatever order chunks with distinct identifiers arrive, a store with room for all of them
holds the same in the end, has lost nothing, and answers alike whatever it is asked for. Chains that
are asked for before they have arrived make no difference. -/
theorem order_of_arrival_is_forgotten {records' : List Bytes} {s' : Store} (hn : n < 2 ^ 63)
    (hd : ((chunksOf records).map (·.header.id)).Nodup)
    (hroom : (chunksOf records).length ≤ max 1 n) (horder : records'.Perm records)
    (h : Fed n records s) (h' : Fed n records' s') :
    (s.chunks.Perm ((chunksOf records).map (·.stored)) ∧
      s'.chunks.Perm ((chunksOf records).map (·.stored)) ∧ s.Alike s') ∧
    (s.evicted = 0 ∧ s.duplicates = 0 ∧ s.rejected = 0) ∧
    (s'.evicted = 0 ∧ s'.duplicates = 0 ∧ s'.rejected = 0) ∧
    ∀ asks, (collect asks s).1 = (collect asks s').1 := by
  rw [Nat.max_comm] at hroom
  have hperm : (chunksOf records').Perm (chunksOf records) := horder.filterMap _
  have hholds := h.holds hd hroom hn
  have hholds' := h'.holds ((hperm.map _).nodup_iff.mpr hd) (hperm.length_eq ▸ hroom) hn
  have hchunks {s : Store} {records : List Bytes} (h : s.Holds n records) :
      s.chunks.Perm ((chunksOf records).map (·.stored)) := by
    rw [h.keeps.chunks_eq]
    exact List.reverse_perm _
  have hnone {s : Store} {records : List Bytes} (h : s.Holds n records) :
      s.evicted = 0 ∧ s.duplicates = 0 ∧ s.rejected = 0 := by
    have hall := h.answered_eq
    rw [answered, h.size_eq] at hall
    exact ⟨by omega, by omega, h.rejected_eq⟩
  have hsame : s'.chunks.Perm ((chunksOf records).map (·.stored)) :=
    (hchunks hholds').trans (hperm.map _)
  have halike : s.Alike s' :=
    alike_of_perm hholds.sound.distinct (hsame.trans (hchunks hholds).symm)
  exact ⟨⟨hchunks hholds, hsame, halike⟩, hnone hholds, hnone hholds', fun asks =>
    (halike.collect asks).1⟩

def linkedChunk (id next : UInt64) : Bytes :=
  ChunkHeader.encode { code := 0xFF, effectiveLength := 1, id := ⟨id⟩, next := ⟨next⟩ } ++ [7]

/-- A chain of two is asked for after its first chunk, and arrives in the other order elsewhere. -/
theorem order_of_arrival_is_forgotten_of_two : ∃ s s' : Store,
    Fed 2 [linkedChunk 1 2, linkedChunk 2 0] s ∧ Fed 2 [linkedChunk 2 0, linkedChunk 1 2] s' ∧
    (collect [(⟨1⟩, 2)] s).1 = [.ok ⟨[7, 7], 2⟩] ∧
    (collect [(⟨1⟩, 2)] s').1 = [.ok ⟨[7, 7], 2⟩] := by
  have hfail : (((ofMaxPending 2).ingest (linkedChunk 1 2)).store.reassemble ⟨1⟩ 2).1 =
      .error (.missing ⟨2⟩) := by decide
  have h : Fed 2 [linkedChunk 1 2, linkedChunk 2 0] _ :=
    ((Fed.empty.arrive (linkedChunk 1 2)).ask ⟨1⟩ 2 hfail).arrive (linkedChunk 2 0)
  have h' : Fed 2 [linkedChunk 2 0, linkedChunk 1 2] _ :=
    (Fed.empty.arrive (linkedChunk 2 0)).arrive (linkedChunk 1 2)
  have hall := order_of_arrival_is_forgotten (by decide) (by decide) (by decide)
    (List.Perm.swap _ _ _) h h'
  have hanswer := hall.2.2.2 [(⟨1⟩, 2)]
  refine ⟨_, _, h, h', ?_, ?_⟩
  · decide
  · rw [← hanswer]
    decide

end ChainRelay.Store
