import Mathlib.Data.List.Nodup
import ChainRelay.Proofs.Store.Keeping

/-!
What a bounded store owes. It never holds more chunks than it may, although the arrivals on record
also name chunks that are gone (`Sound`). Taking in a chunk adds one to what the store answers for
(`Sound.ingest`), and taking out a chain removes as many as the chain has (`Sound.reassemble`).
-/

namespace ChainRelay

open ChainRelay.Ring

namespace Store

/-- What is true of a store at any time. The chunks to give up are found among the arrivals. -/
structure Sound (s : Store) : Prop where
  distinct : (s.chunks.map (·.id)).Nodup
  arrived : ∀ ch ∈ s.chunks, ch.id ∈ s.arrivals
  size_le : s.size ≤ s.maxPending
  maxPending_pos : 0 < s.maxPending

/-- The chunks that are held or were lost one by one. -/
def answered (s : Store) : Nat := s.size + s.evicted + s.duplicates

variable {s : Store} {id : ChunkId}

theorem sound_ofMaxPending (n : Nat) : (ofMaxPending n).Sound := by
  constructor
  case distinct => exact .nil
  case arrived => nofun
  case size_le => exact Nat.zero_le _
  case maxPending_pos => exact Nat.lt_of_lt_of_le Nat.zero_lt_one (Nat.le_max_right n 1)

theorem contains_iff : s.contains id = true ↔ ∃ ch ∈ s.chunks, ch.id = id := by
  simp [contains, find?]

theorem mem_erase {ch : StoredChunk} : ch ∈ (s.erase id).chunks ↔ ch ∈ s.chunks ∧ ch.id ≠ id := by
  simp [erase]

theorem erase_of_not_contains (h : s.contains id = false) : s.erase id = s := by
  have hall : ∀ ch ∈ s.chunks, ch.id ≠ id := by
    intro ch hch he
    rw [contains_iff.mpr ⟨ch, hch, he⟩] at h
    cases h
  unfold erase
  rw [List.filter_eq_self.mpr fun ch hch => by simpa using hall ch hch]

theorem size_erase (h : (s.chunks.map (·.id)).Nodup) (hid : s.contains id = true) :
    (s.erase id).size + 1 = s.size := by
  obtain ⟨ch, hch, rfl⟩ := contains_iff.mp hid
  obtain ⟨pre, post, he⟩ := List.append_of_mem hch
  rw [he, List.map_append, List.map_cons, List.nodup_middle, List.nodup_cons, List.mem_append] at h
  have hother : ∀ d ∈ pre ++ post, d.id ≠ ch.id := by
    intro d hd he
    rw [← he, ← List.mem_append, ← List.map_append] at h
    exact h.1 (List.mem_map_of_mem hd)
  have hkeep : (pre ++ post).filter (·.id ≠ ch.id) = pre ++ post :=
    List.filter_eq_self.mpr fun d hd => by simpa using hother d hd
  have herase : (s.erase ch.id).chunks = pre ++ post := by
    rw [List.filter_append] at hkeep
    simp only [erase, he, List.filter_append]
    rw [List.filter_cons_of_neg (by simp)]
    exact hkeep
  simp only [size, herase, he, List.length_append, List.length_cons]
  omega

/-- The second store lost chunks of the first, and counted each. -/
structure Sheds (s t : Store) : Prop where
  sublist : t.chunks.Sublist s.chunks
  answered_eq : t.answered = s.answered
  maxPending_eq : t.maxPending = s.maxPending
  rejected_eq : t.rejected = s.rejected

theorem Sheds.trans {t u : Store} (h : s.Sheds t) (h' : t.Sheds u) : s.Sheds u where
  sublist := h'.sublist.trans h.sublist
  answered_eq := h'.answered_eq.trans h.answered_eq
  maxPending_eq := h'.maxPending_eq.trans h.maxPending_eq
  rejected_eq := h'.rejected_eq.trans h.rejected_eq

theorem Sheds.distinct {t : Store} (h : s.Sheds t) (hd : (s.chunks.map (·.id)).Nodup) :
    (t.chunks.map (·.id)).Nodup :=
  hd.sublist (h.sublist.map _)

/-- Giving up chunks makes room, and the chunks that are left are still on record. -/
theorem makeRoom_spec {arrivals : List ChunkId} (hd : (s.chunks.map (·.id)).Nodup)
    (ha : ∀ ch ∈ s.chunks, ch.id ∈ arrivals) {n : Nat} (hn : 0 < n) :
    s.Sheds (makeRoom n arrivals s).1 ∧ (makeRoom n arrivals s).1.size < n ∧
      ∀ ch ∈ (makeRoom n arrivals s).1.chunks, ch.id ∈ (makeRoom n arrivals s).1.arrivals := by
  induction arrivals generalizing s with
  | nil =>
    have hnone : s.chunks = [] :=
      List.eq_nil_iff_forall_not_mem.mpr fun ch hch => nomatch ha ch hch
    refine ⟨⟨.refl _, rfl, rfl, rfl⟩, ?_, ?_⟩
    · simpa [makeRoom, size, hnone] using hn
    · simp [makeRoom, hnone]
  | cons id rest ih =>
    unfold makeRoom
    by_cases hlt : s.size < n
    · rw [if_pos hlt]
      exact ⟨⟨.refl _, rfl, rfl, rfl⟩, hlt, ha⟩
    rw [if_neg hlt]
    have hleft : ∀ ch ∈ (s.erase id).chunks, ch.id ∈ rest := by
      intro ch hch
      obtain ⟨hch, hne⟩ := mem_erase.mp hch
      exact (List.mem_cons.mp (ha ch hch)).resolve_left hne
    by_cases hc : s.contains id = true
    · rw [if_pos hc]
      have hgone : s.Sheds { s.erase id with evicted := s.evicted + 1 } := by
        refine ⟨List.filter_sublist, ?_, rfl, rfl⟩
        have hsize := size_erase hd hc
        simp only [answered, size, erase] at hsize ⊢
        omega
      obtain ⟨hsheds, hroom, hrecord⟩ := ih (hgone.distinct hd) hleft
      exact ⟨hgone.trans hsheds, hroom, hrecord⟩
    · rw [if_neg hc]
      rw [erase_of_not_contains (by simpa using hc)] at hleft
      exact ih hd hleft

/-- Nothing is held under the identifier of a chunk that comes in. -/
theorem Sound.dropDuplicate (h : s.Sound) (id : ChunkId) :
    s.Sheds (s.dropDuplicate id).1 ∧ (s.dropDuplicate id).1.contains id = false ∧
      ∀ ch ∈ (s.dropDuplicate id).1.chunks, ch.id ∈ (s.dropDuplicate id).1.arrivals := by
  unfold Store.dropDuplicate
  by_cases hc : s.contains id = true
  · rw [if_pos hc]
    refine ⟨⟨List.filter_sublist, ?_, rfl, rfl⟩, ?_, ?_⟩
    · have hsize := size_erase h.distinct hc
      simp only [answered, size, erase] at hsize ⊢
      omega
    · rw [Bool.eq_false_iff]
      intro hin
      obtain ⟨ch, hch, he⟩ := contains_iff.mp hin
      exact (mem_erase.mp hch).2 he
    · intro ch hch
      obtain ⟨hch, hne⟩ := mem_erase.mp hch
      exact List.mem_filter.mpr ⟨h.arrived ch hch, by simpa using hne⟩
  · rw [if_neg hc]
    exact ⟨⟨.refl _, rfl, rfl, rfl⟩, Bool.eq_false_iff.mpr hc, h.arrived⟩

theorem sound_push (hd : (s.chunks.map (·.id)).Nodup) (hroom : s.size < s.maxPending)
    {ch : StoredChunk} (hfree : s.contains ch.id = false) {arrivals : List ChunkId}
    (ha : ∀ d ∈ ch :: s.chunks, d.id ∈ arrivals) :
    Sound { s with chunks := ch :: s.chunks, arrivals } := by
  constructor
  case distinct =>
    refine List.nodup_cons.mpr ⟨?_, hd⟩
    intro hin
    obtain ⟨d, hd, he⟩ := List.mem_map.mp hin
    rw [contains_iff.mpr ⟨d, hd, he⟩] at hfree
    cases hfree
  case arrived => exact ha
  case size_le => exact hroom
  case maxPending_pos => exact Nat.zero_lt_of_lt hroom

/-- A chunk that is taken in is held as it came, and counted once. -/
theorem Sound.insert (h : s.Sound) (hmax : s.maxPending * 2 < sizeLimit) (ch : StoredChunk) :
    (s.insert ch).result = .ok ch.id ∧ (s.insert ch).store.Sound ∧
      (s.insert ch).store.find? ch.id = some ch ∧
      (s.insert ch).store.answered = s.answered + 1 ∧
      (s.insert ch).store.maxPending = s.maxPending ∧
      (s.insert ch).store.rejected = s.rejected := by
  obtain ⟨hdrop, hfree, hrecord⟩ := h.dropDuplicate ch.id
  have hpos := h.maxPending_pos
  rw [← hdrop.maxPending_eq] at hpos
  obtain ⟨hshed, hroom, hleft⟩ := makeRoom_spec (hdrop.distinct h.distinct) hrecord hpos
  obtain ⟨t, ht⟩ : ∃ t, t = (makeRoom (s.dropDuplicate ch.id).1.maxPending
    (s.dropDuplicate ch.id).1.arrivals (s.dropDuplicate ch.id).1).1 := ⟨_, rfl⟩
  rw [← ht] at hshed hroom hleft
  have hall := hdrop.trans hshed
  have hgone : t.contains ch.id = false := by
    rw [Bool.eq_false_iff]
    intro hin
    obtain ⟨d, hd, he⟩ := contains_iff.mp hin
    rw [contains_iff.mpr ⟨d, hshed.sublist.subset hd, he⟩] at hfree
    cases hfree
  rw [← hshed.maxPending_eq] at hroom
  have hpush : ∀ d ∈ ch :: t.chunks, d.id ∈ t.arrivals ++ [ch.id] := by
    intro d hd
    rcases List.mem_cons.mp hd with rfl | hd
    · exact List.mem_append_right _ List.mem_cons_self
    · exact List.mem_append_left _ (hleft d hd)
  have hanswered : (ch :: t.chunks).length + t.evicted + t.duplicates = s.answered + 1 := by
    rw [← hall.answered_eq, answered, size, List.length_cons]
    omega
  have hfound : (ch :: t.chunks).find? (·.id = ch.id) = some ch :=
    List.find?_cons_of_pos (decide_eq_true rfl)
  have hbound : ¬sizeLimit ≤ t.maxPending * 2 := by
    rw [hall.maxPending_eq]
    omega
  have hmax := hall.maxPending_eq
  unfold Store.insert
  dsimp only
  rw [← ht, if_neg hbound]
  split
  · refine ⟨rfl, sound_push (hall.distinct h.distinct) hroom hgone ?_, hfound, hanswered, hmax,
      hall.rejected_eq⟩
    intro d hd
    exact List.mem_filter.mpr ⟨hpush d hd, contains_iff.mpr ⟨d, hd, rfl⟩⟩
  · exact ⟨rfl, sound_push (hall.distinct h.distinct) hroom hgone hpush, hfound, hanswered, hmax,
      hall.rejected_eq⟩

/-- A record is kept if it can be decoded, and changes nothing otherwise. -/
theorem Sound.ingest (h : s.Sound) (hmax : s.maxPending * 2 < sizeLimit) (record : Bytes) :
    match decodeChunk record with
    | .error e => s.ingest record = ⟨.error (.decode e), s, []⟩
    | .ok v => (s.ingest record).result = .ok v.header.id ∧ (s.ingest record).store.Sound ∧
        (s.ingest record).store.find? v.header.id = some v.stored ∧
        (s.ingest record).store.answered = s.answered + 1 ∧
        (s.ingest record).store.maxPending = s.maxPending ∧
        (s.ingest record).store.rejected = s.rejected := by
  unfold Store.ingest
  cases decodeChunk record with
  | error e => rfl
  | ok v => exact h.insert hmax v.stored

inductive Links (s : Store) : ChunkId → List StoredChunk → Prop where
  | done : Links s .none []
  | next {id : ChunkId} {ch : StoredChunk} {rest : List StoredChunk} (hid : id ≠ .none)
      (h : s.find? id = some ch) (hr : Links s ch.next rest) : Links s id (ch :: rest)

theorem links_of_walk {shard : UInt16} {limit more : Nat} {chain : List StoredChunk}
    (h : s.walk shard limit more id = .ok chain) : s.Links id chain := by
  induction more generalizing id chain with
  | zero =>
    by_cases hid : id = .none
    · subst hid
      rw [walk_none] at h
      cases h
      exact .done
    · unfold walk at h
      rw [if_neg (fun h => hid ((ChunkId.isNone_iff id).mp h))] at h
      cases h
  | succ more ih =>
    by_cases hid : id = .none
    · subst hid
      rw [walk_none] at h
      cases h
      exact .done
    unfold walk at h
    rw [if_neg (fun h => hid ((ChunkId.isNone_iff id).mp h))] at h
    dsimp only at h
    split at h
    · cases h
    cases hf : s.find? id with
    | none => simp [hf] at h
    | some ch =>
      cases hw : s.walk shard limit more ch.next with
      | error e => simp [hf, hw] at h
      | ok rest =>
        simp only [hf, hw, Except.ok.injEq] at h
        subst h
        exact .next hid hf (ih hw)

theorem find?_id {ch : StoredChunk} (h : s.find? id = some ch) : ch.id = id ∧ ch ∈ s.chunks :=
  ⟨by simpa using List.find?_some h, List.mem_of_find?_eq_some h⟩

theorem Links.unique {chain chain' : List StoredChunk} (h : s.Links id chain)
    (h' : s.Links id chain') : chain = chain' := by
  induction h generalizing chain' with
  | done =>
    cases h' with
    | done => rfl
    | next hid => exact absurd rfl hid
  | next hid hf _ ih =>
    cases h' with
    | done => exact absurd rfl hid
    | next _ hf' hr =>
      obtain rfl := Option.some.inj (hf.symm.trans hf')
      rw [ih hr]

theorem Links.suffix {pre post : List StoredChunk} {ch : StoredChunk}
    (h : s.Links id (pre ++ ch :: post)) : s.Links ch.id (ch :: post) := by
  induction pre generalizing id with
  | nil =>
    cases h with
    | next hid hf hr => exact .next ((find?_id hf).1 ▸ hid) ((find?_id hf).1 ▸ hf) hr
  | cons d pre ih =>
    cases h with
    | next _ _ hr => exact ih hr

theorem Links.mem {chain : List StoredChunk} (h : s.Links id chain) :
    ∀ ch ∈ chain, ch ∈ s.chunks := by
  induction h with
  | done => nofun
  | next _ hf _ ih => exact List.forall_mem_cons.mpr ⟨(find?_id hf).2, ih⟩

/-- A walk that ends meets no chunk twice, or it would go on for ever. -/
theorem Links.distinct {chain : List StoredChunk} (h : s.Links id chain) :
    (chain.map (·.id)).Nodup := by
  induction h with
  | done => exact .nil
  | @next id ch rest hid hf hr ih =>
    refine List.nodup_cons.mpr ⟨?_, ih⟩
    intro hin
    obtain ⟨d, hd, he⟩ := List.mem_map.mp hin
    obtain ⟨pre, post, rfl⟩ := List.append_of_mem hd
    have hsame : d.id = id := he.trans (find?_id hf).1
    have hagain := hsame ▸ hr.suffix
    have hlen := congrArg List.length (hagain.unique (.next hid hf hr))
    simp only [List.length_cons, List.length_append] at hlen
    omega

/-- Each chunk of a chain is taken out once. -/
theorem size_eraseAll (hd : (s.chunks.map (·.id)).Nodup) {chain : List StoredChunk}
    (hmem : ∀ ch ∈ chain, ch ∈ s.chunks) (hc : (chain.map (·.id)).Nodup) :
    let t := chain.foldl (fun s c => s.erase c.id) s
    t.size + chain.length = s.size ∧ t.chunks.Sublist s.chunks ∧ t.arrivals = s.arrivals ∧
      t.maxPending = s.maxPending ∧ t.evicted = s.evicted ∧ t.duplicates = s.duplicates := by
  induction chain generalizing s with
  | nil => exact ⟨rfl, .refl _, rfl, rfl, rfl, rfl⟩
  | cons ch chain ih =>
    obtain ⟨hnew, hc⟩ := List.nodup_cons.mp hc
    have hsize := size_erase hd (contains_iff.mpr ⟨ch, hmem ch List.mem_cons_self, rfl⟩)
    have hleft : ∀ d ∈ chain, d ∈ (s.erase ch.id).chunks := by
      intro d hd
      refine mem_erase.mpr ⟨hmem d (List.mem_cons_of_mem _ hd), fun he => hnew ?_⟩
      exact List.mem_map.mpr ⟨d, hd, he⟩
    obtain ⟨h₁, h₂, h₃⟩ := ih (hd.sublist (List.filter_sublist.map _)) hleft hc
    refine ⟨?_, h₂.trans List.filter_sublist, h₃⟩
    simp only [List.foldl_cons, List.length_cons]
    omega

def collected : Except ChainError Reassembled → Nat
  | .ok r => r.chunks
  | .error _ => 0

/-- What is taken out with a chain is missing afterwards, and a walk that fails takes nothing. -/
theorem Sound.reassemble (h : s.Sound) (head : ChunkId) (maxChunks : Nat) :
    (s.reassemble head maxChunks).2.Sound ∧
      (s.reassemble head maxChunks).2.answered + collected (s.reassemble head maxChunks).1 =
        s.answered ∧
      (s.reassemble head maxChunks).2.maxPending = s.maxPending := by
  unfold Store.reassemble
  dsimp only
  split
  · exact ⟨h, rfl, rfl⟩
  · rename_i chain hwalk
    have hlinks := links_of_walk hwalk
    obtain ⟨hsize, hsub, harr, hmax, hev, hdup⟩ :=
      size_eraseAll h.distinct hlinks.mem hlinks.distinct
    refine ⟨⟨h.distinct.sublist (hsub.map _), ?_, ?_, ?_⟩, ?_, hmax⟩
    · intro ch hch
      rw [harr]
      exact h.arrived ch (hsub.subset hch)
    · have hle := h.size_le
      dsimp only at hsize hmax ⊢
      omega
    · dsimp only
      rw [hmax]
      exact h.maxPending_pos
    · simp only [answered, collected, hev, hdup]
      omega

end Store
end ChainRelay
