import Mathlib.Data.List.Dedup
import Mathlib.Data.List.Perm.Subperm
import ChainRelay.Proofs.Store.Eviction

/-!
How many arrivals a store keeps on record. It forgets those of chunks that are gone as soon as there
are more than twice as many as it may hold chunks (`Store.arrivals_insert`), so they are of no more
than that many identifiers. An identifier under which chunks were taken out may be on record once
more for each of them (`Chronicle.Counted`); these are kept for as long as chunks come in under it
again and again (`Chronicle.exists_backlog`).
-/

namespace ChainRelay

namespace Dated

variable {chosen : ChunkId → Prop} {log arrivals : List ChunkId} {id : ChunkId}

/-- An arrival that stands for the last one is on record once. -/
theorem count_le_one (h : Dated chosen log arrivals) (hid : chosen id) : arrivals.count id ≤ 1 := by
  induction h with
  | nil => exact Nat.zero_le 1
  | skip _ ih => exact ih
  | @keep x log arrivals h hlast ih =>
    by_cases he : x = id
    · subst he
      have hnone : arrivals.count x = 0 :=
        List.count_eq_zero.mpr fun hin => hlast hid (h.sublist.subset hin)
      exact Nat.le_of_eq (by rw [List.count_cons_self, hnone])
    · rw [List.count_cons_of_ne he]
      exact ih

end Dated

namespace Store

variable {s : Store}

/-- When a chunk was taken in, there are few arrivals on record, or all are of chunks that are
held. -/
theorem arrivals_insert (hmax : s.maxPending * 2 < sizeLimit) (ch : StoredChunk) :
    (s.insert ch).store.arrivals.length ≤ 2 * s.maxPending ∨
      ∀ id ∈ (s.insert ch).store.arrivals, (s.insert ch).store.contains id = true := by
  obtain ⟨t, ht⟩ : ∃ t, t = (makeRoom (s.dropDuplicate ch.id).1.maxPending
    (s.dropDuplicate ch.id).1.arrivals (s.dropDuplicate ch.id).1).1 := ⟨_, rfl⟩
  have hbound : t.maxPending = s.maxPending := by
    rw [ht, maxPending_makeRoom, maxPending_dropDuplicate]
  unfold Store.insert
  dsimp only
  rw [← ht, if_neg (by rw [hbound]; exact Nat.not_le.mpr hmax)]
  split
  · exact .inr fun id hid => (List.mem_filter.mp hid).2
  · rename_i hfew
    dsimp only at hfew ⊢
    exact .inl (by omega)

/-- So they are of few identifiers. -/
theorem Sound.dedup_arrivals_insert (h : s.Sound) (hmax : s.maxPending * 2 < sizeLimit)
    (ch : StoredChunk) : (s.insert ch).store.arrivals.dedup.length ≤ 2 * s.maxPending := by
  obtain ⟨-, hsound, -, -, hbound, -⟩ := h.insert hmax ch
  rcases arrivals_insert hmax ch with hfew | hheld
  · exact Nat.le_trans (List.dedup_sublist _).length_le hfew
  · have hsub : (s.insert ch).store.arrivals.dedup ⊆ (s.insert ch).store.chunks.map (·.id) := by
      intro id hid
      obtain ⟨c, hc, rfl⟩ := contains_iff.mp (hheld id (List.mem_dedup.mp hid))
      exact List.mem_map_of_mem hc
    have hlen := ((List.nodup_dedup _).subperm hsub).length_le
    have hle := hsound.size_le
    rw [List.length_map] at hlen
    unfold size at hle
    omega

/-- An empty store takes in a chunk, and forgets none of its earlier arrivals. -/
theorem insert_empty (hempty : s.chunks = []) (hpos : 0 < s.maxPending)
    (hmax : s.maxPending * 2 < sizeLimit) (ch : StoredChunk)
    (hsame : ∀ id ∈ s.arrivals, id = ch.id) :
    (s.insert ch).store.chunks = [ch] ∧
      (s.insert ch).store.arrivals = s.arrivals ++ [ch.id] := by
  have hfree : s.contains ch.id = false := by
    unfold contains find?
    rw [hempty]
    rfl
  have hroom : s.size < s.maxPending := by
    unfold size
    rw [hempty]
    exact hpos
  have hall : ∀ id ∈ s.arrivals ++ [ch.id], id = ch.id := by
    intro id hid
    rcases List.mem_append.mp hid with hid | hid
    · exact hsame id hid
    · exact List.mem_singleton.mp hid
  simp only [Store.insert, dropDuplicate, hfree, Bool.false_eq_true, if_false,
    makeRoom_of_lt hroom, hempty]
  rw [if_neg (Nat.not_le.mpr hmax)]
  split
  · refine ⟨rfl, List.filter_eq_self.mpr fun id hid => ?_⟩
    rw [hall id hid]
    exact contains_iff.mpr ⟨ch, List.mem_cons_self, rfl⟩
  · exact ⟨rfl, rfl⟩

end Store

namespace Chronicle

open Relation (ReflTransGen)

variable {n : Nat} {a b : Chronicle} {id : ChunkId}

/-- An identifier is on record once for the chunk that is held under it, and at most once more for
each that was taken out. -/
def Counted (a : Chronicle) : Prop :=
  ∀ id, a.store.arrivals.count id ≤ a.spent.count id + if a.store.contains id then 1 else 0

/-- The arrivals on record do not get more when the way is cleared for a chunk, and a chunk that is
given up takes one with it. -/
theorem Counted.cleared (h : a.Counted) {chunks : List StoredChunk} {arrivals : List ChunkId}
    (hc : a.store.Clears id chunks arrivals) {t : Store} (ht : t.chunks = chunks) :
    arrivals.count id ≤ a.spent.count id ∧
      ∀ x, x ≠ id → arrivals.count x ≤ a.spent.count x + if t.contains x then 1 else 0 := by
  have hother {gone : ChunkId} (hchunks : chunks = (a.store.erase gone).chunks) {x : ChunkId}
      (hx : x ≠ gone) : t.contains x = a.store.contains x := by
    rw [Bool.eq_iff_iff, Store.contains_iff, Store.contains_iff, ht, hchunks]
    refine exists_congr fun ch => ?_
    rw [Store.mem_erase]
    exact ⟨fun ⟨hin, he⟩ => ⟨hin.1, he⟩, fun ⟨hin, he⟩ => ⟨⟨hin, he ▸ hx⟩, he⟩⟩
  cases hc with
  | replaces hheld =>
    refine ⟨?_, fun x hx => ?_⟩
    · have hnone : (a.store.arrivals.filter (· ≠ id)).count id = 0 :=
        List.count_eq_zero.mpr fun hin => of_decide_eq_true (List.mem_filter.mp hin).2 rfl
      rw [hnone]
      exact Nat.zero_le _
    · rw [List.count_filter (by simpa using hx), hother rfl hx]
      exact h x
  | adds hfree =>
    have hsame (x : ChunkId) : t.contains x = a.store.contains x := by
      unfold Store.contains Store.find?
      rw [ht]
    refine ⟨?_, fun x _ => hsame x ▸ h x⟩
    have hid := h id
    rwa [hfree] at hid
  | @evicts stale _ first hfree harrivals hstale hfirst =>
    have hsub : arrivals.Sublist a.store.arrivals := by
      rw [harrivals]
      exact (List.sublist_cons_self first arrivals).trans (List.sublist_append_right _ _)
    refine ⟨?_, fun x hx => ?_⟩
    · have hid := h id
      rw [hfree] at hid
      exact Nat.le_trans (hsub.count_le id) hid
    · by_cases he : x = first
      · subst he
        have hid := h x
        rw [hfirst, if_pos rfl, harrivals, List.count_append, List.count_cons_self] at hid
        omega
      · rw [hother rfl he]
        exact Nat.le_trans (hsub.count_le x) (h x)

theorem Counted.step (h : a.Counted) (ho : a.Orderly n) (hn : n * 2 < sizeLimit)
    (hs : Step a b) : b.Counted := by
  cases hs with
  | @ingest record id hok =>
    obtain ⟨ch, rfl, hinsert⟩ := ho.ingest hn hok
    obtain ⟨chunks, arrivals, hclears, hchunks, harrivals⟩ := ho.sound.clears ch
    rw [← hinsert] at hchunks harrivals
    obtain ⟨hnew, hold⟩ := h.cleared hclears (t := { a.store with chunks }) rfl
    intro x
    refine Nat.le_trans (harrivals.count_le x) ?_
    rw [List.count_append]
    by_cases hx : x = ch.id
    · subst hx
      have hheld : (a.store.ingest record).store.contains ch.id = true :=
        Store.contains_iff.mpr ⟨ch, hchunks ▸ List.mem_cons_self, rfl⟩
      rw [List.count_singleton_self]
      show _ ≤ a.spent.count ch.id + if (a.store.ingest record).store.contains ch.id then 1 else 0
      rw [hheld, if_pos rfl]
      omega
    · have hsame : (a.store.ingest record).store.contains x =
          Store.contains { a.store with chunks } x := by
        unfold Store.contains Store.find?
        rw [hchunks, List.find?_cons_of_neg (by simpa using Ne.symm hx)]
      rw [List.count_eq_zero.mpr (fun hin => hx (List.mem_singleton.mp hin) : x ∉ [ch.id])]
      show _ ≤ a.spent.count x + if (a.store.ingest record).store.contains x then 1 else 0
      rw [hsame]
      exact hold x hx
  | reject herr =>
    rw [Store.ingest_rejected ho.sound (ho.doubles hn) herr]
    exact h
  | count m => exact h
  | reassemble head maxChunks =>
    intro x
    have hx := h x
    show (a.store.reassemble head maxChunks).2.arrivals.count x ≤
      (a.spent ++ (a.store.chunks.map (·.id)).filter
        (!(a.store.reassemble head maxChunks).2.contains ·)).count x +
        if (a.store.reassemble head maxChunks).2.contains x then 1 else 0
    rw [a.store.arrivals_reassemble, List.count_append]
    -- What is held no longer was taken out.
    have htaken (hbefore : a.store.contains x = true)
        (hafter : (a.store.reassemble head maxChunks).2.contains x = false) :
        0 < ((a.store.chunks.map (·.id)).filter
          (!(a.store.reassemble head maxChunks).2.contains ·)).count x := by
      obtain ⟨ch, hch, rfl⟩ := Store.contains_iff.mp hbefore
      exact List.count_pos_iff.mpr
        (List.mem_filter.mpr ⟨List.mem_map_of_mem hch, by rw [hafter]; rfl⟩)
    by_cases hbefore : a.store.contains x = true
    · rw [if_pos hbefore] at hx
      by_cases hafter : (a.store.reassemble head maxChunks).2.contains x = true
      · rw [if_pos hafter]
        omega
      · have hpos := htaken hbefore (Bool.eq_false_iff.mpr hafter)
        omega
    · rw [if_neg hbefore] at hx
      omega

/-- The invariant of every life of a store: its arrivals on record are in order, counted, and of few
identifiers. -/
structure Trim (n : Nat) (a : Chronicle) : Prop where
  orderly : a.Orderly n
  counted : a.Counted
  dedup_le : a.store.arrivals.dedup.length ≤ 2 * max 1 n

theorem trim_opened (n : Nat) : (opened n).Trim n :=
  ⟨orderly_opened n, fun _ => Nat.zero_le _, Nat.zero_le _⟩

theorem Trim.step (h : a.Trim n) (hn : n * 2 < sizeLimit) (hs : Step a b) : b.Trim n := by
  refine ⟨h.orderly.step hn hs, h.counted.step h.orderly hn hs, ?_⟩
  have hmax := h.orderly.doubles hn
  cases hs with
  | ingest hok =>
    obtain ⟨ch, rfl, hinsert⟩ := h.orderly.ingest hn hok
    have hfew := h.orderly.sound.dedup_arrivals_insert hmax ch
    rw [h.orderly.maxPending_eq, Nat.max_comm] at hfew
    rw [← hinsert] at hfew
    exact hfew
  | reject herr =>
    rw [Store.ingest_rejected h.orderly.sound hmax herr]
    exact h.dedup_le
  | count m => exact h.dedup_le
  | reassemble head maxChunks =>
    dsimp only [relieved]
    rw [a.store.arrivals_reassemble]
    exact h.dedup_le

theorem Trim.run (h : a.Trim n) (hn : n * 2 < sizeLimit) (hs : ReflTransGen Step a b) :
    b.Trim n := by
  induction hs with
  | refl => exact h
  | tail _ hlast ih => exact ih.step hn hlast

/-- Only an identifier that was used again is on record more than once. -/
theorem Trim.count_le (h : a.Trim n) (id : ChunkId) :
    a.store.arrivals.count id ≤ 1 + (a.spent.filter (· ∈ a.returned)).count id := by
  by_cases hid : id ∈ a.returned
  · rw [List.count_filter (by simpa using hid)]
    have hcount := h.counted id
    split at hcount <;> omega
  · exact Nat.le_trans (h.orderly.dated.count_le_one hid) (Nat.le_add_right _ _)

theorem Trim.length_le (h : a.Trim n) :
    a.store.arrivals.length ≤ 2 * max 1 n + a.spent.countP (· ∈ a.returned) := by
  have hsub : a.store.arrivals.Subperm
      (a.store.arrivals.dedup ++ a.spent.filter (· ∈ a.returned)) := by
    refine List.subperm_ext_iff.mpr fun id hid => ?_
    rw [List.count_append, List.count_dedup, if_pos hid]
    exact h.count_le id
  have hlen := hsub.length_le
  rw [List.length_append, ← List.countP_eq_length_filter] at hlen
  exact Nat.le_trans hlen (Nat.add_le_add_right h.dedup_le _)

def lone : StoredChunk := ⟨⟨1⟩, .none, [7]⟩

theorem ingest_lone (s : Store) : s.ingest (Account.smallChunk 1) = s.insert lone := rfl

theorem reassemble_lone {s : Store} (h : s.chunks = [lone]) :
    (s.reassemble ⟨1⟩ 1).2.chunks = [] := by
  have hwalk : s.walk (ChunkId.shard ⟨1⟩) 1 1 ⟨1⟩ = .ok [lone] := by
    rw [Store.walk_step (by decide) rfl]
    have hfind : s.find? ⟨1⟩ = some lone := by
      unfold Store.find?
      rw [h]
      rfl
    simp only [hfind, lone, Store.walk_none]
  have hlimit : max 1 (min 1 maxChunksLimit) = 1 := by decide
  unfold Store.reassemble
  dsimp only
  rw [hlimit, hwalk]
  simp only [List.foldl_cons, List.foldl_nil, Store.erase, h]
  rfl

/-- An empty store takes in the chunk that was taken out of it, and puts it on record again. -/
theorem Orderly.returns (h : a.Orderly n) (hn : n * 2 < sizeLimit) {k : Nat}
    (hempty : a.store.chunks = []) (harrivals : a.store.arrivals = List.replicate k ⟨1⟩) :
    ∃ b, Step a b ∧ b.store.chunks = [lone] ∧ b.store.arrivals = List.replicate (k + 1) ⟨1⟩ := by
  have hmax := h.doubles hn
  have hsame : ∀ id ∈ a.store.arrivals, id = lone.id := fun id hid =>
    List.eq_of_mem_replicate (harrivals ▸ hid)
  obtain ⟨hchunks, hmore⟩ :=
    Store.insert_empty hempty h.sound.maxPending_pos hmax lone hsame
  have hok : (a.store.ingest (Account.smallChunk 1)).result = .ok ⟨1⟩ :=
    ingest_lone a.store ▸ (h.sound.insert hmax lone).1
  refine ⟨_, .ingest hok, ?_, ?_⟩
  · show (a.store.ingest (Account.smallChunk 1)).store.chunks = [lone]
    rw [ingest_lone, hchunks]
  · show (a.store.ingest (Account.smallChunk 1)).store.arrivals = List.replicate (k + 1) ⟨1⟩
    rw [ingest_lone, hmore, harrivals, List.replicate_succ']
    rfl

/-- There are as many arrivals on record as one likes, all of the one chunk that is held. -/
theorem exists_backlog (hn : n * 2 < sizeLimit) (k : Nat) :
    ∃ a, ReflTransGen Step (opened n) a ∧ a.store.chunks = [lone] ∧
      a.store.arrivals = List.replicate (k + 1) ⟨1⟩ := by
  induction k with
  | zero =>
    obtain ⟨a, hstep, ha⟩ := (orderly_opened n).returns hn (k := 0) rfl rfl
    exact ⟨a, .single hstep, ha⟩
  | succ k ih =>
    obtain ⟨a, hrun, hchunks, harrivals⟩ := ih
    have htaken : Step a (a.relieved (a.store.reassemble ⟨1⟩ 1).2) := .reassemble a ⟨1⟩ 1
    have horderly := ((orderly_opened n).run hn hrun).step hn htaken
    obtain ⟨b, hstep, hb⟩ := horderly.returns hn (reassemble_lone hchunks)
      ((a.store.arrivals_reassemble ⟨1⟩ 1).trans harrivals)
    exact ⟨b, (hrun.tail htaken).tail hstep, hb⟩

/-- Whatever happens to a store, every chunk that it holds is on record, and more than once only if
it came in under an identifier that had been taken out before and was not replaced since, at most
once more for each chunk taken out under it. But for these there are at most twice as many arrivals
on record as the store may hold chunks, and they are never of more identifiers than that. All this
is so after a drain and after the chains of a record were taken out, too. With chunks that come back
the arrivals on record get more without a bound, while one chunk is held. -/
theorem arrivals_are_few_but_for_returned (hn : n < 2 ^ 63)
    (hrun : ReflTransGen Step (opened n) a) :
    (∀ ch ∈ a.store.chunks,
      1 ≤ a.store.arrivals.count ch.id ∧
      a.store.arrivals.count ch.id ≤ 1 + a.spent.count ch.id ∧
      (ch.id ∉ a.returned → a.store.arrivals.count ch.id = 1)) ∧
    a.store.arrivals.length ≤ 2 * max 1 n + a.spent.countP (· ∈ a.returned) ∧
    a.store.arrivals.dedup.length ≤ 2 * max 1 n ∧
    (∀ (v : Channel) (shared : Shared),
      ∃ b, ReflTransGen Step a b ∧ b.store = (a.store.drain v shared).2.1) ∧
    (∀ (t : Task) (maxChunks : Nat),
      ∃ b, ReflTransGen Step a b ∧ b.store = (a.store.resolveTask t maxChunks).2) ∧
    ∀ k, ∃ b, ReflTransGen Step (opened n) b ∧ b.store.size = 1 ∧ k < b.store.arrivals.length := by
  have hn : n * 2 < sizeLimit := by
    unfold sizeLimit
    omega
  have h := (trim_opened n).run hn hrun
  refine ⟨fun ch hch => ?_, h.length_le, h.dedup_le, a.drained, a.resolved, fun k => ?_⟩
  · have hpos : 0 < a.store.arrivals.count ch.id :=
      List.count_pos_iff.mpr (h.orderly.sound.arrived ch hch)
    have hcount := h.counted ch.id
    rw [if_pos (Store.contains_iff.mpr ⟨ch, hch, rfl⟩)] at hcount
    refine ⟨hpos, by omega, fun hnew => ?_⟩
    exact Nat.le_antisymm (h.orderly.dated.count_le_one hnew) hpos
  · obtain ⟨b, hb, hchunks, harrivals⟩ := exists_backlog hn k
    refine ⟨b, hb, ?_, ?_⟩
    · unfold Store.size
      rw [hchunks]
      rfl
    · rw [harrivals, List.length_replicate]
      exact Nat.lt_succ_self k

def takenIn (a : Chronicle) (id : UInt64) : Chronicle :=
  a.ingested ⟨id⟩ (a.store.ingest (Account.smallChunk id)).store

def takenOut (a : Chronicle) (id : UInt64) : Chronicle :=
  a.relieved (a.store.reassemble ⟨id⟩ 1).2

/-- Two chunks are taken out in turns, and each comes back at once. -/
def inTurns : Chronicle :=
  let both := ((opened 2).takenIn 1).takenIn 2
  (((((both.takenOut 1).takenIn 1).takenOut 2).takenIn 2).takenOut 1).takenIn 1

theorem inTurns_reached : ReflTransGen Step (opened 2) inTurns :=
  (((((((ReflTransGen.single (.ingest (by decide))).tail (.ingest (by decide))).tail
    (.reassemble _ ⟨1⟩ 1)).tail (.ingest (by decide))).tail (.reassemble _ ⟨2⟩ 1)).tail
    (.ingest (by decide))).tail (.reassemble _ ⟨1⟩ 1)).tail (.ingest (by decide))

/-- A store for two chunks has five arrivals of two chunks on record. -/
theorem arrivals_are_few_but_for_returned_of_two :
    inTurns.store.arrivals = [⟨1⟩, ⟨2⟩, ⟨1⟩, ⟨2⟩, ⟨1⟩] ∧ lone ∈ inTurns.store.chunks ∧
    inTurns.store.arrivals.count lone.id ≤ 1 + inTurns.spent.count lone.id ∧
    inTurns.store.arrivals.length ≤ 2 * 2 + inTurns.spent.countP (· ∈ inTurns.returned) ∧
    inTurns.store.arrivals.dedup.length ≤ 2 * 2 := by
  have hheld : lone ∈ inTurns.store.chunks := by decide
  obtain ⟨hcount, hlength, hdedup, -⟩ :=
    arrivals_are_few_but_for_returned (by decide : 2 < 2 ^ 63) inTurns_reached
  exact ⟨by decide, hheld, (hcount lone hheld).2.1, hlength, hdedup⟩

end Chronicle
end ChainRelay
