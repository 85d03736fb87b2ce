import ChainRelay.Allocator

/-!
What the counters give out: identifiers of the asked shard, never the one that names no chunk, and
no two alike until a counter comes round (`Issued`).
-/

namespace ChainRelay.Allocator

/-- The identifiers that `n` requests of one shard get, and the counters after them. -/
def issue (a : Allocator) (shard : UInt16) : Nat → List ChunkId × Allocator
  | 0 => ([], a)
  | n + 1 =>
    ((a.issue shard n).1 ++ [((a.issue shard n).2.allocate shard).1],
      ((a.issue shard n).2.allocate shard).2)

theorem length_issue (a : Allocator) (shard : UInt16) (n : Nat) :
    (a.issue shard n).1.length = n := by
  induction n with
  | zero => rfl
  | succ n ih => simp [issue, ih]

/-- Requests that follow others get what all of them together would have got last. -/
theorem issue_add (a : Allocator) (shard : UInt16) (m n : Nat) :
    a.issue shard (m + n) = ((a.issue shard m).1 ++ ((a.issue shard m).2.issue shard n).1,
      ((a.issue shard m).2.issue shard n).2) := by
  induction n with
  | zero => simp [issue]
  | succ n ih =>
    rw [← Nat.add_assoc]
    simp only [issue, ih, List.append_assoc]

theorem usable_mod (counter : UInt64) : (usable counter).toNat % ChunkId.sequenceRange ≠ 0 := by
  unfold usable
  split
  · rename_i h
    have hlt := counter.toNat_lt
    simp only [ChunkId.sequenceRange, UInt64.toNat_add, UInt64.toNat_one] at h ⊢
    omega
  · assumption

theorem allocate_ne_none (a : Allocator) (shard : UInt16) : (a.allocate shard).1 ≠ .none := by
  intro h
  have hseq := ChunkId.sequence_compose shard (usable (a.counter shard))
  change (a.allocate shard).1.sequence = _ at hseq
  rw [h] at hseq
  exact usable_mod _ hseq.symm

/-- A counter skips one of its sequences, and comes round after this many. -/
def period : Nat := ChunkId.sequenceRange - 1

/-- How far a counter is in its round. -/
def rank (counter : UInt64) : Nat := (usable counter).toNat % ChunkId.sequenceRange - 1

theorem rank_lt (counter : UInt64) : rank counter < period := by
  have hmod := usable_mod counter
  simp only [rank, period, ChunkId.sequenceRange] at hmod ⊢
  omega

theorem rank_succ (counter : UInt64) : rank (usable counter + 1) = (rank counter + 1) % period := by
  have hmod := usable_mod counter
  have hlt := (usable counter).toNat_lt
  unfold rank
  generalize usable counter = taken at hmod hlt
  unfold usable
  by_cases h : (taken + 1).toNat % ChunkId.sequenceRange = 0
  · rw [if_pos h]
    simp only [ChunkId.sequenceRange, period, UInt64.toNat_add, UInt64.toNat_one] at h hmod ⊢
    omega
  · rw [if_neg h]
    simp only [ChunkId.sequenceRange, period, UInt64.toNat_add, UInt64.toNat_one] at h hmod ⊢
    omega

theorem sequence_allocate (a : Allocator) (shard : UInt16) :
    (a.allocate shard).1.sequence = rank (a.counter shard) + 1 := by
  have hmod := usable_mod (a.counter shard)
  apply (ChunkId.sequence_compose ..).trans
  unfold rank
  omega

def share (a : Allocator) (slot : Nat) (ids : List ChunkId) : Nat :=
  ids.countP fun id => a.slot id.shard = slot

/-- These were given out, in this order, between two states of the counters. -/
structure Issued (a₀ a : Allocator) (ids : List ChunkId) : Prop where
  slots_eq : a.slots = a₀.slots
  rank_eq : ∀ slot, rank (a.counters.get slot) =
    (rank (a₀.counters.get slot) + a₀.share slot ids) % period
  ranks : ∀ id ∈ ids, ∃ n, n < a₀.share (a₀.slot id.shard) ids ∧
    id.sequence = (rank (a₀.counters.get (a₀.slot id.shard)) + n) % period + 1
  nodup : ids.Nodup

variable {a₀ a : Allocator} {ids : List ChunkId}

theorem Issued.initial (a : Allocator) : Issued a a [] := by
  exact ⟨rfl, fun _ => (Nat.mod_eq_of_lt (rank_lt _)).symm, nofun, .nil⟩

/-- As long as its slot has not come round, an identifier is a new one. -/
theorem Issued.allocate (h : Issued a₀ a ids) (shard : UInt16)
    (hfew : a₀.share (a₀.slot shard) ids < period) :
    Issued a₀ (a.allocate shard).2 (ids ++ [(a.allocate shard).1]) := by
  have hslot : a.slot shard = a₀.slot shard := by
    unfold slot
    rw [h.slots_eq]
  have hrank : rank (a.counter shard) =
      (rank (a₀.counters.get (a₀.slot shard)) + a₀.share (a₀.slot shard) ids) % period := by
    rw [← h.rank_eq, ← hslot]
    rfl
  have hshare (slot : Nat) : a₀.share slot (ids ++ [(a.allocate shard).1]) =
      a₀.share slot ids + if a₀.slot shard = slot then 1 else 0 := by
    simp only [share, List.countP_append, List.countP_singleton, shard_allocate, decide_eq_true_eq]
  refine ⟨h.slots_eq, fun slot => ?_, fun id hid => ?_, ?_⟩
  · rw [hshare]
    show rank ((a.counters.set (a.slot shard) _).get slot) = _
    rw [Sparse.get_set, hslot]
    by_cases hs : a₀.slot shard = slot
    · subst hs
      rw [if_pos rfl, if_pos rfl, rank_succ, hrank]
      simp only [period, ChunkId.sequenceRange]
      omega
    · rw [if_neg hs, if_neg hs, Nat.add_zero]
      exact h.rank_eq slot
  · rw [hshare]
    rcases List.mem_append.mp hid with hid | hid
    · obtain ⟨n, hn, hseq⟩ := h.ranks id hid
      exact ⟨n, by omega, hseq⟩
    · obtain rfl := List.mem_singleton.mp hid
      rw [shard_allocate, if_pos rfl]
      exact ⟨_, Nat.lt_succ_self _, by rw [sequence_allocate, hrank]⟩
  · refine List.nodup_append.mpr ⟨h.nodup, List.pairwise_singleton _ _, ?_⟩
    rintro id hid _ hnew rfl
    obtain rfl := List.mem_singleton.mp hnew
    obtain ⟨n, hn, hseq⟩ := h.ranks _ hid
    rw [shard_allocate] at hn hseq
    rw [sequence_allocate, hrank] at hseq
    simp only [period, ChunkId.sequenceRange] at hseq hfew
    omega

theorem issued_issue (a : Allocator) (shard : UInt16) {n : Nat} (h : n ≤ period) :
    Issued a (a.issue shard n).2 (a.issue shard n).1 := by
  induction n with
  | zero => exact .initial a
  | succ n ih =>
    have hle : a.share (a.slot shard) (a.issue shard n).1 ≤ n :=
      Nat.le_trans List.countP_le_length (Nat.le_of_eq (a.length_issue shard n))
    exact (ih (Nat.le_of_succ_le h)).allocate shard (Nat.lt_of_le_of_lt hle h)

end ChainRelay.Allocator
