import ChainRelay.Proofs.Allocator.Issue

/-!
What the counters foretell. Where the counter of a slot stands is known from the request that was
served last on it: behind the identifier it gave out, or where it was moved to (`Recalls`). So is
the next identifier, and `nextSequence` tells its sequence, unless the counter stands at zero: that
sequence is skipped, and the next identifier has the one after it.
-/

namespace ChainRelay.Allocator

inductive Request where
  | allocate (shard : UInt16)
  | seed (shard : UInt16) (value : UInt64)

inductive Served where
  | allocated (id : ChunkId)
  | seeded (shard : UInt16) (value : UInt64)

namespace Served

def shard : Served → UInt16
  | allocated id => id.shard
  | seeded shard _ => shard

/-- The sequence behind the one that was given out, or the one that was set. -/
def following : Served → Nat
  | allocated id => (id.sequence + 1) % ChunkId.sequenceRange
  | seeded _ value => value.toNat % ChunkId.sequenceRange

/-- The last of the sequences was given out, or zero was set. -/
def AtZero : Served → Prop
  | allocated id => id.sequence = ChunkId.sequenceRange - 1
  | seeded _ value => value.toNat % ChunkId.sequenceRange = 0

theorem following_eq_zero_iff (r : Served) : r.following = 0 ↔ r.AtZero := by
  cases r with
  | allocated id =>
    have hlt : id.sequence < ChunkId.sequenceRange := Nat.mod_lt _ (by decide)
    simp only [following, AtZero, ChunkId.sequenceRange] at hlt ⊢
    omega
  | seeded => exact Iff.rfl

end Served

def respond (a : Allocator) : Request → Served × Allocator
  | .allocate shard => (.allocated (a.allocate shard).1, (a.allocate shard).2)
  | .seed shard value => (.seeded shard value, a.seed shard value)

def respondAll (a : Allocator) : List Request → List Served × Allocator
  | [] => ([], a)
  | r :: rest =>
    ((a.respond r).1 :: ((a.respond r).2.respondAll rest).1, ((a.respond r).2.respondAll rest).2)

def latest? (a : Allocator) (served : List Served) (slot : Nat) : Option Served :=
  (served.filter fun r => a.slot r.shard = slot).getLast?

/-- Where the requests that were served leave the counter of a slot, which begins at one. -/
def due (a : Allocator) (served : List Served) (slot : Nat) : Nat :=
  ((a.latest? served slot).map Served.following).getD 1

theorem due_append (a : Allocator) (served : List Served) (r : Served) (slot : Nat) :
    a.due (served ++ [r]) slot =
      if a.slot r.shard = slot then r.following else a.due served slot := by
  unfold due latest?
  rw [List.filter_append]
  by_cases h : a.slot r.shard = slot <;> simp [h]

/-- The counters stand where the requests that were served on them left them. -/
def Recalls (a : Allocator) (served : List Served) : Prop :=
  ∀ slot, (a.counters.get slot).toNat % ChunkId.sequenceRange = a.due served slot

variable {a : Allocator} {served : List Served}

theorem Recalls.initial (shards : Nat) : (ofShards shards).Recalls [] :=
  fun slot => congrArg (fun v : UInt64 => v.toNat % ChunkId.sequenceRange) (Sparse.get_const 1 slot)

theorem Recalls.setCounter (h : a.Recalls served) {shard : UInt16} {value : UInt64} {r : Served}
    (hshard : r.shard = shard) (hvalue : value.toNat % ChunkId.sequenceRange = r.following) :
    (a.setCounter shard value).Recalls (served ++ [r]) := by
  intro slot
  rw [due_append, hshard]
  show ((a.counters.set (a.slot shard) value).get slot).toNat % _ = _
  rw [Sparse.get_set]
  by_cases hslot : a.slot shard = slot
  · rw [if_pos hslot, hvalue]
    exact (if_pos hslot).symm
  · rw [if_neg hslot, h slot]
    exact (if_neg hslot).symm

theorem Recalls.respond (h : a.Recalls served) (r : Request) :
    (a.respond r).2.Recalls (served ++ [(a.respond r).1]) := by
  cases r with
  | allocate shard =>
    refine h.setCounter (shard_allocate a shard) ?_
    have hseq : (a.allocate shard).1.sequence = _ :=
      ChunkId.sequence_compose shard (usable (a.counter shard))
    show _ = ((a.allocate shard).1.sequence + 1) % _
    rw [hseq]
    simp only [ChunkId.sequenceRange, UInt64.toNat_add, UInt64.toNat_one]
    omega
  | seed shard value => exact h.setCounter rfl rfl

theorem Recalls.respondAll (h : a.Recalls served) (requests : List Request) :
    (a.respondAll requests).2.Recalls (served ++ (a.respondAll requests).1) := by
  induction requests generalizing a served with
  | nil => simpa [Allocator.respondAll] using h
  | cons r rest ih => simpa [Allocator.respondAll] using ih (h.respond r)

/-- The next identifier has the sequence at which the counter stands, or else the first one. -/
theorem sequence_allocate_eq (a : Allocator) (shard : UInt16) :
    (a.allocate shard).1.sequence =
      if a.nextSequence shard = 0 then 1 else a.nextSequence shard := by
  apply (ChunkId.sequence_compose ..).trans
  unfold usable nextSequence
  by_cases h : (a.counter shard).toNat % ChunkId.sequenceRange = 0
  · rw [if_pos h, if_pos h]
    simp only [ChunkId.sequenceRange, UInt64.toNat_add, UInt64.toNat_one] at h ⊢
    omega
  · rw [if_neg h, if_neg h]

/-- Whatever was asked of the counters before, `nextSequence` tells the sequence of the identifier
that a shard gets next, unless the request that was served last on its slot left the counter at
zero: by giving out the last sequence, or by moving the counter there. Then it tells zero, and the
identifier has sequence one. -/
theorem next_sequence_is_foretold (shards : Nat) (requests : List Request) (shard : UInt16) :
    let (served, a) := (ofShards shards).respondAll requests
    a.nextSequence shard = a.due served (a.slot shard) ∧
    (a.nextSequence shard = (a.allocate shard).1.sequence ↔
      ∀ r, a.latest? served (a.slot shard) = some r → ¬r.AtZero) ∧
    ∀ r, a.latest? served (a.slot shard) = some r → r.AtZero →
      a.nextSequence shard = 0 ∧ (a.allocate shard).1.sequence = 1 := by
  have hrecalls := (Recalls.initial shards).respondAll requests
  rw [List.nil_append] at hrecalls
  generalize (ofShards shards).respondAll requests = answer at hrecalls
  obtain ⟨served, a⟩ := answer
  have hnext : a.nextSequence shard = a.due served (a.slot shard) := hrecalls (a.slot shard)
  have hzero : a.due served (a.slot shard) = 0 ↔
      ∃ r, a.latest? served (a.slot shard) = some r ∧ r.AtZero := by
    unfold due
    cases a.latest? served (a.slot shard) with
    | none => simp
    | some r => simp [r.following_eq_zero_iff]
  have hseq := a.sequence_allocate_eq shard
  refine ⟨hnext, ?_, fun r hr hat => ?_⟩
  · rw [hseq]
    split
    · rename_i h
      obtain ⟨r, hr, hat⟩ := hzero.mp (hnext ▸ h)
      exact iff_of_false (by rw [h]; exact Nat.zero_ne_one) fun hall => hall r hr hat
    · rename_i h
      exact iff_of_true rfl fun r hr hat => h (hnext.trans (hzero.mpr ⟨r, hr, hat⟩))
  · have h : a.nextSequence shard = 0 := hnext.trans (hzero.mpr ⟨r, hr, hat⟩)
    exact ⟨h, hseq.trans (if_pos h)⟩

example : ((ofShards 1).respondAll [.seed 0 0xffffffffffff, .allocate 0]).2.nextSequence 0 = 0 := by
  decide

end ChainRelay.Allocator
