import Mathlib.Algebra.GroupWithZero.Nat
import Mathlib.Logic.Relation
import ChainRelay.Proofs.Allocator.Issue

/-!
Calls for identifiers that run at the same time, on any shards and from any counters. A call takes
turns: each takes the value of its slot's counter and moves the counter on, and the call ends with
the first value whose sequence is not zero. The turns of all the calls may come in any order.

What a slot has drawn depends on where its counter started and on how many turns there were, not on
who took them (`Counted`); everything about the identifiers follows from that.
-/

namespace ChainRelay.Allocator

/-- What a value of the counter is worth to a call. -/
def draw? (shard : UInt16) (counter : UInt64) : Option ChunkId :=
  if counter.toNat % ChunkId.sequenceRange = 0 then none else some (.compose shard counter)

def draw (a : Allocator) (shard : UInt16) : Option ChunkId × Allocator :=
  (draw? shard (a.counter shard), a.setCounter shard (a.counter shard + 1))

/-- A turn taken, with the shard that was asked for and the identifier that came of it. -/
structure Draw where
  shard : UInt16
  id? : Option ChunkId

/-- Counters, the shards of the calls that have not ended, and all turns in their order. -/
structure Issuing where
  ids : Allocator
  waiting : List UInt16 := []
  drawn : List Draw := []

namespace Issuing

def call (x : Issuing) (shard : UInt16) : Issuing := { x with waiting := x.waiting ++ [shard] }

def turn (x : Issuing) (n : Nat) (shard : UInt16) : Issuing where
  ids := (x.ids.draw shard).2
  waiting := if (x.ids.draw shard).1.isSome then x.waiting.eraseIdx n else x.waiting
  drawn := x.drawn ++ [⟨shard, (x.ids.draw shard).1⟩]

inductive Step (x : Issuing) : Issuing → Prop where
  | call (shard : UInt16) : Step x (x.call shard)
  | turn (n : Nat) {shard : UInt16} (calling : x.waiting[n]? = some shard) :
      Step x (x.turn n shard)

abbrev Run : Issuing → Issuing → Prop := Relation.ReflTransGen Step

def turns (x : Issuing) (slot : Nat) : List Draw :=
  x.drawn.filter fun d => x.ids.slot d.shard = slot

end Issuing

def given (drawn : List Draw) : List ChunkId := drawn.filterMap (·.id?)

@[simp] theorem given_append (drawn more : List Draw) :
    given (drawn ++ more) = given drawn ++ given more := List.filterMap_append

theorem draw?_eq_none_iff {shard : UInt16} {counter : UInt64} :
    draw? shard counter = none ↔ counter.toNat % ChunkId.sequenceRange = 0 := by
  simp [draw?]

theorem draw?_eq_some {shard : UInt16} {counter : UInt64} {id : ChunkId}
    (h : draw? shard counter = some id) :
    counter.toNat % ChunkId.sequenceRange ≠ 0 ∧ id = .compose shard counter := by
  unfold draw? at h
  split at h
  · cases h
  · rename_i hne
    exact ⟨hne, (Option.some.inj h).symm⟩

theorem draw?_usable (shard : UInt16) (counter : UInt64) :
    draw? shard (usable counter) = some (.compose shard (usable counter)) :=
  if_neg (usable_mod counter)

theorem usable_of_mod {counter : UInt64} (h : counter.toNat % ChunkId.sequenceRange ≠ 0) :
    usable counter = counter := if_neg h

/-- A turn that draws sequence zero moves the counter to where the call would have taken it. -/
theorem usable_succ {counter : UInt64} (h : counter.toNat % ChunkId.sequenceRange = 0) :
    usable (counter + 1) = usable counter := by
  have hnext : usable counter = counter + 1 := if_pos h
  rw [hnext, usable_of_mod (hnext ▸ usable_mod counter)]

theorem setCounter_setCounter (a : Allocator) (shard : UInt16) (v w : UInt64) :
    (a.setCounter shard v).setCounter shard w = a.setCounter shard w := by
  simp only [setCounter, slot, Sparse.set_set]

/-- A call that nothing interrupts ends with its first turn. -/
theorem allocate_of_draw {a : Allocator} {shard : UInt16} {id : ChunkId}
    (h : (a.draw shard).1 = some id) : a.allocate shard = (id, (a.draw shard).2) := by
  obtain ⟨hne, rfl⟩ := draw?_eq_some h
  simp only [allocate, draw, usable_of_mod hne]

/-- Or it takes another one. -/
theorem allocate_of_skip {a : Allocator} {shard : UInt16} (h : (a.draw shard).1 = none) :
    a.allocate shard = (a.draw shard).2.allocate shard := by
  have hnext : (a.draw shard).2.counter shard = a.counter shard + 1 := by
    simp [draw, counter_setCounter, Allocator.slot]
  have husable := usable_succ (draw?_eq_none_iff.mp h)
  simp only [allocate, hnext, husable]
  rw [draw, setCounter_setCounter]

/-- Sequences of zero are too far apart for a second one. -/
theorem draw_of_skip {a : Allocator} {shard : UInt16} (h : (a.draw shard).1 = none) :
    ((a.draw shard).2.draw shard).1 ≠ none := by
  have hzero := draw?_eq_none_iff.mp h
  have hnext : (a.draw shard).2.counter shard = usable (a.counter shard) :=
    (Sparse.get_set_same ..).trans (if_pos hzero).symm
  show draw? shard ((a.draw shard).2.counter shard) ≠ none
  rw [hnext, draw?_usable]
  exact Option.some_ne_none _

/-- A skipped turn leaves the counter where it is in its round. -/
theorem rank_skip {counter : UInt64} (h : counter.toNat % ChunkId.sequenceRange = 0) :
    rank (counter + 1) = rank counter := by
  unfold rank
  rw [usable_succ h]

theorem rank_draw {counter : UInt64} (h : counter.toNat % ChunkId.sequenceRange ≠ 0) :
    rank (counter + 1) = (rank counter + 1) % period := by
  rw [← rank_succ, usable_of_mod h]

theorem sequence_draw {shard : UInt16} {counter : UInt64} {id : ChunkId}
    (h : draw? shard counter = some id) : id.sequence = rank counter + 1 := by
  obtain ⟨hne, rfl⟩ := draw?_eq_some h
  rw [ChunkId.sequence_compose, rank, usable_of_mod hne]
  omega

/-- These turns took a counter from the one value to the other. -/
structure Drawn (start now : UInt64) (turns : List Draw) : Prop where
  now_eq : now = start + .ofNat turns.length
  drawn : ∀ n d, turns[n]? = some d → d.id? = draw? d.shard (start + .ofNat n)
  rank_eq : rank now = (rank start + (given turns).length) % period
  ranks : ∀ n id, (given turns)[n]? = some id →
    id.sequence = (rank start + n) % period + 1

namespace Drawn

variable {start now : UInt64} {turns : List Draw}

theorem initial (start : UInt64) : Drawn start start [] where
  now_eq := by simp
  drawn := nofun
  rank_eq := (Nat.mod_eq_of_lt (rank_lt start)).symm
  ranks := nofun

theorem add (h : Drawn start now turns) (shard : UInt16) :
    Drawn start (now + 1) (turns ++ [⟨shard, draw? shard now⟩]) where
  now_eq := by
    rw [h.now_eq, List.length_append, List.length_singleton, UInt64.ofNat_add]
    exact UInt64.add_assoc ..
  drawn n d hd := by
    rcases Nat.lt_trichotomy n turns.length with hn | rfl | hn
    · rw [List.getElem?_append_left hn] at hd
      exact h.drawn n d hd
    · rw [List.getElem?_concat_length] at hd
      obtain rfl := Option.some.inj hd
      rw [← h.now_eq]
    · rw [List.getElem?_eq_none (by simp; omega)] at hd
      cases hd
  rank_eq := by
    cases hid : draw? shard now with
    | none => simp [given, rank_skip (draw?_eq_none_iff.mp hid), h.rank_eq]
    | some id =>
      rw [rank_draw (draw?_eq_some hid).1, h.rank_eq]
      simp [given, Nat.add_assoc]
  ranks n id hn := by
    cases hid : draw? shard now with
    | none => exact h.ranks n id (by simpa [given, hid] using hn)
    | some new =>
      rw [given_append, hid] at hn
      rcases Nat.lt_trichotomy n (given turns).length with hlt | rfl | hlt
      · rw [List.getElem?_append_left hlt] at hn
        exact h.ranks n id hn
      · obtain rfl : new = id := by simpa [given] using hn
        rw [sequence_draw hid, h.rank_eq]
      · rw [List.getElem?_eq_none (by rw [List.length_append]; exact hlt)] at hn
        cases hn

/-- Until the counter has come round, what it gives out differs. -/
theorem apart (h : Drawn start now turns) {i j : Nat} {id id' : ChunkId} (hlt : i < j)
    (hnear : j - i < period) (hi : (given turns)[i]? = some id)
    (hj : (given turns)[j]? = some id') : id ≠ id' := by
  rintro rfl
  have hsame := (h.ranks i id hi).symm.trans (h.ranks j id hj)
  simp only [period, ChunkId.sequenceRange] at hsame hnear
  omega

theorem sequence_mod {start : UInt64} (n : Nat) :
    (start + .ofNat n).toNat % ChunkId.sequenceRange =
      (start.toNat + n) % ChunkId.sequenceRange := by
  simp only [UInt64.toNat_add, UInt64.toNat_ofNat', ChunkId.sequenceRange]
  omega

/-- Where no turn is skipped, the sequences go up. -/
theorem sequences_lt (h : Drawn start now turns) {m n : Nat} (hlt : m < n)
    (hnone : ∀ k d, m ≤ k → k ≤ n → turns[k]? = some d → d.id? ≠ none) (hn : n < turns.length) :
    (start.toNat + m) % ChunkId.sequenceRange < (start.toNat + n) % ChunkId.sequenceRange := by
  -- otherwise the next multiple of the range is drawn by the turn `k` of them
  refine Nat.lt_of_not_le fun hle => ?_
  let k := ((start.toNat + m) / ChunkId.sequenceRange + 1) * ChunkId.sequenceRange - start.toNat
  have hk : m ≤ k ∧ k ≤ n ∧ (start.toNat + k) % ChunkId.sequenceRange = 0 := by
    simp only [k, ChunkId.sequenceRange] at hle ⊢
    omega
  have hd := List.getElem?_eq_getElem (show k < turns.length by omega)
  refine hnone k _ hk.1 hk.2.1 hd ?_
  rw [h.drawn k _ hd, draw?_eq_none_iff, sequence_mod]
  exact hk.2.2

theorem raw_lt {shard : UInt16} {v w : UInt64}
    (h : v.toNat % ChunkId.sequenceRange < w.toNat % ChunkId.sequenceRange) :
    (ChunkId.compose shard v).raw < (ChunkId.compose shard w).raw := by
  rw [UInt64.lt_iff_toNat_lt, ChunkId.toNat_raw_compose, ChunkId.toNat_raw_compose]
  omega

/-- Between two skipped turns, the identifiers of one shard go up. -/
theorem increasing {before stretch after : List Draw}
    (h : Drawn start now (before ++ stretch ++ after)) (hsome : ∀ d ∈ stretch, d.id? ≠ none)
    (shard : UInt16) :
    ((given stretch).filter (·.shard = shard)).Pairwise (·.raw < ·.raw) := by
  rw [List.pairwise_filter, given, List.pairwise_filterMap, List.pairwise_iff_getElem]
  intro m n hm hn hlt id hid id' hid' hshard hshard'
  have at_stretch (k : Nat) (hk : k < stretch.length) :
      (before ++ stretch ++ after)[before.length + k]? = some stretch[k] := by
    simp [List.getElem?_append_right, List.getElem?_append_left, hk]
  have hv := hid.symm.trans (h.drawn _ _ (at_stretch m hm))
  have hw := hid'.symm.trans (h.drawn _ _ (at_stretch n hn))
  obtain ⟨-, rfl⟩ := draw?_eq_some hv.symm
  obtain ⟨-, rfl⟩ := draw?_eq_some hw.symm
  simp only [ChunkId.shard_compose, decide_eq_true_eq] at hshard hshard'
  rw [hshard, hshard']
  apply raw_lt
  rw [sequence_mod, sequence_mod]
  refine h.sequences_lt (Nat.add_lt_add_left hlt _) (fun k d hmk hkn hd => ?_) (by simp; omega)
  obtain ⟨j, rfl⟩ := Nat.exists_eq_add_of_le (Nat.le_trans (Nat.le_add_right _ _) hmk)
  rw [at_stretch j (by omega)] at hd
  obtain rfl := Option.some.inj hd
  exact hsome _ (List.getElem_mem _)

end Drawn

/-- Every counter went through the turns of its slot. -/
structure Counted (a₀ : Allocator) (x : Issuing) : Prop where
  slots_eq : x.ids.slots = a₀.slots
  drawn : ∀ slot, Drawn (a₀.counters.get slot) (x.ids.counters.get slot) (x.turns slot)

variable {a₀ : Allocator} {x y : Issuing}

theorem Counted.initial (a : Allocator) : Counted a ⟨a, [], []⟩ :=
  ⟨rfl, fun _ => .initial _⟩

theorem turns_turn (x : Issuing) (n : Nat) (shard : UInt16) (slot : Nat) :
    (x.turn n shard).turns slot =
      x.turns slot ++ if x.ids.slot shard = slot then [⟨shard, (x.ids.draw shard).1⟩] else [] := by
  show List.filter (fun d => x.ids.slot d.shard = slot) (x.drawn ++ [_]) = _
  rw [List.filter_append]
  by_cases h : x.ids.slot shard = slot <;> simp [h, Issuing.turns]

theorem Counted.step (h : Counted a₀ x) (hs : Issuing.Step x y) : Counted a₀ y := by
  cases hs with
  | call shard => exact ⟨h.slots_eq, h.drawn⟩
  | @turn n shard calling =>
    refine ⟨h.slots_eq, fun slot => ?_⟩
    rw [turns_turn]
    show Drawn _ ((x.ids.counters.set (x.ids.slot shard) _).get slot) _
    rw [Sparse.get_set]
    by_cases hslot : x.ids.slot shard = slot
    · subst hslot
      rw [if_pos rfl, if_pos rfl]
      exact (h.drawn _).add shard
    · rw [if_neg hslot, if_neg hslot, List.append_nil]
      exact h.drawn slot

theorem Counted.run (h : Issuing.Run ⟨a₀, [], []⟩ x) : Counted a₀ x := by
  induction h with
  | refl => exact .initial a₀
  | tail _ hs ih => exact ih.step hs

theorem Counted.turn_eq (h : Counted a₀ x) {d : Draw} (hd : d ∈ x.drawn) :
    ∃ n, d.id? = draw? d.shard (a₀.counters.get (x.ids.slot d.shard) + .ofNat n) := by
  have hmem : d ∈ x.turns (x.ids.slot d.shard) := List.mem_filter.mpr ⟨hd, by simp⟩
  obtain ⟨n, hn⟩ := List.mem_iff_getElem?.mp hmem
  exact ⟨n, (h.drawn _).drawn n d hn⟩

theorem Counted.drawn_shard (h : Counted a₀ x) {d : Draw} (hd : d ∈ x.drawn) {id : ChunkId}
    (hid : d.id? = some id) : id ≠ .none ∧ id.sequence ≠ 0 ∧ id.shard = d.shard := by
  obtain ⟨n, hn⟩ := h.turn_eq hd
  obtain ⟨hne, rfl⟩ := draw?_eq_some (hn.symm.trans hid)
  have hseq := ChunkId.sequence_compose d.shard (a₀.counters.get (x.ids.slot d.shard) + .ofNat n)
  refine ⟨fun h => ?_, hseq ▸ hne, ChunkId.shard_compose ..⟩
  rw [h] at hseq
  exact hne hseq.symm

theorem Counted.skip_iff (h : Counted a₀ x) {slot n : Nat} {d : Draw}
    (hd : (x.turns slot)[n]? = some d) :
    d.id? = none ↔ ((a₀.counters.get slot).toNat + n) % ChunkId.sequenceRange = 0 := by
  rw [(h.drawn slot).drawn n d hd, draw?_eq_none_iff, Drawn.sequence_mod]

theorem turn_call (x : Issuing) (shard : UInt16) :
    Issuing.Step (x.call shard) ((x.call shard).turn x.waiting.length shard) :=
  .turn _ (List.getElem?_concat_length ..)

/-- A call whose turns nothing comes between is `allocate`. -/
theorem run_allocate (x : Issuing) (shard : UInt16) : ∃ y, Issuing.Run x y ∧
    y.ids = (x.ids.allocate shard).2 ∧ y.waiting = x.waiting ∧
    given y.drawn = given x.drawn ++ [(x.ids.allocate shard).1] := by
  have called : Issuing.Run x (x.call shard) := .single (.call shard)
  have erased : (x.waiting ++ [shard]).eraseIdx x.waiting.length = x.waiting := by
    rw [List.eraseIdx_append_of_length_le (Nat.le_refl _)]
    simp
  cases hid : (x.ids.draw shard).1 with
  | some id =>
    refine ⟨_, called.tail (turn_call x shard), ?_⟩
    simp [Issuing.call, Issuing.turn, allocate_of_draw hid, hid, erased, given]
  | none =>
    obtain ⟨id, hnext⟩ := Option.ne_none_iff_exists'.mp (draw_of_skip hid)
    have again : ((x.call shard).turn x.waiting.length shard).waiting[x.waiting.length]? =
        some shard := by
      simp [Issuing.call, Issuing.turn, hid]
    refine ⟨_, (called.tail (turn_call x shard)).tail (.turn _ again), ?_⟩
    simp [Issuing.call, Issuing.turn, allocate_of_skip hid, allocate_of_draw hnext, hid, hnext,
      erased, given]

/-- Identifiers carry the shard that asked for them and a sequence other than zero; those of
different shards differ, as do those of one slot until its counter has come round; and between two
turns that find the sequence at zero those of one shard go up. -/
theorem identifiers_are_told_apart (h : Issuing.Run ⟨a₀, [], []⟩ x) :
    (∀ d ∈ x.drawn, ∀ id, d.id? = some id → id ≠ .none ∧ id.sequence ≠ 0 ∧ id.shard = d.shard) ∧
    (∀ d ∈ x.drawn, ∀ e ∈ x.drawn, d.shard ≠ e.shard →
      ∀ id id', d.id? = some id → e.id? = some id' → id ≠ id') ∧
    (∀ slot i j id id', 0 < j - i → j - i < 2 ^ 48 - 1 → (given (x.turns slot))[i]? = some id →
      (given (x.turns slot))[j]? = some id' → id ≠ id') ∧
    (∀ slot n d, (x.turns slot)[n]? = some d →
      (d.id? = none ↔ ((a₀.counters.get slot).toNat + n) % 2 ^ 48 = 0)) ∧
    (∀ slot before stretch after, x.turns slot = before ++ stretch ++ after →
      (∀ d ∈ stretch, d.id? ≠ none) →
      ∀ shard, ((given stretch).filter (·.shard = shard)).Pairwise (·.raw < ·.raw)) ∧
    ∀ shard, ∃ y, Issuing.Run x y ∧ y.ids = (x.ids.allocate shard).2 ∧ y.waiting = x.waiting ∧
      given y.drawn = given x.drawn ++ [(x.ids.allocate shard).1] := by
  have hcounted := Counted.run h
  refine ⟨fun d hd id => hcounted.drawn_shard hd, fun d hd e he hne id id' hid hid' => ?_,
    fun slot i j id id' hlt hnear => ?_, fun slot n d => hcounted.skip_iff,
    fun slot before stretch after hturns => ?_, run_allocate x⟩
  · rintro rfl
    exact hne ((hcounted.drawn_shard hd hid).2.2.symm.trans (hcounted.drawn_shard he hid').2.2)
  · exact (hcounted.drawn slot).apart (Nat.lt_of_sub_pos hlt) hnear
  · have hdrawn := hcounted.drawn slot
    rw [hturns] at hdrawn
    exact hdrawn.increasing

def aboutToWrap : Issuing where
  ids := { counters := .const 0xffffffffffffffff, slots_pos := Nat.one_pos }

/-- The first of their calls takes the last sequence, the second finds the zero and turns again. -/
def wrapped : Issuing := ((((aboutToWrap.call 3).call 0).turn 1 0).turn 0 3).turn 0 3

theorem aboutToWrap_run : Issuing.Run aboutToWrap wrapped :=
  ((((Relation.ReflTransGen.single (.call 3)).tail (.call 0)).tail (.turn 1 rfl)).tail
    (.turn 0 rfl)).tail (.turn 0 rfl)

theorem identifiers_are_told_apart_of_wrapped : Issuing.Run aboutToWrap wrapped ∧
    given (wrapped.turns 0) = [⟨0x0000ffffffffffff⟩, ⟨0x0003000000000001⟩] ∧
    (⟨0x0000ffffffffffff⟩ : ChunkId) ≠ ⟨0x0003000000000001⟩ := by
  have hgiven : given (wrapped.turns 0) = [⟨0x0000ffffffffffff⟩, ⟨0x0003000000000001⟩] := by decide
  refine ⟨aboutToWrap_run, hgiven, ?_⟩
  refine (identifiers_are_told_apart aboutToWrap_run).2.2.1 0 0 1 _ _ ?_ ?_ ?_ ?_
  · decide
  · decide
  · rw [hgiven]
    rfl
  · rw [hgiven]
    rfl

end ChainRelay.Allocator
