import Mathlib.Algebra.GroupWithZero.Nat
import ChainRelay.Proofs.Ring.Queue

/-!
The room in a band. While half of it is free, every request is granted that is not too long for the
band (`Queued.reserve_half`), and a consumer that finds nothing to take has freed all of it, unless
a reservation is still being written (`Queued.receive_used`).
-/

namespace ChainRelay.Ring

namespace Queue

theorem rest_suffix (q : List Booking) : rest q <:+ q := by
  induction q with
  | nil => exact List.suffix_refl []
  | cons k q ih =>
    cases hk : k.phase with
    | writing => simp [rest, hk]
    | committed => simp [rest, hk]
    | discarded =>
      rw [rest, hk]
      exact ih.trans (List.suffix_cons k q)

end Queue

theorem Tiles.sum_extents {b : Band} {lo hi : Nat} {cells : List Cell} (h : Tiles b lo cells hi) :
    lo + (cells.map Cell.extent).sum = hi := by
  induction cells generalizing lo with
  | nil => exact h
  | cons c cs ih =>
    rw [List.map_cons, List.sum_cons, ← Nat.add_assoc]
    exact ih h.2.2

namespace Band

variable {b : Band} {m : Memory} {cells : List Cell} {size : Nat}

/-- What is in use is what the records take. -/
theorem Lays.used_eq (h : b.Lays m cells) : b.used m = (cells.map Cell.extent).sum := by
  rw [used, ← h.tiles.sum_extents]
  exact Nat.add_sub_cancel_left ..

/-- What is at most a quarter of the band is granted while half of the band is free. -/
theorem Lays.reserve_half (h : b.Lays m cells) (hmod : b.capacity % 32 = 0)
    (hused : b.used m ≤ b.capacity / 2) (hpos : size ≠ 0) (hle : size ≤ b.longest)
    {e : ReserveError} (hr : (b.reserve size m).1 = .error e) : e = .overflow := by
  rcases h.reserve_sized hpos hle (Prod.ext hr rfl) with ⟨-, -, hroom⟩ | he
  · have hpad := padding_mod h.regular h.produced_mod size
    have hspan : span size ≤ b.capacity / 4 := by
      have hmin := h.regular.capacity_min
      simp only [minCapacity, longest, recordHeaderSize, span] at hmin hle ⊢
      omega
    rcases placement_cases h.regular (produced m) size with ⟨hz, -⟩ | ⟨-, -, hlt⟩ <;> omega
  · exact he

theorem eq_of_place {p : Placement} (h : b.place size m = .ok p) :
    p = b.placement (produced m) size := by
  unfold place at h
  split at h
  · cases h
  split at h
  · cases h
  dsimp only at h
  split at h
  · split at h <;> cases h
  split at h
  · cases h
  · exact (Except.ok.inj h).symm

/-- A request that is granted moves the cursor, which stays in its range. -/
theorem reserve_granted {slot : Slot} {m' : Memory} (h : b.reserve size m = (.ok slot, m')) :
    ¬b.Exhausted m size ∧ produced m < produced m' := by
  unfold reserve at h
  split at h
  · cases h
  rename_i p hp
  obtain rfl := eq_of_place hp
  dsimp only at h
  split at h
  · cases h
  rename_i hstop
  refine ⟨hstop, ?_⟩
  rw [← (Prod.mk.inj h).2, produced_setProduced, Nat.mod_eq_of_lt (Nat.lt_of_not_le hstop)]
  unfold span
  omega

/-- While half of the band is free, a request is granted if the cursor can go as far. -/
theorem Queued.reserve_half {q : List Booking} (h : b.Queued m q) (hmod : b.capacity % 32 = 0)
    (hused : b.used m ≤ b.capacity / 2) (hpos : size ≠ 0) (hle : size ≤ b.longest) :
    (∃ slot m', b.reserve size m = (.ok slot, m') ∧ slot.len = size ∧ ¬b.Exhausted m size) ∨
    ∃ m', b.reserve size m = (.error .overflow, m') ∧ b.Exhausted m size := by
  rcases h.reserve size with ⟨k, m', he, hlen, -⟩ | ⟨e, m', he, -, -, hover⟩
  · exact .inl ⟨k.slot, m', he, hlen, (reserve_granted he).1⟩
  · obtain ⟨cells, hl, -⟩ := h
    obtain rfl := hl.reserve_half hmod hused hpos hle (congrArg Prod.fst he)
    exact .inr ⟨m', he, hover rfl⟩

theorem produced_frontFrom (b : Band) (fuel cursor : Nat) (m : Memory) :
    produced (b.frontFrom fuel cursor m).2 = produced m := by
  induction fuel generalizing cursor m with
  | zero => rfl
  | succ fuel ih =>
    unfold frontFrom
    split
    · rfl
    dsimp only
    split
    · rfl
    split
    · rfl
    split
    · rw [ih, produced_setConsumed]
    · rfl

theorem produced_receive (b : Band) (m : Memory) : produced (b.receive m).2 = produced m := by
  have hfront : produced (b.front m).2 = produced m := by
    unfold front
    exact b.produced_frontFrom _ _ m
  rcases hf : b.front m with ⟨e | (- | f), m'⟩ <;> rw [hf] at hfront <;>
    simpa only [receive, hf, produced_setConsumed] using hfront

/-- When nothing is being written, a consumer takes something out of the band or finds it empty. -/
theorem Queued.receive_used {q : List Booking} (h : b.Queued m q)
    (hq : ∀ k ∈ q, k.phase ≠ .writing) :
    match Queue.ready? q with
    | none => b.used (b.receive m).2 = 0
    | some _ => b.used (b.receive m).2 < b.used m := by
  obtain ⟨cells, hl, rfl⟩ := h
  obtain ⟨m', hm', hf⟩ := hl.frontFrom (Nat.le_refl _)
  change b.front m = _ at hf
  have hfront := queue_front b cells fun c hc => (hl.stored c hc).padding_discarded
  cases hd : cells.dropWhile (·.phase = .discarded) with
  | nil =>
    rw [hd] at hfront hm' hf
    have hf : b.front m = (.ok none, m') := hf
    rw [hfront.1, Band.receive, hf]
    exact hm'.used_eq
  | cons c cs =>
    rw [hd] at hfront hm' hf
    have hsuffix : c :: cs <:+ cells := hd ▸ List.dropWhile_suffix _
    rcases hfront with ⟨hp, hr, -⟩ | ⟨hp, -, -⟩
    · have hf : b.front m = (.ok (some ⟨c.data, c.pos + c.extent⟩), m') := by simpa [hp] using hf
      rw [hr, Band.receive, hf]
      obtain ⟨front, rfl⟩ := hsuffix
      have hpos := c.extent_pos
      show b.used (setConsumed m' (c.pos + c.extent)) < b.used m
      rw [hm'.release.used_eq, hl.used_eq, List.map_append, List.sum_append, List.map_cons,
        List.sum_cons]
      omega
    · -- Padding is discarded, and so a record that is being written is somebody's.
      have hpad : c.padding = false := Bool.eq_false_iff.mpr fun he => by
        rw [(hm'.stored c List.mem_cons_self).padding_discarded he] at hp
        cases hp
      have hbooked : c.booking? b = some ⟨c.pos % b.capacity, c.data, c.phase⟩ := by
        simp only [Cell.booking?, hpad, Bool.false_eq_true, if_false]
      have hmem := List.mem_filterMap.mpr ⟨c, hsuffix.subset List.mem_cons_self, hbooked⟩
      exact absurd hp (hq _ hmem)

end Band
end ChainRelay.Ring
