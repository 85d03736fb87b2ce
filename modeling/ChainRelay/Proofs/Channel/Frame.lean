import Mathlib.Data.List.Pairwise
import Mathlib.Order.CompletePartialOrder
import Mathlib.Order.Interval.Set.Disjoint
import ChainRelay.Proofs.Channel.Traffic

/-!
How the band of a channel is divided, said with nothing but the bytes of its region. The words in
front of the records lead from one cursor to the other (`Band.Walk`); whoever holds a reservation
has one of these records to itself (`Band.Owns`). All this is so after any traffic
(`Traffic.band_is_divided`).
-/

namespace ChainRelay.Ring

namespace Band

variable {b : Band} {m : Memory}

/-- What the record at a free-running position takes of the band, as its word says. -/
def spanAt (b : Band) (m : Memory) (pos : Nat) : Nat :=
  span (wordLength (b.recordWord m (pos % b.capacity)))

/-- The words of the records lead from `lo` over these positions to `hi`. No record crosses the end
of the band. -/
def Walk (b : Band) (m : Memory) : (lo : Nat) → List Nat → (hi : Nat) → Prop
  | lo, [], hi => lo = hi
  | lo, pos :: rest, hi =>
    pos = lo ∧ lo % b.capacity + b.spanAt m lo ≤ b.capacity ∧ Walk b m (lo + b.spanAt m lo) rest hi

def recordRange (b : Band) (m : Memory) (pos : Nat) : Set Nat :=
  Set.Ico (b.offset + pos % b.capacity) (b.offset + pos % b.capacity + b.spanAt m pos)

def wordRange (b : Band) (pos : Nat) : Set Nat :=
  Set.Ico (b.offset + pos % b.capacity) (b.offset + pos % b.capacity + recordHeaderSize)

/-- The addresses that belong to the holder of a slot. -/
def payloadRange (b : Band) (slot : Slot) : Set Nat :=
  Set.Ico (b.payloadStart slot) (b.payloadStart slot + slot.len)

/-- The cursors of a band behind its control block, and the records at these positions between
them. -/
structure Divided (b : Band) (m : Memory) (starts : List Nat) : Prop where
  headerSpan_le : headerSpan ≤ b.offset
  consumed_le : consumed m ≤ produced m
  produced_le : produced m ≤ consumed m + b.capacity
  consumed_mod : consumed m % 8 = 0
  produced_mod : produced m % 8 = 0
  walk : b.Walk m (consumed m) starts (produced m)

/-- One of the records belongs to the holder of the slot, who shares no byte with the others. -/
structure Owns (b : Band) (m : Memory) (starts : List Nat) (slot : Slot) : Prop where
  record : ∃ pos ∈ starts, pos % b.capacity = slot.record ∧
    isBusy (b.recordWord m slot.record) = true ∧
    wordLength (b.recordWord m slot.record) = slot.len ∧
    b.payloadRange slot ⊆ b.recordRange m pos
  within : b.payloadRange slot ⊆ Set.Ico b.offset (b.offset + b.capacity)
  words : ∀ pos ∈ starts, Disjoint (b.payloadRange slot) (b.wordRange pos)
  others : ∀ pos ∈ starts, pos % b.capacity ≠ slot.record →
    Disjoint (b.payloadRange slot) (b.recordRange m pos)

theorem Lays.spanAt_eq {cells : List Cell} (h : b.Lays m cells) {c : Cell} (hc : c ∈ cells) :
    b.spanAt m c.pos = c.extent := by
  have hs := h.stored c hc
  have hword : b.recordWord m (c.pos % b.capacity) = c.word := hs.word_eq
  rw [spanAt, hword, c.wordLength_word hs.length_le, Cell.extent]

theorem walk_of_tiles {lo hi : Nat} {cells : List Cell} (ht : Tiles b lo cells hi)
    (hspan : ∀ c ∈ cells, b.spanAt m c.pos = c.extent) : b.Walk m lo (cells.map (·.pos)) hi := by
  induction cells generalizing lo with
  | nil => exact ht
  | cons c cells ih =>
    obtain ⟨rfl, hfit, hrest⟩ := ht
    have hc := hspan c List.mem_cons_self
    have htail := ih hrest fun d hd => hspan d (List.mem_cons_of_mem _ hd)
    simp only [List.map_cons, Walk, hc]
    exact ⟨trivial, hfit, htail⟩

theorem Lays.divided {cells : List Cell} (h : b.Lays m cells) :
    b.Divided m (cells.map (·.pos)) where
  headerSpan_le := h.regular.offset_min
  consumed_le := h.tiles.le
  produced_le := h.room
  consumed_mod := h.aligned
  produced_mod := h.produced_mod
  walk := walk_of_tiles h.tiles fun _ hc => h.spanAt_eq hc

/-- The words between the cursors account for all that is used, and the rest is free. -/
theorem Divided.free_eq {starts : List Nat} (h : b.Divided m starts) :
    ∃ free, b.free m = .ok free ∧ b.used m + free = b.capacity := by
  have hlo := h.consumed_le
  have hhi := h.produced_le
  have hused : b.used m ≤ b.capacity := by
    unfold used
    omega
  exact ⟨b.capacity - b.used m, if_pos hused, by omega⟩

instance : Std.Symm (Cell.Apart b) := ⟨fun _ _ => Or.symm⟩

/-- A record that is being written belongs to the holder of its slot. -/
theorem Lays.owns {cells : List Cell} (h : b.Lays m cells) {c : Cell} (hc : c ∈ cells)
    (hw : c.phase = .writing) :
    b.Owns m (cells.map (·.pos)) ⟨c.pos % b.capacity, c.data.length⟩ := by
  have hs := h.stored c hc
  have hword : b.recordWord m (c.pos % b.capacity) = c.word := hs.word_eq
  have hlt := c.length_lt_extent
  obtain ⟨-, -, hfit⟩ := h.tiles.mem hc
  have hapart : ∀ d ∈ cells, d.pos % b.capacity ≠ c.pos % b.capacity → c.Apart b d := by
    intro d hd hne
    exact h.apart.forall hc hd fun he => hne (he ▸ rfl)
  constructor
  case record =>
    refine ⟨c.pos, List.mem_map_of_mem hc, rfl, ?_, ?_, ?_⟩
    · rw [hword, c.isBusy_word hs.length_le, hw]
      rfl
    · rw [hword, c.wordLength_word hs.length_le]
    · rw [recordRange, h.spanAt_eq hc]
      apply Set.Ico_subset_Ico
      · exact Nat.le_add_right _ _
      · simp only [payloadStart]
        omega
  case within =>
    apply Set.Ico_subset_Ico
    · simp only [payloadStart]
      omega
    · simp only [payloadStart]
      omega
  case words =>
    intro pos hpos
    obtain ⟨d, hd, rfl⟩ := List.mem_map.mp hpos
    rw [payloadRange, wordRange, Set.Ico_disjoint_Ico]
    by_cases hne : d.pos % b.capacity = c.pos % b.capacity
    · simp only [payloadStart, hne]
      omega
    · have hd := d.length_lt_extent
      have hcd := hapart d ‹_› hne
      simp only [Cell.Apart, Cell.place, payloadStart] at hcd ⊢
      omega
  case others =>
    intro pos hpos hne
    obtain ⟨d, hd, rfl⟩ := List.mem_map.mp hpos
    have hcd := hapart d hd hne
    rw [payloadRange, recordRange, Set.Ico_disjoint_Ico, h.spanAt_eq hd]
    simp only [Cell.Apart, Cell.place, payloadStart] at hcd ⊢
    omega

/-- The payloads of two pending reservations share no byte. -/
theorem Lays.payloads_apart {cells : List Cell} (h : b.Lays m cells) :
    (cells.filterMap (Cell.booking? b)).Pairwise fun k l =>
      Disjoint (b.payloadRange k.slot) (b.payloadRange l.slot) := by
  apply h.apart.filterMap
  intro c d hcd k hk l hl
  simp only [Cell.booking?, Option.ite_none_left_eq_some, Option.some.injEq] at hk hl
  obtain ⟨-, rfl⟩ := hk
  obtain ⟨-, rfl⟩ := hl
  have hc := c.length_lt_extent
  have hd := d.length_lt_extent
  rw [payloadRange, payloadRange, Set.Ico_disjoint_Ico]
  simp only [Cell.Apart, Cell.place, payloadStart, Booking.slot] at hcd ⊢
  omega

/-- A request that is refused for its size or for want of room changes nothing, and the room that
is reported is the room there is. -/
theorem Lays.reserve_refused {cells : List Cell} (h : b.Lays m cells) {size : Nat}
    {e : ReserveError} {m' : Memory} (hr : b.reserve size m = (.error e, m')) :
    (∃ available, e = .full size available ∧ b.used m + available = b.capacity ∧ m' = m) ∨
    (e = .invalidSize size b.longest ∧ m' = m) ∨ (e = .overflow ∧ b.Exhausted m size) := by
  have hused := h.used_le
  have hplace := h.place_eq size
  split at hplace
  · simp only [reserve, hplace, Prod.mk.injEq, Except.error.injEq] at hr
    exact .inr (.inl ⟨hr.1.symm, hr.2.symm⟩)
  · split at hplace
    · simp only [reserve, hplace, Prod.mk.injEq, Except.error.injEq] at hr
      exact .inl ⟨_, hr.1.symm, by omega, hr.2.symm⟩
    · simp only [reserve, hplace] at hr
      split at hr
      · rename_i hstop
        cases hr
        exact .inr (.inr ⟨rfl, hstop⟩)
      · cases hr

end Band
end ChainRelay.Ring

namespace ChainRelay

open ChainRelay.Ring

namespace Traffic

variable {c : Channel} {t : Traffic}

/-- What a view answers to a request that it refuses. -/
theorem refused_of_queued {v : Channel} {s s' : Shared} {q : List Booking} (hq : c.Queued s q)
    (hv : c.Views v) {size : Nat} {e : ReserveError} (hr : v.reserve size s = (.error e, s')) :
    (∃ available, e = .full size available ∧ v.used s + available = c.band.capacity ∧
      c.memory s' = c.memory s) ∨
    (e = .invalidSize size c.band.longest ∧ c.memory s' = c.memory s) ∨
    (e = .overflow ∧ c.Exhausted s size) := by
  obtain ⟨cells, hl, -⟩ := hq
  have hused : v.used s = c.band.used (c.memory s) := by
    unfold Channel.used Channel.memory
    rw [hv.region_eq, hv.band_eq]
  rw [hused]
  exact hl.reserve_refused (hv.reserve_refused hr)

/-- After any traffic the words of the records divide the band between the cursors, and what is not
used is free; whoever holds a reservation has its bytes to itself; and a request that is refused for
its size or for want of room changes nothing. -/
theorem band_is_divided (h : Reached c t) :
    (∃ starts, c.band.Divided (c.memory t.shared) starts ∧
      ∀ (ticket : Nat) (r : Reservation), t.handed[ticket]? = some (some r) →
        c.Views r.channel ∧ c.band.Owns (c.memory t.shared) starts r.slot) ∧
    (∀ (i j : Nat) (r r' : Reservation), i ≠ j → t.handed[i]? = some (some r) →
      t.handed[j]? = some (some r') →
      Disjoint (c.band.payloadRange r.slot) (c.band.payloadRange r'.slot)) ∧
    (∃ free, c.band.free (c.memory t.shared) = .ok free ∧
      c.band.used (c.memory t.shared) + free = c.band.capacity) ∧
    ∀ v ∈ t.views, ∀ (size : Nat) (e : ReserveError) (s : Shared),
      v.reserve size t.shared = (.error e, s) →
        (∃ available, e = .full size available ∧ v.used t.shared + available = c.band.capacity ∧
          c.memory s = c.memory t.shared) ∨
        (e = .invalidSize size c.band.longest ∧ c.memory s = c.memory t.shared) ∨
        (e = .overflow ∧ c.Exhausted t.shared size) := by
  obtain ⟨plan, s₀, s₁, events, hb, hr⟩ := h
  obtain ⟨-, past, q, ht⟩ := run_tracks (built_tracks hb) hr
  obtain ⟨cells, hl, rfl⟩ := ht.queued
  refine ⟨⟨_, hl.divided, ?_⟩, ?_, hl.divided.free_eq, ?_⟩
  · intro ticket r hr
    obtain ⟨j, k, -, hk, hw, hhold⟩ := ht.held ticket r hr
    obtain ⟨cell, hcell, hbook⟩ := List.mem_filterMap.mp (List.mem_of_getElem? hk)
    simp only [Cell.booking?, Option.ite_none_left_eq_some, Option.some.injEq] at hbook
    obtain ⟨-, rfl⟩ := hbook
    refine ⟨hhold.view, ?_⟩
    rw [hhold.slot_eq]
    exact hl.owns hcell hw
  · have hapart := hl.payloads_apart
    intro i j r r' hij hi hj
    obtain ⟨a, k, rfl, hk, -, hhold⟩ := ht.held i r hi
    obtain ⟨a', k', rfl, hk', -, hhold'⟩ := ht.held j r' hj
    rw [hhold.slot_eq, hhold'.slot_eq]
    obtain ⟨ha, rfl⟩ := List.getElem?_eq_some_iff.mp hk
    obtain ⟨ha', rfl⟩ := List.getElem?_eq_some_iff.mp hk'
    rcases Nat.lt_or_gt_of_ne (show a ≠ a' by omega) with hlt | hgt
    · exact List.pairwise_iff_getElem.mp hapart a a' ha ha' hlt
    · exact (List.pairwise_iff_getElem.mp hapart a' a ha' ha hgt).symm
  · intro v hv size e s hr
    exact refused_of_queued ht.queued (ht.views v hv) hr

/-- Two reservations that are both open. -/
theorem band_is_divided_of_two :
    ∃ (t : Traffic) (r r' : Reservation), Reached firstChannel t ∧ t.handed = [some r, some r'] ∧
      Disjoint (firstChannel.band.payloadRange r.slot) (firstChannel.band.payloadRange r'.slot) ∧
      ∃ starts, firstChannel.band.Divided (firstChannel.memory t.shared) starts ∧
        firstChannel.band.Owns (firstChannel.memory t.shared) starts r.slot ∧
        firstChannel.band.Owns (firstChannel.memory t.shared) starts r'.slot := by
  have h₁ : firstChannel.reserve 2 firstShared =
    (.ok ⟨firstChannel, ⟨0, 2⟩⟩, (firstChannel.reserve 2 firstShared).2) := rfl
  have h₂ : firstChannel.reserve 1 (firstChannel.reserve 2 firstShared).2 =
    (.ok ⟨firstChannel, ⟨16, 1⟩⟩,
      (firstChannel.reserve 1 (firstChannel.reserve 2 firstShared).2).2) := rfl
  have hr := Run.cons (c := firstChannel) (t := ⟨firstShared, [firstChannel], []⟩)
    (.reserve List.mem_cons_self h₁) (.cons (.reserve List.mem_cons_self h₂) .nil)
  have hreached : Reached firstChannel _ := ⟨_, _, _, _, buildChannel_first, hr⟩
  obtain ⟨⟨starts, hd, howns⟩, hapart, -, -⟩ := band_is_divided hreached
  exact ⟨_, _, _, hreached, rfl, hapart 0 1 _ _ (by decide) rfl rfl, starts, hd,
    (howns 0 _ rfl).2, (howns 1 _ rfl).2⟩

end Traffic
end ChainRelay
