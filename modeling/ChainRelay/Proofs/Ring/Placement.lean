import ChainRelay.Proofs.Ring.Record

/-!
Where a new record goes. It follows the last one, behind padding where it would cross the end of the
band, and its words do not touch the records that are there (`Lays.stamp`, `Lays.book`).
-/

namespace ChainRelay.Ring

namespace Band

def longest (b : Band) : Nat := min (b.capacity / 4 - recordHeaderSize) maxWordLength

theorem maxRecordLength_eq {b : Band} (h : minCapacity ≤ b.capacity) :
    b.maxRecordLength = .ok b.longest := by
  simp only [minCapacity] at h
  rw [maxRecordLength, if_neg (by simp only [recordHeaderSize]; omega), longest]

/-- What a reservation puts behind the last record: the padding, if it needs any, and its record. -/
def booked (b : Band) (pos : Nat) (data : Bytes) : List Cell :=
  let p := b.placement pos data.length
  (if p.padding = 0 then []
    else [⟨pos, Bytes.zeros (p.padding - recordHeaderSize), .discarded, true⟩]) ++
  [⟨pos + p.padding, data, .writing, false⟩]

theorem recordOf_placement (b : Band) (pos size : Nat) :
    b.recordOf (b.placement pos size) = (pos + (b.placement pos size).padding) % b.capacity := by
  simp only [recordOf, placement, Nat.mod_add_mod]

section Booked

variable {b : Band} {pos : Nat}

/-- Either there is no padding, or it reaches to the end of the band. -/
theorem placement_cases (hb : b.Regular) (pos size : Nat) :
    (b.placement pos size).padding = 0 ∧ pos % b.capacity + span size ≤ b.capacity ∨
    0 < (b.placement pos size).padding ∧
      pos % b.capacity + (b.placement pos size).padding = b.capacity ∧
      (b.placement pos size).padding < span size := by
  have hm := Nat.mod_lt pos hb.pos
  simp only [placement]
  split <;> omega

theorem padding_mod (hb : b.Regular) (hpos : pos % 8 = 0) (size : Nat) :
    (b.placement pos size).padding % 8 = 0 := by
  have hc := hb.capacity_aligned
  have hm : pos % b.capacity % 8 = 0 := by
    rw [Nat.mod_mod_of_dvd pos (Nat.dvd_of_mod_eq_zero hc)]
    exact hpos
  rcases placement_cases hb pos size with h | h <;> omega

theorem tiles_booked (hb : b.Regular) (hpos : pos % 8 = 0) {data : Bytes}
    (hfit : span data.length ≤ b.capacity) :
    Tiles b pos (b.booked pos data)
      (pos + ((b.placement pos data.length).padding + span data.length)) := by
  have hmod := padding_mod hb hpos data.length
  rcases placement_cases hb pos data.length with ⟨hz, hin⟩ | ⟨hp, hend, -⟩
  · simp only [booked, hz, if_pos, List.nil_append, Tiles, Cell.extent, Nat.add_zero, Nat.zero_add,
      true_and, and_true]
    exact hin
  · have hext : span ((b.placement pos data.length).padding - recordHeaderSize) =
        (b.placement pos data.length).padding := by
      simp only [span, recordHeaderSize]
      omega
    have hwrap : (pos + (b.placement pos data.length).padding) % b.capacity = 0 := by
      rw [← Nat.mod_add_mod, hend, Nat.mod_self]
    simp only [booked, Nat.ne_of_gt hp, if_false, List.cons_append, List.nil_append, Tiles,
      Cell.extent, Bytes.length_zeros, hext, hwrap, true_and]
    omega

/-- Stamping touches the first words of the new records only. -/
theorem stamp_agrees (b : Band) (m : Memory) (pos : Nat) (data : Bytes) {lo n : Nat}
    (h : ∀ d ∈ b.booked pos data, lo + n ≤ d.place b ∨ d.place b + d.extent ≤ lo) :
    m.Agrees (b.stamp (b.placement pos data.length) data.length m) lo n := by
  have hrec := recordOf_placement b pos data.length
  have hword {m : Memory} {d : Cell} {v : Nat} (hd : d ∈ b.booked pos data) :
      m.Agrees (m.setWord (d.place b) 4 v) lo n := by
    have := d.extent_pos
    exact Memory.agrees_setWord (by rcases h d hd with h | h <;> omega)
  have hlast (m : Memory) (v : Nat) :
      m.Agrees (b.setRecordWord m (b.recordOf (b.placement pos data.length)) v) lo n := by
    rw [hrec]
    exact hword (d := ⟨pos + (b.placement pos data.length).padding, data, .writing, false⟩)
      (by simp [booked])
  simp only [stamp]
  split
  · exact hlast _ _
  · rename_i hp
    refine Memory.Agrees.trans ?_ (hlast _ _)
    exact hword (d := ⟨pos, Bytes.zeros ((b.placement pos data.length).padding - recordHeaderSize),
      .discarded, true⟩) (by simp [booked, hp])

theorem mem_booked {data : Bytes} {d : Cell} (h : d ∈ b.booked pos data) :
    d = ⟨pos + (b.placement pos data.length).padding, data, .writing, false⟩ ∨
    d = ⟨pos, Bytes.zeros ((b.placement pos data.length).padding - recordHeaderSize), .discarded,
      true⟩ ∧ 0 < (b.placement pos data.length).padding := by
  simp only [booked, List.mem_append, List.mem_singleton] at h
  rcases h with h | h
  · split at h
    · cases h
    · rename_i hp
      exact .inr ⟨List.mem_singleton.mp h, Nat.pos_of_ne_zero hp⟩
  · exact .inl h

theorem booked_length_le (hb : b.Regular) (hpos : pos % 8 = 0) {data : Bytes} {d : Cell}
    (hd : d ∈ b.booked pos data) (hlen : data.length ≤ maxWordLength) :
    d.data.length ≤ maxWordLength := by
  have hmod := padding_mod hb hpos data.length
  rcases mem_booked hd with rfl | ⟨rfl, -⟩
  · exact hlen
  · rcases placement_cases hb pos data.length with h | ⟨-, -, h⟩ <;>
      simp only [Bytes.length_zeros, span, recordHeaderSize, maxWordLength, discardMark] at * <;>
      omega

theorem stamp_word (hb : b.Regular) (hpos : pos % 8 = 0) (m : Memory) {data : Bytes}
    (hlen : data.length ≤ maxWordLength) (hfit : span data.length ≤ b.capacity)
    (hroom : (b.placement pos data.length).padding + span data.length ≤ b.capacity) {d : Cell}
    (hd : d ∈ b.booked pos data) :
    (b.stamp (b.placement pos data.length) data.length m).word (d.place b) 4 = d.word := by
  have hlt := d.word_lt (booked_length_le hb hpos hd hlen)
  have hrec := recordOf_placement b pos data.length
  rcases mem_booked hd with rfl | ⟨rfl, hp⟩
  · have hplace : b.offset + b.recordOf (b.placement pos data.length) =
        Cell.place ⟨pos + (b.placement pos data.length).padding, data, .writing, false⟩ b := by
      rw [hrec]
      rfl
    simp only [stamp, setRecordWord, hplace]
    rw [Memory.word_setWord_same]
    exact Nat.mod_eq_of_lt hlt
  · have hapart := (tiles_booked hb hpos hfit).apart (by omega)
    simp only [booked, if_neg (Nat.ne_of_gt hp), List.cons_append, List.nil_append,
      List.pairwise_cons, List.mem_singleton, forall_eq, List.not_mem_nil, false_implies,
      implies_true, and_true, List.Pairwise.nil] at hapart
    have h₀ := Cell.extent_pos ⟨pos, Bytes.zeros
      ((b.placement pos data.length).padding - recordHeaderSize), .discarded, true⟩
    have h₁ := Cell.extent_pos ⟨pos + (b.placement pos data.length).padding, data, .writing, false⟩
    simp only [Cell.Apart, Cell.place] at hapart
    simp only [stamp, setRecordWord, if_neg (Nat.ne_of_gt hp), hrec]
    rw [Memory.word_setWord_disjoint _ (by simp only [Cell.place]; omega)]
    apply (Memory.word_setWord_same ..).trans
    refine (Nat.mod_eq_of_lt ?_).trans ?_
    · simpa [Cell.word, Phase.mark] using hlt
    · simp [Cell.word, Phase.mark]

end Booked

namespace Lays

variable {b : Band} {m : Memory} {cells : List Cell} {size : Nat}

/-- A request is refused for its size, or for want of room, and for no other reason. -/
theorem place_eq (h : b.Lays m cells) (size : Nat) :
    b.place size m =
      if size = 0 ∨ b.longest < size then .error (.invalidSize size b.longest)
      else if b.capacity < b.used m + (b.placement (produced m) size).padding + span size then
        .error (.full size (b.capacity - b.used m))
      else .ok (b.placement (produced m) size) := by
  have hmod := padding_mod h.regular h.produced_mod size
  have hmax := maxRecordLength_eq h.regular.capacity_min
  have hfree : b.free m = .ok (b.capacity - b.used m) := if_pos h.used_le
  have hpad : ¬ (0 < (b.placement (produced m) size).padding ∧
      (b.placement (produced m) size).padding < recordHeaderSize) := by
    simp only [recordHeaderSize]
    omega
  simp only [place, hmax, hfree, if_neg hpad]

/-- A request of a size that may be had is refused for want of room, and changes nothing then, or
because a cursor would leave its range. -/
theorem reserve_sized (h : b.Lays m cells) (hpos : size ≠ 0) (hle : size ≤ b.longest)
    {e : ReserveError} {m' : Memory} (hr : b.reserve size m = (.error e, m')) :
    (e = .full size (b.capacity - b.used m) ∧ m' = m ∧
      b.capacity < b.used m + (b.placement (produced m) size).padding + span size) ∨
    e = .overflow := by
  have hplace := h.place_eq size
  rw [if_neg (by omega)] at hplace
  split at hplace
  · rename_i hroom
    simp only [reserve, hplace, Prod.mk.injEq, Except.error.injEq] at hr
    exact .inl ⟨hr.1.symm, hr.2.symm, hroom⟩
  · simp only [reserve, hplace] at hr
    split at hr
    · cases hr
      exact .inr rfl
    · cases hr

theorem span_le_capacity (h : b.Lays m cells) (hs : size ≤ b.longest) :
    span size ≤ b.capacity := by
  have hmin := h.regular.capacity_min
  simp only [minCapacity, longest, recordHeaderSize, span] at hmin hs ⊢
  omega

/-- The old and the new records together tile the band, and no two of them overlap. -/
theorem tiles_append_booked (h : b.Lays m cells) {data : Bytes} (hs : data.length ≤ b.longest)
    (hroom : b.used m + (b.placement (produced m) data.length).padding + span data.length ≤
      b.capacity) :
    Tiles b (consumed m) (cells ++ b.booked (produced m) data)
      (produced m + ((b.placement (produced m) data.length).padding + span data.length)) ∧
    (cells ++ b.booked (produced m) data).Pairwise (Cell.Apart b) := by
  have hle := h.tiles.le
  have ht : Tiles b (consumed m) (cells ++ b.booked (produced m) data)
      (produced m + ((b.placement (produced m) data.length).padding + span data.length)) :=
    tiles_append.mpr ⟨_, h.tiles, tiles_booked h.regular h.produced_mod (h.span_le_capacity hs)⟩
  refine ⟨ht, ht.apart ?_⟩
  unfold used at hroom
  omega

/-- Stamping a new record leaves the old ones alone. -/
theorem stamp (h : b.Lays m cells) {data : Bytes} (hs : data.length ≤ b.longest)
    (hroom : b.used m + (b.placement (produced m) data.length).padding + span data.length ≤
      b.capacity) :
    b.Lays (b.stamp (b.placement (produced m) data.length) data.length m) cells := by
  have hapart := (List.pairwise_append.mp (h.tiles_append_booked hs hroom).2).2.2
  have hlow {lo n : Nat} (hn : lo + n ≤ headerSpan) :
      m.Agrees (b.stamp (b.placement (produced m) data.length) data.length m) lo n :=
    stamp_agrees b m _ data fun d _ => .inl (Nat.le_trans hn (h.offset_le_place d))
  refine h.of_agrees (hlow (by decide)) (produced_of_agrees (hlow (by decide)))
    (consumed_of_agrees (hlow (by decide))) fun c hc => ?_
  exact stamp_agrees b m _ data fun d hd => hapart c hc d hd

/-- A reservation appends its record, with whatever bytes the band held there. -/
theorem book (h : b.Lays m cells) {data : Bytes} (hs : data.length ≤ b.longest)
    (hroom : b.used m + (b.placement (produced m) data.length).padding + span data.length ≤
      b.capacity)
    (hstop : produced m + ((b.placement (produced m) data.length).padding + span data.length) <
      sizeLimit)
    (hd : (b.stamp (b.placement (produced m) data.length) data.length m).load
      (b.payloadStart ⟨b.recordOf (b.placement (produced m) data.length), data.length⟩)
      data.length = data) :
    b.Lays
      (setProduced (b.stamp (b.placement (produced m) data.length) data.length m)
        (produced m + ((b.placement (produced m) data.length).padding + span data.length)))
      (cells ++ b.booked (produced m) data) := by
  obtain ⟨ht, -⟩ := h.tiles_append_booked hs hroom
  have hstamp := h.stamp hs hroom
  have hcons : consumed (b.stamp (b.placement (produced m) data.length) data.length m) =
      consumed m := consumed_of_agrees (stamp_agrees b m _ data fun d _ =>
    .inl (Nat.le_trans (by decide) (h.offset_le_place d)))
  have hlen : data.length ≤ maxWordLength := Nat.le_trans hs (Nat.min_le_right _ _)
  have hagree (m : Memory) (v : Nat) {lo n : Nat} (hl : lo + n ≤ 128 ∨ headerSpan ≤ lo) :
      m.Agrees (setProduced m v) lo n :=
    Memory.agrees_setWord (by simp only [headerSpan] at hl; omega)
  have hstop := Nat.mod_eq_of_lt hstop
  have hused := h.tiles.le
  constructor
  case regular => exact h.regular
  case described => exact hstamp.described.of_agrees (hagree _ _ (by decide))
  case aligned =>
    rw [consumed_setProduced, hcons]
    exact h.aligned
  case room =>
    rw [consumed_setProduced, produced_setProduced, hcons, hstop]
    unfold used at hroom
    omega
  case tiles =>
    rw [consumed_setProduced, produced_setProduced, hcons, hstop]
    exact ht
  case stored =>
    intro c hc
    rcases List.mem_append.mp hc with hc | hc
    · exact (hstamp.stored c hc).of_agrees (hagree _ _ (.inr (h.offset_le_place c)))
    · have hplace := h.offset_le_place c
      have hword := stamp_word h.regular h.produced_mod m hlen (h.span_le_capacity hs)
        (by omega) hc
      refine ⟨booked_length_le h.regular h.produced_mod hc hlen, ?_, fun hw => ?_, fun hp => ?_⟩
      · rw [(hagree _ _ (.inr hplace)).word]
        exact hword
      · rcases mem_booked hc with rfl | ⟨rfl, -⟩
        · rw [(hagree _ _ (.inr (Nat.le_trans hplace (Nat.le_add_right _ _)))).load]
          rw [payloadStart, recordOf_placement] at hd
          exact hd
        · exact absurd rfl hw
      · rcases mem_booked hc with rfl | ⟨rfl, -⟩
        · cases hp
        · rfl

end Lays

end Band
end ChainRelay.Ring
