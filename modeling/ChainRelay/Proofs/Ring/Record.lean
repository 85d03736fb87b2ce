import ChainRelay.Proofs.Ring.Tiling

/-!
What the operations on one record do to a laid-out band: writing and finalizing change the record
where it stands, and the consumer passes the records at the front.
-/

namespace ChainRelay.Ring

section Cursors

variable (m : Memory) (v : Nat)

@[simp] theorem consumed_setConsumed : consumed (setConsumed m v) = v % sizeLimit :=
  Memory.word_setWord_same ..

@[simp] theorem produced_setConsumed : produced (setConsumed m v) = produced m :=
  Memory.word_setWord_disjoint m (by decide)

@[simp] theorem produced_setProduced : produced (setProduced m v) = v % sizeLimit :=
  Memory.word_setWord_same ..

@[simp] theorem consumed_setProduced : consumed (setProduced m v) = consumed m :=
  Memory.word_setWord_disjoint m (by decide)

theorem produced_lt : produced m < sizeLimit := Memory.word_lt m 128 8

theorem produced_of_agrees {m m' : Memory} (h : m.Agrees m' 128 8) : produced m' = produced m :=
  h.word

theorem consumed_of_agrees {m m' : Memory} (h : m.Agrees m' 256 8) : consumed m' = consumed m :=
  h.word

end Cursors

theorem announce_agrees (m : Memory) {lo n : Nat} (h : lo + n ≤ 32 ∨ 36 ≤ lo) :
    m.Agrees (announce m) lo n :=
  Memory.agrees_setWord (by omega)

theorem Band.finalize_agrees (b : Band) (s : Slot) (discard : Bool) (m : Memory) {lo n : Nat}
    (hr : lo + n ≤ b.offset + s.record ∨ b.offset + s.record + 4 ≤ lo)
    (hs : lo + n ≤ 32 ∨ 36 ≤ lo) : m.Agrees (b.finalize s discard m) lo n := by
  have hp : m.Agrees (b.publish s discard m) lo n := Memory.agrees_setWord hr
  simp only [Band.finalize]
  split
  · exact hp.trans (announce_agrees _ hs)
  · exact hp

theorem Band.produced_finalize (b : Band) (s : Slot) (discard : Bool) (m : Memory)
    (ho : headerSpan ≤ b.offset) : produced (b.finalize s discard m) = produced m := by
  simp only [headerSpan] at ho
  exact produced_of_agrees (b.finalize_agrees s discard m (by omega) (by decide))

theorem tiles_replace {b : Band} {lo hi : Nat} {c c' : Cell} {pre post : List Cell}
    (h : Tiles b lo (pre ++ c :: post) hi) (hp : c'.pos = c.pos)
    (hl : c'.data.length = c.data.length) : Tiles b lo (pre ++ c' :: post) hi := by
  have he : c'.extent = c.extent := congrArg span hl
  rw [tiles_append] at h ⊢
  obtain ⟨mid, hpre, hc, hf, hpost⟩ := h
  exact ⟨mid, hpre, hp.trans hc, by rw [he]; exact hf, by rw [he]; exact hpost⟩

theorem Cell.apart_of_mem {b : Band} {c d : Cell} {pre post : List Cell}
    (h : (pre ++ c :: post).Pairwise (Cell.Apart b)) (hd : d ∈ pre ++ post) : d.Apart b c := by
  obtain ⟨-, hpost, hpre⟩ := List.pairwise_append.mp h
  rcases List.mem_append.mp hd with hd | hd
  · exact hpre d hd c List.mem_cons_self
  · exact ((List.pairwise_cons.mp hpost).1 d hd).symm

namespace Band.Lays

variable {b : Band} {m m' : Memory} {cells pre post : List Cell} {c c' : Cell}

/-- The bytes of one record change, and in the control block at most the signal and the waiters. -/
theorem replace (h : b.Lays m (pre ++ c :: post)) (hp : c'.pos = c.pos)
    (hl : c'.data.length = c.data.length) (hs : c'.Stored b m')
    (hh : ∀ lo n, lo + n ≤ 32 ∨ 40 ≤ lo ∧ lo + n ≤ headerSpan → m.Agrees m' lo n)
    (ha : ∀ lo n, headerSpan ≤ lo → lo + n ≤ c.place b ∨ c.place b + c.extent ≤ lo →
      m.Agrees m' lo n) :
    b.Lays m' (pre ++ c' :: post) := by
  have hprod : produced m' = produced m := produced_of_agrees (hh _ _ (by decide))
  have hcons : consumed m' = consumed m := consumed_of_agrees (hh _ _ (by decide))
  have hother : ∀ d ∈ pre ++ post, d.Stored b m' := by
    intro d hd
    have hmem : d ∈ pre ++ c :: post := by
      rcases List.mem_append.mp hd with hd | hd <;> simp [hd]
    refine (h.stored d hmem).of_agrees (ha _ _ (h.offset_le_place d) ?_)
    exact Cell.apart_of_mem h.apart hd
  constructor
  case regular => exact h.regular
  case described => exact h.described.of_agrees (hh _ _ (by decide))
  case aligned =>
    rw [hcons]
    exact h.aligned
  case room =>
    rw [hprod, hcons]
    exact h.room
  case tiles =>
    rw [hprod, hcons]
    exact tiles_replace h.tiles hp hl
  case stored =>
    intro d hd
    rcases List.mem_append.mp hd with hd | hd
    · exact hother d (List.mem_append_left _ hd)
    · rcases List.mem_cons.mp hd with rfl | hd
      · exact hs
      · exact hother d (List.mem_append_right _ hd)

/-- A write into a reservation stays inside its record. -/
theorem write (h : b.Lays m (pre ++ c :: post)) (hw : c.phase = .writing) (pos : Nat)
    (bytes : Bytes) :
    b.Lays (b.write ⟨c.pos % b.capacity, c.data.length⟩ pos bytes m)
      (pre ++ { c with data := c.data.overlay pos bytes } :: post) := by
  have hc := h.stored c (by simp)
  have hext := c.length_lt_extent
  have hoff := h.offset_le_place c
  have hout (lo n : Nat) (hd : lo + n ≤ c.place b ∨ c.place b + c.extent ≤ lo) :
      m.Agrees (b.write ⟨c.pos % b.capacity, c.data.length⟩ pos bytes m) lo n := by
    by_cases hpos : c.data.length ≤ pos
    · have hnil : cut ⟨c.pos % b.capacity, c.data.length⟩ pos bytes = [] := by
        simp [cut, Nat.sub_eq_zero_of_le hpos]
      simp only [Band.write, hnil, Memory.store]
      exact .refl m lo n
    · apply Memory.agrees_store
      simp only [cut, payloadStart, List.length_take]
      unfold Cell.place at hd
      omega
  have hword : m.Agrees (b.write ⟨c.pos % b.capacity, c.data.length⟩ pos bytes m)
      (c.place b) 4 := by
    apply Memory.agrees_store
    left
    simp only [payloadStart, Cell.place, recordHeaderSize]
    omega
  refine h.replace rfl (by simp) ⟨by simpa using hc.length_le, ?_, fun hd => ?_, ?_⟩
    (fun lo n hlo => hout lo n ?_) (fun lo n _ hd => hout lo n hd)
  · refine hword.word.trans (hc.word_eq.trans ?_)
    simp [Cell.word]
  · have hload := Memory.load_store_inside m (c.place b + recordHeaderSize) c.data.length pos
      (bytes.take (c.data.length - pos))
    rw [hc.load_eq hd, Bytes.overlay_take] at hload
    simp only [Bytes.length_overlay]
    exact hload
  · intro hpad
    exact absurd (hc.padding_discarded hpad) (by simp [hw])
  · simp only [headerSpan] at hlo
    omega

/-- The final word of a record. -/
theorem publish (h : b.Lays m (pre ++ c :: post)) (hw : c.phase = .writing) (discard : Bool) :
    b.Lays (b.publish ⟨c.pos % b.capacity, c.data.length⟩ discard m)
      (pre ++ { c with phase := if discard then .discarded else .committed } :: post) := by
  have hc := h.stored c (by simp)
  have hoff := h.offset_le_place c
  have hext := c.extent_pos
  have hagree {lo n : Nat} (hr : lo + n ≤ c.place b ∨ c.place b + 4 ≤ lo) :
      m.Agrees (b.publish ⟨c.pos % b.capacity, c.data.length⟩ discard m) lo n :=
    Memory.agrees_setWord hr
  refine h.replace rfl rfl ⟨hc.length_le, ?_, fun hd => ?_, fun hp => ?_⟩
    (fun lo n hlo => hagree ?_) (fun lo n hlo hd => hagree ?_)
  · apply (Memory.word_setWord_same ..).trans
    have hl := hc.length_le
    have hrange : Bytes.wordRange 4 = 0x100000000 := rfl
    simp only [maxWordLength, discardMark] at hl
    cases discard <;> simp [finalWord, Cell.word, Phase.mark, discardMark, hrange] <;> omega
  · refine (hagree ?_).load.trans (hc.load_eq (by simp [hw]))
    right
    exact Nat.add_le_add_left (by decide) _
  · exact absurd (hc.padding_discarded hp) (by simp [hw])
  · simp only [headerSpan] at hlo
    omega
  · omega

/-- The signal and the waiters are not part of the layout. -/
theorem signalled (h : b.Lays m cells) (ha : ∀ lo n, lo + n ≤ 32 ∨ 40 ≤ lo → m.Agrees m' lo n) :
    b.Lays m' cells :=
  h.of_agrees (ha _ _ (by decide)) (produced_of_agrees (ha _ _ (by decide)))
    (consumed_of_agrees (ha _ _ (by decide)))
    fun c _ => ha _ _ (.inr (Nat.le_trans (by decide) (h.offset_le_place c)))

/-- The consumer passes the first record. -/
theorem release (h : b.Lays m (c :: cells)) : b.Lays (setConsumed m (c.pos + c.extent)) cells := by
  have hle := h.tiles.2.2.le
  have hlt := produced_lt m
  have hpos := h.tiles.1
  have hroom := h.room
  have hext := c.extent_mod
  have hal := h.aligned
  have hcons : consumed (setConsumed m (c.pos + c.extent)) = c.pos + c.extent := by
    rw [consumed_setConsumed, Nat.mod_eq_of_lt (by omega)]
  have hagree (lo n : Nat) (hd : lo + n ≤ 256 ∨ 264 ≤ lo) :
      m.Agrees (setConsumed m (c.pos + c.extent)) lo n :=
    Memory.agrees_setWord (by omega)
  constructor
  case regular => exact h.regular
  case described => exact h.described.of_agrees (hagree _ _ (by decide))
  case aligned => omega
  case room =>
    rw [produced_setConsumed, hcons]
    omega
  case tiles =>
    rw [produced_setConsumed, hcons, hpos]
    exact h.tiles.2.2
  case stored =>
    intro d hd
    refine (h.stored d (List.mem_cons_of_mem _ hd)).of_agrees (hagree _ _ ?_)
    have := h.offset_le_place d
    omega

/-- The cursor passes the discarded records at the front and stops behind the last of them. -/
theorem frontFrom (h : b.Lays m cells) {fuel : Nat} (hf : b.used m ≤ fuel) :
    ∃ m', b.Lays m' (cells.dropWhile (·.phase = .discarded)) ∧
      b.frontFrom fuel (consumed m) m =
        (.ok ((cells.dropWhile (·.phase = .discarded)).head?.bind fun c =>
          if c.phase = .committed then some ⟨c.data, c.pos + c.extent⟩ else none), m') := by
  induction cells generalizing m fuel with
  | nil =>
    have he : consumed m = produced m := h.tiles
    refine ⟨m, h, ?_⟩
    cases fuel with
    | zero => rfl
    | succ fuel => simp [Band.frontFrom, he]
  | cons c cs ih =>
    have hc := h.stored c List.mem_cons_self
    have hext := c.extent_pos
    have hle := h.tiles.2.2.le
    have hpos := h.tiles.1
    have hlt := produced_lt m
    unfold Band.used at hf
    obtain ⟨fuel, rfl⟩ : ∃ k, fuel = k + 1 := ⟨fuel - 1, by omega⟩
    have hword : b.recordWord m (consumed m % b.capacity) = c.word := by
      rw [← hpos]
      exact hc.word_eq
    have hnext : consumed m + span (wordLength c.word) = c.pos + c.extent := by
      rw [c.wordLength_word hc.length_le, hpos]
      rfl
    have hin : ¬ produced m ≤ consumed m := by omega
    have hfits : ¬ sizeLimit ≤ c.pos + c.extent := by omega
    simp only [Band.frontFrom, if_neg hin, hword, hnext, if_neg hfits,
      c.isBusy_word hc.length_le, c.isDiscarded_word hc.length_le]
    cases hp : c.phase with
    | writing => exact ⟨m, by simpa [hp] using h, by simp [hp]⟩
    | committed =>
      refine ⟨m, by simpa [hp] using h, ?_⟩
      have hload := hc.load_eq (by simp [hp])
      simp only [Cell.place] at hload
      simp [hp, c.wordLength_word hc.length_le, ← hpos, hload]
    | discarded =>
      have hrel := h.release
      have hcons : consumed (setConsumed m (c.pos + c.extent)) = c.pos + c.extent := by
        rw [consumed_setConsumed, Nat.mod_eq_of_lt (by omega)]
      have hfuel : b.used (setConsumed m (c.pos + c.extent)) ≤ fuel := by
        unfold Band.used
        rw [hcons, produced_setConsumed]
        omega
      obtain ⟨m', hm', he⟩ := ih hrel hfuel
      rw [hcons] at he
      exact ⟨m', by simpa [hp] using hm', by simpa [hp] using he⟩

end Band.Lays

end ChainRelay.Ring
