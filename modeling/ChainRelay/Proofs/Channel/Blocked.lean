import ChainRelay.Proofs.Channel.Refill

/-!
What a consumer waits for. It gets nothing from a channel that is not empty when a reservation is
still being written and no committed record stands before it (`Ledger.Blocked`). A channel calls
itself blocked by the one record at the cursor, and so it does not see a reservation that is being
written behind discarded records or padding (`Band.SkipsFirst`); a consumer that got nothing has
passed these, and then the channel tells (`Traffic.blocked_channel_waits_for_its_writer`).
-/

namespace ChainRelay

open ChainRelay.Ring

namespace Ring.Band

/-- The consumer will pass the record at its cursor: it was discarded, or it is padding. -/
def SkipsFirst (b : Band) (m : Memory) : Prop :=
  consumed m < produced m ∧ isDiscarded (b.recordWord m (consumed m % b.capacity)) = true

variable {b : Band} {m : Memory} {cells : List Cell} {q : List Booking}

theorem Lays.recordWord_consumed {c : Cell} (h : b.Lays m (c :: cells)) :
    consumed m < produced m ∧ b.recordWord m (consumed m % b.capacity) = c.word := by
  have hle := h.tiles.2.2.le
  have hpos := c.extent_pos
  refine ⟨by omega, ?_⟩
  rw [← h.tiles.1]
  exact (h.stored c List.mem_cons_self).word_eq

theorem Lays.skipsFirst_iff (h : b.Lays m cells) :
    b.SkipsFirst m ↔ ∃ c ∈ cells.head?, c.phase = .discarded := by
  cases cells with
  | nil =>
    have he : consumed m = produced m := h.tiles
    simp [SkipsFirst, he]
  | cons c cells =>
    obtain ⟨hlt, hword⟩ := h.recordWord_consumed
    have hlen := (h.stored c List.mem_cons_self).length_le
    simp [SkipsFirst, hlt, hword, c.isDiscarded_word hlen]

theorem Lays.isBlocked_iff (h : b.Lays m cells) :
    b.isBlocked m = true ↔ ∃ c ∈ cells.head?, c.phase = .writing := by
  cases cells with
  | nil =>
    have he : consumed m = produced m := h.tiles
    simp [isBlocked, he]
  | cons c cells =>
    obtain ⟨hlt, hword⟩ := h.recordWord_consumed
    have hlen := (h.stored c List.mem_cons_self).length_le
    simp [isBlocked, hlt, hword, c.isBusy_word hlen]

/-- A band is blocked when the consumer would get nothing though a reservation is being written, and
the record at the cursor is not one that it passes. -/
theorem Queued.isBlocked_iff (h : b.Queued m q) :
    b.isBlocked m = true ↔
      (Queue.ready? q = none ∧ ∃ k ∈ q, k.phase = .writing) ∧ ¬b.SkipsFirst m := by
  obtain ⟨cells, hl, rfl⟩ := h
  rw [hl.isBlocked_iff, hl.skipsFirst_iff]
  cases cells with
  | nil => simp
  | cons c cells =>
    cases hp : c.phase with
    | discarded => simp [hp]
    | writing | committed =>
      have hpad : c.padding = false := Bool.eq_false_iff.mpr fun he => by
        have hgone := (hl.stored c List.mem_cons_self).padding_discarded he
        rw [hp] at hgone
        cases hgone
      simp [Cell.booking?, hpad, Queue.ready?, hp]

/-- A consumer that got nothing has passed all that it could. -/
theorem Queued.not_skipsFirst (h : b.Queued m q) (hnone : Queue.ready? q = none) :
    ¬b.SkipsFirst (b.receive m).2 := by
  obtain ⟨cells, hl, rfl⟩ := h
  obtain ⟨m', hm', hf⟩ := hl.frontFrom (Nat.le_refl _)
  change b.front m = _ at hf
  have hfront := queue_front b cells fun c hc => (hl.stored c hc).padding_discarded
  -- The cell behind all that the consumer passes is not ready, so it is no padding either.
  have hhead : ∀ c ∈ (cells.dropWhile (·.phase = .discarded)).head?, c.phase = .writing := by
    intro c hc
    obtain ⟨rest, hd⟩ := List.head?_eq_some_iff.mp hc
    rw [hd, hnone] at hfront
    rcases hfront with ⟨-, hr, -⟩ | ⟨hp, -, -⟩
    · cases hr
    · exact hp
  have hreceive : (b.receive m).2 = m' := by
    cases hd : (cells.dropWhile (·.phase = .discarded)).head? with
    | none => simp [Band.receive, hf, hd]
    | some c => simp [Band.receive, hf, hd, hhead c hd]
  rw [hreceive, hm'.skipsFirst_iff]
  rintro ⟨c, hc, hp⟩
  rw [hhead c hc] at hp
  cases hp

/-- What is being written is still there when the consumer has got nothing. -/
theorem Queued.isBlocked_receive (h : b.Queued m q) (hnone : Queue.ready? q = none) :
    b.isBlocked (b.receive m).2 = true ↔ ∃ k ∈ q, k.phase = .writing := by
  obtain ⟨m', hr, hq⟩ := h.receive
  have hskips := h.not_skipsFirst hnone
  rw [hr] at hskips ⊢
  rw [hq.isBlocked_iff]
  constructor
  · rintro ⟨⟨-, k, hk, hw⟩, -⟩
    exact ⟨k, (Queue.rest_suffix q).subset hk, hw⟩
  · rintro ⟨k, hk, hw⟩
    exact ⟨⟨Queue.ready?_rest hnone, k, Queue.mem_rest hk hw, hw⟩, hskips⟩

end Ring.Band

def Channel.SkipsFirst (c : Channel) (s : Shared) : Prop := c.band.SkipsFirst (c.memory s)

namespace Ledger

/-- A reservation is being written, and no committed record that waits to be received is before
it. -/
def Blocked (l : Ledger) : Prop :=
  ∃ before data after, l = before ++ ⟨data, .writing⟩ :: after ∧ ∀ e ∈ before, e.fate ≠ .committed

theorem exists_open_iff {l : Ledger} :
    (∃ ticket, l.Open ticket) ↔ ∃ e ∈ l, e.fate = .writing := by
  constructor
  · rintro ⟨ticket, data, h⟩
    exact ⟨_, List.mem_of_getElem? h, rfl⟩
  · rintro ⟨⟨data, fate⟩, he, rfl⟩
    obtain ⟨ticket, h⟩ := List.getElem?_of_mem he
    exact ⟨ticket, data, h⟩

theorem blocked_cons {e : Entry} {l : Ledger} :
    Blocked (e :: l) ↔ e.fate = .writing ∨ e.fate ≠ .committed ∧ Blocked l := by
  constructor
  · rintro ⟨before, data, after, he, hbefore⟩
    cases before with
    | nil =>
      obtain ⟨rfl, -⟩ := List.cons.inj he
      exact .inl rfl
    | cons d before =>
      obtain ⟨rfl, rfl⟩ := List.cons.inj he
      obtain ⟨hd, hbefore⟩ := List.forall_mem_cons.mp hbefore
      exact .inr ⟨hd, before, data, after, rfl, hbefore⟩
  · rintro (hw | ⟨hd, before, data, after, rfl, hbefore⟩)
    · exact ⟨[], e.data, l, by rw [← hw]; rfl, nofun⟩
    · exact ⟨e :: before, data, after, rfl, List.forall_mem_cons.mpr ⟨hd, hbefore⟩⟩

/-- A consumer has to wait when it gets nothing and something is being written. -/
theorem blocked_iff {l : Ledger} :
    l.Blocked ↔ l.front? = none ∧ ∃ e ∈ l, e.fate = .writing := by
  induction l with
  | nil => simp [Blocked]
  | cons e l ih => cases hf : e.fate <;> simp [blocked_cons, front?, hf, ih]

end Ledger

namespace Traffic

variable {c v : Channel} {t : Traffic} {l past : Ledger} {q : List Booking}

theorem Tracks.blocked_iff (h : Tracks c t l past q) :
    l.Blocked ↔ Queue.ready? q = none ∧ ∃ k ∈ q, k.phase = .writing := by
  have hpast : ∀ e ∈ past, e.fate ≠ .writing := fun e he hw => by
    rcases h.settled e he with hf | hf <;> rw [hw] at hf <;> cases hf
  have hqueue : (∃ e ∈ Ledger.ofQueue q, e.fate = .writing) ↔ ∃ k ∈ q, k.phase = .writing := by
    simp only [List.mem_map, exists_exists_and_eq_and]
    refine exists_congr fun k => and_congr_right fun _ => ?_
    cases hp : k.phase <;> simp [Entry.ofBooking, hp]
  rw [Ledger.blocked_iff, h.ledger_eq, Ledger.front?_append h.settled, Ledger.front?_ofQueue,
    ← hqueue]
  refine and_congr_right fun _ => ?_
  simp only [List.mem_append, or_and_right, exists_or]
  refine or_iff_right ?_
  rintro ⟨e, he, hw⟩
  exact hpast e he hw

/-- At any time the consumer has to wait for a writer just when it would get nothing while a
reservation is being written. The channel then says that it is blocked, unless the record at the
cursor is one that the consumer passes, and says it in no other state; once the consumer got
nothing, there is no such record, and the answer is the right one. -/
theorem blocked_channel_waits_for_its_writer {plan : ChannelPlan} {s₀ s₁ : Shared}
    {events : List ChannelEvent} (hb : s₀.buildChannel plan = (.ok c, s₁))
    (hr : Run c ⟨s₁, [c], []⟩ events t) (hv : v ∈ t.views) :
    ((Ledger.after [] events).Blocked ↔
      (v.receive t.shared).1 = .ok none ∧ ∃ ticket, (Ledger.after [] events).Open ticket) ∧
    (v.isBlocked t.shared = true ↔
      (Ledger.after [] events).Blocked ∧ ¬v.SkipsFirst t.shared) ∧
    ((v.receive t.shared).1 = .ok none →
      (v.isBlocked (v.receive t.shared).2 = true ↔ (Ledger.after [] events).Blocked)) := by
  obtain ⟨-, past, q, ht⟩ := run_tracks (built_tracks hb) hr
  have hview := ht.views v hv
  obtain ⟨hanswer, -⟩ := ht.queued.receive hview
  have hmem := hview.memory_receive t.shared
  have hblocked := ht.blocked_iff
  refine ⟨?_, ?_, fun hnone => ?_⟩
  · rw [Ledger.exists_open_iff, (ht.receive hv).1, Except.ok.injEq]
    exact Ledger.blocked_iff
  · rw [hblocked]
    unfold Channel.isBlocked Channel.SkipsFirst Channel.memory
    rw [hview.region_eq, hview.band_eq]
    exact Band.Queued.isBlocked_iff ht.queued
  · have hnone : Queue.ready? q = none := Except.ok.inj (hanswer.symm.trans hnone)
    have hband := Band.Queued.isBlocked_receive ht.queued hnone
    rw [← hmem] at hband
    rw [hblocked, and_iff_right hnone, ← hband]
    unfold Channel.isBlocked Channel.memory
    rw [hview.region_eq, hview.band_eq]

def secondWrites : Traffic where
  shared := (⟨firstChannel, ⟨0, 8⟩⟩ : Reservation).discard
    (firstChannel.reserve 8 (firstChannel.reserve 8 firstShared).2).2
  views := [firstChannel]
  handed := [none, some ⟨firstChannel, ⟨16, 8⟩⟩]

/-- What is being written stands behind a discarded record: the channel does not say that it is
blocked before a consumer has looked for a record, and says it then. -/
theorem blocked_channel_waits_for_its_writer_of_second :
    ∃ events, Run firstChannel ⟨firstShared, [firstChannel], []⟩ events secondWrites ∧
      (Ledger.after [] events).Blocked ∧ firstChannel.isBlocked secondWrites.shared = false ∧
      firstChannel.SkipsFirst secondWrites.shared ∧
      firstChannel.isBlocked (firstChannel.receive secondWrites.shared).2 = true := by
  have h₁ : firstChannel.reserve 8 firstShared =
    (.ok ⟨firstChannel, ⟨0, 8⟩⟩, (firstChannel.reserve 8 firstShared).2) := rfl
  have h₂ : firstChannel.reserve 8 (firstChannel.reserve 8 firstShared).2 =
    (.ok ⟨firstChannel, ⟨16, 8⟩⟩,
      (firstChannel.reserve 8 (firstChannel.reserve 8 firstShared).2).2) := rfl
  have hr : Run firstChannel ⟨firstShared, [firstChannel], []⟩ _ secondWrites :=
    .cons (.reserve List.mem_cons_self h₁)
    (.cons (.reserve List.mem_cons_self h₂)
    (.cons (.discard 0 rfl) .nil))
  obtain ⟨hwaits, hblocked, hafter⟩ :=
    blocked_channel_waits_for_its_writer buildChannel_first hr List.mem_cons_self
  have hnone : (firstChannel.receive secondWrites.shared).1 = .ok none := rfl
  have hnot : firstChannel.isBlocked secondWrites.shared = false := rfl
  have hblocks := hwaits.mpr ⟨hnone, 1, _, rfl⟩
  refine ⟨_, hr, hblocks, hnot, ?_, (hafter hnone).mpr hblocks⟩
  refine Classical.byContradiction fun hskips => ?_
  rw [hblocked.mpr ⟨hblocks, hskips⟩] at hnot
  cases hnot

end Traffic
end ChainRelay
