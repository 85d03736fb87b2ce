import ChainRelay.Channel
import ChainRelay.Proofs.Ring.Queue

/-!
Views of one channel. Whatever view an operation goes through, it does to the channel's memory what
the band does. A channel that was just built is empty, and every view attached to its region finds
the same band.
-/

namespace ChainRelay

open ChainRelay.Ring

namespace Shared

variable (s : Shared)

theorem get_onRegion (region k : Nat) (f : Memory → Memory) :
    (s.onRegion region f).regions.get k =
      if region = k then f (s.regions.get k) else s.regions.get k := Sparse.get_modify ..

@[simp] theorem get_onRegion_same (region : Nat) (f : Memory → Memory) :
    (s.onRegion region f).regions.get region = f (s.regions.get region) := by
  simp [get_onRegion]

theorem answer_withRegion {α : Type} (region : Nat) (f : Memory → α × Memory) :
    (s.withRegion region f).1 = (f (s.regions.get region)).1 := rfl

theorem allocators_withRegion {α : Type} (region : Nat) (f : Memory → α × Memory) :
    (s.withRegion region f).2.allocators = s.allocators := rfl

theorem get_withRegion {α : Type} (region k : Nat) (f : Memory → α × Memory) :
    (s.withRegion region f).2.regions.get k =
      if region = k then (f (s.regions.get k)).2 else s.regions.get k := by
  apply (Sparse.get_set ..).trans
  by_cases h : region = k
  · rw [if_pos h, if_pos h, h]
  · rw [if_neg h, if_neg h]

@[simp] theorem get_withRegion_same {α : Type} (region : Nat) (f : Memory → α × Memory) :
    (s.withRegion region f).2.regions.get region = (f (s.regions.get region)).2 := by
  simp [get_withRegion]

end Shared

namespace Channel

/-- A view of the same band in the same region. -/
structure Views (c v : Channel) : Prop where
  region_eq : v.region = c.region
  band_eq : v.band = c.band

theorem Views.refl (c : Channel) : c.Views c := ⟨rfl, rfl⟩

/-- The reservations that the consumer of a channel has not passed. -/
def Queued (c : Channel) (s : Shared) (q : List Booking) : Prop := c.band.Queued (c.memory s) q

/-- Nothing is on the channel, and nobody is writing to it. -/
def Idle (c : Channel) (s : Shared) : Prop := ∃ q, c.Queued s q ∧ ∀ k ∈ q, k.phase = .discarded

/-- A record of this size would take the channel's cursor out of its range. -/
def Exhausted (c : Channel) (s : Shared) (size : Nat) : Prop :=
  c.band.Exhausted (c.memory s) size

section Operations

variable {c v : Channel} {s : Shared} {q pre post : List Booking} {k : Booking}

theorem Queued.of_memory {s' : Shared} (h : c.Queued s q)
    (he : s'.regions.get c.region = s.regions.get c.region) : c.Queued s' q := by
  unfold Queued memory at *
  rw [he]
  exact h

structure Holds (c : Channel) (r : Reservation) (k : Booking) : Prop where
  view : c.Views r.channel
  slot_eq : r.slot = k.slot

/-- A view reserves in the band of the channel, and hands the slot out as its own. -/
theorem Views.reserve_eq (hv : c.Views v) (size : Nat) (s : Shared) :
    v.reserve size s = ((c.band.reserve size (c.memory s)).1.map fun slot => ⟨v, slot⟩,
      (s.withRegion c.region (c.band.reserve size)).2) := by
  unfold Channel.reserve Channel.memory
  rw [hv.region_eq, hv.band_eq]
  rfl

/-- What a view refuses, the band of the channel refuses. -/
theorem Views.reserve_refused (hv : c.Views v) {size : Nat} {e : ReserveError} {s' : Shared}
    (hr : v.reserve size s = (.error e, s')) :
    c.band.reserve size (c.memory s) = (.error e, c.memory s') := by
  rw [hv.reserve_eq] at hr
  obtain ⟨hanswer, rfl⟩ := Prod.mk.inj hr
  have hmem : c.memory (s.withRegion c.region (c.band.reserve size)).2 =
      (c.band.reserve size (c.memory s)).2 := Shared.get_withRegion_same ..
  refine Prod.ext ?_ hmem.symm
  cases hb : (c.band.reserve size (c.memory s)).1 with
  | ok slot =>
    rw [hb] at hanswer
    cases hanswer
  | error cause =>
    rw [hb] at hanswer
    exact congrArg _ (Except.error.inj hanswer)

theorem Queued.reserve (h : c.Queued s q) (hv : c.Views v) (size : Nat) :
    (∃ k s', v.reserve size s = (.ok ⟨v, k.slot⟩, s') ∧ k.data.length = size ∧
      k.phase = .writing ∧ c.Queued s' (q ++ [k])) ∨
    ∃ e s', v.reserve size s = (.error e, s') ∧ c.Queued s' q ∧
      (e = .overflow → c.Exhausted s size ∧ c.Exhausted s' size) := by
  have hreserve := hv.reserve_eq size s
  have hmem : c.memory (s.withRegion c.region (c.band.reserve size)).2 =
      (c.band.reserve size (c.memory s)).2 := Shared.get_withRegion_same ..
  rcases Band.Queued.reserve h size with ⟨k, m', he, hlen, hw, hq⟩ | ⟨e, m', he, hq, hp, ho⟩
  · rw [he] at hreserve hmem
    exact .inl ⟨k, _, hreserve, hlen, hw, by unfold Queued; rw [hmem]; exact hq⟩
  · rw [he] at hreserve hmem
    refine .inr ⟨e, _, hreserve, by unfold Queued; rw [hmem]; exact hq, fun hover => ⟨ho hover, ?_⟩⟩
    exact (ho hover).of_produced (by rw [hmem]; exact hp)

/-- A request of a size that may be had is refused for want of room, and changes nothing then, or
because the channel is used up. -/
theorem Queued.refused (h : c.Queued s q) (hv : c.Views v) {size : Nat} (hpos : size ≠ 0)
    (hle : size ≤ c.band.longest) {e : ReserveError} {s' : Shared}
    (hr : v.reserve size s = (.error e, s')) :
    (e = .full size (c.band.capacity - c.used s) ∧ c.memory s' = c.memory s ∧
      c.band.capacity < c.used s + (c.band.placement (produced (c.memory s)) size).padding +
        span size) ∨ e = .overflow := by
  obtain ⟨cells, hl, -⟩ := h
  exact hl.reserve_sized hpos hle (hv.reserve_refused hr)

theorem Queued.receive (h : c.Queued s q) (hv : c.Views v) :
    (v.receive s).1 = .ok (Queue.ready? q) ∧ c.Queued (v.receive s).2 (Queue.rest q) := by
  obtain ⟨hr, hb⟩ := hv
  obtain ⟨m', he, hq⟩ := Band.Queued.receive h
  have hreceive : v.receive s = s.withRegion c.region c.band.receive := by
    unfold Channel.receive
    rw [hr, hb]
  have hmem : c.memory (s.withRegion c.region c.band.receive).2 =
      (c.band.receive (c.memory s)).2 := Shared.get_withRegion_same ..
  rw [hreceive]
  constructor
  · rw [Shared.answer_withRegion]
    exact congrArg Prod.fst he
  · unfold Queued
    rw [hmem, he]
    exact hq

theorem get_receive {region : Nat} (h : v.region ≠ region) (s : Shared) :
    (v.receive s).2.regions.get region = s.regions.get region := by
  unfold receive
  rw [Shared.get_withRegion, if_neg h]

theorem allocators_receive (v : Channel) (s : Shared) :
    (v.receive s).2.allocators = s.allocators := by
  unfold receive
  rw [Shared.allocators_withRegion]

theorem tallies_receive (v : Channel) (s : Shared) : (v.receive s).2.tallies = s.tallies := by
  unfold receive Shared.withRegion
  rfl

theorem Queued.length_le_used (h : c.Queued s q) (hv : c.Views v) : q.length ≤ v.used s := by
  unfold used memory
  rw [hv.region_eq, hv.band_eq]
  exact Band.Queued.length_le_used h

theorem queued_onRegion {f : Memory → Memory} (h : c.band.Queued (f (c.memory s)) q) :
    c.Queued (s.onRegion c.region f) q := by
  unfold Queued memory
  rw [Shared.get_onRegion_same]
  exact h

theorem Queued.write {r : Reservation} (h : c.Queued s (pre ++ k :: post)) (hr : c.Holds r k)
    (hw : k.phase = .writing) (pos : Nat) (bytes : Bytes) :
    c.Queued (r.write pos bytes s)
      (pre ++ { k with data := k.data.overlay pos bytes } :: post) := by
  unfold Reservation.write
  rw [hr.view.region_eq, hr.view.band_eq, hr.slot_eq]
  exact queued_onRegion (Band.Queued.write h hw pos bytes)

theorem Queued.commit {r : Reservation} (h : c.Queued s (pre ++ k :: post)) (hr : c.Holds r k)
    (hw : k.phase = .writing) :
    c.Queued (r.commit s) (pre ++ { k with phase := .committed } :: post) := by
  unfold Reservation.commit
  rw [hr.view.region_eq, hr.view.band_eq, hr.slot_eq]
  exact queued_onRegion (Band.Queued.finalize h hw false)

theorem Queued.discard {r : Reservation} (h : c.Queued s (pre ++ k :: post)) (hr : c.Holds r k)
    (hw : k.phase = .writing) :
    c.Queued (r.discard s) (pre ++ { k with phase := .discarded } :: post) := by
  unfold Reservation.discard
  rw [hr.view.region_eq, hr.view.band_eq, hr.slot_eq]
  exact queued_onRegion (Band.Queued.finalize h hw true)

theorem Queued.abandon {r : Reservation} (h : c.Queued s (pre ++ k :: post)) (hr : c.Holds r k)
    (hw : k.phase = .writing) :
    c.Queued (r.abandon s) (pre ++ { k with phase := .discarded } :: post) :=
  Queued.discard (s := s.report _) h hr hw

/-- What the holder of a reservation finds in it. -/
theorem Queued.load_eq {r : Reservation} (h : c.Queued s q) (hk : k ∈ q) (hr : c.Holds r k)
    (hw : k.phase = .writing) :
    (r.channel.memory s).load (r.channel.band.payloadStart r.slot) r.slot.len = k.data := by
  unfold memory
  rw [hr.view.region_eq, hr.view.band_eq, hr.slot_eq]
  exact Band.Queued.load_eq h hk (by simp [hw])

end Operations

end Channel

theorem powerAbove_mod {n k : Nat} (h : 1 <<< k ≤ n) : powerAbove n % (1 <<< k) = 0 := by
  rw [Nat.one_shiftLeft] at h ⊢
  have hle := le_powerAbove n
  unfold powerAbove at hle ⊢
  split at hle
  · rename_i hn
    have hk : 2 ^ k = 1 := Nat.le_antisymm (Nat.le_trans h hn) Nat.one_le_two_pow
    rw [hk, Nat.mod_one]
  · rename_i hn
    rw [if_neg hn, Nat.one_shiftLeft]
    rw [Nat.one_shiftLeft] at hle
    have hke : k ≤ (n - 1).log2 + 1 :=
      (Nat.pow_le_pow_iff_right (by decide)).mp (Nat.le_trans h hle)
    exact Nat.mod_eq_zero_of_dvd (Nat.pow_dvd_pow 2 hke)

/-- A control block that was just written describes an empty band, whatever the region held. -/
theorem Ring.lays_writeHeader {b : Band} (hb : b.Regular) (ho : b.offset = headerSpan)
    (hlt : b.capacity < sizeLimit) (m : Memory) (notify : Bool) :
    b.Lays (writeHeader m b.capacity notify) [] := by
  have hc : consumed (writeHeader m b.capacity notify) = 0 := Memory.word_setWord_same ..
  have hp : produced (writeHeader m b.capacity notify) = 0 := by
    simp only [writeHeader, produced_setConsumed, produced_setProduced, Nat.zero_mod]
  constructor
  case regular => exact hb
  case aligned => rw [hc]
  case room =>
    rw [hc, hp]
    omega
  case tiles => exact hp ▸ hc
  case stored => nofun
  case described =>
    constructor
    case magic_eq =>
      simp (disch := decide) only [storedMagic, writeHeader, setProduced, setConsumed,
        Memory.word_setWord_disjoint, Memory.word_setWord_same]
      decide
    case version_eq =>
      simp (disch := decide) only [storedVersion, writeHeader, setProduced, setConsumed,
        Memory.word_setWord_disjoint, Memory.word_setWord_same]
      decide
    case capacity_eq =>
      simp (disch := decide) only [storedCapacity, writeHeader, setProduced, setConsumed,
        Memory.word_setWord_disjoint, Memory.word_setWord_same]
      exact Nat.mod_eq_of_lt hlt
    case offset_eq =>
      simp (disch := decide) only [storedOffset, writeHeader, setProduced, setConsumed,
        Memory.word_setWord_disjoint, Memory.word_setWord_same, ho]
      decide

namespace Shared

theorem regular_of_bandCapacity {asked capacity : Nat}
    (h : bandCapacity asked = .ok capacity) :
    Band.Regular ⟨headerSpan, capacity⟩ ∧ capacity < sizeLimit := by
  unfold bandCapacity checkedSize at h
  split at h
  · rename_i hlt
    cases h
    have hle := le_powerAbove (max asked minCapacity)
    have hmin : minCapacity ≤ max asked minCapacity := Nat.le_max_right _ _
    refine ⟨⟨Nat.le_trans hmin hle, ?_, Nat.le_refl _⟩, hlt⟩
    exact powerAbove_mod (k := 3) (Nat.le_trans (by decide) hmin)
  · cases h

theorem buildChannel_band {plan : ChannelPlan} {s s' : Shared} {c : Channel}
    (h : s.buildChannel plan = (.ok c, s')) :
    c.band.offset = headerSpan ∧ bandCapacity plan.capacity = .ok c.band.capacity := by
  unfold buildChannel at h
  split at h
  · cases h
  · rename_i capacity hcap
    split at h
    · cases h
    · cases h
      exact ⟨rfl, hcap⟩

theorem buildChannel_queued {plan : ChannelPlan} {s s' : Shared} {c : Channel}
    (h : s.buildChannel plan = (.ok c, s')) : c.Queued s' [] := by
  unfold buildChannel at h
  split at h
  · cases h
  · rename_i capacity hcap
    obtain ⟨hreg, hlt⟩ := regular_of_bandCapacity hcap
    split at h
    · cases h
    · cases h
      apply Channel.queued_onRegion (c := ⟨_, ⟨headerSpan, capacity⟩, _⟩)
      exact ⟨[], lays_writeHeader hreg rfl hlt _ _, rfl⟩

/-- The region of a channel that was just built holds its control block. -/
theorem buildChannel_memory {plan : ChannelPlan} {s s' : Shared} {c : Channel}
    (h : s.buildChannel plan = (.ok c, s')) :
    ∃ m, c.memory s' = writeHeader m c.band.capacity plan.notify := by
  unfold buildChannel at h
  split at h
  · cases h
  · split at h
    · cases h
    · cases h
      exact ⟨_, get_onRegion_same ..⟩

theorem openBand_eq {size : Nat} {m : Memory} {b b' : Band} {cells : List Cell}
    (h : openBand size m = .ok b') (hl : b.Lays m cells) : b' = b := by
  unfold openBand at h
  simp only [hl.described.capacity_eq, hl.described.offset_eq] at h
  split at h
  · cases h
  split at h
  · cases h
  split at h
  · split at h
    · cases h
    split at h
    · cases h
    · cases h
      rfl
  · cases h

/-- Who attaches to the region of a channel finds its band. -/
theorem attachChannel_views {name : String} {s : Shared} {c v : Channel} {q : List Booking}
    (h : s.attachChannel name = .ok v) (hr : v.region = c.region) (hq : c.Queued s q) :
    c.Views v := by
  obtain ⟨cells, hl, -⟩ := hq
  unfold attachChannel at h
  cases hf : s.openFile name headerSpan with
  | error e => simp [hf, bind, Except.bind] at h
  | ok region =>
    cases hb : openBand region.size (s.regions.get region.id) with
    | error e => simp [hf, hb, bind, Except.bind] at h
    | ok b =>
      simp only [hf, hb, bind, Except.bind, pure, Except.pure, Except.ok.injEq] at h
      subst h
      change region.id = c.region at hr
      have hlays : c.band.Lays (s.regions.get region.id) cells := by
        rw [hr]
        exact hl
      exact ⟨hr, openBand_eq hb hlays⟩

end Shared
end ChainRelay
