import Mathlib.Data.List.Forall2
import ChainRelay.Proofs.Ring.Queue

/-!
Two memories of one ring that differ in payload bytes only. Producers do not read payloads: what
they are answered is the same in both, and so is all that they write. The queues of the two memories
are the same but for the bytes that differ.
-/

namespace ChainRelay.Ring

variable {hidden : Nat → Prop} {m m' : Memory}

section Producers

variable (h : m.AgreesOff hidden m') (hlow : ∀ k, hidden k → headerSpan ≤ k)
include h hlow

/-- The control block is not hidden. -/
theorem agrees_control {lo n : Nat} (hn : lo + n ≤ headerSpan) : m.Agrees m' lo n := by
  apply h.agrees
  intro k hk hlt hh
  have := hlow k hh
  omega

theorem produced_hidden : produced m' = produced m :=
  produced_of_agrees (agrees_control h hlow (by decide))

theorem consumed_hidden : consumed m' = consumed m :=
  consumed_of_agrees (agrees_control h hlow (by decide))

namespace Band

variable (b : Band)

theorem place_hidden (size : Nat) : b.place size m' = b.place size m := by
  have hused : b.used m' = b.used m := by
    simp only [used, produced_hidden h hlow, consumed_hidden h hlow]
  have hfree : b.free m' = b.free m := by simp only [free, hused]
  simp only [place, hused, hfree, produced_hidden h hlow]

theorem reserve_hidden (size : Nat) : (b.reserve size m').1 = (b.reserve size m).1 ∧
    (b.reserve size m).2.AgreesOff hidden (b.reserve size m').2 := by
  have hstamp (p : Placement) : (b.stamp p size m).AgreesOff hidden (b.stamp p size m') := by
    unfold stamp
    split
    · exact h.setWord _ _ _
    · exact (h.setWord _ _ _).setWord _ _ _
  simp only [reserve, place_hidden h hlow, produced_hidden h hlow]
  split
  · exact ⟨rfl, h⟩
  · split
    · exact ⟨rfl, hstamp _⟩
    · exact ⟨rfl, (hstamp _).setWord _ _ _⟩

theorem finalize_hidden (s : Slot) (discard : Bool) :
    (b.finalize s discard m).AgreesOff hidden (b.finalize s discard m') := by
  have hp : (b.publish s discard m).AgreesOff hidden (b.publish s discard m') := h.setWord _ _ _
  have hcontrol : (b.publish s discard m).Agrees (b.publish s discard m') 12 4 :=
    agrees_control hp hlow (by decide)
  have hflags : notifies (b.publish s discard m') = notifies (b.publish s discard m) := by
    simp only [notifies, flags, hcontrol.word]
  have hsignal : signal (b.publish s discard m') = signal (b.publish s discard m) :=
    (agrees_control hp hlow (by decide)).word
  simp only [finalize, hflags, announce, setSignal, hsignal]
  split
  · exact hp.setWord _ _ _
  · exact hp

end Band

end Producers

/-- An address in the payload of a slot, behind its first `skip` bytes. -/
def Band.Behind (b : Band) (skip : Nat) (s : Slot) (addr : Nat) : Prop :=
  b.payloadStart s + skip ≤ addr ∧ addr < b.payloadStart s + s.len

/-- What is written behind the first bytes of a slot is hidden there. -/
theorem Band.write_hidden {b : Band} {skip : Nat} {s : Slot} {bytes bytes' : Bytes}
    (h : m.AgreesOff hidden m') (hs : ∀ k, b.Behind skip s k → hidden k)
    (hlen : bytes'.length = bytes.length) :
    (b.write s skip bytes m).AgreesOff hidden (b.write s skip bytes' m') := by
  apply h.store_hidden
  · simp only [cut, List.length_take, hlen]
  · intro k hk hlt
    simp only [cut, List.length_take] at hlt
    exact hs k ⟨hk, by omega⟩

/-- The same reservation as far as its first bytes go. -/
structure Booking.SameHead (skip : Nat) (k k' : Booking) : Prop where
  record_eq : k'.record = k.record
  phase_eq : k'.phase = k.phase
  length_eq : k'.data.length = k.data.length
  head_eq : k.phase ≠ .discarded → k'.data.take skip = k.data.take skip

def Cell.reload (b : Band) (m : Memory) (c : Cell) : Cell :=
  { c with data := m.load (c.place b + recordHeaderSize) c.data.length }

def Booking.reload (b : Band) (m : Memory) (k : Booking) : Booking :=
  { k with data := m.load (b.payloadStart k.slot) k.data.length }

theorem booking?_reload (b : Band) (m : Memory) (c : Cell) :
    (c.reload b m).booking? b = (c.booking? b).map (Booking.reload b m) := by
  cases hp : c.padding <;> simp [Cell.booking?, Cell.reload, Booking.reload, hp, Booking.slot,
    Band.payloadStart, Cell.place]

theorem tiles_reload {b : Band} (m : Memory) {lo hi : Nat} {cells : List Cell}
    (h : Tiles b lo cells hi) : Tiles b lo (cells.map (Cell.reload b m)) hi := by
  induction cells generalizing lo with
  | nil => exact h
  | cons c cells ih =>
    have hext : (c.reload b m).extent = c.extent := by simp [Cell.extent, Cell.reload]
    obtain ⟨hpos, hfit, hrest⟩ := h
    refine ⟨hpos, by rwa [hext], ?_⟩
    rw [hext]
    exact ih hrest

namespace Band.Lays

variable {b : Band} {front back : List Cell}

/-- A memory with the same control block, the same records in front, and behind them records that
begin with the same words. -/
theorem reload (h : b.Lays m (front ++ back)) (hc : m.Agrees m' 0 headerSpan)
    (hfront : ∀ c ∈ front, m.Agrees m' (c.place b) c.extent)
    (hback : ∀ c ∈ back, m.Agrees m' (c.place b) 4) :
    b.Lays m' (front ++ back.map (Cell.reload b m')) := by
  have hprod : produced m' = produced m :=
    produced_of_agrees (hc.mono (Nat.zero_le _) (by decide))
  have hcons : consumed m' = consumed m :=
    consumed_of_agrees (hc.mono (Nat.zero_le _) (by decide))
  constructor
  case regular => exact h.regular
  case described => exact h.described.of_agrees (hc.mono (Nat.le_refl _) (by decide))
  case aligned =>
    rw [hcons]
    exact h.aligned
  case room =>
    rw [hprod, hcons]
    exact h.room
  case tiles =>
    rw [hprod, hcons]
    obtain ⟨mid, hf, hb⟩ := tiles_append.mp h.tiles
    exact tiles_append.mpr ⟨mid, hf, tiles_reload m' hb⟩
  case stored =>
    intro c hmem
    rcases List.mem_append.mp hmem with hmem | hmem
    · exact (h.stored c (List.mem_append_left _ hmem)).of_agrees (hfront c hmem)
    · obtain ⟨d, hd, rfl⟩ := List.mem_map.mp hmem
      have hs := h.stored d (List.mem_append_right _ hd)
      refine ⟨by simpa [Cell.reload] using hs.length_le, ?_, fun _ => ?_, hs.padding_discarded⟩
      · have hword : (d.reload b m').word = d.word := by simp [Cell.word, Cell.reload]
        rw [hword, ← hs.word_eq]
        exact (hback d hd).word
      · simp [Cell.reload, Cell.place]

end Band.Lays

/-- Behind the reservations that the two memories share, those in which bytes are hidden have the
same places and the same first bytes. -/
theorem Band.Queued.reload {b : Band} {skip : Nat} {past more : List Booking}
    (h : b.Queued m (past ++ more))
    (ha : m.AgreesOff (fun k => ∃ s ∈ more.map (·.slot), b.Behind skip s k) m') :
    ∃ more', b.Queued m' (past ++ more') ∧ List.Forall₂ (Booking.SameHead skip) more more' := by
  obtain ⟨cells, hl, hq⟩ := h
  obtain ⟨front, back, rfl, rfl, rfl⟩ := List.filterMap_eq_append_iff.mp hq
  obtain ⟨-, hpair, hacross⟩ := List.pairwise_append.mp hl.apart
  -- a hidden byte lies in a record of the back, behind its first bytes
  have howner {k : Nat} (hk : ∃ s ∈ (back.filterMap (Cell.booking? b)).map (·.slot),
      b.Behind skip s k) : ∃ c ∈ back, c.place b + recordHeaderSize + skip ≤ k ∧
        k < c.place b + c.extent := by
    obtain ⟨s, hs, hlo, hhi⟩ := hk
    obtain ⟨k', hk', rfl⟩ := List.mem_map.mp hs
    obtain ⟨c, hc, hbook⟩ := List.mem_filterMap.mp hk'
    simp only [Cell.booking?, Option.ite_none_left_eq_some, Option.some.injEq] at hbook
    obtain ⟨-, rfl⟩ := hbook
    have hext := c.length_lt_extent
    simp only [Band.payloadStart, Booking.slot] at hlo hhi
    exact ⟨c, hc, by unfold Cell.place; omega, by unfold Cell.place; omega⟩
  have hcontrol : m.Agrees m' 0 headerSpan := by
    apply ha.agrees
    intro k _ hlt hk
    obtain ⟨c, -, hlo, -⟩ := howner hk
    have := hl.offset_le_place c
    simp only [headerSpan] at hlt
    omega
  have hfront : ∀ c ∈ front, m.Agrees m' (c.place b) c.extent := by
    intro c hc
    apply ha.agrees
    intro k hlo hhi hk
    obtain ⟨d, hd, hlo', hhi'⟩ := howner hk
    rcases hacross c hc d hd with hap | hap <;> omega
  have hback : ∀ c ∈ back, ∀ n, n ≤ c.extent → n ≤ recordHeaderSize + skip →
      m.Agrees m' (c.place b) n := by
    intro c hc n hext hskip
    apply ha.agrees
    intro k hlo hhi hk
    obtain ⟨d, hd, hlo', hhi'⟩ := howner hk
    obtain ⟨pre, post, rfl⟩ := List.append_of_mem hc
    have hcases : d = c ∨ d ∈ pre ++ post := by
      simp only [List.mem_append, List.mem_cons] at hd ⊢
      tauto
    rcases hcases with rfl | hd
    · omega
    · rcases Cell.apart_of_mem hpair hd with hap | hap <;> omega
  refine ⟨(back.filterMap (Cell.booking? b)).map (Booking.reload b m'), ⟨_, hl.reload hcontrol
    hfront fun c hc => hback c hc 4 (Nat.le_trans (by decide) c.extent_pos) ?_, ?_⟩, ?_⟩
  · simp only [recordHeaderSize]
    omega
  · rw [List.filterMap_append, List.filterMap_map, List.map_filterMap]
    congr 2
    funext c
    exact booking?_reload b m' c
  · rw [List.forall₂_map_right_iff, List.forall₂_same]
    intro k hk
    obtain ⟨c, hc, hbook⟩ := List.mem_filterMap.mp hk
    simp only [Cell.booking?, Option.ite_none_left_eq_some, Option.some.injEq] at hbook
    obtain ⟨-, rfl⟩ := hbook
    refine ⟨rfl, rfl, by simp [Booking.reload], fun hlive => ?_⟩
    have hstored := hl.stored c (List.mem_append_right _ hc)
    have hext := c.length_lt_extent
    have hhead : m.Agrees m' (c.place b + recordHeaderSize) (min skip c.data.length) :=
      (hback c hc (recordHeaderSize + min skip c.data.length) (by omega) (by omega)).mono
        (Nat.le_add_right _ _) (by omega)
    calc
      (m'.load (c.place b + recordHeaderSize) c.data.length).take skip
        = m'.load (c.place b + recordHeaderSize) (min skip c.data.length) := Memory.take_load ..
      _ = m.load (c.place b + recordHeaderSize) (min skip c.data.length) := hhead.load
      _ = (m.load (c.place b + recordHeaderSize) c.data.length).take skip :=
        (Memory.take_load ..).symm
      _ = c.data.take skip := by rw [hstored.load_eq hlive]

end ChainRelay.Ring
