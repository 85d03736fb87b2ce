import Mathlib.Data.List.Forall2
import ChainRelay.Proofs.Allocator.Issue
import ChainRelay.Proofs.Channel.View
import ChainRelay.Proofs.Copy.Trail

/-!
What the operations of a copy do to the channel's queue and to the counters. A part in hand is a
reservation that is being written; committing it makes it a record that decodes.
-/

namespace ChainRelay

open ChainRelay.Ring

namespace Op

def region? : Op → Option Nat
  | openChunk w _ => some w.channel.region
  | fillChunk c _ | commitChunk c | abandonChunk c => some c.reservation.channel.region
  | reserve channel _ => some channel.region
  | commitRecord r _ => some r.channel.region
  | count .. | report _ => none

end Op

namespace Shared

variable {w : Writer} {c : SizeClass} {s : Shared}

theorem openChunk_eq (w : Writer) (c : SizeClass) (s : Shared) :
    match w.channel.reserve c.totalSize s with
    | (.ok reservation, s') => s.openChunk w c =
        (.ok ⟨reservation, { code := c.code, id := (s'.allocateId w.ids w.shard).1 },
          c.payloadCapacity, w.tally⟩, (s'.allocateId w.ids w.shard).2)
    | (.error e, s') => ∃ s'', s.openChunk w c = (.error e, s'') ∧ s''.regions = s'.regions ∧
        s''.allocators = s'.allocators := by
  unfold openChunk
  cases h : w.channel.reserve c.totalSize s with
  | mk answer s' =>
    match answer with
    | .ok reservation => rfl
    | .error (.full requested available) => exact ⟨_, rfl, rfl, rfl⟩
    | .error (.invalidSize size max) => exact ⟨_, rfl, rfl, rfl⟩
    | .error .overflow => exact ⟨_, rfl, rfl, rfl⟩

theorem allocators_reserve (v : Channel) (size : Nat) (s : Shared) :
    (v.reserve size s).2.allocators = s.allocators := rfl

end Shared

/-- Operations answer as they may. -/
theorem Op.answers_perform (op : Op) (s : Shared) : op.Answers (op.perform s).1 := by
  cases op with
  | openChunk w c =>
    have h := Shared.openChunk_eq w c s
    simp only [Op.perform]
    cases hr : w.channel.reserve c.totalSize s with
    | mk answer s' =>
      rw [hr] at h
      cases answer with
      | ok reservation =>
        dsimp only at h
        rw [h]
        exact ⟨rfl, rfl, rfl, Allocator.shard_allocate .., Allocator.allocate_ne_none _ _⟩
      | error e =>
        obtain ⟨s'', h, -⟩ := h
        rw [h]
        trivial
  | fillChunk | commitChunk | abandonChunk | reserve | commitRecord | count | report => trivial

/-- Other regions are left alone. -/
theorem Op.get_perform (op : Op) {k : Nat} (h : op.region? ≠ some k) (s : Shared) :
    (op.perform s).2.regions.get k = s.regions.get k := by
  have hon {region : Nat} (hr : region ≠ k) (s : Shared) (f : Memory → Memory) :
      (s.onRegion region f).regions.get k = s.regions.get k := by
    rw [Shared.get_onRegion, if_neg hr]
  have hreserve {v : Channel} (hr : v.region ≠ k) (size : Nat) :
      (v.reserve size s).2.regions.get k = s.regions.get k := by
    apply (Shared.get_withRegion s v.region k (v.band.reserve size)).trans
    rw [if_neg hr]
  cases op with
  | openChunk w c =>
    have hr : w.channel.region ≠ k := fun he => h (congrArg some he)
    have ho := Shared.openChunk_eq w c s
    have hres := hreserve hr c.totalSize
    simp only [Op.perform]
    cases hw : w.channel.reserve c.totalSize s with
    | mk answer s' =>
      rw [hw] at ho hres
      cases answer with
      | ok reservation =>
        dsimp only at ho
        rw [ho]
        exact hres
      | error e =>
        obtain ⟨s'', ho, hregions, -⟩ := ho
        rw [ho]
        dsimp only
        rw [hregions]
        exact hres
  | fillChunk c data => exact hon (fun he => h (congrArg some he)) _ _
  | commitChunk c =>
    have hr : c.reservation.channel.region ≠ k := fun he => h (congrArg some he)
    exact (hon hr _ _).trans (hon hr _ _)
  | abandonChunk c => exact hon (fun he => h (congrArg some he)) _ _
  | reserve channel size => exact hreserve (fun he => h (congrArg some he)) size
  | commitRecord r record =>
    have hr : r.channel.region ≠ k := fun he => h (congrArg some he)
    exact (hon hr _ _).trans (hon hr _ _)
  | count | report => rfl

namespace Activity

variable {α β : Type} {s : Shared}

/-- Nothing is refused in a run from here. -/
def Granted : Activity α → Shared → Prop
  | .done _, _ | .abort, _ => True
  | .step op next, s =>
    op.Grants (op.perform s).1 ∧ (next (op.perform s).1).Granted (op.perform s).2

instance decidableGranted : (a : Activity α) → (s : Shared) → Decidable (a.Granted s)
  | .done _, _ | .abort, _ => .isTrue trivial
  | .step op next, s =>
    have := decidableGranted (next (op.perform s).1) (op.perform s).2
    inferInstanceAs (Decidable (op.Grants (op.perform s).1 ∧
      (next (op.perform s).1).Granted (op.perform s).2))

theorem granted_bind {a : Activity α} {f : α → Activity β} (h : (a >>= f).Granted s) :
    a.Granted s ∧ ∀ x s', a.run s = (.ok x, s') → (f x).Granted s' := by
  change (Activity.bind a f).Granted s at h
  induction a generalizing s with
  | done a =>
    refine ⟨trivial, fun x s' hrun => ?_⟩
    cases hrun
    exact h
  | abort =>
    refine ⟨trivial, fun x s' hrun => ?_⟩
    cases hrun
  | step op next ih =>
    obtain ⟨hgrants, hnext⟩ := h
    obtain ⟨hrest, hthen⟩ := ih _ hnext
    exact ⟨⟨hgrants, hrest⟩, hthen⟩

/-- Going on after a run that gave a result. -/
theorem run_bind_ok {a : Activity α} {x : α} {s' : Shared} (h : a.run s = (.ok x, s'))
    (f : α → Activity β) : (a >>= f).run s = (f x).run s' := by
  rw [run_bind, h]

end Activity

namespace Copy

theorem forall₂_snoc {α β : Type} {R : α → β → Prop} {l : List α} {a : α} {u : List β}
    (h : List.Forall₂ R (l ++ [a]) u) : ∃ u' b, u = u' ++ [b] ∧ List.Forall₂ R l u' ∧ R a b := by
  induction l generalizing u with
  | nil =>
    obtain ⟨b, u, hab, hnil, rfl⟩ := List.forall₂_cons_left_iff.mp h
    cases hnil
    exact ⟨[], b, rfl, .nil, hab⟩
  | cons x l ih =>
    obtain ⟨b, u, hxb, hrest, rfl⟩ := List.forall₂_cons_left_iff.mp h
    obtain ⟨u', d, rfl, hl, had⟩ := ih hrest
    exact ⟨b :: u', d, rfl, .cons hxb hl, had⟩

theorem forall₂_mem {α β : Type} {R : α → β → Prop} {l : List α} {u : List β}
    (h : List.Forall₂ R l u) {a : α} (ha : a ∈ l) : ∃ b ∈ u, R a b := by
  induction h with
  | nil => cases ha
  | cons hxb _ ih =>
    rcases List.mem_cons.mp ha with rfl | ha
    · exact ⟨_, List.mem_cons_self, hxb⟩
    · obtain ⟨b, hb, hab⟩ := ih ha
      exact ⟨b, List.mem_cons_of_mem _ hb, hab⟩

structure Part.Booked (c : Channel) (size : SizeClass) (p : Part) (k : Booking) : Prop where
  holds : c.Holds p.chunk.reservation k
  writing : k.phase = .writing
  length_eq : k.data.length = size.totalSize
  payload_eq : k.data.slice chunkHeaderSize p.data.length = p.data

/-- A committed record that decodes. -/
structure Carries (k : Booking) (v : ChunkView) : Prop where
  committed : k.phase = .committed
  decodes : decodeChunk k.data = .ok v

end Copy

namespace Channel.Queued

variable {c : Channel} {w : Writer} {size : SizeClass} {s : Shared} {q pre post : List Booking}
  {k : Booking} {p : Copy.Part}

/-- An opened chunk has the reservation behind all others and the next identifier; without a
reservation no identifier is taken. -/
theorem openChunk (h : c.Queued s q) (hv : c.Views w.channel) (size : SizeClass) :
    (∃ k chunk s', s.openChunk w size = (.ok chunk, s') ∧
      Copy.Part.Booked c size ⟨chunk, []⟩ k ∧ c.Queued s' (q ++ [k]) ∧
      chunk.id = ((s.allocators.get w.ids).allocate w.shard).1 ∧
      s'.allocators = s.allocators.set w.ids ((s.allocators.get w.ids).allocate w.shard).2) ∨
    ∃ e s', s.openChunk w size = (.error e, s') ∧ c.Queued s' q ∧ s'.allocators = s.allocators ∧
      (e = .overflow → c.Exhausted s' size.totalSize) := by
  have ho := Shared.openChunk_eq w size s
  have ha := Shared.allocators_reserve w.channel size.totalSize s
  rcases h.reserve hv size.totalSize with ⟨k, s', he, hlen, hw, hq⟩ | ⟨e, s', he, hq, hover⟩
  · rw [he] at ho ha
    dsimp only at ho ha
    refine .inl ⟨k, _, _, ho, ⟨⟨hv, rfl⟩, hw, hlen, rfl⟩, hq.of_memory rfl, ?_, ?_⟩
    · show ((s'.allocators.get w.ids).allocate w.shard).1 = _
      rw [ha]
    · show s'.allocators.set w.ids ((s'.allocators.get w.ids).allocate w.shard).2 = _
      rw [ha]
  · rw [he] at ho ha
    obtain ⟨s'', ho, hregions, halloc⟩ := ho
    dsimp only at ha
    refine .inr ⟨e, s'', ho, hq.of_memory (by rw [hregions]), by rw [halloc, ha], fun hz => ?_⟩
    have hex := (hover hz).2
    unfold Exhausted memory at hex ⊢
    rw [hregions]
    exact hex

/-- Filling a chunk writes its payload area. -/
theorem fillChunk {chunk : OpenChunk} {data : Bytes} (h : c.Queued s (pre ++ k :: post))
    (hb : Copy.Part.Booked c size ⟨chunk, []⟩ k) (hcap : chunk.capacity = size.payloadCapacity)
    (hle : data.length ≤ size.payloadCapacity) :
    ∃ k', k'.slot = k.slot ∧ Copy.Part.Booked c size ⟨chunk.filled data, data⟩ k' ∧
      c.Queued (s.fillChunk chunk data) (pre ++ k' :: post) := by
  have hstored : chunk.stored data = data :=
    List.take_of_length_le (by rw [hcap]; exact hle)
  have hroom : chunkHeaderSize + data.length ≤ k.data.length := by
    rw [hb.length_eq, ← size.headerSize_add_payloadCapacity]
    omega
  refine ⟨{ k with data := k.data.overlay chunkHeaderSize (chunk.stored data) }, ?_,
    ⟨⟨hb.holds.view, ?_⟩, hb.writing, ?_, ?_⟩, h.write hb.holds hb.writing _ _⟩
  · simp [Booking.slot]
  · apply hb.holds.slot_eq.trans
    simp [Booking.slot]
  · simpa using hb.length_eq
  · show (k.data.overlay chunkHeaderSize (chunk.stored data)).slice _ _ = data
    rw [hstored, Bytes.slice_overlay hroom]

/-- Committing a part makes it a record that decodes to the part. -/
theorem commitChunk {r : Copy.Request} (h : c.Queued s (pre ++ k :: post))
    (hb : p.Booked c r.sizeClass k) (hm : p.Made r) (hvalid : r.sizeClass.isValid = true)
    (hle : p.data.length ≤ r.room) (next : ChunkId) :
    ∃ k', k'.slot = k.slot ∧ Copy.Carries k' (p.view r.sizeClass next) ∧
      c.Queued (s.commitChunk (p.chunk.linked next)) (pre ++ k' :: post) := by
  have hlimit := SizeClass.payload_le hvalid
  have hwrite := h.write hb.holds hb.writing 0 (p.chunk.linked next).header.encode
  have hcommit := hwrite.commit (r := p.chunk.reservation)
    ⟨hb.holds.view, by rw [hb.holds.slot_eq]; simp [Booking.slot]⟩ hb.writing
  refine ⟨_, ?_, ⟨rfl, ?_⟩, hcommit.of_memory rfl⟩
  · simp [Booking.slot]
  have hheader : (p.chunk.linked next).header = { p.chunk.header with next } := rfl
  rw [hheader, hm.header_eq]
  refine (decodeChunk_overlay rfl rfl hvalid ?_ hb.length_eq hb.payload_eq).trans ?_
  · show (UInt16.ofNat p.data.length).toNat = p.data.length
    rw [UInt16.toNat_ofNat']
    apply Nat.mod_eq_of_lt
    simp only [maxChunkPayload] at hlimit
    unfold Copy.Request.room at hle
    omega
  · rw [Copy.Part.view, hm.header_eq]

theorem abandonChunk (h : c.Queued s (pre ++ k :: post)) (hb : p.Booked c size k) :
    c.Queued (s.abandonChunk p.chunk) (pre ++ { k with phase := .discarded } :: post) :=
  h.abandon hb.holds hb.writing

/-- A record that fills its reservation is written and made visible in one go. -/
theorem commitRecord {r : Reservation} {record : Bytes} (h : c.Queued s (pre ++ k :: post))
    (hr : c.Holds r k) (hw : k.phase = .writing) (hlen : record.length = k.data.length) :
    c.Queued ((Op.commitRecord r record).perform s).2
      (pre ++ { k with data := record, phase := .committed } :: post) := by
  have hcommit := (h.write hr hw 0 record).commit (r := r)
    ⟨hr.view, by rw [hr.slot_eq]; simp [Booking.slot]⟩ hw
  have hdata : k.data.overlay 0 record = record := by
    rw [Bytes.overlay_zero (by omega), List.drop_of_length_le (by omega), List.append_nil]
  rw [hdata] at hcommit
  exact hcommit

end Channel.Queued
end ChainRelay
