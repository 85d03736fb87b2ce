import ChainRelay.Proofs.Channel.Traffic
import ChainRelay.Proofs.Ring.Headroom

/-!
A channel whose consumer keeps up. What is not too long for the channel fits while half of the band
is free, and if nobody holds a reservation, draining the channel frees all of it
(`Traffic.record_fits_again`). The cursors count every byte that ever went through and never turn
back, and so each channel comes to an end (`Traffic.Reached.runs_out`).
-/

namespace ChainRelay

open ChainRelay.Ring

theorem Shared.bandCapacity_mod {asked capacity : Nat} (h : bandCapacity asked = .ok capacity) :
    minCapacity ≤ capacity ∧ capacity % 32 = 0 := by
  refine ⟨(regular_of_bandCapacity h).1.capacity_min, ?_⟩
  unfold bandCapacity checkedSize at h
  split at h
  · cases h
    exact powerAbove_mod (k := 5) (Nat.le_trans (by decide) (Nat.le_max_right _ _))
  · cases h

namespace Channel

/-- The request is granted through a view, or its record would end out of the range of the cursors
and is refused for that. -/
def FitsOrEnds (c v : Channel) (size : Nat) (s : Shared) : Prop :=
  (∃ r s', v.reserve size s = (.ok r, s') ∧ r.slot.len = size ∧ ¬c.Exhausted s size) ∨
    ∃ s', v.reserve size s = (.error .overflow, s') ∧ c.Exhausted s size

variable {c v : Channel} {s : Shared} {q : List Booking}

theorem Views.used_eq (hv : c.Views v) (s : Shared) : v.used s = c.used s := by
  unfold used memory
  rw [hv.region_eq, hv.band_eq]

theorem Views.memory_receive (hv : c.Views v) (s : Shared) :
    c.memory (v.receive s).2 = (c.band.receive (c.memory s)).2 := by
  unfold Channel.receive
  rw [hv.region_eq, hv.band_eq]
  exact Shared.get_withRegion_same ..

/-- While half of the band is free, a request is granted if the cursor can go as far. -/
theorem Queued.reserve_half (h : c.Queued s q) (hv : c.Views v) (hmod : c.band.capacity % 32 = 0)
    (hused : c.used s ≤ c.band.capacity / 2) {size : Nat} (hpos : size ≠ 0)
    (hle : size ≤ c.band.longest) : c.FitsOrEnds v size s := by
  have heq := hv.reserve_eq size s
  rcases Band.Queued.reserve_half h hmod hused hpos hle with
    ⟨slot, m', he, hlen, hstop⟩ | ⟨m', he, hstop⟩
  · rw [he] at heq
    exact .inl ⟨⟨v, slot⟩, _, heq, hlen, hstop⟩
  · rw [he] at heq
    exact .inr ⟨_, heq, hstop⟩

theorem Views.reserve_granted (hv : c.Views v) {size : Nat} {r : Reservation} {s' : Shared}
    (h : v.reserve size s = (.ok r, s')) : produced (c.memory s) < produced (c.memory s') := by
  rw [hv.reserve_eq] at h
  obtain ⟨hanswer, rfl⟩ := Prod.mk.inj h
  rw [show c.memory (s.withRegion c.region (c.band.reserve size)).2 =
    (c.band.reserve size (c.memory s)).2 from Shared.get_withRegion_same ..]
  cases hb : (c.band.reserve size (c.memory s)).1 with
  | ok slot => exact (Band.reserve_granted (Prod.ext hb rfl)).2
  | error e =>
    rw [hb] at hanswer
    cases hanswer

/-- If nothing is being written, a consumer that takes all there is leaves the band empty. -/
theorem Queued.drained (h : c.Queued s q) (hv : c.Views v) (hq : ∀ k ∈ q, k.phase ≠ .writing)
    {fuel : Nat} (hfuel : c.used s ≤ fuel) :
    ∃ records s' q', v.receiveMany fuel s = (.ok records, s') ∧ c.used s' = 0 ∧ c.Queued s' q' ∧
      produced (c.memory s') = produced (c.memory s) := by
  induction fuel generalizing s q with
  | zero => exact ⟨[], s, q, rfl, Nat.le_zero.mp hfuel, h, rfl⟩
  | succ fuel ih =>
    obtain ⟨hanswer, hrest⟩ := h.receive hv
    have hmem := hv.memory_receive s
    have hused := Band.Queued.receive_used h hq
    have hproduced := c.band.produced_receive (c.memory s)
    rw [← hmem] at hused hproduced
    unfold receiveMany
    rcases hr : v.receive s with ⟨answer, s'⟩
    rw [hr] at hanswer hrest hused hproduced
    obtain rfl : answer = .ok (Queue.ready? q) := hanswer
    have hrest : c.Queued s' (Queue.rest q) := hrest
    cases hready : Queue.ready? q with
    | none =>
      rw [hready] at hused
      exact ⟨[], s', _, rfl, hused, hrest, hproduced⟩
    | some data =>
      rw [hready] at hused
      have hless : c.used s' < c.used s := hused
      obtain ⟨records, s'', q', hmany, hempty, hq', hp⟩ := ih hrest
        (fun k hk => hq k ((Queue.rest_suffix q).subset hk))
        (Nat.le_of_lt_succ (Nat.lt_of_lt_of_le hless hfuel))
      refine ⟨data :: records, s'', q', ?_, hempty, hq', hp.trans hproduced⟩
      simp only [hmany]

end Channel

namespace Ledger

theorem Open.of_modify {l : Ledger} {i ticket : Nat} {f : Entry → Entry}
    (h : Open (l.modify i f) ticket) :
    ∃ e, l[ticket]? = some e ∧ (if i = ticket then f e else e).fate = .writing := by
  obtain ⟨data, hdata⟩ := h
  rw [List.getElem?_modify] at hdata
  cases hl : l[ticket]? with
  | none => simp [hl] at hdata
  | some e =>
    refine ⟨e, rfl, ?_⟩
    simp only [hl, Option.map_eq_map, Option.map_some, Option.some.injEq] at hdata
    split at hdata
    · rename_i hi
      rw [if_pos hi, hdata]
    · rename_i hi
      rw [if_neg hi]
      exact congrArg Entry.fate hdata

theorem Open.of_taken {l : Ledger} {ticket : Nat} (h : Open l.taken ticket) : l.Open ticket := by
  obtain ⟨data, hdata⟩ := h
  have hlt := (List.getElem?_eq_some_iff.mp hdata).1
  rw [length_taken] at hlt
  rcases getElem?_taken (List.getElem?_eq_getElem hlt) with he | ⟨-, he⟩
  · exact ⟨data, (List.getElem?_eq_getElem hlt).trans (he.symm.trans hdata)⟩
  · rw [hdata] at he
    cases he

end Ledger

namespace Traffic

variable {c v : Channel} {t u : Traffic} {l past : Ledger} {q : List Booking}

def Attended (t : Traffic) (l : Ledger) : Prop :=
  ∀ ticket, l.Open ticket → ∃ r, t.handed[ticket]? = some (some r)

theorem Attended.finalize (h : t.Attended l) (s : Shared) (ticket : Nat) {f : Entry → Entry}
    (hf : ∀ e, (f e).fate ≠ .writing) :
    Attended ⟨s, t.views, t.handed.set ticket none⟩ (l.modify ticket f) := by
  intro i ho
  obtain ⟨e, he, hw⟩ := ho.of_modify
  split at hw
  · exact absurd hw (hf e)
  · rename_i hne
    rw [List.getElem?_set_ne hne]
    exact h i ⟨e.data, by rw [he, ← hw]⟩

theorem Attended.step {e : ChannelEvent} (h : t.Attended l) (hlen : t.handed.length = l.length)
    (hs : Step c t e u) : u.Attended (l.next e) := by
  cases hs with
  | attach | refuse | elsewhere => exact h
  | @reserve v size r s hv hr =>
    intro ticket ho
    obtain ⟨data, hdata⟩ := ho
    change (l ++ [⟨r.bytes s, .writing⟩])[ticket]? = _ at hdata
    rcases Nat.lt_or_ge ticket l.length with hlt | hge
    · obtain ⟨r', hr'⟩ := h ticket ⟨data, (List.getElem?_append_left hlt).symm.trans hdata⟩
      exact ⟨r', (List.getElem?_append_left (hlen ▸ hlt)).trans hr'⟩
    · have hlast := (List.getElem?_eq_some_iff.mp hdata).1
      rw [List.length_append, List.length_singleton] at hlast
      obtain rfl : ticket = t.handed.length := by omega
      exact ⟨r, List.getElem?_concat_length⟩
  | write ticket hr pos bytes =>
    intro i ho
    obtain ⟨e, he, hw⟩ := ho.of_modify
    refine h i ⟨e.data, ?_⟩
    rw [he]
    split at hw <;> rw [← hw]
  | commit ticket => exact h.finalize _ ticket nofun
  | discard ticket => exact h.finalize _ ticket nofun
  | abandon ticket => exact h.finalize _ ticket nofun
  | receive => exact fun ticket ho => h ticket ho.of_taken

theorem Attended.run {events : List ChannelEvent} (h : t.Attended l) (ht : Tracks c t l past q)
    (hr : Run c t events u) : u.Attended (l.after events) := by
  induction hr generalizing l past q with
  | nil => exact h
  | cons hs _ ih =>
    obtain ⟨-, past', q', hnext⟩ := step_tracks ht hs
    exact ih (h.step ht.length_eq hs) hnext

/-- When nobody holds a reservation, nothing is being written. -/
theorem Reached.unattended (h : Reached c t) (hnone : ∀ r ∈ t.handed, r = none) :
    ∃ q, c.Queued t.shared q ∧ ∀ k ∈ q, k.phase ≠ .writing := by
  obtain ⟨plan, s₀, s₁, events, hb, hr⟩ := h
  obtain ⟨-, past, q, ht⟩ := run_tracks (built_tracks hb) hr
  have hheld : t.Attended (Ledger.after [] events) := Attended.run nofun (built_tracks hb) hr
  refine ⟨q, ht.queued, fun k hk hw => ?_⟩
  obtain ⟨j, hj⟩ := List.getElem?_of_mem hk
  obtain ⟨r, hr⟩ := hheld (past.length + j) ⟨k.data, by
    rw [ht.ledger_eq, List.getElem?_append_right (Nat.le_add_right _ _)]
    simp [hj, Entry.ofBooking, hw]⟩
  cases hnone _ (List.mem_of_getElem? hr)

theorem Run.append {events more : List ChannelEvent} {w : Traffic} (h : Run c t events u)
    (h' : Run c u more w) : Run c t (events ++ more) w := by
  induction h with
  | nil => exact h'
  | cons hs _ ih => exact .cons hs (ih h')

theorem Reached.run {events : List ChannelEvent} (h : Reached c t) (hr : Run c t events u) :
    Reached c u := by
  obtain ⟨plan, s₀, s₁, past, hb, hpast⟩ := h
  exact ⟨plan, s₀, s₁, past ++ events, hb, hpast.append hr⟩

theorem Reached.drain (h : Reached c t) (hv : v ∈ t.views) (fuel : Nat) :
    Reached c { t with shared := (v.receiveMany fuel t.shared).2 } := by
  induction fuel generalizing t with
  | zero => exact h
  | succ fuel ih =>
    have hone := h.run (.cons (.receive hv) .nil)
    unfold Channel.receiveMany
    rcases hr : v.receive t.shared with ⟨e | (- | data), s⟩ <;> rw [hr] at hone
    · exact hone
    · exact hone
    · have hmany := ih (t := { t with shared := s }) hone hv
      dsimp only at hmany ⊢
      split <;> simp_all

theorem Reached.capacity (h : Reached c t) :
    minCapacity ≤ c.band.capacity ∧ c.band.capacity % 32 = 0 := by
  obtain ⟨plan, s₀, s₁, events, hb, -⟩ := h
  exact Shared.bandCapacity_mod (Shared.buildChannel_band hb).2

theorem Reached.fits (h : Reached c t) (hv : v ∈ t.views) {size : Nat} (hpos : 1 ≤ size)
    (hle : size ≤ v.band.longest) (hused : v.used t.shared ≤ v.band.capacity / 2) :
    c.FitsOrEnds v size t.shared := by
  obtain ⟨⟨q, hq⟩, hviews⟩ := h.queued
  have hview := hviews v hv
  rw [hview.used_eq, hview.band_eq] at hused
  rw [hview.band_eq] at hle
  exact hq.reserve_half hview h.capacity.2 hused (Nat.ne_of_gt hpos) hle

/-- When nobody holds a reservation, draining the channel frees all of the band. -/
theorem Reached.drained (h : Reached c t) (hv : v ∈ t.views) (hnone : ∀ r ∈ t.handed, r = none) :
    ∃ records s, v.drain t.shared = (.ok records, s) ∧ v.used s = 0 ∧
      Reached c { t with shared := s } ∧
      produced (c.memory s) = produced (c.memory t.shared) := by
  obtain ⟨q, hq, hidle⟩ := h.unattended hnone
  have hview := h.queued.2 v hv
  obtain ⟨records, s, q', hdrain, hused, -, hp⟩ :=
    hq.drained hview hidle (Nat.le_of_eq (hview.used_eq t.shared).symm)
  have hreached := h.drain hv (v.used t.shared)
  rw [hdrain] at hreached
  exact ⟨records, s, hdrain, (hview.used_eq s).trans hused, hreached, hp⟩

/-- At any time a request that is not too long for the channel is granted while no more than half of
the band is in use, and if nobody holds a reservation, draining the channel frees the band, so that
again each such request is granted. The one exception is a record whose end is out of the range of
the cursors. -/
theorem record_fits_again (h : Reached c t) (hv : v ∈ t.views) :
    ∃ most, v.band.maxRecordLength = .ok most ∧
    (∀ size, 1 ≤ size → size ≤ most → v.used t.shared ≤ v.band.capacity / 2 →
      c.FitsOrEnds v size t.shared) ∧
    ((∀ r ∈ t.handed, r = none) → ∃ records s, v.drain t.shared = (.ok records, s) ∧
      v.used s = 0 ∧ ∀ size, 1 ≤ size → size ≤ most → c.FitsOrEnds v size s) := by
  have hview := h.queued.2 v hv
  refine ⟨v.band.longest, ?_, fun size hpos hle hused => h.fits hv hpos hle hused, fun hnone => ?_⟩
  · rw [hview.band_eq]
    exact Band.maxRecordLength_eq h.capacity.1
  · obtain ⟨records, s, hdrain, hempty, hreached, -⟩ := h.drained hv hnone
    refine ⟨records, s, hdrain, hempty, fun size hpos hle => hreached.fits hv hpos hle ?_⟩
    show v.used s ≤ _
    omega

theorem firstChannel_longest : firstChannel.band.longest = 262136 := by decide

/-- When a record of two bytes was received, there is room for one of the greatest length. -/
theorem record_fits_again_of_first : ∃ t, Reached firstChannel t ∧ firstChannel ∈ t.views ∧
    firstChannel.used t.shared = 16 ∧ ∃ records s,
      firstChannel.drain t.shared = (.ok records, s) ∧ firstChannel.used s = 0 ∧
      firstChannel.FitsOrEnds firstChannel 262136 s := by
  have h₁ : firstChannel.reserve 2 firstShared =
    (.ok ⟨firstChannel, ⟨0, 2⟩⟩, (firstChannel.reserve 2 firstShared).2) := rfl
  have hrun := Run.cons (c := firstChannel) (t := ⟨firstShared, [firstChannel], []⟩)
      (.reserve List.mem_cons_self h₁)
    (.cons (.commit 0 rfl) .nil)
  have hreached : Reached firstChannel _ := ⟨{}, {}, firstShared, _, buildChannel_first, hrun⟩
  obtain ⟨most, hmost, -, hdrain⟩ := record_fits_again hreached List.mem_cons_self
  rw [Band.maxRecordLength_eq (by decide), firstChannel_longest] at hmost
  cases hmost
  obtain ⟨records, s, hdrain, hused, hfits⟩ := hdrain (by simp)
  exact ⟨_, hreached, List.mem_cons_self, rfl, records, s, hdrain, hused,
    hfits _ (by decide) (Nat.le_refl _)⟩

theorem channel_of_reserve {size : Nat} {r : Reservation} {s s' : Shared}
    (h : v.reserve size s = (.ok r, s')) : r.channel = v := by
  rw [(Channel.Views.refl v).reserve_eq] at h
  have hanswer := (Prod.mk.inj h).1
  cases hb : (v.band.reserve size (v.memory s)).1 with
  | ok slot =>
    rw [hb] at hanswer
    cases hanswer
    rfl
  | error e =>
    rw [hb] at hanswer
    cases hanswer

theorem produced_discard {r : Reservation} (hv : c.Views r.channel)
    (ho : headerSpan ≤ c.band.offset) (s : Shared) :
    produced (c.memory (r.discard s)) = produced (c.memory s) := by
  unfold Reservation.discard Channel.memory
  rw [hv.region_eq, hv.band_eq, Shared.get_onRegion_same]
  exact c.band.produced_finalize _ true _ ho

/-- The cursors never turn back. Parties that do no more than reserve, discard and drain come to a
moment where the band is empty, and yet a request that was always granted is not. -/
theorem Reached.runs_out (h : Reached c t) (hv : v ∈ t.views) (hnone : ∀ r ∈ t.handed, r = none)
    {size : Nat} (hpos : 1 ≤ size) (hle : size ≤ v.band.longest) :
    ∃ u, Reached c u ∧ v ∈ u.views ∧ (∀ r ∈ u.handed, r = none) ∧ v.used u.shared = 0 ∧
      (v.reserve size u.shared).1 = .error .overflow := by
  -- What is left to the cursor gets less with every round.
  generalize hleft : sizeLimit - produced (c.memory t.shared) = left
  induction left using Nat.strongRecOn generalizing t with
  | ind left ih =>
    have hview := h.queued.2 v hv
    obtain ⟨records, s, -, hempty, hdrained, hp⟩ := h.drained hv hnone
    have hused : v.used s ≤ v.band.capacity / 2 := by omega
    rcases hdrained.fits hv hpos hle hused with ⟨r, s', hr, -, -⟩ | ⟨s', hr, -⟩
    · have hrun := Run.cons (c := c) (.reserve (t := { t with shared := s }) hv hr)
        (.cons (.discard t.handed.length List.getElem?_concat_length) .nil)
      have hmore : produced (c.memory s) < produced (c.memory s') := hview.reserve_granted hr
      have hlt := produced_lt (c.memory s')
      have hgone : ∀ r' ∈ (t.handed ++ [some r]).set t.handed.length none, r' = none := by
        intro r' hr'
        rw [List.set_append_right _ _ (Nat.le_refl _), Nat.sub_self] at hr'
        rcases List.mem_append.mp hr' with hr' | hr'
        · exact hnone r' hr'
        · exact List.mem_singleton.mp hr'
      have hsame : produced (c.memory (r.discard s')) = produced (c.memory s') := by
        obtain ⟨q, cells, hl, -⟩ := h.queued.1
        refine produced_discard ?_ hl.regular.offset_min s'
        rw [channel_of_reserve hr]
        exact hview
      refine ih _ ?_ (hdrained.run hrun) hv hgone rfl
      rw [← hleft]
      show sizeLimit - produced (c.memory (r.discard s')) < _
      omega
    · exact ⟨{ t with shared := s }, hdrained, hv, hnone, hempty, congrArg Prod.fst hr⟩

/-- A record of the greatest length, on an empty channel, for which there is no place. -/
theorem record_fits_no_more : ∃ t, Reached firstChannel t ∧ firstChannel ∈ t.views ∧
    (∀ r ∈ t.handed, r = none) ∧ firstChannel.band.maxRecordLength = .ok 262136 ∧
    firstChannel.used t.shared = 0 ∧
    (firstChannel.reserve 262136 t.shared).1 = .error .overflow := by
  have hbuilt : Reached firstChannel ⟨firstShared, [firstChannel], []⟩ :=
    ⟨{}, {}, firstShared, [], buildChannel_first, .nil⟩
  obtain ⟨t, ht, hv, hnone, hempty, hover⟩ := hbuilt.runs_out List.mem_cons_self nofun
    (by decide : 1 ≤ 262136) (Nat.le_of_eq firstChannel_longest.symm)
  refine ⟨t, ht, hv, hnone, ?_, hempty, hover⟩
  rw [Band.maxRecordLength_eq (by decide), firstChannel_longest]

end Traffic
end ChainRelay
