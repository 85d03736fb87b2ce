import ChainRelay.Proofs.Copy.Append
import ChainRelay.Proofs.Copy.Conduct

/-!
A copy whose channel has room for a certain number of chunks. The room depends on the cursors alone,
so that filling and committing chunks leave it as it is and each chunk that is opened takes one of
it. The copy delivers as many of its payloads as there is room for, and ends as it would have if
that is all of them.
-/

namespace ChainRelay

open ChainRelay.Ring

def ReserveError.isFull : ReserveError → Bool
  | full .. => true
  | invalidSize .. | overflow => false

namespace Ring.Band

variable {b : Band} {m m' : Memory}

theorem stamp_agrees_low (ho : headerSpan ≤ b.offset) (p : Placement) (size : Nat) (m : Memory)
    {lo n : Nat} (h : lo + n ≤ headerSpan) : m.Agrees (b.stamp p size m) lo n := by
  have hword (m : Memory) (pos v : Nat) : m.Agrees (b.setRecordWord m pos v) lo n :=
    Memory.agrees_setWord (.inl (by omega))
  unfold stamp
  split
  · exact hword _ _ _
  · exact (hword _ _ _).trans (hword _ _ _)

/-- What a request is answered, and where it leaves the cursors, depends on the cursors alone. -/
theorem reserve_cursors (ho : headerSpan ≤ b.offset) (hp : produced m' = produced m)
    (hc : consumed m' = consumed m) (size : Nat) :
    (b.reserve size m').1 = (b.reserve size m).1 ∧
      produced (b.reserve size m').2 = produced (b.reserve size m).2 ∧
      consumed (b.reserve size m').2 = consumed (b.reserve size m).2 := by
  have hused : b.used m' = b.used m := by simp only [used, hp, hc]
  have hfree : b.free m' = b.free m := by simp only [free, hused]
  have hplace : b.place size m' = b.place size m := by simp only [place, hused, hfree, hp]
  have hproduced (p : Placement) (m : Memory) : produced (b.stamp p size m) = produced m :=
    produced_of_agrees (stamp_agrees_low ho p size m (by decide))
  have hconsumed (p : Placement) (m : Memory) : consumed (b.stamp p size m) = consumed m :=
    consumed_of_agrees (stamp_agrees_low ho p size m (by decide))
  simp only [reserve, hplace, hp]
  split
  · exact ⟨rfl, hp, hc⟩
  · split
    · exact ⟨rfl, by rw [hproduced, hproduced, hp], by rw [hconsumed, hconsumed, hc]⟩
    · refine ⟨rfl, by rw [produced_setProduced, produced_setProduced], ?_⟩
      rw [consumed_setProduced, consumed_setProduced, hconsumed, hconsumed, hc]

/-- A request that is refused leaves the cursors where they are. -/
theorem reserve_refused_cursors (ho : headerSpan ≤ b.offset) {size : Nat} {e : ReserveError}
    (h : (b.reserve size m).1 = .error e) :
    produced (b.reserve size m).2 = produced m ∧ consumed (b.reserve size m).2 = consumed m := by
  unfold reserve at h ⊢
  split
  · exact ⟨rfl, rfl⟩
  · rename_i p hp
    rw [hp] at h
    dsimp only at h ⊢
    split
    · exact ⟨produced_of_agrees (stamp_agrees_low ho p size m (by decide)),
        consumed_of_agrees (stamp_agrees_low ho p size m (by decide))⟩
    · rename_i hlt
      rw [if_neg hlt] at h
      cases h

end Ring.Band

namespace Channel

/-- The channel grants `room` requests for `size` bytes, one after the other, and refuses the one
after them for `cause`. -/
def Admits (c : Channel) (size : Nat) (cause : ReserveError) : Nat → Shared → Prop
  | 0, s => (c.reserve size s).1 = .error cause
  | room + 1, s =>
    (∃ r, (c.reserve size s).1 = .ok r) ∧ c.Admits size cause room (c.reserve size s).2

/-- Both states have the cursors of the channel at the same places. -/
structure Level (c : Channel) (s s' : Shared) : Prop where
  produced_eq : produced (c.memory s') = produced (c.memory s)
  consumed_eq : consumed (c.memory s') = consumed (c.memory s)

variable {c v : Channel} {s s' s'' : Shared} {size room : Nat} {cause : ReserveError}

theorem Level.trans (h : c.Level s s') (h' : c.Level s' s'') : c.Level s s'' :=
  ⟨h'.produced_eq.trans h.produced_eq, h'.consumed_eq.trans h.consumed_eq⟩

theorem level_of_memory (h : s'.regions.get c.region = s.regions.get c.region) : c.Level s s' := by
  constructor <;> unfold memory <;> rw [h]

theorem memory_reserve (c : Channel) (size : Nat) (s : Shared) :
    c.memory (c.reserve size s).2 = (c.band.reserve size (c.memory s)).2 :=
  Shared.get_withRegion_same s c.region (c.band.reserve size)

theorem answer_reserve (c : Channel) (size : Nat) (s : Shared) :
    (c.reserve size s).1 = (c.band.reserve size (c.memory s)).1.map fun slot => ⟨c, slot⟩ := rfl

/-- The room depends on the cursors alone. -/
theorem Admits.of_level (ho : headerSpan ≤ c.band.offset) (h : c.Admits size cause room s)
    (hl : c.Level s s') : c.Admits size cause room s' := by
  induction room generalizing s s' with
  | zero =>
    obtain ⟨hanswer, -⟩ := Band.reserve_cursors ho hl.produced_eq hl.consumed_eq size
    unfold Admits at h ⊢
    rw [answer_reserve, hanswer, ← answer_reserve, h]
  | succ room ih =>
    obtain ⟨hanswer, hp, hc⟩ := Band.reserve_cursors ho hl.produced_eq hl.consumed_eq size
    obtain ⟨hgranted, hrest⟩ := h
    refine ⟨?_, ih hrest ⟨?_, ?_⟩⟩
    · rwa [answer_reserve, hanswer, ← answer_reserve]
    · rw [memory_reserve, memory_reserve, hp]
    · rw [memory_reserve, memory_reserve, hc]

/-- After a refusal there is no more room than before. -/
theorem Admits.refused (ho : headerSpan ≤ c.band.offset) (h : c.Admits size cause 0 s) :
    c.Admits size cause 0 (c.reserve size s).2 := by
  have hband : ∃ e, (c.band.reserve size (c.memory s)).1 = .error e := by
    unfold Admits at h
    rw [answer_reserve] at h
    cases hb : (c.band.reserve size (c.memory s)).1 with
    | ok slot =>
      rw [hb] at h
      cases h
    | error e => exact ⟨e, rfl⟩
  obtain ⟨e, hband⟩ := hband
  obtain ⟨hp, hc⟩ := Band.reserve_refused_cursors ho hband
  exact h.of_level ho ⟨by rw [memory_reserve, hp], by rw [memory_reserve, hc]⟩

theorem Queued.offset_min {q : List Booking} (h : c.Queued s q) : headerSpan ≤ c.band.offset := by
  obtain ⟨cells, hl, -⟩ := h
  exact hl.regular.offset_min

theorem Admits.unique {room' : Nat} {cause' : ReserveError} (h : c.Admits size cause room s)
    (h' : c.Admits size cause' room' s) : room' = room ∧ cause' = cause := by
  induction room generalizing room' s with
  | zero =>
    unfold Admits at h
    cases room' with
    | zero =>
      unfold Admits at h'
      exact ⟨rfl, Except.error.inj (h'.symm.trans h)⟩
    | succ room' =>
      obtain ⟨r, hr⟩ := h'.1
      cases hr.symm.trans h
  | succ room ih =>
    obtain ⟨⟨r, hr⟩, hrest⟩ := h
    cases room' with
    | zero =>
      unfold Admits at h'
      cases hr.symm.trans h'
    | succ room' =>
      obtain ⟨rfl, hcause⟩ := ih hrest h'.2
      exact ⟨rfl, hcause⟩

/-- Every channel has room for a certain number of reservations: each takes some of its bytes. -/
theorem Queued.exists_admits {q : List Booking} (h : c.Queued s q) (hv : c.Views v) (size : Nat) :
    ∃ room cause, v.Admits size cause room s := by
  have hfit {s : Shared} {q : List Booking} (h : c.Queued s q) : q.length ≤ c.band.capacity := by
    have hused := Band.Queued.length_le_used h
    obtain ⟨cells, hl, -⟩ := h
    exact Nat.le_trans hused hl.used_le
  obtain ⟨more, hmore⟩ : ∃ more, c.band.capacity = q.length + more :=
    Nat.exists_eq_add_of_le (hfit h)
  -- by induction on how many records of one byte would still fit
  induction more generalizing s q with
  | zero =>
    rcases h.reserve hv size with ⟨k, s', -, -, -, hq⟩ | ⟨e, s', he, -⟩
    · have hle := hfit hq
      rw [List.length_append, List.length_singleton] at hle
      omega
    · exact ⟨0, e, by unfold Admits; rw [he]⟩
  | succ more ih =>
    rcases h.reserve hv size with ⟨k, s', he, -, -, hq⟩ | ⟨e, s', he, -⟩
    · obtain ⟨room, cause, hroom⟩ := ih hq (by
        rw [List.length_append, List.length_singleton]
        omega)
      exact ⟨room + 1, cause, ⟨⟨_, congrArg Prod.fst he⟩, by rwa [he]⟩⟩
    · exact ⟨0, e, by unfold Admits; rw [he]⟩

section Reservations

variable {r : Reservation} (hv : c.Views r.channel) (ho : headerSpan ≤ c.band.offset)
include hv ho

theorem Views.level_write (pos : Nat) (bytes : Bytes) (s : Shared) :
    c.Level s (r.write pos bytes s) := by
  have hlow {lo n : Nat} (h : lo + n ≤ headerSpan) :
      (c.memory s).Agrees (c.memory (r.write pos bytes s)) lo n := by
    unfold memory Reservation.write
    rw [hv.region_eq, hv.band_eq, Shared.get_onRegion_same]
    refine Memory.agrees_store (.inl ?_)
    unfold Band.payloadStart
    omega
  exact ⟨produced_of_agrees (hlow (by decide)), consumed_of_agrees (hlow (by decide))⟩

theorem Views.level_finalize (discard : Bool) (s : Shared) : c.Level s
    (s.onRegion r.channel.region (r.channel.band.finalize r.slot discard)) := by
  have hlow {lo n : Nat} (h : lo + n ≤ headerSpan) (hs : 36 ≤ lo) :
      (c.memory s).Agrees (c.memory (s.onRegion r.channel.region
        (r.channel.band.finalize r.slot discard))) lo n := by
    unfold memory
    rw [hv.region_eq, hv.band_eq, Shared.get_onRegion_same]
    exact Band.finalize_agrees _ _ _ _ (.inl (by omega)) (.inr hs)
  exact ⟨produced_of_agrees (hlow (by decide) (by decide)),
    consumed_of_agrees (hlow (by decide) (by decide))⟩

end Reservations

end Channel

/-- At any moment a view of the channel has room for a certain number of records of a size. -/
theorem Traffic.Reached.room {c v : Channel} {t : Traffic} (ht : Traffic.Reached c t)
    (hv : v ∈ t.views) (size : Nat) :
    ∃! p : Nat × ReserveError, v.Admits size p.2 p.1 t.shared := by
  obtain ⟨⟨q, hq⟩, hviews⟩ := ht.queued
  obtain ⟨room, cause, h⟩ := hq.exists_admits (hviews v hv) size
  refine ⟨(room, cause), h, fun p hp => ?_⟩
  obtain ⟨hroom, hcause⟩ := h.unique hp
  exact Prod.ext hroom hcause

namespace Op

def counts? : (op : Op) → op.Reply → Option (Nat × Counter)
  | .openChunk w _, .error e => if e.isFull then some (w.tally, .chunksRefused) else none
  | .commitChunk c, _ => some (c.tally, .chunksCommitted)
  | .count tally c, _ => some (tally, c)
  | _, _ => none

theorem get_tallies_perform (op : Op) (s : Shared) (n : Nat) (d : Counter) :
    ((op.perform s).2.tallies.get n).get d = (s.tallies.get n).get d +
      if op.counts? (op.perform s).1 = some (n, d) then 1 else 0 := by
  cases op with
  | openChunk w size =>
    rcases ho : s.openChunk w size with ⟨answer, s'⟩
    simp only [perform, ho]
    unfold Shared.openChunk at ho
    rcases hr : w.channel.reserve size.totalSize s with ⟨granted, s₁⟩
    have htallies : s₁.tallies = s.tallies := congrArg (·.2.tallies) hr.symm
    rw [hr] at ho
    rcases granted with (⟨requested, available⟩ | ⟨asked, max⟩ | _) | reservation
    case error.full =>
      cases ho
      simp [counts?, ReserveError.isFull, Shared.get_count, htallies]
    case error.invalidSize | error.overflow =>
      cases ho
      simp [counts?, ReserveError.isFull, htallies]
    case ok =>
      cases ho
      simp [counts?, htallies]
  | commitChunk c =>
    refine (Shared.get_count _ c.tally n .chunksCommitted d).trans ?_
    simp only [counts?, Option.some.injEq, Prod.mk.injEq]
    rfl
  | count tally c =>
    refine (Shared.get_count _ tally n c d).trans ?_
    simp only [counts?, Option.some.injEq, Prod.mk.injEq]
  | fillChunk | abandonChunk | reserve | commitRecord | report => simp [counts?]; rfl

/-- An answer as it may be while `room` more chunks are granted and the one after them is refused
for `cause`. -/
def Deals (cause : ReserveError) (room : Nat) : (op : Op) → op.Reply → Prop
  | .openChunk w c, .ok chunk => 0 < room ∧ w.Opens c chunk
  | .openChunk .., .error e => room = 0 ∧ e = cause
  | _, _ => True

def left (room : Nat) : Op → Nat
  | .openChunk .. => room - 1
  | _ => room

end Op

namespace Activity

variable {α β : Type} {cause : ReserveError} {room : Nat}

/-- The activity ends as wanted, with the counters that it moved on, if it is granted `room` chunks
and refused the next one for `cause`. -/
def Rationed (cause : ReserveError) (post : Except Overflow α → List (Nat × Counter) → Prop) :
    Nat → Activity α → Prop
  | _, .done x => post (.ok x) []
  | _, .abort => post (.error .overflow) []
  | room, .step op next => ∀ reply, op.Deals cause room reply →
      (next reply).Rationed cause (fun x moved => post x ((op.counts? reply).toList ++ moved))
        (op.left room)

theorem Rationed.mono {post post' : Except Overflow α → List (Nat × Counter) → Prop}
    {a : Activity α} (h : a.Rationed cause post room)
    (hpost : ∀ x moved, post x moved → post' x moved) : a.Rationed cause post' room := by
  induction a generalizing post post' room with
  | done x => exact hpost _ _ h
  | abort => exact hpost _ _ h
  | step op next ih =>
    exact fun reply hreply => ih reply (h reply hreply) fun x moved => hpost x _

end Activity

namespace Channel

variable {w : Writer} {size : SizeClass} {s : Shared} {room : Nat} {cause : ReserveError}

/-- Opening a chunk is answered according to the room, and takes one of it. -/
theorem Admits.openChunk (ho : headerSpan ≤ w.channel.band.offset)
    (h : w.channel.Admits size.totalSize cause room s) :
    (Op.openChunk w size).Deals cause room (s.openChunk w size).1 ∧
      w.channel.Admits size.totalSize cause (room - 1) (s.openChunk w size).2 := by
  have hanswers := (Op.openChunk w size).answers_perform s
  have hopen := Shared.openChunk_eq w size s
  have hlevel {s' s'' : Shared} (hregions : s''.regions = s'.regions) : w.channel.Level s' s'' :=
    level_of_memory (congrArg (·.get w.channel.region) hregions)
  rcases hr : w.channel.reserve size.totalSize s with ⟨e | r, s'⟩
  · rw [hr] at hopen
    obtain ⟨s'', hopen, hregions, -⟩ := hopen
    cases room with
    | zero =>
      have hrefused := h.refused ho
      unfold Admits at h
      rw [hr] at h hrefused
      rw [hopen]
      exact ⟨⟨rfl, Except.error.inj h⟩, hrefused.of_level ho (hlevel hregions)⟩
    | succ room =>
      obtain ⟨r, hgranted⟩ := h.1
      rw [hr] at hgranted
      cases hgranted
  · rw [hr] at hopen
    cases room with
    | zero =>
      unfold Admits at h
      rw [hr] at h
      cases h
    | succ room =>
      have hrest := h.2
      rw [hr] at hrest
      simp only [Op.perform] at hanswers
      dsimp only at hopen
      rw [hopen] at hanswers ⊢
      exact ⟨⟨Nat.succ_pos room, hanswers⟩, hrest.of_level ho (hlevel rfl)⟩

end Channel

namespace Copy

open Activity

variable {c : Channel} {q : List Booking} {s₀ s : Shared} {r : Request} {limit room : Nat}
  {cause : ReserveError} {g g' : Trail} {slots : List Slot}

/-- An operation of a copy is answered according to the room, and takes none of it but for the chunk
that it opens. -/
theorem Laid.deals {op : Op} (h : Laid c q s₀ r g slots s) (hv : c.Views r.writer.channel)
    (hroom : r.writer.channel.Admits r.sizeClass.totalSize cause room s)
    (hstep : Trail.Step r limit g op (op.perform s).1 g') :
    op.Deals cause room (op.perform s).1 ∧
      r.writer.channel.Admits r.sizeClass.totalSize cause (op.left room) (op.perform s).2 := by
  obtain ⟨ks, hs, ds, hq, -⟩ := h.queue
  have ho : headerSpan ≤ r.writer.channel.band.offset := by
    rw [hv.band_eq]
    exact hq.offset_min
  -- the chunks in hand are in the channel that the writer sees
  have hviews {p : Part} (hp : p ∈ g.hand) :
      r.writer.channel.Views p.chunk.reservation.channel := by
    obtain ⟨hregion, hband⟩ := (h.slot_mem hp).1
    exact ⟨hregion.trans hv.region_eq.symm, hband.trans hv.band_eq.symm⟩
  have hcommit {p : Part} (hp : p ∈ g.hand) (next : ChunkId) :
      r.writer.channel.Level s (s.commitChunk (p.chunk.linked next)) := by
    have hwrite := (hviews hp).level_write ho 0 (p.chunk.linked next).header.encode s
    exact (hwrite.trans ((hviews hp).level_finalize ho false _)).trans (Channel.level_of_memory rfl)
  generalize hreply : (op.perform s).1 = reply at hstep
  cases hstep with
  | openFirst | openNext | refuse =>
    rw [← hreply]
    exact hroom.openChunk ho
  | @fill sent hand chunk data =>
    have hp : (⟨chunk, []⟩ : Part) ∈ hand ++ [⟨chunk, []⟩] := by simp
    exact ⟨trivial, hroom.of_level ho ((hviews hp).level_write ho _ _ s)⟩
  | handOver p' => exact ⟨trivial, hroom.of_level ho (hcommit List.mem_cons_self _)⟩
  | @finish sent p =>
    exact ⟨trivial, hroom.of_level ho (hcommit (p := p) List.mem_cons_self p.chunk.header.next)⟩
  | @abandon sent p =>
    have hreport : r.writer.channel.Level s
        (s.report (.reservationDropped p.chunk.reservation.slot.len)) := Channel.level_of_memory rfl
    exact ⟨trivial, hroom.of_level ho
      (hreport.trans ((hviews List.mem_cons_self).level_finalize ho true _))⟩
  | count => exact ⟨trivial, hroom.of_level ho (Channel.level_of_memory rfl)⟩
  | report => exact ⟨trivial, hroom.of_level ho (Channel.level_of_memory rfl)⟩

/-- A copy that nobody interrupts ends as its room wants it, and moves the counters on that it says
it does. -/
theorem Follows.rationed {always : CopyOutcome → Trail → Prop}
    {post : Except Overflow CopyOutcome → List (Nat × Counter) → Prop} {a : Activity CopyOutcome}
    (hfollows : Follows r limit always a g) (hrationed : a.Rationed cause post room)
    (hv : c.Views r.writer.channel) (hg : g.Sound r limit) (hl : Laid c q s₀ r g slots s)
    (hroom : r.writer.channel.Admits r.sizeClass.totalSize cause room s) :
    ∃ moved, post (a.run s).1 moved ∧ ∀ n d, ((a.run s).2.tallies.get n).get d =
      (s.tallies.get n).get d + moved.count (n, d) := by
  induction a generalizing post room g slots s with
  | done o => exact ⟨[], hrationed, fun _ _ => rfl⟩
  | abort => exact ⟨[], hrationed, fun _ _ => rfl⟩
  | step op next ih =>
    -- the trail says which chunks are in hand, and with that what the operation does to the room
    obtain ⟨g', hstep, hrest⟩ := hfollows _ (op.answers_perform s)
    obtain ⟨hdeals, hleft⟩ := hl.deals hv hroom hstep
    obtain ⟨moved, hpost, hcounted⟩ := ih _ hrest (hrationed _ hdeals) (hg.step hstep)
      (hl.step hv hg hstep) hleft
    refine ⟨_, hpost, fun n d => ?_⟩
    rw [Activity.run, hcounted, op.get_tallies_perform, List.count_append, Nat.add_assoc]
    congr 2
    cases hcounts : op.counts? (op.perform s).1 <;> simp [List.count_singleton]

end Copy
end ChainRelay
