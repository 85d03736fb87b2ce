import ChainRelay.Proofs.Ring.Placement

/-!
A ring as a queue of reservations. `Queued` relates a memory to the reservations that the consumer
has not passed; reserving appends one, writing and finalizing change one where it stands, and
receiving takes from the front.
-/

namespace ChainRelay.Ring

/-- A reservation that the consumer has not passed: where its record starts in the band, what its
bytes are, and how far it has come. -/
structure Booking where
  record : Nat
  data : Bytes
  phase : Phase

def Booking.slot (k : Booking) : Slot := ⟨k.record, k.data.length⟩

/-- Padding is nobody's reservation. -/
def Cell.booking? (b : Band) (c : Cell) : Option Booking :=
  if c.padding then none else some ⟨c.pos % b.capacity, c.data, c.phase⟩

/-- The reservations between the cursors, in their order. -/
def Band.Queued (b : Band) (m : Memory) (q : List Booking) : Prop :=
  ∃ cells, b.Lays m cells ∧ cells.filterMap (Cell.booking? b) = q

/-- A record of this size would take the cursor out of its range. -/
def Band.Exhausted (b : Band) (m : Memory) (size : Nat) : Prop :=
  sizeLimit ≤ produced m + ((b.placement (produced m) size).padding + span size)

namespace Queue

/-- The bytes of the oldest reservation that is not discarded, if it is committed. -/
def ready? : List Booking → Option Bytes
  | [] => none
  | k :: q =>
    match k.phase with
    | .writing => none
    | .committed => some k.data
    | .discarded => ready? q

def rest : List Booking → List Booking
  | [] => []
  | k :: q =>
    match k.phase with
    | .writing => k :: q
    | .committed => q
    | .discarded => rest q

section Gone

variable {gone : List Booking} (h : ∀ k ∈ gone, k.phase = .discarded) (q : List Booking)
include h

theorem ready?_append : ready? (gone ++ q) = ready? q := by
  induction gone with
  | nil => rfl
  | cons k gone ih =>
    obtain ⟨hk, hgone⟩ := List.forall_mem_cons.mp h
    simpa [ready?, hk] using ih hgone

theorem rest_append : rest (gone ++ q) = rest q := by
  induction gone with
  | nil => rfl
  | cons k gone ih =>
    obtain ⟨hk, hgone⟩ := List.forall_mem_cons.mp h
    simpa [rest, hk] using ih hgone

end Gone

theorem ready?_rest {q : List Booking} (h : ready? q = none) :
    ready? (rest q) = none := by
  induction q with
  | nil => rfl
  | cons k q ih => cases hp : k.phase <;> simp_all [ready?, rest]

theorem length_rest_lt {q : List Booking} {data : Bytes} (h : ready? q = some data) :
    (rest q).length < q.length := by
  induction q with
  | nil => cases h
  | cons k q ih =>
    cases hp : k.phase with
    | writing => simp [ready?, hp] at h
    | committed => simp [rest, hp]
    | discarded =>
      simp only [ready?, hp] at h
      have := ih h
      simp only [rest, hp, List.length_cons]
      omega

/-- The consumer does not pass a reservation that is being written. -/
theorem mem_rest {q : List Booking} {k : Booking} (h : k ∈ q) (hw : k.phase = .writing) :
    k ∈ rest q := by
  induction q with
  | nil => cases h
  | cons d q ih =>
    rcases List.mem_cons.mp h with rfl | h
    · simp [rest, hw]
    · cases hd : d.phase <;> simp [rest, hd, h, ih h]

/-- Nor does it see what is behind one. -/
theorem ready?_writing {pre post : List Booking} {k : Booking} (hw : k.phase = .writing) :
    ready? (pre ++ k :: post) = ready? pre := by
  induction pre with
  | nil => simp [ready?, hw]
  | cons d pre ih => cases hd : d.phase <;> simp [ready?, hd, ih]

/-- What is ready does not depend on what is behind it. -/
theorem ready?_extend {pre : List Booking} {data : Bytes} (h : ready? pre = some data)
    (post : List Booking) : ready? (pre ++ post) = some data := by
  induction pre with
  | nil => cases h
  | cons d pre ih => cases hd : d.phase <;> simp_all [ready?]

/-- Finalizing one reservation does not take away what is ready. -/
theorem ready?_finalized {pre post : List Booking} {k k' : Booking} {data : Bytes}
    (hw : k.phase = .writing) (h : ready? (pre ++ k :: post) = some data) :
    ready? (pre ++ k' :: post) = some data :=
  ready?_extend ((ready?_writing hw).symm.trans h) _

/-- What the consumer passes, and what it takes or stops at. -/
theorem front_cases (q : List Booking) :
    (ready? q = none ∧ ∃ gone, q = gone ++ rest q ∧ (∀ k ∈ gone, k.phase = .discarded) ∧
      ∀ k ∈ (rest q).head?, k.phase = .writing) ∨
    ∃ gone k, q = gone ++ k :: rest q ∧ (∀ d ∈ gone, d.phase = .discarded) ∧
      k.phase = .committed ∧ ready? q = some k.data := by
  induction q with
  | nil => exact .inl ⟨rfl, [], rfl, List.forall_mem_nil _, nofun⟩
  | cons k q ih =>
    cases hk : k.phase with
    | writing =>
      exact .inl ⟨by simp [ready?, hk], [], by simp [rest, hk], List.forall_mem_nil _,
        by simp [rest, hk]⟩
    | committed =>
      exact .inr ⟨[], k, by simp [rest, hk], List.forall_mem_nil _, hk, by simp [ready?, hk]⟩
    | discarded =>
      simp only [ready?, rest, hk]
      rcases ih with ⟨hr, gone, hq, hgone, hhead⟩ | ⟨gone, d, hq, hgone, hd, hr⟩
      · refine .inl ⟨hr, k :: gone, congrArg (k :: ·) hq, ?_, hhead⟩
        exact List.forall_mem_cons.mpr ⟨hk, hgone⟩
      · refine .inr ⟨k :: gone, d, congrArg (k :: ·) hq, ?_, hd, hr⟩
        exact List.forall_mem_cons.mpr ⟨hk, hgone⟩

end Queue

namespace Cell

variable {b : Band} {m : Memory} {c c' : Cell} {cells : List Cell}

/-- What a memory holds for a record is known from where it is. -/
theorem Stored.same (h : c.Stored b m) (h' : c'.Stored b m) (hpos : c'.pos = c.pos) :
    c'.phase = c.phase ∧ c'.data.length = c.data.length ∧
      (c.phase ≠ .discarded → c'.data = c.data) := by
  have hplace : c'.place b = c.place b := by rw [place, hpos, place]
  have hword : c'.word = c.word := by rw [← h'.word_eq, hplace, h.word_eq]
  have hlen : c'.data.length = c.data.length := by
    rw [← c'.wordLength_word h'.length_le, hword, c.wordLength_word h.length_le]
  have hbusy : decide (c'.phase = .writing) = decide (c.phase = .writing) := by
    rw [← c'.isBusy_word h'.length_le, hword, c.isBusy_word h.length_le]
  have hgone : decide (c'.phase = .discarded) = decide (c.phase = .discarded) := by
    rw [← c'.isDiscarded_word h'.length_le, hword, c.isDiscarded_word h.length_le]
  have hphase : c'.phase = c.phase := by
    cases hc : c.phase <;> cases hc' : c'.phase <;> simp [hc, hc'] at hbusy hgone ⊢
  refine ⟨hphase, hlen, fun hd => ?_⟩
  rw [← h'.load_eq (fun he => hd (hphase.symm.trans he)), hplace, hlen, h.load_eq hd]

theorem filter_discarded (h : c.phase = .discarded) :
    ((c :: cells).filterMap (booking? b)).filter (·.phase ≠ .discarded) =
      (cells.filterMap (booking? b)).filter (·.phase ≠ .discarded) := by
  rw [List.filterMap_cons]
  cases hp : c.padding <;> simp [booking?, hp, h]

theorem filter_live (h : c.Stored b m) (hd : c.phase ≠ .discarded) :
    ((c :: cells).filterMap (booking? b)).filter (·.phase ≠ .discarded) =
      ⟨c.pos % b.capacity, c.data, c.phase⟩ ::
        (cells.filterMap (booking? b)).filter (·.phase ≠ .discarded) := by
  have hp : c.padding = false := by
    cases hp : c.padding with
    | false => rfl
    | true => exact absurd (h.padding_discarded hp) hd
  simp [booking?, hp, hd]

end Cell

namespace Band

theorem Exhausted.of_produced {b : Band} {m m' : Memory} {size : Nat} (h : b.Exhausted m size)
    (hp : produced m' = produced m) : b.Exhausted m' size := by
  unfold Exhausted
  rw [hp]
  exact h

namespace Queued

variable {b : Band} {m : Memory} {q pre post : List Booking} {k : Booking}

/-- The record of one reservation among the records of the band. -/
theorem split (h : b.Queued m (pre ++ k :: post)) :
    ∃ cpre c cpost, b.Lays m (cpre ++ c :: cpost) ∧ c.booking? b = some k ∧
      cpre.filterMap (Cell.booking? b) = pre ∧ cpost.filterMap (Cell.booking? b) = post := by
  obtain ⟨cells, hl, hq⟩ := h
  obtain ⟨front, back, rfl, hfront, hback⟩ := List.filterMap_eq_append_iff.mp hq
  obtain ⟨skipped, c, cpost, rfl, hskip, hc, hpost⟩ := List.filterMap_eq_cons_iff.mp hback
  refine ⟨front ++ skipped, c, cpost, by simpa using hl, hc, ?_, hpost⟩
  rw [List.filterMap_append, hfront, List.filterMap_eq_nil_iff.mpr hskip, List.append_nil]

/-- What the parties see of a reservation's bytes is what the queue says. -/
theorem load_eq (h : b.Queued m q) (hk : k ∈ q) (hd : k.phase ≠ .discarded) :
    m.load (b.payloadStart k.slot) k.data.length = k.data := by
  obtain ⟨cells, hl, rfl⟩ := h
  obtain ⟨c, hc, hb⟩ := List.mem_filterMap.mp hk
  simp only [Cell.booking?] at hb
  split at hb
  · cases hb
  · cases hb
    exact (hl.stored c hc).load_eq hd

/-- A memory has one queue, but for what was discarded. -/
theorem live_eq {q' : List Booking} (h : b.Queued m q) (h' : b.Queued m q') :
    q'.filter (·.phase ≠ .discarded) = q.filter (·.phase ≠ .discarded) := by
  obtain ⟨cells, hl, rfl⟩ := h
  obtain ⟨cells', hl', rfl⟩ := h'
  have ht := hl.tiles
  have ht' := hl'.tiles
  have hs := hl.stored
  have hs' := hl'.stored
  clear hl hl'
  generalize consumed m = lo at ht ht'
  induction cells generalizing lo cells' with
  | nil =>
    cases cells' with
    | nil => rfl
    | cons c' cells' =>
      have hle := ht'.2.2.le
      have hpos := c'.extent_pos
      have heq : lo = produced m := ht
      omega
  | cons c cells ih =>
    cases cells' with
    | nil =>
      have hle := ht.2.2.le
      have hpos := c.extent_pos
      have heq : lo = produced m := ht'
      omega
    | cons c' cells' =>
      obtain ⟨hpos, -, ht⟩ := ht
      obtain ⟨hpos', -, ht'⟩ := ht'
      obtain ⟨hc, hs⟩ := List.forall_mem_cons.mp hs
      obtain ⟨hc', hs'⟩ := List.forall_mem_cons.mp hs'
      obtain ⟨hphase, hlen, hdata⟩ := hc.same hc' (hpos'.trans hpos.symm)
      have hext : c'.extent = c.extent := by rw [Cell.extent, hlen, Cell.extent]
      rw [hext] at ht'
      have hrest := ih cells' hs hs' _ ht ht'
      by_cases hd : c.phase = .discarded
      · rw [Cell.filter_discarded hd, Cell.filter_discarded (hphase.trans hd), hrest]
      · rw [Cell.filter_live hc hd, Cell.filter_live hc' (fun he => hd (hphase.symm.trans he)),
          hrest, hpos, hpos', hphase, hdata hd]

theorem live_mem {q' : List Booking} (h : b.Queued m q) (h' : b.Queued m q') (hk : k ∈ q)
    (hd : k.phase ≠ .discarded) : k ∈ q' := by
  have hmem : k ∈ q.filter (·.phase ≠ .discarded) := List.mem_filter.mpr ⟨hk, by simpa using hd⟩
  rw [← h.live_eq h'] at hmem
  exact (List.mem_filter.mp hmem).1

/-- Every reservation takes at least one of the bytes in use. -/
theorem length_le_used (h : b.Queued m q) : q.length ≤ b.used m := by
  obtain ⟨cells, hl, rfl⟩ := h
  have hcells := hl.tiles.length_le
  have hsome := List.length_filterMap_le (Cell.booking? b) cells
  unfold used
  omega

theorem write (h : b.Queued m (pre ++ k :: post)) (hw : k.phase = .writing) (pos : Nat)
    (bytes : Bytes) :
    b.Queued (b.write k.slot pos bytes m)
      (pre ++ { k with data := k.data.overlay pos bytes } :: post) := by
  obtain ⟨cpre, c, cpost, hl, hc, rfl, rfl⟩ := h.split
  simp only [Cell.booking?, Option.ite_none_left_eq_some, Option.some.injEq] at hc
  obtain ⟨hp, rfl⟩ := hc
  refine ⟨_, hl.write hw pos bytes, ?_⟩
  simp [Cell.booking?, hp]

theorem publish (h : b.Queued m (pre ++ k :: post)) (hw : k.phase = .writing) (discard : Bool) :
    b.Queued (b.publish k.slot discard m)
      (pre ++ { k with phase := if discard then .discarded else .committed } :: post) := by
  obtain ⟨cpre, c, cpost, hl, hc, rfl, rfl⟩ := h.split
  simp only [Cell.booking?, Option.ite_none_left_eq_some, Option.some.injEq] at hc
  obtain ⟨hp, rfl⟩ := hc
  refine ⟨_, hl.publish hw discard, ?_⟩
  simp [Cell.booking?, hp]

theorem signalled {m' : Memory} (h : b.Queued m q)
    (ha : ∀ lo n, lo + n ≤ 32 ∨ 40 ≤ lo → m.Agrees m' lo n) : b.Queued m' q := by
  obtain ⟨cells, hl, hq⟩ := h
  exact ⟨cells, hl.signalled ha, hq⟩

/-- No two reservations start at the same place. -/
theorem records_nodup (h : b.Queued m q) : (q.map (·.record)).Nodup := by
  obtain ⟨cells, hl, rfl⟩ := h
  rw [List.Nodup, List.pairwise_map, List.pairwise_filterMap]
  refine hl.apart.imp fun {c d} hcd k hk k' hk' => ?_
  simp only [Cell.booking?, Option.ite_none_left_eq_some, Option.some.injEq] at hk hk'
  obtain ⟨-, rfl⟩ := hk
  obtain ⟨-, rfl⟩ := hk'
  have hc := c.extent_pos
  have hd := d.extent_pos
  simp only [Cell.Apart, Cell.place] at hcd
  show c.pos % b.capacity ≠ d.pos % b.capacity
  omega

theorem finalize (h : b.Queued m (pre ++ k :: post)) (hw : k.phase = .writing) (discard : Bool) :
    b.Queued (b.finalize k.slot discard m)
      (pre ++ { k with phase := if discard then .discarded else .committed } :: post) := by
  have hp := h.publish hw discard
  simp only [Band.finalize]
  split
  · exact hp.signalled fun lo n hd => announce_agrees _ (by omega)
  · exact hp

/-- A reservation is granted with a record behind all others, or refused without any effect on the
queue. It leaves the range of the cursors only when so many bytes went through. -/
theorem reserve (h : b.Queued m q) (size : Nat) :
    (∃ k m', b.reserve size m = (.ok k.slot, m') ∧ k.data.length = size ∧ k.phase = .writing ∧
      b.Queued m' (q ++ [k])) ∨
    ∃ e m', b.reserve size m = (.error e, m') ∧ b.Queued m' q ∧ produced m' = produced m ∧
      (e = .overflow → b.Exhausted m size) := by
  obtain ⟨cells, hl, rfl⟩ := h
  have hplace := hl.place_eq size
  by_cases hs : size = 0 ∨ b.longest < size
  · rw [if_pos hs] at hplace
    exact .inr ⟨.invalidSize size b.longest, m, by simp only [Band.reserve, hplace],
      ⟨cells, hl, rfl⟩, rfl, by simp⟩
  rw [if_neg hs] at hplace
  by_cases hroom : b.capacity < b.used m + (b.placement (produced m) size).padding + span size
  · rw [if_pos hroom] at hplace
    exact .inr ⟨.full size (b.capacity - b.used m), m, by simp only [Band.reserve, hplace],
      ⟨cells, hl, rfl⟩, rfl, by simp⟩
  rw [if_neg hroom] at hplace
  obtain ⟨data, hdata⟩ : ∃ data, data = (b.stamp (b.placement (produced m) size) size m).load
      (b.payloadStart ⟨b.recordOf (b.placement (produced m) size), size⟩) size := ⟨_, rfl⟩
  have hlen : data.length = size := by simp [hdata]
  subst hlen
  have hsize : data.length ≤ b.longest := by omega
  have hroom := Nat.le_of_not_lt hroom
  by_cases hstop : sizeLimit ≤
      produced m + ((b.placement (produced m) data.length).padding + span data.length)
  · refine .inr ⟨.overflow, _, ?_, ⟨cells, hl.stamp hsize hroom, rfl⟩, ?_, fun _ => hstop⟩
    · simp only [Band.reserve, hplace, if_pos hstop]
    · exact produced_of_agrees (stamp_agrees b m _ data fun d _ =>
        .inl (Nat.le_trans (by decide) (hl.offset_le_place d)))
  · refine .inl ⟨⟨b.recordOf (b.placement (produced m) data.length), data, .writing⟩, _, ?_, rfl,
      rfl, _, hl.book hsize hroom (Nat.lt_of_not_le hstop) hdata.symm, ?_⟩
    · simp only [Band.reserve, hplace, if_neg hstop, Booking.slot]
    · rw [List.filterMap_append]
      congr 1
      rw [recordOf_placement]
      simp only [booked]
      split <;> simp [Cell.booking?]

end Queued

/-- What the cells at the front say about the queue. -/
theorem queue_front (b : Band) (cells : List Cell)
    (hpad : ∀ c ∈ cells, c.padding = true → c.phase = .discarded) :
    match cells.dropWhile (·.phase = .discarded) with
    | [] =>
      Queue.ready? (cells.filterMap (Cell.booking? b)) = none ∧
        Queue.rest (cells.filterMap (Cell.booking? b)) = []
    | c :: cs =>
      c.phase = .committed ∧ Queue.ready? (cells.filterMap (Cell.booking? b)) = some c.data ∧
        Queue.rest (cells.filterMap (Cell.booking? b)) = cs.filterMap (Cell.booking? b) ∨
      c.phase = .writing ∧ Queue.ready? (cells.filterMap (Cell.booking? b)) = none ∧
        Queue.rest (cells.filterMap (Cell.booking? b)) =
          (c :: cs).filterMap (Cell.booking? b) := by
  induction cells with
  | nil => exact ⟨rfl, rfl⟩
  | cons c cs ih =>
    have ih := ih fun d hd => hpad d (List.mem_cons_of_mem _ hd)
    have hc := hpad c List.mem_cons_self
    cases hp : c.phase with
    | discarded =>
      rw [List.dropWhile_cons_of_pos (by simp [hp])]
      cases hpad : c.padding <;>
        simpa [Cell.booking?, hpad, Queue.ready?, Queue.rest, hp] using ih
    | committed =>
      have hpad : c.padding = false := Bool.eq_false_iff.mpr fun he => by simp [hc he] at hp
      rw [List.dropWhile_cons_of_neg (by simp [hp])]
      simp [Cell.booking?, hpad, Queue.ready?, Queue.rest, hp]
    | writing =>
      have hpad : c.padding = false := Bool.eq_false_iff.mpr fun he => by simp [hc he] at hp
      rw [List.dropWhile_cons_of_neg (by simp [hp])]
      simp [Cell.booking?, hpad, Queue.ready?, Queue.rest, hp]

namespace Queued

variable {b : Band} {m : Memory} {q : List Booking}

/-- The consumer finds the oldest reservation that is not discarded, if it is committed; taking it
leaves the queue behind it. -/
theorem front (h : b.Queued m q) :
    ∃ m', (Queue.ready? q = none ∧ b.front m = (.ok none, m') ∧ b.Queued m' (Queue.rest q)) ∨
      ∃ f, Queue.ready? q = some f.data ∧ b.front m = (.ok (some f), m') ∧
        b.Queued (setConsumed m' f.next) (Queue.rest q) := by
  obtain ⟨cells, hl, rfl⟩ := h
  obtain ⟨m', hm', hf⟩ := hl.frontFrom (Nat.le_refl _)
  change b.front m = _ at hf
  have hq := queue_front b cells fun c hc => (hl.stored c hc).padding_discarded
  refine ⟨m', ?_⟩
  cases hd : cells.dropWhile (·.phase = .discarded) with
  | nil =>
    rw [hd] at hq hm' hf
    exact .inl ⟨hq.1, hf, hq.2 ▸ ⟨[], hm', rfl⟩⟩
  | cons c cs =>
    rw [hd] at hq hm' hf
    rcases hq with ⟨hp, hr, he⟩ | ⟨hp, hr, he⟩
    · refine .inr ⟨⟨c.data, c.pos + c.extent⟩, hr, ?_, ?_⟩
      · simpa [hp] using hf
      · rw [he]
        exact ⟨cs, hm'.release, rfl⟩
    · refine .inl ⟨hr, by simpa [hp] using hf, ?_⟩
      rw [he]
      exact ⟨c :: cs, hm', rfl⟩

theorem receive (h : b.Queued m q) :
    ∃ m', b.receive m = (.ok (Queue.ready? q), m') ∧ b.Queued m' (Queue.rest q) := by
  obtain ⟨m', ⟨hr, hf, hq⟩ | ⟨f, hr, hf, hq⟩⟩ := h.front
  · exact ⟨m', by simp only [Band.receive, hf, hr], hq⟩
  · exact ⟨setConsumed m' f.next, by simp only [Band.receive, hf, hr], hq⟩

end Queued
end Band
end ChainRelay.Ring
