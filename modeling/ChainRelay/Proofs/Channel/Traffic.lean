import ChainRelay.Proofs.Channel.Ledger
import ChainRelay.Proofs.Channel.View

/-!
The traffic of one channel: any number of parties reserve, write, finalize and receive through any
views of its region. Whatever they do, a ledger of the reservations tells what the consumer gets
(`records_leave_in_reservation_order`).
-/

namespace ChainRelay

open ChainRelay.Ring

def Reservation.bytes (r : Reservation) (s : Shared) : Bytes :=
  (r.channel.memory s).load (r.channel.band.payloadStart r.slot) r.slot.len

theorem Reservation.bytes_write (r : Reservation) (pos : Nat) (bytes : Bytes) (s : Shared) :
    r.bytes (r.write pos bytes s) = (r.bytes s).overlay pos bytes := by
  unfold Reservation.bytes Reservation.write Channel.memory
  rw [Shared.get_onRegion_same, Band.write, Memory.load_store_inside, Band.cut]
  have hcut := Bytes.overlay_take (r.bytes s) pos bytes
  rwa [Reservation.bytes, Memory.length_load] at hcut

/-- What the parties share, the views they have, and the reservations that were granted, in their
order. A reservation that was finalized is in nobody's hands. -/
structure Traffic where
  shared : Shared
  views : List Channel
  handed : List (Option Reservation) := []

namespace Traffic

/-- What one party may do to the channel `c`. -/
inductive Step (c : Channel) : Traffic → ChannelEvent → Traffic → Prop where
  | attach {t : Traffic} {name : String} {v : Channel} (h : t.shared.attachChannel name = .ok v)
      (hr : v.region = c.region) : Step c t .attached { t with views := v :: t.views }
  | reserve {t : Traffic} {v : Channel} {size : Nat} {r : Reservation} {s : Shared}
      (hv : v ∈ t.views) (h : v.reserve size t.shared = (.ok r, s)) :
      Step c t (.reserved size (r.bytes s)) ⟨s, t.views, t.handed ++ [some r]⟩
  | refuse {t : Traffic} {v : Channel} {size : Nat} {e : ReserveError} {s : Shared}
      (hv : v ∈ t.views) (h : v.reserve size t.shared = (.error e, s)) :
      Step c t (.refused size e) { t with shared := s }
  | write {t : Traffic} {r : Reservation} (ticket : Nat) (h : t.handed[ticket]? = some (some r))
      (pos : Nat) (bytes : Bytes) :
      Step c t (.wrote ticket pos bytes) { t with shared := r.write pos bytes t.shared }
  | commit {t : Traffic} {r : Reservation} (ticket : Nat) (h : t.handed[ticket]? = some (some r)) :
      Step c t (.committed ticket (r.bytes t.shared))
        ⟨r.commit t.shared, t.views, t.handed.set ticket none⟩
  | discard {t : Traffic} {r : Reservation} (ticket : Nat)
      (h : t.handed[ticket]? = some (some r)) :
      Step c t (.discarded ticket) ⟨r.discard t.shared, t.views, t.handed.set ticket none⟩
  | abandon {t : Traffic} {r : Reservation} (ticket : Nat)
      (h : t.handed[ticket]? = some (some r)) :
      Step c t (.discarded ticket) ⟨r.abandon t.shared, t.views, t.handed.set ticket none⟩
  | receive {t : Traffic} {v : Channel} (hv : v ∈ t.views) :
      Step c t (.received (v.receive t.shared).1) { t with shared := (v.receive t.shared).2 }
  | elsewhere {t : Traffic} {s : Shared}
      (h : s.regions.get c.region = t.shared.regions.get c.region) :
      Step c t .elsewhere { t with shared := s }

inductive Run (c : Channel) : Traffic → List ChannelEvent → Traffic → Prop where
  | nil {t : Traffic} : Run c t [] t
  | cons {t u w : Traffic} {e : ChannelEvent} {es : List ChannelEvent} (h : Step c t e u)
      (hr : Run c u es w) : Run c t (e :: es) w

/-- The traffic of a channel that was built some time ago and not built over since. -/
def Reached (c : Channel) (t : Traffic) : Prop :=
  ∃ (plan : ChannelPlan) (s₀ s₁ : Shared) (events : List ChannelEvent),
    s₀.buildChannel plan = (.ok c, s₁) ∧ Run c ⟨s₁, [c], []⟩ events t

end Traffic

def Entry.ofBooking (k : Booking) : Entry :=
  ⟨k.data, match k.phase with
    | .writing => .writing
    | .committed => .committed
    | .discarded => .discarded⟩

abbrev Ledger.ofQueue (q : List Booking) : Ledger := q.map Entry.ofBooking

theorem Ledger.front?_ofQueue (q : List Booking) :
    Ledger.front? (ofQueue q) = Queue.ready? q := by
  induction q with
  | nil => rfl
  | cons k q ih => cases hp : k.phase <;> simp [front?, Queue.ready?, Entry.ofBooking, hp, ih]

/-- What the consumer leaves behind is the rest of the queue; what it passed is settled. -/
theorem Ledger.taken_ofQueue (q : List Booking) :
    ∃ gone past, q = gone ++ Queue.rest q ∧ (∀ k ∈ gone, k.phase ≠ .writing) ∧
      Ledger.taken (ofQueue q) = past ++ ofQueue (Queue.rest q) ∧ past.length = gone.length ∧
      ∀ e ∈ past, e.Settled := by
  induction q with
  | nil => exact ⟨[], [], rfl, nofun, rfl, rfl, nofun⟩
  | cons k q ih =>
    cases hp : k.phase with
    | writing =>
      exact ⟨[], [], by simp [Queue.rest, hp], nofun, by
        simp [Queue.rest, taken, Entry.ofBooking, hp], rfl, nofun⟩
    | committed =>
      refine ⟨[k], [⟨k.data, .received⟩], by simp [Queue.rest, hp], by simp [hp], ?_, rfl, ?_⟩
      · simp [Queue.rest, taken, Entry.ofBooking, hp]
      · simp [Entry.Settled]
    | discarded =>
      obtain ⟨gone, past, hq, hgone, ht, hlen, hs⟩ := ih
      refine ⟨k :: gone, ⟨k.data, .discarded⟩ :: past, ?_, ?_, ?_, by simp [hlen], ?_⟩
      · simpa [Queue.rest, hp] using hq
      · simpa [hp] using hgone
      · simp only [ofQueue] at ht
        simp [Queue.rest, taken, Entry.ofBooking, hp, ht]
      · intro e he
        rcases List.mem_cons.mp he with rfl | he
        · exact .inl rfl
        · exact hs e he

namespace Traffic

/-- The ledger tells the truth about the channel: its last part is the queue, what is before it is
settled, and the reservations in someone's hands are those being written. -/
structure Tracks (c : Channel) (t : Traffic) (l past : Ledger) (q : List Booking) : Prop where
  views : ∀ v ∈ t.views, c.Views v
  queued : c.Queued t.shared q
  ledger_eq : l = past ++ Ledger.ofQueue q
  settled : ∀ e ∈ past, e.Settled
  length_eq : t.handed.length = l.length
  held : ∀ (ticket : Nat) (r : Reservation), t.handed[ticket]? = some (some r) →
    ∃ j k, ticket = past.length + j ∧ q[j]? = some k ∧ k.phase = .writing ∧ c.Holds r k

variable {c : Channel} {t u : Traffic} {l past : Ledger} {q : List Booking}

theorem Tracks.of_queued (h : Tracks c t l past q) {s : Shared} (hq : c.Queued s q) :
    Tracks c { t with shared := s } l past q :=
  ⟨h.views, hq, h.ledger_eq, h.settled, h.length_eq, h.held⟩

/-- The reservation in someone's hands, where it stands in the queue and in the ledger. -/
theorem Tracks.split (h : Tracks c t l past q) {ticket : Nat} {r : Reservation}
    (hr : t.handed[ticket]? = some (some r)) :
    ∃ pre k post, q = pre ++ k :: post ∧ ticket = past.length + pre.length ∧
      k.phase = .writing ∧ c.Holds r k ∧ l[ticket]? = some ⟨k.data, .writing⟩ ∧
      r.bytes t.shared = k.data := by
  obtain ⟨j, k, rfl, hk, hw, hhold⟩ := h.held ticket r hr
  obtain ⟨pre, post, rfl, rfl⟩ := Ledger.split_of_getElem? hk
  refine ⟨pre, k, post, rfl, rfl, hw, hhold, ?_, h.queued.load_eq (by simp) hhold hw⟩
  rw [h.ledger_eq, List.getElem?_append_right (Nat.le_add_right _ _)]
  simp [Entry.ofBooking, hw]

/-- Changing the entry of one pending reservation changes the queue at its place. -/
theorem modify_ofQueue (past : Ledger) (pre : List Booking) (k k' : Booking)
    (post : List Booking) {f : Entry → Entry} (hf : f (.ofBooking k) = .ofBooking k') :
    (past ++ Ledger.ofQueue (pre ++ k :: post)).modify (past.length + pre.length) f =
      past ++ Ledger.ofQueue (pre ++ k' :: post) := by
  have h := Ledger.modify_split (past ++ Ledger.ofQueue pre) (.ofBooking k) (Ledger.ofQueue post) f
  rw [List.length_append, List.length_map] at h
  simpa [hf] using h

/-- One pending reservation changes, and with it at most its holder. -/
theorem Tracks.change {pre post : List Booking} {k k' : Booking}
    (h : Tracks c t l past (pre ++ k :: post)) (hv : u.views = t.views)
    (hq : c.Queued u.shared (pre ++ k' :: post)) {f : Entry → Entry}
    (hf : f (.ofBooking k) = .ofBooking k') (hlen : u.handed.length = t.handed.length)
    (hother : ∀ i, i ≠ past.length + pre.length → u.handed[i]? = t.handed[i]?)
    (hself : ∀ r, u.handed[past.length + pre.length]? = some (some r) →
      k'.phase = .writing ∧ c.Holds r k') :
    Tracks c u (l.modify (past.length + pre.length) f) past (pre ++ k' :: post) := by
  refine ⟨by rw [hv]; exact h.views, hq, ?_, h.settled, ?_, ?_⟩
  · rw [h.ledger_eq, modify_ofQueue past pre k k' post hf]
  · rw [hlen, List.length_modify, h.length_eq]
  · intro ticket r hr
    by_cases hi : ticket = past.length + pre.length
    · subst hi
      exact ⟨pre.length, k', rfl, by simp, hself r hr⟩
    · rw [hother ticket hi] at hr
      obtain ⟨j, d, rfl, hd, hw, hhold⟩ := h.held ticket r hr
      have hj : j ≠ pre.length := fun hj => hi (by rw [hj])
      refine ⟨j, d, rfl, ?_, hw, hhold⟩
      rcases Nat.lt_or_gt_of_ne hj with hlt | hlt
      · rwa [List.getElem?_append_left hlt] at hd ⊢
      · obtain ⟨i, rfl⟩ := Nat.exists_eq_add_of_lt hlt
        rw [List.getElem?_append_right (by omega)] at hd ⊢
        simpa [show pre.length + i + 1 - pre.length = i + 1 by omega] using hd

theorem Tracks.write (h : Tracks c t l past q) {ticket : Nat} {r : Reservation}
    (hr : t.handed[ticket]? = some (some r)) (pos : Nat) (bytes : Bytes) :
    l.Open ticket ∧ ∃ q', Tracks c { t with shared := r.write pos bytes t.shared }
      (l.next (.wrote ticket pos bytes)) past q' := by
  obtain ⟨pre, k, post, rfl, rfl, hw, hhold, hl, -⟩ := h.split hr
  refine ⟨⟨_, hl⟩, _, h.change (u := { t with shared := r.write pos bytes t.shared }) rfl
    (h.queued.write hhold hw pos bytes) ?_ rfl (fun _ _ => rfl) ?_⟩
  · simp [Entry.ofBooking, hw]
  · intro r' hr'
    obtain rfl : r = r' := by simpa [hr] using hr'
    exact ⟨hw, hhold.view, by rw [hhold.slot_eq]; simp [Booking.slot]⟩

/-- A reservation that was finalized is nobody's. -/
theorem Tracks.finalize {pre post : List Booking} {k : Booking}
    (h : Tracks c t l past (pre ++ k :: post)) (k' : Booking) {s : Shared}
    (hq : c.Queued s (pre ++ k' :: post)) {f : Entry → Entry}
    (hf : f (.ofBooking k) = .ofBooking k') :
    Tracks c ⟨s, t.views, t.handed.set (past.length + pre.length) none⟩
      (l.modify (past.length + pre.length) f) past (pre ++ k' :: post) := by
  refine h.change (u := ⟨s, t.views, _⟩) rfl hq hf (by simp) (fun i hi => ?_) fun r hr => ?_
  · exact List.getElem?_set_ne (Ne.symm hi)
  · simp only [List.getElem?_set_self'] at hr
    cases hg : t.handed[past.length + pre.length]? <;> simp [hg] at hr

theorem Tracks.reserve (h : Tracks c t l past q) {v : Channel} {size : Nat} {r : Reservation}
    {s : Shared} (hv : v ∈ t.views) (hr : v.reserve size t.shared = (.ok r, s)) :
    (r.bytes s).length = size ∧ ∃ q', Tracks c ⟨s, t.views, t.handed ++ [some r]⟩
      (l.next (.reserved size (r.bytes s))) past q' := by
  have hview := h.views v hv
  rcases h.queued.reserve hview size with ⟨k, s', he, hlen, hw, hq⟩ | ⟨e, s', he, -, -⟩
  · obtain ⟨⟨⟩, rfl⟩ := Prod.mk.inj (hr.symm.trans he)
    have hhold : c.Holds ⟨v, k.slot⟩ k := ⟨hview, rfl⟩
    have hbytes : Reservation.bytes ⟨v, k.slot⟩ s = k.data :=
      hq.load_eq (by simp) hhold hw
    rw [hbytes]
    refine ⟨hlen, q ++ [k], ?_⟩
    constructor
    case views => exact h.views
    case queued => exact hq
    case ledger_eq => simp [Ledger.next, h.ledger_eq, Entry.ofBooking, hw]
    case settled => exact h.settled
    case length_eq => simp [Ledger.next, h.length_eq]
    case held =>
      intro ticket r' hr'
      rcases Nat.lt_or_ge ticket t.handed.length with hlt | hge
      · rw [List.getElem?_append_left hlt] at hr'
        obtain ⟨j, d, rfl, hd, hopen⟩ := h.held ticket r' hr'
        exact ⟨j, d, rfl, by rw [List.getElem?_append_left (List.getElem?_eq_some_iff.mp hd).1, hd],
          hopen⟩
      · have hsize := h.length_eq
        rw [h.ledger_eq, List.length_append, List.length_map] at hsize
        rw [List.getElem?_append_right hge] at hr'
        have hz : ticket - t.handed.length = 0 := by
          have := (List.getElem?_eq_some_iff.mp hr').1
          simp only [List.length_singleton] at this
          omega
        rw [hz] at hr'
        obtain rfl : (⟨v, k.slot⟩ : Reservation) = r' := by simpa using hr'
        exact ⟨q.length, k, by omega, by simp, hw, hhold⟩
  · cases hr.symm.trans he

theorem Tracks.receive (h : Tracks c t l past q) {v : Channel} (hv : v ∈ t.views) :
    (v.receive t.shared).1 = .ok l.front? ∧
      ∃ past' q', Tracks c { t with shared := (v.receive t.shared).2 } l.taken past' q' := by
  obtain ⟨hanswer, hq⟩ := h.queued.receive (h.views v hv)
  obtain ⟨gone, more, hgone, hwriting, hmore, hlen, hsettled⟩ := Ledger.taken_ofQueue q
  have hsize : t.handed.length = past.length + q.length := by
    rw [h.length_eq, h.ledger_eq, List.length_append, List.length_map]
  have htaken : l.taken = past ++ more ++ Ledger.ofQueue (Queue.rest q) := by
    rw [h.ledger_eq, Ledger.taken_append h.settled, hmore, List.append_assoc]
  constructor
  · rw [hanswer, h.ledger_eq, Ledger.front?_append h.settled, Ledger.front?_ofQueue]
  · generalize (v.receive t.shared).2 = s at hq ⊢
    generalize Queue.rest q = rest at hq hgone htaken
    clear hmore
    subst hgone
    refine ⟨past ++ more, rest, ?_⟩
    constructor
    case views => exact h.views
    case queued => exact hq
    case ledger_eq => exact htaken
    case settled => exact List.forall_mem_append.mpr ⟨h.settled, hsettled⟩
    case length_eq =>
      rw [htaken]
      simp only [List.length_append, List.length_map] at hsize ⊢
      omega
    case held =>
      intro ticket r hr
      obtain ⟨j, k, rfl, hk, hw, hhold⟩ := h.held ticket r hr
      rcases Nat.lt_or_ge j gone.length with hlt | hge
      · rw [List.getElem?_append_left hlt] at hk
        exact absurd hw (hwriting k (List.mem_of_getElem? hk))
      · rw [List.getElem?_append_right hge] at hk
        exact ⟨j - gone.length, k, by rw [List.length_append]; omega, hk, hw, hhold⟩

/-- What a party does is allowed, and the ledger goes on telling the truth. -/
theorem step_tracks {e : ChannelEvent} (h : Tracks c t l past q) (hs : Step c t e u) :
    l.Allows e ∧ ∃ past' q', Tracks c u (l.next e) past' q' := by
  cases hs with
  | attach ha hr =>
    have hview := Shared.attachChannel_views ha hr h.queued
    exact ⟨trivial, past, q,
      { h with views := List.forall_mem_cons.mpr ⟨hview, h.views⟩ }⟩
  | reserve hv hr =>
    obtain ⟨hlen, q', hq⟩ := h.reserve hv hr
    exact ⟨hlen, past, q', hq⟩
  | refuse hv hr =>
    rcases h.queued.reserve (h.views _ hv) _ with ⟨k, s', he, -⟩ | ⟨e', s', he, hq, -⟩
    · cases hr.symm.trans he
    · obtain ⟨-, rfl⟩ := Prod.mk.inj (hr.symm.trans he)
      exact ⟨trivial, past, q, h.of_queued hq⟩
  | write ticket hr pos bytes =>
    obtain ⟨ho, q', hq⟩ := h.write hr pos bytes
    exact ⟨ho, past, q', hq⟩
  | commit ticket hr =>
    obtain ⟨pre, k, post, rfl, rfl, hw, hhold, hl, hbytes⟩ := h.split hr
    rw [← hbytes] at hl
    exact ⟨hl, past, _, h.finalize { k with phase := .committed }
      (h.queued.commit hhold hw) rfl⟩
  | discard ticket hr =>
    obtain ⟨pre, k, post, rfl, rfl, hw, hhold, hl, -⟩ := h.split hr
    exact ⟨⟨_, hl⟩, past, _, h.finalize { k with phase := .discarded }
      (h.queued.discard hhold hw) rfl⟩
  | abandon ticket hr =>
    obtain ⟨pre, k, post, rfl, rfl, hw, hhold, hl, -⟩ := h.split hr
    exact ⟨⟨_, hl⟩, past, _, h.finalize { k with phase := .discarded }
      (h.queued.abandon hhold hw) rfl⟩
  | receive hv =>
    obtain ⟨ha, past', q', hq⟩ := h.receive hv
    exact ⟨ha, past', q', hq⟩
  | elsewhere he => exact ⟨trivial, past, q, h.of_queued (h.queued.of_memory he)⟩

theorem run_tracks {events : List ChannelEvent} (h : Tracks c t l past q)
    (hr : Run c t events u) :
    l.Admits events ∧ ∃ past' q', Tracks c u (l.after events) past' q' := by
  induction hr generalizing l past q with
  | nil => exact ⟨trivial, past, q, h⟩
  | cons hs _ ih =>
    obtain ⟨ha, past', q', hnext⟩ := step_tracks h hs
    obtain ⟨has, hafter⟩ := ih hnext
    exact ⟨⟨ha, has⟩, hafter⟩

theorem built_tracks {plan : ChannelPlan} {s₀ s₁ : Shared}
    (h : s₀.buildChannel plan = (.ok c, s₁)) : Tracks c ⟨s₁, [c], []⟩ [] [] [] :=
  ⟨fun _ hv => List.mem_singleton.mp hv ▸ .refl c, Shared.buildChannel_queued h, rfl, nofun, rfl,
    nofun⟩

/-- An event moves no other reservation from hand to hand. -/
theorem Step.handed_other {e : ChannelEvent} (hs : Step c t e u) {ticket : Nat}
    {r : Option Reservation} (h : t.handed[ticket]? = some r) (hother : e.ticket? ≠ some ticket) :
    u.handed[ticket]? = some r := by
  have hset {i : Nat} (hne : i ≠ ticket) : (t.handed.set i none)[ticket]? = some r := by
    rw [List.getElem?_set_ne hne, h]
  cases hs with
  | attach | refuse | write | receive | elsewhere => exact h
  | reserve hv hr =>
    have hlt := (List.getElem?_eq_some_iff.mp h).1
    exact (List.getElem?_append_left hlt).trans h
  | commit i hi => exact hset fun he => hother (congrArg some he)
  | discard i hi => exact hset fun he => hother (congrArg some he)
  | abandon i hi => exact hset fun he => hother (congrArg some he)

/-- A change that the channel does not see. -/
theorem Run.unseen {s s' : Shared} {views : List Channel} {handed : List (Option Reservation)}
    (h : s'.regions.get c.region = s.regions.get c.region) :
    Run c ⟨s, views, handed⟩ [.elsewhere] ⟨s', views, handed⟩ :=
  .cons (.elsewhere (t := ⟨s, views, handed⟩) h) .nil

/-- At any moment the channel is a queue, of which every view is a view. -/
theorem Reached.queued (h : Reached c t) :
    (∃ q, c.Queued t.shared q) ∧ ∀ v ∈ t.views, c.Views v := by
  obtain ⟨plan, s₀, s₁, events, hb, hr⟩ := h
  obtain ⟨-, past, q, ht⟩ := run_tracks (built_tracks hb) hr
  exact ⟨⟨q, ht.queued⟩, ht.views⟩

/-- The parties see a queue of reservations. The consumer gets the oldest committed record that it
has not received, as it was when it was committed, once all reservations before it are finalized,
and nothing otherwise; what it was given are the received records in the order of their reservation.
No cursor leaves its range before so many bytes went through. -/
theorem records_leave_in_reservation_order {plan : ChannelPlan} {s₀ s₁ : Shared}
    {events : List ChannelEvent} (hb : s₀.buildChannel plan = (.ok c, s₁))
    (hr : Run c ⟨s₁, [c], []⟩ events t) :
    Ledger.Admits [] events ∧
      (Ledger.after [] events).delivered = Ledger.deliveries events ∧
      ∀ v ∈ t.views, ∀ (size : Nat) (s : Shared),
        v.reserve size t.shared = (.error .overflow, s) → c.Exhausted t.shared size := by
  obtain ⟨ha, past, q, ht⟩ := run_tracks (built_tracks hb) hr
  refine ⟨ha, Ledger.delivered_after List.Pairwise.nil ha, fun v hv size s hover => ?_⟩
  rcases ht.queued.reserve (ht.views v hv) size with ⟨k, s', he, -⟩ | ⟨e, s', he, -, ho⟩
  · cases hover.symm.trans he
  · cases hover.symm.trans he
    exact (ho rfl).1

def firstChannel : Channel := ⟨0, ⟨headerSpan, 1048576⟩, none⟩

def firstShared : Shared := (({} : Shared).buildChannel {}).2

theorem buildChannel_first :
    ({} : Shared).buildChannel {} = (.ok firstChannel, firstShared) := rfl

/-- A record that was committed first waits for the one that was reserved first. -/
theorem records_leave_in_reservation_order_held_back :
    ∃ (c : Channel) (s₁ : Shared) (events : List ChannelEvent) (t : Traffic),
      ({} : Shared).buildChannel {} = (.ok c, s₁) ∧ Run c ⟨s₁, [c], []⟩ events t ∧
      events[4]? = some (.received (.ok none)) ∧
      (Ledger.after [] events).delivered = [[7, 8], [9]] := by
  have h₁ : firstChannel.reserve 2 firstShared =
    (.ok ⟨firstChannel, ⟨0, 2⟩⟩, (firstChannel.reserve 2 firstShared).2) := rfl
  have h₂ : firstChannel.reserve 1 (firstChannel.reserve 2 firstShared).2 =
    (.ok ⟨firstChannel, ⟨16, 1⟩⟩,
      (firstChannel.reserve 1 (firstChannel.reserve 2 firstShared).2).2) := rfl
  have hr := Run.cons (c := firstChannel) (t := ⟨firstShared, [firstChannel], []⟩)
      (.reserve List.mem_cons_self h₁)
    (.cons (.reserve List.mem_cons_self h₂)
    (.cons (.write 1 rfl 0 [9])
    (.cons (.commit 1 rfl)
    (.cons (.receive List.mem_cons_self)
    (.cons (.write 0 rfl 0 [7, 8])
    (.cons (.commit 0 rfl)
    (.cons (.receive List.mem_cons_self)
    (.cons (.receive List.mem_cons_self) .nil))))))))
  have hd := (records_leave_in_reservation_order buildChannel_first hr).2.1
  exact ⟨_, _, _, _, buildChannel_first, hr, rfl, hd.trans rfl⟩

end Traffic
end ChainRelay
