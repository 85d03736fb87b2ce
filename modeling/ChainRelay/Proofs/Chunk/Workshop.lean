import ChainRelay.Proofs.Chunk.Draft
import ChainRelay.Proofs.Copy.Effects
import ChainRelay.Proofs.Store.Account

/-!
Writers of chunks at one channel. They open chunks of any class, fill and link them, commit them or
give them up, while other parties go on with what they do and a consumer takes records off the
channel. Every committed chunk is received as it was last filled and linked if its class is usable,
and rejected otherwise (`Workshop.committed_chunks_are_judged_by_class`).
-/

namespace ChainRelay

open ChainRelay.Ring

inductive Use where
  /-- A chunk in the hands of its writer. -/
  | draft (d : Draft)
  /-- A chunk that was committed. -/
  | sealed (d : Draft)
  /-- A chunk that was given up. -/
  | dropped
  /-- No chunk that one of the writers opened. -/
  | other

/-- A channel with its parties, and what its reservations are used for, in their order. -/
structure Workshop where
  traffic : Traffic
  uses : List Use := []

namespace Workshop

def noting (uses : List Use) : ChannelEvent → List Use
  | .reserved .. => uses ++ [.other]
  | _ => uses

/-- What happens next at the channel `c`. A drain of a store is several `take`s. -/
inductive Step (c : Channel) : Workshop → List ChannelEvent → Workshop → Prop where
  | opens {t : Traffic} {uses : List Use} {w : Writer} {size : SizeClass} {chunk : OpenChunk}
      {s : Shared} (hv : w.channel ∈ t.views) (h : t.shared.openChunk w size = (.ok chunk, s)) :
      Step c ⟨t, uses⟩ [.reserved size.totalSize (chunk.reservation.bytes s), .elsewhere]
        ⟨⟨s, t.views, t.handed ++ [some chunk.reservation]⟩,
          uses ++ [.draft (.opened chunk.reservation size chunk.id w.tally)]⟩
  | refuse {t : Traffic} {uses : List Use} {w : Writer} {size : SizeClass} {e : ReserveError}
      {s : Shared} (hv : w.channel ∈ t.views) (h : t.shared.openChunk w size = (.error e, s)) :
      Step c ⟨t, uses⟩ [.refused size.totalSize e, .elsewhere] ⟨{ t with shared := s }, uses⟩
  | fill {t : Traffic} {uses : List Use} {ticket : Nat} {d : Draft}
      (h : uses[ticket]? = some (.draft d)) (data : Bytes) :
      Step c ⟨t, uses⟩ [.wrote ticket chunkHeaderSize (d.chunk.stored data)]
        ⟨{ t with shared := t.shared.fillChunk d.chunk data },
          uses.set ticket (.draft (d.filled data))⟩
  | link {t : Traffic} {uses : List Use} {ticket : Nat} {d : Draft}
      (h : uses[ticket]? = some (.draft d)) (next : ChunkId) :
      Step c ⟨t, uses⟩ [] ⟨t, uses.set ticket (.draft (d.linked next))⟩
  | commit {t : Traffic} {uses : List Use} {ticket : Nat} {d : Draft}
      (h : uses[ticket]? = some (.draft d)) :
      Step c ⟨t, uses⟩ [.wrote ticket 0 d.chunk.header.encode,
          .committed ticket (d.chunk.sealed t.shared), .elsewhere]
        ⟨⟨t.shared.commitChunk d.chunk, t.views, t.handed.set ticket none⟩,
          uses.set ticket (.sealed d)⟩
  | discard {t : Traffic} {uses : List Use} {ticket : Nat} {d : Draft}
      (h : uses[ticket]? = some (.draft d)) :
      Step c ⟨t, uses⟩ [.discarded ticket, .elsewhere]
        ⟨⟨t.shared.discardChunk d.chunk, t.views, t.handed.set ticket none⟩,
          uses.set ticket .dropped⟩
  | abandon {t : Traffic} {uses : List Use} {ticket : Nat} {d : Draft}
      (h : uses[ticket]? = some (.draft d)) :
      Step c ⟨t, uses⟩ [.discarded ticket]
        ⟨⟨t.shared.abandonChunk d.chunk, t.views, t.handed.set ticket none⟩,
          uses.set ticket .dropped⟩
  | take {t : Traffic} {uses : List Use} {v : Channel} {store store' : Store}
      {answer : Store.Taken} {s : Shared} (hv : v ∈ t.views)
      (h : store.takeOne v t.shared = (.ok answer, store', s)) :
      Step c ⟨t, uses⟩ [.received (v.receive t.shared).1, .elsewhere]
        ⟨{ t with shared := s }, uses⟩
  /-- Another party does something that is nothing to a chunk in the hands of its writer. -/
  | beside {t u : Traffic} {uses : List Use} {e : ChannelEvent} (h : Traffic.Step c t e u)
      (hother : ∀ ticket d, uses[ticket]? = some (.draft d) → e.ticket? ≠ some ticket)
      (hcount : ∀ n, (u.shared.tallies.get n).chunksCommitted =
        (t.shared.tallies.get n).chunksCommitted) :
      Step c ⟨t, uses⟩ [e] ⟨u, noting uses e⟩

inductive Run (c : Channel) : Workshop → List ChannelEvent → Workshop → Prop where
  | nil {x : Workshop} : Run c x [] x
  | cons {x y z : Workshop} {events more : List ChannelEvent} (h : Step c x events y)
      (hr : Run c y more z) : Run c x (events ++ more) z

end Workshop

namespace Shared

variable {w : Writer} {size : SizeClass} {s s' : Shared}

theorem chunksCommitted_count (s : Shared) (tally n : Nat) (counter : Counter) :
    ((s.count tally counter).tallies.get n).chunksCommitted =
      (s.tallies.get n).chunksCommitted +
        if tally = n ∧ counter = .chunksCommitted then 1 else 0 :=
  s.get_count tally n counter .chunksCommitted

/-- A chunk that was opened is a draft of which nothing was asked yet. -/
theorem openChunk_ok {chunk : OpenChunk} (h : s.openChunk w size = (.ok chunk, s')) :
    chunk = (Draft.opened chunk.reservation size chunk.id w.tally).chunk ∧
      ∃ s₁, w.channel.reserve size.totalSize s = (.ok chunk.reservation, s₁) ∧
        s'.regions = s₁.regions ∧ s'.tallies = s.tallies := by
  have ho := openChunk_eq w size s
  rcases hr : w.channel.reserve size.totalSize s with ⟨e | r, s₁⟩
  · rw [hr] at ho
    obtain ⟨s'', ho, -⟩ := ho
    cases h.symm.trans ho
  · rw [hr] at ho
    obtain ⟨⟨⟩, rfl⟩ := Prod.mk.inj (h.symm.trans ho)
    have htallies : s₁.tallies = s.tallies := congrArg (·.2.tallies) hr.symm
    exact ⟨rfl, s₁, rfl, rfl, htallies⟩

theorem openChunk_error {e : ReserveError} (h : s.openChunk w size = (.error e, s')) :
    ∃ s₁, w.channel.reserve size.totalSize s = (.error e, s₁) ∧ s'.regions = s₁.regions ∧
      ∀ n, (s'.tallies.get n).chunksCommitted = (s.tallies.get n).chunksCommitted := by
  unfold openChunk at h
  rcases hr : w.channel.reserve size.totalSize s with ⟨e' | r, s₁⟩
  · have htallies : s₁.tallies = s.tallies := congrArg (·.2.tallies) hr.symm
    rw [hr] at h
    cases e' with
    | full requested available =>
      cases h
      refine ⟨s₁, rfl, rfl, fun n => ?_⟩
      rw [← htallies, chunksCommitted_count, if_neg (fun h => nomatch h.2), Nat.add_zero]
    | invalidSize =>
      cases h
      exact ⟨s', rfl, rfl, fun n => by rw [htallies]⟩
    | overflow =>
      cases h
      exact ⟨s', rfl, rfl, fun n => by rw [htallies]⟩
  · rw [hr] at h
    cases h

end Shared

/-- For the channel, a record that a store takes is a record that is received. -/
theorem Store.takeOne_memory {v : Channel} {store store' : Store} {answer : Store.Taken}
    {s s' : Shared} (h : store.takeOne v s = (.ok answer, store', s')) :
    s'.regions.get v.region = (v.receive s).2.regions.get v.region ∧ s'.tallies = s.tallies := by
  rcases hf : v.band.front (s.regions.get v.region) with ⟨e | front, m⟩
  · simp only [Store.takeOne, Shared.withRegion, hf] at h
    cases h
  have hreceive : v.receive s = s.withRegion v.region v.band.receive := rfl
  rw [hreceive, Shared.get_withRegion_same, Band.receive, hf]
  cases front with
  | none =>
    simp only [Store.takeOne, Shared.withRegion, hf] at h
    cases h
    exact ⟨Sparse.get_set_same .., rfl⟩
  | some front =>
    simp only [Store.takeOne, Shared.withRegion, hf, Store.foldl_report, Shared.onRegion,
      Shared.report] at h
    split at h
    · cases h
      exact ⟨by rw [Sparse.get_modify_same, Sparse.get_set_same], rfl⟩
    · cases h
      exact ⟨by rw [Sparse.get_modify_same, Sparse.get_set_same], rfl⟩
    · cases h

theorem Ledger.ready_ofQueue (q : List Booking) : ready (ofQueue q) = Queue.allReady q := by
  induction q with
  | nil => rfl
  | cons k q ih => cases hp : k.phase <;> simp [ready, Queue.allReady, Entry.ofBooking, hp, ih]

def Use.Holds (t : Traffic) (l : Ledger) (ticket : Nat) : Use → Prop
  | .draft d => t.handed[ticket]? = some (some d.reservation) ∧
      ∃ held, l[ticket]? = some ⟨held, .writing⟩ ∧ d.Laid held
  | .sealed d => ∃ record fate, l[ticket]? = some ⟨record, fate⟩ ∧
      (fate = .committed ∨ fate = .received) ∧ decodeChunk record = d.verdict
  | .dropped => ∃ held, l[ticket]? = some ⟨held, .discarded⟩
  | .other => True

section Holds

variable {c : Channel} {t u : Traffic} {l : Ledger} {ticket : Nat} {use : Use}

/-- What others do is nothing to a use, if it is not about a chunk in its writer's hands. -/
theorem Use.Holds.step {e : ChannelEvent} (h : use.Holds t l ticket) (hs : Traffic.Step c t e u)
    (ha : l.Allows e) (hother : ∀ d, use = .draft d → e.ticket? ≠ some ticket) :
    use.Holds u (l.next e) ticket := by
  cases use with
  | draft d =>
    obtain ⟨hheld, held, hl, hlaid⟩ := h
    have hne := hother d rfl
    refine ⟨hs.handed_other hheld hne, held, ?_, hlaid⟩
    exact (Ledger.getElem?_next hl hne).resolve_right fun hr => nomatch hr.1
  | sealed d =>
    obtain ⟨record, fate, hl, hfate, hdecode⟩ := h
    have hne : e.ticket? ≠ some ticket := by
      intro he
      obtain rfl : fate = .writing := ha.writing he hl
      rcases hfate with hfate | hfate <;> cases hfate
    rcases Ledger.getElem?_next hl hne with hl | ⟨-, hl⟩
    · exact ⟨record, fate, hl, hfate, hdecode⟩
    · exact ⟨record, .received, hl, .inr rfl, hdecode⟩
  | dropped =>
    obtain ⟨held, hl⟩ := h
    have hne : e.ticket? ≠ some ticket := fun he => nomatch ha.writing he hl
    exact ⟨held, (Ledger.getElem?_next hl hne).resolve_right fun hr => nomatch hr.1⟩
  | other => trivial

theorem Use.Holds.run {events : List ChannelEvent} (h : use.Holds t l ticket)
    (hr : Traffic.Run c t events u) (ha : l.Admits events)
    (hother : ∀ d, use = .draft d → ∀ e ∈ events, e.ticket? ≠ some ticket) :
    use.Holds u (l.after events) ticket := by
  induction hr generalizing l with
  | nil => exact h
  | cons hs _ ih =>
    have hfirst := h.step hs ha.1 fun d hd => hother d hd _ List.mem_cons_self
    exact ih hfirst ha.2 fun d hd e he => hother d hd e (List.mem_cons_of_mem _ he)

end Holds

namespace Workshop

open Traffic

variable {c : Channel} {t : Traffic} {uses : List Use} {x y : Workshop} {l : Ledger}
  {events : List ChannelEvent}

/-- The uses are those of the reservations in the ledger. -/
structure Agrees (x : Workshop) (l : Ledger) : Prop where
  length_eq : x.uses.length = l.length
  holds : ∀ (ticket : Nat) (use : Use), x.uses[ticket]? = some use → use.Holds x.traffic l ticket

/-- What the channel sees of a step. -/
theorem Step.traffic (h : x.Agrees l) (hviews : ∀ v ∈ x.traffic.views, c.Views v)
    (hs : Step c x events y) : Traffic.Run c x.traffic events y.traffic := by
  cases hs with
  | @opens t uses w size chunk s hv ho =>
    obtain ⟨-, s₁, hr, hregions, -⟩ := Shared.openChunk_ok ho
    have hbytes : chunk.reservation.bytes s₁ = chunk.reservation.bytes s := by
      rw [Reservation.bytes, Channel.memory, ← hregions, Reservation.bytes, Channel.memory]
    rw [← hbytes]
    exact .cons (.reserve hv hr) (.unseen (by rw [hregions]))
  | refuse hv ho =>
    obtain ⟨s₁, hr, hregions, -⟩ := Shared.openChunk_error ho
    exact .cons (.refuse hv hr) (.unseen (by rw [hregions]))
  | fill hu data => exact .cons (.write _ (h.holds _ _ hu).1 _ _) .nil
  | link hu next => exact .nil
  | commit hu =>
    have hheld := (h.holds _ _ hu).1
    exact .cons (.write _ hheld _ _) (.cons (.commit _ hheld) (.unseen rfl))
  | discard hu => exact .cons (.discard _ (h.holds _ _ hu).1) (.unseen rfl)
  | abandon hu => exact .cons (.abandon _ (h.holds _ _ hu).1) .nil
  | @take t uses v store store' answer s hv ht =>
    have hmemory := (Store.takeOne_memory ht).1
    rw [(hviews v hv).region_eq] at hmemory
    have hreceive : Traffic.Step c t (.received (v.receive t.shared).1)
        { t with shared := (v.receive t.shared).2 } := .receive hv
    exact .cons hreceive (.unseen hmemory)
  | beside hs => exact .cons hs .nil

section Change

variable {u : Traffic} {use : Use} (h : Agrees ⟨t, uses⟩ l) (hr : Traffic.Run c t events u)
  (ha : l.Admits events)
include h hr ha

/-- Events that are not about a chunk in its writer's hands change no use. -/
theorem Agrees.keep (hlen : (l.after events).length = l.length)
    (hother : ∀ (ticket : Nat) (d : Draft), uses[ticket]? = some (.draft d) →
      ∀ e ∈ events, e.ticket? ≠ some ticket) : Agrees ⟨u, uses⟩ (l.after events) := by
  refine ⟨h.length_eq.trans hlen.symm, fun ticket kept hk => ?_⟩
  exact (h.holds ticket kept hk).run hr ha fun d hd => hother ticket d (hd ▸ hk)

/-- One reservation more has a use. -/
theorem Agrees.add (hlen : (l.after events).length = l.length + 1)
    (hother : ∀ (ticket : Nat) (d : Draft), uses[ticket]? = some (.draft d) →
      ∀ e ∈ events, e.ticket? ≠ some ticket) (hown : use.Holds u (l.after events) l.length) :
    Agrees ⟨u, uses ++ [use]⟩ (l.after events) := by
  have hsize : uses.length = l.length := h.length_eq
  refine ⟨by rw [List.length_append, hsize, hlen, List.length_singleton], fun ticket kept hk => ?_⟩
  rcases Nat.lt_or_ge ticket uses.length with hlt | hge
  · rw [List.getElem?_append_left hlt] at hk
    exact (h.holds ticket kept hk).run hr ha fun d hd => hother ticket d (hd ▸ hk)
  · rw [List.getElem?_append_right hge] at hk
    obtain ⟨hlast, hk⟩ := List.getElem?_eq_some_iff.mp hk
    have hticket : ticket = l.length := by
      rw [List.length_singleton] at hlast
      omega
    obtain rfl : use = kept := by simpa [hticket, hsize] using hk
    rwa [hticket]

/-- The use of one reservation changes. -/
theorem Agrees.change {ticket : Nat} (hlen : (l.after events).length = l.length)
    (hother : ∀ e ∈ events, ∀ i, e.ticket? = some i → i = ticket)
    (hown : use.Holds u (l.after events) ticket) :
    Agrees ⟨u, uses.set ticket use⟩ (l.after events) := by
  have hsize : uses.length = l.length := h.length_eq
  refine ⟨by rw [List.length_set, hsize, hlen], fun i kept hk => ?_⟩
  by_cases he : i = ticket
  · subst he
    rw [List.getElem?_set_self'] at hk
    cases hold : uses[i]? with
    | none => simp [hold] at hk
    | some old =>
      obtain rfl : use = kept := by simpa [hold] using hk
      exact hown
  · rw [List.getElem?_set_ne (Ne.symm he)] at hk
    exact (h.holds i kept hk).run hr ha fun d _ e hmem ht => he (hother e hmem i ht)

end Change

/-- A step keeps the uses and the ledger in agreement. -/
theorem Agrees.step {past : Ledger} {q : List Booking} (h : x.Agrees l)
    (ht : Tracks c x.traffic l past q) (hs : Step c x events y) :
    l.Admits events ∧ y.Agrees (l.after events) ∧
      ∃ past' q', Tracks c y.traffic (l.after events) past' q' := by
  have hr := hs.traffic h ht.views
  obtain ⟨ha, htracks⟩ := run_tracks ht hr
  refine ⟨ha, ?_, htracks⟩
  cases hs with
  | @opens t uses w size chunk s hv ho =>
    have hlen : (chunk.reservation.bytes s).length = size.totalSize := ha.1
    refine h.add hr ha (by simp [Ledger.next]) (by simp [ChannelEvent.ticket?]) ?_
    refine ⟨?_, _, List.getElem?_concat_length, hlen, rfl⟩
    rw [← ht.length_eq]
    exact List.getElem?_concat_length
  | refuse hv ho => exact h.keep hr ha rfl (by simp [ChannelEvent.ticket?])
  | @fill t uses ticket d hu data =>
    obtain ⟨hheld, held, hl, hlaid⟩ := h.holds _ _ hu
    refine h.change hr ha (by simp [Ledger.next]) (by simp [ChannelEvent.ticket?]) ?_
    exact ⟨hheld, _, Ledger.getElem?_modify_self hl _, hlaid.filled data⟩
  | @link t uses ticket d hu next =>
    obtain ⟨hheld, held, hl, hlaid⟩ := h.holds _ _ hu
    exact h.change hr ha rfl (by simp) ⟨hheld, held, hl, hlaid.linked next⟩
  | @commit t uses ticket d hu =>
    obtain ⟨-, held, hl, hlaid⟩ := h.holds _ _ hu
    have hheaded := Ledger.getElem?_modify_self hl fun e =>
      { e with data := e.data.overlay 0 d.chunk.header.encode }
    refine h.change hr ha (by simp [Ledger.next]) (by simp [ChannelEvent.ticket?]) ?_
    exact ⟨_, _, Ledger.getElem?_modify_self hheaded _, .inl rfl, hlaid.decode⟩
  | @discard t uses ticket d hu =>
    obtain ⟨-, held, hl, -⟩ := h.holds _ _ hu
    refine h.change hr ha (by simp [Ledger.next]) (by simp [ChannelEvent.ticket?]) ?_
    exact ⟨_, Ledger.getElem?_modify_self hl _⟩
  | @abandon t uses ticket d hu =>
    obtain ⟨-, held, hl, -⟩ := h.holds _ _ hu
    refine h.change hr ha (by simp [Ledger.next]) (by simp [ChannelEvent.ticket?]) ?_
    exact ⟨_, Ledger.getElem?_modify_self hl _⟩
  | take hv htake =>
    exact h.keep hr ha (by simp [Ledger.next]) (by simp [ChannelEvent.ticket?])
  | @beside t u uses e hs hother hcount =>
    have hother : ∀ (ticket : Nat) (d : Draft), uses[ticket]? = some (.draft d) →
        ∀ e' ∈ [e], e'.ticket? ≠ some ticket := by
      intro ticket d hd e' he
      rw [List.mem_singleton.mp he]
      exact hother ticket d hd
    cases e with
    | reserved size held => exact h.add hr ha (by simp [Ledger.next]) hother trivial
    | attached | refused | wrote | committed | discarded | received | elsewhere =>
      exact h.keep hr ha (by simp [Ledger.next]) hother

theorem Agrees.run {past : Ledger} {q : List Booking} (h : x.Agrees l)
    (ht : Tracks c x.traffic l past q) (hr : Run c x events y) :
    l.Admits events ∧ y.Agrees (l.after events) ∧
      ∃ past' q', Tracks c y.traffic (l.after events) past' q' := by
  induction hr generalizing l past q with
  | nil => exact ⟨trivial, h, past, q, ht⟩
  | cons hs _ ih =>
    obtain ⟨ha, h', past', q', ht'⟩ := h.step ht hs
    obtain ⟨ha', hend⟩ := ih h' ht'
    rw [Ledger.after_append]
    exact ⟨Ledger.admits_append.mpr ⟨ha, ha'⟩, hend⟩

/-- The use is a chunk that was committed under the given tally. -/
def countedIn (tally : Nat) : Use → Bool
  | .sealed d => d.tally = tally
  | .draft _ | .dropped | .other => false

theorem countP_set {ticket : Nat} {d : Draft} (hu : uses[ticket]? = some (.draft d)) (tally : Nat)
    (use : Use) : (uses.set ticket use).countP (countedIn tally) =
      uses.countP (countedIn tally) + if countedIn tally use then 1 else 0 := by
  obtain ⟨hlt, hold⟩ := List.getElem?_eq_some_iff.mp hu
  rw [List.countP_set hlt, hold]
  rfl

/-- The counter moves with the chunks that are committed. -/
theorem Step.counts (hs : Step c x events y) (tally : Nat) :
    (y.traffic.shared.tallies.get tally).chunksCommitted + x.uses.countP (countedIn tally) =
      (x.traffic.shared.tallies.get tally).chunksCommitted + y.uses.countP (countedIn tally) := by
  cases hs with
  | opens hv ho =>
    obtain ⟨-, -, -, -, htallies⟩ := Shared.openChunk_ok ho
    simp [htallies, countedIn]
  | refuse hv ho =>
    obtain ⟨-, -, -, hcount⟩ := Shared.openChunk_error ho
    rw [hcount]
  | @fill t uses ticket d hu data =>
    have htallies : (t.shared.fillChunk d.chunk data).tallies = t.shared.tallies := rfl
    simp only [countP_set hu, htallies]
    rfl
  | @link t uses ticket d hu next =>
    simp only [countP_set hu]
    rfl
  | @commit t uses ticket d hu =>
    have hcount : ((t.shared.commitChunk d.chunk).tallies.get tally).chunksCommitted =
        (t.shared.tallies.get tally).chunksCommitted + if d.tally = tally then 1 else 0 := by
      refine (Shared.chunksCommitted_count _ d.tally tally .chunksCommitted).trans ?_
      simp only [and_true]
      rfl
    have hsealed : countedIn tally (.sealed d) = decide (d.tally = tally) := rfl
    simp only [countP_set hu, hsealed, decide_eq_true_eq, hcount]
    omega
  | @discard t uses ticket d hu =>
    have hcount : ((t.shared.discardChunk d.chunk).tallies.get tally).chunksCommitted =
        (t.shared.tallies.get tally).chunksCommitted := by
      refine (Shared.chunksCommitted_count _ d.tally tally .chunksDiscarded).trans ?_
      rw [if_neg (fun h => nomatch h.2)]
      rfl
    simp only [countP_set hu, hcount]
    rfl
  | @abandon t uses ticket d hu =>
    have htallies : (t.shared.abandonChunk d.chunk).tallies = t.shared.tallies := rfl
    simp only [countP_set hu, htallies]
    rfl
  | take hv htake => rw [(Store.takeOne_memory htake).2]
  | @beside t u uses e hs hother hcount =>
    rw [hcount]
    cases e with
    | reserved => simp [noting, countedIn]
    | attached | refused | wrote | committed | discarded | received | elsewhere => rfl

theorem Run.counts (hr : Run c x events y) (tally : Nat) :
    (y.traffic.shared.tallies.get tally).chunksCommitted + x.uses.countP (countedIn tally) =
      (x.traffic.shared.tallies.get tally).chunksCommitted + y.uses.countP (countedIn tally) := by
  induction hr with
  | nil => rfl
  | cons hs _ ih =>
    have hstep := hs.counts tally
    omega

/-- A drain is a run of its own. -/
theorem run_takeMany {v : Channel} (hv : v ∈ t.views) {fuel k : Nat} {store store' : Store}
    {s : Shared} (h : store.takeMany v fuel t.shared = (.ok k, store', s)) :
    ∃ events, Run c ⟨t, uses⟩ events ⟨{ t with shared := s }, uses⟩ := by
  induction fuel generalizing t store k with
  | zero =>
    cases h
    exact ⟨[], .nil⟩
  | succ fuel ih =>
    unfold Store.takeMany at h
    split at h
    · cases h
    · rename_i hone
      cases h
      exact ⟨_, .cons (.take hv hone) .nil⟩
    · rename_i taken store₁ shared₁ hsome hone
      split at h
      · cases h
      · rename_i hmany
        cases h
        obtain ⟨events, hrest⟩ := ih (t := { t with shared := shared₁ }) hv hmany
        exact ⟨_, .cons (.take hv hone) hrest⟩

/-- All chunks of the workshop are of usable classes, and there is nothing else on its channel. -/
def Usable (x : Workshop) : Prop :=
  .other ∉ x.uses ∧ ∀ d, .sealed d ∈ x.uses → d.sizeClass.isValid = true

theorem Agrees.ready_usable (h : x.Agrees l) (hu : x.Usable) {record : Bytes}
    (hr : record ∈ l.ready) : Store.isChunk record = true := by
  obtain ⟨ticket, hl⟩ := Ledger.mem_ready hr
  have hlt : ticket < x.uses.length := by
    rw [h.length_eq]
    exact (List.getElem?_eq_some_iff.mp hl).1
  have hmem := List.getElem_mem hlt
  have hholds := h.holds ticket _ (List.getElem?_eq_getElem hlt)
  cases huse : x.uses[ticket] with
  | draft d =>
    rw [huse] at hholds
    obtain ⟨-, held, hw, -⟩ := hholds
    cases hl.symm.trans hw
  | sealed d =>
    rw [huse] at hholds hmem
    obtain ⟨record', fate, hl', -, hdecode⟩ := hholds
    cases hl.symm.trans hl'
    rw [Store.isChunk, hdecode, Draft.verdict, if_pos (hu.2 d hmem)]
    rfl
  | dropped =>
    rw [huse] at hholds
    obtain ⟨held, hw⟩ := hholds
    cases hl.symm.trans hw
  | other =>
    rw [huse] at hmem
    exact absurd hmem hu.1

/-- Whatever class it was opened for, however often it was filled and linked and whatever else
went on, a committed chunk is received as it was last filled and linked if its class is usable, and
as a record that cannot be decoded otherwise. A drain stores the ones and rejects the others, all of
which were counted as committed, unless the bound of the store overflows. -/
theorem committed_chunks_are_judged_by_class {plan : ChannelPlan} {s₀ s₁ : Shared}
    (hb : s₀.buildChannel plan = (.ok c, s₁)) (hr : Run c ⟨⟨s₁, [c], []⟩, []⟩ events x) :
    (∀ (ticket : Nat) (d : Draft), x.uses[ticket]? = some (.sealed d) →
      ∃ record fate, (Ledger.after [] events)[ticket]? = some ⟨record, fate⟩ ∧
        (fate = .committed ∨ fate = .received) ∧ decodeChunk record = d.verdict) ∧
    (Ledger.after [] events).delivered = Ledger.deliveries events ∧
    (x.Usable → ∀ record ∈ (Ledger.after [] events).ready, Store.isChunk record = true) ∧
    (∀ tally, (x.traffic.shared.tallies.get tally).chunksCommitted =
      (s₁.tallies.get tally).chunksCommitted + x.uses.countP (countedIn tally)) ∧
    ∀ v ∈ x.traffic.views, ∀ store : Store, store.Sound →
      let ready := (Ledger.after [] events).ready
      if store.Copes ready then
        ∃ s, store.drain v x.traffic.shared =
            (.ok (ready.countP Store.isChunk), ready.foldl Store.given store, s) ∧
          (ready.foldl Store.given store).rejected =
            store.rejected + ready.countP (!Store.isChunk ·)
      else (store.drain v x.traffic.shared).1 = .error .overflow := by
  have hinitial : Agrees ⟨⟨s₁, [c], []⟩, []⟩ [] := ⟨rfl, fun _ _ h => nomatch h⟩
  obtain ⟨ha, hagrees, past, q, ht⟩ := hinitial.run (built_tracks hb) hr
  refine ⟨fun ticket d hd => hagrees.holds ticket _ hd,
    Ledger.delivered_after List.Pairwise.nil ha, fun hu record => hagrees.ready_usable hu,
    fun tally => ?_, fun v hv store hsound => ?_⟩
  · have hcounts := hr.counts tally
    simpa using hcounts
  · have hready : (Ledger.after [] events).ready = Queue.allReady q := by
      rw [ht.ledger_eq, Ledger.ready_append ht.settled, Ledger.ready_ofQueue]
    have hview := ht.views v hv
    have hdrain := hsound.takeMany_ready hview ht.queued (ht.queued.length_le_used hview)
    dsimp only
    rw [hready]
    split at hdrain
    case isTrue hcopes =>
      obtain ⟨s, -, hdrain, -⟩ := hdrain
      rw [if_pos hcopes]
      exact ⟨s, hdrain, hsound.rejected_given hcopes⟩
    case isFalse hno =>
      rw [if_neg hno]
      exact hdrain

theorem ready_of_two {first second : Bytes} {fate fate' : Fate}
    (h₁ : l[0]? = some ⟨first, fate⟩) (h₂ : l[1]? = some ⟨second, fate'⟩)
    (hf : l.map (·.fate) = [.committed, .committed]) : l.ready = [first, second] := by
  obtain ⟨d, e, rfl⟩ : ∃ d e, l = [d, e] := by
    rw [← List.length_eq_two, ← List.length_map, hf]
    rfl
  obtain rfl : d = ⟨first, fate⟩ := Option.some.inj h₁
  obtain rfl : e = ⟨second, fate'⟩ := Option.some.inj h₂
  obtain ⟨rfl, rfl⟩ : fate = .committed ∧ fate' = .committed := by simpa using hf
  rfl

def firstWriter : Writer := ⟨firstChannel, 0, 7, 0⟩

def fullDraft : Draft :=
  ((Draft.opened ⟨firstChannel, ⟨0, 28⟩⟩ (.custom 4) (.compose 7 1) 0).filled
    [1, 2, 3, 4, 5]).linked ⟨9⟩

def emptyDraft : Draft := .opened ⟨firstChannel, ⟨40, 24⟩⟩ (.custom 0) (.compose 7 2) 0

/-- Both are committed. -/
theorem run_full_empty : ∃ events x,
    Run firstChannel ⟨⟨firstShared, [firstChannel], []⟩, []⟩ events x ∧
      x.traffic.views = [firstChannel] ∧ x.uses = [.sealed fullDraft, .sealed emptyDraft] ∧
      (Ledger.after [] events).map (·.fate) = [.committed, .committed] := by
  have h₁ : firstShared.openChunk firstWriter (.custom 4) =
    (.ok (Draft.opened ⟨firstChannel, ⟨0, 28⟩⟩ (.custom 4) (.compose 7 1) 0).chunk,
      (firstShared.openChunk firstWriter (.custom 4)).2) := rfl
  have h₂ : (firstShared.openChunk firstWriter (.custom 4)).2.openChunk firstWriter (.custom 0) =
    (.ok emptyDraft.chunk,
      ((firstShared.openChunk firstWriter (.custom 4)).2.openChunk firstWriter (.custom 0)).2) :=
    rfl
  exact ⟨_, _, .cons (.opens List.mem_cons_self h₁)
    (.cons (.opens List.mem_cons_self h₂)
    (.cons (.fill List.getElem?_cons_zero [1, 2, 3, 4, 5])
    (.cons (.link List.getElem?_cons_zero ⟨9⟩)
    (.cons (.commit List.getElem?_cons_zero)
    (.cons (.commit (List.getElem?_cons_succ.trans List.getElem?_cons_zero)) .nil))))),
    rfl, rfl, rfl⟩

/-- Of two chunks that were committed, the empty one is rejected. -/
theorem committed_chunks_are_judged_by_class_of_empty :
    ∃ (events : List ChannelEvent) (x : Workshop) (store : Store) (s : Shared),
      ({} : Shared).buildChannel {} = (.ok firstChannel, firstShared) ∧
      Run firstChannel ⟨⟨firstShared, [firstChannel], []⟩, []⟩ events x ∧
      (x.traffic.shared.tallies.get 0).chunksCommitted = 2 ∧
      (Store.ofMaxPending 4).drain firstChannel x.traffic.shared = (.ok 1, store, s) ∧
      store.rejected = 1 := by
  obtain ⟨events, x, hr, hviews, huses, hfates⟩ := run_full_empty
  obtain ⟨hsealed, -, -, hcounts, hdrain⟩ :=
    committed_chunks_are_judged_by_class buildChannel_first hr
  obtain ⟨full, fate, hfull, -, haccepted⟩ := hsealed 0 fullDraft (by rw [huses]; rfl)
  obtain ⟨empty, fate', hempty, -, hrefused⟩ := hsealed 1 emptyDraft (by rw [huses]; rfl)
  have hready := ready_of_two hfull hempty hfates
  have hchunk : Store.isChunk full = true := by rw [Store.isChunk, haccepted]; rfl
  have hbad : Store.isChunk empty = false := by rw [Store.isChunk, hrefused]; rfl
  have hfirst := hdrain firstChannel (by rw [hviews]; exact List.mem_cons_self)
    (.ofMaxPending 4) (Store.sound_ofMaxPending 4)
  rw [hready] at hfirst
  dsimp only at hfirst
  rw [if_pos (.inl (by decide))] at hfirst
  obtain ⟨s, hdrained, hrejected⟩ := hfirst
  have hcount := hcounts 0
  rw [huses] at hcount
  refine ⟨events, x, _, s, buildChannel_first, hr, hcount.trans rfl, ?_, hrejected.trans ?_⟩
  · simpa [hchunk, hbad] using hdrained
  · simp [hchunk, hbad, Store.ofMaxPending]

end Workshop
end ChainRelay
