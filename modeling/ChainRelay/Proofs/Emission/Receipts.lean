import ChainRelay.Proofs.Capture.Delivery
import ChainRelay.Proofs.Emission.Filed

/-!
What is received on a channel of records are the records of the emissions that were submitted, in
the order in which they took room, and none is left out; an emission that is dropped finds no room
and leaves the channel as it was.
-/

namespace ChainRelay

open ChainRelay.Ring Invocation

def EmitOutcome.counter : EmitOutcome → Counter
  | submitted => .recordsSubmitted
  | dropped => .recordsDropped

/-- Only the count of an outcome moves its counter. -/
theorem Op.get_perform_tally (op : Op) (s : Shared) (tally : Nat) (o : EmitOutcome) :
    ((op.perform s).2.tallies.get tally).get o.counter = (s.tallies.get tally).get o.counter +
      if op = .count tally o.counter then 1 else 0 := by
  have hother {t : Nat} {c : Counter} (hc : c ≠ o.counter) (s : Shared) :
      ((s.count t c).tallies.get tally).get o.counter = (s.tallies.get tally).get o.counter := by
    rw [s.get_count, if_neg fun h => hc h.2, Nat.add_zero]
  cases op with
  | openChunk w c =>
    show ((s.openChunk w c).2.tallies.get tally).get o.counter = _
    have hreserve : (w.channel.reserve c.totalSize s).2.tallies = s.tallies := rfl
    unfold Shared.openChunk
    rcases hr : w.channel.reserve c.totalSize s with ⟨answer, s'⟩
    rw [hr] at hreserve
    rw [← hreserve]
    match answer with
    | .error (.full requested available) => exact hother (by cases o <;> decide) s'
    | .error (.invalidSize asked max) => rfl
    | .error .overflow => rfl
    | .ok reservation => rfl
  | commitChunk c => exact hother (by cases o <;> decide) _
  | count t c => exact (s.get_count t tally c o.counter).trans (by simp)
  | fillChunk | abandonChunk | reserve | commitRecord | report => rfl

/-- A capture counts no record. -/
theorem Writer.Does.ne_outcome {w : Writer} {settings : CopySettings} {op : Op}
    (h : w.Does settings op) {tally : Nat} {o : EmitOutcome} : op ≠ .count tally o.counter := by
  rintro rfl
  obtain ⟨-, hc | hc | hc⟩ := h <;> cases o <;> cases hc

namespace Filing

variable {d : Channel} {x y : Filing} {n : Nat} {e e' : Emission} {op : Op}
  {entries : List (Booking × Nat)} {authors : List Nat} {i : Invocation} {timestamp : UInt64}
  {stage : Emission.Stage}

def tallied (tally : Nat) (o : EmitOutcome) (e : Emission) : Bool :=
  e.invocation.writer.tally = tally ∧ e.outcome? = some o

/-- The emissions that count in this tally and have come to this outcome. -/
def tallyOf (x : Filing) (tally : Nat) (o : EmitOutcome) : Nat :=
  x.emissions.countP (tallied tally o)

theorem tallied_capturing (tally : Nat) (o : EmitOutcome) (a : Activity Signal) :
    tallied tally o ⟨i, timestamp, .capturing a⟩ = false := by
  simp [tallied, Emission.outcome?]

theorem tallied_submit (tally : Nat) (o : EmitOutcome) (signal : Signal) :
    tallied tally o ⟨i, timestamp, .submitting signal (i.submit timestamp signal)⟩ = false := by
  rw [Invocation.submit_eq]
  simp [tallied, Emission.outcome?]

/-- An emission comes to an outcome when it counts it. -/
theorem Standing.tallied {signal : Signal} {next : op.Reply → Activity EmitOutcome}
    (h : Standing d x entries n i timestamp (.submitting signal (.step op next)))
    (reply : op.Reply) (tally : Nat) (o : EmitOutcome) :
    (tallied tally o ⟨i, timestamp, .submitting signal (next reply)⟩).toNat =
      (tallied tally o ⟨i, timestamp, .submitting signal (.step op next)⟩).toNat +
        if op = .count tally o.counter then 1 else 0 := by
  cases h with
  | asking hs hn ha =>
    rw [Invocation.submit_eq] at ha
    cases ha
    rcases reply with (_ | _ | _) | r <;> rfl
  | writing hs hk hr hw hlen ha =>
    cases ha
    rfl
  | counting hs hn ha =>
    cases ha
    by_cases ht : i.writer.tally = tally <;> cases o <;>
      simp [Filing.tallied, Emission.outcome?, EmitOutcome.counter, ht]
  | dropping hn hr ha =>
    cases ha
    by_cases ht : i.writer.tally = tally <;> cases o <;>
      simp [Filing.tallied, Emission.outcome?, EmitOutcome.counter, Invocation.reporting, ht]
  | reporting hn hr ha =>
    cases ha
    rfl

theorem countP_set_add {α : Type} {l : List α} {n : Nat} {a : α} (h : l[n]? = some a)
    (p : α → Bool) (b : α) :
    (l.set n b).countP p + (p a).toNat = l.countP p + (p b).toNat := by
  obtain ⟨hn, rfl⟩ := List.getElem?_eq_some_iff.mp h
  have hpos (ha : p l[n] = true) : 0 < l.countP p :=
    List.countP_pos_iff.mpr ⟨_, List.getElem_mem hn, ha⟩
  rw [List.countP_set hn]
  cases ha : p l[n] with
  | false => cases p b <;> simp
  | true =>
    have hpos := hpos ha
    cases p b <;> simp <;> omega

/-- The counters move with the outcomes. -/
theorem Order.counts (h : Order d x entries authors) (hs : Step d x y) (tally : Nat)
    (o : EmitOutcome) :
    (y.shared.tallies.get tally).get o.counter + x.tallyOf tally o =
      (x.shared.tallies.get tally).get o.counter + y.tallyOf tally o := by
  unfold tallyOf
  cases hs with
  | @start e he hp =>
    obtain ⟨i, timestamp, stage⟩ := e
    obtain ⟨a, rfl, -⟩ := always_begins he
    simp [tallied_capturing]
  | @capture n i timestamp op next he =>
    have hset := countP_set_add he (tallied tally o)
      ⟨i, timestamp, .capturing (next (op.perform x.shared).1)⟩
    have hcount := op.get_perform_tally x.shared tally o
    cases h.standing n _ he with
    | capturing ha hn =>
      rw [if_neg ha.1.ne_outcome] at hcount
      rw [tallied_capturing, tallied_capturing] at hset
      show ((op.perform x.shared).2.tallies.get tally).get o.counter + _ = _ +
        (x.emissions.set n _).countP _
      omega
  | @captured n i timestamp signal he =>
    have hset := countP_set_add he (tallied tally o)
      ⟨i, timestamp, .submitting signal (i.submit timestamp signal)⟩
    rw [tallied_capturing, tallied_submit] at hset
    exact congrArg _ hset.symm
  | @submit n i timestamp signal op next he =>
    have hset := countP_set_add he (tallied tally o)
      ⟨i, timestamp, .submitting signal (next (op.perform x.shared).1)⟩
    have hcount := op.get_perform_tally x.shared tally o
    have hstanding : Standing d x entries n i timestamp (.submitting signal (.step op next)) :=
      h.standing n _ he
    have hmoves := hstanding.tallied (op.perform x.shared).1 tally o
    show ((op.perform x.shared).2.tallies.get tally).get o.counter + _ = _ +
      (x.emissions.set n _).countP _
    omega
  | @receive u hu =>
    have htallies := u.tallies_receive x.shared
    generalize (u.receive x.shared).2 = s at htallies
    show (s.tallies.get tally).get o.counter + _ = _
    rw [htallies]
  | elsewhere hregion htallies =>
    cases o with
    | submitted => exact congrArg (· + _) (htallies tally).1
    | dropped => exact congrArg (· + _) (htallies tally).2

def submitAlone (n : Nat) (i : Invocation) (timestamp : UInt64) (signal : Signal) :
    Activity EmitOutcome → Filing → Filing
  | .step op next, x =>
    let a := next (op.perform x.shared).1
    submitAlone n i timestamp signal a (x.turn n op ⟨i, timestamp, .submitting signal a⟩)
  | _, x => x

def captureAlone (n : Nat) (i : Invocation) (timestamp : UInt64) :
    Activity Signal → Filing → Filing
  | .done signal, x =>
    let a := i.submit timestamp signal
    submitAlone n i timestamp signal a
      { x with emissions := x.emissions.set n ⟨i, timestamp, .submitting signal a⟩ }
  | .abort, x => x
  | .step op next, x =>
    let a := next (op.perform x.shared).1
    captureAlone n i timestamp a (x.turn n op ⟨i, timestamp, .capturing a⟩)

/-- A whole emission. -/
def emit (x : Filing) (e : Emission) : Filing :=
  let begun : Filing := { x with emissions := x.emissions ++ [e] }
  match e.stage with
  | .capturing a => captureAlone x.emissions.length e.invocation e.timestamp a begun
  | .submitting .. => begun

theorem reaches_submitAlone {signal : Signal} {a : Activity EmitOutcome}
    (h : x.emissions[n]? = some ⟨i, timestamp, .submitting signal a⟩) :
    Relation.ReflTransGen (Step d) x (submitAlone n i timestamp signal a x) := by
  induction a generalizing x with
  | done | abort => exact .refl
  | step op next ih => exact .head (.submit n h) (ih _ (getElem?_turn_self h))

theorem reaches_captureAlone {a : Activity Signal}
    (h : x.emissions[n]? = some ⟨i, timestamp, .capturing a⟩) :
    Relation.ReflTransGen (Step d) x (captureAlone n i timestamp a x) := by
  induction a generalizing x with
  | done signal =>
    refine .head (.captured n h) (reaches_submitAlone ?_)
    exact List.getElem?_set_self (List.getElem?_eq_some_iff.mp h).1
  | abort => exact .refl
  | step op next ih => exact .head (.capture n h) (ih _ (getElem?_turn_self h))

theorem reaches_emit {e : Emission} (he : e.Begins) (hp : e.Placed d) (x : Filing) :
    Relation.ReflTransGen (Step d) x (x.emit e) := by
  obtain ⟨a, ha, -⟩ := always_begins he
  obtain ⟨i, timestamp, stage⟩ := e
  obtain rfl : stage = .capturing a := ha
  exact .head (.start he hp) (reaches_captureAlone List.getElem?_concat_length)

theorem reaches_emitAll {es : List Emission} (h : ∀ e ∈ es, e.Begins ∧ e.Placed d) (x : Filing) :
    Relation.ReflTransGen (Step d) x (es.foldl emit x) := by
  induction es generalizing x with
  | nil => exact .refl
  | cons e es ih =>
    have he := h e List.mem_cons_self
    exact (reaches_emit he.1 he.2 x).trans (ih (fun e' hin => h e' (List.mem_cons_of_mem e hin)) _)

/-- What holds at every moment of the records on a channel, since the shared state was `s`. -/
structure Sound (d : Channel) (s : Shared) (x : Filing) : Prop where
  /-- No emission takes room twice. -/
  distinct : x.granted.Nodup
  /-- The received records are those of the first emissions that took room, in that order. -/
  received : List.Forall₂ (fun n record => x.record? n = some record)
    (x.granted.take x.received.length) x.received
  /-- The record of the next one is received next, or nothing while it is not finished. -/
  next : ∀ u, d.Views u →
    (u.receive x.shared).1 = .ok (x.granted[x.received.length]?.bind x.record?) ∨
    ((u.receive x.shared).1 = .ok none ∧
      ∃ n, x.granted[x.received.length]? = some n ∧ x.outcome? n = none)
  /-- Of the emissions that have come to an outcome, those that took room were submitted. -/
  submitted : ∀ n o, x.outcome? n = some o → (n ∈ x.granted ↔ o = .submitted)
  /-- Their records decode to the captured signals. -/
  decoded : ∀ n ∈ x.granted, ∃ e signal record, x.emissions[n]? = some e ∧
    e.signal? = some signal ∧ x.record? n = some record ∧
    decodeSignal record = .ok ⟨{
      tag := signal.kind.tag
      shard := e.invocation.shard
      timestamp := e.timestamp }, signal⟩
  /-- An emission that is dropped changes nothing on the channel and found too little room. -/
  dropped : ∀ n, x.outcome? n = some .dropped →
    (∀ t ∈ x.turns, t.emission = n → t.Leaves d) ∧ ∃ t ∈ x.turns, t.emission = n ∧ t.Lacks d
  /-- Nothing is refused for its size. -/
  sized : ∀ t ∈ x.turns, ¬t.Oversized
  /-- The counters of every tally have moved with the outcomes. -/
  counted : ∀ tally,
    (x.shared.tallies.get tally).recordsSubmitted =
      (s.tallies.get tally).recordsSubmitted + x.tallyOf tally .submitted ∧
    (x.shared.tallies.get tally).recordsDropped =
      (s.tallies.get tally).recordsDropped + x.tallyOf tally .dropped

theorem Order.initial {s : Shared} (hq : d.Queued s []) : Order d { shared := s } [] [] := by
  constructor
  case books => exact ⟨hq, rfl, .nil, .nil, nofun, nofun⟩
  case placed => exact fun n e he => nomatch he
  case standing => exact fun n e he => nomatch he
  case sized => exact fun t ht => nomatch ht

theorem Order.run {s : Shared} (hq : d.Queued s [])
    (hr : Relation.ReflTransGen (Step d) { shared := s } x) :
    (∃ entries authors, Order d x entries authors) ∧
      ∀ tally o, (x.shared.tallies.get tally).get o.counter =
        (s.tallies.get tally).get o.counter + x.tallyOf tally o := by
  induction hr with
  | refl => exact ⟨⟨_, _, .initial hq⟩, fun _ _ => rfl⟩
  | tail _ hs ih =>
    obtain ⟨⟨entries, authors, h⟩, hcounts⟩ := ih
    refine ⟨h.step hs, fun tally o => ?_⟩
    have hstep := h.counts hs tally o
    have hold := hcounts tally o
    omega

/-- The outcome of an emission, with how far it has come. -/
theorem Order.outcome (h : Order d x entries authors) {o : EmitOutcome}
    (ho : x.outcome? n = some o) :
    (o = .submitted ∧ n ∈ x.granted) ∨ (o = .dropped ∧ x.Untouched d n ∧ x.Refused d n) := by
  obtain ⟨⟨i, timestamp, stage⟩, he, ho⟩ := Option.bind_eq_some_iff.mp ho
  have hstanding : Standing d x entries n i timestamp stage := h.standing n _ he
  cases hstanding with
  | capturing => cases ho
  | asking hs hn ha =>
    rw [ha, Invocation.submit_eq] at ho
    cases ho
  | writing hs hk hr hw hlen ha =>
    rw [ha] at ho
    cases ho
  | counting hs hn ha =>
    rw [ha] at ho
    cases ho
  | submitted hs hn =>
    cases ho
    exact .inl ⟨rfl, hn⟩
  | dropping hn hr ha =>
    rw [ha] at ho
    cases ho
  | reporting hn hr ha =>
    rw [ha] at ho
    cases ho
    exact .inr ⟨rfl, hn, hr⟩
  | dropped hn hr =>
    cases ho
    exact .inr ⟨rfl, hn, hr⟩
  | aborted => cases ho

theorem Order.signal (h : Order d x entries authors) (hn : n ∈ x.granted) :
    ∃ e signal, x.emissions[n]? = some e ∧ e.signal? = some signal ∧ signal.WellFormed := by
  obtain ⟨t, ht, hg⟩ := List.mem_filterMap.mp hn
  have hlt := h.books.known t ht
  rw [Turn.emission_of_granted? hg] at hlt
  obtain ⟨⟨i, timestamp, stage⟩, he⟩ : ∃ e, x.emissions[n]? = some e :=
    ⟨_, List.getElem?_eq_getElem hlt⟩
  have hstanding : Standing d x entries n i timestamp stage := h.standing n _ he
  cases hstanding with
  | capturing ha hn' => exact absurd hn hn'.ungranted
  | asking hs hn' => exact absurd hn hn'.ungranted
  | writing hs => exact ⟨_, _, he, rfl, hs⟩
  | counting hs => exact ⟨_, _, he, rfl, hs⟩
  | submitted hs => exact ⟨_, _, he, rfl, hs⟩
  | dropping hn' => exact absurd hn hn'.ungranted
  | reporting hn' => exact absurd hn hn'.ungranted
  | dropped hn' => exact absurd hn hn'.ungranted
  | aborted hn' => exact absurd hn hn'

/-- The next record is received, or nothing while it is not finished. -/
theorem Order.next (h : Order d x entries authors) {u : Channel} (hu : d.Views u) :
    (u.receive x.shared).1 = .ok (x.granted[x.received.length]?.bind x.record?) ∨
    ((u.receive x.shared).1 = .ok none ∧
      ∃ n, x.granted[x.received.length]? = some n ∧ x.outcome? n = none) := by
  have hanswer := (h.books.queued.receive hu).1
  have hfront : x.granted[x.received.length]? = (entries.map (·.2))[0]? := by
    rw [h.books.granted_eq, ← h.books.received.length_eq,
      List.getElem?_append_right (Nat.le_refl _), Nat.sub_self]
  rw [hanswer, hfront]
  rcases h.books.front with ⟨hnone, -, hwriting⟩ | ⟨k, n, rest, rfl, -, hrecord, hsome, -⟩
  · cases entries with
    | nil => exact .inl rfl
    | cons e rest =>
      obtain ⟨k, n⟩ := e
      obtain ⟨i, timestamp, signal, r, he⟩ := hwriting k n rest rfl
      refine .inr ⟨congrArg _ hnone, n, rfl, ?_⟩
      rw [outcome?, he]
      rfl
  · exact .inl (congrArg Except.ok (hsome.trans hrecord.symm))

theorem Order.received (h : Order d x entries authors) :
    List.Forall₂ (fun n record => x.record? n = some record)
      (x.granted.take x.received.length) x.received := by
  rw [h.books.granted_eq, ← h.books.received.length_eq, List.take_left]
  exact h.books.received

/-- Whatever emissions are made around a channel that was built, and however they and the receivers
take turns: the received records are those of the emissions that took room, each in its turn, all of
which are submitted and none dropped; every record decodes to the signal that its emission captured;
an emission that is dropped found too little room and left the channel as it was; and both outcomes
are counted. -/
theorem submitted_records_are_received {plan : ChannelPlan} {s₀ s₁ : Shared}
    (hb : s₀.buildChannel plan = (.ok d, s₁))
    (hr : Relation.ReflTransGen (Step d) { shared := s₁ } x) : x.Sound d s₁ := by
  obtain ⟨⟨entries, authors, h⟩, hcounts⟩ := Order.run (Shared.buildChannel_queued hb) hr
  constructor
  case distinct => exact h.books.distinct
  case received => exact h.received
  case next => exact fun u hu => h.next hu
  case submitted =>
    intro n o ho
    rcases h.outcome ho with ⟨rfl, hn⟩ | ⟨rfl, hn, -⟩
    · exact iff_of_true hn rfl
    · exact iff_of_false hn.ungranted nofun
  case decoded =>
    intro n hn
    obtain ⟨e, signal, he, hsignal, hwell⟩ := h.signal hn
    refine ⟨e, signal, _, he, hsignal, ?_, decodeSignal_encode hwell _ _⟩
    rw [record?, he]
    exact congrArg (Option.map _) hsignal
  case dropped =>
    intro n ho
    rcases h.outcome ho with ⟨ho, -⟩ | ⟨-, hn, hr⟩
    · cases ho
    · exact ⟨hn.leaves, hr⟩
  case sized => exact h.sized
  case counted => exact fun tally => ⟨hcounts tally .submitted, hcounts tally .dropped⟩

/-- A channel for records that is as small as they come. -/
def narrowChannel : Channel := ⟨1, ⟨headerSpan, 8192⟩, none⟩

def narrowShared : Shared := (Traffic.firstShared.buildChannel ⟨8192, none, true⟩).2

theorem buildChannel_narrow : Traffic.firstShared.buildChannel ⟨8192, none, true⟩ =
    (.ok narrowChannel, narrowShared) := rfl

def narrowInvocation : Invocation := { smallInvocation with records := narrowChannel }

def oneReceived : Filing :=
  let x := emit { shared := narrowShared } (.ofTask narrowInvocation 9 smallTask 1)
  { x with
    shared := (narrowChannel.receive x.shared).2
    received := x.received ++ narrowChannel.ready x.shared }

/-- A group, and as many tasks as find no room. -/
def crowd : List Emission :=
  .ofCgroup narrowInvocation 10 5 :: List.replicate 21 (.ofTask narrowInvocation 11 {} 2)

theorem reaches_crowd : Relation.ReflTransGen (Step narrowChannel) { shared := narrowShared }
    (crowd.foldl emit oneReceived) := by
  have hplaced (timestamp : UInt64) (a : Activity Signal) :
      (Emission.mk narrowInvocation timestamp (.capturing a)).Placed narrowChannel :=
    ⟨.refl _, show Traffic.firstChannel.region ≠ narrowChannel.region by decide⟩
  have hfirst := reaches_emit (d := narrowChannel) (.task narrowInvocation 9 smallTask 1)
    (hplaced _ _) { shared := narrowShared }
  refine (hfirst.tail (.receive (.refl _))).trans (reaches_emitAll (fun e he => ?_) oneReceived)
  rcases List.mem_cons.mp he with rfl | he
  · exact ⟨.cgroup .., hplaced _ _⟩
  · rw [List.eq_of_mem_replicate he]
    exact ⟨.task .., hplaced _ _⟩

theorem run_crowd : ∃ x : Filing,
    Relation.ReflTransGen (Step narrowChannel) { shared := narrowShared } x ∧
      x.granted = List.range 22 ∧ x.received.length = 1 ∧
      x.outcome? 1 = some .submitted ∧ x.outcome? 22 = some .dropped ∧
      x.tallyOf 0 .submitted = 22 ∧ x.tallyOf 0 .dropped = 1 ∧
      x.record? 1 = some ((Signal.cgroupSnapshot 5).encode 7 10) ∧
      x.emissions[0]?.map (fun e => (e.invocation.shard, e.timestamp, e.signal?.map Signal.kind)) =
        some (7, 9, some .taskExec) :=
  ⟨_, reaches_crowd, by decide +kernel⟩

/-- The task is received and the group comes next; the last of the other tasks finds no room. -/
theorem submitted_records_are_received_of_crowd : ∃ x : Filing,
    Relation.ReflTransGen (Step narrowChannel) { shared := narrowShared } x ∧
      (∃ record t, x.received = [record] ∧
        decodeSignal record = .ok ⟨{ tag := 1, shard := 7, timestamp := 9 }, .taskExec t⟩) ∧
      (narrowChannel.receive x.shared).1 = .ok (some ((Signal.cgroupSnapshot 5).encode 7 10)) ∧
      x.outcome? 22 = some .dropped ∧ 22 ∉ x.granted ∧
      (∀ t ∈ x.turns, t.emission = 22 → t.Leaves narrowChannel) ∧
      (x.shared.tallies.get 0).recordsSubmitted = 22 ∧
      (x.shared.tallies.get 0).recordsDropped = 1 := by
  obtain ⟨x, hrun, hgranted, hone, hgroup, hdropped, hsubmitted, hlost, hrecord, htask⟩ := run_crowd
  have hsound := submitted_records_are_received buildChannel_narrow hrun
  obtain ⟨record, hreceived⟩ := List.length_eq_one_iff.mp hone
  have hfirst : x.record? 0 = some record := by
    have hreceipts := hsound.received
    rw [hone, hreceived, hgranted, show (List.range 22).take 1 = [0] by decide] at hreceipts
    exact (List.forall₂_cons.mp hreceipts).1
  have hnext : (narrowChannel.receive x.shared).1 =
      .ok (some ((Signal.cgroupSnapshot 5).encode 7 10)) := by
    rcases hsound.next narrowChannel (.refl _) with hnext | ⟨-, n, hn, hnone⟩
    · rwa [hone, hgranted, show (List.range 22)[1]? = some 1 by decide, Option.bind_some,
        hrecord] at hnext
    · rw [hone, hgranted] at hn
      cases hn
      cases hgroup.symm.trans hnone
  have hin : 0 ∈ x.granted := by
    rw [hgranted]
    decide
  obtain ⟨e, signal, record', he, hsignal, hrecord', hdecode⟩ := hsound.decoded 0 hin
  obtain rfl := Option.some.inj (hfirst.symm.trans hrecord')
  rw [he, Option.map_some, hsignal] at htask
  obtain ⟨hshard, htime, hkind⟩ := by simpa using htask
  refine ⟨x, hrun, ⟨record, ?_⟩, hnext, hdropped, ?_, (hsound.dropped 22 hdropped).1, ?_, ?_⟩
  · cases signal with
    | cgroupSnapshot => cases hkind
    | taskExec t => exact ⟨t, hreceived, by rw [hdecode, hshard, htime]; rfl⟩
  · rw [hgranted]
    decide
  · rw [(hsound.counted 0).1, hsubmitted]
    rfl
  · rw [(hsound.counted 0).2, hlost]
    rfl

end Filing
end ChainRelay
