import ChainRelay.Proofs.Capture.Delivery
import ChainRelay.Proofs.Emission.Consumers

/-!
A record follows its chunks. Whoever emits, drains, receives and resolves in whatever order: when a
record is committed, the chains that it names were committed before it, so that the next drain finds
them unless another emission still has a chunk open (`records_follow_their_chunks`).
-/

namespace ChainRelay

open ChainRelay.Ring Copy

namespace Ring.Queue

theorem allReady_live (q : List Booking) :
    allReady (q.filter (·.phase ≠ .discarded)) = allReady q := by
  induction q with
  | nil => rfl
  | cons k q ih => cases hk : k.phase <;> simp_all [allReady]

theorem length_allReady_le (q : List Booking) : (allReady q).length ≤ q.length := by
  induction q with
  | nil => rfl
  | cons k q ih => cases hk : k.phase <;> simp [allReady, hk] <;> omega

theorem allReady_ne_nil {q : List Booking} : allReady q ≠ [] ↔ ready? q ≠ none := by
  rw [allReady_eq]
  cases ready? q <;> simp

end Ring.Queue

namespace Claims

/-- When nobody is writing, every chunk that was committed is ready. -/
theorem length_allReady {claims : List Claim} (h : ∀ k ∈ claims, k.Sound)
    (hw : ∀ k ∈ claims, k.booking.phase ≠ .writing) :
    (Queue.allReady (claims.map (·.booking))).length = (claims.filterMap (·.view?)).length := by
  induction claims with
  | nil => rfl
  | cons k claims ih =>
    obtain ⟨hk, h⟩ := List.forall_mem_cons.mp h
    obtain ⟨hkw, hw⟩ := List.forall_mem_cons.mp hw
    have ih := ih h hw
    unfold Claim.Sound at hk
    cases hp : k.purpose with
    | part copy id =>
      rw [hp] at hk
      exact absurd hk hkw
    | foreign holder =>
      rw [hp] at hk
      exact absurd hk hkw
    | sent v =>
      rw [hp] at hk
      rw [List.filterMap_cons_some (Claim.view?_iff.mpr hp)]
      simpa [Queue.allReady, hk.committed] using ih
    | gone =>
      have hphase : k.booking.phase = .discarded := by simpa [hp] using hk
      have hview : k.view? = none := by simp [Claim.view?, hp]
      rw [List.filterMap_cons_none hview]
      simpa [Queue.allReady, hphase] using ih

end Claims

namespace Exchange

/-- A store whose bound cannot be doubled fails at the first chunk. -/
theorem Course.drain_overflow {c v : Channel} {ids room : Nat} {a₀ : Allocator} {x : Exchange}
    {claims : List Claim} {got kept : List ChunkView} (h : Course c ids a₀ room x claims got kept)
    (hv : c.Views v) (hready : Queue.ready? (claims.map (·.booking)) ≠ none)
    (hmax : sizeLimit ≤ room * 2) : (x.store.drain v x.shared).1 = .error .overflow := by
  have hb := h.books
  have hused := hb.queued.length_le_used hv
  have hover := hb.take_overflow hv hready hmax
  obtain ⟨fuel, hfuel⟩ : ∃ fuel, v.used x.shared = fuel + 1 := by
    cases claims with
    | nil => exact absurd rfl hready
    | cons k claims =>
      rw [List.length_map, List.length_cons] at hused
      exact ⟨v.used x.shared - 1, by omega⟩
  unfold Store.drain
  rw [hfuel, Store.takeMany]
  rcases htake : x.store.takeOne v x.shared with ⟨answer, store, shared⟩
  rw [htake] at hover
  obtain rfl : answer = .error .overflow := hover
  rfl

end Exchange

namespace Emissions

variable {c d v : Channel} {ids room n : Nat} {a₀ : Allocator} {x : Emissions} {g : Docket}
  {claims : List Claim} {got kept : List ChunkView} {chunks records : List Booking}

/-- The chunk stands committed on the channel, or was drained from it. -/
def Visible (x : Emissions) (chunks : List Booking) (v : ChunkView) : Prop :=
  (∃ k ∈ chunks, Carries k v) ∨ ∃ record ∈ x.drained, decodeChunk record = .ok v

/-- The chunks from this one to the last one of its chain are all visible. -/
def HasChain (x : Emissions) (chunks : List Booking) (head : ChunkId) : Prop :=
  ∃ v vs, v.header.id = head ∧ Trail.Leads (v :: vs) .none ∧ ∀ w ∈ v :: vs, x.Visible chunks w

/-- The record stands committed on the channel, or was received. -/
def Recorded (x : Emissions) (records : List Booking) (record : Bytes) : Prop :=
  record ∈ x.received ∨ ∃ k ∈ records, k.phase = .committed ∧ k.data = record

theorem Base.visible (h : Base c d ids a₀ room x g claims got kept)
    (hq : c.Queued x.shared chunks) {w : ChunkView} (hw : Claims.Visible got claims w) :
    x.Visible chunks w := by
  have hb := h.course.books
  have hq₀ := hb.queued
  rw [h.shared_eq] at hq₀
  rcases hw with hw | ⟨k, hk, hp⟩
  · obtain ⟨record, hrecord, hdecode⟩ := forall₂_mem h.drained.flip hw
    exact .inr ⟨record, hrecord, hdecode⟩
  · have hcarries := hb.sound k hk
    unfold Claim.Sound at hcarries
    rw [hp] at hcarries
    have hlive : k.booking.phase ≠ .discarded := by
      rw [hcarries.committed]
      nofun
    exact .inl ⟨k.booking, hq₀.live_mem hq (List.mem_map_of_mem hk) hlive, hcarries⟩

theorem Docket.Names.hasChain {t : Task} (h : Base c d ids a₀ room x g claims got kept)
    (hnames : g.Names n t.heads) (hq : c.Queued x.shared chunks) :
    ∀ head ∈ t.heads, head ≠ .none → x.HasChain chunks head := by
  intro head hhead hne
  obtain ⟨copy, -, hr⟩ := hnames.reported head hhead hne
  obtain ⟨w, ws, hid, hleads, hvisible⟩ := h.course.visible_chain hr hne
  exact ⟨w, ws, hid, hleads, fun u hu => h.visible hq (hvisible u hu)⟩

theorem Records.files (h : Records d x g) (hQ : d.Queued x.shared records) {record : Bytes}
    (hr : x.Recorded records record) : ∃ n, g.Files n record := by
  rcases hr with hr | ⟨k, hk, hc, rfl⟩
  · obtain ⟨n, -, hfiles⟩ := forall₂_mem h.received.flip hr
    exact ⟨n, hfiles⟩
  · have hlive : k.phase ≠ .discarded := by
      rw [hc]
      nofun
    obtain ⟨e, he, rfl⟩ := List.mem_map.mp (hQ.live_mem h.queued hk hlive)
    exact ⟨e.2, h.entries e he hc⟩

/-- The chains of a record that was not resolved are not taken out. -/
theorem Base.not_collected (h : Base c d ids a₀ room x g claims got kept) {m copy : Nat}
    (hm : m ∉ x.resolved) (hauthor : g.authors[m]? = some n) (howner : g.owners[copy]? = some n) :
    copy ∉ g.exchange.collected := by
  intro hcopy
  obtain ⟨m', hm', n', hauthor', howner'⟩ := h.collected copy hcopy
  rw [howner] at howner'
  cases howner'
  have hdistinct : g.authors.Nodup := (List.nodup_append.mp h.records.distinct).1
  have hlt := (List.getElem?_eq_some_iff.mp hauthor).1
  have heq := (List.getElem?_inj hlt hdistinct).mp (hauthor.trans hauthor'.symm)
  exact hm (heq ▸ hm')

/-- When nobody has a chunk open, the store takes what is on the channel, and then the chains of
every record that was received and not resolved are found. -/
theorem Base.resolves (h : Base c d ids a₀ room x g claims got kept) {m : Nat} {t : Task}
    (hauthor : g.authors[m]? = some n) (hnames : g.Names n t.heads) (hm : m ∉ x.resolved)
    (hw : ∀ k ∈ claims, k.booking.phase ≠ .writing) (hv : c.Views v)
    (hroom : x.store.size + (claims.filterMap (·.view?)).length ≤ room)
    (hmax : room * 2 < sizeLimit ∨ claims.filterMap (·.view?) = []) :
    ∃ k store shared, x.store.drain v x.shared = (.ok k, store, shared) ∧
      ∀ part ∈ (store.resolveTask t maxChunksLimit).1.parts, ∀ cause, part ≠ .broken cause := by
  have hfuel := h.course.books.queued.length_le_used hv
  rw [List.length_map] at hfuel
  rw [← h.store_eq] at hroom
  obtain ⟨k, store, shared, claims', got', kept', hmany, hcourse, hgone, -⟩ :=
    h.course.drains hw hv hroom hmax hfuel
  rw [h.store_eq, h.shared_eq] at hmany
  refine ⟨k, store, shared, hmany, Store.resolveTask_whole ?_⟩
  apply hcourse.walks_succeed hgone hnames.distinct _ (Nat.le_refl _)
  intro head hhead hne
  obtain ⟨copy, howner, hr⟩ := hnames.reported head hhead hne
  exact ⟨copy, h.not_collected hm hauthor howner, hr⟩

/-- An emission that is granted all it asks for runs to its end, and its record is received. -/
theorem reaches_receipt {i : Invocation} {source : TaskSnapshot} {task timestamp : UInt64}
    {s : Shared} (maxPending : Nat) (hi : i.Uses c d ids) (hf : source.memory.Flat)
    (hs : i.settings.validate = .ok ()) (hc : c.Queued s []) (hd : d.Queued s [])
    (hapart : d.region ≠ c.region) (hgranted : (i.emitTask timestamp source task).Granted s) :
    ∃ s' record ks, Relation.ReflTransGen (Step c d ids) (initial s maxPending)
        ⟨s', .ofMaxPending maxPending, [.done .submitted],
          (i.emitTask timestamp source task).openings s, [], [record], []⟩ ∧
      c.Queued s' ks ∧ (∀ k ∈ ks, k.phase = .committed) ∧ ks.length ≤ 4 * maxChunksLimit := by
  obtain ⟨s', t, views, ks, k, hemit, ht, hchunks, hks, -, hrecords, hk, -⟩ :=
    Invocation.emitTask_granted hf hs hc hd hapart hi.chunks hi.records hgranted
  have hstart := Step.start (x := initial s maxPending) i timestamp source task hi
  generalize i.emitTask timestamp source task = a at hemit hstart ⊢
  have hends : Relation.ReflTransGen (Step c d ids) { initial s maxPending with running := [a] }
      ⟨s', .ofMaxPending maxPending, [.done .submitted], a.openings s, [], [], []⟩ :=
    run_alone (n := 0) rfl hemit
  have hready : d.ready s' = [k.data] := by
    unfold Channel.ready
    rw [Invocation.receive_record hrecords (List.forall_mem_nil _) hk (.refl _)]
  have hreceive := @Step.receive c d ids
    ⟨s', .ofMaxPending maxPending, [.done .submitted], a.openings s, [], [], []⟩ d (.refl d)
  dsimp only at hreceive
  rw [hready] at hreceive
  refine ⟨(d.receive s').2, k.data, ks, (Relation.ReflTransGen.head hstart hends).tail hreceive,
    hchunks.of_memory (Channel.get_receive hapart s'), ?_, ?_⟩
  · intro k hk
    obtain ⟨v, -, hcarries⟩ := forall₂_mem hks hk
    exact hcarries.committed
  · rw [hks.length_eq]
    exact ht.length_le

/-- Any number of emissions run among each other and with their consumers. At every moment a record
that was committed names only chains that are visible from beginning to end. Once it is received and
nobody has a chunk open, a drain that the store has room for is followed by a first resolution that
breaks nowhere. The drain itself succeeds if the store's bound can be doubled or there is no chunk
to take, and only then. -/
theorem records_follow_their_chunks {s : Shared} {maxPending : Nat} (hc : c.Queued s [])
    (hd : d.Queued s []) (hapart : d.region ≠ c.region)
    (hrun : Relation.ReflTransGen (Step c d ids) (initial s maxPending) x)
    (hfew : ∀ slot, (s.allocators.get ids).share slot x.opened < Allocator.period) :
    (∃ chunks records, c.Queued x.shared chunks ∧ d.Queued x.shared records) ∧
    ∀ chunks records, c.Queued x.shared chunks → d.Queued x.shared records →
      (∀ record, x.Recorded records record → ∃ header t,
        decodeSignal record = .ok ⟨header, .taskExec t⟩ ∧
          ∀ head ∈ t.heads, head ≠ .none → x.HasChain chunks head) ∧
      ∀ m record header t v, x.received[m]? = some record → m ∉ x.resolved →
        decodeSignal record = .ok ⟨header, .taskExec t⟩ → (∀ k ∈ chunks, k.phase ≠ .writing) →
        c.Views v → x.store.size + (Queue.allReady chunks).length ≤ x.store.maxPending →
        (maxPending * 2 < sizeLimit ∨ Queue.allReady chunks = [] → ∃ k store shared,
          x.store.drain v x.shared = (.ok k, store, shared) ∧
            ∀ part ∈ (store.resolveTask t maxChunksLimit).1.parts, ∀ cause,
              part ≠ .broken cause) ∧
        (sizeLimit ≤ maxPending * 2 → Queue.allReady chunks ≠ [] →
          (x.store.drain v x.shared).1 = .error .overflow) := by
  obtain ⟨g, claims, got, kept, horder⟩ := Order.run hc hd hapart hrun hfew
  have h := horder.base
  have hb := h.course.books
  have hq₀ := hb.queued
  rw [h.shared_eq] at hq₀
  refine ⟨⟨_, _, hq₀, h.records.queued⟩, fun chunks records hq hQ => ⟨?_, ?_⟩⟩
  · intro record hrecord
    obtain ⟨n, header, t, hdecode, hnames⟩ := h.records.files hQ hrecord
    exact ⟨header, t, hdecode, hnames.hasChain h hq⟩
  · intro m record header t v hm hunresolved hdecode hw hv hroom
    obtain ⟨n, hauthor, header', t', hdecode', hnames⟩ := h.records.author hm
    rw [hdecode] at hdecode'
    cases hdecode'
    have hw₀ : ∀ k ∈ claims, k.booking.phase ≠ .writing := by
      intro k hk hwriting
      have hlive : k.booking.phase ≠ .discarded := by
        rw [hwriting]
        nofun
      exact hw _ (hq₀.live_mem hq (List.mem_map_of_mem hk) hlive) hwriting
    have hready : Queue.allReady (claims.map (·.booking)) = Queue.allReady chunks := by
      rw [← Queue.allReady_live, hq.live_eq hq₀, Queue.allReady_live]
    have hlength := Claims.length_allReady hb.sound hw₀
    have hbound := hb.room_eq
    rw [h.store_eq] at hbound
    rw [hready] at hlength
    constructor
    · intro hmax
      apply h.resolves hauthor hnames hunresolved hw₀ hv
      · rw [← hlength, ← hbound]
        exact hroom
      · apply hmax.imp
        · intro hmax
          simp only [sizeLimit] at hmax ⊢
          omega
        · intro hnone
          rw [hnone, List.length_nil] at hlength
          exact List.eq_nil_of_length_eq_zero hlength.symm
    · intro hmax hsome
      rw [← hready, Queue.allReady_ne_nil] at hsome
      have hover := h.course.drain_overflow hv hsome (by omega)
      rwa [h.store_eq, h.shared_eq] at hover

theorem records_follow_their_chunks_of_small : ∃ x record header t,
    Relation.ReflTransGen (Step Traffic.firstChannel Invocation.secondChannel 0)
      (initial Invocation.secondShared 128) x ∧
      x.received = [record] ∧ decodeSignal record = .ok ⟨header, .taskExec t⟩ ∧
      ∃ k store shared, x.store.drain Traffic.firstChannel x.shared = (.ok k, store, shared) ∧
        ∀ part ∈ (store.resolveTask t maxChunksLimit).1.parts, ∀ cause, part ≠ .broken cause := by
  have hc : Traffic.firstChannel.Queued Invocation.secondShared [] :=
    (Shared.buildChannel_queued Traffic.buildChannel_first).of_memory rfl
  have hd : Invocation.secondChannel.Queued Invocation.secondShared [] :=
    Shared.buildChannel_queued Invocation.buildChannel_second
  have hapart : Invocation.secondChannel.region ≠ Traffic.firstChannel.region := by decide
  have hf : Invocation.smallTask.memory.Flat := by
    refine ⟨?_, ?_⟩ <;> simp [Invocation.smallTask, addressLimit]
  have hgranted : (Invocation.smallInvocation.emitTask 9 Invocation.smallTask 1).Granted
      Invocation.secondShared := by
    decide +kernel
  have hopenings : ((Invocation.smallInvocation.emitTask 9 Invocation.smallTask 1).openings
      Invocation.secondShared).length < Allocator.period := by
    decide +kernel
  obtain ⟨s', record, ks, hrun, hks, hcommitted, hlength⟩ :=
    reaches_receipt 128 ⟨.refl _, .refl _, rfl⟩ hf rfl hc hd hapart hgranted
  obtain ⟨⟨-, records, -, hrecords⟩, hmain⟩ := records_follow_their_chunks hc hd hapart hrun
    fun slot => Nat.lt_of_le_of_lt List.countP_le_length hopenings
  obtain ⟨hnames, hwhole⟩ := hmain ks records hks hrecords
  obtain ⟨header, t, hdecode, -⟩ := hnames record (.inl (List.mem_singleton_self _))
  have hwriting : ∀ k ∈ ks, k.phase ≠ .writing := by
    intro k hk
    simp [hcommitted k hk]
  have hroom : (Queue.allReady ks).length ≤ 128 :=
    (Queue.length_allReady_le ks).trans hlength
  have hclean := (hwhole 0 record header t _ rfl (List.not_mem_nil) hdecode hwriting (.refl _)
    ((Nat.zero_add _).trans_le hroom)).1 (.inl (by decide))
  exact ⟨_, record, header, t, hrun, rfl, hdecode, hclean⟩

end Emissions
end ChainRelay
