import ChainRelay.Proofs.Channel.Traffic
import ChainRelay.Proofs.Channel.Twins
import ChainRelay.Proofs.Copy.Alike
import ChainRelay.Proofs.Copy.Effects
import ChainRelay.Proofs.Copy.Proceed

/-!
A copy that runs to its end. Behind what the channel held it appends its chain and nothing else,
whatever way it ends (`copy_appends_its_chain`).
-/

namespace ChainRelay

open ChainRelay.Ring Traffic

def Op.takes (op : Op) : op.Reply → List Slot :=
  match op with
  | openChunk .. => fun reply => reply.toOption.toList.map (·.reservation.slot)
  | _ => fun _ => []

def Ring.Band.Payload (b : Band) (slots : List Slot) (addr : Nat) : Prop :=
  ∃ slot ∈ slots, b.Behind chunkHeaderSize slot addr

theorem Ring.Band.Payload.mono {b : Band} {slots more : List Slot} {addr : Nat}
    (h : b.Payload slots addr) (hm : slots ⊆ more) : b.Payload more addr := by
  obtain ⟨slot, hslot, hb⟩ := h
  exact ⟨slot, hm hslot, hb⟩

theorem Channel.Queued.payload_low {c : Channel} {s : Shared} {q : List Booking}
    (h : c.Queued s q) {slots : List Slot} {addr : Nat} (hp : c.band.Payload slots addr) :
    headerSpan ≤ addr := by
  obtain ⟨slot, -, hb⟩ := hp
  exact h.behind_low hb

namespace Copy

/-- Where a copy has come that began in `s₀` with the queue `q`, and which slots it was given. -/
structure Laid (c : Channel) (q : List Booking) (s₀ : Shared) (r : Request) (g : Trail)
    (slots : List Slot) (s : Shared) : Prop where
  queue : ∃ ks hs ds, c.Queued s (q ++ ks ++ hs ++ ds) ∧ List.Forall₂ Carries ks g.sent ∧
    List.Forall₂ (Part.Booked c r.sizeClass) g.hand hs ∧ (∀ d ∈ ds, d.phase = .discarded) ∧
    (g.lost = .none → ds = []) ∧ (ks ++ hs ++ ds).map (·.slot) = slots
  ids : ((s₀.allocators.get r.writer.ids).issue r.writer.shard g.ids.length) =
    (g.ids, s.allocators.get r.writer.ids)
  counters : ∀ n, n ≠ r.writer.ids → s.allocators.get n = s₀.allocators.get n
  regions : ∀ n, n ≠ c.region → s.regions.get n = s₀.regions.get n
  exhausted : g.refused = some .overflow → c.Exhausted s r.sizeClass.totalSize

variable {c : Channel} {q : List Booking} {s₀ s : Shared} {r : Request} {limit : Nat} {g g' : Trail}
  {slots : List Slot}

theorem Laid.initial (h : c.Queued s₀ q) : Laid c q s₀ r {} [] s₀ :=
  ⟨⟨[], [], [], by simpa using h, .nil, .nil, nofun, fun _ => rfl, rfl⟩, rfl, fun _ _ => rfl,
    fun _ _ => rfl, nofun⟩

/-- What is in hand has one of the slots. -/
theorem Laid.slot_mem (h : Laid c q s₀ r g slots s) {p : Part} (hp : p ∈ g.hand) :
    c.Views p.chunk.reservation.channel ∧ p.chunk.reservation.slot ∈ slots := by
  obtain ⟨ks, hs, ds, -, -, hhand, -, -, rfl⟩ := h.queue
  obtain ⟨k, hk, hbooked⟩ := forall₂_mem hhand hp
  refine ⟨hbooked.holds.view, hbooked.holds.slot_eq ▸ List.mem_map_of_mem ?_⟩
  exact List.mem_append_left _ (List.mem_append_right _ hk)

/-- An operation that takes no slot. -/
theorem Laid.keep (h : Laid c q s₀ r g slots s) : Laid c q s₀ r g (slots ++ []) s := by
  rwa [List.append_nil]

/-- What an operation on a reservation of the channel leaves alone. -/
theorem Laid.of_queue (h : Laid c q s₀ r g slots s) (op : Op) (g' : Trail)
    (hop : op.region? = some c.region)
    (ha : (op.perform s).2.allocators = s.allocators)
    (hqueue : ∃ ks hs ds, c.Queued (op.perform s).2 (q ++ ks ++ hs ++ ds) ∧
      List.Forall₂ Carries ks g'.sent ∧ List.Forall₂ (Part.Booked c r.sizeClass) g'.hand hs ∧
      (∀ d ∈ ds, d.phase = .discarded) ∧ (g'.lost = .none → ds = []) ∧
      (ks ++ hs ++ ds).map (·.slot) = slots)
    (hids : g'.ids = g.ids)
    (hex : g'.refused = some .overflow → c.Exhausted (op.perform s).2 r.sizeClass.totalSize) :
    Laid c q s₀ r g' slots (op.perform s).2 := by
  refine ⟨hqueue, by rw [hids, ha]; exact h.ids, by rw [ha]; exact h.counters, fun n hn => ?_, hex⟩
  refine (op.get_perform ?_ s).trans (h.regions n hn)
  rw [hop]
  intro he
  exact hn (Option.some.inj he).symm

/-- A chunk was opened behind the others. -/
theorem Laid.opened {sent : List ChunkView} {hand : List Part} {chunk : OpenChunk}
    (h : Laid c q s₀ r ⟨sent, hand, none, .none⟩ slots s) (hv : c.Views r.writer.channel)
    (ho : (s.openChunk r.writer r.sizeClass).1 = .ok chunk) :
    Laid c q s₀ r ⟨sent, hand ++ [⟨chunk, []⟩], none, .none⟩ (slots ++ [chunk.reservation.slot])
      (s.openChunk r.writer r.sizeClass).2 := by
  obtain ⟨⟨ks, hs, ds, hq, hks, hhs, -, hds, hslots⟩, hids, hcounters, hregions, -⟩ := h
  obtain rfl := hds rfl
  rw [List.append_nil] at hq
  have hframe (n : Nat) (hn : n ≠ c.region) :
      (s.openChunk r.writer r.sizeClass).2.regions.get n = s.regions.get n := by
    refine Op.get_perform (.openChunk r.writer r.sizeClass) ?_ s
    simp only [Op.region?, hv.region_eq, ne_eq, Option.some.injEq]
    exact Ne.symm hn
  rcases hq.openChunk hv r.sizeClass with ⟨k, chunk', s', he, hb, hq', hid, halloc⟩ | ⟨e, s', he, -⟩
  · rw [he] at ho hframe ⊢
    cases ho
    constructor
    case queue =>
      refine ⟨ks, hs ++ [k], [], by simpa using hq', hks, List.rel_append hhs (.cons hb .nil),
        List.forall_mem_nil _, fun _ => rfl, ?_⟩
      rw [← hslots, hb.holds.slot_eq]
      simp
    case ids =>
      have hlast : Trail.ids ⟨sent, hand ++ [⟨chunk, []⟩], none, .none⟩ =
          Trail.ids ⟨sent, hand, none, .none⟩ ++ [chunk.id] := by simp [Trail.ids]
      simp only [hlast, List.length_append, List.length_singleton, Allocator.issue, hids, hid,
        halloc, Sparse.get_set_same]
    case counters =>
      intro n hn
      simp only [halloc, Sparse.get_set_other _ _ (Ne.symm hn)]
      exact hcounters n hn
    case regions => exact fun n hn => (hframe n hn).trans (hregions n hn)
    case exhausted =>
      intro he
      cases he
  · rw [he] at ho
    cases ho

theorem Laid.refused {sent : List ChunkView} {hand : List Part} {e : ReserveError}
    (h : Laid c q s₀ r ⟨sent, hand, none, .none⟩ slots s) (hv : c.Views r.writer.channel)
    (ho : (s.openChunk r.writer r.sizeClass).1 = .error e) :
    Laid c q s₀ r ⟨sent, hand, some e, .none⟩ slots (s.openChunk r.writer r.sizeClass).2 := by
  obtain ⟨ks, hs, ds, hq, hks, hhs, -, hds, hslots⟩ := h.queue
  obtain rfl := hds rfl
  rw [List.append_nil] at hq
  rcases hq.openChunk hv r.sizeClass with ⟨k, chunk, s', he, -⟩ | ⟨e', s', he, hq', halloc, hex⟩
  · rw [he] at ho
    cases ho
  · have hperform : (Op.openChunk r.writer r.sizeClass).perform s = (.error e', s') := he
    have h := h.of_queue (.openChunk r.writer r.sizeClass)
      ⟨sent, hand, some e', .none⟩ (congrArg some hv.region_eq)
    rw [hperform] at h
    rw [he] at ho ⊢
    cases ho
    exact h halloc ⟨ks, hs, [], by simpa using hq', hks, hhs, nofun, fun _ => rfl, hslots⟩ rfl
      fun hover => hex (Option.some.inj hover)

theorem Laid.filled {sent : List ChunkView} {hand : List Part} {chunk : OpenChunk} {data : Bytes}
    (h : Laid c q s₀ r ⟨sent, hand ++ [⟨chunk, []⟩], none, .none⟩ slots s)
    (hg : Trail.Sound r limit ⟨sent, hand ++ [⟨chunk, []⟩], none, .none⟩)
    (hle : data.length ≤ r.room) :
    Laid c q s₀ r ⟨sent, hand ++ [⟨chunk.filled data, data⟩], none, .none⟩ slots
      (s.fillChunk chunk data) := by
  obtain ⟨ks, hs, ds, hq, hks, hhs, -, hds, hslots⟩ := h.queue
  obtain rfl := hds rfl
  obtain ⟨hs', k, rfl, hhand, hk⟩ := forall₂_snoc hhs
  have hcap := (hg.made ⟨chunk, []⟩ (by simp)).capacity_eq
  have hq : c.Queued s ((q ++ ks ++ hs') ++ k :: []) := by simpa using hq
  obtain ⟨k', hslot, hk', hq'⟩ := hq.fillChunk hk hcap hle
  refine h.of_queue (.fillChunk chunk data) _ (congrArg some hk.holds.view.region_eq) rfl ?_ ?_
    nofun
  · refine ⟨ks, hs' ++ [k'], [], ?_, hks, List.rel_append hhand (.cons hk' .nil), nofun,
      fun _ => rfl, ?_⟩
    · show c.Queued (s.fillChunk chunk data) _
      simpa using hq'
    · rw [← hslots]
      simp [hslot]
  · simp [Trail.ids]

/-- The chunk in front becomes visible. -/
theorem Laid.committed {sent : List ChunkView} {p : Part} {hand : List Part}
    {refused : Option ReserveError}
    (h : Laid c q s₀ r ⟨sent, p :: hand, refused, .none⟩ slots s)
    (hg : Trail.Sound r limit ⟨sent, p :: hand, refused, .none⟩) (hover : refused ≠ some .overflow)
    (next : ChunkId) : Laid c q s₀ r ⟨sent ++ [p.view r.sizeClass next], hand, refused, .none⟩ slots
      (s.commitChunk (p.chunk.linked next)) := by
  obtain ⟨ks, hs, ds, hq, hks, hhs, -, hds, hslots⟩ := h.queue
  obtain rfl := hds rfl
  cases hhs with
  | @cons _ k _ hs hk hhand =>
    have hvalid := hg.valid (by simp [Trail.payloads])
    have hle := hg.room p.data (by simp [Trail.payloads])
    have hq : c.Queued s ((q ++ ks) ++ k :: hs) := by simpa using hq
    obtain ⟨k', hslot, hk', hq'⟩ := hq.commitChunk hk (hg.made p List.mem_cons_self) hvalid hle
      next
    refine h.of_queue (.commitChunk (p.chunk.linked next)) _
      (congrArg some hk.holds.view.region_eq) rfl ?_ ?_ fun he => absurd he hover
    · refine ⟨ks ++ [k'], hs, [], ?_, List.rel_append hks (.cons hk' .nil), hhand,
        List.forall_mem_nil _, fun _ => rfl, ?_⟩
      · show c.Queued (s.commitChunk (p.chunk.linked next)) _
        simpa using hq'
      · rw [← hslots]
        simp [hslot]
    · simp [Trail.ids, Part.view, OpenChunk.id]

theorem Laid.abandoned {sent : List ChunkView} {p : Part}
    (h : Laid c q s₀ r ⟨sent, [p], some .overflow, .none⟩ slots s)
    (hg : Trail.Sound r limit ⟨sent, [p], some .overflow, .none⟩) :
    Laid c q s₀ r ⟨sent, [], some .overflow, p.chunk.id⟩ slots (s.abandonChunk p.chunk) := by
  obtain ⟨ks, hs, ds, hq, hks, hhs, hds, -, hslots⟩ := h.queue
  cases hhs with
  | @cons _ k _ hs hk hhand =>
    cases hhand
    have hq : c.Queued s ((q ++ ks) ++ k :: ds) := by simpa using hq
    have hq' := hq.abandonChunk hk
    refine h.of_queue (.abandonChunk p.chunk) _ (congrArg some hk.holds.view.region_eq) rfl ?_
      ?_ fun _ => ?_
    · refine ⟨ks, [], { k with phase := .discarded } :: ds, ?_, hks, .nil,
        List.forall_mem_cons.mpr ⟨rfl, hds⟩,
        fun he => absurd he (hg.made p List.mem_cons_self).named, ?_⟩
      · show c.Queued (s.abandonChunk p.chunk) _
        simpa using hq'
      · rw [← hslots]
        simp [Booking.slot]
    · have hne := (hg.made p List.mem_cons_self).named
      simp [Trail.ids, hne]
    · obtain ⟨cells, hl, -⟩ := hq
      have hex := h.exhausted rfl
      unfold Channel.Exhausted at hex ⊢
      apply hex.of_produced
      show produced (((s.report _).onRegion p.chunk.reservation.channel.region _).regions.get _) = _
      rw [hk.holds.view.region_eq, Shared.get_onRegion_same, hk.holds.view.band_eq]
      exact Band.produced_finalize _ _ _ _ hl.regular.offset_min

/-- One operation of a copy that nobody interrupts. -/
theorem Laid.step {op : Op} (h : Laid c q s₀ r g slots s) (hv : c.Views r.writer.channel)
    (hg : g.Sound r limit) (hstep : Trail.Step r limit g op (op.perform s).1 g') :
    Laid c q s₀ r g' (slots ++ op.takes (op.perform s).1) (op.perform s).2 := by
  obtain ⟨reply, hreply⟩ : ∃ reply, (op.perform s).1 = reply := ⟨_, rfl⟩
  rw [hreply] at hstep ⊢
  cases hstep with
  | openFirst hvalid hlimit hc => exact (h.opened hv hreply :)
  | openNext hc hp hlimit => exact h.opened hv hreply
  | refuse hlen hfirst => exact (h.refused hv hreply).keep
  | fill hand hne hle hs => exact (h.filled hg hle).keep
  | handOver p' hp => exact (h.committed hg nofun _).keep
  | @finish sent p refused hp ho =>
    have h := h.committed hg ho .none
    rw [(hg.made p List.mem_cons_self).linked_none] at h
    exact h.keep
  | abandon => exact (h.abandoned hg).keep
  | count => exact Laid.keep ⟨h.queue, h.ids, h.counters, h.regions, h.exhausted⟩
  | report => exact Laid.keep ⟨h.queue, h.ids, h.counters, h.regions, h.exhausted⟩

/-- A copy that nobody interrupts ends with its trail. Another one that differs in the bytes it
copies does the same, and only these bytes tell what the two leave behind. -/
theorem Follows.run_alike {post : CopyOutcome → Trail → Prop} {a a' : Activity CopyOutcome}
    (hfollows : Follows r limit post a g) (halike : a.Alike a') (hv : c.Views r.writer.channel)
    (hg : g.Sound r limit) (hl : Laid c q s₀ r g slots s) {old : List Slot} {s' : Shared}
    (ht : c.Twins (c.band.Payload (old ++ slots)) s s') :
    ∃ g' slots', g'.Sound r limit ∧ Laid c q s₀ r g' slots' (a.run s).2 ∧
      (a.Granted s → g'.refused = g.refused) ∧
      (match (a.run s).1 with
      | .ok o => post o g'
      | .error _ => g'.hand = [] ∧ g'.refused = some .overflow) ∧
      (a'.run s').1 = (a.run s).1 ∧
      c.Twins (c.band.Payload (old ++ slots')) (a.run s).2 (a'.run s').2 := by
  induction halike generalizing g s s' slots with
  | done o => exact ⟨g, slots, hg, hl, fun _ => rfl, hfollows, rfl, ht⟩
  | abort => exact ⟨g, slots, hg, hl, fun _ => rfl, hfollows, rfl, ht⟩
  | @step op next next' _ ih =>
    obtain ⟨g', hstep, hrest⟩ := hfollows _ (op.answers_perform s)
    obtain ⟨ks, hs, ds, hq, -⟩ := hl.queue
    obtain ⟨hanswer, htwins⟩ := ht.perform (fun _ => hq.payload_low) op
    have hmore : old ++ slots ⊆ old ++ (slots ++ op.takes (op.perform s).1) := by
      simp [← List.append_assoc]
    have htwins := htwins.mono fun k hk => hk.mono hmore
    obtain ⟨g'', slots', hsound, hlaid, hrefused, hend, hsame, htwins⟩ :=
      ih _ hrest (hg.step hstep) (hl.step hv hg hstep) htwins
    have hrun : (Activity.step op next').run s' =
        (next' (op.perform s).1).run (op.perform s').2 := by rw [Activity.run, hanswer]
    rw [hrun]
    refine ⟨g'', slots', hsound, hlaid, fun hgranted => ?_, hend, hsame, htwins⟩
    exact (hrefused hgranted.2).trans (hstep.refused_eq hgranted.1)
  | @fill chunk data data' hlen next next' _ ih =>
    obtain ⟨g', hstep, hrest⟩ := hfollows () (Op.answers_perform (.fillChunk chunk data) s)
    have hlaid : Laid c q s₀ r g' (slots ++ []) (s.fillChunk chunk data) := hl.step hv hg hstep
    have hsound := hg.step hstep
    have htwins : c.Twins (c.band.Payload (old ++ (slots ++ []))) (s.fillChunk chunk data)
        (s'.fillChunk chunk data') := by
      cases hstep with
      | fill hand =>
        obtain ⟨hview, hslot⟩ := hl.slot_mem (p := ⟨chunk, []⟩) (by simp)
        rw [List.append_nil]
        apply ht.write_hidden hview
        · intro k hk
          exact ⟨_, List.mem_append_right _ hslot, hk⟩
        · simp only [OpenChunk.stored, List.length_take, hlen]
    obtain ⟨g'', slots', hsound, hlaid, hrefused, hend, hsame, htwins⟩ :=
      ih hrest hsound hlaid htwins
    refine ⟨g'', slots', hsound, hlaid, fun hgranted => ?_, hend, hsame, htwins⟩
    exact (hrefused hgranted.2).trans (hstep.refused_eq trivial)

theorem Follows.run {post : CopyOutcome → Trail → Prop} {a : Activity CopyOutcome}
    (hfollows : Follows r limit post a g) (hv : c.Views r.writer.channel) (hg : g.Sound r limit)
    (hl : Laid c q s₀ r g slots s) : ∃ g' slots', g'.Sound r limit ∧
      Laid c q s₀ r g' slots' (a.run s).2 ∧ (a.Granted s → g'.refused = g.refused) ∧
      match (a.run s).1 with
      | .ok o => post o g'
      | .error _ => g'.hand = [] ∧ g'.refused = some .overflow := by
  obtain ⟨g', slots', hsound, hlaid, hrefused, hend, -⟩ :=
    hfollows.run_alike (.refl a) hv hg hl (.refl c (c.band.Payload ([] ++ slots)) s)
  exact ⟨g', slots', hsound, hlaid, hrefused, hend⟩

/-- What a copy leaves that has nothing in hand and gave nothing up. -/
theorem Laid.records (h : Laid c q s₀ r g slots s) (hhand : g.hand = []) (hlost : g.lost = .none) :
    ∃ records, c.Queued s (q ++ records) ∧ List.Forall₂ Carries records g.sent ∧
      (s₀.allocators.get r.writer.ids).issue r.writer.shard g.sent.length =
        (g.sent.map (·.header.id), s.allocators.get r.writer.ids) := by
  obtain ⟨records, hs, gone, hq, hrecords, hhands, -, hgone, -⟩ := h.queue
  obtain rfl := hgone hlost
  rw [hhand] at hhands
  cases hhands
  have hids : g.ids = g.sent.map (·.header.id) := by simp [Trail.ids, hhand, hlost]
  have hissue := h.ids
  rw [hids, List.length_map] at hissue
  exact ⟨records, by simpa using hq, hrecords, hissue⟩

/-- Whatever way a copy ends, it leaves no reservation open: behind what the channel held stand its
committed records, which decode to a chain that the outcome describes, and it took one identifier
for each. It ends without an outcome only when the channel's cursor has no room for another
chunk. -/
theorem copy_appends_its_chain {c : Channel} {t : Traffic} (ht : Traffic.Reached c t) (call : Call)
    (hv : call.writer.channel ∈ t.views) (hf : call.source.Flat) :
    (∃ q, c.Queued t.shared q) ∧ ∀ q, c.Queued t.shared q →
      match call.activity.run t.shared with
      | (.ok o, s) => ∃ records views, c.Queued s (q ++ records) ∧
          List.Forall₂ Carries records views ∧ call.Chain views ∧ Reports o views ∧
          (t.shared.allocators.get call.writer.ids).issue call.writer.shard o.chunks =
            (views.map (·.header.id), s.allocators.get call.writer.ids)
      | (.error _, s) => c.Exhausted s call.sizeClass.totalSize ∧
          ∃ records views gone, c.Queued s (q ++ records ++ gone) ∧
            List.Forall₂ Carries records views ∧ ∀ k ∈ gone, k.phase = .discarded := by
  obtain ⟨hq, hviews⟩ := ht.queued
  refine ⟨hq, fun q hq => ?_⟩
  obtain ⟨g, slots, hsound, hlaid, -, hend⟩ :=
    (call.follows hf).run (hviews _ hv) (.initial _ _) (Laid.initial hq)
  cases hrun : call.activity.run t.shared with
  | mk answer s =>
    rw [hrun] at hlaid hend
    cases answer with
    | ok o =>
      have hended : Ended call.request call.extent call.settings.maxChunks o g := hend
      obtain ⟨records, hq', hrecords, hissue⟩ := hlaid.records hended.hand_eq hended.lost_eq
      rw [← hended.chunks_eq] at hissue
      exact ⟨records, g.sent, hq', hrecords, hsound.chain hended.hand_eq hended.lost_eq,
        hended.reports, hissue⟩
    | error e =>
      obtain ⟨hnone, hrefused⟩ : g.hand = [] ∧ g.refused = some .overflow := hend
      obtain ⟨records, hs, gone, hq', hrecords, hhand, hdiscarded, -⟩ := hlaid.queue
      rw [hnone] at hhand
      cases hhand
      exact ⟨hlaid.exhausted hrefused, records, g.sent, gone, by simpa using hq', hrecords,
        hdiscarded⟩

def Call.threeBytes : Call where
  writer := ⟨firstChannel, 0, 7, 0⟩
  source := ⟨[⟨100, [1, 2, 3], .monitored⟩]⟩
  addr := 100
  domain := .monitored
  settings := { byteClass := some (.custom 2) }
  extent := .bytes 3

theorem copy_appends_its_chain_of_three_bytes :
    ∃ o s records views, Call.threeBytes.activity.run firstShared = (.ok o, s) ∧
      o.copied = 3 ∧ o.chunks = 2 ∧ firstChannel.Queued s records ∧
      List.Forall₂ Carries records views ∧ Call.threeBytes.Chain views ∧ Reports o views := by
  have ht : Traffic.Reached firstChannel ⟨firstShared, [firstChannel], []⟩ :=
    ⟨{}, {}, firstShared, [], buildChannel_first, .nil⟩
  have hf : Call.threeBytes.source.Flat := by
    refine ⟨?_, ?_⟩ <;> simp [Call.threeBytes, addressLimit]
  have hrun : (Call.threeBytes.activity.run firstShared).1 =
      .ok { head := .compose 7 1, copied := 3, chunks := 2, status := .success } := rfl
  have h := (copy_appends_its_chain ht .threeBytes List.mem_cons_self hf).2 []
    (Shared.buildChannel_queued buildChannel_first)
  split at h
  · rename_i o s he
    rw [he] at hrun
    have ho := Except.ok.inj hrun
    obtain ⟨records, views, hq, hrecords, hchain, hreports, -⟩ := h
    exact ⟨o, s, records, views, he, by rw [ho], by rw [ho], hq, hrecords, hchain, hreports⟩
  · rename_i he
    rw [he] at hrun
    cases hrun

end Copy
end ChainRelay
