import ChainRelay.Proofs.Channel.Refill
import ChainRelay.Proofs.Chunk.Format
import ChainRelay.Proofs.Chunk.Workshop

/-!
What a chunk is read as after its writer has revised it. It may be filled and linked any number of
times, with more or with less than before, while other parties go on at its channel; a reader finds
the last of each, and nothing of what the reservation held before
(`chunk_is_read_as_last_revised`).
-/

namespace ChainRelay

open ChainRelay.Ring

/-- What a writer asks of a chunk; to fill it is answered with the bytes that were stored. -/
inductive Edit where
  | fill (data : Bytes) (stored : Nat)
  | link (next : ChunkId)

namespace Edit

def filled? : Edit → Option Bytes
  | fill data _ => some data
  | link _ => none

def linked? : Edit → Option ChunkId
  | fill .. => none
  | link next => some next

def lastFill (edits : List Edit) : Bytes := (edits.filterMap filled?).getLast?.getD []

def lastLink (edits : List Edit) : ChunkId := (edits.filterMap linked?).getLast?.getD .none

variable (edits : List Edit)

@[simp] theorem lastFill_fill (data : Bytes) (stored : Nat) :
    lastFill (edits ++ [fill data stored]) = data := by
  simp [lastFill, filled?]

@[simp] theorem lastFill_link (next : ChunkId) :
    lastFill (edits ++ [link next]) = lastFill edits := by
  simp [lastFill, filled?]

@[simp] theorem lastLink_fill (data : Bytes) (stored : Nat) :
    lastLink (edits ++ [fill data stored]) = lastLink edits := by
  simp [lastLink, linked?]

@[simp] theorem lastLink_link (next : ChunkId) : lastLink (edits ++ [link next]) = next := by
  simp [lastLink, linked?]

end Edit

open Edit

/-- A chunk in its writer's hands, from when the traffic was `t₀`: what was asked of it, and what
happened at the channel. -/
inductive Revised (c : Channel) (ticket : Nat) (t₀ : Traffic) (opened : OpenChunk) :
    List Edit → List ChannelEvent → Traffic → OpenChunk → Prop where
  | start : Revised c ticket t₀ opened [] [] t₀ opened
  | fill {edits : List Edit} {events : List ChannelEvent} {t : Traffic} {chunk : OpenChunk}
      (h : Revised c ticket t₀ opened edits events t chunk) (data : Bytes) :
      Revised c ticket t₀ opened (edits ++ [.fill data (chunk.stored data).length])
        (events ++ [.wrote ticket chunkHeaderSize (chunk.stored data)])
        { t with shared := t.shared.fillChunk chunk data } (chunk.filled data)
  | link {edits : List Edit} {events : List ChannelEvent} {t : Traffic} {chunk : OpenChunk}
      (h : Revised c ticket t₀ opened edits events t chunk) (next : ChunkId) :
      Revised c ticket t₀ opened (edits ++ [.link next]) events t (chunk.linked next)
  /-- Something else happens at the channel. -/
  | beside {edits : List Edit} {events : List ChannelEvent} {t u : Traffic} {chunk : OpenChunk}
      {e : ChannelEvent} (h : Revised c ticket t₀ opened edits events t chunk)
      (hs : Traffic.Step c t e u) (hother : e.ticket? ≠ some ticket) :
      Revised c ticket t₀ opened edits (events ++ [e]) u chunk

def OpenChunk.opening (chunk : OpenChunk) (size : SizeClass) (s : Shared) : List ChannelEvent :=
  [.reserved size.totalSize (chunk.reservation.bytes s), .elsewhere]

def OpenChunk.closing (chunk : OpenChunk) (ticket : Nat) (s : Shared) : List ChannelEvent :=
  [.wrote ticket 0 chunk.header.encode, .committed ticket (chunk.sealed s), .elsewhere]

/-- The chunk is as it was last revised, and its reservation is laid out so. -/
structure AsRevised (size : SizeClass) (id : ChunkId) (edits : List Edit) (t : Traffic) (l : Ledger)
    (ticket : Nat) (d : Draft) : Prop where
  holds : (Use.draft d).Holds t l ticket
  class_eq : d.sizeClass = size
  id_eq : d.id = id
  next_eq : d.next = lastLink edits
  data_eq : d.data = (lastFill edits).take size.payloadCapacity

section Revised

variable {c : Channel} {ticket : Nat} {t t₀ u : Traffic} {chunk opened : OpenChunk} {l : Ledger}
  {size : SizeClass} {id : ChunkId} {edits : List Edit} {events : List ChannelEvent} {d : Draft}

theorem AsRevised.fill (h : AsRevised size id edits t l ticket d) (data : Bytes) :
    AsRevised size id (edits ++ [.fill data (d.chunk.stored data).length])
      { t with shared := t.shared.fillChunk d.chunk data }
      (l.next (.wrote ticket chunkHeaderSize (d.chunk.stored data))) ticket (d.filled data) := by
  obtain ⟨hheld, held, hl, hlaid⟩ := h.holds
  constructor
  case holds => exact ⟨hheld, _, Ledger.getElem?_modify_self hl _, hlaid.filled data⟩
  case class_eq => exact h.class_eq
  case id_eq => exact h.id_eq
  case next_eq => rw [lastLink_fill, ← h.next_eq, Draft.filled]
  case data_eq => rw [lastFill_fill, ← h.class_eq, Draft.filled]

theorem AsRevised.link (h : AsRevised size id edits t l ticket d) (next : ChunkId) :
    AsRevised size id (edits ++ [.link next]) t l ticket (d.linked next) := by
  obtain ⟨hheld, held, hl, hlaid⟩ := h.holds
  constructor
  case holds => exact ⟨hheld, held, hl, hlaid.linked next⟩
  case class_eq => exact h.class_eq
  case id_eq => exact h.id_eq
  case next_eq => rw [lastLink_link, Draft.linked]
  case data_eq => rw [lastFill_link, ← h.data_eq, Draft.linked]

theorem AsRevised.beside {e : ChannelEvent} (h : AsRevised size id edits t l ticket d)
    (hs : Traffic.Step c t e u) (ha : l.Allows e) (hother : e.ticket? ≠ some ticket) :
    AsRevised size id edits u (l.next e) ticket d :=
  { h with holds := h.holds.step hs ha fun _ _ => hother }

/-- However a chunk is revised, it stands as it was revised last. -/
theorem Revised.asRevised (h : Revised c ticket t₀ opened edits events t chunk) {past : Ledger}
    {q : List Booking} (ht : Traffic.Tracks c t₀ l past q) {first : Draft}
    (hfirst : AsRevised size id [] t₀ l ticket first) (hopened : opened = first.chunk) :
    Traffic.Run c t₀ events t ∧
      (∀ data stored, Edit.fill data stored ∈ edits →
        stored = min data.length size.payloadCapacity) ∧
      ∃ d, chunk = d.chunk ∧ AsRevised size id edits t (l.after events) ticket d := by
  induction h with
  | start => exact ⟨.nil, nofun, first, hopened, hfirst⟩
  | fill _ data ih =>
    obtain ⟨hrun, hanswers, d, rfl, hd⟩ := ih
    refine ⟨hrun.append (.cons (.write ticket hd.holds.1 _ _) .nil), ?_, d.filled data,
      d.chunk_filled data, ?_⟩
    · intro data' stored hmem
      rcases List.mem_append.mp hmem with hmem | hmem
      · exact hanswers data' stored hmem
      · obtain ⟨rfl, rfl⟩ := Edit.fill.inj (List.mem_singleton.mp hmem)
        rw [OpenChunk.stored, List.length_take, Nat.min_comm, ← hd.class_eq]
        rfl
    · rw [Ledger.after_append]
      exact hd.fill data
  | link _ next ih =>
    obtain ⟨hrun, hanswers, d, rfl, hd⟩ := ih
    refine ⟨hrun, fun data stored hmem => ?_, d.linked next, d.chunk_linked next, hd.link next⟩
    exact hanswers data stored (by simpa using hmem)
  | beside _ hs hother ih =>
    obtain ⟨hrun, hanswers, d, rfl, hd⟩ := ih
    have hall := hrun.append (.cons hs .nil)
    obtain ⟨ha, -⟩ := Traffic.run_tracks ht hall
    rw [Ledger.admits_append] at ha
    refine ⟨hall, hanswers, d, rfl, ?_⟩
    rw [Ledger.after_append]
    exact hd.beside hs ha.2.1 hother

end Revised

section Life

variable {c : Channel} {t : Traffic} {w : Writer} {chunk : OpenChunk} {s : Shared} {l : Ledger}
  {size : SizeClass} {id : ChunkId} {edits : List Edit} {ticket : Nat} {d : Draft}

/-- Whatever the band holds where the chunk is laid out, nothing was asked of it yet. -/
theorem OpenChunk.run_opening (hv : w.channel ∈ t.views)
    (h : t.shared.openChunk w size = (.ok chunk, s)) :
    Traffic.Run c t (chunk.opening size s) ⟨s, t.views, t.handed ++ [some chunk.reservation]⟩ := by
  obtain ⟨-, s₁, hr, hregions, -⟩ := Shared.openChunk_ok h
  have hbytes : chunk.reservation.bytes s₁ = chunk.reservation.bytes s := by
    rw [Reservation.bytes, Channel.memory, ← hregions, Reservation.bytes, Channel.memory]
  rw [OpenChunk.opening, ← hbytes]
  exact .cons (.reserve hv hr) (.unseen (by rw [hregions]))

theorem AsRevised.opened (hlen : t.handed.length = l.length)
    (ha : l.Admits (chunk.opening size s)) :
    AsRevised size id [] ⟨s, t.views, t.handed ++ [some chunk.reservation]⟩
      (l.after (chunk.opening size s)) t.handed.length
      (.opened chunk.reservation size id w.tally) := by
  constructor
  case holds =>
    refine ⟨List.getElem?_concat_length, chunk.reservation.bytes s, ?_, ha.1, rfl⟩
    rw [hlen]
    exact List.getElem?_concat_length
  case class_eq | id_eq | next_eq => rfl
  case data_eq => exact List.take_nil.symm

theorem AsRevised.run_closing (h : AsRevised size id edits t l ticket d) :
    Traffic.Run c t (d.chunk.closing ticket t.shared)
      ⟨t.shared.commitChunk d.chunk, t.views, t.handed.set ticket none⟩ :=
  .cons (.write _ h.holds.1 _ _) (.cons (.commit _ h.holds.1) (.unseen rfl))

theorem AsRevised.sealed (h : AsRevised size id edits t l ticket d) {u : Traffic} :
    (Use.sealed d).Holds u (l.after (d.chunk.closing ticket t.shared)) ticket := by
  obtain ⟨-, held, hl, hlaid⟩ := h.holds
  have hheaded := Ledger.getElem?_modify_self hl fun e =>
    { e with data := e.data.overlay 0 d.chunk.header.encode }
  exact ⟨_, _, Ledger.getElem?_modify_self hheaded _, .inl rfl, hlaid.decode⟩

/-- What a reader makes of a chunk that stands as it was revised. -/
theorem AsRevised.verdict (h : AsRevised size id edits t l ticket d)
    (hvalid : size.isValid = true) :
    let data := (lastFill edits).take size.payloadCapacity
    let next := lastLink edits
    d.verdict = .ok
      ⟨{ code := size.code, effectiveLength := .ofNat data.length, id, next }, size, data⟩ := by
  intro data next
  have husable : d.sizeClass.isValid = true := h.class_eq ▸ hvalid
  rw [Draft.verdict, if_pos husable, Draft.view, Draft.chunk, h.data_eq, h.class_eq, h.id_eq,
    h.next_eq]

end Life

/-- However often a chunk of a usable class is filled and linked, in a band that may hold anything
and whatever others do at the channel meanwhile, each time as many bytes are stored as there are,
or as there is room for. Committed, it is a record of the size of its class, and a reader finds the
last link and as much of the last fill as there is room for. -/
theorem chunk_is_read_as_last_revised {plan : ChannelPlan} {s₀ s₁ s : Shared} {c : Channel}
    {t u x : Traffic} {w : Writer} {size : SizeClass} {opened chunk : OpenChunk}
    {edits : List Edit} {before during after : List ChannelEvent}
    (hb : s₀.buildChannel plan = (.ok c, s₁)) (hbefore : Traffic.Run c ⟨s₁, [c], []⟩ before t)
    (hv : w.channel ∈ t.views) (hvalid : size.isValid = true)
    (ho : t.shared.openChunk w size = (.ok opened, s))
    (hduring : Revised c t.handed.length ⟨s, t.views, t.handed ++ [some opened.reservation]⟩
      opened edits during u chunk)
    (hafter : Traffic.Run c
      ⟨u.shared.commitChunk chunk, u.views, u.handed.set t.handed.length none⟩ after x) :
    let events := before ++ (opened.opening size s ++ (during ++
      (chunk.closing t.handed.length u.shared ++ after)))
    let l := Ledger.after [] events
    let data := (lastFill edits).take size.payloadCapacity
    let header : ChunkHeader :=
      { code := size.code
        effectiveLength := .ofNat data.length
        id := opened.id
        next := lastLink edits }
    (∀ data stored, Edit.fill data stored ∈ edits →
      stored = min data.length size.payloadCapacity) ∧
    Traffic.Run c ⟨s₁, [c], []⟩ events x ∧ l.delivered = Ledger.deliveries events ∧
    ∃ record fate, l[t.handed.length]? = some ⟨record, fate⟩ ∧
      (fate = .committed ∨ fate = .received) ∧ record.length = size.totalSize ∧
      decodeChunk record = .ok ⟨header, size, data⟩ := by
  intro events l data header
  -- The ledger is followed from one stage of the chunk's life to the next.
  obtain ⟨-, past, q, ht⟩ := Traffic.run_tracks (Traffic.built_tracks hb) hbefore
  have hopening := OpenChunk.run_opening (c := c) hv ho
  obtain ⟨hadmits, past₁, q₁, ht₁⟩ := Traffic.run_tracks ht hopening
  obtain ⟨hrun, hanswers, d, rfl, hrevised⟩ :=
    hduring.asRevised ht₁ (AsRevised.opened (w := w) ht.length_eq hadmits)
      (Shared.openChunk_ok ho).1
  have hclosing := hrevised.run_closing (c := c)
  obtain ⟨-, past₂, q₂, ht₂⟩ := Traffic.run_tracks ht₁ (hrun.append hclosing)
  have hsealed := hrevised.sealed (u := ⟨u.shared.commitChunk d.chunk, u.views,
    u.handed.set t.handed.length none⟩)
  rw [← Ledger.after_append] at hsealed
  obtain ⟨hlast, -⟩ := Traffic.run_tracks ht₂ hafter
  obtain ⟨record, fate, hl, hfate, hdecode⟩ := hsealed.run hafter hlast nofun
  rw [hrevised.verdict hvalid] at hdecode
  have hall := hbefore.append (hopening.append (hrun.append (hclosing.append hafter)))
  obtain ⟨ha, -⟩ := Traffic.run_tracks (Traffic.built_tracks hb) hall
  refine ⟨hanswers, hall, Ledger.delivered_after List.Pairwise.nil ha, record, fate, ?_, hfate, ?_,
    hdecode⟩
  · simpa only [l, events, Ledger.after_append] using hl
  · exact (decodeChunk_ok_iff.mp hdecode).2.2.2.2.2.1.symm

def shortDraft : Draft := .opened ⟨Traffic.firstChannel, ⟨0, 28⟩⟩ (.custom 4) (.compose 7 1) 0

def shortShared : Shared := (Traffic.firstShared.openChunk Workshop.firstWriter (.custom 4)).2

theorem openChunk_short : Traffic.firstShared.openChunk Workshop.firstWriter (.custom 4) =
    (.ok shortDraft.chunk, shortShared) := rfl

/-- Filled with five bytes and then with one while another party reserves, the chunk is received
with bytes of the first fill behind the one that counts. -/
theorem chunk_is_read_as_last_revised_of_shorter :
    ∃ (edits : List Edit) (during events : List ChannelEvent) (u : Traffic) (chunk : OpenChunk)
      (record : Bytes),
      Revised Traffic.firstChannel 0
        ⟨shortShared, [Traffic.firstChannel], [some shortDraft.reservation]⟩ shortDraft.chunk edits
        during u chunk ∧
      edits = [.fill [1, 2, 3, 4, 5] 4, .link ⟨9⟩, .fill [7] 1, .link ⟨3⟩] ∧
      (Ledger.after [] events).delivered = [record] ∧ record.drop 24 = [7, 2, 3, 4] ∧
      decodeChunk record =
        .ok ⟨{ shortDraft.chunk.header with effectiveLength := 1, next := ⟨3⟩ }, .custom 4,
          [7]⟩ := by
  have hother : Traffic.firstChannel.reserve 2
    (shortShared.fillChunk shortDraft.chunk [1, 2, 3, 4, 5]) =
    (.ok ⟨Traffic.firstChannel, ⟨40, 2⟩⟩,
      (Traffic.firstChannel.reserve 2
        (shortShared.fillChunk shortDraft.chunk [1, 2, 3, 4, 5])).2) := rfl
  have hstart : Revised Traffic.firstChannel 0
    ⟨shortShared, [Traffic.firstChannel], [some shortDraft.reservation]⟩ shortDraft.chunk [] [] _
    shortDraft.chunk := .start
  have hbeside := ((hstart.fill [1, 2, 3, 4, 5]).link ⟨9⟩).beside
    (.reserve List.mem_cons_self hother) nofun
  have hduring := (hbeside.fill [7]).link ⟨3⟩
  obtain ⟨-, -, hdelivered, record, fate, hl, -, -, hdecode⟩ :=
    chunk_is_read_as_last_revised Traffic.buildChannel_first .nil List.mem_cons_self rfl
      openChunk_short hduring (.cons (.receive List.mem_cons_self) .nil)
  obtain rfl : fate = .received := congrArg Entry.fate (Option.some.inj hl).symm
  obtain rfl : _ = record := congrArg Entry.data (Option.some.inj hl)
  exact ⟨_, _, _, _, _, _, hduring, rfl, hdelivered, rfl, hdecode⟩

end ChainRelay
