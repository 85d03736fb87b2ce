import ChainRelay.Copy.Chain
import ChainRelay.Proofs.Chunk.Codec
import ChainRelay.Proofs.Source.Reads

/-!
The order in which a copy works. A trail is what a copy has committed and what it has in hand; the
steps of a trail are what a copy may do next. What a trail holds is a chain in the making.
-/

namespace ChainRelay

structure Writer.Opens (w : Writer) (c : SizeClass) (chunk : OpenChunk) : Prop where
  header_eq : chunk.header = { code := c.code, id := chunk.id }
  capacity_eq : chunk.capacity = c.payloadCapacity
  tally_eq : chunk.tally = w.tally
  shard_eq : chunk.id.shard = w.shard
  named : chunk.id ≠ .none

def Op.Answers : (op : Op) → op.Reply → Prop
  | .openChunk w c, .ok chunk => w.Opens c chunk
  | _, _ => True

def Op.Grants : (op : Op) → op.Reply → Prop
  | .openChunk .., .error _ | .reserve .., .error _ => False
  | _, _ => True

instance Op.decidableGrants : (op : Op) → (reply : op.Reply) → Decidable (op.Grants reply)
  | .openChunk .., .error _ | .reserve .., .error _ => .isFalse id
  | .openChunk .., .ok _ | .reserve .., .ok _ | .fillChunk .., _ | .commitChunk _, _
  | .abandonChunk _, _ | .commitRecord .., _ | .count .., _ | .report _, _ => .isTrue trivial

def Op.opens? : (op : Op) → op.Reply → Option ChunkId
  | .openChunk .., .ok chunk => some chunk.id
  | _, _ => none

namespace Copy

open AddressSpace

/-- A chunk in hand, with the payload that was written to it. -/
structure Part where
  chunk : OpenChunk
  data : Bytes

/-- The part as its reader will see it, continued at `next`. -/
def Part.view (p : Part) (c : SizeClass) (next : ChunkId) : ChunkView :=
  ⟨{ p.chunk.header with next }, c, p.data⟩

/-- The header says which class the chunk has and how much of it is used. -/
structure Part.Made (r : Request) (p : Part) : Prop where
  header_eq : p.chunk.header =
    { code := r.sizeClass.code, effectiveLength := .ofNat p.data.length, id := p.chunk.id }
  capacity_eq : p.chunk.capacity = r.room
  shard_eq : p.chunk.id.shard = r.writer.shard
  named : p.chunk.id ≠ .none

theorem Part.Made.opened {r : Request} {chunk : OpenChunk} (h : r.writer.Opens r.sizeClass chunk) :
    Part.Made r ⟨chunk, []⟩ :=
  ⟨h.header_eq, h.capacity_eq, h.shard_eq, h.named⟩

/-- The header of a chunk says how much was written to it. -/
theorem Part.Made.filled {r : Request} {chunk : OpenChunk} {data : Bytes}
    (h : Part.Made r ⟨chunk, []⟩) (hle : data.length ≤ r.room) :
    Part.Made r ⟨chunk.filled data, data⟩ := by
  have hstored : chunk.stored data = data :=
    List.take_of_length_le (by rw [h.capacity_eq]; exact hle)
  have hheader : chunk.header = { code := r.sizeClass.code, id := chunk.id } := h.header_eq
  refine ⟨?_, h.capacity_eq, h.shard_eq, h.named⟩
  show { chunk.header with effectiveLength := .ofNat (chunk.stored data).length } = _
  rw [hstored, hheader]
  rfl

/-- Nothing continues a part that was not linked. -/
theorem Part.Made.linked_none {r : Request} {p : Part} (h : p.Made r) :
    p.chunk.linked .none = p.chunk := by
  unfold OpenChunk.linked
  rw [h.header_eq]
  conv => rhs; rw [show p.chunk = { p.chunk with header := p.chunk.header } from rfl, h.header_eq]

structure Sealed (r : Request) (v : ChunkView) : Prop where
  class_eq : v.sizeClass = r.sizeClass
  nonempty : v.data ≠ []
  shard_eq : v.header.id.shard = r.writer.shard
  named : v.header.id ≠ .none

/-- What a copy has done. -/
structure Trail where
  /-- The committed chunks, in their order. -/
  sent : List ChunkView := []
  /-- The open ones; the first will be committed first. -/
  hand : List Part := []
  /-- Why no further chunk could be had. -/
  refused : Option ReserveError := none
  /-- The chunk that was given up. -/
  lost : ChunkId := .none

namespace Trail

def payloads (g : Trail) : List Bytes := g.sent.map (·.data) ++ g.hand.map (·.data)

def bytes (g : Trail) : Bytes := g.payloads.flatten

def first (g : Trail) : ChunkId := g.sent.head?.elim .none (·.header.id)

def goal (g : Trail) : ChunkId := g.hand.head?.elim g.lost (·.chunk.id)

def ids (g : Trail) : List ChunkId :=
  g.sent.map (·.header.id) ++ g.hand.map (·.chunk.id) ++ if g.lost = .none then [] else [g.lost]

/-- What a copy of at most `limit` chunks may do next, with the answer it gets. -/
inductive Step (r : Request) (limit : Nat) : Trail → (op : Op) → op.Reply → Trail → Prop where
  | openFirst {chunk : OpenChunk} (hv : r.sizeClass.isValid = true) (hlimit : 0 < limit)
      (hc : r.writer.Opens r.sizeClass chunk) :
      Step r limit {} (.openChunk r.writer r.sizeClass) (.ok chunk) { hand := [⟨chunk, []⟩] }
  | openNext {sent : List ChunkView} {p : Part} {chunk : OpenChunk}
      (hc : r.writer.Opens r.sizeClass chunk) (hp : p.data.length = r.room)
      (hlimit : sent.length + 2 ≤ limit) :
      Step r limit ⟨sent, [p], none, .none⟩ (.openChunk r.writer r.sizeClass) (.ok chunk)
        ⟨sent, [p, ⟨chunk, []⟩], none, .none⟩
  | refuse {sent : List ChunkView} {hand : List Part} {e : ReserveError}
      (hlen : hand.length ≤ 1) (hfirst : hand = [] → sent = []) :
      Step r limit ⟨sent, hand, none, .none⟩ (.openChunk r.writer r.sizeClass) (.error e)
        ⟨sent, hand, some e, .none⟩
  | fill {sent : List ChunkView} (hand : List Part) {chunk : OpenChunk} {data : Bytes}
      (hne : data ≠ []) (hle : data.length ≤ r.room)
      (hs : r.source.Holds r.domain (r.addr + (bytes ⟨sent, hand, none, .none⟩).length) data) :
      Step r limit ⟨sent, hand ++ [⟨chunk, []⟩], none, .none⟩ (.fillChunk chunk data) ()
        ⟨sent, hand ++ [⟨chunk.filled data, data⟩], none, .none⟩
  /-- The successor is complete before its predecessor becomes visible. -/
  | handOver {sent : List ChunkView} {p : Part} (p' : Part) (hp : p'.data ≠ []) :
      Step r limit ⟨sent, [p, p'], none, .none⟩ (.commitChunk (p.chunk.linked p'.chunk.id)) ()
        ⟨sent ++ [p.view r.sizeClass p'.chunk.id], [p'], none, .none⟩
  | finish {sent : List ChunkView} {p : Part} {refused : Option ReserveError} (hp : p.data ≠ [])
      (ho : refused ≠ some .overflow) :
      Step r limit ⟨sent, [p], refused, .none⟩ (.commitChunk p.chunk) ()
        ⟨sent ++ [p.view r.sizeClass .none], [], refused, .none⟩
  | abandon {sent : List ChunkView} {p : Part} :
      Step r limit ⟨sent, [p], some .overflow, .none⟩ (.abandonChunk p.chunk) ()
        ⟨sent, [], some .overflow, p.chunk.id⟩
  | count {g : Trail} {tally : Nat} {c : Counter} : Step r limit g (.count tally c) () g
  | report {g : Trail} {e : Event} : Step r limit g (.report e) () g

/-- Each chunk names the one behind it, and the last one names `stop`. -/
def Leads : List ChunkView → ChunkId → Prop
  | [], _ => True
  | v :: vs, stop => v.header.next = vs.head?.elim stop (·.header.id) ∧ Leads vs stop

theorem leads_snoc {vs : List ChunkView} {v : ChunkView} {stop : ChunkId} :
    Leads (vs ++ [v]) stop ↔ Leads vs v.header.id ∧ v.header.next = stop := by
  induction vs with
  | nil => simp [Leads]
  | cons u vs ih =>
    cases vs with
    | nil => simp [Leads]
    | cons w vs => simpa [Leads, and_assoc] using fun _ => ih

structure Sound (r : Request) (limit : Nat) (g : Trail) : Prop where
  valid : g.payloads ≠ [] → r.sizeClass.isValid = true
  made : ∀ p ∈ g.hand, p.Made r
  sent : ∀ v ∈ g.sent, Sealed r v
  leads : Leads g.sent g.goal
  lost : g.lost = .none ∨ g.lost.shard = r.writer.shard
  budget : g.ids.length ≤ limit
  room : ∀ d ∈ g.payloads, d.length ≤ r.room
  /-- All payloads but the last are full. -/
  full : ∀ d ∈ g.payloads.dropLast, d.length = r.room
  holds : r.source.Holds r.domain r.addr g.bytes
  /-- Who gives up with chunks committed gives up one in hand. -/
  stopped : g.refused = some .overflow → g.hand = [] → g.lost = .none → g.sent = []

theorem Sound.initial (r : Request) (limit : Nat) : Sound r limit {} :=
  ⟨nofun, nofun, nofun, trivial, .inl rfl, Nat.zero_le _, nofun, nofun, .nil, nofun⟩

variable {r : Request} {limit : Nat} {g g' : Trail}

/-- A part with nothing behind it may be full. -/
theorem Sound.full_append {front : List Bytes} {d : Bytes} (h : Sound r limit g)
    (hp : g.payloads = front ++ [d]) : ∀ x ∈ front, x.length = r.room := by
  have hf := h.full
  rwa [hp, List.dropLast_concat] at hf

theorem Sound.sealed {sent : List ChunkView} {hand : List Part} {refused : Option ReserveError}
    {lost next : ChunkId} {p : Part} (h : Sound r limit ⟨sent, p :: hand, refused, lost⟩)
    (hp : p.data ≠ []) : ∀ v ∈ sent ++ [p.view r.sizeClass next], Sealed r v := by
  intro v hv
  rcases List.mem_append.mp hv with hv | hv
  · exact h.sent v hv
  · obtain rfl := List.mem_singleton.mp hv
    have hm := h.made p List.mem_cons_self
    exact ⟨rfl, hp, hm.shard_eq, hm.named⟩

/-- A step takes an identifier when it opens a chunk, and never loses one. -/
theorem Sound.ids_step {op : Op} {reply : op.Reply} (h : Sound r limit g)
    (hs : Step r limit g op reply g') : g'.ids = g.ids ++ (op.opens? reply).toList := by
  cases hs with
  | openFirst => rfl
  | openNext => simp [ids, Op.opens?]
  | refuse => simp [ids, Op.opens?]
  | fill hand => simp [ids, Op.opens?]
  | handOver p' => simp [ids, Op.opens?, Part.view, OpenChunk.id]
  | finish => simp [ids, Op.opens?, Part.view, OpenChunk.id]
  | abandon =>
    have hne := (h.made _ List.mem_cons_self).named
    simp [ids, Op.opens?, hne]
  | count => simp [Op.opens?]
  | report => simp [Op.opens?]

/-- What is granted refuses nothing. -/
theorem Step.refused_eq {op : Op} {reply : op.Reply} (h : Step r limit g op reply g')
    (hgrants : op.Grants reply) : g'.refused = g.refused := by
  cases h with
  | refuse => exact hgrants.elim
  | openFirst | openNext | fill | handOver | finish | abandon | count | report => rfl

section Steps

variable {sent : List ChunkView} {hand : List Part} {p p' : Part} {chunk : OpenChunk}
  {data : Bytes} {refused : Option ReserveError}

theorem Sound.openFirst (hv : r.sizeClass.isValid = true) (hlimit : 0 < limit)
    (hc : r.writer.Opens r.sizeClass chunk) : Sound r limit { hand := [⟨chunk, []⟩] } where
  valid _ := hv
  made := List.forall_mem_singleton.mpr (.opened hc)
  sent := nofun
  leads := trivial
  lost := .inl rfl
  budget := hlimit
  room := List.forall_mem_singleton.mpr (Nat.zero_le _)
  full := nofun
  holds := .nil
  stopped := nofun

theorem Sound.openNext (h : Sound r limit ⟨sent, [p], none, .none⟩)
    (hc : r.writer.Opens r.sizeClass chunk) (hp : p.data.length = r.room)
    (hlimit : sent.length + 2 ≤ limit) : Sound r limit ⟨sent, [p, ⟨chunk, []⟩], none, .none⟩ := by
  have hold : payloads ⟨sent, [p], none, .none⟩ = sent.map (·.data) ++ [p.data] := rfl
  have hnew : payloads ⟨sent, [p, ⟨chunk, []⟩], none, .none⟩ =
      payloads ⟨sent, [p], none, .none⟩ ++ [[]] := by simp [payloads]
  constructor
  case valid => exact fun _ => h.valid (by simp [payloads])
  case made =>
    exact List.forall_mem_cons.mpr
      ⟨h.made p List.mem_cons_self, List.forall_mem_singleton.mpr (.opened hc)⟩
  case sent => exact h.sent
  case leads => exact h.leads
  case lost => exact .inl rfl
  case budget => simpa [ids] using hlimit
  case room =>
    rw [hnew]
    exact List.forall_mem_append.mpr
      ⟨h.room, List.forall_mem_singleton.mpr (Nat.zero_le _)⟩
  case full =>
    rw [hnew, List.dropLast_concat, hold]
    exact List.forall_mem_append.mpr ⟨h.full_append hold, List.forall_mem_singleton.mpr hp⟩
  case holds =>
    have hbytes : bytes ⟨sent, [p, ⟨chunk, []⟩], none, .none⟩ =
        bytes ⟨sent, [p], none, .none⟩ := by simp [bytes, hnew]
    rw [hbytes]
    exact h.holds
  case stopped => nofun

theorem Sound.refuse {e : ReserveError} (h : Sound r limit ⟨sent, hand, none, .none⟩)
    (hfirst : hand = [] → sent = []) : Sound r limit ⟨sent, hand, some e, .none⟩ :=
  { h with stopped := fun _ hhand _ => hfirst hhand }

theorem Sound.fill (h : Sound r limit ⟨sent, hand ++ [⟨chunk, []⟩], none, .none⟩)
    (hle : data.length ≤ r.room)
    (hs : r.source.Holds r.domain (r.addr + (bytes ⟨sent, hand, none, .none⟩).length) data) :
    Sound r limit ⟨sent, hand ++ [⟨chunk.filled data, data⟩], none, .none⟩ := by
  have hold : payloads ⟨sent, hand ++ [⟨chunk, []⟩], none, .none⟩ =
      payloads ⟨sent, hand, none, .none⟩ ++ [[]] := by simp [payloads]
  have hnew : payloads ⟨sent, hand ++ [⟨chunk.filled data, data⟩], none, .none⟩ =
      payloads ⟨sent, hand, none, .none⟩ ++ [data] := by simp [payloads]
  obtain ⟨hmade, hlast⟩ := List.forall_mem_append.mp h.made
  have hm := List.forall_mem_singleton.mp hlast
  constructor
  case valid => exact fun _ => h.valid (by simp [payloads])
  case made =>
    exact List.forall_mem_append.mpr ⟨hmade, List.forall_mem_singleton.mpr (hm.filled hle)⟩
  case sent => exact h.sent
  case leads =>
    have hgoal : goal ⟨sent, hand ++ [⟨chunk.filled data, data⟩], none, .none⟩ =
        goal ⟨sent, hand ++ [⟨chunk, []⟩], none, .none⟩ := by cases hand <;> rfl
    rw [hgoal]
    exact h.leads
  case lost => exact .inl rfl
  case budget => simpa [ids] using h.budget
  case room =>
    have hroom := h.room
    rw [hold] at hroom
    rw [hnew]
    exact List.forall_mem_append.mpr
      ⟨(List.forall_mem_append.mp hroom).1, List.forall_mem_singleton.mpr hle⟩
  case full =>
    rw [hnew, List.dropLast_concat]
    exact h.full_append hold
  case holds =>
    have hb := h.holds
    simp only [bytes, hold, hnew, List.flatten_append, List.flatten_singleton] at hb ⊢
    exact holds_append.mpr ⟨by simpa using hb, hs⟩
  case stopped => nofun

/-- What is in hand behind the first chunk shows that the first one is full. -/
theorem Sound.handOver (h : Sound r limit ⟨sent, [p, p'], none, .none⟩) :
    Sound r limit ⟨sent ++ [p.view r.sizeClass p'.chunk.id], [p'], none, .none⟩ := by
  have hnew : payloads ⟨sent ++ [p.view r.sizeClass p'.chunk.id], [p'], none, .none⟩ =
      payloads ⟨sent, [p, p'], none, .none⟩ := by simp [payloads, Part.view]
  have hne : p.data ≠ [] := by
    intro he
    have hfull : p.data.length = r.room := h.full p.data (by simp [payloads])
    have hpos := SizeClass.payload_pos (h.valid (by simp [payloads]))
    rw [he] at hfull
    exact absurd hfull (Nat.ne_of_lt hpos)
  constructor
  case valid => exact fun _ => h.valid (by simp [payloads])
  case made => exact fun d hd => h.made d (List.mem_cons_of_mem _ hd)
  case sent => exact h.sealed hne
  case leads => exact leads_snoc.mpr ⟨h.leads, rfl⟩
  case lost => exact .inl rfl
  case budget => simpa [ids, Part.view, OpenChunk.id] using h.budget
  case room => exact hnew ▸ h.room
  case full => exact hnew ▸ h.full
  case holds => simpa only [bytes, hnew] using h.holds
  case stopped => nofun

theorem Sound.finish (h : Sound r limit ⟨sent, [p], refused, .none⟩) (hp : p.data ≠ [])
    (ho : refused ≠ some .overflow) :
    Sound r limit ⟨sent ++ [p.view r.sizeClass .none], [], refused, .none⟩ := by
  have hnew : payloads ⟨sent ++ [p.view r.sizeClass .none], [], refused, .none⟩ =
      payloads ⟨sent, [p], refused, .none⟩ := by simp [payloads, Part.view]
  constructor
  case valid => exact fun _ => h.valid (by simp [payloads])
  case made => nofun
  case sent => exact h.sealed hp
  case leads => exact leads_snoc.mpr ⟨h.leads, rfl⟩
  case lost => exact .inl rfl
  case budget => simpa [ids, Part.view, OpenChunk.id] using h.budget
  case room => exact hnew ▸ h.room
  case full => exact hnew ▸ h.full
  case holds => simpa only [bytes, hnew] using h.holds
  case stopped => exact fun he => absurd he ho

theorem Sound.abandon (h : Sound r limit ⟨sent, [p], some .overflow, .none⟩) :
    Sound r limit ⟨sent, [], some .overflow, p.chunk.id⟩ := by
  have hold : payloads ⟨sent, [p], some .overflow, .none⟩ = sent.map (·.data) ++ [p.data] := rfl
  have hnew : payloads ⟨sent, [], some .overflow, p.chunk.id⟩ = sent.map (·.data) := by
    simp [payloads]
  have hm := h.made p List.mem_cons_self
  constructor
  case valid => exact fun _ => h.valid (by simp [payloads])
  case made => nofun
  case sent => exact h.sent
  case leads => exact h.leads
  case lost => exact .inr hm.shard_eq
  case budget => simpa [ids, hm.named] using h.budget
  case room =>
    have hroom := h.room
    rw [hold] at hroom
    rw [hnew]
    exact (List.forall_mem_append.mp hroom).1
  case full =>
    rw [hnew]
    exact fun d hd => h.full_append hold d (List.dropLast_subset _ hd)
  case holds =>
    have hb := h.holds
    simp only [bytes, hold, hnew, List.flatten_append] at hb ⊢
    exact (holds_append.mp hb).1
  case stopped => exact fun _ _ he => absurd he hm.named

end Steps

theorem Sound.step {op : Op} {reply : op.Reply} (h : Sound r limit g)
    (hs : Step r limit g op reply g') : Sound r limit g' := by
  cases hs with
  | openFirst hv hlimit hc => exact .openFirst hv hlimit hc
  | openNext hc hp hlimit => exact h.openNext hc hp hlimit
  | refuse _ hfirst => exact h.refuse hfirst
  | fill hand _ hle hs => exact h.fill hle hs
  | handOver => exact h.handOver
  | finish hp ho => exact h.finish hp ho
  | abandon => exact h.abandon
  | count => exact h
  | report => exact h

theorem head_ids {id : ChunkId} (h : g.ids.head? = some id) :
    id = g.sent.head?.elim g.goal (·.header.id) := by
  obtain ⟨sent, hand, refused, lost⟩ := g
  unfold ids at h
  unfold goal
  cases sent with
  | cons v sent => exact (Option.some.inj h).symm
  | nil =>
    cases hand with
    | cons p hand => exact (Option.some.inj h).symm
    | nil =>
      simp only [List.map_nil, List.nil_append] at h
      split at h
      · cases h
      · exact (Option.some.inj h).symm

theorem Sound.shard_of_ids (h : Sound r limit g) {id : ChunkId} (hid : id ∈ g.ids) :
    id.shard = r.writer.shard := by
  unfold ids at hid
  rw [List.mem_append, List.mem_append, List.mem_map, List.mem_map] at hid
  rcases hid with (⟨v, hv, rfl⟩ | ⟨p, hp, rfl⟩) | hid
  · exact (h.sent v hv).shard_eq
  · exact (h.made p hp).shard_eq
  · split at hid
    · cases hid
    · rw [List.mem_singleton.mp hid]
      exact h.lost.resolve_left ‹_›

/-- Only a trail with nothing in hand and nothing lost leads nowhere. -/
theorem Sound.goal_cases (h : Sound r limit g) :
    g.goal = .none ∧ g.hand = [] ∧ g.lost = .none ∨ g.goal ≠ .none ∧ g.goal ∈ g.ids := by
  unfold goal ids
  cases hhand : g.hand with
  | cons p hand =>
    refine .inr ⟨(h.made p (hhand ▸ List.mem_cons_self)).named, ?_⟩
    simp
  | nil =>
    by_cases hlost : g.lost = .none
    · exact .inl ⟨hlost, rfl, hlost⟩
    · refine .inr ⟨hlost, ?_⟩
      simp [hlost]

theorem Sound.goal_shard (h : Sound r limit g) :
    g.goal = .none ∨ g.goal.shard = r.writer.shard := by
  rcases h.goal_cases with ⟨hnone, -⟩ | ⟨-, hmem⟩
  · exact .inl hnone
  · exact .inr (h.shard_of_ids hmem)

theorem length_le_ids (g : Trail) :
    g.sent.length + (if g.goal = .none then 0 else 1) ≤ g.ids.length := by
  unfold goal ids
  simp only [List.length_append, List.length_map]
  cases g.hand with
  | cons p hand =>
    simp only [List.length_cons]
    split <;> omega
  | nil => by_cases hlost : g.lost = .none <;> simp [hlost]

end Trail

end Copy
end ChainRelay
