import Mathlib.Logic.Relation
import Mathlib.Data.List.Forall2
import ChainRelay.Proofs.Copy.Proceed
import ChainRelay.Proofs.Exchange.Claim

/-!
Copies that share a chunk channel and an allocator, with other producers beside them and a consumer
that takes records off and chains out. Everything that happens is one operation on the channel. This
module has the steps, what holds at every moment, and that the producers' steps keep it.
-/

namespace ChainRelay

open ChainRelay.Ring Copy

def Op.commits : Op → Nat
  | .commitChunk _ => 1
  | _ => 0

structure Running where
  call : Call
  rest : Activity CopyOutcome

/-- How far everyone has come. -/
structure Exchange where
  shared : Shared
  store : Store
  copies : List Running := []
  /-- The reservations of other producers. One that was finalized is in nobody's hands. -/
  holders : List (Option Reservation) := []
  /-- The chunks that were opened, with the number of the copy. -/
  opened : List (Nat × ChunkId) := []
  commits : Nat := 0
  /-- The copies whose chains were taken out of the store. -/
  collected : List Nat := []

namespace Exchange

def issued (x : Exchange) (copy : Nat) : List ChunkId :=
  (x.opened.filter (·.1 = copy)).map (·.2)

def openedIds (x : Exchange) : List ChunkId := x.opened.map (·.2)

def advance (x : Exchange) (copy : Nat) (call : Call) (op : Op)
    (next : op.Reply → Activity CopyOutcome) : Exchange :=
  { x with
    shared := (op.perform x.shared).2
    copies := x.copies.set copy ⟨call, next (op.perform x.shared).1⟩
    opened := x.opened ++ ((op.opens? (op.perform x.shared).1).map (copy, ·)).toList
    commits := x.commits + op.commits }

def taken (x : Exchange) (v : Channel) : Exchange :=
  { x with
    store := (x.store.takeOne v x.shared).2.1, shared := (x.store.takeOne v x.shared).2.2 }

/-- What may happen around the channel `c` and the allocator number `ids`. -/
inductive Step (c : Channel) (ids : Nat) : Exchange → Exchange → Prop where
  | start {x : Exchange} (call : Call) (hv : c.Views call.writer.channel)
      (hids : call.writer.ids = ids) (hf : call.source.Flat) :
      Step c ids x { x with copies := x.copies ++ [⟨call, call.activity⟩] }
  | advance {x : Exchange} (copy : Nat) {call : Call} {op : Op}
      {next : op.Reply → Activity CopyOutcome} (h : x.copies[copy]? = some ⟨call, .step op next⟩) :
      Step c ids x (x.advance copy call op next)
  | reserve {x : Exchange} {v : Channel} {size : Nat} {r : Reservation} {s : Shared}
      (hv : c.Views v) (h : v.reserve size x.shared = (.ok r, s)) :
      Step c ids x { x with shared := s, holders := x.holders ++ [some r] }
  | refuse {x : Exchange} {v : Channel} {size : Nat} {e : ReserveError} {s : Shared}
      (hv : c.Views v) (h : v.reserve size x.shared = (.error e, s)) :
      Step c ids x { x with shared := s }
  | write {x : Exchange} {r : Reservation} (holder : Nat) (h : x.holders[holder]? = some (some r))
      (pos : Nat) (bytes : Bytes) : Step c ids x { x with shared := r.write pos bytes x.shared }
  | discard {x : Exchange} {r : Reservation} (holder : Nat)
      (h : x.holders[holder]? = some (some r)) :
      Step c ids x
        { x with shared := r.discard x.shared, holders := x.holders.set holder none }
  | abandon {x : Exchange} {r : Reservation} (holder : Nat)
      (h : x.holders[holder]? = some (some r)) :
      Step c ids x
        { x with shared := r.abandon x.shared, holders := x.holders.set holder none }
  | take {x : Exchange} {v : Channel} (hv : c.Views v) : Step c ids x (x.taken v)
  /-- The consumer takes the chain of a copy out of the store. -/
  | collect {x : Exchange} (copy : Nat) {r : Running} {id : ChunkId} {res : Reassembled}
      {store : Store} (h : x.copies[copy]? = some r) (hid : (x.issued copy).head? = some id)
      (hres : x.store.reassemble id r.call.settings.maxChunks = (.ok res, store)) :
      Step c ids x { x with store, collected := copy :: x.collected }
  | elsewhere {x : Exchange} {s : Shared}
      (hr : s.regions.get c.region = x.shared.regions.get c.region)
      (ha : s.allocators.get ids = x.shared.allocators.get ids) :
      Step c ids x { x with shared := s }

/-- The channel, the store and the counters agree about the reservations that are claimed and the
chunks that have arrived. -/
structure Books (c : Channel) (ids : Nat) (a₀ : Allocator) (room : Nat) (x : Exchange)
    (claims : List Claim) (got kept : List ChunkView) : Prop where
  queued : c.Queued x.shared (claims.map (·.booking))
  sound : ∀ k ∈ claims, k.Sound
  keeps : x.store.Keeps got kept
  room_eq : x.store.maxPending = room
  issued : a₀.Issued (x.shared.allocators.get ids) x.openedIds
  named : (Claims.named got claims).Nodup
  known : ∀ id ∈ Claims.named got claims, id ∈ x.openedIds
  commits_eq : x.commits = got.length + (claims.filterMap (·.view?)).length
  /-- A chunk is kept until its chain is taken out. -/
  left : ∀ v ∈ got, v ∈ kept ∨ ∃ copy ∈ x.collected, (copy, v.header.id) ∈ x.opened

structure Underway (c : Channel) (size : SizeClass) (copy : Nat) (p : Part) (k : Claim) : Prop where
  purpose_eq : k.purpose = .part copy p.chunk.id
  booked : p.Booked c size k.booking

/-- The trail of a copy tells where its chunks are. -/
structure Attends (c : Channel) (ids : Nat) (x : Exchange) (claims : List Claim)
    (got : List ChunkView) (copy : Nat) (r : Running) (g : Trail) : Prop where
  view : c.Views r.call.writer.channel
  ids_eq : r.call.writer.ids = ids
  follows : Follows r.call.request r.call.limit r.call.Ends r.rest g
  sound : g.Sound r.call.request r.call.limit
  hand : List.Forall₂ (Underway c r.call.sizeClass copy) g.hand (claims.filter (·.of (.copy copy)))
  sent : ∀ v ∈ g.sent, Claims.Visible got claims v
  issued_eq : x.issued copy = g.ids
  lost : g.lost ∈ Claims.named got claims → g.lost = .none

def Attended (c : Channel) (ids : Nat) (x : Exchange) (claims : List Claim)
    (got : List ChunkView) (copy : Nat) : Prop :=
  match x.copies[copy]? with
  | none => claims.filter (·.of (.copy copy)) = [] ∧ x.issued copy = []
  | some r => ∃ g, Attends c ids x claims got copy r g

def Granted (c : Channel) (x : Exchange) (claims : List Claim) (holder : Nat) : Prop :=
  List.Forall₂ (fun r k => c.Holds r k.booking) (x.holders[holder]?.join.toList)
    (claims.filter (·.of (.holder holder)))

/-- What a party has in hand is where it should be. -/
def Served (c : Channel) (ids : Nat) (x : Exchange) (claims : List Claim) (got : List ChunkView) :
    Party → Prop
  | .copy copy => Attended c ids x claims got copy
  | .holder holder => Granted c x claims holder

/-- What holds at every moment. -/
structure Course (c : Channel) (ids : Nat) (a₀ : Allocator) (room : Nat) (x : Exchange)
    (claims : List Claim) (got kept : List ChunkView) : Prop where
  books : Books c ids a₀ room x claims got kept
  served : ∀ p, Served c ids x claims got p

variable {c : Channel} {ids room : Nat} {a₀ : Allocator} {x x' : Exchange}
  {claims claims' : List Claim}
  {got kept : List ChunkView}

/-- A copy does not see what others do, as long as its reservations stay and chunks that were
committed stay visible. -/
theorem Attended.of_others {copy : Nat} (h : Attended c ids x claims got copy)
    {got' : List ChunkView}
    (hcopies : x'.copies[copy]? = x.copies[copy]?) (hissued : x'.issued copy = x.issued copy)
    (hpart : claims'.filter (·.of (.copy copy)) = claims.filter (·.of (.copy copy)))
    (hvisible : ∀ v, Claims.Visible got claims v → Claims.Visible got' claims' v)
    (hnamed : ∀ id ∈ x.issued copy, id ∈ Claims.named got' claims' → id ∈ Claims.named got claims) :
    Attended c ids x' claims' got' copy := by
  unfold Attended at h ⊢
  rw [hcopies]
  cases hr : x.copies[copy]? with
  | none =>
    rw [hr] at h
    exact ⟨hpart.trans h.1, hissued.trans h.2⟩
  | some r =>
    rw [hr] at h
    obtain ⟨g, h⟩ := h
    use g
    constructor
    case view => exact h.view
    case ids_eq => exact h.ids_eq
    case follows => exact h.follows
    case sound => exact h.sound
    case hand =>
      rw [hpart]
      exact h.hand
    case sent => exact fun v hv => hvisible v (h.sent v hv)
    case issued_eq => exact hissued.trans h.issued_eq
    case lost =>
      intro hmem
      by_contra hne
      have hid : g.lost ∈ x.issued copy := by
        rw [h.issued_eq, Trail.ids, if_neg hne]
        simp
      exact hne (h.lost (hnamed _ hid hmem))

theorem mem_issued {copy : Nat} {id : ChunkId} : id ∈ x.issued copy ↔ (copy, id) ∈ x.opened := by
  simp [issued]

theorem mem_openedIds {copy : Nat} {id : ChunkId} (h : id ∈ x.issued copy) : id ∈ x.openedIds :=
  List.mem_map_of_mem (mem_issued.mp h)

theorem Books.opened_once (h : Books c ids a₀ room x claims got kept) {i j : Nat} {id : ChunkId}
    (hi : (i, id) ∈ x.opened) (hj : (j, id) ∈ x.opened) : j = i :=
  congrArg Prod.fst (List.inj_on_of_nodup_map h.issued.nodup hj hi rfl)

/-- The doing of one party, seen by all. -/
theorem Course.of_party (h : Course c ids a₀ room x claims got kept)
    (hb : Books c ids a₀ room x' claims' got kept) (p : Party)
    (hchanges : Claims.Changes p x.openedIds got claims claims')
    (hcopies : ∀ i, Party.copy i ≠ p → x'.copies[i]? = x.copies[i]? ∧ x'.issued i = x.issued i)
    (hholders : ∀ j, Party.holder j ≠ p → x'.holders[j]? = x.holders[j]?)
    (hself : Served c ids x' claims' got p) : Course c ids a₀ room x' claims' got kept := by
  refine ⟨hb, ?_⟩
  intro q
  by_cases hq : q = p
  · rw [hq]
    exact hself
  have hold := h.served q
  cases q with
  | copy i =>
    obtain ⟨hcopy, hissued⟩ := hcopies i hq
    exact hold.of_others hcopy hissued (hchanges.others _ hq) hchanges.visible
      fun id hid => hchanges.named id (mem_openedIds hid)
  | holder j =>
    show Granted c x' claims' j
    unfold Granted
    rw [hholders j hq, hchanges.others _ hq]
    exact hold

structure Steady (ids : Nat) (x x' : Exchange) : Prop where
  store_eq : x'.store = x.store
  opened_eq : x'.opened = x.opened
  collected_eq : x'.collected = x.collected
  counter_eq : x'.shared.allocators.get ids = x.shared.allocators.get ids

theorem Books.of_queued (h : Books c ids a₀ room x claims got kept) (hs : Steady ids x x')
    (hcommits : x'.commits = x.commits) (hq : c.Queued x'.shared (claims.map (·.booking))) :
    Books c ids a₀ room x' claims got kept := by
  constructor
  case queued => exact hq
  case sound => exact h.sound
  case keeps =>
    rw [hs.store_eq]
    exact h.keeps
  case room_eq =>
    rw [hs.store_eq]
    exact h.room_eq
  case issued =>
    rw [hs.counter_eq, openedIds, hs.opened_eq]
    exact h.issued
  case named => exact h.named
  case known =>
    rw [openedIds, hs.opened_eq]
    exact h.known
  case commits_eq =>
    rw [hcommits]
    exact h.commits_eq
  case left =>
    rw [hs.collected_eq, hs.opened_eq]
    exact h.left

section Replace

variable {pre post : List Claim} {k k' : Claim}

theorem Books.replace (h : Books c ids a₀ room x (pre ++ k :: post) got kept)
    (hs : Steady ids x x') (hk : k.view? = none) (hk' : k'.Sound)
    (hid : k'.id? = k.id? ∨ k'.id? = none)
    (hcommits : x'.commits = x.commits + k'.view?.toList.length)
    (hq : c.Queued x'.shared ((pre ++ k' :: post).map (·.booking))) :
    Books c ids a₀ room x' (pre ++ k' :: post) got kept := by
  have hsub :
      (Claims.named got (pre ++ k' :: post)).Sublist (Claims.named got (pre ++ k :: post)) :=
    Claims.named_change hid
  obtain ⟨hpre, hpost⟩ := List.forall_mem_append.mp h.sound
  constructor
  case queued => exact hq
  case sound =>
    exact List.forall_mem_append.mpr
      ⟨hpre, List.forall_mem_cons.mpr ⟨hk', (List.forall_mem_cons.mp hpost).2⟩⟩
  case keeps =>
    rw [hs.store_eq]
    exact h.keeps
  case room_eq =>
    rw [hs.store_eq]
    exact h.room_eq
  case issued =>
    rw [hs.counter_eq, openedIds, hs.opened_eq]
    exact h.issued
  case named => exact h.named.sublist hsub
  case known =>
    intro id hmem
    rw [openedIds, hs.opened_eq]
    exact h.known id (hsub.subset hmem)
  case commits_eq =>
    rw [hcommits, h.commits_eq, List.filterMap_append, List.filterMap_append,
      List.filterMap_cons_none hk]
    cases hv : k'.view? with
    | none => simp [List.filterMap_cons_none hv]
    | some v =>
      simp only [List.filterMap_cons_some hv, List.length_append, List.length_cons,
        Option.toList_some, List.length_nil]
      omega
  case left =>
    rw [hs.collected_eq, hs.opened_eq]
    exact h.left

theorem Books.append (h : Books c ids a₀ room x claims got kept) (hstore : x'.store = x.store)
    (hcollected : x'.collected = x.collected) (hcommits : x'.commits = x.commits)
    (hopened : x.opened ⊆ x'.opened) (hids : x'.openedIds = x.openedIds ++ k.id?.toList)
    (hissued : a₀.Issued (x'.shared.allocators.get ids) x'.openedIds) (hk : k.Sound)
    (hview : k.view? = none) (hq : c.Queued x'.shared ((claims ++ [k]).map (·.booking))) :
    Books c ids a₀ room x' (claims ++ [k]) got kept := by
  have hfresh := hissued.nodup
  rw [hids, List.nodup_append] at hfresh
  constructor
  case queued => exact hq
  case sound => exact List.forall_mem_append.mpr ⟨h.sound, List.forall_mem_singleton.mpr hk⟩
  case keeps =>
    rw [hstore]
    exact h.keeps
  case room_eq =>
    rw [hstore]
    exact h.room_eq
  case issued => exact hissued
  case named =>
    rw [Claims.named_append, List.nodup_append]
    exact ⟨h.named, hfresh.2.1, fun i hi j hj => hfresh.2.2 i (h.known i hi) j hj⟩
  case known =>
    intro id hmem
    rw [Claims.named_append, List.mem_append] at hmem
    rw [hids, List.mem_append]
    exact hmem.imp_left (h.known id)
  case commits_eq =>
    rw [hcommits, h.commits_eq, List.filterMap_append, List.filterMap_cons_none hview,
      List.filterMap_nil, List.append_nil]
  case left =>
    rw [hcollected]
    intro v hv
    apply (h.left v hv).imp_right
    rintro ⟨copy, hcopy, hmem⟩
    exact ⟨copy, hcopy, hopened hmem⟩

end Replace

/-! ### Copies -/

section Copies

variable {copy : Nat} {call : Call} {op : Op} {next : op.Reply → Activity CopyOutcome}
  {g g' : Trail}

theorem issued_advance_other {i : Nat} (hi : i ≠ copy) :
    (x.advance copy call op next).issued i = x.issued i := by
  unfold issued advance
  rw [List.filter_append]
  have hoff : ((op.opens? (op.perform x.shared).1).map (copy, ·)).toList.filter (·.1 = i) = [] := by
    cases op.opens? (op.perform x.shared).1 <;> simp [Ne.symm hi]
  rw [hoff, List.append_nil]

theorem issued_advance_self :
    (x.advance copy call op next).issued copy =
      x.issued copy ++ (op.opens? (op.perform x.shared).1).toList := by
  unfold issued advance
  rw [List.filter_append, List.map_append]
  cases op.opens? (op.perform x.shared).1 <;> simp

theorem openedIds_advance :
    (x.advance copy call op next).openedIds =
      x.openedIds ++ (op.opens? (op.perform x.shared).1).toList := by
  unfold openedIds advance
  rw [List.map_append]
  cases op.opens? (op.perform x.shared).1 <;> simp

theorem steady_advance (ho : op.opens? (op.perform x.shared).1 = none)
    (ha : (op.perform x.shared).2.allocators = x.shared.allocators) :
    Steady ids x (x.advance copy call op next) := by
  refine ⟨rfl, ?_, rfl, congrArg (·.get ids) ha⟩
  unfold advance
  rw [ho]
  exact List.append_nil _

/-- A copy whose trail is known goes on. -/
theorem Course.of_copy (h : Course c ids a₀ room x claims got kept)
    (hrun : x.copies[copy]? = some ⟨call, .step op next⟩)
    (hg : Attends c ids x claims got copy ⟨call, .step op next⟩ g)
    (hstep : Trail.Step call.request call.limit g op (op.perform x.shared).1 g')
    (hnext : Follows call.request call.limit call.Ends (next (op.perform x.shared).1) g')
    (hb : Books c ids a₀ room (x.advance copy call op next) claims' got kept)
    (hchanges : Claims.Changes (.copy copy) x.openedIds got claims claims')
    (hhand : List.Forall₂ (Underway c call.sizeClass copy) g'.hand
      (claims'.filter (·.of (.copy copy))))
    (hsent : ∀ v ∈ g'.sent, Claims.Visible got claims' v)
    (hlost : g'.lost ∈ Claims.named got claims' → g'.lost = .none) :
    Course c ids a₀ room (x.advance copy call op next) claims' got kept := by
  have hlt := (List.getElem?_eq_some_iff.mp hrun).1
  refine h.of_party hb (.copy copy) hchanges ?_ ?_ ?_
  · intro i hi
    have hne : i ≠ copy := fun he => hi (by rw [he])
    exact ⟨List.getElem?_set_ne (Ne.symm hne), issued_advance_other hne⟩
  · intro j _
    exact rfl
  · have hcopy : (x.advance copy call op next).copies[copy]? =
        some ⟨call, next (op.perform x.shared).1⟩ := by
      exact List.getElem?_set_self hlt
    show Attended ..
    unfold Attended
    simp only [hcopy]
    use g'
    constructor
    case view => exact hg.view
    case ids_eq => exact hg.ids_eq
    case follows => exact hnext
    case sound => exact hg.sound.step hstep
    case hand => exact hhand
    case sent => exact hsent
    case issued_eq =>
      rw [issued_advance_self, hg.issued_eq]
      exact (hg.sound.ids_step hstep).symm
    case lost => exact hlost

/-- A copy that only counts, reports or is refused a chunk. -/
theorem Course.quiet (h : Course c ids a₀ room x claims got kept)
    (hrun : x.copies[copy]? = some ⟨call, .step op next⟩)
    (hg : Attends c ids x claims got copy ⟨call, .step op next⟩ g)
    (hstep : Trail.Step call.request call.limit g op (op.perform x.shared).1 g')
    (hnext : Follows call.request call.limit call.Ends (next (op.perform x.shared).1) g')
    (hs : Steady ids x (x.advance copy call op next)) (hcommits : op.commits = 0)
    (hq : c.Queued (op.perform x.shared).2 (claims.map (·.booking)))
    (hsent : g'.sent = g.sent) (hhand : g'.hand = g.hand) (hlost : g'.lost = g.lost) :
    Course c ids a₀ room (x.advance copy call op next) claims got kept := by
  have hb := h.books.of_queued hs (by simp [advance, hcommits]) hq
  refine h.of_copy hrun hg hstep hnext hb (.refl _ _ _ _) ?_ ?_ ?_
  · rw [hhand]
    exact hg.hand
  · rw [hsent]
    exact hg.sent
  · rw [hlost]
    exact hg.lost

/-- The chunk that is granted to a copy is entered for it. -/
theorem Books.opened {w : Writer} {size : SizeClass} {chunk : OpenChunk}
    {next : (Op.openChunk w size).Reply → Activity CopyOutcome}
    (h : Books c ids a₀ room x claims got kept) (hv : c.Views w.channel) (hids : w.ids = ids)
    (ho : (x.shared.openChunk w size).1 = .ok chunk)
    (hfew : a₀.share (a₀.slot w.shard) x.openedIds < Allocator.period) :
    ∃ k, Part.Booked c size ⟨chunk, []⟩ k ∧ chunk.id ∉ x.openedIds ∧
      Books c ids a₀ room (x.advance copy call (.openChunk w size) next)
        (claims ++ [⟨k, .part copy chunk.id⟩]) got kept := by
  rcases h.queued.openChunk hv size with ⟨k, chunk', s', he, hbooked, hq, hid, halloc⟩ |
    ⟨e, s', he, -⟩
  · have hperform : (Op.openChunk w size).perform x.shared = (.ok chunk', s') := he
    rw [he] at ho
    cases ho
    have hopens : (Op.openChunk w size).opens? ((Op.openChunk w size).perform x.shared).1 =
        some chunk.id := by
      rw [hperform]
      rfl
    have hissued := h.issued.allocate w.shard hfew
    rw [hids] at hid halloc
    rw [← hid] at hissued
    refine ⟨k, hbooked, ?_, ?_⟩
    · intro hmem
      exact (List.nodup_append.mp hissued.nodup).2.2 _ hmem _ (List.mem_singleton_self _) rfl
    · refine h.append rfl rfl rfl (List.subset_append_left _ _) ?_ ?_ hbooked.writing rfl ?_
      · rw [openedIds_advance, hopens]
        rfl
      · rw [openedIds_advance, hopens]
        show a₀.Issued (((Op.openChunk w size).perform x.shared).2.allocators.get ids) _
        rw [hperform, halloc, Sparse.get_set_same]
        exact hissued
      · show c.Queued ((Op.openChunk w size).perform x.shared).2 _
        rw [hperform, List.map_append]
        exact hq
  · rw [he] at ho
    cases ho

/-- A copy was granted another chunk. -/
theorem Course.opened {w : Writer} {size : SizeClass}
    {next : (Op.openChunk w size).Reply → Activity CopyOutcome} {sent : List ChunkView}
    {hand : List Part} {chunk : OpenChunk}
    (h : Course c ids a₀ room x claims got kept)
    (hrun : x.copies[copy]? = some ⟨call, .step (.openChunk w size) next⟩)
    (hg : Attends c ids x claims got copy ⟨call, .step (.openChunk w size) next⟩
      ⟨sent, hand, none, .none⟩)
    (hw : w = call.request.writer) (hsize : size = call.request.sizeClass)
    (ho : (x.shared.openChunk w size).1 = .ok chunk)
    (hstep : Trail.Step call.request call.limit ⟨sent, hand, none, .none⟩ (.openChunk w size)
      (x.shared.openChunk w size).1 ⟨sent, hand ++ [⟨chunk, []⟩], none, .none⟩)
    (hnext : Follows call.request call.limit call.Ends (next (x.shared.openChunk w size).1)
      ⟨sent, hand ++ [⟨chunk, []⟩], none, .none⟩)
    (hfew : a₀.share (a₀.slot w.shard) x.openedIds < Allocator.period) :
    ∃ claims', Course c ids a₀ room (x.advance copy call (.openChunk w size) next) claims' got
      kept := by
  have hb := h.books
  have hv : c.Views w.channel := by
    rw [hw]
    exact hg.view
  have hids : w.ids = ids := by
    rw [hw]
    exact hg.ids_eq
  obtain ⟨k, hbooked, hnew, hbooks⟩ := hb.opened hv hids ho hfew
  refine ⟨_, h.of_copy hrun hg hstep hnext hbooks (.append rfl ?_) ?_ ?_ fun _ => rfl⟩
  · intro id hmem he
    exact hnew (Option.some.inj he ▸ hmem)
  · rw [List.filter_append]
    apply List.rel_append hg.hand
    rw [hsize] at hbooked
    simp only [Claim.of, Claim.party?, List.filter_cons, decide_true, if_true, List.filter_nil]
    exact .cons ⟨rfl, hbooked⟩ .nil
  · intro v hv
    rcases hg.sent v hv with hv | ⟨d, hd, hv⟩
    · exact .inl hv
    · exact .inr ⟨d, List.mem_append_left _ hd, hv⟩

/-- The writer of a chunk in hand fills it. -/
theorem Course.filled {chunk : OpenChunk} {data : Bytes}
    {next : (Op.fillChunk chunk data).Reply → Activity CopyOutcome} {sent : List ChunkView}
    {hand : List Part} (h : Course c ids a₀ room x claims got kept)
    (hrun : x.copies[copy]? = some ⟨call, .step (.fillChunk chunk data) next⟩)
    (hg : Attends c ids x claims got copy ⟨call, .step (.fillChunk chunk data) next⟩
      ⟨sent, hand ++ [⟨chunk, []⟩], none, .none⟩)
    (hstep : Trail.Step call.request call.limit ⟨sent, hand ++ [⟨chunk, []⟩], none, .none⟩
      (.fillChunk chunk data) () ⟨sent, hand ++ [⟨chunk.filled data, data⟩], none, .none⟩)
    (hnext : Follows call.request call.limit call.Ends (next ())
      ⟨sent, hand ++ [⟨chunk.filled data, data⟩], none, .none⟩)
    (hle : data.length ≤ call.request.room) :
    ∃ claims', Course c ids a₀ room (x.advance copy call (.fillChunk chunk data) next) claims' got
      kept := by
  have hb := h.books
  obtain ⟨l, k, hfilter, hl, hk⟩ := forall₂_snoc hg.hand
  obtain ⟨pre, post, rfl, hpre, hpost, -⟩ := Claims.filter_split hfilter
  have hq := hb.queued
  rw [List.map_append, List.map_cons] at hq
  have hcap := (hg.sound.made ⟨chunk, []⟩ (by simp)).capacity_eq
  obtain ⟨b, -, hbooked, hq⟩ := hq.fillChunk hk.booked hcap hle
  have hparty : k.party? = some (.copy copy) := by simp [Claim.party?, hk.purpose_eq]
  have hparty' : Claim.party? ⟨b, k.purpose⟩ = some (.copy copy) := hparty
  have hs : Steady ids x (x.advance copy call (.fillChunk chunk data) next) :=
    steady_advance rfl rfl
  refine ⟨pre ++ ⟨b, k.purpose⟩ :: post, h.of_copy hrun hg hstep hnext
    (hb.replace hs (Claim.view?_of_party hparty) ?_ (.inl rfl) ?_ ?_)
    (.replace hparty (.inl hparty') (.inl rfl)) ?_ ?_ fun _ => rfl⟩
  · simp only [Claim.Sound, hk.purpose_eq]
    exact hbooked.writing
  · rw [Claim.view?_of_party hparty']
    rfl
  · rw [List.map_append, List.map_cons]
    exact hq
  · rw [List.filter_append, hpre, List.filter_cons_of_pos (by simpa [Claim.of] using hparty'),
      hpost]
    exact List.rel_append hl (.cons ⟨hk.purpose_eq, hbooked⟩ .nil)
  · intro v hv
    exact Claims.visible_change (Claim.view?_of_party hparty) (hg.sent v hv)

/-- The chunk in front becomes visible. -/
theorem Course.committed {chunk : OpenChunk} {p : Part} {after : ChunkId}
    {next : (Op.commitChunk chunk).Reply → Activity CopyOutcome}
    {sent : List ChunkView} {hand : List Part} {refused : Option ReserveError}
    (hlinked : p.chunk.linked after = chunk) (h : Course c ids a₀ room x claims got kept)
    (hrun : x.copies[copy]? = some ⟨call, .step (.commitChunk chunk) next⟩)
    (hg : Attends c ids x claims got copy ⟨call, .step (.commitChunk chunk) next⟩
      ⟨sent, p :: hand, refused, .none⟩)
    (hstep : Trail.Step call.request call.limit ⟨sent, p :: hand, refused, .none⟩
      (.commitChunk chunk) ()
      ⟨sent ++ [p.view call.request.sizeClass after], hand, refused, .none⟩)
    (hnext : Follows call.request call.limit call.Ends (next ())
      ⟨sent ++ [p.view call.request.sizeClass after], hand, refused, .none⟩) :
    ∃ claims', Course c ids a₀ room (x.advance copy call (.commitChunk chunk) next) claims' got
      kept := by
  subst hlinked
  have hb := h.books
  obtain ⟨k, l, hk, hl, hfilter⟩ := List.forall₂_cons_left_iff.mp hg.hand
  obtain ⟨pre, post, rfl, hpre, hpost, -⟩ := Claims.filter_split (l := []) hfilter
  have hq := hb.queued
  rw [List.map_append, List.map_cons] at hq
  have hmade := hg.sound.made p List.mem_cons_self
  have hvalid := hg.sound.valid (by simp [Trail.payloads])
  have hle := hg.sound.room p.data (by simp [Trail.payloads])
  obtain ⟨b, -, hcarries, hq⟩ := hq.commitChunk hk.booked hmade hvalid hle after
  have hparty : k.party? = some (.copy copy) := by simp [Claim.party?, hk.purpose_eq]
  have hid : k.id? = some p.chunk.id := by simp [Claim.id?, hk.purpose_eq]
  have hs : Steady ids x (x.advance copy call (.commitChunk (p.chunk.linked after)) next) :=
    steady_advance rfl rfl
  refine ⟨pre ++ ⟨b, .sent (p.view call.request.sizeClass after)⟩ :: post,
    h.of_copy hrun hg hstep hnext
      (hb.replace hs (Claim.view?_of_party hparty) hcarries (.inl hid.symm) rfl ?_)
      (.replace hparty (.inr rfl) (.inl hid.symm)) ?_ ?_ fun _ => rfl⟩
  · rw [List.map_append, List.map_cons]
    exact hq
  · rw [List.filter_append, hpre, List.nil_append, List.filter_cons_of_neg (by
      simp [Claim.of, Claim.party?]), hpost]
    exact hl
  · intro v hv
    rcases List.mem_append.mp hv with hv | hv
    · exact Claims.visible_change (Claim.view?_of_party hparty) (hg.sent v hv)
    · obtain rfl := List.mem_singleton.mp hv
      exact .inr ⟨_, List.mem_append_right _ List.mem_cons_self, rfl⟩

/-- A copy that cannot go on gives up the chunk in hand. -/
theorem Course.abandoned {p : Part}
    {next : (Op.abandonChunk p.chunk).Reply → Activity CopyOutcome} {sent : List ChunkView}
    (h : Course c ids a₀ room x claims got kept)
    (hrun : x.copies[copy]? = some ⟨call, .step (.abandonChunk p.chunk) next⟩)
    (hg : Attends c ids x claims got copy ⟨call, .step (.abandonChunk p.chunk) next⟩
      ⟨sent, [p], some .overflow, .none⟩)
    (hstep : Trail.Step call.request call.limit ⟨sent, [p], some .overflow, .none⟩
      (.abandonChunk p.chunk) () ⟨sent, [], some .overflow, p.chunk.id⟩)
    (hnext : Follows call.request call.limit call.Ends (next ())
      ⟨sent, [], some .overflow, p.chunk.id⟩) :
    ∃ claims', Course c ids a₀ room (x.advance copy call (.abandonChunk p.chunk) next) claims' got
      kept := by
  have hb := h.books
  obtain ⟨k, l, hk, hl, hfilter⟩ := List.forall₂_cons_left_iff.mp hg.hand
  cases hl
  obtain ⟨pre, post, rfl, hpre, hpost, -⟩ := Claims.filter_split (l := []) hfilter
  have hq := hb.queued
  rw [List.map_append, List.map_cons] at hq
  have hq := hq.abandonChunk hk.booked
  have hparty : k.party? = some (.copy copy) := by simp [Claim.party?, hk.purpose_eq]
  have hid : k.id? = some p.chunk.id := by simp [Claim.id?, hk.purpose_eq]
  have hs : Steady ids x (x.advance copy call (.abandonChunk p.chunk) next) :=
    steady_advance rfl rfl
  refine ⟨pre ++ ⟨{ k.booking with phase := .discarded }, .gone⟩ :: post,
    h.of_copy hrun hg hstep hnext
      (hb.replace hs (Claim.view?_of_party hparty) rfl (.inr rfl) rfl ?_)
      (.replace hparty (.inr rfl) (.inr rfl)) ?_ ?_ ?_⟩
  · rw [List.map_append, List.map_cons]
    exact hq
  · rw [List.filter_append, hpre, List.nil_append, List.filter_cons_of_neg (by
      simp [Claim.of, Claim.party?]), hpost]
    exact .nil
  · intro v hv
    exact Claims.visible_change (Claim.view?_of_party hparty) (hg.sent v hv)
  · intro hmem
    exact absurd hmem (Claims.not_named_change hb.named hid rfl)

/-- No further chunk is granted. -/
theorem Course.refused {w : Writer} {size : SizeClass}
    {next : (Op.openChunk w size).Reply → Activity CopyOutcome} {sent : List ChunkView}
    {hand : List Part} {e : ReserveError} (h : Course c ids a₀ room x claims got kept)
    (hrun : x.copies[copy]? = some ⟨call, .step (.openChunk w size) next⟩)
    (hg : Attends c ids x claims got copy ⟨call, .step (.openChunk w size) next⟩
      ⟨sent, hand, none, .none⟩)
    (hv : c.Views w.channel) (ho : (x.shared.openChunk w size).1 = .error e)
    (hstep : Trail.Step call.request call.limit ⟨sent, hand, none, .none⟩ (.openChunk w size)
      (x.shared.openChunk w size).1 ⟨sent, hand, some e, .none⟩)
    (hnext : Follows call.request call.limit call.Ends (next (x.shared.openChunk w size).1)
      ⟨sent, hand, some e, .none⟩) :
    Course c ids a₀ room (x.advance copy call (.openChunk w size) next) claims got kept := by
  rcases h.books.queued.openChunk hv size with ⟨k, chunk, s', he, -⟩ | ⟨e', s', he, hq, halloc, -⟩
  · rw [he] at ho
    cases ho
  · have hperform : (Op.openChunk w size).perform x.shared = (.error e', s') := he
    refine h.quiet hrun hg hstep hnext (steady_advance ?_ ?_) rfl ?_ rfl rfl rfl
    · rw [hperform]
      rfl
    · rw [hperform]
      exact halloc
    · rw [hperform]
      exact hq

/-- One operation of a copy. -/
theorem Course.advance (h : Course c ids a₀ room x claims got kept)
    (hrun : x.copies[copy]? = some ⟨call, .step op next⟩)
    (hfew : ∀ slot, a₀.share slot (x.advance copy call op next).openedIds < Allocator.period) :
    ∃ claims', Course c ids a₀ room (x.advance copy call op next) claims' got kept := by
  have hattended : Attended c ids x claims got copy := h.served (.copy copy)
  unfold Attended at hattended
  simp only [hrun] at hattended
  obtain ⟨g, hg⟩ := hattended
  obtain ⟨g', hstep, hnext⟩ := hg.follows _ (op.answers_perform x.shared)
  have hshare (slot : Nat) : a₀.share slot x.openedIds < Allocator.period := by
    have hle := hfew slot
    rw [openedIds_advance, Allocator.share, List.countP_append] at hle
    exact Nat.lt_of_le_of_lt (Nat.le_add_right _ _) hle
  obtain ⟨reply, hreply⟩ : ∃ reply, (op.perform x.shared).1 = reply := ⟨_, rfl⟩
  have hstep' : Trail.Step call.request call.limit g op (op.perform x.shared).1 g' := hstep
  rw [hreply] at hstep'
  cases hstep' with
  | openFirst hvalid hlimit hc =>
    exact h.opened hrun hg rfl rfl hreply hstep hnext (hshare _)
  | openNext hc hp hlimit => exact h.opened hrun hg rfl rfl hreply hstep hnext (hshare _)
  | refuse hlen hfirst => exact ⟨_, h.refused hrun hg hg.view hreply hstep hnext⟩
  | fill hand hne hle hs => exact h.filled hrun hg hstep hnext hle
  | handOver p' hp => exact Course.committed rfl h hrun hg hstep hnext
  | @finish sent p refused hp ho =>
    exact Course.committed (hg.sound.made p List.mem_cons_self).linked_none h hrun hg hstep hnext
  | abandon => exact h.abandoned hrun hg hstep hnext
  | count | report =>
    exact ⟨_, h.quiet hrun hg hstep hnext (steady_advance rfl rfl) rfl h.books.queued rfl rfl rfl⟩

/-- A copy works on its channel only. -/
theorem Attends.op_region {r : Running} (hg : Attends c ids x claims got copy r g)
    {reply : op.Reply} (hstep : Trail.Step r.call.request r.call.limit g op reply g') {n : Nat}
    (hn : n ≠ c.region) : op.region? ≠ some n := by
  have hwriter : some r.call.writer.channel.region ≠ some n := by
    rw [hg.view.region_eq]
    exact fun he => hn (Option.some.inj he).symm
  have hhand {p : Part} (hp : p ∈ g.hand) :
      some p.chunk.reservation.channel.region ≠ some n := by
    obtain ⟨k, -, hk⟩ := forall₂_mem hg.hand hp
    rw [hk.booked.holds.view.region_eq]
    exact fun he => hn (Option.some.inj he).symm
  cases hstep with
  | openFirst | openNext | refuse => exact hwriter
  | fill hand => exact hhand (List.mem_append_right _ (List.mem_singleton_self _))
  | handOver | finish | abandon => exact hhand List.mem_cons_self
  | count | report => nofun

end Copies

end Exchange
end ChainRelay
