import ChainRelay.Proofs.Capture.Conduct
import ChainRelay.Proofs.Chunk.Workshop
import ChainRelay.Proofs.Copy.Ration

/-!
Where every chunk is. Producers open chunks, fill and link them, and commit, discard or drop them,
while copies and encodings of fields go on beside one another, one operation at a time. Each chunk
took one identifier and is at any time committed, discarded, given up, or still open in the hands of
one of them (`Custody.every_chunk_is_accounted_for`). What is given up is not counted.
-/

namespace ChainRelay

namespace Allocator

/-- What requests of these shards get, one after the other, and the counters after them. -/
def serve (a : Allocator) : List UInt16 → List ChunkId × Allocator
  | [] => ([], a)
  | shard :: shards =>
    let (id, a) := a.allocate shard
    let (ids, a) := a.serve shards
    (id :: ids, a)

theorem serve_snoc (a : Allocator) (shards : List UInt16) (shard : UInt16) :
    a.serve (shards ++ [shard]) =
      ((a.serve shards).1 ++ [((a.serve shards).2.allocate shard).1],
        ((a.serve shards).2.allocate shard).2) := by
  induction shards generalizing a with
  | nil => rfl
  | cons other shards ih => simp [serve, ih]

end Allocator

/-- A ring that refuses a size is left as it is, unless a cursor would leave its range. -/
theorem Ring.Band.reserve_refused {b : Band} {size : Nat} {m m' : Memory} {e : ReserveError}
    (h : b.reserve size m = (.error e, m')) (he : e ≠ .overflow) : m' = m := by
  unfold reserve at h
  split at h
  · exact (congrArg Prod.snd h).symm
  · dsimp only at h
    split at h
    · cases h
      exact absurd rfl he
    · cases h

namespace Shared

variable {w : Writer} {size : SizeClass} {s s' : Shared}

/-- A chunk that is opened takes the next identifier, and nothing is counted yet. -/
theorem openChunk_issues {chunk : OpenChunk} (h : s.openChunk w size = (.ok chunk, s')) :
    chunk.tally = w.tally ∧ chunk.id = ((s.allocators.get w.ids).allocate w.shard).1 ∧
      s'.allocators = s.allocators.set w.ids ((s.allocators.get w.ids).allocate w.shard).2 ∧
      s'.tallies = s.tallies := by
  obtain ⟨-, -, -, -, htallies⟩ := openChunk_ok h
  have ho := openChunk_eq w size s
  have ha := allocators_reserve w.channel size.totalSize s
  rcases hr : w.channel.reserve size.totalSize s with ⟨e | r, s₁⟩
  · rw [hr] at ho
    obtain ⟨s'', ho, -⟩ := ho
    cases h.symm.trans ho
  · rw [hr] at ho ha
    dsimp only at ha
    obtain ⟨⟨⟩, rfl⟩ := Prod.mk.inj (h.symm.trans ho)
    rw [← ha]
    exact ⟨rfl, rfl, rfl, htallies⟩

/-- A chunk that is refused takes no identifier and no room, and is counted if there was no room. -/
theorem openChunk_refused {e : ReserveError} (h : s.openChunk w size = (.error e, s')) :
    s'.allocators = s.allocators ∧
      (e ≠ .overflow → ∀ n, s'.regions.get n = s.regions.get n) ∧
      ∀ n d, (s'.tallies.get n).get d = (s.tallies.get n).get d +
        if w.tally = n ∧ .chunksRefused = d ∧ e.isFull = true then 1 else 0 := by
  have hopen := openChunk_eq w size s
  have hcounted := (Op.openChunk w size).get_tallies_perform s
  simp only [Op.perform, h] at hcounted
  rcases hr : w.channel.reserve size.totalSize s with ⟨e' | r, s₁⟩
  case ok =>
    rw [hr] at hopen
    cases h.symm.trans hopen
  rw [hr] at hopen
  obtain ⟨s₂, hopen, hregions, hallocators⟩ := hopen
  obtain ⟨⟨⟩, rfl⟩ := Prod.mk.inj (h.symm.trans hopen)
  have hreserved : s₁ = (w.channel.reserve size.totalSize s).2 := congrArg Prod.snd hr.symm
  refine ⟨by rw [hallocators, hreserved, allocators_reserve], fun he n => ?_, fun n d => ?_⟩
  · rw [hregions]
    by_cases hn : w.channel.region = n
    · subst hn
      exact Ring.Band.reserve_refused ((Channel.Views.refl w.channel).reserve_refused hr) he
    · rw [hreserved]
      refine (get_withRegion s w.channel.region n (w.channel.band.reserve _)).trans ?_
      exact if_neg hn
  · rw [hcounted]
    cases hfull : e.isFull <;> simp [Op.counts?, hfull]

def ended (tally : Nat) (s : Shared) : Nat :=
  (s.tallies.get tally).chunksCommitted + (s.tallies.get tally).chunksDiscarded

theorem ended_of_get {tally : Nat}
    (h : ∀ d, d = .chunksCommitted ∨ d = .chunksDiscarded →
      (s'.tallies.get tally).get d = (s.tallies.get tally).get d) :
    s'.ended tally = s.ended tally := by
  have hc := h .chunksCommitted (.inl rfl)
  have hd := h .chunksDiscarded (.inr rfl)
  simp only [Tally.get] at hc hd
  rw [ended, ended, hc, hd]

theorem ended_count (s : Shared) (tally n : Nat) (c : Counter) :
    (s.count tally c).ended n =
      s.ended n + if tally = n ∧ (c = .chunksCommitted ∨ c = .chunksDiscarded) then 1 else 0 := by
  have hc := s.get_count tally n c .chunksCommitted
  have hd := s.get_count tally n c .chunksDiscarded
  simp only [Tally.get] at hc hd
  rw [ended, ended, hc, hd]
  by_cases ht : tally = n <;> cases c <;> simp [ht] <;> omega

theorem ended_commitChunk (c : OpenChunk) (s : Shared) (n : Nat) :
    (s.commitChunk c).ended n = s.ended n + if c.tally = n then 1 else 0 := by
  refine (ended_count _ c.tally n .chunksCommitted).trans ?_
  simp only [true_or, and_true]
  rfl

theorem ended_discardChunk (c : OpenChunk) (s : Shared) (n : Nat) :
    (s.discardChunk c).ended n = s.ended n + if c.tally = n then 1 else 0 := by
  refine (ended_count _ c.tally n .chunksDiscarded).trans ?_
  simp only [or_true, and_true]
  rfl

/-- A chunk that is given up is not counted. -/
@[simp] theorem ended_abandonChunk (c : OpenChunk) (s : Shared) (n : Nat) :
    (s.abandonChunk c).ended n = s.ended n := rfl

end Shared

/-- What stays of an open chunk while it is filled and linked. -/
structure Stub where
  reservation : Reservation
  id : ChunkId
  tally : Nat
  deriving DecidableEq

def OpenChunk.stub (c : OpenChunk) : Stub := ⟨c.reservation, c.id, c.tally⟩

@[simp] theorem OpenChunk.stub_filled (c : OpenChunk) (data : Bytes) :
    (c.filled data).stub = c.stub := rfl

@[simp] theorem OpenChunk.stub_linked (c : OpenChunk) (next : ChunkId) :
    (c.linked next).stub = c.stub := rfl

namespace Op

def Within (held : List Stub) : Op → Prop
  | .fillChunk c _ | .commitChunk c | .abandonChunk c => c.stub ∈ held
  | _ => True

def holding (held : List Stub) : (op : Op) → op.Reply → List Stub
  | .openChunk .., .ok c => held ++ [c.stub]
  | .commitChunk c, _ | .abandonChunk c, _ => held.erase c.stub
  | _, _ => held

def drops : Op → Nat
  | .abandonChunk _ => 1
  | _ => 0

end Op

/-- An activity that ends every chunk that it has in hand, those it opens as well as these, and
touches no other. -/
def Activity.Clears {α : Type} : List Stub → Activity α → Prop
  | held, .done _ | held, .abort => held = []
  | held, .step op next => ∀ reply, op.Answers reply →
      op.Within held ∧ (next reply).Clears (op.holding held reply)

namespace Activity

variable {α β : Type} {held : List Stub}

theorem Clears.bind {a : Activity α} {f : α → Activity β} (h : a.Clears held)
    (hf : ∀ x, (f x).Clears []) : (a >>= f).Clears held := by
  show (Activity.bind a f).Clears held
  induction a generalizing held with
  | done x =>
    obtain rfl : held = [] := h
    exact hf x
  | abort => exact h
  | step op next ih => exact fun reply ha => ⟨(h reply ha).1, ih reply (h reply ha).2⟩

/-- An operation that is not about chunks. -/
theorem clears_perform {op : Op} {f : op.Reply → Activity β} (hw : op.Within [])
    (hh : ∀ reply, op.holding [] reply = []) (hf : ∀ reply, (f reply).Clears []) :
    (perform op >>= f).Clears [] := by
  refine fun reply _ => ⟨hw, ?_⟩
  rw [hh]
  exact hf reply

end Activity

namespace Copy

def Trail.stubs (g : Trail) : List Stub := g.hand.map (·.chunk.stub)

/-- A trail says what is in hand. -/
theorem Trail.Step.holding {r : Request} {limit : Nat} {g g' : Trail} {op : Op} {reply : op.Reply}
    (h : Step r limit g op reply g') :
    op.Within g.stubs ∧ op.holding g.stubs reply = g'.stubs := by
  cases h with
  | openFirst | openNext | refuse | count | report => exact ⟨trivial, rfl⟩
  | fill hand => simp [Op.Within, Op.holding, stubs]
  | handOver | finish | abandon => simp [Op.Within, Op.holding, stubs]

theorem Follows.clears {r : Request} {limit : Nat} {post : CopyOutcome → Trail → Prop}
    {a : Activity CopyOutcome} {g : Trail} (h : Follows r limit post a g)
    (hpost : ∀ o g, post o g → g.hand = []) : a.Clears g.stubs := by
  induction a generalizing g with
  | done o =>
    show g.stubs = []
    rw [Trail.stubs, hpost o g h]
    rfl
  | abort =>
    show g.stubs = []
    rw [Trail.stubs, h.1]
    rfl
  | step op next ih =>
    intro reply ha
    obtain ⟨g', hstep, hnext⟩ := h reply ha
    obtain ⟨hwithin, hholding⟩ := hstep.holding
    rw [hholding]
    exact ⟨hwithin, ih reply hnext⟩

theorem Call.clears (call : Call) : call.activity.Clears [] :=
  call.follows_ends.clears fun _ _ he => he.hand_eq

end Copy

theorem Writer.clears_encodeField (w : Writer) (source : AddressSpace) (addr : Nat)
    (domain : TrustDomain) (settings : CopySettings) :
    (w.encodeField source addr domain settings).Clears [] := by
  have hread : (w.readField source addr domain settings).Clears [] := by
    unfold readField
    split
    · rfl
    · split
      · exact Activity.clears_perform trivial (fun _ => rfl) fun _ => rfl
      · split
        · rfl
        · have hcall := Copy.Call.clears ⟨w, source, addr, domain, settings, .untilTerminator⟩
          exact hcall.bind fun _ => rfl
  refine hread.bind fun field => ?_
  split
  · exact Activity.clears_perform trivial (fun _ => rfl) fun _ => rfl
  · rfl

structure Writer.Shares (ids tally : Nat) (w : Writer) : Prop where
  ids_eq : w.ids = ids
  tally_eq : w.tally = tally

inductive Errand where
  | copy (call : Copy.Call)
  | field (w : Writer) (source : AddressSpace) (addr : Nat) (domain : TrustDomain)
      (settings : CopySettings)

namespace Errand

def writer : Errand → Writer
  | copy call => call.writer
  | field w .. => w

def settings : Errand → CopySettings
  | copy call => call.settings
  | field _ _ _ _ settings => settings

def activity : Errand → Activity Unit
  | copy call => call.activity >>= fun _ => pure ()
  | field w source addr domain settings =>
    w.encodeField source addr domain settings >>= fun _ => pure ()

theorem clears (e : Errand) : e.activity.Clears [] := by
  cases e with
  | copy call => exact call.clears.bind fun _ => rfl
  | field w source addr domain settings =>
    exact (w.clears_encodeField source addr domain settings).bind fun _ => rfl

theorem always (e : Errand) : e.activity.Always (e.writer.Does e.settings) fun _ => True := by
  cases e with
  | copy call => exact call.writer.always_call call.settings call rfl rfl fun _ => trivial
  | field w source addr domain settings =>
    exact (w.always_encodeField settings source addr domain).bind fun _ _ => trivial

end Errand

/-- A copy or an encoding that is under way, with the chunks that it has in hand. -/
structure Job where
  rest : Activity Unit
  held : List Stub := []

/-- A job that will do nothing more. -/
def Job.IsOver (job : Job) : Prop := job.rest = .done () ∨ job.rest = .abort

/-- Everything that is shared, and who has which chunk. -/
structure Custody where
  shared : Shared
  /-- Chunks in the hands of producers that open and end them one by one. -/
  loose : List OpenChunk := []
  jobs : List Job := []
  /-- The chunks that were opened, in their order. -/
  opened : List ChunkId := []
  dropped : Nat := 0

namespace Custody

/-- The chunks that have not ended. -/
def stillOpen (x : Custody) : Nat := x.loose.length + (x.jobs.map (·.held.length)).sum

/-- What may happen next around the given identifiers and the given tally. -/
inductive Step (ids tally : Nat) : Custody → Custody → Prop where
  | opens {x : Custody} {w : Writer} {size : SizeClass} {chunk : OpenChunk} {s : Shared}
      (hw : w.Shares ids tally) (h : x.shared.openChunk w size = (.ok chunk, s)) :
      Step ids tally x
        { x with shared := s, loose := x.loose ++ [chunk], opened := x.opened ++ [chunk.id] }
  | refuse {x : Custody} {w : Writer} {size : SizeClass} {e : ReserveError} {s : Shared}
      (hw : w.Shares ids tally) (h : x.shared.openChunk w size = (.error e, s)) :
      Step ids tally x { x with shared := s }
  | fill {x : Custody} {pre post : List OpenChunk} {chunk : OpenChunk}
      (h : x.loose = pre ++ chunk :: post) (data : Bytes) :
      Step ids tally x
        { x with
          shared := x.shared.fillChunk chunk data
          loose := pre ++ chunk.filled data :: post }
  | link {x : Custody} {pre post : List OpenChunk} {chunk : OpenChunk}
      (h : x.loose = pre ++ chunk :: post) (next : ChunkId) :
      Step ids tally x { x with loose := pre ++ chunk.linked next :: post }
  | commit {x : Custody} {pre post : List OpenChunk} {chunk : OpenChunk}
      (h : x.loose = pre ++ chunk :: post) :
      Step ids tally x { x with shared := x.shared.commitChunk chunk, loose := pre ++ post }
  | discard {x : Custody} {pre post : List OpenChunk} {chunk : OpenChunk}
      (h : x.loose = pre ++ chunk :: post) :
      Step ids tally x { x with shared := x.shared.discardChunk chunk, loose := pre ++ post }
  | drop {x : Custody} {pre post : List OpenChunk} {chunk : OpenChunk}
      (h : x.loose = pre ++ chunk :: post) :
      Step ids tally x
        { x with
          shared := x.shared.abandonChunk chunk
          loose := pre ++ post
          dropped := x.dropped + 1 }
  | start {x : Custody} (e : Errand) (hw : e.writer.Shares ids tally) :
      Step ids tally x { x with jobs := x.jobs ++ [⟨e.activity, []⟩] }
  /-- One operation of one of the jobs. -/
  | turn {x : Custody} {pre post : List Job} {held : List Stub} {op : Op}
      {next : op.Reply → Activity Unit} (h : x.jobs = pre ++ ⟨.step op next, held⟩ :: post) :
      Step ids tally x
        { x with
          shared := (op.perform x.shared).2
          jobs := pre ++ ⟨next (op.perform x.shared).1,
            op.holding held (op.perform x.shared).1⟩ :: post
          opened := x.opened ++ (op.opens? (op.perform x.shared).1).toList
          dropped := x.dropped + op.drops }
  /-- Others do something that concerns neither the identifiers nor the chunks in the tally. -/
  | beside {x : Custody} {s : Shared}
      (hids : s.allocators.get ids = x.shared.allocators.get ids)
      (hended : ∀ d, d = .chunksCommitted ∨ d = .chunksDiscarded →
        (s.tallies.get tally).get d = (x.shared.tallies.get tally).get d) :
      Step ids tally x { x with shared := s }

abbrev Run (ids tally : Nat) : Custody → Custody → Prop := Relation.ReflTransGen (Step ids tally)

structure Keeps (ids tally : Nat) (job : Job) : Prop where
  clears : job.rest.Clears job.held
  does : ∃ (w : Writer) (settings : CopySettings), w.Shares ids tally ∧
    job.rest.Always (w.Does settings) fun _ => True
  counted : ∀ stub ∈ job.held, stub.tally = tally

/-- The identifiers are those of the chunks, and each chunk is in one place. -/
structure Accounts (ids tally : Nat) (s₀ : Shared) (x : Custody) : Prop where
  issued : (s₀.allocators.get ids).serve (x.opened.map (·.shard)) =
    (x.opened, x.shared.allocators.get ids)
  balance : x.opened.length + s₀.ended tally = x.shared.ended tally + x.dropped + x.stillOpen
  loose : ∀ chunk ∈ x.loose, chunk.tally = tally
  jobs : ∀ job ∈ x.jobs, Keeps ids tally job

variable {ids tally : Nat} {s₀ : Shared} {x y : Custody}

theorem Accounts.initial (ids tally : Nat) (s₀ : Shared) :
    Accounts ids tally s₀ ⟨s₀, [], [], [], 0⟩ :=
  ⟨rfl, by simp [stillOpen], nofun, nofun⟩

/-- The identifiers go on with the chunk that was opened. -/
theorem Accounts.issue (h : Accounts ids tally s₀ x) {w : Writer} (hw : w.Shares ids tally)
    {size : SizeClass} {chunk : OpenChunk} {s : Shared}
    (ho : x.shared.openChunk w size = (.ok chunk, s)) :
    (s₀.allocators.get ids).serve ((x.opened ++ [chunk.id]).map (·.shard)) =
      (x.opened ++ [chunk.id], s.allocators.get ids) := by
  obtain ⟨-, hid, hallocators, -⟩ := Shared.openChunk_issues ho
  have hshard : chunk.id.shard = w.shard := by rw [hid, Allocator.shard_allocate]
  have hget : s.allocators.get ids = ((x.shared.allocators.get ids).allocate w.shard).2 := by
    rw [hallocators, hw.ids_eq, Sparse.get_set_same]
  rw [List.map_append, List.map_singleton, Allocator.serve_snoc, h.issued, hshard, hget, hid,
    hw.ids_eq]

theorem ended_openChunk_error {w : Writer} {size : SizeClass} {e : ReserveError} {s s' : Shared}
    (h : s.openChunk w size = (.error e, s')) : s'.ended tally = s.ended tally := by
  obtain ⟨-, -, hget⟩ := Shared.openChunk_refused h
  refine Shared.ended_of_get fun d hd => ?_
  rw [hget, if_neg, Nat.add_zero]
  rintro ⟨-, rfl, -⟩
  simp at hd

/-- What an operation of a job adds to the one side of the account it adds to the other. -/
theorem Keeps.turn_balance {op : Op} {next : op.Reply → Activity Unit} {held : List Stub}
    (h : Keeps ids tally ⟨.step op next, held⟩) (s : Shared) :
    (op.perform s).2.ended tally + op.drops + (op.holding held (op.perform s).1).length =
      s.ended tally + held.length + (op.opens? (op.perform s).1).toList.length := by
  have hwithin := (h.clears _ (op.answers_perform s)).1
  obtain ⟨w, settings, hw, hdoes, -⟩ := h.does
  have hcount {chunk : OpenChunk} (hc : chunk.stub ∈ held) : chunk.tally = tally :=
    h.counted _ hc
  cases op with
  | openChunk v c =>
    simp only [Op.perform]
    rcases ho : s.openChunk v c with ⟨e | chunk, s'⟩
    · simp [ended_openChunk_error ho, Op.drops, Op.holding, Op.opens?]
    · obtain ⟨-, -, -, htallies⟩ := Shared.openChunk_issues ho
      simp only [Shared.ended, htallies, Op.drops, Op.holding, Op.opens?, List.length_append,
        List.length_singleton, Option.toList_some]
      omega
  | fillChunk chunk data => rfl
  | commitChunk chunk | abandonChunk chunk =>
    have hlen : (held.erase chunk.stub).length + 1 = held.length :=
      List.length_erase_add_one hwithin
    simp only [Op.perform, Shared.ended_commitChunk, if_pos (hcount hwithin),
      Shared.ended_abandonChunk, Op.drops, Op.holding, Op.opens?, Option.toList_none,
      List.length_nil]
    omega
  | count t c =>
    have hended : (s.count t c).ended tally = s.ended tally := by
      rw [Shared.ended_count, if_neg, Nat.add_zero]
      rintro ⟨-, rfl | rfl⟩ <;> simp [Writer.Does] at hdoes
    simp only [Op.perform, hended, Op.drops, Op.holding, Op.opens?, Option.toList_none,
      List.length_nil]
    omega
  | report e => rfl
  | reserve => exact hdoes.elim
  | commitRecord => exact hdoes.elim

/-- A job goes on as it began. -/
theorem Keeps.turn {op : Op} {next : op.Reply → Activity Unit} {held : List Stub}
    (h : Keeps ids tally ⟨.step op next, held⟩) (s : Shared) :
    Keeps ids tally ⟨next (op.perform s).1, op.holding held (op.perform s).1⟩ := by
  have hanswers := op.answers_perform s
  obtain ⟨w, settings, hw, hdoes, hnext⟩ := h.does
  refine ⟨(h.clears _ hanswers).2, ⟨w, settings, hw, hnext s⟩, ?_⟩
  cases op with
  | openChunk v c =>
    obtain ⟨rfl, -⟩ := hdoes
    dsimp only
    rcases ho : (Op.perform (.openChunk v c) s).1 with e | chunk
    · exact h.counted
    · rw [ho] at hanswers
      intro stub hstub
      rcases List.mem_append.mp hstub with hold | hnew
      · exact h.counted stub hold
      · obtain rfl := List.mem_singleton.mp hnew
        exact (Writer.Opens.tally_eq hanswers).trans hw.tally_eq
  | commitChunk | abandonChunk =>
    exact fun stub hstub => h.counted stub (List.mem_of_mem_erase hstub)
  | fillChunk | count | report => exact h.counted
  | reserve | commitRecord => exact hdoes.elim

/-- The identifiers that a job takes are those of the chunks that it opens. -/
theorem Accounts.issue_turn (h : Accounts ids tally s₀ x) {op : Op}
    {next : op.Reply → Activity Unit} {held : List Stub} (hj : Keeps ids tally ⟨.step op next, held⟩) :
    (s₀.allocators.get ids).serve
        ((x.opened ++ (op.opens? (op.perform x.shared).1).toList).map (·.shard)) =
      (x.opened ++ (op.opens? (op.perform x.shared).1).toList,
        (op.perform x.shared).2.allocators.get ids) := by
  obtain ⟨w, settings, hw, hdoes, -⟩ := hj.does
  have hnone (hids : (op.perform x.shared).2.allocators.get ids = x.shared.allocators.get ids) :
      (s₀.allocators.get ids).serve ((x.opened ++ ([] : List ChunkId)).map (·.shard)) =
        (x.opened ++ [], (op.perform x.shared).2.allocators.get ids) := by
    rw [List.append_nil, hids]
    exact h.issued
  cases op with
  | openChunk v c =>
    obtain ⟨rfl, -⟩ := hdoes
    simp only [Op.perform] at hnone ⊢
    rcases ho : x.shared.openChunk v c with ⟨e | chunk, s'⟩
    · rw [ho] at hnone
      exact hnone (by rw [(Shared.openChunk_refused ho).1])
    · exact h.issue hw ho
  | fillChunk | commitChunk | abandonChunk | count | report => exact hnone rfl
  | reserve | commitRecord => exact hdoes.elim

/-- What happens to chunks in the hands of producers. -/
theorem Accounts.handle (h : Accounts ids tally s₀ x) {s : Shared} {loose : List OpenChunk}
    {dropped : Nat} (hids : s.allocators.get ids = x.shared.allocators.get ids)
    (hloose : ∀ chunk ∈ loose, chunk.tally = tally)
    (hbalance : s.ended tally + dropped + loose.length =
      x.shared.ended tally + x.dropped + x.loose.length) :
    Accounts ids tally s₀ { x with shared := s, loose, dropped } := by
  have hold := h.balance
  refine ⟨by rw [hids]; exact h.issued, ?_, hloose, h.jobs⟩
  simp only [stillOpen] at hold ⊢
  omega

theorem Accounts.of_loose (h : Accounts ids tally s₀ x) {pre post : List OpenChunk}
    {chunk : OpenChunk} (hl : x.loose = pre ++ chunk :: post) :
    chunk.tally = tally ∧ (∀ c ∈ pre ++ post, c.tally = tally) ∧
      x.loose.length = (pre ++ post).length + 1 := by
  have hall := h.loose
  rw [hl, List.forall_mem_append, List.forall_mem_cons] at hall
  refine ⟨hall.2.1, List.forall_mem_append.mpr ⟨hall.1, hall.2.2⟩, ?_⟩
  simp only [hl, List.length_append, List.length_cons]
  omega

/-- A chunk that is changed stays in hand. -/
theorem Accounts.change (h : Accounts ids tally s₀ x) {pre post : List OpenChunk}
    {chunk : OpenChunk} (hl : x.loose = pre ++ chunk :: post) (chunk' : OpenChunk)
    (ht : chunk'.tally = chunk.tally) (s : Shared)
    (hids : s.allocators.get ids = x.shared.allocators.get ids)
    (hended : s.ended tally = x.shared.ended tally) :
    Accounts ids tally s₀ { x with shared := s, loose := pre ++ chunk' :: post } := by
  have hall := h.loose
  rw [hl, List.forall_mem_append, List.forall_mem_cons, ← ht] at hall
  refine h.handle hids (List.forall_mem_append.mpr ⟨hall.1, List.forall_mem_cons.mpr hall.2⟩) ?_
  simp only [hended, hl, List.length_append, List.length_cons]

/-- Whatever happens next, the account is kept. -/
theorem Accounts.step (h : Accounts ids tally s₀ x) (hs : Step ids tally x y) :
    Accounts ids tally s₀ y := by
  have hbalance := h.balance
  cases hs with
  | @opens w size chunk s hw ho =>
    obtain ⟨htally, -, -, htallies⟩ := Shared.openChunk_issues ho
    refine ⟨h.issue hw ho, ?_, ?_, h.jobs⟩
    · simp only [stillOpen, Shared.ended, htallies, List.length_append, List.length_singleton]
        at hbalance ⊢
      omega
    · exact List.forall_mem_append.mpr
        ⟨h.loose, List.forall_mem_singleton.mpr (htally.trans hw.tally_eq)⟩
  | refuse hw ho =>
    refine h.handle (by rw [(Shared.openChunk_refused ho).1]) h.loose ?_
    rw [ended_openChunk_error ho]
  | @fill pre post chunk hl data =>
    exact h.change hl (chunk.filled data) rfl (x.shared.fillChunk chunk data) rfl rfl
  | @link pre post chunk hl next => exact h.change hl (chunk.linked next) rfl x.shared rfl rfl
  | commit hl =>
    obtain ⟨htally, hrest, hlen⟩ := h.of_loose hl
    refine h.handle rfl hrest ?_
    rw [Shared.ended_commitChunk, if_pos htally, hlen]
    omega
  | discard hl =>
    obtain ⟨htally, hrest, hlen⟩ := h.of_loose hl
    refine h.handle rfl hrest ?_
    rw [Shared.ended_discardChunk, if_pos htally, hlen]
    omega
  | drop hl =>
    obtain ⟨-, hrest, hlen⟩ := h.of_loose hl
    refine h.handle rfl hrest ?_
    rw [Shared.ended_abandonChunk, hlen]
    omega
  | start e hw =>
    refine ⟨h.issued, ?_, h.loose, List.forall_mem_append.mpr ⟨h.jobs, ?_⟩⟩
    · simpa [stillOpen] using hbalance
    · exact List.forall_mem_singleton.mpr ⟨e.clears, ⟨e.writer, e.settings, hw, e.always⟩, nofun⟩
  | @turn pre post held op next hj =>
    have hall := h.jobs
    rw [hj, List.forall_mem_append, List.forall_mem_cons] at hall
    obtain ⟨hpre, hjob, hpost⟩ := hall
    have hturn := hjob.turn_balance x.shared
    refine ⟨h.issue_turn hjob, ?_, h.loose, List.forall_mem_append.mpr
      ⟨hpre, List.forall_mem_cons.mpr ⟨hjob.turn x.shared, hpost⟩⟩⟩
    simp only [stillOpen, hj, List.map_append, List.map_cons, List.sum_append, List.sum_cons,
      List.length_append] at hbalance ⊢
    omega
  | beside hids hended =>
    exact h.handle hids h.loose (by rw [Shared.ended_of_get hended])

theorem Accounts.run (h : Accounts ids tally s₀ x) (hr : Run ids tally x y) :
    Accounts ids tally s₀ y := by
  induction hr with
  | refl => exact h
  | tail _ hs ih => exact ih.step hs

/-- At every moment the identifiers that were handed out are those of the chunks that were opened,
one for each, and each of these chunks was committed, discarded or given up, or is still open: in
the hands of a producer or of a job that has not ended. The tally counts the first two. A chunk that
is refused changes neither the identifiers nor the channel, and is counted just if the channel was
full. -/
theorem every_chunk_is_accounted_for (h : Run ids tally ⟨s₀, [], [], [], 0⟩ x) :
    (s₀.allocators.get ids).serve (x.opened.map (·.shard)) =
      (x.opened, x.shared.allocators.get ids) ∧
    x.opened.length + (s₀.tallies.get tally).chunksCommitted +
        (s₀.tallies.get tally).chunksDiscarded =
      (x.shared.tallies.get tally).chunksCommitted + (x.shared.tallies.get tally).chunksDiscarded +
        x.dropped + x.stillOpen ∧
    (∀ job ∈ x.jobs, job.IsOver → job.held = []) ∧
    ∀ (w : Writer) (size : SizeClass) (e : ReserveError) (s : Shared),
      x.shared.openChunk w size = (.error e, s) →
        s.allocators = x.shared.allocators ∧
        (e ≠ .overflow → ∀ n, s.regions.get n = x.shared.regions.get n) ∧
        ∀ n d, (s.tallies.get n).get d = (x.shared.tallies.get n).get d +
          if w.tally = n ∧ .chunksRefused = d ∧ e.isFull = true then 1 else 0 := by
  have haccounts := (Accounts.initial ids tally s₀).run h
  refine ⟨haccounts.issued, ?_, fun job hj hover => ?_, fun w size e s => Shared.openChunk_refused⟩
  · have hbalance := haccounts.balance
    simp only [Shared.ended] at hbalance
    omega
  · have hclears := (haccounts.jobs job hj).clears
    rcases hover with hover | hover <;> rwa [hover] at hclears

/-- A chunk that is opened and dropped is in neither count. -/
theorem every_chunk_is_accounted_for_of_dropped : ∃ x : Custody,
    Run 0 0 ⟨Traffic.firstShared, [], [], [], 0⟩ x ∧ x.opened = [.compose 7 1] ∧ x.dropped = 1 ∧
      (x.shared.tallies.get 0).chunksCommitted = 0 ∧
      (x.shared.tallies.get 0).chunksDiscarded = 0 ∧ x.stillOpen = 0 := by
  have hopen : Traffic.firstShared.openChunk Workshop.firstWriter (.custom 4) =
    (.ok (Draft.opened ⟨Traffic.firstChannel, ⟨0, 28⟩⟩ (.custom 4) (.compose 7 1) 0).chunk,
      (Traffic.firstShared.openChunk Workshop.firstWriter (.custom 4)).2) := rfl
  have hrun : Run 0 0 ⟨Traffic.firstShared, [], [], [], 0⟩ _ :=
    (Relation.ReflTransGen.single (.opens ⟨rfl, rfl⟩ hopen)).tail (.drop (List.nil_append _).symm)
  obtain ⟨-, hbalance, -⟩ := every_chunk_is_accounted_for hrun
  refine ⟨_, hrun, rfl, rfl, rfl, rfl, ?_⟩
  exact Nat.add_left_cancel (hbalance.symm.trans rfl)

end Custody
end ChainRelay
