import Mathlib.Logic.Relation
import ChainRelay.Proofs.Capture.Plan
import ChainRelay.Proofs.Exchange.Heads

/-!
Emissions of tasks that share a chunk channel, a record channel and an allocator, beside a consumer
that drains the chunks into a store, receives the records and resolves them. Everything that happens
is one operation on one channel. This module has the steps and what is known at every moment.
-/

namespace ChainRelay

open ChainRelay.Ring Copy

def Channel.ready (v : Channel) (s : Shared) : List Bytes :=
  match (v.receive s).1 with
  | .ok (some record) => [record]
  | _ => []

namespace Invocation

structure Uses (i : Invocation) (c d : Channel) (ids : Nat) : Prop where
  chunks : c.Views i.writer.channel
  records : d.Views i.records
  ids_eq : i.writer.ids = ids

def file (i : Invocation) (timestamp : UInt64) (capture : Activity Task) : Activity EmitOutcome :=
  capture >>= fun t => i.submit timestamp (.taskExec t)

end Invocation

/-- The chunks that an activity opens when it runs with nobody in between. -/
def Activity.openings {α : Type} : Activity α → Shared → List ChunkId
  | .done _, _ | .abort, _ => []
  | .step op next, s =>
    (op.opens? (op.perform s).1).toList ++ (next (op.perform s).1).openings (op.perform s).2

/-- How far everyone has come. -/
structure Emissions where
  shared : Shared
  store : Store
  running : List (Activity EmitOutcome) := []
  /-- The chunks that were opened. -/
  opened : List ChunkId := []
  /-- The chunk records that the store was given. -/
  drained : List Bytes := []
  received : List Bytes := []
  /-- The received records that were resolved. -/
  resolved : List Nat := []

namespace Emissions

def advance (x : Emissions) (n : Nat) (op : Op) (next : op.Reply → Activity EmitOutcome) :
    Emissions :=
  { x with
    shared := (op.perform x.shared).2
    running := x.running.set n (next (op.perform x.shared).1)
    opened := x.opened ++ (op.opens? (op.perform x.shared).1).toList }

/-- What may happen around the chunk channel `c`, the record channel `d` and the allocator number
`ids`. -/
inductive Step (c d : Channel) (ids : Nat) : Emissions → Emissions → Prop where
  | start {x : Emissions} (i : Invocation) (timestamp : UInt64) (source : TaskSnapshot)
      (task : UInt64) (hi : i.Uses c d ids) :
      Step c d ids x { x with running := x.running ++ [i.emitTask timestamp source task] }
  | advance {x : Emissions} (n : Nat) {op : Op} {next : op.Reply → Activity EmitOutcome}
      (h : x.running[n]? = some (.step op next)) : Step c d ids x (x.advance n op next)
  /-- The store takes a chunk, if there is one, before it is full. -/
  | drain {x : Emissions} {v : Channel} {answer : Store.Taken} {store : Store} {shared : Shared}
      (hv : c.Views v) (hroom : x.store.size < x.store.maxPending)
      (h : x.store.takeOne v x.shared = (.ok answer, store, shared)) :
      Step c d ids x { x with store, shared, drained := x.drained ++ v.ready x.shared }
  | receive {x : Emissions} {u : Channel} (hu : d.Views u) :
      Step c d ids x
        { x with
          shared := (u.receive x.shared).2
          received := x.received ++ u.ready x.shared }
  | resolve {x : Emissions} (m : Nat) {record : Bytes} {header : SignalHeader} {t : Task}
      (maxChunks : Nat) (h : x.received[m]? = some record)
      (ht : decodeSignal record = .ok ⟨header, .taskExec t⟩) :
      Step c d ids x
        { x with store := (x.store.resolveTask t maxChunks).2, resolved := m :: x.resolved }

theorem Step.opened {c d : Channel} {ids : Nat} {x x' : Emissions} (h : Step c d ids x x') :
    ∃ more, x'.opened = x.opened ++ more := by
  cases h with
  | advance => exact ⟨_, rfl⟩
  | start | drain | receive | resolve => exact ⟨[], (List.append_nil _).symm⟩

/-- An emission may run to its end with nobody in between. -/
theorem run_alone {c d : Channel} {ids n : Nat} {a : Activity EmitOutcome} {o : EmitOutcome}
    {s : Shared} {x : Emissions} (h : x.running[n]? = some a) (hrun : a.run x.shared = (.ok o, s)) :
    Relation.ReflTransGen (Step c d ids) x
      { x with
        shared := s
        running := x.running.set n (.done o)
        opened := x.opened ++ a.openings x.shared } := by
  induction a generalizing x with
  | done b =>
    cases hrun
    obtain ⟨hlt, hget⟩ := List.getElem?_eq_some_iff.mp h
    simp [← hget, Activity.openings, Relation.ReflTransGen.refl]
  | abort => cases hrun
  | step op next ih =>
    have hlt := (List.getElem?_eq_some_iff.mp h).1
    have hnext : (x.advance n op next).running[n]? = some (next (op.perform x.shared).1) :=
      List.getElem?_set_self hlt
    have hrest := ih _ hnext hrun
    simp only [advance, List.set_set, List.append_assoc] at hrest
    exact .head (.advance n h) hrest

def initial (s : Shared) (maxPending : Nat) : Emissions :=
  ⟨s, .ofMaxPending maxPending, [], [], [], [], []⟩

/-- The copies that the emissions make, and which emission each copy and each record belongs to. -/
structure Docket where
  exchange : Exchange
  owners : List Nat
  /-- The records on the channel. -/
  entries : List (Booking × Nat)
  /-- The emissions of the records that were received. -/
  authors : List Nat

namespace Docket

def filed (g : Docket) : List Nat := g.authors ++ g.entries.map (·.2)

/-- The heads come from finished copies of one emission, no two of the same. -/
structure Names (g : Docket) (n : Nat) (heads : List ChunkId) : Prop where
  distinct : (heads.filter (· ≠ .none)).Nodup
  reported : ∀ head ∈ heads, head ≠ .none →
    ∃ copy, g.owners[copy]? = some n ∧ g.exchange.Reported copy head

/-- The record of an emission names its chains. -/
def Files (g : Docket) (n : Nat) (record : Bytes) : Prop :=
  ∃ header t, decodeSignal record = .ok ⟨header, .taskExec t⟩ ∧ g.Names n t.heads

end Docket

def Closes {α : Type} : Activity α → Prop
  | .done _ | .abort => True
  | .step op next => op.IsAside ∧ ∀ reply, Closes (next reply)

/-- What the plan of a task keeps to. -/
abbrev Planned (i : Invocation) (heads : List ChunkId) (a : Activity Task) : Prop :=
  i.writer.Plan (fun heads t => t.WellFormed ∧ Writer.Plan.Lists heads t.heads.reverse) heads a

inductive Stage (c d : Channel) (ids : Nat) (g : Docket) (n : Nat) :
    Activity EmitOutcome → Prop where
  /-- Between two copies. -/
  | pausing {a : Activity EmitOutcome} {i : Invocation} {timestamp : UInt64} {heads : List ChunkId}
      {op : Op} {next : op.Reply → Activity Task} (hi : i.Uses c d ids) (hop : op.IsAside)
      (hplan : ∀ reply, Planned i heads (next reply)) (hnames : g.Names n heads)
      (hnew : n ∉ g.filed) (ha : a = i.file timestamp (.step op next)) : Stage c d ids g n a
  /-- In the middle of a copy. -/
  | copying {a : Activity EmitOutcome} {i : Invocation} {timestamp : UInt64} {heads : List ChunkId}
      {copy : Nat} {call : Call} {b : Activity CopyOutcome} {next : CopyOutcome → Activity Task}
      (hi : i.Uses c d ids) (hcopy : g.exchange.copies[copy]? = some ⟨call, b⟩)
      (hbusy : ∀ o, b ≠ .done o) (howner : g.owners[copy]? = some n)
      (hplan : ∀ o, Planned i (o.head :: heads) (next o)) (hnames : g.Names n heads)
      (hnew : n ∉ g.filed) (ha : a = i.file timestamp (b >>= next)) : Stage c d ids g n a
  /-- With a task captured. -/
  | captured {a : Activity EmitOutcome} {i : Invocation} {timestamp : UInt64} {t : Task}
      (hi : i.Uses c d ids) (ht : t.WellFormed) (hnames : g.Names n t.heads) (hnew : n ∉ g.filed)
      (ha : a = i.submit timestamp (.taskExec t)) : Stage c d ids g n a
  /-- With room for the record. -/
  | writing {a : Activity EmitOutcome} {r : Reservation} {k : Booking} {record : Bytes}
      {next : Activity EmitOutcome} (hentry : (k, n) ∈ g.entries) (hk : d.Holds r k)
      (hw : k.phase = .writing) (hlen : record.length = k.data.length) (hfiles : g.Files n record)
      (hnext : Closes next) (ha : a = .step (.commitRecord r record) fun _ => next) :
      Stage c d ids g n a
  | closing {a : Activity EmitOutcome} (h : Closes a) : Stage c d ids g n a

/-- Every record on the channel or received is that of one emission, and names its chains. -/
structure Records (d : Channel) (x : Emissions) (g : Docket) : Prop where
  queued : d.Queued x.shared (g.entries.map (·.1))
  entries : ∀ e ∈ g.entries, e.1.phase = .committed → g.Files e.2 e.1.data
  received : List.Forall₂ g.Files g.authors x.received
  distinct : g.filed.Nodup
  known : ∀ n ∈ g.filed, n < x.running.length

structure Base (c d : Channel) (ids : Nat) (a₀ : Allocator) (room : Nat) (x : Emissions)
    (g : Docket) (claims : List Claim) (got kept : List ChunkView) : Prop where
  course : g.exchange.Course c ids a₀ room claims got kept
  shared_eq : g.exchange.shared = x.shared
  store_eq : g.exchange.store = x.store
  opened_eq : g.exchange.openedIds = x.opened
  owners_length : g.owners.length = g.exchange.copies.length
  drained : List.Forall₂ (fun record v => decodeChunk record = .ok v) x.drained got
  records : Records d x g
  /-- Only chains of records that were resolved are taken out. -/
  collected : ∀ copy ∈ g.exchange.collected, ∃ m ∈ x.resolved, ∃ n,
    g.authors[m]? = some n ∧ g.owners[copy]? = some n

structure Order (c d : Channel) (ids : Nat) (a₀ : Allocator) (room : Nat) (x : Emissions)
    (g : Docket) (claims : List Claim) (got kept : List ChunkView) : Prop where
  base : Base c d ids a₀ room x g claims got kept
  stages : ∀ n a, x.running[n]? = some a → Stage c d ids g n a

end Emissions
end ChainRelay
