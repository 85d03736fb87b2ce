import ChainRelay.Writer

/-!
Producers' activities: what a producer does, as a tree of operations on the shared state. Each
operation is indivisible; what comes next may depend on the reply. An activity can be run to its
end at once, or one operation at a time between those of others.
-/

namespace ChainRelay

/-- An operation that touches at most one channel. -/
inductive Op where
  | openChunk (w : Writer) (c : SizeClass)
  | fillChunk (c : OpenChunk) (data : Bytes)
  | commitChunk (c : OpenChunk)
  | abandonChunk (c : OpenChunk)
  | reserve (channel : Channel) (size : Nat)
  /-- Writes a whole record and makes it visible. -/
  | commitRecord (r : Reservation) (record : Bytes)
  | count (tally : Nat) (c : Counter)
  | report (e : Event)
  deriving DecidableEq

namespace Op

abbrev Reply : Op → Type
  | openChunk .. => Except ReserveError OpenChunk
  | reserve .. => Except ReserveError Reservation
  | _ => Unit

def perform : (op : Op) → Shared → op.Reply × Shared
  | openChunk w c, s => s.openChunk w c
  | fillChunk c data, s => ((), s.fillChunk c data)
  | commitChunk c, s => ((), s.commitChunk c)
  | abandonChunk c, s => ((), s.abandonChunk c)
  | reserve channel size, s => channel.reserve size s
  | commitRecord r record, s => ((), r.commit (r.write 0 record s))
  | count tally c, s => ((), s.count tally c)
  | report e, s => ((), s.report e)

end Op

inductive Activity (α : Type) where
  | done (a : α)
  /-- Arithmetic left its range; there is no answer. -/
  | abort
  | step (op : Op) (next : op.Reply → Activity α)

namespace Activity

variable {α β : Type}

def bind : Activity α → (α → Activity β) → Activity β
  | done a, f => f a
  | abort, _ => abort
  | step op next, f => step op fun reply => bind (next reply) f

instance : Monad Activity where
  pure := done
  bind := bind

def perform (op : Op) : Activity op.Reply := step op done

/-- Runs an activity with no other party in between. -/
def run : Activity α → Shared → Except Overflow α × Shared
  | done a, s => (.ok a, s)
  | abort, s => (.error .overflow, s)
  | step op next, s => run (next (op.perform s).1) (op.perform s).2

/-- Runs the first operation only. -/
def advance : Activity α → Shared → Activity α × Shared
  | step op next, s => (next (op.perform s).1, (op.perform s).2)
  | a, s => (a, s)

@[simp] theorem run_pure (a : α) (s : Shared) : (pure a : Activity α).run s = (.ok a, s) := rfl

@[simp] theorem run_perform (op : Op) (s : Shared) :
    (perform op).run s = (.ok (op.perform s).1, (op.perform s).2) := rfl

theorem run_bind (a : Activity α) (f : α → Activity β) (s : Shared) :
    (a >>= f).run s =
      match a.run s with
      | (.ok x, s) => (f x).run s
      | (.error e, s) => (.error e, s) := by
  show (Activity.bind a f).run s = _
  induction a generalizing s with
  | done a => rfl
  | abort => rfl
  | step op next ih => exact ih _ _

/-- Advancing an activity does not change what a run of it gives. -/
theorem run_advance (a : Activity α) (s : Shared) :
    (a.advance s).1.run (a.advance s).2 = a.run s := by
  cases a <;> rfl

end Activity
end ChainRelay
