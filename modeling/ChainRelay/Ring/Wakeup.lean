import ChainRelay.Ring.Receive
import ChainRelay.Ring.Reserve

/-!
Sleeping and waking, one atomic step at a time. A consumer remembers the signal word, looks for a
record, registers as a waiter, and falls asleep only if the word has not moved since. A producer
that finalizes a record moves the word after the record is published, and wakes a sleeper if it
then finds one registered.
-/

namespace ChainRelay.Ring

/-- What a consumer that waits for a record does next. -/
inductive Waiter where
  /-- Reads the signal word. -/
  | looking
  /-- Tries to receive, having seen the signal word at `seen`. -/
  | trying (seen : Nat)
  /-- Registers as a waiter. -/
  | registering (seen : Nat)
  /-- Falls asleep if the signal word is still `seen`. -/
  | deciding (seen : Nat)
  | asleep (seen : Nat)
  /-- Gives up its registration and starts again. -/
  | leaving
  | served (record : Bytes)
  | failed
  deriving DecidableEq

/-- What a producer that finalizes a record does next. -/
inductive Finalizer where
  /-- Stores the final word of the record. -/
  | publishing
  /-- Moves the signal word. -/
  | announcing
  /-- Looks for registered waiters. -/
  | checking
  /-- Wakes one sleeper. -/
  | waking
  | finished
  deriving DecidableEq

namespace Waiter

def wake : Waiter → Waiter
  | asleep _ => leaving
  | w => w

/-- One step of the consumer. A sleeper stays where it is. -/
def step (b : Band) : Waiter → Memory → Waiter × Memory
  | looking, m => (trying (signal m), m)
  | trying seen, m =>
    match b.receive m with
    | (.ok (some record), m) => (served record, m)
    | (.ok none, m) => (registering seen, m)
    | (.error _, m) => (failed, m)
  | registering seen, m => (deciding seen, setWaiters m (waiters m + 1))
  | deciding seen, m => (if signal m = seen then asleep seen else leaving, m)
  | leaving, m => (looking, setWaiters m (waiters m + 0xFFFFFFFF))
  | w, m => (w, m)

end Waiter

namespace Finalizer

/-- One step of a producer that finalizes `slot`; it may wake the consumer. -/
def step (b : Band) (slot : Slot) (discard : Bool) :
    Finalizer → Waiter → Memory → Finalizer × Waiter × Memory
  | publishing, w, m =>
    let m := b.publish slot discard m
    (if notifies m then announcing else finished, w, m)
  | announcing, w, m => (checking, w, announce m)
  | checking, w, m => (if waiters m = 0 then finished else waking, w, m)
  | waking, w, m => (finished, w.wake, m)
  | finished, w, m => (finished, w, m)

def run (b : Band) (slot : Slot) (discard : Bool) (w : Waiter) (m : Memory) : Waiter × Memory :=
  let (f, w, m) := publishing.step b slot discard w m
  let (f, w, m) := f.step b slot discard w m
  let (f, w, m) := f.step b slot discard w m
  let (_, w, m) := f.step b slot discard w m
  (w, m)

end Finalizer
end ChainRelay.Ring
