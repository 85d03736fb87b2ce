import ChainRelay.Ring.Wakeup

/-!
How long a consumer waits for a record. One that waits endlessly sleeps until a producer wakes it.
One that waits up to a timeout sleeps for `longestNap` at most before it looks again, and gives up
when the timeout has passed. All times are in nanoseconds.
-/

namespace ChainRelay.Ring

inductive Patience where
  | endless
  | upTo (timeout : Nat)
  deriving DecidableEq

/-- The longest that a consumer with a timeout sleeps at a time; nobody may be there to wake it. -/
def longestNap : Nat := 10000000

inductive Resolve where
  | giveUp
  /-- It sleeps, and if there is a limit, no longer than that. -/
  | sleep (limit : Option Nat)
  deriving DecidableEq

/-- What it does when this much time has passed since the call. -/
def Patience.resolve : Patience → (elapsed : Nat) → Resolve
  | endless, _ => .sleep none
  | upTo timeout, elapsed =>
    if timeout ≤ elapsed then .giveUp else .sleep (some (min (timeout - elapsed) longestNap))

inductive Caller where
  /-- It goes around the loop of a waiter; its latest sleep has this limit. -/
  | waiting (waiter : Waiter) (limit : Option Nat)
  /-- It gave up. -/
  | gone
  deriving DecidableEq

namespace Caller

def arriving : Caller := waiting .looking none

/-- Where it is in the loop of a waiter, to which it comes back when it is called again. -/
def waiter : Caller → Waiter
  | waiting w _ => w
  | gone => .looking

def become : Caller → Waiter → Caller
  | waiting _ limit, w => waiting w limit
  | gone, _ => gone

def step (b : Band) (patience : Patience) (elapsed : Nat) : Caller → Memory → Caller × Memory
  | waiting (.registering seen) _, m =>
    match patience.resolve elapsed with
    | .giveUp => (gone, m)
    | .sleep limit =>
      let (w, m) := Waiter.step b (.registering seen) m
      (waiting w limit, m)
  | waiting w limit, m =>
    let (w, m) := w.step b m
    (waiting w limit, m)
  | gone, m => (gone, m)

/-- The time for which it meant to sleep is over. -/
def lapse : Caller → Caller
  | waiting w (some nap) => waiting w.wake (some nap)
  | c => c

/-- Steps until the consumer sleeps or is done, which takes at most six steps if no one else
moves. They take no time. -/
def settle (b : Band) (patience : Patience) : (fuel : Nat) → Caller → Memory → Caller × Memory
  | 0, c, m => (c, m)
  | fuel + 1, c, m =>
    let (c, m) := c.step b patience 0 m
    settle b patience fuel c m

def settled (b : Band) (patience : Patience) (c : Caller) (m : Memory) : Caller × Memory :=
  c.settle b patience 6 m

/-- A producer finalizes `slot`, which may wake the consumer. -/
def finalize (b : Band) (slot : Slot) (discard : Bool) (c : Caller) (m : Memory) :
    Caller × Memory :=
  let (w, m) := Finalizer.run b slot discard c.waiter m
  (c.become w, m)

end Caller
end ChainRelay.Ring
