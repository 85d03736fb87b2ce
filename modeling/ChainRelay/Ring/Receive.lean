import ChainRelay.Ring.Layout

/-!
The consumer's side of a ring. Records leave in the order of their reservation; the consumer passes
over discarded ones and waits at one that is not finished.
-/

namespace ChainRelay.Ring

structure Front where
  data : Bytes
  next : Nat
  deriving DecidableEq

namespace Band

/-- The record that a cursor stands at, past the discarded ones, whose space is released on the
way. The fuel is the distance to the end of the last reservation. -/
def frontFrom (b : Band) : (fuel cursor : Nat) → Memory → Except Overflow (Option Front) × Memory
  | 0, _, m => (.ok none, m)
  | fuel + 1, cursor, m =>
    if produced m ≤ cursor then (.ok none, m)
    else
      let pos := cursor % b.capacity
      let word := b.recordWord m pos
      if isBusy word then (.ok none, m)
      else
        let len := wordLength word
        let next := cursor + span len
        if sizeLimit ≤ next then (.error .overflow, m)
        else if isDiscarded word then frontFrom b fuel next (setConsumed m next)
        else (.ok (some ⟨m.load (b.offset + pos + recordHeaderSize) len, next⟩), m)

def front (b : Band) (m : Memory) : Except Overflow (Option Front) × Memory :=
  b.frontFrom (b.used m) (consumed m) m

/-- Takes the record at the front, if it is finished. -/
def receive (b : Band) (m : Memory) : Except Overflow (Option Bytes) × Memory :=
  match b.front m with
  | (.error e, m) => (.error e, m)
  | (.ok none, m) => (.ok none, m)
  | (.ok (some f), m) => (.ok (some f.data), setConsumed m f.next)

/-- Records are pending and the oldest is not finished. -/
def isBlocked (b : Band) (m : Memory) : Bool :=
  consumed m < produced m && isBusy (b.recordWord m (consumed m % b.capacity))

end Band
end ChainRelay.Ring
