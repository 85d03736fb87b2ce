/-!
Counters of what was written and what was lost. A loss leaves no other trace.
-/

namespace ChainRelay

inductive Counter where
  | chunksCommitted
  | chunksDiscarded
  /-- Chunks refused because the channel was full. -/
  | chunksRefused
  | copiesTruncated
  | copiesFailed
  | fieldsUnavailable
  | recordsSubmitted
  | recordsDropped
  deriving DecidableEq

/-- How often each was counted. The numbers are unbounded: kept in 64 bits, they would differ only
after `2 ^ 64` events. -/
structure Tally where
  chunksCommitted : Nat := 0
  chunksDiscarded : Nat := 0
  chunksRefused : Nat := 0
  copiesTruncated : Nat := 0
  copiesFailed : Nat := 0
  fieldsUnavailable : Nat := 0
  recordsSubmitted : Nat := 0
  recordsDropped : Nat := 0
  deriving DecidableEq

namespace Tally

def get (t : Tally) : Counter → Nat
  | .chunksCommitted => t.chunksCommitted
  | .chunksDiscarded => t.chunksDiscarded
  | .chunksRefused => t.chunksRefused
  | .copiesTruncated => t.copiesTruncated
  | .copiesFailed => t.copiesFailed
  | .fieldsUnavailable => t.fieldsUnavailable
  | .recordsSubmitted => t.recordsSubmitted
  | .recordsDropped => t.recordsDropped

def bump (t : Tally) : Counter → Tally
  | .chunksCommitted => { t with chunksCommitted := t.chunksCommitted + 1 }
  | .chunksDiscarded => { t with chunksDiscarded := t.chunksDiscarded + 1 }
  | .chunksRefused => { t with chunksRefused := t.chunksRefused + 1 }
  | .copiesTruncated => { t with copiesTruncated := t.copiesTruncated + 1 }
  | .copiesFailed => { t with copiesFailed := t.copiesFailed + 1 }
  | .fieldsUnavailable => { t with fieldsUnavailable := t.fieldsUnavailable + 1 }
  | .recordsSubmitted => { t with recordsSubmitted := t.recordsSubmitted + 1 }
  | .recordsDropped => { t with recordsDropped := t.recordsDropped + 1 }

theorem get_bump (t : Tally) (c d : Counter) :
    (t.bump c).get d = if c = d then t.get d + 1 else t.get d := by
  cases c <;> cases d <;> rfl

end Tally
end ChainRelay
