/-!
Sizes are 64-bit words. Rounding and summing them can leave that range, which ends the computation
with an `Overflow` and no other answer.
-/

namespace ChainRelay

/-- A size or a cursor would not fit into 64 bits, or would fall below zero. -/
inductive Overflow where
  | overflow
  deriving DecidableEq

/-- Sizes and cursors are below this number. -/
def sizeLimit : Nat := 0x10000000000000000

def checkedSize (n : Nat) : Except Overflow Nat :=
  if n < sizeLimit then .ok n else .error .overflow

/-- The least power of two that is not below a number. -/
def powerAbove (n : Nat) : Nat := if n ≤ 1 then 1 else 1 <<< ((n - 1).log2 + 1)

def isPower (n : Nat) : Bool := n != 0 && 1 <<< n.log2 == n

/-- The least multiple of `step` that is not below a number. -/
def alignUp (step n : Nat) : Nat := (n + (step - 1)) / step * step

theorem le_powerAbove (n : Nat) : n ≤ powerAbove n := by
  unfold powerAbove
  split
  · assumption
  · have := Nat.lt_log2_self (n := n - 1)
    omega

theorem isPower_powerAbove (n : Nat) : isPower (powerAbove n) = true := by
  unfold powerAbove
  split
  · decide
  · simp [isPower, Nat.one_shiftLeft]

end ChainRelay
