import ChainRelay.Allocator
import ChainRelay.Directory
import ChainRelay.Event
import ChainRelay.Tally

/-!
Everything that producers and consumers share: the system they run on, the bytes of every region,
the directory of named regions, the identifier counters, the tallies and the reported events.
-/

namespace ChainRelay

structure Shared where
  system : System := {}
  regions : Sparse Memory := .const .blank
  /-- Regions from this number on were never used. -/
  freshRegion : Nat := 0
  directory : Directory := {}
  allocators : Sparse Allocator := .const {}
  tallies : Sparse Tally := .const {}
  /-- What was reported, the latest first. -/
  events : List Event := []

namespace Shared

def onRegion (s : Shared) (region : Nat) (f : Memory → Memory) : Shared :=
  { s with regions := s.regions.modify region f }

def withRegion (s : Shared) (region : Nat) (f : Memory → α × Memory) : α × Shared :=
  let (answer, m) := f (s.regions.get region)
  (answer, { s with regions := s.regions.set region m })

def report (s : Shared) (e : Event) : Shared := { s with events := e :: s.events }

def reported (s : Shared) : List Event := s.events.reverse

def count (s : Shared) (tally : Nat) (c : Counter) : Shared :=
  { s with tallies := s.tallies.modify tally (·.bump c) }

theorem get_count (s : Shared) (tally n : Nat) (c d : Counter) :
    ((s.count tally c).tallies.get n).get d =
      (s.tallies.get n).get d + if tally = n ∧ c = d then 1 else 0 := by
  simp only [count, Sparse.get_modify]
  split
  · rw [Tally.get_bump]
    split <;> simp_all
  · simp_all

end Shared
end ChainRelay
