/-!
Why received bytes are refused.
-/

namespace ChainRelay

inductive DecodeError where
  | short (need got : Nat)
  | version (found : UInt8)
  | recordType (found : UInt8)
  | sizeClass (found : UInt8)
  | fieldTag (found : UInt8)
  | copyStatus (found : UInt8)
  | length (len capacity : Nat)
  | unterminated (len : Nat)
  deriving DecidableEq

def DecodeError.message : DecodeError → String
  | short need got => s!"short buffer: need {need} bytes, got {got}"
  | version found => s!"unsupported format version {found}"
  | recordType found => s!"unknown record type {found}"
  | sizeClass found => s!"unknown chunk size class {found}"
  | fieldTag found => s!"unknown string field tag {found}"
  | copyStatus found => s!"unknown copy status {found}"
  | length len capacity => s!"effective length {len} exceeds payload capacity {capacity}"
  | unterminated len => s!"inline string of {len} bytes is not NUL-terminated"

/-- What was decoded in two steps was decoded in each of them. -/
theorem bind_eq_ok_iff {α β : Type} {x : Except DecodeError α} {f : α → Except DecodeError β}
    {b : β} : x >>= f = .ok b ↔ ∃ a, x = .ok a ∧ f a = .ok b := by
  cases x with
  | error e => exact ⟨nofun, nofun⟩
  | ok a =>
    constructor
    · exact fun h => ⟨a, rfl, h⟩
    · rintro ⟨a', ha, hb⟩
      cases ha
      exact hb

theorem map_eq_ok_iff {α β : Type} {x : Except DecodeError α} {f : α → β} {b : β} :
    x.map f = .ok b ↔ ∃ a, x = .ok a ∧ f a = b := by
  cases x with
  | error e => exact ⟨nofun, nofun⟩
  | ok a => simp [Except.map]

end ChainRelay
