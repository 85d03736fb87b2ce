import ChainRelay.Text.Quoted

/-!
Chunk identifiers: sixteen bits name the shard that made the chunk, forty-eight count within it.
The number zero names no chunk.
-/

namespace ChainRelay

structure ChunkId where
  raw : UInt64
  deriving DecidableEq, Inhabited

namespace ChunkId

def sequenceRange : Nat := 0x1000000000000

def none : ChunkId := ⟨0⟩

def compose (shard : UInt16) (sequence : UInt64) : ChunkId :=
  ⟨.ofNat (shard.toNat * sequenceRange + sequence.toNat % sequenceRange)⟩

def shard (id : ChunkId) : UInt16 := .ofNat (id.raw.toNat / sequenceRange)

def sequence (id : ChunkId) : Nat := id.raw.toNat % sequenceRange

def isNone (id : ChunkId) : Bool := id.raw == 0

@[simp] theorem isNone_none : none.isNone = true := rfl

theorem isNone_iff (id : ChunkId) : id.isNone = true ↔ id = none := by
  cases id; simp [isNone, none]

theorem toNat_raw_compose (shard : UInt16) (sequence : UInt64) :
    (compose shard sequence).raw.toNat =
      shard.toNat * sequenceRange + sequence.toNat % sequenceRange := by
  have hs := shard.toNat_lt
  have hq := Nat.mod_lt sequence.toNat (show 0 < sequenceRange by decide)
  simp only [compose, UInt64.toNat_ofNat']
  apply Nat.mod_eq_of_lt
  simp only [sequenceRange] at hq ⊢
  omega

@[simp] theorem shard_compose (shard : UInt16) (sequence : UInt64) :
    (compose shard sequence).shard = shard := by
  have hq := Nat.mod_lt sequence.toNat (show 0 < sequenceRange by decide)
  apply UInt16.toNat_inj.mp
  have hs := shard.toNat_lt
  simp only [ChunkId.shard, toNat_raw_compose, UInt16.toNat_ofNat', sequenceRange] at hq ⊢
  omega

@[simp] theorem sequence_compose (shard : UInt16) (sequence : UInt64) :
    (compose shard sequence).sequence = sequence.toNat % sequenceRange := by
  simp only [ChunkId.sequence, toNat_raw_compose, sequenceRange]
  omega

def describe (id : ChunkId) : String :=
  if id.isNone then "ChunkId(none)" else s!"ChunkId({id.shard}:{id.sequence})"

def hex (id : ChunkId) : String := "0x" ++ Text.hexPadded 16 id.raw.toNat

end ChunkId
end ChainRelay
