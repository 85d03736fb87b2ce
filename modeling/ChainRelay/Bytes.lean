/-!
Byte strings, and the little-endian words inside them. A word of `n` bytes holds a number below
`wordRange n`; `decodeWord_encodeWord` and `encodeWord_decodeWord` say that the two forms determine
each other.
-/

namespace ChainRelay

abbrev Bytes := List UInt8

namespace Bytes

/-- The `n` low bytes of a number, least significant first. -/
def encodeWord : Nat → Nat → Bytes
  | 0, _ => []
  | n + 1, v => UInt8.ofNat v :: encodeWord n (v / 256)

/-- The number that a little-endian byte string stands for. -/
def decodeWord : Bytes → Nat
  | [] => 0
  | b :: r => b.toNat + 256 * decodeWord r

def wordRange : Nat → Nat
  | 0 => 1
  | n + 1 => 256 * wordRange n

@[simp] theorem length_encodeWord (n v : Nat) : (encodeWord n v).length = n := by
  induction n generalizing v with
  | zero => rfl
  | succ n ih => simp [encodeWord, ih]

theorem decodeWord_encodeWord (n v : Nat) : decodeWord (encodeWord n v) = v % wordRange n := by
  induction n generalizing v with
  | zero => simp [encodeWord, decodeWord, wordRange, Nat.mod_one]
  | succ n ih =>
    simp only [encodeWord, decodeWord, wordRange, ih, UInt8.toNat_ofNat', Nat.mod_mul]

theorem encodeWord_decodeWord (bs : Bytes) : encodeWord bs.length (decodeWord bs) = bs := by
  induction bs with
  | nil => rfl
  | cons b r ih =>
    have hb := b.toNat_lt
    have hdiv : (b.toNat + 256 * decodeWord r) / 256 = decodeWord r := by omega
    simp only [List.length_cons, encodeWord, decodeWord, hdiv, ih, List.cons.injEq, and_true]
    apply UInt8.toNat_inj.mp
    rw [UInt8.toNat_ofNat']
    omega

theorem decodeWord_lt (bs : Bytes) : decodeWord bs < wordRange bs.length := by
  induction bs with
  | nil => simp [decodeWord, wordRange]
  | cons b r ih =>
    have hb := b.toNat_lt
    simp only [decodeWord, List.length_cons, wordRange]
    omega

def ofUInt16 (x : UInt16) : Bytes := encodeWord 2 x.toNat
def ofUInt32 (x : UInt32) : Bytes := encodeWord 4 x.toNat
def ofUInt64 (x : UInt64) : Bytes := encodeWord 8 x.toNat

@[simp] theorem length_ofUInt16 (x : UInt16) : (ofUInt16 x).length = 2 := length_encodeWord 2 _
@[simp] theorem length_ofUInt32 (x : UInt32) : (ofUInt32 x).length = 4 := length_encodeWord 4 _
@[simp] theorem length_ofUInt64 (x : UInt64) : (ofUInt64 x).length = 8 := length_encodeWord 8 _

def slice (bs : Bytes) (offset len : Nat) : Bytes := (bs.drop offset).take len

def uint8At (bs : Bytes) (offset : Nat) : UInt8 := bs.getD offset 0
def uint16At (bs : Bytes) (offset : Nat) : UInt16 := .ofNat (decodeWord (slice bs offset 2))
def uint32At (bs : Bytes) (offset : Nat) : UInt32 := .ofNat (decodeWord (slice bs offset 4))
def uint64At (bs : Bytes) (offset : Nat) : UInt64 := .ofNat (decodeWord (slice bs offset 8))

def zeros (n : Nat) : Bytes := List.replicate n 0

@[simp] theorem length_zeros (n : Nat) : (zeros n).length = n := List.length_replicate

/-- Exactly `n` bytes: cut where longer, filled up with zeros where shorter. -/
def fit (n : Nat) (bs : Bytes) : Bytes := bs.take n ++ zeros (n - bs.length)

@[simp] theorem length_fit (n : Nat) (bs : Bytes) : (fit n bs).length = n := by
  simp [fit]; omega

end Bytes
end ChainRelay
