import ChainRelay.Proofs.Memory.Agreement

/-!
Finding a part of a byte string again: a slice is looked up by walking over what stands before it.
-/

namespace ChainRelay.Bytes

theorem slice_cons (b : UInt8) (bs : Bytes) (offset len : Nat) :
    slice (b :: bs) (offset + 1) len = slice bs offset len := rfl

theorem slice_skip {pre : Bytes} {offset : Nat} (bs : Bytes) (len : Nat)
    (h : pre.length ≤ offset) :
    slice (pre ++ bs) offset len = slice bs (offset - pre.length) len := by
  rw [slice, List.drop_append, List.drop_eq_nil_iff.mpr h, List.nil_append, slice]

theorem slice_here {pre : Bytes} {len : Nat} (bs : Bytes) (h : pre.length = len) :
    slice (pre ++ bs) 0 len = pre := by
  simp [slice, ← h]

/-- A slice of the first bytes. -/
theorem slice_take (bs : Bytes) {offset len n : Nat} (h : offset + len ≤ n) :
    slice (bs.take n) offset len = slice bs offset len := by
  rw [slice, slice, List.drop_take, List.take_take, Nat.min_eq_left (by omega)]

theorem length_slice (bs : Bytes) (offset len : Nat) :
    (slice bs offset len).length = min len (bs.length - offset) := by
  rw [slice, List.length_take, List.length_drop]

theorem slice_slice (bs : Bytes) {start n offset len : Nat} (h : offset + len ≤ n) :
    slice (slice bs start n) offset len = slice bs (start + offset) len := by
  rw [slice, slice, List.drop_take, List.take_take, List.drop_drop, Nat.min_eq_left (by omega),
    slice]

theorem uint8At_slice (bs : Bytes) {start n offset : Nat} (h : offset < n) :
    uint8At (slice bs start n) offset = uint8At bs (start + offset) := by
  simp only [uint8At, slice, List.getD_eq_getElem?_getD, List.getElem?_take_of_lt h,
    List.getElem?_drop]

theorem uint64At_slice (bs : Bytes) {start n offset : Nat} (h : offset + 8 ≤ n) :
    uint64At (slice bs start n) offset = uint64At bs (start + offset) := by
  rw [uint64At, slice_slice bs h, uint64At]

theorem uint8At_skip {pre : Bytes} {offset : Nat} (bs : Bytes) (h : pre.length ≤ offset) :
    uint8At (pre ++ bs) offset = uint8At bs (offset - pre.length) := by
  simp [uint8At, List.getD_eq_getElem?_getD, List.getElem?_append_right h]

theorem uint8At_here (b : UInt8) (bs : Bytes) : uint8At (b :: bs) 0 = b := rfl

theorem uint8At_cons (b : UInt8) (bs : Bytes) (offset : Nat) :
    uint8At (b :: bs) (offset + 1) = uint8At bs offset := rfl

@[simp] theorem ofNat_decodeWord_ofUInt16 (x : UInt16) : .ofNat (decodeWord (ofUInt16 x)) = x := by
  apply UInt16.toNat_inj.mp
  have := x.toNat_lt
  rw [ofUInt16, decodeWord_encodeWord, UInt16.toNat_ofNat']
  simp only [wordRange]
  omega

@[simp] theorem ofNat_decodeWord_ofUInt32 (x : UInt32) : .ofNat (decodeWord (ofUInt32 x)) = x := by
  apply UInt32.toNat_inj.mp
  have := x.toNat_lt
  rw [ofUInt32, decodeWord_encodeWord, UInt32.toNat_ofNat']
  simp only [wordRange]
  omega

@[simp] theorem ofNat_decodeWord_ofUInt64 (x : UInt64) : .ofNat (decodeWord (ofUInt64 x)) = x := by
  apply UInt64.toNat_inj.mp
  have := x.toNat_lt
  rw [ofUInt64, decodeWord_encodeWord, UInt64.toNat_ofNat']
  simp only [wordRange]
  omega

section Words

variable {pre : Bytes} {offset : Nat} (bs : Bytes)

theorem uint16At_skip (h : pre.length ≤ offset) :
    uint16At (pre ++ bs) offset = uint16At bs (offset - pre.length) := by
  rw [uint16At, slice_skip _ _ h, uint16At]

theorem uint32At_skip (h : pre.length ≤ offset) :
    uint32At (pre ++ bs) offset = uint32At bs (offset - pre.length) := by
  rw [uint32At, slice_skip _ _ h, uint32At]

theorem uint64At_skip (h : pre.length ≤ offset) :
    uint64At (pre ++ bs) offset = uint64At bs (offset - pre.length) := by
  rw [uint64At, slice_skip _ _ h, uint64At]

theorem uint16At_cons (b : UInt8) (offset : Nat) :
    uint16At (b :: bs) (offset + 1) = uint16At bs offset := by
  rw [uint16At, slice_cons, uint16At]

theorem uint32At_cons (b : UInt8) (offset : Nat) :
    uint32At (b :: bs) (offset + 1) = uint32At bs offset := by
  rw [uint32At, slice_cons, uint32At]

theorem uint64At_cons (b : UInt8) (offset : Nat) :
    uint64At (b :: bs) (offset + 1) = uint64At bs offset := by
  rw [uint64At, slice_cons, uint64At]

theorem uint16At_here (x : UInt16) : uint16At (ofUInt16 x ++ bs) 0 = x := by
  rw [uint16At, slice_here _ (length_ofUInt16 x), ofNat_decodeWord_ofUInt16]

theorem uint32At_here (x : UInt32) : uint32At (ofUInt32 x ++ bs) 0 = x := by
  rw [uint32At, slice_here _ (length_ofUInt32 x), ofNat_decodeWord_ofUInt32]

theorem uint64At_here (x : UInt64) : uint64At (ofUInt64 x ++ bs) 0 = x := by
  rw [uint64At, slice_here _ (length_ofUInt64 x), ofNat_decodeWord_ofUInt64]

end Words

section Reencode

variable {bs : Bytes} {offset : Nat}

theorem encodeWord_slice {n : Nat} (h : offset + n ≤ bs.length) :
    encodeWord n (decodeWord (slice bs offset n)) = slice bs offset n := by
  have hlen : (slice bs offset n).length = n := by
    rw [length_slice]
    omega
  have henc := encodeWord_decodeWord (slice bs offset n)
  rwa [hlen] at henc

theorem decodeWord_slice_lt {n : Nat} (h : offset + n ≤ bs.length) :
    decodeWord (slice bs offset n) < wordRange n := by
  have hlt := decodeWord_lt (slice bs offset n)
  rwa [length_slice, Nat.min_eq_left (by omega)] at hlt

theorem ofUInt16_uint16At (h : offset + 2 ≤ bs.length) :
    ofUInt16 (uint16At bs offset) = slice bs offset 2 := by
  have hlt : decodeWord (slice bs offset 2) < 2 ^ 16 := decodeWord_slice_lt h
  rw [ofUInt16, uint16At, UInt16.toNat_ofNat', Nat.mod_eq_of_lt hlt, encodeWord_slice h]

theorem ofUInt32_uint32At (h : offset + 4 ≤ bs.length) :
    ofUInt32 (uint32At bs offset) = slice bs offset 4 := by
  have hlt : decodeWord (slice bs offset 4) < 2 ^ 32 := decodeWord_slice_lt h
  rw [ofUInt32, uint32At, UInt32.toNat_ofNat', Nat.mod_eq_of_lt hlt, encodeWord_slice h]

theorem ofUInt64_uint64At (h : offset + 8 ≤ bs.length) :
    ofUInt64 (uint64At bs offset) = slice bs offset 8 := by
  have hlt : decodeWord (slice bs offset 8) < 2 ^ 64 := decodeWord_slice_lt h
  rw [ofUInt64, uint64At, UInt64.toNat_ofNat', Nat.mod_eq_of_lt hlt, encodeWord_slice h]

theorem uint8At_cons_slice (len : Nat) (h : offset < bs.length) :
    uint8At bs offset :: slice bs (offset + 1) len = slice bs offset (len + 1) := by
  rw [slice, slice, List.drop_eq_getElem_cons h, List.take_succ_cons, uint8At,
    List.getD_eq_getElem?_getD, List.getElem?_eq_getElem h, Option.getD_some]

theorem slice_append_slice (bs : Bytes) (offset len more : Nat) :
    slice bs offset len ++ slice bs (offset + len) more = slice bs offset (len + more) := by
  rw [slice, slice, slice, ← List.drop_drop, List.take_add]

end Reencode

/-- What is written at the beginning stands in front of the old rest. -/
theorem overlay_zero {old new : Bytes} (h : new.length ≤ old.length) :
    old.overlay 0 new = new ++ old.drop new.length := by
  simp [overlay, List.take_of_length_le h]

theorem slice_overlay {old new : Bytes} {pos : Nat} (h : pos + new.length ≤ old.length) :
    (old.overlay pos new).slice pos new.length = new := by
  have hp : (old.take pos).length = pos := by simp; omega
  rw [overlay, slice_skip _ _ (Nat.le_of_eq hp), hp, Nat.sub_self,
    List.take_of_length_le (by omega), slice_here _ rfl]

end ChainRelay.Bytes
