import ChainRelay.Bytes
import ChainRelay.Sparse

/-!
The contents of a memory region: a byte at every address, zero where nothing was written.
Loading what was stored gives it back (`load_store_same`), and a store changes nothing outside
the bytes it covers (`load_store_disjoint`).
-/

namespace ChainRelay

/-- Bytes are kept in blocks of this many. -/
def blockSize : Nat := 32

structure Memory where
  blocks : Sparse (Vector UInt8 blockSize)

namespace Memory

def blank : Memory := ⟨.const (.replicate blockSize 0)⟩

def within (addr : Nat) : Fin blockSize := ⟨addr % blockSize, Nat.mod_lt _ (by decide)⟩

def get (m : Memory) (addr : Nat) : UInt8 := (m.blocks.get (addr / blockSize))[within addr]

def set (m : Memory) (addr : Nat) (b : UInt8) : Memory :=
  ⟨m.blocks.modify (addr / blockSize) fun v => v.set (within addr) b⟩

theorem get_set (m : Memory) (j k : Nat) (b : UInt8) :
    (m.set j b).get k = if j = k then b else m.get k := by
  have hj := Nat.div_add_mod j blockSize
  have hk := Nat.div_add_mod k blockSize
  simp only [get, set, Sparse.get_modify]
  by_cases hd : j / blockSize = k / blockSize
  · by_cases hm : j % blockSize = k % blockSize
    · have he : j = k := by rw [← hj, ← hk, hd, hm]
      subst he
      simp [Fin.getElem_fin]
    · have he : j ≠ k := fun e => hm (e ▸ rfl)
      simp [hd, he, within, Fin.getElem_fin, hm]
  · have he : j ≠ k := fun e => hd (e ▸ rfl)
    simp [hd, he]

def load (m : Memory) (addr n : Nat) : Bytes := (List.range n).map fun i => m.get (addr + i)

def store (m : Memory) (addr : Nat) : Bytes → Memory
  | [] => m
  | b :: r => store (m.set addr b) (addr + 1) r

def word (m : Memory) (addr n : Nat) : Nat := Bytes.decodeWord (m.load addr n)

def setWord (m : Memory) (addr n v : Nat) : Memory := m.store addr (Bytes.encodeWord n v)

@[simp] theorem length_load (m : Memory) (addr n : Nat) : (m.load addr n).length = n := by
  simp [load]

theorem get_store (m : Memory) (addr k : Nat) (bs : Bytes) :
    (m.store addr bs).get k =
      if addr ≤ k ∧ k < addr + bs.length then bs.getD (k - addr) 0 else m.get k := by
  induction bs generalizing m addr with
  | nil =>
    rw [List.length_nil, if_neg (by omega)]
    rfl
  | cons b r ih =>
    simp only [store, ih, get_set, List.length_cons]
    by_cases hk : addr = k
    · subst hk
      rw [if_neg (by omega)]
      simp
    · by_cases hlt : addr + 1 ≤ k ∧ k < addr + 1 + r.length
      · have he : k - addr = (k - (addr + 1)) + 1 := by omega
        have hc : addr ≤ k ∧ k < addr + (r.length + 1) := by omega
        rw [if_pos hlt, if_pos hc, he]
        simp
      · have hc : ¬(addr ≤ k ∧ k < addr + (r.length + 1)) := by omega
        rw [if_neg hlt, if_neg hk, if_neg hc]

theorem get_store_outside (m : Memory) {addr k : Nat} {bs : Bytes}
    (h : k < addr ∨ addr + bs.length ≤ k) : (m.store addr bs).get k = m.get k := by
  rw [get_store, if_neg (by omega)]

@[simp] theorem load_store_same (m : Memory) (addr : Nat) (bs : Bytes) :
    (m.store addr bs).load addr bs.length = bs := by
  apply List.ext_getElem
  · simp
  · intro i hi hj
    simp [load, get_store, hj]

theorem load_store_disjoint (m : Memory) {addr pos n : Nat} {bs : Bytes}
    (h : pos + n ≤ addr ∨ addr + bs.length ≤ pos) :
    (m.store addr bs).load pos n = m.load pos n := by
  apply List.map_congr_left
  intro i hi
  have := List.mem_range.mp hi
  exact get_store_outside m (by omega)

theorem word_setWord_same (m : Memory) (addr n v : Nat) :
    (m.setWord addr n v).word addr n = v % Bytes.wordRange n := by
  have h := load_store_same m addr (Bytes.encodeWord n v)
  rw [Bytes.length_encodeWord] at h
  rw [word, setWord, h, Bytes.decodeWord_encodeWord]

theorem word_setWord_disjoint (m : Memory) {addr pos n k v : Nat}
    (h : pos + k ≤ addr ∨ addr + n ≤ pos) :
    (m.setWord addr n v).word pos k = m.word pos k := by
  rw [word, setWord, load_store_disjoint m (by simpa using h), word]

theorem word_lt (m : Memory) (addr n : Nat) : m.word addr n < Bytes.wordRange n := by
  simpa [word] using Bytes.decodeWord_lt (m.load addr n)

end Memory
end ChainRelay
