import ChainRelay.Proofs.Memory.Agreement
import ChainRelay.Ring.Receive
import ChainRelay.Ring.Reserve

/-!
What lies between the two cursors of a ring. Records and padding follow each other without a gap,
each inside one pass of the band, and so no two of them share a byte of the region (`Tiles.apart`).
`Lays` says that a memory holds given records in this way.
-/

namespace ChainRelay.Ring

inductive Phase where
  | writing
  | committed
  | discarded
  deriving DecidableEq

def Phase.mark : Phase → Nat
  | writing => busyMark
  | committed => 0
  | discarded => discardMark

/-- A record at a free-running position. Padding is a discarded record that nobody reserved. -/
structure Cell where
  pos : Nat
  data : Bytes
  phase : Phase
  padding : Bool := false

namespace Cell

def word (c : Cell) : Nat := c.data.length + c.phase.mark

def extent (c : Cell) : Nat := span c.data.length

def place (c : Cell) (b : Band) : Nat := b.offset + c.pos % b.capacity

/-- The bytes of a discarded record do not matter. -/
structure Stored (b : Band) (m : Memory) (c : Cell) : Prop where
  length_le : c.data.length ≤ maxWordLength
  word_eq : m.word (c.place b) 4 = c.word
  load_eq : c.phase ≠ .discarded →
    m.load (c.place b + recordHeaderSize) c.data.length = c.data
  padding_discarded : c.padding = true → c.phase = .discarded

theorem word_lt (c : Cell) (h : c.data.length ≤ maxWordLength) : c.word < Bytes.wordRange 4 := by
  have hrange : Bytes.wordRange 4 = 0x100000000 := rfl
  unfold word
  cases c.phase <;> simp only [Phase.mark, busyMark, discardMark, maxWordLength] at h ⊢ <;> omega

theorem isBusy_word (c : Cell) (h : c.data.length ≤ maxWordLength) :
    isBusy c.word = decide (c.phase = .writing) := by
  unfold word isBusy
  rw [decide_eq_decide]
  cases c.phase <;> simp only [Phase.mark, busyMark, discardMark, maxWordLength, reduceCtorEq,
    iff_true, iff_false] at h ⊢ <;> omega

theorem isDiscarded_word (c : Cell) (h : c.data.length ≤ maxWordLength) :
    isDiscarded c.word = decide (c.phase = .discarded) := by
  unfold word isDiscarded
  rw [decide_eq_decide]
  cases c.phase <;> simp only [Phase.mark, busyMark, discardMark, maxWordLength, reduceCtorEq,
    iff_true, iff_false] at h ⊢ <;> omega

theorem wordLength_word (c : Cell) (h : c.data.length ≤ maxWordLength) :
    wordLength c.word = c.data.length := by
  unfold word wordLength
  cases c.phase <;> simp only [Phase.mark, busyMark, discardMark, maxWordLength] at h ⊢ <;> omega

theorem length_lt_extent (c : Cell) : recordHeaderSize + c.data.length ≤ c.extent := by
  unfold extent span recordHeaderSize
  omega

theorem extent_mod (c : Cell) : c.extent % 8 = 0 := span_mod_eight _

theorem extent_pos (c : Cell) : 8 ≤ c.extent := by
  have := c.length_lt_extent
  simp only [recordHeaderSize] at this
  omega

/-- A record is where it was as long as its own bytes are. -/
theorem Stored.of_agrees {b : Band} {m m' : Memory} {c : Cell} (h : c.Stored b m)
    (ha : m.Agrees m' (c.place b) c.extent) : c.Stored b m' := by
  have hl := c.length_lt_extent
  have hp := c.extent_pos
  refine ⟨h.length_le, ?_, fun hd => ?_, h.padding_discarded⟩
  · rw [(ha.mono (Nat.le_refl _) (by omega)).word]
    exact h.word_eq
  · rw [(ha.mono (Nat.le_add_right _ _) (by omega)).load]
    exact h.load_eq hd

def Apart (b : Band) (c d : Cell) : Prop :=
  c.place b + c.extent ≤ d.place b ∨ d.place b + d.extent ≤ c.place b

end Cell

/-- What the geometry of a band that was built always is. -/
structure Band.Regular (b : Band) : Prop where
  capacity_min : minCapacity ≤ b.capacity
  capacity_aligned : b.capacity % 8 = 0
  offset_min : headerSpan ≤ b.offset

theorem Band.Regular.pos {b : Band} (h : b.Regular) : 0 < b.capacity := by
  have := h.capacity_min
  simp only [minCapacity] at this
  omega

/-- The cells follow each other from `lo` to `hi`, none across the end of the band. -/
def Tiles (b : Band) : Nat → List Cell → Nat → Prop
  | lo, [], hi => lo = hi
  | lo, c :: cs, hi =>
    c.pos = lo ∧ lo % b.capacity + c.extent ≤ b.capacity ∧ Tiles b (lo + c.extent) cs hi

section Tiles

variable {b : Band} {lo mid hi : Nat} {cells : List Cell}

theorem Tiles.le (h : Tiles b lo cells hi) : lo ≤ hi := by
  induction cells generalizing lo with
  | nil => exact Nat.le_of_eq h
  | cons c cs ih => exact Nat.le_of_add_right_le (ih h.2.2)

theorem tiles_append {more : List Cell} :
    Tiles b lo (cells ++ more) hi ↔ ∃ mid, Tiles b lo cells mid ∧ Tiles b mid more hi := by
  induction cells generalizing lo with
  | nil => simp [Tiles]
  | cons c cs ih =>
    simp only [List.cons_append, Tiles, ih]
    constructor
    · rintro ⟨hp, hf, mid, hl, hr⟩
      exact ⟨mid, ⟨hp, hf, hl⟩, hr⟩
    · rintro ⟨mid, ⟨hp, hf, hl⟩, hr⟩
      exact ⟨hp, hf, mid, hl, hr⟩

theorem Tiles.mem {c : Cell} (h : Tiles b lo cells hi) (hc : c ∈ cells) :
    lo ≤ c.pos ∧ c.pos + c.extent ≤ hi ∧ c.pos % b.capacity + c.extent ≤ b.capacity := by
  induction cells generalizing lo with
  | nil => cases hc
  | cons d ds ih =>
    obtain ⟨hp, hf, ht⟩ := h
    rcases List.mem_cons.mp hc with rfl | hc
    · exact ⟨Nat.le_of_eq hp.symm, hp ▸ ht.le, hp ▸ hf⟩
    · obtain ⟨h₁, h₂, h₃⟩ := ih ht hc
      exact ⟨by omega, h₂, h₃⟩

theorem Tiles.length_le (h : Tiles b lo cells hi) : lo + cells.length ≤ hi := by
  induction cells generalizing lo with
  | nil => exact Nat.le_of_eq h
  | cons c cs ih =>
    have hpos := c.extent_pos
    have hle := ih h.2.2
    rw [List.length_cons]
    omega

theorem Tiles.mod_eight (h : Tiles b lo cells hi) (hlo : lo % 8 = 0) : hi % 8 = 0 := by
  induction cells generalizing lo with
  | nil => exact h ▸ hlo
  | cons c cs ih =>
    have := c.extent_mod
    exact ih h.2.2 (by omega)

/-- Of two records within one capacity, the second ends before the first one's place comes again. -/
theorem Cell.apart_of_le {c d : Cell} (hcd : c.pos + c.extent ≤ d.pos)
    (hd : d.pos + d.extent ≤ c.pos + b.capacity) : c.Apart b d := by
  obtain ⟨e, he⟩ := Nat.exists_eq_add_of_le hcd
  have hpos := d.extent_pos
  have hlt : c.extent + e < b.capacity := by omega
  have hmod : d.pos % b.capacity =
      if b.capacity ≤ c.pos % b.capacity + (c.extent + e)
      then c.pos % b.capacity + (c.extent + e) - b.capacity
      else c.pos % b.capacity + (c.extent + e) := by
    rw [he, Nat.add_assoc, Nat.add_mod_eq_ite, Nat.mod_eq_of_lt hlt]
  unfold Cell.Apart Cell.place
  split at hmod
  · right; omega
  · left; omega

/-- Records between cursors that are at most a capacity apart do not overlap. -/
theorem Tiles.apart (h : Tiles b lo cells hi) (hroom : hi ≤ lo + b.capacity) :
    cells.Pairwise (Cell.Apart b) := by
  induction cells generalizing lo with
  | nil => exact .nil
  | cons c cs ih =>
    obtain ⟨rfl, hf, ht⟩ := h
    refine .cons (fun d hd => ?_) (ih ht (by omega))
    obtain ⟨h₁, h₂, -⟩ := ht.mem hd
    exact Cell.apart_of_le h₁ (by omega)

end Tiles

/-- The words of the control block that do not change describe the band. -/
structure Band.Described (b : Band) (m : Memory) : Prop where
  magic_eq : storedMagic m = magic
  version_eq : storedVersion m = version
  capacity_eq : storedCapacity m = b.capacity
  offset_eq : storedOffset m = b.offset

theorem Band.Described.of_agrees {b : Band} {m m' : Memory} (h : b.Described m)
    (ha : m.Agrees m' 0 32) : b.Described m' := by
  have hw {lo n : Nat} (hn : lo + n ≤ 32) : m'.word lo n = m.word lo n :=
    (ha.mono (Nat.zero_le _) (by omega)).word
  constructor
  · exact (hw (by decide)).trans h.magic_eq
  · exact (hw (by decide)).trans h.version_eq
  · exact (hw (by decide)).trans h.capacity_eq
  · exact (hw (by decide)).trans h.offset_eq

/-- Between its cursors the memory holds these records. -/
structure Band.Lays (b : Band) (m : Memory) (cells : List Cell) : Prop where
  regular : b.Regular
  described : b.Described m
  aligned : consumed m % 8 = 0
  room : produced m ≤ consumed m + b.capacity
  tiles : Tiles b (consumed m) cells (produced m)
  stored : ∀ c ∈ cells, c.Stored b m

namespace Band.Lays

variable {b : Band} {m m' : Memory} {cells : List Cell}

theorem apart (h : b.Lays m cells) : cells.Pairwise (Cell.Apart b) :=
  h.tiles.apart h.room

theorem offset_le_place (h : b.Lays m cells) (c : Cell) : 384 ≤ c.place b :=
  Nat.le_trans h.regular.offset_min (Nat.le_add_right _ _)

theorem produced_mod (h : b.Lays m cells) : produced m % 8 = 0 := h.tiles.mod_eight h.aligned

theorem used_le (h : b.Lays m cells) : b.used m ≤ b.capacity := by
  have := h.room
  unfold Band.used
  omega

/-- A memory in which the cursors, the description and the bytes of the records are the same. -/
theorem of_agrees (h : b.Lays m cells) (hh : m.Agrees m' 0 32) (hp : produced m' = produced m)
    (hc : consumed m' = consumed m)
    (ha : ∀ c ∈ cells, m.Agrees m' (c.place b) c.extent) : b.Lays m' cells where
  regular := h.regular
  described := h.described.of_agrees hh
  aligned := by rw [hc]; exact h.aligned
  room := by rw [hp, hc]; exact h.room
  tiles := by rw [hp, hc]; exact h.tiles
  stored c hm := (h.stored c hm).of_agrees (ha c hm)

end Band.Lays
end ChainRelay.Ring
