import ChainRelay.Proofs.Relay.Failure
import ChainRelay.Proofs.Store.Account

/-!
Which sizes can be asked for. A band is a power of two, and there is none among the sizes above
`2 ^ 63`; a region is rounded up by as much as one step of its alignment; the bound of a store is
doubled for every chunk. None of these is refused when it does not fit: the computation ends with an
overflow. The limits are exact (`sizes_have_their_limits`): within them every request is answered,
by a value or by an error that says what is wrong with it.
-/

namespace ChainRelay

open ChainRelay.Ring

theorem powerAbove_ge {n k : Nat} (h : 2 ^ k < n) : 2 ^ (k + 1) ≤ powerAbove n := by
  have hpos := Nat.two_pow_pos k
  have hlog : k ≤ (n - 1).log2 := (Nat.le_log2 (by omega)).mpr (by omega)
  unfold powerAbove
  rw [if_neg (by omega), Nat.one_shiftLeft]
  exact Nat.pow_le_pow_right (by decide) (Nat.succ_le_succ hlog)

/-- A band that can be computed leaves room below it and above it: a quarter of it holds the header
of a record, and a region can hold the band behind a control block. -/
theorem bandCapacity_cases (asked : Nat) :
    (bandCapacity asked = .error .overflow ∧ 2 ^ 63 < asked) ∨
    ∃ band, bandCapacity asked = .ok band ∧ asked ≤ 2 ^ 63 ∧ recordHeaderSize ≤ band / 4 ∧
      headerSpan + band + Region.alignment < sizeLimit := by
  by_cases h : asked ≤ 2 ^ 63
  · have hband := bandCapacity_eq h
    have hmin := (Shared.bandCapacity_mod hband).1
    have hle := powerAbove_le (Nat.max_le.mpr ⟨h, show minCapacity ≤ 2 ^ 63 by decide⟩)
    refine .inr ⟨_, hband, h, ?_, ?_⟩
    · simp only [minCapacity, recordHeaderSize] at hmin ⊢
      omega
    · simp only [headerSpan, Region.alignment, sizeLimit] at hle ⊢
      omega
  · have hlt := Nat.lt_of_not_le h
    have hge := powerAbove_ge (Nat.lt_of_lt_of_le hlt (Nat.le_max_left asked minCapacity))
    exact .inl ⟨if_neg (Nat.not_lt.mpr hge), hlt⟩

/-- What was asked for could not be computed. -/
def OutOfRange {α : Type} (answer : Except SetupError α) : Prop :=
  ∃ e, answer = .error e ∧ e.kind = .overflow

@[simp] theorem not_outOfRange_ok {α : Type} (a : α) : ¬OutOfRange (.ok a : Except SetupError α) :=
  fun ⟨_, h, _⟩ => nomatch h

@[simp] theorem outOfRange_error {α : Type} (e : SetupError) :
    OutOfRange (.error e : Except SetupError α) ↔ e.kind = .overflow :=
  ⟨fun ⟨_, h, hkind⟩ => Except.error.inj h ▸ hkind, fun h => ⟨e, rfl, h⟩⟩

@[simp] theorem SetupError.systemKind_ne_overflow (cause : SystemError) :
    systemKind cause ≠ .overflow := by
  cases cause <;> nofun

theorem Region.roundedSize_cases (size : Nat) :
    (roundedSize size = .error .overflow ∧ sizeLimit ≤ size + alignment) ∨
    ∃ rounded, roundedSize size = .ok rounded ∧ size + alignment < sizeLimit := by
  unfold roundedSize checkedSize
  by_cases h : size + alignment < sizeLimit
  · exact .inr ⟨alignUp alignment size, by rw [if_pos h]; rfl, h⟩
  · exact .inl ⟨by rw [if_neg h]; rfl, Nat.le_of_not_lt h⟩

namespace Shared

variable (s : Shared)

theorem outOfRange_allocateRegion (size : Nat) :
    OutOfRange (s.allocateRegion size).1 ↔ sizeLimit ≤ size + Region.alignment := by
  unfold allocateRegion
  split
  · rename_i h
    simp [SetupError.kind, h, Region.alignment, sizeLimit]
  rcases Region.roundedSize_cases size with ⟨hr, hout⟩ | ⟨rounded, hr, hin⟩
  · simp [hr, SetupError.kind, hout]
  · refine iff_of_false ?_ (Nat.not_le.mpr hin)
    simp only [hr]
    split
    · simp [SetupError.kind]
    · split <;> simp [SetupError.kind]

theorem not_outOfRange_mapFile (name : String) (id size : Nat) :
    ¬OutOfRange (s.mapFile name id size) := by
  unfold mapFile
  split
  · simp [SetupError.kind]
  · split <;> simp [SetupError.kind]

theorem outOfRange_createFile (name : String) (size : Nat) :
    OutOfRange (s.createFile name size).1 ↔ sizeLimit ≤ size + Region.alignment := by
  unfold createFile
  rcases Region.roundedSize_cases size with ⟨hr, hout⟩ | ⟨rounded, hr, hin⟩
  · simp [hr, SetupError.kind, hout]
  · refine iff_of_false ?_ (Nat.not_le.mpr hin)
    simp only [hr]
    split
    · simp [SetupError.kind]
    · split
      · simp [SetupError.kind]
      · exact not_outOfRange_mapFile _ _ _ _

theorem outOfRange_createRegion (name : Option String) (size : Nat) :
    OutOfRange (s.createRegion name size).1 ↔ sizeLimit ≤ size + Region.alignment := by
  cases name with
  | none => exact s.outOfRange_allocateRegion size
  | some name => exact s.outOfRange_createFile name size

/-- The region of a channel is in range when its band is. -/
theorem outOfRange_buildChannel (plan : ChannelPlan) :
    OutOfRange (s.buildChannel plan).1 ↔ 2 ^ 63 < plan.capacity := by
  unfold buildChannel
  rcases bandCapacity_cases plan.capacity with ⟨hband, hout⟩ | ⟨band, hband, hin, -, hroom⟩
  · simp only [hband, outOfRange_error, SetupError.kind, hout]
  · refine iff_of_false ?_ (Nat.not_lt.mpr hin)
    have hregion := (s.outOfRange_createRegion plan.name (headerSpan + band)).not.mpr
      (Nat.not_le.mpr hroom)
    simp only [hband]
    split
    · rename_i e s' hcreate
      rw [hcreate, outOfRange_error] at hregion
      rwa [outOfRange_error]
    · exact not_outOfRange_ok _

end Shared

namespace Settings

/-- Nobody looks at the capacity of the chunk channel before its band is computed. -/
theorem validate_eq_overflow_iff (s : Settings) : s.validate = .error .overflow ↔
    s.copy.validate = .ok () ∧ s.channels.validate = .ok () ∧
      2 ^ 63 < s.channels.chunkCapacity := by
  unfold validate
  cases hc : s.copy.validate with
  | error e => rcases copy_error hc with rfl | ⟨bad, rfl⟩ <;> simp [bind, Except.bind]
  | ok =>
    cases hn : s.channels.validate with
    | error e =>
      obtain ⟨stem, rfl⟩ := channels_error hn
      simp [bind, Except.bind]
    | ok =>
      simp only [bind, Except.bind, true_and]
      rcases bandCapacity_cases s.channels.chunkCapacity with
        ⟨hband, hout⟩ | ⟨band, hband, hin, -⟩
      · simp only [hband, hout]
      · refine iff_of_false ?_ (Nat.not_lt.mpr hin)
        rw [hband]
        dsimp only
        split <;> nofun

end Settings

/-- A start fails so when its settings cannot be checked. Once they are valid the chunk channel is
in range, and the record channel need not be. -/
theorem Relay.outOfRange_start (settings : Settings) (ids tally : Nat) (s : Shared) :
    OutOfRange (start settings ids tally s).1 ↔ settings.validate = .error .overflow ∨
      settings.validate = .ok () ∧
        (∃ chunks, (s.buildChannel (chunkPlan settings.channels)).1 = .ok chunks) ∧
          2 ^ 63 < settings.channels.recordCapacity := by
  unfold start
  cases hv : settings.validate with
  | error cause => cases cause <;> simp [SetupError.kind]
  | ok =>
    -- The check has computed the band of the chunk channel already.
    obtain ⟨-, band, hband, -⟩ := Settings.of_validate hv
    have hin := (s.outOfRange_buildChannel (chunkPlan settings.channels)).not.mpr fun hout => by
      rcases bandCapacity_cases settings.channels.chunkCapacity with ⟨he, -⟩ | ⟨_, -, hle, -⟩
      · cases he.symm.trans hband
      · exact Nat.not_lt.mpr hle hout
    simp only [chunkPlan, reduceCtorEq, false_or, true_and] at hin ⊢
    split
    · rename_i e s' hchunks
      rw [hchunks] at hin ⊢
      rw [outOfRange_error] at hin
      refine iff_of_false (mt (outOfRange_error e).mp hin) ?_
      rintro ⟨⟨chunks, h⟩, -⟩
      cases h
    · rename_i chunks s₁ hchunks
      have hrecords := s₁.outOfRange_buildChannel (recordPlan settings.channels)
      rw [hchunks, and_iff_right ⟨chunks, rfl⟩]
      refine Iff.trans ?_ hrecords
      simp only [recordPlan]
      split
      · rename_i e s₂ hrec
        simp [hrec]
      · rename_i records s₂ hrec
        simp [hrec]

namespace Store

/-- A chunk is answered by its identifier, unless the bound of the store cannot be doubled. -/
theorem insert_spec (s : Store) (c : StoredChunk) :
    (s.insert c).result =
      (if sizeLimit ≤ s.maxPending * 2 then .error .overflow else .ok c.id) ∧
    (s.insert c).store.maxPending = s.maxPending := by
  have hroom := (maxPending_makeRoom (s.dropDuplicate c.id).1.maxPending
    (s.dropDuplicate c.id).1.arrivals (s.dropDuplicate c.id).1).trans
    (maxPending_dropDuplicate s c.id)
  unfold insert
  dsimp only
  rw [hroom]
  split
  · exact ⟨rfl, rfl⟩
  · split <;> exact ⟨rfl, rfl⟩

theorem maxPending_ingest (s : Store) (record : Bytes) :
    (s.ingest record).store.maxPending = s.maxPending := by
  unfold ingest
  split
  · rfl
  · exact (s.insert_spec _).2

theorem ingest_eq_overflow_iff (s : Store) (record : Bytes) :
    (s.ingest record).result = .error .overflow ↔
      isChunk record = true ∧ sizeLimit ≤ s.maxPending * 2 := by
  unfold ingest isChunk
  cases decodeChunk record with
  | error e => simp [Except.isOk, Except.toBool]
  | ok v =>
    simp only [(s.insert_spec _).1, Except.isOk, Except.toBool, true_and]
    split <;> simp_all

def ingestAll (s : Store) (records : List Bytes) : Store :=
  records.foldl (fun s record => (s.ingest record).store) s

theorem maxPending_ingestAll (s : Store) (records : List Bytes) :
    (s.ingestAll records).maxPending = s.maxPending := by
  induction records generalizing s with
  | nil => rfl
  | cons record records ih => exact (ih _).trans (s.maxPending_ingest record)

end Store

/-- The limits of the sizes that can be asked for. A band is computed for a capacity of at most
`2 ^ 63`, and what is computed from it stays in range. Above this limit neither can a channel be
built, nor settings with such a chunk channel be checked, nor a relay with such a record channel be
started. A private region must leave room for one step of its alignment. A store answers every
record if its bound is below `2 ^ 63`, and otherwise none that holds a chunk, whatever it was given
before. -/
theorem sizes_have_their_limits (s : Shared) (plan : ChannelPlan) (asked size ids tally : Nat)
    (settings : Settings) (maxPending : Nat) (records : List Bytes) (record : Bytes) :
    ((bandCapacity asked = .error .overflow ∧ 2 ^ 63 < asked) ∨
      ∃ band, bandCapacity asked = .ok band ∧ asked ≤ 2 ^ 63 ∧ recordHeaderSize ≤ band / 4 ∧
        headerSpan + band + Region.alignment < sizeLimit) ∧
    (OutOfRange (s.buildChannel plan).1 ↔ 2 ^ 63 < plan.capacity) ∧
    (OutOfRange (s.allocateRegion size).1 ↔ sizeLimit ≤ size + Region.alignment) ∧
    (settings.validate = .error .overflow ↔
      settings.copy.validate = .ok () ∧ settings.channels.validate = .ok () ∧
        2 ^ 63 < settings.channels.chunkCapacity) ∧
    (OutOfRange (Relay.start settings ids tally s).1 ↔ settings.validate = .error .overflow ∨
      settings.validate = .ok () ∧
        (∃ chunks, (s.buildChannel (Relay.chunkPlan settings.channels)).1 = .ok chunks) ∧
          2 ^ 63 < settings.channels.recordCapacity) ∧
    ((((Store.ofMaxPending maxPending).ingestAll records).ingest record).result =
        .error .overflow ↔ Store.isChunk record = true ∧ 2 ^ 63 ≤ maxPending) := by
  refine ⟨bandCapacity_cases asked, s.outOfRange_buildChannel plan,
    s.outOfRange_allocateRegion size, settings.validate_eq_overflow_iff,
    Relay.outOfRange_start settings ids tally s, ?_⟩
  have hbound : sizeLimit ≤ max maxPending 1 * 2 ↔ 2 ^ 63 ≤ maxPending := by
    unfold sizeLimit
    omega
  rw [Store.ingest_eq_overflow_iff, Store.maxPending_ingestAll]
  exact and_congr_right fun _ => hbound

example : bandCapacity (2 ^ 63) = .ok (2 ^ 63) ∧ bandCapacity (2 ^ 63 + 1) = .error .overflow := by
  decide

end ChainRelay
