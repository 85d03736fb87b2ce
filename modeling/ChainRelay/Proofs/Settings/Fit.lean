import ChainRelay.Proofs.Capture.Conduct
import ChainRelay.Proofs.Channel.Refill
import ChainRelay.Relay

/-!
Settings, copies and channels agree. Of settings that are valid every chunk has a size that its
channel can grant, and so does every record; and settings are called too small for their chunks just
when a chunk class is longer than the longest record of the channel that is built of them.
-/

namespace ChainRelay

open ChainRelay.Ring

namespace Settings

theorem foldl_max_le {α : Type} (f : α → Nat) (l : List α) (a n : Nat) :
    l.foldl (fun m x => max m (f x)) a ≤ n ↔ a ≤ n ∧ ∀ x ∈ l, f x ≤ n := by
  induction l generalizing a with
  | nil => simp
  | cons x l ih => simp [ih, and_assoc]

theorem largestChunk_le {s : Settings} {n : Nat} :
    s.largestChunk ≤ n ↔ SizeClass.large.totalSize ≤ n ∧ ∀ c ∈ s.copy.classes, c.totalSize ≤ n := by
  unfold largestChunk
  rw [foldl_max_le]
  simp

/-- Valid settings have a chunk channel whose quarter holds every chunk. -/
theorem of_validate {s : Settings} (h : s.validate = .ok ()) :
    s.copy.validate = .ok () ∧ ∃ band, bandCapacity s.channels.chunkCapacity = .ok band ∧
      s.largestChunk ≤ band / 4 - recordHeaderSize := by
  unfold validate at h
  simp only [bind, Except.bind] at h
  split at h
  · cases h
  rename_i hcopy
  split at h
  · cases h
  split at h
  · cases h
  rename_i band hband
  split at h
  · cases h
  rename_i hle
  exact ⟨hcopy, band, hband, Nat.le_of_not_lt hle⟩

end Settings

theorem SizeClass.totalSize_le {c : SizeClass} (h : c.isValid = true) : c.totalSize ≤ 4096 := by
  have hle := payload_le h
  have hsum := c.headerSize_add_payloadCapacity
  simp only [chunkHeaderSize, maxChunkPayload] at hle hsum
  omega

theorem SizeClass.totalSize_ne_zero (c : SizeClass) : c.totalSize ≠ 0 :=
  Nat.ne_of_gt (Nat.lt_of_lt_of_le (by decide) c.headerSize_le_totalSize)

/-- A class of valid settings is one of those that were checked, or a standard one. -/
theorem Settings.totalSize_le {s : Settings} {c : SizeClass}
    (hc : c = s.copy.stringClass ∨ ∃ len, c = s.copy.classFor len) :
    c.totalSize ≤ s.largestChunk := by
  obtain ⟨hlarge, hclasses⟩ := Settings.largestChunk_le.mp (Nat.le_refl s.largestChunk)
  rcases hc with rfl | ⟨len, rfl⟩
  · exact hclasses _ List.mem_cons_self
  · unfold CopySettings.classFor
    cases hb : s.copy.byteClass with
    | some c => exact hclasses c (by simp [CopySettings.classes, hb])
    | none =>
      refine Nat.le_trans ?_ hlarge
      show (SizeClass.forLength len).totalSize ≤ _
      unfold SizeClass.forLength
      split
      · decide
      · split <;> decide

/-- Whatever state it finds, the operation is not refused for the size it asks for. -/
def Op.Sized : Op → Prop
  | .openChunk w c => ∀ s size max, (Shared.openChunk w c s).1 ≠ .error (.invalidSize size max)
  | .reserve channel size =>
    ∀ s asked max, (channel.reserve size s).1 ≠ .error (.invalidSize asked max)
  | _ => True

theorem Ring.Band.reserve_ne_invalid {b : Band} (hb : minCapacity ≤ b.capacity) {size : Nat}
    (hpos : size ≠ 0) (hle : size ≤ b.longest) (m : Memory) (asked max : Nat) :
    (b.reserve size m).1 ≠ .error (.invalidSize asked max) := by
  have hplace : b.place size m ≠ .error (.invalidSize asked max) := by
    simp only [place, maxRecordLength_eq hb]
    rw [if_neg (by omega)]
    split
    · split <;> simp
    · split <;> simp
  simp only [reserve]
  split
  · rename_i e he
    rw [he] at hplace
    exact fun h => hplace (congrArg _ (Except.error.inj h))
  · split <;> simp

theorem Channel.sized_reserve {c : Channel} (hb : minCapacity ≤ c.band.capacity) {size : Nat}
    (hpos : size ≠ 0) (hle : size ≤ c.band.longest) : (Op.reserve c size).Sized := by
  intro s asked max h
  have hband := (Channel.Views.refl c).reserve_refused (Prod.ext h rfl)
  exact c.band.reserve_ne_invalid hb hpos hle _ asked max (congrArg Prod.fst hband)

theorem Writer.sized_openChunk {w : Writer} (hb : minCapacity ≤ w.channel.band.capacity)
    {c : SizeClass} (hle : c.totalSize ≤ w.channel.band.longest) : (Op.openChunk w c).Sized := by
  intro s size max h
  refine Channel.sized_reserve hb c.totalSize_ne_zero hle s size max ?_
  rw [← s.reservation_openChunk, h]
  rfl

namespace Relay

/-- The chunks that may be asked for fit the one channel, and records the other. -/
structure Fits (r : Relay) : Prop where
  settings_valid : r.settings.validate = .ok ()
  classes_fit : ∀ c, (c = r.settings.stringClass ∨ ∃ len, c = r.settings.classFor len) →
    c.totalSize ≤ r.chunks.band.longest
  chunks_min : minCapacity ≤ r.chunks.band.capacity
  chunks_mod : r.chunks.band.capacity % 32 = 0
  records_min : minCapacity ≤ r.records.band.capacity

theorem start_eq {settings : Settings} {ids tally : Nat} {s s' : Shared} {r : Relay}
    (h : start settings ids tally s = (.ok r, s')) :
    settings.validate = .ok () ∧ r.settings = settings.copy ∧
      bandCapacity settings.channels.chunkCapacity = .ok r.chunks.band.capacity ∧
      bandCapacity settings.channels.recordCapacity = .ok r.records.band.capacity := by
  unfold start at h
  split at h
  · cases h
  rename_i hvalid
  split at h
  · cases h
  rename_i chunks s₁ hchunks
  split at h
  · cases h
  rename_i records s₂ hrecords
  cases h
  exact ⟨hvalid, rfl, (Shared.buildChannel_band hchunks).2, (Shared.buildChannel_band hrecords).2⟩

theorem fits_of_start {settings : Settings} {ids tally : Nat} {s s' : Shared} {r : Relay}
    (h : start settings ids tally s = (.ok r, s')) : r.Fits := by
  obtain ⟨hvalid, hsettings, hchunks, hrecords⟩ := start_eq h
  obtain ⟨hcopy, band, hband, hlargest⟩ := Settings.of_validate hvalid
  obtain rfl := Except.ok.inj (hband.symm.trans hchunks)
  obtain ⟨hmin, hmod⟩ := Shared.bandCapacity_mod hchunks
  refine ⟨hsettings ▸ hcopy, fun c hc => ?_, hmin, hmod, (Shared.bandCapacity_mod hrecords).1⟩
  rw [hsettings] at hc
  have hvalid : c.isValid = true := by
    obtain ⟨-, -, hstring, hbytes⟩ := CopySettings.of_validate hcopy
    rcases hc with rfl | ⟨len, rfl⟩
    · exact hstring
    · exact hbytes len
  exact Nat.le_min.mpr ⟨Nat.le_trans (Settings.totalSize_le hc) hlargest,
    Nat.le_trans (SizeClass.totalSize_le hvalid) (by decide)⟩

variable {r : Relay}

/-- The invocation whose shard, settings and channels a copy uses. -/
structure Makes (r : Relay) (call : Copy.Call) : Prop where
  writer_eq : ∃ shard, call.writer = (r.invocation shard).writer
  settings_eq : call.settings = r.settings

theorem Makes.class_eq {call : Copy.Call} (hm : r.Makes call) :
    call.sizeClass = r.settings.stringClass ∨ ∃ len, call.sizeClass = r.settings.classFor len := by
  obtain ⟨writer, source, addr, domain, settings, extent⟩ := call
  obtain rfl : settings = r.settings := hm.settings_eq
  cases extent with
  | bytes len => exact .inr ⟨len, rfl⟩
  | untilTerminator => exact .inl rfl

theorem Makes.channel_eq {call : Copy.Call} (hm : r.Makes call) :
    call.writer.channel = r.chunks := by
  obtain ⟨shard, hw⟩ := hm.writer_eq
  rw [hw]
  rfl

theorem Fits.sized (h : r.Fits) (shard : UInt16) (op : Op)
    (hop : (r.invocation shard).writer.Does r.settings op) : op.Sized := by
  cases op with
  | openChunk w c =>
    obtain ⟨rfl, hc⟩ := hop
    exact Writer.sized_openChunk h.chunks_min (h.classes_fit c hc)
  | reserve => exact hop.elim
  | fillChunk | commitChunk | abandonChunk | commitRecord | count | report => trivial

/-- A copy asks for nothing that cannot be had. -/
theorem Fits.copies (h : r.Fits) {call : Copy.Call} (hm : r.Makes call) (ha : call.addr ≠ 0)
    (he : call.extent ≠ .bytes 0) :
    call.activity.Always Op.Sized fun o => o.failure ≠ some .invalidRequest := by
  obtain ⟨shard, hw⟩ := hm.writer_eq
  refine call.always.mono (fun op hop => h.sized shard op ?_) fun o ho hfail => ?_
  · exact (r.invocation shard).writer.does_of_call r.settings hw hm.settings_eq op hop
  · exact call.not_invalid (hm.settings_eq ▸ h.settings_valid) ha he (ho hfail)

/-- While half of the channel is free, its first chunk can be had. -/
theorem Fits.first (h : r.Fits) {call : Copy.Call} (hm : r.Makes call) {s : Shared}
    {q : List Booking} (hq : r.chunks.Queued s q)
    (hused : r.chunks.used s ≤ r.chunks.band.capacity / 2) {e : ReserveError}
    (ho : (s.openChunk call.writer call.sizeClass).1 = .error e) : e = .overflow := by
  obtain ⟨cells, hl, -⟩ := hq
  have hr : (r.chunks.reserve call.sizeClass.totalSize s).1 = .error e := by
    rw [← hm.channel_eq, ← s.reservation_openChunk, ho]
    rfl
  have hband := (Channel.Views.refl r.chunks).reserve_refused (Prod.ext hr rfl)
  exact hl.reserve_half h.chunks_mod hused call.sizeClass.totalSize_ne_zero
    (h.classes_fit _ hm.class_eq) (congrArg Prod.fst hband)

theorem Fits.records (h : r.Fits) (signal : Signal) :
    signal.encodedSize ≠ 0 ∧ signal.encodedSize ≤ r.records.band.longest :=
  signal.encodedSize_le_longest h.records_min

/-- Nothing that an emission asks for is of a size that cannot be had. -/
theorem Fits.submits (h : r.Fits) (shard : UInt16) (timestamp : UInt64) (signal : Signal) :
    ((r.invocation shard).submit timestamp signal).Always Op.Sized fun _ => True := by
  obtain ⟨hpos, hle⟩ := h.records signal
  refine Activity.always_perform (Channel.sized_reserve h.records_min hpos hle) fun s => ?_
  split
  · trivial
  · exact ⟨trivial, fun _ => ⟨trivial, fun _ => trivial⟩⟩
  · exact ⟨trivial, fun _ => ⟨trivial, fun _ => trivial⟩⟩

theorem Fits.emits (h : r.Fits) (shard : UInt16) (timestamp : UInt64) (source : TaskSnapshot)
    (task : UInt64) :
    ((r.invocation shard).emitTask timestamp source task).Always Op.Sized fun _ => True := by
  have hcapture : ((r.invocation shard).capture source task).Always Op.Sized fun _ => True :=
    ((r.invocation shard).always_capture source task).mono (h.sized shard) fun _ _ => trivial
  exact hcapture.bind fun t _ => h.submits shard timestamp (.taskExec t)

end Relay

theorem powerAbove_le {n k : Nat} (h : n ≤ 2 ^ k) : powerAbove n ≤ 2 ^ k := by
  unfold powerAbove
  split
  · exact Nat.one_le_two_pow
  · rename_i hn
    rw [Nat.one_shiftLeft]
    refine Nat.pow_le_pow_right (by decide) ?_
    exact (Nat.log2_lt (by omega)).mpr (by omega)

theorem bandCapacity_eq {asked : Nat} (h : asked ≤ 2 ^ 63) :
    bandCapacity asked = .ok (powerAbove (max asked minCapacity)) := by
  have hle := powerAbove_le (Nat.max_le.mpr ⟨h, show minCapacity ≤ 2 ^ 63 by decide⟩)
  exact if_pos (Nat.lt_of_le_of_lt hle (by decide))

namespace Settings

theorem copy_error {c : CopySettings} {e : SettingsError} (h : c.validate = .error e) :
    e = .invalid (.maxChunks c.maxChunks) ∨ ∃ bad, e = .invalid (.chunkClass bad) := by
  unfold CopySettings.validate at h
  split at h
  · cases h
    exact .inl rfl
  · split at h
    · cases h
      exact .inr ⟨_, rfl⟩
    · cases h

theorem channels_error {c : ChannelSettings} {e : SettingsError} (h : c.validate = .error e) :
    ∃ stem, e = .invalid (.stem stem) := by
  unfold ChannelSettings.validate at h
  split at h
  · split at h
    · cases h
      exact ⟨_, rfl⟩
    · cases h
  · cases h

/-- A chunk is called too large when everything else is in order and it is. -/
theorem tooLarge_iff {s : Settings} {band : Nat}
    (hband : bandCapacity s.channels.chunkCapacity = .ok band) :
    (∃ size capacity, s.validate = .error (.invalid (.chunkTooLarge size capacity))) ↔
      s.copy.validate = .ok () ∧ s.channels.validate = .ok () ∧
        band / 4 - recordHeaderSize < s.largestChunk := by
  unfold validate
  cases hc : s.copy.validate with
  | error e => rcases copy_error hc with rfl | ⟨bad, rfl⟩ <;> simp [bind, Except.bind]
  | ok =>
    cases hn : s.channels.validate with
    | error e =>
      obtain ⟨stem, rfl⟩ := channels_error hn
      simp [bind, Except.bind]
    | ok =>
      simp only [bind, Except.bind, hband]
      split <;> simp_all

/-- The classes that are set decide, since a large chunk fits every band. -/
theorem largestChunk_lt_iff {s : Settings} (hcopy : s.copy.validate = .ok ()) {b : Band}
    (hmin : minCapacity ≤ b.capacity) :
    b.capacity / 4 - recordHeaderSize < s.largestChunk ↔
      b.longest < s.copy.stringClass.totalSize ∨
        ∃ c, s.copy.byteClass = some c ∧ b.longest < c.totalSize := by
  obtain ⟨-, -, hstring, hbytes⟩ := CopySettings.of_validate hcopy
  have hlonger {c : SizeClass} (hc : c.isValid = true) :
      b.longest < c.totalSize ↔ b.capacity / 4 - recordHeaderSize < c.totalSize := by
    have hle := SizeClass.totalSize_le hc
    simp only [Band.longest, maxWordLength, discardMark]
    omega
  have hlarge : SizeClass.large.totalSize ≤ b.capacity / 4 - recordHeaderSize := by
    simp only [SizeClass.totalSize, minCapacity, recordHeaderSize] at hmin ⊢
    omega
  rw [← Nat.not_le, largestChunk_le, hlonger hstring]
  cases hb : s.copy.byteClass with
  | none => simp [CopySettings.classes, hb, hlarge]
  | some c =>
    have hc : c.isValid = true := by simpa [CopySettings.classFor, hb] using hbytes 0
    simp [CopySettings.classes, hb, hlarge, hlonger hc, imp_iff_not_or]

end Settings

/-- Of settings that are valid no copy asks for what its channel cannot grant or finds its request
at fault, nor does it fail for want of room if half of the channel was free when it began; no record
is too long for its channel either. Settings are refused for a chunk that does not fit just when
they are otherwise valid and the class for strings or for byte ranges is longer than the longest
record of their channel. -/
theorem settings_fit_their_channels :
    (∀ (settings : Settings) (ids tally : Nat) (s s' : Shared) (r : Relay),
      Relay.start settings ids tally s = (.ok r, s') →
      (∀ call : Copy.Call, r.Makes call → call.addr ≠ 0 → call.extent ≠ .bytes 0 →
        (call.activity.Always Op.Sized fun o => o.failure ≠ some .invalidRequest) ∧
        ∀ t, Traffic.Reached r.chunks t → r.chunks.used t.shared ≤ r.chunks.band.capacity / 2 →
          (call.activity.advance t.shared).1.Always (fun _ => True) fun o =>
            ¬(o.status = .failed ∧ o.failure = some .capacity)) ∧
      (∀ (shard : UInt16) (timestamp : UInt64) (source : TaskSnapshot) (task : UInt64),
        ((r.invocation shard).emitTask timestamp source task).Always Op.Sized fun _ => True) ∧
      ∃ max, r.records.band.maxRecordLength = .ok max ∧
        ∀ signal : Signal, 0 < signal.encodedSize ∧ signal.encodedSize ≤ max) ∧
    ∀ settings : Settings, settings.channels.chunkCapacity ≤ 2 ^ 63 →
      ∃ band max, bandCapacity settings.channels.chunkCapacity = .ok band ∧
        (⟨headerSpan, band⟩ : Band).maxRecordLength = .ok max ∧
        ((∃ size capacity,
            settings.validate = .error (.invalid (.chunkTooLarge size capacity))) ↔
          settings.copy.validate = .ok () ∧ settings.channels.validate = .ok () ∧
            (max < settings.copy.stringClass.totalSize ∨
              ∃ c, settings.copy.byteClass = some c ∧ max < c.totalSize)) := by
  constructor
  · intro settings ids tally s s' r hstart
    have hfits := Relay.fits_of_start hstart
    refine ⟨fun call hm ha he => ⟨hfits.copies hm ha he, fun t ht hused => ?_⟩, hfits.emits,
      _, Band.maxRecordLength_eq hfits.records_min, fun signal => ?_⟩
    · obtain ⟨⟨q, hq⟩, -⟩ := ht.queued
      have hfed := call.always_fed fun e ho => hfits.first hm hq hused ho
      exact hfed.mono (fun _ _ => trivial) fun o ho hfail => ho hfail.1 hfail.2
    · obtain ⟨hpos, hle⟩ := hfits.records signal
      exact ⟨Nat.pos_of_ne_zero hpos, hle⟩
  · intro settings hcapacity
    have hband := bandCapacity_eq hcapacity
    have hmin := (Shared.bandCapacity_mod hband).1
    refine ⟨_, _, hband, Band.maxRecordLength_eq hmin, ?_⟩
    rw [Settings.tooLarge_iff hband]
    refine and_congr_right fun hcopy => and_congr_right fun _ => ?_
    exact Settings.largestChunk_lt_iff hcopy (b := ⟨headerSpan, _⟩) hmin

def firstRelay : Relay :=
  ⟨⟨1, ⟨headerSpan, 4194304⟩, none⟩, ⟨2, ⟨headerSpan, 1048576⟩, none⟩, 0, {}, 0⟩

def Copy.Call.ofFirstRelay : Copy.Call :=
  { Copy.Call.threeBytes with
    writer := (firstRelay.invocation 7).writer
    settings := firstRelay.settings }

def Traffic.ofFirstRelay : Traffic :=
  ⟨(Traffic.firstShared.buildChannel ⟨4194304, none, true⟩).2, [firstRelay.chunks], []⟩

theorem Relay.start_first : (start {} 0 0 Traffic.firstShared).1 = .ok firstRelay := by
  have hvalid : Settings.validate {} = .ok () := rfl
  have hchunks : Traffic.firstShared.buildChannel (chunkPlan {}) =
    (.ok firstRelay.chunks, Traffic.ofFirstRelay.shared) := rfl
  obtain ⟨s, hrecords⟩ : ∃ s, Traffic.ofFirstRelay.shared.buildChannel (recordPlan {}) =
    (.ok firstRelay.records, s) := ⟨_, rfl⟩
  unfold start
  simp only [hvalid, hchunks, hrecords]
  rfl

/-- The longest class for strings, in the smallest channel. -/
def Settings.cramped : Settings where
  copy := { stringClass := .custom 4072 }
  channels := { chunkCapacity := 8192 }

theorem settings_fit_their_channels_of_first :
    Traffic.Reached firstRelay.chunks Traffic.ofFirstRelay ∧
      ((Copy.Call.ofFirstRelay.activity.advance Traffic.ofFirstRelay.shared).1.Always
        (fun _ => True) fun o => ¬(o.status = .failed ∧ o.failure = some .capacity)) ∧
      ∃ size capacity,
        Settings.cramped.validate = .error (.invalid (.chunkTooLarge size capacity)) := by
  have hreached : Traffic.Reached firstRelay.chunks Traffic.ofFirstRelay :=
    ⟨⟨4194304, none, true⟩, Traffic.firstShared, _, [], rfl, .nil⟩
  have hmakes : firstRelay.Makes Copy.Call.ofFirstRelay := ⟨⟨7, rfl⟩, rfl⟩
  have hfits := settings_fit_their_channels.1 {} 0 0 Traffic.firstShared _ firstRelay
    (Prod.ext Relay.start_first rfl)
  have hcopy := hfits.1 Copy.Call.ofFirstRelay hmakes (by decide) nofun
  have hused : firstRelay.chunks.used Traffic.ofFirstRelay.shared = 0 := rfl
  have hfed := hcopy.2 Traffic.ofFirstRelay hreached (hused ▸ Nat.zero_le _)
  obtain ⟨band, max, hband, hmax, hiff⟩ :=
    settings_fit_their_channels.2 Settings.cramped (by decide)
  obtain rfl := Except.ok.inj (hband.symm.trans (show _ = Except.ok 8192 from rfl))
  obtain rfl := Except.ok.inj (hmax.symm.trans (show _ = Except.ok 2040 from rfl))
  exact ⟨hreached, hfed, hiff.mpr ⟨rfl, rfl, .inl (by decide)⟩⟩

end ChainRelay
