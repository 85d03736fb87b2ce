import Mathlib.Algebra.GroupWithZero.Nat
import Mathlib.Data.List.TakeWhile
import ChainRelay.Proofs.Channel.Traffic

/-!
What a channel that is attached to must be. The control block in the file is another party's word: a
band is taken as it is declared there if its capacity is a power of two and it ends inside the file
(`Shared.openBand_eq_ok_iff`). That the capacity and the place of the band are those of a channel
that was laid out (`Ring.Band.LaidOut`) is not looked at, nor is where the cursors stand, and the
sum of offset and capacity may leave the range of sizes.
-/

namespace ChainRelay

open ChainRelay.Ring

theorem isPower_iff {n : Nat} : isPower n = true ↔ ∃ k, n = 2 ^ k := by
  simp only [isPower, bne_iff_ne, Nat.one_shiftLeft, Bool.and_eq_true, beq_iff_eq]
  constructor
  · rintro ⟨-, h⟩
    exact ⟨_, h.symm⟩
  · rintro ⟨k, rfl⟩
    exact ⟨Nat.ne_of_gt (Nat.two_pow_pos k), by rw [Nat.log2_two_pow]⟩

/-- A short name without slashes may stand for a file, and for a new one. -/
theorem Directory.checkName_plain (d : Directory) {system : System} {name : String}
    (hzero : '\x00' ∉ name.toList) (hslash : '/' ∉ name.toList)
    (hname : name.utf8ByteSize ≤ system.longestName)
    (hpath : (path name).utf8ByteSize ≤ system.longestPath) :
    d.checkName system name = .ok () ∧ d.checkNewName system name = .ok () := by
  have hchecked : checkPath system name = .ok () := by
    unfold checkPath
    rw [if_neg (by simpa using hzero), if_neg (Nat.not_lt.mpr hpath)]
  have hkeep : ∀ c ∈ name.toList, decide (c ≠ '/') = true := fun c hc =>
    decide_eq_true fun he => hslash (he ▸ hc)
  have hbase : baseName name = name := by
    rw [baseName, List.takeWhile_eq_self_iff.mpr hkeep, String.ofList_toList]
  have hnames : namesDirectory name = false := by
    rw [namesDirectory, List.dropWhile_eq_nil_iff.mpr hkeep]
    rfl
  have hcheck : d.checkName system name = .ok () := by
    simp only [checkName, hchecked, hbase, if_neg (Nat.not_lt.mpr hname), if_true, bind,
      Except.bind]
  refine ⟨hcheck, ?_⟩
  simp only [checkNewName, hchecked, hnames, hcheck, Bool.false_eq_true, if_false, bind,
    Except.bind]

namespace Ring.Band

/-- The band that a control block declares. -/
structure Declared (b : Band) (m : Memory) : Prop extends b.Described m where
  power : ∃ k, b.capacity = 2 ^ k

/-- The band of a channel that was laid out. -/
structure LaidOut (b : Band) : Prop where
  power : ∃ k, b.capacity = 2 ^ k
  capacity_min : minCapacity ≤ b.capacity
  offset_min : headerSpan ≤ b.offset
  offset_aligned : b.offset % 8 = 0

variable {b : Band} {m : Memory} {size : Nat}

theorem Described.eq {b' : Band} (h : b.Described m) (h' : b'.Described m) : b' = b := by
  obtain ⟨offset, capacity⟩ := b
  obtain ⟨offset', capacity'⟩ := b'
  rw [Band.mk.injEq]
  exact ⟨h'.offset_eq.symm.trans h.offset_eq, h'.capacity_eq.symm.trans h.capacity_eq⟩

theorem maxRecordLength_eq_error_iff (b : Band) :
    b.maxRecordLength = .error .overflow ↔ b.capacity < 32 := by
  unfold maxRecordLength recordHeaderSize
  split
  · simp only [true_iff]
    omega
  · simp only [reduceCtorEq, false_iff]
    omega

theorem mod_eight_of_power (hpower : ∃ k, b.capacity = 2 ^ k) (hlarge : 32 ≤ b.capacity) :
    b.capacity % 8 = 0 := by
  obtain ⟨k, hk⟩ := hpower
  have h3 : 3 ≤ k := by
    refine (Nat.pow_le_pow_iff_right (a := 2) (by decide)).mp ?_
    omega
  rw [hk]
  exact Nat.mod_eq_zero_of_dvd (Nat.pow_dvd_pow 2 h3)

/-- Padding that begins at a multiple of eight has room for its header. -/
theorem padding_of_aligned (hcap : b.capacity % 8 = 0) {pos : Nat} (hpos : pos % 8 = 0)
    (size : Nat) : ¬(0 < (b.placement pos size).padding ∧
      (b.placement pos size).padding < recordHeaderSize) := by
  have hmod : pos % b.capacity % 8 = 0 := by
    rw [Nat.mod_mod_of_dvd pos (Nat.dvd_of_mod_eq_zero hcap)]
    exact hpos
  simp only [placement, recordHeaderSize]
  split <;> omega

section InOrder

variable (hpower : ∃ k, b.capacity = 2 ^ k) (hlarge : 32 ≤ b.capacity)
  (hused : b.used m ≤ b.capacity) (haligned : produced m % 8 = 0)
include hpower hlarge hused haligned

/-- A band need not have been laid out, nor hold records: it must have room for one, and its cursors
must be in order. -/
theorem place_in_order (size : Nat) : b.place size m =
    if size = 0 ∨ b.longest < size then .error (.invalidSize size b.longest)
    else if b.capacity < b.used m + (b.placement (produced m) size).padding + span size then
      .error (.full size (b.capacity - b.used m))
    else .ok (b.placement (produced m) size) := by
  have hmax : b.maxRecordLength = .ok b.longest := by
    refine if_neg ?_
    simp only [recordHeaderSize]
    omega
  have hfree : b.free m = .ok (b.capacity - b.used m) := if_pos hused
  have hpad := padding_of_aligned (mod_eight_of_power hpower hlarge) haligned size
  simp only [place, hmax, hfree, if_neg hpad]

theorem reserve_in_range (hmore : ¬b.Exhausted m size) :
    (b.reserve size m).1 ≠ .error .overflow := by
  have hplace := place_in_order hpower hlarge hused haligned size
  split at hplace
  · simp [reserve, hplace]
  · split at hplace
    · simp [reserve, hplace]
    · have hstop : ¬sizeLimit ≤ _ := hmore
      simp [reserve, hplace, hstop]

end InOrder

end Ring.Band

namespace Shared

variable {size : Nat} {m : Memory} {b : Band}

/-- The end of a declared band is computed before it is compared with anything. -/
theorem openBand_of_declared (h : b.Declared m) (size : Nat) : openBand size m =
    if sizeLimit ≤ b.offset + b.capacity then .error .overflow
    else if size < b.offset + b.capacity then .error .bandOutside
    else .ok b := by
  simp only [openBand, h.magic_eq, h.version_eq, h.capacity_eq, h.offset_eq,
    isPower_iff.mpr h.power, ne_eq, not_true_eq_false, if_false, if_true]

theorem openBand_of_undeclared (h : ∀ b : Band, ¬b.Declared m) (size : Nat) :
    ∃ e, openBand size m = .error e ∧ e.kind = .invalidData := by
  unfold openBand
  dsimp only
  split
  · exact ⟨_, rfl, rfl⟩
  rename_i hmagic
  split
  · exact ⟨_, rfl, rfl⟩
  rename_i hversion
  split
  · rename_i hpower
    exact absurd ⟨⟨not_not.mp hmagic, not_not.mp hversion, rfl, rfl⟩, isPower_iff.mp hpower⟩
      (h ⟨storedOffset m, storedCapacity m⟩)
  · exact ⟨_, rfl, rfl⟩

/-- What becomes of a control block: a declared band is compared with the region, and nothing else
is taken. -/
theorem openBand_cases (size : Nat) (m : Memory) :
    (∃ b : Band, b.Declared m ∧ openBand size m =
      if sizeLimit ≤ b.offset + b.capacity then .error .overflow
      else if size < b.offset + b.capacity then .error .bandOutside
      else .ok b) ∨
    (∀ b : Band, ¬b.Declared m) ∧ ∃ e, openBand size m = .error e ∧ e.kind = .invalidData := by
  by_cases h : ∃ b : Band, b.Declared m
  · obtain ⟨b, hb⟩ := h
    exact .inl ⟨b, hb, openBand_of_declared hb size⟩
  · have h := not_exists.mp h
    exact .inr ⟨h, openBand_of_undeclared h size⟩

/-- A band is taken if it is declared and ends inside the region. -/
theorem openBand_eq_ok_iff : openBand size m = .ok b ↔
    b.Declared m ∧ b.offset + b.capacity < sizeLimit ∧ b.offset + b.capacity ≤ size := by
  rcases openBand_cases size m with ⟨d, hd, he⟩ | ⟨hnone, e, he, -⟩
  · rw [he]
    constructor
    · intro h
      split at h
      · cases h
      split at h
      · cases h
      obtain rfl := Except.ok.inj h
      exact ⟨hd, by omega, by omega⟩
    · rintro ⟨hb, hrange, hinside⟩
      obtain rfl := hd.toDescribed.eq hb.toDescribed
      rw [if_neg (by omega), if_neg (by omega)]
  · rw [he]
    exact iff_of_false (nofun) fun h => hnone b h.1

theorem openBand_eq_overflow_iff : openBand size m = .error .overflow ↔
    ∃ b : Band, b.Declared m ∧ sizeLimit ≤ b.offset + b.capacity := by
  rcases openBand_cases size m with ⟨d, hd, he⟩ | ⟨hnone, e, he, hkind⟩
  · rw [he]
    constructor
    · intro h
      split at h
      · exact ⟨d, hd, ‹_›⟩
      · split at h <;> cases h
    · rintro ⟨b, hb, hrange⟩
      obtain rfl := hd.toDescribed.eq hb.toDescribed
      exact if_pos hrange
  · rw [he]
    refine iff_of_false (fun h => ?_) fun ⟨b, hb, _⟩ => hnone b hb
    cases h
    cases hkind

theorem openBand_kind {e : SetupError} (h : openBand size m = .error e) :
    e.kind = .invalidData ∨ e = .overflow := by
  rcases openBand_cases size m with ⟨d, -, he⟩ | ⟨-, e', he, hkind⟩
  · rw [he] at h
    split at h
    · cases h
      exact .inr rfl
    split at h
    · cases h
      exact .inl rfl
    · cases h
  · cases he.symm.trans h
    exact .inl hkind

/-- Who builds a channel lays it out. -/
theorem buildChannel_laidOut {plan : ChannelPlan} {s s' : Shared} {c : Channel}
    (h : s.buildChannel plan = (.ok c, s')) : c.band.LaidOut := by
  obtain ⟨hoffset, hcapacity⟩ := buildChannel_band h
  have hmin := (regular_of_bandCapacity hcapacity).1.capacity_min
  refine ⟨?_, hmin, Nat.le_of_eq hoffset.symm, by rw [hoffset]; rfl⟩
  unfold bandCapacity checkedSize at hcapacity
  split at hcapacity
  · rw [← Except.ok.inj hcapacity]
    exact isPower_iff.mp (isPower_powerAbove _)
  · cases hcapacity

section File

variable {name : String} {s : Shared} {file : SharedFile}
  (hname : s.directory.checkName s.system name = .ok ())
  (hfile : s.directory.find? name = some file) (hmap : s.system.mapFault? name file.size = none)
include hname hfile hmap

/-- A file that can be mapped is a channel if it has a control block that declares one. -/
theorem attachChannel_file : s.attachChannel name =
    if file.size < headerSpan then .error (.fileTooSmall headerSpan file.size)
    else (openBand file.size (s.regions.get file.region)).map (⟨file.region, ·, some name⟩) := by
  unfold attachChannel openFile
  simp only [hname, hfile]
  split
  · rfl
  · rename_i hsize
    have hpos : file.size ≠ 0 := fun he => hsize (by rw [he]; decide)
    simp only [mapFile, if_neg hpos, hmap, bind, Except.bind]
    cases openBand file.size (s.regions.get file.region) <;> rfl

theorem attachChannel_eq_ok_iff (hsize : file.size < sizeLimit) (v : Channel) :
    s.attachChannel name = .ok v ↔
      headerSpan ≤ file.size ∧ v.band.Declared (s.regions.get file.region) ∧
        v.band.offset + v.band.capacity ≤ file.size ∧ v.region = file.region ∧
        v.name = some name := by
  have hrange {n : Nat} (hn : n ≤ file.size) : n < sizeLimit := Nat.lt_of_le_of_lt hn hsize
  obtain ⟨region, band, name'⟩ := v
  rw [attachChannel_file hname hfile hmap]
  split
  · rename_i hsize
    exact iff_of_false (nofun) fun h => absurd h.1 (Nat.not_le.mpr hsize)
  · rename_i hsize
    rw [and_iff_right (Nat.le_of_not_lt hsize)]
    have hband : openBand file.size (s.regions.get file.region) = .ok band ↔ _ :=
      openBand_eq_ok_iff
    cases hb : openBand file.size (s.regions.get file.region) with
    | error e =>
      rw [hb] at hband
      refine iff_of_false (nofun) fun ⟨hdeclared, hinside, _⟩ => ?_
      cases hband.mpr ⟨hdeclared, hrange hinside, hinside⟩
    | ok b =>
      rw [hb, Except.ok.injEq] at hband
      simp only [Except.map, Except.ok.injEq, Channel.mk.injEq, hband]
      constructor
      · rintro ⟨rfl, ⟨hdeclared, -, hinside⟩, rfl⟩
        exact ⟨hdeclared, hinside, rfl, rfl⟩
      · rintro ⟨hdeclared, hinside, rfl, rfl⟩
        exact ⟨rfl, ⟨hdeclared, hrange hinside, hinside⟩, rfl⟩

theorem attachChannel_kind {e : SetupError} (h : s.attachChannel name = .error e) :
    e.kind = .invalidData ∨ e = .overflow := by
  rw [attachChannel_file hname hfile hmap] at h
  split at h
  · cases h
    exact .inl rfl
  · cases hb : openBand file.size (s.regions.get file.region) with
    | error e' =>
      rw [hb] at h
      cases h
      exact openBand_kind hb
    | ok b =>
      rw [hb] at h
      cases h

theorem attachChannel_eq_overflow_iff : s.attachChannel name = .error .overflow ↔
    headerSpan ≤ file.size ∧
      ∃ b : Band, b.Declared (s.regions.get file.region) ∧ sizeLimit ≤ b.offset + b.capacity := by
  have hband : openBand file.size (s.regions.get file.region) = .error .overflow ↔ _ :=
    openBand_eq_overflow_iff
  rw [attachChannel_file hname hfile hmap, ← hband]
  split
  · rename_i hsize
    exact iff_of_false (nofun) fun h => absurd h.1 (Nat.not_le.mpr hsize)
  · rename_i hsize
    rw [and_iff_right (Nat.le_of_not_lt hsize)]
    cases openBand file.size (s.regions.get file.region) <;> simp [Except.map]

/-- The channel in a file is taken as the control block declares it, if its capacity is a power of
two and its band ends inside the file; it is one that was laid out just if the block says so. All
other files are refused as invalid, except where the end of the band leaves the range of sizes. In a
channel that was taken, reservations have a greatest length just if the band has 32 bytes, and then
their arithmetic stays in range as long as the cursors are in order and not at their end. -/
theorem attached_band_is_the_declared_one (hsize : file.size < sizeLimit) :
    (∀ v : Channel, s.attachChannel name = .ok v ↔ headerSpan ≤ file.size ∧
      v.band.Declared (s.regions.get file.region) ∧ v.band.offset + v.band.capacity ≤ file.size ∧
      v.region = file.region ∧ v.name = some name) ∧
    (∀ e, s.attachChannel name = .error e → e.kind = .invalidData ∨ e = .overflow) ∧
    (s.attachChannel name = .error .overflow ↔ headerSpan ≤ file.size ∧
      ∃ b : Band, b.Declared (s.regions.get file.region) ∧ sizeLimit ≤ b.offset + b.capacity) ∧
    ∀ v : Channel, s.attachChannel name = .ok v →
      (v.band.LaidOut ↔ minCapacity ≤ storedCapacity (s.regions.get file.region) ∧
        headerSpan ≤ storedOffset (s.regions.get file.region) ∧
        storedOffset (s.regions.get file.region) % 8 = 0) ∧
      (v.band.maxRecordLength = .error .overflow ↔ v.band.capacity < 32) ∧
      ∀ (size : Nat) (t : Shared), (v.reserve size t).1 = .error .overflow →
        v.band.capacity < 32 ∨ v.band.capacity < v.used t ∨ produced (v.memory t) % 8 ≠ 0 ∨
          v.Exhausted t size := by
  have htaken := attachChannel_eq_ok_iff hname hfile hmap hsize
  refine ⟨htaken, fun e => attachChannel_kind hname hfile hmap,
    attachChannel_eq_overflow_iff hname hfile hmap, fun v hv => ?_⟩
  obtain ⟨-, hdeclared, -⟩ := (htaken v).mp hv
  refine ⟨?_, v.band.maxRecordLength_eq_error_iff, fun size t hover => ?_⟩
  · rw [hdeclared.capacity_eq, hdeclared.offset_eq]
    exact ⟨fun h => ⟨h.capacity_min, h.offset_min, h.offset_aligned⟩,
      fun ⟨hmin, hoffset, haligned⟩ => ⟨hdeclared.power, hmin, hoffset, haligned⟩⟩
  · have hband := (Channel.Views.refl v).reserve_refused (Prod.ext hover rfl)
    refine Classical.byContradiction fun hnot => ?_
    simp only [not_or, Nat.not_lt, not_not] at hnot
    obtain ⟨hlarge, hused, haligned, hmore⟩ := hnot
    exact Band.reserve_in_range hdeclared.power hlarge hused haligned hmore
      (congrArg Prod.fst hband)

end File

def smallBand : Shared :=
  { Traffic.firstShared with
    regions := (Sparse.const .blank).set 0 (writeHeader .blank 1024 true)
    directory := ⟨[("p", ⟨0, headerSpan + 1024⟩)]⟩ }

theorem checkName_smallBand : smallBand.directory.checkName smallBand.system "p" = .ok () :=
  (smallBand.directory.checkName_plain (by decide) (by decide) (by decide) (by decide)).1

/-- The small band is taken, though no channel is laid out in so few bytes. -/
theorem attached_band_is_the_declared_one_of_small :
    smallBand.directory.checkName smallBand.system "p" = .ok () ∧
      smallBand.directory.find? "p" = some ⟨0, headerSpan + 1024⟩ ∧
      smallBand.system.mapFault? "p" (headerSpan + 1024) = none ∧
      headerSpan + 1024 < sizeLimit ∧
      smallBand.attachChannel "p" = .ok ⟨0, ⟨headerSpan, 1024⟩, some "p"⟩ ∧
      ¬Band.LaidOut ⟨headerSpan, 1024⟩ := by
  have hfile : smallBand.directory.find? "p" = some ⟨0, headerSpan + 1024⟩ := rfl
  have hmap : smallBand.system.mapFault? "p" (headerSpan + 1024) = none := rfl
  have hsize : headerSpan + 1024 < sizeLimit := by decide
  obtain ⟨htaken, -, -, hlaid⟩ :=
    attached_band_is_the_declared_one checkName_smallBand hfile hmap hsize
  have hattach := (htaken ⟨0, ⟨headerSpan, 1024⟩, some "p"⟩).mpr
    ⟨by decide, ⟨⟨rfl, rfl, rfl, rfl⟩, 10, rfl⟩, Nat.le_refl _, rfl, rfl⟩
  refine ⟨checkName_smallBand, hfile, hmap, hsize, hattach, fun h => ?_⟩
  exact absurd h.capacity_min (by decide)

end Shared
end ChainRelay
