import ChainRelay.Proofs.Channel.Attachment
import ChainRelay.Proofs.Settings.Fit

/-!
What a start that fails leaves behind. The two channels are built one after the other, each by
emptying its file, sizing, mapping and heading it, and nothing is undone when a later step fails,
for whatever reason the system has. All other files are spared
(`Relay.failed_start_changes_its_own_files`).
-/

namespace ChainRelay

open ChainRelay.Ring

theorem Directory.find?_erase (d : Directory) {name other : String} (h : other ≠ name) :
    (d.erase name).find? other = d.find? other := by
  obtain ⟨entries⟩ := d
  show (entries.filter (·.1 ≠ name)).lookup other = entries.lookup other
  induction entries with
  | nil => rfl
  | cons e entries ih =>
    obtain ⟨key, f⟩ := e
    by_cases hkey : key = name
    · have hother : (other == key) = false := beq_eq_false_iff_ne.mpr (hkey ▸ h)
      rw [List.filter_cons_of_neg (by simpa using hkey), List.lookup_cons, hother]
      exact ih
    · rw [List.filter_cons_of_pos (by simpa using hkey), List.lookup_cons, List.lookup_cons, ih]

theorem Directory.find?_insert (d : Directory) (name other : String) (f : SharedFile) :
    (d.insert name f).find? other = if other = name then some f else d.find? other := by
  show List.lookup other ((name, f) :: (d.erase name).entries) = _
  rw [List.lookup_cons]
  by_cases h : other = name
  · simp [h]
  · have hother : (other == name) = false := beq_eq_false_iff_ne.mpr h
    rw [hother, if_neg h]
    exact d.find?_erase h

namespace Shared

def file? (s : Shared) (name : String) : Option (SharedFile × Memory) :=
  (s.directory.find? name).map fun f => (f, s.regions.get f.region)

theorem map_file? (s : Shared) (name : String) :
    (s.file? name).map (·.1) = s.directory.find? name := by
  simp [file?, Function.comp_def]

/-- Every name has a file of its own, and regions that were never used are blank. -/
structure Filed (s : Shared) : Prop where
  used : ∀ name f, s.directory.find? name = some f → f.region < s.freshRegion
  apart : ∀ name other f g, s.directory.find? name = some f → s.directory.find? other = some g →
    f.region = g.region → name = other
  fresh : ∀ n, s.freshRegion ≤ n → s.regions.get n = .blank

/-- The files of all other names are as they were. Those of these names may hold other bytes and
have another size, but none was removed or replaced. -/
structure Spares (names : List String) (s s' : Shared) : Prop where
  others : ∀ name, name ∉ names → s'.file? name = s.file? name
  same : ∀ name f, s.directory.find? name = some f →
    ∃ size, s'.directory.find? name = some ⟨f.region, size⟩
  filed : s'.Filed

variable {s s' s'' : Shared} {names more : List String} {name : String} {id size : Nat}

theorem Spares.refl (hs : s.Filed) (names : List String) : Spares names s s :=
  ⟨fun _ _ => rfl, fun _ f hf => ⟨f.size, hf⟩, hs⟩

theorem Spares.mono (h : Spares names s s') (hsub : ∀ name ∈ names, name ∈ more) :
    Spares more s s' :=
  ⟨fun name hn => h.others name fun hin => hn (hsub name hin), h.same, h.filed⟩

theorem Spares.trans (h : Spares names s s') (h' : Spares more s' s'') :
    Spares (names ++ more) s s'' where
  others name hn := by
    rw [List.mem_append, not_or] at hn
    rw [h'.others name hn.2, h.others name hn.1]
  same name f hf := by
    obtain ⟨size, hf'⟩ := h.same name f hf
    exact h'.same name ⟨f.region, size⟩ hf'
  filed := h'.filed

/-- A file gets another size, and perhaps other bytes. It is the one that was there, or a new
one. -/
structure Refiled (name : String) (id size : Nat) (s s' : Shared) : Prop where
  directory_eq : s'.directory = s.directory.insert name ⟨id, size⟩
  regions_eq : ∀ n, n ≠ id → s'.regions.get n = s.regions.get n
  origin : (∃ f, s.directory.find? name = some f ∧ f.region = id ∧
      s'.freshRegion = s.freshRegion) ∨
    s.directory.find? name = none ∧ id = s.freshRegion ∧ s'.freshRegion = id + 1

theorem Refiled.find? (h : Refiled name id size s s') (other : String) :
    s'.directory.find? other =
      if other = name then some ⟨id, size⟩ else s.directory.find? other := by
  rw [h.directory_eq, Directory.find?_insert]

theorem Refiled.lt_fresh (h : Refiled name id size s s') (hs : s.Filed) :
    id < s'.freshRegion ∧ s.freshRegion ≤ s'.freshRegion := by
  rcases h.origin with ⟨f, hf, rfl, hfresh⟩ | ⟨-, rfl, hfresh⟩
  · have hused := hs.used name f hf
    omega
  · omega

/-- No other name stands for this file. -/
theorem Refiled.region_ne (h : Refiled name id size s s') (hs : s.Filed) {other : String}
    {f : SharedFile} (hne : other ≠ name) (hf : s.directory.find? other = some f) :
    f.region ≠ id := by
  rintro rfl
  rcases h.origin with ⟨g, hg, hsame, -⟩ | ⟨-, hsame, -⟩
  · exact hne (hs.apart other name f g hf hg hsame.symm)
  · exact absurd (hs.used other f hf) (by omega)

theorem Refiled.filed (h : Refiled name id size s s') (hs : s.Filed) : s'.Filed := by
  obtain ⟨hlt, hle⟩ := h.lt_fresh hs
  constructor
  case used =>
    intro other f hf
    rw [h.find?] at hf
    split at hf
    · cases hf
      exact hlt
    · exact Nat.lt_of_lt_of_le (hs.used other f hf) hle
  case apart =>
    intro a b f g hf hg he
    rw [h.find?] at hf hg
    by_cases ha : a = name <;> by_cases hb : b = name
    · rw [ha, hb]
    · rw [if_pos ha] at hf
      rw [if_neg hb] at hg
      cases hf
      exact absurd he.symm (h.region_ne hs hb hg)
    · rw [if_neg ha] at hf
      rw [if_pos hb] at hg
      cases hg
      exact absurd he (h.region_ne hs ha hf)
    · rw [if_neg ha] at hf
      rw [if_neg hb] at hg
      exact hs.apart a b f g hf hg he
  case fresh =>
    intro n hn
    rw [h.regions_eq n (by omega)]
    exact hs.fresh n (by omega)

theorem Refiled.spares (h : Refiled name id size s s') (hs : s.Filed) : Spares [name] s s' := by
  refine ⟨fun other hne => ?_, fun other f hf => ?_, h.filed hs⟩
  · rw [List.mem_singleton] at hne
    unfold file?
    rw [h.find?, if_neg hne]
    cases hf : s.directory.find? other with
    | none => rfl
    | some f => simp only [Option.map_some, h.regions_eq _ (h.region_ne hs hne hf)]
  · rw [h.find?]
    split
    case isFalse => exact ⟨f.size, hf⟩
    case isTrue he =>
      subst he
      rcases h.origin with ⟨g, hg, rfl, -⟩ | ⟨hnone, -⟩
      · obtain rfl := Option.some.inj (hf.symm.trans hg)
        exact ⟨size, rfl⟩
      · cases hf.symm.trans hnone

/-- The bytes of a file change. -/
theorem spares_onRegion (hs : s.Filed) {f : SharedFile} (hf : s.directory.find? name = some f)
    (g : Memory → Memory) : Spares [name] s (s.onRegion f.region g) := by
  constructor
  case others =>
    intro other hne
    rw [List.mem_singleton] at hne
    show (s.directory.find? other).map _ = (s.directory.find? other).map _
    cases ho : s.directory.find? other with
    | none => rfl
    | some f' =>
      have hapart : f.region ≠ f'.region := fun he => hne (hs.apart name other f f' hf ho he).symm
      simp only [Option.map_some, get_onRegion, if_neg hapart]
  case same => exact fun _ f' hf' => ⟨f'.size, hf'⟩
  case filed =>
    refine ⟨hs.used, hs.apart, fun n hn => ?_⟩
    have hused := hs.used name f hf
    have hne : f.region ≠ n := fun he => by
      have : s.freshRegion ≤ n := hn
      omega
    rw [get_onRegion, if_neg hne]
    exact hs.fresh n hn

/-- What becomes of a file that a channel is built in: all its bytes are zero, of which there may be
none, or it has the header of an empty channel. -/
def Renewed (name : String) (notify : Bool) (s : Shared) : Prop :=
  ∃ f m, s.file? name = some (f, m) ∧
    (m = .blank ∨ ∃ capacity, m = writeHeader .blank capacity notify)

theorem truncateFile_spec (hs : s.Filed) (name : String) :
    Spares [name] s (s.truncateFile name).2 ∧
      (s.truncateFile name).2.file? name = some (⟨(s.truncateFile name).1, 0⟩, .blank) := by
  unfold truncateFile
  cases hf : s.directory.find? name with
  | some f =>
    refine ⟨Refiled.spares ⟨rfl, fun n hn => ?_, .inl ⟨f, hf, rfl, rfl⟩⟩ hs, ?_⟩
    · exact Sparse.get_set_other _ _ (Ne.symm hn)
    · simp [file?, Directory.find?_insert]
  | none =>
    refine ⟨Refiled.spares ⟨rfl, fun _ _ => rfl, .inr ⟨hf, rfl, rfl⟩⟩ hs, ?_⟩
    simp [file?, Directory.find?_insert, hs.fresh _ (Nat.le_refl _)]

/-- A file is left alone, emptied, or given its size, and the last also when it cannot be mapped. -/
theorem createFile_cases (hs : s.Filed) (name : String) (size : Nat) :
    (∃ e, s.createFile name size = (.error e, s)) ∨
      ∃ f s', Spares [name] s s' ∧ s'.file? name = some (f, .blank) ∧
        ((∃ e, s.createFile name size = (.error e, s')) ∨
          s.createFile name size = (.ok ⟨f.region, f.size, .file⟩, s')) := by
  unfold createFile
  cases Region.roundedSize size with
  | error => exact .inl ⟨_, rfl⟩
  | ok size =>
    dsimp only
    cases s.directory.checkNewName s.system name with
    | error cause => exact .inl ⟨_, rfl⟩
    | ok =>
      obtain ⟨hspares, hfile⟩ := truncateFile_spec hs name
      rcases ht : s.truncateFile name with ⟨id, s₁⟩
      rw [ht] at hspares hfile
      dsimp only at hspares hfile ⊢
      by_cases hlarge : Region.largestFile < size
      · rw [if_pos hlarge]
        exact .inr ⟨_, s₁, hspares, hfile, .inl ⟨_, rfl⟩⟩
      rw [if_neg hlarge]
      obtain ⟨f, hf, heq⟩ := Option.map_eq_some_iff.mp hfile
      obtain ⟨rfl, hblank⟩ := Prod.mk.inj heq
      have hsized : Refiled name id size s₁
          { s₁ with directory := s₁.directory.insert name ⟨id, size⟩ } :=
        ⟨rfl, fun _ _ => rfl, .inl ⟨_, hf, rfl, rfl⟩⟩
      have hall := hspares.trans (hsized.spares hspares.filed)
      refine .inr ⟨⟨id, size⟩, _, hall.mono (by simp), ?_, ?_⟩
      · simp [file?, Directory.find?_insert, hblank]
      · unfold mapFile
        split
        · exact .inl ⟨_, rfl⟩
        · split
          · exact .inl ⟨_, rfl⟩
          · exact .inr rfl

theorem createFile_refused {cause : SystemError}
    (h : s.directory.checkNewName s.system name = .error cause) (size : Nat) :
    ∃ e, s.createFile name size = (.error e, s) := by
  unfold createFile
  cases Region.roundedSize size with
  | error => exact ⟨_, rfl⟩
  | ok size => exact ⟨_, by rw [h]⟩

/-- A private region is no file. -/
theorem spares_private (hs : s.Filed) (hd : s'.directory = s.directory)
    (hfresh : s'.freshRegion = s.freshRegion + 1)
    (hr : ∀ n, n ≠ s.freshRegion → s'.regions.get n = s.regions.get n) : Spares [] s s' := by
  constructor
  case others =>
    intro name _
    unfold file?
    rw [hd]
    cases hf : s.directory.find? name with
    | none => rfl
    | some f =>
      have hused := hs.used name f hf
      simp only [Option.map_some, hr f.region (by omega)]
  case same => exact fun name f hf => ⟨f.size, by rw [hd]; exact hf⟩
  case filed =>
    constructor
    case used =>
      intro name f hf
      rw [hd] at hf
      have hused := hs.used name f hf
      omega
    case apart =>
      intro a b f g hf hg
      rw [hd] at hf hg
      exact hs.apart a b f g hf hg
    case fresh =>
      intro n hn
      rw [hr n (by omega)]
      exact hs.fresh n (by omega)

theorem allocateRegion_cases (size : Nat) (s : Shared) :
    (∃ e, s.allocateRegion size = (.error e, s)) ∨
      ∃ rounded, s.allocateRegion size = (.ok ⟨s.freshRegion, rounded, .heap⟩,
        { s with freshRegion := s.freshRegion + 1 }) := by
  unfold allocateRegion
  split
  · exact .inl ⟨_, rfl⟩
  cases Region.roundedSize size with
  | error => exact .inl ⟨_, rfl⟩
  | ok rounded =>
    dsimp only
    split
    · exact .inl ⟨_, rfl⟩
    · split
      · exact .inr ⟨rounded, rfl⟩
      · exact .inl ⟨_, rfl⟩

/-- Building a channel changes no file but its own. -/
theorem buildChannel_spares (hs : s.Filed) (plan : ChannelPlan) :
    Spares plan.name.toList s (s.buildChannel plan).2 ∧
      ∀ name, plan.name = some name →
        (s.buildChannel plan).2.file? name = s.file? name ∨
          (s.buildChannel plan).2.Renewed name plan.notify := by
  unfold buildChannel
  cases bandCapacity plan.capacity with
  | error => exact ⟨.refl hs _, fun _ _ => .inl rfl⟩
  | ok capacity =>
    obtain ⟨asked, name, notify⟩ := plan
    cases name with
    | none =>
      refine ⟨?_, nofun⟩
      dsimp only [createRegion, Option.toList_none]
      rcases s.allocateRegion_cases (headerSpan + capacity) with ⟨e, ha⟩ | ⟨size, ha⟩
      · rw [ha]
        exact .refl hs _
      · rw [ha]
        refine spares_private hs rfl rfl fun n hn => ?_
        exact Sparse.get_modify_other _ _ (Ne.symm hn)
    | some name =>
      dsimp only [createRegion, Option.toList_some]
      rcases createFile_cases hs name (headerSpan + capacity) with
        ⟨e, hc⟩ | ⟨f, s₁, hspares, hfile, hc⟩
      · rw [hc]
        exact ⟨.refl hs _, fun _ _ => .inl rfl⟩
      have hblank (other : String) (ho : some name = some other) :
          s₁.file? other = s.file? other ∨ s₁.Renewed other notify := by
        obtain rfl := Option.some.inj ho
        exact .inr ⟨f, .blank, hfile, .inl rfl⟩
      rcases hc with ⟨e, hc⟩ | hc
      · rw [hc]
        exact ⟨hspares, hblank⟩
      rw [hc]
      obtain ⟨g, hg, heq⟩ := Option.map_eq_some_iff.mp hfile
      obtain ⟨rfl, hmem⟩ := Prod.mk.inj heq
      have hreported : (s₁.report (.channelBuilt capacity (some name))).Filed :=
        ⟨hspares.filed.used, hspares.filed.apart, hspares.filed.fresh⟩
      have hheaded := spares_onRegion hreported hg (writeHeader · capacity notify)
      refine ⟨(hspares.trans ⟨hheaded.others, hheaded.same, hheaded.filed⟩).mono (by simp), ?_⟩
      rintro other ⟨⟩
      refine .inr ⟨g, _, ?_, .inr ⟨capacity, rfl⟩⟩
      show (s₁.directory.find? name).map _ = _
      rw [hg, Option.map_some, get_onRegion_same]
      exact congrArg (fun m => some (g, writeHeader m capacity notify)) hmem

/-- A channel that may not have its name changes nothing. -/
theorem buildChannel_refused {cause : SystemError}
    (h : s.directory.checkNewName s.system name = .error cause) (asked : Nat) (notify : Bool) :
    ∃ e, s.buildChannel ⟨asked, some name, notify⟩ = (.error e, s) := by
  unfold buildChannel
  cases bandCapacity asked with
  | error => exact ⟨_, rfl⟩
  | ok capacity =>
    obtain ⟨e, he⟩ := createFile_refused h (headerSpan + capacity)
    dsimp only [createRegion]
    rw [he]
    exact ⟨e, rfl⟩

theorem Renewed.of_file? {notify : Bool} (h : s.Renewed name notify)
    (he : s'.file? name = s.file? name) : s'.Renewed name notify := by
  unfold Renewed
  rw [he]
  exact h

end Shared

theorem ChannelSettings.names_ne {c : ChannelSettings} {chunks records : String}
    (hc : c.chunkChannelName = some chunks) (hr : c.recordChannelName = some records) :
    chunks ≠ records := by
  obtain ⟨stem, hstem, rfl⟩ := Option.map_eq_some_iff.mp hc
  obtain ⟨stem', hstem', rfl⟩ := Option.map_eq_some_iff.mp hr
  obtain rfl := Option.some.inj (hstem.symm.trans hstem')
  intro he
  have hlist := congrArg String.toList he
  rw [String.toList_append, String.toList_append] at hlist
  exact absurd (List.append_cancel_left hlist) (by decide)

namespace Relay

variable {settings : Settings} {ids tally : Nat} {s s' : Shared} {e : SetupError}

/-- How a start fails: nothing is built, or the chunk channel is not, or the record channel after
it. -/
theorem start_error (h : start settings ids tally s = (.error e, s')) :
    (settings.validate ≠ .ok () ∧ s' = s) ∨
    settings.validate = .ok () ∧
      (s.buildChannel (chunkPlan settings.channels) = (.error e, s') ∨
        ∃ chunks s₁, s.buildChannel (chunkPlan settings.channels) = (.ok chunks, s₁) ∧
          s₁.buildChannel (recordPlan settings.channels) = (.error e, s')) := by
  unfold start at h
  cases hv : settings.validate with
  | error cause =>
    rw [hv] at h
    cases h
    exact .inl ⟨nofun, rfl⟩
  | ok =>
    rw [hv] at h
    dsimp only at h
    split at h
    · rename_i hchunks
      cases h
      exact .inr ⟨rfl, .inl hchunks⟩
    · rename_i chunks s₁ hchunks
      split at h
      · rename_i hrecords
        cases h
        exact .inr ⟨rfl, .inr ⟨chunks, s₁, hchunks, hrecords⟩⟩
      · cases h

/-- No file is named for records unless one is for chunks. -/
theorem recordChannelName_none {c : ChannelSettings} (h : c.chunkChannelName = none) :
    c.recordChannelName = none := by
  rw [ChannelSettings.recordChannelName, Option.map_eq_none_iff]
  exact Option.map_eq_none_iff.mp h

/-- A chunk channel without a name that it may have is private, or is not built. -/
theorem chunkChannel_unnamed {c : ChannelSettings}
    (h : ∀ name, c.chunkChannelName = some name →
      ∃ cause, s.directory.checkNewName s.system name = .error cause) :
    c.chunkChannelName = none ∨
      ∃ e, s.buildChannel (chunkPlan c) = (.error e, s) := by
  cases hn : c.chunkChannelName with
  | none => exact .inl rfl
  | some name =>
    obtain ⟨cause, hcause⟩ := h name hn
    rw [chunkPlan, hn]
    exact .inr (Shared.buildChannel_refused hcause c.chunkCapacity c.notify)

/-- A start that fails changes no file but the two that it names, and removes or replaces none. It
changes nothing if the settings are refused, if the channels are private, or if the system refuses
the name of the chunk channel; and the file for records only once the chunk channel is built. What
it changes it leaves without bytes other than zero, or as an empty channel. -/
theorem failed_start_changes_its_own_files (hs : s.Filed)
    (h : start settings ids tally s = (.error e, s')) :
    let c := settings.channels
    s.Spares (c.chunkChannelName.toList ++ c.recordChannelName.toList) s' ∧
    ((settings.validate ≠ .ok () ∨ ∀ name, c.chunkChannelName = some name →
        ∃ cause, s.directory.checkNewName s.system name = .error cause) → s.Spares [] s') ∧
    ((∀ chunks s₁, s.buildChannel (chunkPlan c) ≠ (.ok chunks, s₁)) →
      s.Spares c.chunkChannelName.toList s') ∧
    ∀ name, c.chunkChannelName = some name ∨ c.recordChannelName = some name →
      s'.file? name = s.file? name ∨ s'.Renewed name c.notify := by
  intro c
  have hrecord {name : String} (hn : c.recordChannelName = some name) :
      name ∉ c.chunkChannelName.toList := by
    intro hin
    exact ChannelSettings.names_ne (Option.mem_toList.mp hin) hn rfl
  have hchunk {name : String} (hn : c.chunkChannelName = some name) :
      name ∉ c.recordChannelName.toList := by
    intro hin
    exact ChannelSettings.names_ne hn (Option.mem_toList.mp hin) rfl
  rcases start_error h with ⟨-, rfl⟩ | ⟨hvalid, hchunks | ⟨chunks, s₁, hchunks, hrecords⟩⟩
  · exact ⟨.refl hs _, fun _ => .refl hs _, fun _ => .refl hs _, fun _ _ => .inl rfl⟩
  · obtain ⟨hspares, hfile⟩ := Shared.buildChannel_spares hs (chunkPlan c)
    rw [hchunks] at hspares hfile
    refine ⟨hspares.mono fun _ => List.mem_append_left _, fun hnone => ?_, fun _ => hspares, ?_⟩
    · have hunnamed := hnone.resolve_left fun hv => hv hvalid
      rcases chunkChannel_unnamed hunnamed with hn | ⟨e', he⟩
      · rwa [chunkPlan, hn] at hspares
      · cases hchunks.symm.trans he
        exact .refl hs _
    · rintro name (hn | hn)
      · exact hfile name hn
      · exact .inl (hspares.others name (hrecord hn))
  · obtain ⟨hspares, hfile⟩ := Shared.buildChannel_spares hs (chunkPlan c)
    rw [hchunks] at hspares hfile
    obtain ⟨hspares', hfile'⟩ :=
      Shared.buildChannel_spares hspares.filed (recordPlan c)
    rw [hrecords] at hspares' hfile'
    refine ⟨hspares.trans hspares', fun hnone => ?_, fun hno => absurd hchunks (hno _ _), ?_⟩
    · have hunnamed := hnone.resolve_left fun hv => hv hvalid
      rcases chunkChannel_unnamed hunnamed with hn | ⟨e', he⟩
      · have hall := hspares.trans hspares'
        rwa [chunkPlan, recordPlan, hn, recordChannelName_none hn] at hall
      · cases hchunks.symm.trans he
    · rintro name (hn | hn)
      · have hkept := hspares'.others name (hchunk hn)
        rw [hkept]
        exact (hfile name hn).imp_right fun hr => hr.of_file? hkept
      · have hkept := hspares.others name (hrecord hn)
        rw [← hkept]
        exact hfile' name hn

/-- A channel of another party, under the name that the next chunk channel will have. -/
def liveChannel : Channel := ⟨0, ⟨headerSpan, 16384⟩, some "p-chunks"⟩

def emptyShared : Shared :=
  { Traffic.firstShared with
    regions := (Sparse.const .blank).set 0 (writeHeader .blank 16384 true)
    freshRegion := 1
    directory := ⟨[("p-chunks", ⟨0, headerSpan + 16384⟩)]⟩ }

def liveShared : Shared :=
  let slot : Reservation := ⟨liveChannel, ⟨0, 2⟩⟩
  slot.commit (slot.write 0 [7, 8] (liveChannel.reserve 2 emptyShared).2)

/-- No file can be as large as the one for records should be. -/
def tooManyRecords : Settings where
  channels := { chunkCapacity := 8192, recordCapacity := 0x8000000000000000, stem := some "p" }

theorem filed_liveShared : liveShared.Filed := by
  have hfind (name : String) : liveShared.directory.find? name =
      if name = "p-chunks" then some ⟨0, headerSpan + 16384⟩ else none := by
    have hd : liveShared.directory =
      ({} : Directory).insert "p-chunks" ⟨0, headerSpan + 16384⟩ := rfl
    rw [hd, Directory.find?_insert]
    rfl
  constructor
  case used =>
    intro name f hf
    rw [hfind] at hf
    split at hf
    · cases hf
      exact Nat.zero_lt_one
    · cases hf
  case apart =>
    intro name other f g hf hg _
    rw [hfind] at hf hg
    split at hf
    case isFalse => cases hf
    split at hg
    case isFalse => cases hg
    case isTrue hn ho => rw [hn, ho]
  case fresh =>
    intro n hn
    have hne : 0 ≠ n := by
      have hn : 1 ≤ n := hn
      omega
    have hcommit : liveShared.regions.get n =
        (liveChannel.reserve 2 emptyShared).2.regions.get n := by
      refine (Shared.get_onRegion _ 0 n _).trans ?_
      rw [if_neg hne]
      exact (Shared.get_onRegion _ 0 n _).trans (if_neg hne)
    rw [hcommit]
    have hreserve := emptyShared.get_withRegion 0 n (liveChannel.band.reserve 2)
    rw [if_neg hne] at hreserve
    exact hreserve.trans (Sparse.get_set_other _ _ hne)

theorem validate_tooManyRecords : tooManyRecords.validate = .ok () := by
  have hchannels : tooManyRecords.channels.validate = .ok () := by
    simp [tooManyRecords, ChannelSettings.validate]
  unfold Settings.validate
  rw [hchannels]
  rfl

theorem checkNewName_stem (d : Directory) :
    d.checkNewName {} "p-chunks" = .ok () ∧ d.checkNewName {} "p-records" = .ok () := by
  constructor <;>
  exact (d.checkName_plain (by decide) (by decide) (by decide) (by decide)).2

theorem start_tooManyRecords : ∃ s,
    start tooManyRecords 0 0 liveShared = (.error (.system .invalidArgument), s) ∧
      (liveChannel.receive s).1 = .ok none ∧ s.file? "p-chunks" ≠ liveShared.file? "p-chunks" ∧
      s.file? "p-records" ≠ none := by
  obtain ⟨chunks, s, hchunks, hsystem, hreceive, hsmall, hfree⟩ : ∃ chunks s,
      liveShared.buildChannel (chunkPlan tooManyRecords.channels) = (.ok chunks, s) ∧
        s.system = {} ∧ (liveChannel.receive s).1 = .ok none ∧
        s.directory.find? "p-chunks" = some ⟨0, headerSpan + 8192⟩ ∧
        s.directory.find? "p-records" = none := by
    have hname : (chunkPlan tooManyRecords.channels).name = some "p-chunks" := rfl
    have hsystem : liveShared.system = {} := rfl
    simp only [Shared.buildChannel, hname, Shared.createRegion, Shared.createFile, hsystem,
      checkNewName_stem]
    exact ⟨_, _, rfl, rfl, rfl, rfl, rfl⟩
  have hrecords : s.buildChannel (recordPlan tooManyRecords.channels) =
      (.error (.system .invalidArgument), (s.truncateFile "p-records").2) := by
    have hname : (recordPlan tooManyRecords.channels).name = some "p-records" := rfl
    simp only [Shared.buildChannel, hname, Shared.createRegion, Shared.createFile, hsystem,
      checkNewName_stem]
    rfl
  have hstart : start tooManyRecords 0 0 liveShared =
      (.error (.system .invalidArgument), (s.truncateFile "p-records").2) := by
    unfold start
    simp only [validate_tooManyRecords, hchunks, hrecords]
  rw [Shared.truncateFile, hfree] at hstart
  refine ⟨_, hstart, ?_, fun he => ?_, fun he => ?_⟩
  · simpa only [Channel.receive, Shared.withRegion] using hreceive
  · have hfile := congrArg (Option.map (·.1)) he
    rw [Shared.map_file?, Shared.map_file?, Directory.find?_insert, if_neg (by decide), hsmall]
      at hfile
    exact absurd hfile (by decide)
  · have hfile := congrArg (Option.map (·.1)) he
    rw [Shared.map_file?, Directory.find?_insert, if_pos rfl] at hfile
    cases hfile

theorem failed_start_changes_its_own_files_of_live : liveShared.Filed ∧ ∃ s,
    start tooManyRecords 0 0 liveShared =
      (.error (.system .invalidArgument), s) ∧
    liveShared.Spares ["p-chunks", "p-records"] s ∧ s.Renewed "p-chunks" true := by
  obtain ⟨s, hstart, -, hchunks, -⟩ := start_tooManyRecords
  obtain ⟨hspares, -, -, hfile⟩ := failed_start_changes_its_own_files filed_liveShared hstart
  exact ⟨filed_liveShared, s, hstart, hspares, (hfile "p-chunks" (.inl rfl)).resolve_left hchunks⟩

/-- The start fails at its second channel. By then the channel of the other party has lost its
record and half of its room, and an empty file for records stays behind. -/
theorem failed_start_loses_a_live_channel : liveShared.Filed ∧ ∃ s e,
    start tooManyRecords 0 0 liveShared = (.error e, s) ∧
    (liveChannel.receive liveShared).1 = .ok (some [7, 8]) ∧ (liveChannel.receive s).1 = .ok none ∧
    s.file? "p-chunks" ≠ liveShared.file? "p-chunks" ∧
    liveShared.file? "p-records" = none ∧ s.file? "p-records" ≠ none := by
  obtain ⟨s, hstart, hreceive, hchunks, hrecords⟩ := start_tooManyRecords
  exact ⟨filed_liveShared, s, _, hstart, rfl, hreceive, hchunks, rfl, hrecords⟩

end Relay
end ChainRelay
