import ChainRelay.Proofs.Capture.Parts

/-!
A task on its way to the consumer. If nothing is refused the record is submitted, and with the
chunks that were drained it resolves to what the source holds (`task_comes_back`).
-/

namespace ChainRelay

open ChainRelay.Ring

namespace TaskSnapshot

def recorded (s : TaskSnapshot) (task : UInt64) (field : TaskField) : UInt64 :=
  (s.fields.lookup (task, field)).getD 0

theorem fieldOrZero_eq (s : TaskSnapshot) (task : UInt64) (field : TaskField) :
    s.fieldOrZero task field = s.recorded task field := by
  unfold fieldOrZero readField recorded
  cases s.fields.lookup (task, field) <;> rfl

end TaskSnapshot

/-- The scalars of a record are those of the task, cut to their size. -/
structure Task.Mirrors (t : Task) (value : TaskField → UInt64) : Prop where
  uid : t.credentials.uid = (value .uid).toUInt32
  gid : t.credentials.gid = (value .gid).toUInt32
  euid : t.credentials.euid = (value .euid).toUInt32
  egid : t.credentials.egid = (value .egid).toUInt32
  pid : t.process.pid = (value .pid).toUInt32
  tgid : t.process.tgid = (value .tgid).toUInt32
  namespacePid : t.process.namespacePid = (value .namespacePid).toUInt32
  pidNamespace : t.process.pidNamespace = (value .pidNamespace).toUInt32
  parentPid : t.parent.pid = (value .parentPid).toUInt32
  parentTgid : t.parent.tgid = (value .parentTgid).toUInt32
  parentStartTime : t.parent.startTime = value .parentStartTime
  loginUid : t.loginUid = (value .loginUid).toUInt32
  sessionId : t.sessionId = (value .sessionId).toUInt32
  startTime : t.startTime = value .startTime
  cgroupId : t.cgroupId = value .cgroupId

abbrev BlockBecomes (source : AddressSpace) (settings : CopySettings) (start stop : UInt64) :
    Store.Resolved → Prop :=
  RangeBecomes source .monitored start.toNat (stop.toNat - start.toNat)
    (settings.rangeReach (stop.toNat - start.toNat))

/-- The parts of a record resolve to what the source holds. -/
structure TaskBecomes (source : AddressSpace) (value : TaskField → UInt64) (settings : CopySettings)
    (r : Store.ResolvedTask) : Prop where
  filename : StringBecomes source .collector (value .filenamePointer).toNat settings.stringReach
    r.filename
  interpreter : StringBecomes source .collector (value .interpreterPointer).toNat
    settings.stringReach r.interpreter
  arguments : BlockBecomes source settings (value .argumentsStart) (value .argumentsEnd) r.arguments
  environment : BlockBecomes source settings (value .environmentStart) (value .environmentEnd)
    r.environment

/-- A captured task, with the chunks that were written for each of its parts. -/
structure TaskStands (source : AddressSpace) (value : TaskField → UInt64) (settings : CopySettings)
    (t : Task) (views : List ChunkView) : Prop where
  mirrors : t.Mirrors value
  wellFormed : t.WellFormed
  parts : ∃ v₁ v₂ v₃ v₄, views = v₁ ++ (v₂ ++ (v₃ ++ v₄)) ∧
    Stands (fun s => s.resolveField t.filename settings.maxChunks)
      (StringBecomes source .collector (value .filenamePointer).toNat settings.stringReach) v₁ ∧
    Stands (fun s => s.resolveField t.interpreter settings.maxChunks)
      (StringBecomes source .collector (value .interpreterPointer).toNat settings.stringReach) v₂ ∧
    Stands (fun s => s.resolveBlock t.arguments settings.maxChunks)
      (BlockBecomes source settings (value .argumentsStart) (value .argumentsEnd)) v₃ ∧
    Stands (fun s => s.resolveBlock t.environment settings.maxChunks)
      (BlockBecomes source settings (value .environmentStart) (value .environmentEnd)) v₄

namespace TaskStands

variable {source : AddressSpace} {value : TaskField → UInt64} {settings : CopySettings} {t : Task}
  {views : List ChunkView}

theorem length_le (h : TaskStands source value settings t views) :
    views.length ≤ 4 * maxChunksLimit := by
  obtain ⟨v₁, v₂, v₃, v₄, rfl, ⟨h₁, -⟩, ⟨h₂, -⟩, ⟨h₃, -⟩, ⟨h₄, -⟩⟩ := h.parts
  simp only [List.length_append]
  omega

/-- A store that keeps the chunks of a task resolves all its parts. -/
theorem resolves {got kept : List ChunkView} {s : Store}
    (h : TaskStands source value settings t views) (hk : s.Keeps got kept)
    (hall : ∀ v ∈ views, v ∈ kept) (hdistinct : (views.map (·.header.id)).Nodup) :
    TaskBecomes source value settings (s.resolveTask t settings.maxChunks).1 := by
  obtain ⟨v₁, v₂, v₃, v₄, rfl, ⟨-, r₁, hr₁, h₁⟩, ⟨-, r₂, hr₂, h₂⟩, ⟨-, r₃, hr₃, h₃⟩,
    ⟨-, r₄, hr₄, h₄⟩⟩ := h.parts
  have hrest {a b : List ChunkView} (hd : ((a ++ b).map (·.header.id)).Nodup) :
      (b.map (·.header.id)).Nodup := by
    rw [List.map_append] at hd
    exact (List.nodup_append.mp hd).2.1
  obtain ⟨s₁, kept₁, he₁, hk₁, hall₁⟩ := hr₁.before hk hall hdistinct
  obtain ⟨s₂, kept₂, he₂, hk₂, hall₂⟩ := hr₂.before hk₁ hall₁ (hrest hdistinct)
  obtain ⟨s₃, kept₃, he₃, hk₃, hall₃⟩ := hr₃.before hk₂ hall₂ (hrest (hrest hdistinct))
  obtain ⟨s₄, kept₄, he₄, -⟩ := hr₄ s₃ got kept₃ hk₃ hall₃
  change s₃.resolveBlock t.environment settings.maxChunks = (r₄, s₄) at he₄
  unfold Store.resolveTask
  rw [he₁]
  dsimp only
  rw [he₂]
  dsimp only
  rw [he₃]
  dsimp only
  rw [he₄]
  exact ⟨h₁, h₂, h₃, h₄⟩

/-- What comes of draining the chunks into an empty store. -/
theorem drained {c v : Channel} {s : Shared} {gone ks : List Booking}
    (h : TaskStands source value settings t views) (hq : c.Queued s (gone ++ ks))
    (hgone : ∀ k ∈ gone, k.phase = .discarded) (hks : List.Forall₂ Copy.Carries ks views)
    (hdistinct : (views.map (·.header.id)).Nodup) (hv : c.Views v) {n : Nat}
    (hn : views.length ≤ max n 1) :
    (n * 2 < sizeLimit ∨ views.length = 0 → ∃ store s',
      (Store.ofMaxPending n).drain v s = (.ok views.length, store, s') ∧
        TaskBecomes source value settings (store.resolveTask t settings.maxChunks).1) ∧
    (sizeLimit ≤ n * 2 → views.length ≠ 0 →
      ((Store.ofMaxPending n).drain v s).1 = .error .overflow) := by
  have hfuel : ks.length ≤ v.used s := by
    have hle := hq.length_le_used hv
    rw [List.length_append] at hle
    omega
  constructor
  · intro hmax
    have hmax : (Store.ofMaxPending n).maxPending * 2 < sizeLimit ∨ views = [] := by
      refine hmax.imp (fun hlt => ?_) List.eq_nil_of_length_eq_zero
      simp only [Store.ofMaxPending, sizeLimit] at hlt ⊢
      omega
    obtain ⟨store, s', hdrain, hkeeps⟩ := Store.Keeps.takeMany hv hks hgone
      (Store.keeps_ofMaxPending n) hq (by simpa using hdistinct) hn hmax hfuel
    exact ⟨store, s', hdrain, h.resolves hkeeps (fun x hx => by simpa using hx) hdistinct⟩
  · intro hmax hne
    refine Store.takeMany_overflow hv hks hgone hq (fun he => hne (by rw [he]; rfl)) ?_ hfuel
    show sizeLimit ≤ max n 1 * 2
    omega

end TaskStands

namespace Invocation

variable {i : Invocation} {c d : Channel} {source : TaskSnapshot} {task : UInt64}

theorem writes_capture (hf : source.memory.Flat) (hv : c.Views i.writer.channel)
    (hs : i.settings.validate = .ok ()) : i.writer.Writes c (i.capture source task)
      (TaskStands source.memory (source.recorded task) i.settings) := by
  have hvalue : source.fieldOrZero task = source.recorded task :=
    funext (source.fieldOrZero_eq task)
  unfold capture
  rw [hvalue]
  dsimp only
  generalize source.recorded task = value
  refine (Writer.writes_encodeField hf hv hs).bind fun filename v₁ ⟨hw₁, h₁⟩ => ?_
  have hinterpreter : i.writer.Writes c
      (if value .interpreterPointer = 0 then pure .unavailable
        else i.writer.encodeField source.memory (value .interpreterPointer).toNat .collector
          i.settings)
      (Writer.FieldStands source.memory .collector (value .interpreterPointer).toNat
        i.settings) := by
    split
    · rename_i hz
      exact Writer.writes_pure (Writer.fieldStands_unavailable hf (.inl (by rw [hz]; rfl)))
    · exact Writer.writes_encodeField hf hv hs
  have hfork {α β : Type} (b : Prop) [Decidable b] (a a' : Activity α) (f : α → Activity β) :
      (if b then a >>= f else a' >>= f) = (if b then a else a') >>= f := by
    split <;> rfl
  rw [hfork]
  refine hinterpreter.bind fun interpreter v₂ ⟨hw₂, h₂⟩ => ?_
  apply (writes_copyBlock hf hv hs).bind
  intro arguments v₃ h₃
  refine (writes_copyBlock hf hv hs).bind fun environment v₄ h₄ => Writer.writes_pure ?_
  rw [List.append_nil]
  constructor
  · constructor <;> rfl
  · exact ⟨hw₁, hw₂⟩
  · exact ⟨v₁, v₂, v₃, v₄, rfl, h₁, h₂, h₃, h₄⟩

section Submit

variable {s s' : Shared} {signal : Signal} {q : List Booking} {k : Booking}

theorem submit_run {answer : Except ReserveError Reservation}
    (hr : i.records.reserve signal.encodedSize s = (answer, s')) (timestamp : UInt64) :
    (i.submit timestamp signal).run s =
      match answer with
      | .error .overflow => (.error .overflow, s')
      | .error cause => (.ok .dropped, (s'.count i.writer.tally .recordsDropped).report
          (.recordDropped i.shard signal.kind cause))
      | .ok reservation => (.ok .submitted,
          ((Op.commitRecord reservation (signal.encode i.shard timestamp)).perform s').2.count
            i.writer.tally .recordsSubmitted) := by
  have hfirst : (Activity.perform (.reserve i.records signal.encodedSize)).run s =
      (.ok answer, s') := by
    rw [Activity.run_perform]
    exact congrArg (fun p => (Except.ok p.1, p.2)) hr
  apply (Activity.run_bind_ok hfirst _).trans
  match answer with
  | .error .overflow => rfl
  | .error (.full requested available) => rfl
  | .error (.invalidSize asked max) => rfl
  | .ok reservation => rfl

variable (hv : d.Views i.records)
include hv

theorem get_reserve {n : Nat} (hn : n ≠ d.region) (size : Nat) :
    (i.records.reserve size s).2.regions.get n = s.regions.get n := by
  apply Op.get_perform (.reserve i.records size)
  rw [Op.region?, hv.region_eq]
  exact fun he => hn (Option.some.inj he).symm

/-- A record is written into its room and committed, whatever its timestamp. -/
theorem submit_reserved
    (hr : i.records.reserve signal.encodedSize s = (.ok ⟨i.records, k.slot⟩, s'))
    (hlen : k.data.length = signal.encodedSize) (hw : k.phase = .writing)
    (hq : d.Queued s' (q ++ [k])) (timestamp : UInt64) :
    ∃ t, (i.submit timestamp signal).run s = (.ok .submitted, t) ∧
      d.Queued t (q ++ [{ k with data := signal.encode i.shard timestamp, phase := .committed }]) ∧
      (∀ n, n ≠ d.region → t.regions.get n = s.regions.get n) ∧
      ∀ other, d.Twins (d.band.Behind 0 k.slot) t ((i.submit other signal).run s).2 := by
  refine ⟨_, submit_run hr timestamp, ?_, fun n hn => ?_, fun other => ?_⟩
  · have hsize : (signal.encode i.shard timestamp).length = k.data.length := by
      rw [signal.length_encode, hlen]
    have hcommit := Channel.Queued.commitRecord (r := ⟨i.records, k.slot⟩) hq ⟨hv, rfl⟩ hw hsize
    exact hcommit.of_memory rfl
  · have hreserve := get_reserve (s := s) hv hn signal.encodedSize
    rw [hr] at hreserve
    rw [← hreserve]
    apply Op.get_perform (.commitRecord ⟨i.records, k.slot⟩ (signal.encode i.shard timestamp))
    rw [Op.region?, hv.region_eq]
    exact fun he => hn (Option.some.inj he).symm
  · have hsame :
        (signal.encode i.shard other).length = (signal.encode i.shard timestamp).length := by
      rw [signal.length_encode, signal.length_encode]
    rw [submit_run hr other]
    have hwrite := (Channel.Twins.refl d (d.band.Behind 0 k.slot) s').write_hidden
      (r := ⟨i.records, k.slot⟩) hv (fun _ h => h) hsame
    exact (hwrite.commit (fun _ => hq.behind_low) _).count _ _

/-- With any timestamp a record is submitted in the same place, or else it is not submitted. -/
theorem submit_cases (hq : d.Queued s q) (signal : Signal) :
    (∃ k : Booking, k.phase = .committed ∧ k.data.length = signal.encodedSize ∧
      ∀ timestamp, ∃ t, (i.submit timestamp signal).run s = (.ok .submitted, t) ∧
        d.Queued t (q ++ [{ k with data := signal.encode i.shard timestamp }]) ∧
        (∀ n, n ≠ d.region → t.regions.get n = s.regions.get n) ∧
        ∀ other, d.Twins (d.band.Behind 0 k.slot) t ((i.submit other signal).run s).2) ∨
    ∃ answer t, answer ≠ .ok .submitted ∧ d.Queued t q ∧
      (∀ n, n ≠ d.region → t.regions.get n = s.regions.get n) ∧
      ∀ timestamp, (i.submit timestamp signal).run s = (answer, t) ∧
        ¬(i.submit timestamp signal).Granted s := by
  rcases hq.reserve hv signal.encodedSize with ⟨k, s', hr, hlen, hw, hq'⟩ | ⟨e, s', hr, hq', -⟩
  · refine .inl ⟨{ k with phase := .committed }, rfl, hlen, fun timestamp => ?_⟩
    exact submit_reserved hv hr hlen hw hq' timestamp
  · have hgranted (timestamp : UInt64) : ¬(i.submit timestamp signal).Granted s := by
      intro h
      have hgrants : Op.Grants (.reserve i.records signal.encodedSize)
        (i.records.reserve signal.encodedSize s).1 := h.1
      rw [hr] at hgrants
      exact hgrants
    have hframe (n : Nat) (hn : n ≠ d.region) : s'.regions.get n = s.regions.get n := by
      have hreserve := get_reserve (s := s) hv hn signal.encodedSize
      rwa [hr] at hreserve
    have hrun := submit_run hr
    right
    match e with
    | .overflow =>
      exact ⟨.error .overflow, s', nofun, hq', hframe, fun t => ⟨hrun t, hgranted t⟩⟩
    | .full requested available =>
      exact ⟨.ok .dropped, (s'.count _ _).report _, nofun, hq'.of_memory rfl, hframe,
        fun t => ⟨hrun t, hgranted t⟩⟩
    | .invalidSize asked max =>
      exact ⟨.ok .dropped, (s'.count _ _).report _, nofun, hq'.of_memory rfl, hframe,
        fun t => ⟨hrun t, hgranted t⟩⟩

/-- A record that was granted its room stands behind what the channel held. -/
theorem submit_granted {timestamp : UInt64} (hq : d.Queued s q)
    (hgranted : (i.submit timestamp signal).Granted s) :
    ∃ s' k, (i.submit timestamp signal).run s = (.ok .submitted, s') ∧
      d.Queued s' (q ++ [k]) ∧ k.phase = .committed ∧
      k.data = signal.encode i.shard timestamp ∧
      ∀ n, n ≠ d.region → s'.regions.get n = s.regions.get n := by
  rcases submit_cases hv hq signal with ⟨k, hk, -, h⟩ | ⟨answer, t, -, -, -, h⟩
  · obtain ⟨t, hrun, hq', hframe, -⟩ := h timestamp
    exact ⟨t, _, hrun, hq', hk, rfl, hframe⟩
  · exact absurd hgranted (h timestamp).2

end Submit

/-- An emission that is granted all it asks for leaves the chunks of the captured task and, on the
other channel, its record. -/
theorem emitTask_granted {s : Shared} {timestamp : UInt64} {past gone : List Booking}
    (hf : source.memory.Flat) (hs : i.settings.validate = .ok ()) (hc : c.Queued s past)
    (hd : d.Queued s gone) (hapart : d.region ≠ c.region) (hcv : c.Views i.writer.channel)
    (hdv : d.Views i.records) (hgranted : (i.emitTask timestamp source task).Granted s) :
    ∃ s' t views ks k, (i.emitTask timestamp source task).run s = (.ok .submitted, s') ∧
      TaskStands source.memory (source.recorded task) i.settings t views ∧
      c.Queued s' (past ++ ks) ∧ List.Forall₂ Copy.Carries ks views ∧
      (views.map (·.header.id)).Nodup ∧ d.Queued s' (gone ++ [k]) ∧ k.phase = .committed ∧
      k.data = (Signal.taskExec t).encode i.shard timestamp := by
  obtain ⟨hcapture, hsubmit⟩ := Activity.granted_bind hgranted
  obtain ⟨t, s₁, views, hrun₁, hwrote, ht⟩ :=
    writes_capture hf hcv hs past s [] s (.initial hc) hcapture
  rw [List.nil_append] at hwrote
  have hd : d.Queued s₁ gone := hd.of_memory (hwrote.regions _ hapart)
  obtain ⟨s₂, k, hrun₂, hq, hk, hdata, hregions⟩ := submit_granted hdv hd (hsubmit t s₁ hrun₁)
  obtain ⟨ks, hchunks, hks⟩ := hwrote.queue
  have hchunks : c.Queued s₂ (past ++ ks) := hchunks.of_memory (hregions _ (Ne.symm hapart))
  have hdistinct := hwrote.distinct (Nat.le_trans ht.length_le (by
    simp [maxChunksLimit, Allocator.period, ChunkId.sequenceRange]))
  have hrun : (i.emitTask timestamp source task).run s = (.ok .submitted, s₂) := by
    unfold emitTask
    rw [Activity.run_bind_ok hrun₁]
    exact hrun₂
  exact ⟨s₂, t, views, ks, k, hrun, ht, hchunks, hks, hdistinct, hq, hk, hdata⟩

theorem receive_record {s : Shared} {u : Channel} {gone : List Booking} {k : Booking}
    (hq : d.Queued s (gone ++ [k])) (hgone : ∀ k ∈ gone, k.phase = .discarded)
    (hk : k.phase = .committed) (hu : d.Views u) : (u.receive s).1 = .ok (some k.data) := by
  rw [(hq.receive hu).1, Queue.ready?_append hgone]
  simp [Queue.ready?, hk]

/-- A task whose chunks and record are all granted their room comes back: the record is submitted
and decodes to the scalars of the task, and its four parts resolve to what the memory holds once the
chunks were drained into a store with room for them. The drain itself succeeds if the store's bound
can be doubled or there was no chunk to drain, and only then. -/
theorem task_comes_back {s : Shared} {timestamp : UInt64} {u v : Channel}
    (hf : source.memory.Flat) (hs : i.settings.validate = .ok ()) (hc : c.Idle s) (hd : d.Idle s)
    (hapart : d.region ≠ c.region) (hcv : c.Views i.writer.channel) (hdv : d.Views i.records)
    (hgranted : (i.emitTask timestamp source task).Granted s) (hu : d.Views u) (hv : c.Views v) :
    ∃ s' record t chunks, (i.emitTask timestamp source task).run s = (.ok .submitted, s') ∧
      (u.receive s').1 = .ok (some record) ∧
      decodeSignal record =
        .ok ⟨{ tag := SignalKind.taskExec.tag, shard := i.shard, timestamp }, .taskExec t⟩ ∧
      t.Mirrors (source.recorded task) ∧ chunks ≤ 4 * maxChunksLimit ∧
      ∀ n, chunks ≤ max n 1 →
        (n * 2 < sizeLimit ∨ chunks = 0 → ∃ store s'',
          (Store.ofMaxPending n).drain v (u.receive s').2 = (.ok chunks, store, s'') ∧
            TaskBecomes source.memory (source.recorded task) i.settings
              (store.resolveTask t i.settings.maxChunks).1) ∧
        (sizeLimit ≤ n * 2 → chunks ≠ 0 →
          ((Store.ofMaxPending n).drain v (u.receive s').2).1 = .error .overflow) := by
  obtain ⟨past, hc, hpast⟩ := hc
  obtain ⟨gone, hd, hgone⟩ := hd
  obtain ⟨s', t, views, ks, k, hrun, ht, hchunks, hks, hdistinct, hq, hk, hdata⟩ :=
    emitTask_granted hf hs hc hd hapart hcv hdv hgranted
  have hwell : (Signal.taskExec t).WellFormed := ht.wellFormed
  have hdecode := decodeSignal_encode hwell i.shard timestamp
  rw [← hdata] at hdecode
  have hchunks : c.Queued (u.receive s').2 (past ++ ks) :=
    hchunks.of_memory (Channel.get_receive (hu.region_eq ▸ hapart) s')
  exact ⟨s', k.data, t, views.length, hrun, receive_record hq hgone hk hu, hdecode, ht.mirrors,
    ht.length_le, fun n hn => ht.drained hchunks hpast hks hdistinct hv hn⟩

def smallTask : TaskSnapshot where
  memory := ⟨[⟨100, [104, 105, 0], .collector⟩, ⟨200, [1, 2, 3], .monitored⟩]⟩
  fields := [((1, .uid), 0x100000005), ((1, .filenamePointer), 100), ((1, .argumentsStart), 200),
    ((1, .argumentsEnd), 203)]

def secondChannel : Channel := ⟨1, ⟨headerSpan, 1048576⟩, none⟩

def secondShared : Shared := (Traffic.firstShared.buildChannel {}).2

theorem buildChannel_second :
    Traffic.firstShared.buildChannel {} = (.ok secondChannel, secondShared) := rfl

def smallInvocation : Invocation where
  writer := ⟨Traffic.firstChannel, 0, 7, 0⟩
  records := secondChannel
  settings := { byteClass := some (.custom 2) }

theorem task_comes_back_of_small : ∃ s' record t,
    (smallInvocation.emitTask 9 smallTask 1).run secondShared = (.ok .submitted, s') ∧
      (secondChannel.receive s').1 = .ok (some record) ∧
      decodeSignal record = .ok ⟨{ tag := 1, shard := 7, timestamp := 9 }, .taskExec t⟩ ∧
      t.credentials.uid = 5 ∧ t.credentials.gid = 0 ∧
      ∃ chunks store s'', (Store.ofMaxPending 128).drain Traffic.firstChannel
          (secondChannel.receive s').2 = (.ok chunks, store, s'') ∧
        (store.resolveTask t 16).1 =
          ⟨.inline [104, 105], .unavailable, .chain [1, 2, 3] false, .unavailable⟩ := by
  have hf : smallTask.memory.Flat := by
    refine ⟨?_, ?_⟩ <;> simp [smallTask, addressLimit]
  have hc : Traffic.firstChannel.Idle secondShared := by
    refine ⟨[], ?_, List.forall_mem_nil _⟩
    exact (Shared.buildChannel_queued Traffic.buildChannel_first).of_memory rfl
  have hd : secondChannel.Idle secondShared :=
    ⟨[], Shared.buildChannel_queued buildChannel_second, List.forall_mem_nil _⟩
  have hgranted : (smallInvocation.emitTask 9 smallTask 1).Granted secondShared := by
    decide +kernel
  obtain ⟨s', record, t, chunks, hrun, hreceive, hdecode, hmirrors, hfew, hdrain⟩ :=
    task_comes_back (i := smallInvocation) hf rfl hc hd (by decide) (.refl _) (.refl _) hgranted
      (.refl _) (.refl _)
  obtain ⟨store, s'', hdrained, hbecomes⟩ := (hdrain 128 hfew).1 (.inl (by decide))
  refine ⟨s', record, t, hrun, hreceive, hdecode, hmirrors.uid, hmirrors.gid, chunks, store, s'',
    hdrained, ?_⟩
  change TaskBecomes smallTask.memory (smallTask.recorded 1) smallInvocation.settings
    (store.resolveTask t 16).1 at hbecomes
  generalize (store.resolveTask t 16).1 = r at hbecomes ⊢
  obtain ⟨hfilename, hinterpreter, harguments, henvironment⟩ := hbecomes
  have hname : smallTask.memory.Spells .collector 100 [104, 105] :=
    ⟨by simp, AddressSpace.holds_region (r := ⟨100, [104, 105, 0], .collector⟩) (by decide)⟩
  have hbytes : smallTask.memory.Holds .monitored 200 [1, 2, 3] :=
    AddressSpace.holds_region (r := ⟨200, [1, 2, 3], .monitored⟩) (by decide)
  obtain ⟨filename, interpreter, arguments, environment⟩ := r
  obtain rfl := hfilename.text _ (by decide) hname
  obtain rfl := hinterpreter.null rfl
  obtain rfl := harguments.readable _ (by decide) (by decide) hbytes rfl
  obtain rfl := henvironment.absent (.inl rfl)
  rfl

end Invocation
end ChainRelay
