import ChainRelay.Proofs.Capture.Delivery
import ChainRelay.Proofs.Capture.Plan

/-!
What the contents of one trust domain have to do with an emission. What the observed process holds
shows in the payloads of the two blocks and nowhere else; what the collector holds does not show in
the blocks.
-/

namespace ChainRelay

open ChainRelay.Ring Copy

/-- The same record, and the same chunk in it but for its payload. -/
structure Copy.SameChunk (k k' : Booking) : Prop extends k.SameHead chunkHeaderSize k' where
  decodes : k.phase ≠ .discarded → ∀ v, decodeChunk k.data = .ok v →
    ∃ data, decodeChunk k'.data = .ok { v with data } ∧ data.length = v.data.length

theorem Copy.SameChunk.of_sameHead {k k' : Booking} (h : k.SameHead chunkHeaderSize k') :
    SameChunk k k' :=
  ⟨h, fun hk _ hv => decodeChunk_sameHead h.length_eq (h.head_eq hk) hv⟩

theorem Copy.SameChunk.carries {k k' : Booking} {v : ChunkView} (h : SameChunk k k')
    (hk : Carries k v) : ∃ v', Carries k' v' ∧ v'.header = v.header := by
  have hcommitted := hk.committed
  obtain ⟨data, hdecode, -⟩ := h.decodes (by rw [hcommitted]; decide) v hk.decodes
  exact ⟨{ v with data }, ⟨h.phase_eq.trans hcommitted, hdecode⟩, rfl⟩

theorem Copy.carries_sameChunk {ks ks' : List Booking} {views : List ChunkView}
    (hks : List.Forall₂ Carries ks views) (h : List.Forall₂ SameChunk ks ks') :
    ∃ views', List.Forall₂ Carries ks' views' ∧ views'.map (·.header) = views.map (·.header) := by
  induction hks generalizing ks' with
  | nil =>
    cases h
    exact ⟨[], .nil, rfl⟩
  | cons hk _ ih =>
    cases h with
    | cons hsame hrest =>
      obtain ⟨v', hv', hheader⟩ := hsame.carries hk
      obtain ⟨views', hviews', hheaders⟩ := ih hrest
      exact ⟨v' :: views', .cons hv' hviews', by rw [List.map_cons, List.map_cons, hheader,
        hheaders]⟩

/-- Where a chain leads is said in its headers. -/
theorem Copy.Trail.leads_congr {views views' : List ChunkView} {stop : ChunkId}
    (h : views'.map (·.header) = views.map (·.header)) (hl : Leads views stop) :
    Leads views' stop ∧
      views'.head?.elim .none (·.header.id) = views.head?.elim .none (·.header.id) := by
  induction views generalizing views' with
  | nil =>
    obtain rfl := List.map_eq_nil_iff.mp h
    exact ⟨trivial, rfl⟩
  | cons v views ih =>
    obtain ⟨v', rest, rfl, hv, hrest⟩ := List.map_eq_cons_iff.mp h
    obtain ⟨hnext, hl⟩ := hl
    obtain ⟨hl', -⟩ := ih hrest hl
    refine ⟨⟨?_, hl'⟩, congrArg (·.id) hv⟩
    have hhead : rest.head?.elim stop (·.header.id) = views.head?.elim stop (·.header.id) := by
      cases views with
      | nil =>
        obtain rfl := List.map_eq_nil_iff.mp hrest
        rfl
      | cons w views =>
        obtain ⟨w', rest', rfl, hw, -⟩ := List.map_eq_cons_iff.mp hrest
        exact congrArg (·.id) hw
    rw [hv, hnext, hhead]

/-- The records of a copied block are a chain that the block refers to unless the copy failed. -/
def BlockRef.Names (b : BlockRef) (ks : List Booking) : Prop :=
  ∃ views, List.Forall₂ Carries ks views ∧ Trail.Leads views .none ∧
    b.head = if b.status = .failed then .none else views.head?.elim .none (·.header.id)

theorem BlockRef.Names.sameChunk {b : BlockRef} {ks ks' : List Booking} (h : b.Names ks)
    (hs : List.Forall₂ SameChunk ks ks') : b.Names ks' := by
  obtain ⟨views, hviews, hleads, hhead⟩ := h
  obtain ⟨views', hviews', hheaders⟩ := carries_sameChunk hviews hs
  obtain ⟨hleads', hfirst⟩ := Trail.leads_congr hheaders hleads
  exact ⟨views', hviews', hleads', by rw [hhead, hfirst]⟩

/-- What the blocks of a task left: the chain of the arguments, then that of the environment. -/
def Task.Chains (t : Task) (ks : List Booking) : Prop :=
  ∃ arguments environment, ks = arguments ++ environment ∧ t.arguments.Names arguments ∧
    t.environment.Names environment

theorem Task.Chains.sameChunk {t : Task} {ks ks' : List Booking} (h : t.Chains ks)
    (hs : List.Forall₂ SameChunk ks ks') : t.Chains ks' := by
  obtain ⟨arguments, environment, rfl, harguments, henvironment⟩ := h
  have hfirst := List.forall₂_take arguments.length hs
  have hrest := List.forall₂_drop arguments.length hs
  rw [List.take_left] at hfirst
  rw [List.drop_left] at hrest
  exact ⟨_, _, (List.take_append_drop arguments.length ks').symm, harguments.sameChunk hfirst,
    henvironment.sameChunk hrest⟩

/-- Two activities that come to the same from states that differ in the payloads of some chunks
only. They append as many records, and it stays so. -/
def Shadows {α : Type} (c : Channel) (a a' : Activity α) (post : α → List Booking → Prop) : Prop :=
  ∀ q slots s s', c.Queued s q → c.Twins (c.band.Payload slots) s s' →
    ∃ more, c.Queued (a.run s).2 (q ++ more) ∧
      (∀ n, n ≠ c.region → (a.run s).2.regions.get n = s.regions.get n) ∧
      (a'.run s').1 = (a.run s).1 ∧
      c.Twins (c.band.Payload (slots ++ more.map (·.slot))) (a.run s).2 (a'.run s').2 ∧
      ∀ x, (a.run s).1 = .ok x → post x more

section Shadows

variable {α β : Type} {c : Channel} {a a' : Activity α} {f f' : α → Activity β}

theorem shadows_pure {post : α → List Booking → Prop} {x : α} (h : post x []) :
    Shadows c (pure x) (pure x) post := by
  intro q slots s s' hq ht
  refine ⟨[], by simpa using hq, fun _ _ => rfl, rfl, by simpa using ht, fun y hy => ?_⟩
  rwa [← Except.ok.inj hy]

theorem Shadows.bind {first : α → List Booking → Prop} {post : β → List Booking → Prop}
    (h : Shadows c a a' first)
    (hf : ∀ x more, first x more → Shadows c (f x) (f' x) fun y rest => post y (more ++ rest)) :
    Shadows c (a >>= f) (a' >>= f') post := by
  intro q slots s s' hq ht
  obtain ⟨more, hq', hframe, hsame, htwins, hpost⟩ := h q slots s s' hq ht
  rcases hrun : a.run s with ⟨answer, t⟩
  rcases hrun' : a'.run s' with ⟨answer', t'⟩
  rw [hrun] at hq' hframe hsame hpost htwins
  rw [hrun'] at hsame htwins
  obtain rfl : answer' = answer := hsame
  rw [Activity.run_bind, Activity.run_bind, hrun, hrun']
  cases answer' with
  | error e => exact ⟨more, hq', hframe, rfl, htwins, nofun⟩
  | ok x =>
    obtain ⟨rest, hq'', hframe', hsame', htwins', hpost'⟩ :=
      hf x more (hpost x rfl) _ _ t t' hq' htwins
    refine ⟨more ++ rest, by rwa [← List.append_assoc], fun n hn => ?_, hsame', ?_, hpost'⟩
    · exact (hframe' n hn).trans (hframe n hn)
    · rwa [List.map_append, ← List.append_assoc]

theorem shadows_call (call : Call) {a' : Activity CopyOutcome} (h : call.activity.Alike a')
    (hv : c.Views call.writer.channel) : Shadows c call.activity a' fun o ks =>
      ∃ views, List.Forall₂ Carries ks views ∧ Trail.Leads views .none ∧ Reports o views := by
  intro q slots s s' hq ht
  have ht : c.Twins (c.band.Payload (slots ++ [])) s s' := by rwa [List.append_nil]
  obtain ⟨g, slots', hsound, hlaid, -, hend, hsame, htwins⟩ :=
    call.follows_ends.run_alike h hv (.initial _ _) (.initial hq) ht
  obtain ⟨ks, hs, ds, hq', hks, hhs, -, hds, hslots⟩ := hlaid.queue
  refine ⟨ks ++ hs ++ ds, by simpa using hq', hlaid.regions, hsame, by rwa [hslots], ?_⟩
  intro o ho
  rw [ho] at hend
  have hends : call.Ends o g := hend
  rw [hends.hand_eq] at hhs
  cases hhs
  obtain rfl := hds hends.lost_eq
  refine ⟨g.sent, by simpa using hks, ?_, hends.reports⟩
  exact (hsound.chain hends.hand_eq hends.lost_eq).linked

end Shadows

namespace Invocation

variable {i : Invocation} {c d : Channel} {a b : TaskSnapshot}

theorem shadows_copyBlock {domain : TrustDomain} {source source' : AddressSpace}
    (h : source.SameBut domain source') (hv : c.Views i.writer.channel) (start stop : UInt64) :
    Shadows c (i.copyBlock source start stop) (i.copyBlock source' start stop)
      BlockRef.Names := by
  rw [copyBlock_eq, copyBlock_eq]
  by_cases hnone : start = 0 ∨ stop.toNat - start.toNat = 0
  · rw [if_pos hnone, if_pos hnone]
    exact shadows_pure ⟨[], .nil, trivial, rfl⟩
  · rw [if_neg hnone, if_neg hnone]
    have halike : (i.blockCall source start stop).activity.Alike
        (i.blockCall source' start stop).activity :=
      Writer.copyBytes_alike h i.writer _ _ .monitored i.settings
    apply (shadows_call (i.blockCall source start stop) halike hv).bind
    rintro o ks ⟨views, hviews, hleads, hreports⟩
    apply shadows_pure
    rw [List.append_nil]
    exact ⟨views, hviews, hleads, hreports.head_eq⟩

theorem shadows_captureBlocks {domain : TrustDomain} (h : a.SameBut domain b)
    (hv : c.Views i.writer.channel) (task : UInt64) :
    Shadows c (i.captureBlocks a task) (i.captureBlocks b task) fun blocks ks =>
      ∃ arguments environment, ks = arguments ++ environment ∧ blocks.1.Names arguments ∧
        blocks.2.Names environment := by
  unfold captureBlocks
  rw [h.fieldOrZero_eq]
  apply (shadows_copyBlock h.memory hv _ _).bind
  intro arguments ks₁ h₁
  apply (shadows_copyBlock h.memory hv _ _).bind
  intro environment ks₂ h₂
  apply shadows_pure
  exact ⟨ks₁, ks₂, by simp, h₁, h₂⟩

theorem encodeField_eq {domain other : TrustDomain} {source source' : AddressSpace}
    (h : source.SameBut domain source') (ho : other ≠ domain) (w : Writer) (addr : Nat)
    (settings : CopySettings) : w.encodeField source' addr other settings =
      w.encodeField source addr other settings := by
  simp only [Writer.encodeField, Writer.readField, h.readString_eq ho, Writer.copyString_eq h ho]

/-- The strings do not depend on what the process holds. -/
theorem captureNames_eq (h : a.SameBut .monitored b) (task : UInt64) :
    i.captureNames b task = i.captureNames a task := by
  have ho : TrustDomain.collector ≠ .monitored := by decide
  simp only [captureNames, captureInterpreter, h.fieldOrZero_eq, encodeField_eq h.memory ho]

/-- The blocks do not depend on what the collector holds. -/
theorem captureBlocks_eq (h : a.SameBut .collector b) (task : UInt64) :
    i.captureBlocks b task = i.captureBlocks a task := by
  have ho : TrustDomain.monitored ≠ .collector := by decide
  simp only [captureBlocks, copyBlock, h.fieldOrZero_eq, Writer.copyBytes_eq h.memory ho]

theorem compose_eq {domain : TrustDomain} (h : a.SameBut domain b) (task : UInt64)
    (names : Field × Field) (blocks : BlockRef × BlockRef) :
    b.compose task names blocks = a.compose task names blocks := by
  simp only [TaskSnapshot.compose, h.fieldOrZero_eq]

theorem emitTask_eq (timestamp : UInt64) (source : TaskSnapshot) (task : UInt64) :
    i.emitTask timestamp source task = (i.captureNames source task >>= fun names =>
      i.captureBlocks source task >>= fun blocks =>
        i.submit timestamp (.taskExec (source.compose task names blocks))) := by
  unfold emitTask
  simp only [capture_eq, Activity.bind_assoc]
  rfl

def filed (i : Invocation) (t : Task) (timestamp : UInt64) (k : Booking) : Booking :=
  { k with data := (Signal.taskExec t).encode i.shard timestamp }

/-- Two emissions of one task that cannot be told apart but by the payloads of its blocks and by the
time. -/
structure Indistinct (i : Invocation) (c d : Channel) (q Q names : List Booking)
    (timestamp timestamp' : UInt64) (answer : Except Overflow EmitOutcome) (x x' : Shared) :
    Prop where
  freshRegion_eq : x'.freshRegion = x.freshRegion
  directory_eq : x'.directory = x.directory
  allocators_eq : x'.allocators = x.allocators
  tallies_eq : x'.tallies = x.tallies
  events_eq : x'.events = x.events
  regions_eq : ∀ n, n ≠ c.region → n ≠ d.region → x'.regions.get n = x.regions.get n
  chunk_cursors : (c.memory x).Agrees (c.memory x') 0 headerSpan
  record_cursors : (d.memory x).Agrees (d.memory x') 0 headerSpan
  chunks : ∃ blocks blocks', c.Queued x (q ++ names ++ blocks) ∧
    c.Queued x' (q ++ names ++ blocks') ∧ List.Forall₂ SameChunk blocks blocks' ∧
    ∀ outcome, answer = .ok outcome → ∃ t : Task, t.Chains blocks ∧ t.Chains blocks' ∧
      (outcome = .submitted → ∃ k : Booking, k.phase = .committed ∧
        d.Queued x (Q ++ [i.filed t timestamp k]) ∧ d.Queued x' (Q ++ [i.filed t timestamp' k]))
  unsubmitted : answer ≠ .ok .submitted → d.Queued x Q ∧ d.Queued x' Q

section Indistinct

variable {q Q names blocks : List Booking} {x y x' : Shared}

/-- What is known of two states from one between them, which differs from the first in the bytes of
a record and from the second in payloads of chunks. -/
structure Between (c d : Channel) (past blocks : List Booking) (x y x' : Shared) : Prop where
  first : ∃ hidden, (∀ n, hidden n → headerSpan ≤ n) ∧ d.Twins hidden x y
  second : c.Twins (c.band.Payload (blocks.map (·.slot))) y x'
  queue : c.Queued x (past ++ blocks)
  apart : d.region ≠ c.region

namespace Between

variable {past : List Booking} (h : Between c d past blocks x y x')
include h

theorem chunks_memory : c.memory y = c.memory x := by
  obtain ⟨hidden, -, hfirst⟩ := h.first
  exact hfirst.regions_eq c.region (Ne.symm h.apart)

theorem records_memory : d.memory x' = d.memory y := h.second.regions_eq d.region h.apart

theorem chunk_cursors : (c.memory x).Agrees (c.memory x') 0 headerSpan := by
  rw [← h.chunks_memory]
  exact agrees_control h.second.agrees (fun _ => h.queue.payload_low) (Nat.le_refl _)

theorem record_cursors : (d.memory x).Agrees (d.memory x') 0 headerSpan := by
  obtain ⟨hidden, hlow, hfirst⟩ := h.first
  rw [h.records_memory]
  exact agrees_control hfirst.agrees hlow (Nat.le_refl _)

theorem reload : ∃ blocks', c.Queued x' (past ++ blocks') ∧
    List.Forall₂ SameChunk blocks blocks' := by
  have hoff := h.second.agrees
  rw [h.chunks_memory] at hoff
  obtain ⟨blocks', hq, hsame⟩ := Band.Queued.reload h.queue hoff
  exact ⟨blocks', hq, hsame.imp fun _ _ => .of_sameHead⟩

theorem regions_eq (n : Nat) (hc : n ≠ c.region) (hd : n ≠ d.region) :
    x'.regions.get n = x.regions.get n := by
  obtain ⟨hidden, -, hfirst⟩ := h.first
  exact (h.second.regions_eq n hc).trans (hfirst.regions_eq n hd)

/-- What remains is known from the queues. -/
theorem indistinct {answer : Except Overflow EmitOutcome} {timestamp timestamp' : UInt64}
    (hpast : past = q ++ names)
    (hsubmitted : ∀ outcome, answer = .ok outcome → ∃ t : Task, t.Chains blocks ∧
      (outcome = .submitted → ∃ k : Booking, k.phase = .committed ∧
        d.Queued x (Q ++ [i.filed t timestamp k]) ∧ d.Queued y (Q ++ [i.filed t timestamp' k])))
    (hunsubmitted : answer ≠ .ok .submitted → d.Queued x Q ∧ d.Queued y Q) :
    Indistinct i c d q Q names timestamp timestamp' answer x x' := by
  subst hpast
  obtain ⟨blocks', hq', hsame⟩ := h.reload
  have hy {Q : List Booking} (hd : d.Queued y Q) : d.Queued x' Q := hd.of_memory h.records_memory
  obtain ⟨hidden, -, hfirst⟩ := h.first
  constructor
  case freshRegion_eq => exact h.second.freshRegion_eq.trans hfirst.freshRegion_eq
  case directory_eq => exact h.second.directory_eq.trans hfirst.directory_eq
  case allocators_eq => exact h.second.allocators_eq.trans hfirst.allocators_eq
  case tallies_eq => exact h.second.tallies_eq.trans hfirst.tallies_eq
  case events_eq => exact h.second.events_eq.trans hfirst.events_eq
  case regions_eq => exact h.regions_eq
  case chunk_cursors => exact h.chunk_cursors
  case record_cursors => exact h.record_cursors
  case chunks =>
    refine ⟨blocks, blocks', h.queue, hq', hsame, fun outcome ho => ?_⟩
    obtain ⟨t, ht, hrecord⟩ := hsubmitted outcome ho
    refine ⟨t, ht, ht.sameChunk hsame, fun hs => ?_⟩
    obtain ⟨k, hk, hx, hky⟩ := hrecord hs
    exact ⟨k, hk, hx, hy hky⟩
  case unsubmitted =>
    intro ha
    obtain ⟨hx, hdy⟩ := hunsubmitted ha
    exact ⟨hx, hy hdy⟩

end Between

end Indistinct

section Runs

variable {s s' : Shared} {q Q : List Booking} (hcv : c.Views i.writer.channel)
  (hdv : d.Views i.records) (hapart : d.region ≠ c.region)

include hdv hapart in
/-- Submitting the same task keeps them so. -/
theorem indistinct_submit {names blocks : List Booking} {t : Task} {timestamp timestamp' : UInt64}
    (hq : c.Queued s (q ++ names ++ blocks)) (hQ : d.Queued s Q)
    (ht : c.Twins (c.band.Payload (blocks.map (·.slot))) s s') (hchains : t.Chains blocks) :
    ((i.submit timestamp' (.taskExec t)).run s').1 =
        ((i.submit timestamp (.taskExec t)).run s).1 ∧
      Indistinct i c d q Q names timestamp timestamp'
        ((i.submit timestamp (.taskExec t)).run s).1 ((i.submit timestamp (.taskExec t)).run s).2
        ((i.submit timestamp' (.taskExec t)).run s').2 := by
  obtain ⟨hanswer, htwins⟩ := ht.run (fun _ => hq.payload_low) (i.submit timestamp' (.taskExec t))
  rcases submit_cases hdv hQ (.taskExec t) with ⟨k, hk, -, hsubmit⟩ |
    ⟨answer, x, hne, hQ', hframe, hsubmit⟩
  · obtain ⟨x, hrun, hQx, hframe, hxy⟩ := hsubmit timestamp
    obtain ⟨y, hrun', hQy, -, -⟩ := hsubmit timestamp'
    have hxy := hxy timestamp'
    rw [hrun'] at hxy hanswer htwins
    rw [hrun]
    have hbetween : Between c d (q ++ names) blocks x y _ :=
      ⟨⟨_, fun _ => hQx.behind_low, hxy⟩, htwins,
        hq.of_memory (hframe c.region (Ne.symm hapart)), hapart⟩
    exact ⟨hanswer, hbetween.indistinct rfl
      (fun _ _ => ⟨t, hchains, fun _ => ⟨k, hk, hQx, hQy⟩⟩) nofun⟩
  · rw [(hsubmit timestamp').1] at hanswer htwins
    rw [(hsubmit timestamp).1]
    have hbetween : Between c d (q ++ names) blocks x x _ :=
      ⟨⟨fun _ => False, nofun, .refl _ _ _⟩, htwins,
        hq.of_memory (hframe c.region (Ne.symm hapart)), hapart⟩
    refine ⟨hanswer, hbetween.indistinct rfl (fun outcome ho => ?_) fun _ => ⟨hQ', hQ'⟩⟩
    exact ⟨t, hchains, fun hs => absurd (ho.trans (congrArg _ hs)) hne⟩

variable (hq : c.Queued s q) (hQ : d.Queued s Q)
include hcv hdv hapart hq hQ

/-- What the process holds shows in the payloads of its blocks only. -/
theorem indistinct_of_monitored (h : a.SameBut .monitored b) (task timestamp timestamp' : UInt64) :
    ((i.emitTask timestamp' b task).run s).1 = ((i.emitTask timestamp a task).run s).1 ∧
      ∃ names, c.Queued ((i.captureNames a task).run s).2 (q ++ names) ∧
        Indistinct i c d q Q names timestamp timestamp' ((i.emitTask timestamp a task).run s).1
          ((i.emitTask timestamp a task).run s).2 ((i.emitTask timestamp' b task).run s).2 := by
  obtain ⟨names, hq₁, hframe₁, -⟩ := (i.plan_captureNames a task).appends hcv hq
  rw [emitTask_eq, emitTask_eq, captureNames_eq h]
  simp only [compose_eq h]
  rcases hrun₁ : (i.captureNames a task).run s with ⟨answer₁, s₁⟩
  rw [hrun₁] at hq₁ hframe₁
  have hQ₁ : d.Queued s₁ Q := hQ.of_memory (hframe₁ d.region hapart)
  have hstill (t : Shared) : ∃ hidden, (∀ n, hidden n → headerSpan ≤ n) ∧ d.Twins hidden t t :=
    ⟨fun _ => False, nofun, .refl _ _ _⟩
  rw [Activity.run_bind, Activity.run_bind, hrun₁]
  cases answer₁ with
  | error e =>
    have hbetween : Between c d (q ++ names) [] s₁ s₁ s₁ :=
      ⟨hstill s₁, .refl _ _ _, by rwa [List.append_nil], hapart⟩
    exact ⟨rfl, names, hq₁, hbetween.indistinct rfl nofun fun _ => ⟨hQ₁, hQ₁⟩⟩
  | ok parts =>
    obtain ⟨blocks, hq₂, hframe₂, hsame, htwins, hchains⟩ :=
      shadows_captureBlocks h hcv task (q ++ names) [] s₁ s₁ hq₁ (.refl _ _ _)
    dsimp only
    rcases hrun₂ : (i.captureBlocks a task).run s₁ with ⟨answer₂, s₂⟩
    rcases hrun₂' : (i.captureBlocks b task).run s₁ with ⟨answer₂', s₂'⟩
    rw [hrun₂] at hq₂ hframe₂ hsame htwins hchains
    rw [hrun₂'] at hsame htwins
    obtain rfl : answer₂' = answer₂ := hsame
    have hQ₂ : d.Queued s₂ Q := hQ₁.of_memory (hframe₂ d.region hapart)
    have htwins : c.Twins (c.band.Payload (blocks.map (·.slot))) s₂ s₂' := by simpa using htwins
    rw [Activity.run_bind, Activity.run_bind, hrun₂, hrun₂']
    cases answer₂' with
    | error e =>
      have hbetween : Between c d (q ++ names) blocks s₂ s₂ s₂' := ⟨hstill s₂, htwins, hq₂, hapart⟩
      exact ⟨rfl, names, hq₁, hbetween.indistinct rfl nofun fun _ => ⟨hQ₂, hQ₂⟩⟩
    | ok refs =>
      obtain ⟨hanswer, hsubmit⟩ := indistinct_submit hdv hapart hq₂ hQ₂ htwins
        (t := a.compose task parts refs) (hchains refs rfl)
      exact ⟨hanswer, names, hq₁, hsubmit⟩

end Runs

def BlockCopied (i : Invocation) (source : AddressSpace) (start stop : UInt64) (b : BlockRef)
    (views : List ChunkView) : Prop :=
  if start = 0 ∨ stop.toNat - start.toNat = 0 then b = {} ∧ views = []
  else ∃ o : CopyOutcome, b = ⟨o.head, o.status⟩ ∧ Delivered (i.blockCall source start stop) o views

theorem writes_block (hv : c.Views i.writer.channel) (source : AddressSpace)
    (start stop : UInt64) : i.writer.Writes c (i.copyBlock source start stop)
      (i.BlockCopied source start stop) := by
  rw [copyBlock_eq]
  unfold BlockCopied
  split
  · exact Writer.writes_pure ⟨rfl, rfl⟩
  · apply (Writer.writes_call (i.blockCall source start stop) hv).bind
    rintro o views ⟨hdelivered, -⟩
    apply Writer.writes_pure
    rw [List.append_nil]
    exact ⟨o, rfl, hdelivered⟩

/-- One block in two records: as many chunks with the same bytes, and the same for whoever resolves
it. -/
structure SameBlock (maxChunks : Nat) (b b' : BlockRef) (ks ks' : List Booking) : Prop where
  status_eq : b'.status = b.status
  chunks : ∃ views views' r, List.Forall₂ Carries ks views ∧ List.Forall₂ Carries ks' views' ∧
    views'.map (·.data) = views.map (·.data) ∧ ∀ n, maxChunks ≤ n →
      Store.Resolves (fun store => store.resolveBlock b n) views r ∧
      Store.Resolves (fun store => store.resolveBlock b' n) views' r

theorem BlockCopied.same {source : AddressSpace} {start stop : UInt64} {b b' : BlockRef}
    {views views' : List ChunkView} {ks ks' : List Booking}
    (h : i.BlockCopied source start stop b views) (h' : i.BlockCopied source start stop b' views')
    (hks : List.Forall₂ Carries ks views) (hks' : List.Forall₂ Carries ks' views') :
    SameBlock i.settings.maxChunks b b' ks ks' := by
  unfold BlockCopied at h h'
  split at h
  · rename_i hnone
    rw [if_pos hnone] at h'
    obtain ⟨rfl, rfl⟩ := h
    obtain ⟨rfl, rfl⟩ := h'
    refine ⟨rfl, [], [], .unavailable, hks, hks', rfl, fun n _ => ?_⟩
    have hnone : Store.Resolves (fun store => store.resolveBlock {} n) [] .unavailable := by
      simpa only [Store.resolveBlock, Store.resolveChain_none] using
        Store.resolves_plain [] .unavailable
    exact ⟨hnone, hnone⟩
  · rename_i hnone
    rw [if_neg hnone] at h'
    obtain ⟨o, rfl, ho⟩ := h
    obtain ⟨o', rfl, ho'⟩ := h'
    obtain ⟨hstatus, hdata⟩ := ho.same ho'
    refine ⟨hstatus, views, views', resolved o views, hks, hks', hdata, fun n hn => ?_⟩
    have hresolves' := ho'.resolves hn
    rw [ho.resolved_eq ho'] at hresolves'
    exact ⟨ho.resolves hn, hresolves'⟩

/-- A task that was submitted. Its chunks are those of its strings, then those of its blocks. -/
structure Emitted (i : Invocation) (c d : Channel) (q Q : List Booking) (timestamp : UInt64)
    (t : Task) (arguments environment : List Booking) (x : Shared) : Prop where
  record : ∃ k, k.phase = .committed ∧ k.data = (Signal.taskExec t).encode i.shard timestamp ∧
    d.Queued x (Q ++ [k])
  chunks : ∃ names, c.Queued x (q ++ names ++ (arguments ++ environment))

section Granted

variable {s : Shared} {q Q : List Booking} (hcv : c.Views i.writer.channel)
  (hdv : d.Views i.records) (hapart : d.region ≠ c.region) (hq : c.Queued s q)
  (hQ : d.Queued s Q)
include hcv hdv hapart hq hQ

/-- An emission that is refused nothing submits a record with both its blocks copied. -/
theorem emits {task timestamp : UInt64} (hsame : i.captureBlocks b task = i.captureBlocks a task)
    (hgranted : (i.emitTask timestamp b task).Granted s) :
    ∃ x t arguments environment views views',
      (i.emitTask timestamp b task).run s = (.ok .submitted, x) ∧
      Emitted i c d q Q timestamp t arguments environment x ∧
      List.Forall₂ Carries arguments views ∧ List.Forall₂ Carries environment views' ∧
      i.BlockCopied a.memory (a.fieldOrZero task .argumentsStart)
        (a.fieldOrZero task .argumentsEnd) t.arguments views ∧
      i.BlockCopied a.memory (a.fieldOrZero task .environmentStart)
        (a.fieldOrZero task .environmentEnd) t.environment views' := by
  rw [emitTask_eq] at hgranted ⊢
  obtain ⟨hgranted₁, hthen⟩ := Activity.granted_bind hgranted
  obtain ⟨names, hq₁, hframe₁, hok⟩ := (i.plan_captureNames b task).appends hcv hq
  obtain ⟨parts, hparts⟩ := hok hgranted₁
  have hrun₁ : (i.captureNames b task).run s = (.ok parts, ((i.captureNames b task).run s).2) :=
    Prod.ext hparts rfl
  obtain ⟨hgranted₂, hthen⟩ := Activity.granted_bind (hthen parts _ hrun₁)
  rw [Activity.run_bind_ok hrun₁]
  generalize ((i.captureNames b task).run s).2 = s₁ at *
  have hblocks : i.writer.Writes c (i.captureBlocks b task) fun blocks views =>
      ∃ v₁ v₂, views = v₁ ++ v₂ ∧
        i.BlockCopied a.memory (a.fieldOrZero task .argumentsStart)
          (a.fieldOrZero task .argumentsEnd) blocks.1 v₁ ∧
        i.BlockCopied a.memory (a.fieldOrZero task .environmentStart)
          (a.fieldOrZero task .environmentEnd) blocks.2 v₂ := by
    rw [hsame]
    apply (writes_block hcv _ _ _).bind
    intro arguments v₁ h₁
    apply (writes_block hcv _ _ _).bind
    intro environment v₂ h₂
    apply Writer.writes_pure
    exact ⟨v₁, v₂, by simp, h₁, h₂⟩
  obtain ⟨refs, s₂, views, hrun₂, hwrote, v₁, v₂, rfl, h₁, h₂⟩ :=
    hblocks (q ++ names) s₁ [] s₁ (.initial hq₁) hgranted₂
  obtain ⟨ks, hq₂, hks⟩ := hwrote.queue
  rw [List.nil_append] at hks
  have hQ₂ : d.Queued s₂ Q :=
    hQ.of_memory ((hwrote.regions _ hapart).trans (hframe₁ _ hapart))
  obtain ⟨x, k, hrun₃, hQ₃, hk, hdata, hframe₃⟩ := submit_granted hdv hQ₂ (hthen refs s₂ hrun₂)
  rw [Activity.run_bind_ok hrun₂]
  have hfirst := List.forall₂_take_append ks v₁ v₂ hks
  have hrest := List.forall₂_drop_append ks v₁ v₂ hks
  refine ⟨x, _, _, _, v₁, v₂, hrun₃, ⟨⟨k, hk, hdata, hQ₃⟩, names, ?_⟩, hfirst, hrest, h₁, h₂⟩
  rw [List.take_append_drop]
  exact hq₂.of_memory (hframe₃ _ (Ne.symm hapart))

end Granted

/-- Bytes of one trust domain do not interfere with the rest. Whatever the process holds, the
outcome, the record but for its timestamp, the counters, the statistics, the cursors and the headers
of all chunks are the same, and so are the chunks of the strings. Whatever the collector holds, if
nothing is refused then both blocks have the same status, as many chunks and the same bytes. -/
theorem contents_do_not_interfere {s : Shared} {q Q : List Booking} (hq : c.Queued s q)
    (hQ : d.Queued s Q) (hcv : c.Views i.writer.channel) (hdv : d.Views i.records)
    (hapart : d.region ≠ c.region) (a b : TaskSnapshot) (task timestamp timestamp' : UInt64) :
    (a.SameBut .monitored b →
      ((i.emitTask timestamp' b task).run s).1 = ((i.emitTask timestamp a task).run s).1 ∧
      ∃ names, c.Queued ((i.captureNames a task).run s).2 (q ++ names) ∧
        Indistinct i c d q Q names timestamp timestamp' ((i.emitTask timestamp a task).run s).1
          ((i.emitTask timestamp a task).run s).2 ((i.emitTask timestamp' b task).run s).2) ∧
    (a.SameBut .collector b → (i.emitTask timestamp a task).Granted s →
      (i.emitTask timestamp' b task).Granted s →
      ∃ x x' t t' arguments environment arguments' environment',
        (i.emitTask timestamp a task).run s = (.ok .submitted, x) ∧
        (i.emitTask timestamp' b task).run s = (.ok .submitted, x') ∧
        Emitted i c d q Q timestamp t arguments environment x ∧
        Emitted i c d q Q timestamp' t' arguments' environment' x' ∧
        SameBlock i.settings.maxChunks t.arguments t'.arguments arguments arguments' ∧
        SameBlock i.settings.maxChunks t.environment t'.environment environment environment') := by
  constructor
  · intro h
    exact indistinct_of_monitored hcv hdv hapart hq hQ h task timestamp timestamp'
  · intro h hgranted hgranted'
    obtain ⟨x, t, arguments, environment, v₁, v₂, hrun, hemitted, hk₁, hk₂, h₁, h₂⟩ :=
      emits hcv hdv hapart hq hQ rfl hgranted
    obtain ⟨x', t', arguments', environment', v₁', v₂', hrun', hemitted', hk₁', hk₂', h₁', h₂'⟩ :=
      emits hcv hdv hapart hq hQ (captureBlocks_eq h task) hgranted'
    exact ⟨x, x', t, t', arguments, environment, arguments', environment', hrun, hrun', hemitted,
      hemitted', h₁.same h₁' hk₁ hk₁', h₂.same h₂' hk₂ hk₂'⟩

def otherArguments : TaskSnapshot :=
  { smallTask with
    memory := ⟨[⟨100, [104, 105, 0], .collector⟩, ⟨200, [7, 8, 9], .monitored⟩]⟩ }

def otherName : TaskSnapshot :=
  { smallTask with
    memory := ⟨[⟨100, [110, 111, 0], .collector⟩, ⟨200, [1, 2, 3], .monitored⟩]⟩ }

theorem sameBut_otherArguments : smallTask.SameBut .monitored otherArguments := by
  refine ⟨fun _ _ => rfl, AddressSpace.sameBut_of_forall₂ (.cons ?_ (.cons ?_ .nil))⟩
  · exact ⟨rfl, rfl, rfl, fun _ => rfl⟩
  · exact ⟨rfl, rfl, rfl, fun h => absurd rfl h⟩

theorem sameBut_otherName : smallTask.SameBut .collector otherName := by
  refine ⟨fun _ _ => rfl, AddressSpace.sameBut_of_forall₂ (.cons ?_ (.cons ?_ .nil))⟩
  · exact ⟨rfl, rfl, rfl, fun h => absurd rfl h⟩
  · exact ⟨rfl, rfl, rfl, fun _ => rfl⟩

theorem contents_do_not_interfere_of_small :
    (∃ names x x', (smallInvocation.emitTask 9 smallTask 1).run secondShared = (.ok .submitted, x) ∧
      (smallInvocation.emitTask 10 otherArguments 1).run secondShared = (.ok .submitted, x') ∧
      Indistinct smallInvocation Traffic.firstChannel secondChannel [] [] names 9 10
        (.ok .submitted) x x') ∧
    ∃ x x' t t' arguments environment arguments' environment',
      (smallInvocation.emitTask 9 smallTask 1).run secondShared = (.ok .submitted, x) ∧
      (smallInvocation.emitTask 10 otherName 1).run secondShared = (.ok .submitted, x') ∧
      Emitted smallInvocation Traffic.firstChannel secondChannel [] [] 9 t arguments environment x ∧
      Emitted smallInvocation Traffic.firstChannel secondChannel [] [] 10 t' arguments'
        environment' x' ∧
      SameBlock smallInvocation.settings.maxChunks t.arguments t'.arguments arguments arguments' ∧
      SameBlock smallInvocation.settings.maxChunks t.environment t'.environment environment
        environment' := by
  have hc : Traffic.firstChannel.Queued secondShared [] :=
    (Shared.buildChannel_queued Traffic.buildChannel_first).of_memory rfl
  have hd : secondChannel.Queued secondShared [] := Shared.buildChannel_queued buildChannel_second
  have hsmall (b : TaskSnapshot) := contents_do_not_interfere (i := smallInvocation) hc hd
    (.refl _) (.refl _) (by decide) smallTask b 1 9 10
  constructor
  · obtain ⟨hanswer, names, -, h⟩ := (hsmall otherArguments).1 sameBut_otherArguments
    have hsubmitted : ((smallInvocation.emitTask 9 smallTask 1).run secondShared).1 =
        .ok .submitted := by decide +kernel
    rw [hsubmitted] at hanswer h
    exact ⟨names, _, _, Prod.ext hsubmitted rfl, Prod.ext hanswer rfl, h⟩
  · exact (hsmall otherName).2 sameBut_otherName (by decide +kernel) (by decide +kernel)

end Invocation
end ChainRelay
