import ChainRelay.Capture
import ChainRelay.Proofs.Copy.Verdict
import ChainRelay.Proofs.Signal.Codec

/-!
Capturing one part of a task. What a run with nothing refused writes is said with its result
(`Writer.Writes`); every part resolves to what the source holds for it, or is left out.
-/

namespace ChainRelay

open ChainRelay.Ring

namespace Writer

/-- The chunks that the writer has written since `s₀`, behind what the channel held then. -/
structure Wrote (w : Writer) (c : Channel) (past : List Booking) (s₀ : Shared)
    (views : List ChunkView) (s : Shared) : Prop where
  queue : ∃ ks, c.Queued s (past ++ ks) ∧ List.Forall₂ Copy.Carries ks views
  ids : (s₀.allocators.get w.ids).issue w.shard views.length =
    (views.map (·.header.id), s.allocators.get w.ids)
  regions : ∀ n, n ≠ c.region → s.regions.get n = s₀.regions.get n

/-- A run with nothing refused gives a result and writes some chunks more. -/
def Writes {α : Type} (w : Writer) (c : Channel) (a : Activity α)
    (post : α → List ChunkView → Prop) : Prop :=
  ∀ past s₀ views s, w.Wrote c past s₀ views s → a.Granted s →
    ∃ x s' more, a.run s = (.ok x, s') ∧ w.Wrote c past s₀ (views ++ more) s' ∧ post x more

variable {w : Writer} {c : Channel} {past : List Booking} {s₀ s s' : Shared}
  {views : List ChunkView}

theorem Wrote.initial (h : c.Queued s past) : w.Wrote c past s [] s :=
  ⟨⟨[], by simpa using h, .nil⟩, rfl, fun _ _ => rfl⟩

theorem Wrote.aside (h : w.Wrote c past s₀ views s) (hr : s'.regions = s.regions)
    (ha : s'.allocators = s.allocators) : w.Wrote c past s₀ views s' := by
  obtain ⟨ks, hq, hks⟩ := h.queue
  constructor
  · exact ⟨ks, hq.of_memory (by rw [hr]), hks⟩
  · rw [ha]
    exact h.ids
  · intro n hn
    rw [hr]
    exact h.regions n hn

/-- A writer comes round after more chunks than it may write for one record. -/
theorem Wrote.distinct (h : w.Wrote c past s₀ views s) (hfew : views.length ≤ Allocator.period) :
    (views.map (·.header.id)).Nodup := by
  have hissued := Allocator.issued_issue (s₀.allocators.get w.ids) w.shard hfew
  rw [h.ids] at hissued
  exact hissued.nodup

section Rules

variable {α β : Type} {a : Activity α} {f : α → Activity β}

theorem writes_pure {post : α → List ChunkView → Prop} {x : α} (h : post x []) :
    w.Writes c (pure x) post := by
  intro past s₀ views s hw _
  exact ⟨x, s, [], rfl, by simpa using hw, h⟩

theorem Writes.bind {first : α → List ChunkView → Prop} {post : β → List ChunkView → Prop}
    (h : w.Writes c a first)
    (hnext : ∀ x more, first x more → w.Writes c (f x) fun y rest => post y (more ++ rest)) :
    w.Writes c (a >>= f) post := by
  intro past s₀ views s hw hgranted
  obtain ⟨hgranted, hthen⟩ := Activity.granted_bind hgranted
  obtain ⟨x, s', more, hrun, hw', hx⟩ := h past s₀ views s hw hgranted
  obtain ⟨y, s'', rest, hrun', hw'', hy⟩ := hnext x more hx past s₀ _ s' hw' (hthen x s' hrun)
  refine ⟨y, s'', more ++ rest, ?_, by rwa [← List.append_assoc], hy⟩
  rw [Activity.run_bind_ok hrun, hrun']

/-- Counting and reporting write no chunk. -/
theorem writes_aside {op : Op} (h : ∀ s, (op.perform s).2.regions = s.regions ∧
    (op.perform s).2.allocators = s.allocators) :
    w.Writes c (.perform op) fun _ more => more = [] := by
  intro past s₀ views s hw _
  refine ⟨_, _, [], rfl, ?_, rfl⟩
  rw [List.append_nil]
  exact hw.aside (h s).1 (h s).2

theorem writes_call (call : Copy.Call) (hv : c.Views call.writer.channel) :
    call.writer.Writes c call.activity fun o more =>
      Copy.Delivered call o more ∧ (call.source.Flat → Copy.Verdict call o more) := by
  intro past s₀ views s hw hgranted
  obtain ⟨ks, hq, hks⟩ := hw.queue
  obtain ⟨o, s', records, more, hrun, hq', hrecords, hdelivered, hverdict, hissue, hregions⟩ :=
    call.run_granted hv hq hgranted
  rw [List.append_assoc] at hq'
  refine ⟨o, s', more, hrun, ⟨⟨_, hq', List.rel_append hks hrecords⟩, ?_, fun n hn => ?_⟩,
    hdelivered, hverdict⟩
  · rw [List.length_append, Allocator.issue_add, hw.ids, hissue, List.map_append]
  · rw [hregions n hn, hw.regions n hn]

end Rules

end Writer

def CopySettings.stringReach (s : CopySettings) : Nat := s.maxChunks * s.stringClass.payloadCapacity

def CopySettings.rangeReach (s : CopySettings) (len : Nat) : Nat :=
  s.maxChunks * (s.classFor len).payloadCapacity

/-- What a string of the source becomes, if a chain takes `reach` bytes of it. -/
structure StringBecomes (source : AddressSpace) (domain : TrustDomain) (addr reach : Nat)
    (r : Store.Resolved) : Prop where
  null : addr = 0 → r = .unavailable
  unreadable : ∀ i, i < inlineCapacity → source.Runs domain addr i →
    source.Unreadable domain (addr + i) → r = .unavailable
  text : ∀ text, addr ≠ 0 → source.Spells domain addr text →
    r = if text.length < inlineCapacity then .inline text
      else .chain (text.take reach) (reach < text.length)

structure RangeBecomes (source : AddressSpace) (domain : TrustDomain) (start len reach : Nat)
    (r : Store.Resolved) : Prop where
  absent : start = 0 ∨ len = 0 → r = .unavailable
  unreadable : ∀ i, i < min len reach → source.Unreadable domain (start + i) → r = .unavailable
  readable : ∀ bytes, start ≠ 0 → len ≠ 0 → source.Holds domain start bytes →
    bytes.length = min len reach → r = .chain bytes (reach < len)

/-- A reference, with the chunks that were written for it, resolves to what is wanted. -/
def Stands (resolve : Store → Store.Resolved × Store) (wanted : Store.Resolved → Prop)
    (views : List ChunkView) : Prop :=
  views.length ≤ maxChunksLimit ∧ ∃ r, Store.Resolves resolve views r ∧ wanted r

section Strings

variable {source : AddressSpace} {domain : TrustDomain} {addr reach : Nat}

/-- A string with an unreadable byte before its terminator, or none at all. -/
theorem StringBecomes.unavailable (hf : source.Flat)
    (h : addr = 0 ∨ ∃ i, source.Runs domain addr i ∧ source.Unreadable domain (addr + i)) :
    StringBecomes source domain addr reach .unavailable := by
  refine ⟨fun _ => rfl, fun _ _ _ _ => rfl, fun text ha ht => ?_⟩
  obtain ⟨i, hr, hu⟩ := h.resolve_left ha
  exact absurd hu (hf.not_unreadable ht hr)

theorem StringBecomes.inline (hf : source.Flat) {text : Bytes} (ha : addr ≠ 0)
    (ht : source.Spells domain addr text) (hlen : text.length < inlineCapacity) :
    StringBecomes source domain addr reach (.inline text) := by
  refine ⟨fun hz => absurd hz ha, fun i _ hr hu => ?_, fun other _ ho => ?_⟩
  · exact absurd hu (hf.not_unreadable ht hr)
  · rw [← hf.spells_eq ht ho, if_pos hlen]

/-- Only the chain decides about a string that is too long. -/
theorem StringBecomes.long (hf : source.Flat) {r : Store.Resolved} (ha : addr ≠ 0)
    (hruns : source.Runs domain addr inlineCapacity)
    (hr : ∀ text, text ≠ [] → source.Spells domain addr text →
      r = .chain (text.take reach) (reach < text.length)) :
    StringBecomes source domain addr reach r := by
  refine ⟨fun hz => absurd hz ha, fun i hi _ hu => ?_, fun text _ ht => ?_⟩
  · obtain ⟨b, -, hb⟩ := hruns i hi
    exact absurd hb (hu b)
  · have hlong := hf.runs_le hruns ht.ends
    have hne : text ≠ [] := by
      rintro rfl
      cases hlong
    rw [if_neg (Nat.not_lt.mpr hlong)]
    exact hr text hne ht

end Strings

namespace Writer

variable {w : Writer} {c : Channel} {source : AddressSpace} {domain : TrustDomain} {addr : Nat}
  {settings : CopySettings}

def FieldStands (source : AddressSpace) (domain : TrustDomain) (addr : Nat)
    (settings : CopySettings) (f : Field) (views : List ChunkView) : Prop :=
  f.WellFormed ∧ Stands (fun s => s.resolveField f settings.maxChunks)
    (StringBecomes source domain addr settings.stringReach) views

theorem fieldStands_unavailable (hf : source.Flat)
    (h : addr = 0 ∨ ∃ i, source.Runs domain addr i ∧ source.Unreadable domain (addr + i)) :
    FieldStands source domain addr settings .unavailable [] :=
  ⟨trivial, Nat.zero_le _, .unavailable, Store.resolves_plain [] .unavailable, .unavailable hf h⟩

theorem wellFormed_fieldOfCopy (o : CopyOutcome) : (fieldOfCopy o).WellFormed := by
  unfold fieldOfCopy
  split
  · trivial
  · rename_i h
    intro hnone
    exact h (.inr ((ChunkId.isNone_iff _).mpr hnone))

theorem resolveField_fieldOfCopy {o : CopyOutcome} (h : o.status = .failed → o.head = .none)
    (s : Store) (maxChunks : Nat) : s.resolveField (fieldOfCopy o) maxChunks =
      s.resolveChain o.head (o.status = .truncated) maxChunks := by
  unfold fieldOfCopy
  by_cases hnone : o.head = .none
  · rw [if_pos (.inr ((ChunkId.isNone_iff _).mpr hnone)), hnone, Store.resolveChain_none]
    rfl
  · rw [if_neg]
    · rfl
    · rintro (hs | hs)
      · exact hnone (h hs)
      · exact hnone ((ChunkId.isNone_iff _).mp hs)

theorem fieldStands_copy (hf : source.Flat) (hs : settings.validate = .ok ()) (ha : addr ≠ 0)
    (hruns : source.Runs domain addr inlineCapacity) {o : CopyOutcome} {views : List ChunkView}
    (h : Copy.Verdict ⟨w, source, addr, domain, settings, .untilTerminator⟩ o views) :
    FieldStands source domain addr settings (fieldOfCopy o) views := by
  refine ⟨wellFormed_fieldOfCopy o, Nat.le_trans h.length_le (Nat.min_le_right _ _),
    Copy.resolved o views, ?_, .long hf ha hruns fun text hne ht => ?_⟩
  · simp only [resolveField_fieldOfCopy h.toDelivered.head_none]
    exact h.toDelivered.resolves (Nat.le_refl _)
  · have hreach : Copy.Call.reach ⟨w, source, addr, domain, settings, .untilTerminator⟩ =
        settings.stringReach := Copy.Call.reach_eq hs
    have hvalid := Copy.Call.not_invalid
      (c := ⟨w, source, addr, domain, settings, .untilTerminator⟩) hs ha nofun
    have htext := h.text hf hvalid rfl ht hne (Copy.Call.reach_ne_zero hs)
    rw [hreach] at htext
    exact htext

theorem writes_readField (hf : source.Flat) (hv : c.Views w.channel)
    (hs : settings.validate = .ok ()) : w.Writes c (w.readField source addr domain settings)
      (FieldStands source domain addr settings) := by
  unfold readField
  by_cases ha : addr = 0
  · rw [if_pos ha]
    exact writes_pure (fieldStands_unavailable hf (.inl ha))
  rw [if_neg ha]
  have hread := source.readString_spec addr inlineCapacity domain ha
  cases he : source.readString addr inlineCapacity domain with
  | error fault =>
    rw [he] at hread
    obtain ⟨i, -, hi⟩ := hread hf
    refine (writes_aside fun _ => ⟨rfl, rfl⟩).bind fun _ more hmore => ?_
    subst hmore
    exact writes_pure (fieldStands_unavailable hf (.inr ⟨i, hi⟩))
  | ok read =>
    rw [he] at hread
    obtain ⟨hholds, htext, hends⟩ := hread
    dsimp only
    by_cases hterm : read.terminated = true
    · rw [if_pos hterm] at hends ⊢
      obtain ⟨hlen, hzero⟩ := hends
      have hspells : source.Spells domain addr read.bytes := .of_ends hholds htext hzero
      have hinline : InlineString.ofBytes? read.bytes = some ⟨read.bytes, hlen⟩ :=
        InlineString.ofBytes?_eq_some_iff.mpr rfl
      rw [hinline]
      exact writes_pure ⟨trivial, Nat.zero_le _, .inline read.bytes, Store.resolves_plain [] _,
        .inline hf ha hspells hlen⟩
    · rw [if_neg hterm] at hends ⊢
      have hruns : source.Runs domain addr inlineCapacity := hends ▸ .of_holds hholds htext
      refine (writes_call ⟨w, source, addr, domain, settings, .untilTerminator⟩ hv).bind
        fun o more ⟨_, hverdict⟩ => writes_pure ?_
      rw [List.append_nil]
      exact fieldStands_copy hf hs ha hruns (hverdict hf)

theorem writes_encodeField (hf : source.Flat) (hv : c.Views w.channel)
    (hs : settings.validate = .ok ()) : w.Writes c (w.encodeField source addr domain settings)
      (FieldStands source domain addr settings) := by
  apply (writes_readField hf hv hs).bind
  intro f more hfield
  by_cases hnone : f = .unavailable
  · rw [if_pos hnone]
    refine (writes_aside fun _ => ⟨rfl, rfl⟩).bind fun _ rest hrest => writes_pure ?_
    subst hrest
    rwa [List.append_nil, List.append_nil]
  · rw [if_neg hnone]
    apply writes_pure
    rwa [List.append_nil]

end Writer

namespace Invocation

variable {i : Invocation} {c : Channel} {source : AddressSpace} {start stop : UInt64}

def BlockStands (source : AddressSpace) (start len : Nat) (settings : CopySettings) (b : BlockRef)
    (views : List ChunkView) : Prop :=
  Stands (fun s => s.resolveBlock b settings.maxChunks)
    (RangeBecomes source .monitored start len (settings.rangeReach len)) views

theorem blockStands_absent {start len : Nat} {settings : CopySettings} (h : start = 0 ∨ len = 0) :
    BlockStands source start len settings {} [] := by
  refine ⟨Nat.zero_le _, .unavailable, ?_, fun _ => rfl, fun _ _ _ => rfl, fun _ ha hlen => ?_⟩
  · simpa only [Store.resolveBlock, Store.resolveChain_none] using
      Store.resolves_plain [] .unavailable
  · exact absurd h (by simp [ha, hlen])

theorem blockStands_copy {w : Writer} {settings : CopySettings} {start len : Nat}
    (hf : source.Flat) (hs : settings.validate = .ok ()) (ha : start ≠ 0) (hlen : len ≠ 0)
    {o : CopyOutcome} {views : List ChunkView}
    (h : Copy.Verdict ⟨w, source, start, .monitored, settings, .bytes len⟩ o views) :
    BlockStands source start len settings ⟨o.head, o.status⟩ views := by
  have hreach : Copy.Call.reach ⟨w, source, start, .monitored, settings, .bytes len⟩ =
      settings.rangeReach len := Copy.Call.reach_eq hs
  have hpos := Copy.Call.reach_ne_zero
    (c := ⟨w, source, start, .monitored, settings, .bytes len⟩) hs
  have hvalid := Copy.Call.not_invalid
    (c := ⟨w, source, start, .monitored, settings, .bytes len⟩) hs ha
    fun he => hlen (Copy.Extent.bytes.inj he)
  rw [hreach] at hpos
  refine ⟨Nat.le_trans h.length_le (Nat.min_le_right _ _), Copy.resolved o views,
    h.toDelivered.resolves (Nat.le_refl _),
    fun hz => ?_, fun i hi hu => ?_, fun bytes _ _ hholds hbytes => ?_⟩
  · exact absurd hz (by simp [ha, hlen])
  · refine h.range_unreadable rfl ?_ hu
    rw [hreach]
    exact hi
  · have hne : bytes ≠ [] := by
      rintro rfl
      rw [List.length_nil] at hbytes
      omega
    have hrange := h.range hf hvalid rfl hholds (by rw [hreach]; exact hbytes) hne
    rw [hreach] at hrange
    exact hrange

theorem writes_copyBlock (hf : source.Flat) (hv : c.Views i.writer.channel)
    (hs : i.settings.validate = .ok ()) : i.writer.Writes c (i.copyBlock source start stop)
      (BlockStands source start.toNat (stop.toNat - start.toNat) i.settings) := by
  have hzero : start = 0 ↔ start.toNat = 0 := by rw [← UInt64.toNat_inj]; rfl
  unfold copyBlock
  dsimp only
  by_cases habsent : start = 0 ∨ stop.toNat - start.toNat = 0
  · rw [if_pos habsent]
    exact Writer.writes_pure (blockStands_absent (habsent.imp_left hzero.mp))
  · rw [if_neg habsent]
    obtain ⟨ha, hlen⟩ := not_or.mp habsent
    have hcall := Writer.writes_call (c := c) ⟨i.writer, source, start.toNat, .monitored,
      i.settings, .bytes (stop.toNat - start.toNat)⟩ hv
    refine hcall.bind fun o more ⟨_, hverdict⟩ => Writer.writes_pure ?_
    rw [List.append_nil]
    exact blockStands_copy hf hs (fun hz => ha (hzero.mpr hz)) hlen (hverdict hf)

end Invocation
end ChainRelay
