import Mathlib.Algebra.Order.BigOperators.Group.List
import Mathlib.Algebra.Order.Group.Nat
import ChainRelay.Proofs.Copy.Append
import ChainRelay.Proofs.Store.Resolving

/-!
The verdict on a copy that was refused nothing: what the source holds decides what the copy leaves
behind, and what a reference to it resolves to.
-/

namespace ChainRelay

open ChainRelay.Ring

/-- Settings that were checked allow every copy to be made. -/
theorem CopySettings.of_validate {c : CopySettings} (h : c.validate = .ok ()) :
    c.maxChunks ≠ 0 ∧ c.maxChunks ≤ maxChunksLimit ∧ c.stringClass.isValid = true ∧
      ∀ len, (c.classFor len).isValid = true := by
  unfold validate at h
  split at h
  · cases h
  · rename_i hmax
    split at h
    · cases h
    · rename_i hnone
      have hvalid (s : SizeClass) (hs : s ∈ c.classes) : s.isValid = true := by
        have := List.find?_eq_none.mp hnone s hs
        simpa using this
      refine ⟨by omega, by omega, hvalid _ List.mem_cons_self, fun len => ?_⟩
      unfold classFor
      cases hb : c.byteClass with
      | none =>
        show (SizeClass.forLength len).isValid = true
        unfold SizeClass.forLength
        split
        · rfl
        · split <;> rfl
      | some s => exact hvalid s (by simp [classes, hb])

namespace Copy

def Call.reach (c : Call) : Nat := c.limit * c.request.room

section Valid

variable {c : Call} (h : c.settings.validate = .ok ())
include h

theorem Call.class_valid : c.sizeClass.isValid = true := by
  obtain ⟨-, -, hstring, hbytes⟩ := CopySettings.of_validate h
  unfold sizeClass
  split
  · exact hbytes _
  · exact hstring

theorem Call.reach_eq : c.reach = c.settings.maxChunks * c.sizeClass.payloadCapacity := by
  obtain ⟨-, hmax, -⟩ := CopySettings.of_validate h
  unfold reach limit
  rw [Nat.min_eq_left hmax]
  rfl

theorem Call.reach_ne_zero : c.reach ≠ 0 := by
  rw [reach_eq h]
  exact Nat.mul_ne_zero (CopySettings.of_validate h).1
    (Nat.ne_of_gt (SizeClass.payload_pos (class_valid h)))

theorem Call.not_invalid (ha : c.addr ≠ 0) (he : c.extent ≠ .bytes 0) :
    ¬c.request.Invalid c.extent c.settings.maxChunks := by
  rintro (hz | hz | hz | hz)
  · exact ha hz
  · exact (CopySettings.of_validate h).1 hz
  · rw [show c.request.sizeClass = c.sizeClass from rfl, class_valid h] at hz
    cases hz
  · exact he hz

end Valid

/-- What a reference to the copy resolves to. -/
def resolved (o : CopyOutcome) (views : List ChunkView) : Store.Resolved :=
  if o.head = .none then .unavailable
  else .chain (views.flatMap (·.data)) (o.status = .truncated)

/-- What is left of a copy that was refused nothing. -/
structure Delivered (call : Call) (o : CopyOutcome) (views : List ChunkView) : Prop where
  chain : call.Chain views
  named : ∀ v ∈ views, v.header.id ≠ .none
  length_le : views.length ≤ call.limit
  reports : Reports o views
  delivers : call.request.delivery call.extent call.settings.maxChunks =
    (views.map (·.data), o.status)

structure Verdict (call : Call) (o : CopyOutcome) (views : List ChunkView) : Prop
    extends Delivered call o views where
  copied_le : o.copied ≤ call.reach
  settles : call.request.Invalid call.extent call.settings.maxChunks ∧ o.status = .failed ∨
    call.extent.Settles call.request call.reach o

variable {call : Call} {o : CopyOutcome} {views : List ChunkView} {g : Trail}

theorem length_flatMap_le {n : Nat} (h : ∀ v ∈ views, v.data.length ≤ n) :
    (views.flatMap (·.data)).length ≤ views.length * n := by
  rw [List.length_flatMap]
  have hsum := List.sum_le_card_nsmul (views.map fun v => v.data.length) n (by simpa using h)
  simpa using hsum

theorem Ends.delivered (he : call.Ends o g) (hg : g.Sound call.request call.limit)
    (hrefused : g.refused = none) : Delivered call o g.sent := by
  constructor
  case chain => exact hg.chain he.hand_eq he.lost_eq
  case named => exact fun v hv => (hg.sent v hv).named
  case length_le =>
    have hle := Nat.le_trans (Nat.le_add_right _ _) (Trail.length_le_ids g)
    exact Nat.le_trans hle hg.budget
  case reports => exact he.reports
  case delivers => rw [he.delivers hrefused, Trail.payloads, he.hand_eq, List.map_nil,
    List.append_nil]

theorem Ends.verdict (he : call.Ends o g) (hf : call.source.Flat)
    (hg : g.Sound call.request call.limit) (hrefused : g.refused = none) :
    Verdict call o g.sent := by
  have hd := he.delivered hg hrefused
  refine ⟨hd, ?_, he.settles hf hrefused⟩
  rw [hd.reports.copied_eq]
  have hroom : ∀ v ∈ g.sent, v.data.length ≤ call.request.room := by
    intro v hv
    exact hg.room _ (List.mem_append_left _ (List.mem_map_of_mem hv))
  exact Nat.le_trans (length_flatMap_le hroom) (Nat.mul_le_mul_right _ hd.length_le)

/-- A copy that gets every chunk it asks for. -/
theorem Call.run_granted {c : Channel} {q : List Booking} {s : Shared} (call : Call)
    (hv : c.Views call.writer.channel) (hq : c.Queued s q) (hgranted : call.activity.Granted s) :
    ∃ o s' records views, call.activity.run s = (.ok o, s') ∧ c.Queued s' (q ++ records) ∧
      List.Forall₂ Carries records views ∧ Delivered call o views ∧
      (call.source.Flat → Verdict call o views) ∧
      (s.allocators.get call.writer.ids).issue call.writer.shard views.length =
        (views.map (·.header.id), s'.allocators.get call.writer.ids) ∧
      ∀ n, n ≠ c.region → s'.regions.get n = s.regions.get n := by
  obtain ⟨g, slots, hsound, hlaid, hrefused, hend⟩ :=
    call.follows_ends.run hv (.initial _ _) (Laid.initial hq)
  have hrefused : g.refused = none := hrefused hgranted
  rcases hrun : call.activity.run s with ⟨answer, s'⟩
  rw [hrun] at hlaid hend
  cases answer with
  | error e =>
    have hover : g.refused = some .overflow := hend.2
    rw [hrefused] at hover
    cases hover
  | ok o =>
    have hends : call.Ends o g := hend
    obtain ⟨records, hq', hrecords, hissue⟩ := hlaid.records hends.hand_eq hends.lost_eq
    exact ⟨o, s', records, g.sent, rfl, hq', hrecords, hends.delivered hsound hrefused,
      fun hf => hends.verdict hf hsound hrefused, hissue, hlaid.regions⟩

theorem Delivered.head_none (h : Delivered call o views) (hs : o.status = .failed) :
    o.head = .none := by
  rw [h.reports.head_eq, if_pos hs]

/-- What is delivered is known from the call. -/
theorem Delivered.same {o' : CopyOutcome} {views' : List ChunkView} (h : Delivered call o views)
    (h' : Delivered call o' views') :
    o'.status = o.status ∧ views'.map (·.data) = views.map (·.data) := by
  have he := h.delivers.symm.trans h'.delivers
  exact ⟨(congrArg Prod.snd he).symm, (congrArg Prod.fst he).symm⟩

/-- Only a copy that failed, or copied nothing, has no chain to name. -/
theorem Delivered.head_iff (h : Delivered call o views) :
    o.head = .none ↔ o.status = .failed ∨ views = [] := by
  rw [h.reports.head_eq]
  split
  · rename_i hs
    simp [hs]
  · rename_i hs
    cases views with
    | nil => simp
    | cons v views => simpa [hs] using h.named v List.mem_cons_self

theorem Delivered.resolved_eq {o' : CopyOutcome} {views' : List ChunkView}
    (h : Delivered call o views) (h' : Delivered call o' views') :
    resolved o' views' = resolved o views := by
  obtain ⟨hstatus, hdata⟩ := h.same h'
  have hempty : views' = [] ↔ views = [] := by
    rw [← List.map_eq_nil_iff (f := (·.data)), hdata, List.map_eq_nil_iff]
  have hhead : o'.head = .none ↔ o.head = .none := by
    rw [h.head_iff, h'.head_iff, hstatus, hempty]
  simp only [resolved, hhead, hstatus, List.flatMap_def, hdata]

theorem Delivered.resolves (h : Delivered call o views) {maxChunks : Nat}
    (hmax : call.settings.maxChunks ≤ maxChunks) :
    Store.Resolves (fun s => s.resolveChain o.head (o.status = .truncated) maxChunks) views
      (resolved o views) := by
  unfold resolved
  by_cases hhead : o.head = .none
  · rw [if_pos hhead, hhead]
    simpa only [Store.resolveChain_none] using Store.resolves_plain views .unavailable
  · rw [if_neg hhead]
    have heq := h.reports.head_eq
    rw [if_neg (fun hs => hhead (h.head_none hs))] at heq
    have hne : views ≠ [] := by
      rintro rfl
      exact hhead heq
    have hwalk : Store.Walkable call.writer.shard views .none :=
      ⟨h.chain.linked, fun v hv => ⟨h.named v hv, h.chain.shard_eq v hv⟩, .inl rfl⟩
    have hlen : views.length ≤ max 1 (min maxChunks maxChunksLimit) := by
      have hle := h.length_le
      unfold Call.limit at hle
      omega
    exact Store.resolves_chain hwalk hne hlen heq _

/-- The first bytes of the source are in the chain. -/
theorem Verdict.resolved_eq (h : Verdict call o views) (hf : call.source.Flat) {bytes : Bytes}
    (hs : o.status ≠ .failed) (hholds : call.source.Holds call.domain call.addr bytes)
    (hlen : bytes.length = o.copied) (hne : bytes ≠ []) :
    resolved o views = .chain bytes (o.status = .truncated) := by
  have hcopied := h.reports.copied_eq
  have hbytes : views.flatMap (·.data) = bytes :=
    hf.holds_eq h.chain.holds hholds (by rw [hlen, hcopied])
  have hhead : o.head ≠ .none := by
    rw [h.reports.head_eq, if_neg hs]
    cases views with
    | nil =>
      rw [List.flatMap_nil] at hbytes
      exact absurd hbytes.symm hne
    | cons v views => exact h.named v List.mem_cons_self
  unfold resolved
  rw [if_neg hhead, hbytes]

section Text

variable (h : Verdict call o views) (hf : call.source.Flat)
  (hvalid : ¬call.request.Invalid call.extent call.settings.maxChunks)
include h hf hvalid

/-- Of a string, as much as the call may copy. -/
theorem Verdict.text (he : call.extent = .untilTerminator) {text : Bytes}
    (ht : call.source.Spells call.domain call.addr text) (hne : text ≠ [])
    (hreach : call.reach ≠ 0) :
    resolved o views = .chain (text.take call.reach) (call.reach < text.length) := by
  have hsettles := h.settles.resolve_left fun hbad => hvalid hbad.1
  have hle := h.copied_le
  rw [he] at hsettles
  have hholds := (AddressSpace.holds_append.mp ht.holds).1.take call.reach
  have htake : text.take call.reach ≠ [] := by simp [hne, hreach]
  cases hs : o.status with
  | success =>
    simp only [Extent.Settles, hs] at hsettles
    have hcopied : o.copied = text.length :=
      Nat.le_antisymm (hf.runs_le hsettles.1 ht.ends) (hf.runs_le ht.runs hsettles.2)
    have hfew : ¬call.reach < text.length := by omega
    rw [h.resolved_eq hf (by rw [hs]; decide) hholds (by rw [List.length_take]; omega) htake, hs]
    simp [hfew]
  | truncated =>
    simp only [Extent.Settles, hs] at hsettles
    have hmore : call.reach < text.length := hf.runs_le hsettles.2 ht.ends
    rw [h.resolved_eq hf (by rw [hs]; decide) hholds (by rw [List.length_take]; omega) htake, hs]
    simp [hmore]
  | failed =>
    simp only [Extent.Settles, hs] at hsettles
    obtain ⟨i, hruns, hu⟩ := hsettles
    exact absurd hu (hf.not_unreadable ht hruns)

/-- Of a range that can be read as far as the call may copy, as much as it may. -/
theorem Verdict.range {len : Nat} (he : call.extent = .bytes len) {bytes : Bytes}
    (hholds : call.source.Holds call.domain call.addr bytes)
    (hlen : bytes.length = min len call.reach) (hne : bytes ≠ []) :
    resolved o views = .chain bytes (call.reach < len) := by
  have hsettles := h.settles.resolve_left fun hbad => hvalid hbad.1
  have hle := h.copied_le
  rw [he] at hsettles
  cases hs : o.status with
  | success =>
    simp only [Extent.Settles, hs] at hsettles
    have hfew : ¬call.reach < len := by omega
    rw [h.resolved_eq hf (by rw [hs]; decide) hholds (by omega) hne, hs]
    simp [hfew]
  | truncated =>
    simp only [Extent.Settles, hs] at hsettles
    rw [h.resolved_eq hf (by rw [hs]; decide) hholds (by omega) hne, hs]
    simp [hsettles.2]
  | failed =>
    simp only [Extent.Settles, hs] at hsettles
    obtain ⟨i, hi, hu⟩ := hsettles
    have hi : i < bytes.length := by
      rw [hlen]
      exact hi
    exact absurd (hholds i _ (List.getElem?_eq_getElem hi)) (hu _)

end Text

/-- A range with a byte that would be copied and cannot be read is left out. -/
theorem Verdict.range_unreadable (h : Verdict call o views) {len i : Nat}
    (he : call.extent = .bytes len) (hi : i < min len call.reach)
    (hu : call.source.Unreadable call.domain (call.addr + i)) :
    resolved o views = .unavailable := by
  have hread (hlt : i < o.copied) : False := by
    have hholds := h.chain.holds
    rw [h.reports.copied_eq] at hlt
    exact hu _ (hholds i _ (List.getElem?_eq_getElem hlt))
  have hfailed : o.status = .failed := by
    rcases h.settles with hbad | hsettles
    · exact hbad.2
    · rw [he] at hsettles
      cases hs : o.status with
      | failed => rfl
      | success =>
        simp only [Extent.Settles, hs] at hsettles
        exact (hread (by omega)).elim
      | truncated =>
        simp only [Extent.Settles, hs] at hsettles
        exact (hread (by omega)).elim
  unfold resolved
  rw [if_pos (h.toDelivered.head_none hfailed)]

end Copy
end ChainRelay
