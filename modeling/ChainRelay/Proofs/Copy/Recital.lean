import ChainRelay.Proofs.Copy.Limits
import ChainRelay.Proofs.Copy.Verdict

/-!
What the copy of a string says about the string, whatever ends it. The chunks hold bytes of the
string from its first one on; a copy that succeeds has come to the terminator, and one that is cut
short, by its own limit or for want of room, has seen the string go on (`Call.recites`).
-/

namespace ChainRelay.Copy

open ChainRelay.Ring AddressSpace

/-- Payloads that spell a string from a position on, and the status of who stops behind them. -/
structure Recites (r : Request) (pos : Nat) (d : List Bytes × CopyStatus) : Prop where
  nonempty : ∀ p ∈ d.1, p ≠ []
  runs : r.source.Runs r.domain (r.addr + pos) d.1.flatten.length
  ends : d.2 = .success → r.source.Shows r.domain (r.addr + pos + d.1.flatten.length) 0
  goesOn : d.2 = .truncated → r.source.Runs r.domain (r.addr + pos) (d.1.flatten.length + 1)

section Deliveries

variable {r : Request} {pos more : Nat} {last : Bool}

theorem Recites.ended (h : r.source.Shows r.domain (r.addr + pos) 0) :
    Recites r pos ([], .success) :=
  ⟨nofun, nofun, fun _ => h, nofun⟩

theorem Recites.cut (h : r.source.Runs r.domain (r.addr + pos) 1) :
    Recites r pos ([], .truncated) :=
  ⟨nofun, nofun, nofun, fun _ => h⟩

theorem Recites.failed : Recites r pos ([], .failed) := ⟨nofun, nofun, nofun, nofun⟩

theorem Recites.cons {data : Bytes} {d : List Bytes × CopyStatus}
    (hruns : r.source.Runs r.domain (r.addr + pos) data.length) (hne : data ≠ [])
    (h : Recites r (pos + data.length) d) : Recites r pos (data :: d.1, d.2) := by
  have hruns' := h.runs
  have hmore := h.goesOn
  have hend := h.ends
  simp only [← Nat.add_assoc] at hruns' hmore hend
  constructor
  case nonempty => exact List.forall_mem_cons.mpr ⟨hne, h.nonempty⟩
  case runs =>
    rw [List.flatten_cons, List.length_append]
    exact hruns.add hruns'
  case ends =>
    intro hs
    rw [List.flatten_cons, List.length_append, ← Nat.add_assoc]
    exact hend hs
  case goesOn =>
    intro hs
    rw [List.flatten_cons, List.length_append, Nat.add_assoc]
    exact hruns.add (hmore hs)

/-- One turn of the loop, given the turns after it. -/
theorem Request.recites_turn (ha : r.addr ≠ 0) (hroom : 0 < r.room)
    (hend : last = true → r.source.Shows r.domain (r.addr + pos) 0)
    (ih : ∀ {fewer pos : Nat} {last : Bool}, more = fewer + 1 →
      (last = true → r.source.Shows r.domain (r.addr + pos) 0) →
      Recites r pos (r.ahead fewer pos .untilTerminator last)) :
    Recites r pos (r.ahead more pos .untilTerminator last) := by
  rw [ahead]
  cases last with
  | true => exact .ended (hend rfl)
  | false =>
    rw [if_neg (by simp), if_neg (by simp [Extent.isExact])]
    have hfinds := r.readAfter_finds .untilTerminator pos ha hroom (by simp)
    cases hseg : r.readAfter pos .untilTerminator with
    | error fault => exact .failed
    | ok seg =>
      rw [hseg] at hfinds
      obtain ⟨hholds, htext, hrest, hstop⟩ := hfinds
      have hruns : r.source.Runs r.domain (r.addr + pos) seg.data.length := .of_holds hholds htext
      dsimp only
      by_cases hempty : seg.data.isEmpty = true
      · -- A read that gives nothing although there is room for a byte has met the terminator.
        rw [if_pos hempty]
        rw [List.isEmpty_iff.mp hempty] at hstop
        split at hstop
        · exact .ended hstop.2
        · exact absurd hstop (Nat.ne_of_lt hroom)
      rw [if_neg hempty]
      have hne : seg.data ≠ [] := fun he => hempty (List.isEmpty_iff.mpr he)
      cases more with
      | zero => exact .cut (hruns.mono (List.length_pos_iff.mpr hne))
      | succ fewer =>
        rw [hrest]
        refine .cons hruns hne (ih rfl fun hlast => ?_)
        rw [if_pos hlast] at hstop
        rw [← Nat.add_assoc]
        exact hstop.2

theorem Request.recites_ahead (ha : r.addr ≠ 0) (hroom : 0 < r.room)
    (hend : last = true → r.source.Shows r.domain (r.addr + pos) 0) :
    Recites r pos (r.ahead more pos .untilTerminator last) := by
  induction more generalizing pos last with
  | zero => exact recites_turn ha hroom hend nofun
  | succ more ih =>
    exact recites_turn ha hroom hend fun he hend => by
      cases he
      exact ih hend

/-- What is cut short has begun. -/
theorem Request.delivery_begun {e : Extent} {maxChunks : Nat}
    (h : (r.delivery e maxChunks).2 = .truncated) : (r.delivery e maxChunks).1 ≠ [] := by
  unfold delivery at h ⊢
  split at h
  · cases h
  · rename_i hvalid
    rw [if_neg hvalid]
    cases hread : e.read r.source r.addr r.room r.domain with
    | error fault =>
      rw [hread] at h
      cases h
    | ok first =>
      rw [hread] at h
      dsimp only at h ⊢
      split at h
      · cases h
      · rename_i hempty
        rw [if_neg hempty]
        exact List.cons_ne_nil _ _

end Deliveries

/-- What an outcome says of the string that was copied. -/
structure Call.Tells (call : Call) (o : CopyOutcome) : Prop where
  runs : call.source.Runs call.domain call.addr o.copied
  ends : o.status = .success → call.source.Shows call.domain (call.addr + o.copied) 0
  goesOn : o.status = .truncated → call.source.Runs call.domain call.addr (o.copied + 1)
  begun : o.status = .truncated → o.chunks ≠ 0

/-- The payload behind the first `n` adds a byte to them at least. -/
theorem length_flatten_take_lt {payloads : List Bytes} {n : Nat} (hn : n < payloads.length)
    (hne : ∀ p ∈ payloads, p ≠ []) :
    (payloads.take n).flatten.length < payloads.flatten.length := by
  have hpos := List.length_pos_iff.mpr (hne _ (List.getElem_mem hn))
  have hsplit := congrArg (fun l => l.flatten.length) (List.take_append_drop n payloads)
  rw [List.drop_eq_getElem_cons hn] at hsplit
  simp only [List.flatten_append, List.flatten_cons, List.length_append] at hsplit
  omega

/-- Who has no room for a payload has read it, and knows that the string goes on. -/
theorem Fares.tells {call : Call} {d : List Bytes × CopyStatus} {room : Nat} {o : CopyOutcome}
    (h : Fares d.1 d.2 room o) (hd : Recites call.request 0 d)
    (hbegun : d.2 = .truncated → d.1 ≠ []) : call.Tells o := by
  have hruns : call.source.Runs call.domain call.addr d.1.flatten.length := hd.runs
  have hchunks := h.chunks_eq
  have hcopied := h.copied_eq
  rcases Nat.lt_or_ge room d.1.length with hlt | hge
  · obtain ⟨hstatus, -⟩ := h.refused hlt
    have hmore : o.copied < d.1.flatten.length :=
      hcopied ▸ length_flatten_take_lt hlt hd.nonempty
    constructor
    case runs => exact hruns.mono (Nat.le_of_lt hmore)
    case ends =>
      intro hs
      rw [hs] at hstatus
      split at hstatus <;> cases hstatus
    case goesOn => exact fun _ => hruns.mono hmore
    case begun =>
      intro hs
      have hroom : room ≠ 0 := by
        rintro rfl
        rw [hs, if_pos rfl] at hstatus
        cases hstatus
      omega
  · obtain ⟨hstatus, -⟩ := h.served hge
    rw [List.take_of_length_le hge] at hcopied
    constructor
    case runs =>
      rw [hcopied]
      exact hruns
    case ends =>
      intro hs
      rw [hcopied]
      exact hd.ends (hstatus.symm.trans hs)
    case goesOn =>
      intro hs
      rw [hcopied]
      exact hd.goesOn (hstatus.symm.trans hs)
    case begun =>
      intro hs
      have hpos := List.length_pos_iff.mpr (hbegun (hstatus.symm.trans hs))
      omega

section Tells

variable {call : Call} {o : CopyOutcome} (h : call.Tells o) (hf : call.source.Flat)
include h hf

/-- A string that is not empty has a chunk, unless its copy fails. -/
theorem Call.Tells.views_ne_nil {views : List ChunkView} (hr : Reports o views)
    (hruns : call.source.Runs call.domain call.addr 1) (hs : o.status ≠ .failed) : views ≠ [] := by
  rintro rfl
  have hchunks : o.chunks = 0 := hr.chunks_eq
  have hcopied : o.copied = 0 := hr.copied_eq
  cases hstatus : o.status with
  | success =>
    have hle := hf.runs_le hruns (h.ends hstatus)
    omega
  | truncated => exact h.begun hstatus hchunks
  | failed => exact hs hstatus

/-- A copy that does not fail is truncated unless the terminator is next. -/
theorem Call.Tells.whole_iff (hs : o.status ≠ .failed) :
    o.status ≠ .truncated ↔ call.source.Shows call.domain (call.addr + o.copied) 0 := by
  cases hstatus : o.status with
  | success => simpa using h.ends hstatus
  | truncated =>
    simp only [ne_eq, not_true, false_iff]
    intro hend
    have hle := hf.runs_le (h.goesOn hstatus) hend
    omega
  | failed => exact absurd hstatus hs

end Tells

/-- What the copy of a string leaves behind a queue: the chunks that its outcome reports. It does
not count a field as unavailable. -/
structure Call.Appends (call : Call) (c : Channel) (q : List Booking) (s : Shared) (o : CopyOutcome)
    (s' : Shared) : Prop where
  chain : ∃ records views, c.Queued s' (q ++ records) ∧ List.Forall₂ Carries records views ∧
    call.Chain views ∧ Reports o views ∧ ∀ v ∈ views, v.header.id ≠ .none
  counters : ∀ n, (s'.tallies.get n).get .fieldsUnavailable =
    (s.tallies.get n).get .fieldsUnavailable

/-- Whatever ends the copy of a string, its outcome tells how the string goes on. -/
theorem Call.recites (call : Call) {c : Channel} {t : Traffic} (ht : Traffic.Reached c t)
    (he : call.extent = .untilTerminator) (hv : call.writer.channel ∈ t.views)
    (hf : call.source.Flat) (hs : call.settings.validate = .ok ()) (ha : call.addr ≠ 0)
    {q : List Booking} (hq : c.Queued t.shared q) :
    match call.activity.run t.shared with
    | (.ok o, s) => call.Tells o ∧ call.Appends c q t.shared o s
    | (.error _, s) => c.Exhausted s call.sizeClass.totalSize := by
  have hview := ht.queued.2 _ hv
  have hvalid := Call.not_invalid hs ha (by rw [he]; nofun)
  have hroom : 0 < call.request.room := SizeClass.payload_pos (Call.class_valid hs)
  obtain ⟨⟨room, cause⟩, hadmits, -⟩ := ht.room hv call.sizeClass.totalSize
  obtain ⟨g, slots, hsound, hlaid, -, hend⟩ :=
    call.follows_ends.run hview (.initial _ _) (Laid.initial hq)
  have hreturns := Call.returns ht hv hf hvalid hadmits
  rcases hrun : call.activity.run t.shared with ⟨e | o, s⟩
  · rw [hrun] at hlaid hend
    exact hlaid.exhausted hend.2
  · rw [hrun] at hlaid hend
    have hends : call.Ends o g := hend
    obtain ⟨hfares, hleaves⟩ := hreturns.of_run hrun
    obtain ⟨records, hq', hrecords, -⟩ := hlaid.records hends.hand_eq hends.lost_eq
    refine ⟨hfares.tells ?_ Request.delivery_begun, ⟨records, g.sent, hq', hrecords,
      hsound.chain hends.hand_eq hends.lost_eq, hends.reports,
      fun v hv => (hsound.sent v hv).named⟩, fun n => ?_⟩
    · rw [Request.delivery_eq_ahead hf ha hroom hvalid, he]
      exact Request.recites_ahead ha hroom nofun
    · rw [hleaves.counters n .fieldsUnavailable, CopyOutcome.counted, ite_self, Nat.add_zero]

end ChainRelay.Copy
