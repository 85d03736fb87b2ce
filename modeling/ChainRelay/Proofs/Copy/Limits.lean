import Mathlib.Algebra.Order.Floor.Div
import ChainRelay.Proofs.Channel.Refill
import ChainRelay.Proofs.Copy.Ration

/-!
Which limit ends a copy. Its value ends, its chunks are used up, its channel has no more room, or a
byte cannot be read: the copy reads one segment ahead, and whichever comes first decides what it
reports (`copy_ends_at_its_first_limit`). A channel whose cursor has come to the end of its range is
the exception: there a copy may end with no report at all (`copy_has_no_outcome`).
-/

namespace ChainRelay

open Traffic

namespace CopyOutcome

/-- What a copy counts that may have been refused for `cause`. -/
def counted (o : CopyOutcome) (cause : ReserveError) : Counter → Nat
  | .chunksCommitted => o.chunks
  | .chunksRefused => if o.failure = some .capacity ∧ cause.isFull then 1 else 0
  | .copiesTruncated => if o.status = .truncated then 1 else 0
  | .copiesFailed => if o.status = .failed then 1 else 0
  | .chunksDiscarded | .fieldsUnavailable | .recordsSubmitted | .recordsDropped => 0

def loss? (o : CopyOutcome) : Option Counter :=
  match o.status with
  | .success => none
  | .truncated => some .copiesTruncated
  | .failed => some .copiesFailed

/-- The outcome of a copy that was refused nothing: only the source makes it fail. -/
def Unrefused (o : CopyOutcome) : Prop :=
  match o.status with
  | .success | .truncated => o.failure = none
  | .failed => ∃ fault, o.failure = some (.source fault)

def refusal? (o : CopyOutcome) (cause : ReserveError) : Option Counter :=
  if o.failure = some .capacity ∧ cause.isFull then some .chunksRefused else none

theorem Unrefused.refusal_none {o : CopyOutcome} (h : o.Unrefused) (cause : ReserveError) :
    o.refusal? cause = none := by
  unfold refusal?
  unfold Unrefused at h
  cases hs : o.status with
  | success | truncated => simp_all
  | failed =>
    rw [hs] at h
    obtain ⟨fault, h⟩ := h
    simp [h]

/-- Beside its chunks a copy counts its refusal and its loss. -/
theorem counted_eq (o : CopyOutcome) (cause : ReserveError) (tally n : Nat) (d : Counter) :
    ((o.refusal? cause).toList.map (tally, ·) ++ o.loss?.toList.map (tally, ·)).count (n, d) +
      (if n = tally ∧ d = .chunksCommitted then o.chunks else 0) =
      if n = tally then o.counted cause d else 0 := by
  rw [← List.map_append]
  by_cases hn : n = tally
  · subst hn
    rw [List.count_map_of_injective _ _ fun _ _ he => (Prod.mk.inj he).2]
    unfold refusal? loss?
    cases hs : o.status <;> cases d <;> simp [counted, hs] <;> split <;> simp
  · have hcommitted : ¬(n = tally ∧ d = .chunksCommitted) := fun h => hn h.1
    rw [if_neg hn, if_neg hcommitted, Nat.add_zero, List.count_eq_zero, List.mem_map]
    rintro ⟨d', -, he⟩
    exact hn (Prod.mk.inj he).1.symm

end CopyOutcome

namespace Copy

open Activity

/-- The outcome of a copy that delivers these payloads and comes to this status if it is refused
nothing, and that has room for `room` chunks. -/
structure Fares (payloads : List Bytes) (status : CopyStatus) (room : Nat) (o : CopyOutcome) :
    Prop where
  chunks_eq : o.chunks = min payloads.length room
  copied_eq : o.copied = (payloads.take room).flatten.length
  served : payloads.length ≤ room → o.status = status ∧ o.Unrefused
  refused : room < payloads.length →
    o.status = (if room = 0 then .failed else .truncated) ∧ o.failure = some .capacity

namespace Request

variable {r : Request} {cause : ReserveError} {room : Nat}

/-- How such a copy ends that has committed `settled` of its chunks, and what it counts from there
on. It has no outcome just if a chunk that it needs would take a cursor out of its range. -/
def Closes (r : Request) (cause : ReserveError) (payloads : List Bytes) (status : CopyStatus)
    (room settled : Nat) : Except Overflow CopyOutcome → List (Nat × Counter) → Prop
  | .ok o, moved => Fares payloads status room o ∧
      (cause = .overflow → payloads.length ≤ room) ∧ ∀ n d,
      moved.count (n, d) + (if n = r.writer.tally ∧ d = .chunksCommitted then settled else 0) =
        if n = r.writer.tally then o.counted cause d else 0
  | .error _, _ => cause = .overflow ∧ room < payloads.length

/-- Another chunk was committed. -/
theorem Closes.commit {payloads : List Bytes} {status : CopyStatus} {settled : Nat}
    {x : Except Overflow CopyOutcome} (moved : List (Nat × Counter)) {more : List (Nat × Counter)}
    (h : r.Closes cause payloads status room (settled + 1) x (moved ++ more)) :
    r.Closes cause payloads status room settled x
      (moved ++ (r.writer.tally, .chunksCommitted) :: more) := by
  cases x with
  | error e => exact h
  | ok o =>
    obtain ⟨hfares, hfits, hcounted⟩ := h
    refine ⟨hfares, hfits, fun n d => ?_⟩
    rw [← hcounted n d, List.count_append, List.count_append, List.count_cons]
    by_cases hd : n = r.writer.tally ∧ d = .chunksCommitted
    · obtain ⟨rfl, rfl⟩ := hd
      simp only [and_self, if_true, beq_self_eq_true]
      omega
    · have hne : ((r.writer.tally, Counter.chunksCommitted) == (n, d)) = false := by
        rw [beq_eq_false_iff_ne]
        rintro ⟨⟩
        exact hd ⟨rfl, rfl⟩
      rw [if_neg hd, if_neg hd, hne]
      rfl

theorem Fares.closes (r : Request) (cause : ReserveError) {payloads : List Bytes}
    {status : CopyStatus} {o : CopyOutcome} (h : Fares payloads status room o)
    (hfits : cause = .overflow → payloads.length ≤ room) :
    r.Closes cause payloads status room o.chunks (.ok o)
      ((o.refusal? cause).toList.map (r.writer.tally, ·) ++
        o.loss?.toList.map (r.writer.tally, ·)) :=
  ⟨h, hfits, o.counted_eq cause r.writer.tally⟩

theorem counts_refused (cause : ReserveError) {o : CopyOutcome}
    (h : o.failure = some .capacity) :
    ((Op.openChunk r.writer r.sizeClass).counts? (.error cause)).toList =
      (o.refusal? cause).toList.map (r.writer.tally, ·) := by
  cases hfull : cause.isFull <;> simp [Op.counts?, CopyOutcome.refusal?, hfull, h]

def Settles (r : Request) (o : CopyOutcome) (out : Activity CopyOutcome) : Prop :=
  ∀ cause room, out.Rationed cause (fun x moved => x = .ok o ∧
    moved = o.loss?.toList.map (r.writer.tally, ·)) room

theorem settles_done (head : ChunkId) (copied chunks : Nat) :
    r.Settles { head, copied, chunks, status := .success }
      (pure { head, copied, chunks, status := .success }) :=
  fun _ _ => ⟨rfl, rfl⟩

theorem settles_truncate (head : ChunkId) (copied chunks : Nat) (failure : Option CopyFailure) :
    r.Settles { head, copied, chunks, status := .truncated, failure }
      (r.truncate head copied chunks failure) :=
  fun _ _ _ _ _ _ => ⟨rfl, rfl⟩

theorem settles_fail (failure : CopyFailure) (copied chunks : Nat) :
    r.Settles { copied, chunks, status := .failed, failure := some failure }
      (r.fail failure copied chunks) :=
  fun _ _ _ _ _ _ => ⟨rfl, rfl⟩

/-- The payloads that were written so far, the one of the open chunk included. -/
structure Underway (r : Request) (p : Progress) (written : List Bytes) : Prop where
  nonempty : written ≠ []
  chunks_eq : p.chunks = written.length
  copied_eq : p.copied = written.flatten.length
  tally_eq : p.current.tally = r.writer.tally

variable {p : Progress} {written payloads : List Bytes} {status : CopyStatus} {o : CopyOutcome}
  {out : Activity CopyOutcome}

/-- Every way out of the loop commits the current chunk first. -/
theorem Underway.closes (h : r.Underway p written) (hout : r.Settles o out)
    (hchunks : o.chunks = p.chunks) (hfares : Fares payloads status room o)
    (hfits : cause = .overflow → payloads.length ≤ room) (left : Nat) :
    (perform (.commitChunk p.current) >>= fun _ => out).Rationed cause (fun x moved =>
      r.Closes cause payloads status room (written.length - 1) x
        ((o.refusal? cause).toList.map (r.writer.tally, ·) ++ moved)) left := by
  intro _ _
  refine (hout cause left).mono ?_
  rintro x moved ⟨rfl, rfl⟩
  have hpos := List.length_pos_iff.mpr h.nonempty
  have hcloses := Fares.closes r cause hfares hfits
  rw [hchunks, h.chunks_eq, show written.length = written.length - 1 + 1 by omega] at hcloses
  have hcommit := hcloses.commit _
  rw [← h.tally_eq] at hcommit
  rw [← h.tally_eq]
  exact hcommit

/-- A copy that ends without having been refused anything. -/
theorem Underway.ends (h : r.Underway p written) (hout : r.Settles o out)
    (hchunks : o.chunks = p.chunks) (hcopied : o.copied = p.copied) (hstatus : o.status = status)
    (hunrefused : o.Unrefused) :
    (perform (.commitChunk p.current) >>= fun _ => out).Rationed cause
      (r.Closes cause (written ++ []) status (written.length + room) (written.length - 1))
      room := by
  have hfares : Fares (written ++ []) status (written.length + room) o := by
    rw [List.append_nil]
    refine ⟨?_, ?_, fun _ => ⟨hstatus, hunrefused⟩, fun hlt => by omega⟩
    · rw [hchunks, h.chunks_eq]
      omega
    · rw [hcopied, h.copied_eq, List.take_of_length_le (by omega)]
  have hcloses := h.closes hout hchunks hfares (fun _ : cause = .overflow => by simp) room
  rw [hunrefused.refusal_none] at hcloses
  exact hcloses

/-- A copy that gets no further chunk. -/
theorem Underway.refused (h : r.Underway p written) (hcause : cause ≠ .overflow)
    (hmore : written.length < payloads.length)
    (hwritten : payloads.take written.length = written) (left : Nat) :
    (perform (.commitChunk p.current) >>= fun _ =>
        r.truncate p.head p.copied p.chunks (some .capacity)).Rationed cause (fun x moved =>
      r.Closes cause payloads status (written.length + 0) (written.length - 1) x
        (((Op.openChunk r.writer r.sizeClass).counts? (.error cause)).toList ++ moved)) left := by
  have hpos := List.length_pos_iff.mpr h.nonempty
  have hfares : Fares payloads status (written.length + 0)
      { head := p.head, copied := p.copied, chunks := p.chunks, status := .truncated,
        failure := some .capacity } := by
    refine ⟨?_, ?_, fun hle => by omega, fun _ => ⟨(if_neg (by omega)).symm, rfl⟩⟩
    · show p.chunks = _
      rw [h.chunks_eq]
      omega
    · show p.copied = _
      rw [h.copied_eq, Nat.add_zero, hwritten]
  have hcloses := h.closes (settles_truncate _ _ _ _) rfl hfares (absurd · hcause) left
  rw [← counts_refused cause] at hcloses
  · exact hcloses
  · rfl

/-- The loop's state after another chunk. -/
theorem Underway.next (h : r.Underway p written) (segment : Segment) {chunk : OpenChunk}
    (hchunk : r.writer.Opens r.sizeClass chunk) :
    r.Underway
      { head := p.head
        copied := p.copied + segment.data.length
        chunks := p.chunks + 1
        current := chunk.filled segment.data
        rest := segment.rest
        last := segment.last } (written ++ [segment.data]) where
  nonempty := by simp
  chunks_eq := by simp [h.chunks_eq]
  copied_eq := by simp [h.copied_eq]
  tally_eq := hchunk.tally_eq

/-- One turn of the loop, given the turns after it. -/
theorem proceed_turn_closes {more : Nat} (h : r.Underway p written)
    (ih : ∀ {fewer : Nat} {p : Progress} {written : List Bytes} (room : Nat), more = fewer + 1 →
      r.Underway p written → (r.proceed fewer p).Rationed cause
        (r.Closes cause (written ++ (r.ahead fewer p.copied p.rest p.last).1)
          (r.ahead fewer p.copied p.rest p.last).2 (written.length + room) (written.length - 1))
        room) :
    (r.proceed more p).Rationed cause
      (r.Closes cause (written ++ (r.ahead more p.copied p.rest p.last).1)
        (r.ahead more p.copied p.rest p.last).2 (written.length + room) (written.length - 1))
      room := by
  unfold proceed
  rw [ahead]
  cases p.last with
  | true =>
    rw [if_pos rfl, if_pos rfl]
    exact h.ends (settles_done _ _ _) rfl rfl rfl rfl
  | false =>
    rw [if_neg Bool.false_ne_true, if_neg Bool.false_ne_true]
    by_cases hexact : more = 0 ∧ p.rest.isExact = true
    · rw [if_pos hexact, if_pos hexact]
      exact h.ends (settles_truncate _ _ _ _) rfl rfl rfl rfl
    rw [if_neg hexact, if_neg hexact]
    cases r.readAfter p.copied p.rest with
    | error fault => exact h.ends (settles_fail _ _ _) rfl rfl rfl ⟨fault, rfl⟩
    | ok segment =>
      dsimp only
      by_cases hempty : segment.data.isEmpty = true
      · rw [if_pos hempty, if_pos hempty]
        exact h.ends (settles_done _ _ _) rfl rfl rfl rfl
      rw [if_neg hempty, if_neg hempty]
      -- this segment is read before it is known whether there is a chunk for it
      cases more with
      | zero => exact h.ends (settles_truncate _ _ _ _) rfl rfl rfl rfl
      | succ fewer =>
        intro reply hreply
        rcases reply with e | chunk
        case error =>
          obtain ⟨rfl, rfl⟩ : room = 0 ∧ e = cause := hreply
          cases e with
          | overflow => exact fun _ _ => ⟨rfl, by simp⟩
          | full requested available => exact h.refused (by simp) (by simp) (by simp) 0
          | invalidSize size max => exact h.refused (by simp) (by simp) (by simp) 0
        case ok =>
          obtain ⟨hroom, hchunk⟩ : 0 < room ∧ r.writer.Opens r.sizeClass chunk := hreply
          have hnext := ih (room - 1) rfl (h.next segment hchunk)
          have hsum : (written ++ [segment.data]).length + (room - 1) = written.length + room := by
            simp only [List.length_append, List.length_singleton]
            omega
          have hsettled : (written ++ [segment.data]).length - 1 = written.length - 1 + 1 := by
            have hpos := List.length_pos_iff.mpr h.nonempty
            simp only [List.length_append, List.length_singleton]
            omega
          rw [hsum, hsettled, List.append_assoc] at hnext
          intro _ _ _ _
          refine hnext.mono fun x moved hcloses => ?_
          have hcommit := Closes.commit [] hcloses
          rw [← h.tally_eq] at hcommit
          exact hcommit

theorem proceed_closes (more : Nat) (h : r.Underway p written) (cause : ReserveError)
    (room : Nat) :
    (r.proceed more p).Rationed cause
      (r.Closes cause (written ++ (r.ahead more p.copied p.rest p.last).1)
        (r.ahead more p.copied p.rest p.last).2 (written.length + room) (written.length - 1))
      room := by
  induction more generalizing p written room with
  | zero => exact proceed_turn_closes h nofun
  | succ more ih => exact proceed_turn_closes h fun room he h' => by cases he; exact ih h' room

/-- A copy that needs no chunk. -/
theorem Settles.empty (hout : r.Settles o out) (hchunks : o.chunks = 0) (hcopied : o.copied = 0)
    (hstatus : o.status = status) (hunrefused : o.Unrefused) :
    out.Rationed cause (r.Closes cause [] status room 0) room := by
  refine (hout cause room).mono ?_
  rintro x moved ⟨rfl, rfl⟩
  have hfares : Fares [] status room o :=
    ⟨by simp [hchunks], by simp [hcopied], fun _ => ⟨hstatus, hunrefused⟩, nofun⟩
  have hcloses := Fares.closes r cause hfares fun _ => Nat.zero_le room
  rw [hunrefused.refusal_none, hchunks] at hcloses
  exact hcloses

/-- A copy that does not get its first chunk. -/
theorem Settles.unfed (hout : r.Settles { status := .failed, failure := some .capacity } out)
    (hcause : cause ≠ .overflow) (hmore : 0 < payloads.length) :
    out.Rationed cause (fun x moved => r.Closes cause payloads status 0 0 x
      (((Op.openChunk r.writer r.sizeClass).counts? (.error cause)).toList ++ moved)) 0 := by
  refine (hout cause 0).mono ?_
  rintro x moved ⟨rfl, rfl⟩
  have hfares : Fares payloads status 0 { status := .failed, failure := some .capacity } :=
    ⟨(Nat.min_zero _).symm, by simp, fun hle => by omega, fun _ => ⟨rfl, rfl⟩⟩
  have hcloses := Fares.closes r cause hfares (absurd · hcause)
  rw [← counts_refused cause] at hcloses
  · exact hcloses
  · rfl

/-- A copy that asks for something delivers what it would deliver, as far as there is room. -/
theorem start_closes {e : Extent} {maxChunks : Nat} (hvalid : ¬r.Invalid e maxChunks) :
    (r.start e maxChunks).Rationed cause
      (r.Closes cause (r.delivery e maxChunks).1 (r.delivery e maxChunks).2 room 0) room := by
  have hbad : ¬(r.addr = 0 ∨ maxChunks = 0 ∨ r.sizeClass.isValid = false) := fun hbad =>
    hvalid (by rcases hbad with hbad | hbad | hbad <;> simp [Invalid, hbad])
  have hdelivery : r.delivery e maxChunks = _ := if_neg hvalid
  unfold start
  rw [if_neg hbad]
  cases hseg : e.read r.source r.addr r.room r.domain with
  | error fault =>
    rw [hseg] at hdelivery
    rw [hdelivery]
    exact (settles_fail _ _ _).empty rfl rfl rfl ⟨fault, rfl⟩
  | ok first =>
    rw [hseg] at hdelivery
    dsimp only at hdelivery ⊢
    by_cases hempty : first.data.isEmpty = true
    · rw [if_pos hempty] at hdelivery ⊢
      rw [hdelivery]
      exact (settles_done _ _ _).empty rfl rfl rfl rfl
    rw [if_neg hempty] at hdelivery ⊢
    rw [hdelivery]
    intro reply hreply
    rcases reply with e | chunk
    case error =>
      obtain ⟨rfl, rfl⟩ : room = 0 ∧ e = cause := hreply
      cases e with
      | overflow => exact ⟨rfl, by simp⟩
      | full requested available => exact (settles_fail _ _ _).unfed (by simp) (by simp)
      | invalidSize size max => exact (settles_fail _ _ _).unfed (by simp) (by simp)
    case ok =>
      obtain ⟨hroom, hchunk⟩ : 0 < room ∧ r.writer.Opens r.sizeClass chunk := hreply
      have hunderway : r.Underway
          { head := chunk.id
            copied := first.data.length
            chunks := 1
            current := chunk.filled first.data
            rest := first.rest
            last := first.last } [first.data] :=
        ⟨by simp, rfl, by simp, hchunk.tally_eq⟩
      have hproceed := proceed_closes (min maxChunks maxChunksLimit - 1) hunderway cause (room - 1)
      rw [show [first.data].length + (room - 1) = room by simp; omega] at hproceed
      intro _ _
      exact hproceed

end Request

/-! ### Running a call -/

/-- What a call leaves that has an outcome: its chunks behind what the channel held, and in the
writer's tally what the outcome says. -/
structure Call.Leaves (call : Call) (c : Channel) (cause : ReserveError) (s : Shared)
    (o : CopyOutcome) (s' : Shared) : Prop where
  records : ∀ q, c.Queued s q → ∃ records views, c.Queued s' (q ++ records) ∧
    List.Forall₂ Carries records views ∧ call.Chain views ∧ Reports o views
  counters : ∀ n d, (s'.tallies.get n).get d =
    (s.tallies.get n).get d + if n = call.writer.tally then o.counted cause d else 0

/-- The call comes to an outcome as wanted, unless its chunks run `short` for a cursor that would
leave its range. Then it has none. -/
structure Call.Returns (call : Call) (c : Channel) (cause : ReserveError) (s : Shared)
    (post : CopyOutcome → Prop) (short : Prop) : Prop where
  outcome : ¬(cause = .overflow ∧ short) →
    ∃ o s', call.activity.run s = (.ok o, s') ∧ post o ∧ call.Leaves c cause s o s'
  overflow : cause = .overflow ∧ short → (call.activity.run s).1 = .error .overflow

theorem Call.Returns.imp {call : Call} {c : Channel} {cause : ReserveError} {s : Shared}
    {post post' : CopyOutcome → Prop} {short short' : Prop} (h : call.Returns c cause s post short)
    (hpost : ∀ o, post o → post' o) (hshort : short' ↔ short) :
    call.Returns c cause s post' short' := by
  refine ⟨fun hfits => ?_, fun hover => h.overflow (by rwa [hshort] at hover)⟩
  obtain ⟨o, s', hrun, ho, hleaves⟩ := h.outcome (by rwa [hshort] at hfits)
  exact ⟨o, s', hrun, hpost o ho, hleaves⟩

theorem Call.Returns.of_run {call : Call} {c : Channel} {cause : ReserveError} {s s' : Shared}
    {post : CopyOutcome → Prop} {short : Prop} {o : CopyOutcome}
    (h : call.Returns c cause s post short) (hrun : call.activity.run s = (.ok o, s')) :
    post o ∧ call.Leaves c cause s o s' := by
  have hfits : ¬(cause = .overflow ∧ short) := by
    intro hover
    have hnone := h.overflow hover
    rw [hrun] at hnone
    cases hnone
  obtain ⟨o', s'', hrun', ho⟩ := h.outcome hfits
  cases hrun.symm.trans hrun'
  exact ho

section Calls

variable {call : Call} {cause : ReserveError} {room : Nat}

theorem Call.closes (hvalid : ¬call.request.Invalid call.extent call.settings.maxChunks) :
    call.activity.Rationed cause (call.request.Closes cause
      (call.request.delivery call.extent call.settings.maxChunks).1
      (call.request.delivery call.extent call.settings.maxChunks).2 room 0) room := by
  obtain ⟨writer, source, addr, domain, settings, extent⟩ := call
  cases extent with
  | bytes len =>
    have hlen : len ≠ 0 := fun hz => hvalid (by simp [Request.Invalid, hz])
    simp only [activity, Writer.copyBytes, if_neg hlen]
    exact Request.start_closes hvalid
  | untilTerminator => exact Request.start_closes hvalid

/-- A call delivers what it would deliver, as far as there is room. -/
theorem Call.returns {c : Channel} {t : Traffic} (ht : Traffic.Reached c t)
    (hv : call.writer.channel ∈ t.views) (hf : call.source.Flat)
    (hvalid : ¬call.request.Invalid call.extent call.settings.maxChunks)
    (hroom : call.writer.channel.Admits call.sizeClass.totalSize cause room t.shared) :
    call.Returns c cause t.shared
      (Fares (call.request.delivery call.extent call.settings.maxChunks).1
        (call.request.delivery call.extent call.settings.maxChunks).2 room)
      (room < (call.request.delivery call.extent call.settings.maxChunks).1.length) := by
  obtain ⟨⟨q, hq⟩, hviews⟩ := ht.queued
  have hview := hviews _ hv
  obtain ⟨moved, hcloses, hcounted⟩ := (call.follows hf).rationed (Call.closes hvalid) hview
    (.initial _ _) (Laid.initial hq) hroom
  rcases hrun : call.activity.run t.shared with ⟨e | o, s⟩
  · rw [hrun] at hcloses
    cases e
    exact ⟨fun hfits => absurd hcloses hfits, fun _ => congrArg Prod.fst hrun⟩
  · rw [hrun] at hcloses hcounted
    obtain ⟨hfares, hfits, hmoved⟩ := hcloses
    refine ⟨fun _ => ⟨o, s, hrun, hfares, fun q hq => ?_, fun n d => ?_⟩, fun ⟨hcause, hshort⟩ =>
      absurd (hfits hcause) (Nat.not_le.mpr hshort)⟩
    · obtain ⟨g, slots, hsound, hlaid, -, hend⟩ :=
        (call.follows hf).run hview (.initial _ _) (Laid.initial hq)
      rw [hrun] at hlaid hend
      have hended : Ended call.request call.extent call.settings.maxChunks o g := hend
      obtain ⟨records, hq', hrecords, -⟩ := hlaid.records hended.hand_eq hended.lost_eq
      exact ⟨records, g.sent, hq', hrecords, hsound.chain hended.hand_eq hended.lost_eq,
        hended.reports⟩
    · have hmoved := hmoved n d
      simp only [ite_self, Nat.add_zero] at hmoved
      rw [hcounted, hmoved]
      rfl

end Calls

/-- The payloads of the first chunks of `n` bytes: the last byte is in the only one that need not be
full. -/
def Slices (size : Nat) : Nat → List Bytes → Prop
  | _, [] => True
  | n, d :: ds => d.length = min n size ∧ Slices size (n - d.length) ds

theorem Slices.length_take {size n : Nat} {ds : List Bytes} (h : Slices size n ds) (k : Nat) :
    (ds.take k).flatten.length = min n (size * min ds.length k) := by
  induction ds generalizing n k with
  | nil => simp
  | cons d ds ih =>
    obtain ⟨hd, hds⟩ := h
    cases k with
    | zero => simp
    | succ k =>
      rw [List.take_succ_cons, List.flatten_cons, List.length_append, ih hds, List.length_cons,
        Nat.add_min_add_right, Nat.mul_succ]
      omega

theorem ceilDiv_step {n size : Nat} (hn : n ≠ 0) (hs : 0 < size) :
    n ⌈/⌉ size = (n - min n size) ⌈/⌉ size + 1 := by
  apply eq_of_forall_ge_iff
  intro k
  rw [ceilDiv_le_iff_le_mul hs]
  cases k with
  | zero =>
    rw [Nat.mul_zero]
    omega
  | succ k =>
    rw [Nat.add_le_add_iff_right, ceilDiv_le_iff_le_mul hs, Nat.mul_succ]
    omega

/-- What is delivered of `n` bytes that can all be read, in at most `more` chunks. -/
structure Delivers (size n more : Nat) (d : List Bytes × CopyStatus) : Prop where
  length_eq : d.1.length = min (n ⌈/⌉ size) more
  status_eq : d.2 = if n ⌈/⌉ size ≤ more then .success else .truncated
  slices : Slices size n d.1

/-- The same of a longer range whose first unreadable byte is behind these `n`. -/
structure Breaks (size n more : Nat) (d : List Bytes × CopyStatus) : Prop where
  length_eq : d.1.length = min (n / size) more
  status_eq : d.2 = if n / size < more then .failed else .truncated
  slices : Slices size n d.1

section Delivered

variable {size n more : Nat} {d : Bytes} {ds : List Bytes} {status : CopyStatus}

theorem Delivers.nothing (more : Nat) : Delivers size 0 more ([], .success) := by
  have hz : 0 ⌈/⌉ size = 0 := zero_ceilDiv size
  exact ⟨by rw [hz, Nat.zero_min]; rfl, by rw [hz, if_pos (Nat.zero_le more)], trivial⟩

theorem Delivers.capped (hs : 0 < size) (hn : n ≠ 0) : Delivers size n 0 ([], .truncated) := by
  refine ⟨by rw [Nat.min_zero]; rfl, ?_, trivial⟩
  rw [ceilDiv_step hn hs, if_neg (Nat.not_succ_le_zero _)]

theorem Delivers.cons (hs : 0 < size) (hn : n ≠ 0) (hd : d.length = min n size)
    (h : Delivers size (n - min n size) more (ds, status)) :
    Delivers size n (more + 1) (d :: ds, status) := by
  obtain ⟨hlen, hstatus, hslices⟩ := h
  rw [← hd] at hslices
  refine ⟨?_, ?_, hd, hslices⟩
  · rw [List.length_cons, hlen, ceilDiv_step hn hs, Nat.add_min_add_right]
  · rw [ceilDiv_step hn hs]
    simpa only [Nat.add_le_add_iff_right] using hstatus

theorem Breaks.capped : Breaks size n 0 ([], .truncated) :=
  ⟨by rw [Nat.min_zero]; rfl, (if_neg (Nat.not_lt_zero _)).symm, trivial⟩

theorem Breaks.failed (hn : n < size) : Breaks size n (more + 1) ([], .failed) := by
  have hz : n / size = 0 := Nat.div_eq_of_lt hn
  exact ⟨by rw [hz, Nat.zero_min]; rfl, by rw [hz, if_pos (Nat.succ_pos more)], trivial⟩

theorem Breaks.cons (hs : 0 < size) (hn : size ≤ n) (hd : d.length = size)
    (h : Breaks size (n - size) more (ds, status)) :
    Breaks size n (more + 1) (d :: ds, status) := by
  obtain ⟨hlen, hstatus, hslices⟩ := h
  have hdiv : n / size = (n - size) / size + 1 := Nat.div_eq_sub_div hs hn
  refine ⟨?_, ?_, by rw [hd, Nat.min_eq_right hn], by rwa [hd]⟩
  · rw [List.length_cons, hlen, hdiv, Nat.add_min_add_right]
  · rw [hdiv]
    simpa only [Nat.add_lt_add_iff_right] using hstatus

end Delivered

end Copy

namespace AddressSpace

variable {s : AddressSpace} {domain : TrustDomain} {addr n : Nat}

def Readable (s : AddressSpace) (domain : TrustDomain) (addr n : Nat) : Prop :=
  ∀ i, i < n → ∃ b, s.Shows domain (addr + i) b

theorem Readable.drop (h : s.Readable domain addr n) (m : Nat) :
    s.Readable domain (addr + m) (n - m) := by
  intro i hi
  rw [Nat.add_assoc]
  exact h (m + i) (by omega)

theorem Runs.drop (h : s.Runs domain addr n) (m : Nat) : s.Runs domain (addr + m) (n - m) := by
  intro i hi
  rw [Nat.add_assoc]
  exact h (m + i) (by omega)

end AddressSpace

namespace Copy

open AddressSpace

/-- At a position exactly `n` bytes are still to be copied, and can be read. -/
def Extent.Left (r : Request) (pos n : Nat) : Extent → Prop
  | bytes len => len = n ∧ r.source.Readable r.domain (r.addr + pos) n
  | untilTerminator => r.source.Runs r.domain (r.addr + pos) n ∧
      r.source.Shows r.domain (r.addr + pos + n) 0

section Delivery

variable {r : Request} {e : Extent} {pos n more : Nat} {last : Bool} (hf : r.source.Flat)
include hf

/-- What is left is found, as much as fits into a chunk. -/
theorem Extent.Left.found (h : e.Left r pos n) {x : Except SourceFault Segment}
    (hx : e.Finds r pos x) : ∃ seg, x = .ok seg ∧ seg.data.length = min n r.room ∧
      seg.rest.Left r (pos + seg.data.length) (n - seg.data.length) ∧
      (seg.last = true → n - seg.data.length = 0) ∧
      (seg.last = false → seg.rest.isExact = true → n - seg.data.length ≠ 0) := by
  cases e with
  | bytes len =>
    obtain ⟨rfl, hread⟩ := h
    cases x with
    | error fault =>
      obtain ⟨i, hi, hu⟩ := hx hf
      obtain ⟨b, hb⟩ := hread i (by omega)
      exact absurd hb (hu b)
    | ok seg =>
      obtain ⟨-, hlen, hrest, hlast⟩ := hx
      refine ⟨seg, rfl, hlen, ?_, fun hl => ?_, fun hl _ => ?_⟩
      · rw [hrest, hlen]
        refine ⟨rfl, ?_⟩
        rw [← Nat.add_assoc]
        exact hread.drop _
      · have hle := hlast.mp hl
        omega
      · have hlt : ¬len ≤ r.room := fun hle => by simp [hlast.mpr hle] at hl
        omega
  | untilTerminator =>
    obtain ⟨hruns, hend⟩ := h
    cases x with
    | error fault =>
      obtain ⟨i, hi, hu⟩ := hx hf
      rcases Nat.lt_or_eq_of_le (hf.runs_le hi hend) with hlt | rfl
      · obtain ⟨b, -, hb⟩ := hruns i hlt
        exact absurd hb (hu b)
      · exact absurd hend (hu 0)
    | ok seg =>
      obtain ⟨hholds, htext, hrest, hstop⟩ := hx
      have hle : seg.data.length ≤ n := hf.runs_le (.of_holds hholds htext) hend
      have hlen : seg.data.length = min n r.room ∧ (seg.last = true → seg.data.length = n) := by
        split at hstop
        · have hge := hf.runs_le hruns hstop.2
          exact ⟨by omega, fun _ => by omega⟩
        · rename_i hl
          exact ⟨by omega, fun h => absurd h hl⟩
      refine ⟨seg, rfl, hlen.1, ?_, fun hl => by rw [hlen.2 hl]; omega, fun _ hexact => ?_⟩
      · rw [hrest]
        refine ⟨?_, ?_⟩
        · rw [← Nat.add_assoc]
          exact hruns.drop _
        · rwa [← Nat.add_assoc, Nat.add_assoc _ seg.data.length, Nat.add_sub_cancel' hle]
      · rw [hrest] at hexact
        cases hexact

variable (ha : r.addr ≠ 0) (hroom : 0 < r.room)
include ha hroom

/-- One turn, given the turns after it. -/
theorem Request.ahead_left_turn (h : e.Left r pos n) (hend : last = true → n = 0)
    (hmore : last = false → e.isExact = true → n ≠ 0)
    (ih : ∀ {fewer pos n : Nat} {e : Extent} {last : Bool}, more = fewer + 1 → e.Left r pos n →
      (last = true → n = 0) → (last = false → e.isExact = true → n ≠ 0) →
      Delivers r.room n fewer (r.ahead fewer pos e last)) :
    Delivers r.room n more (r.ahead more pos e last) := by
  rw [ahead]
  cases last with
  | true =>
    obtain rfl := hend rfl
    exact .nothing more
  | false =>
    rw [if_neg (by simp)]
    by_cases hexact : more = 0 ∧ e.isExact = true
    · obtain ⟨rfl, hexact⟩ := hexact
      rw [if_pos ⟨rfl, hexact⟩]
      exact .capped hroom (hmore rfl hexact)
    rw [if_neg hexact]
    have hne : e ≠ .bytes 0 := by
      rintro rfl
      exact hmore rfl rfl h.1.symm
    obtain ⟨seg, hseg, hlen, hleft, hend', hmore'⟩ :=
      h.found hf (r.readAfter_finds e pos ha hroom hne)
    rw [hseg]
    dsimp only
    by_cases hn : n = 0
    · subst hn
      rw [if_pos (by rw [List.isEmpty_iff, ← List.length_eq_zero_iff, hlen, Nat.zero_min])]
      exact .nothing more
    rw [if_neg (by rw [List.isEmpty_iff, ← List.length_eq_zero_iff]; omega)]
    cases more with
    | zero => exact .capped hroom hn
    | succ fewer =>
      rw [hlen] at hleft hend' hmore' ⊢
      exact .cons hroom hn hlen (ih rfl hleft hend' hmore')

/-- What can all be read is delivered, as far as the chunks go. -/
theorem Request.ahead_left (h : e.Left r pos n) (hend : last = true → n = 0)
    (hmore : last = false → e.isExact = true → n ≠ 0) :
    Delivers r.room n more (r.ahead more pos e last) := by
  induction more generalizing pos e last n with
  | zero => exact ahead_left_turn hf ha hroom h hend hmore nofun
  | succ more ih =>
    exact ahead_left_turn hf ha hroom h hend hmore fun he h hend hmore => by
      cases he
      exact ih h hend hmore

/-- Of a range with an unreadable byte the chunks before it are delivered. -/
theorem Request.ahead_broken {len : Nat} (hlt : n < len)
    (hread : r.source.Readable r.domain (r.addr + pos) n)
    (hu : r.source.Unreadable r.domain (r.addr + pos + n)) :
    Breaks r.room n more (r.ahead more pos (.bytes len) false) := by
  induction more generalizing pos len n with
  | zero =>
    rw [ahead, if_neg (by simp), if_pos ⟨rfl, rfl⟩]
    exact .capped
  | succ more ih =>
    rw [ahead, if_neg (by simp), if_neg (by simp)]
    have hne : Extent.bytes len ≠ .bytes 0 := fun he => by cases he; omega
    have hfinds := r.readAfter_finds (.bytes len) pos ha hroom hne
    cases hseg : r.readAfter pos (.bytes len) with
    | error fault =>
      rw [hseg] at hfinds
      obtain ⟨i, hi, hui⟩ := hfinds hf
      have hge : n ≤ i := by
        apply Nat.le_of_not_lt
        intro hin
        obtain ⟨b, hb⟩ := hread i hin
        exact hui b hb
      exact .failed (by omega)
    | ok seg =>
      rw [hseg] at hfinds
      obtain ⟨hholds, hlen, hrest, hlast⟩ := hfinds
      have hle : r.room ≤ n := by
        apply Nat.le_of_not_lt
        intro hin
        have hb := List.getElem?_eq_getElem (l := seg.data) (i := n) (by omega)
        exact hu _ (hholds n _ hb)
      have hlen : seg.data.length = r.room := by omega
      have hnext : seg.last = false := by
        cases hl : seg.last with
        | false => rfl
        | true =>
          have := hlast.mp hl
          omega
      dsimp only
      rw [if_neg (by rw [List.isEmpty_iff, ← List.length_eq_zero_iff]; omega), hlen, hrest, hnext,
        Nat.min_eq_right (by omega)]
      refine .cons hroom hle hlen (ih (by omega) ?_ ?_)
      · rw [← Nat.add_assoc]
        exact hread.drop _
      · rwa [← Nat.add_assoc, Nat.add_assoc _ r.room, Nat.add_sub_cancel' hle]

omit hf ha in
/-- There is something where a segment was read. -/
theorem Extent.Finds.shows (he : e ≠ .bytes 0) {seg : Segment} (h : e.Finds r pos (.ok seg)) :
    ∃ b, r.source.Shows r.domain (r.addr + pos) b := by
  cases hdata : seg.data with
  | cons b data => exact ⟨b, h.holds 0 b (by rw [hdata]; rfl)⟩
  | nil =>
    cases e with
    | bytes len =>
      have hlen := h.2.1
      rw [hdata, List.length_nil] at hlen
      have hz : len ≠ 0 := fun hz => he (by rw [hz])
      omega
    | untilTerminator =>
      obtain ⟨-, -, -, hend⟩ := h
      rw [hdata] at hend
      split at hend
      · exact ⟨0, hend.2⟩
      · exact absurd hend (Nat.ne_of_lt hroom)

/-- A delivery begins like any of its turns. -/
theorem Request.delivery_eq_ahead {maxChunks : Nat} (hvalid : ¬r.Invalid e maxChunks) :
    r.delivery e maxChunks = r.ahead (min maxChunks maxChunksLimit) 0 e false := by
  obtain ⟨fewer, hfewer⟩ : ∃ fewer, min maxChunks maxChunksLimit = fewer + 1 := by
    have hmax : maxChunks ≠ 0 := fun hz => hvalid (.inr (.inl hz))
    exact Nat.exists_eq_succ_of_ne_zero (by simp only [maxChunksLimit]; omega)
  have hread : r.readAfter 0 e = e.read r.source r.addr r.room r.domain ∨
      ∃ fault fault', r.readAfter 0 e = .error fault ∧
        e.read r.source r.addr r.room r.domain = .error fault' := by
    unfold readAfter
    by_cases hlimit : addressLimit ≤ r.addr + 0
    · rw [if_pos hlimit]
      have hu := hf.unreadable r.domain hlimit
      have hfinds := e.read_finds 0 ha
      rw [Nat.add_zero] at hfinds
      cases hseg : e.read r.source r.addr r.room r.domain with
      | error fault => exact .inr ⟨_, fault, rfl, rfl⟩
      | ok seg =>
        rw [hseg] at hfinds
        have he : e ≠ .bytes 0 := fun he => hvalid (.inr (.inr (.inr he)))
        obtain ⟨b, hb⟩ := Extent.Finds.shows hroom he hfinds
        exact absurd hb (hu b)
    · exact .inl (if_neg hlimit)
  have hdelivery : r.delivery e maxChunks = _ := if_neg hvalid
  rw [hdelivery, hfewer, ahead, if_neg (by simp), if_neg (by simp)]
  rcases hread with hread | ⟨fault, fault', hread, hread'⟩
  · rw [hread]
    simp only [Nat.zero_add, Nat.add_sub_cancel]
  · rw [hread, hread']

end Delivery

/-! ### The verdict -/

namespace Call

/-- The value that the call asks for has `n` bytes, which can all be read, and so can the terminator
of a string. -/
def Offers (call : Call) (n : Nat) : Prop :=
  match call.extent with
  | .bytes len => len = n ∧ call.source.Readable call.domain call.addr n
  | .untilTerminator => call.source.Runs call.domain call.addr n ∧
      call.source.Shows call.domain (call.addr + n) 0

theorem Offers.left {call : Call} {n : Nat} (h : call.Offers n) :
    call.extent.Left call.request 0 n := by
  obtain ⟨writer, source, addr, domain, settings, extent⟩ := call
  cases extent <;> exact h

def needs (call : Call) (n : Nat) : Nat := n ⌈/⌉ call.sizeClass.payloadCapacity

/-- The outcome for `n` bytes when the channel has room for `room` chunks: it ends with the bytes,
with the chunks that the call may write, or with the room, whichever is first. -/
structure Limited (call : Call) (n room : Nat) (o : CopyOutcome) : Prop where
  chunks_eq : o.chunks = min (call.needs n) (min call.limit room)
  copied_eq : o.copied = min n
    (call.sizeClass.payloadCapacity * min (call.needs n) (min call.limit room))
  success_iff : o.status = .success ↔ call.needs n ≤ min call.limit room
  whole : call.needs n ≤ min call.limit room → o.failure = none
  unfed : min call.limit room < call.needs n → room = 0 →
    o.status = .failed ∧ o.failure = some .capacity
  capped : min call.limit room < call.needs n → call.limit ≤ room →
    o.status = .truncated ∧ o.failure = none
  cut : min call.limit room < call.needs n → 1 ≤ room → room < call.limit →
    o.status = .truncated ∧ o.failure = some .capacity

/-- The outcome when the segment behind the first `i` cannot be read. -/
structure Faulted (call : Call) (i : Nat) (o : CopyOutcome) : Prop where
  status_eq : o.status = .failed
  failure_eq : ∃ fault, o.failure = some (.source fault)
  chunks_eq : o.chunks = i
  copied_eq : o.copied = i * call.sizeClass.payloadCapacity

section Verdict

variable {call : Call} {payloads : List Bytes} {status : CopyStatus} {n room : Nat}
  {o : CopyOutcome}

/-- A copy that would end with its bytes or with the chunks that it may write. -/
theorem Limited.of_fares (hlimit : call.limit ≠ 0) (h : Fares payloads status room o)
    (hchunks : min payloads.length room = min (call.needs n) (min call.limit room))
    (hcopied : o.copied = min n
      (call.sizeClass.payloadCapacity * min (call.needs n) (min call.limit room)))
    (hserved : payloads.length ≤ room → min (call.needs n) call.limit ≤ room ∧
      status = if call.needs n ≤ call.limit then .success else .truncated)
    (hrefused : room < payloads.length → room < min (call.needs n) call.limit) :
    call.Limited n room o := by
  rcases Nat.lt_or_ge room payloads.length with hlt | hle
  · obtain ⟨hstatus, hfailure⟩ := h.refused hlt
    have hroom := hrefused hlt
    refine ⟨h.chunks_eq.trans hchunks, hcopied, ⟨fun hs => ?_, fun hs => by omega⟩,
      fun hs => by omega, fun _ hz => ?_, fun _ hs => by omega, fun _ hs _ => ?_⟩
    · rw [hstatus] at hs
      split at hs <;> cases hs
    · rw [hstatus, if_pos hz]
      exact ⟨rfl, hfailure⟩
    · rw [hstatus, if_neg (by omega)]
      exact ⟨rfl, hfailure⟩
  · obtain ⟨hstatus, hunrefused⟩ := h.served hle
    obtain ⟨hroom, rfl⟩ := hserved hle
    by_cases hk : call.needs n ≤ call.limit
    · rw [if_pos hk] at hstatus
      rw [CopyOutcome.Unrefused, hstatus] at hunrefused
      exact ⟨h.chunks_eq.trans hchunks, hcopied, ⟨fun _ => by omega, fun _ => hstatus⟩,
        fun _ => hunrefused, fun hs _ => by omega, fun hs _ => by omega, fun hs _ _ => by omega⟩
    · rw [if_neg hk] at hstatus
      rw [CopyOutcome.Unrefused, hstatus] at hunrefused
      refine ⟨h.chunks_eq.trans hchunks, hcopied, ⟨fun hs => ?_, fun hs => by omega⟩,
        fun hs => by omega, fun _ hz => by omega, fun _ _ => ⟨hstatus, hunrefused⟩,
        fun _ _ hs => by omega⟩
      rw [hstatus] at hs
      cases hs

/-- A copy of bytes that can all be read. -/
theorem Limited.of_delivers (hlimit : call.limit ≠ 0)
    (hd : Delivers call.request.room n call.limit (payloads, status))
    (h : Fares payloads status room o) : call.Limited n room o := by
  have hlen : payloads.length = min (call.needs n) call.limit := hd.length_eq
  have hmin : min payloads.length room = min (call.needs n) (min call.limit room) := by
    rw [hlen, Nat.min_assoc]
  refine .of_fares hlimit h hmin ?_ (fun hle => ⟨by omega, hd.status_eq⟩) fun hlt => by omega
  rw [h.copied_eq, hd.slices.length_take room, hmin]
  rfl

/-- A copy of a range that is broken behind its first `n` bytes. -/
theorem Faulted.of_breaks (hd : Breaks call.request.room n call.limit (payloads, status))
    (h : Fares payloads status room o) (hcap : n / call.request.room < call.limit)
    (hroom : n / call.request.room ≤ room) : call.Faulted (n / call.request.room) o := by
  have hlen : payloads.length = n / call.request.room :=
    hd.length_eq.trans (Nat.min_eq_left (by omega))
  have hstatus : status = .failed := hd.status_eq.trans (if_pos hcap)
  obtain ⟨hs, hunrefused⟩ := h.served (by omega)
  rw [CopyOutcome.Unrefused, hs, hstatus] at hunrefused
  refine ⟨hs.trans hstatus, hunrefused, ?_, ?_⟩
  · rw [h.chunks_eq, hlen]
    omega
  · rw [h.copied_eq, hd.slices.length_take room, hlen, Nat.min_eq_left hroom,
      Nat.min_eq_right (Nat.mul_div_le n _), Nat.mul_comm]
    rfl

/-- A copy of such a range that does not come to the break. -/
theorem Limited.of_breaks {len : Nat} (hlimit : call.limit ≠ 0) (hlt : n < len)
    (hsize : 0 < call.request.room)
    (hd : Breaks call.request.room n call.limit (payloads, status))
    (h : Fares payloads status room o)
    (hshort : ¬(n / call.request.room < call.limit ∧ n / call.request.room ≤ room)) :
    call.Limited len room o := by
  -- the break is in the range, so it lies in one of the chunks that the range needs
  have hneeds : n / call.request.room < call.needs len := by
    apply Nat.lt_of_not_le
    intro hle
    have hmul := (ceilDiv_le_iff_le_mul hsize).mp hle
    have hdiv := Nat.mul_div_le n call.request.room
    omega
  have hlen : payloads.length = min (n / call.request.room) call.limit := hd.length_eq
  have hmin : min payloads.length room = min (call.needs len) (min call.limit room) := by omega
  refine .of_fares hlimit h hmin ?_ (fun hle => ⟨by omega, ?_⟩) fun hlt => by omega
  · have hle : call.request.room * min payloads.length room ≤ n :=
      Nat.le_trans (Nat.mul_le_mul_left _ (by omega)) (Nat.mul_div_le n call.request.room)
    rw [h.copied_eq, hd.slices.length_take room, ← hmin, Nat.min_eq_right hle]
    exact (Nat.min_eq_right (Nat.le_trans hle (Nat.le_of_lt hlt))).symm
  · have hstatus : status = .truncated := hd.status_eq.trans (if_neg (by omega))
    rw [hstatus, if_neg (by omega)]

end Verdict
end Call

/-- A copy ends at the first of its limits: the end of its value, the chunks that it may write, the
room of its channel, or a byte that cannot be read. That byte is met when the segment it lies in is
read, which is after all chunks before it were opened and before the one for it is; a segment for
which there is no chunk left is not read. A chunk whose record would take the cursor out of its
range is no limit: the copy that needs it has no outcome. -/
theorem copy_ends_at_its_first_limit {c : Channel} {t : Traffic} (ht : Traffic.Reached c t)
    (call : Call) (hv : call.writer.channel ∈ t.views) (hf : call.source.Flat) (ha : call.addr ≠ 0)
    (hvalid : call.sizeClass.isValid = true) (hmax : call.settings.maxChunks ≠ 0) {room : Nat}
    {cause : ReserveError}
    (hroom : call.writer.channel.Admits call.sizeClass.totalSize cause room t.shared) :
    (∀ n, n ≠ 0 → call.Offers n → call.Returns c cause t.shared (call.Limited n room)
      (room < min (call.needs n) call.limit)) ∧
    ∀ len n, call.extent = .bytes len → n < len → call.source.Readable call.domain call.addr n →
      call.source.Unreadable call.domain (call.addr + n) →
      call.Returns c cause t.shared
        (fun o =>
          if n / call.sizeClass.payloadCapacity < call.limit ∧
              n / call.sizeClass.payloadCapacity ≤ room then
            call.Faulted (n / call.sizeClass.payloadCapacity) o
          else call.Limited len room o)
        (room < min (n / call.sizeClass.payloadCapacity) call.limit) := by
  have hsize : 0 < call.request.room := SizeClass.payload_pos hvalid
  have hlimit : call.limit ≠ 0 := by
    simp only [Call.limit, maxChunksLimit]
    omega
  have hask (he : call.extent ≠ .bytes 0) :
      ¬call.request.Invalid call.extent call.settings.maxChunks := by
    rintro (hz | hz | hz | hz)
    · exact ha hz
    · exact hmax hz
    · rw [show call.request.sizeClass = call.sizeClass from rfl, hvalid] at hz
      cases hz
    · exact he hz
  constructor
  · intro n hn hoffers
    have hleft := hoffers.left
    have hask := hask (fun he => by rw [he] at hleft; exact hn hleft.1.symm)
    have hreturns := Call.returns ht hv hf hask hroom
    rw [Request.delivery_eq_ahead hf ha hsize hask] at hreturns
    have hd : Delivers call.request.room n call.limit
        (call.request.ahead call.limit 0 call.extent false) :=
      Request.ahead_left hf ha hsize hleft (absurd · Bool.false_ne_true) fun _ _ => hn
    exact hreturns.imp (fun o => .of_delivers hlimit hd) (hd.length_eq ▸ Iff.rfl)
  · intro len n hextent hlt hread hu
    have hask := hask (fun he => by rw [he] at hextent; cases hextent; omega)
    have hreturns := Call.returns ht hv hf hask hroom
    rw [Request.delivery_eq_ahead hf ha hsize hask, hextent] at hreturns
    have hd : Breaks call.request.room n call.limit
        (call.request.ahead call.limit 0 (.bytes len) false) :=
      Request.ahead_broken hf ha hsize hlt hread hu
    refine hreturns.imp (fun o ho => ?_) (hd.length_eq ▸ Iff.rfl)
    split
    · rename_i hcome
      exact .of_breaks hd ho hcome.1 hcome.2
    · rename_i hshort
      exact .of_breaks hlimit hlt hsize hd ho hshort

/-- The first channel when all but 80 bytes of it are reserved. -/
def crowded : Shared :=
  [262136, 262136, 262136, 262056].foldl (fun s size => (firstChannel.reserve size s).2) firstShared

theorem crowded_reached :
    ∃ t, Reached firstChannel t ∧ t.shared = crowded ∧ firstChannel ∈ t.views := by
  have hreserve (size : Nat) (slot : Ring.Slot) {s : Shared}
      (h : (firstChannel.reserve size s).1 = .ok ⟨firstChannel, slot⟩) :
      firstChannel.reserve size s =
        (.ok ⟨firstChannel, slot⟩, (firstChannel.reserve size s).2) := Prod.ext h rfl
  have hrun : Run firstChannel ⟨firstShared, [firstChannel], []⟩ _ ⟨crowded, [firstChannel], _⟩ :=
    .cons (.reserve List.mem_cons_self (hreserve 262136 ⟨0, 262136⟩ rfl))
    (.cons (.reserve List.mem_cons_self (hreserve 262136 ⟨262144, 262136⟩ rfl))
    (.cons (.reserve List.mem_cons_self (hreserve 262136 ⟨524288, 262136⟩ rfl))
    (.cons (.reserve List.mem_cons_self (hreserve 262056 ⟨786432, 262056⟩ rfl)) .nil)))
  exact ⟨_, ⟨{}, {}, firstShared, _, buildChannel_first, hrun⟩, by with_reducible rfl,
    List.mem_cons_self⟩

/-- The first `len` bytes of five, in chunks of two. -/
def Call.ofFive (len : Nat) : Call where
  writer := ⟨firstChannel, 0, 7, 0⟩
  source := ⟨[⟨100, [1, 2, 3, 4, 5], .monitored⟩]⟩
  addr := 100
  domain := .monitored
  settings := { byteClass := some (.custom 2) }
  extent := .bytes len

theorem Call.ofFive_flat (len : Nat) : (Call.ofFive len).source.Flat := by
  refine ⟨?_, ?_⟩ <;> simp [Call.ofFive, addressLimit]

theorem Call.ofFive_readable (len : Nat) :
    (Call.ofFive len).source.Readable (Call.ofFive len).domain (Call.ofFive len).addr 5 := by
  intro i hi
  have hb : ([1, 2, 3, 4, 5] : Bytes)[i]? = some _ := List.getElem?_eq_getElem hi
  exact ⟨_, AddressSpace.holds_region (r := ⟨100, [1, 2, 3, 4, 5], .monitored⟩)
    List.mem_cons_self i _ hb⟩

/-- With room for two chunks, a copy of five bytes is cut short; of six, the missing one is met
first. -/
theorem copy_ends_at_its_first_limit_of_five_bytes :
    (∃ o s, (Call.ofFive 5).activity.run crowded = (.ok o, s) ∧ o.status = .truncated ∧
      o.failure = some .capacity ∧ o.chunks = 2 ∧ o.copied = 4) ∧
    ∃ o s fault, (Call.ofFive 6).activity.run crowded = (.ok o, s) ∧ o.status = .failed ∧
      o.failure = some (.source fault) ∧ o.chunks = 2 ∧ o.copied = 4 := by
  obtain ⟨t, ht, hshared, hv⟩ := crowded_reached
  have hroom : firstChannel.Admits 26 (.full 26 0) 2 t.shared := by
    rw [hshared]
    exact ⟨⟨⟨firstChannel, ⟨1048496, 26⟩⟩, by decide +kernel⟩,
      ⟨⟨firstChannel, ⟨1048536, 26⟩⟩, by decide +kernel⟩,
      by unfold Channel.Admits; decide +kernel⟩
  rw [← hshared]
  constructor
  · have hverdict := copy_ends_at_its_first_limit ht (.ofFive 5) hv (Call.ofFive_flat 5)
      (by decide) rfl (by decide) hroom
    obtain ⟨o, s, hrun, hlimited, -⟩ :=
      (hverdict.1 5 (by decide) ⟨rfl, Call.ofFive_readable 5⟩).outcome fun h => nomatch h.1
    have hcut := hlimited.cut (by decide) (by decide) (by decide)
    exact ⟨o, s, hrun, hcut.1, hcut.2, hlimited.chunks_eq, hlimited.copied_eq⟩
  · have hu : (Call.ofFive 6).source.Unreadable (Call.ofFive 6).domain
        ((Call.ofFive 6).addr + 5) := by
      rintro b ⟨r, hr, -, -, hb⟩
      obtain rfl := List.mem_singleton.mp hr
      cases hb
    have hverdict := copy_ends_at_its_first_limit ht (.ofFive 6) hv (Call.ofFive_flat 6)
      (by decide) rfl (by decide) hroom
    obtain ⟨o, s, hrun, hfaulted, -⟩ :=
      (hverdict.2 6 5 rfl (by decide) (Call.ofFive_readable 6) hu).outcome fun h => nomatch h.1
    have hfaulted : (Call.ofFive 6).Faulted 2 o := hfaulted
    obtain ⟨hstatus, ⟨fault, hfailure⟩, hchunks, hcopied⟩ := hfaulted
    exact ⟨o, s, fault, hrun, hstatus, hfailure, hchunks, hcopied⟩

/-- The same five bytes on a channel whose cursor has come to the end of its range: no chunk is
granted, and the copy does not say so. -/
theorem copy_has_no_outcome : ∃ t, Reached firstChannel t ∧ firstChannel ∈ t.views ∧
    (Call.ofFive 5).source.Flat ∧ (Call.ofFive 5).addr ≠ 0 ∧
    (Call.ofFive 5).sizeClass.isValid = true ∧ (Call.ofFive 5).settings.maxChunks ≠ 0 ∧
    (Call.ofFive 5).Offers 5 ∧
    firstChannel.Admits (Call.ofFive 5).sizeClass.totalSize .overflow 0 t.shared ∧
    ((Call.ofFive 5).activity.run t.shared).1 = .error .overflow := by
  have hbuilt : Reached firstChannel ⟨firstShared, [firstChannel], []⟩ :=
    ⟨{}, {}, firstShared, [], buildChannel_first, .nil⟩
  have hlong : (Call.ofFive 5).sizeClass.totalSize ≤ firstChannel.band.longest := by
    rw [firstChannel_longest]
    decide
  obtain ⟨t, ht, hv, -, -, hover⟩ := hbuilt.runs_out List.mem_cons_self nofun (by decide) hlong
  have hroom : firstChannel.Admits (Call.ofFive 5).sizeClass.totalSize .overflow 0 t.shared := hover
  have hasks : ¬(Call.ofFive 5).request.Invalid (Call.ofFive 5).extent 16 := by
    rintro (h | h | h | h) <;> cases h
  have hreturns := Call.returns ht hv (Call.ofFive_flat 5) hasks hroom
  exact ⟨t, ht, hv, Call.ofFive_flat 5, by decide, rfl, by decide, ⟨rfl, Call.ofFive_readable 5⟩,
    hroom, hreturns.overflow ⟨rfl, by decide +kernel⟩⟩

end Copy
end ChainRelay
