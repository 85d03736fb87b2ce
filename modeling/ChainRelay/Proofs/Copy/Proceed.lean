import ChainRelay.Proofs.Copy.Trail

/-!
Every copy works in the order of its trail, and its outcome says what the trail says. If no chunk
was refused, what it delivers depends on the reads alone, and of a flat memory the outcome is what
the source makes of the request.
-/

namespace ChainRelay.Copy

open AddressSpace

/-- The activity takes only steps of its trail, whatever answers it gets, and ends with an outcome
and a trail as wanted. It gives up only when a cursor left its range. -/
def Follows (r : Request) (limit : Nat) (post : CopyOutcome → Trail → Prop) :
    Activity CopyOutcome → Trail → Prop
  | .done o, g => post o g
  | .abort, g => g.hand = [] ∧ g.refused = some .overflow
  | .step op next, g => ∀ reply, op.Answers reply →
      ∃ g', Trail.Step r limit g op reply g' ∧ Follows r limit post (next reply) g'

theorem Follows.mono {r : Request} {limit : Nat} {post post' : CopyOutcome → Trail → Prop}
    {a : Activity CopyOutcome} {g : Trail} (h : Follows r limit post a g)
    (hpost : ∀ o g, post o g → post' o g) : Follows r limit post' a g := by
  induction a generalizing g with
  | done o => exact hpost o g h
  | abort => exact h
  | step op next ih =>
    intro reply hreply
    obtain ⟨g', hstep, hnext⟩ := h reply hreply
    exact ⟨g', hstep, ih reply hnext⟩

namespace Extent

variable (r : Request)

/-- The outcome of a copy of at most `limit` bytes whose chunks were never refused. A range succeeds
when it is all there; a string ends at its terminator. -/
def Settles (limit : Nat) (o : CopyOutcome) : Extent → Prop
  | bytes len =>
    match o.status with
    | .success => o.copied = len
    | .truncated => o.copied = limit ∧ limit < len
    | .failed => ∃ i, i < min len limit ∧ r.source.Unreadable r.domain (r.addr + i)
  | untilTerminator =>
    match o.status with
    | .success => r.source.Runs r.domain r.addr o.copied ∧
        r.source.Shows r.domain (r.addr + o.copied) 0
    | .truncated => o.copied = limit ∧ r.source.Runs r.domain r.addr (limit + 1)
    | .failed => ∃ i, r.source.Runs r.domain r.addr i ∧
        r.source.Unreadable r.domain (r.addr + i)

end Extent

def Request.Invalid (r : Request) (e : Extent) (maxChunks : Nat) : Prop :=
  r.addr = 0 ∨ maxChunks = 0 ∨ r.sizeClass.isValid = false ∨ e = .bytes 0

/-- The payloads that are still to come in at most `more` further chunks, and the status in the
end, as long as no chunk is refused. -/
def Request.ahead (r : Request) :
    (more copied : Nat) → (rest : Extent) → (last : Bool) → List Bytes × CopyStatus
  | more, copied, rest, last =>
    if last then ([], .success)
    else if more = 0 ∧ rest.isExact then ([], .truncated)
    else match r.readAfter copied rest with
      | .error _ => ([], .failed)
      | .ok segment =>
        if segment.data.isEmpty then ([], .success)
        else match more with
          | 0 => ([], .truncated)
          | more + 1 =>
            let (payloads, status) :=
              r.ahead more (copied + segment.data.length) segment.rest segment.last
            (segment.data :: payloads, status)

/-- All payloads of a copy that is refused nothing, and its status. -/
def Request.delivery (r : Request) (e : Extent) (maxChunks : Nat) : List Bytes × CopyStatus :=
  if r.addr = 0 ∨ maxChunks = 0 ∨ r.sizeClass.isValid = false ∨ e = .bytes 0 then ([], .failed)
  else match e.read r.source r.addr r.room r.domain with
    | .error _ => ([], .failed)
    | .ok first =>
      if first.data.isEmpty then ([], .success)
      else
        let (payloads, status) := r.ahead (min maxChunks maxChunksLimit - 1) first.data.length
          first.rest first.last
        (first.data :: payloads, status)

structure Closed (o : CopyOutcome) (g : Trail) : Prop where
  hand_eq : g.hand = []
  lost_eq : g.lost = .none
  chunks_eq : o.chunks = g.sent.length
  copied_eq : o.copied = g.bytes.length
  head_eq : o.head = if o.status = .failed then .none else g.first

structure Ended (r : Request) (e : Extent) (maxChunks : Nat) (o : CopyOutcome) (g : Trail) :
    Prop extends Closed o g where
  settles : g.refused = none → r.Invalid e maxChunks ∧ o.status = .failed ∨
    e.Settles r (min maxChunks maxChunksLimit * r.room) o

/-- How every copy ends, whatever the regions of the source are. -/
structure Ends (r : Request) (e : Extent) (maxChunks : Nat) (o : CopyOutcome) (g : Trail) :
    Prop extends Closed o g where
  delivers : g.refused = none → r.delivery e maxChunks = (g.payloads, o.status)
  settles : r.source.Flat → g.refused = none → r.Invalid e maxChunks ∧ o.status = .failed ∨
    e.Settles r (min maxChunks maxChunksLimit * r.room) o

theorem Ends.ended {r : Request} {e : Extent} {maxChunks : Nat} {o : CopyOutcome} {g : Trail}
    (h : Ends r e maxChunks o g) (hf : r.source.Flat) : Ended r e maxChunks o g :=
  ⟨h.toClosed, h.settles hf⟩

/-- A copy that wrote nothing. -/
theorem ends_empty {r : Request} {e : Extent} {maxChunks : Nat} {status : CopyStatus}
    {failure : Option CopyFailure} {refused : Option ReserveError}
    (hd : refused = none → r.delivery e maxChunks = ([], status))
    (h : r.source.Flat → refused = none → r.Invalid e maxChunks ∧ status = .failed ∨
      e.Settles r (min maxChunks maxChunksLimit * r.room) { status, failure }) :
    Ends r e maxChunks { status, failure } { refused } where
  hand_eq := rfl
  lost_eq := rfl
  chunks_eq := rfl
  copied_eq := rfl
  head_eq := (ite_self _).symm
  delivers := hd
  settles := h

section Reads

variable {r : Request}

def Extent.Finds (r : Request) (pos : Nat) : Extent → Except SourceFault Segment → Prop
  | bytes n, .ok seg => r.source.Holds r.domain (r.addr + pos) seg.data ∧
      seg.data.length = min n r.room ∧ seg.rest = bytes (n - min n r.room) ∧
      (seg.last = true ↔ n ≤ r.room)
  | untilTerminator, .ok seg => r.source.Holds r.domain (r.addr + pos) seg.data ∧
      (∀ b ∈ seg.data, b ≠ 0) ∧ seg.rest = untilTerminator ∧
      if seg.last then
        seg.data.length < r.room ∧ r.source.Shows r.domain (r.addr + pos + seg.data.length) 0
      else seg.data.length = r.room
  | bytes n, .error _ => r.source.Flat →
      ∃ i, i < min n r.room ∧ r.source.Unreadable r.domain (r.addr + pos + i)
  | untilTerminator, .error _ => r.source.Flat →
      ∃ i, r.source.Runs r.domain (r.addr + pos) i ∧
        r.source.Unreadable r.domain (r.addr + pos + i)

theorem Extent.read_finds (e : Extent) (pos : Nat) (ha : r.addr ≠ 0) :
    e.Finds r pos (e.read r.source (r.addr + pos) r.room r.domain) := by
  have ha : r.addr + pos ≠ 0 := by omega
  cases e with
  | bytes n =>
    have h := r.source.readBytes_spec (r.addr + pos) (min n r.room) r.domain ha
    simp only [Extent.read]
    cases hr : r.source.readBytes (r.addr + pos) (min n r.room) r.domain with
    | error fault =>
      rw [hr] at h
      exact h
    | ok data =>
      rw [hr] at h
      refine ⟨h.2, h.1, rfl, ?_⟩
      show (n - min n r.room == 0) = true ↔ n ≤ r.room
      rw [beq_iff_eq]
      omega
  | untilTerminator =>
    have h := r.source.readString_spec (r.addr + pos) r.room r.domain ha
    simp only [Extent.read]
    cases hr : r.source.readString (r.addr + pos) r.room r.domain with
    | error fault =>
      rw [hr] at h
      intro hf
      obtain ⟨i, -, hi⟩ := h hf
      exact ⟨i, hi⟩
    | ok read =>
      rw [hr] at h
      exact ⟨h.holds, h.text, rfl, h.ends⟩

theorem Request.readAfter_finds (e : Extent) (pos : Nat) (ha : r.addr ≠ 0) (hroom : 0 < r.room)
    (he : e ≠ .bytes 0) : e.Finds r pos (r.readAfter pos e) := by
  unfold readAfter
  by_cases hlimit : addressLimit ≤ r.addr + pos
  · rw [if_pos hlimit]
    have hu (hf : r.source.Flat) := hf.unreadable r.domain hlimit
    cases e with
    | bytes n =>
      have hn : n ≠ 0 := fun h => he (by rw [h])
      exact fun hf => ⟨0, by omega, hu hf⟩
    | untilTerminator => exact fun hf => ⟨0, nofun, hu hf⟩
  · rw [if_neg hlimit]
    exact e.read_finds pos ha

section Finds

variable {e : Extent} {pos : Nat} {seg : Segment}

theorem Extent.Finds.holds (h : e.Finds r pos (.ok seg)) :
    r.source.Holds r.domain (r.addr + pos) seg.data := by
  cases e <;> exact h.1

theorem Extent.Finds.length_le (h : e.Finds r pos (.ok seg)) : seg.data.length ≤ r.room := by
  cases e with
  | bytes n =>
    rw [h.2.1]
    exact Nat.min_le_right _ _
  | untilTerminator =>
    obtain ⟨-, -, -, hend⟩ := h
    split at hend
    · exact Nat.le_of_lt hend.1
    · exact Nat.le_of_eq hend

/-- A segment with more to come fills its chunk. -/
theorem Extent.Finds.full (h : e.Finds r pos (.ok seg)) (hlast : seg.last = false) :
    seg.data.length = r.room := by
  cases e with
  | bytes n =>
    obtain ⟨-, hlen, -, hend⟩ := h
    have hlt : ¬n ≤ r.room := fun hle => by simp [hend.mpr hle] at hlast
    omega
  | untilTerminator =>
    obtain ⟨-, -, -, hend⟩ := h
    simpa [hlast] using hend

end Finds

end Reads

/-! ### The activities -/

section Endings

variable {r : Request} {limit : Nat} {post : CopyOutcome → Trail → Prop} {g : Trail}

theorem follows_reject (h : post { status := .failed, failure := some .invalidRequest } g) :
    Follows r limit post (Request.reject r.writer) g :=
  fun _ _ => ⟨g, .count, fun _ _ => ⟨g, .report, h⟩⟩

theorem follows_fail {failure : CopyFailure} {copied chunks : Nat}
    (h : post { copied, chunks, status := .failed, failure := some failure } g) :
    Follows r limit post (r.fail failure copied chunks) g :=
  fun _ _ => ⟨g, .count, fun _ _ => ⟨g, .report, h⟩⟩

theorem follows_truncate {head : ChunkId} {copied chunks : Nat} {failure : Option CopyFailure}
    (h : post { head, copied, chunks, status := .truncated, failure } g) :
    Follows r limit post (r.truncate head copied chunks failure) g :=
  fun _ _ => ⟨g, .count, fun _ _ => ⟨g, .report, h⟩⟩

end Endings

/-- How far a copy of this extent has come. -/
def Extent.Toward (r : Request) (p : Request.Progress) : Extent → Prop
  | bytes len => p.rest = .bytes (len - p.copied) ∧ p.copied ≤ len ∧
      (p.last = true ↔ p.copied = len)
  | untilTerminator => p.rest = .untilTerminator ∧ r.source.Runs r.domain r.addr p.copied ∧
      (p.last = true → r.source.Shows r.domain (r.addr + p.copied) 0)

section Toward

variable {r : Request} {e : Extent} {p p' : Request.Progress} {seg : Segment}

theorem Extent.Toward.first (h : e.Finds r 0 (.ok seg)) (hcopied : p.copied = seg.data.length)
    (hrest : p.rest = seg.rest) (hlast : p.last = seg.last) : e.Toward r p := by
  cases e with
  | bytes n =>
    obtain ⟨-, hlen, hseg, hend⟩ := h
    simp only [Toward, hcopied, hrest, hlast]
    refine ⟨by rw [hlen]; exact hseg, by omega, ?_⟩
    rw [hend]
    omega
  | untilTerminator =>
    obtain ⟨hholds, htext, hseg, hend⟩ := h
    simp only [Toward, hcopied, hrest, hlast]
    refine ⟨hseg, .of_holds hholds htext, ?_⟩
    intro hends
    rw [if_pos hends] at hend
    exact hend.2

theorem Extent.Toward.next (h : e.Toward r p) (hread : p.rest.Finds r p.copied (.ok seg))
    (hcopied : p'.copied = p.copied + seg.data.length) (hrest : p'.rest = seg.rest)
    (hlast : p'.last = seg.last) : e.Toward r p' := by
  cases e with
  | bytes len =>
    obtain ⟨hbytes, hle, -⟩ := h
    rw [hbytes] at hread
    obtain ⟨-, hlen, hseg, hend⟩ := hread
    simp only [Toward, hcopied, hrest, hlast]
    refine ⟨?_, by omega, ?_⟩
    · rw [hseg, hlen, Nat.sub_sub]
    · rw [hend]
      omega
  | untilTerminator =>
    obtain ⟨hstring, hruns, -⟩ := h
    rw [hstring] at hread
    obtain ⟨hholds, htext, hseg, hend⟩ := hread
    simp only [Toward, hcopied, hrest, hlast]
    refine ⟨hseg, hruns.add (.of_holds hholds htext), ?_⟩
    intro hends
    rw [if_pos hends] at hend
    rw [← Nat.add_assoc]
    exact hend.2

end Toward

/-- The loop's state with the trail behind it: `sent` is committed, the current chunk holds `data`,
and at most `maxChunks` chunks may be written in all. -/
structure Midway (r : Request) (e : Extent) (maxChunks more : Nat) (p : Request.Progress)
    (sent : List ChunkView) (data : Bytes) : Prop where
  nonempty : data ≠ []
  copied_eq : p.copied = (Trail.bytes ⟨sent, [⟨p.current, data⟩], none, .none⟩).length
  chunks_eq : p.chunks = sent.length + 1
  budget_eq : p.chunks + more = min maxChunks maxChunksLimit
  head_eq : p.head = sent.head?.elim p.current.id (·.header.id)
  full : p.last = false → data.length = r.room ∧ p.copied = p.chunks * r.room
  toward : e.Toward r p
  delivers : r.delivery e maxChunks =
    (sent.map (·.data) ++ data :: (r.ahead more p.copied p.rest p.last).1,
      (r.ahead more p.copied p.rest p.last).2)

section Proceed

variable {r : Request} {e : Extent} {maxChunks more : Nat} {p : Request.Progress}
  {sent : List ChunkView} {data : Bytes}

/-- Committing the current chunk without a successor ends the chain. -/
theorem Midway.ends (h : Midway r e maxChunks more p sent data)
    {o : CopyOutcome} {refused : Option ReserveError} (hcopied : o.copied = p.copied)
    (hchunks : o.chunks = p.chunks) (hhead : o.head = if o.status = .failed then .none else p.head)
    (hahead : refused = none → r.ahead more p.copied p.rest p.last = ([], o.status))
    (hsettles : r.source.Flat → refused = none →
      e.Settles r (min maxChunks maxChunksLimit * r.room) o) :
    Ends r e maxChunks o
      ⟨sent ++ [Part.view ⟨p.current, data⟩ r.sizeClass .none], [], refused, .none⟩ := by
  constructor
  case toClosed =>
    refine ⟨rfl, rfl, ?_, ?_, ?_⟩
    · rw [hchunks, h.chunks_eq, List.length_append, List.length_singleton]
    · rw [hcopied, h.copied_eq]
      simp [Trail.bytes, Trail.payloads, Part.view]
    · rw [hhead, h.head_eq]
      cases sent <;> rfl
  case delivers =>
    intro hn
    rw [h.delivers, hahead hn]
    simp [Trail.payloads, Part.view]
  case settles => exact fun hf hn => .inr (hsettles hf hn)

/-- Every way out of the loop commits the current chunk first. -/
theorem Midway.finishes (h : Midway r e maxChunks more p sent data)
    {refused : Option ReserveError} (hrefused : refused ≠ some .overflow)
    {out : Activity CopyOutcome} {limit : Nat} {post : CopyOutcome → Trail → Prop}
    (hout : Follows r limit post out
      ⟨sent ++ [Part.view ⟨p.current, data⟩ r.sizeClass .none], [], refused, .none⟩) :
    Follows r limit post (Activity.perform (.commitChunk p.current) >>= fun _ => out)
      ⟨sent, [⟨p.current, data⟩], refused, .none⟩ :=
  fun _ _ => ⟨_, .finish h.nonempty hrefused, hout⟩

/-! What each way out of the loop says about the source. -/

variable {o : CopyOutcome}

theorem Midway.settles_last (h : Midway r e maxChunks more p sent data) (hlast : p.last = true)
    (hstatus : o.status = .success) (hcopied : o.copied = p.copied) :
    e.Settles r (min maxChunks maxChunksLimit * r.room) o := by
  have ht := h.toward
  cases e with
  | bytes len =>
    obtain ⟨-, -, hend⟩ := ht
    simp only [Extent.Settles, hstatus, hcopied]
    exact hend.mp hlast
  | untilTerminator =>
    obtain ⟨-, hruns, hend⟩ := ht
    simp only [Extent.Settles, hstatus, hcopied]
    exact ⟨hruns, hend hlast⟩

theorem Midway.copied_full (h : Midway r e maxChunks 0 p sent data) (hlast : p.last = false) :
    p.copied = min maxChunks maxChunksLimit * r.room := by
  rw [(h.full hlast).2, ← h.budget_eq, Nat.add_zero]

theorem Midway.settles_exact (h : Midway r e maxChunks 0 p sent data) (hlast : p.last = false)
    (hexact : p.rest.isExact = true) (hstatus : o.status = .truncated)
    (hcopied : o.copied = p.copied) : e.Settles r (min maxChunks maxChunksLimit * r.room) o := by
  have hfull := h.copied_full hlast
  have ht := h.toward
  cases e with
  | bytes len =>
    obtain ⟨-, hle, hend⟩ := ht
    have hne : p.copied ≠ len := fun he => by simp [hend.mpr he] at hlast
    simp only [Extent.Settles, hstatus, hcopied]
    omega
  | untilTerminator =>
    rw [ht.1] at hexact
    cases hexact

theorem Midway.rest_ne (h : Midway r e maxChunks more p sent data) (hlast : p.last = false) :
    p.rest ≠ .bytes 0 := by
  have ht := h.toward
  cases e with
  | bytes len =>
    obtain ⟨hrest, hle, hend⟩ := ht
    have hne : p.copied ≠ len := fun he => by simp [hend.mpr he] at hlast
    rw [hrest]
    intro he
    have hz := Extent.bytes.inj he
    omega
  | untilTerminator =>
    rw [ht.1]
    nofun

theorem Midway.settles_fault (h : Midway r e maxChunks more p sent data) (hlast : p.last = false)
    (hgo : ¬(more = 0 ∧ p.rest.isExact = true)) {fault : SourceFault}
    (hread : p.rest.Finds r p.copied (.error fault)) (hf : r.source.Flat)
    (hstatus : o.status = .failed) :
    e.Settles r (min maxChunks maxChunksLimit * r.room) o := by
  have ht := h.toward
  cases e with
  | bytes len =>
    obtain ⟨hrest, hle, -⟩ := ht
    rw [hrest] at hread hgo
    obtain ⟨i, hi, hu⟩ := hread hf
    have hmore : p.chunks + 1 ≤ min maxChunks maxChunksLimit := by
      have hb := h.budget_eq
      have hne : more ≠ 0 := fun hz => hgo ⟨hz, rfl⟩
      omega
    have hbound := Nat.mul_le_mul_right r.room hmore
    have hcopied := (h.full hlast).2
    rw [Nat.succ_mul] at hbound
    simp only [Extent.Settles, hstatus]
    exact ⟨p.copied + i, by omega, by rwa [← Nat.add_assoc]⟩
  | untilTerminator =>
    obtain ⟨hrest, hruns, -⟩ := ht
    rw [hrest] at hread
    obtain ⟨i, hi, hu⟩ := hread hf
    simp only [Extent.Settles, hstatus]
    exact ⟨p.copied + i, hruns.add hi, by rwa [← Nat.add_assoc]⟩

theorem Midway.settles_empty (h : Midway r e maxChunks more p sent data) (hlast : p.last = false)
    (hroom : 0 < r.room) {seg : Segment} (hread : p.rest.Finds r p.copied (.ok seg))
    (hempty : seg.data = []) (hstatus : o.status = .success) (hcopied : o.copied = p.copied) :
    e.Settles r (min maxChunks maxChunksLimit * r.room) o := by
  have hne := h.rest_ne hlast
  have ht := h.toward
  cases e with
  | bytes len =>
    rw [ht.1] at hread hne
    have hlen := hread.2.1
    rw [hempty, List.length_nil] at hlen
    have hz : len - p.copied ≠ 0 := fun hz => hne (by rw [hz])
    omega
  | untilTerminator =>
    obtain ⟨hrest, hruns, -⟩ := ht
    rw [hrest] at hread
    obtain ⟨-, -, -, hend⟩ := hread
    rw [hempty] at hend
    simp only [Extent.Settles, hstatus, hcopied]
    refine ⟨hruns, ?_⟩
    split at hend
    · exact hend.2
    · exact absurd hend (Nat.ne_of_lt hroom)

theorem Midway.settles_more (h : Midway r e maxChunks 0 p sent data) (hlast : p.last = false)
    (hgo : p.rest.isExact = false) {seg : Segment}
    (hread : p.rest.Finds r p.copied (.ok seg)) (hne : seg.data ≠ [])
    (hstatus : o.status = .truncated) (hcopied : o.copied = p.copied) :
    e.Settles r (min maxChunks maxChunksLimit * r.room) o := by
  have hfull := h.copied_full hlast
  have ht := h.toward
  cases e with
  | bytes len =>
    rw [ht.1] at hgo
    cases hgo
  | untilTerminator =>
    obtain ⟨hrest, hruns, -⟩ := ht
    rw [hrest] at hread
    obtain ⟨hholds, htext, -⟩ := hread
    have hmore : r.source.Runs r.domain (r.addr + p.copied) 1 :=
      (Runs.of_holds hholds htext).mono (List.length_pos_iff.mpr hne)
    simp only [Extent.Settles, hstatus, hcopied, ← hfull]
    exact ⟨trivial, hruns.add hmore⟩

/-- The loop's state after another chunk. -/
theorem Midway.next (h : Midway r e maxChunks (more + 1) p sent data) (hlast : p.last = false)
    {seg : Segment} (hseg : r.readAfter p.copied p.rest = .ok seg)
    (hread : p.rest.Finds r p.copied (.ok seg)) (hne : seg.data ≠ []) (chunk : OpenChunk) :
    Midway r e maxChunks more
      { head := p.head
        copied := p.copied + seg.data.length
        chunks := p.chunks + 1
        current := chunk.filled seg.data
        rest := seg.rest
        last := seg.last }
      (sent ++ [Part.view ⟨p.current, data⟩ r.sizeClass chunk.id]) seg.data := by
  obtain ⟨-, hcopied⟩ := h.full hlast
  constructor
  case nonempty => exact hne
  case copied_eq =>
    show p.copied + seg.data.length = _
    rw [h.copied_eq]
    simp [Trail.bytes, Trail.payloads, Part.view, Nat.add_assoc]
  case chunks_eq => simp [h.chunks_eq]
  case budget_eq =>
    have hb := h.budget_eq
    show p.chunks + 1 + more = _
    omega
  case head_eq =>
    show p.head = _
    rw [h.head_eq]
    cases sent <;> rfl
  case full =>
    intro hnext
    have hlen := hread.full hnext
    refine ⟨hlen, ?_⟩
    show p.copied + seg.data.length = (p.chunks + 1) * r.room
    rw [hlen, hcopied, Nat.succ_mul]
  case toward => exact h.toward.next hread rfl rfl rfl
  case delivers =>
    have hahead : r.ahead (more + 1) p.copied p.rest p.last =
        (seg.data :: (r.ahead more (p.copied + seg.data.length) seg.rest seg.last).1,
          (r.ahead more (p.copied + seg.data.length) seg.rest seg.last).2) := by
      rw [Request.ahead]
      simp [hlast, hseg, hne]
    rw [h.delivers, hahead]
    simp [Part.view]

/-- One turn of the loop, given the turns after it. -/
theorem proceed_turn (ha : r.addr ≠ 0) (hv : r.sizeClass.isValid = true)
    (h : Midway r e maxChunks more p sent data)
    (ih : ∀ {fewer : Nat} {p : Request.Progress} {sent : List ChunkView} {data : Bytes},
      more = fewer + 1 → Midway r e maxChunks fewer p sent data →
      Follows r (min maxChunks maxChunksLimit) (Ends r e maxChunks) (r.proceed fewer p)
        ⟨sent, [⟨p.current, data⟩], none, .none⟩) :
    Follows r (min maxChunks maxChunksLimit) (Ends r e maxChunks) (r.proceed more p)
      ⟨sent, [⟨p.current, data⟩], none, .none⟩ := by
  have hroom : 0 < r.room := SizeClass.payload_pos hv
  unfold Request.proceed
  cases hlast : p.last with
  | true =>
    rw [if_pos rfl]
    refine h.finishes (by simp) (h.ends rfl rfl rfl (fun _ => ?_) fun _ _ =>
      h.settles_last hlast rfl rfl)
    rw [Request.ahead, if_pos hlast]
  | false =>
    rw [if_neg (by simp)]
    by_cases hexact : more = 0 ∧ p.rest.isExact = true
    · rw [if_pos hexact]
      obtain ⟨rfl, hexact⟩ := hexact
      refine h.finishes (by simp) (follows_truncate (h.ends rfl rfl rfl (fun _ => ?_)
        fun _ _ => h.settles_exact hlast hexact rfl rfl))
      rw [Request.ahead]
      simp [hlast, hexact]
    rw [if_neg hexact]
    have hread := Request.readAfter_finds p.rest p.copied ha hroom (h.rest_ne hlast)
    cases hseg : r.readAfter p.copied p.rest with
    | error fault =>
      rw [hseg] at hread
      refine h.finishes (by simp) (follows_fail (h.ends rfl rfl rfl (fun _ => ?_)
        fun hf _ => h.settles_fault hlast hexact hread hf rfl))
      rw [Request.ahead, if_neg (by simp [hlast]), if_neg hexact, hseg]
    | ok seg =>
      rw [hseg] at hread
      dsimp only
      by_cases hempty : seg.data.isEmpty = true
      · rw [if_pos hempty]
        refine h.finishes (by simp) (h.ends rfl rfl rfl (fun _ => ?_) fun _ _ =>
          h.settles_empty hlast hroom hread (List.isEmpty_iff.mp hempty) rfl rfl)
        rw [Request.ahead, if_neg (by simp [hlast]), if_neg hexact, hseg]
        exact if_pos hempty
      rw [if_neg hempty]
      have hne : seg.data ≠ [] := fun he => hempty (List.isEmpty_iff.mpr he)
      cases more with
      | zero =>
        have hopen : p.rest.isExact = false := by simpa using hexact
        refine h.finishes (by simp) (follows_truncate (h.ends rfl rfl rfl (fun _ => ?_)
          fun _ _ => h.settles_more hlast hopen hread hne rfl rfl))
        rw [Request.ahead, if_neg (by simp [hlast]), if_neg hexact, hseg]
        exact if_neg hempty
      | succ fewer =>
        intro reply hreply
        match reply with
        | .error .overflow =>
          exact ⟨_, .refuse (by simp) (by simp), fun _ _ => ⟨_, .abandon, rfl, rfl⟩⟩
        | .error (.full requested available) =>
          exact ⟨_, .refuse (by simp) (by simp), h.finishes (by simp) (follows_truncate
            (h.ends rfl rfl rfl nofun nofun))⟩
        | .error (.invalidSize size max) =>
          exact ⟨_, .refuse (by simp) (by simp), h.finishes (by simp) (follows_truncate
            (h.ends rfl rfl rfl nofun nofun))⟩
        | .ok chunk =>
          have hs := hread.holds
          have hroomy : sent.length + 2 ≤ min maxChunks maxChunksLimit := by
            have hb := h.budget_eq
            have hc := h.chunks_eq
            omega
          rw [h.copied_eq] at hs
          refine ⟨_, .openNext hreply (h.full hlast).1 hroomy, fun _ _ => ⟨_,
            .fill [⟨p.current, data⟩] hne hread.length_le hs, fun _ _ => ⟨_,
            .handOver ⟨chunk.filled seg.data, seg.data⟩ hne, ?_⟩⟩⟩
          exact ih rfl (h.next hlast hseg hread hne chunk)

theorem proceed_follows (ha : r.addr ≠ 0) (hv : r.sizeClass.isValid = true)
    (h : Midway r e maxChunks more p sent data) :
    Follows r (min maxChunks maxChunksLimit) (Ends r e maxChunks) (r.proceed more p)
      ⟨sent, [⟨p.current, data⟩], none, .none⟩ := by
  induction more generalizing p sent data with
  | zero => exact proceed_turn ha hv h nofun
  | succ more ih => exact proceed_turn ha hv h fun he h' => by cases he; exact ih h'

/-! ### The beginning -/

theorem start_read {seg : Segment} (hfinds : e.Finds r 0 (.ok seg)) (hmax : maxChunks ≠ 0)
    (hne : seg.data ≠ [])
    (hdelivery : r.delivery e maxChunks =
      (seg.data :: (r.ahead (min maxChunks maxChunksLimit - 1) seg.data.length seg.rest
        seg.last).1, (r.ahead (min maxChunks maxChunksLimit - 1) seg.data.length seg.rest
        seg.last).2)) (chunk : OpenChunk) :
    Midway r e maxChunks (min maxChunks maxChunksLimit - 1)
      { head := chunk.id
        copied := seg.data.length
        chunks := 1
        current := chunk.filled seg.data
        rest := seg.rest
        last := seg.last } [] seg.data := by
  have hlimit : maxChunksLimit = 32 := rfl
  constructor
  case nonempty => exact hne
  case copied_eq => simp [Trail.bytes, Trail.payloads]
  case chunks_eq => rfl
  case budget_eq =>
    show 1 + (min maxChunks maxChunksLimit - 1) = _
    omega
  case head_eq => rfl
  case full =>
    intro hlast
    have hlen := hfinds.full hlast
    refine ⟨hlen, ?_⟩
    show seg.data.length = 1 * r.room
    omega
  case toward => exact .first hfinds rfl rfl rfl
  case delivers => exact hdelivery

/-- The first read decides about the request. -/
theorem settles_first_fault {fault : SourceFault} (hfinds : e.Finds r 0 (.error fault))
    (hf : r.source.Flat) (hmax : maxChunks ≠ 0) {o : CopyOutcome} (hstatus : o.status = .failed) :
    e.Settles r (min maxChunks maxChunksLimit * r.room) o := by
  have hlimit : maxChunksLimit = 32 := rfl
  have hle : 1 * r.room ≤ min maxChunks maxChunksLimit * r.room :=
    Nat.mul_le_mul_right r.room (by omega)
  cases e with
  | bytes n =>
    obtain ⟨i, hi, hu⟩ := hfinds hf
    simp only [Extent.Settles, hstatus]
    exact ⟨i, by omega, hu⟩
  | untilTerminator =>
    simp only [Extent.Settles, hstatus]
    exact hfinds hf

theorem settles_first_empty {seg : Segment} (hroom : 0 < r.room)
    (hfinds : e.Finds r 0 (.ok seg)) (hempty : seg.data = []) {limit : Nat} {o : CopyOutcome}
    (hstatus : o.status = .success) (hcopied : o.copied = 0) : e.Settles r limit o := by
  cases e with
  | bytes n =>
    have hlen := hfinds.2.1
    rw [hempty, List.length_nil] at hlen
    simp only [Extent.Settles, hstatus, hcopied]
    omega
  | untilTerminator =>
    obtain ⟨-, -, -, hend⟩ := hfinds
    rw [hempty] at hend
    simp only [Extent.Settles, hstatus, hcopied]
    refine ⟨nofun, ?_⟩
    split at hend
    · exact hend.2
    · exact absurd hend (Nat.ne_of_lt hroom)

/-- A copy of an extent works in the order of its trail. -/
theorem start_follows {e : Extent} (he : e ≠ .bytes 0) (maxChunks : Nat) :
    Follows r (min maxChunks maxChunksLimit) (Ends r e maxChunks) (r.start e maxChunks) {} := by
  unfold Request.start
  by_cases hbad : r.addr = 0 ∨ maxChunks = 0 ∨ r.sizeClass.isValid = false
  · rw [if_pos hbad]
    have hinvalid : r.Invalid e maxChunks := by
      rcases hbad with hbad | hbad | hbad <;> simp [Request.Invalid, hbad]
    exact follows_reject (ends_empty (fun _ => if_pos hinvalid) fun _ _ => .inl ⟨hinvalid, rfl⟩)
  have hdelivery : r.delivery e maxChunks = _ := if_neg (by simpa [not_or, he] using hbad)
  rw [if_neg hbad]
  obtain ⟨ha, hmax, hv⟩ : r.addr ≠ 0 ∧ maxChunks ≠ 0 ∧ r.sizeClass.isValid = true := by
    simpa using hbad
  have hroom : 0 < r.room := SizeClass.payload_pos hv
  have hlimit : 0 < min maxChunks maxChunksLimit := by
    simp only [maxChunksLimit]
    omega
  have hread := e.read_finds 0 ha
  rw [Nat.add_zero] at hread
  cases hseg : e.read r.source r.addr r.room r.domain with
  | error fault =>
    rw [hseg] at hread hdelivery
    exact follows_fail (ends_empty (fun _ => hdelivery) fun hf _ =>
      .inr (settles_first_fault hread hf hmax rfl))
  | ok seg =>
    rw [hseg] at hread hdelivery
    dsimp only at hdelivery ⊢
    by_cases hempty : seg.data.isEmpty = true
    · rw [if_pos hempty] at hdelivery ⊢
      have hempty := List.isEmpty_iff.mp hempty
      exact ends_empty (fun _ => hdelivery) fun _ _ =>
        .inr (settles_first_empty hroom hread hempty rfl rfl)
    rw [if_neg hempty] at hdelivery ⊢
    have hne : seg.data ≠ [] := fun he => hempty (List.isEmpty_iff.mpr he)
    intro reply hreply
    match reply with
    | .error .overflow => exact ⟨_, .refuse (by simp) (by simp), rfl, rfl⟩
    | .error (.full requested available) =>
      exact ⟨_, .refuse (by simp) (by simp), follows_fail (ends_empty nofun nofun)⟩
    | .error (.invalidSize size max) =>
      exact ⟨_, .refuse (by simp) (by simp), follows_fail (ends_empty nofun nofun)⟩
    | .ok chunk =>
      refine ⟨_, .openFirst hv hlimit hreply, fun _ _ => ⟨_, .fill [] hne hread.length_le
        hread.holds, ?_⟩⟩
      exact proceed_follows ha hv (start_read hread hmax hne hdelivery chunk)

end Proceed

structure Call where
  writer : Writer
  source : AddressSpace
  addr : Nat
  domain : TrustDomain
  settings : CopySettings
  extent : Extent

namespace Call

def sizeClass (c : Call) : SizeClass :=
  match c.extent with
  | .bytes len => c.settings.classFor len
  | .untilTerminator => c.settings.stringClass

def request (c : Call) : Request := ⟨c.writer, c.source, c.addr, c.domain, c.sizeClass⟩

def limit (c : Call) : Nat := min c.settings.maxChunks maxChunksLimit

def activity (c : Call) : Activity CopyOutcome :=
  match c.extent with
  | .bytes len => c.writer.copyBytes c.source c.addr len c.domain c.settings
  | .untilTerminator => c.writer.copyString c.source c.addr c.domain c.settings

abbrev Ends (c : Call) : CopyOutcome → Trail → Prop :=
  Copy.Ends c.request c.extent c.settings.maxChunks

theorem follows_ends (c : Call) : Follows c.request c.limit c.Ends c.activity {} := by
  obtain ⟨writer, source, addr, domain, settings, extent⟩ := c
  cases extent with
  | bytes len =>
    simp only [activity, Writer.copyBytes]
    by_cases hlen : len = 0
    · subst hlen
      rw [if_pos rfl]
      exact follows_reject (ends_empty (fun _ => if_pos (by simp)) fun _ _ =>
        .inl ⟨by simp [Request.Invalid], rfl⟩)
    · rw [if_neg hlen]
      exact start_follows (fun he => hlen (Extent.bytes.inj he)) settings.maxChunks
  | untilTerminator =>
    exact start_follows (e := .untilTerminator) (fun he => nomatch he) settings.maxChunks

theorem follows (c : Call) (hf : c.source.Flat) :
    Follows c.request c.limit (Ended c.request c.extent c.settings.maxChunks) c.activity {} :=
  c.follows_ends.mono fun _ _ h => h.ended hf

end Call

/-- The chunks of a chain: linked in their order, of the writer's shard, full but for the last, and
together the bytes of the source from the beginning on. -/
structure Call.Chain (call : Call) (views : List ChunkView) : Prop where
  linked : Trail.Leads views .none
  shard_eq : ∀ v ∈ views, v.header.id.shard = call.writer.shard
  class_eq : ∀ v ∈ views, v.sizeClass = call.sizeClass
  full : ∀ v ∈ views.dropLast, v.data.length = v.sizeClass.payloadCapacity
  nonempty : ∀ v ∈ views, v.data ≠ []
  holds : call.source.Holds call.domain call.addr (views.flatMap (·.data))

/-- What an outcome says of a chain. -/
structure Reports (o : CopyOutcome) (views : List ChunkView) : Prop where
  chunks_eq : o.chunks = views.length
  copied_eq : o.copied = (views.flatMap (·.data)).length
  head_eq : o.head =
    if o.status = .failed then .none else views.head?.elim .none (·.header.id)

theorem Trail.Sound.chain {call : Call} {limit : Nat} {g : Trail}
    (h : g.Sound call.request limit) (hhand : g.hand = []) (hlost : g.lost = .none) :
    call.Chain g.sent := by
  have hpayloads : g.payloads = g.sent.map (·.data) := by simp [Trail.payloads, hhand]
  have hleads := h.leads
  simp only [Trail.goal, hhand, hlost, List.head?_nil, Option.elim_none] at hleads
  constructor
  case linked => exact hleads
  case shard_eq => exact fun v hv => (h.sent v hv).shard_eq
  case class_eq => exact fun v hv => (h.sent v hv).class_eq
  case full =>
    intro v hv
    rw [(h.sent v (List.dropLast_subset _ hv)).class_eq]
    apply h.full
    rw [hpayloads, ← List.map_dropLast]
    exact List.mem_map_of_mem hv
  case nonempty => exact fun v hv => (h.sent v hv).nonempty
  case holds =>
    have hholds := h.holds
    rwa [Trail.bytes, hpayloads, ← List.flatMap_def] at hholds

theorem Closed.reports {o : CopyOutcome} {g : Trail} (h : Closed o g) : Reports o g.sent := by
  refine ⟨h.chunks_eq, ?_, h.head_eq⟩
  rw [h.copied_eq, Trail.bytes, Trail.payloads, h.hand_eq, List.map_nil, List.append_nil,
    ← List.flatMap_def]

end ChainRelay.Copy
