import ChainRelay.Proofs.Copy.Limits
import ChainRelay.Proofs.Copy.Verdict

/-!
How far the copy of a string looks ahead. What it commits is decided by the bytes that it may copy
and the one behind them. Its verdict is too, unless it has filled its last chunk and the string goes
on: then it reads a whole segment behind that chunk, and fails if it meets a fault there
(`copy_looks_ahead_of_its_last_chunk`).
-/

namespace ChainRelay

namespace AddressSpace

/-- On these `n` bytes the two memories agree: the same ones can be read, with the same values. -/
def AgreeOn (s s' : AddressSpace) (domain : TrustDomain) (addr n : Nat) : Prop :=
  ∀ i, i < n → ∀ b, s.Shows domain (addr + i) b ↔ s'.Shows domain (addr + i) b

variable {s s' : AddressSpace} {domain : TrustDomain} {addr n : Nat}

theorem AgreeOn.symm (h : s.AgreeOn s' domain addr n) : s'.AgreeOn s domain addr n :=
  fun i hi b => (h i hi b).symm

theorem AgreeOn.drop (h : s.AgreeOn s' domain addr n) {m k : Nat} (hle : m + k ≤ n) :
    s.AgreeOn s' domain (addr + m) k := by
  intro i hi b
  rw [Nat.add_assoc]
  exact h (m + i) (by omega) b

theorem AgreeOn.runs (h : s.AgreeOn s' domain addr n) {m : Nat} (hle : m ≤ n)
    (hruns : s.Runs domain addr m) : s'.Runs domain addr m := by
  intro i hi
  obtain ⟨b, hb, hshows⟩ := hruns i hi
  exact ⟨b, hb, (h i (by omega) b).mp hshows⟩

theorem AgreeOn.unreadable (h : s.AgreeOn s' domain addr n) {i : Nat} (hi : i < n)
    (hu : s.Unreadable domain (addr + i)) : s'.Unreadable domain (addr + i) :=
  fun b hb => hu b ((h i hi b).mpr hb)

theorem AgreeOn.faults (h : s.AgreeOn s' domain addr n) (hfaults : s.Faults domain addr n) :
    s'.Faults domain addr n := by
  obtain ⟨i, hi, hruns, hu⟩ := hfaults
  exact ⟨i, hi, h.runs (Nat.le_of_lt hi) hruns, h.unreadable hi hu⟩

theorem AgreeOn.reads (h : s.AgreeOn s' domain addr n) {read : StringRead}
    (hread : s.Reads domain addr n read) : s'.Reads domain addr n read := by
  have hends := hread.ends
  have hle : read.bytes.length ≤ n := by
    split at hends <;> omega
  constructor
  case holds =>
    intro i b hi
    have hlt := (List.getElem?_eq_some_iff.mp hi).1
    exact (h i (by omega) b).mp (hread.holds i b hi)
  case text => exact hread.text
  case ends =>
    split at hends
    · rw [if_pos ‹_›]
      exact ⟨hends.1, (h _ hends.1 0).mp hends.2⟩
    · rwa [if_neg ‹_›]

section Flat

variable (hf : s.Flat) {read read' : StringRead}
include hf

/-- A string read goes no further than another one of the same bytes. -/
theorem Flat.reads_le (h : s.Reads domain addr n read) (h' : s.Reads domain addr n read') :
    read'.bytes.length ≤ read.bytes.length := by
  have hends := h.ends
  have hends' := h'.ends
  split at hends
  · exact hf.runs_le (.of_holds h'.holds h'.text) hends.2
  · split at hends' <;> omega

theorem Flat.reads_unique (h : s.Reads domain addr n read) (h' : s.Reads domain addr n read') :
    read = read' := by
  have hlen : read.bytes.length = read'.bytes.length :=
    Nat.le_antisymm (hf.reads_le h' h) (hf.reads_le h h')
  have hbytes := hf.holds_eq h.holds h'.holds hlen
  obtain ⟨bytes, terminated⟩ := read
  obtain ⟨bytes', terminated'⟩ := read'
  obtain rfl : bytes = bytes' := hbytes
  have hends := h.ends
  have hends' := h'.ends
  cases terminated <;> cases terminated' <;> simp at hends hends' ⊢ <;> omega

theorem Flat.reads_not_faults (h : s.Reads domain addr n read) : ¬s.Faults domain addr n := by
  rintro ⟨i, hi, hruns, hu⟩
  have hends := h.ends
  rcases Nat.lt_or_ge i read.bytes.length with hlt | hge
  · exact hu _ (h.holds i _ (List.getElem?_eq_getElem hlt))
  · split at hends
    · obtain rfl : i = read.bytes.length := Nat.le_antisymm (hf.runs_le hruns hends.2) hge
      exact hu 0 hends.2
    · omega

end Flat

end AddressSpace

namespace Copy

open AddressSpace Traffic

def Told (s : AddressSpace) (domain : TrustDomain) (addr n : Nat) :
    Except SourceFault Segment → Prop
  | .ok seg => seg.rest = .untilTerminator ∧ s.Reads domain addr n ⟨seg.data, seg.last⟩
  | .error _ => s.Faults domain addr n

section Told

variable {s s' : AddressSpace} {domain : TrustDomain} {addr n : Nat}
  {x x' : Except SourceFault Segment}

theorem told_read (hf : s.Flat) (ha : addr ≠ 0) :
    Told s domain addr n (Extent.untilTerminator.read s addr n domain) := by
  have hspec := s.readString_spec addr n domain ha
  rw [Extent.read]
  cases hread : s.readString addr n domain with
  | ok read =>
    rw [hread] at hspec
    exact ⟨rfl, hspec⟩
  | error fault =>
    rw [hread] at hspec
    exact hspec hf

/-- Sources that agree on all of a segment give the same segment. -/
theorem Told.same (h : Told s domain addr n x) (h' : Told s' domain addr n x') (hf' : s'.Flat)
    (hagree : s.AgreeOn s' domain addr n) :
    (∃ seg, x = .ok seg ∧ x' = .ok seg) ∨
      ∃ fault fault', x = .error fault ∧ x' = .error fault' := by
  cases x with
  | error fault =>
    cases x' with
    | error fault' => exact .inr ⟨fault, fault', rfl, rfl⟩
    | ok seg' => exact absurd (hagree.faults h) (hf'.reads_not_faults h'.2)
  | ok seg =>
    have hread := hagree.reads h.2
    cases x' with
    | error fault' => exact absurd h' (hf'.reads_not_faults hread)
    | ok seg' =>
      obtain ⟨data, rest, last⟩ := seg
      obtain ⟨data', rest', last'⟩ := seg'
      obtain ⟨rfl, -⟩ := h
      obtain ⟨rfl, hread'⟩ := h'
      obtain ⟨rfl, rfl⟩ := StringRead.mk.inj (hf'.reads_unique hread hread')
      exact .inl ⟨_, rfl, rfl⟩

theorem Told.goesOn {seg : Segment} (h : Told s domain addr n (.ok seg)) (hf : s.Flat) (hn : 0 < n)
    (hruns : s.Runs domain addr 1) : seg.data ≠ [] ∧ ¬s.Faults domain addr n := by
  obtain ⟨-, hread⟩ := h
  refine ⟨fun hempty => ?_, hf.reads_not_faults hread⟩
  have hends := hread.ends
  rw [hempty] at hends
  split at hends
  · exact absurd (hf.runs_le hruns hends.2) (Nat.not_succ_le_zero 0)
  · exact absurd hends (Nat.ne_of_lt hn)

/-- Within a string that goes on, a segment can be read and is not the last one. -/
theorem Told.full (h : Told s domain addr n x) (hf : s.Flat) (hn : 0 < n)
    (hruns : s.Runs domain addr n) : ∃ seg, x = .ok seg ∧ seg.data ≠ [] ∧ seg.last = false := by
  cases x with
  | error fault => exact absurd h hruns.not_faults
  | ok seg =>
    refine ⟨seg, rfl, (h.goesOn hf hn (hruns.mono hn)).1, ?_⟩
    cases hlast : seg.last with
    | false => rfl
    | true =>
      have hends := h.2.ends
      rw [if_pos hlast] at hends
      exact absurd (hf.runs_le hruns hends.2) (Nat.not_le_of_lt hends.1)

/-- Where a string does not go on, a segment that can be read is its end. -/
theorem Told.ends {seg : Segment} (h : Told s domain addr n (.ok seg)) (hn : 0 < n)
    (hruns : ¬s.Runs domain addr 1) : seg.data = [] ∧ s.Shows domain addr 0 := by
  obtain ⟨-, hread⟩ := h
  have hempty : seg.data = [] := by
    apply Classical.byContradiction
    intro hne
    have hall : s.Runs domain addr seg.data.length := .of_holds hread.holds hread.text
    exact hruns (hall.mono (List.length_pos_iff.mpr hne))
  refine ⟨hempty, ?_⟩
  have hends := hread.ends
  rw [hempty] at hends
  split at hends
  · exact hends.2
  · exact absurd hends (Nat.ne_of_lt hn)

/-- And if it cannot be read, its first byte cannot. -/
theorem Faults.first (h : s.Faults domain addr n) (hruns : ¬s.Runs domain addr 1) :
    s.Unreadable domain addr := by
  obtain ⟨i, -, hi, hu⟩ := h
  cases i with
  | zero => exact hu
  | succ i => exact absurd (hi.mono (Nat.succ_le_succ (Nat.zero_le i))) hruns

/-- Sources that agree on the first byte of a segment agree on whether the string ends before it. -/
theorem Told.same_end (h : Told s domain addr n x) (h' : Told s' domain addr n x') (hn : 0 < n)
    (hagree : s.AgreeOn s' domain addr 1) (hruns : ¬s.Runs domain addr 1) :
    (∃ seg seg', x = .ok seg ∧ x' = .ok seg' ∧ seg.data = [] ∧ seg'.data = []) ∨
      ∃ fault fault', x = .error fault ∧ x' = .error fault' := by
  have hruns' : ¬s'.Runs domain addr 1 := fun hr => hruns (hagree.symm.runs (Nat.le_refl _) hr)
  have hfirst := hagree 0 (by decide) 0
  cases x with
  | ok seg =>
    obtain ⟨hempty, hzero⟩ := h.ends hn hruns
    cases x' with
    | ok seg' => exact .inl ⟨seg, seg', rfl, rfl, hempty, (h'.ends hn hruns').1⟩
    | error fault' => exact absurd (hfirst.mp hzero) (Faults.first h' hruns' 0)
  | error fault =>
    cases x' with
    | ok seg' => exact absurd (hfirst.mpr (h'.ends hn hruns').2) (Faults.first h hruns 0)
    | error fault' => exact .inr ⟨fault, fault', rfl, rfl⟩

end Told

/-! ### The turns of a copy -/

namespace Request

open Activity

variable {r : Request} {p : Progress} {more : Nat}

theorem told_readAfter (hf : r.source.Flat) (ha : r.addr ≠ 0) (hroom : 0 < r.room) (copied : Nat) :
    Told r.source r.domain (r.addr + copied) r.room (r.readAfter copied .untilTerminator) := by
  unfold readAfter
  by_cases hlimit : addressLimit ≤ r.addr + copied
  · rw [if_pos hlimit]
    exact ⟨0, hroom, nofun, hf.unreadable r.domain hlimit⟩
  · rw [if_neg hlimit]
    exact told_read hf (by omega)

/-- All that an activity still does is to count and to report its outcome. -/
def Concludes (o : CopyOutcome) (a : Activity CopyOutcome) : Prop :=
  ∀ s, ∃ s', a.run s = (.ok o, s') ∧ s'.regions = s.regions ∧ s'.allocators = s.allocators

theorem concludes_done (o : CopyOutcome) : Concludes o (pure o) :=
  fun _ => ⟨_, rfl, rfl, rfl⟩

theorem concludes_fail (failure : CopyFailure) (copied chunks : Nat) :
    Concludes { copied, chunks, status := .failed, failure := some failure }
      (r.fail failure copied chunks) :=
  fun _ => ⟨_, rfl, rfl, rfl⟩

theorem concludes_truncate (head : ChunkId) (copied chunks : Nat) (failure : Option CopyFailure) :
    Concludes { head, copied, chunks, status := .truncated, failure }
      (r.truncate head copied chunks failure) :=
  fun _ => ⟨_, rfl, rfl, rfl⟩

theorem proceed_last (hlast : p.last = true) : r.proceed more p =
    perform (.commitChunk p.current) >>= fun _ =>
      pure { head := p.head, copied := p.copied, chunks := p.chunks, status := .success } := by
  unfold proceed
  rw [if_pos hlast]

def Progress.next (p : Progress) (segment : Segment) (chunk : OpenChunk) : Progress where
  head := p.head
  copied := p.copied + segment.data.length
  chunks := p.chunks + 1
  current := chunk.filled segment.data
  rest := segment.rest
  last := segment.last

def afterOpening (r : Request) (more : Nat) (p : Progress) (segment : Segment) :
    Except ReserveError OpenChunk → Activity CopyOutcome
  | .error .overflow => perform (.abandonChunk p.current) >>= fun _ => .abort
  | .error _ => perform (.commitChunk p.current) >>= fun _ =>
    r.truncate p.head p.copied p.chunks (some .capacity)
  | .ok next => perform (.fillChunk next segment.data) >>= fun _ =>
    perform (.commitChunk (p.current.linked next.id)) >>= fun _ =>
    r.proceed more (p.next segment next)

section Going

variable (hlast : p.last = false) (hrest : p.rest = .untilTerminator)
include hlast hrest

theorem proceed_fault {fault : SourceFault}
    (hread : r.readAfter p.copied .untilTerminator = .error fault) : r.proceed more p =
      perform (.commitChunk p.current) >>= fun _ => r.fail (.source fault) p.copied p.chunks := by
  unfold proceed
  rw [hlast, if_neg (by simp), hrest, if_neg (by simp [Extent.isExact]), hread]

theorem proceed_empty {segment : Segment}
    (hread : r.readAfter p.copied .untilTerminator = .ok segment) (hempty : segment.data = []) :
    r.proceed more p = perform (.commitChunk p.current) >>= fun _ =>
      pure { head := p.head, copied := p.copied, chunks := p.chunks, status := .success } := by
  unfold proceed
  rw [hlast, if_neg (by simp), hrest, if_neg (by simp [Extent.isExact]), hread]
  dsimp only
  rw [if_pos (List.isEmpty_iff.mpr hempty)]

theorem proceed_capped {segment : Segment}
    (hread : r.readAfter p.copied .untilTerminator = .ok segment) (hne : segment.data ≠ []) :
    r.proceed 0 p = perform (.commitChunk p.current) >>= fun _ =>
      r.truncate p.head p.copied p.chunks none := by
  unfold proceed
  rw [hlast, if_neg (by simp), hrest, if_neg (by simp [Extent.isExact]), hread]
  dsimp only
  rw [if_neg (by simpa using hne)]

theorem proceed_more {segment : Segment}
    (hread : r.readAfter p.copied .untilTerminator = .ok segment) (hne : segment.data ≠ []) :
    r.proceed (more + 1) p =
      perform (.openChunk r.writer r.sizeClass) >>= r.afterOpening more p segment := by
  rw [proceed]
  rw [hlast, if_neg (by simp), hrest, if_neg (by simp), hread]
  dsimp only
  rw [if_neg (by simpa using hne)]
  refine congrArg _ (funext fun reply => ?_)
  cases reply with
  | ok next => rfl
  | error e => cases e <;> rfl

end Going

/-- How a copy ends that has filled all its chunks, the first of which is `head`, and knows that the
string goes on. -/
structure Cut (r : Request) (reach chunks : Nat) (head : ChunkId) (o : CopyOutcome) : Prop where
  copied_eq : o.copied = reach
  chunks_eq : o.chunks = chunks
  legible : ¬r.source.Faults r.domain (r.addr + reach) r.room →
    o.status = .truncated ∧ o.head = head
  faulty : r.source.Faults r.domain (r.addr + reach) r.room → o.status = .failed ∧ o.head = .none

/-- A copy on its way: with all of the chunks that it may still write it copies `reach` bytes in
`chunks` chunks, unless the string ends before. -/
structure OnWay (r : Request) (reach chunks more : Nat) (p : Progress) : Prop where
  rest_eq : p.rest = .untilTerminator
  named : p.head ≠ .none
  runs : r.source.Runs r.domain r.addr p.copied
  goesOn : p.last = false → p.copied + more * r.room = reach ∧ p.chunks + more = chunks

variable {reach chunks : Nat}

/-- A full segment behind it brings a copy nearer to its cap. -/
theorem OnWay.next (h : r.OnWay reach chunks (more + 1) p) (hlast : p.last = false)
    {segment : Segment}
    (htold : Told r.source r.domain (r.addr + p.copied) r.room (.ok segment)) (chunk : OpenChunk) :
    r.OnWay reach chunks more (p.next segment chunk) := by
  obtain ⟨hrest, hread⟩ := htold
  obtain ⟨hreach, hchunks⟩ := h.goesOn hlast
  constructor
  case rest_eq => exact hrest
  case named => exact h.named
  case runs => exact h.runs.add (.of_holds hread.holds hread.text)
  case goesOn =>
    intro (hmore : segment.last = false)
    have hends := hread.ends
    rw [if_neg (by simpa using hmore)] at hends
    have hfull : segment.data.length = r.room := hends
    rw [Nat.succ_mul] at hreach
    simp only [Progress.next]
    omega

/-- A copy at its cap. -/
theorem OnWay.cut (h : r.OnWay reach chunks 0 p) (hlast : p.last = false) (hf : r.source.Flat)
    (ha : r.addr ≠ 0) (hroom : 0 < r.room)
    (hruns : r.source.Runs r.domain (r.addr + p.copied) 1) : ∃ out o,
      r.proceed 0 p = (perform (.commitChunk p.current) >>= fun _ => out) ∧ Concludes o out ∧
        r.Cut reach chunks p.head o := by
  obtain ⟨hreach, hchunks⟩ := h.goesOn hlast
  rw [Nat.zero_mul, Nat.add_zero] at hreach
  rw [Nat.add_zero] at hchunks
  have htold := told_readAfter hf ha hroom p.copied
  subst hreach
  cases hread : r.readAfter p.copied .untilTerminator with
  | error fault =>
    rw [hread] at htold
    exact ⟨_, _, proceed_fault hlast h.rest_eq hread, concludes_fail _ _ _, rfl, hchunks,
      fun hnone => absurd htold hnone, fun _ => ⟨rfl, rfl⟩⟩
  | ok segment =>
    rw [hread] at htold
    obtain ⟨hne, hnone⟩ := htold.goesOn hf hroom hruns
    exact ⟨_, _, proceed_capped hlast h.rest_eq hread hne, concludes_truncate _ _ _ _, rfl, hchunks,
      fun _ => ⟨rfl, rfl⟩, fun hfaults => absurd hfaults hnone⟩

/-- A copy that is refused nothing comes to its cap if the string goes on as far. -/
theorem OnWay.comes (h : r.OnWay reach chunks more p) (hlast : p.last = false) (hf : r.source.Flat)
    (ha : r.addr ≠ 0) (hroom : 0 < r.room) (hruns : r.source.Runs r.domain r.addr (reach + 1))
    {s : Shared} (hgranted : (r.proceed more p).Granted s) :
    ∃ o s', (r.proceed more p).run s = (.ok o, s') ∧ r.Cut reach chunks p.head o := by
  induction more generalizing p s with
  | zero =>
    obtain ⟨hreach, -⟩ := h.goesOn hlast
    have hlast' : r.source.Runs r.domain (r.addr + p.copied) 1 := by
      have hrest := hruns.drop p.copied
      exact hrest.mono (by omega)
    obtain ⟨out, o, heq, hout, hcut⟩ := h.cut hlast hf ha hroom hlast'
    obtain ⟨s', hrun, -⟩ := hout (s.commitChunk p.current)
    exact ⟨o, s', by rw [heq, run_bind, run_perform]; exact hrun, hcut⟩
  | succ more ih =>
    obtain ⟨hreach, -⟩ := h.goesOn hlast
    rw [Nat.succ_mul] at hreach
    have hhere : r.source.Runs r.domain (r.addr + p.copied) r.room :=
      (hruns.drop p.copied).mono (by omega)
    have htold := told_readAfter hf ha hroom p.copied
    obtain ⟨segment, hread, hne, hmore⟩ := htold.full hf hroom hhere
    rw [hread] at htold
    rw [proceed_more hlast h.rest_eq hread hne] at hgranted ⊢
    obtain ⟨hgrants, hnext⟩ := hgranted
    rw [run_bind, run_perform]
    dsimp only
    cases hreply : (Op.perform (.openChunk r.writer r.sizeClass) s).1 with
    | error e =>
      rw [hreply] at hgrants
      exact hgrants.elim
    | ok next =>
      rw [hreply] at hnext
      exact ih (h.next hlast htold next) hmore hnext.2.2

end Request

/-! ### Two copies -/

/-- Two runs that leave the same in the channels and in the allocators, and come to outcomes as
wanted; or neither comes to one. -/
def Abreast (post : CopyOutcome → CopyOutcome → Prop) :
    Except Overflow CopyOutcome × Shared → Except Overflow CopyOutcome × Shared → Prop
  | (.ok o, s), (.ok o', s') => post o o' ∧ s'.regions = s.regions ∧ s'.allocators = s.allocators
  | (.error _, s), (.error _, s') => s' = s
  | (.ok _, _), (.error _, _) | (.error _, _), (.ok _, _) => False

/-- Outcomes that differ at most in the fault that they report. -/
structure SameEnd (o o' : CopyOutcome) : Prop where
  head_eq : o'.head = o.head
  copied_eq : o'.copied = o.copied
  chunks_eq : o'.chunks = o.chunks
  status_eq : o'.status = o.status

theorem SameEnd.refl (o : CopyOutcome) : SameEnd o o := ⟨rfl, rfl, rfl, rfl⟩

theorem Request.Concludes.abreast {post : CopyOutcome → CopyOutcome → Prop} {o o' : CopyOutcome}
    {a a' : Activity CopyOutcome} (h : Request.Concludes o a) (h' : Request.Concludes o' a')
    (hpost : post o o') (s : Shared) : Abreast post (a.run s) (a'.run s) := by
  obtain ⟨t, hrun, hregions, hallocators⟩ := h s
  obtain ⟨t', hrun', hregions', hallocators'⟩ := h' s
  rw [hrun, hrun']
  exact ⟨hpost, hregions'.trans hregions.symm, hallocators'.trans hallocators.symm⟩

namespace Request

open Activity

def withSource (r : Request) (source : AddressSpace) : Request := { r with source }

/-- Outcomes of one request to two sources: the same end, or each is cut as its own source has
it. -/
def Parallel (r : Request) (source : AddressSpace) (reach chunks : Nat) (o o' : CopyOutcome) :
    Prop :=
  SameEnd o o' ∨ r.source.Runs r.domain r.addr (reach + 1) ∧
    ∃ head, head ≠ .none ∧ r.Cut reach chunks head o ∧
      (r.withSource source).Cut reach chunks head o'

section Pairs

variable {r : Request} {source : AddressSpace} {reach chunks more : Nat} {p : Progress}

section Last

variable {a a' : Activity CopyOutcome} {chunk : OpenChunk}

/-- Both copies end behind the chunk that is open. -/
theorem abreast_last {out out' : Activity CopyOutcome} {o o' : CopyOutcome}
    (ha : a = perform (.commitChunk chunk) >>= fun _ => out)
    (ha' : a' = perform (.commitChunk chunk) >>= fun _ => out') (hout : Concludes o out)
    (hout' : Concludes o' out') (hpost : r.Parallel source reach chunks o o') (s : Shared) :
    Abreast (r.Parallel source reach chunks) (a.run s) (a'.run s) := by
  rw [ha, ha', run_bind, run_bind, run_perform]
  exact hout.abreast hout' hpost _

theorem abreast_done {o : CopyOutcome} (ha : a = perform (.commitChunk chunk) >>= fun _ => pure o)
    (ha' : a' = perform (.commitChunk chunk) >>= fun _ => pure o) (s : Shared) :
    Abreast (r.Parallel source reach chunks) (a.run s) (a'.run s) :=
  abreast_last ha ha' (concludes_done o) (concludes_done o) (.inl (.refl o)) s

theorem abreast_failed {failure failure' : CopyFailure} {copied written : Nat}
    (ha : a = perform (.commitChunk chunk) >>= fun _ => r.fail failure copied written)
    (ha' : a' = perform (.commitChunk chunk) >>= fun _ =>
      (r.withSource source).fail failure' copied written)
    (s : Shared) : Abreast (r.Parallel source reach chunks) (a.run s) (a'.run s) :=
  abreast_last ha ha' (concludes_fail failure copied written)
    (concludes_fail failure' copied written) (.inl ⟨rfl, rfl, rfl, rfl⟩) s

end Last

variable (hf : r.source.Flat) (hf' : source.Flat) (ha : r.addr ≠ 0) (hroom : 0 < r.room)
  (hagree : r.source.AgreeOn source r.domain r.addr (reach + 1))
include hf hf' ha hroom hagree

/-- At the cap. -/
theorem OnWay.abreast_capped (h : r.OnWay reach chunks 0 p) (hlast : p.last = false) (s : Shared) :
    Abreast (r.Parallel source reach chunks) ((r.proceed 0 p).run s)
      (((r.withSource source).proceed 0 p).run s) := by
  obtain ⟨hreach, hchunks⟩ := h.goesOn hlast
  rw [Nat.zero_mul, Nat.add_zero] at hreach
  have hnext : r.source.AgreeOn source r.domain (r.addr + p.copied) 1 := hagree.drop (by omega)
  have htold := told_readAfter hf ha hroom p.copied
  have htold' : Told source r.domain (r.addr + p.copied) r.room
      ((r.withSource source).readAfter p.copied .untilTerminator) :=
    told_readAfter (r := r.withSource source) hf' ha hroom p.copied
  by_cases hruns : r.source.Runs r.domain (r.addr + p.copied) 1
  · have h' : (r.withSource source).OnWay reach chunks 0 p :=
      ⟨h.rest_eq, h.named, hagree.runs (by omega) h.runs, h.goesOn⟩
    obtain ⟨out, o, heq, hout, hcut⟩ := h.cut hlast hf ha hroom hruns
    obtain ⟨out', o', heq', hout', hcut'⟩ :=
      h'.cut hlast hf' ha hroom (hnext.runs (Nat.le_refl _) hruns)
    have hall : r.source.Runs r.domain r.addr (reach + 1) := hreach ▸ h.runs.add hruns
    exact abreast_last heq heq' hout hout' (.inr ⟨hall, p.head, h.named, hcut, hcut'⟩) s
  · rcases htold.same_end htold' hroom hnext hruns with
      ⟨seg, seg', hread, hread', hempty, hempty'⟩ | ⟨fault, fault', hread, hread'⟩
    · exact abreast_done (proceed_empty hlast h.rest_eq hread hempty)
        (proceed_empty hlast h.rest_eq hread' hempty') s
    · exact abreast_failed (proceed_fault hlast h.rest_eq hread)
        (proceed_fault hlast h.rest_eq hread') s

/-- Whatever is left to two copies, they do the same up to their cap. -/
theorem OnWay.abreast (h : r.OnWay reach chunks more p) (s : Shared) :
    Abreast (r.Parallel source reach chunks) ((r.proceed more p).run s)
      (((r.withSource source).proceed more p).run s) := by
  induction more generalizing p s with
  | zero =>
    cases hlast : p.last with
    | true => exact abreast_done (proceed_last hlast) (proceed_last hlast) s
    | false => exact h.abreast_capped hf hf' ha hroom hagree hlast s
  | succ more ih =>
    cases hlast : p.last with
    | true => exact abreast_done (proceed_last hlast) (proceed_last hlast) s
    | false =>
      obtain ⟨hreach, hchunks⟩ := h.goesOn hlast
      rw [Nat.succ_mul] at hreach
      have hnext : r.source.AgreeOn source r.domain (r.addr + p.copied) r.room :=
        hagree.drop (by omega)
      have htold := told_readAfter hf ha hroom p.copied
      have htold' : Told source r.domain (r.addr + p.copied) r.room
          ((r.withSource source).readAfter p.copied .untilTerminator) :=
        told_readAfter (r := r.withSource source) hf' ha hroom p.copied
      rcases htold.same htold' hf' hnext with ⟨seg, hread, hread'⟩ | ⟨fault, fault', hread, hread'⟩
      · by_cases hempty : seg.data = []
        · exact abreast_done (proceed_empty hlast h.rest_eq hread hempty)
            (proceed_empty hlast h.rest_eq hread' hempty) s
        rw [hread] at htold
        have heq' : (r.withSource source).proceed (more + 1) p =
            perform (.openChunk r.writer r.sizeClass) >>=
              (r.withSource source).afterOpening more p seg :=
          proceed_more (r := r.withSource source) hlast h.rest_eq hread' hempty
        rw [proceed_more hlast h.rest_eq hread hempty, heq', run_bind, run_bind, run_perform]
        dsimp only
        cases (Op.perform (.openChunk r.writer r.sizeClass) s).1 with
        | error e =>
          cases e with
          | overflow => exact rfl
          | full | invalidSize =>
            exact abreast_last rfl rfl (concludes_truncate _ _ _ _) (concludes_truncate _ _ _ _)
              (.inl (.refl _)) _
        | ok next => exact ih (h.next hlast htold next) _
      · exact abreast_failed (proceed_fault hlast h.rest_eq hread)
          (proceed_fault hlast h.rest_eq hread') s

end Pairs

def Progress.begun (segment : Segment) (chunk : OpenChunk) : Progress where
  head := chunk.id
  copied := segment.data.length
  chunks := 1
  current := chunk.filled segment.data
  rest := segment.rest
  last := segment.last

def afterFirst (r : Request) (maxChunks : Nat) (segment : Segment) :
    Except ReserveError OpenChunk → Activity CopyOutcome
  | .error .overflow => .abort
  | .error _ => r.fail .capacity 0 0
  | .ok chunk => perform (.fillChunk chunk segment.data) >>= fun _ =>
    r.proceed (min maxChunks maxChunksLimit - 1) (.begun segment chunk)

section Start

variable {r : Request} {maxChunks : Nat} {segment : Segment} (ha : r.addr ≠ 0)
  (hmax : maxChunks ≠ 0) (hv : r.sizeClass.isValid = true)
include ha hmax hv

theorem start_fault {fault : SourceFault}
    (hread : Extent.untilTerminator.read r.source r.addr r.room r.domain = .error fault) :
    r.start .untilTerminator maxChunks = r.fail (.source fault) 0 0 := by
  unfold start
  rw [if_neg (by simp [ha, hmax, hv]), hread]

theorem start_empty
    (hread : Extent.untilTerminator.read r.source r.addr r.room r.domain = .ok segment)
    (hempty : segment.data = []) :
    r.start .untilTerminator maxChunks = pure { status := .success } := by
  unfold start
  rw [if_neg (by simp [ha, hmax, hv]), hread]
  dsimp only
  rw [if_pos (List.isEmpty_iff.mpr hempty)]

theorem start_first
    (hread : Extent.untilTerminator.read r.source r.addr r.room r.domain = .ok segment)
    (hne : segment.data ≠ []) : r.start .untilTerminator maxChunks =
      perform (.openChunk r.writer r.sizeClass) >>= r.afterFirst maxChunks segment := by
  unfold start
  rw [if_neg (by simp [ha, hmax, hv]), hread]
  dsimp only
  rw [if_neg (by simpa using hne)]
  refine congrArg _ (funext fun reply => ?_)
  cases reply with
  | ok chunk => rfl
  | error e => cases e <;> rfl

omit ha hv in
theorem OnWay.begun (htold : Told r.source r.domain r.addr r.room (.ok segment)) {chunk : OpenChunk}
    (hchunk : r.writer.Opens r.sizeClass chunk) :
    r.OnWay (min maxChunks maxChunksLimit * r.room) (min maxChunks maxChunksLimit)
      (min maxChunks maxChunksLimit - 1) (.begun segment chunk) := by
  obtain ⟨fewer, hfewer⟩ : ∃ fewer, min maxChunks maxChunksLimit = fewer + 1 :=
    Nat.exists_eq_succ_of_ne_zero (by simp only [maxChunksLimit]; omega)
  obtain ⟨hrest, hread⟩ := htold
  rw [hfewer, Nat.add_sub_cancel]
  constructor
  case rest_eq => exact hrest
  case named => exact hchunk.named
  case runs => exact .of_holds hread.holds hread.text
  case goesOn =>
    intro (hmore : segment.last = false)
    have hends := hread.ends
    rw [if_neg (by simpa using hmore)] at hends
    have hfull : segment.data.length = r.room := hends
    rw [Nat.succ_mul]
    simp only [Progress.begun]
    omega

theorem start_abreast {source : AddressSpace} (hf : r.source.Flat) (hf' : source.Flat)
    (hagree : r.source.AgreeOn source r.domain r.addr
      (min maxChunks maxChunksLimit * r.room + 1)) (s : Shared) :
    Abreast (r.Parallel source (min maxChunks maxChunksLimit * r.room)
        (min maxChunks maxChunksLimit))
      ((r.start .untilTerminator maxChunks).run s)
      (((r.withSource source).start .untilTerminator maxChunks).run s) := by
  have hroom : 0 < r.room := SizeClass.payload_pos hv
  have hlimit : 0 < min maxChunks maxChunksLimit := by simp only [maxChunksLimit]; omega
  have hle : r.room ≤ min maxChunks maxChunksLimit * r.room := Nat.le_mul_of_pos_left _ hlimit
  have hfirst : r.source.AgreeOn source r.domain r.addr r.room :=
    fun i hi b => hagree i (by omega) b
  have htold : Told r.source r.domain r.addr r.room _ := told_read hf ha
  have htold' : Told source r.domain r.addr r.room _ := told_read hf' ha
  rcases htold.same htold' hf' hfirst with ⟨segment, hread, hread'⟩ | ⟨fault, fault', hread, hread'⟩
  · by_cases hempty : segment.data = []
    · rw [start_empty ha hmax hv hread hempty,
        start_empty (r := r.withSource source) ha hmax hv hread' hempty]
      exact (concludes_done _).abreast (concludes_done _) (.inl (.refl _)) s
    · have heq' : (r.withSource source).start .untilTerminator maxChunks =
          perform (.openChunk r.writer r.sizeClass) >>=
            (r.withSource source).afterFirst maxChunks segment :=
        start_first (r := r.withSource source) ha hmax hv hread' hempty
      rw [hread] at htold
      have hanswers := Op.answers_perform (.openChunk r.writer r.sizeClass) s
      rw [start_first ha hmax hv hread hempty, heq', run_bind, run_bind, run_perform]
      dsimp only
      cases hreply : (Op.perform (.openChunk r.writer r.sizeClass) s).1 with
      | error e =>
        cases e with
        | overflow => exact rfl
        | full | invalidSize =>
          exact (concludes_fail _ _ _).abreast (concludes_fail _ _ _) (.inl (.refl _)) _
      | ok chunk =>
        rw [hreply] at hanswers
        exact (OnWay.begun hmax htold hanswers).abreast hf hf' ha hroom hagree _
  · rw [start_fault ha hmax hv hread, start_fault (r := r.withSource source) ha hmax hv hread']
    exact (concludes_fail _ _ _).abreast (concludes_fail _ _ _) (.inl ⟨rfl, rfl, rfl, rfl⟩) s

/-- A copy that is refused nothing fills all its chunks if the string goes on behind them. -/
theorem start_comes (hf : r.source.Flat)
    (hruns : r.source.Runs r.domain r.addr (min maxChunks maxChunksLimit * r.room + 1)) {s : Shared}
    (hgranted : (r.start .untilTerminator maxChunks).Granted s) :
    ∃ o s' head, (r.start .untilTerminator maxChunks).run s = (.ok o, s') ∧ head ≠ .none ∧
      r.Cut (min maxChunks maxChunksLimit * r.room) (min maxChunks maxChunksLimit) head o := by
  have hroom : 0 < r.room := SizeClass.payload_pos hv
  have hlimit : 0 < min maxChunks maxChunksLimit := by simp only [maxChunksLimit]; omega
  have hle : r.room ≤ min maxChunks maxChunksLimit * r.room := Nat.le_mul_of_pos_left _ hlimit
  have htold : Told r.source r.domain r.addr r.room _ := told_read hf ha
  obtain ⟨segment, hread, hne, hmore⟩ := htold.full hf hroom (hruns.mono (by omega))
  rw [hread] at htold
  have hanswers := Op.answers_perform (.openChunk r.writer r.sizeClass) s
  rw [start_first ha hmax hv hread hne] at hgranted ⊢
  obtain ⟨hgrants, hnext⟩ := hgranted
  rw [run_bind, run_perform]
  dsimp only
  cases hreply : (Op.perform (.openChunk r.writer r.sizeClass) s).1 with
  | error e =>
    rw [hreply] at hgrants
    exact hgrants.elim
  | ok chunk =>
    rw [hreply] at hnext hanswers
    have hway := OnWay.begun hmax htold hanswers
    obtain ⟨o, s', hrun, hcut⟩ := hway.comes hmore hf ha hroom hruns hnext.2
    exact ⟨o, s', chunk.id, hrun, hway.named, hcut⟩

end Start

end Request

/-- Two copies of a string leave the same behind and come to the same end if their sources agree on
the bytes that may be copied and on the one behind them. At the cap they may differ: a copy that has
filled all its chunks and knows that the string goes on reads a segment more, and fails without a
head if that has a fault. A copy that is refused nothing comes so far if the string does. -/
theorem copy_looks_ahead_of_its_last_chunk (call : Call) (he : call.extent = .untilTerminator)
    (hvalid : ¬call.request.Invalid call.extent call.settings.maxChunks) (hf : call.source.Flat) :
    (∀ source : AddressSpace, source.Flat →
      call.source.AgreeOn source call.domain call.addr (call.reach + 1) → ∀ s,
        Abreast (call.request.Parallel source call.reach call.limit) (call.activity.run s)
          (Call.activity { call with source } |>.run s)) ∧
    (call.source.Runs call.domain call.addr (call.reach + 1) → ∀ s, call.activity.Granted s →
      ∃ o t head, call.activity.run s = (.ok o, t) ∧ head ≠ .none ∧
        call.request.Cut call.reach call.limit head o) := by
  have ha : call.request.addr ≠ 0 := fun hz => hvalid (.inl hz)
  have hmax : call.settings.maxChunks ≠ 0 := fun hz => hvalid (.inr (.inl hz))
  have hv : call.request.sizeClass.isValid = true := by
    cases hv : call.request.sizeClass.isValid with
    | true => rfl
    | false => exact absurd (.inr (.inr (.inl hv))) hvalid
  obtain ⟨writer, base, addr, domain, settings, extent⟩ := call
  obtain rfl : extent = .untilTerminator := he
  constructor
  · intro source hf' hagree s
    exact Request.start_abreast ha hmax hv hf hf' hagree s
  · intro hruns s hgranted
    exact Request.start_comes ha hmax hv hf hruns hgranted

/-- A string of which five bytes are known, and `rest` behind them, in one chunk of four. -/
def Call.ofFour (rest : Bytes) : Call where
  writer := ⟨firstChannel, 0, 7, 0⟩
  source := ⟨[⟨100, [97, 98, 99, 100, 101] ++ rest, .monitored⟩]⟩
  addr := 100
  domain := .monitored
  settings := { maxChunks := 1, stringClass := .custom 4 }
  extent := .untilTerminator

theorem Call.ofFour_flat {rest : Bytes} (h : rest.length < 100) : (ofFour rest).source.Flat := by
  refine ⟨?_, ?_⟩
  · simp [ofFour, addressLimit]
    omega
  · simp [ofFour]

theorem Call.ofFour_agree (rest rest' : Bytes) :
    (ofFour rest).source.AgreeOn (ofFour rest').source .monitored 100 5 := by
  intro i hi b
  simp only [Shows, ofFour, List.mem_singleton, exists_eq_left, Nat.add_sub_cancel_left]
  rw [List.getElem?_append_left hi, List.getElem?_append_left hi]

/-- With nothing behind them the copy fails, with three bytes more it is truncated. -/
theorem copy_looks_ahead_of_its_last_chunk_of_four : ∃ o o' t t' head,
    (Call.ofFour []).activity.run firstShared = (.ok o, t) ∧
    (Call.ofFour [102, 103, 104]).activity.run firstShared = (.ok o', t') ∧
    t'.regions = t.regions ∧ o'.copied = 4 ∧ o'.chunks = 1 ∧ o.status = .failed ∧
    o'.status = .truncated ∧ o'.head = head ∧ head ≠ .none := by
  have hvalid (rest : Bytes) :
      ¬(Call.ofFour rest).request.Invalid (Call.ofFour rest).extent 1 :=
    Call.not_invalid (c := .ofFour rest) rfl nofun nofun
  have hf : (Call.ofFour []).source.Flat := Call.ofFour_flat (by decide)
  have hf' : (Call.ofFour [102, 103, 104]).source.Flat := Call.ofFour_flat (by decide)
  have hruns : (Call.ofFour [102, 103, 104]).source.Runs .monitored 100 5 := by
    have hholds : (Call.ofFour [102, 103, 104]).source.Holds .monitored 100 _ :=
      holds_region List.mem_cons_self
    exact (Runs.of_holds hholds (by simp)).mono (by simp)
  have hgranted : (Call.ofFour [102, 103, 104]).activity.Granted firstShared := by decide +kernel
  have hfailed : ((Call.ofFour []).activity.run firstShared).1 =
      .ok ⟨.none, 4, 1, .failed, some (.source (.unmapped 105))⟩ := by decide +kernel
  have htruncated : ((Call.ofFour [102, 103, 104]).activity.run firstShared).1 =
      .ok ⟨.compose 7 1, 4, 1, .truncated, none⟩ := by decide +kernel
  obtain ⟨hpair, -⟩ := copy_looks_ahead_of_its_last_chunk (.ofFour []) rfl (hvalid _) hf
  obtain ⟨-, hcomes⟩ :=
    copy_looks_ahead_of_its_last_chunk (.ofFour [102, 103, 104]) rfl (hvalid _) hf'
  have h := hpair _ hf' (Call.ofFour_agree [] [102, 103, 104]) firstShared
  obtain ⟨o', t', head, hrun', hnamed, hcut⟩ := hcomes hruns firstShared hgranted
  have hrunover : (Call.activity
      { Call.ofFour [] with source := (Call.ofFour [102, 103, 104]).source }).run firstShared =
        (.ok o', t') := hrun'
  rcases hrun : (Call.ofFour []).activity.run firstShared with ⟨answer, t⟩
  rw [hrun] at hfailed h
  rw [hrun'] at htruncated
  rw [hrunover] at h
  subst hfailed
  obtain rfl := Except.ok.inj htruncated
  refine ⟨_, _, t, t', head, rfl, hrun', h.2.1, hcut.copied_eq, hcut.chunks_eq, rfl, rfl, ?_,
    hnamed⟩
  by_cases hfaults : (Call.ofFour [102, 103, 104]).source.Faults .monitored 104 4
  · exact absurd (hcut.faulty hfaults).1 (by decide)
  · exact (hcut.legible hfaults).2

end Copy
end ChainRelay
