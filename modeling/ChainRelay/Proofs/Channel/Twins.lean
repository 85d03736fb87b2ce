import ChainRelay.Activity
import ChainRelay.Proofs.Channel.View
import ChainRelay.Proofs.Ring.Hidden

/-!
Two states of everything shared that differ in hidden bytes of one channel only. Every operation is
answered the same in both, and leaves two such states.
-/

namespace ChainRelay

open ChainRelay.Ring

/-- No slot reaches into the control block. -/
theorem Channel.Queued.behind_low {c : Channel} {s : Shared} {q : List Booking} (h : c.Queued s q)
    {skip addr : Nat} {slot : Slot} (hb : c.band.Behind skip slot addr) : headerSpan ≤ addr := by
  obtain ⟨cells, hl, -⟩ := h
  obtain ⟨hlo, -⟩ := hb
  have hmin := hl.regular.offset_min
  unfold Band.payloadStart at hlo
  omega

/-- The same state, but for the bytes at hidden addresses of the channel's region. -/
structure Channel.Twins (c : Channel) (hidden : Nat → Prop) (s s' : Shared) : Prop where
  freshRegion_eq : s'.freshRegion = s.freshRegion
  directory_eq : s'.directory = s.directory
  allocators_eq : s'.allocators = s.allocators
  tallies_eq : s'.tallies = s.tallies
  events_eq : s'.events = s.events
  regions_eq : ∀ n, n ≠ c.region → s'.regions.get n = s.regions.get n
  agrees : (c.memory s).AgreesOff hidden (c.memory s')

namespace Channel.Twins

variable {c : Channel} {hidden : Nat → Prop} {s s' : Shared}

theorem refl (c : Channel) (hidden : Nat → Prop) (s : Shared) : c.Twins hidden s s :=
  ⟨rfl, rfl, rfl, rfl, rfl, fun _ _ => rfl, .refl _ _⟩

theorem mono {more : Nat → Prop} (h : c.Twins hidden s s') (hm : ∀ k, hidden k → more k) :
    c.Twins more s s' := { h with agrees := h.agrees.mono hm }

/-- What changes one region, in the same way but for hidden bytes. -/
theorem of_region (h : c.Twins hidden s s') (region : Nat) {t t' : Shared} {m m' : Memory}
    (ht : ∀ n, t.regions.get n = if region = n then m else s.regions.get n)
    (ht' : ∀ n, t'.regions.get n = if region = n then m' else s'.regions.get n)
    (hrest : t.freshRegion = s.freshRegion ∧ t.directory = s.directory ∧
      t.allocators = s.allocators ∧ t.tallies = s.tallies ∧ t.events = s.events)
    (hrest' : t'.freshRegion = s'.freshRegion ∧ t'.directory = s'.directory ∧
      t'.allocators = s'.allocators ∧ t'.tallies = s'.tallies ∧ t'.events = s'.events)
    (hother : region ≠ c.region → m' = m)
    (hsame : region = c.region → m.AgreesOff hidden m') : c.Twins hidden t t' := by
  obtain ⟨h₁, h₂, h₃, h₄, h₅⟩ := hrest
  obtain ⟨h₁', h₂', h₃', h₄', h₅'⟩ := hrest'
  constructor
  case freshRegion_eq => rw [h₁, h₁', h.freshRegion_eq]
  case directory_eq => rw [h₂, h₂', h.directory_eq]
  case allocators_eq => rw [h₃, h₃', h.allocators_eq]
  case tallies_eq => rw [h₄, h₄', h.tallies_eq]
  case events_eq => rw [h₅, h₅', h.events_eq]
  case regions_eq =>
    intro n hn
    rw [ht, ht']
    by_cases he : region = n
    · rw [if_pos he, if_pos he, hother (he ▸ hn)]
    · rw [if_neg he, if_neg he, h.regions_eq n hn]
  case agrees =>
    unfold Channel.memory
    rw [ht, ht']
    by_cases he : region = c.region
    · rw [if_pos he, if_pos he]
      exact hsame he
    · rw [if_neg he, if_neg he]
      exact h.agrees

theorem onRegion (h : c.Twins hidden s s') (region : Nat) {f f' : Memory → Memory}
    (hother : region ≠ c.region → f' = f)
    (hf : region = c.region → ∀ m m', m.AgreesOff hidden m' → (f m).AgreesOff hidden (f' m')) :
    c.Twins hidden (s.onRegion region f) (s'.onRegion region f') := by
  have hget (t : Shared) (g : Memory → Memory) (n : Nat) : (t.onRegion region g).regions.get n =
      if region = n then g (t.regions.get region) else t.regions.get n := by
    rw [Shared.get_onRegion]
    split
    · rename_i he
      rw [he]
    · rfl
  refine h.of_region region (hget s f) (hget s' f') ⟨rfl, rfl, rfl, rfl, rfl⟩
    ⟨rfl, rfl, rfl, rfl, rfl⟩ (fun hn => ?_) fun he => ?_
  · rw [hother hn, h.regions_eq region hn]
  · subst he
    exact hf rfl _ _ h.agrees

theorem withRegion {α : Type} (h : c.Twins hidden s s') (region : Nat) {f : Memory → α × Memory}
    (hf : ∀ m m', m.AgreesOff hidden m' → (f m').1 = (f m).1 ∧ (f m).2.AgreesOff hidden (f m').2) :
    (s'.withRegion region f).1 = (s.withRegion region f).1 ∧
      c.Twins hidden (s.withRegion region f).2 (s'.withRegion region f).2 := by
  have hget (t : Shared) (n : Nat) : (t.withRegion region f).2.regions.get n =
      if region = n then (f (t.regions.get region)).2 else t.regions.get n := by
    rw [Shared.get_withRegion]
    split
    · rename_i he
      rw [he]
    · rfl
  rw [Shared.answer_withRegion, Shared.answer_withRegion]
  by_cases hn : region = c.region
  · subst hn
    obtain ⟨hanswer, hoff⟩ := hf _ _ h.agrees
    exact ⟨hanswer, h.of_region c.region (hget s) (hget s') ⟨rfl, rfl, rfl, rfl, rfl⟩
      ⟨rfl, rfl, rfl, rfl, rfl⟩ (fun hne => absurd rfl hne) fun _ => hoff⟩
  · have he := h.regions_eq region hn
    exact ⟨by rw [he], h.of_region region (hget s) (hget s') ⟨rfl, rfl, rfl, rfl, rfl⟩
      ⟨rfl, rfl, rfl, rfl, rfl⟩ (fun _ => by rw [he]) fun heq => absurd heq hn⟩

theorem report (h : c.Twins hidden s s') (e : Event) :
    c.Twins hidden (s.report e) (s'.report e) :=
  { h with events_eq := congrArg (e :: ·) h.events_eq }

theorem count (h : c.Twins hidden s s') (tally : Nat) (x : Counter) :
    c.Twins hidden (s.count tally x) (s'.count tally x) :=
  { h with tallies_eq := congrArg (·.modify tally (·.bump x)) h.tallies_eq }

theorem allocateId (h : c.Twins hidden s s') (ids : Nat) (shard : UInt16) :
    (s'.allocateId ids shard).1 = (s.allocateId ids shard).1 ∧
      c.Twins hidden (s.allocateId ids shard).2 (s'.allocateId ids shard).2 := by
  unfold Shared.allocateId
  rw [h.allocators_eq]
  exact ⟨rfl, { h with allocators_eq := rfl }⟩

theorem write (h : c.Twins hidden s s') (r : Reservation) (pos : Nat) (bytes : Bytes) :
    c.Twins hidden (r.write pos bytes s) (r.write pos bytes s') :=
  h.onRegion _ (fun _ => rfl) fun _ _ _ hm => hm.store _ _

/-- Hidden bytes are written. -/
theorem write_hidden (h : c.Twins hidden s s') {r : Reservation} {skip : Nat}
    (hv : c.Views r.channel) (hr : ∀ k, c.band.Behind skip r.slot k → hidden k)
    {bytes bytes' : Bytes} (hlen : bytes'.length = bytes.length) :
    c.Twins hidden (r.write skip bytes s) (r.write skip bytes' s') := by
  refine h.onRegion _ (fun hn => absurd hv.region_eq hn) fun _ m m' hm => ?_
  rw [hv.band_eq]
  exact Band.write_hidden hm hr hlen

section Operations

variable (h : c.Twins hidden s s') (hlow : ∀ k, hidden k → headerSpan ≤ k)
include h hlow

theorem reserve (v : Channel) (size : Nat) : (v.reserve size s').1 = (v.reserve size s).1 ∧
    c.Twins hidden (v.reserve size s).2 (v.reserve size s').2 := by
  obtain ⟨hanswer, htwins⟩ := h.withRegion v.region fun m m' hm =>
    Band.reserve_hidden hm hlow v.band size
  exact ⟨congrArg (·.map fun slot => (⟨v, slot⟩ : Reservation)) hanswer, htwins⟩

theorem commit (r : Reservation) : c.Twins hidden (r.commit s) (r.commit s') := by
  unfold Reservation.commit Band.commit
  exact h.onRegion _ (fun _ => rfl) fun _ _ _ hm => Band.finalize_hidden hm hlow _ _ _

theorem discard (r : Reservation) : c.Twins hidden (r.discard s) (r.discard s') := by
  unfold Reservation.discard Band.discard
  exact h.onRegion _ (fun _ => rfl) fun _ _ _ hm => Band.finalize_hidden hm hlow _ _ _

theorem openChunk (w : Writer) (size : SizeClass) :
    (s'.openChunk w size).1 = (s.openChunk w size).1 ∧
      c.Twins hidden (s.openChunk w size).2 (s'.openChunk w size).2 := by
  obtain ⟨hanswer, htwins⟩ := h.reserve hlow w.channel size.totalSize
  unfold Shared.openChunk
  rcases hr : w.channel.reserve size.totalSize s with ⟨answer, t⟩
  rcases hr' : w.channel.reserve size.totalSize s' with ⟨answer', t'⟩
  rw [hr, hr'] at hanswer htwins
  obtain rfl : answer = answer' := hanswer.symm
  have htwins : c.Twins hidden t t' := htwins
  match answer with
  | .error (.full requested available) => exact ⟨rfl, htwins.count _ _⟩
  | .error (.invalidSize asked max) => exact ⟨rfl, htwins⟩
  | .error .overflow => exact ⟨rfl, htwins⟩
  | .ok reservation =>
    obtain ⟨hid, htwins⟩ := htwins.allocateId w.ids w.shard
    dsimp only
    exact ⟨by rw [hid], htwins⟩

/-- Every operation is answered the same. -/
theorem perform (op : Op) : (op.perform s').1 = (op.perform s).1 ∧
    c.Twins hidden (op.perform s).2 (op.perform s').2 := by
  cases op with
  | openChunk w size => exact h.openChunk hlow w size
  | fillChunk chunk data => exact ⟨rfl, h.write _ _ _⟩
  | commitChunk chunk => exact ⟨rfl, ((h.write _ _ _).commit hlow _).count _ _⟩
  | abandonChunk chunk => exact ⟨rfl, (h.report _).discard hlow chunk.reservation⟩
  | reserve channel size => exact h.reserve hlow channel size
  | commitRecord r record => exact ⟨rfl, (h.write _ _ _).commit hlow r⟩
  | count tally x => exact ⟨rfl, h.count _ _⟩
  | report e => exact ⟨rfl, h.report _⟩

/-- An activity comes to the same. -/
theorem run {α : Type} (a : Activity α) : (a.run s').1 = (a.run s).1 ∧
    c.Twins hidden (a.run s).2 (a.run s').2 := by
  induction a generalizing s s' with
  | done x => exact ⟨rfl, h⟩
  | abort => exact ⟨rfl, h⟩
  | step op next ih =>
    obtain ⟨hreply, htwins⟩ := h.perform hlow op
    unfold Activity.run
    rw [hreply]
    exact ih _ htwins

end Operations

end Channel.Twins
end ChainRelay
