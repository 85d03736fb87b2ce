import ChainRelay.Proofs.Copy.Append
import ChainRelay.Proofs.Exchange.Invariance

/-!
Copies, other producers and the consumer in any order: what the consumer puts together from a copy's
first chunk is all that the copy reports, or a chunk is missing; nothing is missing when everyone is
done (`chains_come_out_whole`).
-/

namespace ChainRelay

open ChainRelay.Ring Copy Traffic

def Activity.Gives {α : Type} (a : α) : Activity α → Prop
  | .done b => b = a
  | .abort => False
  | .step _ next => ∀ reply, (next reply).Gives a

namespace Copy

variable {r : Request} {limit : Nat} {g g' : Trail}

/-- Who has committed chunks and has none in hand only counts and reports. -/
theorem Trail.Step.settled {op : Op} {reply : op.Reply} (h : Trail.Step r limit g op reply g')
    (hhand : g.hand = []) (hsent : g.sent ≠ []) :
    g' = g ∧ ∀ other : op.Reply, other = reply := by
  cases h with
  | count | report => exact ⟨rfl, fun _ => rfl⟩
  | refuse hlen hfirst => exact absurd (hfirst hhand) hsent
  | openFirst => exact absurd rfl hsent
  | fill hand => simp at hhand
  | openNext | handOver | finish | abandon => cases hhand

/-- A copy whose chain is complete has its outcome. -/
theorem Follows.gives {post : CopyOutcome → Trail → Prop} {a : Activity CopyOutcome}
    (h : Follows r limit post a g) (hhand : g.hand = []) (hsent : g.sent ≠ [])
    (hrefused : g.refused ≠ some .overflow) : ∃ o, a.Gives o ∧ post o g := by
  induction a with
  | done o => exact ⟨o, rfl, h⟩
  | abort => exact absurd h.2 hrefused
  | step op next ih =>
    obtain ⟨g', hstep, hnext⟩ := h (op.perform {}).1 (op.answers_perform {})
    obtain ⟨rfl, hsame⟩ := hstep.settled hhand hsent
    obtain ⟨o, hgives, hpost⟩ := ih _ hnext
    refine ⟨o, fun reply => ?_, hpost⟩
    rw [hsame reply]
    exact hgives

end Copy

namespace Exchange

/-- What was put together is what the copy reports: as many chunks, and the bytes of the source from
the beginning on. -/
def Delivers (r : Running) (res : Reassembled) : Prop :=
  ∃ o, r.rest.Gives o ∧ res.chunks = o.chunks ∧ res.bytes.length = o.copied ∧
    r.call.source.Holds r.call.domain r.call.addr res.bytes

/-- Every copy has returned, and other producers have finalized their reservations. -/
structure Quiet (x : Exchange) : Prop where
  returned : ∀ r ∈ x.copies, ∃ o, r.rest = .done o
  released : ∀ h ∈ x.holders, h = none

def drained (x : Exchange) (v : Channel) : Exchange :=
  { x with
    store := (x.store.drain v x.shared).2.1, shared := (x.store.drain v x.shared).2.2 }

theorem drained_eq (x : Exchange) (v : Channel) :
    ∃ store shared, x.drained v = { x with store, shared } := by
  unfold drained
  exact ⟨_, _, rfl⟩

variable {c v : Channel} {ids room copy : Nat} {a₀ : Allocator} {x : Exchange}
  {claims : List Claim} {got kept : List ChunkView} {r : Running} {g : Trail} {id : ChunkId}

theorem Attends.delivers (hg : Attends c ids x claims got copy r g) (hc : Complete kept g)
    (hid : (x.issued copy).head? = some id) :
    Delivers r ⟨g.sent.flatMap (·.data), g.sent.length⟩ := by
  obtain ⟨hhand, hlost, -⟩ := hc
  have hsent : g.sent ≠ [] := by
    intro hnone
    rw [hg.issued_eq, Trail.ids, hnone, hhand, if_pos hlost] at hid
    cases hid
  have hrefused : g.refused ≠ some .overflow := fun he => hsent (hg.sound.stopped he hhand hlost)
  obtain ⟨o, hgives, hended⟩ := hg.follows.gives hhand hsent hrefused
  have hreports := hended.reports
  refine ⟨o, hgives, hreports.chunks_eq.symm, hreports.copied_eq.symm, ?_⟩
  exact (hg.sound.chain hhand hlost).holds

theorem Course.attends (h : Course c ids a₀ room x claims got kept)
    (hr : x.copies[copy]? = some r) :
    ∃ g, Attends c ids x claims got copy r g := by
  have hattended : Attended c ids x claims got copy := h.served (.copy copy)
  unfold Attended at hattended
  simpa only [hr] using hattended

/-- Nobody is writing any more. -/
theorem Course.no_writing (h : Course c ids a₀ room x claims got kept) (hx : x.Quiet) :
    ∀ k ∈ claims, k.booking.phase ≠ .writing := by
  intro k hk hw
  have hs := h.books.sound k hk
  unfold Claim.Sound at hs
  cases hp : k.purpose with
  | gone =>
    rw [hp] at hs
    rw [show k.booking.phase = .discarded from hs] at hw
    cases hw
  | sent v =>
    rw [hp] at hs
    rw [hs.committed] at hw
    cases hw
  | part copy id =>
    have hof : k ∈ claims.filter (·.of (.copy copy)) :=
      List.mem_filter.mpr ⟨hk, by simp [Claim.of, Claim.party?, hp]⟩
    cases hr : x.copies[copy]? with
    | none =>
      have hattended : Attended c ids x claims got copy := h.served (.copy copy)
      unfold Attended at hattended
      simp only [hr] at hattended
      rw [hattended.1] at hof
      cases hof
    | some r =>
      obtain ⟨g, hg⟩ := h.attends hr
      obtain ⟨o, hdone⟩ := hx.returned r (List.mem_of_getElem? hr)
      have hended := hg.follows
      rw [hdone] at hended
      have hhand := hg.hand
      rw [show g.hand = [] from hended.hand_eq] at hhand
      rw [List.forall₂_nil_left_iff.mp hhand] at hof
      cases hof
  | foreign holder =>
    have hof : k ∈ claims.filter (·.of (.holder holder)) :=
      List.mem_filter.mpr ⟨hk, by simp [Claim.of, Claim.party?, hp]⟩
    have hgranted : Granted c x claims holder := h.served (.holder holder)
    unfold Granted at hgranted
    have hnone : x.holders[holder]?.join = none := by
      cases hh : x.holders[holder]? with
      | none => rfl
      | some held => exact hx.released held (List.mem_of_getElem? hh)
    rw [hnone] at hgranted
    rw [List.forall₂_nil_left_iff.mp hgranted] at hof
    cases hof

/-- When nobody is writing and there is nothing to take, nothing is underway. -/
theorem Course.all_gone (h : Course c ids a₀ room x claims got kept) (hx : x.Quiet)
    (hv : c.Views v) (hroom : x.commits ≤ room) (hmax : room * 2 < sizeLimit)
    (hnothing : (x.store.takeOne v x.shared).1 = .ok .nothing) :
    ∀ k ∈ claims, k.purpose = .gone := by
  obtain ⟨rest, got', kept', -, hstopped | hstored⟩ := h.take hv hroom hmax
  · obtain ⟨front, rfl, hfront⟩ := hstopped.passed
    cases rest with
    | nil => simpa using hfront
    | cons k rest => exact absurd (hstopped.head k rfl) (h.no_writing hx k (by simp))
  · have hanswer := hstored.answer
    rw [hnothing] at hanswer
    cases hanswer

/-- Then the chain of every copy that has returned is in the store, unless it was taken out. -/
theorem Course.complete (h : Course c ids a₀ room x claims got kept)
    (hgone : ∀ k ∈ claims, k.purpose = .gone) (hr : x.copies[copy]? = some r) {o : CopyOutcome}
    (hdone : r.rest = .done o) (hcollected : copy ∉ x.collected) :
    ∃ g, Attends c ids x claims got copy r g ∧ Complete kept g := by
  have hb := h.books
  obtain ⟨g, hg⟩ := h.attends hr
  have hended := hg.follows
  rw [hdone] at hended
  refine ⟨g, hg, hended.hand_eq, hended.lost_eq, fun v hv => ?_⟩
  have hgot : v ∈ got := by
    rcases hg.sent v hv with hgot | ⟨k, hk, hp⟩
    · exact hgot
    · rw [hgone k hk] at hp
      cases hp
  apply (hb.left v hgot).resolve_right
  rintro ⟨other, hother, hmem⟩
  -- the identifier was opened once, by this copy
  rw [hb.opened_once (hg.opened_of_sent hv) hmem] at hother
  exact hcollected hother

theorem taken_eq {answer : Except Overflow Store.Taken} {store : Store} {shared : Shared}
    (h : x.store.takeOne v x.shared = (answer, store, shared)) :
    x.taken v = { x with store, shared } := by
  unfold taken
  rw [h]

theorem Course.nothing_left (h : Course c ids a₀ room x claims got kept)
    (hgone : ∀ k ∈ claims, k.purpose = .gone) (hv : c.Views v) :
    (x.store.takeOne v x.shared).1 = .ok .nothing := by
  have hb := h.books
  obtain ⟨shared, -, -, -, htake⟩ := Store.takeOne_spec hb.queued hv x.store
  have hdiscarded : ∀ k ∈ claims.map (·.booking), k.phase = .discarded := by
    rintro _ hmem
    obtain ⟨k, hk, rfl⟩ := List.mem_map.mp hmem
    have hsound := hb.sound k hk
    unfold Claim.Sound at hsound
    rwa [hgone k hk] at hsound
  have hready : Queue.ready? (claims.map (·.booking)) = none := by
    rw [← List.append_nil (claims.map _), Queue.ready?_append hdiscarded]
    rfl
  rw [hready] at htake
  rw [htake]

/-- When nobody is writing, a store with room for all that was committed takes it, and nothing is
underway any more. -/
theorem Course.drains (h : Course c ids a₀ room x claims got kept)
    (hw : ∀ k ∈ claims, k.booking.phase ≠ .writing) (hv : c.Views v)
    (hroom : x.store.size + (claims.filterMap (·.view?)).length ≤ room)
    (hmax : room * 2 < sizeLimit ∨ claims.filterMap (·.view?) = []) {fuel : Nat}
    (hfuel : claims.length ≤ fuel) :
    ∃ k store shared claims' got' kept',
      Store.takeMany v fuel x.store x.shared = (.ok k, store, shared) ∧
      Course c ids a₀ room { x with store, shared } claims' got' kept' ∧
      (∀ k ∈ claims', k.purpose = .gone) ∧
      Relation.ReflTransGen (Step c ids) x { x with store, shared } := by
  induction fuel generalizing x claims got kept with
  | zero =>
    obtain rfl := List.eq_nil_of_length_eq_zero (Nat.le_zero.mp hfuel)
    exact ⟨0, x.store, x.shared, [], got, kept, rfl, h, List.forall_mem_nil _, .refl⟩
  | succ fuel ih =>
    obtain ⟨claims', got', kept', hcourse, hpasses, hfound⟩ := h.take_found hv fun hready =>
      ⟨h.books.room_left hroom hready, hmax.resolve_right (h.books.views_ready hready)⟩
    have hw' : ∀ k ∈ claims', k.booking.phase ≠ .writing := fun k hk => hw k (hpasses.mem k hk)
    have hstep : Step c ids x (x.taken v) := .take hv
    have hviews := hpasses.views_eq
    rcases htake : x.store.takeOne v x.shared with ⟨answer, store, shared⟩
    have hstate := taken_eq htake
    rcases hfound with hstopped | hstored
    · have hanswer := hstopped.answer
      rw [htake] at hanswer
      obtain rfl : answer = .ok .nothing := hanswer
      obtain rfl : claims' = [] := by
        cases claims' with
        | nil => rfl
        | cons k rest => exact absurd (hstopped.head k rfl) (hw' k List.mem_cons_self)
      rw [hstate] at hcourse hstep
      exact ⟨0, store, shared, [], got', kept', by simp only [Store.takeMany, htake], hcourse,
        List.forall_mem_nil _, .single hstep⟩
    · have hanswer := hstored.answer
      rw [htake] at hanswer
      obtain rfl : answer = .ok .stored := hanswer
      obtain ⟨-, w, -, -, rfl⟩ := hstored.chunk
      have hsize := hstored.size_eq
      have hfewer := hstored.fewer
      rw [List.length_append, List.length_singleton] at hviews
      rw [hstate] at hcourse hstep hsize
      have hmax : room * 2 < sizeLimit := hmax.resolve_right fun hnone => by
        rw [hnone, List.length_nil] at hviews
        omega
      obtain ⟨k, store', shared', claims'', got'', kept'', hmany, hcourse', hgone, hrun⟩ :=
        ih hcourse hw' (by omega) (.inl hmax) (by omega)
      refine ⟨k + 1, store', shared', claims'', got'', kept'', ?_, hcourse', hgone,
        .head hstep hrun⟩
      simp only [Store.takeMany, htake, hmany]
      rfl

/-- A drain with fuel for all reservations leaves nothing to take. -/
theorem Course.takeMany (h : Course c ids a₀ room x claims got kept) (hx : x.Quiet)
    (hv : c.Views v) (hroom : x.commits ≤ room) (hmax : room * 2 < sizeLimit) {fuel : Nat}
    (hfuel : claims.length ≤ fuel) :
    ∃ k store shared, Store.takeMany v fuel x.store x.shared = (.ok k, store, shared) ∧
      Relation.ReflTransGen (Step c ids) x { x with store, shared } ∧
      (store.takeOne v shared).1 = .ok .nothing := by
  obtain ⟨k, store, shared, claims', got', kept', hmany, hcourse, hgone, hrun⟩ :=
    h.drains (h.no_writing hx) hv (h.books.room_of_commits hroom) (.inl hmax) hfuel
  exact ⟨k, store, shared, hmany, hrun, hcourse.nothing_left hgone hv⟩

/-- Any number of copies run among each other, with other producers that give their reservations up
and with a consumer that takes records off the channel and chains out of its store. Asked for the
chain of a copy's first chunk, the store at every moment names a missing chunk or gives what the
copy reports. When all have finished, a drain succeeds and leaves nothing on the channel; then every
chain that was not taken out is found. -/
theorem chains_come_out_whole {s : Shared} {n : Nat} (hempty : c.Queued s [])
    (hn : n * 2 < sizeLimit) (hrun : Relation.ReflTransGen (Step c ids) (initial s n) x)
    (hbounded : Bounded (s.allocators.get ids) (max n 1) x) :
    (∀ copy r id, x.copies[copy]? = some r → (x.issued copy).head? = some id →
      (∃ lost, (x.store.reassemble id r.call.settings.maxChunks).1 = .error (.missing lost)) ∨
        ∃ res, (x.store.reassemble id r.call.settings.maxChunks).1 = .ok res ∧ Delivers r res) ∧
    (x.Quiet → ∀ v, c.Views v →
      (∃ k, (x.store.drain v x.shared).1 = .ok k) ∧
      Relation.ReflTransGen (Step c ids) x (x.drained v) ∧
      ((x.drained v).store.takeOne v (x.drained v).shared).1 = .ok .nothing) ∧
    (x.Quiet → ∀ v, c.Views v → (x.store.takeOne v x.shared).1 = .ok .nothing →
      ∀ copy r id, x.copies[copy]? = some r → (x.issued copy).head? = some id →
        copy ∉ x.collected →
        ∃ res, (x.store.reassemble id r.call.settings.maxChunks).1 = .ok res ∧ Delivers r res) := by
  obtain ⟨claims, got, kept, hcourse⟩ := Course.run hempty hn hrun hbounded
  have hmax : max n 1 * 2 < sizeLimit := by
    simp only [sizeLimit] at hn ⊢
    omega
  have hb := hcourse.books
  refine ⟨?_, ?_, ?_⟩
  · intro copy r id hr hid
    obtain ⟨g, hg⟩ := hcourse.attends hr
    by_cases hc : Complete kept g
    · refine .inr ⟨_, ?_, hg.delivers hc hid⟩
      rw [hg.reassemble_complete hb hid hc (Nat.le_refl _)]
    · obtain ⟨lost, hmissing⟩ := hg.reassemble_missing hb hid hc (Nat.le_refl _)
      exact .inl ⟨lost, by rw [hmissing]⟩
  · intro hx v hv
    have hfuel : claims.length ≤ v.used x.shared := by
      have hle := hb.queued.length_le_used hv
      rwa [List.length_map] at hle
    obtain ⟨k, store, shared, hmany, hsteps, hnothing⟩ :=
      hcourse.takeMany hx hv hbounded.commits hmax hfuel
    have hdrain : x.store.drain v x.shared = (.ok k, store, shared) := hmany
    unfold drained
    rw [hdrain]
    exact ⟨⟨k, rfl⟩, hsteps, hnothing⟩
  · intro hx v hv hnothing copy r id hr hid hcollected
    have hgone := hcourse.all_gone hx hv hbounded.commits hmax hnothing
    obtain ⟨o, hdone⟩ := hx.returned r (List.mem_of_getElem? hr)
    obtain ⟨g, hg, hc⟩ := hcourse.complete hgone hr hdone hcollected
    refine ⟨_, ?_, hg.delivers hc hid⟩
    rw [hg.reassemble_complete hb hid hc (Nat.le_refl _)]

def goOn (x : Exchange) (copy : Nat) : Exchange :=
  match x.copies[copy]? with
  | some ⟨call, .step op next⟩ => x.advance copy call op next
  | _ => x

theorem run_goOn (c : Channel) (ids : Nat) (x : Exchange) (schedule : List Nat) :
    Relation.ReflTransGen (Step c ids) x (schedule.foldl goOn x) := by
  induction schedule generalizing x with
  | nil => exact .refl
  | cons copy schedule ih =>
    apply Relation.ReflTransGen.trans _ (ih (x.goOn copy))
    unfold goOn
    split
    · exact .single (.advance copy ‹_›)
    · exact .refl

def greeting : Call where
  writer := ⟨firstChannel, 0, 9, 0⟩
  source := ⟨[⟨100, [104, 105, 0], .monitored⟩]⟩
  addr := 100
  domain := .monitored
  settings := {}
  extent := .untilTerminator

/-- Two copies that take turns. -/
def crossed : Exchange :=
  [0, 1, 0, 1, 0, 0, 1, 0, 0].foldl goOn { initial firstShared 3 with
    copies := [⟨.threeBytes, Call.threeBytes.activity⟩, ⟨greeting, greeting.activity⟩] }

theorem run_crossed :
    Relation.ReflTransGen (Step firstChannel 0) (initial firstShared 3) crossed := by
  have hthree : Call.threeBytes.source.Flat := by
    refine ⟨?_, ?_⟩ <;> simp [Call.threeBytes, addressLimit]
  have hgreeting : greeting.source.Flat := by
    refine ⟨?_, ?_⟩ <;> simp [greeting, addressLimit]
  have hstart := Relation.ReflTransGen.tail (.single (.start .threeBytes (.refl _) rfl hthree))
    (Step.start (c := firstChannel) (x := { initial firstShared 3 with
      copies := [⟨.threeBytes, Call.threeBytes.activity⟩] }) greeting (.refl _) rfl hgreeting)
  exact hstart.trans (run_goOn ..)

theorem bounded_of_length {a₀ : Allocator} (hids : x.openedIds.length < Allocator.period)
    (hcommits : x.commits ≤ room) : Bounded a₀ room x :=
  ⟨fun _ => Nat.lt_of_le_of_lt List.countP_le_length hids, hcommits⟩

theorem crossed_done : crossed.opened = [(0, .compose 7 1), (1, .compose 9 2), (0, .compose 7 3)] ∧
    crossed.commits = 3 ∧ crossed.holders = [] ∧ crossed.collected = [] ∧ crossed.copies =
      [⟨.threeBytes, .done { head := .compose 7 1, copied := 3, chunks := 2, status := .success }⟩,
        ⟨greeting, .done { head := .compose 9 2, copied := 2, chunks := 1, status := .success }⟩] :=
  ⟨rfl, rfl, rfl, rfl, rfl⟩

theorem chains_come_out_whole_of_two :
    ∃ y, Relation.ReflTransGen (Step firstChannel 0) (initial firstShared 3) y ∧
      (∃ res, (y.store.reassemble (.compose 7 1) Call.threeBytes.settings.maxChunks).1 = .ok res ∧
        res.bytes.length = 3 ∧ res.chunks = 2) ∧
      ∃ res, (y.store.reassemble (.compose 9 2) greeting.settings.maxChunks).1 = .ok res ∧
        res.bytes.length = 2 ∧ res.chunks = 1 := by
  have hempty : firstChannel.Queued firstShared [] := Shared.buildChannel_queued buildChannel_first
  have hrun := run_crossed
  obtain ⟨hopened, hcommits, hholders, hcollected, hcopies⟩ := crossed_done
  generalize crossed = x at hrun hopened hcommits hholders hcollected hcopies
  have hquiet : x.Quiet := by
    constructor
    · rw [hcopies]
      simp
    · rw [hholders]
      exact List.forall_mem_nil _
  have hbounded : Bounded (firstShared.allocators.get 0) (max 3 1) x := by
    apply bounded_of_length
    · rw [openedIds, hopened]
      decide
    · rw [hcommits]
      decide
  obtain ⟨-, hsteps, hnothing⟩ := (chains_come_out_whole hempty (by decide) hrun hbounded).2.1
    hquiet firstChannel (.refl _)
  obtain ⟨store, shared, hdrained⟩ := x.drained_eq firstChannel
  rw [hdrained] at hsteps hnothing
  have hall := (chains_come_out_whole hempty (by decide) (hrun.trans hsteps)
    ⟨hbounded.chunks, hbounded.commits⟩).2.2 ⟨hquiet.returned, hquiet.released⟩ firstChannel
    (.refl _) hnothing
  dsimp only [issued] at hall
  rw [hopened, hcopies, hcollected] at hall
  refine ⟨_, hrun.trans hsteps, ?_, ?_⟩
  · obtain ⟨res, hres, o, hgives, hchunks, hlen, -⟩ :=
      hall 0 _ (.compose 7 1) rfl rfl List.not_mem_nil
    cases hgives
    exact ⟨res, hres, hlen, hchunks⟩
  · obtain ⟨res, hres, o, hgives, hchunks, hlen, -⟩ :=
      hall 1 _ (.compose 9 2) rfl rfl List.not_mem_nil
    cases hgives
    exact ⟨res, hres, hlen, hchunks⟩

end Exchange
end ChainRelay
