import Mathlib.Algebra.GroupWithZero.Nat
import Mathlib.Logic.Relation
import ChainRelay.Proofs.Channel.Traffic
import ChainRelay.Ring.Wakeup

/-!
No wake-up is lost. Any number of producers reserve, write and finalize, and one consumer waits for
a record; their atomic steps come in any order. A producer that makes a record visible to a consumer
which found nothing has yet to move the signal word, or has moved it since the consumer read it
(`Alert.announced`); and whoever moved it since then has yet to look for the sleeper and to wake it
(`Alert.woken`).
-/

namespace ChainRelay.Ring

namespace Waiter

/-- Not between the first look at the signal word and the end of the sleep. -/
def outside : Waiter → Bool
  | looking | served _ | failed => true
  | _ => false

def seen? : Waiter → Option Nat
  | trying seen | registering seen | deciding seen | asleep seen => some seen
  | _ => none

def registered : Waiter → Bool
  | deciding _ | asleep _ | leaving => true
  | _ => false

theorem registered_of_outside {w : Waiter} (h : w.outside = true) : w.registered = false := by
  cases w <;> first | rfl | cases h

theorem seen?_of_outside {w : Waiter} (h : w.outside = true) : w.seen? = none := by
  cases w <;> first | rfl | cases h

/-- It found nothing and may fall asleep for that. -/
def disappointed : Waiter → Bool
  | registering _ | deciding _ | asleep _ => true
  | _ => false

end Waiter

/-- A reservation, and how far its producer has come with finalizing it. -/
structure Producer where
  slot : Slot
  stage : Finalizer := .publishing

/-- Its final word is stored, and it has something left to do. -/
def Producer.Midway (p : Producer) : Prop :=
  p.stage = .announcing ∨ p.stage = .checking ∨ p.stage = .waking

instance (p : Producer) : Decidable p.Midway :=
  inferInstanceAs (Decidable (p.stage = .announcing ∨ p.stage = .checking ∨ p.stage = .waking))

/-- A ring with its producers and its consumer. -/
structure Watch where
  memory : Memory
  consumer : Waiter := .looking
  producers : List Producer := []
  /-- How often the signal word moved since the consumer read it. -/
  moved : Nat := 0

namespace Watch

def reserve (b : Band) (x : Watch) (size : Nat) : Watch :=
  match b.reserve size x.memory with
  | (.ok slot, memory) => { x with memory, producers := x.producers ++ [⟨slot, .publishing⟩] }
  | (.error _, memory) => { x with memory }

def proceed (b : Band) (x : Watch) (pre : List Producer) (p : Producer) (post : List Producer)
    (discard : Bool) : Watch :=
  let (stage, consumer, memory) := p.stage.step b p.slot discard x.consumer x.memory
  { memory, consumer
    producers := pre ++ { p with stage } :: post
    moved := if p.stage = .announcing then x.moved + 1 else x.moved }

def consume (b : Band) (x : Watch) : Watch :=
  let (consumer, memory) := x.consumer.step b x.memory
  { x with memory, consumer, moved := if x.consumer = .looking then 0 else x.moved }

/-- One atomic step of any party. -/
inductive Step (b : Band) (x : Watch) : Watch → Prop where
  | reserve (size : Nat) : Step b x (x.reserve b size)
  | write {p : Producer} (holds : p ∈ x.producers) (writing : p.stage = .publishing) (pos : Nat)
      (bytes : Bytes) : Step b x { x with memory := b.write p.slot pos bytes x.memory }
  | proceed (pre : List Producer) (p : Producer) (post : List Producer)
      (holds : x.producers = pre ++ p :: post) (discard : Bool) :
      Step b x (x.proceed b pre p post discard)
  /-- The sleep test comes before the signal word has gone all the way round. -/
  | consume (few : ∀ seen, x.consumer = .deciding seen → x.moved < 2 ^ 32) :
      Step b x (x.consume b)
  /-- A sleep may end for no reason. -/
  | rouse {seen : Nat} (sleeps : x.consumer = .asleep seen) :
      Step b x { x with consumer := .leaving }
  /-- The consumer comes again for the next record. -/
  | call (outside : x.consumer.outside) : Step b x { x with consumer := .looking }
  /-- Or takes what there is without waiting. -/
  | poll (outside : x.consumer.outside) : Step b x { x with memory := (b.receive x.memory).2 }

abbrev Run (b : Band) : Watch → Watch → Prop := Relation.ReflTransGen (Step b)

end Watch

namespace Band

variable {b : Band}

theorem reserve_agrees (ho : headerSpan ≤ b.offset) (size : Nat) (m : Memory) :
    m.Agrees (b.reserve size m).2 0 40 := by
  simp only [headerSpan] at ho
  have hword (m : Memory) (pos v : Nat) : m.Agrees (b.setRecordWord m pos v) 0 40 :=
    Memory.agrees_setWord (by omega)
  have hstamp (p : Placement) : m.Agrees (b.stamp p size m) 0 40 := by
    unfold stamp
    split
    · exact hword _ _ _
    · exact (hword _ _ _).trans (hword _ _ _)
  simp only [reserve]
  split
  · exact .refl m 0 40
  · split
    · exact hstamp _
    · exact (hstamp _).trans (Memory.agrees_setWord (.inl (by decide)))

theorem write_agrees (ho : headerSpan ≤ b.offset) (slot : Slot) (pos : Nat) (bytes : Bytes)
    (m : Memory) : m.Agrees (b.write slot pos bytes m) 0 40 := by
  simp only [headerSpan] at ho
  refine Memory.agrees_store (.inl ?_)
  unfold payloadStart
  omega

theorem publish_agrees (ho : headerSpan ≤ b.offset) (slot : Slot) (discard : Bool) (m : Memory) :
    m.Agrees (b.publish slot discard m) 0 40 := by
  simp only [headerSpan] at ho
  exact Memory.agrees_setWord (by omega)

theorem frontFrom_agrees (b : Band) (fuel cursor : Nat) (m : Memory) :
    m.Agrees (b.frontFrom fuel cursor m).2 0 40 := by
  induction fuel generalizing cursor m with
  | zero => exact .refl m 0 40
  | succ fuel ih =>
    have hpass (v : Nat) : m.Agrees (setConsumed m v) 0 40 :=
      Memory.agrees_setWord (.inl (by decide))
    simp only [frontFrom]
    split
    · exact .refl m 0 40
    split
    · exact .refl m 0 40
    split
    · exact .refl m 0 40
    split
    · exact (hpass _).trans (ih _ _)
    · exact .refl m 0 40

theorem receive_agrees (b : Band) (m : Memory) : m.Agrees (b.receive m).2 0 40 := by
  have hfront : m.Agrees (b.front m).2 0 40 := frontFrom_agrees b _ _ m
  unfold receive
  split <;> rename_i he <;> rw [he] at hfront
  · exact hfront
  · exact hfront
  · exact hfront.trans (Memory.agrees_setWord (.inl (by decide)))

theorem Queued.offset_min {m : Memory} {q : List Booking} (h : b.Queued m q) :
    headerSpan ≤ b.offset := by
  obtain ⟨cells, hl, -⟩ := h
  exact hl.regular.offset_min

end Band

section Control

variable {m m' : Memory}

theorem notifies_of_agrees (h : m.Agrees m' 12 4) : notifies m' = notifies m := by
  simp only [notifies, flags, h.word]

theorem signal_of_agrees (h : m.Agrees m' 32 4) : signal m' = signal m := h.word

theorem waiters_of_agrees (h : m.Agrees m' 36 4) : waiters m' = waiters m := h.word

/-- What leaves the head of the header alone leaves the control words alone. -/
theorem control_of_agrees (h : m.Agrees m' 0 40) :
    notifies m' = notifies m ∧ signal m' = signal m ∧ waiters m' = waiters m :=
  ⟨notifies_of_agrees (h.mono (by decide) (by decide)),
    signal_of_agrees (h.mono (by decide) (by decide)),
    waiters_of_agrees (h.mono (by decide) (by decide))⟩

theorem notifies_writeHeader (m : Memory) (capacity : Nat) (notify : Bool) :
    notifies (writeHeader m capacity notify) = notify := by
  simp (disch := decide) only [notifies, flags, writeHeader, setProduced, setConsumed,
    Memory.word_setWord_disjoint, Memory.word_setWord_same]
  cases notify <;> rfl

theorem signal_announce (m : Memory) : signal (announce m) = (signal m + 1) % 2 ^ 32 :=
  Memory.word_setWord_same ..

theorem waiters_setWaiters (m : Memory) (v : Nat) : waiters (setWaiters m v) = v % 2 ^ 32 :=
  Memory.word_setWord_same ..

theorem setWaiters_agrees (m : Memory) (v : Nat) {lo n : Nat} (h : lo + n ≤ 36 ∨ 40 ≤ lo) :
    m.Agrees (setWaiters m v) lo n := Memory.agrees_setWord (by omega)

end Control

/-! ### The reservations of the producers -/

/-- Two reservations, if both are being written, lie in different places. -/
def Producer.Apart (p p' : Producer) : Prop :=
  p.stage = .publishing → p'.stage = .publishing → p.slot.record ≠ p'.slot.record

theorem Producer.Apart.symm {p p' : Producer} (h : p.Apart p') : p'.Apart p :=
  fun hp' hp he => h hp hp' he.symm

/-- A producer other than the one that takes the step. -/
theorem Producer.mem_others {pre post : List Producer} {p d : Producer}
    (hd : d ∈ pre ++ p :: post) (hne : d.stage ≠ p.stage) : d ∈ pre ++ post := by
  rcases List.mem_append.mp hd with hd | hd
  · exact List.mem_append_left _ hd
  · rcases List.mem_cons.mp hd with rfl | hd
    · exact absurd rfl hne
    · exact List.mem_append_right _ hd

theorem Producer.mem_of_others {pre post : List Producer} {d : Producer} (hd : d ∈ pre ++ post)
    (p : Producer) : d ∈ pre ++ p :: post := by
  rcases List.mem_append.mp hd with hd | hd <;> simp [hd]

/-- Who is still writing has a reservation of its own in the queue. -/
structure Held (b : Band) (m : Memory) (producers : List Producer) (q : List Booking) : Prop where
  queued : b.Queued m q
  writing : ∀ p ∈ producers, p.stage = .publishing → ∃ k ∈ q, k.phase = .writing ∧ k.slot = p.slot
  apart : producers.Pairwise Producer.Apart

namespace Held

variable {b : Band} {m m' : Memory} {producers pre post : List Producer} {p : Producer}
  {q : List Booking}

theorem signalled (h : Held b m producers q)
    (ha : ∀ lo n, lo + n ≤ 32 ∨ 40 ≤ lo → m.Agrees m' lo n) : Held b m' producers q :=
  ⟨h.queued.signalled ha, h.writing, h.apart⟩

theorem recounted (h : Held b m producers q) (v : Nat) : Held b (setWaiters m v) producers q :=
  h.signalled fun lo n hd => setWaiters_agrees _ _ (by omega)

theorem granted (h : Held b m producers q) {k : Booking} (hq : b.Queued m' (q ++ [k]))
    (hw : k.phase = .writing) : Held b m' (producers ++ [⟨k.slot, .publishing⟩]) (q ++ [k]) := by
  refine ⟨hq, fun p hp hstage => ?_, ?_⟩
  · rcases List.mem_append.mp hp with hp | hp
    · obtain ⟨d, hd, hdw, hslot⟩ := h.writing p hp hstage
      exact ⟨d, List.mem_append_left _ hd, hdw, hslot⟩
    · obtain rfl := List.mem_singleton.mp hp
      exact ⟨k, by simp, hw, rfl⟩
  · refine List.pairwise_append.mpr ⟨h.apart, List.pairwise_singleton _ _, ?_⟩
    intro p hp p' hp' hstage _
    obtain rfl := List.mem_singleton.mp hp'
    obtain ⟨d, hd, -, hslot⟩ := h.writing p hp hstage
    have hnodup := hq.records_nodup
    rw [List.map_append, List.nodup_append] at hnodup
    rw [← hslot]
    exact hnodup.2.2 _ (List.mem_map_of_mem hd) _ (by simp [Booking.slot])

/-- The reservation of a producer that is still writing, where it stands in the queue. -/
theorem split (h : Held b m producers q) (hp : p ∈ producers) (hw : p.stage = .publishing) :
    ∃ qpre k qpost, q = qpre ++ k :: qpost ∧ k.phase = .writing ∧ k.slot = p.slot := by
  obtain ⟨k, hk, hkw, hslot⟩ := h.writing p hp hw
  obtain ⟨qpre, qpost, rfl⟩ := List.append_of_mem hk
  exact ⟨qpre, k, qpost, rfl, hkw, hslot⟩

theorem write (h : Held b m producers q) (hp : p ∈ producers) (hw : p.stage = .publishing)
    (pos : Nat) (bytes : Bytes) : ∃ q', Queue.ready? q' = Queue.ready? q ∧
      Held b (b.write p.slot pos bytes m) producers q' := by
  obtain ⟨qpre, k, qpost, rfl, hkw, hslot⟩ := h.split hp hw
  let k' : Booking := { k with data := k.data.overlay pos bytes }
  refine ⟨qpre ++ k' :: qpost, ?_, ?_, fun p' hp' hstage => ?_, h.apart⟩
  · exact (Queue.ready?_writing (k := k') hkw).trans (Queue.ready?_writing hkw).symm
  · rw [← hslot]
    exact h.queued.write hkw pos bytes
  · obtain ⟨d, hd, hdw, hds⟩ := h.writing p' hp' hstage
    rcases List.mem_append.mp hd with hd | hd
    · exact ⟨d, List.mem_append_left _ hd, hdw, hds⟩
    · rcases List.mem_cons.mp hd with rfl | hd
      · refine ⟨k', by simp, hdw, hds ▸ ?_⟩
        simp [k', Booking.slot]
      · exact ⟨d, by simp [hd], hdw, hds⟩

/-- The producer is not writing any longer. -/
theorem retire (hapart : (pre ++ p :: post).Pairwise Producer.Apart) (p' : Producer)
    (hstage : p'.stage ≠ .publishing) : (pre ++ p' :: post).Pairwise Producer.Apart := by
  rw [List.pairwise_middle Producer.Apart.symm] at hapart ⊢
  exact List.pairwise_cons.mpr
    ⟨fun _ _ hpub => absurd hpub hstage, (List.pairwise_cons.mp hapart).2⟩

theorem publish (h : Held b m (pre ++ p :: post) q) (hw : p.stage = .publishing) (discard : Bool)
    (p' : Producer) (hstage : p'.stage ≠ .publishing) : ∃ q',
      (∀ record, Queue.ready? q = some record → Queue.ready? q' = some record) ∧
      Held b (b.publish p.slot discard m) (pre ++ p' :: post) q' := by
  obtain ⟨qpre, k, qpost, rfl, hkw, hslot⟩ := h.split (by simp) hw
  refine ⟨_, fun _ => Queue.ready?_finalized hkw, hslot ▸ h.queued.publish hkw discard,
    fun d hd hpub => ?_, retire h.apart p' hstage⟩
  have hmem := Producer.mem_others hd (hpub ▸ hstage.symm)
  have hne : p.slot.record ≠ d.slot.record :=
    (List.pairwise_cons.mp ((List.pairwise_middle Producer.Apart.symm).mp h.apart)).1 d hmem hw hpub
  obtain ⟨e, he, hew, hes⟩ := h.writing d (Producer.mem_of_others hmem p) hpub
  rcases List.mem_append.mp he with he | he
  · exact ⟨e, List.mem_append_left _ he, hew, hes⟩
  · rcases List.mem_cons.mp he with rfl | he
    · exact absurd (by rw [← hslot, hes]) hne
    · exact ⟨e, by simp [he], hew, hes⟩

/-- A producer that has published goes on. -/
theorem proceed (h : Held b m (pre ++ p :: post) q) (p' : Producer)
    (hstage : p'.stage ≠ .publishing) : Held b m (pre ++ p' :: post) q := by
  refine ⟨h.queued, fun d hd hpub => h.writing d ?_ hpub, retire h.apart p' hstage⟩
  exact Producer.mem_of_others (Producer.mem_others hd (hpub ▸ hstage.symm)) p

theorem receive (h : Held b m producers q) : (b.receive m).1 = .ok (Queue.ready? q) ∧
    Held b (b.receive m).2 producers (Queue.rest q) := by
  obtain ⟨m', he, hq⟩ := h.queued.receive
  rw [he]
  refine ⟨rfl, hq, fun p hp hpub => ?_, h.apart⟩
  obtain ⟨k, hk, hw, hslot⟩ := h.writing p hp hpub
  exact ⟨k, Queue.mem_rest hk hw, hw, hslot⟩

end Held

/-! ### The alarm -/

/-- What the control words say about the consumer, and who is about to wake it. -/
structure Alert (x : Watch) (ready? : Option Bytes) : Prop where
  notifies_eq : notifies x.memory = true
  waiters_eq : waiters x.memory = if x.consumer.registered then 1 else 0
  signal_eq : ∀ seen, x.consumer.seen? = some seen →
    seen < 2 ^ 32 ∧ signal x.memory = (seen + x.moved) % 2 ^ 32
  announced : x.consumer.disappointed → ready? ≠ none →
    0 < x.moved ∨ ∃ p ∈ x.producers, p.stage = .announcing
  woken : ∀ seen, x.consumer = .asleep seen → 0 < x.moved →
    ∃ p ∈ x.producers, p.stage = .checking ∨ p.stage = .waking

namespace Alert

variable {b : Band} {x : Watch} {m' : Memory} {ready? ready'? : Option Bytes}
  {pre post : List Producer} {p : Producer}

/-- An operation that does not touch the control words and makes nothing visible. -/
theorem calm (h : Alert x ready?) (hm : x.memory.Agrees m' 0 40)
    (hready : ready'? ≠ none → ready? ≠ none) {more : List Producer} :
    Alert { x with memory := m', producers := x.producers ++ more } ready'? where
  notifies_eq := (control_of_agrees hm).1.trans h.notifies_eq
  waiters_eq := (control_of_agrees hm).2.2.trans h.waiters_eq
  signal_eq seen hs := by
    rw [(control_of_agrees hm).2.1]
    exact h.signal_eq seen hs
  announced hd hr := by
    rcases h.announced hd (hready hr) with hm | ⟨p, hp, hs⟩
    · exact .inl hm
    · exact .inr ⟨p, List.mem_append_left _ hp, hs⟩
  woken seen hs hm := by
    obtain ⟨p, hp, hs⟩ := h.woken seen hs hm
    exact ⟨p, List.mem_append_left _ hp, hs⟩

theorem quiet (h : Alert x ready?) (hm : x.memory.Agrees m' 0 40)
    (hready : ready'? ≠ none → ready? ≠ none) : Alert { x with memory := m' } ready'? := by
  have hcalm : Alert { x with memory := m', producers := x.producers ++ [] } ready'? :=
    h.calm hm hready
  simpa using hcalm

theorem other (hx : x.producers = pre ++ p :: post) {d : Producer} (hd : d ∈ x.producers)
    (hne : d.stage ≠ p.stage) (p' : Producer) : d ∈ pre ++ p' :: post :=
  Producer.mem_of_others (Producer.mem_others (hx ▸ hd) hne) p'

theorem publish (h : Alert x ready?) (hx : x.producers = pre ++ p :: post)
    (hp : p.stage = .publishing) (hm : x.memory.Agrees m' 0 40) :
    Alert { x with
      memory := m'
      producers := pre ++ { p with stage := .announcing } :: post } ready'? where
  notifies_eq := (control_of_agrees hm).1.trans h.notifies_eq
  waiters_eq := (control_of_agrees hm).2.2.trans h.waiters_eq
  signal_eq seen hs := by
    rw [(control_of_agrees hm).2.1]
    exact h.signal_eq seen hs
  announced _ _ := .inr ⟨_, List.mem_append_right _ List.mem_cons_self, rfl⟩
  woken seen hs hm := by
    obtain ⟨d, hd, hstage⟩ := h.woken seen hs hm
    exact ⟨d, other hx hd (by rcases hstage with he | he <;> simp [he, hp]) _, hstage⟩

theorem announce (h : Alert x ready?) :
    Alert { x with
      memory := announce x.memory
      producers := pre ++ { p with stage := .checking } :: post
      moved := x.moved + 1 } ready? where
  notifies_eq := (notifies_of_agrees (announce_agrees _ (by decide))).trans h.notifies_eq
  waiters_eq := (waiters_of_agrees (announce_agrees _ (by decide))).trans h.waiters_eq
  signal_eq seen hs := by
    obtain ⟨hlt, he⟩ := h.signal_eq seen hs
    refine ⟨hlt, (signal_announce _).trans ?_⟩
    simp only [he]
    omega
  announced _ _ := .inl (Nat.succ_pos _)
  woken _ _ _ := ⟨_, List.mem_append_right _ List.mem_cons_self, .inl rfl⟩

/-- A producer that finds no sleeper leaves none behind. -/
theorem check (h : Alert x ready?) (hx : x.producers = pre ++ p :: post)
    (hp : p.stage = .checking) :
    Alert { x with
      producers := pre ++
        { p with stage := if waiters x.memory = 0 then .finished else .waking } :: post }
      ready? where
  notifies_eq := h.notifies_eq
  waiters_eq := h.waiters_eq
  signal_eq := h.signal_eq
  announced hd hr := by
    rcases h.announced hd hr with hm | ⟨d, hd, hstage⟩
    · exact .inl hm
    · exact .inr ⟨d, other hx hd (by simp [hstage, hp]) _, hstage⟩
  woken seen hs hm := by
    have hone : waiters x.memory = 1 := by
      rw [h.waiters_eq, hs]
      rfl
    exact ⟨_, List.mem_append_right _ List.mem_cons_self, .inr (by simp [hone])⟩

/-- Waking takes the consumer out of its sleep, if it sleeps. -/
theorem wake (h : Alert x ready?) (hx : x.producers = pre ++ p :: post) (hp : p.stage = .waking) :
    Alert { x with
      consumer := x.consumer.wake
      producers := pre ++ { p with stage := .finished } :: post } ready? := by
  have hwoken : ∀ seen, x.consumer.wake ≠ .asleep seen := by
    cases hc : x.consumer <;> simp [Waiter.wake]
  refine ⟨h.notifies_eq, ?_, fun seen hs => h.signal_eq seen ?_, fun hd hr => ?_,
    fun seen hs => absurd hs (hwoken seen)⟩
  · rw [h.waiters_eq]
    cases hc : x.consumer <;> rfl
  · revert hs
    cases hc : x.consumer <;> simp [Waiter.wake, Waiter.seen?]
  · have hd : x.consumer.disappointed = true := by
      revert hd
      cases hc : x.consumer <;> simp [Waiter.wake, Waiter.disappointed]
    rcases h.announced hd hr with hm | ⟨d, hd, hstage⟩
    · exact .inl hm
    · exact .inr ⟨d, other hx hd (by simp [hstage, hp]) _, hstage⟩

theorem look (h : Alert x ready?) (hc : x.consumer = .looking) :
    Alert { x with consumer := .trying (signal x.memory), moved := 0 } ready? := by
  have hwaiters := h.waiters_eq
  rw [hc] at hwaiters
  refine ⟨h.notifies_eq, hwaiters, fun seen hs => ?_, nofun, nofun⟩
  obtain rfl := Option.some.inj hs
  have hlt : signal x.memory < 2 ^ 32 := Memory.word_lt ..
  exact ⟨hlt, (Nat.mod_eq_of_lt hlt).symm⟩

/-- The consumer is done, or it comes again. -/
theorem away (h : Alert x ready?) {w : Waiter} (hw : w.outside = true)
    (hc : x.consumer.registered = false) (hm : x.memory.Agrees m' 0 40) :
    Alert { x with memory := m', consumer := w } ready'? := by
  have hwaiters := (control_of_agrees hm).2.2.trans h.waiters_eq
  have hnotifies := (control_of_agrees hm).1.trans h.notifies_eq
  rw [hc] at hwaiters
  cases w with
  | looking | served | failed => exact ⟨hnotifies, hwaiters, nofun, nofun, nofun⟩
  | trying | registering | deciding | asleep | leaving => cases hw

/-- The consumer found nothing, and indeed there is nothing. -/
theorem miss (h : Alert x ready?) {seen : Nat} (hc : x.consumer = .trying seen)
    (hm : x.memory.Agrees m' 0 40) :
    Alert { x with memory := m', consumer := .registering seen } none := by
  have hwaiters := (control_of_agrees hm).2.2.trans h.waiters_eq
  rw [hc] at hwaiters
  refine ⟨(control_of_agrees hm).1.trans h.notifies_eq, hwaiters,
    fun seen' hs => ?_, fun _ hr => absurd rfl hr, nofun⟩
  rw [(control_of_agrees hm).2.1]
  exact h.signal_eq seen' (by rw [hc]; exact hs)

theorem register (h : Alert x ready?) {seen : Nat} (hc : x.consumer = .registering seen) :
    Alert { x with
      memory := setWaiters x.memory (waiters x.memory + 1)
      consumer := .deciding seen } ready? := by
  have hwaiters : waiters x.memory = 0 := by
    rw [h.waiters_eq, hc]
    rfl
  refine ⟨(notifies_of_agrees (setWaiters_agrees _ _ (by decide))).trans h.notifies_eq, ?_,
    fun seen' hs => ?_, fun _ hr => h.announced (by rw [hc]; rfl) hr, nofun⟩
  · rw [waiters_setWaiters, hwaiters]
    rfl
  · rw [signal_of_agrees (setWaiters_agrees _ _ (by decide))]
    exact h.signal_eq seen' (by rw [hc]; exact hs)

/-- Falling asleep, the consumer knows that nobody moved the signal word. -/
theorem sleep (h : Alert x ready?) {seen : Nat} (hc : x.consumer = .deciding seen)
    (few : x.moved < 2 ^ 32) (hs : signal x.memory = seen) :
    Alert { x with consumer := .asleep seen } ready? := by
  obtain ⟨hlt, he⟩ := h.signal_eq seen (by rw [hc]; rfl)
  have hmoved : x.moved = 0 := by omega
  have hwaiters := h.waiters_eq
  rw [hc] at hwaiters
  refine ⟨h.notifies_eq, hwaiters, fun seen' hs' => h.signal_eq seen' (by rw [hc]; exact hs'),
    fun _ hr => h.announced (by rw [hc]; rfl) hr, fun _ _ hpos => ?_⟩
  exact absurd hmoved (Nat.ne_of_gt hpos)

/-- The sleep is over, or it did not come about. -/
theorem rise (h : Alert x ready?) (hc : x.consumer.registered = true) :
    Alert { x with consumer := .leaving } ready? := by
  have hwaiters := h.waiters_eq
  rw [hc] at hwaiters
  exact ⟨h.notifies_eq, hwaiters, nofun, nofun, nofun⟩

theorem leave (h : Alert x ready?) (hc : x.consumer = .leaving) :
    Alert { x with
      memory := setWaiters x.memory (waiters x.memory + 0xFFFFFFFF)
      consumer := .looking } ready? := by
  have hwaiters : waiters x.memory = 1 := by
    rw [h.waiters_eq, hc]
    rfl
  refine ⟨(notifies_of_agrees (setWaiters_agrees _ _ (by decide))).trans h.notifies_eq, ?_, nofun,
    nofun, nofun⟩
  rw [waiters_setWaiters, hwaiters]
  rfl

end Alert

/-- The invariant of every run. -/
def Watched (b : Band) (x : Watch) : Prop :=
  ∃ q, Held b x.memory x.producers q ∧ Alert x (Queue.ready? q)

namespace Watched

variable {b : Band} {x y : Watch} {pre post : List Producer} {p : Producer}

theorem reserve (h : Watched b x) (size : Nat) : Watched b (x.reserve b size) := by
  obtain ⟨q, hheld, halert⟩ := h
  have hm := Band.reserve_agrees hheld.queued.offset_min size x.memory
  rcases hheld.queued.reserve size with ⟨k, m', he, -, hw, hq⟩ | ⟨e, m', he, hq, -⟩
  · rw [he] at hm
    rw [Watch.reserve, he]
    refine ⟨q ++ [k], hheld.granted hq hw, halert.calm hm ?_⟩
    rw [Queue.ready?_writing hw]
    exact id
  · rw [he] at hm
    rw [Watch.reserve, he]
    exact ⟨q, ⟨hq, hheld.writing, hheld.apart⟩, halert.quiet hm id⟩

theorem proceed (h : Watched b x) (hx : x.producers = pre ++ p :: post) (discard : Bool) :
    Watched b (x.proceed b pre p post discard) := by
  obtain ⟨q, hheld, halert⟩ := h
  rw [hx] at hheld
  cases hp : p.stage with
  | publishing =>
    have hm := Band.publish_agrees hheld.queued.offset_min p.slot discard x.memory
    have hn : notifies (b.publish p.slot discard x.memory) = true :=
      (control_of_agrees hm).1.trans halert.notifies_eq
    obtain ⟨q', -, hheld'⟩ := hheld.publish hp discard { p with stage := .announcing } nofun
    refine ⟨q', ?_, ?_⟩
    · simpa [Watch.proceed, Finalizer.step, hp, hn] using hheld'
    · simpa [Watch.proceed, Finalizer.step, hp, hn] using halert.publish hx hp hm
  | announcing =>
    have hsig : Held b (Ring.announce x.memory) (pre ++ p :: post) q := hheld.signalled
      fun lo n hd => announce_agrees _ (by omega)
    refine ⟨q, ?_, ?_⟩
    · simpa [Watch.proceed, Finalizer.step, hp] using
        hsig.proceed { p with stage := .checking } nofun
    · simpa [Watch.proceed, Finalizer.step, hp] using halert.announce
  | checking =>
    have hstage : (if waiters x.memory = 0 then Finalizer.finished else .waking) ≠ .publishing := by
      split <;> nofun
    refine ⟨q, ?_, ?_⟩
    · simpa [Watch.proceed, Finalizer.step, hp] using
        hheld.proceed ⟨p.slot, if waiters x.memory = 0 then .finished else .waking⟩ hstage
    · simpa [Watch.proceed, Finalizer.step, hp] using halert.check hx hp
  | waking =>
    refine ⟨q, ?_, ?_⟩
    · simpa [Watch.proceed, Finalizer.step, hp] using
        hheld.proceed { p with stage := .finished } nofun
    · simpa [Watch.proceed, Finalizer.step, hp] using halert.wake hx hp
  | finished =>
    have hp' : { p with stage := .finished } = p := by
      cases p
      simp_all
    refine ⟨q, ?_, ?_⟩
    · simpa [Watch.proceed, Finalizer.step, hp, hp'] using hheld
    · simpa [Watch.proceed, Finalizer.step, hp, hp', ← hx] using halert

/-- The consumer goes from one place of its loop to the next. -/
theorem consume (h : Watched b x) (few : ∀ seen, x.consumer = .deciding seen → x.moved < 2 ^ 32) :
    Watched b (x.consume b) := by
  obtain ⟨q, hheld, halert⟩ := h
  cases hc : x.consumer with
  | looking =>
    refine ⟨q, ?_, ?_⟩
    · simpa [Watch.consume, Waiter.step, hc] using hheld
    · simpa [Watch.consume, Waiter.step, hc] using halert.look hc
  | trying seen =>
    obtain ⟨hanswer, hheld'⟩ := hheld.receive
    have hm := b.receive_agrees x.memory
    rcases he : b.receive x.memory with ⟨answer, m'⟩
    rw [he] at hanswer hheld' hm
    obtain rfl : answer = .ok (Queue.ready? q) := hanswer
    cases hr : Queue.ready? q with
    | some record =>
      rw [hr] at he
      refine ⟨Queue.rest q, ?_, ?_⟩
      · simpa [Watch.consume, Waiter.step, hc, he] using hheld'
      · simpa [Watch.consume, Waiter.step, hc, he] using
          halert.away (w := .served record) rfl (by rw [hc]; rfl) hm
    | none =>
      rw [hr] at he
      refine ⟨Queue.rest q, ?_, ?_⟩
      · simpa [Watch.consume, Waiter.step, hc, he] using hheld'
      · rw [Queue.ready?_rest hr]
        simpa [Watch.consume, Waiter.step, hc, he] using halert.miss hc hm
  | registering seen =>
    refine ⟨q, ?_, ?_⟩
    · simpa [Watch.consume, Waiter.step, hc] using hheld.recounted (waiters x.memory + 1)
    · simpa [Watch.consume, Waiter.step, hc] using halert.register hc
  | deciding seen =>
    by_cases hs : signal x.memory = seen
    · refine ⟨q, ?_, ?_⟩
      · simpa [Watch.consume, Waiter.step, hc, hs] using hheld
      · simpa [Watch.consume, Waiter.step, hc, hs] using halert.sleep hc (few seen hc) hs
    · refine ⟨q, ?_, ?_⟩
      · simpa [Watch.consume, Waiter.step, hc, hs] using hheld
      · simpa [Watch.consume, Waiter.step, hc, hs] using halert.rise (by rw [hc]; rfl)
  | leaving =>
    refine ⟨q, ?_, ?_⟩
    · simpa [Watch.consume, Waiter.step, hc] using hheld.recounted (waiters x.memory + 0xFFFFFFFF)
    · simpa [Watch.consume, Waiter.step, hc] using halert.leave hc
  | asleep | served | failed =>
    have hsame : x.consume b = x := by
      obtain ⟨memory, consumer, producers, moved⟩ := x
      obtain rfl : consumer = _ := hc
      rfl
    rw [hsame]
    exact ⟨q, hheld, halert⟩

theorem step (h : Watched b x) (hs : Watch.Step b x y) : Watched b y := by
  cases hs with
  | proceed pre p post hx discard => exact h.proceed hx discard
  | consume few => exact h.consume few
  | reserve size => exact h.reserve size
  | @write p holds writing pos bytes =>
    obtain ⟨q, hheld, halert⟩ := h
    have hm := Band.write_agrees hheld.queued.offset_min p.slot pos bytes x.memory
    obtain ⟨q', hr, hheld'⟩ := hheld.write holds writing pos bytes
    exact ⟨q', hheld', halert.quiet hm (by rw [hr]; exact id)⟩
  | rouse sleeps =>
    obtain ⟨q, hheld, halert⟩ := h
    exact ⟨q, hheld, halert.rise (by rw [sleeps]; rfl)⟩
  | call outside =>
    obtain ⟨q, hheld, halert⟩ := h
    exact ⟨q, hheld, halert.away rfl (Waiter.registered_of_outside outside) (.refl _ _ _)⟩
  | poll outside =>
    obtain ⟨q, hheld, halert⟩ := h
    have hm := b.receive_agrees x.memory
    obtain ⟨-, hheld'⟩ := hheld.receive
    generalize (b.receive x.memory).2 = m' at hm hheld' ⊢
    exact ⟨_, hheld', halert.away outside (Waiter.registered_of_outside outside) hm⟩

theorem run (h : Watched b x) (hr : Watch.Run b x y) : Watched b y := by
  induction hr with
  | refl => exact h
  | tail _ hs ih => exact ih.step hs

end Watched

/-- A channel that was built to notify, before anyone came. -/
theorem Watched.built {plan : ChannelPlan} {s₀ s₁ : Shared} {c : Channel}
    (hb : s₀.buildChannel plan = (.ok c, s₁)) (hn : plan.notify = true) :
    Watched c.band ⟨c.memory s₁, .looking, [], 0⟩ := by
  obtain ⟨m, hm⟩ := Shared.buildChannel_memory hb
  refine ⟨[], ⟨Shared.buildChannel_queued hb, nofun, .nil⟩, ?_, ?_, nofun, nofun, nofun⟩
  · show notifies (c.memory s₁) = true
    rw [hm, notifies_writeHeader, hn]
  · show waiters (c.memory s₁) = 0
    rw [hm]
    simp (disch := decide) only [waiters, writeHeader, setProduced, setConsumed,
      Memory.word_setWord_disjoint, Memory.word_setWord_same]
    decide

/-- While the consumer of a channel that notifies sleeps and no producer is amid finalizing, there
is nothing to receive. -/
theorem sleeper_misses_nothing {plan : ChannelPlan} {s₀ s₁ : Shared} {c : Channel} {x : Watch}
    (hb : s₀.buildChannel plan = (.ok c, s₁)) (hn : plan.notify = true)
    (hr : Watch.Run c.band ⟨c.memory s₁, .looking, [], 0⟩ x) {seen : Nat}
    (hs : x.consumer = .asleep seen) (hm : ∀ p ∈ x.producers, ¬p.Midway) :
    (c.band.receive x.memory).1 = .ok none := by
  obtain ⟨q, hheld, halert⟩ := (Watched.built hb hn).run hr
  have hmoved : ¬0 < x.moved := fun hpos => by
    obtain ⟨p, hp, hstage⟩ := halert.woken seen hs hpos
    exact hm p hp (.inr hstage)
  have hready : Queue.ready? q = none := by
    refine Decidable.byContradiction fun hne => ?_
    rcases halert.announced (by rw [hs]; rfl) hne with hpos | ⟨p, hp, hstage⟩
    · exact hmoved hpos
    · exact hm p hp (.inl hstage)
  rw [hheld.receive.1, hready]

def untouched : Watch := ⟨Traffic.firstChannel.memory Traffic.firstShared, .looking, [], 0⟩

def unfinished : Producer := ⟨⟨0, 2⟩, .publishing⟩

def second (stage : Finalizer) : Producer := ⟨⟨16, 1⟩, stage⟩

def overtaken : Watch :=
  let b := Traffic.firstChannel.band
  let x := ((untouched.reserve b 2).reserve b 1).consume b
  let x := x.proceed b [unfinished] (second .publishing) [] false
  let x := (x.proceed b [unfinished] (second .announcing) [] false).consume b
  x.proceed b [unfinished] (second .checking) [] false

def again : Watch :=
  let b := Traffic.firstChannel.band
  ((overtaken.consume b).consume b).consume b

def dozing : Watch :=
  let b := Traffic.firstChannel.band
  (((again.consume b).consume b).consume b).consume b

theorem overtaken_reached : Watch.Run Traffic.firstChannel.band untouched overtaken :=
  ((((((Relation.ReflTransGen.single (.reserve 2)).tail (.reserve 1)).tail
    (.consume fun _ _ => by decide)).tail
    (.proceed [unfinished] (second .publishing) [] rfl false)).tail
    (.proceed [unfinished] (second .announcing) [] rfl false)).tail
    (.consume fun _ _ => by decide)).tail
    (.proceed [unfinished] (second .checking) [] rfl false)

theorem again_reached : Watch.Run Traffic.firstChannel.band untouched again :=
  ((overtaken_reached.tail (.consume fun _ _ => by decide)).tail
    (.consume fun _ _ => by decide)).tail (.consume fun _ _ => by decide)

theorem dozing_reached : Watch.Run Traffic.firstChannel.band untouched dozing :=
  (((again_reached.tail (.consume fun _ _ => by decide)).tail
    (.consume fun _ _ => by decide)).tail (.consume fun _ _ => by decide)).tail
    (.consume fun _ _ => by decide)

theorem sleeper_misses_nothing_of_dozing : dozing.consumer = .asleep 1 ∧
    (Traffic.firstChannel.band.receive dozing.memory).1 = .ok none :=
  have sleeps : dozing.consumer = .asleep 1 := rfl
  ⟨sleeps, sleeper_misses_nothing Traffic.buildChannel_first rfl dozing_reached sleeps (by decide)⟩

end ChainRelay.Ring
