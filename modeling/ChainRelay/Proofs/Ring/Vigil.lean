import ChainRelay.Proofs.Channel.Refill
import ChainRelay.Proofs.Memory.Slices
import ChainRelay.Proofs.Ring.Watch
import ChainRelay.Ring.Patience

/-!
A channel that does not notify. Its producers leave the signal word alone, so that a consumer which
found nothing falls asleep whatever is committed in the meantime, and nobody wakes it
(`Unheard.consume_deciding`, `Unheard.proceed`). With a timeout it sleeps for `longestNap` at most,
looks again and finds what is there (`Unheard.lapse_served`). Without one it sleeps on beside a
record that is ready for it (`Vigil.Forsaken`).
-/

namespace ChainRelay.Ring

/-- How long a consumer with this patience may mean to sleep. -/
def Patience.Allows : Patience → (limit : Option Nat) → Prop
  | endless, limit => limit = none
  | upTo timeout, limit => ∃ nap ≤ min timeout longestNap, limit = some nap

theorem Patience.resolve_allows {p : Patience} {elapsed : Nat} {limit : Option Nat}
    (h : p.resolve elapsed = .sleep limit) : p.Allows limit := by
  cases p with
  | endless =>
    cases h
    rfl
  | upTo timeout =>
    simp only [resolve] at h
    split at h
    · cases h
    · cases h
      exact ⟨_, by omega, rfl⟩

theorem Patience.endless_of_allows {p : Patience} (h : p.Allows none) : p = .endless := by
  cases p with
  | endless => rfl
  | upTo timeout =>
    obtain ⟨nap, -, hn⟩ := h
    cases hn

theorem Patience.upTo_of_allows {p : Patience} {nap : Nat} (h : p.Allows (some nap)) :
    ∃ timeout, p = .upTo timeout ∧ nap ≤ min timeout longestNap := by
  cases p with
  | endless => cases h
  | upTo timeout =>
    obtain ⟨_, hle, hn⟩ := h
    cases hn
    exact ⟨timeout, rfl, hle⟩

@[simp] theorem Caller.become_waiter (c : Caller) : c.become c.waiter = c := by
  cases c <;> rfl

/-- A ring with its producers and a consumer that was called with some patience. -/
structure Vigil where
  memory : Memory
  caller : Caller := .gone
  patience : Patience := .endless
  producers : List Producer := []

namespace Vigil

def watch (x : Vigil) : Watch := ⟨x.memory, x.caller.waiter, x.producers, 0⟩

def under (x : Vigil) (w : Watch) : Vigil :=
  ⟨w.memory, x.caller.become w.consumer, x.patience, w.producers⟩

def reserve (b : Band) (x : Vigil) (size : Nat) : Vigil := x.under (x.watch.reserve b size)

def proceed (b : Band) (x : Vigil) (pre : List Producer) (p : Producer) (post : List Producer)
    (discard : Bool) : Vigil := x.under (x.watch.proceed b pre p post discard)

def consume (b : Band) (x : Vigil) (elapsed : Nat) : Vigil :=
  let (caller, memory) := x.caller.step b x.patience elapsed x.memory
  { x with memory, caller }

def lapse (x : Vigil) : Vigil := { x with caller := x.caller.lapse }

/-- One atomic step of any party, or the passing of time. -/
inductive Move (b : Band) (x : Vigil) : Vigil → Prop where
  | reserve (size : Nat) : Move b x (x.reserve b size)
  | write {p : Producer} (holds : p ∈ x.producers) (writing : p.stage = .publishing) (pos : Nat)
      (bytes : Bytes) : Move b x { x with memory := b.write p.slot pos bytes x.memory }
  | proceed (pre : List Producer) (p : Producer) (post : List Producer)
      (holds : x.producers = pre ++ p :: post) (discard : Bool) :
      Move b x (x.proceed b pre p post discard)
  | consume (elapsed : Nat) : Move b x (x.consume b elapsed)
  | lapse : Move b x x.lapse
  /-- The consumer comes for a record, with whatever patience. -/
  | call (outside : x.caller.waiter.outside) (patience : Patience) :
      Move b x { x with caller := .arriving, patience }
  /-- Or takes what there is without waiting. -/
  | poll (outside : x.caller.waiter.outside) :
      Move b x { x with memory := (b.receive x.memory).2 }

/-- A sleep may also end for no reason. -/
inductive Step (b : Band) (x : Vigil) : Vigil → Prop where
  | move {y : Vigil} (moves : Move b x y) : Step b x y
  | rouse {seen : Nat} {limit : Option Nat} (sleeps : x.caller = .waiting (.asleep seen) limit) :
      Step b x { x with caller := .waiting .leaving limit }

abbrev Run (b : Band) : Vigil → Vigil → Prop := Relation.ReflTransGen (Step b)

/-- A run in which no sleep ends for no reason. -/
abbrev Course (b : Band) : Vigil → Vigil → Prop := Relation.ReflTransGen (Move b)

/-- The consumer sleeps without a limit, while no producer is amid finalizing and there is a record
for it. -/
def Forsaken (b : Band) (x : Vigil) (record : Bytes) : Prop :=
  (∃ seen, x.caller = .waiting (.asleep seen) none) ∧ (∀ p ∈ x.producers, ¬p.Midway) ∧
    (b.receive x.memory).1 = .ok (some record)

section Operations

variable {b : Band} {x : Vigil} {m : Memory} {pre post : List Producer} {p : Producer}

@[simp] theorem consume_producers (elapsed : Nat) :
    (x.consume b elapsed).producers = x.producers := rfl

theorem reserve_granted {size : Nat} {slot : Slot} (h : b.reserve size x.memory = (.ok slot, m)) :
    x.reserve b size =
      { x with memory := m, producers := x.producers ++ [⟨slot, .publishing⟩] } := by
  simp [reserve, under, watch, Watch.reserve, h]

theorem reserve_refused {size : Nat} {e : ReserveError}
    (h : b.reserve size x.memory = (.error e, m)) : x.reserve b size = { x with memory := m } := by
  simp [reserve, under, watch, Watch.reserve, h]

theorem proceed_publishing {discard : Bool} (hp : p.stage = .publishing)
    (hn : notifies (b.publish p.slot discard x.memory) = false) :
    x.proceed b pre p post discard =
      { x with
        memory := b.publish p.slot discard x.memory
        producers := pre ++ { p with stage := .finished } :: post } := by
  simp [proceed, under, watch, Watch.proceed, Finalizer.step, hp, hn]

theorem proceed_finished {discard : Bool} (hx : x.producers = pre ++ p :: post)
    (hp : p.stage = .finished) : x.proceed b pre p post discard = x := by
  have hp' : { p with stage := .finished } = p := by
    cases p
    simp_all
  simp [proceed, under, watch, Watch.proceed, Finalizer.step, hp, hp', ← hx]

end Operations
end Vigil

/-- Nobody hears of a record in a channel that does not notify: the signal word is what the consumer
saw, and there is nothing to finalizing but to publish. -/
structure Unheard (b : Band) (x : Vigil) (q : List Booking) : Prop where
  held : Held b x.memory x.producers q
  silent : notifies x.memory = false
  settled : ∀ p ∈ x.producers, p.stage = .publishing ∨ p.stage = .finished
  signal_eq : ∀ seen, x.caller.waiter.seen? = some seen → signal x.memory = seen
  allowed : ∀ w limit, x.caller = .waiting w limit → w.registered = true → x.patience.Allows limit

/-- What a producer did has not reached the consumer, and has left it what was ready. -/
structure Unnoticed (x y : Vigil) (q q' : List Booking) : Prop where
  caller_eq : y.caller = x.caller
  ready : ∀ record, Queue.ready? q = some record → Queue.ready? q' = some record

namespace Unheard

variable {b : Band} {x y : Vigil} {q : List Booking} {pre post : List Producer} {p : Producer}

theorem not_midway (h : Unheard b x q) : ∀ p ∈ x.producers, ¬p.Midway := by
  intro p hp hm
  rcases h.settled p hp with hs | hs <;> simp [Producer.Midway, hs] at hm

/-- A consumer that is outside of the loop has seen and promised nothing. -/
theorem of_outside (hheld : Held b x.memory x.producers q) (hsilent : notifies x.memory = false)
    (hsettled : ∀ p ∈ x.producers, p.stage = .publishing ∨ p.stage = .finished)
    (hout : x.caller.waiter.outside = true) : Unheard b x q where
  held := hheld
  silent := hsilent
  settled := hsettled
  signal_eq seen hs := by
    rw [Waiter.seen?_of_outside hout] at hs
    cases hs
  allowed w limit hc hw := by
    have hout : w.outside = true := by rwa [hc] at hout
    rw [Waiter.registered_of_outside hout] at hw
    cases hw

/-- The queue tells what the consumer would get. -/
theorem receive_eq (h : Unheard b x q) : (b.receive x.memory).1 = .ok (Queue.ready? q) :=
  h.held.receive.1

theorem silent_publish (h : Unheard b x q) (slot : Slot) (discard : Bool) :
    notifies (b.publish slot discard x.memory) = false :=
  (control_of_agrees (Band.publish_agrees h.held.queued.offset_min slot discard x.memory)).1.trans
    h.silent

/-- An operation of someone who does not touch the flags and the signal word. -/
theorem operate (h : Unheard b x q) {m : Memory} {producers : List Producer} {q' : List Booking}
    (hm : x.memory.Agrees m 0 40) (hheld : Held b m producers q')
    (hsettled : ∀ p ∈ producers, p.stage = .publishing ∨ p.stage = .finished) :
    Unheard b { x with memory := m, producers } q' where
  held := hheld
  silent := (control_of_agrees hm).1.trans h.silent
  settled := hsettled
  signal_eq seen hs := (control_of_agrees hm).2.1.trans (h.signal_eq seen hs)
  allowed := h.allowed

/-- The consumer goes elsewhere, and the memory it leaves has its flags and its signal word. -/
theorem wander (h : Unheard b x q) {m : Memory} {caller : Caller} {q' : List Booking}
    (hm : x.memory.Agrees m 0 36) (hheld : Held b m x.producers q')
    (hseen : ∀ seen, caller.waiter.seen? = some seen → signal x.memory = seen)
    (hallowed : ∀ w limit, caller = .waiting w limit → w.registered = true →
      x.patience.Allows limit) : Unheard b { x with memory := m, caller } q' where
  held := hheld
  silent := (notifies_of_agrees (hm.mono (by decide) (by decide))).trans h.silent
  settled := h.settled
  signal_eq seen hs := (signal_of_agrees (hm.mono (by decide) (by decide))).trans (hseen seen hs)
  allowed := hallowed

/-- It is done, it gives up or it starts again. -/
theorem depart (h : Unheard b x q) {m : Memory} {caller : Caller} {q' : List Booking}
    (hm : x.memory.Agrees m 0 36) (hheld : Held b m x.producers q')
    (hout : caller.waiter.outside = true) : Unheard b { x with memory := m, caller } q' :=
  of_outside hheld ((notifies_of_agrees (hm.mono (by decide) (by decide))).trans h.silent)
    h.settled hout

theorem reserve (h : Unheard b x q) (size : Nat) :
    ∃ q', Unheard b (x.reserve b size) q' ∧ Unnoticed x (x.reserve b size) q q' := by
  have hm := Band.reserve_agrees h.held.queued.offset_min size x.memory
  rcases h.held.queued.reserve size with ⟨k, m', he, -, hw, hq⟩ | ⟨e, m', he, hq, -⟩
  · rw [he] at hm
    rw [Vigil.reserve_granted he]
    refine ⟨q ++ [k], h.operate hm (h.held.granted hq hw) fun p hp => ?_, rfl, fun record hr => ?_⟩
    · rcases List.mem_append.mp hp with hp | hp
      · exact h.settled p hp
      · obtain rfl := List.mem_singleton.mp hp
        exact .inl rfl
    · exact (Queue.ready?_writing hw).trans hr
  · rw [he] at hm
    rw [Vigil.reserve_refused he]
    have hheld : Held b m' x.producers q := ⟨hq, h.held.writing, h.held.apart⟩
    exact ⟨q, h.operate hm hheld h.settled, rfl, fun _ => id⟩

theorem write (h : Unheard b x q) (hp : p ∈ x.producers) (hw : p.stage = .publishing) (pos : Nat)
    (bytes : Bytes) : ∃ q', Unheard b { x with memory := b.write p.slot pos bytes x.memory } q' ∧
      Unnoticed x { x with memory := b.write p.slot pos bytes x.memory } q q' := by
  have hm := Band.write_agrees h.held.queued.offset_min p.slot pos bytes x.memory
  obtain ⟨q', hready, hheld⟩ := h.held.write hp hw pos bytes
  exact ⟨q', h.operate hm hheld h.settled, rfl, fun _ hr => hready.trans hr⟩

/-- Finalizing is over when the record is published, and the consumer notices nothing. -/
theorem proceed (h : Unheard b x q) (hx : x.producers = pre ++ p :: post) (discard : Bool) :
    ∃ q', Unheard b (x.proceed b pre p post discard) q' ∧
      Unnoticed x (x.proceed b pre p post discard) q q' := by
  rcases h.settled p (by simp [hx]) with hp | hp
  · have hm := Band.publish_agrees h.held.queued.offset_min p.slot discard x.memory
    obtain ⟨q', hkeeps, hheld⟩ :=
      (hx ▸ h.held).publish hp discard { p with stage := .finished } (by simp)
    rw [Vigil.proceed_publishing hp (h.silent_publish p.slot discard)]
    refine ⟨q', h.operate hm hheld fun d hd => ?_, rfl, hkeeps⟩
    rcases List.mem_append.mp hd with hd | hd
    · exact h.settled d (by simp [hx, hd])
    · rcases List.mem_cons.mp hd with rfl | hd
      · exact .inr rfl
      · exact h.settled d (by simp [hx, hd])
  · rw [Vigil.proceed_finished hx hp]
    exact ⟨q, h, rfl, fun _ => id⟩

/-- The test before the sleep never fails. -/
theorem consume_deciding (h : Unheard b x q) {seen : Nat} {limit : Option Nat}
    (hc : x.caller = .waiting (.deciding seen) limit) (elapsed : Nat) :
    x.consume b elapsed = { x with caller := .waiting (.asleep seen) limit } := by
  have hs : signal x.memory = seen := h.signal_eq seen (by rw [hc]; rfl)
  simp [Vigil.consume, Caller.step, Waiter.step, hc, hs]

theorem sleep (h : Unheard b x q) {seen : Nat} {limit : Option Nat}
    (hc : x.caller = .waiting (.deciding seen) limit) :
    Unheard b { x with caller := .waiting (.asleep seen) limit } q := by
  refine h.wander (.refl _ _ _) h.held (fun _ hs => h.signal_eq _ (by rw [hc]; exact hs)) ?_
  rintro _ _ ⟨⟩ -
  exact h.allowed _ _ hc rfl

/-- The consumer goes from one place of its loop to the next, or gives up. -/
theorem consume (h : Unheard b x q) (elapsed : Nat) : ∃ q', Unheard b (x.consume b elapsed) q' := by
  have hkept (v : Nat) : x.memory.Agrees (setWaiters x.memory v) 0 36 :=
    setWaiters_agrees _ _ (.inl (by decide))
  obtain ⟨memory, caller, patience, producers⟩ := x
  cases caller with
  | gone => exact ⟨q, h⟩
  | waiting w limit =>
    cases w with
    | looking =>
      refine ⟨q, h.wander (.refl _ _ _) h.held (fun _ hs => Option.some.inj hs) ?_⟩
      rintro _ _ ⟨⟩ ⟨⟩
    | trying seen =>
      have hanswer : (b.receive memory).1 = .ok (Queue.ready? q) := h.receive_eq
      have hheld : Held b (b.receive memory).2 producers (Queue.rest q) := h.held.receive.2
      have hm : memory.Agrees (b.receive memory).2 0 36 :=
        (b.receive_agrees memory).mono (by decide) (by decide)
      refine ⟨Queue.rest q, ?_⟩
      simp only [Vigil.consume, Caller.step, Waiter.step]
      rcases he : b.receive memory with ⟨answer, m'⟩
      rw [he] at hanswer hheld hm
      obtain rfl : answer = .ok (Queue.ready? q) := hanswer
      cases Queue.ready? q with
      | some record => exact h.depart hm hheld rfl
      | none =>
        refine h.wander hm hheld (fun _ hs => h.signal_eq _ hs) ?_
        rintro _ _ ⟨⟩ ⟨⟩
    | registering seen =>
      -- Here the consumer gives up or settles how long it will sleep.
      simp only [Vigil.consume, Caller.step]
      cases hr : patience.resolve elapsed with
      | giveUp => exact ⟨q, h.depart (.refl _ _ _) h.held rfl⟩
      | sleep nap =>
        refine ⟨q, h.wander (hkept _) (h.held.recounted _) (fun _ hs => h.signal_eq _ hs) ?_⟩
        rintro _ _ ⟨⟩ -
        exact Patience.resolve_allows hr
    | deciding seen =>
      rw [h.consume_deciding rfl]
      exact ⟨q, h.sleep rfl⟩
    | leaving => exact ⟨q, h.depart (hkept _) (h.held.recounted _) rfl⟩
    | asleep | served | failed => exact ⟨q, h⟩

/-- The consumer gets up. -/
theorem rise (h : Unheard b x q) {limit : Option Nat} {w : Waiter}
    (hc : x.caller = .waiting w limit) (hw : w.registered = true) :
    Unheard b { x with caller := .waiting .leaving limit } q := by
  refine h.wander (.refl _ _ _) h.held (by rintro _ ⟨⟩) ?_
  rintro _ _ ⟨⟩ -
  exact h.allowed _ _ hc hw

theorem lapse (h : Unheard b x q) : Unheard b x.lapse q := by
  obtain ⟨memory, caller, patience, producers⟩ := x
  rcases caller with ⟨w, - | nap⟩ | -
  · exact h
  · cases w with
    | asleep seen => exact h.rise rfl rfl
    | looking | trying | registering | deciding | leaving | served | failed => exact h
  · exact h

theorem move (h : Unheard b x q) (hm : Vigil.Move b x y) : ∃ q', Unheard b y q' := by
  cases hm with
  | reserve size =>
    obtain ⟨q', h', -⟩ := h.reserve size
    exact ⟨q', h'⟩
  | write holds writing pos bytes =>
    obtain ⟨q', h', -⟩ := h.write holds writing pos bytes
    exact ⟨q', h'⟩
  | proceed pre p post hx discard =>
    obtain ⟨q', h', -⟩ := h.proceed hx discard
    exact ⟨q', h'⟩
  | consume elapsed => exact h.consume elapsed
  | lapse => exact ⟨q, h.lapse⟩
  | call outside patience => exact ⟨q, .of_outside h.held h.silent h.settled rfl⟩
  | poll outside => exact ⟨_, h.operate (b.receive_agrees x.memory) h.held.receive.2 h.settled⟩

theorem step (h : Unheard b x q) (hs : Vigil.Step b x y) : ∃ q', Unheard b y q' := by
  cases hs with
  | move moves => exact h.move moves
  | rouse sleeps => exact ⟨q, h.rise sleeps rfl⟩

theorem run (h : Unheard b x q) (hr : Vigil.Run b x y) : ∃ q', Unheard b y q' := by
  induction hr with
  | refl => exact ⟨q, h⟩
  | tail _ hs ih =>
    obtain ⟨q', h'⟩ := ih
    exact h'.step hs

/-! ### The sleeper -/

/-- Without a limit a sleep lasts, and what is ready stays there: only producers can move, and none
of them gets as far as looking for sleepers. -/
theorem sleep_on (h : Unheard b x q) {seen : Nat} (hs : x.caller = .waiting (.asleep seen) none)
    (hm : Vigil.Move b x y) : ∃ q', Unheard b y q' ∧ Unnoticed x y q q' := by
  have hinside : ¬x.caller.waiter.outside := by simp [hs, Caller.waiter, Waiter.outside]
  cases hm with
  | reserve size => exact h.reserve size
  | write holds writing pos bytes => exact h.write holds writing pos bytes
  | proceed pre p post hx discard => exact h.proceed hx discard
  | consume elapsed =>
    have hsame : x.consume b elapsed = x := by
      obtain ⟨memory, caller, patience, producers⟩ := x
      obtain rfl : caller = _ := hs
      rfl
    rw [hsame]
    exact ⟨q, h, rfl, fun _ => id⟩
  | lapse =>
    have hsame : x.lapse = x := by
      obtain ⟨memory, caller, patience, producers⟩ := x
      obtain rfl : caller = _ := hs
      rfl
    rw [hsame]
    exact ⟨q, h, rfl, fun _ => id⟩
  | call outside => exact absurd outside hinside
  | poll outside => exact absurd outside hinside

theorem sleep_on_course (h : Unheard b x q) {seen : Nat}
    (hs : x.caller = .waiting (.asleep seen) none) (hc : Vigil.Course b x y) :
    ∃ q', Unheard b y q' ∧ Unnoticed x y q q' := by
  induction hc with
  | refl => exact ⟨q, h, rfl, fun _ => id⟩
  | tail _ hm ih =>
    obtain ⟨q', h', hkeep⟩ := ih
    obtain ⟨q'', h'', hnext⟩ := h'.sleep_on (hkeep.caller_eq.trans hs) hm
    exact ⟨q'', h'', hnext.caller_eq.trans hkeep.caller_eq,
      fun record hr => hnext.ready record (hkeep.ready record hr)⟩

/-- If no sleep ends for no reason, a forsaken consumer stays forsaken. -/
theorem forsaken_course (h : Unheard b x q) {record : Bytes} (hf : x.Forsaken b record)
    (hc : Vigil.Course b x y) : y.Forsaken b record := by
  obtain ⟨⟨seen, hs⟩, -, hready⟩ := hf
  have hready : Queue.ready? q = some record := Except.ok.inj (h.receive_eq.symm.trans hready)
  obtain ⟨q', h', hkeep⟩ := h.sleep_on_course hs hc
  refine ⟨⟨seen, hkeep.caller_eq.trans hs⟩, h'.not_midway, ?_⟩
  rw [h'.receive_eq, hkeep.ready record hready]

/-- A sleep that has a limit ends with what has become ready. -/
theorem lapse_served (h : Unheard b x q) {seen nap : Nat}
    (hs : x.caller = .waiting (.asleep seen) (some nap)) {record : Bytes}
    (hr : (b.receive x.memory).1 = .ok (some record)) (e₁ e₂ e₃ : Nat) :
    (((x.lapse.consume b e₁).consume b e₂).consume b e₃).caller =
      .waiting (.served record) (some nap) := by
  have hheld := h.held.recounted (waiters x.memory + 0xFFFFFFFF)
  have hanswer := hheld.receive.1.trans (h.receive_eq.symm.trans hr)
  rcases he : b.receive (setWaiters x.memory (waiters x.memory + 0xFFFFFFFF)) with ⟨answer, m⟩
  rw [he] at hanswer
  obtain rfl : answer = .ok (some record) := hanswer
  simp [Vigil.lapse, Caller.lapse, Waiter.wake, Vigil.consume, Caller.step, Waiter.step, hs, he]

/-- A consumer that waits endlessly and finds nothing falls asleep without a limit. -/
theorem falls_asleep (h : Unheard b x q) (hc : x.caller = .arriving)
    (hp : x.patience = .endless) (hr : Queue.ready? q = none) :
    ∃ y seen, Vigil.Course b x y ∧ y.caller = .waiting (.asleep seen) none ∧
      y.producers = x.producers ∧ Unheard b y (Queue.rest q) := by
  have hanswer := h.receive_eq
  have hheld := h.held.receive.2
  have hm : x.memory.Agrees (b.receive x.memory).2 0 36 :=
    (b.receive_agrees x.memory).mono (by decide) (by decide)
  rcases he : b.receive x.memory with ⟨answer, m⟩
  rw [he] at hanswer hheld hm
  obtain rfl : answer = .ok (Queue.ready? q) := hanswer
  rw [hr] at he
  -- It looks, tries and registers; the fourth step is the test that never fails.
  let y : Vigil := { x with
    memory := setWaiters m (waiters m + 1), caller := .waiting (.deciding (signal x.memory)) none }
  have hy : ((x.consume b 0).consume b 0).consume b 0 = y := by
    simp [y, Vigil.consume, Caller.step, Waiter.step, Caller.arriving, Patience.resolve, hc, hp, he]
  have hcourse : Vigil.Course b x y := hy ▸
    ((Relation.ReflTransGen.single (.consume 0)).tail (.consume 0)).tail (.consume 0)
  have hunheard : Unheard b y (Queue.rest q) := by
    refine h.wander (hm.trans (setWaiters_agrees _ _ (.inl (by decide))))
      (hheld.recounted _) (fun _ hs => Option.some.inj hs) ?_
    rintro _ _ ⟨⟩ -
    rw [hp]
    rfl
  have hasleep : Vigil.Course b x
      { y with caller := .waiting (.asleep (signal x.memory)) none } :=
    hunheard.consume_deciding rfl 0 ▸ hcourse.tail (.consume 0)
  exact ⟨_, signal x.memory, hasleep, rfl, rfl, hunheard.sleep rfl⟩

/-- Committing the oldest reservation makes it ready. -/
theorem commit_first (h : Unheard b x q) {k : Booking} {behind : List Booking}
    (hq : q = k :: behind) (hw : k.phase = .writing) (hslot : k.slot = p.slot)
    (hp : p.stage = .publishing) :
    (b.receive (x.proceed b pre p post false).memory).1 = .ok (some k.data) := by
  have hfirst : b.Queued x.memory ([] ++ k :: behind) := hq ▸ h.held.queued
  obtain ⟨m, he, -⟩ := (hfirst.publish hw false).receive
  rw [Vigil.proceed_publishing hp (h.silent_publish p.slot false), ← hslot, he]
  rfl

end Unheard

/-- A fresh band has room for every record that it can hold at all. -/
theorem Band.Queued.reserve_fresh {b : Band} {m : Memory} (h : b.Queued m [])
    (hmin : minCapacity ≤ b.capacity) (hmod : b.capacity % 32 = 0) (hlt : b.capacity < sizeLimit)
    (hp : produced m = 0) {size : Nat} (hpos : size ≠ 0) (hle : size ≤ b.longest) :
    ∃ k m', b.reserve size m = (.ok k.slot, m') ∧ k.data.length = size ∧ k.phase = .writing ∧
      b.Queued m' [k] := by
  have hused : b.used m = 0 := by simp [used, hp]
  have hstay : ¬b.Exhausted m size := by
    have hspan : span size ≤ b.capacity := by
      simp only [longest, recordHeaderSize, minCapacity] at hle hmin
      unfold span
      omega
    simp only [Exhausted, placement, hp, Nat.zero_mod, Nat.zero_add, if_neg (Nat.not_lt.mpr hspan)]
    omega
  rcases h.reserve size with hgranted | ⟨e, m', he, -⟩
  · exact hgranted
  · rcases h.reserve_half hmod (by omega) hpos hle with ⟨slot, m'', he', -⟩ | ⟨m'', -, hover⟩
    · cases he.symm.trans he'
    · exact absurd hover hstay

namespace Vigil

def start (m : Memory) : Vigil := { memory := m }

variable {plan : ChannelPlan} {s₀ s₁ : Shared} {c : Channel}

theorem start_unheard (hb : s₀.buildChannel plan = (.ok c, s₁)) (hn : plan.notify = false) :
    Unheard c.band (start (c.memory s₁)) [] := by
  obtain ⟨m, hm⟩ := Shared.buildChannel_memory hb
  have hnone : ∀ p ∈ (start (c.memory s₁)).producers, p.stage = .publishing ∨ p.stage = .finished :=
    List.forall_mem_nil _
  have hsilent : notifies (c.memory s₁) = false := by rw [hm, notifies_writeHeader, hn]
  exact .of_outside ⟨Shared.buildChannel_queued hb, List.forall_mem_nil _, .nil⟩ hsilent hnone rfl

theorem produced_start (hb : s₀.buildChannel plan = (.ok c, s₁)) :
    produced (c.memory s₁) = 0 := by
  obtain ⟨m, hm⟩ := Shared.buildChannel_memory hb
  rw [hm]
  simp only [writeHeader, produced_setConsumed, produced_setProduced, Nat.zero_mod]

/-- A record of any admissible size is reserved and written, and then the consumer comes. -/
theorem exists_written (hb : s₀.buildChannel plan = (.ok c, s₁)) (hn : plan.notify = false)
    {record : Bytes} (hpos : record ≠ []) (hle : record.length ≤ c.band.longest) :
    ∃ x k, Course c.band (start (c.memory s₁)) x ∧ Unheard c.band x [k] ∧
      k.phase = .writing ∧ k.data = record ∧ x.caller = .arriving ∧ x.patience = .endless ∧
      x.producers = [⟨k.slot, .publishing⟩] := by
  have hstart := start_unheard hb hn
  have hho := hstart.held.queued.offset_min
  obtain ⟨hmin, hmod⟩ := Shared.bandCapacity_mod (Shared.buildChannel_band hb).2
  have hlt := (Shared.regular_of_bandCapacity (Shared.buildChannel_band hb).2).2
  obtain ⟨d, m, he, hlen, hw, hq⟩ := (Shared.buildChannel_queued hb).reserve_fresh hmin hmod hlt
    (produced_start hb) (mt List.length_eq_zero_iff.mp hpos) hle
  let k : Booking := { d with data := record }
  have hslot : k.slot = d.slot := by simp [k, Booking.slot, hlen]
  let x : Vigil := ⟨c.band.write d.slot 0 record m, .arriving, .endless, [⟨d.slot, .publishing⟩]⟩
  have hcourse : Course c.band (start (c.memory s₁)) x := by
    have hreserved : Move c.band (start (c.memory s₁))
        ⟨m, .gone, .endless, [⟨d.slot, .publishing⟩]⟩ :=
      reserve_granted (x := start (c.memory s₁)) he ▸ .reserve record.length
    exact ((Relation.ReflTransGen.single hreserved).tail
      (.write List.mem_cons_self rfl 0 record)).tail (.call rfl .endless)
  have hqueued : c.band.Queued x.memory [k] := by
    have hfull : d.data.overlay 0 record = record := by
      rw [Bytes.overlay_zero (Nat.le_of_eq hlen.symm), List.drop_eq_nil_of_le (Nat.le_of_eq hlen),
        List.append_nil]
    have hfirst : c.band.Queued m ([] ++ [d]) := hq
    simpa [hfull] using hfirst.write hw 0 record
  have hsilent : notifies x.memory = false := by
    have hm := Band.reserve_agrees hho record.length (c.memory s₁)
    rw [show c.band.reserve record.length (c.memory s₁) = (.ok d.slot, m) from he] at hm
    exact (control_of_agrees (hm.trans (Band.write_agrees hho d.slot 0 record m))).1.trans
      hstart.silent
  refine ⟨x, k, hcourse, .of_outside ⟨hqueued, fun p hp _ => ?_, List.pairwise_singleton _ _⟩
    hsilent (fun p hp => ?_) rfl, hw, rfl, rfl, rfl, by rw [hslot]⟩
  · obtain rfl := List.mem_singleton.mp hp
    exact ⟨k, List.mem_singleton_self k, hw, hslot⟩
  · obtain rfl := List.mem_singleton.mp hp
    exact .inl rfl

/-- Every record that the channel can hold may be committed beside a consumer that sleeps on. -/
theorem exists_forsaken (hb : s₀.buildChannel plan = (.ok c, s₁)) (hn : plan.notify = false)
    {record : Bytes} (hpos : record ≠ []) (hle : record.length ≤ c.band.longest) :
    ∃ x, Course c.band (start (c.memory s₁)) x ∧ x.Forsaken c.band record := by
  obtain ⟨x, k, hcourse, hx, hw, rfl, hc, hp, hproducers⟩ := exists_written hb hn hpos hle
  obtain ⟨y, seen, hxy, hs, hsame, hy⟩ := hx.falls_asleep hc hp (by simp [Queue.ready?, hw])
  -- Only now, when the consumer sleeps, the record is committed.
  have hmove : Move c.band y (y.proceed c.band [] ⟨k.slot, .publishing⟩ [] false) :=
    .proceed [] _ [] (hsame.trans hproducers) false
  obtain ⟨_, hz, hkeep⟩ := hy.sleep_on hs hmove
  have hrest : Queue.rest [k] = [k] := by simp [Queue.rest, hw]
  exact ⟨_, (hcourse.trans hxy).tail hmove, ⟨seen, hkeep.caller_eq.trans hs⟩, hz.not_midway,
    hy.commit_first hrest hw rfl rfl⟩

/-- A consumer of a channel that does not notify sleeps on beside a record only if it waits
endlessly, and then for good; with a timeout it finds the record after a short sleep. -/
theorem only_endless_sleep_is_forsaken (hb : s₀.buildChannel plan = (.ok c, s₁))
    (hn : plan.notify = false) :
    (∀ record, record ≠ [] → record.length ≤ c.band.longest →
      ∃ x, Run c.band (start (c.memory s₁)) x ∧ x.Forsaken c.band record) ∧
    ∀ x, Run c.band (start (c.memory s₁)) x →
      (∀ p ∈ x.producers, ¬p.Midway) ∧
      (∀ seen, x.caller = .waiting (.asleep seen) none → x.patience = .endless ∧
        ∀ y, Course c.band x y → y.caller = x.caller ∧
          ∀ record, x.Forsaken c.band record → y.Forsaken c.band record) ∧
      ∀ seen nap, x.caller = .waiting (.asleep seen) (some nap) →
        (∃ timeout, x.patience = .upTo timeout ∧ nap ≤ min timeout longestNap) ∧
        ∀ record, (c.band.receive x.memory).1 = .ok (some record) → ∀ e₁ e₂ e₃,
          (((x.lapse.consume c.band e₁).consume c.band e₂).consume c.band e₃).caller =
            .waiting (.served record) (some nap) := by
  refine ⟨fun record hpos hle => ?_, fun x hr => ?_⟩
  · obtain ⟨x, hcourse, hf⟩ := exists_forsaken hb hn hpos hle
    exact ⟨x, Relation.ReflTransGen.mono (fun _ _ => .move) _ _ hcourse, hf⟩
  obtain ⟨q, hx⟩ := (start_unheard hb hn).run hr
  refine ⟨hx.not_midway, fun seen hs => ⟨?_, fun y hc => ⟨?_, fun record hf => ?_⟩⟩,
    fun seen nap hs => ⟨?_, fun record hready => ?_⟩⟩
  · exact Patience.endless_of_allows (hx.allowed _ _ hs rfl)
  · obtain ⟨_, -, hkeep⟩ := hx.sleep_on_course hs hc
    exact hkeep.caller_eq
  · exact hx.forsaken_course hf hc
  · exact Patience.upTo_of_allows (hx.allowed _ _ hs rfl)
  · exact hx.lapse_served hs hready

def silentChannel : Channel := ⟨1, ⟨headerSpan, 1048576⟩, none⟩

def silentShared : Shared := (Traffic.firstShared.buildChannel { notify := false }).2

theorem buildChannel_silent : Traffic.firstShared.buildChannel { notify := false } =
    (.ok silentChannel, silentShared) := rfl

def written : Vigil :=
  let b := silentChannel.band
  let x := (start (silentChannel.memory silentShared)).reserve b 1
  { x with memory := b.write ⟨0, 1⟩ 0 [7] x.memory }

def sleeping (patience : Patience) : Vigil :=
  let b := silentChannel.band
  let x : Vigil := { written with caller := .arriving, patience }
  (((x.consume b 0).consume b 0).consume b 0).consume b 0

def unwoken (patience : Patience) : Vigil :=
  (sleeping patience).proceed silentChannel.band [] ⟨⟨0, 1⟩, .publishing⟩ [] false

theorem written_reached : Course silentChannel.band
    (start (silentChannel.memory silentShared)) written :=
  (Relation.ReflTransGen.single (.reserve 1)).tail
    (.write (p := ⟨⟨0, 1⟩, .publishing⟩) List.mem_cons_self rfl 0 [7])

theorem sleeping_reached (patience : Patience) : Course silentChannel.band
    (start (silentChannel.memory silentShared)) (sleeping patience) :=
  ((((written_reached.tail (.call rfl patience)).tail (.consume 0)).tail (.consume 0)).tail
    (.consume 0)).tail (.consume 0)

theorem sleeping_producers (patience : Patience) :
    (sleeping patience).producers = [⟨⟨0, 1⟩, .publishing⟩] := by
  simp only [sleeping, consume_producers]
  rfl

theorem unwoken_reached (patience : Patience) : Run silentChannel.band
    (start (silentChannel.memory silentShared)) (unwoken patience) :=
  Relation.ReflTransGen.mono (fun _ _ => .move) _ _
    ((sleeping_reached patience).tail (.proceed [] _ [] (sleeping_producers patience) false))

theorem only_endless_sleep_is_forsaken_unwoken :
    (unwoken .endless).Forsaken silentChannel.band [7] ∧
    (∀ y, Course silentChannel.band (unwoken .endless) y →
      y.Forsaken silentChannel.band [7]) ∧
    (unwoken (.upTo 30000000)).caller = .waiting (.asleep 0) (some longestNap) ∧
    ((((unwoken (.upTo 30000000)).lapse.consume silentChannel.band longestNap).consume
      silentChannel.band longestNap).consume silentChannel.band longestNap).caller =
        .waiting (.served [7]) (some longestNap) := by
  have hruns := (only_endless_sleep_is_forsaken buildChannel_silent rfl).2
  have hendless : (unwoken .endless).Forsaken silentChannel.band [7] :=
    ⟨⟨0, rfl⟩, by decide, rfl⟩
  have htimed : (unwoken (.upTo 30000000)).caller = .waiting (.asleep 0) (some longestNap) := rfl
  have hsleeper := ((hruns _ (unwoken_reached .endless)).2.1 0 rfl).2
  have hnapper := ((hruns _ (unwoken_reached (.upTo 30000000))).2.2 0 longestNap htimed).2
  exact ⟨hendless, fun y hc => (hsleeper y hc).2 [7] hendless, htimed, hnapper [7] rfl _ _ _⟩

end Vigil
end ChainRelay.Ring
