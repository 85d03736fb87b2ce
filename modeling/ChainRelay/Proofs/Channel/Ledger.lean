import ChainRelay.Channel
import ChainRelay.Proofs.Memory.Agreement

/-!
What a channel promises, said without a band. A ledger lists all reservations ever granted, in their
order; the consumer gets the oldest that is committed and not received, and nothing while one before
it is still being written.
-/

namespace ChainRelay

inductive Fate where
  | writing
  | committed
  | discarded
  | received
  deriving DecidableEq

structure Entry where
  data : Bytes
  fate : Fate
  deriving DecidableEq

/-- The consumer is done with it. -/
def Entry.Settled (e : Entry) : Prop := e.fate = .discarded ∨ e.fate = .received

/-- What happens at a channel. A reservation is named by the number of those granted before it. -/
inductive ChannelEvent where
  | attached
  /-- The bytes are what the band happened to hold. -/
  | reserved (size : Nat) (held : Bytes)
  | refused (size : Nat) (cause : ReserveError)
  | wrote (ticket pos : Nat) (bytes : Bytes)
  /-- The bytes are those in the reservation at this moment. -/
  | committed (ticket : Nat) (held : Bytes)
  | discarded (ticket : Nat)
  | received (answer : Except Overflow (Option Bytes))
  /-- Something that leaves the channel's region alone. -/
  | elsewhere

def ChannelEvent.ticket? : ChannelEvent → Option Nat
  | wrote ticket .. | committed ticket _ | discarded ticket => some ticket
  | attached | reserved .. | refused .. | received _ | elsewhere => none

abbrev Ledger := List Entry

namespace Ledger

def front? : Ledger → Option Bytes
  | [] => none
  | e :: l =>
    match e.fate with
    | .writing => none
    | .committed => some e.data
    | .discarded | .received => front? l

/-- What the consumer can take before it has to wait. -/
def ready : Ledger → List Bytes
  | [] => []
  | e :: l =>
    match e.fate with
    | .writing => []
    | .committed => e.data :: ready l
    | .discarded | .received => ready l

def taken : Ledger → Ledger
  | [] => []
  | e :: l =>
    match e.fate with
    | .writing => e :: l
    | .committed => { e with fate := .received } :: l
    | .discarded | .received => e :: taken l

def next (l : Ledger) : ChannelEvent → Ledger
  | .reserved _ held => l ++ [⟨held, .writing⟩]
  | .wrote ticket pos bytes => l.modify ticket fun e => { e with data := e.data.overlay pos bytes }
  | .committed ticket _ => l.modify ticket fun e => { e with fate := .committed }
  | .discarded ticket => l.modify ticket fun e => { e with fate := .discarded }
  | .received _ => l.taken
  | .attached | .refused .. | .elsewhere => l

/-- The reservation is held by someone who has not finalized it. -/
def Open (l : Ledger) (ticket : Nat) : Prop := ∃ data, l[ticket]? = some ⟨data, .writing⟩

def Allows (l : Ledger) : ChannelEvent → Prop
  | .reserved size held => held.length = size
  | .wrote ticket _ _ | .discarded ticket => l.Open ticket
  | .committed ticket held => l[ticket]? = some ⟨held, .writing⟩
  | .received answer => answer = .ok l.front?
  | .attached | .refused .. | .elsewhere => True

/-- A course of events, each allowed by those before it. -/
def Admits : Ledger → List ChannelEvent → Prop
  | _, [] => True
  | l, e :: es => l.Allows e ∧ (l.next e).Admits es

def after (l : Ledger) (events : List ChannelEvent) : Ledger := events.foldl next l

/-- The records received so far, in the order of their reservation. -/
def delivered (l : Ledger) : List Bytes := (l.filter (·.fate = .received)).map (·.data)

/-- The records that the consumer was given, in the order in which it got them. -/
def deliveries (events : List ChannelEvent) : List Bytes :=
  events.filterMap fun
    | .received (.ok answer) => answer
    | _ => none

@[simp] theorem after_nil (l : Ledger) : l.after [] = l := rfl

@[simp] theorem after_cons (l : Ledger) (e : ChannelEvent) (es : List ChannelEvent) :
    l.after (e :: es) = (l.next e).after es := rfl

theorem after_append (l : Ledger) (events more : List ChannelEvent) :
    l.after (events ++ more) = (l.after events).after more := List.foldl_append

theorem admits_append {l : Ledger} {events more : List ChannelEvent} :
    l.Admits (events ++ more) ↔ l.Admits events ∧ (l.after events).Admits more := by
  induction events generalizing l with
  | nil => simp [Admits]
  | cons e es ih => simp only [List.cons_append, Admits, ih, after_cons, and_assoc]

section Settled

variable {past : Ledger} (h : ∀ e ∈ past, e.Settled)
include h

theorem front?_append (l : Ledger) : front? (past ++ l) = front? l := by
  induction past with
  | nil => rfl
  | cons e past ih =>
    have ih := ih fun d hd => h d (List.mem_cons_of_mem _ hd)
    rcases h e List.mem_cons_self with hf | hf <;> simp [front?, hf, ih]

theorem ready_append (l : Ledger) : ready (past ++ l) = ready l := by
  induction past with
  | nil => rfl
  | cons e past ih =>
    have ih := ih fun d hd => h d (List.mem_cons_of_mem _ hd)
    rcases h e List.mem_cons_self with hf | hf <;> simp [ready, hf, ih]

theorem taken_append (l : Ledger) : taken (past ++ l) = past ++ taken l := by
  induction past with
  | nil => rfl
  | cons e past ih =>
    have ih := ih fun d hd => h d (List.mem_cons_of_mem _ hd)
    rcases h e List.mem_cons_self with hf | hf <;> simp [taken, hf, ih]

end Settled

@[simp] theorem length_taken (l : Ledger) : l.taken.length = l.length := by
  induction l with
  | nil => rfl
  | cons e l ih => cases hf : e.fate <;> simp [taken, hf, ih]

theorem getElem?_modify_self {l : Ledger} {i : Nat} {e : Entry} (h : l[i]? = some e)
    (f : Entry → Entry) : (l.modify i f)[i]? = some (f e) := by
  simp [h]

/-- The consumer changes what it takes, and nothing else. -/
theorem getElem?_taken {l : Ledger} {i : Nat} {e : Entry} (h : l[i]? = some e) :
    l.taken[i]? = some e ∨
      e.fate = .committed ∧ l.taken[i]? = some { e with fate := .received } := by
  induction l generalizing i with
  | nil => cases h
  | cons d l ih =>
    unfold taken
    cases hf : d.fate with
    | writing => exact .inl h
    | committed =>
      cases i with
      | zero =>
        obtain rfl : d = e := by simpa using h
        exact .inr ⟨hf, by simp⟩
      | succ i => exact .inl (by simpa using h)
    | discarded | received =>
      cases i with
      | zero => exact .inl h
      | succ i => simpa using ih (by simpa using h)

/-- An event changes the reservation it is about. Of the others it can only hand one out. -/
theorem getElem?_next {l : Ledger} {e : ChannelEvent} {i : Nat} {entry : Entry}
    (h : l[i]? = some entry) (hother : e.ticket? ≠ some i) :
    (l.next e)[i]? = some entry ∨
      entry.fate = .committed ∧ (l.next e)[i]? = some { entry with fate := .received } := by
  have hmodify {ticket : Nat} (f : Entry → Entry) (hne : ticket ≠ i) :
      (l.modify ticket f)[i]? = some entry := by
    simp only [List.getElem?_modify, if_neg hne, h, Option.map_eq_map, Option.map_some]
  cases e with
  | attached | refused | elsewhere => exact .inl h
  | reserved size held =>
    have hlt := (List.getElem?_eq_some_iff.mp h).1
    exact .inl ((List.getElem?_append_left hlt).trans h)
  | wrote ticket pos bytes => exact .inl (hmodify _ fun he => hother (congrArg some he))
  | committed ticket held => exact .inl (hmodify _ fun he => hother (congrArg some he))
  | discarded ticket => exact .inl (hmodify _ fun he => hother (congrArg some he))
  | received answer => exact getElem?_taken h

/-- A reservation that is being written is the only one an event can be about. -/
theorem Allows.writing {l : Ledger} {e : ChannelEvent} {ticket : Nat} {entry : Entry}
    (ha : l.Allows e) (he : e.ticket? = some ticket) (hl : l[ticket]? = some entry) :
    entry.fate = .writing := by
  cases e with
  | attached | reserved | refused | received | elsewhere => cases he
  | wrote i pos bytes =>
    cases he
    obtain ⟨data, hdata⟩ := ha
    cases hl.symm.trans hdata
    rfl
  | committed i held =>
    cases he
    cases hl.symm.trans ha
    rfl
  | discarded i =>
    cases he
    obtain ⟨data, hdata⟩ := ha
    cases hl.symm.trans hdata
    rfl

theorem mem_ready {l : Ledger} {record : Bytes} (h : record ∈ l.ready) :
    ∃ ticket : Nat, l[ticket]? = some ⟨record, .committed⟩ := by
  induction l with
  | nil => cases h
  | cons e l ih =>
    obtain ⟨data, fate⟩ := e
    cases fate with
    | writing => cases h
    | committed =>
      rcases List.mem_cons.mp h with rfl | h
      · exact ⟨0, rfl⟩
      · obtain ⟨ticket, ht⟩ := ih h
        exact ⟨ticket + 1, ht⟩
    | discarded | received =>
      obtain ⟨ticket, ht⟩ := ih h
      exact ⟨ticket + 1, ht⟩

theorem modify_split (pre : Ledger) (e : Entry) (post : Ledger) (f : Entry → Entry) :
    (pre ++ e :: post).modify pre.length f = pre ++ f e :: post := by
  induction pre with
  | nil => rfl
  | cons d pre ih => simpa using ih

theorem split_of_getElem? {α : Type} {l : List α} {i : Nat} {x : α} (h : l[i]? = some x) :
    ∃ pre post, l = pre ++ x :: post ∧ pre.length = i := by
  obtain ⟨hi, rfl⟩ := List.getElem?_eq_some_iff.mp h
  refine ⟨l.take i, l.drop (i + 1), ?_, by simp; omega⟩
  rw [List.getElem_cons_drop, List.take_append_drop]

/-- Before a received record all others are settled. -/
def Ordered (l : Ledger) : Prop := l.Pairwise fun d e => e.fate = .received → d.Settled

theorem Ordered.taken {l : Ledger} (h : l.Ordered) : l.taken.Ordered := by
  induction l with
  | nil => exact h
  | cons e l ih =>
    obtain ⟨he, hl⟩ := List.pairwise_cons.mp h
    cases hf : e.fate with
    | writing => simpa only [Ledger.taken, hf] using h
    | committed =>
      simp only [Ledger.taken, hf]
      exact List.pairwise_cons.mpr ⟨fun _ _ _ => .inr rfl, hl⟩
    | discarded | received =>
      simp only [Ledger.taken, hf]
      exact List.pairwise_cons.mpr ⟨fun _ _ _ => by simp [Entry.Settled, hf], ih hl⟩

/-- Behind a reservation that is being written nothing was received. -/
theorem Ordered.modify {l : Ledger} (h : l.Ordered) {ticket : Nat} (ho : l.Open ticket)
    {f : Entry → Entry} (hf : ∀ e, e.fate = .writing → (f e).fate ≠ .received) :
    Ordered (l.modify ticket f) ∧ delivered (l.modify ticket f) = l.delivered := by
  obtain ⟨data, hk⟩ := ho
  obtain ⟨pre, post, rfl, rfl⟩ := split_of_getElem? hk
  rw [modify_split]
  have hf := hf ⟨data, .writing⟩ rfl
  obtain ⟨hpre, hpost, hboth⟩ := List.pairwise_append.mp h
  obtain ⟨he, hpost⟩ := List.pairwise_cons.mp hpost
  constructor
  · refine List.pairwise_append.mpr ⟨hpre, List.pairwise_cons.mpr ⟨fun d hd hr => ?_, hpost⟩, ?_⟩
    · exact absurd (he d hd hr) (by simp [Entry.Settled])
    · intro d hd e hmem hr
      rcases List.mem_cons.mp hmem with rfl | hmem
      · exact absurd hr hf
      · exact hboth d hd e (List.mem_cons_of_mem _ hmem) hr
  · simp [delivered, hf]

theorem Ordered.delivered_taken {l : Ledger} (h : l.Ordered) :
    l.taken.delivered = l.delivered ++ l.front?.toList := by
  induction l with
  | nil => rfl
  | cons e l ih =>
    obtain ⟨he, hl⟩ := List.pairwise_cons.mp h
    cases hf : e.fate with
    | writing => simp [Ledger.taken, front?, hf]
    | committed =>
      have hnone : l.filter (·.fate = .received) = [] := by
        apply List.filter_eq_nil_iff.mpr
        intro d hd hr
        exact absurd (he d hd (of_decide_eq_true hr)) (by simp [Entry.Settled, hf])
      simp [Ledger.taken, front?, hf, delivered, hnone]
    | discarded | received =>
      simpa [Ledger.taken, front?, hf, delivered, List.filter_cons] using ih hl

theorem Ordered.next {l : Ledger} (h : l.Ordered) {e : ChannelEvent} (ha : l.Allows e) :
    (l.next e).Ordered ∧ (l.next e).delivered = l.delivered ++ deliveries [e] := by
  cases e with
  | attached | refused | elsewhere => exact ⟨h, by simp [Ledger.next, deliveries]⟩
  | reserved size held =>
    refine ⟨List.pairwise_append.mpr ⟨h, List.pairwise_singleton _ _, ?_⟩, ?_⟩
    · intro d _ e he hr
      rw [List.mem_singleton.mp he] at hr
      cases hr
    · simp [Ledger.next, delivered, deliveries]
  | wrote ticket pos bytes =>
    obtain ⟨ho, hd⟩ := h.modify ha (f := fun e => { e with data := e.data.overlay pos bytes })
      fun e he => by simp [he]
    exact ⟨ho, by simpa [Ledger.next, deliveries] using hd⟩
  | committed ticket held =>
    obtain ⟨ho, hd⟩ := h.modify ⟨held, ha⟩ (f := fun e => { e with fate := .committed })
      fun e _ => by simp
    exact ⟨ho, by simpa [Ledger.next, deliveries] using hd⟩
  | discarded ticket =>
    obtain ⟨ho, hd⟩ := h.modify ha (f := fun e => { e with fate := .discarded })
      fun e _ => by simp
    exact ⟨ho, by simpa [Ledger.next, deliveries] using hd⟩
  | received answer =>
    obtain rfl : answer = .ok l.front? := ha
    refine ⟨h.taken, h.delivered_taken.trans ?_⟩
    cases l.front? <;> simp [deliveries]

/-- What the consumer was given are the received records, each once and in the order of their
reservation. -/
theorem delivered_after {l : Ledger} (h : l.Ordered) {events : List ChannelEvent}
    (ha : l.Admits events) : (l.after events).delivered = l.delivered ++ deliveries events := by
  induction events generalizing l with
  | nil => simp [deliveries]
  | cons e es ih =>
    obtain ⟨ho, hd⟩ := h.next ha.1
    rw [after_cons, ih ho ha.2, hd, List.append_assoc]
    simp only [deliveries, ← List.filterMap_append, List.singleton_append]

end Ledger
end ChainRelay
