import ChainRelay.Proofs.Capture.Conduct
import ChainRelay.Proofs.Emission.Consumers

/-!
Emissions of tasks and of groups that file their records on one channel, beside receivers of that
channel. Any number of them are under way at a time; everything that happens is one operation of one
of them. A log keeps every operation with what it found, and so tells in which order the emissions
took room on the channel. This module has the steps, and what is known of the channel and of every
emission at each moment.
-/

namespace ChainRelay

open ChainRelay.Ring

namespace Invocation

variable (i : Invocation)

def counting : Activity EmitOutcome :=
  .step (.count i.writer.tally .recordsSubmitted) fun _ => .done .submitted

def writing (timestamp : UInt64) (signal : Signal) (r : Reservation) : Activity EmitOutcome :=
  .step (.commitRecord r (signal.encode i.shard timestamp)) fun _ => i.counting

def reporting (kind : SignalKind) (cause : ReserveError) : Activity EmitOutcome :=
  .step (.report (.recordDropped i.shard kind cause)) fun _ => .done .dropped

def dropping (kind : SignalKind) (cause : ReserveError) : Activity EmitOutcome :=
  .step (.count i.writer.tally .recordsDropped) fun _ => i.reporting kind cause

def answered (timestamp : UInt64) (signal : Signal) :
    Except ReserveError Reservation → Activity EmitOutcome
  | .error .overflow => .abort
  | .error cause => i.dropping signal.kind cause
  | .ok r => i.writing timestamp signal r

theorem submit_eq (timestamp : UInt64) (signal : Signal) :
    i.submit timestamp signal =
      .step (.reserve i.records signal.encodedSize) (i.answered timestamp signal) := by
  apply congrArg (Activity.step (.reserve i.records signal.encodedSize))
  funext answer
  rcases answer with (_ | _ | _) | r <;> rfl

end Invocation

/-- How far an emission has come, with what it will do next. -/
inductive Emission.Stage where
  | capturing (a : Activity Signal)
  | submitting (signal : Signal) (a : Activity EmitOutcome)

structure Emission where
  invocation : Invocation
  timestamp : UInt64
  stage : Emission.Stage

namespace Emission

def ofTask (i : Invocation) (timestamp : UInt64) (source : TaskSnapshot) (task : UInt64) :
    Emission :=
  ⟨i, timestamp, .capturing (.taskExec <$> i.capture source task)⟩

def ofCgroup (i : Invocation) (timestamp : UInt64) (id : UInt64) : Emission :=
  ⟨i, timestamp, .capturing (pure (.cgroupSnapshot id))⟩

def rest (e : Emission) : Activity EmitOutcome :=
  match e.stage with
  | .capturing a => a >>= e.invocation.submit e.timestamp
  | .submitting _ a => a

theorem rest_ofTask (i : Invocation) (timestamp : UInt64) (source : TaskSnapshot) (task : UInt64) :
    (ofTask i timestamp source task).rest = i.emitTask timestamp source task := by
  have hassoc := Activity.bind_assoc (i.capture source task) (fun t => pure (.taskExec t))
    (i.submit timestamp)
  exact hassoc

theorem rest_ofCgroup (i : Invocation) (timestamp : UInt64) (id : UInt64) :
    (ofCgroup i timestamp id).rest = i.emitCgroup timestamp id := rfl

/-- The emission files its records on the channel and its chunks elsewhere. -/
structure Placed (d : Channel) (e : Emission) : Prop where
  records : d.Views e.invocation.records
  chunks : e.invocation.writer.channel.region ≠ d.region

inductive Begins : Emission → Prop where
  | task (i : Invocation) (timestamp : UInt64) (source : TaskSnapshot) (task : UInt64) :
      Begins (ofTask i timestamp source task)
  | cgroup (i : Invocation) (timestamp : UInt64) (id : UInt64) : Begins (ofCgroup i timestamp id)

def signal? (e : Emission) : Option Signal :=
  match e.stage with
  | .capturing _ => none
  | .submitting signal _ => some signal

def record? (e : Emission) : Option Bytes :=
  e.signal?.map (·.encode e.invocation.shard e.timestamp)

/-- What the emission returns, known once it is counted: a drop is reported after that. -/
def outcome? (e : Emission) : Option EmitOutcome :=
  match e.stage with
  | .submitting _ (.done o) => some o
  | .submitting _ (.step (.report _) _) => some .dropped
  | _ => none

end Emission

/-- One operation of an emission, with the state that it found. -/
structure Turn where
  emission : Nat
  op : Op
  before : Shared

namespace Turn

def after (t : Turn) : Shared := (t.op.perform t.before).2

def granted? (t : Turn) : Option Nat :=
  match t.op with
  | .reserve channel size =>
    match (channel.reserve size t.before).1 with
    | .ok _ => some t.emission
    | .error _ => none
  | _ => none

theorem emission_of_granted? {t : Turn} {n : Nat} (h : t.granted? = some n) : t.emission = n := by
  unfold granted? at h
  split at h
  · split at h
    · exact Option.some.inj h
    · cases h
  · cases h

def Leaves (d : Channel) (t : Turn) : Prop :=
  t.after.regions.get d.region = t.before.regions.get d.region

/-- Room was asked for and there was too little: what is in use, what is left over at the end of the
band and the record are more together than the channel has. -/
def Lacks (d : Channel) (t : Turn) : Prop :=
  ∃ (v : Channel) (size : Nat), d.Views v ∧ t.op = .reserve v size ∧
    (v.reserve size t.before).1 = .error (.full size (d.band.capacity - d.used t.before)) ∧
    d.band.capacity < d.used t.before +
      (d.band.placement (produced (d.memory t.before)) size).padding + span size

def Oversized (t : Turn) : Prop :=
  ∃ (v : Channel) (size asked max : Nat), t.op = .reserve v size ∧
    (v.reserve size t.before).1 = .error (.invalidSize asked max)

end Turn

/-- The operation is on another channel or on none, and no request for a record. -/
def Op.Unseen (d : Channel) : Op → Prop
  | .reserve .. => False
  | op => op.region? ≠ some d.region

theorem Op.IsAside.unseen {op : Op} (h : op.IsAside) (d : Channel) : op.Unseen d := by
  cases op with
  | count | report => nofun
  | openChunk | fillChunk | commitChunk | abandonChunk | reserve | commitRecord => exact h.elim

theorem Writer.Does.unseen {w : Writer} {settings : CopySettings} {op : Op} {d : Channel}
    (h : w.Does settings op) (hd : w.channel.region ≠ d.region) : op.Unseen d := by
  have hregion {c : Channel} (hc : c = w.channel) : some c.region ≠ some d.region := by
    rw [hc]
    exact fun he => hd (Option.some.inj he)
  cases op with
  | openChunk v c => exact hregion (congrArg Writer.channel h.1)
  | fillChunk | commitChunk | abandonChunk => exact hregion h
  | reserve | commitRecord => exact h.elim
  | count | report => nofun

namespace Op.Unseen

variable {d : Channel} {op : Op}

theorem leaves (h : op.Unseen d) (n : Nat) (s : Shared) : Turn.Leaves d ⟨n, op, s⟩ := by
  cases op with
  | reserve => exact h.elim
  | openChunk | fillChunk | commitChunk | abandonChunk | commitRecord | count | report =>
    exact Op.get_perform _ h s

theorem ungranted (h : op.Unseen d) (n : Nat) (s : Shared) : Turn.granted? ⟨n, op, s⟩ = none := by
  cases op with
  | reserve => exact h.elim
  | openChunk | fillChunk | commitChunk | abandonChunk | commitRecord | count | report => rfl

theorem sized (h : op.Unseen d) (n : Nat) (s : Shared) : ¬Turn.Oversized ⟨n, op, s⟩ := by
  rintro ⟨v, size, asked, max, hop, -⟩
  obtain rfl : op = .reserve v size := hop
  exact h

end Op.Unseen

/-- How far everyone has come. -/
structure Filing where
  shared : Shared
  emissions : List Emission := []
  turns : List Turn := []
  received : List Bytes := []

namespace Filing

/-- The emissions that took room on the channel, in the order in which they took it. -/
def granted (x : Filing) : List Nat := x.turns.filterMap Turn.granted?

def record? (x : Filing) (n : Nat) : Option Bytes := x.emissions[n]?.bind Emission.record?

def outcome? (x : Filing) (n : Nat) : Option EmitOutcome := x.emissions[n]?.bind Emission.outcome?

def turn (x : Filing) (n : Nat) (op : Op) (e : Emission) : Filing :=
  { x with
    shared := (op.perform x.shared).2
    emissions := x.emissions.set n e
    turns := x.turns ++ [⟨n, op, x.shared⟩] }

/-- What may happen around the record channel `d`. -/
inductive Step (d : Channel) : Filing → Filing → Prop where
  | start {x : Filing} {e : Emission} (he : e.Begins) (hp : e.Placed d) :
      Step d x { x with emissions := x.emissions ++ [e] }
  | capture {x : Filing} (n : Nat) {i : Invocation} {timestamp : UInt64} {op : Op}
      {next : op.Reply → Activity Signal}
      (h : x.emissions[n]? = some ⟨i, timestamp, .capturing (.step op next)⟩) :
      Step d x (x.turn n op ⟨i, timestamp, .capturing (next (op.perform x.shared).1)⟩)
  | captured {x : Filing} (n : Nat) {i : Invocation} {timestamp : UInt64} {signal : Signal}
      (h : x.emissions[n]? = some ⟨i, timestamp, .capturing (.done signal)⟩) :
      Step d x { x with
        emissions :=
          x.emissions.set n ⟨i, timestamp, .submitting signal (i.submit timestamp signal)⟩ }
  | submit {x : Filing} (n : Nat) {i : Invocation} {timestamp : UInt64} {signal : Signal} {op : Op}
      {next : op.Reply → Activity EmitOutcome}
      (h : x.emissions[n]? = some ⟨i, timestamp, .submitting signal (.step op next)⟩) :
      Step d x (x.turn n op ⟨i, timestamp, .submitting signal (next (op.perform x.shared).1)⟩)
  | receive {x : Filing} {u : Channel} (hu : d.Views u) :
      Step d x
        { x with
          shared := (u.receive x.shared).2
          received := x.received ++ u.ready x.shared }
  /-- Anything that neither the channel nor the counters of records see. -/
  | elsewhere {x : Filing} {s : Shared}
      (hregion : s.regions.get d.region = x.shared.regions.get d.region)
      (htallies : ∀ tally,
        (s.tallies.get tally).recordsSubmitted =
          (x.shared.tallies.get tally).recordsSubmitted ∧
        (s.tallies.get tally).recordsDropped = (x.shared.tallies.get tally).recordsDropped) :
      Step d x { x with shared := s }

variable {d : Channel} {x y : Filing} {n m : Nat} {e e' : Emission} {op : Op}

theorem getElem?_turn_other (h : m ≠ n) : (x.turn n op e').emissions[m]? = x.emissions[m]? :=
  List.getElem?_set_ne (Ne.symm h)

theorem getElem?_turn_self (h : x.emissions[n]? = some e) :
    (x.turn n op e').emissions[n]? = some e' :=
  List.getElem?_set_self (List.getElem?_eq_some_iff.mp h).1

/-- An emission does nothing but what it has still to do, in its order. -/
theorem Step.advances (h : Step d x y) (he : x.emissions[n]? = some e)
    (he' : y.emissions[n]? = some e') :
    e'.rest = e.rest ∨ (e'.rest, y.shared) = e.rest.advance x.shared := by
  have hset {l : List Emission} {k : Nat} {a b : Emission} (ha : l[k]? = some a)
      (hn : l[n]? = some e) (hn' : (l.set k b)[n]? = some e') : e' = e ∨ (a = e ∧ e' = b) := by
    by_cases hk : k = n
    · subst hk
      rw [List.getElem?_set_self (List.getElem?_eq_some_iff.mp ha).1] at hn'
      exact .inr ⟨Option.some.inj (ha.symm.trans hn), (Option.some.inj hn').symm⟩
    · rw [List.getElem?_set_ne hk, hn] at hn'
      exact .inl (Option.some.inj hn').symm
  cases h with
  | start =>
    rw [List.getElem?_append_left (List.getElem?_eq_some_iff.mp he).1, he] at he'
    exact .inl (congrArg Emission.rest (Option.some.inj he').symm)
  | capture k h =>
    rcases hset h he he' with rfl | ⟨rfl, rfl⟩
    · exact .inl rfl
    · exact .inr rfl
  | captured k h =>
    rcases hset h he he' with rfl | ⟨rfl, rfl⟩
    · exact .inl rfl
    · exact .inl rfl
  | submit k h =>
    rcases hset h he he' with rfl | ⟨rfl, rfl⟩
    · exact .inl rfl
    · exact .inr rfl
  | receive | elsewhere => exact .inl (congrArg Emission.rest (Option.some.inj (he'.symm.trans he)))

end Filing
end ChainRelay
