import ChainRelay.Proofs.Emission.Filing

/-!
What is known at every moment of the channel of records and of the emissions: the channel holds the
records of those that took room and were not received yet, and every emission stands somewhere
between the capture of its signal and its outcome. Every step keeps this.
-/

namespace ChainRelay

open ChainRelay.Ring

namespace Filing

structure Untouched (d : Channel) (x : Filing) (n : Nat) : Prop where
  ungranted : n ∉ x.granted
  leaves : ∀ t ∈ x.turns, t.emission = n → t.Leaves d

def Refused (d : Channel) (x : Filing) (n : Nat) : Prop :=
  ∃ t ∈ x.turns, t.emission = n ∧ t.Lacks d

def Writing (x : Filing) (n : Nat) : Prop :=
  ∃ i timestamp signal r,
    x.emissions[n]? = some ⟨i, timestamp, .submitting signal (i.writing timestamp signal r)⟩

/-- How far an emission has come, given the records on the channel and the emissions they belong
to. -/
inductive Standing (d : Channel) (x : Filing) (entries : List (Booking × Nat)) (n : Nat)
    (i : Invocation) (timestamp : UInt64) : Emission.Stage → Prop where
  | capturing {a : Activity Signal} (ha : a.Always (i.writer.Does i.settings) Signal.WellFormed)
      (hn : x.Untouched d n) : Standing d x entries n i timestamp (.capturing a)
  | asking {signal : Signal} {a : Activity EmitOutcome} (hs : signal.WellFormed)
      (hn : x.Untouched d n) (ha : a = i.submit timestamp signal) :
      Standing d x entries n i timestamp (.submitting signal a)
  | writing {signal : Signal} {a : Activity EmitOutcome} {r : Reservation} {k : Booking}
      (hs : signal.WellFormed) (hk : (k, n) ∈ entries) (hr : d.Holds r k)
      (hw : k.phase = .writing) (hlen : k.data.length = signal.encodedSize)
      (ha : a = i.writing timestamp signal r) :
      Standing d x entries n i timestamp (.submitting signal a)
  | counting {signal : Signal} {a : Activity EmitOutcome} (hs : signal.WellFormed)
      (hn : n ∈ x.granted) (ha : a = i.counting) :
      Standing d x entries n i timestamp (.submitting signal a)
  | submitted {signal : Signal} (hs : signal.WellFormed) (hn : n ∈ x.granted) :
      Standing d x entries n i timestamp (.submitting signal (.done .submitted))
  | dropping {signal : Signal} {a : Activity EmitOutcome} {cause : ReserveError}
      (hn : x.Untouched d n) (hr : x.Refused d n) (ha : a = i.dropping signal.kind cause) :
      Standing d x entries n i timestamp (.submitting signal a)
  | reporting {signal : Signal} {a : Activity EmitOutcome} {cause : ReserveError}
      (hn : x.Untouched d n) (hr : x.Refused d n) (ha : a = i.reporting signal.kind cause) :
      Standing d x entries n i timestamp (.submitting signal a)
  | dropped {signal : Signal} (hn : x.Untouched d n) (hr : x.Refused d n) :
      Standing d x entries n i timestamp (.submitting signal (.done .dropped))
  | aborted {signal : Signal} (hn : n ∉ x.granted) :
      Standing d x entries n i timestamp (.submitting signal .abort)

/-- The channel holds the records of the emissions that took room and were not received yet. -/
structure Books (d : Channel) (x : Filing) (entries : List (Booking × Nat)) (authors : List Nat) :
    Prop where
  queued : d.Queued x.shared (entries.map (·.1))
  granted_eq : x.granted = authors ++ entries.map (·.2)
  distinct : x.granted.Nodup
  received : List.Forall₂ (fun n record => x.record? n = some record) authors x.received
  entries : ∀ e ∈ entries, (e.1.phase = .committed ∧ x.record? e.2 = some e.1.data) ∨
    (e.1.phase = .writing ∧ x.Writing e.2)
  known : ∀ t ∈ x.turns, t.emission < x.emissions.length

structure Order (d : Channel) (x : Filing) (entries : List (Booking × Nat)) (authors : List Nat) :
    Prop where
  books : Books d x entries authors
  placed : ∀ (n : Nat) (e : Emission), x.emissions[n]? = some e → e.Placed d
  standing : ∀ (n : Nat) (e : Emission), x.emissions[n]? = some e →
    Standing d x entries n e.invocation e.timestamp e.stage
  sized : ∀ t ∈ x.turns, ¬t.Oversized

variable {d u : Channel} {x y : Filing} {n m : Nat} {e e' : Emission} {op : Op}
  {entries entries' : List (Booking × Nat)} {authors authors' : List Nat} {i : Invocation}
  {timestamp : UInt64} {stage : Emission.Stage}

/-- What everyone but one emission finds again. -/
structure Beside (n : Nat) (x y : Filing) (entries entries' : List (Booking × Nat)) : Prop where
  granted : ∀ m, m ≠ n → (m ∈ y.granted ↔ m ∈ x.granted)
  kept : x.turns ⊆ y.turns
  others : ∀ t ∈ y.turns, t.emission ≠ n → t ∈ x.turns
  writing : ∀ k m, (k, m) ∈ entries → k.phase = .writing → m ≠ n → (k, m) ∈ entries'

theorem Untouched.beside (h : x.Untouched d m) (hb : Beside n x y entries entries') (hm : m ≠ n) :
    y.Untouched d m :=
  ⟨fun hg => h.ungranted ((hb.granted m hm).mp hg),
    fun t ht he => h.leaves t (hb.others t ht (he ▸ hm)) he⟩

theorem Refused.beside (h : x.Refused d m) (hb : Beside n x y entries entries') :
    y.Refused d m := by
  obtain ⟨t, ht, he, hl⟩ := h
  exact ⟨t, hb.kept ht, he, hl⟩

theorem Standing.beside (h : Standing d x entries m i timestamp stage)
    (hb : Beside n x y entries entries') (hm : m ≠ n) :
    Standing d y entries' m i timestamp stage := by
  cases h with
  | capturing ha hn => exact .capturing ha (hn.beside hb hm)
  | asking hs hn ha => exact .asking hs (hn.beside hb hm) ha
  | writing hs hk hr hw hlen ha => exact .writing hs (hb.writing _ _ hk hw hm) hr hw hlen ha
  | counting hs hn ha => exact .counting hs ((hb.granted m hm).mpr hn) ha
  | submitted hs hn => exact .submitted hs ((hb.granted m hm).mpr hn)
  | dropping hn hr ha => exact .dropping (hn.beside hb hm) (hr.beside hb) ha
  | reporting hn hr ha => exact .reporting (hn.beside hb hm) (hr.beside hb) ha
  | dropped hn hr => exact .dropped (hn.beside hb hm) (hr.beside hb)
  | aborted hn => exact .aborted fun hg => hn ((hb.granted m hm).mp hg)

/-- The doing of one emission, seen by all. -/
theorem Order.of_emission (h : Order d x entries authors) (hbooks : Books d y entries' authors')
    (hb : Beside n x y entries entries')
    (hothers : ∀ m : Nat, m ≠ n → y.emissions[m]? = x.emissions[m]?)
    (hself : ∀ e, y.emissions[n]? = some e → e.Placed d ∧
      Standing d y entries' n e.invocation e.timestamp e.stage)
    (hsized : ∀ t ∈ y.turns, t ∉ x.turns → ¬t.Oversized) : Order d y entries' authors' := by
  constructor
  case books => exact hbooks
  case placed =>
    intro m e he
    by_cases hm : m = n
    · subst hm
      exact (hself e he).1
    · exact h.placed m e ((hothers m hm).symm.trans he)
  case standing =>
    intro m e he
    by_cases hm : m = n
    · subst hm
      exact (hself e he).2
    · exact (h.standing m e ((hothers m hm).symm.trans he)).beside hb hm
  case sized =>
    intro t ht
    by_cases hold : t ∈ x.turns
    · exact h.sized t hold
    · exact hsized t ht hold

/-! ### One operation -/

theorem granted_turn :
    (x.turn n op e').granted = x.granted ++ (Turn.granted? ⟨n, op, x.shared⟩).toList := by
  unfold granted turn
  rw [List.filterMap_append]
  cases h : Turn.granted? ⟨n, op, x.shared⟩ <;> simp [h]

theorem mem_granted_turn (h : m ∈ x.granted) : m ∈ (x.turn n op e').granted := by
  rw [granted_turn]
  exact List.mem_append_left _ h

theorem Refused.turn (h : x.Refused d m) : (x.turn n op e').Refused d m := by
  obtain ⟨t, ht, he, hl⟩ := h
  exact ⟨t, List.mem_append_left _ ht, he, hl⟩

theorem beside_turn
    (hw : ∀ k m, (k, m) ∈ entries → k.phase = .writing → m ≠ n → (k, m) ∈ entries') :
    Beside n x (x.turn n op e') entries entries' := by
  constructor
  case granted =>
    intro m hm
    rw [granted_turn, List.mem_append]
    refine ⟨fun h => h.resolve_right fun h => ?_, .inl⟩
    exact hm (Turn.emission_of_granted? (Option.mem_toList.mp h)).symm
  case kept => exact List.subset_append_left _ _
  case others =>
    intro t ht he
    refine (List.mem_append.mp ht).resolve_right fun h => he ?_
    rw [List.mem_singleton.mp h]
  case writing => exact hw

theorem Untouched.turn (h : x.Untouched d n) (hg : Turn.granted? ⟨n, op, x.shared⟩ = none)
    (hl : Turn.Leaves d ⟨n, op, x.shared⟩) : (x.turn n op e').Untouched d n := by
  constructor
  case ungranted =>
    rw [granted_turn, hg]
    simpa using h.ungranted
  case leaves =>
    intro t ht he
    rcases List.mem_append.mp ht with ht | ht
    · exact h.leaves t ht he
    · rw [List.mem_singleton.mp ht]
      exact hl

/-- An operation of an emission, seen by all. -/
theorem Order.of_turn (h : Order d x entries authors) (he : x.emissions[n]? = some e)
    (hi : e'.invocation = e.invocation) (hbooks : Books d (x.turn n op e') entries' authors)
    (hw : ∀ k m, (k, m) ∈ entries → k.phase = .writing → m ≠ n → (k, m) ∈ entries')
    (hself : Standing d (x.turn n op e') entries' n e'.invocation e'.timestamp e'.stage)
    (hs : ¬Turn.Oversized ⟨n, op, x.shared⟩) :
    Order d (x.turn n op e') entries' authors := by
  refine h.of_emission hbooks (beside_turn hw) (fun m hm => getElem?_turn_other hm) ?_ ?_
  · intro a ha
    rw [getElem?_turn_self he] at ha
    obtain rfl := Option.some.inj ha
    have hp := h.placed n e he
    exact ⟨⟨hi ▸ hp.records, hi ▸ hp.chunks⟩, hself⟩
  · intro t ht hold
    rw [List.mem_singleton.mp ((List.mem_append.mp ht).resolve_left hold)]
    exact hs

/-- The books when what they say of the channel has not changed. -/
theorem Books.frame (h : Books d x entries authors)
    (hq : d.Queued y.shared (entries.map (·.1))) (hg : y.granted = x.granted)
    (hr : y.received = x.received)
    (hrecord : ∀ m r, x.record? m = some r → y.record? m = some r)
    (hw : ∀ m, x.Writing m → y.Writing m)
    (hk : ∀ t ∈ y.turns, t.emission < y.emissions.length) : Books d y entries authors := by
  constructor
  case queued => exact hq
  case granted_eq => exact hg.trans h.granted_eq
  case distinct => exact hg ▸ h.distinct
  case received =>
    rw [hr]
    exact h.received.imp fun m r hm => hrecord m r hm
  case entries =>
    intro e he
    rcases h.entries e he with ⟨hp, hm⟩ | ⟨hp, hm⟩
    · exact .inl ⟨hp, hrecord _ _ hm⟩
    · exact .inr ⟨hp, hw _ hm⟩
  case known => exact hk

theorem record?_turn (he : x.emissions[n]? = some e)
    (hrecord : ∀ r, e.record? = some r → e'.record? = some r) (m : Nat) (r : Bytes)
    (h : x.record? m = some r) : (x.turn n op e').record? m = some r := by
  unfold record? at h ⊢
  by_cases hm : m = n
  · subst hm
    rw [he] at h
    rw [getElem?_turn_self he]
    exact hrecord r h
  · rwa [getElem?_turn_other hm]

theorem Writing.turn (h : x.Writing m) (hm : m ≠ n) : (x.turn n op e').Writing m := by
  obtain ⟨i, timestamp, signal, r, he⟩ := h
  exact ⟨i, timestamp, signal, r, (getElem?_turn_other hm).trans he⟩

theorem Books.known_turn (h : Books d x entries authors) (he : x.emissions[n]? = some e) :
    ∀ t ∈ (x.turn n op e').turns, t.emission < (x.turn n op e').emissions.length := by
  intro t ht
  show t.emission < (x.emissions.set n e').length
  rw [List.length_set]
  rcases List.mem_append.mp ht with ht | ht
  · exact h.known t ht
  · rw [List.mem_singleton.mp ht]
    exact (List.getElem?_eq_some_iff.mp he).1

/-- An operation that takes no room and finishes no record. -/
theorem Books.turn (h : Books d x entries authors) (he : x.emissions[n]? = some e)
    (hq : d.Queued (op.perform x.shared).2 (entries.map (·.1)))
    (hg : Turn.granted? ⟨n, op, x.shared⟩ = none)
    (hrecord : ∀ r, e.record? = some r → e'.record? = some r) (hw : ¬x.Writing n) :
    Books d (x.turn n op e') entries authors := by
  refine h.frame hq ?_ rfl (record?_turn he hrecord) (fun m hm => hm.turn ?_) (h.known_turn he)
  · rw [granted_turn, hg]
    simp
  · rintro rfl
    exact hw hm

/-- An operation that the channel does not see. -/
theorem Order.unseen (h : Order d x entries authors) (he : x.emissions[n]? = some e)
    (hop : op.Unseen d) (hi : e'.invocation = e.invocation)
    (hrecord : ∀ r, e.record? = some r → e'.record? = some r) (hw : ¬x.Writing n)
    (hself : Standing d (x.turn n op e') entries n e'.invocation e'.timestamp e'.stage) :
    Order d (x.turn n op e') entries authors := by
  have hq := h.books.queued.of_memory (hop.leaves n x.shared)
  exact h.of_turn he hi (h.books.turn he hq (hop.ungranted n x.shared) hrecord hw)
    (fun _ _ hk _ _ => hk) hself (hop.sized n x.shared)

/-- Room is taken for a record. -/
theorem Books.reserved (h : Books d x entries authors) (he : x.emissions[n]? = some e)
    (hg : Turn.granted? ⟨n, op, x.shared⟩ = some n) (hn : n ∉ x.granted) {k : Booking}
    (hq : d.Queued (op.perform x.shared).2 (entries.map (·.1) ++ [k])) (hk : k.phase = .writing)
    (hrecord : ∀ r, e.record? = some r → e'.record? = some r)
    (hw : (x.turn n op e').Writing n) : Books d (x.turn n op e') (entries ++ [(k, n)]) authors := by
  have hgranted : (x.turn n op e').granted = x.granted ++ [n] := by
    rw [granted_turn, hg]
    rfl
  constructor
  case queued =>
    rw [List.map_append]
    exact hq
  case granted_eq =>
    rw [hgranted, h.granted_eq]
    simp
  case distinct =>
    rw [hgranted]
    simpa using h.distinct.concat hn
  case received => exact h.received.imp fun m r hm => record?_turn he hrecord m r hm
  case entries =>
    intro a ha
    rcases List.mem_append.mp ha with ha | ha
    · rcases h.entries a ha with ⟨hp, hm⟩ | ⟨hp, hm⟩
      · exact .inl ⟨hp, record?_turn he hrecord _ _ hm⟩
      · refine .inr ⟨hp, hm.turn fun heq => hn ?_⟩
        rw [h.granted_eq, ← heq]
        exact List.mem_append_right _ (List.mem_map_of_mem ha)
    · rw [List.mem_singleton.mp ha]
      exact .inr ⟨hk, hw⟩
  case known => exact h.known_turn he

/-- A record is written and made visible. -/
theorem Books.committed {pre post : List (Booking × Nat)} {k k' : Booking}
    (h : Books d x (pre ++ (k, n) :: post) authors) (he : x.emissions[n]? = some e)
    (hg : Turn.granted? ⟨n, op, x.shared⟩ = none)
    (hq : d.Queued (op.perform x.shared).2 ((pre ++ (k', n) :: post).map (·.1)))
    (hk : k'.phase = .committed) (hdata : e'.record? = some k'.data)
    (hrecord : ∀ r, e.record? = some r → e'.record? = some r) :
    Books d (x.turn n op e') (pre ++ (k', n) :: post) authors := by
  have hgranted : (x.turn n op e').granted = x.granted := by
    rw [granted_turn, hg]
    simp
  have hother {a : Booking × Nat} (ha : a ∈ pre ∨ a ∈ post) : a.2 ≠ n := by
    have hnodup := h.distinct
    rw [h.granted_eq, List.map_append, List.map_cons] at hnodup
    have hnotin := (List.nodup_middle.mp (List.nodup_append.mp hnodup).2.1).notMem
    intro heq
    rw [← heq] at hnotin
    have hmem := List.mem_map_of_mem (f := Prod.snd) (List.mem_append.mpr ha)
    rw [List.map_append] at hmem
    exact hnotin hmem
  have hstill {a : Booking × Nat} (ha : a ∈ pre ∨ a ∈ post)
      (hold : a ∈ pre ++ (k, n) :: post) :
      (a.1.phase = .committed ∧ (x.turn n op e').record? a.2 = some a.1.data) ∨
        (a.1.phase = .writing ∧ (x.turn n op e').Writing a.2) := by
    rcases h.entries a hold with ⟨hp, hm⟩ | ⟨hp, hm⟩
    · exact .inl ⟨hp, record?_turn he hrecord _ _ hm⟩
    · exact .inr ⟨hp, hm.turn (hother ha)⟩
  constructor
  case queued => exact hq
  case granted_eq =>
    rw [hgranted, h.granted_eq]
    simp
  case distinct => exact hgranted ▸ h.distinct
  case received => exact h.received.imp fun m r hm => record?_turn he hrecord m r hm
  case entries =>
    intro a ha
    rcases List.mem_append.mp ha with ha | ha
    · exact hstill (.inl ha) (List.mem_append_left _ ha)
    · rcases List.mem_cons.mp ha with rfl | ha
      · left
        refine ⟨hk, ?_⟩
        show (x.turn n op e').emissions[n]?.bind Emission.record? = some k'.data
        rw [getElem?_turn_self he]
        exact hdata
      · exact hstill (.inr ha) (List.mem_append_right _ (List.mem_cons_of_mem _ ha))
  case known => exact h.known_turn he

theorem not_writing (he : x.emissions[n]? = some ⟨i, timestamp, stage⟩)
    (hs : ∀ signal r, stage ≠ .submitting signal (i.writing timestamp signal r)) :
    ¬x.Writing n := by
  rintro ⟨i', timestamp', signal, r, he'⟩
  cases he.symm.trans he'
  exact hs signal r rfl

theorem Order.capture {next : op.Reply → Activity Signal} (h : Order d x entries authors)
    (he : x.emissions[n]? = some ⟨i, timestamp, .capturing (.step op next)⟩) :
    Order d (x.turn n op ⟨i, timestamp, .capturing (next (op.perform x.shared).1)⟩) entries
      authors := by
  cases h.standing n _ he with
  | capturing ha hn =>
    have hop := ha.1.unseen (h.placed n _ he).chunks
    have hw : ¬x.Writing n := not_writing he fun _ _ => Emission.Stage.noConfusion
    refine h.unseen he hop rfl nofun hw (.capturing (ha.2 x.shared) ?_)
    exact hn.turn (hop.ungranted n x.shared) (hop.leaves n x.shared)

section Submit

variable {signal : Signal} {k : Booking} {s : Shared}

/-- Counting and reporting. -/
theorem Order.aside {a b : Activity EmitOutcome} (h : Order d x entries authors)
    (he : x.emissions[n]? = some ⟨i, timestamp, .submitting signal a⟩) (hop : op.IsAside)
    (ha : ∀ r, a ≠ i.writing timestamp signal r)
    (hself : Standing d (x.turn n op ⟨i, timestamp, .submitting signal b⟩) entries n i timestamp
      (.submitting signal b)) :
    Order d (x.turn n op ⟨i, timestamp, .submitting signal b⟩) entries authors := by
  refine h.unseen he (hop.unseen d) rfl (fun _ hr => hr) (not_writing he ?_) hself
  rintro signal' r hs
  injection hs with hsignal ha'
  subst hsignal
  exact ha r ha'

theorem submit_ne_writing (r : Reservation) :
    i.submit timestamp signal ≠ i.writing timestamp signal r := by
  rw [Invocation.submit_eq]
  nofun

theorem Order.ask_granted (h : Order d x entries authors)
    (he : x.emissions[n]? =
      some ⟨i, timestamp, .submitting signal (i.submit timestamp signal)⟩)
    (hs : signal.WellFormed) (hn : x.Untouched d n)
    (hr : i.records.reserve signal.encodedSize x.shared = (.ok ⟨i.records, k.slot⟩, s))
    (hlen : k.data.length = signal.encodedSize) (hk : k.phase = .writing)
    (hq : d.Queued s (entries.map (·.1) ++ [k])) :
    Order d
      (x.turn n (.reserve i.records signal.encodedSize) ⟨i, timestamp, .submitting signal
        (i.writing timestamp signal ⟨i.records, k.slot⟩)⟩)
      (entries ++ [(k, n)]) authors := by
  have hg : Turn.granted? ⟨n, .reserve i.records signal.encodedSize, x.shared⟩ = some n := by
    simp only [Turn.granted?, hr]
  have hsize : ¬Turn.Oversized ⟨n, .reserve i.records signal.encodedSize, x.shared⟩ := by
    rintro ⟨v, size, asked, max, hop, hanswer⟩
    cases hop
    rw [hr] at hanswer
    cases hanswer
  have hperform : ((Op.reserve i.records signal.encodedSize).perform x.shared).2 = s :=
    congrArg Prod.snd hr
  rw [← hperform] at hq
  refine h.of_turn he rfl (h.books.reserved he hg hn.ungranted hq hk (fun _ hr => hr) ?_)
    (fun _ _ hk _ _ => List.mem_append_left _ hk) ?_ hsize
  · exact ⟨i, timestamp, signal, ⟨i.records, k.slot⟩, getElem?_turn_self he⟩
  exact .writing hs (List.mem_append_right _ (List.mem_singleton_self _))
    ⟨(h.placed n _ he).records, rfl⟩ hk hlen rfl

theorem Order.ask_refused {cause : ReserveError} (h : Order d x entries authors)
    (he : x.emissions[n]? =
      some ⟨i, timestamp, .submitting signal (i.submit timestamp signal)⟩)
    (hn : x.Untouched d n)
    (hr : i.records.reserve signal.encodedSize x.shared = (.error cause, s))
    (hq : d.Queued s (entries.map (·.1))) :
    Order d
      (x.turn n (.reserve i.records signal.encodedSize) ⟨i, timestamp, .submitting signal
        (i.answered timestamp signal (.error cause))⟩)
      entries authors := by
  have hg : Turn.granted? ⟨n, .reserve i.records signal.encodedSize, x.shared⟩ = none := by
    simp only [Turn.granted?, hr]
  have hperform : ((Op.reserve i.records signal.encodedSize).perform x.shared).2 = s :=
    congrArg Prod.snd hr
  have hw : ¬x.Writing n := by
    refine not_writing he fun signal' r hs => ?_
    injection hs with hsignal ha
    subst hsignal
    exact submit_ne_writing r ha
  have hv : d.Views i.records := (h.placed n _ he).records
  obtain ⟨hpos, hle⟩ : signal.encodedSize ≠ 0 ∧ signal.encodedSize ≤ d.band.longest := by
    obtain ⟨cells, hl, -⟩ := h.books.queued
    exact signal.encodedSize_le_longest hl.regular.capacity_min
  have hrefused := h.books.queued.refused hv hpos hle hr
  have hsize : ¬Turn.Oversized ⟨n, .reserve i.records signal.encodedSize, x.shared⟩ := by
    rintro ⟨v, size, asked, max, hop, hanswer⟩
    cases hop
    rw [hr] at hanswer
    obtain rfl := Except.error.inj hanswer
    rcases hrefused with ⟨he, -⟩ | he <;> cases he
  rw [← hperform] at hq
  refine h.of_turn he rfl (h.books.turn he hq hg (fun _ hr => hr) hw) (fun _ _ hk _ _ => hk) ?_
    hsize
  rcases hrefused with ⟨rfl, hmemory, hroom⟩ | rfl
  · have hleaves : Turn.Leaves d ⟨n, .reserve i.records signal.encodedSize, x.shared⟩ := by
      unfold Turn.Leaves Turn.after
      rw [hperform]
      exact hmemory
    refine .dropping (hn.turn hg hleaves) ?_ rfl
    refine ⟨_, List.mem_append_right _ (List.mem_singleton_self _), rfl, i.records,
      signal.encodedSize, hv, rfl, ?_, hroom⟩
    rw [hr]
  · refine .aborted fun hmem => hn.ungranted ?_
    rw [granted_turn, hg] at hmem
    simpa using hmem

theorem Order.ask (h : Order d x entries authors)
    (he : x.emissions[n]? =
      some ⟨i, timestamp, .submitting signal (i.submit timestamp signal)⟩)
    (hs : signal.WellFormed) (hn : x.Untouched d n) :
    ∃ entries', Order d
      (x.turn n (.reserve i.records signal.encodedSize) ⟨i, timestamp, .submitting signal
        (i.answered timestamp signal (i.records.reserve signal.encodedSize x.shared).1)⟩)
      entries' authors := by
  rcases h.books.queued.reserve (h.placed n _ he).records signal.encodedSize with
    ⟨k, s, hr, hlen, hk, hq⟩ | ⟨cause, s, hr, hq, -⟩
  · rw [hr]
    exact ⟨_, h.ask_granted he hs hn hr hlen hk hq⟩
  · rw [hr]
    exact ⟨_, h.ask_refused he hn hr hq⟩

theorem Order.write {r : Reservation} (h : Order d x entries authors)
    (he : x.emissions[n]? =
      some ⟨i, timestamp, .submitting signal (i.writing timestamp signal r)⟩)
    (hs : signal.WellFormed) (hmem : (k, n) ∈ entries) (hr : d.Holds r k) (hk : k.phase = .writing)
    (hlen : k.data.length = signal.encodedSize) :
    ∃ entries', Order d
      (x.turn n (.commitRecord r (signal.encode i.shard timestamp))
        ⟨i, timestamp, .submitting signal i.counting⟩) entries' authors := by
  obtain ⟨pre, post, rfl⟩ := List.append_of_mem hmem
  have hsize : (signal.encode i.shard timestamp).length = k.data.length :=
    (signal.length_encode _ _).trans hlen.symm
  have hq : d.Queued
      ((Op.commitRecord r (signal.encode i.shard timestamp)).perform x.shared).2
      ((pre ++ ({ k with data := signal.encode i.shard timestamp, phase := .committed }, n) ::
        post).map (·.1)) := by
    have hold := h.books.queued
    rw [List.map_append, List.map_cons] at hold ⊢
    exact hold.commitRecord hr hk hsize
  refine ⟨_, h.of_turn he rfl (h.books.committed he rfl hq rfl rfl fun _ hr => hr) ?_ ?_ nofun⟩
  · intro a m ha _ hm
    rcases List.mem_append.mp ha with ha | ha
    · exact List.mem_append_left _ ha
    · rcases List.mem_cons.mp ha with ha | ha
      · exact absurd (congrArg Prod.snd ha) hm
      · exact List.mem_append_right _ (List.mem_cons_of_mem _ ha)
  · refine .counting hs ?_ rfl
    rw [granted_turn, h.books.granted_eq]
    simp

/-- Whatever a submission does next, it keeps the order. -/
theorem Order.submit {next : op.Reply → Activity EmitOutcome} (h : Order d x entries authors)
    (he : x.emissions[n]? = some ⟨i, timestamp, .submitting signal (.step op next)⟩) :
    ∃ entries', Order d
      (x.turn n op ⟨i, timestamp, .submitting signal (next (op.perform x.shared).1)⟩) entries'
      authors := by
  have hstanding : Standing d x entries n i timestamp (.submitting signal (.step op next)) :=
    h.standing n _ he
  cases hstanding with
  | asking hs hn ha =>
    rw [ha] at he
    rw [Invocation.submit_eq] at ha
    cases ha
    exact h.ask he hs hn
  | writing hs hk hr hw hlen ha =>
    cases ha
    exact h.write he hs hk hr hw hlen
  | counting hs hn ha =>
    cases ha
    exact ⟨_, h.aside he trivial nofun (.submitted hs (mem_granted_turn hn))⟩
  | dropping hn hr ha =>
    cases ha
    exact ⟨_, h.aside he trivial nofun (.reporting (hn.turn rfl rfl) hr.turn rfl)⟩
  | reporting hn hr ha =>
    cases ha
    exact ⟨_, h.aside he trivial nofun (.dropped (hn.turn rfl rfl) hr.turn)⟩

end Submit

/-! ### Beginnings -/

theorem always_begins (h : e.Begins) : ∃ a, e.stage = .capturing a ∧
    a.Always (e.invocation.writer.Does e.invocation.settings) Signal.WellFormed := by
  cases h with
  | task i timestamp source task =>
    exact ⟨_, rfl, (i.always_capture source task).bind fun t ht => ht⟩
  | cgroup => exact ⟨_, rfl, trivial⟩

theorem Order.start (h : Order d x entries authors) (he : e.Begins) (hp : e.Placed d) :
    Order d { x with emissions := x.emissions ++ [e] } entries authors := by
  have hkept {m : Nat} {a : Emission} (ha : x.emissions[m]? = some a) :
      (x.emissions ++ [e])[m]? = some a := by
    rw [List.getElem?_append_left (List.getElem?_eq_some_iff.mp ha).1]
    exact ha
  have hbooks : Books d { x with emissions := x.emissions ++ [e] } entries authors := by
    refine h.books.frame h.books.queued rfl rfl ?_ ?_ ?_
    · intro m r hm
      obtain ⟨a, ha, hr⟩ := Option.bind_eq_some_iff.mp hm
      exact Option.bind_eq_some_iff.mpr ⟨a, hkept ha, hr⟩
    · rintro m ⟨i, timestamp, signal, r, hm⟩
      exact ⟨i, timestamp, signal, r, hkept hm⟩
    · intro t ht
      rw [List.length_append]
      exact Nat.lt_add_right _ (h.books.known t ht)
  have hnew : Untouched d { x with emissions := x.emissions ++ [e] } x.emissions.length := by
    constructor
    case ungranted =>
      intro hmem
      obtain ⟨t, ht, hg⟩ := List.mem_filterMap.mp hmem
      have hlt := h.books.known t ht
      rw [Turn.emission_of_granted? hg] at hlt
      exact Nat.lt_irrefl _ hlt
    case leaves => exact fun t ht heq => absurd (h.books.known t ht) (heq ▸ Nat.lt_irrefl _)
  refine h.of_emission hbooks (n := x.emissions.length)
    ⟨fun _ _ => Iff.rfl, List.Subset.refl _, fun _ ht _ => ht, fun _ _ hk _ _ => hk⟩ ?_ ?_ ?_
  · intro m hm
    rw [List.getElem?_append]
    split
    · rfl
    · rw [List.getElem?_eq_none (by simp; omega), List.getElem?_eq_none (by omega)]
  · intro a ha
    rw [List.getElem?_concat_length] at ha
    obtain rfl := Option.some.inj ha
    obtain ⟨b, hb, halways⟩ := always_begins he
    rw [hb]
    exact ⟨hp, .capturing halways hnew⟩
  · exact fun t ht hold => absurd ht hold

theorem Order.captured {signal : Signal} (h : Order d x entries authors)
    (he : x.emissions[n]? = some ⟨i, timestamp, .capturing (.done signal)⟩) :
    Order d { x with
      emissions :=
        x.emissions.set n ⟨i, timestamp, .submitting signal (i.submit timestamp signal)⟩ }
      entries authors := by
  have hlt := (List.getElem?_eq_some_iff.mp he).1
  have hother {m : Nat} (hm : m ≠ n) :
      (x.emissions.set n ⟨i, timestamp, .submitting signal (i.submit timestamp signal)⟩)[m]? =
        x.emissions[m]? := List.getElem?_set_ne (Ne.symm hm)
  cases h.standing n _ he with
  | capturing ha hn =>
    refine h.of_emission (n := n) ?_
      ⟨fun _ _ => Iff.rfl, List.Subset.refl _, fun _ ht _ => ht, fun _ _ hk _ _ => hk⟩
      (fun m hm => hother hm) ?_ (fun t ht hold => absurd ht hold)
    · refine h.books.frame h.books.queued rfl rfl ?_ ?_ ?_
      · intro m r hm
        have hne : m ≠ n := by
          rintro rfl
          rw [record?, he] at hm
          cases hm
        rw [record?, hother hne]
        exact hm
      · rintro m ⟨i', timestamp', signal', r, hm⟩
        have hne : m ≠ n := by
          rintro rfl
          cases he.symm.trans hm
        exact ⟨i', timestamp', signal', r, (hother hne).trans hm⟩
      · intro t ht
        rw [List.length_set]
        exact h.books.known t ht
    · intro a hset
      rw [List.getElem?_set_self hlt] at hset
      obtain rfl := Option.some.inj hset
      have hp := h.placed n _ he
      exact ⟨⟨hp.records, hp.chunks⟩, .asking ha ⟨hn.ungranted, hn.leaves⟩ rfl⟩

/-- The front of the channel. -/
theorem Books.front (h : Books d x entries authors) :
    (Queue.ready? (entries.map (·.1)) = none ∧ Queue.rest (entries.map (·.1)) = entries.map (·.1) ∧
      ∀ k n rest, entries = (k, n) :: rest → x.Writing n) ∨
    ∃ k n rest, entries = (k, n) :: rest ∧ k.phase = .committed ∧ x.record? n = some k.data ∧
      Queue.ready? (entries.map (·.1)) = some k.data ∧
      Queue.rest (entries.map (·.1)) = rest.map (·.1) := by
  cases entries with
  | nil => exact .inl ⟨rfl, rfl, nofun⟩
  | cons e rest =>
    obtain ⟨k, n⟩ := e
    have hfront : (k.phase = .committed ∧ x.record? n = some k.data) ∨
      (k.phase = .writing ∧ x.Writing n) := h.entries (k, n) List.mem_cons_self
    rcases hfront with ⟨hk, hm⟩ | ⟨hk, hw⟩
    · refine .inr ⟨k, n, rest, rfl, hk, hm, ?_, ?_⟩ <;> simp [Queue.ready?, Queue.rest, hk]
    · refine .inl ⟨by simp [Queue.ready?, hk], by simp [Queue.rest, hk], ?_⟩
      rintro k' n' rest' heq
      cases heq
      exact hw

/-- Nothing happens to the emissions. -/
theorem Order.still (h : Order d x entries authors) (hbooks : Books d y entries' authors')
    (hemissions : y.emissions = x.emissions) (hturns : y.turns = x.turns)
    (hw : ∀ k m, (k, m) ∈ entries → k.phase = .writing → (k, m) ∈ entries') :
    Order d y entries' authors' := by
  have hgranted : y.granted = x.granted := by
    unfold granted
    rw [hturns]
  refine h.of_emission hbooks (n := x.emissions.length) ⟨?_, ?_, ?_, ?_⟩ ?_ ?_ ?_
  · exact fun _ _ => by rw [hgranted]
  · exact hturns ▸ List.Subset.refl _
  · exact fun _ ht _ => hturns ▸ ht
  · exact fun k m hk hp _ => hw k m hk hp
  · exact fun m _ => by rw [hemissions]
  · intro e he
    rw [hemissions, List.getElem?_eq_none (Nat.le_refl _)] at he
    cases he
  · exact fun t ht hold => absurd (hturns ▸ ht) hold

theorem Order.receive (h : Order d x entries authors) (hu : d.Views u) :
    ∃ entries' authors', Order d
      { x with shared := (u.receive x.shared).2, received := x.received ++ u.ready x.shared }
      entries' authors' := by
  have hready := h.books.queued.ready hu
  have hq := (h.books.queued.receive hu).2
  generalize (u.receive x.shared).2 = s at hq
  rcases h.books.front with ⟨hnone, hrest, -⟩ | ⟨k, n, rest, rfl, hk, hrecord, hsome, hrest⟩
  · rw [hrest] at hq
    rw [hready, hnone, Option.toList_none, List.append_nil]
    have hbooks : Books d { x with shared := s, received := x.received } entries authors :=
      h.books.frame hq rfl rfl (fun _ _ hr => hr) (fun _ hw => hw) h.books.known
    exact ⟨_, _, h.still hbooks rfl rfl fun _ _ hk _ => hk⟩
  · rw [hrest] at hq
    rw [hready, hsome]
    refine ⟨rest, authors ++ [n], h.still ?_ rfl rfl ?_⟩
    · constructor
      case queued => exact hq
      case granted_eq =>
        refine h.books.granted_eq.trans ?_
        simp
      case distinct => exact h.books.distinct
      case received => exact List.rel_append h.books.received (.cons hrecord .nil)
      case entries => exact fun e he => h.books.entries e (List.mem_cons_of_mem _ he)
      case known => exact h.books.known
    · intro k' m hm hp
      refine (List.mem_cons.mp hm).resolve_left ?_
      rintro heq
      cases heq
      rw [hk] at hp
      cases hp

theorem Order.step (h : Order d x entries authors) (hs : Step d x y) :
    ∃ entries' authors', Order d y entries' authors' := by
  cases hs with
  | start he hp => exact ⟨_, _, h.start he hp⟩
  | capture n he => exact ⟨_, _, h.capture he⟩
  | captured n he => exact ⟨_, _, h.captured he⟩
  | submit n he =>
    obtain ⟨entries', h'⟩ := h.submit he
    exact ⟨entries', _, h'⟩
  | receive hu => exact h.receive hu
  | @elsewhere s hregion htallies =>
    have hbooks : Books d { x with shared := s } entries authors :=
      h.books.frame (h.books.queued.of_memory hregion) rfl rfl (fun _ _ hr => hr)
        (fun _ hw => hw) h.books.known
    exact ⟨_, _, h.still hbooks rfl rfl fun _ _ hk _ => hk⟩

end Filing
end ChainRelay
