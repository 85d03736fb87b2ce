import ChainRelay.Proofs.Emission.Steps

/-!
What one emission does is nothing to the others. An emission goes from copy to copy, then reserves
room for its record and writes it; whatever it does next, it keeps the order.
-/

namespace ChainRelay

open ChainRelay.Ring Copy

namespace Emissions

variable {c d : Channel} {ids room n m : Nat} {a₀ : Allocator} {x x' : Emissions}
  {g g' g'' : Docket} {claims claims' : List Claim} {got got' kept kept' : List ChunkView}
  {heads : List ChunkId}

/-- What everyone but one emission finds again. -/
structure Onward (n : Nat) (g g' : Docket) : Prop where
  owners : ∀ copy m : Nat, g.owners[copy]? = some m → g'.owners[copy]? = some m
  others : ∀ copy m : Nat, g.owners[copy]? = some m → m ≠ n →
    g'.exchange.copies[copy]? = g.exchange.copies[copy]?
  reported : ∀ copy head, g.exchange.Reported copy head → g'.exchange.Reported copy head
  entries : ∀ k m, (k, m) ∈ g.entries → k.phase = .writing → m ≠ n → (k, m) ∈ g'.entries
  filed : ∀ m, m ≠ n → m ∈ g'.filed → m ∈ g.filed

theorem Onward.refl (n : Nat) (g : Docket) : Onward n g g :=
  ⟨fun _ _ h => h, fun _ _ _ _ => rfl, fun _ _ h => h, fun _ _ h _ _ => h, fun _ _ h => h⟩

theorem Onward.trans (h : Onward n g g') (h' : Onward n g' g'') : Onward n g g'' where
  owners copy m hm := h'.owners copy m (h.owners copy m hm)
  others copy m hm hne := (h'.others copy m (h.owners copy m hm) hne).trans (h.others copy m hm hne)
  reported copy head hr := h'.reported copy head (h.reported copy head hr)
  entries k m hk hw hne := h'.entries k m (h.entries k m hk hw hne) hw hne
  filed m hne hm := h.filed m hne (h'.filed m hne hm)

theorem Docket.Names.onward (h : g.Names m heads) (ho : Onward n g g') : g'.Names m heads := by
  refine ⟨h.distinct, fun head hhead hne => ?_⟩
  obtain ⟨copy, howner, hr⟩ := h.reported head hhead hne
  exact ⟨copy, ho.owners copy m howner, ho.reported copy head hr⟩

theorem Docket.Files.onward {record : Bytes} (h : g.Files m record) (ho : Onward n g g') :
    g'.Files m record := by
  obtain ⟨header, t, hdecode, hnames⟩ := h
  exact ⟨header, t, hdecode, hnames.onward ho⟩

theorem Stage.onward {a : Activity EmitOutcome} (h : Stage c d ids g m a) (ho : Onward n g g')
    (hne : m ≠ n) : Stage c d ids g' m a := by
  have hnew (hold : m ∉ g.filed) : m ∉ g'.filed := fun hm => hold (ho.filed m hne hm)
  cases h with
  | pausing hi hop hplan hnames hold ha =>
    exact .pausing hi hop hplan (hnames.onward ho) (hnew hold) ha
  | copying hi hcopy hbusy howner hplan hnames hold ha =>
    have hcopy := (ho.others _ m howner hne).trans hcopy
    exact .copying hi hcopy hbusy (ho.owners _ m howner) hplan (hnames.onward ho) (hnew hold) ha
  | captured hi ht hnames hold ha => exact .captured hi ht (hnames.onward ho) (hnew hold) ha
  | writing hentry hk hw hlen hfiles hnext ha =>
    exact .writing (ho.entries _ m hentry hw hne) hk hw hlen (hfiles.onward ho) hnext ha
  | closing h => exact .closing h

/-- The doing of one emission, seen by all. -/
theorem Order.of_emission (h : Order c d ids a₀ room x g claims got kept)
    (hbase : Base c d ids a₀ room x' g' claims' got' kept') (ho : Onward n g g')
    (hothers : ∀ m : Nat, m ≠ n → x'.running[m]? = x.running[m]?)
    (hself : ∀ a, x'.running[n]? = some a → Stage c d ids g' n a) :
    Order c d ids a₀ room x' g' claims' got' kept' := by
  refine ⟨hbase, fun m a ha => ?_⟩
  by_cases hm : m = n
  · subst hm
    exact hself a ha
  · rw [hothers m hm] at ha
    exact (h.stages m a ha).onward ho hm

/-- Records stay what they are while an emission goes on. -/
theorem Records.onward (h : Records d x g) (ho : Onward n g g') (hentries : g'.entries = g.entries)
    (hauthors : g'.authors = g.authors) (hq : d.Queued x'.shared (g.entries.map (·.1)))
    (hreceived : x'.received = x.received) (hlen : x.running.length ≤ x'.running.length) :
    Records d x' g' := by
  have hfiled : g'.filed = g.filed := by
    unfold Docket.filed
    rw [hentries, hauthors]
  constructor
  case queued =>
    rw [hentries]
    exact hq
  case entries =>
    rw [hentries]
    exact fun e he hc => (h.entries e he hc).onward ho
  case received =>
    rw [hauthors, hreceived]
    exact h.received.imp fun _ _ hfiles => hfiles.onward ho
  case distinct =>
    rw [hfiled]
    exact h.distinct
  case known =>
    rw [hfiled]
    exact fun m hm => Nat.lt_of_lt_of_le (h.known m hm) hlen

def Docket.begun (g : Docket) (n : Nat) (r : Running) : Docket :=
  { g with
    exchange := { g.exchange with copies := g.exchange.copies ++ [r] }
    owners := g.owners ++ [n] }

theorem Base.onward_begun (h : Base c d ids a₀ room x g claims got kept) (n : Nat) (r : Running) :
    Onward n g (g.begun n r) := by
  have hkept {α : Type} {l : List α} {i : Nat} {a : α} (more : List α) (hi : l[i]? = some a) :
      (l ++ more)[i]? = some a := by
    rw [List.getElem?_append_left (List.getElem?_eq_some_iff.mp hi).1]
    exact hi
  constructor
  case owners => exact fun copy m hm => hkept [n] hm
  case others =>
    intro copy m hm _
    have hlt := (List.getElem?_eq_some_iff.mp hm).1
    rw [h.owners_length] at hlt
    exact List.getElem?_append_left hlt
  case reported =>
    rintro copy head ⟨call, o, hr, hhead⟩
    exact ⟨call, o, hkept [r] hr, hhead⟩
  case entries => exact fun _ _ hk _ _ => hk
  case filed => exact fun _ _ hm => hm

theorem Base.begun (h : Base c d ids a₀ room x g claims got kept) {n : Nat} {call : Call}
    (hv : c.Views call.writer.channel) (hids : call.writer.ids = ids) :
    Base c d ids a₀ room x (g.begun n ⟨call, call.activity⟩) claims got kept := by
  have ho := h.onward_begun n ⟨call, call.activity⟩
  constructor
  case course => exact h.course.started call hv hids
  case shared_eq => exact h.shared_eq
  case store_eq => exact h.store_eq
  case opened_eq => exact h.opened_eq
  case owners_length =>
    simp only [Docket.begun, List.length_append, h.owners_length, List.length_singleton]
  case drained => exact h.drained
  case records => exact h.records.onward ho rfl rfl h.records.queued rfl (Nat.le_refl _)
  case collected =>
    intro copy hcopy
    obtain ⟨m, hm, author, hauthor, howner⟩ := h.collected copy hcopy
    exact ⟨m, hm, author, hauthor, ho.owners copy author howner⟩

/-- A copy that has just returned adds its head to those of its emission. -/
theorem Base.names_add (hb : Base c d ids a₀ room x g' claims got kept) (h : g.Names n heads)
    (ho : Onward n g g') {copy : Nat} {head : ChunkId} (howner : g'.owners[copy]? = some n)
    (hr : g'.exchange.Reported copy head) (hbusy : ∀ head, ¬g.exchange.Reported copy head) :
    g'.Names n (head :: heads) := by
  have hold := h.onward ho
  constructor
  · by_cases hne : head = .none
    · rw [List.filter_cons_of_neg (by simpa using hne)]
      exact h.distinct
    · rw [List.filter_cons_of_pos (by simpa using hne), List.nodup_cons]
      refine ⟨fun hmem => ?_, h.distinct⟩
      obtain ⟨other, -, hother⟩ := h.reported head (List.mem_filter.mp hmem).1 hne
      have heq := hb.course.reported_once hr (ho.reported other head hother) hne
      exact hbusy head (heq ▸ hother)
  · intro other hother hne
    rcases List.mem_cons.mp hother with rfl | hother
    · exact ⟨copy, howner, hr⟩
    · exact hold.reported other hother hne

theorem Docket.Names.lists {t : Task} (h : g.Names n heads)
    (hlists : Writer.Plan.Lists heads t.heads.reverse) : g.Names n t.heads := by
  unfold Writer.Plan.Lists at hlists
  constructor
  · have hsub := hlists.filter (· ≠ .none)
    rw [List.filter_filter] at hsub
    have hnodup := h.distinct.sublist hsub
    simpa [List.filter_reverse, List.nodup_reverse] using hnodup
  · intro head hhead hne
    apply h.reported head _ hne
    exact hlists.subset (List.mem_filter.mpr ⟨List.mem_reverse.mpr hhead, by simpa using hne⟩)

/-- An emission that has a plan is between two copies, in the middle of one, or done with them:
copies that need no operation are over at once. -/
theorem Base.settles {i : Invocation} {a : Activity Task} (hplan : Planned i heads a)
    (hi : i.Uses c d ids) (h : Base c d ids a₀ room x g claims got kept) (hnames : g.Names n heads)
    (hnew : n ∉ g.filed) (timestamp : UInt64) :
    ∃ g', Base c d ids a₀ room x g' claims got kept ∧ Onward n g g' ∧
      Stage c d ids g' n (i.file timestamp a) := by
  induction hplan generalizing g with
  | @done heads t hpost =>
    obtain ⟨ht, hlists⟩ := hpost
    exact ⟨g, h, .refl n g, .captured hi ht (hnames.lists hlists) hnew rfl⟩
  | aside hop hnext =>
    exact ⟨g, h, .refl n g, .pausing hi hop hnext hnames hnew rfl⟩
  | @copy heads call hw next hnext ih =>
    have hv : c.Views call.writer.channel := by
      rw [hw]
      exact hi.chunks
    have hids : call.writer.ids = ids := by
      rw [hw]
      exact hi.ids_eq
    have hb := h.begun (n := n) hv hids
    have ho := h.onward_begun n ⟨call, call.activity⟩
    have hcopy : (g.begun n ⟨call, call.activity⟩).exchange.copies[g.exchange.copies.length]? =
        some ⟨call, call.activity⟩ := List.getElem?_concat_length
    have howner : (g.begun n ⟨call, call.activity⟩).owners[g.exchange.copies.length]? = some n := by
      rw [← h.owners_length]
      exact List.getElem?_concat_length
    by_cases hdone : ∃ o, call.activity = .done o
    · obtain ⟨o, ho'⟩ := hdone
      have hbusy (head : ChunkId) : ¬g.exchange.Reported g.exchange.copies.length head := by
        rintro ⟨call, o, hr, -⟩
        simp at hr
      have hnames' := hb.names_add hnames ho howner ⟨call, o, by rw [hcopy, ho'], rfl⟩ hbusy
      obtain ⟨g', hb', hon, hstage⟩ := ih o hb hnames' hnew
      rw [ho']
      exact ⟨g', hb', ho.trans hon, hstage⟩
    · refine ⟨_, hb, ho, .copying hi hcopy ?_ howner hnext (hnames.onward ho) hnew rfl⟩
      exact fun o ho' => hdone ⟨o, ho'⟩

section Advance

variable {a : Activity EmitOutcome} {op : Op} {next : op.Reply → Activity EmitOutcome}

theorem getElem?_advance_other (hm : m ≠ n) :
    (x.advance n op next).running[m]? = x.running[m]? := List.getElem?_set_ne (Ne.symm hm)

theorem getElem?_advance_self (hrun : x.running[n]? = some a) :
    (x.advance n op next).running[n]? = some (next (op.perform x.shared).1) :=
  List.getElem?_set_self (List.getElem?_eq_some_iff.mp hrun).1

/-- An operation of an emission, seen by all. -/
theorem Order.of_advance (h : Order c d ids a₀ room x g claims got kept)
    (hrun : x.running[n]? = some a)
    (hbase : Base c d ids a₀ room (x.advance n op next) g' claims' got' kept')
    (ho : Onward n g g') (hstage : Stage c d ids g' n (next (op.perform x.shared).1)) :
    Order c d ids a₀ room (x.advance n op next) g' claims' got' kept' := by
  refine h.of_emission hbase ho (fun m hm => getElem?_advance_other hm) fun b hb => ?_
  rw [getElem?_advance_self hrun] at hb
  cases hb
  exact hstage

def Docket.after (g : Docket) (s : Shared) (entries : List (Booking × Nat)) : Docket :=
  { g with exchange := { g.exchange with shared := s }, entries }

/-- An operation of an emission that leaves the chunk channel alone. -/
theorem Base.beside {entries : List (Booking × Nat)}
    (h : Base c d ids a₀ room x g claims got kept)
    (hquiet : op.opens? (op.perform x.shared).1 = none) (hregion : op.region? ≠ some c.region)
    (ha : (op.perform x.shared).2.allocators = x.shared.allocators)
    (hrecords : Records d (x.advance n op next) (g.after (op.perform x.shared).2 entries)) :
    Base c d ids a₀ room (x.advance n op next) (g.after (op.perform x.shared).2 entries) claims got
      kept := by
  have hs := h.shared_eq
  have hqueued := h.course.books.queued
  rw [hs] at hqueued
  constructor
  case course =>
    apply h.course.of_shared
    · rw [ha, hs]
    · exact hqueued.of_memory (op.get_perform hregion x.shared)
  case shared_eq => rfl
  case store_eq => exact h.store_eq
  case opened_eq =>
    unfold advance
    rw [hquiet]
    exact h.opened_eq.trans (List.append_nil _).symm
  case owners_length => exact h.owners_length
  case drained => exact h.drained
  case records => exact hrecords
  case collected => exact h.collected

theorem onward_after {s : Shared} {entries : List (Booking × Nat)}
    (hentries : ∀ k m, (k, m) ∈ g.entries → k.phase = .writing → m ≠ n → (k, m) ∈ entries)
    (hfiled : ∀ m, m ≠ n → m ∈ entries.map (·.2) → m ∈ g.filed) :
    Onward n g (g.after s entries) := by
  refine ⟨fun _ _ h => h, fun _ _ _ _ => rfl, fun _ _ h => h, hentries, fun m hne hm => ?_⟩
  rcases List.mem_append.mp hm with hm | hm
  · exact List.mem_append_left _ hm
  · exact hfiled m hne hm

theorem onward_still (s : Shared) : Onward n g (g.after s g.entries) :=
  onward_after (fun _ _ hk _ _ => hk) fun _ _ hm => List.mem_append_right _ hm

/-- Counting and reporting change nothing that anybody relies on. -/
theorem Base.aside (h : Base c d ids a₀ room x g claims got kept) (hop : op.IsAside) :
    Base c d ids a₀ room (x.advance n op next) (g.after (op.perform x.shared).2 g.entries) claims
      got kept := by
  obtain ⟨hregions, ha⟩ := hop.perform x.shared
  have hquiet : op.opens? (op.perform x.shared).1 = none ∧ op.region? ≠ some c.region := by
    cases op with
    | count | report => exact ⟨rfl, nofun⟩
    | openChunk | fillChunk | commitChunk | abandonChunk | reserve | commitRecord => exact hop.elim
  have hqueued : d.Queued (x.advance n op next).shared (g.entries.map (·.1)) :=
    h.records.queued.of_memory (congrArg (·.get d.region) hregions)
  apply h.beside hquiet.1 hquiet.2 ha
  exact h.records.onward (onward_still (n := n) _) rfl rfl hqueued rfl
    (Nat.le_of_eq List.length_set.symm)

theorem Order.paused {i : Invocation} {timestamp : UInt64} {task : op.Reply → Activity Task}
    (h : Order c d ids a₀ room x g claims got kept) (hrun : x.running[n]? = some a)
    (hi : i.Uses c d ids) (hop : op.IsAside) (hplan : ∀ reply, Planned i heads (task reply))
    (hnames : g.Names n heads) (hnew : n ∉ g.filed) :
    ∃ g', Order c d ids a₀ room (x.advance n op fun reply => i.file timestamp (task reply)) g'
      claims got kept := by
  have hbase : Base c d ids a₀ room (x.advance n op fun reply => i.file timestamp (task reply))
      (g.after (op.perform x.shared).2 g.entries) claims got kept := h.base.aside hop
  have ho := onward_still (n := n) (g := g) (op.perform x.shared).2
  obtain ⟨g', hbase', ho', hstage⟩ :=
    hbase.settles (hplan _) hi (hnames.onward ho) (fun hm => hnew hm) timestamp
  exact ⟨g', h.of_advance hrun hbase' (ho.trans ho') hstage⟩

theorem Order.closed (h : Order c d ids a₀ room x g claims got kept)
    (hrun : x.running[n]? = some a) (hop : op.IsAside) (hnext : ∀ reply, Closes (next reply)) :
    ∃ g', Order c d ids a₀ room (x.advance n op next) g' claims got kept := by
  exact ⟨_, h.of_advance hrun (h.base.aside hop) (onward_still _) (.closing (hnext _))⟩

def Docket.copied (g : Docket) (copy : Nat) (call : Call) (op : Op)
    (more : op.Reply → Activity CopyOutcome) : Docket :=
  { g with exchange := g.exchange.advance copy call op more }

section Copy

variable {copy : Nat} {call : Call} {more : op.Reply → Activity CopyOutcome}

theorem onward_copied (hcopy : g.exchange.copies[copy]? = some ⟨call, .step op more⟩)
    (howner : g.owners[copy]? = some n) : Onward n g (g.copied copy call op more) := by
  constructor
  case owners => exact fun _ _ hm => hm
  case others =>
    intro other m hm hne
    apply List.getElem?_set_ne
    rintro rfl
    rw [howner] at hm
    exact hne (Option.some.inj hm).symm
  case reported =>
    rintro other head ⟨call', o, hr, hhead⟩
    refine ⟨call', o, ?_, hhead⟩
    rw [← hr]
    apply List.getElem?_set_ne
    rintro rfl
    rw [hcopy] at hr
    cases hr
  case entries => exact fun _ _ hk _ _ => hk
  case filed => exact fun _ _ hm => hm

theorem Base.copied (h : Base c d ids a₀ room x g claims got kept) (hapart : d.region ≠ c.region)
    (hcopy : g.exchange.copies[copy]? = some ⟨call, .step op more⟩)
    (howner : g.owners[copy]? = some n)
    (hfew : ∀ slot, a₀.share slot (x.advance n op next).opened < Allocator.period) :
    ∃ claims', Base c d ids a₀ room (x.advance n op next) (g.copied copy call op more) claims' got
      kept := by
  have hs := h.shared_eq
  have hopened :
      (g.exchange.advance copy call op more).openedIds = (x.advance n op next).opened := by
    rw [Exchange.openedIds_advance, h.opened_eq, hs]
    rfl
  obtain ⟨claims', hcourse⟩ := h.course.advance hcopy (by
    rw [hopened]
    exact hfew)
  obtain ⟨t, ht⟩ := h.course.attends hcopy
  obtain ⟨t', hstep, -⟩ := ht.follows _ (op.answers_perform x.shared)
  have hframe := op.get_perform (ht.op_region hstep hapart) x.shared
  refine ⟨claims', ?_⟩
  constructor
  case course => exact hcourse
  case shared_eq =>
    show (op.perform g.exchange.shared).2 = (op.perform x.shared).2
    rw [hs]
  case store_eq => exact h.store_eq
  case opened_eq => exact hopened
  case owners_length => exact h.owners_length.trans List.length_set.symm
  case drained => exact h.drained
  case records =>
    have hqueued : d.Queued (x.advance n op next).shared (g.entries.map (·.1)) :=
      h.records.queued.of_memory hframe
    exact h.records.onward (onward_copied hcopy howner) rfl rfl hqueued rfl
      (Nat.le_of_eq List.length_set.symm)
  case collected => exact h.collected

theorem Order.copied {i : Invocation} {timestamp : UInt64} {task : CopyOutcome → Activity Task}
    (h : Order c d ids a₀ room x g claims got kept) (hapart : d.region ≠ c.region)
    (hrun : x.running[n]? = some a) (hi : i.Uses c d ids)
    (hcopy : g.exchange.copies[copy]? = some ⟨call, .step op more⟩)
    (howner : g.owners[copy]? = some n) (hplan : ∀ o, Planned i (o.head :: heads) (task o))
    (hnames : g.Names n heads) (hnew : n ∉ g.filed)
    (hfew : ∀ slot, a₀.share slot (x.advance n op fun reply =>
      i.file timestamp (more reply >>= task)).opened < Allocator.period) :
    ∃ g' claims', Order c d ids a₀ room
      (x.advance n op fun reply => i.file timestamp (more reply >>= task)) g' claims' got kept := by
  obtain ⟨claims', hbase⟩ := h.base.copied hapart hcopy howner hfew
  have ho := onward_copied (n := n) hcopy howner
  have hcopy' : (g.copied copy call op more).exchange.copies[copy]? =
      some ⟨call, more (op.perform x.shared).1⟩ := by
    rw [← h.base.shared_eq]
    exact List.getElem?_set_self (List.getElem?_eq_some_iff.mp hcopy).1
  obtain ⟨g', hbase', ho', hstage⟩ : ∃ g', Base c d ids a₀ room
      (x.advance n op fun reply => i.file timestamp (more reply >>= task)) g' claims' got kept ∧
      Onward n g g' ∧
      Stage c d ids g' n (i.file timestamp (more (op.perform x.shared).1 >>= task)) := by
    by_cases hdone : ∃ o, more (op.perform x.shared).1 = .done o
    · obtain ⟨o, hdone⟩ := hdone
      have hbusy (head : ChunkId) : ¬g.exchange.Reported copy head := by
        rintro ⟨call', o', hr, -⟩
        rw [hcopy] at hr
        cases hr
      have hnames' := hbase.names_add hnames ho howner ⟨call, o, by rw [hcopy', hdone], rfl⟩ hbusy
      obtain ⟨g', hbase', ho', hstage⟩ :=
        hbase.settles (hplan o) hi hnames' (fun hm => hnew hm) timestamp
      rw [hdone]
      exact ⟨g', hbase', ho.trans ho', hstage⟩
    · refine ⟨_, hbase, ho, .copying hi hcopy' ?_ howner hplan (hnames.onward ho) hnew rfl⟩
      exact fun o ho' => hdone ⟨o, ho'⟩
  exact ⟨g', claims', h.of_advance hrun hbase' ho' hstage⟩

end Copy

/-- Only the reservation stands between a captured task and its record. -/
theorem submit_step (i : Invocation) (timestamp : UInt64) (signal : Signal) :
    ∃ next, i.submit timestamp signal = .step (.reserve i.records signal.encodedSize) next ∧
      (∀ e, Closes (next (.error e))) ∧
      ∀ r, ∃ after, Closes after ∧
        next (.ok r) =
          .step (.commitRecord r (signal.encode i.shard timestamp)) fun _ => after := by
  refine ⟨_, rfl, ?_, ?_⟩
  · intro e
    cases e with
    | overflow => exact trivial
    | full | invalidSize => exact ⟨trivial, fun _ => ⟨trivial, fun _ => trivial⟩⟩
  · intro r
    refine ⟨_, ?_, rfl⟩
    exact ⟨trivial, fun _ => trivial⟩

theorem Records.after {s : Shared} {entries : List (Booking × Nat)} (h : Records d x g)
    (ho : Onward n g (g.after s entries)) (hq : d.Queued x'.shared (entries.map (·.1)))
    (hentries : ∀ e ∈ entries, e.1.phase = .committed → g.Files e.2 e.1.data)
    (hreceived : x'.received = x.received) (hdistinct : (g.authors ++ entries.map (·.2)).Nodup)
    (hknown : ∀ m ∈ g.authors ++ entries.map (·.2), m < x'.running.length) :
    Records d x' (g.after s entries) := by
  refine ⟨hq, fun e he hc => (hentries e he hc).onward ho, ?_, hdistinct, hknown⟩
  rw [hreceived]
  exact h.received.imp fun _ _ hfiles => hfiles.onward ho

/-- A reservation is entered for its emission. -/
theorem Records.reserved {s : Shared} {k : Booking} (h : Records d x g)
    (hq : d.Queued x'.shared ((g.entries ++ [(k, n)]).map (·.1))) (hw : k.phase = .writing)
    (hnew : n ∉ g.filed) (hlt : n < x.running.length) (hreceived : x'.received = x.received)
    (hlen : x'.running.length = x.running.length) :
    Onward n g (g.after s (g.entries ++ [(k, n)])) ∧
      Records d x' (g.after s (g.entries ++ [(k, n)])) := by
  have ho : Onward n g (g.after s (g.entries ++ [(k, n)])) := by
    apply onward_after
    · exact fun _ _ hk _ _ => List.mem_append_left _ hk
    · intro m hne hm
      rw [List.map_append] at hm
      apply List.mem_append_right
      exact (List.mem_append.mp hm).resolve_right fun hm => hne (List.mem_singleton.mp hm)
  have hfiled : g.authors ++ (g.entries ++ [(k, n)]).map (·.2) = g.filed ++ [n] := by
    simp [Docket.filed]
  refine ⟨ho, h.after ho hq ?_ hreceived ?_ ?_⟩
  · intro e he hc
    rcases List.mem_append.mp he with he | he
    · exact h.entries e he hc
    · rw [List.mem_singleton.mp he, hw] at hc
      cases hc
  · rw [hfiled]
    simpa using h.distinct.concat hnew
  · rw [hfiled, hlen]
    intro m hm
    rcases List.mem_append.mp hm with hm | hm
    · exact h.known m hm
    · exact List.mem_singleton.mp hm ▸ hlt

theorem Order.reserved {i : Invocation} {timestamp : UInt64} {t : Task}
    (h : Order c d ids a₀ room x g claims got kept) (hapart : d.region ≠ c.region)
    (hrun : x.running[n]? = some (.step op next)) (hi : i.Uses c d ids) (ht : t.WellFormed)
    (hnames : g.Names n t.heads) (hnew : n ∉ g.filed)
    (hsubmit : .step op next = i.submit timestamp (.taskExec t)) :
    ∃ g', Order c d ids a₀ room (x.advance n op next) g' claims got kept := by
  obtain ⟨next', hstep, herror, hok⟩ := submit_step i timestamp (.taskExec t)
  rw [← hsubmit] at hstep
  cases hstep
  have hregion :
      (Op.reserve i.records (Signal.taskExec t).encodedSize).region? ≠ some c.region := by
    rw [Op.region?, hi.records.region_eq]
    exact fun he => hapart (Option.some.inj he)
  have hr := h.base.records
  have hlt := (List.getElem?_eq_some_iff.mp hrun).1
  rcases hr.queued.reserve hi.records (Signal.taskExec t).encodedSize with
    ⟨k, s, hreserve, hlen, hw, hq⟩ | ⟨e, s, hreserve, hq, -⟩
  · obtain ⟨after, hafter, hwrite⟩ := hok ⟨i.records, k.slot⟩
    have hperform : (Op.reserve i.records (Signal.taskExec t).encodedSize).perform x.shared =
        (.ok ⟨i.records, k.slot⟩, s) := hreserve
    have hqueued : d.Queued (x.advance n _ next').shared ((g.entries ++ [(k, n)]).map (·.1)) := by
      show d.Queued ((Op.reserve i.records (Signal.taskExec t).encodedSize).perform x.shared).2 _
      rw [hperform, List.map_append]
      exact hq
    obtain ⟨ho, hrecords⟩ := hr.reserved hqueued hw hnew hlt rfl List.length_set
    have hbase := h.base.beside rfl hregion rfl hrecords
    refine ⟨_, h.of_advance hrun hbase ho ?_⟩
    rw [hperform] at ho ⊢
    have hsignal : (Signal.taskExec t).WellFormed := ht
    have hfiles : g.Files n ((Signal.taskExec t).encode i.shard timestamp) :=
      ⟨_, t, decodeSignal_encode hsignal i.shard timestamp, hnames⟩
    refine .writing (List.mem_append_right _ (List.mem_singleton_self _)) ⟨hi.records, rfl⟩ hw ?_
      (hfiles.onward ho) hafter hwrite
    rw [Signal.length_encode, hlen]
  · have hperform : (Op.reserve i.records (Signal.taskExec t).encodedSize).perform x.shared =
        (.error e, s) := hreserve
    have hqueued : d.Queued (x.advance n _ next').shared (g.entries.map (·.1)) := by
      show d.Queued ((Op.reserve i.records (Signal.taskExec t).encodedSize).perform x.shared).2 _
      rw [hperform]
      exact hq
    have hbase := h.base.beside rfl hregion rfl
      (hr.onward (onward_still (n := n) _) rfl rfl hqueued rfl (Nat.le_of_eq List.length_set.symm))
    refine ⟨_, h.of_advance hrun hbase (onward_still _) ?_⟩
    rw [hperform]
    exact .closing (herror e)

/-- A record that names the chains of its emission stands where its room was. -/
theorem Records.committed {s : Shared} {k k' : Booking} {pre post : List (Booking × Nat)}
    (h : Records d x g) (hentries : g.entries = pre ++ (k, n) :: post)
    (hq : d.Queued x'.shared ((pre ++ (k', n) :: post).map (·.1))) (hfiles : g.Files n k'.data)
    (hreceived : x'.received = x.received) (hlen : x'.running.length = x.running.length) :
    Onward n g (g.after s (pre ++ (k', n) :: post)) ∧
      Records d x' (g.after s (pre ++ (k', n) :: post)) := by
  have hsame : (pre ++ (k', n) :: post).map (·.2) = g.entries.map (·.2) := by
    rw [hentries]
    simp
  have ho : Onward n g (g.after s (pre ++ (k', n) :: post)) := by
    apply onward_after
    · intro b m hb _ hne
      rw [hentries] at hb
      rcases List.mem_append.mp hb with hb | hb
      · exact List.mem_append_left _ hb
      · rcases List.mem_cons.mp hb with hb | hb
        · exact absurd (congrArg Prod.snd hb) hne
        · exact List.mem_append_right _ (List.mem_cons_of_mem _ hb)
    · intro m _ hm
      rw [hsame] at hm
      exact List.mem_append_right _ hm
  refine ⟨ho, h.after ho hq ?_ hreceived ?_ ?_⟩
  · intro e he hc
    rcases List.mem_append.mp he with he | he
    · exact h.entries e (hentries ▸ List.mem_append_left _ he) hc
    · rcases List.mem_cons.mp he with rfl | he
      · exact hfiles
      · exact h.entries e (hentries ▸ List.mem_append_right _ (List.mem_cons_of_mem _ he)) hc
  · rw [hsame]
    exact h.distinct
  · rw [hsame, hlen]
    exact h.known

theorem Order.committed {r : Reservation} {k : Booking} {record : Bytes}
    {after : Activity EmitOutcome} (h : Order c d ids a₀ room x g claims got kept)
    (hapart : d.region ≠ c.region)
    (hrun : x.running[n]? = some (.step (.commitRecord r record) fun _ => after))
    (hentry : (k, n) ∈ g.entries) (hk : d.Holds r k) (hw : k.phase = .writing)
    (hlen : record.length = k.data.length) (hfiles : g.Files n record) (hafter : Closes after) :
    ∃ g', Order c d ids a₀ room (x.advance n (.commitRecord r record) fun _ => after) g' claims got
      kept := by
  have hregion : (Op.commitRecord r record).region? ≠ some c.region := by
    rw [Op.region?, hk.view.region_eq]
    exact fun he => hapart (Option.some.inj he)
  obtain ⟨pre, post, hentries⟩ := List.append_of_mem hentry
  have hqueued := h.base.records.queued
  rw [hentries, List.map_append, List.map_cons] at hqueued
  have hqueued : d.Queued (x.advance n (.commitRecord r record) fun _ => after).shared
      ((pre ++ ({ k with data := record, phase := .committed }, n) :: post).map (·.1)) := by
    rw [List.map_append, List.map_cons]
    exact hqueued.commitRecord hk hw hlen
  obtain ⟨ho, hrecords⟩ :=
    h.base.records.committed hentries hqueued hfiles rfl List.length_set
  exact ⟨_, h.of_advance hrun (h.base.beside rfl hregion rfl hrecords) ho (.closing hafter)⟩

/-- Whatever an emission does next, it keeps the order. -/
theorem Order.advance (h : Order c d ids a₀ room x g claims got kept) (hapart : d.region ≠ c.region)
    (hrun : x.running[n]? = some (.step op next))
    (hfew : ∀ slot, a₀.share slot (x.advance n op next).opened < Allocator.period) :
    ∃ g' claims', Order c d ids a₀ room (x.advance n op next) g' claims' got kept := by
  cases h.stages n _ hrun with
  | @pausing i timestamp heads op' task hi hop hplan hnames hnew ha =>
    have ha : Activity.step op next = .step op' fun reply => i.file timestamp (task reply) := ha
    cases ha
    obtain ⟨g', h'⟩ := h.paused hrun hi hop hplan hnames hnew
    exact ⟨g', claims, h'⟩
  | @copying i timestamp heads copy call b task hi hcopy hbusy howner hplan hnames hnew ha =>
    cases b with
    | done o => exact absurd rfl (hbusy o)
    | abort => cases ha
    | step op' more =>
      have ha : Activity.step op next =
          .step op' fun reply => i.file timestamp (more reply >>= task) := ha
      cases ha
      exact h.copied hapart hrun hi hcopy howner hplan hnames hnew hfew
  | captured hi ht hnames hnew ha =>
    obtain ⟨g', h'⟩ := h.reserved hapart hrun hi ht hnames hnew ha
    exact ⟨g', claims, h'⟩
  | writing hentry hk hw hlen hfiles hafter ha =>
    cases ha
    obtain ⟨g', h'⟩ := h.committed hapart hrun hentry hk hw hlen hfiles hafter
    exact ⟨g', claims, h'⟩
  | closing hclose =>
    obtain ⟨hop, hnext⟩ := hclose
    obtain ⟨g', h'⟩ := h.closed hrun hop hnext
    exact ⟨g', claims, h'⟩

end Advance

/-- An emission begins with nothing but a plan. -/
theorem Order.started (h : Order c d ids a₀ room x g claims got kept) {i : Invocation}
    (hi : i.Uses c d ids) (timestamp : UInt64) (source : TaskSnapshot) (task : UInt64) :
    ∃ g', Order c d ids a₀ room
      { x with running := x.running ++ [i.emitTask timestamp source task] } g' claims got kept := by
  have hr := h.base.records
  have hnew : x.running.length ∉ g.filed := fun hm => absurd (hr.known _ hm) (Nat.lt_irrefl _)
  have hbase : Base c d ids a₀ room
      { x with running := x.running ++ [i.emitTask timestamp source task] } g claims got kept := by
    have hlen : x.running.length ≤ (x.running ++ [i.emitTask timestamp source task]).length := by
      simp
    exact { h.base with records := hr.onward (.refl 0 g) rfl rfl hr.queued rfl hlen }
  obtain ⟨g', hbase', ho, hstage⟩ := hbase.settles (n := x.running.length)
    (i.plan_capture source task) hi ⟨.nil, nofun⟩ hnew timestamp
  refine ⟨g', h.of_emission hbase' ho (fun m hm => ?_) ?_⟩
  · rw [List.getElem?_append]
    split
    · rfl
    · rw [List.getElem?_eq_none (by simp; omega), List.getElem?_eq_none (by omega)]
  · intro a ha
    rw [List.getElem?_concat_length] at ha
    cases ha
    exact hstage

end Emissions
end ChainRelay
