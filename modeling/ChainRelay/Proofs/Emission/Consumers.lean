import ChainRelay.Proofs.Emission.Progress

/-!
The consumers take what is ready and disturb no emission: the store takes chunks, records are
received, and the chains of a record are taken out. So the order is kept by every step, and by every
run.
-/

namespace ChainRelay

open ChainRelay.Ring Copy

theorem Channel.Queued.ready {c v : Channel} {s : Shared} {q : List Booking} (h : c.Queued s q)
    (hv : c.Views v) : v.ready s = (Queue.ready? q).toList := by
  unfold Channel.ready
  rw [(h.receive hv).1]
  cases Queue.ready? q <;> rfl

namespace Emissions

variable {c d u v : Channel} {ids room n : Nat} {a₀ : Allocator} {x x' : Emissions}
  {g g' : Docket} {claims claims' : List Claim} {got got' kept kept' : List ChunkView}

/-- Nothing happens to the copies. -/
theorem onward_of_copies (hcopies : g'.exchange.copies = g.exchange.copies)
    (howners : g'.owners = g.owners)
    (hentries : ∀ e ∈ g.entries, e.1.phase = .writing → e ∈ g'.entries)
    (hfiled : g'.filed ⊆ g.filed) : Onward n g g' := by
  constructor
  case owners =>
    rw [howners]
    exact fun _ _ hm => hm
  case others =>
    rw [hcopies]
    exact fun _ _ _ _ => rfl
  case reported =>
    unfold Exchange.Reported
    rw [hcopies]
    exact fun _ _ hr => hr
  case entries => exact fun k m hk hw _ => hentries (k, m) hk hw
  case filed => exact fun _ _ hm => hfiled hm

/-- What a consumer does, seen by the emissions. -/
theorem Order.of_consumer (h : Order c d ids a₀ room x g claims got kept)
    (hbase : Base c d ids a₀ room x' g' claims' got' kept')
    (ho : Onward x.running.length g g') (hrun : x'.running = x.running) :
    Order c d ids a₀ room x' g' claims' got' kept' := by
  apply h.of_emission hbase ho
  · intro m _
    rw [hrun]
  · intro a ha
    rw [hrun, List.getElem?_eq_none (Nat.le_refl _)] at ha
    cases ha

theorem Order.drained {answer : Store.Taken} {store : Store} {shared : Shared}
    (h : Order c d ids a₀ room x g claims got kept) (hapart : d.region ≠ c.region) (hv : c.Views v)
    (hroom : x.store.size < x.store.maxPending)
    (htake : x.store.takeOne v x.shared = (.ok answer, store, shared)) :
    ∃ g' claims' got' kept', Order c d ids a₀ room
      { x with store, shared, drained := x.drained ++ v.ready x.shared } g' claims' got' kept' := by
  have hb := h.base.course.books
  have hstate := htake
  rw [← h.base.store_eq, ← h.base.shared_eq] at hstate
  have hqueued := hb.queued
  rw [h.base.shared_eq] at hqueued
  have hready := hqueued.ready hv
  have hregions := (Store.get_takeOne hqueued hv htake).2
  have hfits (hsome : Queue.ready? (claims.map (·.booking)) ≠ none) :
      g.exchange.store.size < room ∧ room * 2 < sizeLimit := by
    constructor
    · rw [← hb.room_eq, h.base.store_eq]
      exact hroom
    · by_contra hmax
      have hover := hb.take_overflow hv hsome (Nat.le_of_not_lt hmax)
      rw [hstate] at hover
      cases hover
  obtain ⟨claims', got', kept', hcourse, -, hfound⟩ := h.base.course.take_found hv hfits
  rw [Exchange.taken_eq hstate] at hcourse
  have ho : Onward x.running.length g { g with exchange := { g.exchange with store, shared } } :=
    onward_of_copies rfl rfl (fun _ he _ => he) (List.Subset.refl _)
  refine ⟨_, claims', got', kept', h.of_consumer ?_ ho rfl⟩
  constructor
  case course => exact hcourse
  case shared_eq => rfl
  case store_eq => rfl
  case opened_eq => exact h.base.opened_eq
  case owners_length => exact h.base.owners_length
  case drained =>
    dsimp only
    rw [hready]
    rcases hfound with hstopped | hstored
    · rw [hstopped.unready, hstopped.got_eq]
      simpa using h.base.drained
    · obtain ⟨record, w, hsome, hdecode, rfl⟩ := hstored.chunk
      rw [hsome]
      exact List.rel_append h.base.drained (.cons hdecode .nil)
  case records =>
    have hr := h.base.records
    exact hr.onward ho rfl rfl (hr.queued.of_memory (hregions _ hapart)) rfl (Nat.le_refl _)
  case collected => exact h.base.collected

/-- The front of the record channel, with the emissions of the records. -/
theorem Docket.front (g : Docket) :
    (Queue.ready? (g.entries.map (·.1)) = none ∧ ∃ gone rest, g.entries = gone ++ rest ∧
      Queue.rest (g.entries.map (·.1)) = rest.map (·.1) ∧
      ∀ e ∈ gone, e.1.phase = .discarded) ∨
    ∃ gone k n rest, g.entries = gone ++ (k, n) :: rest ∧
      Queue.rest (g.entries.map (·.1)) = rest.map (·.1) ∧
      (∀ e ∈ gone, e.1.phase = .discarded) ∧ k.phase = .committed ∧
      Queue.ready? (g.entries.map (·.1)) = some k.data := by
  rcases Queue.front_cases (g.entries.map (·.1)) with
    ⟨hready, gone, hq, hgone, -⟩ | ⟨gone, k, hq, hgone, hk, hready⟩
  · obtain ⟨front, rest, hentries, rfl, hrest⟩ := List.map_eq_append_iff.mp hq
    exact .inl ⟨hready, front, rest, hentries, hrest.symm,
      fun e he => hgone _ (List.mem_map_of_mem he)⟩
  · obtain ⟨front, back, hentries, rfl, hback⟩ := List.map_eq_append_iff.mp hq
    obtain ⟨⟨k, n⟩, rest, rfl, rfl, hrest⟩ := List.map_eq_cons_iff.mp hback
    exact .inr ⟨front, k, n, rest, hentries, hrest.symm,
      fun e he => hgone _ (List.mem_map_of_mem he), hk, hready⟩

def Docket.left (g : Docket) (s : Shared) (entries : List (Booking × Nat)) (authors : List Nat) :
    Docket :=
  ⟨{ g.exchange with shared := s }, g.owners, entries, g.authors ++ authors⟩

section Receipt

variable {s : Shared} {news : List Bytes} {entries : List (Booking × Nat)} {authors : List Nat}

theorem Docket.filed_left (hsub : (authors ++ entries.map (·.2)).Sublist (g.entries.map (·.2))) :
    (g.left s entries authors).filed.Sublist g.filed := by
  unfold filed left
  rw [List.append_assoc]
  exact hsub.append_left g.authors

theorem Records.left (h : Records d x g) (hq : d.Queued s (entries.map (·.1)))
    (hnews : List.Forall₂ g.Files authors news) (hmem : entries ⊆ g.entries)
    (ho : Onward n g (g.left s entries authors))
    (hfiled : (g.left s entries authors).filed.Sublist g.filed) :
    Records d { x with shared := s, received := x.received ++ news }
      (g.left s entries authors) := by
  constructor
  case queued => exact hq
  case entries => exact fun e he hc => (h.entries e (hmem he) hc).onward ho
  case received =>
    exact (List.rel_append h.received hnews).imp fun _ _ hfiles => hfiles.onward ho
  case distinct => exact h.distinct.sublist hfiled
  case known => exact fun m hm => h.known m (hfiled.subset hm)

theorem Order.left (h : Order c d ids a₀ room x g claims got kept)
    (hframe : s.regions.get c.region = x.shared.regions.get c.region)
    (hallocs : s.allocators = x.shared.allocators) (hq : d.Queued s (entries.map (·.1)))
    (hnews : List.Forall₂ g.Files authors news)
    (hsub : (authors ++ entries.map (·.2)).Sublist (g.entries.map (·.2)))
    (hmem : entries ⊆ g.entries)
    (hwriting : ∀ e ∈ g.entries, e.1.phase = .writing → e ∈ entries) :
    Order c d ids a₀ room { x with shared := s, received := x.received ++ news }
      (g.left s entries authors) claims got kept := by
  have hqueued := h.base.course.books.queued
  rw [h.base.shared_eq] at hqueued
  have hfiled := Docket.filed_left (s := s) hsub
  have ho : Onward x.running.length g (g.left s entries authors) :=
    onward_of_copies rfl rfl hwriting hfiled.subset
  refine h.of_consumer ?_ ho rfl
  constructor
  case course =>
    apply h.base.course.of_shared
    · rw [hallocs, h.base.shared_eq]
    · exact hqueued.of_memory hframe
  case shared_eq => rfl
  case store_eq => exact h.base.store_eq
  case opened_eq => exact h.base.opened_eq
  case owners_length => exact h.base.owners_length
  case drained => exact h.base.drained
  case records => exact h.base.records.left hq hnews hmem ho hfiled
  case collected =>
    intro copy hcopy
    obtain ⟨m, hm, author, hauthor, howner⟩ := h.base.collected copy hcopy
    refine ⟨m, hm, author, ?_, howner⟩
    unfold Docket.left
    rw [List.getElem?_append_left (List.getElem?_eq_some_iff.mp hauthor).1]
    exact hauthor

end Receipt

theorem Order.received (h : Order c d ids a₀ room x g claims got kept)
    (hapart : d.region ≠ c.region) (hu : d.Views u) :
    ∃ g', Order c d ids a₀ room
      { x with shared := (u.receive x.shared).2, received := x.received ++ u.ready x.shared } g'
      claims got kept := by
  have hr := h.base.records
  have hready := hr.queued.ready hu
  have hq := (hr.queued.receive hu).2
  have hallocs := u.allocators_receive x.shared
  have hframe : (u.receive x.shared).2.regions.get c.region = x.shared.regions.get c.region :=
    Channel.get_receive (by rw [hu.region_eq]; exact hapart) x.shared
  generalize (u.receive x.shared).2 = s at hq hallocs hframe
  rw [hready]
  have hleft {gone rest : List (Booking × Nat)} (hgone : ∀ e ∈ gone, e.1.phase = .discarded)
      {e : Booking × Nat} (he : e ∈ gone ++ rest) (hw : e.1.phase = .writing) : e ∈ rest := by
    apply (List.mem_append.mp he).resolve_left
    intro he
    rw [hgone e he] at hw
    cases hw
  rcases g.front with ⟨hnone, gone, rest, hentries, hrest, hgone⟩ |
    ⟨gone, k, n, rest, hentries, hrest, hgone, hk, hsome⟩
  · rw [hrest] at hq
    rw [hnone]
    refine ⟨_, h.left hframe hallocs hq .nil ?_ ?_ ?_⟩
    · rw [hentries, List.map_append]
      exact List.sublist_append_right _ _
    · rw [hentries]
      exact List.subset_append_right _ _
    · intro e he hw
      rw [hentries] at he
      exact hleft hgone he hw
  · have hfiles : g.Files n k.data :=
      hr.entries (k, n) (hentries ▸ List.mem_append_right _ List.mem_cons_self) hk
    rw [hrest] at hq
    rw [hsome]
    refine ⟨_, h.left hframe hallocs hq (.cons hfiles .nil) ?_ ?_ ?_⟩
    · rw [hentries, List.map_append]
      exact List.sublist_append_right _ _
    · rw [hentries]
      exact fun e he => List.mem_append_right _ (List.mem_cons_of_mem _ he)
    · intro e he hw
      rw [hentries] at he
      refine (List.mem_cons.mp (hleft hgone he hw)).resolve_left ?_
      rintro rfl
      rw [hk] at hw
      cases hw

theorem Records.author (h : Records d x g) {m : Nat} {record : Bytes}
    (hm : x.received[m]? = some record) : ∃ n, g.authors[m]? = some n ∧ g.Files n record := by
  obtain ⟨hlt, rfl⟩ := List.getElem?_eq_some_iff.mp hm
  have hlt' : m < g.authors.length := by
    rw [h.received.length_eq]
    exact hlt
  exact ⟨g.authors[m], List.getElem?_eq_getElem hlt', h.received.get hlt' hlt⟩

theorem Order.resolved {m : Nat} {record : Bytes} {header : SignalHeader} {t : Task}
    (h : Order c d ids a₀ room x g claims got kept) (hm : x.received[m]? = some record)
    (ht : decodeSignal record = .ok ⟨header, .taskExec t⟩) (maxChunks : Nat) :
    ∃ g' kept', Order c d ids a₀ room
      { x with store := (x.store.resolveTask t maxChunks).2, resolved := m :: x.resolved } g' claims
      got kept' := by
  obtain ⟨n, hauthor, header', t', ht', hnames⟩ := h.base.records.author hm
  rw [ht] at ht'
  cases ht'
  obtain ⟨collected, kept', hmine, hcourse⟩ := h.base.course.lookUpAll maxChunks hnames.reported
  have ho : Onward x.running.length g { g with exchange := { g.exchange with
      store := (Store.reassembleAll maxChunks t.heads g.exchange.store).2, collected } } :=
    onward_of_copies rfl rfl (fun _ he _ => he) (List.Subset.refl _)
  refine ⟨_, kept', h.of_consumer ?_ ho rfl⟩
  constructor
  case course => exact hcourse
  case shared_eq => exact h.base.shared_eq
  case store_eq =>
    dsimp only
    rw [h.base.store_eq, Store.resolveTask_store]
  case opened_eq => exact h.base.opened_eq
  case owners_length => exact h.base.owners_length
  case drained => exact h.base.drained
  case records =>
    have hr := h.base.records
    exact hr.onward ho rfl rfl hr.queued rfl (Nat.le_refl _)
  case collected =>
    intro copy hcopy
    rcases hmine copy hcopy with hold | howner
    · obtain ⟨m', hm', author, hauthor', howner⟩ := h.base.collected copy hold
      exact ⟨m', List.mem_cons_of_mem _ hm', author, hauthor', howner⟩
    · exact ⟨m, List.mem_cons_self, n, hauthor, howner⟩

theorem Order.step (h : Order c d ids a₀ room x g claims got kept) (hapart : d.region ≠ c.region)
    (hs : Step c d ids x x') (hfew : ∀ slot, a₀.share slot x'.opened < Allocator.period) :
    ∃ g' claims' got' kept', Order c d ids a₀ room x' g' claims' got' kept' := by
  cases hs with
  | start i timestamp source task hi =>
    obtain ⟨g', h'⟩ := h.started hi timestamp source task
    exact ⟨g', claims, got, kept, h'⟩
  | advance n hrun =>
    obtain ⟨g', claims', h'⟩ := h.advance hapart hrun hfew
    exact ⟨g', claims', got, kept, h'⟩
  | drain hv hroom htake => exact h.drained hapart hv hroom htake
  | receive hu =>
    obtain ⟨g', h'⟩ := h.received hapart hu
    exact ⟨g', claims, got, kept, h'⟩
  | resolve m maxChunks hm ht =>
    obtain ⟨g', kept', h'⟩ := h.resolved hm ht maxChunks
    exact ⟨g', claims, got, kept', h'⟩

theorem Order.initial {s : Shared} (hc : c.Queued s []) (hd : d.Queued s []) (maxPending : Nat) :
    Order c d ids (s.allocators.get ids) (max maxPending 1) (initial s maxPending)
      ⟨.initial s maxPending, [], [], []⟩ [] [] [] := by
  refine ⟨?_, nofun⟩
  constructor
  case course => exact .initial hc maxPending
  case shared_eq => rfl
  case store_eq => rfl
  case opened_eq => rfl
  case owners_length => rfl
  case drained => exact .nil
  case records => exact ⟨hd, nofun, .nil, .nil, nofun⟩
  case collected => nofun

theorem Order.run {s : Shared} {maxPending : Nat} (hc : c.Queued s []) (hd : d.Queued s [])
    (hapart : d.region ≠ c.region)
    (h : Relation.ReflTransGen (Step c d ids) (Emissions.initial s maxPending) x)
    (hfew : ∀ slot, (s.allocators.get ids).share slot x.opened < Allocator.period) :
    ∃ g claims got kept, Order c d ids (s.allocators.get ids) (max maxPending 1) x g claims got
      kept := by
  induction h with
  | refl => exact ⟨_, _, _, _, .initial hc hd maxPending⟩
  | tail _ hs ih =>
    obtain ⟨more, hmore⟩ := hs.opened
    obtain ⟨g, claims, got, kept, horder⟩ := ih fun slot => by
      have hlt := hfew slot
      rw [hmore, Allocator.share, List.countP_append] at hlt
      exact Nat.lt_of_le_of_lt (Nat.le_add_right _ _) hlt
    exact horder.step hapart hs hfew

end Emissions
end ChainRelay
