import ChainRelay.Proofs.Exchange.Course

/-!
Every step of an exchange keeps its course, and so does every run of it.
-/

namespace ChainRelay

open ChainRelay.Ring Copy

namespace Exchange

variable {c : Channel} {ids room : Nat} {a₀ : Allocator} {x x' : Exchange}
  {claims claims' : List Claim} {got kept : List ChunkView}

/-- Nothing changes but the shared state, and the queue stays as it is. -/
theorem Course.of_shared (h : Course c ids a₀ room x claims got kept) {s : Shared}
    (ha : s.allocators.get ids = x.shared.allocators.get ids)
    (hq : c.Queued s (claims.map (·.booking))) :
    Course c ids a₀ room { x with shared := s } claims got kept := by
  refine ⟨h.books.of_queued ⟨rfl, rfl, rfl, ha⟩ rfl hq, ?_⟩
  intro p
  have hold := h.served p
  cases p with
  | copy i => exact hold.of_others rfl rfl rfl (fun _ hv => hv) fun _ _ hm => hm
  | holder j => exact hold

theorem Course.started (h : Course c ids a₀ room x claims got kept) (call : Call)
    (hv : c.Views call.writer.channel) (hids : call.writer.ids = ids) :
    Course c ids a₀ room { x with copies := x.copies ++ [⟨call, call.activity⟩] } claims got
      kept := by
  have hb : Books c ids a₀ room { x with copies := x.copies ++ [⟨call, call.activity⟩] } claims got
      kept := h.books.of_queued ⟨rfl, rfl, rfl, rfl⟩ rfl h.books.queued
  refine h.of_party hb (.copy x.copies.length) (.refl _ _ _ _) ?_ (fun _ _ => rfl) ?_
  · intro i hi
    have hne : i ≠ x.copies.length := fun he => hi (by rw [he])
    refine ⟨?_, rfl⟩
    rw [List.getElem?_append]
    split
    · rfl
    · rw [List.getElem?_eq_none (by simp; omega), List.getElem?_eq_none (by omega)]
  · have hold : Attended c ids x claims got x.copies.length := h.served (.copy _)
    show Attended ..
    unfold Attended at hold ⊢
    simp only [List.getElem?_eq_none (Nat.le_refl _)] at hold
    simp only [List.getElem?_concat_length]
    obtain ⟨hfilter, hissued⟩ := hold
    use {}
    constructor
    case view => exact hv
    case ids_eq => exact hids
    case follows => exact call.follows_ends
    case sound => exact .initial _ _
    case hand =>
      rw [hfilter]
      exact .nil
    case sent => nofun
    case issued_eq => exact hissued
    case lost => exact fun _ => rfl

section Holders

variable {holder : Nat} {r : Reservation}

/-- The reservation in the hand of another producer, where it stands in the queue. -/
theorem Granted.split (h : Granted c x claims holder) (hr : x.holders[holder]? = some (some r)) :
    ∃ pre k post, claims = pre ++ k :: post ∧ pre.filter (·.of (.holder holder)) = [] ∧
      post.filter (·.of (.holder holder)) = [] ∧ k.party? = some (.holder holder) ∧
      c.Holds r k.booking := by
  unfold Granted at h
  rw [hr] at h
  obtain ⟨k, l, hk, hl, hfilter⟩ := List.forall₂_cons_left_iff.mp h
  cases hl
  obtain ⟨pre, post, rfl, hpre, hpost, hof⟩ := Claims.filter_split (l := []) hfilter
  exact ⟨pre, k, post, rfl, hpre, hpost, of_decide_eq_true hof, hk⟩

theorem Claim.writing_of_holder {k : Claim} (hs : k.Sound) (hp : k.party? = some (.holder holder)) :
    k.booking.phase = .writing ∧ k.purpose = .foreign holder := by
  unfold Claim.Sound at hs
  unfold Claim.party? at hp
  cases hk : k.purpose <;> simp_all

/-- Another producer writes or finalizes: its claim changes, and with it whether it still holds the
reservation. -/
theorem Course.of_holder (h : Course c ids a₀ room x claims got kept)
    (hr : x.holders[holder]? = some (some r)) {s : Shared} {holders : List (Option Reservation)}
    (ha : s.allocators = x.shared.allocators)
    (hother : ∀ i, i ≠ holder → holders[i]? = x.holders[i]?)
    (hq : ∀ pre k post, c.Queued x.shared (pre ++ k :: post) → c.Holds r k → k.phase = .writing →
      ∃ k', c.Queued s (pre ++ k' :: post) ∧
        (k'.phase = .writing ∧ c.Holds r k' ∧ holders = x.holders ∨
          k'.phase = .discarded ∧ holders[holder]?.join = none)) :
    ∃ claims', Course c ids a₀ room { x with shared := s, holders := holders } claims' got
      kept := by
  obtain ⟨pre, k, post, rfl, hpre, hpost, hparty, hhold⟩ :=
    Granted.split (h.served (.holder holder)) hr
  have hb := h.books
  obtain ⟨hw, hpurpose⟩ := Claim.writing_of_holder (hb.sound k (by simp)) hparty
  have hqueue := hb.queued
  rw [List.map_append, List.map_cons] at hqueue
  have hview := Claim.view?_of_party hparty
  obtain ⟨b, hqueue, hcases⟩ := hq _ _ _ hqueue hhold hw
  -- the claim as it stands afterwards
  have hchange (k' : Claim) (hbooking : k'.booking = b) (hsound : k'.Sound) (hid : k'.id? = none)
      (hsent : k'.view? = none) (hparty' : k'.party? = some (.holder holder) ∨ k'.party? = none)
      (hself : List.Forall₂ (fun r k => c.Holds r k.booking) holders[holder]?.join.toList
        ([k'].filter (·.of (.holder holder)))) :
      Course c ids a₀ room { x with shared := s, holders := holders } (pre ++ k' :: post) got
        kept := by
    have hbooks : Books c ids a₀ room { x with shared := s, holders := holders }
        (pre ++ k' :: post) got kept := by
      refine hb.replace ⟨rfl, rfl, rfl, congrArg (·.get ids) ha⟩ hview hsound (.inr hid) ?_ ?_
      · rw [hsent]
        rfl
      · rw [List.map_append, List.map_cons, hbooking]
        exact hqueue
    refine h.of_party hbooks (.holder holder) (.replace hparty hparty' (.inr hid))
      (fun _ _ => ⟨rfl, rfl⟩) (fun i hi => hother i fun he => hi (by rw [he])) ?_
    show List.Forall₂ _ _ ((pre ++ k' :: post).filter _)
    rw [List.filter_append, hpre, List.nil_append, ← List.singleton_append, List.filter_append,
      hpost, List.append_nil]
    exact hself
  rcases hcases with ⟨hphase, hholds, rfl⟩ | ⟨hphase, hnone⟩
  · refine ⟨_, hchange ⟨b, .foreign holder⟩ rfl hphase rfl rfl (.inl rfl) ?_⟩
    rw [hr, List.filter_cons_of_pos (by simp [Claim.of, Claim.party?])]
    exact .cons hholds .nil
  · refine ⟨_, hchange ⟨b, .gone⟩ rfl hphase rfl rfl (.inr rfl) ?_⟩
    rw [hnone]
    exact .nil

/-- Another producer gives up its reservation. -/
theorem Course.finalized (h : Course c ids a₀ room x claims got kept)
    (hr : x.holders[holder]? = some (some r)) {s : Shared}
    (ha : s.allocators = x.shared.allocators)
    (hq : ∀ pre k post, c.Queued x.shared (pre ++ k :: post) → c.Holds r k → k.phase = .writing →
      c.Queued s (pre ++ { k with phase := .discarded } :: post)) :
    ∃ claims', Course c ids a₀ room { x with shared := s, holders := x.holders.set holder none }
      claims' got kept := by
  refine h.of_holder hr ha (fun i hi => List.getElem?_set_ne (Ne.symm hi)) ?_
  intro pre k post hqueue hk hw
  refine ⟨_, hq pre k post hqueue hk hw, .inr ⟨rfl, ?_⟩⟩
  rw [List.getElem?_set_self (List.getElem?_eq_some_iff.mp hr).1]
  rfl

theorem Course.reserved {v : Channel} {size : Nat} {s : Shared}
    (h : Course c ids a₀ room x claims got kept) (hv : c.Views v)
    (hr : v.reserve size x.shared = (.ok r, s)) :
    ∃ claims', Course c ids a₀ room { x with shared := s, holders := x.holders ++ [some r] } claims'
      got kept := by
  have hb := h.books
  have hallocs := Shared.allocators_reserve v size x.shared
  rcases hb.queued.reserve hv size with ⟨k, s', he, -, hw, hq⟩ | ⟨e, s', he, -⟩
  · rw [he] at hr hallocs
    cases hr
    have hbooks : Books c ids a₀ room
        { x with shared := s, holders := x.holders ++ [some ⟨v, k.slot⟩] }
        (claims ++ [⟨k, .foreign x.holders.length⟩]) got kept := by
      refine hb.append rfl rfl rfl (List.Subset.refl _) ?_ ?_ hw rfl ?_
      · exact (List.append_nil _).symm
      · show a₀.Issued (s.allocators.get ids) _
        rw [show s.allocators = x.shared.allocators from hallocs]
        exact hb.issued
      · rw [List.map_append]
        exact hq
    refine ⟨_, h.of_party hbooks (.holder x.holders.length) (.append rfl fun _ _ he => nomatch he)
      (fun _ _ => ⟨rfl, rfl⟩) ?_ ?_⟩
    · intro i hi
      have hne : i ≠ x.holders.length := fun he => hi (by rw [he])
      rw [List.getElem?_append]
      split
      · rfl
      · rw [List.getElem?_eq_none (by simp; omega), List.getElem?_eq_none (by omega)]
    · have hold : Granted c x claims x.holders.length := h.served (.holder _)
      show Granted ..
      unfold Granted at hold ⊢
      rw [List.getElem?_eq_none (Nat.le_refl _)] at hold
      rw [List.getElem?_concat_length, List.filter_append, List.forall₂_nil_left_iff.mp hold,
        List.filter_cons_of_pos (by simp [Claim.of, Claim.party?])]
      exact .cons ⟨hv, rfl⟩ .nil
  · rw [he] at hr
    cases hr

end Holders

section Chain

variable {copy : Nat} {r : Running} {g : Trail}

theorem Books.not_kept (h : Books c ids a₀ room x claims got kept) {k : Claim} (hk : k ∈ claims)
    {id : ChunkId} (hid : k.id? = some id) : id ∉ kept.map (·.header.id) := by
  intro hmem
  have hgot := (h.keeps.arrived.map _).subset hmem
  exact (List.nodup_append.mp h.named).2.2 id hgot id (List.mem_filterMap.mpr ⟨k, hk, hid⟩) rfl

theorem Books.kept_or (h : Books c ids a₀ room x claims got kept) {v : ChunkView}
    (hv : Claims.Visible got claims v) : v ∈ kept ∨ v.header.id ∉ kept.map (·.header.id) := by
  rcases hv with hv | ⟨k, hk, hp⟩
  · by_cases hid : v.header.id ∈ kept.map (·.header.id)
    · exact .inl (h.keeps.kept_of_id hv hid)
    · exact .inr hid
  · exact .inr (h.not_kept hk (by simp [Claim.id?, hp]))

/-- Nothing of the chain is underway, lost or taken out. -/
def Complete (kept : List ChunkView) (g : Trail) : Prop :=
  g.hand = [] ∧ g.lost = .none ∧ ∀ v ∈ g.sent, v ∈ kept

theorem Attends.opened_of_sent (hg : Attends c ids x claims got copy r g) {v : ChunkView}
    (hv : v ∈ g.sent) : (copy, v.header.id) ∈ x.opened := by
  rw [← mem_issued, hg.issued_eq]
  simp only [Trail.ids, List.mem_append]
  exact .inl (.inl (List.mem_map_of_mem hv))

/-- What the walk along the chain of a copy needs to know. -/
theorem Attends.walkable (hg : Attends c ids x claims got copy r g) {id : ChunkId}
    (hid : (x.issued copy).head? = some id) :
    Store.Walkable r.call.writer.shard g.sent g.goal ∧
      id = g.sent.head?.elim g.goal (·.header.id) ∧ id.shard = r.call.writer.shard ∧
      g.sent.length + (if g.goal = .none then 0 else 1) ≤ r.call.limit := by
  have hs := hg.sound
  rw [hg.issued_eq] at hid
  exact ⟨⟨hs.leads, fun v hv => ⟨(hs.sent v hv).named, (hs.sent v hv).shard_eq⟩, hs.goal_shard⟩,
    Trail.head_ids hid, hs.shard_of_ids (List.mem_of_head? hid),
    Nat.le_trans (Trail.length_le_ids g) hs.budget⟩

theorem Attends.reassemble_complete (hb : Books c ids a₀ room x claims got kept)
    (hg : Attends c ids x claims got copy r g) {id : ChunkId}
    (hid : (x.issued copy).head? = some id) (hc : Complete kept g) {maxChunks : Nat}
    (hmax : r.call.limit ≤ min maxChunks maxChunksLimit) :
    x.store.reassemble id maxChunks =
      (.ok ⟨g.sent.flatMap (·.data), g.sent.length⟩,
        (g.sent.map (·.stored)).foldl (fun s c => s.erase c.id) x.store) := by
  obtain ⟨hwalk, hhead, hshard, hmore⟩ := hg.walkable hid
  obtain ⟨hhand, hlost, hkept⟩ := hc
  have hgoal : g.goal = .none := by
    unfold Trail.goal
    rw [hhand]
    exact hlost
  rw [hgoal] at hwalk hhead hmore
  exact hb.keeps.reassemble_all hwalk hhead hshard hkept
    (Nat.le_trans hmore (Nat.le_trans hmax (Nat.le_max_right _ _)))

theorem Attends.reassemble_missing (hb : Books c ids a₀ room x claims got kept)
    (hg : Attends c ids x claims got copy r g) {id : ChunkId}
    (hid : (x.issued copy).head? = some id) (hc : ¬Complete kept g) {maxChunks : Nat}
    (hmax : r.call.limit ≤ min maxChunks maxChunksLimit) :
    ∃ id', x.store.reassemble id maxChunks = (.error (.missing id'), x.store) := by
  obtain ⟨hwalk, hhead, hshard, hmore⟩ := hg.walkable hid
  have hlack : (∃ v ∈ g.sent, v.header.id ∉ kept.map (·.header.id)) ∨
      g.goal ≠ .none ∧ g.goal ∉ kept.map (·.header.id) := by
    rcases hg.sound.goal_cases with ⟨-, hhand, hlost⟩ | ⟨hne, -⟩
    · left
      by_contra hall
      push Not at hall
      refine hc ⟨hhand, hlost, fun v hv => ?_⟩
      exact (hb.kept_or (hg.sent v hv)).resolve_right fun hno => hno (hall v hv)
    · refine .inr ⟨hne, ?_⟩
      unfold Trail.goal at hne ⊢
      have hhands := hg.hand
      cases hhand : g.hand with
      | nil =>
        rw [hhand] at hne
        intro hmem
        apply hne
        apply hg.lost
        exact List.mem_append_left _ ((hb.keeps.arrived.map _).subset hmem)
      | cons p hand =>
        rw [hhand] at hhands
        obtain ⟨k, l, hk, -, hfilter⟩ := List.forall₂_cons_left_iff.mp hhands
        have hmem : k ∈ claims := List.mem_of_mem_filter (hfilter ▸ List.mem_cons_self)
        exact hb.not_kept hmem (by simp [Claim.id?, hk.purpose_eq])
  obtain ⟨id', hwalked⟩ := hb.keeps.walk_missing (max 1 (min maxChunks maxChunksLimit)) hwalk
    (fun v hv => hb.kept_or (hg.sent v hv)) hlack
    (Nat.le_trans hmore (Nat.le_trans hmax (Nat.le_max_right _ _)))
  refine ⟨id', ?_⟩
  unfold Store.reassemble
  dsimp only
  rw [hshard, hhead, hwalked]

/-- What is taken out is the whole chain. -/
theorem Attends.reassemble_ok (hb : Books c ids a₀ room x claims got kept)
    (hg : Attends c ids x claims got copy r g) {id : ChunkId}
    (hid : (x.issued copy).head? = some id) {maxChunks : Nat} {res : Reassembled} {store : Store}
    (hres : x.store.reassemble id maxChunks = (.ok res, store)) :
    Complete kept g ∧ store = (g.sent.map (·.stored)).foldl (fun s c => s.erase c.id) x.store := by
  have hmore := Store.reassemble_more hres (Nat.le_max_left maxChunks r.call.settings.maxChunks)
  have hmax : r.call.limit ≤ min (max maxChunks r.call.settings.maxChunks) maxChunksLimit := by
    unfold Call.limit
    omega
  by_cases hc : Complete kept g
  · rw [hg.reassemble_complete hb hid hc hmax] at hmore
    cases hmore
    exact ⟨hc, rfl⟩
  · obtain ⟨id', hmissing⟩ := hg.reassemble_missing hb hid hc hmax
    rw [hmissing] at hmore
    cases hmore

end Chain

section Consumer

variable {v : Channel}

/-- What the consumer passes or takes nobody has in hand. -/
theorem Course.passed {store : Store} {shared : Shared} {got' kept' : List ChunkView}
    (h : Course c ids a₀ room x claims got kept) (hp : Claims.Passes got got' claims claims')
    (hallocs : shared.allocators.get ids = x.shared.allocators.get ids)
    (hq : c.Queued shared (claims'.map (·.booking))) (hkeeps : store.Keeps got' kept')
    (hroom : store.maxPending = room)
    (hleft : ∀ v ∈ got', v ∈ kept' ∨ ∃ copy ∈ x.collected, (copy, v.header.id) ∈ x.opened) :
    Course c ids a₀ room { x with store, shared } claims' got' kept' := by
  have hb := h.books
  constructor
  case books =>
    constructor
    case queued => exact hq
    case sound => exact fun k hk => hb.sound k (hp.mem k hk)
    case keeps => exact hkeeps
    case room_eq => exact hroom
    case issued =>
      rw [hallocs]
      exact hb.issued
    case named =>
      rw [hp.named_eq]
      exact hb.named
    case known =>
      rw [hp.named_eq]
      exact hb.known
    case commits_eq => exact hb.commits_eq.trans hp.views_eq.symm
    case left => exact hleft
  case served =>
    intro p
    have hold := h.served p
    cases p with
    | copy i =>
      refine hold.of_others rfl rfl (hp.others _) hp.visible ?_
      intro id _ hm
      rwa [hp.named_eq] at hm
    | holder j =>
      show Granted ..
      have hold : Granted c x claims j := hold
      unfold Granted at hold ⊢
      rw [hp.others]
      exact hold

/-- There is room for the chunk at the front, and it has not arrived before. -/
theorem Books.ingest {record : Bytes} {w : ChunkView} (h : Books c ids a₀ room x claims got kept)
    (hp : Claims.Passes got (got ++ [w]) claims claims') (hd : decodeChunk record = .ok w)
    (hroom : x.store.size < room) (hmax : room * 2 < sizeLimit) :
    ∃ store, x.store.ingest record = ⟨.ok w.header.id, store, []⟩ ∧
      store.Keeps (got ++ [w]) (kept ++ [w]) ∧ store.maxPending = room ∧
      store.size = x.store.size + 1 := by
  have hnew : w.header.id ∉ got.map (·.header.id) := by
    have hnodup := h.named
    rw [← hp.named_eq, Claims.named, List.map_append] at hnodup
    intro hmem
    exact (List.nodup_append.mp (List.nodup_append.mp hnodup).1).2.2 _ hmem _
      (List.mem_singleton_self _) rfl
  obtain ⟨store, hingest, hkeeps, hroom_eq, hsize⟩ :=
    h.keeps.ingest hd hnew (by rw [h.room_eq]; exact hroom) (by rw [h.room_eq]; exact hmax)
  exact ⟨store, hingest, hkeeps, hroom_eq.trans h.room_eq, hsize⟩

/-- The consumer passed what was given up, and stopped at a reservation that is being written. -/
structure Stopped (x : Exchange) (v : Channel) (claims claims' : List Claim)
    (got got' : List ChunkView) : Prop where
  answer : (x.store.takeOne v x.shared).1 = .ok .nothing
  unready : Queue.ready? (claims.map (·.booking)) = none
  got_eq : got' = got
  passed : ∃ front, claims = front ++ claims' ∧ ∀ k ∈ front, k.purpose = .gone
  head : ∀ k ∈ claims'.head?, k.booking.phase = .writing

structure Stored (x : Exchange) (v : Channel) (claims claims' : List Claim)
    (got got' : List ChunkView) : Prop where
  answer : (x.store.takeOne v x.shared).1 = .ok .stored
  chunk : ∃ record w, Queue.ready? (claims.map (·.booking)) = some record ∧
    decodeChunk record = .ok w ∧ got' = got ++ [w]
  size_eq : (x.taken v).store.size = x.store.size + 1
  fewer : claims'.length < claims.length

/-- What the consumer finds, and what it leaves. -/
theorem Course.take_found (h : Course c ids a₀ room x claims got kept) (hv : c.Views v)
    (hfits : Queue.ready? (claims.map (·.booking)) ≠ none →
      x.store.size < room ∧ room * 2 < sizeLimit) :
    ∃ claims' got' kept', Course c ids a₀ room (x.taken v) claims' got' kept' ∧
      Claims.Passes got got' claims claims' ∧
      (Stopped x v claims claims' got got' ∨ Stored x v claims claims' got got') := by
  have hb := h.books
  obtain ⟨shared, hq, hallocs, -, htake⟩ := Store.takeOne_spec hb.queued hv x.store
  have hcounter := congrArg (·.get ids) hallocs
  rcases Claims.front_cases claims hb.sound with
    ⟨hready, front, rest, rfl, hfront, hrest, hhead⟩ |
    ⟨front, k, w, rest, rfl, hfront, hk, hcarries, hready, hrest⟩
  · rw [hready] at htake
    rw [hrest] at hq
    have hstate : x.taken v = { x with shared } := by
      unfold taken
      rw [htake]
    refine ⟨rest, got, kept, ?_, .gone hfront, .inl ?_⟩
    · rw [hstate]
      exact h.passed (.gone hfront) hcounter hq hb.keeps hb.room_eq hb.left
    · constructor
      case answer => rw [htake]
      case unready => exact hready
      case got_eq => rfl
      case passed => exact ⟨front, rfl, hfront⟩
      case head => exact hhead
  · rw [hrest] at hq
    have hpasses : Claims.Passes got (got ++ [w]) (front ++ k :: rest) rest :=
      (Claims.Passes.gone hfront).trans (.sent hk)
    obtain ⟨hroom, hmax⟩ := hfits (by rw [hready]; nofun)
    obtain ⟨store, hingest, hkeeps, hroom_eq, hsize⟩ :=
      hb.ingest hpasses hcarries.decodes hroom hmax
    simp only [hready, hingest] at htake
    have hstate : x.taken v = { x with store, shared } := by
      unfold taken
      rw [htake]
    refine ⟨rest, got ++ [w], kept ++ [w], ?_, hpasses, .inr ?_⟩
    · rw [hstate]
      apply h.passed hpasses hcounter hq hkeeps hroom_eq
      intro u hu
      rcases List.mem_append.mp hu with hu | hu
      · exact (hb.left u hu).imp_left (List.mem_append_left _)
      · exact .inl (List.mem_append_right _ hu)
    · constructor
      case answer => rw [htake]
      case chunk => exact ⟨_, w, hready, hcarries.decodes, rfl⟩
      case size_eq => rw [hstate, hsize]
      case fewer =>
        simp only [List.length_append, List.length_cons]
        omega

theorem Books.views_ready (h : Books c ids a₀ room x claims got kept)
    (hready : Queue.ready? (claims.map (·.booking)) ≠ none) : claims.filterMap (·.view?) ≠ [] := by
  rcases Claims.front_cases claims h.sound with ⟨hnone, -⟩ | ⟨front, k, w, rest, rfl, -, hk, -⟩
  · exact absurd hnone hready
  · intro hviews
    have hk' := List.filterMap_eq_nil_iff.mp hviews k (by simp)
    rw [Claim.view?_iff.mpr hk] at hk'
    cases hk'

/-- A store whose bound cannot be doubled does not take the chunk at the front. -/
theorem Books.take_overflow (h : Books c ids a₀ room x claims got kept) (hv : c.Views v)
    (hready : Queue.ready? (claims.map (·.booking)) ≠ none) (hmax : sizeLimit ≤ room * 2) :
    (x.store.takeOne v x.shared).1 = .error .overflow := by
  obtain ⟨shared, -, -, -, htake⟩ := Store.takeOne_spec h.queued hv x.store
  rcases Claims.front_cases claims h.sound with ⟨hnone, -⟩ |
    ⟨front, k, w, rest, -, -, -, hcarries, hfound, -⟩
  · exact absurd hnone hready
  · rw [← h.room_eq] at hmax
    have hover := Store.ingest_overflow (s := x.store) hcarries.decodes hmax
    simpa only [hfound, hover] using htake

/-- A store with room for all chunks that were committed has room for the next one. -/
theorem Books.room_left (h : Books c ids a₀ room x claims got kept)
    (hroom : x.store.size + (claims.filterMap (·.view?)).length ≤ room)
    (hready : Queue.ready? (claims.map (·.booking)) ≠ none) : x.store.size < room := by
  have hpos := List.length_pos_iff.mpr (h.views_ready hready)
  omega

theorem Books.room_of_commits (h : Books c ids a₀ room x claims got kept)
    (hcommits : x.commits ≤ room) :
    x.store.size + (claims.filterMap (·.view?)).length ≤ room := by
  have hsize := h.keeps.size_le
  have hall := h.commits_eq
  omega

/-- The consumer passes what was given up. Then it takes a chunk that was committed, or stops at a
reservation that is being written. -/
theorem Course.take (h : Course c ids a₀ room x claims got kept) (hv : c.Views v)
    (hroom : x.commits ≤ room) (hmax : room * 2 < sizeLimit) :
    ∃ claims' got' kept', Course c ids a₀ room (x.taken v) claims' got' kept' ∧
      (Stopped x v claims claims' got got' ∨ Stored x v claims claims' got got') := by
  obtain ⟨claims', got', kept', hcourse, -, hfound⟩ :=
    h.take_found hv fun hready =>
      ⟨h.books.room_left (h.books.room_of_commits hroom) hready, hmax⟩
  exact ⟨claims', got', kept', hcourse, hfound⟩

/-- The consumer takes the chain of a copy, under any limit. -/
theorem Course.collect {copy maxChunks : Nat} {r : Running} {id : ChunkId} {res : Reassembled}
    {store : Store} (h : Course c ids a₀ room x claims got kept) (hr : x.copies[copy]? = some r)
    (hid : (x.issued copy).head? = some id)
    (hres : x.store.reassemble id maxChunks = (.ok res, store)) :
    ∃ kept', Course c ids a₀ room { x with store, collected := copy :: x.collected } claims got
      kept' := by
  have hb := h.books
  have hattended : Attended c ids x claims got copy := h.served (.copy copy)
  unfold Attended at hattended
  simp only [hr] at hattended
  obtain ⟨g, hg⟩ := hattended
  obtain ⟨-, rfl⟩ := hg.reassemble_ok hb hid hres
  obtain ⟨kept', hkeeps, hleft, hroom⟩ := hb.keeps.eraseAll g.sent
  refine ⟨kept', { hb with keeps := hkeeps, room_eq := hroom.trans hb.room_eq, left := ?_ }, ?_⟩
  · intro v hv
    rcases hb.left v hv with hk | ⟨other, hother, hmem⟩
    · rcases hleft v hk with hk | ⟨w, hw, he⟩
      · exact .inl hk
      · refine .inr ⟨copy, List.mem_cons_self, ?_⟩
        rw [he]
        exact hg.opened_of_sent hw
    · exact .inr ⟨other, List.mem_cons_of_mem _ hother, hmem⟩
  · intro p
    have hold := h.served p
    cases p with
    | copy i => exact hold.of_others rfl rfl rfl (fun _ hv => hv) fun _ _ hm => hm
    | holder j => exact hold

end Consumer

/-- The counters only grow. -/
theorem Step.mono (h : Step c ids x x') :
    (∃ more, x'.openedIds = x.openedIds ++ more) ∧ x.commits ≤ x'.commits := by
  cases h with
  | advance copy hr => exact ⟨⟨_, openedIds_advance⟩, Nat.le_add_right _ _⟩
  | start | reserve | refuse | write | discard | abandon | take | collect | elsewhere =>
    refine ⟨⟨[], ?_⟩, ?_⟩ <;> simp [openedIds, taken]

/-- The run stays within the bounds of the counters and the store. -/
structure Bounded (a₀ : Allocator) (room : Nat) (x : Exchange) : Prop where
  chunks : ∀ slot, a₀.share slot x.openedIds < Allocator.period
  commits : x.commits ≤ room

theorem Bounded.of_step (h : Bounded a₀ room x') (hs : Step c ids x x') : Bounded a₀ room x := by
  obtain ⟨⟨more, hmore⟩, hcommits⟩ := hs.mono
  refine ⟨fun slot => ?_, Nat.le_trans hcommits h.commits⟩
  have hlt := h.chunks slot
  rw [hmore, Allocator.share, List.countP_append] at hlt
  exact Nat.lt_of_le_of_lt (Nat.le_add_right _ _) hlt

theorem Course.step (h : Course c ids a₀ room x claims got kept) (hs : Step c ids x x')
    (hbounded : Bounded a₀ room x') (hmax : room * 2 < sizeLimit) :
    ∃ claims' got' kept', Course c ids a₀ room x' claims' got' kept' := by
  have hcommits := (hbounded.of_step hs).commits
  cases hs with
  | start call hv hids => exact ⟨_, _, _, h.started call hv hids⟩
  | advance copy hr =>
    obtain ⟨claims', h⟩ := h.advance hr hbounded.chunks
    exact ⟨_, _, _, h⟩
  | reserve hv hr =>
    obtain ⟨claims', h⟩ := h.reserved hv hr
    exact ⟨_, _, _, h⟩
  | @refuse v size e s hv hr =>
    have hallocs := Shared.allocators_reserve v size x.shared
    rcases h.books.queued.reserve hv size with ⟨k, s', he, -⟩ | ⟨e', s', he, hq, -⟩
    · rw [he] at hr
      cases hr
    · rw [he] at hr hallocs
      cases hr
      exact ⟨_, _, _, h.of_shared (congrArg (·.get ids) hallocs) hq⟩
  | @write r holder hr pos bytes =>
    have hwrite : ∃ claims', Course c ids a₀ room { x with shared := r.write pos bytes x.shared }
        claims' got kept := by
      refine h.of_holder hr rfl (fun _ _ => rfl) ?_
      intro pre k post hq hk hw
      refine ⟨_, hq.write hk hw pos bytes, .inl ⟨hw, ⟨hk.view, ?_⟩, rfl⟩⟩
      rw [hk.slot_eq]
      simp [Booking.slot]
    obtain ⟨claims', h⟩ := hwrite
    exact ⟨_, _, _, h⟩
  | @discard r holder hr =>
    obtain ⟨claims', h⟩ := h.finalized hr (s := r.discard x.shared) rfl fun _ _ _ hq => hq.discard
    exact ⟨_, _, _, h⟩
  | @abandon r holder hr =>
    obtain ⟨claims', h⟩ := h.finalized hr (s := r.abandon x.shared) rfl fun _ _ _ hq => hq.abandon
    exact ⟨_, _, _, h⟩
  | take hv =>
    obtain ⟨claims', got', kept', h, -⟩ := h.take hv hcommits hmax
    exact ⟨_, _, _, h⟩
  | collect copy hr hid hres =>
    obtain ⟨kept', h⟩ := h.collect hr hid hres
    exact ⟨_, _, _, h⟩
  | elsewhere hr ha => exact ⟨_, _, _, h.of_shared ha (h.books.queued.of_memory hr)⟩

def initial (s : Shared) (n : Nat) : Exchange := ⟨s, .ofMaxPending n, [], [], [], 0, []⟩

theorem Course.initial {s : Shared} (hq : c.Queued s []) (n : Nat) :
    Course c ids (s.allocators.get ids) (max n 1) (initial s n) [] [] [] := by
  refine ⟨⟨hq, nofun, Store.keeps_ofMaxPending n, rfl, .initial _, .nil, nofun, rfl, nofun⟩, ?_⟩
  intro p
  cases p with
  | copy i => exact ⟨rfl, rfl⟩
  | holder j => exact .nil

theorem Course.run {s : Shared} {n : Nat} (hq : c.Queued s []) (hn : n * 2 < sizeLimit)
    (h : Relation.ReflTransGen (Step c ids) (Exchange.initial s n) x)
    (hbounded : Bounded (s.allocators.get ids) (max n 1) x) :
    ∃ claims got kept, Course c ids (s.allocators.get ids) (max n 1) x claims got kept := by
  have hmax : max n 1 * 2 < sizeLimit := by
    simp only [sizeLimit] at hn ⊢
    omega
  induction h with
  | refl => exact ⟨_, _, _, .initial hq n⟩
  | tail _ hs ih =>
    obtain ⟨claims, got, kept, hcourse⟩ := ih (hbounded.of_step hs)
    exact hcourse.step hs hbounded hmax

end Exchange
end ChainRelay
