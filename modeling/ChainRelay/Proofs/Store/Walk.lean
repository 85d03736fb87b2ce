import ChainRelay.Proofs.Store.Balance

/-!
What a walk along the links of a store finds, whatever the links are. The chunks that it passes are
a path (`Store.Path`), a walk goes along a path as far as it has steps (`Path.walk`), and so the
identifier at which the path cannot go on decides the answer (`Store.reassemble_finds`).
-/

namespace ChainRelay
namespace Store

variable {s : Store} {shard : UInt16} {limit more : Nat} {id stop : ChunkId}
  {chain : List StoredChunk}

/-- The links lead from one identifier to another over these chunks, each of which is held and
belongs to the shard. -/
inductive Path (s : Store) (shard : UInt16) : ChunkId → List StoredChunk → ChunkId → Prop where
  | stay (id : ChunkId) : Path s shard id [] id
  | step {id stop : ChunkId} {ch : StoredChunk} {rest : List StoredChunk} (hid : id ≠ .none)
      (hshard : id.shard = shard) (h : s.find? id = some ch)
      (hr : Path s shard ch.next rest stop) : Path s shard id (ch :: rest) stop

theorem Path.links (h : s.Path shard id chain .none) : s.Links id chain := by
  generalize hstop : ChunkId.none = stop at h
  induction h with
  | stay id =>
    subst hstop
    exact .done
  | step hid _ hfound _ ih => exact .next hid hfound (ih hstop)

theorem walk_spent (hid : id ≠ .none) : s.walk shard limit 0 id = .error (.tooLong limit) := by
  unfold walk
  exact if_neg (fun h => hid ((ChunkId.isNone_iff id).mp h))

theorem walk_elsewhere (hid : id ≠ .none) (hother : id.shard ≠ shard) :
    s.walk shard limit (more + 1) id = .error (.shardMismatch shard id) := by
  unfold walk
  rw [if_neg (fun h => hid ((ChunkId.isNone_iff id).mp h))]
  exact if_pos hother

/-- A walk goes along a path, and from there as it would have gone with the steps that are left. -/
theorem Path.walk (h : s.Path shard id chain stop) (limit more : Nat) :
    s.walk shard limit (chain.length + more) id =
      (s.walk shard limit more stop).map (chain ++ ·) := by
  induction h with
  | stay id =>
    rw [List.length_nil, Nat.zero_add]
    cases s.walk shard limit more id <;> rfl
  | @step id stop ch rest hid hshard hfound _ ih =>
    rw [List.length_cons, Nat.add_right_comm, walk_step hid hshard, hfound]
    dsimp only
    rw [ih]
    cases s.walk shard limit more stop <;> rfl

/-- How a walk with so many steps left comes to its answer: it passes chunks, and is then at an
identifier where it ends. -/
def Ends (s : Store) (shard : UInt16) (limit more : Nat) (id : ChunkId) :
    Except ChainError (List StoredChunk) → Prop
  | .ok chain => s.Path shard id chain .none ∧ chain.length ≤ more
  | .error (.tooLong n) => n = limit ∧
      ∃ chain stop, s.Path shard id chain stop ∧ chain.length = more ∧ stop ≠ .none
  | .error (.shardMismatch other stop) => other = shard ∧ stop ≠ .none ∧ stop.shard ≠ shard ∧
      ∃ chain, s.Path shard id chain stop ∧ chain.length < more
  | .error (.missing stop) => stop ≠ .none ∧ stop.shard = shard ∧ s.find? stop = none ∧
      ∃ chain, s.Path shard id chain stop ∧ chain.length < more

/-- One more chunk in front of a path changes nothing about its end. -/
theorem Ends.step {ch : StoredChunk} (hid : id ≠ .none) (hshard : id.shard = shard)
    (hfound : s.find? id = some ch) {e : ChainError}
    (h : s.Ends shard limit more ch.next (.error e)) :
    s.Ends shard limit (more + 1) id (.error e) := by
  cases e with
  | tooLong n =>
    obtain ⟨hn, chain, stop, hp, hlen, hstop⟩ := h
    exact ⟨hn, ch :: chain, stop, .step hid hshard hfound hp, congrArg (· + 1) hlen, hstop⟩
  | shardMismatch other stop =>
    obtain ⟨ho, hstop, hother, chain, hp, hlen⟩ := h
    exact ⟨ho, hstop, hother, ch :: chain, .step hid hshard hfound hp, Nat.succ_lt_succ hlen⟩
  | missing stop =>
    obtain ⟨hstop, hsame, hnone, chain, hp, hlen⟩ := h
    exact ⟨hstop, hsame, hnone, ch :: chain, .step hid hshard hfound hp, Nat.succ_lt_succ hlen⟩

theorem ends_walk (s : Store) (shard : UInt16) (limit more : Nat) (id : ChunkId) :
    s.Ends shard limit more id (s.walk shard limit more id) := by
  induction more generalizing id with
  | zero =>
    by_cases hid : id = .none
    · rw [hid, walk_none]
      exact ⟨.stay _, Nat.le_refl 0⟩
    · rw [walk_spent hid]
      exact ⟨rfl, [], id, .stay id, rfl, hid⟩
  | succ more ih =>
    by_cases hid : id = .none
    · rw [hid, walk_none]
      exact ⟨.stay _, Nat.zero_le _⟩
    by_cases hshard : id.shard = shard
    · rw [walk_step hid hshard]
      cases hfound : s.find? id with
      | none => exact ⟨hid, hshard, hfound, [], .stay id, Nat.zero_lt_succ more⟩
      | some ch =>
        have ih := ih ch.next
        dsimp only
        cases hwalk : s.walk shard limit more ch.next with
        | error e =>
          rw [hwalk] at ih
          exact ih.step hid hshard hfound
        | ok rest =>
          rw [hwalk] at ih
          exact ⟨.step hid hshard hfound ih.1, Nat.succ_le_succ ih.2⟩
    · rw [walk_elsewhere hid hshard]
      exact ⟨rfl, hid, hshard, [], .stay id, Nat.zero_lt_succ more⟩

/-- The answer of a walk says where it ends, and there is no other place where it could. -/
theorem walk_eq_iff {answer : Except ChainError (List StoredChunk)} :
    s.walk shard limit more id = answer ↔ s.Ends shard limit more id answer := by
  refine ⟨fun h => h ▸ ends_walk s shard limit more id, fun h => ?_⟩
  cases answer with
  | ok chain =>
    obtain ⟨hp, hlen⟩ := h
    obtain ⟨left, rfl⟩ := Nat.exists_eq_add_of_le hlen
    rw [hp.walk, walk_none]
    exact congrArg Except.ok (List.append_nil chain)
  | error e =>
    cases e with
    | tooLong n =>
      obtain ⟨rfl, chain, stop, hp, rfl, hstop⟩ := h
      have hwalk := hp.walk n 0
      rw [walk_spent hstop] at hwalk
      exact hwalk
    | shardMismatch other stop =>
      obtain ⟨rfl, hstop, hother, chain, hp, hlen⟩ := h
      obtain ⟨left, rfl⟩ := Nat.exists_eq_add_of_lt hlen
      rw [Nat.add_assoc, hp.walk, walk_elsewhere hstop hother]
      rfl
    | missing stop =>
      obtain ⟨hstop, rfl, hnone, chain, hp, hlen⟩ := h
      obtain ⟨left, rfl⟩ := Nat.exists_eq_add_of_lt hlen
      rw [Nat.add_assoc, hp.walk, walk_step hstop rfl, hnone]
      rfl

/-- Taking out the chunks of a chain, one after the other, takes out what is held under their
identifiers. -/
theorem eraseAll_eq (s : Store) (chain : List StoredChunk) :
    chain.foldl (fun s c => s.erase c.id) s =
      { s with chunks := s.chunks.filter (·.id ∉ chain.map (·.id)) } := by
  induction chain generalizing s with
  | nil => simp
  | cons ch chain ih =>
    rw [List.foldl_cons, ih]
    simp only [erase, List.filter_filter, List.map_cons, List.mem_cons, not_or, Bool.decide_and,
      Bool.and_comm]

/-- A chain is taken out exactly if the links lead from its head to the end over no more chunks than
allowed, all of them held and in the shard of the head. These chunks, no two of which have the same
identifier, are then what is handed out and what the store no longer holds. Otherwise the store
stays as it is, and the error says how many chunks were passed in vain, or else names the first
identifier that belongs to another shard or, if it does not, is not held. -/
theorem reassemble_finds (s : Store) (head : ChunkId) (maxChunks : Nat) :
    let most := max 1 (min maxChunks maxChunksLimit)
    let answer := s.reassemble head maxChunks
    ((∃ r, answer.1 = .ok r) ↔ ∃ chain, s.Path head.shard head chain .none ∧
      chain.length ≤ most) ∧
    (∀ chain, s.Path head.shard head chain .none → chain.length ≤ most →
      answer = (.ok ⟨chain.flatMap (·.data), chain.length⟩,
        { s with chunks := s.chunks.filter (·.id ∉ chain.map (·.id)) }) ∧
      (chain.map (·.id)).Nodup ∧ ∀ ch ∈ chain, ch ∈ s.chunks) ∧
    ((∃ e, answer.1 = .error e) → answer.2 = s) ∧
    (∀ n, answer.1 = .error (.tooLong n) ↔ n = most ∧
      ∃ chain stop, s.Path head.shard head chain stop ∧ chain.length = most ∧ stop ≠ .none) ∧
    (∀ shard stop, answer.1 = .error (.shardMismatch shard stop) ↔
      shard = head.shard ∧ stop ≠ .none ∧ stop.shard ≠ head.shard ∧
      ∃ chain, s.Path head.shard head chain stop ∧ chain.length < most) ∧
    ∀ stop, answer.1 = .error (.missing stop) ↔
      stop ≠ .none ∧ stop.shard = head.shard ∧ s.find? stop = none ∧
      ∃ chain, s.Path head.shard head chain stop ∧ chain.length < most := by
  intro most answer
  have hok {chain : List StoredChunk} (hp : s.Path head.shard head chain .none)
      (hlen : chain.length ≤ most) : answer = (.ok ⟨chain.flatMap (·.data), chain.length⟩,
        { s with chunks := s.chunks.filter (·.id ∉ chain.map (·.id)) }) := by
    have hwalk : s.walk head.shard most most head = .ok chain := walk_eq_iff.mpr ⟨hp, hlen⟩
    simp only [answer, reassemble]
    rw [hwalk, ← eraseAll_eq]
  have herror (e : ChainError) :
      answer.1 = .error e ↔ s.Ends head.shard most most head (.error e) := by
    rw [← walk_eq_iff]
    simp only [answer, reassemble]
    split
    · rename_i hwalk
      rw [hwalk, Except.error.injEq, Except.error.injEq]
    · rename_i hwalk
      rw [hwalk]
      exact ⟨nofun, nofun⟩
  refine ⟨⟨?_, ?_⟩, ?_, ?_, fun n => herror _, fun shard stop => herror _, fun stop => herror _⟩
  · rintro ⟨r, hr⟩
    cases hwalk : s.walk head.shard most most head with
    | error e =>
      rw [(herror e).mpr (walk_eq_iff.mp hwalk)] at hr
      cases hr
    | ok chain => exact ⟨chain, walk_eq_iff.mp hwalk⟩
  · rintro ⟨chain, hp, hlen⟩
    exact ⟨_, congrArg Prod.fst (hok hp hlen)⟩
  · intro chain hp hlen
    exact ⟨hok hp hlen, hp.links.distinct, hp.links.mem⟩
  · rintro ⟨e, he⟩
    exact reassemble_error (Prod.ext he rfl)

example : let s : Store :=
      { maxPending := 4, chunks := [⟨⟨1⟩, ⟨2⟩, [7]⟩, ⟨⟨3⟩, .none, [5]⟩, ⟨⟨2⟩, .none, [8, 9]⟩] }
    s.reassemble ⟨1⟩ 5 = (.ok ⟨[7, 8, 9], 2⟩, { s with chunks := [⟨⟨3⟩, .none, [5]⟩] }) := rfl

example : let s : Store := { maxPending := 1, chunks := [⟨⟨1⟩, ⟨1⟩, [7]⟩] }
    (s.reassemble ⟨1⟩ 5).1 = .error (.tooLong 5) := by decide

end Store
end ChainRelay
