import Mathlib.Algebra.GroupWithZero.Nat
import Mathlib.Logic.Relation
import ChainRelay.Proofs.Store.Balance

/-!
The account of a store over its whole life, whatever is ingested, drained and taken out
(`Account.books_balance`).
-/

namespace ChainRelay

open ChainRelay.Ring

/-- The records that a consumer takes until there is nothing to take: those that were committed, up
to one that is still written. -/
def Ring.Queue.allReady : List Booking → List Bytes
  | [] => []
  | k :: q =>
    match k.phase with
    | .writing => []
    | .committed => k.data :: allReady q
    | .discarded => allReady q

theorem Ring.Queue.allReady_eq (q : List Booking) :
    allReady q = match ready? q with
      | none => []
      | some data => data :: allReady (rest q) := by
  induction q with
  | nil => rfl
  | cons k q ih => cases hp : k.phase <;> simp [allReady, ready?, rest, hp, ih]

namespace Channel

variable {c v : Channel} {s : Shared} {q : List Booking}

/-- A consumer that drains a channel gets all that is ready. -/
theorem Queued.receiveMany (h : c.Queued s q) (hv : c.Views v) {fuel : Nat}
    (hfuel : q.length ≤ fuel) : (v.receiveMany fuel s).1 = .ok (Queue.allReady q) := by
  induction fuel generalizing s q with
  | zero =>
    obtain rfl := List.length_eq_zero_iff.mp (Nat.le_zero.mp hfuel)
    rfl
  | succ fuel ih =>
    obtain ⟨hanswer, hq⟩ := h.receive hv
    rw [Queue.allReady_eq]
    unfold Channel.receiveMany
    rcases he : v.receive s with ⟨answer, s'⟩
    rw [he] at hanswer hq
    dsimp only at hanswer hq
    subst hanswer
    cases hr : Queue.ready? q with
    | none => rfl
    | some data =>
      have hlt := Queue.length_rest_lt hr
      have hmany := ih hq (by omega)
      rcases hm : v.receiveMany fuel s' with ⟨more, s''⟩
      rw [hm] at hmany
      dsimp only at hmany
      subst hmany
      simp only [hm]

end Channel

namespace Store

variable {s : Store}

/-- One record that a store takes off a channel is ingested, and kept or rejected. -/
theorem takeOne_cases {v : Channel} {shared shared' : Shared} {answer : Taken} {s' : Store}
    (h : s.takeOne v shared = (.ok answer, s', shared')) :
    (answer = .nothing ∧ s' = s) ∨
    (answer = .stored ∧ ∃ record id, (s.ingest record).result = .ok id ∧
      s' = (s.ingest record).store) ∨
    (answer = .rejected ∧ ∃ record e, (s.ingest record).result = .error (.decode e) ∧
      s' = { (s.ingest record).store with rejected := s.rejected + 1 }) := by
  unfold takeOne at h
  split at h
  · cases h
  · cases h
    exact .inl ⟨rfl, rfl⟩
  · rename_i front _ _
    dsimp only at h
    split at h
    · rename_i id hid
      cases h
      exact .inr (.inl ⟨rfl, front.data, id, hid, rfl⟩)
    · rename_i e he
      cases h
      exact .inr (.inr ⟨rfl, front.data, e, he, rfl⟩)
    · cases h

theorem Sound.rejecting (h : s.Sound) (n : Nat) : Sound { s with rejected := n } :=
  ⟨h.distinct, h.arrived, h.size_le, h.maxPending_pos⟩

theorem ingest_stored {record : Bytes} (h : s.Sound) (hmax : s.maxPending * 2 < sizeLimit)
    {id : ChunkId} (hok : (s.ingest record).result = .ok id) :
    (s.ingest record).store.Sound ∧ (s.ingest record).store.answered = s.answered + 1 ∧
      (s.ingest record).store.maxPending = s.maxPending ∧
      (s.ingest record).store.rejected = s.rejected := by
  have hspec := h.ingest hmax record
  split at hspec
  · rw [hspec] at hok
    cases hok
  · exact ⟨hspec.2.1, hspec.2.2.2⟩

theorem ingest_rejected {record : Bytes} (h : s.Sound) (hmax : s.maxPending * 2 < sizeLimit)
    {e : IngestError} (herr : (s.ingest record).result = .error e) :
    (s.ingest record).store = s := by
  have hspec := h.ingest hmax record
  split at hspec
  · rw [hspec]
  · rw [hspec.1] at herr
    cases herr

/-- A drain answers for as many more chunks as it says. -/
theorem Sound.takeMany (h : s.Sound) (hmax : s.maxPending * 2 < sizeLimit) {v : Channel}
    {fuel k : Nat} {shared shared' : Shared} {s' : Store}
    (ht : Store.takeMany v fuel s shared = (.ok k, s', shared')) :
    s'.Sound ∧ s'.answered = s.answered + k ∧ s'.maxPending = s.maxPending := by
  induction fuel generalizing s shared k with
  | zero =>
    cases ht
    exact ⟨h, rfl, rfl⟩
  | succ fuel ih =>
    unfold Store.takeMany at ht
    split at ht
    · cases ht
    · rename_i hone
      cases ht
      rcases takeOne_cases hone with ⟨-, rfl⟩ | ⟨hne, -⟩ | ⟨hne, -⟩
      · exact ⟨h, rfl, rfl⟩
      · cases hne
      · cases hne
    · rename_i taken s₁ shared₁ hnot hone
      split at ht
      · cases ht
      · rename_i n s₂ shared₂ hmany
        cases ht
        rcases takeOne_cases hone with ⟨rfl, -⟩ | ⟨rfl, record, id, hok, rfl⟩ |
          ⟨rfl, record, e, herr, rfl⟩
        · exact absurd rfl hnot
        · obtain ⟨hs, ha, hm, -⟩ := ingest_stored h hmax hok
          obtain ⟨hs', ha', hm'⟩ := ih hs (by rw [hm]; exact hmax) hmany
          refine ⟨hs', ?_, hm'.trans hm⟩
          rw [ha', ha, if_pos rfl]
          omega
        · rw [ingest_rejected h hmax herr] at hmany
          exact ih (h.rejecting (s.rejected + 1)) hmax hmany

def isChunk (record : Bytes) : Bool := (decodeChunk record).isOk

def given (s : Store) (record : Bytes) : Store :=
  if isChunk record then (s.ingest record).store else { s with rejected := s.rejected + 1 }

/-- The bound of the store can be doubled, or none of the records asks for it. -/
def Copes (s : Store) (records : List Bytes) : Prop :=
  s.maxPending * 2 < sizeLimit ∨ ∀ record ∈ records, isChunk record = false

instance (s : Store) (records : List Bytes) : Decidable (s.Copes records) :=
  inferInstanceAs (Decidable (_ ∨ _))

theorem copes_cons {record : Bytes} {records : List Bytes} :
    s.Copes (record :: records) ↔ s.Copes [record] ∧ s.Copes records := by
  simp only [Copes, List.forall_mem_cons, List.not_mem_nil, false_imp_iff, implies_true, and_true]
  exact or_and_left

/-- A record is kept if it can be decoded, and otherwise counted. -/
theorem Sound.given (h : s.Sound) {record : Bytes} (hcopes : s.Copes [record]) :
    (s.given record).Sound ∧ (s.given record).maxPending = s.maxPending ∧
      (s.given record).rejected = s.rejected + if isChunk record then 0 else 1 := by
  unfold Store.given
  cases hc : isChunk record with
  | false => exact ⟨h.rejecting _, rfl, rfl⟩
  | true =>
    have hmax : s.maxPending * 2 < sizeLimit := by
      refine hcopes.resolve_right fun hall => ?_
      rw [hall record List.mem_cons_self] at hc
      cases hc
    have hspec := h.ingest hmax record
    cases hd : decodeChunk record with
    | error e =>
      rw [isChunk, hd] at hc
      cases hc
    | ok v =>
      rw [hd] at hspec
      obtain ⟨-, hsound, -, -, hbound, hrejected⟩ := hspec
      exact ⟨hsound, hbound, hrejected⟩

/-- What cannot be decoded is rejected. -/
theorem Sound.rejected_given (h : s.Sound) {records : List Bytes} (hcopes : s.Copes records) :
    (records.foldl Store.given s).rejected = s.rejected + records.countP (!isChunk ·) := by
  induction records generalizing s with
  | nil => rfl
  | cons record records ih =>
    obtain ⟨hone, hrest⟩ := copes_cons.mp hcopes
    obtain ⟨hsound, hbound, hrejected⟩ := h.given hone
    rw [List.foldl_cons, ih hsound (by rwa [Copes, hbound]), hrejected, List.countP_cons]
    cases isChunk record
    · simp only [Bool.not_false, if_true, Bool.false_eq_true, if_false]
      omega
    · simp

section Ready

variable {c v : Channel} (hv : c.Views v) {shared : Shared} {q : List Booking}
  (hq : c.Queued shared q)
include hv hq

/-- A record at the front is taken, unless the bound of the store overflows. -/
theorem Sound.takeOne_ready (h : s.Sound) {record : Bytes} (hr : Queue.ready? q = some record) :
    if s.Copes [record] then ∃ shared', c.Queued shared' (Queue.rest q) ∧
      s.takeOne v shared =
        (.ok (if isChunk record then .stored else .rejected), s.given record, shared')
    else (s.takeOne v shared).1 = .error .overflow := by
  obtain ⟨shared', hq', -, -, htake⟩ := takeOne_spec hq hv s
  simp only [hr] at htake
  unfold Copes Store.given isChunk
  simp only [List.forall_mem_singleton]
  cases hd : decodeChunk record with
  | error e =>
    have hi : s.ingest record = ⟨.error (.decode e), s, []⟩ := by rw [Store.ingest, hd]
    simp only [hi] at htake
    rw [if_pos (.inr rfl)]
    exact ⟨shared', hq', htake⟩
  | ok view =>
    by_cases hmax : s.maxPending * 2 < sizeLimit
    · have hspec := h.ingest hmax record
      rw [hd] at hspec
      simp only [hspec.1] at htake
      rw [if_pos (.inl hmax)]
      exact ⟨shared', hq', htake⟩
    · have hover := ingest_overflow hd (Nat.not_lt.mp hmax)
      have hno : ¬(s.maxPending * 2 < sizeLimit ∨ Except.isOk (.ok view : Except DecodeError _) =
          false) := fun hor => hor.elim hmax Bool.noConfusion
      simp only [hover] at htake
      rw [if_neg hno]
      exact htake

/-- A drain takes every record that is ready, in order, unless the bound of the store overflows. -/
theorem Sound.takeMany_ready (h : s.Sound) {fuel : Nat} (hfuel : q.length ≤ fuel) :
    if s.Copes (Queue.allReady q) then ∃ shared' q',
      Store.takeMany v fuel s shared =
        (.ok ((Queue.allReady q).countP isChunk), (Queue.allReady q).foldl Store.given s, shared') ∧
      c.Queued shared' q' ∧ Queue.ready? q' = none
    else (Store.takeMany v fuel s shared).1 = .error .overflow := by
  induction fuel generalizing s shared q with
  | zero =>
    obtain rfl := List.length_eq_zero_iff.mp (Nat.le_zero.mp hfuel)
    rw [if_pos (.inr nofun)]
    exact ⟨shared, [], rfl, hq, rfl⟩
  | succ fuel ih =>
    rw [Queue.allReady_eq]
    cases hr : Queue.ready? q with
    | none =>
      obtain ⟨shared₁, hq₁, -, -, htake⟩ := takeOne_spec hq hv s
      simp only [hr] at htake
      rw [if_pos (.inr nofun)]
      refine ⟨shared₁, Queue.rest q, ?_, hq₁, Queue.ready?_rest hr⟩
      simp only [Store.takeMany, htake]
      rfl
    | some record =>
      have hlt := Queue.length_rest_lt hr
      have hone := h.takeOne_ready hv hq hr
      by_cases hcopes : s.Copes [record]
      · rw [if_pos hcopes] at hone
        obtain ⟨shared₁, hq₁, htake⟩ := hone
        obtain ⟨hsound, hbound, -⟩ := h.given hcopes
        have hmany := ih hq₁ hsound (by omega)
        have hsame : (s.given record).Copes (Queue.allReady (Queue.rest q)) ↔
            s.Copes (Queue.allReady (Queue.rest q)) := by rw [Copes, Copes, hbound]
        unfold Store.takeMany
        rw [htake]
        by_cases hrest : (s.given record).Copes (Queue.allReady (Queue.rest q))
        · rw [if_pos hrest] at hmany
          obtain ⟨shared', q', hmany, hq', hnone⟩ := hmany
          rw [if_pos (copes_cons.mpr ⟨hcopes, hsame.mp hrest⟩)]
          refine ⟨shared', q', ?_, hq', hnone⟩
          rw [List.foldl_cons, List.countP_cons]
          cases isChunk record
          · simp only [Bool.false_eq_true, if_false, hmany]
            rfl
          · simp only [if_true, hmany]
        · rw [if_neg hrest] at hmany
          rw [if_neg fun hall => hrest (hsame.mpr (copes_cons.mp hall).2)]
          rcases hm : Store.takeMany v fuel (s.given record) shared₁ with ⟨answer, s', shared'⟩
          rw [hm] at hmany
          obtain rfl : answer = .error .overflow := hmany
          cases isChunk record
          · simp only [Bool.false_eq_true, if_false, hm]
          · simp only [if_true, hm]
      · rw [if_neg hcopes] at hone
        rw [if_neg fun hall => hcopes (copes_cons.mp hall).1]
        unfold Store.takeMany
        rcases ht : s.takeOne v shared with ⟨answer, s', shared'⟩
        rw [ht] at hone
        obtain rfl : answer = .error .overflow := hone
        rfl

end Ready

/-- A drain of a channel takes every record that is ready, and keeps it or counts it as rejected. -/
theorem Sound.takeMany_queued (h : s.Sound) (hmax : s.maxPending * 2 < sizeLimit) {c v : Channel}
    (hv : c.Views v) {shared : Shared} {q : List Booking} (hq : c.Queued shared q) {fuel : Nat}
    (hfuel : q.length ≤ fuel) :
    ∃ k s' shared' q', Store.takeMany v fuel s shared = (.ok k, s', shared') ∧
      k + s'.rejected = s.rejected + (Queue.allReady q).length ∧ c.Queued shared' q' ∧
      Queue.ready? q' = none := by
  have hcopes : s.Copes (Queue.allReady q) := .inl hmax
  have hmany := h.takeMany_ready hv hq hfuel
  rw [if_pos hcopes] at hmany
  obtain ⟨shared', q', hmany, hq', hnone⟩ := hmany
  refine ⟨_, _, shared', q', hmany, ?_, hq', hnone⟩
  rw [h.rejected_given hcopes, List.length_eq_countP_add_countP isChunk]
  simp only [Bool.not_eq_true, Bool.decide_eq_false]
  omega

end Store

/-- The chain that a field stands for, if it is one. -/
def Field.head : Field → ChunkId
  | .overflow head _ _ => head
  | _ => .none

/-- The chains of a record, in the order in which they are resolved. -/
def Task.heads (t : Task) : List ChunkId :=
  [t.filename.head, t.interpreter.head, t.arguments.head, t.environment.head]

namespace Store

variable {s : Store}

def reassembleAll (maxChunks : Nat) :
    List ChunkId → Store → List (Except ChainError Reassembled) × Store
  | [], s => ([], s)
  | head :: heads, s =>
    let (walk, s) := s.reassemble head maxChunks
    let (walks, s) := reassembleAll maxChunks heads s
    (walk :: walks, s)

theorem reassemble_none (s : Store) (maxChunks : Nat) :
    s.reassemble .none maxChunks = (.ok {}, s) := by
  simp only [reassemble, walk_none]
  rfl

theorem resolveChain_store (s : Store) (head : ChunkId) (truncated : Bool) (maxChunks : Nat) :
    (s.resolveChain head truncated maxChunks).2 = (s.reassemble head maxChunks).2 := by
  unfold resolveChain
  by_cases hid : head.isNone = true
  · obtain rfl := (ChunkId.isNone_iff head).mp hid
    rw [if_pos hid, reassemble_none]
  · rw [if_neg hid]
    rcases s.reassemble head maxChunks with ⟨e | r, s'⟩ <;> rfl

theorem resolveField_store (s : Store) (f : Field) (maxChunks : Nat) :
    (s.resolveField f maxChunks).2 = (s.reassemble f.head maxChunks).2 := by
  cases f with
  | overflow head len truncated => exact resolveChain_store s head truncated maxChunks
  | inline text => exact congrArg Prod.snd (s.reassemble_none maxChunks).symm
  | unavailable => exact congrArg Prod.snd (s.reassemble_none maxChunks).symm

/-- Resolving a record takes out its chains, and nothing else. -/
theorem resolveTask_store (s : Store) (t : Task) (maxChunks : Nat) :
    (s.resolveTask t maxChunks).2 = (reassembleAll maxChunks t.heads s).2 := by
  simp only [resolveTask, resolveBlock, resolveChain_store, resolveField_store, Task.heads,
    reassembleAll]

def collectedAll (walks : List (Except ChainError Reassembled)) : Nat :=
  (walks.map collected).sum

theorem Sound.reassembleAll (h : s.Sound) (maxChunks : Nat) (heads : List ChunkId) :
    (Store.reassembleAll maxChunks heads s).2.Sound ∧
      (Store.reassembleAll maxChunks heads s).2.answered +
        collectedAll (Store.reassembleAll maxChunks heads s).1 = s.answered ∧
      (Store.reassembleAll maxChunks heads s).2.maxPending = s.maxPending := by
  induction heads generalizing s with
  | nil => exact ⟨h, rfl, rfl⟩
  | cons head heads ih =>
    obtain ⟨hs, ha, hm⟩ := h.reassemble head maxChunks
    obtain ⟨hs', ha', hm'⟩ := ih hs
    refine ⟨hs', ?_, hm'.trans hm⟩
    simp only [Store.reassembleAll, collectedAll, List.map_cons, List.sum_cons] at ha' ⊢
    omega

end Store

/-- A store, the chunks it was given and kept at first, and the chunks that were taken out with
their chains. -/
structure Account where
  store : Store
  ingested : Nat := 0
  collected : Nat := 0

namespace Account

/-- What may happen to a store: a record is ingested, a channel is drained, a chain is taken out,
the chains of a record are. -/
inductive Step : Account → Account → Prop where
  | ingest {a : Account} {record : Bytes} {id : ChunkId}
      (h : (a.store.ingest record).result = .ok id) :
      Step a { a with store := (a.store.ingest record).store, ingested := a.ingested + 1 }
  | reject {a : Account} {record : Bytes} {e : Store.IngestError}
      (h : (a.store.ingest record).result = .error e) :
      Step a { a with store := (a.store.ingest record).store }
  | drain {a : Account} {v : Channel} {shared shared' : Shared} {n : Nat} {store : Store}
      (h : a.store.drain v shared = (.ok n, store, shared')) :
      Step a { a with store, ingested := a.ingested + n }
  | reassemble (a : Account) (head : ChunkId) (maxChunks : Nat) :
      Step a { a with
        store := (a.store.reassemble head maxChunks).2
        collected := a.collected + Store.collected (a.store.reassemble head maxChunks).1 }
  | resolve (a : Account) (t : Task) (maxChunks : Nat) :
      Step a { a with
        store := (a.store.resolveTask t maxChunks).2
        collected := a.collected +
          Store.collectedAll (Store.reassembleAll maxChunks t.heads a.store).1 }

def opened (n : Nat) : Account := ⟨.ofMaxPending n, 0, 0⟩

/-- The store answers for what it was given, less what was taken out. -/
structure Balanced (n : Nat) (a : Account) : Prop where
  sound : a.store.Sound
  maxPending_eq : a.store.maxPending = max n 1
  ingested_eq : a.ingested = a.store.answered + a.collected

variable {n : Nat} {a b : Account}

theorem Balanced.doubles (h : a.Balanced n) (hn : n * 2 < sizeLimit) :
    a.store.maxPending * 2 < sizeLimit := by
  rw [h.maxPending_eq]
  unfold sizeLimit at *
  omega

theorem balanced_opened (n : Nat) : (opened n).Balanced n := ⟨Store.sound_ofMaxPending n, rfl, rfl⟩

theorem Balanced.step (h : a.Balanced n) (hn : n * 2 < sizeLimit) (hs : Step a b) :
    b.Balanced n := by
  have hmax := h.doubles hn
  have hsum := h.ingested_eq
  cases hs with
  | ingest hok =>
    obtain ⟨hs, ha, hm, -⟩ := Store.ingest_stored h.sound hmax hok
    refine ⟨hs, hm.trans h.maxPending_eq, ?_⟩
    dsimp only
    omega
  | reject herr =>
    rw [Store.ingest_rejected h.sound hmax herr]
    exact h
  | drain hd =>
    obtain ⟨hs, ha, hm⟩ := h.sound.takeMany hmax hd
    refine ⟨hs, hm.trans h.maxPending_eq, ?_⟩
    dsimp only
    omega
  | reassemble head maxChunks =>
    obtain ⟨hs, ha, hm⟩ := h.sound.reassemble head maxChunks
    refine ⟨hs, hm.trans h.maxPending_eq, ?_⟩
    dsimp only
    omega
  | resolve t maxChunks =>
    obtain ⟨hs, ha, hm⟩ := h.sound.reassembleAll maxChunks t.heads
    rw [← Store.resolveTask_store] at hs ha hm
    refine ⟨hs, hm.trans h.maxPending_eq, ?_⟩
    dsimp only
    omega

theorem Balanced.run (h : a.Balanced n) (hn : n * 2 < sizeLimit)
    (hs : Relation.ReflTransGen Step a b) : b.Balanced n := by
  induction hs with
  | refl => exact h
  | tail _ hlast ih => exact ih.step hn hlast

/-- Whatever happens to a store, it holds no more chunks than it may, and the chunks it was given
are those it holds, gave up, replaced, or was relieved of. A record that it takes in is found as it
came, one that it cannot decode changes nothing, and a drain receives all that is ready, leaves
nothing that is, and accounts for every record. -/
theorem books_balance (hn : n * 2 < sizeLimit) (h : Relation.ReflTransGen Step (opened n) a) :
    a.store.size ≤ max 1 n ∧
    a.ingested = a.store.size + a.store.evicted + a.store.duplicates + a.collected ∧
    (∀ record, match decodeChunk record with
      | .error e => a.store.ingest record = ⟨.error (.decode e), a.store, []⟩
      | .ok v => (a.store.ingest record).result = .ok v.header.id ∧
          (a.store.ingest record).store.find? v.header.id =
            some ⟨v.header.id, v.header.next, v.data⟩) ∧
    ∀ (c v : Channel) (shared : Shared) (q : List Booking), c.Queued shared q → c.Views v →
      (v.drain shared).1 = .ok (Queue.allReady q) ∧
      ∃ k store shared', a.store.drain v shared = (.ok k, store, shared') ∧
        k + store.rejected = a.store.rejected + (Queue.allReady q).length ∧
        (v.receive shared').1 = .ok none := by
  have hb := (balanced_opened n).run hn h
  have hmax := hb.doubles hn
  refine ⟨?_, hb.ingested_eq, ?_, ?_⟩
  · rw [Nat.max_comm, ← hb.maxPending_eq]
    exact hb.sound.size_le
  · intro record
    have hspec := hb.sound.ingest hmax record
    cases hd : decodeChunk record with
    | error e =>
      rw [hd] at hspec
      exact hspec
    | ok v =>
      rw [hd] at hspec
      exact ⟨hspec.1, hspec.2.2.1⟩
  · intro c v shared q hq hv
    have hfuel := hq.length_le_used hv
    obtain ⟨k, store, shared', q', hdrain, hk, hq', hnone⟩ :=
      hb.sound.takeMany_queued hmax hv hq hfuel
    refine ⟨hq.receiveMany hv hfuel, k, store, shared', hdrain, hk, ?_⟩
    rw [(hq'.receive hv).1, hnone]

def smallChunk (id : UInt64) : Bytes :=
  ChunkHeader.encode { code := 0xFF, effectiveLength := 1, id := ⟨id⟩ } ++ [7]

/-- A store with room for one chunk gives up the first of two, hands out the other, and then owes
nothing. -/
theorem books_balance_of_two : 1 * 2 < sizeLimit ∧ ∃ a : Account,
    Relation.ReflTransGen Step (opened 1) a ∧ a.ingested = 2 ∧ a.store.evicted = 1 ∧
      a.collected = 1 ∧ a.store.size + a.store.duplicates = 0 := by
  have h₁ : ((opened 1).store.ingest (smallChunk 1)).result = .ok ⟨1⟩ := by decide
  have h₂ : (((opened 1).store.ingest (smallChunk 1)).store.ingest (smallChunk 2)).result =
      .ok ⟨2⟩ := by decide
  have hrun : Relation.ReflTransGen Step (opened 1) _ :=
    ((Relation.ReflTransGen.single (.ingest h₁)).tail (.ingest h₂)).tail (.reassemble _ ⟨2⟩ 1)
  obtain ⟨a, ha⟩ : ∃ a : Account, a = ⟨((((opened 1).store.ingest (smallChunk 1)).store.ingest
    (smallChunk 2)).store.reassemble ⟨2⟩ 1).2, 2, 1⟩ := ⟨_, rfl⟩
  have hevicted : a.store.evicted = 1 := by
    subst ha
    decide
  have hrun : Relation.ReflTransGen Step (opened 1) a := ha ▸ hrun
  obtain ⟨-, hsum, -, -⟩ := books_balance (by decide) hrun
  have hingested : a.ingested = 2 := by rw [ha]
  have hcollected : a.collected = 1 := by rw [ha]
  exact ⟨by decide, a, hrun, hingested, hevicted, hcollected, by omega⟩

end Account
end ChainRelay
