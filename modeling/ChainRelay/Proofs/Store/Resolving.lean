import ChainRelay.Proofs.Copy.Effects
import ChainRelay.Proofs.Store.Keeping

/-!
From a channel to the parts of a record: a large enough store takes every chunk off a channel, and a
reference to a chain that is kept resolves to the bytes of the chain, whatever else is kept.
-/

namespace ChainRelay.Store

open ChainRelay.Ring

variable {s : Store} {got kept views : List ChunkView}

section Drain

variable {c u : Channel} {shared : Shared} {gone ks : List Booking}
  (hu : c.Views u) (hcarries : List.Forall₂ Copy.Carries ks views)
  (hgone : ∀ k ∈ gone, k.phase = .discarded)
include hu hcarries hgone

/-- A store with room for all the records on a channel takes them. -/
theorem Keeps.takeMany (h : s.Keeps got kept) (hq : c.Queued shared (gone ++ ks))
    (hdistinct : ((got ++ views).map (·.header.id)).Nodup)
    (hroom : (got ++ views).length ≤ s.maxPending)
    (hmax : s.maxPending * 2 < sizeLimit ∨ views = []) {fuel : Nat} (hfuel : ks.length ≤ fuel) :
    ∃ s' shared', Store.takeMany u fuel s shared = (.ok views.length, s', shared') ∧
      s'.Keeps (got ++ views) (kept ++ views) := by
  induction hcarries generalizing s shared got kept gone fuel with
  | nil =>
    rw [List.append_nil, List.append_nil]
    cases fuel with
    | zero => exact ⟨s, shared, rfl, h⟩
    | succ fuel =>
      obtain ⟨shared', -, -, -, htake⟩ := takeOne_spec hq hu s
      rw [Queue.ready?_append hgone] at htake
      refine ⟨s, shared', ?_, h⟩
      simp only [Store.takeMany, show s.takeOne u shared = _ from htake]
      rfl
  | @cons k v ks views hk _ ih =>
    obtain ⟨fuel, rfl⟩ : ∃ fewer, fuel = fewer + 1 := ⟨fuel - 1, by
      rw [List.length_cons] at hfuel
      omega⟩
    have hmax := hmax.resolve_right (List.cons_ne_nil v views)
    rw [List.append_cons] at hdistinct hroom ⊢
    have hnew : v.header.id ∉ got.map (·.header.id) := by
      rw [List.map_append, List.map_append, List.nodup_append] at hdistinct
      have hlast := (List.nodup_append.mp hdistinct.1).2.2
      intro hmem
      exact hlast _ hmem _ List.mem_cons_self rfl
    have hlt : s.size < s.maxPending := by
      have hsize := h.size_le
      rw [List.length_append, List.length_append, List.length_singleton] at hroom
      omega
    obtain ⟨s', hingest, hkeeps, hbound, -⟩ := h.ingest hk.decodes hnew hlt hmax
    obtain ⟨shared', hq', -, -, htake⟩ := takeOne_spec hq hu s
    have hready : Queue.ready? (gone ++ k :: ks) = some k.data := by
      rw [Queue.ready?_append hgone]
      simp [Queue.ready?, hk.committed]
    have hrest : Queue.rest (gone ++ k :: ks) = [] ++ ks := by
      rw [Queue.rest_append hgone]
      simp [Queue.rest, hk.committed]
    simp only [hready, hingest] at htake
    rw [hrest] at hq'
    obtain ⟨s'', shared'', hmany, hall⟩ := ih (List.forall_mem_nil _) hkeeps hq' hdistinct
      (by rw [hbound]; exact hroom) (.inl (by rw [hbound]; exact hmax))
      (Nat.le_of_succ_le_succ hfuel)
    refine ⟨s'', shared'', ?_, by rw [List.append_cons kept]; exact hall⟩
    simp only [Store.takeMany, htake, hmany]
    rfl

/-- A store whose bound cannot be doubled takes none. -/
theorem takeMany_overflow (hq : c.Queued shared (gone ++ ks)) (hne : views ≠ [])
    (hmax : sizeLimit ≤ s.maxPending * 2) {fuel : Nat} (hfuel : ks.length ≤ fuel) :
    (Store.takeMany u fuel s shared).1 = .error .overflow := by
  cases hcarries with
  | nil => exact absurd rfl hne
  | @cons k v ks views hk =>
    obtain ⟨fuel, rfl⟩ : ∃ fewer, fuel = fewer + 1 := ⟨fuel - 1, by
      rw [List.length_cons] at hfuel
      omega⟩
    obtain ⟨shared', -, -, -, htake⟩ := takeOne_spec hq hu s
    have hready : Queue.ready? (gone ++ k :: ks) = some k.data := by
      rw [Queue.ready?_append hgone]
      simp [Queue.ready?, hk.committed]
    have hover : (s.takeOne u shared).1 = .error .overflow := by
      simpa only [hready, ingest_overflow hk.decodes hmax] using htake
    rcases he : s.takeOne u shared with ⟨answer, s', shared''⟩
    rw [he] at hover
    obtain rfl : answer = .error .overflow := hover
    simp only [Store.takeMany, he]

end Drain

/-- A reference resolves so in every store that keeps its chunks, and no others are taken out. -/
def Resolves (resolve : Store → Resolved × Store) (views : List ChunkView) (r : Resolved) : Prop :=
  ∀ (s : Store) (got kept : List ChunkView), s.Keeps got kept → (∀ v ∈ views, v ∈ kept) →
    ∃ s' kept', resolve s = (r, s') ∧ s'.Keeps got kept' ∧
      ∀ v ∈ kept, v ∈ kept' ∨ ∃ w ∈ views, v.header.id = w.header.id

/-- Nothing has to be kept for a part that names no chain. -/
theorem resolves_plain (views : List ChunkView) (r : Resolved) :
    Resolves (fun s => (r, s)) views r :=
  fun s _ kept h _ => ⟨s, kept, rfl, h, fun _ hv => .inl hv⟩

/-- What is resolved next finds its chunks. -/
theorem Resolves.before {resolve : Store → Resolved × Store} {more : List ChunkView} {r : Resolved}
    (h : Resolves resolve views r) (hk : s.Keeps got kept) (hall : ∀ v ∈ views ++ more, v ∈ kept)
    (hdistinct : ((views ++ more).map (·.header.id)).Nodup) :
    ∃ s' kept', resolve s = (r, s') ∧ s'.Keeps got kept' ∧ ∀ v ∈ more, v ∈ kept' := by
  obtain ⟨s', kept', hresolve, hkeeps, hleft⟩ := h s got kept hk fun v hv =>
    hall v (List.mem_append_left _ hv)
  refine ⟨s', kept', hresolve, hkeeps, fun v hv => ?_⟩
  apply (hleft v (hall v (List.mem_append_right _ hv))).resolve_right
  rintro ⟨w, hw, he⟩
  rw [List.map_append, List.nodup_append] at hdistinct
  exact hdistinct.2.2 _ (List.mem_map_of_mem hw) _ (List.mem_map_of_mem hv) he.symm

theorem resolveChain_none (s : Store) (truncated : Bool) (maxChunks : Nat) :
    s.resolveChain .none truncated maxChunks = (.unavailable, s) := by
  unfold resolveChain
  exact if_pos rfl

theorem resolves_chain {shard : UInt16} (hw : Walkable shard views .none) (hne : views ≠ [])
    {maxChunks : Nat} (hlen : views.length ≤ max 1 (min maxChunks maxChunksLimit)) {head : ChunkId}
    (hhead : head = views.head?.elim .none (·.header.id)) (truncated : Bool) :
    Resolves (fun s => s.resolveChain head truncated maxChunks) views
      (.chain (views.flatMap (·.data)) truncated) := by
  intro s got kept h hall
  obtain ⟨v, rest, rfl⟩ := List.exists_cons_of_ne_nil hne
  have hnamed := hw.named v List.mem_cons_self
  have hhead : head = v.header.id := hhead
  have hres := h.reassemble_all hw hhead (hhead ▸ hnamed.2) hall hlen
  have hnone : ¬head.isNone = true :=
    fun he => hnamed.1 (hhead ▸ (ChunkId.isNone_iff _).mp he)
  obtain ⟨kept', hkeeps, hleft, -⟩ := h.eraseAll (v :: rest)
  refine ⟨_, kept', ?_, hkeeps, hleft⟩
  show s.resolveChain head truncated maxChunks = _
  unfold resolveChain
  rw [if_neg hnone, hres]

end ChainRelay.Store
