import ChainRelay.Proofs.Exchange.Reassembly
import ChainRelay.Proofs.Store.Account

/-!
What is behind the heads that copies report. The chain of a copy that has returned was committed as
a whole; when nothing is underway, the chains of some heads are taken out one after the other, and
none of the walks fails.
-/

namespace ChainRelay

open ChainRelay.Ring Copy

namespace Exchange

variable {c v : Channel} {ids room copy other : Nat} {a₀ : Allocator} {x : Exchange}
  {claims : List Claim} {got kept : List ChunkView} {head : ChunkId} {heads : List ChunkId}

/-- The copy has returned with this head. -/
def Reported (x : Exchange) (copy : Nat) (head : ChunkId) : Prop :=
  ∃ call o, x.copies[copy]? = some ⟨call, .done o⟩ ∧ o.head = head

theorem Reported.unique {head' : ChunkId} (h : x.Reported copy head) (h' : x.Reported copy head') :
    head' = head := by
  obtain ⟨call, o, hr, rfl⟩ := h
  obtain ⟨call', o', hr', rfl⟩ := h'
  rw [hr] at hr'
  cases hr'
  rfl

/-- The trail of a copy that has returned. -/
theorem Course.closed (h : Course c ids a₀ room x claims got kept) (hr : x.Reported copy head)
    (hne : head ≠ .none) :
    ∃ r g, Attends c ids x claims got copy r g ∧ g.hand = [] ∧ g.lost = .none ∧
      g.first = head := by
  obtain ⟨call, o, hcopy, rfl⟩ := hr
  obtain ⟨g, hg⟩ := h.attends hcopy
  have hended : Call.Ends call o g := hg.follows
  have hhead := hended.head_eq
  refine ⟨_, g, hg, hended.hand_eq, hended.lost_eq, ?_⟩
  split at hhead
  · exact absurd hhead hne
  · exact hhead.symm

theorem Course.issued_head (h : Course c ids a₀ room x claims got kept) (hr : x.Reported copy head)
    (hne : head ≠ .none) : (x.issued copy).head? = some head := by
  obtain ⟨r, g, hg, -, -, rfl⟩ := h.closed hr hne
  rw [hg.issued_eq]
  unfold Trail.first at hne ⊢
  unfold Trail.ids
  cases hsent : g.sent with
  | nil =>
    rw [hsent] at hne
    exact absurd rfl hne
  | cons v sent => rfl

/-- No two copies report the same chain. -/
theorem Course.reported_once (h : Course c ids a₀ room x claims got kept)
    (hr : x.Reported copy head) (hr' : x.Reported other head) (hne : head ≠ .none) :
    other = copy := by
  have hopened := mem_issued.mp (List.mem_of_head? (h.issued_head hr hne))
  have hopened' := mem_issued.mp (List.mem_of_head? (h.issued_head hr' hne))
  exact h.books.opened_once hopened hopened'

/-- Every chunk of a chain that was reported was committed. -/
theorem Course.visible_chain (h : Course c ids a₀ room x claims got kept)
    (hr : x.Reported copy head) (hne : head ≠ .none) :
    ∃ v vs, v.header.id = head ∧ Trail.Leads (v :: vs) .none ∧
      ∀ w ∈ v :: vs, Claims.Visible got claims w := by
  obtain ⟨r, g, hg, hhand, hlost, rfl⟩ := h.closed hr hne
  have hleads := hg.sound.leads
  have hsent := hg.sent
  unfold Trail.goal at hleads
  unfold Trail.first at hne ⊢
  rw [hhand, hlost] at hleads
  cases hg : g.sent with
  | nil =>
    rw [hg] at hne
    exact absurd rfl hne
  | cons v vs =>
    rw [hg] at hleads hsent
    exact ⟨v, vs, rfl, hleads, hsent⟩

/-- The consumer looks up a chain of one of these copies. -/
theorem Course.lookUp (h : Course c ids a₀ room x claims got kept) (maxChunks : Nat)
    {mine : Nat → Prop} (hhead : head ≠ .none → ∃ copy, mine copy ∧ x.Reported copy head) :
    ∃ collected kept', (∀ copy ∈ collected, copy ∈ x.collected ∨ mine copy) ∧
      Course c ids a₀ room { x with store := (x.store.reassemble head maxChunks).2, collected }
        claims got kept' := by
  by_cases hne : head = .none
  · subst hne
    refine ⟨x.collected, kept, fun copy hcopy => .inl hcopy, ?_⟩
    rw [Store.reassemble_none]
    exact h
  obtain ⟨copy, hmine, hr⟩ := hhead hne
  have hid := h.issued_head hr hne
  obtain ⟨call, o, hcopy, -⟩ := hr
  rcases hres : x.store.reassemble head maxChunks with ⟨e | res, store⟩
  · obtain rfl : store = x.store := Store.reassemble_error hres
    exact ⟨x.collected, kept, fun copy hcopy => .inl hcopy, h⟩
  · obtain ⟨kept', hcourse⟩ := h.collect hcopy hid hres
    refine ⟨copy :: x.collected, kept', ?_, hcourse⟩
    intro other hother
    rcases List.mem_cons.mp hother with rfl | hother
    · exact .inr hmine
    · exact .inl hother

theorem Course.lookUpAll (h : Course c ids a₀ room x claims got kept) (maxChunks : Nat)
    {mine : Nat → Prop}
    (hheads : ∀ head ∈ heads, head ≠ .none → ∃ copy, mine copy ∧ x.Reported copy head) :
    ∃ collected kept', (∀ copy ∈ collected, copy ∈ x.collected ∨ mine copy) ∧
      Course c ids a₀ room
        { x with store := (Store.reassembleAll maxChunks heads x.store).2, collected } claims got
        kept' := by
  induction heads generalizing x kept with
  | nil => exact ⟨x.collected, kept, fun copy hcopy => .inl hcopy, h⟩
  | cons head heads ih =>
    obtain ⟨hhead, hheads⟩ := List.forall_mem_cons.mp hheads
    obtain ⟨collected, kept', hmine, hcourse⟩ := h.lookUp maxChunks hhead
    obtain ⟨collected', kept'', hmine', hcourse'⟩ := ih hcourse hheads
    refine ⟨collected', kept'', fun copy hcopy => ?_, hcourse'⟩
    rcases hmine' copy hcopy with hold | hnew
    · exact hmine copy hold
    · exact .inr hnew

/-- When nothing is underway, chains of copies that have returned are found one after the other,
unless they were taken out before. -/
theorem Course.walks_succeed (h : Course c ids a₀ room x claims got kept)
    (hgone : ∀ k ∈ claims, k.purpose = .gone) (hdistinct : (heads.filter (· ≠ .none)).Nodup)
    (hheads : ∀ head ∈ heads, head ≠ .none → ∃ copy, copy ∉ x.collected ∧ x.Reported copy head)
    {maxChunks : Nat} (hmax : maxChunksLimit ≤ maxChunks) :
    ∀ walk ∈ (Store.reassembleAll maxChunks heads x.store).1, ∃ res, walk = .ok res := by
  induction heads generalizing x kept with
  | nil => exact List.forall_mem_nil _
  | cons head heads ih =>
    obtain ⟨hhead, hheads⟩ := List.forall_mem_cons.mp hheads
    unfold Store.reassembleAll
    by_cases hne : head = .none
    · rw [hne, Store.reassemble_none]
      rw [List.filter_cons_of_neg (by simpa using hne)] at hdistinct
      exact List.forall_mem_cons.mpr ⟨⟨_, rfl⟩, ih h hdistinct hheads⟩
    rw [List.filter_cons_of_pos (by simpa using hne), List.nodup_cons] at hdistinct
    obtain ⟨hnew, hdistinct⟩ := hdistinct
    obtain ⟨copy, hcollected, hr⟩ := hhead hne
    have hid := h.issued_head hr hne
    obtain ⟨call, o, hcopy, ho⟩ := id hr
    obtain ⟨g, hg, hc⟩ := h.complete hgone hcopy rfl hcollected
    have hlimit : call.limit ≤ min maxChunks maxChunksLimit := by
      unfold Call.limit
      omega
    have hres := hg.reassemble_complete h.books hid hc hlimit
    obtain ⟨kept', hcourse⟩ := h.collect hcopy hid hres
    rw [hres]
    refine List.forall_mem_cons.mpr ⟨⟨_, rfl⟩, ih hcourse hdistinct ?_⟩
    intro head' hhead' hne'
    obtain ⟨other, hother, hr'⟩ := hheads head' hhead' hne'
    refine ⟨other, ?_, hr'⟩
    intro hmem
    rcases List.mem_cons.mp hmem with rfl | hmem
    · rw [hr.unique hr'] at hhead'
      exact hnew (List.mem_filter.mpr ⟨hhead', by simpa using hne⟩)
    · exact hother hmem

end Exchange

namespace Store

def ResolvedTask.parts (r : ResolvedTask) : List Resolved :=
  [r.filename, r.interpreter, r.arguments, r.environment]

variable {s : Store} {maxChunks : Nat}

theorem resolveChain_whole {head : ChunkId} {res : Reassembled}
    (h : (s.reassemble head maxChunks).1 = .ok res) (truncated : Bool) (cause : ChainError) :
    (s.resolveChain head truncated maxChunks).1 ≠ .broken cause := by
  unfold resolveChain
  split
  · nofun
  · rcases hres : s.reassemble head maxChunks with ⟨e | r, s'⟩
    · rw [hres] at h
      cases h
    · nofun

theorem resolveField_whole {f : Field} {res : Reassembled}
    (h : (s.reassemble f.head maxChunks).1 = .ok res) (cause : ChainError) :
    (s.resolveField f maxChunks).1 ≠ .broken cause := by
  cases f with
  | inline text => nofun
  | unavailable => nofun
  | overflow head len truncated => exact resolveChain_whole h truncated cause

/-- A record is whole if none of the walks along its chains fails. -/
theorem resolveTask_whole {t : Task}
    (h : ∀ walk ∈ (reassembleAll maxChunks t.heads s).1, ∃ res, walk = .ok res) :
    ∀ part ∈ (s.resolveTask t maxChunks).1.parts, ∀ cause, part ≠ .broken cause := by
  simp only [Task.heads, reassembleAll, List.forall_mem_cons] at h
  obtain ⟨⟨r₁, h₁⟩, ⟨r₂, h₂⟩, ⟨r₃, h₃⟩, ⟨r₄, h₄⟩, -⟩ := h
  simp only [resolveTask, resolveBlock, ResolvedTask.parts, resolveChain_store, resolveField_store,
    List.forall_mem_cons]
  exact ⟨resolveField_whole h₁, resolveField_whole h₂, resolveChain_whole h₃ _,
    resolveChain_whole h₄ _, List.forall_mem_nil _⟩

end Store
end ChainRelay
