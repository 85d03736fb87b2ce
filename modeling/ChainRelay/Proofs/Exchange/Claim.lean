import ChainRelay.Proofs.Copy.Effects
import ChainRelay.Proofs.Store.Keeping

/-!
Whose the reservations of a chunk channel are. A queue of claims is the channel's queue with, for
each reservation, the copy or the other producer that holds it, or what became of it.
-/

namespace ChainRelay

open ChainRelay.Ring Copy

inductive Party where
  | copy (number : Nat)
  /-- Another producer. -/
  | holder (number : Nat)
  deriving DecidableEq

inductive Purpose where
  /-- A chunk in the hand of a copy. -/
  | part (copy : Nat) (id : ChunkId)
  | sent (v : ChunkView)
  | foreign (holder : Nat)
  | gone

structure Claim where
  booking : Booking
  purpose : Purpose

namespace Claim

def Sound (k : Claim) : Prop :=
  match k.purpose with
  | .part .. | .foreign _ => k.booking.phase = .writing
  | .sent v => Carries k.booking v
  | .gone => k.booking.phase = .discarded

theorem Sound.gone {k : Claim} (h : k.Sound) (hd : k.booking.phase = .discarded) :
    k.purpose = .gone := by
  unfold Sound at h
  cases hk : k.purpose with
  | gone => rfl
  | part | foreign =>
    rw [hk] at h
    cases h.symm.trans hd
  | sent v =>
    rw [hk] at h
    cases h.committed.symm.trans hd

theorem Sound.sent {k : Claim} (h : k.Sound) (hc : k.booking.phase = .committed) :
    ∃ v, k.purpose = .sent v ∧ Carries k.booking v := by
  unfold Sound at h
  cases hk : k.purpose with
  | sent v =>
    rw [hk] at h
    exact ⟨v, rfl, h⟩
  | part | foreign | gone =>
    rw [hk] at h
    cases h.symm.trans hc

def id? (k : Claim) : Option ChunkId :=
  match k.purpose with
  | .part _ id => some id
  | .sent v => some v.header.id
  | .foreign _ | .gone => none

def view? (k : Claim) : Option ChunkView :=
  match k.purpose with
  | .sent v => some v
  | _ => none

def party? (k : Claim) : Option Party :=
  match k.purpose with
  | .part copy _ => some (.copy copy)
  | .foreign holder => some (.holder holder)
  | .sent _ | .gone => none

def of (p : Party) (k : Claim) : Bool := k.party? = some p

theorem view?_of_party {k : Claim} {p : Party} (h : k.party? = some p) : k.view? = none := by
  unfold party? at h
  unfold view?
  cases hk : k.purpose with
  | sent v => simp [hk] at h
  | part | foreign | gone => rfl

theorem view?_iff {k : Claim} {v : ChunkView} : k.view? = some v ↔ k.purpose = .sent v := by
  unfold view?
  cases k.purpose <;> simp

end Claim

namespace Claims

/-- The chunks that have arrived or are underway. -/
def named (got : List ChunkView) (claims : List Claim) : List ChunkId :=
  got.map (·.header.id) ++ claims.filterMap (·.id?)

def Visible (got : List ChunkView) (claims : List Claim) (v : ChunkView) : Prop :=
  v ∈ got ∨ ∃ k ∈ claims, k.purpose = .sent v

theorem filter_split {p : Claim → Bool} {claims l m : List Claim} {k : Claim}
    (h : claims.filter p = l ++ k :: m) :
    ∃ pre post, claims = pre ++ k :: post ∧ pre.filter p = l ∧ post.filter p = m ∧ p k = true := by
  obtain ⟨front, back, rfl, hfront, hback⟩ := List.filter_eq_append_iff.mp h
  obtain ⟨skipped, post, rfl, hskip, hk, hpost⟩ := List.filter_eq_cons_iff.mp hback
  refine ⟨front ++ skipped, post, by simp, ?_, hpost, hk⟩
  rw [List.filter_append, hfront, List.filter_eq_nil_iff.mpr (by simpa using hskip),
    List.append_nil]

section Change

variable {got : List ChunkView} {pre post : List Claim} {k k' : Claim}

theorem named_append : named got (pre ++ [k]) = named got pre ++ k.id?.toList := by
  cases h : k.id? <;> simp [named, h]

/-- A reservation that changes hands keeps its chunk or gives it up. -/
theorem named_change (h : k'.id? = k.id? ∨ k'.id? = none) :
    (named got (pre ++ k' :: post)).Sublist (named got (pre ++ k :: post)) := by
  unfold named
  apply List.Sublist.append_left
  rw [List.filterMap_append, List.filterMap_append]
  apply List.Sublist.append_left
  rcases h with h | h
  · have hcons : (k' :: post).filterMap (·.id?) = (k :: post).filterMap (·.id?) := by
      simp only [List.filterMap_cons, h]
    exact hcons ▸ List.Sublist.refl _
  · rw [List.filterMap_cons_none h]
    cases hk : k.id? with
    | none => rw [List.filterMap_cons_none hk]
    | some id =>
      rw [List.filterMap_cons_some hk]
      exact List.sublist_cons_self _ _

/-- A chunk that is given up is not named any more. -/
theorem not_named_change (hn : (named got (pre ++ k :: post)).Nodup) {id : ChunkId}
    (h : k.id? = some id) (h' : k'.id? = none) : id ∉ named got (pre ++ k' :: post) := by
  unfold named at hn ⊢
  rw [List.filterMap_append, List.filterMap_cons_some h] at hn
  rw [List.filterMap_append, List.filterMap_cons_none h']
  rw [← List.append_assoc] at hn ⊢
  have hout := (List.nodup_middle.mp hn)
  exact (List.nodup_cons.mp hout).1

theorem visible_change (hk : k.view? = none) {v : ChunkView}
    (h : Visible got (pre ++ k :: post) v) : Visible got (pre ++ k' :: post) v := by
  refine h.imp id fun ⟨d, hd, hv⟩ => ⟨d, ?_, hv⟩
  rcases List.mem_append.mp hd with hd | hd
  · exact List.mem_append_left _ hd
  · rcases List.mem_cons.mp hd with rfl | hd
    · rw [Claim.view?_iff.mpr hv] at hk
      cases hk
    · exact List.mem_append_right _ (List.mem_cons_of_mem _ hd)

theorem filter_change {p : Claim → Bool} (hk : p k = false) (hk' : p k' = false) :
    (pre ++ k' :: post).filter p = (pre ++ k :: post).filter p := by
  simp [List.filter_append, hk, hk']

end Change

/-- What one party's doing leaves to the others. -/
structure Changes (p : Party) (opened : List ChunkId) (got : List ChunkView)
    (claims claims' : List Claim) : Prop where
  others : ∀ q, q ≠ p → claims'.filter (·.of q) = claims.filter (·.of q)
  visible : ∀ v, Visible got claims v → Visible got claims' v
  named : ∀ id ∈ opened, id ∈ named got claims' → id ∈ named got claims

section Changes

variable {p : Party} {opened : List ChunkId} {got : List ChunkView} {claims pre post : List Claim}
  {k k' : Claim}

theorem Changes.refl (p : Party) (opened : List ChunkId) (got : List ChunkView)
    (claims : List Claim) : Changes p opened got claims claims :=
  ⟨fun _ _ => rfl, fun _ h => h, fun _ _ h => h⟩

theorem Changes.append (hk : k.party? = some p) (hnew : ∀ id ∈ opened, k.id? ≠ some id) :
    Changes p opened got claims (claims ++ [k]) := by
  constructor
  · intro q hq
    have hoff : k.of q = false := by simp [Claim.of, hk, Ne.symm hq]
    simp [hoff]
  · rintro v (hv | ⟨d, hd, hv⟩)
    · exact .inl hv
    · exact .inr ⟨d, List.mem_append_left _ hd, hv⟩
  · intro id hid hmem
    rw [named_append, List.mem_append] at hmem
    apply hmem.resolve_right
    intro he
    exact hnew id hid (Option.mem_toList.mp he)

theorem Changes.replace (hk : k.party? = some p) (hk' : k'.party? = some p ∨ k'.party? = none)
    (hid : k'.id? = k.id? ∨ k'.id? = none) :
    Changes p opened got (pre ++ k :: post) (pre ++ k' :: post) := by
  constructor
  · intro q hq
    apply filter_change
    · simp [Claim.of, hk, Ne.symm hq]
    · rcases hk' with hk' | hk' <;> simp [Claim.of, hk', Ne.symm hq]
  · intro v hv
    exact visible_change (Claim.view?_of_party hk) hv
  · intro id _ hmem
    exact (named_change hid).subset hmem

end Changes

/-- What the consumer finds: it passes what is gone, and takes a chunk that was committed. -/
theorem front_cases (claims : List Claim) (h : ∀ k ∈ claims, k.Sound) :
    (Queue.ready? (claims.map (·.booking)) = none ∧
      ∃ front rest, claims = front ++ rest ∧ (∀ k ∈ front, k.purpose = .gone) ∧
        Queue.rest (claims.map (·.booking)) = rest.map (·.booking) ∧
        ∀ k ∈ rest.head?, k.booking.phase = .writing) ∨
    ∃ front k v rest, claims = front ++ k :: rest ∧ (∀ d ∈ front, d.purpose = .gone) ∧
      k.purpose = .sent v ∧ Carries k.booking v ∧
      Queue.ready? (claims.map (·.booking)) = some k.booking.data ∧
      Queue.rest (claims.map (·.booking)) = rest.map (·.booking) := by
  rcases Queue.front_cases (claims.map (·.booking)) with
    ⟨hready, gone, hq, hgone, hhead⟩ | ⟨gone, b, hq, hgone, hb, hready⟩
  · obtain ⟨front, rest, rfl, rfl, hrest⟩ := List.map_eq_append_iff.mp hq
    refine .inl ⟨hready, front, rest, rfl, fun k hk => ?_, hrest.symm, fun k hk => ?_⟩
    · exact (h k (List.mem_append_left _ hk)).gone (hgone _ (List.mem_map_of_mem hk))
    · apply hhead
      rw [← hrest, List.head?_map]
      exact Option.mem_map_of_mem _ hk
  · obtain ⟨front, back, rfl, rfl, hback⟩ := List.map_eq_append_iff.mp hq
    obtain ⟨k, rest, rfl, rfl, hrest⟩ := List.map_eq_cons_iff.mp hback
    obtain ⟨v, hv, hcarries⟩ := (h k (by simp)).sent hb
    refine .inr ⟨front, k, v, rest, rfl, fun d hd => ?_, hv, hcarries, hready, hrest.symm⟩
    exact (h d (List.mem_append_left _ hd)).gone (hgone _ (List.mem_map_of_mem hd))

theorem filterMap_gone {α : Type} {f : Claim → Option α}
    (hf : ∀ k : Claim, k.purpose = .gone → f k = none) {front rest : List Claim}
    (h : ∀ k ∈ front, k.purpose = .gone) : (front ++ rest).filterMap f = rest.filterMap f := by
  have hnone : front.filterMap f = [] := by
    rw [List.filterMap_eq_nil_iff]
    intro k hk
    exact hf k (h k hk)
  rw [List.filterMap_append, hnone, List.nil_append]

/-- What the consumer leaves to the others, when it passes or takes what is at the front. -/
structure Passes (got got' : List ChunkView) (claims claims' : List Claim) : Prop where
  mem : ∀ k ∈ claims', k ∈ claims
  others : ∀ p, claims'.filter (·.of p) = claims.filter (·.of p)
  visible : ∀ v, Visible got claims v → Visible got' claims' v
  named_eq : named got' claims' = named got claims
  views_eq : got'.length + (claims'.filterMap (·.view?)).length =
    got.length + (claims.filterMap (·.view?)).length

section Passes

variable {got got' got'' : List ChunkView} {claims claims' claims'' front rest : List Claim}
  {k : Claim} {v : ChunkView}

theorem Passes.trans (h : Passes got got' claims claims')
    (h' : Passes got' got'' claims' claims'') : Passes got got'' claims claims'' where
  mem k hk := h.mem k (h'.mem k hk)
  others p := (h'.others p).trans (h.others p)
  visible v hv := h'.visible v (h.visible v hv)
  named_eq := h'.named_eq.trans h.named_eq
  views_eq := h'.views_eq.trans h.views_eq

theorem Passes.gone (h : ∀ k ∈ front, k.purpose = .gone) :
    Passes got got (front ++ rest) rest := by
  constructor
  case mem => exact fun k hk => List.mem_append_right _ hk
  case others =>
    intro p
    have hnone : front.filter (·.of p) = [] := by
      rw [List.filter_eq_nil_iff]
      intro k hk
      simp [Claim.of, Claim.party?, h k hk]
    rw [List.filter_append, hnone, List.nil_append]
  case visible =>
    rintro v (hv | ⟨k, hk, hv⟩)
    · exact .inl hv
    · rcases List.mem_append.mp hk with hk | hk
      · rw [h k hk] at hv
        cases hv
      · exact .inr ⟨k, hk, hv⟩
  case named_eq =>
    unfold named
    rw [filterMap_gone (fun k hk => by simp [Claim.id?, hk]) h]
  case views_eq => rw [filterMap_gone (fun k hk => by simp [Claim.view?, hk]) h]

theorem Passes.sent (h : k.purpose = .sent v) : Passes got (got ++ [v]) (k :: rest) rest := by
  have hid : k.id? = some v.header.id := by simp [Claim.id?, h]
  have hviews : (k :: rest).filterMap (·.view?) = v :: rest.filterMap (·.view?) :=
    List.filterMap_cons_some (Claim.view?_iff.mpr h)
  constructor
  case mem => exact fun d hd => List.mem_cons_of_mem _ hd
  case others =>
    intro p
    rw [List.filter_cons_of_neg (by simp [Claim.of, Claim.party?, h])]
  case visible =>
    rintro u (hu | ⟨d, hd, hu⟩)
    · exact .inl (List.mem_append_left _ hu)
    · rcases List.mem_cons.mp hd with rfl | hd
      · rw [h] at hu
        cases hu
        exact .inl (List.mem_append_right _ (List.mem_singleton_self _))
      · exact .inr ⟨d, hd, hu⟩
  case named_eq => simp [named, List.filterMap_cons_some hid]
  case views_eq =>
    rw [hviews, List.length_append, List.length_singleton, List.length_cons]
    omega

end Passes

end Claims
end ChainRelay
