import Mathlib.Data.List.Forall2
import Mathlib.Data.Option.Basic
import ChainRelay.Proofs.Source.Reads

/-!
Two memories with the same regions, in which those of one trust domain may hold other bytes. Reads
of the other domain find the same in both, and reads of this one fail alike or give as many bytes.
-/

namespace ChainRelay

/-- The same region, with other contents only if it is of this domain. -/
structure MappedRegion.SameBut (domain : TrustDomain) (r r' : MappedRegion) : Prop where
  start_eq : r'.start = r.start
  domain_eq : r'.domain = r.domain
  length_eq : r'.bytes.length = r.bytes.length
  bytes_eq : r.domain ≠ domain → r'.bytes = r.bytes

namespace AddressSpace

def regionAt? (s : AddressSpace) (start : Nat) : Option MappedRegion :=
  s.regions.find? (·.start = start)

/-- The same regions, listed in any order. -/
def SameBut (domain : TrustDomain) (s s' : AddressSpace) : Prop :=
  ∀ start, Option.Rel (MappedRegion.SameBut domain) (s.regionAt? start) (s'.regionAt? start)

variable {s s' : AddressSpace}

theorem sameBut_of_forall₂ {domain : TrustDomain}
    (h : List.Forall₂ (MappedRegion.SameBut domain) s.regions s'.regions) :
    s.SameBut domain s' := by
  intro start
  unfold regionAt?
  generalize s.regions = l at h ⊢
  generalize s'.regions = l' at h ⊢
  induction h with
  | nil => exact .none
  | cons hr _ ih =>
    rw [List.find?_cons, List.find?_cons, hr.start_eq]
    split
    · exact .some hr
    · exact ih

theorem regionAt?_eq_none {start : Nat} (h : ∀ r ∈ s.regions, r.start ≠ start) :
    s.regionAt? start = none := by
  apply List.find?_eq_none.mpr
  simpa using h

/-- Of the regions that start at the greatest address the fold keeps the first. -/
theorem find?_of_foldl_later (l : List MappedRegion) (best : Option MappedRegion) {r : MappedRegion}
    (h : l.foldl later best = some r) :
    best = some r ∨
      l.find? (·.start = r.start) = some r ∧ ∀ b, best = some b → b.start < r.start := by
  induction l generalizing best with
  | nil => exact .inl h
  | cons x l ih =>
    have hskip (hx : x.start < r.start) (hl : l.find? (·.start = r.start) = some r) :
        (x :: l).find? (·.start = r.start) = some r := by
      rw [List.find?_cons_of_neg (by simp; omega), hl]
    have hfirst : (x :: l).find? (·.start = x.start) = some x :=
      List.find?_cons_of_pos (by simp)
    cases best with
    | none =>
      rcases ih _ h with he | ⟨hl, hlt⟩
      · obtain rfl := Option.some.inj he
        exact .inr ⟨hfirst, nofun⟩
      · exact .inr ⟨hskip (hlt x rfl) hl, nofun⟩
    | some b =>
      have h := ih _ h
      unfold later at h
      dsimp only at h
      by_cases hb : b.start < x.start
      · rw [if_pos hb] at h
        rcases h with he | ⟨hl, hlt⟩
        · obtain rfl := Option.some.inj he
          exact .inr ⟨hfirst, by rintro _ ⟨⟩; exact hb⟩
        · have hx := hlt x rfl
          exact .inr ⟨hskip hx hl, by rintro _ ⟨⟩; omega⟩
      · rw [if_neg hb] at h
        rcases h with he | ⟨hl, hlt⟩
        · exact .inl he
        · have hx := hlt b rfl
          exact .inr ⟨hskip (by omega) hl, by rintro _ ⟨⟩; exact hx⟩

/-- The nearest region is the one that is found at its start, and none starts between. -/
theorem nearest_at (s : AddressSpace) (addr : Nat) :
    match s.nearest addr with
    | none => ∀ start, start ≤ addr → s.regionAt? start = none
    | some r => r.start ≤ addr ∧ s.regionAt? r.start = some r ∧
        ∀ start, r.start < start → start ≤ addr → s.regionAt? start = none := by
  have hn := s.nearest_spec addr
  cases he : s.nearest addr with
  | none =>
    rw [he] at hn
    intro start hle
    apply regionAt?_eq_none
    intro r hr
    have := hn r hr
    omega
  | some r =>
    rw [he] at hn
    obtain ⟨-, hle, hmax⟩ := hn
    refine ⟨hle, ?_, fun start hlt hstart => ?_⟩
    · have hfind := (find?_of_foldl_later _ none he).resolve_left nofun
      rw [List.find?_filter] at hfind
      rw [← hfind.1]
      unfold regionAt?
      congr 1
      funext x
      by_cases hx : x.start = r.start <;> simp [hx, hle]
    · apply regionAt?_eq_none
      rintro x hx rfl
      have := hmax x hx hstart
      omega

/-- Two reads that fail alike, or give as many bytes. -/
inductive Matched : Except SourceFault Bytes → Except SourceFault Bytes → Prop where
  | fault (e : SourceFault) : Matched (.error e) (.error e)
  | bytes {bs bs' : Bytes} (h : bs'.length = bs.length) : Matched (.ok bs) (.ok bs')

section SameBut

variable {domain : TrustDomain} (h : SameBut domain s s')
include h

theorem SameBut.nearest (addr : Nat) :
    Option.Rel (MappedRegion.SameBut domain) (s.nearest addr) (s'.nearest addr) := by
  have hs := s.nearest_at addr
  have hs' := s'.nearest_at addr
  cases he : s.nearest addr with
  | none =>
    cases he' : s'.nearest addr with
    | none => exact .none
    | some r' =>
      rw [he] at hs
      rw [he'] at hs'
      have hr := h r'.start
      rw [hs _ hs'.1, hs'.2.1] at hr
      cases hr
  | some r =>
    rw [he] at hs
    obtain ⟨hle, hr, hmax⟩ := hs
    cases he' : s'.nearest addr with
    | none =>
      rw [he'] at hs'
      have hrel := h r.start
      rw [hr, hs' _ hle] at hrel
      cases hrel
    | some r' =>
      rw [he'] at hs'
      obtain ⟨hle', hr', hmax'⟩ := hs'
      have hstart : r.start = r'.start := by
        rcases Nat.lt_trichotomy r.start r'.start with hlt | heq | hgt
        · have hrel := h r'.start
          rw [hmax _ hlt hle', hr'] at hrel
          cases hrel
        · exact heq
        · have hrel := h r.start
          rw [hr, hmax' _ hgt hle] at hrel
          cases hrel
      have hrel := h r.start
      rwa [hr, hstart, hr'] at hrel

/-- What is found at an address: the same, but for the contents of this domain. -/
theorem SameBut.span (addr : Nat) (other : TrustDomain) :
    Matched (s.span addr other) (s'.span addr other) ∧
      (other ≠ domain → s'.span addr other = s.span addr other) := by
  have hrel := h.nearest addr
  unfold AddressSpace.span
  cases hn : s.nearest addr with
  | none =>
    rw [hn] at hrel
    cases hn' : s'.nearest addr with
    | none => exact ⟨.fault _, fun _ => rfl⟩
    | some r' =>
      rw [hn'] at hrel
      cases hrel
  | some r =>
    rw [hn] at hrel
    cases hn' : s'.nearest addr with
    | none =>
      rw [hn'] at hrel
      cases hrel
    | some r' =>
      rw [hn'] at hrel
      cases hrel with
      | some hr =>
        simp only [hr.start_eq, hr.domain_eq, hr.length_eq]
        split
        · exact ⟨.fault _, fun _ => rfl⟩
        · split
          · exact ⟨.fault _, fun _ => rfl⟩
          · rename_i hd
            refine ⟨.bytes ?_, fun ho => ?_⟩
            · rw [List.length_drop, List.length_drop, hr.length_eq]
            · rw [hr.bytes_eq (Classical.not_not.mp hd ▸ ho)]

theorem SameBut.spanFrom (origin cursor : Nat) (other : TrustDomain) :
    Matched (s.spanFrom origin cursor other) (s'.spanFrom origin cursor other) ∧
      (other ≠ domain → s'.spanFrom origin cursor other = s.spanFrom origin cursor other) := by
  unfold AddressSpace.spanFrom
  split
  · exact ⟨.fault _, fun _ => rfl⟩
  · exact h.span cursor other

theorem SameBut.readBytes_eq {other : TrustDomain} (ho : other ≠ domain) (addr n : Nat) :
    s'.readBytes addr n other = s.readBytes addr n other := by
  have hspans (origin fuel cursor n : Nat) :
      s'.readSpans origin other fuel cursor n = s.readSpans origin other fuel cursor n := by
    induction fuel generalizing cursor n with
    | zero => cases n <;> rfl
    | succ fuel ih =>
      cases n with
      | zero => rfl
      | succ n => simp only [readSpans, (h.spanFrom origin cursor other).2 ho, ih]
  simp only [readBytes, hspans]

theorem SameBut.readString_eq {other : TrustDomain} (ho : other ≠ domain) (addr n : Nat) :
    s'.readString addr n other = s.readString addr n other := by
  have hspans (origin fuel cursor n : Nat) : s'.readStringSpans origin other fuel cursor n =
      s.readStringSpans origin other fuel cursor n := by
    induction fuel generalizing cursor n with
    | zero => cases n <;> rfl
    | succ fuel ih =>
      cases n with
      | zero => rfl
      | succ n => simp only [readStringSpans, (h.spanFrom origin cursor other).2 ho, ih]
  simp only [readString, hspans]

theorem SameBut.readSpans_matched (origin : Nat) (other : TrustDomain) (fuel cursor n : Nat) :
    Matched (s.readSpans origin other fuel cursor n) (s'.readSpans origin other fuel cursor n) := by
  induction fuel generalizing cursor n with
  | zero => cases n <;> exact .bytes rfl
  | succ fuel ih =>
    cases n with
    | zero => exact .bytes rfl
    | succ n =>
      have hspan := (h.spanFrom origin cursor other).1
      simp only [readSpans]
      generalize s.spanFrom origin cursor other = x at hspan ⊢
      generalize s'.spanFrom origin cursor other = x' at hspan ⊢
      cases hspan with
      | fault e => exact .fault e
      | @bytes bs bs' hlen =>
        have htake : (bs'.take (n + 1)).length = (bs.take (n + 1)).length := by
          rw [List.length_take, List.length_take, hlen]
        have ih := ih (cursor + (bs.take (n + 1)).length) (n + 1 - (bs.take (n + 1)).length)
        simp only [htake]
        generalize s.readSpans origin other fuel _ _ = y at ih ⊢
        generalize s'.readSpans origin other fuel _ _ = y' at ih ⊢
        cases ih with
        | fault e => exact .fault e
        | bytes hrest =>
          apply Matched.bytes
          rw [List.length_append, List.length_append, htake, hrest]

theorem SameBut.readBytes_matched (addr n : Nat) (other : TrustDomain) :
    Matched (s.readBytes addr n other) (s'.readBytes addr n other) := by
  unfold readBytes
  split
  · exact .fault _
  · exact h.readSpans_matched addr other n addr n

end SameBut

end AddressSpace

/-- The same fields and regions, with other contents only in regions of this domain. -/
structure TaskSnapshot.SameBut (domain : TrustDomain) (a b : TaskSnapshot) : Prop where
  fields : ∀ task field, b.readField task field = a.readField task field
  memory : a.memory.SameBut domain b.memory

theorem TaskSnapshot.SameBut.fieldOrZero_eq {domain : TrustDomain} {a b : TaskSnapshot}
    (h : a.SameBut domain b) (task : UInt64) : b.fieldOrZero task = a.fieldOrZero task := by
  funext field
  unfold fieldOrZero
  rw [h.fields]

end ChainRelay
