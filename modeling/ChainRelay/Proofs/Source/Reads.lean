import ChainRelay.Source

/-!
What reads give: bytes that are there, or, of a flat memory, a fault where one is missing.
-/

namespace ChainRelay

namespace AddressSpace

/-- No region starts inside another, and none runs past the last address. -/
structure Flat (s : AddressSpace) : Prop where
  bounded : ∀ r ∈ s.regions, r.start + r.bytes.length ≤ addressLimit
  apart : ∀ r ∈ s.regions, ∀ r' ∈ s.regions, r ≠ r' →
    ¬(r.start ≤ r'.start ∧ r'.start < r.start + r.bytes.length)

def Shows (s : AddressSpace) (domain : TrustDomain) (addr : Nat) (b : UInt8) : Prop :=
  ∃ r ∈ s.regions, r.domain = domain ∧ r.start ≤ addr ∧ r.bytes[addr - r.start]? = some b

def Unreadable (s : AddressSpace) (domain : TrustDomain) (addr : Nat) : Prop :=
  ∀ b, ¬s.Shows domain addr b

def Holds (s : AddressSpace) (domain : TrustDomain) (addr : Nat) (bytes : Bytes) : Prop :=
  ∀ i b, bytes[i]? = some b → s.Shows domain (addr + i) b

/-- The first `n` bytes are readable, and none of them ends a string. -/
def Runs (s : AddressSpace) (domain : TrustDomain) (addr n : Nat) : Prop :=
  ∀ i, i < n → ∃ b, b ≠ 0 ∧ s.Shows domain (addr + i) b

/-- One of the first `n` bytes cannot be read, and the string does not end before it. -/
def Faults (s : AddressSpace) (domain : TrustDomain) (addr n : Nat) : Prop :=
  ∃ i, i < n ∧ s.Runs domain addr i ∧ s.Unreadable domain (addr + i)

variable {s : AddressSpace} {domain : TrustDomain} {addr : Nat}

theorem Holds.nil : s.Holds domain addr [] := nofun

theorem holds_region {r : MappedRegion} (h : r ∈ s.regions) : s.Holds r.domain r.start r.bytes :=
  fun i b hb => ⟨r, h, rfl, Nat.le_add_right _ _, by rwa [Nat.add_sub_cancel_left]⟩

theorem holds_append {bytes more : Bytes} :
    s.Holds domain addr (bytes ++ more) ↔
      s.Holds domain addr bytes ∧ s.Holds domain (addr + bytes.length) more := by
  constructor
  · intro h
    refine ⟨fun i b hi => h i b ?_, fun i b hi => ?_⟩
    · rw [List.getElem?_append_left (List.getElem?_eq_some_iff.mp hi).1, hi]
    · have h := h (bytes.length + i) b (by
        rw [List.getElem?_append_right (by omega), Nat.add_sub_cancel_left, hi])
      rwa [← Nat.add_assoc] at h
  · rintro ⟨hb, hm⟩ i b hi
    rcases Nat.lt_or_ge i bytes.length with hlt | hge
    · exact hb i b (by rwa [List.getElem?_append_left hlt] at hi)
    · rw [List.getElem?_append_right hge] at hi
      have h := hm _ b hi
      rwa [Nat.add_assoc, Nat.add_sub_cancel' hge] at h

theorem Holds.take {bytes : Bytes} (h : s.Holds domain addr bytes) (n : Nat) :
    s.Holds domain addr (bytes.take n) := by
  rw [← List.take_append_drop n bytes] at h
  exact (holds_append.mp h).1

theorem Runs.of_holds {bytes : Bytes} (h : s.Holds domain addr bytes) (hz : ∀ b ∈ bytes, b ≠ 0) :
    s.Runs domain addr bytes.length := fun i hi =>
  ⟨bytes[i], hz _ (List.getElem_mem hi), h i _ (List.getElem?_eq_getElem hi)⟩

theorem Runs.add {m n : Nat} (h : s.Runs domain addr m) (hn : s.Runs domain (addr + m) n) :
    s.Runs domain addr (m + n) := by
  intro i hi
  rcases Nat.lt_or_ge i m with hlt | hge
  · exact h i hlt
  · have h := hn (i - m) (by omega)
    rwa [Nat.add_assoc, Nat.add_sub_cancel' hge] at h

theorem Runs.mono {m n : Nat} (h : s.Runs domain addr n) (hm : m ≤ n) : s.Runs domain addr m :=
  fun i hi => h i (Nat.lt_of_lt_of_le hi hm)

theorem Runs.not_faults {n : Nat} (h : s.Runs domain addr n) : ¬s.Faults domain addr n := by
  rintro ⟨i, hi, -, hu⟩
  obtain ⟨b, -, hb⟩ := h i hi
  exact hu b hb

structure Spells (s : AddressSpace) (domain : TrustDomain) (addr : Nat) (text : Bytes) : Prop where
  letters : ∀ b ∈ text, b ≠ 0
  holds : s.Holds domain addr (text ++ [0])

theorem Spells.runs {text : Bytes} (h : s.Spells domain addr text) :
    s.Runs domain addr text.length := .of_holds (holds_append.mp h.holds).1 h.letters

theorem Spells.ends {text : Bytes} (h : s.Spells domain addr text) :
    s.Shows domain (addr + text.length) 0 := (holds_append.mp h.holds).2 0 0 rfl

theorem Spells.of_ends {text : Bytes} (hholds : s.Holds domain addr text)
    (htext : ∀ b ∈ text, b ≠ 0) (h : s.Shows domain (addr + text.length) 0) :
    s.Spells domain addr text := by
  refine ⟨htext, holds_append.mpr ⟨hholds, fun i b hi => ?_⟩⟩
  obtain ⟨rfl, rfl⟩ : i = 0 ∧ b = 0 := by
    cases i with
    | zero => exact ⟨rfl, (Option.some.inj hi).symm⟩
    | succ i => simp at hi
  exact h

theorem Flat.eq_of_inside (hf : s.Flat) {r r' : MappedRegion} (hr : r ∈ s.regions)
    (hr' : r' ∈ s.regions) (hle : r.start ≤ r'.start)
    (hlt : r'.start < r.start + r.bytes.length) : r = r' := by
  apply Classical.byContradiction
  intro hne
  exact hf.apart r hr r' hr' hne ⟨hle, hlt⟩

theorem Shows.region {b : UInt8} (h : s.Shows domain addr b) :
    ∃ r ∈ s.regions, r.domain = domain ∧ r.start ≤ addr ∧ addr < r.start + r.bytes.length ∧
      r.bytes[addr - r.start]? = some b := by
  obtain ⟨r, hr, hd, hle, hb⟩ := h
  have hlt := (List.getElem?_eq_some_iff.mp hb).1
  exact ⟨r, hr, hd, hle, by omega, hb⟩

/-- A flat memory has at most one byte at an address. -/
theorem Flat.unique (hf : s.Flat) {b b' : UInt8} (h : s.Shows domain addr b)
    (h' : s.Shows domain addr b') : b = b' := by
  obtain ⟨r, hr, -, hle, hlt, hb⟩ := h.region
  obtain ⟨r', hr', -, hle', hlt', hb'⟩ := h'.region
  obtain rfl : r = r' := by
    rcases Nat.le_total r.start r'.start with hs | hs
    · exact hf.eq_of_inside hr hr' hs (by omega)
    · exact (hf.eq_of_inside hr' hr hs (by omega)).symm
  exact Option.some.inj (hb.symm.trans hb')

theorem Flat.holds_eq (hf : s.Flat) {bytes more : Bytes} (h : s.Holds domain addr bytes)
    (hm : s.Holds domain addr more) (hlen : bytes.length = more.length) : bytes = more := by
  apply List.ext_getElem hlen
  intro i hi hi'
  exact hf.unique (h i _ (List.getElem?_eq_getElem hi)) (hm i _ (List.getElem?_eq_getElem hi'))

/-- No terminator stands within a run. -/
theorem Flat.runs_le (hf : s.Flat) {m n : Nat} (h : s.Runs domain addr m)
    (hz : s.Shows domain (addr + n) 0) : m ≤ n := by
  apply Nat.le_of_not_lt
  intro hlt
  obtain ⟨b, hb, hshows⟩ := h n hlt
  exact hb (hf.unique hshows hz)

/-- A string is readable as far as it goes. -/
theorem Flat.not_unreadable (hf : s.Flat) {text : Bytes} (h : s.Spells domain addr text) {i : Nat}
    (hr : s.Runs domain addr i) : ¬s.Unreadable domain (addr + i) := by
  intro hu
  rcases Nat.lt_or_eq_of_le (hf.runs_le hr h.ends) with hlt | rfl
  · obtain ⟨b, -, hb⟩ := h.runs i hlt
    exact hu b hb
  · exact hu 0 h.ends

/-- At most one string begins at an address. -/
theorem Flat.spells_eq (hf : s.Flat) {text other : Bytes} (h : s.Spells domain addr text)
    (ho : s.Spells domain addr other) : text = other := by
  have hlen : text.length = other.length :=
    Nat.le_antisymm (hf.runs_le h.runs ho.ends) (hf.runs_le ho.runs h.ends)
  exact hf.holds_eq (holds_append.mp h.holds).1 (holds_append.mp ho.holds).1 hlen

theorem Flat.unreadable (hf : s.Flat) (domain : TrustDomain) (h : addressLimit ≤ addr) :
    s.Unreadable domain addr := by
  intro b hb
  obtain ⟨r, hr, -, -, hlt, -⟩ := hb.region
  have hbound := hf.bounded r hr
  omega

/-- The fold keeps a region that no other one exceeds. -/
theorem foldl_later (l : List MappedRegion) (best : Option MappedRegion) :
    match l.foldl later best with
    | none => l = [] ∧ best = none
    | some r => (r ∈ l ∨ best = some r) ∧ (∀ r' ∈ l, r'.start ≤ r.start) ∧
        ∀ r', best = some r' → r'.start ≤ r.start := by
  induction l generalizing best with
  | nil => cases best <;> simp
  | cons x l ih =>
    have ih := ih (later best x)
    rw [List.foldl_cons]
    cases h : l.foldl later (later best x) with
    | none =>
      rw [h] at ih
      exact absurd ih.2 (by unfold later; split <;> (try split) <;> simp)
    | some r =>
      rw [h] at ih
      obtain ⟨hmem, hmax, hbest⟩ := ih
      unfold later at hmem hbest
      cases best with
      | none =>
        refine ⟨.inl ?_, ?_, nofun⟩
        · rcases hmem with hmem | hmem
          · exact List.mem_cons_of_mem _ hmem
          · cases hmem
            exact List.mem_cons_self
        · exact List.forall_mem_cons.mpr ⟨hbest x rfl, hmax⟩
      | some y =>
        simp only at hmem hbest
        split at hmem
        · rename_i hlt
          rw [if_pos hlt] at hbest
          have hx := hbest x rfl
          refine ⟨.inl ?_, List.forall_mem_cons.mpr ⟨hx, hmax⟩, ?_⟩
          · rcases hmem with hmem | hmem
            · exact List.mem_cons_of_mem _ hmem
            · cases hmem
              exact List.mem_cons_self
          · rintro _ ⟨⟩
            omega
        · rename_i hge
          rw [if_neg hge] at hbest
          have hy := hbest y rfl
          exact ⟨hmem.imp_left (List.mem_cons_of_mem _),
            List.forall_mem_cons.mpr ⟨by omega, hmax⟩, hbest⟩

theorem nearest_spec (s : AddressSpace) (addr : Nat) :
    match s.nearest addr with
    | none => ∀ r ∈ s.regions, addr < r.start
    | some r => r ∈ s.regions ∧ r.start ≤ addr ∧
        ∀ r' ∈ s.regions, r'.start ≤ addr → r'.start ≤ r.start := by
  have h := foldl_later (s.regions.filter (·.start ≤ addr)) none
  unfold nearest
  split at h
  · intro r hr
    have hn := List.filter_eq_nil_iff.mp h.1 r hr
    simpa using hn
  · obtain ⟨hmem, hmax, -⟩ := h
    rw [or_iff_left (by simp)] at hmem
    obtain ⟨hr, hle⟩ := List.mem_filter.mp hmem
    refine ⟨hr, by simpa using hle, fun r' hr' hle' => ?_⟩
    exact hmax r' (List.mem_filter.mpr ⟨hr', by simpa using hle'⟩)

theorem span_spec (s : AddressSpace) (addr : Nat) (domain : TrustDomain) :
    match s.span addr domain with
    | .ok bs => bs ≠ [] ∧ s.Holds domain addr bs
    | .error _ => s.Flat → s.Unreadable domain addr := by
  have hn := s.nearest_spec addr
  unfold span
  cases he : s.nearest addr with
  | none =>
    rw [he] at hn
    intro _ b hb
    obtain ⟨r, hr, -, hle, -⟩ := hb.region
    exact absurd (hn r hr) (by omega)
  | some r =>
    rw [he] at hn
    obtain ⟨hr, hle, hmax⟩ := hn
    -- whatever region holds the address is the nearest one
    have hown (hf : s.Flat) (b : UInt8) (hb : s.Shows domain addr b) :
        r.domain = domain ∧ addr - r.start < r.bytes.length := by
      obtain ⟨r', hr', hd', hle', hlt', -⟩ := hb.region
      obtain rfl : r' = r := hf.eq_of_inside hr' hr (hmax r' hr' hle') (by omega)
      exact ⟨hd', by omega⟩
    dsimp only
    by_cases hlen : r.bytes.length ≤ addr - r.start
    · rw [if_pos hlen]
      intro hf b hb
      exact absurd (hown hf b hb).2 (by omega)
    rw [if_neg hlen]
    by_cases hd : r.domain ≠ domain
    · rw [if_pos hd]
      intro hf b hb
      exact hd (hown hf b hb).1
    · rw [if_neg hd]
      constructor
      · intro h
        rw [List.drop_eq_nil_iff] at h
        exact hlen h
      · intro i b hi
        rw [List.getElem?_drop] at hi
        exact ⟨r, hr, Classical.not_not.mp hd, by omega,
          by rwa [show addr + i - r.start = addr - r.start + i by omega]⟩

theorem spanFrom_spec (s : AddressSpace) (origin cursor : Nat) (domain : TrustDomain) :
    match s.spanFrom origin cursor domain with
    | .ok bs => bs ≠ [] ∧ s.Holds domain cursor bs
    | .error _ => s.Flat → s.Unreadable domain cursor := by
  unfold spanFrom
  by_cases h : addressLimit ≤ cursor
  · rw [if_pos h]
    exact fun hf => hf.unreadable domain h
  · rw [if_neg h]
    exact s.span_spec cursor domain

/-- Up to its first zero byte a byte string is text. -/
theorem takeWhile_text (part : Bytes) :
    (∀ b ∈ part.takeWhile (· ≠ 0), b ≠ 0) ∧
      if (part.takeWhile (· ≠ 0)).length < part.length then
        ∃ rest, part = part.takeWhile (· ≠ 0) ++ 0 :: rest
      else part.takeWhile (· ≠ 0) = part := by
  induction part with
  | nil => exact ⟨nofun, rfl⟩
  | cons b part ih =>
    by_cases hb : b = 0
    · subst hb
      exact ⟨nofun, part, rfl⟩
    · obtain ⟨hnz, hrest⟩ := ih
      rw [List.takeWhile_cons_of_pos (by simpa using hb)]
      refine ⟨List.forall_mem_cons.mpr ⟨hb, hnz⟩, ?_⟩
      simp only [List.length_cons, Nat.add_lt_add_iff_right, List.cons_append, List.cons.injEq,
        true_and]
      exact hrest

theorem readSpans_spec (s : AddressSpace) (origin : Nat) (domain : TrustDomain)
    (fuel cursor n : Nat) (hn : n ≤ fuel) :
    match s.readSpans origin domain fuel cursor n with
    | .ok bs => bs.length = n ∧ s.Holds domain cursor bs
    | .error _ => s.Flat → ∃ i, i < n ∧ s.Unreadable domain (cursor + i) := by
  induction fuel generalizing cursor n with
  | zero =>
    obtain rfl : n = 0 := by omega
    exact ⟨rfl, .nil⟩
  | succ fuel ih =>
    cases n with
    | zero => exact ⟨rfl, .nil⟩
    | succ n =>
      have hs := s.spanFrom_spec origin cursor domain
      cases he : s.spanFrom origin cursor domain with
      | error fault =>
        rw [he] at hs
        simp only [readSpans, he]
        exact fun hf => ⟨0, by omega, hs hf⟩
      | ok bs =>
        rw [he] at hs
        obtain ⟨hne, hb⟩ := hs
        have hlen : (bs.take (n + 1)).length = min (n + 1) bs.length := List.length_take
        have hpos := List.length_pos_iff.mpr hne
        have ih := ih (cursor + (bs.take (n + 1)).length) (n + 1 - (bs.take (n + 1)).length)
          (by omega)
        simp only [readSpans, he]
        cases hrest : s.readSpans origin domain fuel (cursor + (bs.take (n + 1)).length)
            (n + 1 - (bs.take (n + 1)).length) with
        | ok rest =>
          rw [hrest] at ih
          refine ⟨by rw [List.length_append, ih.1]; omega, ?_⟩
          exact holds_append.mpr ⟨hb.take _, ih.2⟩
        | error fault =>
          rw [hrest] at ih
          intro hf
          obtain ⟨i, hi, hu⟩ := ih hf
          exact ⟨(bs.take (n + 1)).length + i, by omega, by rwa [← Nat.add_assoc]⟩

/-- A read gives exactly the bytes that are there, and fails only for one that is not. -/
theorem readBytes_spec (s : AddressSpace) (addr n : Nat) (domain : TrustDomain) (ha : addr ≠ 0) :
    match s.readBytes addr n domain with
    | .ok bs => bs.length = n ∧ s.Holds domain addr bs
    | .error _ => s.Flat → ∃ i, i < n ∧ s.Unreadable domain (addr + i) := by
  unfold readBytes
  rw [if_neg ha]
  exact s.readSpans_spec addr domain n addr n (Nat.le_refl n)

structure Reads (s : AddressSpace) (domain : TrustDomain) (addr n : Nat) (r : StringRead) :
    Prop where
  holds : s.Holds domain addr r.bytes
  text : ∀ b ∈ r.bytes, b ≠ 0
  ends : if r.terminated then r.bytes.length < n ∧ s.Shows domain (addr + r.bytes.length) 0
    else r.bytes.length = n

/-- Text goes on with what is read behind it. -/
theorem Reads.after {cursor n : Nat} {domain : TrustDomain} {part : Bytes} {r : StringRead}
    (h : s.Reads domain (cursor + part.length) (n - part.length) r) (hle : part.length ≤ n)
    (hb : s.Holds domain cursor part) (hnz : ∀ b ∈ part, b ≠ 0) :
    s.Reads domain cursor n ⟨part ++ r.bytes, r.terminated⟩ := by
  constructor
  case holds => exact holds_append.mpr ⟨hb, h.holds⟩
  case text => exact List.forall_mem_append.mpr ⟨hnz, h.text⟩
  case ends =>
    have hends := h.ends
    rw [List.length_append]
    split at hends
    · rw [if_pos ‹_›, ← Nat.add_assoc]
      exact ⟨by omega, hends.2⟩
    · rw [if_neg ‹_›]
      omega

theorem readStringSpans_spec (s : AddressSpace) (origin : Nat) (domain : TrustDomain)
    (fuel cursor n : Nat) (hn : n ≤ fuel) :
    match s.readStringSpans origin domain fuel cursor n with
    | .ok r => s.Reads domain cursor n r
    | .error _ => s.Flat → s.Faults domain cursor n := by
  induction fuel generalizing cursor n with
  | zero =>
    obtain rfl : n = 0 := by omega
    exact ⟨.nil, nofun, rfl⟩
  | succ fuel ih =>
    cases n with
    | zero => exact ⟨.nil, nofun, rfl⟩
    | succ n =>
      have hs := s.spanFrom_spec origin cursor domain
      cases he : s.spanFrom origin cursor domain with
      | error fault =>
        rw [he] at hs
        simp only [readStringSpans, he]
        exact fun hf => ⟨0, by omega, nofun, hs hf⟩
      | ok bs =>
        rw [he] at hs
        obtain ⟨hne, hb⟩ := hs
        simp only [readStringSpans, he]
        obtain ⟨part, hpart⟩ : ∃ part, bs.take (n + 1) = part := ⟨_, rfl⟩
        have hlen : part.length = min (n + 1) bs.length := by rw [← hpart, List.length_take]
        have hpos := List.length_pos_iff.mpr hne
        have hb : s.Holds domain cursor part := hpart ▸ hb.take _
        obtain ⟨hnz, htext⟩ := takeWhile_text part
        rw [hpart]
        by_cases hlt : (part.takeWhile (· ≠ 0)).length < part.length
        · rw [if_pos hlt] at htext ⊢
          obtain ⟨rest, hrest⟩ := htext
          rw [hrest] at hb
          obtain ⟨hholds, hzero⟩ := holds_append.mp hb
          have hbound : (part.takeWhile (· ≠ 0)).length < n + 1 := by omega
          exact ⟨hholds, hnz, hbound, hzero 0 0 rfl⟩
        · rw [if_neg hlt] at htext ⊢
          rw [htext] at hnz
          have ih := ih (cursor + part.length) (n + 1 - part.length) (by omega)
          cases hrest : s.readStringSpans origin domain fuel (cursor + part.length)
              (n + 1 - part.length) with
          | ok rest =>
            rw [hrest] at ih
            exact ih.after (by omega) hb hnz
          | error fault =>
            rw [hrest] at ih
            intro hf
            obtain ⟨i, hi, hr, hu⟩ := ih hf
            exact ⟨part.length + i, by omega, (Runs.of_holds hb hnz).add hr,
              by rwa [← Nat.add_assoc]⟩

/-- A string read stops at the terminator or at its bound, and fails only for a byte before both
that is not there. -/
theorem readString_spec (s : AddressSpace) (addr n : Nat) (domain : TrustDomain) (ha : addr ≠ 0) :
    match s.readString addr n domain with
    | .ok r => s.Reads domain addr n r
    | .error _ => s.Flat → s.Faults domain addr n := by
  unfold readString
  rw [if_neg ha]
  exact s.readStringSpans_spec addr domain n addr n (Nat.le_refl n)

end AddressSpace
end ChainRelay
