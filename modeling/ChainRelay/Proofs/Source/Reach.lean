import Mathlib.Data.List.Infix
import ChainRelay.Proofs.Source.Reads

/-!
How far reads get. Whatever regions there are, a read meets the same bytes from an address on, and
the same fault behind them (`Reaches`), however many bytes it asks for. A string read meets them
too, so that it is decided by what byte reads give (`string_reads_are_byte_reads`). A read that
begins further on meets the rest, unless a region starts inside another one in between
(`Reaches.after`).
-/

namespace ChainRelay.AddressSpace

/-- A read that began at `origin` meets these bytes from `cursor` on, and then the fault. -/
inductive Reaches (s : AddressSpace) (origin : Nat) (domain : TrustDomain) :
    (cursor : Nat) → Bytes → SourceFault → Prop where
  | stop {cursor : Nat} {fault : SourceFault} (h : s.spanFrom origin cursor domain = .error fault) :
      Reaches s origin domain cursor [] fault
  | goOn {cursor : Nat} {span more : Bytes} {fault : SourceFault}
      (h : s.spanFrom origin cursor domain = .ok span)
      (hr : Reaches s origin domain (cursor + span.length) more fault) :
      Reaches s origin domain cursor (span ++ more) fault

variable {s : AddressSpace} {origin cursor n fuel : Nat} {domain : TrustDomain} {bytes : Bytes}
  {fault : SourceFault}

theorem span_pos {span : Bytes} (h : s.spanFrom origin cursor domain = .ok span) :
    0 < span.length := by
  have hs := s.spanFrom_spec origin cursor domain
  rw [h] at hs
  exact List.length_pos_iff.mpr hs.1

/-- Nothing is met behind the last address. -/
theorem Reaches.beyond (h : s.Reaches origin domain cursor bytes fault)
    (hlimit : addressLimit ≤ cursor) : bytes = [] := by
  cases h with
  | stop => rfl
  | goOn hspan =>
    rw [spanFrom, if_pos hlimit] at hspan
    cases hspan

/-- Every read comes to a fault in the end: each span takes it nearer to the last address. -/
theorem exists_reaches (s : AddressSpace) (origin : Nat) (domain : TrustDomain) (cursor : Nat) :
    ∃ bytes fault, s.Reaches origin domain cursor bytes fault := by
  obtain ⟨room, hroom⟩ : ∃ room, addressLimit - cursor ≤ room := ⟨_, Nat.le_refl _⟩
  induction room generalizing cursor with
  | zero =>
    have hlimit : addressLimit ≤ cursor := by omega
    exact ⟨[], _, .stop (if_pos hlimit)⟩
  | succ room ih =>
    cases h : s.spanFrom origin cursor domain with
    | error fault => exact ⟨[], fault, .stop h⟩
    | ok span =>
      have hpos := span_pos h
      obtain ⟨more, fault, hr⟩ := ih (cursor + span.length) (by omega)
      exact ⟨span ++ more, fault, .goOn h hr⟩

def given (bytes : Bytes) (fault : SourceFault) (n : Nat) : Except SourceFault Bytes :=
  if n ≤ bytes.length then .ok (bytes.take n) else .error fault

theorem given_ok_iff {bs : Bytes} :
    given bytes fault n = .ok bs ↔ bs.length = n ∧ bs <+: bytes := by
  unfold given
  constructor
  · intro h
    split at h
    · rename_i hle
      cases h
      exact ⟨List.length_take_of_le hle, List.take_prefix n bytes⟩
    · cases h
  · rintro ⟨rfl, hprefix⟩
    rw [if_pos hprefix.length_le, ← List.prefix_iff_eq_take.mp hprefix]

theorem Reaches.readSpans_eq (h : s.Reaches origin domain cursor bytes fault) (hn : n ≤ fuel) :
    s.readSpans origin domain fuel cursor n = given bytes fault n := by
  induction h generalizing fuel n with
  | stop hspan =>
    cases n with
    | zero => cases fuel <;> rfl
    | succ n =>
      obtain ⟨fuel, rfl⟩ : ∃ more, fuel = more + 1 := ⟨fuel - 1, by omega⟩
      simp only [readSpans, hspan]
      rfl
  | @goOn cursor span more fault hspan _ ih =>
    have hpos := span_pos hspan
    cases n with
    | zero => cases fuel <;> rfl
    | succ n =>
      obtain ⟨fuel, rfl⟩ : ∃ more, fuel = more + 1 := ⟨fuel - 1, by omega⟩
      simp only [readSpans, hspan]
      rcases Nat.lt_or_ge span.length (n + 1) with hlt | hle
      · have hwhole : span.take (n + 1) = span := List.take_of_length_le (Nat.le_of_lt hlt)
        rw [hwhole, ih (by omega), given, given, List.length_append, List.take_append, hwhole]
        by_cases hroom : n + 1 - span.length ≤ more.length
        · rw [if_pos hroom, if_pos (by omega)]
        · rw [if_neg hroom, if_neg (by omega)]
      · have hlen : (span.take (n + 1)).length = n + 1 := List.length_take_of_le hle
        have hdone : s.readSpans origin domain fuel (cursor + (n + 1)) 0 = .ok [] := by
          cases fuel <;> rfl
        have hroom : n + 1 ≤ (span ++ more).length := by
          rw [List.length_append]
          omega
        rw [hlen, Nat.sub_self, hdone, given, if_pos hroom, List.take_append_of_le_length hle]
        simp

/-- Byte reads of any length give the first bytes of what is met, as far as that goes. -/
theorem Reaches.readBytes_eq {addr : Nat} (h : s.Reaches addr domain addr bytes fault)
    (ha : addr ≠ 0) (n : Nat) : s.readBytes addr n domain = given bytes fault n := by
  rw [readBytes, if_neg ha]
  exact h.readSpans_eq (Nat.le_refl n)

def Ranged (s : AddressSpace) (domain : TrustDomain) (addr n : Nat) : Prop :=
  ∀ m, m < n → ∀ bs, s.readBytes addr (m + 1) domain = .ok bs → addr + m < addressLimit

/-- No region of a flat memory runs past the last address. -/
theorem Flat.ranged (hf : s.Flat) (domain : TrustDomain) {addr : Nat} (ha : addr ≠ 0) (n : Nat) :
    s.Ranged domain addr n := by
  intro m _ bs hread
  have hspec := s.readBytes_spec addr (m + 1) domain ha
  rw [hread] at hspec
  obtain ⟨hlen, hholds⟩ := hspec
  have hlast : bs[m]? = some bs[m] := List.getElem?_eq_getElem (by omega)
  obtain ⟨r, hr, -, -, hlt, -⟩ := (hholds m _ hlast).region
  have hbound := hf.bounded r hr
  omega

theorem ranged_of_le {addr : Nat} (h : addr + n ≤ addressLimit) : s.Ranged domain addr n :=
  fun m hm _ _ => by omega

/-- What a string read for `n` bytes tells of what it meets. -/
inductive Tells (n : Nat) (fault : SourceFault) : Bytes → Except SourceFault StringRead → Prop where
  | ends {text : Bytes} (rest : Bytes) (htext : ∀ b ∈ text, b ≠ 0) (hn : text.length < n) :
      Tells n fault (text ++ 0 :: rest) (.ok ⟨text, true⟩)
  | fills {text : Bytes} (rest : Bytes) (htext : ∀ b ∈ text, b ≠ 0) (hn : text.length = n) :
      Tells n fault (text ++ rest) (.ok ⟨text, false⟩)
  | breaks {text : Bytes} (htext : ∀ b ∈ text, b ≠ 0) (hn : text.length < n) :
      Tells n fault text (.error fault)

/-- A text and its terminator are found in one way only. -/
theorem text_unique {text text' rest rest' : Bytes} (h : text ++ 0 :: rest = text' ++ 0 :: rest')
    (htext : ∀ b ∈ text, b ≠ 0) (htext' : ∀ b ∈ text', b ≠ 0) : text = text' := by
  have htake {text : Bytes} (rest : Bytes) (htext : ∀ b ∈ text, b ≠ 0) :
      (text ++ 0 :: rest).takeWhile (· ≠ 0) = text := by
    rw [List.takeWhile_append_of_pos (by simpa using htext), List.takeWhile_cons_of_neg (by simp),
      List.append_nil]
  rw [← htake rest htext, h, htake rest' htext']

/-- No terminator stands within a text. -/
theorem text_length_le {text more rest rest' : Bytes} (h : text ++ 0 :: rest = more ++ rest')
    (hmore : ∀ b ∈ more, b ≠ 0) : more.length ≤ text.length := by
  apply Nat.le_of_not_lt
  intro hlt
  have hzero : more[text.length]? = some 0 := by
    have hleft : (more ++ rest')[text.length]? = more[text.length]? :=
      List.getElem?_append_left hlt
    rw [← hleft, ← h]
    simp
  exact hmore 0 (List.mem_of_getElem? hzero) rfl

theorem Tells.unique {answer answer' : Except SourceFault StringRead}
    (h : Tells n fault bytes answer) (h' : Tells n fault bytes answer') : answer = answer' := by
  generalize hbytes : bytes = bytes' at h'
  cases h with
  | ends rest htext hn =>
    cases h' with
    | ends rest' htext' hn' => rw [text_unique hbytes htext htext']
    | fills rest' htext' hn' =>
      have hle := text_length_le hbytes htext'
      omega
    | breaks htext' hn' => exact absurd rfl (htext' 0 (by simp [← hbytes]))
  | fills rest htext hn =>
    cases h' with
    | ends rest' htext' hn' =>
      have hle := text_length_le hbytes.symm htext
      omega
    | fills rest' htext' hn' => rw [(List.append_inj hbytes (hn.trans hn'.symm)).1]
    | breaks htext' hn' =>
      rw [← hbytes, List.length_append] at hn'
      omega
  | breaks htext hn =>
    cases h' with
    | ends rest' htext' hn' => exact absurd rfl (htext 0 (by simp [hbytes]))
    | fills rest' htext' hn' =>
      rw [hbytes, List.length_append] at hn
      omega
    | breaks htext' hn' => rfl

/-- Whether a read found the terminator or not, it gives text. -/
theorem Tells.text {text : Bytes} {terminated : Bool}
    (h : Tells n fault bytes (.ok ⟨text, terminated⟩)) :
    (∀ b ∈ text, b ≠ 0) ∧ ∃ rest, bytes = text ++ rest := by
  cases h with
  | ends rest htext hn => exact ⟨htext, 0 :: rest, rfl⟩
  | fills rest htext hn => exact ⟨htext, rest, rfl⟩

theorem Tells.terminated {text : Bytes} (h : Tells n fault bytes (.ok ⟨text, true⟩)) :
    (∀ b ∈ text, b ≠ 0) ∧ ∃ rest, bytes = text ++ 0 :: rest := by
  cases h with
  | ends rest htext hn => exact ⟨htext, rest, rfl⟩

section Answers

variable {answer : Except SourceFault StringRead} (h : Tells n fault bytes answer)
include h

theorem Tells.ends_iff (text : Bytes) : answer = .ok ⟨text, true⟩ ↔
    text.length < n ∧ (∀ b ∈ text, b ≠ 0) ∧ ∃ rest, bytes = text ++ 0 :: rest := by
  constructor
  · rintro rfl
    cases h with
    | ends rest htext hn => exact ⟨hn, htext, rest, rfl⟩
  · rintro ⟨hn, htext, rest, rfl⟩
    exact h.unique (.ends rest htext hn)

theorem Tells.fills_iff (text : Bytes) : answer = .ok ⟨text, false⟩ ↔
    text.length = n ∧ (∀ b ∈ text, b ≠ 0) ∧ text <+: bytes := by
  constructor
  · rintro rfl
    cases h with
    | fills rest htext hn => exact ⟨hn, htext, rest, rfl⟩
  · rintro ⟨hn, htext, rest, rfl⟩
    exact h.unique (.fills rest htext hn)

/-- It breaks off where there is neither a terminator nor enough to fill the room. -/
theorem Tells.breaks_iff (fault' : SourceFault) : answer = .error fault' ↔
    given bytes fault n = .error fault' ∧
      ∀ text : Bytes, text.length < n → (∀ b ∈ text, b ≠ 0) →
        ¬∃ rest, bytes = text ++ 0 :: rest := by
  unfold given
  constructor
  · rintro rfl
    cases h with
    | breaks htext hn =>
      rw [if_neg (Nat.not_le.mpr hn)]
      refine ⟨rfl, ?_⟩
      rintro text - - ⟨rest, rfl⟩
      exact htext 0 (by simp) rfl
  · rintro ⟨hfault, hnone⟩
    split at hfault
    · cases hfault
    · rename_i hshort
      cases hfault
      cases h with
      | ends rest htext hn => exact absurd ⟨rest, rfl⟩ (hnone _ hn htext)
      | fills rest htext hn => simp [hn] at hshort
      | breaks htext hn => rfl

end Answers

/-- Text in front makes a read tell more text. -/
theorem tells_after {text more : Bytes} {answer : Except SourceFault StringRead}
    (htext : ∀ b ∈ text, b ≠ 0) (hn : text.length ≤ n) :
    Tells (n - text.length) fault more answer → Tells n fault (text ++ more)
      (match answer with
        | .error fault => .error fault
        | .ok rest => .ok ⟨text ++ rest.bytes, rest.terminated⟩) := by
  intro h
  cases h with
  | ends rest hmore hlt =>
    rw [← List.append_assoc]
    exact .ends rest (List.forall_mem_append.mpr ⟨htext, hmore⟩)
      (by rw [List.length_append]; omega)
  | fills rest hmore hlen =>
    rw [← List.append_assoc]
    exact .fills rest (List.forall_mem_append.mpr ⟨htext, hmore⟩)
      (by rw [List.length_append]; omega)
  | breaks hmore hlt =>
    exact .breaks (List.forall_mem_append.mpr ⟨htext, hmore⟩) (by rw [List.length_append]; omega)

theorem Reaches.tells_spans (h : s.Reaches origin domain cursor bytes fault) (hn : n ≤ fuel) :
    Tells n fault bytes (s.readStringSpans origin domain fuel cursor n) := by
  have hnone (bytes : Bytes) (fault : SourceFault) (fuel cursor : Nat) :
      Tells 0 fault bytes (s.readStringSpans origin domain fuel cursor 0) := by
    cases fuel <;> exact @Tells.fills 0 _ [] bytes nofun rfl
  induction h generalizing fuel n with
  | stop hspan =>
    cases n with
    | zero => exact hnone ..
    | succ n =>
      obtain ⟨fuel, rfl⟩ : ∃ more, fuel = more + 1 := ⟨fuel - 1, by omega⟩
      simp only [readStringSpans, hspan]
      exact .breaks nofun (Nat.succ_pos n)
  | @goOn cursor span more fault hspan _ ih =>
    have hpos := span_pos hspan
    cases n with
    | zero => exact hnone ..
    | succ n =>
      obtain ⟨fuel, rfl⟩ : ∃ more, fuel = more + 1 := ⟨fuel - 1, by omega⟩
      simp only [readStringSpans, hspan]
      obtain ⟨part, hpart⟩ : ∃ part, span.take (n + 1) = part := ⟨_, rfl⟩
      have hlen : part.length = min (n + 1) span.length := by rw [← hpart, List.length_take]
      have hsplit : span ++ more = part ++ (span.drop (n + 1) ++ more) := by
        rw [← List.append_assoc, ← hpart, List.take_append_drop]
      obtain ⟨hnz, hcut⟩ := takeWhile_text part
      obtain ⟨text, htext⟩ : ∃ text, part.takeWhile (· ≠ 0) = text := ⟨_, rfl⟩
      rw [htext] at hnz hcut
      rw [hpart, htext, hsplit]
      by_cases hlt : text.length < part.length
      · rw [if_pos hlt] at hcut ⊢
        obtain ⟨rest, hrest⟩ := hcut
        have hshort : text.length < n + 1 := by omega
        rw [hrest, List.append_assoc, List.cons_append]
        exact .ends _ hnz hshort
      · rw [if_neg hlt] at hcut ⊢
        rw [hcut] at hnz
        have hle : part.length ≤ n + 1 := by omega
        refine tells_after hnz hle ?_
        -- either the span fills the room or it is passed as a whole
        rcases Nat.lt_or_ge span.length (n + 1) with hlt | hle
        · rw [List.drop_of_length_le (by omega), List.nil_append,
            show part.length = span.length by omega]
          exact ih (by omega)
        · rw [show n + 1 - part.length = 0 by omega]
          exact hnone ..

theorem Reaches.tells {addr : Nat} (h : s.Reaches addr domain addr bytes fault) (ha : addr ≠ 0)
    (n : Nat) : Tells n fault bytes (s.readString addr n domain) := by
  rw [readString, if_neg ha]
  exact h.tells_spans (Nat.le_refl n)

/-- A string read is terminated exactly where a byte read of its text and one byte more shows the
text and the terminator, and is not terminated exactly where a byte read fills the room without one;
otherwise it fails as the byte read that fills the room. So no byte behind a terminator has a part
in it. -/
theorem string_reads_are_byte_reads (s : AddressSpace) (addr n : Nat) (domain : TrustDomain) :
    (∀ text, s.readString addr n domain = .ok ⟨text, true⟩ ↔
      text.length < n ∧ (∀ b ∈ text, b ≠ 0) ∧
        s.readBytes addr (text.length + 1) domain = .ok (text ++ [0])) ∧
    (∀ text, s.readString addr n domain = .ok ⟨text, false⟩ ↔
      text.length = n ∧ (∀ b ∈ text, b ≠ 0) ∧ s.readBytes addr n domain = .ok text) ∧
    ∀ fault, s.readString addr n domain = .error fault ↔
      s.readBytes addr n domain = .error fault ∧
        ∀ text, text.length < n → (∀ b ∈ text, b ≠ 0) →
          s.readBytes addr (text.length + 1) domain ≠ .ok (text ++ [0]) := by
  by_cases ha : addr = 0
  · simp [readString, readBytes, ha]
  obtain ⟨bytes, last, hreaches⟩ := s.exists_reaches addr domain addr
  have htells := hreaches.tells ha n
  have hends (text : Bytes) :
      s.readBytes addr (text.length + 1) domain = .ok (text ++ [0]) ↔
        ∃ rest, bytes = text ++ 0 :: rest := by
    rw [hreaches.readBytes_eq ha, given_ok_iff]
    constructor
    · rintro ⟨-, rest, rfl⟩
      exact ⟨rest, by simp⟩
    · rintro ⟨rest, rfl⟩
      exact ⟨by simp, rest, by simp⟩
  refine ⟨fun text => ?_, fun text => ?_, fun fault => ?_⟩
  · rw [hends, htells.ends_iff]
  · rw [hreaches.readBytes_eq ha, given_ok_iff, htells.fills_iff]
    exact ⟨fun ⟨hn, htext, hbytes⟩ => ⟨hn, htext, hn, hbytes⟩,
      fun ⟨hn, htext, _, hbytes⟩ => ⟨hn, htext, hbytes⟩⟩
  · simp only [ne_eq, hends]
    rw [hreaches.readBytes_eq ha, htells.breaks_iff]

/-- The string ends in the second region, and what is missing behind it matters to bytes only. -/
example : let s : AddressSpace := ⟨[⟨100, [104, 105], .monitored⟩, ⟨102, [0, 7], .monitored⟩]⟩
    s.readString 100 8 .monitored = .ok ⟨[104, 105], true⟩ ∧
      s.readBytes 100 3 .monitored = .ok [104, 105, 0] ∧
      s.readBytes 100 8 .monitored = .error (.unmapped 104) := ⟨rfl, rfl, rfl⟩

/-- Among the `n` bytes from an address on no region starts inside another one. -/
def Seamless (s : AddressSpace) (addr n : Nat) : Prop :=
  ∀ r ∈ s.regions, ∀ r' ∈ s.regions, addr < r'.start → r'.start < addr + n →
    ¬(r.start < r'.start ∧ r'.start < r.start + r.bytes.length)

instance (s : AddressSpace) (addr n : Nat) : Decidable (s.Seamless addr n) :=
  inferInstanceAs (Decidable (∀ r ∈ s.regions, ∀ r' ∈ s.regions, addr < r'.start →
    r'.start < addr + n → ¬(r.start < r'.start ∧ r'.start < r.start + r.bytes.length)))

theorem Seamless.mono {addr addr' m : Nat} (h : s.Seamless addr n) (hle : addr ≤ addr')
    (hm : addr' + m ≤ addr + n) : s.Seamless addr' m :=
  fun r hr r' hr' hlt hend => h r hr r' hr' (by omega) (by omega)

/-- In a flat memory there is none anywhere. -/
theorem Flat.seamless (hf : s.Flat) (addr n : Nat) : s.Seamless addr n := by
  intro r hr r' hr' _ _ hinside
  obtain rfl := hf.eq_of_inside hr hr' (Nat.le_of_lt hinside.1) hinside.2
  exact Nat.lt_irrefl _ hinside.1

theorem nearest_eq_of_none_between {addr addr' : Nat} (hle : addr ≤ addr')
    (h : ∀ r ∈ s.regions, r.start ≤ addr' → r.start ≤ addr) : s.nearest addr' = s.nearest addr := by
  unfold nearest
  congr 1
  refine List.filter_congr fun r hr => ?_
  rw [decide_eq_decide]
  exact ⟨h r hr, fun hr => Nat.le_trans hr hle⟩

/-- A read that starts further on in a span is given the rest of the span. -/
theorem Seamless.span_drop {span : Bytes} (hs : s.Seamless cursor (n + 1))
    (h : s.spanFrom origin cursor domain = .ok span) (hn : n < span.length)
    (hlimit : cursor + n < addressLimit) :
    s.spanFrom origin (cursor + n) domain = .ok (span.drop n) := by
  have hhere : ¬addressLimit ≤ cursor := by omega
  have hnearest := s.nearest_spec cursor
  rw [spanFrom, if_neg hhere, AddressSpace.span] at h
  rw [spanFrom, if_neg (Nat.not_le.mpr hlimit), AddressSpace.span]
  cases hr : s.nearest cursor with
  | none => simp [hr] at h
  | some r =>
    rw [hr] at h hnearest
    obtain ⟨hmem, hstart, -⟩ := hnearest
    dsimp only at h
    split at h
    · cases h
    rename_i hlong
    split at h
    · cases h
    rename_i hdomain
    cases h
    rw [List.length_drop] at hn
    have hsame : s.nearest (cursor + n) = some r := by
      rw [← hr]
      refine nearest_eq_of_none_between (Nat.le_add_right _ _) fun r' hr' hle => ?_
      apply Nat.le_of_not_lt
      intro hlt
      exact hs r hmem r' hr' hlt (by omega) ⟨by omega, by omega⟩
    have hshort : ¬r.bytes.length ≤ cursor + n - r.start := by omega
    rw [hsame]
    dsimp only
    rw [if_neg hshort, if_neg hdomain, List.drop_drop,
      show cursor + n - r.start = cursor - r.start + n by omega]

/-- What is met from further on is the rest of what is met. -/
theorem Reaches.drop (h : s.Reaches origin domain cursor bytes fault) (hn : n ≤ bytes.length)
    (hs : s.Seamless cursor (n + 1)) (hlimit : n < bytes.length → cursor + n < addressLimit) :
    s.Reaches origin domain (cursor + n) (bytes.drop n) fault := by
  induction h generalizing n with
  | stop hspan =>
    obtain rfl : n = 0 := by simpa using hn
    exact .stop hspan
  | @goOn cursor span more fault hspan hmore ih =>
    rw [List.length_append] at hn hlimit
    rcases Nat.lt_or_ge n span.length with hlt | hge
    · have hhere := hs.span_drop hspan hlt (hlimit (by omega))
      have hend : cursor + n + (span.drop n).length = cursor + span.length := by
        rw [List.length_drop]
        omega
      rw [List.drop_append_of_le_length (Nat.le_of_lt hlt)]
      exact .goOn hhere (hend ▸ hmore)
    · obtain ⟨k, rfl⟩ := Nat.exists_eq_add_of_le hge
      rw [List.drop_append, List.drop_of_length_le hge, Nat.add_sub_cancel_left, List.nil_append,
        ← Nat.add_assoc]
      refine ih (by omega) (hs.mono (Nat.le_add_right _ _) (by omega)) fun hk => ?_
      have hbefore := hlimit (by omega)
      omega

/-- Where a read began makes a difference to its fault only. -/
theorem Reaches.from_origin (h : s.Reaches origin domain cursor bytes fault) (origin' : Nat) :
    ∃ fault', s.Reaches origin' domain cursor bytes fault' := by
  induction h with
  | @stop cursor fault hspan =>
    by_cases hlimit : addressLimit ≤ cursor
    · exact ⟨_, .stop (if_pos hlimit)⟩
    · rw [spanFrom, if_neg hlimit] at hspan
      exact ⟨fault, .stop ((if_neg hlimit).trans hspan)⟩
  | @goOn cursor span more fault hspan _ ih =>
    obtain ⟨fault', hmore⟩ := ih
    by_cases hlimit : addressLimit ≤ cursor
    · rw [spanFrom, if_pos hlimit] at hspan
      cases hspan
    · rw [spanFrom, if_neg hlimit] at hspan
      exact ⟨fault', .goOn ((if_neg hlimit).trans hspan) hmore⟩

/-- A read that begins further on. -/
theorem Reaches.after {addr : Nat} (h : s.Reaches addr domain addr bytes fault)
    (hn : n ≤ bytes.length) (hs : s.Seamless addr (n + 1))
    (hlimit : n < bytes.length → addr + n < addressLimit) :
    ∃ fault', s.Reaches (addr + n) domain (addr + n) (bytes.drop n) fault' :=
  (h.drop hn hs hlimit).from_origin (addr + n)

/-- Two reads in a row give what one read gives. -/
theorem Seamless.readBytes_add {addr : Nat} (hs : s.Seamless addr (n + 1)) (ha : addr ≠ 0)
    (hlimit : addr + n < addressLimit) (k : Nat) (bs : Bytes) :
    s.readBytes addr (n + k) domain = .ok bs ↔
      ∃ front back, s.readBytes addr n domain = .ok front ∧
        s.readBytes (addr + n) k domain = .ok back ∧ bs = front ++ back := by
  obtain ⟨bytes, fault, hreaches⟩ := s.exists_reaches addr domain addr
  simp only [hreaches.readBytes_eq ha, given_ok_iff]
  constructor
  · rintro ⟨hlen, hbs⟩
    have hle := hbs.length_le
    obtain ⟨fault', hafter⟩ := hreaches.after (n := n) (by omega) hs fun _ => hlimit
    have hback : bs.drop n <+: bytes.drop n := hbs.drop n
    refine ⟨bs.take n, bs.drop n, ⟨?_, (List.take_prefix n bs).trans hbs⟩, ?_,
      (List.take_append_drop n bs).symm⟩
    · rw [List.length_take]
      omega
    · rw [hafter.readBytes_eq (by omega), given_ok_iff, List.length_drop]
      exact ⟨by omega, hback⟩
  · rintro ⟨front, back, ⟨hlen, hfront⟩, hback, rfl⟩
    have hle := hfront.length_le
    obtain ⟨fault', hafter⟩ := hreaches.after (n := n) (by omega) hs fun _ => hlimit
    rw [hafter.readBytes_eq (by omega), given_ok_iff] at hback
    obtain ⟨rest, rfl⟩ := hfront
    rw [← hlen, List.drop_left] at hback
    exact ⟨by rw [List.length_append]; omega, (List.prefix_append_right_inj front).mpr hback.2⟩

end ChainRelay.AddressSpace
