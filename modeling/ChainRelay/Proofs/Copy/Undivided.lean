import ChainRelay.Proofs.Copy.Verdict
import ChainRelay.Proofs.Source.Reach

/-!
What a copy captures in chunks, against what one read of the source gives. As long as no region
starts inside another one where the copy is at work, the two agree, whatever the class of the
chunks; at its cap the copy of a string stops with what one read of that many bytes gives.
-/

namespace ChainRelay.Copy

open AddressSpace Traffic

variable {r : Request} {bytes : Bytes} {fault : SourceFault}

section Segments

variable {copied : Nat}
  (h : r.source.Reaches (r.addr + copied) r.domain (r.addr + copied) bytes fault)
include h

theorem Request.readAfter_bytes (ha : r.addr ≠ 0) {remaining : Nat}
    (hn : 0 < min remaining r.room) :
    match r.readAfter copied (.bytes remaining) with
    | .ok seg => seg.data.length = min remaining r.room ∧ seg.data <+: bytes ∧
        seg.rest = .bytes (remaining - min remaining r.room) ∧
        seg.last = (remaining - min remaining r.room == 0)
    | .error _ => bytes.length < min remaining r.room := by
  have hread := h.readBytes_eq (by omega) (min remaining r.room)
  unfold readAfter
  by_cases hlimit : addressLimit ≤ r.addr + copied
  · rw [if_pos hlimit]
    rw [h.beyond hlimit]
    exact hn
  · rw [if_neg hlimit, Extent.read]
    cases hgiven : given bytes fault (min remaining r.room) with
    | ok data =>
      rw [hread, hgiven]
      obtain ⟨hlen, hdata⟩ := given_ok_iff.mp hgiven
      exact ⟨hlen, hdata, rfl, rfl⟩
    | error fault' =>
      rw [hread, hgiven]
      unfold given at hgiven
      split at hgiven
      · cases hgiven
      · exact Nat.lt_of_not_le ‹_›

theorem Request.readAfter_string (ha : r.addr ≠ 0) (hroom : 0 < r.room) :
    match r.readAfter copied .untilTerminator with
    | .ok seg => seg.rest = .untilTerminator ∧ Tells r.room fault bytes (.ok ⟨seg.data, seg.last⟩)
    | .error _ => (∀ b ∈ bytes, b ≠ 0) ∧ bytes.length < r.room := by
  have htells := h.tells (by omega) r.room
  unfold readAfter
  by_cases hlimit : addressLimit ≤ r.addr + copied
  · rw [if_pos hlimit]
    rw [h.beyond hlimit]
    exact ⟨nofun, hroom⟩
  · rw [if_neg hlimit, Extent.read]
    cases hread : r.source.readString (r.addr + copied) r.room r.domain with
    | ok read =>
      rw [hread] at htells
      exact ⟨rfl, htells⟩
    | error fault' =>
      rw [hread] at htells
      cases htells with
      | breaks htext hlen => exact ⟨htext, hlen⟩

end Segments

/-- Among the first `n` bytes reads may begin anywhere, and meet the rest of what is met from the
start. -/
def Request.Meets (r : Request) (bytes : Bytes) (n : Nat) : Prop :=
  ∀ pos, pos < n → pos ≤ bytes.length →
    ∃ fault, r.source.Reaches (r.addr + pos) r.domain (r.addr + pos) (bytes.drop pos) fault

theorem Request.Meets.of_reaches {n : Nat}
    (h : r.source.Reaches r.addr r.domain r.addr bytes fault) (ha : r.addr ≠ 0)
    (hs : r.source.Seamless r.addr n) (hranged : r.source.Ranged r.domain r.addr n) :
    r.Meets bytes n := by
  intro pos hpos hle
  refine h.after hle (hs.mono (Nat.le_refl _) (by omega)) fun hlt => ?_
  refine hranged pos hpos (bytes.take (pos + 1)) ?_
  rw [h.readBytes_eq ha, given, if_pos (Nat.succ_le_of_lt hlt)]

/-- Payloads and a status that make of these bytes what one read of `n` of them makes. -/
structure Takes (bytes : Bytes) (n : Nat) (status : CopyStatus) (d : List Bytes × CopyStatus) :
    Prop where
  within : d.1.flatten <+: bytes
  settles : if n ≤ bytes.length then d.1.flatten.length = n ∧ d.2 = status else d.2 = .failed

theorem Takes.nothing (bytes : Bytes) (status : CopyStatus) : Takes bytes 0 status ([], status) :=
  ⟨List.nil_prefix, by simp⟩

theorem Takes.failed {n : Nat} {status : CopyStatus} (h : bytes.length < n) :
    Takes bytes n status ([], .failed) :=
  ⟨List.nil_prefix, by rw [if_neg (Nat.not_le.mpr h)]⟩

theorem Takes.cons {n : Nat} {data : Bytes} {status : CopyStatus} {d : List Bytes × CopyStatus}
    (hdata : data <+: bytes) (hle : data.length ≤ n)
    (h : Takes (bytes.drop data.length) (n - data.length) status d) :
    Takes bytes n status (data :: d.1, d.2) := by
  obtain ⟨rest, rfl⟩ := hdata
  obtain ⟨hwithin, hsettles⟩ := h
  rw [List.drop_left] at hwithin hsettles
  constructor
  case within => exact (List.prefix_append_right_inj data).mpr hwithin
  case settles =>
    rw [List.flatten_cons, List.length_append, List.length_append]
    by_cases hn : n ≤ data.length + rest.length
    · rw [if_pos (by omega)] at hsettles
      rw [if_pos hn]
      exact ⟨by omega, hsettles.2⟩
    · rw [if_neg (by omega)] at hsettles
      rwa [if_neg hn]

/-- Payloads and a status that make of these bytes what one string read of `n` of them makes. A copy
that has all of its bytes without a terminator succeeds if the terminator is next. -/
structure Hears (bytes : Bytes) (n : Nat) (d : List Bytes × CopyStatus) : Prop where
  within : d.1.flatten <+: bytes
  tells : ∀ fault, ∃ answer, Tells n fault bytes answer ∧
    match answer with
    | .ok ⟨text, true⟩ => d.1.flatten = text ∧ d.2 = .success
    | .ok ⟨text, false⟩ => d.1.flatten = text ∧ (d.2 = .success ↔ [0] <+: bytes.drop n)
    | .error _ => d.2 = .failed

/-- Nothing more may be taken. -/
theorem Hears.capped {status : CopyStatus} (h : status = .success ↔ [0] <+: bytes) :
    Hears bytes 0 ([], status) :=
  ⟨List.nil_prefix, fun _ => ⟨_, @Tells.fills 0 _ [] bytes nofun rfl, rfl, h⟩⟩

theorem Hears.ended {n : Nat} {text : Bytes} (htext : ∀ b ∈ text, b ≠ 0) (hn : text.length < n)
    (rest : Bytes) {d : List Bytes × CopyStatus} (hd : d.1.flatten = text) (hs : d.2 = .success) :
    Hears (text ++ 0 :: rest) n d :=
  ⟨hd ▸ List.prefix_append _ _, fun _ => ⟨_, .ends rest htext hn, hd, hs⟩⟩

/-- The string has ended before. -/
theorem Hears.silent (rest : Bytes) (n : Nat) : Hears (0 :: rest) n ([], .success) := by
  cases n with
  | zero => exact .capped ⟨fun _ => ⟨rest, rfl⟩, fun _ => rfl⟩
  | succ n =>
    have hnone : ∀ b ∈ ([] : Bytes), b ≠ 0 := by simp
    exact .ended hnone (Nat.succ_pos n) rest rfl rfl

theorem Hears.failed {n : Nat} (htext : ∀ b ∈ bytes, b ≠ 0) (hn : bytes.length < n) :
    Hears bytes n ([], .failed) :=
  ⟨List.nil_prefix, fun _ => ⟨_, .breaks htext hn, rfl⟩⟩

theorem Hears.cons {n : Nat} {text : Bytes} {d : List Bytes × CopyStatus}
    (htext : ∀ b ∈ text, b ≠ 0) (h : Hears bytes n d) :
    Hears (text ++ bytes) (text.length + n) (text :: d.1, d.2) := by
  constructor
  case within => exact (List.prefix_append_right_inj text).mpr h.within
  case tells =>
    intro fault
    obtain ⟨answer, hanswer, hd⟩ := h.tells fault
    rw [← Nat.add_sub_cancel_left (n := text.length) (m := n)] at hanswer
    refine ⟨_, tells_after htext (Nat.le_add_right _ _) hanswer, ?_⟩
    match answer with
    | .error _ => exact hd
    | .ok ⟨more, true⟩ => exact ⟨congrArg (text ++ ·) hd.1, hd.2⟩
    | .ok ⟨more, false⟩ =>
      refine ⟨congrArg (text ++ ·) hd.1, ?_⟩
      rw [List.drop_append, List.drop_of_length_le (Nat.le_add_right _ _),
        Nat.add_sub_cancel_left]
      exact hd.2

section Turns

variable {reach : Nat} (hmeets : r.Meets bytes reach) (ha : r.addr ≠ 0) (hroom : 0 < r.room)
include hmeets ha hroom

theorem Request.takes_ahead {more pos remaining : Nat} {status : CopyStatus}
    (hpos : pos ≤ bytes.length) (hreach : pos + min remaining (more * r.room) ≤ reach)
    (hstatus : status = if remaining ≤ more * r.room then .success else .truncated) :
    Takes (bytes.drop pos) (min remaining (more * r.room)) status
      (r.ahead more pos (.bytes remaining) (remaining == 0)) := by
  induction more generalizing pos remaining with
  | zero =>
    rw [Nat.zero_mul] at hstatus ⊢
    rw [Nat.min_zero, ahead, hstatus]
    cases remaining with
    | zero => exact .nothing ..
    | succ remaining => exact .nothing ..
  | succ more ih =>
    rw [ahead]
    rcases Nat.eq_zero_or_pos remaining with rfl | hsome
    · rw [Nat.zero_min, hstatus, if_pos (Nat.zero_le _)]
      exact .nothing ..
    have hlast : (remaining == 0) = false := beq_false_of_ne (Nat.ne_of_gt hsome)
    rw [Nat.succ_mul] at hreach hstatus ⊢
    obtain ⟨fault, hreaches⟩ := hmeets pos (by omega) hpos
    have hread := readAfter_bytes hreaches ha (show 0 < min remaining r.room by omega)
    rw [hlast, if_neg (by simp), if_neg (by simp)]
    cases hseg : r.readAfter pos (.bytes remaining) with
    | error fault =>
      rw [hseg] at hread
      exact .failed (by omega)
    | ok seg =>
      rw [hseg] at hread
      obtain ⟨hlen, hdata, hrest, hend⟩ := hread
      have hle := hdata.length_le
      rw [List.length_drop] at hle
      have hne : seg.data.isEmpty ≠ true := by
        rw [ne_eq, List.isEmpty_iff, ← List.length_eq_zero_iff]
        omega
      have hleft : min remaining (more * r.room + r.room) - seg.data.length =
          min (remaining - seg.data.length) (more * r.room) := by omega
      have hfits : remaining ≤ more * r.room + r.room ↔
          remaining - seg.data.length ≤ more * r.room := by omega
      rw [← hlen] at hrest hend
      dsimp only
      rw [if_neg hne, hrest, hend]
      refine .cons hdata (by omega) ?_
      rw [hleft, List.drop_drop]
      exact ih (by omega) (by omega) (by simp only [hstatus, hfits])

theorem Request.hears_turn {more pos : Nat} (hpos : pos ≤ bytes.length)
    (hreach : pos + more * r.room < reach)
    (ih : ∀ {fewer pos : Nat}, more = fewer + 1 → pos ≤ bytes.length →
      pos + fewer * r.room < reach →
      Hears (bytes.drop pos) (fewer * r.room) (r.ahead fewer pos .untilTerminator false)) :
    Hears (bytes.drop pos) (more * r.room) (r.ahead more pos .untilTerminator false) := by
  obtain ⟨fault, hreaches⟩ := hmeets pos (by omega) hpos
  have hread := readAfter_string hreaches ha hroom
  have hstarts {text : Bytes} (rest : Bytes) (htext : ∀ b ∈ text, b ≠ 0) (hne : text ≠ []) :
      CopyStatus.truncated = .success ↔ [0] <+: text ++ rest := by
    obtain ⟨b, text, rfl⟩ := List.exists_cons_of_ne_nil hne
    simpa using (htext b List.mem_cons_self).symm
  rw [ahead, if_neg (by simp), if_neg (by simp [Extent.isExact])]
  cases hseg : r.readAfter pos .untilTerminator with
  | error fault' =>
    rw [hseg] at hread
    obtain ⟨htext, hlen⟩ := hread
    cases more with
    | zero =>
      rw [Nat.zero_mul]
      refine .capped (iff_of_false (by simp) fun hzero => ?_)
      exact htext 0 (hzero.subset List.mem_cons_self) rfl
    | succ fewer => exact .failed htext (by rw [Nat.succ_mul]; omega)
  | ok seg =>
    rw [hseg] at hread
    obtain ⟨data, rest', last⟩ := seg
    obtain ⟨rfl, htells⟩ := hread
    obtain ⟨here, hhere⟩ : ∃ here, bytes.drop pos = here := ⟨_, rfl⟩
    rw [hhere] at htells ⊢
    dsimp only
    by_cases hempty : data = []
    · subst hempty
      cases htells with
      | ends rest htext hn => exact .silent rest _
      | fills rest htext hn => exact absurd hn (Nat.ne_of_lt hroom)
    rw [if_neg (by simpa using hempty)]
    cases more with
    | zero =>
      obtain ⟨htext, rest, rfl⟩ := htells.text
      rw [Nat.zero_mul]
      exact .capped (hstarts rest htext hempty)
    | succ fewer =>
      cases htells with
      | ends rest htext hn =>
        refine .ended htext (by rw [Nat.succ_mul]; omega) rest ?_ ?_
        · simp [ahead]
        · simp [ahead]
      | fills rest htext hn =>
        have hfull : data.length = r.room := hn
        have hlen := congrArg List.length hhere
        rw [List.length_drop, List.length_append] at hlen
        have hnext : bytes.drop (pos + data.length) = rest := by
          rw [← List.drop_drop, hhere, List.drop_left]
        have hmore : (fewer + 1) * r.room = data.length + fewer * r.room := by
          rw [Nat.succ_mul, hfull, Nat.add_comm]
        rw [hmore] at hreach ⊢
        have hears : Hears (bytes.drop (pos + data.length)) _ _ := ih rfl (by omega) (by omega)
        rw [hnext] at hears
        exact hears.cons htext

/-- What the copy of a string comes to is what one read of the string tells. -/
theorem Request.hears_ahead {more pos : Nat} (hpos : pos ≤ bytes.length)
    (hreach : pos + more * r.room < reach) :
    Hears (bytes.drop pos) (more * r.room) (r.ahead more pos .untilTerminator false) := by
  induction more generalizing pos with
  | zero => exact hears_turn hmeets ha hroom hpos hreach nofun
  | succ more ih =>
    refine hears_turn hmeets ha hroom hpos hreach fun he hpos hreach => ?_
    cases he
    exact ih hpos hreach

end Turns

/-- A delivery begins like any of its turns, whatever the regions of the source are. -/
theorem Request.delivery_begins {e : Extent} {maxChunks : Nat} (hroom : 0 < r.room)
    (hvalid : ¬r.Invalid e maxChunks) :
    r.delivery e maxChunks = r.ahead (min maxChunks maxChunksLimit) 0 e false := by
  have ha : r.addr ≠ 0 := fun hz => hvalid (.inl hz)
  obtain ⟨fewer, hfewer⟩ : ∃ fewer, min maxChunks maxChunksLimit = fewer + 1 := by
    have hmax : maxChunks ≠ 0 := fun hz => hvalid (.inr (.inl hz))
    exact Nat.exists_eq_succ_of_ne_zero (by simp only [maxChunksLimit]; omega)
  have hread : r.readAfter 0 e = e.read r.source r.addr r.room r.domain ∨
      ∃ fault fault', r.readAfter 0 e = .error fault ∧
        e.read r.source r.addr r.room r.domain = .error fault' := by
    unfold readAfter
    by_cases hlimit : addressLimit ≤ r.addr + 0
    · rw [if_pos hlimit]
      obtain ⟨bytes, fault, hreaches⟩ := r.source.exists_reaches r.addr r.domain r.addr
      obtain rfl := hreaches.beyond hlimit
      refine .inr ⟨_, fault, rfl, ?_⟩
      cases e with
      | bytes len =>
        have hlen : len ≠ 0 := fun hz => hvalid (.inr (.inr (.inr (by rw [hz]))))
        have hsome : ¬min len r.room ≤ ([] : Bytes).length := by
          rw [List.length_nil]
          omega
        rw [Extent.read, hreaches.readBytes_eq ha, given, if_neg hsome]
        rfl
      | untilTerminator =>
        rw [Extent.read, (hreaches.tells ha r.room).unique (.breaks (by simp) hroom)]
        rfl
    · exact .inl (if_neg hlimit)
  have hdelivery : r.delivery e maxChunks = _ := if_neg hvalid
  rw [hdelivery, hfewer, ahead, if_neg (by simp), if_neg (by simp)]
  rcases hread with hread | ⟨fault, fault', hread, hread'⟩
  · rw [hread]
    simp only [Nat.zero_add, Nat.add_sub_cancel]
  · rw [hread, hread']

namespace Call

/-- The bytes that a copy may have to read; of a string also the one behind its last chunk. -/
def wanted (call : Call) : Nat :=
  match call.extent with
  | .bytes len => min len call.reach
  | .untilTerminator => call.reach + 1

def Settled (call : Call) (o : CopyOutcome) (bytes : Bytes) : Prop :=
  match call.extent with
  | .bytes len =>
    match call.source.readBytes call.addr (min len call.reach) call.domain with
    | .ok all => bytes = all ∧ o.status = if len ≤ call.reach then .success else .truncated
    | .error _ => o.status = .failed
  | .untilTerminator =>
    match call.source.readString call.addr call.reach call.domain with
    | .ok ⟨text, true⟩ => bytes = text ∧ o.status = .success
    | .ok ⟨text, false⟩ => bytes = text ∧ (o.status = .success ↔
        call.source.readBytes (call.addr + call.reach) 1 call.domain = .ok [0])
    | .error _ => o.status = .failed

def Whole (call : Call) (bytes : Bytes) : Prop :=
  match call.extent with
  | .bytes len => bytes.length = len
  | .untilTerminator =>
    call.source.readString call.addr (bytes.length + 1) call.domain = .ok ⟨bytes, true⟩

/-- A copy captured these bytes, and they are what one read gives. -/
structure Captured (call : Call) (o : CopyOutcome) (bytes : Bytes) : Prop where
  copied_eq : o.copied = bytes.length
  read : call.source.readBytes call.addr bytes.length call.domain = .ok bytes
  settled : call.Settled o bytes
  whole : o.status = .success → call.Whole bytes

variable {call : Call} {o : CopyOutcome} {all : Bytes}

theorem Settled.of_takes {len : Nat} {d : List Bytes × CopyStatus} (he : call.extent = .bytes len)
    (h : call.source.Reaches call.addr call.domain call.addr all fault) (ha : call.addr ≠ 0)
    (hd : Takes all (min len call.reach) (if len ≤ call.reach then .success else .truncated) d)
    (hs : o.status = d.2) : call.Settled o d.1.flatten := by
  have hsettles := hd.settles
  rw [Settled, he, hs]
  dsimp only
  rw [h.readBytes_eq ha, given]
  split at hsettles
  · rename_i hle
    rw [if_pos hle]
    obtain ⟨hlen, hstatus⟩ := hsettles
    refine ⟨?_, hstatus⟩
    rw [← hlen, ← List.prefix_iff_eq_take.mp hd.within]
  · rename_i hlt
    rw [if_neg hlt]
    exact hsettles

theorem Settled.of_hears {d : List Bytes × CopyStatus} (he : call.extent = .untilTerminator)
    (h : call.source.Reaches call.addr call.domain call.addr all fault) (ha : call.addr ≠ 0)
    (hmeets : call.request.Meets all (call.reach + 1)) (hd : Hears all call.reach d)
    (hs : o.status = d.2) : call.Settled o d.1.flatten := by
  obtain ⟨answer, hanswer, hend⟩ := hd.tells fault
  rw [Settled, he, hs]
  dsimp only
  rw [(h.tells ha call.reach).unique hanswer]
  match answer with
  | .error _ => exact hend
  | .ok ⟨text, true⟩ => exact hend
  | .ok ⟨text, false⟩ =>
    refine ⟨hend.1, hend.2.trans ?_⟩
    cases hanswer with
    | fills rest htext hlen =>
      have hle : call.reach ≤ (text ++ rest).length := by
        rw [List.length_append]
        omega
      obtain ⟨fault', hnext⟩ := hmeets call.reach (Nat.lt_succ_self _) hle
      have ha' : call.addr + call.reach ≠ 0 := fun hz => ha (Nat.add_eq_zero_iff.mp hz).1
      have hread : call.source.readBytes (call.addr + call.reach) 1 call.domain = _ :=
        hnext.readBytes_eq ha' 1
      rw [hread, given_ok_iff]
      exact (and_iff_right rfl).symm

theorem Whole.of_takes {len n : Nat} {d : List Bytes × CopyStatus} (he : call.extent = .bytes len)
    (hd : Takes all (min len n) (if len ≤ n then .success else .truncated) d)
    (hs : d.2 = .success) : call.Whole d.1.flatten := by
  have hsettles := hd.settles
  rw [Whole, he]
  dsimp only
  split at hsettles
  · obtain ⟨hlen, hstatus⟩ := hsettles
    rw [hs] at hstatus
    split at hstatus
    · rw [hlen, Nat.min_eq_left ‹_›]
    · cases hstatus
  · rw [hs] at hsettles
    cases hsettles

theorem Whole.of_hears {n : Nat} {d : List Bytes × CopyStatus} (he : call.extent = .untilTerminator)
    (h : call.source.Reaches call.addr call.domain call.addr all fault) (ha : call.addr ≠ 0)
    (hd : Hears all n d) (hs : d.2 = .success) : call.Whole d.1.flatten := by
  -- either way the terminator is behind the text
  obtain ⟨htext, rest, hall⟩ :
      (∀ b ∈ d.1.flatten, b ≠ 0) ∧ ∃ rest, all = d.1.flatten ++ 0 :: rest := by
    obtain ⟨answer, hanswer, hend⟩ := hd.tells fault
    cases hanswer with
    | ends rest htext hn => exact ⟨hend.1 ▸ htext, rest, by rw [hend.1]⟩
    | fills rest htext hn =>
      obtain ⟨rest', hrest⟩ := hend.2.mp hs
      rw [← hn, List.drop_left] at hrest
      exact ⟨hend.1 ▸ htext, rest', by rw [hend.1, ← hrest]; rfl⟩
    | breaks htext hn =>
      rw [hs] at hend
      cases hend
  rw [Whole, he]
  exact (hall ▸ h.tells ha _).unique (.ends rest htext (Nat.lt_succ_self _))

theorem Captured.of_delivered {views : List ChunkView} (h : Delivered call o views)
    (hvalid : ¬call.request.Invalid call.extent call.settings.maxChunks)
    (hs : call.source.Seamless call.addr call.wanted)
    (hranged : call.source.Ranged call.domain call.addr call.wanted) :
    call.Captured o (views.flatMap (·.data)) := by
  have ha : call.addr ≠ 0 := fun hz => hvalid (.inl hz)
  have hroom : 0 < call.request.room := by
    apply SizeClass.payload_pos
    cases hv : call.request.sizeClass.isValid with
    | true => rfl
    | false => exact absurd (.inr (.inr (.inl hv))) hvalid
  obtain ⟨all, fault, hreaches⟩ := call.source.exists_reaches call.addr call.domain call.addr
  have hmeets : call.request.Meets all call.wanted := .of_reaches hreaches ha hs hranged
  have hd : (views.map (·.data), o.status) =
      call.request.ahead call.limit 0 call.extent false :=
    h.delivers.symm.trans (Request.delivery_begins hroom hvalid)
  have hsettled : (views.map (·.data)).flatten <+: all ∧
      call.Settled o (views.map (·.data)).flatten ∧
      (o.status = .success → call.Whole (views.map (·.data)).flatten) := by
    cases he : call.extent with
    | bytes len =>
      have hlen : (len == 0) = false :=
        beq_false_of_ne fun hz => hvalid (.inr (.inr (.inr (by rw [he, hz]))))
      have hwanted : call.wanted = min len call.reach := by rw [wanted, he]
      have htakes := Request.takes_ahead hmeets ha hroom (Nat.zero_le _)
        (Nat.le_of_eq ((Nat.zero_add _).trans hwanted.symm)) rfl
      rw [hlen, List.drop_zero, ← he, ← hd] at htakes
      exact ⟨htakes.within, .of_takes he hreaches ha htakes rfl, .of_takes he htakes⟩
    | untilTerminator =>
      have hwanted : call.wanted = call.reach + 1 := by rw [wanted, he]
      rw [hwanted] at hmeets
      have hhears := Request.hears_ahead hmeets ha hroom (Nat.zero_le _)
        (Nat.lt_succ_of_le (Nat.le_of_eq (Nat.zero_add _)))
      rw [List.drop_zero, ← he, ← hd] at hhears
      exact ⟨hhears.within, .of_hears he hreaches ha hmeets hhears rfl,
        .of_hears he hreaches ha hhears⟩
  rw [← List.flatMap_def] at hsettled
  constructor
  case copied_eq => exact h.reports.copied_eq
  case read => exact (hreaches.readBytes_eq ha _).trans (given_ok_iff.mpr ⟨rfl, hsettled.1⟩)
  case settled => exact hsettled.2.1
  case whole => exact hsettled.2.2

/-- How a copy is cut into chunks makes no difference to the bytes that it captures, only to how far
it gets. -/
theorem Captured.recut {o' : CopyOutcome} {bytes bytes' : Bytes} {writer : Writer}
    {settings : CopySettings} (h : call.Captured o bytes)
    (h' : Captured { call with writer, settings } o' bytes') :
    (bytes <+: bytes' ∨ bytes' <+: bytes) ∧
      (o.status = .success → o'.status = .success → bytes' = bytes) := by
  have hread := h.read
  have hread' : call.source.readBytes call.addr bytes'.length call.domain = .ok bytes' := h'.read
  have ha : call.addr ≠ 0 := by
    intro hz
    rw [readBytes, if_pos hz] at hread
    cases hread
  obtain ⟨all, fault, hreaches⟩ := call.source.exists_reaches call.addr call.domain call.addr
  rw [hreaches.readBytes_eq ha, given_ok_iff] at hread hread'
  refine ⟨List.prefix_or_prefix_of_prefix hread.2 hread'.2, fun hs hs' => ?_⟩
  have hwhole := h.whole hs
  have hwhole' := h'.whole hs'
  simp only [Whole] at hwhole hwhole'
  cases he : call.extent with
  | bytes len =>
    simp only [he] at hwhole hwhole'
    exact List.IsPrefix.eq_of_length (List.prefix_of_prefix_length_le hread'.2 hread.2
      (by omega)) (by omega)
  | untilTerminator =>
    simp only [he] at hwhole hwhole'
    have htells := hreaches.tells ha (bytes.length + 1)
    have htells' := hreaches.tells ha (bytes'.length + 1)
    rw [hwhole] at htells
    rw [hwhole'] at htells'
    obtain ⟨htext, rest, hall⟩ := htells.terminated
    obtain ⟨htext', rest', hall'⟩ := htells'.terminated
    exact text_unique (hall'.symm.trans hall) htext' htext

end Call

/-- Where no region starts inside another one, reads may be cut anywhere. So a copy that is refused
nothing captures what one read gives, and its chunks make no difference to the bytes. -/
theorem captures_are_what_one_read_gives (source : AddressSpace) (domain : TrustDomain) (addr : Nat)
    (ha : addr ≠ 0) :
    (∀ n k : Nat, addr + n < addressLimit → source.Seamless addr (n + 1) → ∀ bs,
      source.readBytes addr (n + k) domain = .ok bs ↔
        ∃ front back, source.readBytes addr n domain = .ok front ∧
          source.readBytes (addr + n) k domain = .ok back ∧ bs = front ++ back) ∧
    (∀ (c : Channel) (t : Traffic) (writer : Writer) (settings : CopySettings) (extent : Extent),
      let call : Call := { writer, source, addr, domain, settings, extent }
      Traffic.Reached c t → writer.channel ∈ t.views → call.activity.Granted t.shared →
      ¬call.request.Invalid extent settings.maxChunks →
      source.Seamless addr call.wanted → source.Ranged domain addr call.wanted →
      (∃ q, c.Queued t.shared q) ∧ ∀ q, c.Queued t.shared q →
        ∃ o s records views, call.activity.run t.shared = (.ok o, s) ∧
          c.Queued s (q ++ records) ∧ List.Forall₂ Carries records views ∧
          call.Captured o (views.flatMap (·.data))) ∧
    ∀ (writer writer' : Writer) (settings settings' : CopySettings) (extent : Extent)
      (o o' : CopyOutcome) (bytes bytes' : Bytes),
      Call.Captured ⟨writer, source, addr, domain, settings, extent⟩ o bytes →
      Call.Captured ⟨writer', source, addr, domain, settings', extent⟩ o' bytes' →
      (bytes <+: bytes' ∨ bytes' <+: bytes) ∧
        (o.status = .success → o'.status = .success → bytes' = bytes) := by
  refine ⟨fun n k hlimit hs bs => hs.readBytes_add ha hlimit k bs, ?_,
    fun _ _ _ _ _ _ _ _ _ h h' => h.recut h'⟩
  intro c t writer settings extent call ht hv hgranted hvalid hs hranged
  obtain ⟨hq, hviews⟩ := ht.queued
  refine ⟨hq, fun q hq => ?_⟩
  obtain ⟨o, s, records, views, hrun, hq', hrecords, hdelivered, -⟩ :=
    call.run_granted (hviews _ hv) hq hgranted
  exact ⟨o, s, records, views, hrun, hq', hrecords, .of_delivered hdelivered hvalid hs hranged⟩

/-- Three bytes in chunks of `size`, up to where a region of the collector starts inside the one
that they are in. -/
def Call.ofNested (size : UInt16) : Call where
  writer := ⟨firstChannel, 0, 7, 0⟩
  source := ⟨[⟨103, [9], .collector⟩, ⟨100, [1, 2, 3, 4, 5], .monitored⟩]⟩
  addr := 100
  domain := .monitored
  settings := { byteClass := some (.custom size) }
  extent := .bytes 3

theorem captures_are_what_one_read_gives_of_three_bytes :
    (Call.ofNested 1).source.readBytes 100 3 .monitored = .ok [1, 2, 3] ∧
    ∃ o o' bytes, (Call.ofNested 1).Captured o bytes ∧ (Call.ofNested 2).Captured o' bytes ∧
      o.chunks = 3 ∧ o'.chunks = 2 := by
  obtain ⟨hjoin, hcopy, hrecut⟩ := captures_are_what_one_read_gives
    (Call.ofNested 1).source .monitored 100 (by decide)
  have ht : Reached firstChannel ⟨firstShared, [firstChannel], []⟩ :=
    ⟨{}, {}, firstShared, [], buildChannel_first, .nil⟩
  have hcaptured (size : UInt16) {o : CopyOutcome}
      (hvalid : (Call.ofNested size).settings.validate = .ok ())
      (hwanted : (Call.ofNested size).wanted = 3)
      (hgranted : (Call.ofNested size).activity.Granted firstShared)
      (hrun : ((Call.ofNested size).activity.run firstShared).1 = .ok o) :
      ∃ bytes, (Call.ofNested size).Captured o bytes := by
    have hs : (Call.ofNested size).source.Seamless 100 (Call.ofNested size).wanted := by
      rw [hwanted]
      exact (by decide : (Call.ofNested 1).source.Seamless 100 3)
    have hranged : (Call.ofNested size).source.Ranged .monitored 100 (Call.ofNested size).wanted :=
      ranged_of_le (by rw [hwanted]; decide)
    obtain ⟨o', s, records, views, hrun', -, -, h⟩ := (hcopy firstChannel _ _ _ _ ht
      List.mem_cons_self hgranted (Call.not_invalid hvalid nofun nofun) hs hranged).2 []
      (Shared.buildChannel_queued buildChannel_first)
    obtain rfl : o' = o := Except.ok.inj ((congrArg Prod.fst hrun').symm.trans hrun)
    exact ⟨_, h⟩
  obtain ⟨bytes, h⟩ := hcaptured 1 (o := ⟨.compose 7 1, 3, 3, .success, none⟩) rfl rfl
    (by decide +kernel) (by decide +kernel)
  obtain ⟨bytes', h'⟩ := hcaptured 2 (o := ⟨.compose 7 1, 3, 2, .success, none⟩) rfl rfl
    (by decide +kernel) (by decide +kernel)
  obtain rfl := (hrecut _ _ _ _ _ _ _ bytes bytes' h h').2 rfl rfl
  refine ⟨?_, _, _, bytes', h, h', rfl, rfl⟩
  exact (hjoin 2 1 (by decide) (by decide) _).mpr ⟨[1, 2], [3], rfl, rfl, rfl⟩

/-- A read that goes on beyond that start is not the same as a read that begins there. -/
example : (Call.ofNested 1).source.readBytes 100 5 .monitored = .ok [1, 2, 3, 4, 5] ∧
    (Call.ofNested 1).source.readBytes 103 2 .monitored = .error (.wrongDomain 103) := ⟨rfl, rfl⟩

end ChainRelay.Copy
