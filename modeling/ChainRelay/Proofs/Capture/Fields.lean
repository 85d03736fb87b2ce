import ChainRelay.Proofs.Capture.Parts
import ChainRelay.Proofs.Channel.Refill
import ChainRelay.Proofs.Copy.Recital

/-!
What a field says of the string it was made for, whatever the channel had room for. The string is
read twice, once into the record and once into chunks of another size; both reads agree on where it
ends. It stands in the record exactly if it is short, is left out exactly if a byte that the first
read needs is missing or the copy fails, and is in a chain otherwise
(`encodeField_tells_its_string`).
-/

namespace ChainRelay

open ChainRelay.Ring

namespace AddressSpace

variable {s : AddressSpace} {domain : TrustDomain} {addr n : Nat}

theorem Flat.spells_not_faults (hf : s.Flat) {text : Bytes} (h : s.Spells domain addr text) :
    ¬s.Faults domain addr n := by
  rintro ⟨i, -, hruns, hu⟩
  exact hf.not_unreadable h hruns hu

/-- What is there lies below the end of the address space. -/
theorem Flat.runs_lt (hf : s.Flat) (ha : addr ≠ 0) (h : s.Runs domain addr n) :
    n < addressLimit := by
  cases n with
  | zero => decide
  | succ n =>
    obtain ⟨b, -, hb⟩ := h n (Nat.lt_succ_self n)
    apply Nat.lt_of_not_le
    intro hle
    exact hf.unreadable domain (by omega) b hb

end AddressSpace

namespace Writer

def stringCall (w : Writer) (source : AddressSpace) (addr : Nat) (domain : TrustDomain)
    (settings : CopySettings) : Copy.Call :=
  ⟨w, source, addr, domain, settings, .untilTerminator⟩

section Strings

variable (w : Writer) (source : AddressSpace) (addr : Nat) (domain : TrustDomain)
  (settings : CopySettings)

inductive Reads (s : Shared) : Field → Shared → Prop where
  | null (h : addr = 0) : Reads s .unavailable s
  | short (text : InlineString) (ha : addr ≠ 0) (h : source.Spells domain addr text.bytes) :
      Reads s (.inline text) s
  | faulty (fault : SourceFault) (h : source.Faults domain addr inlineCapacity) :
      Reads s .unavailable (s.report (.fieldUnreadable w.shard fault))
  | long (ha : addr ≠ 0) (h : source.Runs domain addr inlineCapacity) {o : CopyOutcome}
      {s' : Shared}
      (hcopy : (w.stringCall source addr domain settings).activity.run s = (.ok o, s')) :
      Reads s (fieldOfCopy o) s'

variable {source}

/-- The first read decides how the field comes about. Only a copy may have no outcome. -/
theorem run_readField (hf : source.Flat) (s : Shared) :
    match (w.readField source addr domain settings).run s with
    | (.ok f, s') => w.Reads source addr domain settings s f s'
    | (.error e, s') => addr ≠ 0 ∧ source.Runs domain addr inlineCapacity ∧
        (w.stringCall source addr domain settings).activity.run s = (.error e, s') := by
  unfold readField
  by_cases ha : addr = 0
  · rw [if_pos ha]
    exact .null ha
  rw [if_neg ha]
  have hread := source.readString_spec addr inlineCapacity domain ha
  cases he : source.readString addr inlineCapacity domain with
  | error fault =>
    rw [he] at hread
    exact .faulty fault (hread hf)
  | ok read =>
    rw [he] at hread
    obtain ⟨hholds, htext, hends⟩ := hread
    dsimp only
    by_cases hterm : read.terminated = true
    · rw [if_pos hterm] at hends ⊢
      have hinline : InlineString.ofBytes? read.bytes = some ⟨read.bytes, hends.1⟩ :=
        InlineString.ofBytes?_eq_some_iff.mpr rfl
      rw [hinline]
      exact .short _ ha (.of_ends hholds htext hends.2)
    · rw [if_neg hterm] at hends ⊢
      have hruns : source.Runs domain addr inlineCapacity := hends ▸ .of_holds hholds htext
      rw [Activity.run_bind]
      rcases hcopy : (w.copyString source addr domain settings).run s with ⟨e | o, s'⟩
      · exact ⟨ha, hruns, hcopy⟩
      · exact .long ha hruns hcopy

variable (source)

def CopyFails (s : Shared) : Prop :=
  source.Runs domain addr inlineCapacity ∧
    ∃ o s', (w.stringCall source addr domain settings).activity.run s = (.ok o, s') ∧
      o.status = .failed

/-- The chain that a field names. Its records were appended to a queue; the field says how many
bytes of the string they hold, and whether the terminator comes behind them. -/
structure Chained (c : Channel) (q : List Booking) (head : ChunkId) (len : UInt64)
    (truncated : Bool) (s' : Shared) : Prop where
  named : head ≠ .none
  chain : ∃ records views, c.Queued s' (q ++ records) ∧ List.Forall₂ Copy.Carries records views ∧
    (w.stringCall source addr domain settings).Chain views ∧
    views.head?.map (·.header.id) = some head ∧ (views.flatMap (·.data)).length = len.toNat
  letters : source.Runs domain addr len.toNat
  truncated_iff : truncated = false ↔ source.Shows domain (addr + len.toNat) 0

/-- What a field says of the string at an address, and what was done for it to a channel that held
`q` and to the counters. -/
structure Encodes (c : Channel) (q : List Booking) (s : Shared) (f : Field) (s' : Shared) :
    Prop where
  inline_iff : ∀ text, f = .inline text ↔ addr ≠ 0 ∧ source.Spells domain addr text.bytes
  inline_eq : ∀ text, f = .inline text → s' = s
  unavailable_iff : f = .unavailable ↔ addr = 0 ∨ source.Faults domain addr inlineCapacity ∨
    w.CopyFails source addr domain settings s
  unavailable_counted : ∀ n, (s'.tallies.get n).get .fieldsUnavailable =
    (s.tallies.get n).get .fieldsUnavailable + if n = w.tally ∧ f = .unavailable then 1 else 0
  overflow : ∀ head len truncated, f = .overflow head len truncated →
    w.Chained source addr domain settings c q head len truncated s'

end Strings

theorem fieldOfCopy_ne_inline (o : CopyOutcome) (text : InlineString) :
    fieldOfCopy o ≠ .inline text := by
  unfold fieldOfCopy
  split <;> nofun

theorem fieldOfCopy_eq_unavailable_iff (o : CopyOutcome) :
    fieldOfCopy o = .unavailable ↔ o.status = .failed ∨ o.head = .none := by
  unfold fieldOfCopy
  simp only [ChunkId.isNone_iff, ite_eq_left_iff, reduceCtorEq, imp_false, not_not]

section Encoding

variable {w : Writer} {source : AddressSpace} {addr : Nat} {domain : TrustDomain}
  {settings : CopySettings} {c : Channel} {q : List Booking} {s s' : Shared} {f : Field}

theorem Reads.inline_iff (h : w.Reads source addr domain settings s f s') (hf : source.Flat)
    (text : InlineString) :
    f = .inline text ↔ addr ≠ 0 ∧ source.Spells domain addr text.bytes := by
  cases h with
  | null ha =>
    constructor
    · nofun
    · exact fun h => absurd ha h.1
  | short own ha hown =>
    constructor
    · rintro ⟨⟩
      exact ⟨ha, hown⟩
    · intro h
      have hbytes := hf.spells_eq hown h.2
      cases own
      cases text
      cases hbytes
      rfl
  | faulty fault hfaults =>
    constructor
    · nofun
    · exact fun h => absurd hfaults (hf.spells_not_faults h.2)
  | @long ha hruns o s' hcopy =>
    constructor
    · exact fun he => absurd he (fieldOfCopy_ne_inline o text)
    · intro h
      have hle := hf.runs_le hruns h.2.ends
      exact absurd text.fits (Nat.not_lt.mpr hle)

/-- A string that is read into the record leaves everything else as it was. -/
theorem Reads.inline_eq (h : w.Reads source addr domain settings s f s') {text : InlineString}
    (he : f = .inline text) : s' = s := by
  cases h with
  | short => rfl
  | null | faulty => cases he
  | long => exact absurd he (fieldOfCopy_ne_inline _ text)

section Copies

variable {o : CopyOutcome} (hf : source.Flat) (hruns : source.Runs domain addr inlineCapacity)
  (htells : (w.stringCall source addr domain settings).Tells o)
  (happends : (w.stringCall source addr domain settings).Appends c q s o s')
include hf hruns htells happends

/-- A copy that does not fail has a chain, and names it. -/
theorem copied_named (hs : o.status ≠ .failed) : o.head ≠ .none := by
  obtain ⟨records, views, -, -, -, hreports, hnamed⟩ := happends.chain
  have hne := htells.views_ne_nil hf hreports (hruns.mono (by decide)) hs
  rw [hreports.head_eq, if_neg hs]
  cases views with
  | nil => exact absurd rfl hne
  | cons v views => exact hnamed v List.mem_cons_self

/-- What fails is what has no head. -/
theorem copied_unavailable_iff : fieldOfCopy o = .unavailable ↔ o.status = .failed := by
  rw [fieldOfCopy_eq_unavailable_iff, or_iff_left_iff_imp]
  intro hnone
  by_contra hs
  exact copied_named hf hruns htells happends hs hnone

theorem copied_chained (ha : addr ≠ 0) {head : ChunkId} {len : UInt64} {truncated : Bool}
    (he : fieldOfCopy o = .overflow head len truncated) :
    w.Chained source addr domain settings c q head len truncated s' := by
  have hs : o.status ≠ .failed := by
    intro hs
    rw [(fieldOfCopy_eq_unavailable_iff o).mpr (.inl hs)] at he
    cases he
  have hnamed := copied_named hf hruns htells happends hs
  have hlen : (UInt64.ofNat o.copied).toNat = o.copied :=
    UInt64.toNat_ofNat_of_lt' (hf.runs_lt ha htells.runs)
  unfold fieldOfCopy at he
  rw [if_neg (by simp [ChunkId.isNone_iff, hs, hnamed])] at he
  cases he
  obtain ⟨records, views, hq, hrecords, hchain, hreports, -⟩ := happends.chain
  constructor
  case named => exact hnamed
  case chain =>
    refine ⟨records, views, hq, hrecords, hchain, ?_, ?_⟩
    · have hhead := hreports.head_eq
      rw [if_neg hs] at hhead
      cases views with
      | nil => exact absurd hhead hnamed
      | cons v views => exact congrArg some hhead.symm
    · rw [hlen, hreports.copied_eq]
  case letters =>
    rw [hlen]
    exact htells.runs
  case truncated_iff =>
    rw [hlen, decide_eq_false_iff_not]
    exact htells.whole_iff hf hs

end Copies

section Settled

variable (h : w.Reads source addr domain settings s f s')
  (hcopy : ∀ o s', addr ≠ 0 →
    (w.stringCall source addr domain settings).activity.run s = (.ok o, s') →
      (w.stringCall source addr domain settings).Tells o ∧
        (w.stringCall source addr domain settings).Appends c q s o s')
include h hcopy

theorem Reads.unavailable_iff (hf : source.Flat) :
    f = .unavailable ↔ addr = 0 ∨ source.Faults domain addr inlineCapacity ∨
      w.CopyFails source addr domain settings s := by
  cases h with
  | null ha => exact ⟨fun _ => .inl ha, fun _ => rfl⟩
  | short text ha htext =>
    constructor
    · nofun
    · rintro (hz | hfaults | ⟨hruns, -⟩)
      · exact absurd hz ha
      · exact absurd hfaults (hf.spells_not_faults htext)
      · exact absurd text.fits (Nat.not_lt.mpr (hf.runs_le hruns htext.ends))
  | faulty fault hfaults => exact ⟨fun _ => .inr (.inl hfaults), fun _ => rfl⟩
  | @long ha hruns o s' hrun =>
    obtain ⟨htells, happends⟩ := hcopy o s' ha hrun
    rw [copied_unavailable_iff hf hruns htells happends]
    constructor
    · exact fun hs => .inr (.inr ⟨hruns, o, s', hrun, hs⟩)
    · rintro (hz | hfaults | ⟨-, o', s'', hrun', hs⟩)
      · exact absurd hz ha
      · exact absurd hfaults hruns.not_faults
      · cases hrun.symm.trans hrun'
        exact hs

theorem Reads.uncounted (n : Nat) : (s'.tallies.get n).get .fieldsUnavailable =
    (s.tallies.get n).get .fieldsUnavailable := by
  cases h with
  | null | short | faulty => rfl
  | @long ha hruns o s' hrun => exact (hcopy o s' ha hrun).2.counters n

theorem Reads.chained (hf : source.Flat) {head : ChunkId} {len : UInt64} {truncated : Bool}
    (he : f = .overflow head len truncated) :
    w.Chained source addr domain settings c q head len truncated s' := by
  cases h with
  | null | short | faulty => cases he
  | @long ha hruns o s' hrun =>
    obtain ⟨htells, happends⟩ := hcopy o s' ha hrun
    exact copied_chained hf hruns htells happends ha he

end Settled

end Encoding

/-- For every string of a flat memory: the field holds the string exactly if it is short, and then
nothing else is touched; it is unavailable exactly if there is no string, a byte that the first read
needs is missing, or the copy fails, and then and only then that is counted; otherwise it names a
chain that begins with the string's first byte. There is no result only if a chunk of the copy would
take the channel's cursor out of its range. -/
theorem encodeField_tells_its_string {w : Writer} {source : AddressSpace} {settings : CopySettings}
    {c : Channel} {t : Traffic} (ht : Traffic.Reached c t) (hv : w.channel ∈ t.views)
    (hf : source.Flat) (hs : settings.validate = .ok ()) (addr : Nat) (domain : TrustDomain) :
    (∃ q, c.Queued t.shared q) ∧ ∀ q, c.Queued t.shared q →
      match (w.encodeField source addr domain settings).run t.shared with
      | (.ok f, s) => w.Encodes source addr domain settings c q t.shared f s
      | (.error _, s) => addr ≠ 0 ∧ source.Runs domain addr inlineCapacity ∧
          c.Exhausted s settings.stringClass.totalSize := by
  refine ⟨ht.queued.1, fun q hq => ?_⟩
  have hrecites (ha : addr ≠ 0) := (w.stringCall source addr domain settings).recites ht rfl hv hf
    hs ha hq
  have hread := run_readField w addr domain settings hf t.shared
  unfold encodeField
  rw [Activity.run_bind]
  rcases hrun : (w.readField source addr domain settings).run t.shared with ⟨e | f, s⟩
  · rw [hrun] at hread
    obtain ⟨ha, hruns, hcopy⟩ := hread
    have hend := hrecites ha
    rw [hcopy] at hend
    exact ⟨ha, hruns, hend⟩
  · rw [hrun] at hread
    have hreads : w.Reads source addr domain settings t.shared f s := hread
    have hcopy (o : CopyOutcome) (s' : Shared) (ha : addr ≠ 0)
        (hcopy : (w.stringCall source addr domain settings).activity.run t.shared = (.ok o, s')) :
        (w.stringCall source addr domain settings).Tells o ∧
          (w.stringCall source addr domain settings).Appends c q t.shared o s' := by
      have hend := hrecites ha
      rwa [hcopy] at hend
    dsimp only
    by_cases hnone : f = .unavailable
    · rw [if_pos hnone]
      constructor
      case inline_iff => exact hreads.inline_iff hf
      case inline_eq => exact fun text he => nomatch hnone.symm.trans he
      case unavailable_iff => exact hreads.unavailable_iff hcopy hf
      case unavailable_counted =>
        intro n
        refine (Shared.get_count s w.tally n .fieldsUnavailable .fieldsUnavailable).trans ?_
        simp only [hreads.uncounted hcopy n, hnone, and_true, eq_comm (a := w.tally)]
      case overflow => exact fun head len truncated he => nomatch hnone.symm.trans he
    · rw [if_neg hnone]
      constructor
      case inline_iff => exact hreads.inline_iff hf
      case inline_eq => exact fun text he => hreads.inline_eq he
      case unavailable_iff => exact hreads.unavailable_iff hcopy hf
      case unavailable_counted =>
        intro n
        rw [if_neg (fun h => hnone h.2), Nat.add_zero]
        exact hreads.uncounted hcopy n
      case overflow => exact fun head len truncated he => hreads.chained hcopy hf he

end Writer

def AddressSpace.longName : AddressSpace := ⟨[⟨100, List.replicate 130 97 ++ [0], .monitored⟩]⟩

theorem AddressSpace.longName_flat : longName.Flat := by
  refine ⟨?_, ?_⟩ <;> simp [longName, addressLimit]

namespace Writer

open Traffic

def ofFirst : Writer := ⟨firstChannel, 0, 7, 0⟩

theorem encodeField_tells_its_string_of_long_name : ∃ s records views,
    (ofFirst.encodeField .longName 100 .monitored {}).run firstShared =
      (.ok (.overflow (.compose 7 1) 130 false), s) ∧
    firstChannel.Queued s records ∧ List.Forall₂ Copy.Carries records views ∧
    (ofFirst.stringCall .longName 100 .monitored {}).Chain views ∧
    (views.flatMap (·.data)).length = 130 ∧
    AddressSpace.longName.Shows .monitored 230 0 := by
  have ht : Reached firstChannel ⟨firstShared, [firstChannel], []⟩ :=
    ⟨{}, {}, firstShared, [], buildChannel_first, .nil⟩
  have hv : ofFirst.channel ∈ [firstChannel] := List.mem_cons_self
  have hs : ({} : CopySettings).validate = .ok () := rfl
  have hanswer : ((ofFirst.encodeField .longName 100 .monitored {}).run firstShared).1 =
      .ok (.overflow (.compose 7 1) 130 false) := by decide +kernel
  obtain ⟨-, htells⟩ := encodeField_tells_its_string ht hv AddressSpace.longName_flat hs 100
    .monitored
  rcases hrun : (ofFirst.encodeField .longName 100 .monitored {}).run firstShared with ⟨answer, s⟩
  rw [hrun] at hanswer
  subst hanswer
  simp only [hrun] at htells
  have hchained := (htells [] (Shared.buildChannel_queued buildChannel_first)).overflow _ _ _ rfl
  obtain ⟨records, views, hq, hrecords, hchain, -, hlen⟩ := hchained.chain
  exact ⟨s, records, views, rfl, hq, hrecords, hchain, hlen, hchained.truncated_iff.mp rfl⟩

/-- The same name on a channel whose cursor has come to the end of its range. -/
theorem encodeField_has_no_result : ∃ t, Reached firstChannel t ∧ ofFirst.channel ∈ t.views ∧
    AddressSpace.longName.Flat ∧ ({} : CopySettings).validate = .ok () ∧
    AddressSpace.longName.Spells .monitored 100 (List.replicate 130 97) ∧
    ((ofFirst.encodeField .longName 100 .monitored {}).run t.shared).1 = .error .overflow := by
  have hbuilt : Reached firstChannel ⟨firstShared, [firstChannel], []⟩ :=
    ⟨{}, {}, firstShared, [], buildChannel_first, .nil⟩
  have hlarge : SizeClass.large.totalSize ≤ firstChannel.band.longest := by
    rw [firstChannel_longest]
    decide
  obtain ⟨t, ht, hv, -, -, hover⟩ := hbuilt.runs_out List.mem_cons_self nofun
    (by decide : 1 ≤ SizeClass.large.totalSize) hlarge
  have hasks : ¬(ofFirst.stringCall .longName 100 .monitored {}).request.Invalid .untilTerminator
      16 := by
    rintro (h | h | h | h) <;> cases h
  have hroom : firstChannel.Admits SizeClass.large.totalSize .overflow 0 t.shared := hover
  have hreturns : (ofFirst.stringCall .longName 100 .monitored {}).Returns firstChannel .overflow
    t.shared _ _ := Copy.Call.returns ht hv AddressSpace.longName_flat hasks hroom
  have hcopy : ((ofFirst.copyString .longName 100 .monitored {}).run t.shared).1 =
    .error .overflow := hreturns.overflow ⟨rfl, by decide +kernel⟩
  have hfirst : AddressSpace.longName.readString 100 inlineCapacity .monitored =
    .ok ⟨List.replicate 128 97, false⟩ := by decide +kernel
  refine ⟨t, ht, hv, AddressSpace.longName_flat, rfl, ?_, ?_⟩
  · exact ⟨fun b hb => by rw [List.eq_of_mem_replicate hb]; decide,
      AddressSpace.holds_region List.mem_cons_self⟩
  · unfold encodeField readField
    rw [if_neg (by decide), hfirst]
    dsimp only
    rw [if_neg (by decide), Activity.run_bind, Activity.run_bind]
    rcases hrun : (ofFirst.copyString .longName 100 .monitored {}).run t.shared with ⟨answer, s⟩
    rw [hrun] at hcopy
    subst hcopy
    rfl

end Writer
end ChainRelay
