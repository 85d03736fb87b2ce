import ChainRelay.Proofs.Capture.Plan
import ChainRelay.Proofs.Copy.Conduct

/-!
What the capture of a task does whatever the others do in between: copies to the writer's channel in
the classes of its settings, and counts of what was lost. Whatever is refused or cannot be read, the
record that comes of it can be encoded and decoded.
-/

namespace ChainRelay

open ChainRelay.Ring Activity

/-- A record fits every channel that was built. -/
theorem Signal.encodedSize_le_longest (signal : Signal) {b : Band}
    (hb : minCapacity ≤ b.capacity) :
    signal.encodedSize ≠ 0 ∧ signal.encodedSize ≤ b.longest := by
  simp only [minCapacity] at hb
  cases signal <;>
    simp only [encodedSize, kind, SignalKind.bodySize, signalHeaderSize, Task.wireSize,
      Band.longest, recordHeaderSize, maxWordLength, discardMark] <;> omega

def Writer.Does (w : Writer) (settings : CopySettings) : Op → Prop
  | .openChunk v c => v = w ∧ (c = settings.stringClass ∨ ∃ len, c = settings.classFor len)
  | .fillChunk c _ | .commitChunk c | .abandonChunk c => c.reservation.channel = w.channel
  | .count tally c => tally = w.tally ∧
      (c = .copiesFailed ∨ c = .copiesTruncated ∨ c = .fieldsUnavailable)
  | .report _ => True
  | .reserve .. | .commitRecord .. => False

namespace Writer

variable (w : Writer) (settings : CopySettings)

theorem does_of_call {call : Copy.Call} (hw : call.writer = w) (hs : call.settings = settings)
    (op : Op) (h : call.request.Does op) : w.Does settings op := by
  subst hw hs
  cases op with
  | openChunk v c =>
    obtain ⟨hv, rfl⟩ := h
    obtain ⟨writer, source, addr, domain, settings, extent⟩ := call
    cases extent with
    | bytes len => exact ⟨hv, .inr ⟨len, rfl⟩⟩
    | untilTerminator => exact ⟨hv, .inl rfl⟩
  | fillChunk | commitChunk | abandonChunk => exact h
  | count tally c =>
    obtain ⟨ht, hc | hc⟩ := h
    · exact ⟨ht, .inl hc⟩
    · exact ⟨ht, .inr (.inl hc)⟩
  | report => trivial
  | reserve | commitRecord => exact h

theorem always_call {α : Type} {post : α → Prop} (call : Copy.Call) (hw : call.writer = w)
    (hs : call.settings = settings) {f : CopyOutcome → Activity α}
    (hf : ∀ o, (f o).Always (w.Does settings) post) :
    (call.activity >>= f).Always (w.Does settings) post := by
  have hcall : call.activity.Always (w.Does settings) fun _ => True :=
    call.always.mono (w.does_of_call settings hw hs) fun _ _ => trivial
  exact hcall.bind fun o _ => hf o

variable (source : AddressSpace) (addr : Nat) (domain : TrustDomain)

theorem always_readField :
    (w.readField source addr domain settings).Always (w.Does settings) Field.WellFormed := by
  unfold readField
  split
  · trivial
  · cases source.readString addr inlineCapacity domain with
    | error fault => exact always_perform trivial fun _ => trivial
    | ok read =>
      dsimp only
      split
      · show Field.WellFormed _
        cases InlineString.ofBytes? read.bytes <;> trivial
      · exact w.always_call settings ⟨w, source, addr, domain, settings, .untilTerminator⟩ rfl rfl
          fun o => wellFormed_fieldOfCopy o

theorem always_encodeField :
    (w.encodeField source addr domain settings).Always (w.Does settings) Field.WellFormed := by
  apply (w.always_readField settings source addr domain).bind
  intro f hf
  split
  · exact always_perform ⟨rfl, .inr (.inr rfl)⟩ fun _ => hf
  · exact hf

end Writer

namespace Invocation

variable (i : Invocation) (source : TaskSnapshot) (task : UInt64)

theorem always_copyBlock (start stop : UInt64) :
    (i.copyBlock source.memory start stop).Always (i.writer.Does i.settings) fun _ => True := by
  rw [copyBlock_eq]
  split
  · trivial
  · exact i.writer.always_call i.settings (i.blockCall source.memory start stop) rfl rfl
      fun _ => trivial

theorem always_captureNames :
    (i.captureNames source task).Always (i.writer.Does i.settings) fun names =>
      names.1.WellFormed ∧ names.2.WellFormed := by
  apply (i.writer.always_encodeField i.settings ..).bind
  intro filename hfilename
  have hinterpreter : (i.captureInterpreter source task).Always (i.writer.Does i.settings)
      Field.WellFormed := by
    unfold captureInterpreter
    split
    · trivial
    · exact i.writer.always_encodeField i.settings ..
  exact hinterpreter.bind fun interpreter h => ⟨hfilename, h⟩

theorem always_captureBlocks :
    (i.captureBlocks source task).Always (i.writer.Does i.settings) fun _ => True :=
  (i.always_copyBlock source _ _).bind fun _ _ =>
    (i.always_copyBlock source _ _).bind fun _ _ => trivial

/-- Whatever was refused or could not be read, a captured task can be encoded and decoded. -/
theorem always_capture :
    (i.capture source task).Always (i.writer.Does i.settings) Task.WellFormed := by
  rw [capture_eq]
  apply (i.always_captureNames source task).bind
  rintro names ⟨hfilename, hinterpreter⟩
  apply (i.always_captureBlocks source task).bind
  exact fun blocks _ => ⟨hfilename, hinterpreter⟩

end Invocation
end ChainRelay
