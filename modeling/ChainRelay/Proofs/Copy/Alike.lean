import ChainRelay.Copy.Chain
import ChainRelay.Proofs.Source.Domains

/-!
Activities that do the same but for the bytes they put into chunks. Copies of equally many bytes
from two memories with the same regions are such activities, whatever the bytes are. Where the two
hold the same bytes the copies are one activity.
-/

namespace ChainRelay

namespace Activity

variable {α β : Type}

/-- The same operations after the same replies, except that chunks are filled with other bytes, as
many as there. -/
inductive Alike : Activity α → Activity α → Prop where
  | done (a : α) : Alike (.done a) (.done a)
  | abort : Alike .abort .abort
  | step (op : Op) {next next' : op.Reply → Activity α}
      (h : ∀ reply, Alike (next reply) (next' reply)) : Alike (.step op next) (.step op next')
  | fill {chunk : OpenChunk} {data data' : Bytes} (hlen : data'.length = data.length)
      {next next' : Unit → Activity α} (h : Alike (next ()) (next' ())) :
      Alike (.step (.fillChunk chunk data) next) (.step (.fillChunk chunk data') next')

theorem Alike.refl (a : Activity α) : a.Alike a := by
  induction a with
  | done a => exact .done a
  | abort => exact .abort
  | step op next ih => exact .step op ih

theorem Alike.bind {a a' : Activity α} {f f' : α → Activity β} (h : a.Alike a')
    (hf : ∀ x, (f x).Alike (f' x)) : (a >>= f).Alike (a' >>= f') := by
  show (Activity.bind a f).Alike (Activity.bind a' f')
  induction h with
  | done x => exact hf x
  | abort => exact .abort
  | step op _ ih => exact .step op ih
  | fill hlen _ ih => exact .fill hlen ih

theorem Alike.perform (op : Op) {f f' : op.Reply → Activity β} (hf : ∀ x, (f x).Alike (f' x)) :
    (Activity.perform op >>= f).Alike (Activity.perform op >>= f') := (refl _).bind hf

theorem Alike.performFill (chunk : OpenChunk) {data data' : Bytes}
    (hlen : data'.length = data.length) {f f' : Unit → Activity β} (hf : ∀ x, (f x).Alike (f' x)) :
    (Activity.perform (.fillChunk chunk data) >>= f).Alike
      (Activity.perform (.fillChunk chunk data') >>= f') := .fill hlen (hf ())

end Activity

namespace Copy

open AddressSpace

/-- A chunk that is filled with as many bytes has the same header. -/
theorem filled_eq (chunk : OpenChunk) {data data' : Bytes} (hlen : data'.length = data.length) :
    chunk.filled data' = chunk.filled data := by
  simp only [OpenChunk.filled, OpenChunk.stored, List.length_take, hlen]

structure Segment.Matched (seg seg' : Segment) : Prop where
  length_eq : seg'.data.length = seg.data.length
  rest_eq : seg'.rest = seg.rest
  last_eq : seg'.last = seg.last
  exact_rest : seg.rest.isExact = true

theorem Segment.Matched.isEmpty_eq {seg seg' : Segment} (h : seg.Matched seg') :
    seg'.data.isEmpty = seg.data.isEmpty := by
  rw [Bool.eq_iff_iff, List.isEmpty_iff_length_eq_zero, List.isEmpty_iff_length_eq_zero,
    h.length_eq]

inductive ReadsMatched : Except SourceFault Segment → Except SourceFault Segment → Prop where
  | fault (e : SourceFault) : ReadsMatched (.error e) (.error e)
  | segment {seg seg' : Segment} (h : seg.Matched seg') : ReadsMatched (.ok seg) (.ok seg')

variable {domain : TrustDomain} {s s' : AddressSpace} (h : s.SameBut domain s')
include h

theorem Extent.read_matched (remaining addr room : Nat) (other : TrustDomain) :
    ReadsMatched ((bytes remaining).read s addr room other)
      ((bytes remaining).read s' addr room other) := by
  have hread := h.readBytes_matched addr (min remaining room) other
  simp only [read]
  generalize s.readBytes addr (min remaining room) other = x at hread ⊢
  generalize s'.readBytes addr (min remaining room) other = x' at hread ⊢
  cases hread with
  | fault e => exact .fault e
  | bytes hlen => exact .segment ⟨hlen, rfl, rfl, rfl⟩

theorem Request.readAfter_matched (w : Writer) (addr : Nat) (other : TrustDomain) (size : SizeClass)
    (copied remaining : Nat) : ReadsMatched
      (Request.readAfter ⟨w, s, addr, other, size⟩ copied (.bytes remaining))
      (Request.readAfter ⟨w, s', addr, other, size⟩ copied (.bytes remaining)) := by
  unfold readAfter
  dsimp only
  split
  · exact .fault _
  · exact Extent.read_matched h ..

theorem Request.proceed_alike (w : Writer) (addr : Nat) (other : TrustDomain) (size : SizeClass)
    (more : Nat) (p : Progress) (hp : p.rest.isExact = true) :
    (proceed ⟨w, s, addr, other, size⟩ more p).Alike
      (proceed ⟨w, s', addr, other, size⟩ more p) := by
  induction more generalizing p with
  | zero =>
    simp only [proceed, hp]
    exact .refl _
  | succ more ih =>
    obtain ⟨remaining, hrest⟩ : ∃ n, p.rest = .bytes n := by
      cases hr : p.rest with
      | bytes n => exact ⟨n, rfl⟩
      | untilTerminator =>
        rw [hr] at hp
        cases hp
    unfold proceed
    split
    · exact .refl _
    rw [if_neg (by simp), if_neg (by simp), hrest]
    have hread := readAfter_matched h w addr other size p.copied remaining
    generalize readAfter ⟨w, s, addr, other, size⟩ p.copied _ = x at hread ⊢
    generalize readAfter ⟨w, s', addr, other, size⟩ p.copied _ = x' at hread ⊢
    cases hread with
    | fault e => exact .perform _ fun _ => .refl _
    | @segment seg seg' hseg =>
      simp only [hseg.isEmpty_eq, hseg.length_eq, hseg.rest_eq, hseg.last_eq,
        filled_eq _ hseg.length_eq]
      split
      · exact .refl _
      apply Activity.Alike.perform
      intro reply
      match reply with
      | .error .overflow => exact .refl _
      | .error (.full requested available) => exact .refl _
      | .error (.invalidSize asked max) => exact .refl _
      | .ok next =>
        apply Activity.Alike.performFill next hseg.length_eq
        intro _
        apply Activity.Alike.perform
        intro _
        exact ih _ hseg.exact_rest

theorem Request.start_alike (w : Writer) (addr : Nat) (other : TrustDomain) (size : SizeClass)
    (remaining maxChunks : Nat) :
    (start ⟨w, s, addr, other, size⟩ (.bytes remaining) maxChunks).Alike
      (start ⟨w, s', addr, other, size⟩ (.bytes remaining) maxChunks) := by
  unfold start
  dsimp only
  split
  · exact .refl _
  have hread := Extent.read_matched h remaining addr size.payloadCapacity other
  unfold room
  dsimp only
  generalize (Extent.bytes remaining).read s addr _ other = x at hread ⊢
  generalize (Extent.bytes remaining).read s' addr _ other = x' at hread ⊢
  cases hread with
  | fault e => exact .refl _
  | @segment seg seg' hseg =>
    simp only [hseg.isEmpty_eq, hseg.length_eq, hseg.rest_eq, hseg.last_eq,
      filled_eq _ hseg.length_eq]
    split
    · exact .refl _
    apply Activity.Alike.perform
    intro reply
    match reply with
    | .error .overflow => exact .refl _
    | .error (.full requested available) => exact .refl _
    | .error (.invalidSize asked max) => exact .refl _
    | .ok chunk =>
      apply Activity.Alike.performFill chunk hseg.length_eq
      intro _
      exact proceed_alike h w addr other size _ _ hseg.exact_rest

variable {other : TrustDomain} (ho : other ≠ domain)
include ho

theorem Extent.read_eq (e : Extent) (addr room : Nat) :
    e.read s' addr room other = e.read s addr room other := by
  cases e with
  | bytes remaining => simp only [read, h.readBytes_eq ho]
  | untilTerminator => simp only [read, h.readString_eq ho]

theorem Request.readAfter_eq (w : Writer) (addr : Nat) (size : SizeClass) (copied : Nat)
    (rest : Extent) : readAfter ⟨w, s', addr, other, size⟩ copied rest =
      readAfter ⟨w, s, addr, other, size⟩ copied rest := by
  simp only [readAfter, room, Extent.read_eq h ho]

theorem Request.proceed_eq (w : Writer) (addr : Nat) (size : SizeClass) (more : Nat)
    (p : Progress) : proceed ⟨w, s', addr, other, size⟩ more p =
      proceed ⟨w, s, addr, other, size⟩ more p := by
  induction more generalizing p with
  | zero =>
    unfold proceed
    rw [readAfter_eq h ho]
    rfl
  | succ more ih =>
    unfold proceed
    rw [readAfter_eq h ho]
    split
    · rfl
    split
    · rfl
    split
    · rfl
    rename_i seg _
    split
    · rfl
    apply congrArg (Activity.perform (.openChunk w size) >>= ·)
    funext reply
    match reply with
    | .error .overflow => rfl
    | .error (.full requested available) => rfl
    | .error (.invalidSize asked max) => rfl
    | .ok next =>
      dsimp only
      rw [ih]

theorem Request.start_eq (w : Writer) (addr : Nat) (size : SizeClass) (e : Extent)
    (maxChunks : Nat) : start ⟨w, s', addr, other, size⟩ e maxChunks =
      start ⟨w, s, addr, other, size⟩ e maxChunks := by
  unfold start room
  dsimp only
  rw [Extent.read_eq h ho]
  split
  · rfl
  split
  · rfl
  split
  · rfl
  apply congrArg (Activity.perform (.openChunk w size) >>= ·)
  funext reply
  match reply with
  | .error .overflow => rfl
  | .error (.full requested available) => rfl
  | .error (.invalidSize asked max) => rfl
  | .ok chunk =>
    dsimp only
    simp only [proceed_eq h ho]

end Copy

namespace Writer

variable {domain other : TrustDomain} {s s' : AddressSpace} (h : s.SameBut domain s')
include h

/-- Whatever the bytes of a range are, they do not show in what a copy does. -/
theorem copyBytes_alike (w : Writer) (addr len : Nat) (other : TrustDomain)
    (settings : CopySettings) :
    (w.copyBytes s addr len other settings).Alike (w.copyBytes s' addr len other settings) := by
  unfold copyBytes
  split
  · exact .refl _
  · exact Copy.Request.start_alike h w addr other _ len _

variable (ho : other ≠ domain)
include ho

theorem copyBytes_eq (w : Writer) (addr len : Nat) (settings : CopySettings) :
    w.copyBytes s' addr len other settings = w.copyBytes s addr len other settings := by
  simp only [copyBytes, Copy.Request.start_eq h ho]

theorem copyString_eq (w : Writer) (addr : Nat) (settings : CopySettings) :
    w.copyString s' addr other settings = w.copyString s addr other settings :=
  Copy.Request.start_eq h ho w addr _ _ _

end Writer
end ChainRelay
