import ChainRelay.Proofs.Copy.Effects
import ChainRelay.Proofs.Copy.Proceed

/-!
What an activity does whatever the others do in between. `Always` says of every operation that an
activity may perform, and of every result that it may come to, what holds of it, in whatever state
each operation finds what is shared. A copy opens, fills and finalizes chunks of its own channel and
class and counts its losses; how it fails is told by what it was refused.
-/

namespace ChainRelay

namespace Activity

variable {α β : Type} {p : Op → Prop}

/-- Every operation is as wanted, and so is the result, if there is one. -/
def Always (p : Op → Prop) (post : α → Prop) : Activity α → Prop
  | .done x => post x
  | .abort => True
  | .step op next => p op ∧ ∀ s : Shared, (next (op.perform s).1).Always p post

theorem Always.mono {p' : Op → Prop} {post post' : α → Prop} {a : Activity α}
    (h : a.Always p post) (hp : ∀ op, p op → p' op) (hpost : ∀ x, post x → post' x) :
    a.Always p' post' := by
  induction a with
  | done x => exact hpost x h
  | abort => trivial
  | step op next ih => exact ⟨hp op h.1, fun s => ih _ (h.2 s)⟩

theorem Always.bind {first : α → Prop} {post : β → Prop} {a : Activity α} {f : α → Activity β}
    (h : a.Always p first) (hf : ∀ x, first x → (f x).Always p post) :
    (a >>= f).Always p post := by
  show (Activity.bind a f).Always p post
  induction a with
  | done x => exact hf x h
  | abort => trivial
  | step op next ih => exact ⟨h.1, fun s => ih _ (h.2 s)⟩

/-- An operation whose answer is as it may be. -/
theorem always_perform {post : β → Prop} {op : Op} {f : op.Reply → Activity β} (hp : p op)
    (hf : ∀ s : Shared, (f (op.perform s).1).Always p post) :
    (perform op >>= f).Always p post := ⟨hp, hf⟩

theorem advance_perform (op : Op) (f : op.Reply → Activity β) (s : Shared) :
    (perform op >>= f).advance s = (f (op.perform s).1, (op.perform s).2) := rfl

end Activity

/-- Opening a chunk is answered as the request for its room is. -/
theorem Shared.reservation_openChunk (w : Writer) (c : SizeClass) (s : Shared) :
    (s.openChunk w c).1.map OpenChunk.reservation = (w.channel.reserve c.totalSize s).1 := by
  have ho := openChunk_eq w c s
  rcases hr : w.channel.reserve c.totalSize s with ⟨e | reservation, s'⟩
  · rw [hr] at ho
    obtain ⟨s'', ho, -⟩ := ho
    rw [ho]
    rfl
  · rw [hr] at ho
    dsimp only at ho
    rw [ho]
    rfl

/-- A chunk that was opened is one of the writer's channel. -/
theorem Shared.openChunk_channel {w : Writer} {c : SizeClass} {s : Shared} {chunk : OpenChunk}
    (h : (s.openChunk w c).1 = .ok chunk) : chunk.reservation.channel = w.channel := by
  have hr := s.reservation_openChunk w c
  rw [h, (Channel.Views.refl w.channel).reserve_eq] at hr
  cases hb : (w.channel.band.reserve c.totalSize (w.channel.memory s)).1 with
  | ok slot =>
    rw [hb] at hr
    exact congrArg Reservation.channel (Except.ok.inj hr)
  | error e =>
    rw [hb] at hr
    cases hr

namespace Copy

def Request.Does (r : Request) : Op → Prop
  | .openChunk w c => w = r.writer ∧ c = r.sizeClass
  | .fillChunk c _ | .commitChunk c | .abandonChunk c =>
    c.reservation.channel = r.writer.channel
  | .count tally c => tally = r.writer.tally ∧ (c = .copiesFailed ∨ c = .copiesTruncated)
  | .report _ => True
  | .reserve .. | .commitRecord .. => False

/-- A copy that has a chunk does not fail for want of another. -/
structure Unbroken (o : CopyOutcome) : Prop where
  asked : o.failure ≠ some .invalidRequest
  fed : o.status = .failed → o.failure ≠ some .capacity

namespace Request

open Activity

variable (r : Request)

theorem always_reject : (reject r.writer).Always r.Does fun o => o.failure = some .invalidRequest :=
  ⟨⟨rfl, .inl rfl⟩, fun _ => ⟨trivial, fun _ => rfl⟩⟩

theorem always_fail {post : CopyOutcome → Prop} {failure : CopyFailure} {copied chunks : Nat}
    (h : post { copied, chunks, status := .failed, failure := some failure }) :
    (r.fail failure copied chunks).Always r.Does post :=
  ⟨⟨rfl, .inl rfl⟩, fun _ => ⟨trivial, fun _ => h⟩⟩

theorem always_truncate {head : ChunkId} {copied chunks : Nat} {failure : Option CopyFailure}
    (h : failure ≠ some .invalidRequest) :
    (r.truncate head copied chunks failure).Always r.Does Unbroken :=
  ⟨⟨rfl, .inr rfl⟩, fun _ => ⟨trivial, fun _ => ⟨h, nofun⟩⟩⟩

/-- A copy that is content with the chunks it has. -/
theorem always_last {chunk : OpenChunk} {rest : Activity CopyOutcome}
    (hc : chunk.reservation.channel = r.writer.channel) (h : rest.Always r.Does Unbroken) :
    (perform (.commitChunk chunk) >>= fun _ => rest).Always r.Does Unbroken :=
  always_perform hc fun _ => h

/-- One turn of the loop, given the turns after it. -/
theorem always_turn {more : Nat} {p : Progress}
    (hp : p.current.reservation.channel = r.writer.channel)
    (ih : ∀ {fewer : Nat} {p : Progress}, more = fewer + 1 →
      p.current.reservation.channel = r.writer.channel →
      (r.proceed fewer p).Always r.Does Unbroken) :
    (r.proceed more p).Always r.Does Unbroken := by
  unfold proceed
  split
  · exact r.always_last hp ⟨by simp, by simp⟩
  split
  · exact r.always_last hp (r.always_truncate (by simp))
  split
  · exact r.always_last hp (r.always_fail ⟨by simp, by simp⟩)
  split
  · exact r.always_last hp ⟨by simp, by simp⟩
  split
  · exact r.always_last hp (r.always_truncate (by simp))
  · refine always_perform ⟨rfl, rfl⟩ fun s => ?_
    rcases ho : (Op.perform (.openChunk r.writer r.sizeClass) s).1 with e | next
    · cases e with
      | overflow => exact always_perform hp fun _ => trivial
      | full requested available => exact r.always_last hp (r.always_truncate (by simp))
      | invalidSize size max => exact r.always_last hp (r.always_truncate (by simp))
    · have hnext := Shared.openChunk_channel ho
      exact always_perform hnext fun _ => always_perform hp fun _ => ih rfl hnext

theorem always_proceed (more : Nat) {p : Progress}
    (hp : p.current.reservation.channel = r.writer.channel) :
    (r.proceed more p).Always r.Does Unbroken := by
  induction more generalizing p with
  | zero => exact r.always_turn hp nofun
  | succ more ih => exact r.always_turn hp fun he hp => by cases he; exact ih hp

/-- A copy does what it may, and finds fault with its request only for a reason. -/
theorem always_start (extent : Extent) (maxChunks : Nat) :
    (r.start extent maxChunks).Always r.Does fun o =>
      o.failure = some .invalidRequest → r.Invalid extent maxChunks := by
  unfold start
  split
  · rename_i hbad
    refine r.always_reject.mono (fun _ => id) fun _ _ _ => ?_
    rcases hbad with hz | hz | hz
    · exact .inl hz
    · exact .inr (.inl hz)
    · exact .inr (.inr (.inl hz))
  split
  · exact r.always_fail nofun
  split
  · exact nofun
  · refine always_perform ⟨rfl, rfl⟩ fun s => ?_
    rcases ho : (Op.perform (.openChunk r.writer r.sizeClass) s).1 with e | chunk
    · cases e with
      | overflow => trivial
      | full requested available => exact r.always_fail nofun
      | invalidSize size max => exact r.always_fail nofun
    · have hchunk := Shared.openChunk_channel ho
      refine always_perform hchunk fun _ => ?_
      exact (r.always_proceed _ hchunk).mono (fun _ => id) fun _ h hfail => absurd hfail h.asked

/-- A copy that gets its first chunk does not fail for want of room. -/
theorem always_fed (extent : Extent) (maxChunks : Nat) {s : Shared}
    (h : ∀ e, (s.openChunk r.writer r.sizeClass).1 = .error e → e = .overflow) :
    ((r.start extent maxChunks).advance s).1.Always r.Does fun o =>
      o.status = .failed → o.failure ≠ some .capacity := by
  unfold start
  split
  · exact ⟨trivial, fun _ => nofun⟩
  split
  · exact ⟨trivial, fun _ => nofun⟩
  split
  · exact nofun
  · rw [advance_perform]
    rcases ho : (Op.perform (.openChunk r.writer r.sizeClass) s).1 with e | chunk
    · obtain rfl := h e ho
      trivial
    · have hchunk := Shared.openChunk_channel ho
      refine always_perform hchunk fun _ => ?_
      exact (r.always_proceed _ hchunk).mono (fun _ => id) fun _ h => h.fed

end Request

namespace Call

variable (c : Call)

theorem always : c.activity.Always c.request.Does fun o =>
    o.failure = some .invalidRequest → c.request.Invalid c.extent c.settings.maxChunks := by
  obtain ⟨writer, source, addr, domain, settings, extent⟩ := c
  cases extent with
  | bytes len =>
    simp only [activity, Writer.copyBytes]
    split
    · rename_i hz
      subst hz
      exact (Request.always_reject _).mono (fun _ => id) fun _ _ _ => .inr (.inr (.inr rfl))
    · exact Request.always_start ..
  | untilTerminator => exact Request.always_start ..

theorem always_fed {s : Shared}
    (h : ∀ e, (s.openChunk c.writer c.sizeClass).1 = .error e → e = .overflow) :
    (c.activity.advance s).1.Always c.request.Does fun o =>
      o.status = .failed → o.failure ≠ some .capacity := by
  obtain ⟨writer, source, addr, domain, settings, extent⟩ := c
  cases extent with
  | bytes len =>
    simp only [activity, Writer.copyBytes]
    split
    · exact ⟨trivial, fun _ _ h => by cases h⟩
    · exact Request.always_fed _ _ _ h
  | untilTerminator => exact Request.always_fed _ _ _ h

end Call
end Copy
end ChainRelay
