import ChainRelay.Proofs.Capture.Parts
import ChainRelay.Proofs.Store.Account

/-!
How an activity of a writer is made up: copies one after another, with nothing between them that
touches a channel. A captured task names only chains of the copies that were made for it.
-/

namespace ChainRelay

open ChainRelay.Ring

def Op.IsAside : Op → Prop
  | count .. | report _ => True
  | _ => False

theorem Op.IsAside.perform {op : Op} (h : op.IsAside) (s : Shared) :
    (op.perform s).2.regions = s.regions ∧ (op.perform s).2.allocators = s.allocators := by
  cases op with
  | count | report => exact ⟨rfl, rfl⟩
  | openChunk | fillChunk | commitChunk | abandonChunk | reserve | commitRecord => exact h.elim

theorem Activity.bind_assoc {α β γ : Type} (a : Activity α) (f : α → Activity β)
    (g : β → Activity γ) : (a >>= f) >>= g = a >>= fun x => f x >>= g := by
  show Activity.bind (Activity.bind a f) g = Activity.bind a fun x => Activity.bind (f x) g
  induction a with
  | done x => rfl
  | abort => rfl
  | step op next ih => exact congrArg (Activity.step op) (funext fun reply => ih reply)

/-- Copies of the writer, and what is done with the chains they gave: `heads` are those of the
copies that are done, the last one first. -/
inductive Writer.Plan {α : Type} (w : Writer) (post : List ChunkId → α → Prop) :
    List ChunkId → Activity α → Prop where
  | done {heads : List ChunkId} {x : α} (h : post heads x) : Plan w post heads (.done x)
  | aside {heads : List ChunkId} {op : Op} {next : op.Reply → Activity α} (hop : op.IsAside)
      (h : ∀ reply, Plan w post heads (next reply)) : Plan w post heads (.step op next)
  | copy {heads : List ChunkId} (call : Copy.Call) (hw : call.writer = w)
      {next : CopyOutcome → Activity α} (h : ∀ o, Plan w post (o.head :: heads) (next o)) :
      Plan w post heads (call.activity >>= next)

namespace Writer.Plan

variable {α β : Type} {w : Writer} {heads : List ChunkId}

theorem bind {first : List ChunkId → α → Prop} {post : List ChunkId → β → Prop} {a : Activity α}
    {f : α → Activity β} (h : w.Plan first heads a)
    (hf : ∀ heads x, first heads x → w.Plan post heads (f x)) : w.Plan post heads (a >>= f) := by
  induction h with
  | done hx => exact hf _ _ hx
  | aside hop _ ih => exact .aside hop ih
  | copy call hw _ ih =>
    rw [Activity.bind_assoc]
    exact .copy call hw ih

/-- A plan that is carried out without a break appends to the channel and touches no other. It comes
to a result if it is refused nothing. -/
theorem appends {post : List ChunkId → α → Prop} {a : Activity α} {c : Channel} {s : Shared}
    {q : List Booking} (h : w.Plan post heads a) (hv : c.Views w.channel) (hq : c.Queued s q) :
    ∃ more, c.Queued (a.run s).2 (q ++ more) ∧
      (∀ n, n ≠ c.region → (a.run s).2.regions.get n = s.regions.get n) ∧
      (a.Granted s → ∃ x, (a.run s).1 = .ok x) := by
  induction h generalizing s q with
  | @done _ x =>
    rw [← List.append_nil q] at hq
    exact ⟨[], hq, fun _ _ => rfl, fun _ => ⟨x, rfl⟩⟩
  | aside hop _ ih =>
    have hregions := (hop.perform s).1
    obtain ⟨more, hq', hframe, hok⟩ := ih _ (hq.of_memory (by rw [hregions]))
    refine ⟨more, hq', fun n hn => ?_, fun hgranted => hok hgranted.2⟩
    exact (hframe n hn).trans (congrArg (·.get n) hregions)
  | copy call hw _ ih =>
    subst hw
    obtain ⟨g, slots, -, hlaid, -, -⟩ := call.follows_ends.run hv (.initial _ _) (.initial hq)
    rcases hrun : call.activity.run s with ⟨answer, t⟩
    rw [hrun] at hlaid
    obtain ⟨ks, hs, ds, hq', -⟩ := hlaid.queue
    replace hq' : c.Queued t (q ++ (ks ++ hs ++ ds)) := by simpa using hq'
    rw [Activity.run_bind, hrun]
    cases answer with
    | error e =>
      refine ⟨_, hq', hlaid.regions, fun hgranted => ?_⟩
      obtain ⟨o, t', -, -, hrun', -⟩ := call.run_granted hv hq (Activity.granted_bind hgranted).1
      rw [hrun] at hrun'
      cases hrun'
    | ok o =>
      obtain ⟨more, hq'', hframe, hok⟩ := ih o hq'
      refine ⟨_, by rwa [← List.append_assoc], fun n hn => ?_, fun hgranted => ?_⟩
      · exact (hframe n hn).trans (hlaid.regions n hn)
      · exact hok ((Activity.granted_bind hgranted).2 o t hrun)

theorem aside_perform {post : List ChunkId → β → Prop} {op : Op} {f : op.Reply → Activity β}
    (hop : op.IsAside) (hf : ∀ x, w.Plan post heads (f x)) :
    w.Plan post heads (Activity.perform op >>= f) := .aside hop hf

/-- A part of a record was made without a copy or with one, and names the chain of its copy, or
none. -/
inductive Adds (old : List ChunkId) : List ChunkId → ChunkId → Prop where
  | plain : Adds old old .none
  | chain (head : ChunkId) : Adds old (head :: old) head
  | unusable (head : ChunkId) : Adds old (head :: old) .none

/-- The chains that a record names are chains of its copies, no two of the same. -/
def Lists (heads named : List ChunkId) : Prop := (named.filter (· ≠ .none)).Sublist heads

theorem Lists.add {old named : List ChunkId} {head : ChunkId} (h : Lists old named)
    (hadds : Adds old heads head) : Lists heads (head :: named) := by
  unfold Lists at h ⊢
  cases hadds with
  | plain => simpa using h
  | unusable other => simpa using h.cons other
  | chain =>
    by_cases hnone : head = .none
    · simpa [hnone] using h.cons head
    · simpa [hnone] using h

def AddsField (old heads : List ChunkId) (f : Field) : Prop :=
  Adds old heads f.head ∧ f.WellFormed

theorem readField (w : Writer) (source : AddressSpace) (addr : Nat) (domain : TrustDomain)
    (settings : CopySettings) (old : List ChunkId) :
    w.Plan (AddsField old) old (w.readField source addr domain settings) := by
  unfold Writer.readField
  split
  · exact .done ⟨.plain, trivial⟩
  · cases source.readString addr inlineCapacity domain with
    | error fault => exact aside_perform trivial fun _ => .done ⟨.plain, trivial⟩
    | ok read =>
      dsimp only
      split
      · apply Plan.done
        cases InlineString.ofBytes? read.bytes with
        | none => exact ⟨.plain, trivial⟩
        | some text => exact ⟨.plain, trivial⟩
      · apply Plan.copy ⟨w, source, addr, domain, settings, .untilTerminator⟩ rfl
        intro o
        refine .done ⟨?_, wellFormed_fieldOfCopy o⟩
        unfold fieldOfCopy
        split
        · exact .unusable o.head
        · exact .chain o.head

theorem encodeField (w : Writer) (source : AddressSpace) (addr : Nat) (domain : TrustDomain)
    (settings : CopySettings) (old : List ChunkId) :
    w.Plan (AddsField old) old (w.encodeField source addr domain settings) := by
  apply (readField w source addr domain settings old).bind
  intro heads f hf
  split
  · exact aside_perform trivial fun _ => .done hf
  · exact .done hf

end Writer.Plan

namespace Invocation

open Writer.Plan (Adds AddsField Lists)

variable (i : Invocation)

def blockCall (source : AddressSpace) (start stop : UInt64) : Copy.Call where
  writer := i.writer
  source := source
  addr := start.toNat
  domain := .monitored
  settings := i.settings
  extent := .bytes (stop.toNat - start.toNat)

theorem copyBlock_eq (source : AddressSpace) (start stop : UInt64) :
    i.copyBlock source start stop =
      if start = 0 ∨ stop.toNat - start.toNat = 0 then pure {}
      else (i.blockCall source start stop).activity >>= fun o => pure ⟨o.head, o.status⟩ := rfl

theorem plan_copyBlock (source : AddressSpace) (start stop : UInt64) (old : List ChunkId) :
    i.writer.Plan (fun heads b => Adds old heads b.head) old (i.copyBlock source start stop) := by
  rw [copyBlock_eq]
  split
  · exact .done .plain
  · apply Writer.Plan.copy (i.blockCall source start stop) rfl
    exact fun o => .done (.chain o.head)

def captureInterpreter (source : TaskSnapshot) (task : UInt64) : Activity Field :=
  if source.fieldOrZero task .interpreterPointer = 0 then pure .unavailable
  else
    i.writer.encodeField source.memory (source.fieldOrZero task .interpreterPointer).toNat
      .collector i.settings

def captureNames (source : TaskSnapshot) (task : UInt64) : Activity (Field × Field) := do
  let filename ← i.writer.encodeField source.memory (source.fieldOrZero task .filenamePointer).toNat
    .collector i.settings
  let interpreter ← i.captureInterpreter source task
  return (filename, interpreter)

theorem plan_captureInterpreter (source : TaskSnapshot) (task : UInt64) (old : List ChunkId) :
    i.writer.Plan (AddsField old) old (i.captureInterpreter source task) := by
  unfold captureInterpreter
  split
  · exact .done ⟨.plain, trivial⟩
  · exact .encodeField ..

theorem plan_captureNames (source : TaskSnapshot) (task : UInt64) :
    i.writer.Plan (fun heads names => Lists heads [names.2.head, names.1.head] ∧
      names.1.WellFormed ∧ names.2.WellFormed) [] (i.captureNames source task) := by
  apply (Writer.Plan.encodeField i.writer source.memory _ .collector i.settings []).bind
  rintro heads filename ⟨hfilename, hwell⟩
  apply (i.plan_captureInterpreter source task heads).bind
  rintro heads' interpreter ⟨hinterpreter, hwell'⟩
  have hnone : Lists [] [] := List.Sublist.refl _
  exact .done ⟨(hnone.add hfilename).add hinterpreter, hwell, hwell'⟩

def captureBlocks (source : TaskSnapshot) (task : UInt64) : Activity (BlockRef × BlockRef) := do
  let arguments ← i.copyBlock source.memory (source.fieldOrZero task .argumentsStart)
    (source.fieldOrZero task .argumentsEnd)
  let environment ← i.copyBlock source.memory (source.fieldOrZero task .environmentStart)
    (source.fieldOrZero task .environmentEnd)
  return (arguments, environment)

theorem plan_captureBlocks (source : TaskSnapshot) (task : UInt64) {old named : List ChunkId}
    (h : Lists old named) :
    i.writer.Plan (fun heads blocks => Lists heads (blocks.2.head :: blocks.1.head :: named)) old
      (i.captureBlocks source task) := by
  apply (i.plan_copyBlock source.memory _ _ old).bind
  intro heads arguments harguments
  apply (i.plan_copyBlock source.memory _ _ heads).bind
  intro heads' environment henvironment
  exact .done ((h.add harguments).add henvironment)

end Invocation

def TaskSnapshot.compose (source : TaskSnapshot) (task : UInt64) (names : Field × Field)
    (blocks : BlockRef × BlockRef) : Task :=
  let value := source.fieldOrZero task
  let value32 := fun field => (value field).toUInt32
  { credentials := ⟨value32 .uid, value32 .gid, value32 .euid, value32 .egid⟩
    process := ⟨value32 .pid, value32 .tgid, value32 .namespacePid, value32 .pidNamespace⟩
    parent := ⟨value32 .parentPid, value32 .parentTgid, value .parentStartTime⟩
    loginUid := value32 .loginUid
    sessionId := value32 .sessionId
    startTime := value .startTime
    filename := names.1
    interpreter := names.2
    arguments := blocks.1
    environment := blocks.2
    cgroupId := value .cgroupId }

namespace Invocation

open Writer.Plan (Lists)

variable (i : Invocation)

theorem capture_eq (source : TaskSnapshot) (task : UInt64) :
    i.capture source task = (i.captureNames source task >>= fun names =>
      i.captureBlocks source task >>= fun blocks => pure (source.compose task names blocks)) := by
  unfold capture captureNames captureInterpreter captureBlocks
  simp only [Activity.bind_assoc]
  apply congrArg (i.writer.encodeField source.memory _ .collector i.settings >>= ·)
  funext filename
  split <;> rfl

/-- A captured task names only chains of the copies that were made for it, and each of them once. -/
theorem plan_capture (source : TaskSnapshot) (task : UInt64) :
    i.writer.Plan (fun heads t => t.WellFormed ∧ Lists heads t.heads.reverse) []
      (i.capture source task) := by
  rw [capture_eq]
  apply (i.plan_captureNames source task).bind
  rintro heads names ⟨hlists, hfilename, hinterpreter⟩
  apply (i.plan_captureBlocks source task hlists).bind
  intro heads' blocks hlists'
  exact .done ⟨⟨hfilename, hinterpreter⟩, hlists'⟩

end Invocation
end ChainRelay
