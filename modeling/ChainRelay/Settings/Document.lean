import ChainRelay.Bytes
import ChainRelay.Settings.Basic
import ChainRelay.Toml.Document

/-!
Settings from a TOML document. Keys that mean nothing are passed over, and what is not set has its
default. A group of settings may also be an array of its values in order.
-/

namespace ChainRelay

open Toml (Value)

/-- A value as a group of settings: by name, or by position. -/
inductive SettingsGroup where
  | named (entries : List (String × Value))
  | listed (items : List Value)

namespace SettingsGroup

/-- A date is taken for a group in which nothing known is set. -/
def ofValue? : Value → Option SettingsGroup
  | .table _ entries | .inlineTable _ entries => some (named entries)
  | .dateTime => some (named [])
  | .array items => some (listed items)
  | .tables items => some (listed (items.reverse.map (.table .explicit)))
  | _ => none

def find? (g : SettingsGroup) (name : String) (position : Nat) : Option Value :=
  match g with
  | named entries => entries.lookup name
  | listed items => items[position]?

def read (g : SettingsGroup) (name : String) (position : Nat) (decode : Value → Option α)
    (default : α) : Option α :=
  match g.find? name position with
  | some v => decode v
  | none => some default

end SettingsGroup

namespace Settings

private def size? : Value → Option Nat
  | .integer n => if 0 ≤ n then some n.toNat else none
  | _ => none

private def boolean? : Value → Option Bool
  | .boolean b => some b
  | _ => none

private def string? : Value → Option String
  | .string text => some text
  | _ => none

private def plainClass? (name : String) : Option SizeClass :=
  if name = "small" then some .small
  else if name = "medium" then some .medium
  else if name = "large" then some .large
  else none

private def isEmptyGroup : Value → Bool
  | .table _ entries | .inlineTable _ entries => entries.isEmpty
  | .array items => items.isEmpty
  | _ => false

/-- A class is its name, or a table with the name as its only key; only a custom class has a
content, its payload. -/
def sizeClass? : Value → Option SizeClass
  | .string name => plainClass? name
  | .table _ [(name, content)] | .inlineTable _ [(name, content)] =>
    if name = "custom" then
      match content with
      | .integer n => if 0 ≤ n ∧ n < 65536 then some (.custom (.ofNat n.toNat)) else none
      | _ => none
    else if isEmptyGroup content then plainClass? name
    else none
  | _ => none

private def copySettings? (v : Value) : Option CopySettings := do
  let g ← SettingsGroup.ofValue? v
  let maxChunks ← g.read "max_chunks" 0 size? ({} : CopySettings).maxChunks
  let stringClass ← g.read "string_chunk" 1 sizeClass? ({} : CopySettings).stringClass
  let byteClass ← g.read "byte_chunk" 2 (fun v => (sizeClass? v).map some) none
  return { maxChunks, stringClass, byteClass }

private def channelSettings? (v : Value) : Option ChannelSettings := do
  let g ← SettingsGroup.ofValue? v
  let chunkCapacity ← g.read "chunk_capacity" 0 size? ({} : ChannelSettings).chunkCapacity
  let recordCapacity ← g.read "record_capacity" 1 size? ({} : ChannelSettings).recordCapacity
  let stem ← g.read "shm_prefix" 2 (fun v => (string? v).map some) none
  let notify ← g.read "notify" 3 boolean? ({} : ChannelSettings).notify
  return { chunkCapacity, recordCapacity, stem, notify }

private def storeSettings? (v : Value) : Option StoreSettings := do
  let g ← SettingsGroup.ofValue? v
  let maxPending ← g.read "max_pending" 0 size? ({} : StoreSettings).maxPending
  return { maxPending }

def ofEntries? (entries : List (String × Value)) : Option Settings := do
  let g := SettingsGroup.named entries
  let copy ← g.read "stream" 0 copySettings? {}
  let channels ← g.read "channels" 1 channelSettings? {}
  let store ← g.read "consumer" 2 storeSettings? {}
  return { copy, channels, store }

def ofText (text : String) : Except SettingsError Settings :=
  match (Toml.parse? text).bind fun t => ofEntries? t.entries with
  | none => .error .malformed
  | some s =>
    match s.validate with
    | .error e => .error e
    | .ok () => .ok s

def ofFile (content : Option Bytes) : Except SettingsError Settings :=
  match content.bind fun bs => String.fromUTF8? ⟨bs.toArray⟩ with
  | none => .error .unreadable
  | some text => ofText text

def ofOptionalFile : Option Bytes → Except SettingsError Settings
  | none => .ok {}
  | some content => ofFile (some content)

end Settings
end ChainRelay
