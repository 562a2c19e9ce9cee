import Deckard.StableSort
import Deckard.Storage

/-!
# The memory storage

`Insert`, `Ack`, `Nack`, `Remove`, `Find` and `Count` of `MemoryStorage`. The messages lie in a
map under the text of queue and id, and a counter gives each new one its internal id: they are
the rows of a table, the counter is its last serial number. Go visits a map in an order of its
own, so a query takes the rows in the order of its visit.
-/
namespace Deckard

open Binary64 StableSort

/-- Key of a message in the map. -/
def MemoryStorage.getKey (message : Message) : String := message.queue ++ ":" ++ message.id

/-- Every message lies under its own key. -/
structure MemoryStorage (ι : Type) [LinearOrder ι] where
  docs : Table ι String Message
  keyed : ∀ d ∈ docs.rows, d.key = MemoryStorage.getKey d.value

namespace MemoryStorage

@[ext] theorem ext {ι : Type} [LinearOrder ι] {a b : MemoryStorage ι} (h : a.docs = b.docs) :
    a = b := by
  cases a
  cases b
  cases h
  rfl

/-- A message of the map with its internal id. -/
abbrev Stored (ι : Type) := Row ι String Message

variable {ι : Type} [LinearOrder ι] (internalIds : InternalIds ι)

/-- No two messages have the same queue and id. -/
theorem nodup_pairs (storage : MemoryStorage ι) :
    (storage.docs.rows.map fun d => d.value.key).Nodup := by
  have hkeys : storage.docs.rows.map Row.key =
      (storage.docs.rows.map fun d => d.value.key).map fun k => k.1 ++ ":" ++ k.2 := by
    rw [List.map_map]
    exact List.map_congr_left storage.keyed
  exact .of_map _ (hkeys ▸ storage.docs.nodup)

def newMemoryStorage (internalCounter : ι) : MemoryStorage ι :=
  ⟨Table.empty internalCounter, by simp [Table.empty]⟩

/-- What `Insert` writes to a message that is present. -/
def overwrite (message document : Message) : Message :=
  { document with
    description := message.description
    expiryDate := message.expiryDate
    metadata := message.metadata
    payload := message.payload
    stringPayload := message.stringPayload }

/-- One turn of the loop of `Insert`. -/
def insertOne (now : Time) (storage : MemoryStorage ι) (message : Message) : MemoryStorage ι where
  docs := storage.docs.upsert (internalIds.next storage.docs.last)
    (internalIds.lt_next storage.docs.last) (getKey message)
    { message with lastUsage := some now } (overwrite message)
  keyed := by
    intro d hd
    rcases Table.mem_upsert hd with hd | ⟨d', hd', rfl⟩ | rfl
    · exact storage.keyed d hd
    · exact storage.keyed d' hd'
    · rfl

/-- What a turn counts: a new message, or one that is present. -/
def counts (storage : MemoryStorage ι) (message : Message) : ℕ × ℕ :=
  if (storage.docs.get (getKey message)).isSome then (0, 1) else (1, 0)

/-- The loop from an index on. A message that fails the checks ends it; what the turns
before have written stays. -/
def insertFrom (clock : ℕ → Time) :
    ℕ → ℕ × ℕ → List Message → MemoryStorage ι → Except StorageError (ℕ × ℕ) × MemoryStorage ι
  | _, n, [], storage => (.ok n, storage)
  | i, n, message :: messages, storage =>
      if message.queue = "" then (.error .messageHasInvalidQueue, storage)
      else if message.id = "" then (.error .messageHasInvalidID, storage)
      else insertFrom clock (i + 1) (n + counts storage message) messages
        (insertOne internalIds (clock i) storage message)

/-- `clock` gives the time that each turn of the loop reads. -/
def insert (clock : ℕ → Time) (messages : List Message) (storage : MemoryStorage ι) :
    Except StorageError (ℕ × ℕ) × MemoryStorage ι :=
  insertFrom internalIds clock 0 (0, 0) messages storage

/-- Counters that have never been written become zero. -/
def setDiagnosticsStruct (diagnostics : Option MessageDiagnostics) : MessageDiagnostics :=
  let value := diagnostics.getD {}
  { acks := some (value.acks.getD 0)
    nacks := some (value.nacks.getD 0)
    consecutiveAcks := some (value.consecutiveAcks.getD 0)
    consecutiveNacks := some (value.consecutiveNacks.getD 0) }

/-- What `Ack` writes to a message that is present. -/
def ackUpdate (message value : Message) : Message :=
  let diagnostics := setDiagnosticsStruct value.diagnostics
  { value with
    totalScoreSubtract := value.totalScoreSubtract.add message.lastScoreSubtract
    usageCount := value.usageCount + 1
    lastUsage := message.lastUsage
    lastScoreSubtract := message.lastScoreSubtract
    score := message.score
    lockMs := message.lockMs
    breakpoint := message.breakpoint
    diagnostics := some
      { diagnostics with
        acks := MongoStorage.increment diagnostics.acks
        consecutiveAcks := MongoStorage.increment diagnostics.consecutiveAcks
        consecutiveNacks := some 0 } }

/-- What `Nack` writes to a message that is present. -/
def nackUpdate (message value : Message) : Message :=
  let diagnostics := setDiagnosticsStruct value.diagnostics
  { value with
    score := message.score
    lockMs := message.lockMs
    diagnostics := some
      { diagnostics with
        nacks := MongoStorage.increment diagnostics.nacks
        consecutiveNacks := MongoStorage.increment diagnostics.consecutiveNacks
        consecutiveAcks := some 0 } }

def ack (message : Message) (storage : MemoryStorage ι) : ℕ × MemoryStorage ι where
  fst := (storage.docs.get (getKey message)).toList.length
  snd :=
    { docs := storage.docs.modify (getKey message) (ackUpdate message)
      keyed := by
        intro d hd
        obtain ⟨d', hd', rfl⟩ := Table.mem_modify.mp hd
        split_ifs <;> exact storage.keyed d' hd' }

def nack (message : Message) (storage : MemoryStorage ι) : ℕ × MemoryStorage ι where
  fst := (storage.docs.get (getKey message)).toList.length
  snd :=
    { docs := storage.docs.modify (getKey message) (nackUpdate message)
      keyed := by
        intro d hd
        obtain ⟨d', hd', rfl⟩ := Table.mem_modify.mp hd
        split_ifs <;> exact storage.keyed d' hd' }

/-- The messages to remove are found by their fields. Every occurrence of an id counts. -/
def remove (queue : String) (ids : List String) (storage : MemoryStorage ι) :
    ℕ × MemoryStorage ι where
  fst := ((storage.docs.rows.filter fun d => d.value.queue = queue).map fun d =>
    ids.count d.value.id).sum
  snd :=
    { docs := storage.docs.retain fun d => !(d.value.queue == queue && ids.contains d.value.id)
      keyed := fun d hd => storage.keyed d (Table.mem_retain.mp hd).1 }

/-- A bound on internal ids, given as a text; an empty one holds of every id. -/
def bounds (text : String) (holds : ι → Bool) : Except StorageError Bool :=
  if text = "" then .ok true
  else match internalIds.parse text with
    | some i => .ok (holds i)
    | none => .error .breakpointNotInt64

def matchesInternalFilter (filter : InternalFilter) (d : Stored ι) : Except StorageError Bool :=
  if filter.queue ≠ "" ∧ d.value.queue ≠ filter.queue then .ok false
  else if filter.queuePrefix ≠ "" ∧ d.value.queuePrefix ≠ filter.queuePrefix then .ok false
  else if filter.ids.any fun ids => !ids.isEmpty && !ids.contains d.value.id then .ok false
  else do
    let above ← bounds internalIds filter.internalIdBreakpointGt fun i => i < d.serial
    if above = false then return false
    let upTo ← bounds internalIds filter.internalIdBreakpointLte fun i => d.serial ≤ i
    if upTo = false then return false
    return filter.expiryDate.all fun t => d.value.expiryDate ≤ t

def messageMatchesFilter (opt : FindOptions) (d : Stored ι) : Except StorageError Bool :=
  match opt.internalFilter with
  | none => .ok true
  | some filter => matchesInternalFilter internalIds filter d

/-- The messages of a visit that match; an error of the filter ends the visit. -/
def matching (opt : FindOptions) : List (Stored ι) → Except StorageError (List (Stored ι))
  | [] => .ok []
  | d :: visit => do
      let isMatch ← messageMatchesFilter internalIds opt d
      let found ← matching opt visit
      return if isMatch then d :: found else found

def count (opt : FindOptions) (visit : List (Stored ι)) : Except StorageError ℕ := do
  let found ← matching internalIds opt visit
  return found.length

/-- The two comparisons read the clock one after the other. -/
def isExpired (now : Time × Time) (message : Message) : Bool :=
  !message.timeless && (decide (message.expiryDate < now.1) || decide (message.expiryDate = now.2))

/-- Messages that have expired are passed over, unless the filter asks for an expiry date. -/
def hides (opt : FindOptions) (now : Time × Time) (message : Message) : Bool :=
  (opt.internalFilter.bind InternalFilter.expiryDate).isNone && isExpired now message

/-- `time.Time{}`, the first instant of the year 1. -/
def zeroTime : Time := -62135596800000000000

/-- Compare in one direction. -/
def before {α : Type} [LT α] [DecidableLT α] (direction : Direction) (a b : α) : Bool :=
  match direction with
  | .ascending => decide (a < b)
  | .descending => decide (b < a)

/-- The comparison of `Find`. It goes on to the next key only from dates that are not set, and
from `last_usage`, for which it has no case. -/
def less : SortKeys → Stored ι → Stored ι → Bool
  | (.expiryDate, direction) :: keys, a, b =>
      if a.value.expiryDate ≠ zeroTime ∨ b.value.expiryDate ≠ zeroTime then
        before direction a.value.expiryDate b.value.expiryDate
      else less keys a b
  | (.score, direction) :: _, a, b => before direction a.value.score b.value.score
  | (.internalId, direction) :: _, a, b => before direction a.serial b.serial
  | (.lastUsage, _) :: keys, a, b => less keys a b
  | [], a, b => decide (a.serial < b.serial)

def limited (limit : ℤ) (ds : List (Stored ι)) : List (Stored ι) :=
  if 0 < limit ∧ limit < ds.length then ds.take limit.toNat else ds

/-- `clock` gives the readings at each message. -/
def find (opt : FindOptions) (clock : Stored ι → Time × Time) (visit : List (Stored ι)) :
    Except StorageError (List (Stored ι)) := do
  let found ← matching internalIds opt (visit.filter fun d => !hides opt (clock d) d.value)
  return limited opt.limit <| match opt.sort with
    | none => found
    | some sort => stableSort (less sort) found

end MemoryStorage

end Deckard
