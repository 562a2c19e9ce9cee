import Deckard.Cache
import Deckard.Lifecycle
import Mathlib.Data.List.Sort

/-!
# The memory cache

The calls of `MemoryCache` on its linked lists. An insertion first takes the id out of
the list, so a list never holds an id twice; the type of the lists says so. A loop that
removes the element it stands on ends there, because the removed element has no successor
left.
-/
namespace Deckard

open Binary64 Cache Runs Lifecycle

structure MemoryMessageEntry where
  id : String
  score : Float64
  lockUntil : Float64 := .ofInt 0
  deriving DecidableEq

/-- A list of entries with different ids. -/
structure EntryList where
  entries : List MemoryMessageEntry
  nodup : (entries.map MemoryMessageEntry.id).Nodup

namespace EntryList

def empty : EntryList := ⟨[], List.nodup_nil⟩

def ids (l : EntryList) : List String := l.entries.map MemoryMessageEntry.id

/-- Take the entry with an id out of the list. -/
def removeEntry (l : EntryList) (id : String) : EntryList where
  entries := l.entries.eraseP (·.id = id)
  nodup := l.nodup.sublist (List.eraseP_sublist.map _)

def contains (l : EntryList) (id : String) : Bool := l.entries.any (·.id = id)

theorem contains_iff {l : EntryList} {id : String} : l.contains id = true ↔ id ∈ l.ids := by
  simp [contains, ids]

theorem entries_removeEntry (l : EntryList) (id : String) :
    (l.removeEntry id).entries = l.entries.filter (·.id ≠ id) := by
  obtain ⟨entries, nodup⟩ := l
  simp only [removeEntry]
  induction entries with
  | nil => rfl
  | cons e es ih =>
    obtain ⟨hnew, hrest⟩ := List.nodup_cons.mp nodup
    by_cases he : e.id = id
    · have hall : es.filter (·.id ≠ id) = es := by
        rw [List.filter_eq_self]
        intro a ha
        have hne : a.id ≠ id := fun h => hnew (List.mem_map.mpr ⟨a, ha, h.trans he.symm⟩)
        simpa using hne
      rw [List.eraseP_cons_of_pos (by simpa using he), List.filter_cons_of_neg (by simpa using he),
        hall]
    · rw [List.eraseP_cons_of_neg (by simpa using he), List.filter_cons_of_pos (by simpa using he),
        ih hrest]

@[simp] theorem mem_ids_removeEntry {l : EntryList} {id a : String} :
    a ∈ (l.removeEntry id).ids ↔ a ≠ id ∧ a ∈ l.ids := by
  simp only [ids, entries_removeEntry, List.mem_map, List.mem_filter, decide_eq_true_eq]
  constructor
  · rintro ⟨e, ⟨he, hne⟩, rfl⟩
    exact ⟨hne, e, he, rfl⟩
  · rintro ⟨hne, e, he, rfl⟩
    exact ⟨e, ⟨he, hne⟩, rfl⟩

/-- Insert an entry in place of one with the same id, before the first entry that does not
have a lower score. -/
def insertEntry (l : EntryList) (data : MemoryMessageEntry) : EntryList where
  entries := (l.removeEntry data.id).entries.orderedInsert (fun a b => a.score ≤ b.score) data
  nodup := by
    rw [((List.perm_orderedInsert _ _ _).map _).nodup_iff, List.map_cons, List.nodup_cons]
    exact ⟨fun h => (mem_ids_removeEntry.mp h).1 rfl, (l.removeEntry data.id).nodup⟩

@[simp] theorem mem_ids_insertEntry {l : EntryList} {data : MemoryMessageEntry} {a : String} :
    a ∈ (l.insertEntry data).ids ↔ a = data.id ∨ a ∈ l.ids := by
  rw [ids, insertEntry, ((List.perm_orderedInsert _ _ _).map _).mem_iff, List.map_cons,
    List.mem_cons, ← ids, mem_ids_removeEntry]
  tauto

end EntryList

/-- The four maps of lists that the cache keeps. -/
inductive MemoryPool
  | active
  | processing
  | lock (lockType : LockType)
  deriving DecidableEq, Repr

structure MemoryCache where
  pool : MemoryPool → String → EntryList
  keys : String → String

namespace MemoryCache

def new : MemoryCache := ⟨fun _ _ => .empty, fun _ => ""⟩

def setPool (c : MemoryCache) (p : MemoryPool) (queue : String) (l : EntryList) : MemoryCache :=
  { c with pool := Function.update c.pool p (Function.update (c.pool p) queue l) }

@[simp] theorem pool_setPool (c : MemoryCache) (p : MemoryPool) (queue : String) (l : EntryList)
    (p' : MemoryPool) (q : String) :
    (c.setPool p queue l).pool p' q = if p' = p ∧ q = queue then l else c.pool p' q := by
  by_cases hp : p' = p
  · subst hp
    by_cases hq : q = queue <;> simp [setPool, hq]
  · simp [setPool, hp]

def createEntry (message : Message) : MemoryMessageEntry :=
  { id := message.id, score := message.score }

/-- Take an id out of one list and put an entry for it into another one. -/
def move (c : MemoryCache) (source destination : MemoryPool) (queue : String)
    (data : MemoryMessageEntry) : MemoryCache :=
  let c := c.setPool source queue ((c.pool source queue).removeEntry data.id)
  c.setPool destination queue ((c.pool destination queue).insertEntry data)

def makeAvailable (c : MemoryCache) (message : Message) : Result × MemoryCache :=
  if message.queue = "" then (.error .invalidMessageQueue, c)
  else if (c.pool .processing message.queue).contains message.id then
    (.flag true, c.move .processing .active message.queue (createEntry message))
  else (.flag false, c)

def lockMessage (c : MemoryCache) (clock : Clock) (message : Message) (lockType : LockType) :
    Result × MemoryCache :=
  if message.queue = "" then (.error .invalidQueueToLock, c)
  else if message.lockMs ≤ 0 then (.error .invalidLockSeconds, c)
  else if (c.pool .processing message.queue).contains message.id then
    let lockUntil := .ofInt (Dtime.timeToMs (clock 0) + message.lockMs).toInt
    (.flag true, c.move .processing (.lock lockType) message.queue
      { createEntry message with lockUntil })
  else (.flag false, c)

/-- The pass over the lock list of one queue: the first entry that is due is moved, and the
loop ends with it. -/
def unlockQueue (lockType : LockType) (nowMs : Int64) (defaultScore : Float64)
    (acc : List String × MemoryCache) (queue : String) : List String × MemoryCache :=
  match (acc.2.pool (.lock lockType) queue).entries.find?
      (fun e => e.lockUntil.toInt64 ≤ nowMs) with
  | none => acc
  | some value =>
      let score := if Score.isUndefined value.score then defaultScore else value.score
      (acc.1 ++ [value.id],
        acc.2.move (.lock lockType) .active queue { value with score })

/-- Unlocks in all queues, whatever queue is named, in the order in which the runtime
visits the map. -/
def unlockMessages (c : MemoryCache) (clock : Clock) (lockType : LockType) (order : List String) :
    Result × MemoryCache :=
  let defaultScore :=
    if lockType = .lockAck then Score.getScoreByDefaultAlgorithm (clock 0) else Score.min
  let unlocked := order.foldl (unlockQueue lockType (Dtime.timeToMs (clock 1)) defaultScore) ([], c)
  (.ids unlocked.1, unlocked.2)

structure PullState where
  active : EntryList
  processing : EntryList
  filteredOut : List MemoryMessageEntry
  result : List String

/-- At most `n` rounds, each taking the front of the active list. The deadline of an entry
is in milliseconds on top of a clock reading in seconds, one reading for each entry. -/
def pullLoop (clock : Clock) (ackDeadlineMs : Int64) (minScore maxScore : Option Float64) :
    ℕ → PullState → PullState
  | 0, st => st
  | n + 1, st =>
    match st.active.entries with
    | [] => st
    | entry :: _ =>
      let active := st.active.removeEntry entry.id
      if (minScore.any fun lo => entry.score < lo) ∨ (maxScore.any fun hi => hi < entry.score) then
        pullLoop clock ackDeadlineMs minScore maxScore n
          { st with active, filteredOut := st.filteredOut ++ [entry] }
      else
        let score := .ofInt (Dtime.unix (clock st.result.length) + ackDeadlineMs).toInt
        pullLoop clock ackDeadlineMs minScore maxScore n
          { st with
            active
            processing := st.processing.insertEntry { id := entry.id, score }
            result := st.result ++ [entry.id] }

/-- A negative `n`, for which no message is taken here, makes the source panic where the list has
entries; the service asks for one message at least. -/
def pullMessages (c : MemoryCache) (clock : Clock) (queue : String) (n : Int64)
    (minScore maxScore : Option Float64) (ackDeadlineMs : Int64) : Result × MemoryCache :=
  let ackDeadlineMs := if ackDeadlineMs = 0 then defaultTimeoutMs else ackDeadlineMs
  let st := pullLoop clock ackDeadlineMs minScore maxScore n.toInt.toNat
    { active := c.pool .active queue, processing := c.pool .processing queue,
      filteredOut := [], result := [] }
  let active := st.filteredOut.foldl EntryList.insertEntry st.active
  (.ids st.result, (c.setPool .processing queue st.processing).setPool .active queue active)

/-- The first entry whose deadline has passed goes back with the lowest score, and the loop
ends with it. -/
def timeoutMessages (c : MemoryCache) (clock : Clock) (queue : String) : Result × MemoryCache :=
  let timeoutTime := .ofInt (Dtime.unix (clock 0)).toInt
  match (c.pool .processing queue).entries.find? (fun e => e.score ≤ timeoutTime) with
  | none => (.ids [], c)
  | some value =>
      (.ids [value.id], c.move .processing .active queue { value with score := Score.min })

def isPresentOnAnyPool (c : MemoryCache) (queue id : String) : Bool :=
  (c.pool .active queue).contains id || (c.pool .processing queue).contains id ||
    (c.pool (.lock .lockAck) queue).contains id || (c.pool (.lock .lockNack) queue).contains id

/-- Presence is decided for the whole batch before anything is inserted. -/
def insert (c : MemoryCache) (queue : String) (messages : List Message) : Result × MemoryCache :=
  if messages.any fun message => message.queue != queue then (.error .invalidQueueToInsertData, c)
  else
    let insertions := messages.filter fun message => !c.isPresentOnAnyPool queue message.id
    let active := insertions.foldl (fun l message => l.insertEntry (createEntry message))
      (c.pool .active queue)
    (.ids (insertions.map Message.id), c.setPool .active queue active)

/-- Removes the ids from a list and counts those it held. -/
def removeFromSlice (l : EntryList) (ids : List String) : ℕ × EntryList :=
  ids.foldl (fun acc id =>
    (acc.1 + if acc.2.contains id then 1 else 0, acc.2.removeEntry id)) (0, l)

def remove (c : MemoryCache) (queue : String) (ids : List String) : Result × MemoryCache :=
  let removed := [MemoryPool.active, .processing, .lock .lockAck, .lock .lockNack].foldl
    (fun (acc : ℕ × MemoryCache) p =>
      let removed := removeFromSlice (acc.2.pool p queue) ids
      (acc.1 + removed.1, acc.2.setPool p queue removed.2)) (0, c)
  (.count removed.1, removed.2)

/-- A possible order of the runtime's visit: every queue with a list, each once. -/
def VisitOrder (c : MemoryCache) (lockType : LockType) (order : List String) : Prop :=
  order.Nodup ∧ ∀ queue, (c.pool (.lock lockType) queue).entries ≠ [] → queue ∈ order

inductive Calls (c : MemoryCache) : Op → Result × MemoryCache → Prop
  | insert (queue : String) (messages : List Message) :
      Calls c (.insert queue messages) (c.insert queue messages)
  | pullMessages (clock : Clock) (queue : String) (n : Int64) (minScore maxScore : Option Float64)
      (ackDeadlineMs : Int64) :
      Calls c (.pullMessages clock queue n minScore maxScore ackDeadlineMs)
        (c.pullMessages clock queue n minScore maxScore ackDeadlineMs)
  | makeAvailable (message : Message) :
      Calls c (.makeAvailable message) (c.makeAvailable message)
  | lockMessage (clock : Clock) (message : Message) (lockType : LockType) :
      Calls c (.lockMessage clock message lockType) (c.lockMessage clock message lockType)
  | unlockMessages (clock : Clock) (queue : String) (lockType : LockType) (order : List String) :
      c.VisitOrder lockType order →
      Calls c (.unlockMessages clock queue lockType) (c.unlockMessages clock lockType order)
  | timeoutMessages (clock : Clock) (queue : String) :
      Calls c (.timeoutMessages clock queue) (c.timeoutMessages clock queue)
  | remove (queue : String) (ids : List String) :
      Calls c (.remove queue ids) (c.remove queue ids)

/-- The runs of the cache, a call at a time. -/
def machine : Machine MemoryCache Op Result := fun c op res d => c.Calls op (res, d)

end MemoryCache

end Deckard
