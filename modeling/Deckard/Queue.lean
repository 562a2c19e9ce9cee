import Deckard.Program
import Deckard.RedisRefinement
import Deckard.Storage

/-!
# The queue

`Queue` couples a storage and a cache. Its functions are programs over atomic commands:
one call of the storage or of the cache each. A command leaves the other store as it is.
-/
namespace Deckard

open Binary64 Effect Cache Program

/-- What a cache call returns when it does not fail. -/
abbrev Cache.Op.Value : Op → Type
  | .insert .. | .pullMessages .. | .unlockMessages .. | .timeoutMessages .. => List String
  | .makeAvailable .. | .lockMessage .. => Bool
  | .remove .. => ℕ

def Cache.Op.result : (op : Op) → op.Value → Result
  | .insert .., l | .pullMessages .., l | .unlockMessages .., l | .timeoutMessages .., l => .ids l
  | .makeAvailable .., moved | .lockMessage .., moved => .flag moved
  | .remove .., removed => .count removed

/-- The result of a call, an error included. -/
def Cache.Op.outcome (op : Op) : Except CacheError op.Value → Result
  | .ok a => op.result a
  | .error e => .error e

def RedisCache.perform (cache : RedisCache) : (op : Op) → Eff Redis CacheError op.Value
  | .insert queue messages => cache.insert queue messages
  | .pullMessages clock queue n minScore maxScore ackDeadlineMs =>
      cache.pullMessages clock queue n minScore maxScore ackDeadlineMs
  | .makeAvailable message => cache.makeAvailable message
  | .lockMessage clock message lockType => cache.lockMessage clock message lockType
  | .unlockMessages clock queue lockType => cache.unlockMessages clock queue lockType
  | .timeoutMessages clock queue => cache.timeoutMessages clock queue
  | .remove queue ids => cache.remove queue ids

theorem RedisCache.call_eq_perform (cache : RedisCache) (op : Op) :
    cache.call op = op.result <$> cache.perform op := by
  cases op <;> rfl

theorem RedisCache.step_eq_perform (cache : RedisCache) (s : Redis) (op : Op) :
    cache.step s op =
      (op.outcome (exec (cache.perform op) s).1, (exec (cache.perform op) s).2) := by
  rw [RedisCache.step, call_eq_perform, exec_map]
  rcases exec (cache.perform op) s with ⟨_ | a, t⟩ <;> rfl

/-- One call of the storage or of the cache. -/
inductive Command
  | storageInsert (now : Time) (messages : List Message)
  | storageFind (opt : FindOptions)
  | storageAck (message : Message)
  | storageNack (message : Message)
  | storageRemove (queue : String) (ids : List String)
  | cache (op : Op)
  | cacheGet (key : String)
  | cacheSet (key value : String)

abbrev Answer (ι : Type) : Command → Type
  | .storageInsert .. => Except StorageError (ℕ × ℕ)
  | .storageFind .. => Except StorageError (List (Document ι))
  | .storageAck .. | .storageNack .. | .storageRemove .. => ℕ
  | .cache op => Except CacheError op.Value
  | .cacheGet .. => Except CacheError String
  | .cacheSet .. => Except CacheError Unit

/-- The contents of the two stores. -/
structure World (ι : Type) [LinearOrder ι] where
  docs : MongoStorage.Documents ι
  redis : Redis

/-- The two stores that an instance is configured with. -/
structure Stores (ι : Type) [LinearOrder ι] where
  internalIds : InternalIds ι
  cache : RedisCache

variable {ι : Type} [LinearOrder ι]

/-- Let a storage call change the documents. -/
def World.withDocs {α : Type} (w : World ι) (r : α × MongoStorage.Documents ι) : α × World ι :=
  (r.1, { w with docs := r.2 })

/-- Let a cache call change Redis. -/
def World.withRedis {α : Type} (w : World ι) (r : α × Redis) : α × World ι :=
  (r.1, { w with redis := r.2 })

def Stores.handle (stores : Stores ι) : (c : Command) → World ι → Answer ι c × World ι
  | .storageInsert now messages, w =>
      w.withDocs (MongoStorage.insert stores.internalIds now messages w.docs)
  | .storageFind opt, w => (MongoStorage.find stores.internalIds opt w.docs, w)
  | .storageAck message, w => w.withDocs (MongoStorage.ack message w.docs)
  | .storageNack message, w => w.withDocs (MongoStorage.nack message w.docs)
  | .storageRemove queue ids, w => w.withDocs (MongoStorage.remove queue ids w.docs)
  | .cache op, w => w.withRedis (exec (stores.cache.perform op) w.redis)
  | .cacheGet key, w => w.withRedis (exec (stores.cache.get key) w.redis)
  | .cacheSet key value, w => w.withRedis (exec (stores.cache.set key value) w.redis)

/-- What a command does to the documents. -/
inductive MongoStorage.Change (internalIds : InternalIds ι) (docs : Documents ι) :
    (c : Command) → Answer ι c → Documents ι → Prop
  | same (c : Command) (answer : Answer ι c) : Change internalIds docs c answer docs
  | inserted (now : Time) (messages : List Message) (n : ℕ × ℕ) :
      Change internalIds docs (.storageInsert now messages) (.ok n)
        (messages.foldl (insertOne internalIds now) docs)
  | settled {c : Command} (message : Message) (update : Message → Message) (answer : Answer ι c)
      (hc : c = .storageAck message ∨ c = .storageNack message)
      (score : ∀ document, (update document).score = message.score)
      (expiryDate : ∀ document, (update document).expiryDate = document.expiryDate) :
      Change internalIds docs c answer (docs.modify message.key update)
  | removed (queue : String) (ids : List String) (n : ℕ) :
      Change internalIds docs (.storageRemove queue ids) n (remove queue ids docs).2

theorem Stores.change_handle (stores : Stores ι) (c : Command) (w : World ι) :
    MongoStorage.Change stores.internalIds w.docs c (stores.handle c w).1
      (stores.handle c w).2.docs := by
  cases c with
  | storageInsert now messages =>
    rw [handle, World.withDocs]
    obtain ⟨e, he⟩ | ⟨⟨n, hn⟩, -⟩ :=
      MongoStorage.insert_cases stores.internalIds now messages w.docs
    · rw [he]
      exact .same _ _
    · rw [hn]
      exact .inserted now messages n
  | storageAck message => exact .settled message _ _ (.inl rfl) (fun _ => rfl) fun _ => rfl
  | storageNack message => exact .settled message _ _ (.inr rfl) (fun _ => rfl) fun _ => rfl
  | storageRemove queue ids => exact .removed queue ids _
  | _ => exact .same _ _

inductive QueueError
  | storage (cause : StorageError)
  | cache (cause : CacheError)
  | insertingCacheData (cause : CacheError)
  | gettingStorageData (cause : StorageError)
  | messageHasInvalidQueue
  | messageHasInvalidID
  deriving DecidableEq, Repr

def QueueError.text : QueueError → String
  | .storage e => e.text
  | .cache e => e.text
  | .insertingCacheData e => "error inserting cache data: " ++ e.text
  | .gettingStorageData e => "error getting storage data: " ++ e.text
  | .messageHasInvalidQueue => "message has a invalid queue"
  | .messageHasInvalidID => "message has a invalid ID"

/-- The order in which a map is iterated; the runtime chooses one each time. -/
structure MapOrder where
  visit : List String → List String
  perm : ∀ l, (visit l).Perm l

def MapOrder.listed : MapOrder := ⟨fun l => l, fun l => List.Perm.refl l⟩

namespace Queue

abbrev QueueProg (ι α : Type) := Prog Command (Answer ι) QueueError α

open Prog

/-- Return the error of a call. -/
def attempt {ε' ε α : Type} (f : ε' → ε) : Except ε' α → Prog Command (Answer ι) ε α
  | .ok a => .ret a
  | .error e => .fail (f e)

def addMessagesToStorage (now : Time) (messages : List Message) : QueueProg ι (ℕ × ℕ) := do
  let counts ← perform (.storageInsert now messages)
  attempt .storage counts

/-- Insert the messages of the queues that are left, one queue at a time. -/
def addQueues (messages : List Message) : List String → QueueProg ι ℕ
  | [] => pure 0
  | queue :: queues => do
      let answer ← perform (.cache (.insert queue (messages.filter fun m => m.queue = queue)))
      let insertions ← attempt .insertingCacheData answer
      let count ← addQueues messages queues
      pure (insertions.length + count)

def queueNames (messages : List Message) : List String := (messages.map Message.queue).dedup

def addMessagesToCache (order : MapOrder) (messages : List Message) : QueueProg ι ℕ :=
  addQueues messages (order.visit (queueNames messages))

/-- Write the outcome of a delivery to the storage, then lock the message or give it back. -/
def settle (write : Message → Command) (lockType : LockType) (clock : Clock) (message : Message) :
    QueueProg ι Bool :=
  if message.queue = "" then .fail .messageHasInvalidQueue
  else if message.id = "" then .fail .messageHasInvalidID
  else do
    let _ ← perform (write message)
    if 0 < message.lockMs then
      let answer ← perform (.cache (.lockMessage clock message lockType))
      attempt .cache answer
    else
      let answer ← perform (.cache (.makeAvailable message))
      attempt .cache answer

def nack : Clock → Message → QueueProg ι Bool := settle .storageNack .lockNack

def ack : Clock → Message → QueueProg ι Bool := settle .storageAck .lockAck

def timeoutMessages (clock : Clock) (queue : String) : QueueProg ι (List String) := do
  let ids ← perform (.cache (.timeoutMessages clock queue))
  attempt .cache ids

def unlockMessages (clock : Clock) (queue : String) (lockType : LockType) :
    QueueProg ι (List String) := do
  let ids ← perform (.cache (.unlockMessages clock queue lockType))
  attempt .cache ids

/-- The ids that no message has. -/
def notFoundIds (ids : List String) (messages : List Message) : List String :=
  ids.filter fun id => !(messages.any fun m => m.id == id)

def findOptions (ids : List String) (queue : String) (retry : Bool) : FindOptions where
  sort := some [(.score, .ascending)]
  limit := ids.length
  internalFilter := some { ids := some ids, queue := queue }
  retry := retry

/-- The stored messages among the ids, and the ids that have none. -/
def getFromStorage (ids : List String) (queue : String) (retry : Bool) :
    QueueProg ι (List Message × List String) := do
  let answer ← perform (.storageFind (findOptions ids queue retry))
  let documents ← attempt .gettingStorageData answer
  pure (documents.map Document.message, notFoundIds ids (documents.map Document.message))

/-- Ids that the storage does not know are removed from the cache, whatever comes of it. -/
def removeMissing (queue : String) : List String → QueueProg ι Unit
  | [] => pure ()
  | id :: ids => do
      let _ ← perform (.cache (.remove queue (id :: ids)))
      pure ()

def sortByScore (messages : List Message) : List Message :=
  messages.insertionSort fun a b => ¬ b.score < a.score

/-- Both reads together; no message at all is no answer. -/
def merge (messages retryMessages : List Message) : Option (List Message) :=
  let all := if retryMessages = [] then messages else sortByScore (messages ++ retryMessages)
  if all = [] then none else some all

def pull (clock : Clock) (queue : String) (n : Int64) (minScore maxScore : Option Float64)
    (ackDeadlineMs : Int64) : QueueProg ι (Option (List Message)) := do
  let answer ← perform (.cache (.pullMessages clock queue n minScore maxScore ackDeadlineMs))
  let ids ← attempt .cache answer
  if ids = [] then pure none else
  let (messages, notFound) ← getFromStorage ids queue false
  if notFound = [] then pure (some messages) else
  let (retryMessages, retryNotFound) ← getFromStorage notFound queue true
  removeMissing queue retryNotFound
  pure (merge messages retryMessages)

/-- Removed from the cache, removed from the storage. -/
def remove (queue : String) (ids : List String) : QueueProg ι (ℕ × ℕ) := do
  let storageCount ← perform (.storageRemove queue ids)
  let answer ← perform (.cache (.remove queue ids))
  let cacheCount ← attempt .cache answer
  pure (cacheCount, storageCount)

end Queue

end Deckard
