import Deckard.MemoryCache
import Deckard.MemoryStorage
import Deckard.Service

/-!
# The stores behind their interfaces

The queue knows its stores by the interfaces `Storage` and `Cache`, and each has two
implementations. A program of the queue runs on any pair of them. What the runtime decides
inside a call of the memory stores, the order in which a map is visited and the readings of
the clock, belongs to the implementation.
-/
namespace Deckard

open Binary64 Effect Cache Program

variable {ι : Type} [LinearOrder ι] {σ ρ : Type}

/-- The calls of the interface `Storage`. -/
structure StorageCalls (ι σ : Type) where
  insert : Time → List Message → σ → Except StorageError (ℕ × ℕ) × σ
  find : FindOptions → σ → Except StorageError (List (Document ι))
  count : FindOptions → σ → Except StorageError ℕ
  ack : Message → σ → ℕ × σ
  nack : Message → σ → ℕ × σ
  remove : String → List String → σ → ℕ × σ

/-- The calls of the interface `Cache`. -/
structure CacheCalls (ρ : Type) where
  perform : (op : Op) → ρ → Except CacheError op.Value × ρ
  get : String → ρ → Except CacheError String × ρ
  set : String → String → ρ → Except CacheError Unit × ρ

def MongoStorage.calls (internalIds : InternalIds ι) :
    StorageCalls ι (MongoStorage.Documents ι) where
  insert := MongoStorage.insert internalIds
  find := MongoStorage.find internalIds
  count := MongoStorage.count internalIds
  ack := MongoStorage.ack
  nack := MongoStorage.nack
  remove := MongoStorage.remove

namespace MemoryStorage

/-- Order of a visit of the map and the readings of the clock at its messages. -/
structure Visit (ι : Type) where
  order : List (Stored ι) → List (Stored ι)
  perm : ∀ l, (order l).Perm l
  clock : Stored ι → Time × Time

/-- A visit in the order of the rows, at one instant. -/
def Visit.at (now : Time) : Visit ℕ where
  order := id
  perm := fun l => .refl l
  clock := fun _ => (now, now)

omit [LinearOrder ι] in
/-- A message of the map as a query returns it. -/
def found (d : Stored ι) : Document ι := ⟨d.serial, (d.value.queue, d.value.id), d.value⟩

def calls (internalIds : InternalIds ι) (visit : Visit ι) : StorageCalls ι (MemoryStorage ι) where
  insert := fun now => insert internalIds fun _ => now
  find := fun opt storage =>
    (find internalIds opt visit.clock (visit.order storage.docs.rows)).map (List.map found)
  count := fun opt storage => count internalIds opt (visit.order storage.docs.rows)
  ack := ack
  nack := nack
  remove := remove

end MemoryStorage

def RedisCache.calls (cache : RedisCache) : CacheCalls Redis where
  perform := fun op s => exec (cache.perform op) s
  get := fun key s => exec (cache.get key) s
  set := fun key value s => exec (cache.set key value) s

namespace MemoryCache

/-- The ids of a result that has some. -/
def ids : Result → Except CacheError (List String)
  | .ids l => .ok l
  | .error e => .error e
  | _ => .ok []

def flag : Result → Except CacheError Bool
  | .flag moved => .ok moved
  | .error e => .error e
  | _ => .ok false

def removed : Result → Except CacheError ℕ
  | .count n => .ok n
  | .error e => .error e
  | _ => .ok 0

/-- `order` gives the queues in the order in which an unlocking visits them. -/
def perform (order : MemoryCache → LockType → List String) :
    (op : Op) → MemoryCache → Except CacheError op.Value × MemoryCache
  | .insert queue messages, c => (c.insert queue messages).map ids id
  | .pullMessages clock queue n minScore maxScore ackDeadlineMs, c =>
      (c.pullMessages clock queue n minScore maxScore ackDeadlineMs).map ids id
  | .makeAvailable message, c => (c.makeAvailable message).map flag id
  | .lockMessage clock message lockType, c => (c.lockMessage clock message lockType).map flag id
  | .unlockMessages clock _ lockType, c =>
      (c.unlockMessages clock lockType (order c lockType)).map ids id
  | .timeoutMessages clock queue, c => (c.timeoutMessages clock queue).map ids id
  | .remove queue ids, c => (c.remove queue ids).map removed id

def calls (order : MemoryCache → LockType → List String) : CacheCalls MemoryCache where
  perform := perform order
  get := fun key c => (.ok (c.keys key), c)
  set := fun key value c => (.ok (), { c with keys := Function.update c.keys key value })

end MemoryCache

/-- The storages that `CreateStorage` knows. -/
inductive StorageChoice (ι : Type) [LinearOrder ι]
  | mongodb (internalIds : InternalIds ι)
  | memory (internalIds : InternalIds ι) (visit : MemoryStorage.Visit ι)

def StorageChoice.State : StorageChoice ι → Type
  | .mongodb _ => MongoStorage.Documents ι
  | .memory _ _ => MemoryStorage ι

def StorageChoice.calls : (storage : StorageChoice ι) → StorageCalls ι storage.State
  | .mongodb internalIds => MongoStorage.calls internalIds
  | .memory internalIds visit => MemoryStorage.calls internalIds visit

/-- The caches that `CreateCache` knows. -/
inductive CacheChoice
  | redis (cache : RedisCache)
  | memory (order : MemoryCache → LockType → List String)

def CacheChoice.State : CacheChoice → Type
  | .redis _ => Redis
  | .memory _ => MemoryCache

def CacheChoice.calls : (cache : CacheChoice) → CacheCalls cache.State
  | .redis cache => cache.calls
  | .memory order => MemoryCache.calls order

/-- Answer the commands of the queue with two implementations. -/
def handle (storage : StorageCalls ι σ) (cache : CacheCalls ρ) :
    (c : Command) → σ × ρ → Answer ι c × (σ × ρ)
  | .storageInsert now messages, w =>
      ((storage.insert now messages w.1).1, (storage.insert now messages w.1).2, w.2)
  | .storageFind opt, w => (storage.find opt w.1, w)
  | .storageAck message, w => ((storage.ack message w.1).1, (storage.ack message w.1).2, w.2)
  | .storageNack message, w => ((storage.nack message w.1).1, (storage.nack message w.1).2, w.2)
  | .storageRemove queue ids, w =>
      ((storage.remove queue ids w.1).1, (storage.remove queue ids w.1).2, w.2)
  | .cache op, w => ((cache.perform op w.2).1, w.1, (cache.perform op w.2).2)
  | .cacheGet key, w => ((cache.get key w.2).1, w.1, (cache.get key w.2).2)
  | .cacheSet key value, w => ((cache.set key value w.2).1, w.1, (cache.set key value w.2).2)

/-- MongoDB and Redis as they are used elsewhere. -/
theorem handle_stores (stores : Stores ι) (c : Command) (w : World ι) :
    stores.handle c w =
      ((handle (MongoStorage.calls stores.internalIds) stores.cache.calls c (w.docs, w.redis)).1,
        ⟨(handle (MongoStorage.calls stores.internalIds) stores.cache.calls c
            (w.docs, w.redis)).2.1,
          (handle (MongoStorage.calls stores.internalIds) stores.cache.calls c
            (w.docs, w.redis)).2.2⟩) := by
  cases c <;> rfl

/-- The memory cache performs the calls of its machine. -/
theorem MemoryCache.calls_perform {order : MemoryCache → LockType → List String} {c : MemoryCache}
    (horder : ∀ lockType, c.VisitOrder lockType (order c lockType)) (op : Op) :
    c.Calls op (op.outcome (MemoryCache.perform order op c).1,
      (MemoryCache.perform order op c).2) := by
  cases op with
  | insert queue messages =>
    have h : (Op.outcome (.insert queue messages) (ids (c.insert queue messages).1),
        (c.insert queue messages).2) = c.insert queue messages := by
      unfold MemoryCache.insert
      split_ifs <;> rfl
    exact h ▸ Calls.insert queue messages
  | pullMessages clock queue n minScore maxScore ackDeadlineMs =>
    exact Calls.pullMessages clock queue n minScore maxScore ackDeadlineMs
  | makeAvailable message =>
    have h : (Op.outcome (.makeAvailable message) (flag (c.makeAvailable message).1),
        (c.makeAvailable message).2) = c.makeAvailable message := by
      unfold MemoryCache.makeAvailable
      split_ifs <;> rfl
    exact h ▸ Calls.makeAvailable message
  | lockMessage clock message lockType =>
    have h : (Op.outcome (.lockMessage clock message lockType)
        (flag (c.lockMessage clock message lockType).1), (c.lockMessage clock message lockType).2) =
          c.lockMessage clock message lockType := by
      unfold MemoryCache.lockMessage
      split_ifs <;> rfl
    exact h ▸ Calls.lockMessage clock message lockType
  | unlockMessages clock queue lockType =>
    exact Calls.unlockMessages clock queue lockType _ (horder lockType)
  | timeoutMessages clock queue =>
    have h : (Op.outcome (.timeoutMessages clock queue) (ids (c.timeoutMessages clock queue).1),
        (c.timeoutMessages clock queue).2) = c.timeoutMessages clock queue := by
      unfold MemoryCache.timeoutMessages
      dsimp only
      split <;> rfl
    exact h ▸ Calls.timeoutMessages clock queue
  | remove queue ids => exact Calls.remove queue ids

end Deckard
