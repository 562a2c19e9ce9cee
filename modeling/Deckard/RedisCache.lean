import Deckard.Cache
import Deckard.RedisScripts

/-!
# The Redis cache

Key functions and calls of `RedisCache`. Every call validates its arguments, has its client
run a script on the pools of one queue and reads the answer. Six sorted sets belong to
a queue: four pools of message ids and, for each lock pool, the scores kept for the
unlocking.
-/
namespace Deckard

open Binary64 Effect Cache RedisScripts

structure RedisCache where
  keyPrefix : String

namespace RedisCache

variable (cache : RedisCache)

def configuredPrefix : String := if cache.keyPrefix = "" then "deckard_v1" else cache.keyPrefix

def poolPrefix : String := cache.configuredPrefix ++ ":queue:"

def generalCacheKey (key : String) : String := cache.configuredPrefix ++ ":\x7b" ++ key ++ "\x7d"

def activePool (queue : String) : String := cache.poolPrefix ++ "\x7b" ++ queue ++ "\x7d"

def processingPool (queue : String) : String :=
  cache.poolPrefix ++ "\x7b" ++ queue ++ "\x7d" ++ ":tmp"

def lockPool (queue : String) (lockType : LockType) : String :=
  cache.poolPrefix ++ "\x7b" ++ queue ++ "\x7d" ++ ":" ++ lockType.text

def lockPoolScore (queue : String) (lockType : LockType) : String :=
  cache.poolPrefix ++ "\x7b" ++ queue ++ "\x7d" ++ ":" ++ lockType.text ++ ":score"

/-- The sorted sets of a queue. -/
inductive Pool
  | active
  | processing
  | lock (lockType : LockType)
  | lockScore (lockType : LockType)
  deriving DecidableEq, Repr

def key (queue : String) : Pool → String
  | .active => cache.activePool queue
  | .processing => cache.processingPool queue
  | .lock lockType => cache.lockPool queue lockType
  | .lockScore lockType => cache.lockPoolScore queue lockType

/-- What follows the closing brace of a key. -/
def Pool.suffix : Pool → List Char
  | .active => []
  | .processing => ":tmp".toList
  | .lock lockType => ":".toList ++ lockType.text.toList
  | .lockScore lockType => ":".toList ++ lockType.text.toList ++ ":score".toList

theorem Pool.suffix_inj {p p' : Pool} (h : p.suffix = p'.suffix) : p = p' := by
  rcases p with _ | _ | (_ | _) | (_ | _) <;> rcases p' with _ | _ | (_ | _) | (_ | _) <;>
    first | rfl | exact absurd h (by decide)

theorem Pool.notMem_suffix (p : Pool) : '\x7d' ∉ p.suffix := by
  rcases p with _ | _ | (_ | _) | (_ | _) <;> decide

theorem toList_key (queue : String) (p : Pool) :
    (cache.key queue p).toList =
      (cache.poolPrefix.toList ++ ['\x7b']) ++ (queue.toList ++ '\x7d' :: p.suffix) := by
  cases p <;>
    simp [key, activePool, processingPool, lockPool, lockPoolScore, Pool.suffix,
      String.toList_append]

/-- A list splits at the last occurrence of an element in one way only. -/
theorem append_cons_inj {α : Type} {c : α} {a b x y : List α} (hx : c ∉ x) (hy : c ∉ y)
    (h : a ++ c :: x = b ++ c :: y) : a = b ∧ x = y := by
  rcases List.append_eq_append_iff.mp h with ⟨d, rfl, hd⟩ | ⟨d, rfl, hd⟩
  · cases d with
    | nil => simpa using hd
    | cons e d => exact absurd ((List.cons.inj hd).2 ▸ by simp) hx
  · cases d with
    | nil => simpa using hd.symm
    | cons e d => exact absurd ((List.cons.inj hd).2 ▸ by simp) hy

/-- The last closing brace of a key separates the queue from the pool. -/
@[simp] theorem key_inj {queue queue' : String} {p p' : Pool} :
    cache.key queue p = cache.key queue' p' ↔ queue = queue' ∧ p = p' := by
  constructor
  · intro h
    have hl := congrArg String.toList h
    rw [toList_key, toList_key, List.append_cancel_left_eq] at hl
    obtain ⟨hq, hp⟩ := append_cons_inj p.notMem_suffix p'.notMem_suffix hl
    exact ⟨String.toList_inj.mp hq, Pool.suffix_inj hp⟩
  · rintro ⟨rfl, rfl⟩
    rfl

/-- Braces are reserved for the hash tag of Redis Cluster. -/
def hasHashTag (queue : String) : Bool := queue.toList.any fun c => c == '\x7b' || c == '\x7d'

def validateQueueName {σ ε : Type} (queue : String) : Eff σ (CacheErrorOf ε) Unit :=
  if hasHashTag queue then throw .queueNameContainsClusterHashTag else pure ()

end RedisCache

/-- A client sends a script with the keys that it is called with, the first of them apart, to one
Redis or into a cluster. -/
structure RedisClient (σ ε : Type) where
  eval : {α : Type} → String → List String → Script α → Eff σ ε α

namespace RedisClient

open RedisCache (validateQueueName)

variable {σ ε : Type} (client : RedisClient σ ε) (cache : RedisCache)

def makeAvailable (message : Message) : Eff σ (CacheErrorOf ε) Bool := do
  if message.queue = "" then throw .invalidMessageQueue else
  validateQueueName message.queue
  let moved ← wrap .makingElementAvailable
    (client.eval (cache.activePool message.queue) [cache.processingPool message.queue]
      (moveElementScript (cache.activePool message.queue) (cache.processingPool message.queue)
        message.score message.id))
  return moved == 1

def lockMessage (clock : Clock) (message : Message) (lockType : LockType) :
    Eff σ (CacheErrorOf ε) Bool := do
  if message.queue = "" then throw .invalidQueueToLock else
  validateQueueName message.queue
  if message.lockMs ≤ 0 then throw .invalidLockTime else
  let lockScore := Dtime.timeToMs (clock 0) + message.lockMs
  let moved ← wrap .lockingElement
    (client.eval (cache.processingPool message.queue)
      [cache.lockPool message.queue lockType, cache.lockPoolScore message.queue lockType]
      (lockElementScript (cache.processingPool message.queue)
        (cache.lockPool message.queue lockType) (cache.lockPoolScore message.queue lockType)
        (.ofInt lockScore.toInt) message.id message.score))
  return moved == 1

/-- The first reading of the clock gives the default score, the second one selects. -/
def unlockMessages (clock : Clock) (queue : String) (lockType : LockType) :
    Eff σ (CacheErrorOf ε) (List String) := do
  validateQueueName queue
  let defaultScore :=
    if lockType = .lockAck then Score.getScoreByDefaultAlgorithm (clock 0) else Score.min
  wrap .parsingResult
    (client.eval (cache.lockPool queue lockType)
      [cache.activePool queue, cache.lockPoolScore queue lockType]
      (unlockElementsScript (cache.lockPool queue lockType) (cache.activePool queue)
        (cache.lockPoolScore queue lockType) 1000 (.ofInt (Dtime.timeToMs (clock 1)).toInt)
        defaultScore))

def pullMessages (clock : Clock) (queue : String) (n : Int64) (minScore maxScore : Option Float64)
    (ackDeadlineMs : Int64) : Eff σ (CacheErrorOf ε) (List String) := do
  validateQueueName queue
  let ackDeadlineMs := if ackDeadlineMs = 0 then defaultTimeoutMs else ackDeadlineMs
  let newScore := Dtime.timeToMs (clock 0) + ackDeadlineMs
  wrap .parsingResult
    (client.eval (cache.activePool queue) [cache.processingPool queue]
      (pullElementsScript (cache.activePool queue) (cache.processingPool queue) n.toInt
        (.ofInt newScore.toInt) minScore maxScore))

def timeoutMessages (clock : Clock) (queue : String) : Eff σ (CacheErrorOf ε) (List String) := do
  validateQueueName queue
  wrap .parsingResult
    (client.eval (cache.activePool queue) [cache.processingPool queue]
      (moveFilteredElementsScript (cache.activePool queue) (cache.processingPool queue)
        (.ofInt (Dtime.timeToMs (clock 0)).toInt) Score.min 1000))

def insert (queue : String) (messages : List Message) : Eff σ (CacheErrorOf ε) (List String) := do
  validateQueueName queue
  if messages.any fun message => message.queue != queue then throw .invalidQueueToInsertData else
  let others :=
    [cache.lockPool queue .lockNack, cache.lockPool queue .lockAck, cache.processingPool queue]
  let insertions ← (Gopart.partition 2000 messages).mapM fun part =>
    wrap .insertingCache
      (client.eval (cache.activePool queue) others
        (addElementsScript (cache.activePool queue) others
          (part.map fun message => (message.score, message.id))))
  return insertions.flatten

def remove (queue : String) (ids : List String) : Eff σ (CacheErrorOf ε) ℕ := do
  validateQueueName queue
  let others := [cache.processingPool queue, cache.lockPool queue .lockAck,
    cache.lockPool queue .lockNack, cache.lockPoolScore queue .lockAck,
    cache.lockPoolScore queue .lockNack]
  let removed ← (Gopart.partition 4000 ids).mapM fun part =>
    wrap .removingElements
      (client.eval (cache.activePool queue) others
        (removeElementScript (cache.activePool queue :: others) part))
  return removed.sum

def containsElement (queuePool id : String) : Eff σ (CacheErrorOf ε) Bool :=
  wrap .checkingProcessing (client.eval queuePool [] do
    let score ← Redis.zscore queuePool id
    return score.isSome)

def isProcessing (queue id : String) : Eff σ (CacheErrorOf ε) Bool := do
  validateQueueName queue
  client.containsElement (cache.processingPool queue) id

/-- An unset key reads as the empty text. -/
def get (key : String) : Eff σ (CacheErrorOf ε) String :=
  wrap .gettingElement (client.eval (cache.generalCacheKey key) []
    (gets fun s => (s.str (cache.generalCacheKey key)).getD ""))

def set (key value : String) : Eff σ (CacheErrorOf ε) Unit :=
  wrap .settingElement (client.eval (cache.generalCacheKey key) [] (update fun s =>
    ((), { s with str := Function.update s.str (cache.generalCacheKey key) value })))

def call : Op → Eff σ (CacheErrorOf ε) Result
  | .insert queue messages => .ids <$> client.insert cache queue messages
  | .pullMessages clock queue n minScore maxScore ackDeadlineMs =>
      .ids <$> client.pullMessages cache clock queue n minScore maxScore ackDeadlineMs
  | .makeAvailable message => .flag <$> client.makeAvailable cache message
  | .lockMessage clock message lockType =>
      .flag <$> client.lockMessage cache clock message lockType
  | .unlockMessages clock queue lockType =>
      .ids <$> client.unlockMessages cache clock queue lockType
  | .timeoutMessages clock queue => .ids <$> client.timeoutMessages cache clock queue
  | .remove queue ids => .count <$> client.remove cache queue ids

/-- The client of a single node runs scripts on any keys. -/
def singleNode : RedisClient Redis RedisError where
  eval _ _ script := script

end RedisClient

namespace RedisCache

open RedisClient (singleNode)

variable (cache : RedisCache)

/-! ## The calls of a cache on a single node -/

def makeAvailable (message : Message) : Eff Redis CacheError Bool :=
  singleNode.makeAvailable cache message

def lockMessage (clock : Clock) (message : Message) (lockType : LockType) :
    Eff Redis CacheError Bool :=
  singleNode.lockMessage cache clock message lockType

def unlockMessages (clock : Clock) (queue : String) (lockType : LockType) :
    Eff Redis CacheError (List String) :=
  singleNode.unlockMessages cache clock queue lockType

def pullMessages (clock : Clock) (queue : String) (n : Int64) (minScore maxScore : Option Float64)
    (ackDeadlineMs : Int64) : Eff Redis CacheError (List String) :=
  singleNode.pullMessages cache clock queue n minScore maxScore ackDeadlineMs

def timeoutMessages (clock : Clock) (queue : String) : Eff Redis CacheError (List String) :=
  singleNode.timeoutMessages cache clock queue

def insert (queue : String) (messages : List Message) : Eff Redis CacheError (List String) :=
  singleNode.insert cache queue messages

def remove (queue : String) (ids : List String) : Eff Redis CacheError ℕ :=
  singleNode.remove cache queue ids

def isProcessing (queue id : String) : Eff Redis CacheError Bool :=
  singleNode.isProcessing cache queue id

def get (key : String) : Eff Redis CacheError String := singleNode.get cache key

def set (key value : String) : Eff Redis CacheError Unit := singleNode.set cache key value

def call (op : Op) : Eff Redis CacheError Result := singleNode.call cache op

/-- One call: an error is a result too, and the state it leaves is kept. -/
def step (s : Redis) (op : Op) : Result × Redis :=
  match exec (cache.call op) s with
  | (.ok result, t) => (result, t)
  | (.error e, t) => (.error e, t)

end RedisCache

end Deckard
