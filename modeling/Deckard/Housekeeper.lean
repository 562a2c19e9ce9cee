import Deckard.Service

/-!
# Tasks of the housekeeper

An empty cache is refilled from the storage, one page of documents at a call. Three keys
of the cache hold the state between the calls: whether a recovery is running, the internal
id at which it will end, and the one that it has reached. While no recovery is running,
expired messages are removed.
-/
namespace Deckard

open Binary64 Effect Cache Program

namespace Queue

open Prog MongoStorage

variable {ι ε : Type}

/-- Read a key of the cache. -/
abbrev cacheGet (key : String) : Prog Command (Answer ι) ε (Except CacheError String) :=
  perform (Command.cacheGet key)

/-- Write a key of the cache. -/
abbrev cacheSet (key value : String) : Prog Command (Answer ι) ε (Except CacheError Unit) :=
  perform (Command.cacheSet key value)

/-- Query the storage. -/
abbrev storageFind (opt : FindOptions) :
    Prog Command (Answer ι) ε (Except StorageError (List (Document ι))) :=
  perform (Command.storageFind opt)

def isRecovering : Prog Command (Answer ι) ε (Except CacheError Bool) := do
  let recovery ← cacheGet recoveryRunning
  pure (recovery.map fun text => text == "true")

/-- Query for the document with the highest internal id. -/
def lastDocument : FindOptions where
  sort := some [(.internalId, .descending)]
  limit := 1

/-- Documents that one call recovers. -/
def pageSize : ℕ := 4000

/-- Query for the documents after one internal id and up to another. -/
def page (breakpoint recoveryBreakpoint : String) : FindOptions where
  sort := some [(.internalId, .ascending)]
  limit := pageSize
  internalFilter := some
    { internalIdBreakpointGt := breakpoint
      internalIdBreakpointLte := recoveryBreakpoint }

/-- Scores outside the accepted range are capped. -/
def capScore (message : Message) : Message :=
  { message with
    score := if message.score < Score.min then Score.min
      else if Score.max < message.score then Score.max else message.score }

/-- A page that is not full is the last one. -/
def endPage (found : ℕ) : Prog Command (Answer ι) ε Bool :=
  if found < pageSize then do
    let _ ← cacheSet recoveryRunning "false"
    let _ ← cacheSet recoveryStorageBreakpointKey recoveryFinished
    pure true
  else pure true

variable [LinearOrder ι] (internalIds : InternalIds ι)

/-- Whether there is a document to recover. -/
def tryToStartRecovery : Prog Command (Answer ι) ε Bool := do
  match ← cacheSet recoveryRunning "true" with
  | .error _ => pure false
  | .ok _ =>
    match ← storageFind lastDocument with
    | .error _ => pure false
    | .ok [] => do
        let _ ← cacheSet recoveryStorageBreakpointKey recoveryFinished
        let _ ← cacheSet recoveryRunning "false"
        pure false
    | .ok (d :: _) => do
        let _ ← cacheSet recoveryBreakpointKey (getStringInternalId internalIds d)
        pure true

variable (order : MapOrder)

/-- Insert a page and move to its last document. -/
def insertPage (documents : List (Document ι)) : Prog Command (Answer ι) ε Bool := do
  match documents.getLast? with
  | none => endPage documents.length
  | some last =>
    match ← capture (addMessagesToCache order (documents.map fun d => capScore d.message)) with
    | .error _ => pure true
    | .ok _ => do
        let _ ← cacheSet recoveryStorageBreakpointKey (getStringInternalId internalIds last)
        endPage documents.length

/-- Recover the page that follows a breakpoint. -/
def recoverPage (breakpoint : String) : Prog Command (Answer ι) ε Bool := do
  match ← cacheGet recoveryBreakpointKey with
  | .error _ => pure true
  | .ok recoveryBreakpoint =>
    match ← storageFind (page breakpoint recoveryBreakpoint) with
    | .error _ => pure true
    | .ok documents => insertPage internalIds order documents

/-- One call of the recovery. It returns whether it had something to do. -/
def recoveryMessagesPool : Prog Command (Answer ι) ε Bool := do
  match ← cacheGet recoveryStorageBreakpointKey with
  | .error _ => pure true
  | .ok breakpoint =>
    if breakpoint = recoveryFinished then pure false else
    match ← isRecovering with
    | .error _ => pure true
    | .ok recovering =>
      if breakpoint = "" ∧ recovering = false then do
        let started ← tryToStartRecovery internalIds
        if started then recoverPage internalIds order breakpoint else pure true
      else recoverPage internalIds order breakpoint

/-- Query for the documents that have expired. -/
def expired (filterDate : Time) : FindOptions where
  sort := some [(.expiryDate, .ascending)]
  limit := 10000
  internalFilter := some { expiryDate := some filterDate }

/-- Remove the messages of the queues that are left. Before each queue the task looks
whether a shutdown is ongoing. -/
def removeQueues (messages : List Message) : (ℕ → Bool) → List String → QueueProg ι Unit
  | _, [] => pure ()
  | shutdown, queue :: queues =>
      if shutdown 0 then pure () else do
        let _ ← remove queue ((messages.filter fun m => m.queue = queue).map Message.id)
        removeQueues messages (fun i => shutdown (i + 1)) queues

/-- Remove messages queue by queue, up to the first error. -/
def removeMessages (shutdown : ℕ → Bool) (messages : List Message) :
    Prog Command (Answer ι) ε (Bool × Option QueueError) := do
  match ← capture (removeQueues messages shutdown (order.visit (queueNames messages))) with
  | .error e => pure (true, some e)
  | .ok _ => pure (true, none)

def removeExpired (shutdown : ℕ → Bool) (filterDate : Time) :
    Prog Command (Answer ι) ε (Bool × Option QueueError) := do
  match ← storageFind (expired filterDate) with
  | .error e => pure (true, some (.storage e))
  | .ok documents => removeMessages order shutdown (documents.map Document.message)

/-- Nothing is removed during a recovery. The answer is that of the task, with its error. -/
def removeTTLMessages (shutdown : ℕ → Bool) (filterDate : Time) :
    Prog Command (Answer ι) ε (Bool × Option QueueError) := do
  match ← isRecovering with
  | .error e => pure (false, some (.cache e))
  | .ok recovering =>
    if recovering then pure (false, none) else removeExpired order shutdown filterDate

end Queue

/-- What a thread works on: a request of a client or a call of the recovery. -/
inductive Task
  | client (request : Request)
  | recovery (order : MapOrder)

variable {ι : Type} [LinearOrder ι]

def Task.program (internalIds : InternalIds ι) : Task → Service.ServiceProg ι (Response ⊕ Bool)
  | .client request => .inl <$> request.program
  | .recovery order => .inr <$> Queue.recoveryMessagesPool internalIds order

/-- Requests of clients whose commands interleave with those of the recovery. -/
def Stores.recovering (stores : Stores ι) (κ : Type) [DecidableEq κ] :
    Runs.Machine (Threads (World ι) (Option κ) Command (Answer ι) ServiceError (Response ⊕ Bool))
      (Label (Option κ) Task) (Option (Except ServiceError (Response ⊕ Bool))) :=
  interleaved stores.handle (Task.program stores.internalIds)

/-- The text under a key of the cache. -/
def Stores.read (stores : Stores ι) (w : World ι) (key : String) : String :=
  (w.redis.str (stores.cache.generalCacheKey key)).getD ""

end Deckard
