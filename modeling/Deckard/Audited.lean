import Deckard.Tasks

/-!
# The queue with its auditor

The functions of the queue store an audit entry for each message that they insert, settle, release
or remove. Entries change nothing else: a request does to the stores what it does without an
auditor, and answers the same.
-/
namespace Deckard.Audited

open Binary64 Effect Cache Program Prog Tasks

variable {ι ε α : Type}

/-- A call of the cache that inserts the messages of a queue. -/
def insertInto (queue : String) (messages : List Message) : Queue.QueueProg ι (List String) := do
  let answer ← perform (.cache (.insert queue messages))
  Queue.attempt .insertingCacheData answer

/-- The loop of `AddMessagesToCacheWithAuditReason`. The entries of a queue are stored before the
next queue is inserted. -/
def addQueues (reason : String) (messages : List Message) :
    List String → TaskProg ι QueueError ℕ
  | [] => pure 0
  | queue :: queues => do
      let insertions ← lift (insertInto queue (messages.filter fun m => m.queue = queue))
      storeEntries (fun id =>
        { id := id, queue := queue, signal := .insertCache, reason := reason }) insertions
      let count ← addQueues reason messages queues
      pure (insertions.length + count)

def addMessagesToCacheWithAuditReason (order : MapOrder) (reason : String)
    (messages : List Message) : TaskProg ι QueueError ℕ :=
  addQueues reason messages (order.visit (Queue.queueNames messages))

def addMessagesToCache (order : MapOrder) (messages : List Message) : TaskProg ι QueueError ℕ :=
  addMessagesToCacheWithAuditReason order "" messages

/-- The entry of a message that has been acknowledged or not; it is stored whatever the cache has
answered, unless that was an error. -/
def settledEntry (signal : Signal) (reason : String) (message : Message) : Entry where
  id := message.id
  queue := message.queue
  lastScoreSubtract := message.lastScoreSubtract
  breakpoint := message.breakpoint
  signal := signal
  reason := reason
  lockMs := if 0 < message.lockMs then message.lockMs else 0

def settle (signal : Signal) (write : Message → Command) (lockType : LockType) (clock : Clock)
    (message : Message) (reason : String) : TaskProg ι QueueError Bool := do
  let result ← lift (Queue.settle write lockType clock message)
  perform (TaskCommand.store (settledEntry signal reason message))
  pure result

def nack : Clock → Message → String → TaskProg ι QueueError Bool :=
  settle .nack .storageNack .lockNack

def ack : Clock → Message → String → TaskProg ι QueueError Bool :=
  settle .ack .storageAck .lockAck

def pull (clock : Clock) (queue : String) (n : Int64) (minScore maxScore : Option Float64)
    (ackDeadlineMs : Int64) : TaskProg ι QueueError (Option (List Message)) := do
  let answer ← lift (perform
    (.cache (.pullMessages clock queue n minScore maxScore ackDeadlineMs)))
  let ids ← lift (Queue.attempt .cache answer)
  if ids = [] then pure none else
  let (messages, notFound) ← lift (Queue.getFromStorage ids queue false)
  if notFound = [] then pure (some messages) else
  let (retryMessages, retryNotFound) ← lift (Queue.getFromStorage notFound queue true)
  storeEntries (fun id => { id := id, queue := queue, signal := .missingStorage }) retryNotFound
  lift (Queue.removeMissing queue retryNotFound)
  pure (Queue.merge messages retryMessages)

/-- One queue of the loop of `ProcessLockPool`. -/
def unlockMessages (clock : Clock) (queue : String) (lockType : LockType) :
    TaskProg ι QueueError (List String) := do
  let ids ← lift (Queue.unlockMessages clock queue lockType)
  storeEntries (fun id =>
    { id := id, queue := queue, signal := .unlock, reason := lockType.text }) ids
  pure ids

/-! ## The service -/

namespace Service

def add (zone : Zone) (clock : Clock) (order : MapOrder) (request : List AddMessage) :
    TaskProg ι ServiceError (ℕ × ℕ) :=
  mapError (fun _ => .addingMessages) do
    let messages := Service.addedMessages zone clock request
    let counts ← lift (Queue.addMessagesToStorage (clock (2 * request.length)) messages)
    let _ ← addMessagesToCache order messages
    pure counts

def pull (clock : Clock) (request : PullRequest) : TaskProg ι ServiceError (List ResponseMessage) :=
  mapError (fun _ => .pullingMessages) do
    let messages ← Audited.pull (fun i => clock (i + 1)) request.queue
      (Service.pullAmount request.amount) (Score.getPullMinScore request.minScore)
      (Score.getPullMaxScore (Service.pullMaxScore (clock 0) request)) request.ackDeadlineMs
    pure ((messages.getD []).map Service.responseMessage)

def remove (request : RemoveRequest) : TaskProg ι ServiceError RemoveResponse :=
  if request.ids = [] then pure ⟨0, 0⟩
  else mapError (fun _ => .removingMessages) do
    let (cacheRemoved, storageRemoved) ← Tasks.remove request.queue "REQUEST" request.ids
    pure ⟨cacheRemoved, storageRemoved⟩

def removeMessageFromAckNack (request : AckRequest) : TaskProg ι ServiceError AckResponse :=
  mapError (fun _ => .messageRemovalAck) do
    let removeResp ← remove { ids := [request.id], queue := request.queue }
    pure { success := true, removalResponse := some removeResp }

def settled (request : AckRequest) (result : Bool) : TaskProg ι ServiceError AckResponse :=
  if request.removeMessage then removeMessageFromAckNack request
  else pure { success := result }

def ack (clock : Clock) (request : AckRequest) (reason : String) :
    TaskProg ι ServiceError AckResponse := do
  let result ← mapError (fun _ => .messageAck)
    (Audited.ack (fun i => clock (i + 2)) (Service.ackMessage clock request) reason)
  settled request result

def nack (clock : Clock) (request : AckRequest) (reason : String) :
    TaskProg ι ServiceError AckResponse := do
  let result ← mapError (fun _ => .messageNack)
    (Audited.nack (fun i => clock (i + 1)) (Service.nackMessage request) reason)
  settled request result

end Service

/-- A request with the reason that it carries to the auditor. -/
def program (reason : String) : Request → TaskProg ι ServiceError Response
  | .add zone clock order messages => do
      let counts ← Service.add zone clock order messages
      pure (.added counts.1 counts.2)
  | .pull clock request => .pulled <$> Service.pull clock request
  | .ack clock request => .settled <$> Service.ack clock request reason
  | .nack clock request => .settled <$> Service.nack clock request reason
  | .remove request => .removed <$> Service.remove request
  | .unlockMessages clock queue lockType =>
      .released <$> mapError .housekeeper (unlockMessages clock queue lockType)
  | .timeoutMessages clock queue =>
      .released <$> mapError .housekeeper (Tasks.timeoutMessages clock queue)

/-! ## The recovery -/

section Recovery

variable [LinearOrder ι] (internalIds : InternalIds ι) (order : MapOrder)

def insertPage (documents : List (Document ι)) : TaskProg ι ε Bool := do
  match documents.getLast? with
  | none => lift (Queue.endPage documents.length)
  | some last =>
    match ← capture (addMessagesToCacheWithAuditReason order "recovery"
        (documents.map fun d => Queue.capScore d.message)) with
    | .error _ => pure true
    | .ok _ => lift do
        let _ ← Queue.cacheSet recoveryStorageBreakpointKey
          (MongoStorage.getStringInternalId internalIds last)
        Queue.endPage documents.length

def recoverPage (breakpoint : String) : TaskProg ι ε Bool := do
  match ← lift (Queue.cacheGet recoveryBreakpointKey) with
  | .error _ => pure true
  | .ok recoveryBreakpoint =>
    match ← lift (Queue.storageFind (Queue.page breakpoint recoveryBreakpoint)) with
    | .error _ => pure true
    | .ok documents => insertPage internalIds order documents

def recoveryMessagesPool : TaskProg ι ε Bool := do
  match ← lift (Queue.cacheGet recoveryStorageBreakpointKey) with
  | .error _ => pure true
  | .ok breakpoint =>
    if breakpoint = recoveryFinished then pure false else
    match ← lift Queue.isRecovering with
    | .error _ => pure true
    | .ok recovering =>
      if breakpoint = "" ∧ recovering = false then do
        let started ← lift (Queue.tryToStartRecovery internalIds)
        if started then recoverPage internalIds order breakpoint else pure true
      else recoverPage internalIds order breakpoint

end Recovery

/-! ## Entries change nothing else -/

theorem erases_addQueues (reason : String) (messages : List Message) (queues : List String) :
    Erases (addQueues reason messages queues : TaskProg ι QueueError ℕ)
      (Queue.addQueues messages queues) := by
  induction queues with
  | nil => exact .ret 0
  | cons queue queues ih =>
    refine Erases.command _ _ _ fun answer => ?_
    rcases answer with e | insertions
    · exact .fail _
    · exact (ih.bind fun _ => .ret _).storing _ insertions

theorem erases_settle (signal : Signal) (write : Message → Command) (lockType : LockType)
    (clock : Clock) (message : Message) (reason : String) :
    Erases (settle signal write lockType clock message reason : TaskProg ι QueueError Bool)
      (Queue.settle write lockType clock message) :=
  (erases_lift _).stored (fun _ _ => settledEntry signal reason message) fun _ => [message.id]

theorem erases_pull (clock : Clock) (queue : String) (n : Int64)
    (minScore maxScore : Option Float64) (ackDeadlineMs : Int64) :
    Erases (pull clock queue n minScore maxScore ackDeadlineMs : TaskProg ι QueueError _)
      (Queue.pull clock queue n minScore maxScore ackDeadlineMs) := by
  refine (erases_lift _).bind fun answer => (erases_lift _).bind fun ids => ?_
  split_ifs
  · exact .ret _
  refine (erases_lift _).bind fun found => ?_
  dsimp only
  split_ifs
  · exact .ret _
  refine (erases_lift _).bind fun retry => Erases.storing ?_ _ _
  exact (erases_lift _).bind fun _ => .ret _

theorem erases_settled (request : AckRequest) (result : Bool) :
    Erases (Service.settled request result : TaskProg ι ServiceError AckResponse)
      (Deckard.Service.settled request result) := by
  unfold Service.settled Deckard.Service.settled
  split_ifs
  · refine .mapError (.bind ?_ fun _ => .ret _)
    exact .mapError ((erases_remove _ _ _).bind fun _ => .ret _)
  · exact .ret _

/-- A request that is audited is the request with some entries. -/
theorem erases_program (reason : String) (request : Request) :
    Erases (program reason request : TaskProg ι ServiceError Response) request.program := by
  cases request with
  | add zone clock order messages =>
    refine Erases.bind (.mapError ((erases_lift _).bind fun counts => ?_)) fun _ => .ret _
    exact (erases_addQueues _ _ _).bind fun _ => .ret _
  | pull clock request =>
    refine Erases.bind (.mapError ?_) fun _ => .ret _
    exact (erases_pull _ _ _ _ _ _).bind fun _ => .ret _
  | ack clock request | nack clock request =>
    refine Erases.bind (.bind (.mapError (erases_settle _ _ _ _ _ _)) ?_) fun _ => .ret _
    exact erases_settled request
  | remove request =>
    refine Erases.bind ?_ fun _ => .ret _
    unfold Service.remove Deckard.Service.remove
    split_ifs
    · exact .ret _
    · exact .mapError ((erases_remove _ _ _).bind fun _ => .ret _)
  | unlockMessages clock queue lockType | timeoutMessages clock queue =>
    refine Erases.bind (.mapError ?_) fun _ => .ret _
    exact (erases_lift _).stored (fun _ => _) fun ids => ids

section Recovery

variable [LinearOrder ι] (internalIds : InternalIds ι) (order : MapOrder)

theorem erases_insertPage (documents : List (Document ι)) :
    Erases (insertPage internalIds order documents : TaskProg ι ε Bool)
      (Queue.insertPage internalIds order documents) := by
  unfold insertPage Queue.insertPage
  cases documents.getLast? with
  | none => exact erases_lift _
  | some last =>
    refine (erases_addQueues _ _ _).capture.bind fun result => ?_
    rcases result with e | n
    · exact .ret _
    · exact erases_lift _

theorem erases_recoverPage (breakpoint : String) :
    Erases (recoverPage internalIds order breakpoint : TaskProg ι ε Bool)
      (Queue.recoverPage internalIds order breakpoint) := by
  refine (erases_lift _).bind fun answer => ?_
  rcases answer with e | recoveryBreakpoint
  · exact .ret _
  refine (erases_lift _).bind fun found => ?_
  rcases found with e | documents
  · exact .ret _
  · exact erases_insertPage internalIds order documents

/-- A call of the recovery that is audited is the call with some entries. -/
theorem erases_recoveryMessagesPool :
    Erases (recoveryMessagesPool internalIds order : TaskProg ι ε Bool)
      (Queue.recoveryMessagesPool internalIds order) := by
  refine (erases_lift _).bind fun answer => ?_
  rcases answer with e | breakpoint
  · exact .ret _
  dsimp only
  split_ifs with hfinished
  · exact .ret _
  refine (erases_lift _).bind fun recovering => ?_
  rcases recovering with e | recovering
  · exact .ret _
  dsimp only
  split_ifs with hstart
  · refine (erases_lift _).bind fun started => ?_
    split_ifs
    · exact erases_recoverPage internalIds order breakpoint
    · exact .ret _
  · exact erases_recoverPage internalIds order breakpoint

end Recovery

end Deckard.Audited
