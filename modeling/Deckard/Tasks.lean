import Deckard.Audit
import Deckard.Exceeding
import Deckard.Housekeeper
import Deckard.Release

/-!
# Tasks of the housekeeper with their polls and audit entries

A task calls the stores, looks before each queue whether a shutdown is ongoing, and stores an
audit entry for each id that a call has moved or removed. While there is no shutdown, it does to
the stores what the calls of the queue do without an auditor.
-/
namespace Deckard.Tasks

open Effect Cache Program Prog

/-- The calls of the stores that a task makes. -/
inductive StoreCall
  | command (c : Command)
  | count (opt : FindOptions)
  | listQueues (pattern : String) (poolType : RedisCache.PoolType)
  | listQueueConfigurations

abbrev StoreCall.Answer (ι : Type) : StoreCall → Type
  | .command c => Deckard.Answer ι c
  | .count _ => Except StorageError ℕ
  | .listQueues .. => Except CacheError (List String)
  | .listQueueConfigurations => Except StorageError (List QueueConfiguration)

/-- Beside the stores a task asks for the shutdown and for its context, and calls the auditor. -/
inductive TaskCommand
  | call (c : StoreCall)
  | ongoing
  | contextCanceled
  | store (entry : Entry)

abbrev TaskAnswer (ι : Type) : TaskCommand → Type
  | .call c => c.Answer ι
  | .ongoing | .contextCanceled => Bool
  | .store _ => Unit

abbrev TaskProg (ι ε α : Type) := Prog TaskCommand (TaskAnswer ι) ε α

variable {ι ε α : Type}

def ongoing : TaskProg ι ε Bool := perform TaskCommand.ongoing

def contextCanceled : TaskProg ι ε Bool := perform TaskCommand.contextCanceled

def count (opt : FindOptions) : TaskProg ι ε (Except StorageError ℕ) :=
  perform (TaskCommand.call (.count opt))

def listQueues (pattern : String) (poolType : RedisCache.PoolType) :
    TaskProg ι ε (Except CacheError (List String)) :=
  perform (TaskCommand.call (.listQueues pattern poolType))

def listQueueConfigurations : TaskProg ι ε (Except StorageError (List QueueConfiguration)) :=
  perform (TaskCommand.call .listQueueConfigurations)

/-- A program of the queue as a part of a task. -/
def lift : Prog Command (Answer ι) ε α → TaskProg ι ε α
  | .ret a => .ret a
  | .fail e => .fail e
  | .call c next => .call (.call (.command c)) fun r => lift (next r)

/-- Store an entry for each id. -/
def storeEntries (entry : String → Entry) : List String → TaskProg ι ε Unit
  | [] => pure ()
  | id :: ids => do
      perform (TaskCommand.store (entry id))
      storeEntries entry ids

def timeoutMessages (clock : Clock) (queue : String) : TaskProg ι QueueError (List String) := do
  let ids ← lift (Queue.timeoutMessages clock queue)
  storeEntries (fun id => { id := id, queue := queue, signal := .timeout }) ids
  pure ids

/-- The loop of `ProcessTimeoutMessages`. An error of one queue does not end it. -/
def timeoutQueues (clock : String → Clock) : List String → TaskProg ι ε Unit
  | [] => pure ()
  | queue :: queues => do
      if ← ongoing then pure () else
      if ← contextCanceled then pure () else
      let _ ← capture (timeoutMessages (clock queue) queue)
      timeoutQueues clock queues

def processTimeoutMessages (clock : String → Clock) : TaskProg ι ε (Option CacheError) := do
  match ← listQueues "*" .processingPool with
  | .error e => pure (some e)
  | .ok queues =>
      timeoutQueues clock queues
      pure none

def unlockMessages (clock : String → Clock) (lockType : LockType) :
    List String → TaskProg ι ε Unit
  | [] => pure ()
  | queue :: queues => do
      if ← ongoing then pure () else
      match ← capture (lift (Queue.unlockMessages (clock queue) queue lockType)) with
      | .error (_ : QueueError) => unlockMessages clock lockType queues
      | .ok ids =>
          storeEntries (fun id =>
            { id := id, queue := queue, signal := .unlock, reason := lockType.text }) ids
          unlockMessages clock lockType queues

def processLockPool (clock : LockType → String → Clock) : TaskProg ι ε Unit := do
  match ← listQueues "*" .lockAckPool with
  | .error _ => pure ()
  | .ok lockAckQueues =>
      unlockMessages (clock .lockAck) .lockAck lockAckQueues
      if ← ongoing then pure () else
      match ← listQueues "*" .lockNackPool with
      | .error _ => pure ()
      | .ok lockNackQueues => unlockMessages (clock .lockNack) .lockNack lockNackQueues

def remove (queue reason : String) (ids : List String) : TaskProg ι QueueError (ℕ × ℕ) := do
  let removed ← lift (Queue.remove queue ids)
  storeEntries (fun id => { id := id, queue := queue, signal := .remove, reason := reason }) ids
  pure removed

/-- The loop of `RemoveTTLMessages`. An error ends it. -/
def removeQueues (messages : List Message) : List String → TaskProg ι QueueError Unit
  | [] => pure ()
  | queue :: queues => do
      if ← ongoing then pure () else
      let _ ← remove queue "TTL" ((messages.filter fun m => m.queue = queue).map Message.id)
      removeQueues messages queues

def removeMessages (order : MapOrder) (messages : List Message) :
    TaskProg ι ε (Bool × Option QueueError) := do
  match ← capture (removeQueues messages (order.visit (Queue.queueNames messages))) with
  | .error e => pure (true, some e)
  | .ok _ => pure (true, none)

def removeExpired (order : MapOrder) (filterDate : Time) :
    TaskProg ι ε (Bool × Option QueueError) := do
  match ← lift (Queue.storageFind (Queue.expired filterDate)) with
  | .error e => pure (true, some (.storage e))
  | .ok documents => removeMessages order (documents.map Document.message)

def removeTTLMessages (order : MapOrder) (filterDate : Time) :
    TaskProg ι ε (Bool × Option QueueError) := do
  match ← lift Queue.isRecovering with
  | .error e => pure (false, some (.cache e))
  | .ok recovering => if recovering then pure (false, none) else removeExpired order filterDate

/-- Remove the messages of a queue that are too many, of which there are `diff`. -/
def removeFirst (queue : String) (diff : ℤ) : TaskProg ι QueueError Unit := do
  match ← lift (Queue.storageFind (MemoryStorage.exceeding queue diff)) with
  | .error e => .fail (.storage e)
  | .ok documents =>
      let _ ← remove queue "MAX_ELEMENTS" (documents.map fun d => d.message.id)
      pure ()

def removeExceedingMessagesFromQueue : Option QueueConfiguration → TaskProg ι QueueError Unit
  | none => pure ()
  | some c =>
      if c.maxElements ≤ 0 ∨ c.queue = "" then pure () else do
      match ← count (Queue.counted c.queue) with
      | .error e => .fail (.storage e)
      | .ok total =>
          if (total : ℤ) ≤ c.maxElements.toInt then pure ()
          else removeFirst c.queue (total - c.maxElements.toInt)

/-- The loop of `RemoveExceedingMessages`. An error of one queue does not end it. -/
def removeExceedingFrom : List QueueConfiguration → TaskProg ι ε Unit
  | [] => pure ()
  | configuration :: configurations => do
      if ← ongoing then pure () else
      let _ ← capture (removeExceedingMessagesFromQueue (some configuration))
      removeExceedingFrom configurations

def removeExceedingMessages : TaskProg ι ε (Bool × Option CacheError) := do
  match ← lift Queue.isRecovering with
  | .error e => pure (false, some e)
  | .ok recovering =>
      if recovering then pure (false, none) else
      match ← listQueueConfigurations with
      | .error _ => pure (true, none)
      | .ok configurations =>
          removeExceedingFrom configurations
          pure (true, none)

/-- The tasks that are registered on `shutdown.WaitGroup` and call the auditor. -/
inductive Background
  | unlock (clock : LockType → String → Clock)
  | timeout (clock : String → Clock)
  | ttl (order : MapOrder) (filterDate : Time)
  | maxElements

def Background.program : Background → TaskProg ι QueueError Unit
  | .unlock clock => processLockPool clock
  | .timeout clock => do
      let _ ← processTimeoutMessages clock
      pure ()
  | .ttl order filterDate => do
      let _ ← removeTTLMessages order filterDate
      pure ()
  | .maxElements => do
      let _ ← removeExceedingMessages
      pure ()

/-- The list of the memory cache that a listing looks at. -/
def memoryPool : RedisCache.PoolType → MemoryPool
  | .primaryPool => .active
  | .processingPool => .processing
  | .lockAckPool => .lock .lockAck
  | .lockNackPool => .lock .lockNack

/-- `ListQueues` of the memory cache: `order` is the runtime's visit of the map and `matchGlob`
the matching of patterns. -/
def memoryQueues (matchGlob : String → String → Bool) (order : List String) (pattern : String)
    (poolType : RedisCache.PoolType) (c : MemoryCache) : Except CacheError (List String) :=
  .ok (order.filter fun queue =>
    matchGlob queue pattern && !(c.pool (memoryPool poolType) queue).entries.isEmpty)

/-! ## Without the entries -/

section Erasure

variable {ε' β : Type}

/-- Without its entries the task is a program of the queue. -/
inductive Erases : TaskProg ι ε α → Prog Command (Answer ι) ε α → Prop
  | ret (a : α) : Erases (.ret a) (.ret a)
  | fail (e : ε) : Erases (.fail e) (.fail e)
  | command (c : Command) (next : Answer ι c → TaskProg ι ε α)
      (next' : Answer ι c → Prog Command (Answer ι) ε α) :
      (∀ r, Erases (next r) (next' r)) → Erases (.call (.call (.command c)) next) (.call c next')
  | store (entry : Entry) (next : Unit → TaskProg ι ε α) (q : Prog Command (Answer ι) ε α) :
      Erases (next ()) q → Erases (.call (.store entry) next) q

theorem erases_lift (p : Prog Command (Answer ι) ε α) : Erases (lift p) p := by
  induction p with
  | ret a => exact .ret a
  | fail e => exact .fail e
  | call c next ih => exact .command c _ _ ih

variable {p : TaskProg ι ε α} {q : Prog Command (Answer ι) ε α}

theorem Erases.bind {f : α → TaskProg ι ε β} {g : α → Prog Command (Answer ι) ε β}
    (h : Erases p q) (hf : ∀ a, Erases (f a) (g a)) : Erases (p >>= f) (q >>= g) := by
  induction h with
  | ret a => exact hf a
  | fail e => exact .fail e
  | command c next next' _ ih => exact .command c _ _ ih
  | store entry next q _ ih => exact .store entry _ _ ih

theorem Erases.mapError {f : ε → ε'} (h : Erases p q) :
    Erases (Prog.mapError f p) (Prog.mapError f q) := by
  induction h with
  | ret a => exact .ret a
  | fail e => exact .fail (f e)
  | command c next next' _ ih => exact .command c _ _ ih
  | store entry next q _ ih => exact .store entry _ _ ih

theorem Erases.capture (h : Erases p q) :
    Erases (Prog.capture p : TaskProg ι ε' (Except ε α)) (Prog.capture q) := by
  induction h with
  | ret a => exact .ret _
  | fail e => exact .ret _
  | command c next next' _ ih => exact .command c _ _ ih
  | store entry next q _ ih => exact .store entry _ _ ih

/-- Entries that are stored before a program. -/
theorem Erases.storing (h : Erases p q) (entry : String → Entry) (ids : List String) :
    Erases (storeEntries entry ids >>= fun _ => p) q := by
  induction ids with
  | nil => exact h
  | cons id ids ih => exact .store (entry id) _ _ ih

/-- Entries that are stored for the result of a program. -/
theorem Erases.stored (h : Erases p q) (entry : α → String → Entry) (ids : α → List String) :
    Erases (p >>= fun a => storeEntries (entry a) (ids a) >>= fun _ => pure a) q := by
  induction h with
  | ret a => exact (Erases.ret a).storing _ _
  | fail e => exact .fail e
  | command c next next' _ ih => exact .command c _ _ ih
  | store entry next q _ ih => exact .store entry _ _ ih

theorem erases_remove (queue reason : String) (ids : List String) :
    Erases (remove queue reason ids : TaskProg ι QueueError (ℕ × ℕ)) (Queue.remove queue ids) :=
  (erases_lift _).stored (fun _ _ => _) fun _ => ids

end Erasure

/-! ## Without a shutdown -/

section Undisturbed

variable {ω σ ρ β : Type}

/-- While there is no shutdown, every poll is denied and every entry is taken. -/
def undisturbed (calls : (c : StoreCall) → ω → c.Answer ι × ω) :
    (c : TaskCommand) → ω → TaskAnswer ι c × ω
  | .call c, w => calls c w
  | .ongoing, w => (false, w)
  | .contextCanceled, w => (false, w)
  | .store _, w => ((), w)

/-- The calls of a storage and a cache. What the tasks list is given. -/
def handle (storage : StorageCalls ι σ) (cache : CacheCalls ρ)
    (queues : String → RedisCache.PoolType → ρ → Except CacheError (List String))
    (configurations : Except StorageError (List QueueConfiguration)) :
    (c : StoreCall) → σ × ρ → c.Answer ι × (σ × ρ)
  | .command c, w => Deckard.handle storage cache c w
  | .count opt, w => (storage.count opt w.1, w)
  | .listQueues pattern poolType, w => (queues pattern poolType w.2, w)
  | .listQueueConfigurations, w => (configurations, w)

variable {calls : (c : StoreCall) → ω → c.Answer ι × ω} {w : ω}

theorem run_storeEntries (entry : String → Entry) (ids : List String) :
    run (undisturbed calls) (storeEntries entry ids : TaskProg ι ε Unit) w = (.ok (), w) := by
  induction ids with
  | nil => rfl
  | cons id ids ih => exact ih

/-- The command of the queue among the calls. -/
def commands (calls : (c : StoreCall) → ω → c.Answer ι × ω) (c : Command) : ω → Answer ι c × ω :=
  calls (.command c)

/-- Undisturbed, a task does what a program of the queue does. -/
def Matches (calls : (c : StoreCall) → ω → c.Answer ι × ω) (p : TaskProg ι ε α)
    (q : Prog Command (Answer ι) ε α) : Prop :=
  ∀ w, run (undisturbed calls) p w = run (commands calls) q w

theorem Erases.matches {p : TaskProg ι ε α} {q : Prog Command (Answer ι) ε α} (h : Erases p q) :
    Matches calls p q := by
  intro w
  induction h generalizing w with
  | ret a => rfl
  | fail e => rfl
  | command c next next' _ ih => exact ih _ _
  | store entry next q _ ih => exact ih w

theorem matches_lift (p : Prog Command (Answer ι) ε α) : Matches calls (lift p) p :=
  (erases_lift p).matches

theorem Matches.bind {p : TaskProg ι ε α} {q : Prog Command (Answer ι) ε α}
    {f : α → TaskProg ι ε β} {g : α → Prog Command (Answer ι) ε β} (h : Matches calls p q)
    (hf : ∀ a, Matches calls (f a) (g a)) : Matches calls (p >>= f) (q >>= g) := by
  intro w
  rw [run_bind, run_bind, h w]
  rcases run (commands calls) q w with ⟨_ | a, t⟩
  · rfl
  · exact hf a t

theorem Matches.capture {ε' : Type} {p : TaskProg ι ε α} {q : Prog Command (Answer ι) ε α}
    (h : Matches calls p q) :
    Matches calls (Prog.capture p : TaskProg ι ε' (Except ε α)) (Prog.capture q) := by
  intro w
  rw [run_capture, run_capture, h w]

theorem matches_removeQueues (messages : List Message) (queues : List String) :
    Matches calls (removeQueues messages queues)
      (Queue.removeQueues messages (fun _ => false) queues) := by
  induction queues with
  | nil => exact fun w => rfl
  | cons queue queues ih => exact (erases_remove queue "TTL" _).matches.bind fun _ => ih

/-- Undisturbed, the removal of expired messages is that of the queue. -/
theorem matches_removeTTLMessages (order : MapOrder) (filterDate : Time) :
    Matches calls (removeTTLMessages order filterDate : TaskProg ι ε _)
      (Queue.removeTTLMessages order (fun _ => false) filterDate) := by
  refine (matches_lift _).bind fun recovering => ?_
  rcases recovering with e | recovering
  · exact fun w => rfl
  cases recovering with
  | true => exact fun w => rfl
  | false =>
    refine (matches_lift _).bind fun documents => ?_
    rcases documents with e | documents
    · exact fun w => rfl
    refine (matches_removeQueues _ _).capture.bind fun result => ?_
    rcases result with e | _
    · exact fun w => rfl
    · exact fun w => rfl

variable {storage : StorageCalls ι σ} {cache : CacheCalls ρ}
  {queues : String → RedisCache.PoolType → ρ → Except CacheError (List String)}
  {configurations : Except StorageError (List QueueConfiguration)}

/-- Undisturbed, the removal of exceeding messages is that of the queue. -/
theorem run_removeExceedingMessagesFromQueue (c : Option QueueConfiguration) (w : σ × ρ) :
    run (undisturbed (handle storage cache queues configurations))
        (removeExceedingMessagesFromQueue c) w =
      Queue.removeExceedingMessagesFromQueue storage cache c w := by
  cases c with
  | none => rfl
  | some c =>
    simp only [removeExceedingMessagesFromQueue, Queue.removeExceedingMessagesFromQueue]
    split_ifs with hnone
    · rfl
    rw [run_bind]
    change andThen (.ok (storage.count (Queue.counted c.queue) w.1), w) _ = _
    rw [andThen_ok, exec]
    cases storage.count (Queue.counted c.queue) w.1 with
    | error e => rfl
    | ok total =>
      dsimp only
      split_ifs with htotal
      · rfl
      rw [removeFirst, run_bind, matches_lift]
      change andThen (.ok (storage.find (MemoryStorage.exceeding c.queue _) w.1), w) _ = _
      rw [andThen_ok, exec]
      cases storage.find (MemoryStorage.exceeding c.queue (total - c.maxElements.toInt)) w.1 with
      | error e => rfl
      | ok documents =>
        dsimp only [pure_eq]
        rw [run_bind_ret, (erases_remove _ _ _).matches]
        rfl

end Undisturbed

/-! ## The tasks that release due messages -/

section Releasing

variable {σ : Type} (storage : StorageCalls ι σ)
  (configurations : Except StorageError (List QueueConfiguration)) (cache : RedisCache)
  (scan : Redis.Scan)

/-- The calls of a storage and of the Redis cache. -/
def redisCalls : (c : StoreCall) → σ × Redis → c.Answer ι × (σ × Redis) :=
  handle storage cache.calls
    (fun pattern poolType s => (exec (cache.listQueues scan pattern poolType) s).1) configurations

/-- The calls as the programs of the queue make them. -/
theorem run_cacheOp (op : Op) (w : σ × Redis) :
    run (commands (redisCalls storage configurations cache scan))
        (perform (Command.cache op) >>= Queue.attempt QueueError.cache) w =
      ((exec (cache.perform op) w.2).1.mapError .cache,
        (w.1, (exec (cache.perform op) w.2).2)) := by
  change run _ (Queue.attempt QueueError.cache (exec (cache.perform op) w.2).1) _ = _
  cases (exec (cache.perform op) w.2).1 with
  | error e => rfl
  | ok ids => rfl

theorem run_unlockMessages (clock : String → Clock) (lockType : LockType) (queues : List String)
    (w : σ × Redis) :
    run (undisturbed (redisCalls storage configurations cache scan))
        (unlockMessages clock lockType queues : TaskProg ι ε Unit) w =
      (.ok (), (w.1, queues.foldl
        (fun s queue => (exec (cache.unlockMessages (clock queue) queue lockType) s).2) w.2)) := by
  induction queues generalizing w with
  | nil => rfl
  | cons queue queues ih =>
    change run _ (capture (lift (Queue.unlockMessages (clock queue) queue lockType)) >>= _) w = _
    rw [run_capture_bind, matches_lift, Queue.unlockMessages, run_cacheOp, List.foldl_cons]
    cases (exec (cache.perform (.unlockMessages (clock queue) queue lockType)) w.2).1 with
    | error e => exact ih _
    | ok ids =>
      change run _ (storeEntries _ ids >>= _) _ = _
      rw [run_bind, run_storeEntries, andThen_ok]
      exact ih _

theorem run_timeoutQueues (clock : String → Clock) (queues : List String) (w : σ × Redis) :
    run (undisturbed (redisCalls storage configurations cache scan))
        (timeoutQueues clock queues : TaskProg ι ε Unit) w =
      (.ok (), (w.1, queues.foldl
        (fun s queue => (exec (cache.timeoutMessages (clock queue) queue) s).2) w.2)) := by
  induction queues generalizing w with
  | nil => rfl
  | cons queue queues ih =>
    change run _ (capture (timeoutMessages (clock queue) queue) >>= _) w = _
    have hmatches : Matches (redisCalls storage configurations cache scan)
        (timeoutMessages (clock queue) queue) (Queue.timeoutMessages (clock queue) queue) :=
      ((erases_lift _).stored (fun _ _ => _) fun ids => ids).matches
    rw [run_capture_bind, hmatches, Queue.timeoutMessages, run_cacheOp, List.foldl_cons]
    exact ih _

/-- A listing changes nothing. -/
theorem exec_listQueues_snd (pattern : String) (poolType : RedisCache.PoolType) (s : Redis) :
    (exec (cache.listQueues scan pattern poolType) s).2 = s := by
  rw [RedisCache.listQueues, RedisCache.scanKeys, exec_bind, exec_wrap, exec_bind, exec_gets,
    andThen_ok]
  cases scan s (cache.key pattern poolType.pool) with
  | error e => rfl
  | ok keys => rfl

theorem run_listQueues {α : Type} (pattern : String) (poolType : RedisCache.PoolType)
    (f : Except CacheError (List String) → TaskProg ι ε α) (w : σ × Redis) :
    run (undisturbed (redisCalls storage configurations cache scan))
        (listQueues pattern poolType >>= f) w =
      run (undisturbed (redisCalls storage configurations cache scan))
        (f (exec (cache.listQueues scan pattern poolType) w.2).1) w := rfl

theorem exec_timeoutQueues (clock : String → Clock) (queues : List String) (s : Redis) :
    ∃ results, exec ((Housekeeper.visited (fun _ => false) queues).mapM fun queue => do
        let result ← attempt (cache.timeoutMessages (clock queue) queue)
        return (queue, result)) s =
      ((.ok results, queues.foldl
        (fun s queue => (exec (cache.timeoutMessages (clock queue) queue) s).2) s) :
          Except CacheError _ × Redis) := by
  rw [Housekeeper.visited_never]
  exact exec_mapM_attempt queues (fun queue => cache.timeoutMessages (clock queue) queue) id s

theorem exec_unlockMessages (clock : String → Clock) (lockType : LockType) (queues : List String)
    (s : Redis) :
    ∃ results, exec (Housekeeper.unlockMessages cache (fun _ => false) clock queues lockType) s =
      (.ok results, queues.foldl
        (fun s queue => (exec (cache.unlockMessages (clock queue) queue lockType) s).2) s) := by
  rw [Housekeeper.unlockMessages, Housekeeper.visited_never]
  exact exec_mapM_attempt queues (fun queue => cache.unlockMessages (clock queue) queue lockType)
    (fun queue => (lockType, queue)) s

/-- Undisturbed, the task leaves Redis as the pass over the processing pools does. -/
theorem run_processTimeoutMessages (clock : String → Clock) (w : σ × Redis) :
    (run (undisturbed (redisCalls storage configurations cache scan))
        (processTimeoutMessages clock : TaskProg ι ε _) w).2 =
      (w.1, (exec (Housekeeper.processTimeoutMessages cache scan (fun _ => false) clock)
        w.2).2) := by
  rw [processTimeoutMessages, run_listQueues, Housekeeper.processTimeoutMessages, exec_bind]
  have hsame := exec_listQueues_snd cache scan "*" .processingPool w.2
  rcases hlist : exec (cache.listQueues scan "*" .processingPool) w.2 with ⟨e | queues, s⟩
  · rw [hlist] at hsame
    rw [andThen_error]
    exact congrArg (Prod.mk w.1) hsame.symm
  · rw [hlist] at hsame
    cases hsame
    obtain ⟨results, hresults⟩ := exec_timeoutQueues cache clock queues w.2
    rw [andThen_ok, hresults]
    dsimp only
    rw [run_bind, run_timeoutQueues]
    rfl

/-- Undisturbed, the task leaves Redis as the pass over the lock pools does. -/
theorem run_processLockPool (clock : LockType → String → Clock) (w : σ × Redis) :
    (run (undisturbed (redisCalls storage configurations cache scan))
        (processLockPool clock : TaskProg ι ε _) w).2 =
      (w.1, (exec (Housekeeper.processLockPool cache scan (fun _ _ => false) false clock)
        w.2).2) := by
  rw [processLockPool, run_listQueues, Housekeeper.processLockPool, exec_bind, exec_attempt,
    andThen_ok, exec_listQueues_snd]
  cases (exec (cache.listQueues scan "*" .lockAckPool) w.2).1 with
  | error e => rfl
  | ok queues =>
    obtain ⟨acks, hacks⟩ := exec_unlockMessages cache (clock .lockAck) .lockAck queues w.2
    dsimp only
    rw [run_bind, run_unlockMessages, andThen_ok, exec_bind, hacks, andThen_ok]
    generalize queues.foldl _ w.2 = s
    change (run _ (listQueues "*" .lockNackPool >>= _) (w.1, s)).2 =
      (w.1, (exec (attempt _ >>= _) s).2)
    rw [run_listQueues, exec_bind, exec_attempt, andThen_ok, exec_listQueues_snd]
    cases (exec (cache.listQueues scan "*" .lockNackPool) s).1 with
    | error e => rfl
    | ok queues =>
      obtain ⟨nacks, hnacks⟩ := exec_unlockMessages cache (clock .lockNack) .lockNack queues s
      dsimp only
      rw [run_unlockMessages, exec_bind, hnacks]
      rfl

end Releasing

end Deckard.Tasks
