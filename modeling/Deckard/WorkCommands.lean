import Deckard.Audited
import Deckard.Lifecycle
import Deckard.Monitors
import Deckard.ServiceCommands

/-!
# Commands of requests, recoveries and tasks

Which commands of the stores a thread of an instance may issue, whatever it is answered, and how
the entries for the auditor go with them: once a call of the cache has succeeded, an entry for each
message that it reports comes before any other command, and a message that the storage does not
have is announced before it is removed from the cache. The programs are gone through once, here;
the modules on the audit trail, the deliveries and the scheduler draw on the result.
-/
namespace Deckard.Audited

open Binary64 Effect Cache Program Prog Tasks Lifecycle

variable {ι ε ε' α β : Type}

/-- What a thread of an instance works on. -/
inductive Work
  | client (request : Request) (reason : String)
  | recovery (order : MapOrder)
  | task (background : Background)

def Work.program [LinearOrder ι] (internalIds : InternalIds ι) :
    Work → TaskProg ι ServiceError (Option Response)
  | .client request reason => some <$> Audited.program reason request
  | .recovery order => do
      let _ ← recoveryMessagesPool internalIds order
      pure none
  | .task background => do
      mapError .housekeeper background.program
      pure none

/-! ## What may be issued -/

/-- A recovery inserts messages that it has found, with their scores capped. -/
def RecoveryIssues (Found : Message → Prop) : Command → Prop
  | .cacheGet _ | .cacheSet .. | .storageFind _ => True
  | .cache (.insert _ messages) => ∀ m ∈ messages, ∃ found, Found found ∧ m = Queue.capScore found
  | _ => False

def TaskIssues : Command → Prop
  | .cacheGet _ | .storageFind _ | .storageRemove .. => True
  | .cache (.remove ..) | .cache (.unlockMessages ..) | .cache (.timeoutMessages ..) => True
  | _ => False

/-- The commands of the stores that a thread may issue, if only messages with `Found` are found. -/
def Work.Issues (Found : Message → Prop) : Work → Command → Prop
  | .client request _ => request.Issues
  | .recovery _ => RecoveryIssues Found
  | .task _ => TaskIssues

/-- Every pull asks for an amount that the cache accepts. -/
theorem Work.Issues.amountOk {Found : Message → Prop} {work : Work} {op : Op}
    (h : work.Issues Found (.cache op)) : op.AmountOk := by
  cases work with
  | client request reason => exact Request.Issues.amountOk h
  | recovery order | task background =>
    cases op with
    | pullMessages => exact h.elim
    | _ => trivial

/-- A condition on the commands of the stores. -/
def OnStores (P : Command → Prop) : TaskCommand → Prop
  | .call (.command c) => P c
  | _ => True

theorem OnStores.imp {P P' : Command → Prop} (h : ∀ c, P c → P' c) (c : TaskCommand)
    (hc : OnStores P c) : OnStores P' c := by
  cases c with
  | call c =>
    cases c with
    | command c => exact h c hc
    | _ => trivial
  | _ => trivial

/-! ## Entries that are due -/

/-- What a call of the cache reports of a message. -/
inductive Report
  | inserted
  | settled
  | unlocked
  | timedOut
  deriving DecidableEq

/-- The report that an entry with the signal announces. A removal is announced whether or not the
cache had the message, and a missing document before the cache is called. -/
def Signal.report : Signal → Option Report
  | .insertCache => some .inserted
  | .ack | .nack => some .settled
  | .unlock => some .unlocked
  | .timeout => some .timedOut
  | .remove | .missingStorage => none

/-- What an entry is about: a report or, without one, a removal, with the queue and the id of the
message. -/
abbrev Subject := Option Report × String × String

def subject (entry : Entry) : Subject := (Signal.report entry.signal, entry.queue, entry.id)

/-- The entries that are due after a call with its result. -/
def due : Call → List Subject
  | (.insert queue _, .ids l) => l.map fun id => (some .inserted, queue, id)
  | (.makeAvailable message, .flag _) => [(some .settled, message.queue, message.id)]
  | (.lockMessage _ message _, .flag _) => [(some .settled, message.queue, message.id)]
  | (.unlockMessages _ queue _, .ids l) => l.map fun id => (some .unlocked, queue, id)
  | (.timeoutMessages _ queue, .ids l) => l.map fun id => (some .timedOut, queue, id)
  | (.remove queue ids, .count _) => ids.map fun id => (none, queue, id)
  | _ => []

/-- After a failed call nothing is due. -/
theorem due_error (op : Op) (e : CacheError) : due (op, .error e) = [] := by
  cases op <;> rfl

/-- Where a program is between its calls of the cache and their entries. -/
inductive Phase
  | owing (subjects : List Subject)
  | missing (queue : String) (ids : List String)

abbrev Phase.clear : Phase := .owing []

namespace Phase

/-- What is due comes first. Messages are announced as missing one after the other, and then they
are removed together. -/
def allows : Phase → TaskCommand → Prop
  | .owing [], .store entry => entry.signal = .missingStorage
  | .owing [], _ => True
  | .owing (due :: _), .store entry => subject entry = due
  | .missing queue _, .store entry => entry.signal = .missingStorage ∧ entry.queue = queue
  | .missing queue ids, .call (.command c) => c = .cache (.remove queue ids)
  | _, _ => False

def next : Phase → (c : TaskCommand) → TaskAnswer ι c → Phase
  | .owing [], .call (.command (.cache op)), answer => .owing (due (op, op.outcome answer))
  | .owing [], .store entry, _ => .missing entry.queue [entry.id]
  | .owing (_ :: subjects), .store _, _ => .owing subjects
  | .missing queue ids, .store entry, _ => .missing queue (ids ++ [entry.id])
  | .missing _ _, .call _, _ => .clear
  | phase, _, _ => phase

end Phase

/-- The messages that a query finds satisfy `Found`. -/
def finds (Found : Message → Prop) : (c : TaskCommand) → TaskAnswer ι c → Prop
  | .call (.command (.storageFind _)), answer =>
      ∀ documents, answer = .ok documents → ∀ d ∈ documents, Found d.message
  | _, _ => True

/-- The order of calls and entries, where the commands of the stores satisfy `P`. -/
def auditing (P : Command → Prop) (Found : Message → Prop) :
    Monitor Phase TaskCommand (TaskAnswer ι) where
  allows phase c := OnStores P c ∧ phase.allows c
  expects := finds Found
  next := Phase.next

theorem finds_true (c : TaskCommand) (answer : TaskAnswer ι c) :
    finds (fun _ => True) c answer := by
  unfold finds
  split
  · exact fun _ _ _ _ => trivial
  · trivial

/-- From the phase on, the program issues commands with `P` only, and stores the entries that are
due. -/
abbrev Conforms (P : Command → Prop) (Found : Message → Prop) (phase : Phase)
    (p : TaskProg ι ε α) : Prop :=
  Obeys (auditing P Found) phase p fun _ t => t = .clear

variable {P : Command → Prop} {Found : Message → Prop} {phase : Phase}

theorem conforms_ret (a : α) : Conforms P Found .clear (.ret a : TaskProg ι ε α) := rfl

theorem Conforms.bind {p : TaskProg ι ε α} {f : α → TaskProg ι ε β} (h : Conforms P Found phase p)
    (hf : ∀ a, Conforms P Found .clear (f a)) : Conforms P Found phase (p >>= f) := by
  refine Obeys.bind _ h ?_ fun _ _ ht => ht
  rintro a _ rfl
  exact hf a

theorem Conforms.mapError {f : ε → ε'} {p : TaskProg ι ε α} (h : Conforms P Found phase p) :
    Conforms P Found phase (mapError f p) :=
  Obeys.mapError h

theorem Conforms.capture {p : TaskProg ι ε α} (h : Conforms P Found phase p) :
    Conforms P Found phase (capture p : TaskProg ι ε' (Except ε α)) :=
  Obeys.capture h

/-- A command after which nothing is due. -/
theorem conforms_call {c : TaskCommand} {next : TaskAnswer ι c → TaskProg ι ε α}
    (hc : OnStores P c) (hallows : Phase.clear.allows c)
    (hclear : ∀ r, Phase.clear.next (ι := ι) c r = .clear)
    (h : ∀ r, finds Found c r → Conforms P Found .clear (next r)) :
    Conforms P Found .clear (.call c next) := by
  refine ⟨⟨hc, hallows⟩, fun r hr => ?_⟩
  change Obeys _ (Phase.clear.next c r) _ _
  rw [hclear r]
  exact h r hr

/-- A call of the cache, with what comes after its error and after its value. -/
theorem conforms_cache {op : Op} {next : Answer ι (.cache op) → TaskProg ι ε α}
    (hop : P (.cache op)) (herror : ∀ e, Conforms P Found .clear (next (.error e)))
    (hok : ∀ a, Conforms P Found (.owing (due (op, op.result a))) (next (.ok a))) :
    Conforms P Found .clear (.call (.call (.command (.cache op))) next) := by
  refine ⟨⟨hop, trivial⟩, fun r _ => ?_⟩
  rcases r with e | a
  · change Obeys _ (Phase.owing (due (op, .error e))) _ _
    rw [due_error]
    exact herror e
  · exact hok a

theorem conforms_storeEntries {report : Option Report} {queue : String} {entry : String → Entry}
    (h : ∀ id, subject (entry id) = (report, queue, id)) (ids : List String) :
    Conforms P Found (.owing (ids.map fun id => (report, queue, id)))
      (storeEntries entry ids : TaskProg ι ε Unit) := by
  induction ids with
  | nil => rfl
  | cons id ids ih => exact ⟨⟨trivial, h id⟩, fun _ _ => ih⟩

/-- The command is no call of the cache. -/
def Plain : Command → Prop
  | .cache _ => False
  | _ => True

theorem conforms_command {c : Command} {next : Answer ι c → TaskProg ι ε α} (hc : P c)
    (hplain : Plain c) (h : ∀ r, finds Found (.call (.command c)) r →
      Conforms P Found .clear (next r)) :
    Conforms P Found .clear (.call (.call (.command c)) next) := by
  refine conforms_call hc trivial (fun r => ?_) h
  cases c with
  | cache op => exact hplain.elim
  | _ => rfl

theorem conforms_lift {p : Prog Command (Answer ι) ε α} (h : All (fun c => P c ∧ Plain c) p) :
    Conforms P Found .clear (lift p) := by
  induction p with
  | ret a => rfl
  | fail e => rfl
  | call c next ih => exact conforms_command h.1.1 h.1.2 fun r _ => ih r (h.2 r)

/-! ## The functions of the queue -/

theorem conforms_addQueues {reason : String} {messages : List Message} {queues : List String}
    (h : ∀ queue ∈ queues,
      P (.cache (.insert queue (messages.filter fun m => m.queue = queue)))) :
    Conforms P Found .clear (addQueues reason messages queues : TaskProg ι QueueError ℕ) := by
  induction queues with
  | nil => rfl
  | cons queue queues ih =>
    obtain ⟨hqueue, hqueues⟩ := List.forall_mem_cons.mp h
    refine conforms_cache hqueue (fun _ => rfl) fun insertions => ?_
    refine (conforms_storeEntries (fun id => rfl) insertions).bind fun _ => ?_
    exact (ih hqueues).bind fun _ => conforms_ret _

theorem conforms_settle {signal : Signal} (hsignal : Signal.report signal = some .settled)
    {write : Message → Command} {lockType : LockType} {clock : Clock} {message : Message}
    {reason : String} (hwrite : P (write message)) (hplain : Plain (write message))
    (hlock : 0 < message.lockMs → P (.cache (.lockMessage clock message lockType)))
    (hmake : ¬ 0 < message.lockMs → P (.cache (.makeAvailable message))) :
    Conforms P Found .clear
      (settle signal write lockType clock message reason : TaskProg ι QueueError Bool) := by
  have hstore : ∀ result : Bool,
      Conforms P Found (.owing [(some .settled, message.queue, message.id)]) (do
        perform (TaskCommand.store (settledEntry signal reason message))
        pure result : TaskProg ι QueueError Bool) := by
    intro result
    refine ⟨⟨trivial, ?_⟩, fun _ _ => rfl⟩
    change (Signal.report signal, message.queue, message.id) = _
    rw [hsignal]
  unfold settle Queue.settle
  split_ifs with hqueue hid hlocks
  · rfl
  · rfl
  · refine conforms_command hwrite hplain fun _ _ => ?_
    exact conforms_cache (hlock hlocks) (fun _ => rfl) hstore
  · refine conforms_command hwrite hplain fun _ _ => ?_
    exact conforms_cache (hmake hlocks) (fun _ => rfl) hstore

theorem conforms_remove {queue reason : String} {ids : List String}
    (hstorage : P (.storageRemove queue ids)) (hcache : P (.cache (.remove queue ids))) :
    Conforms P Found .clear (Tasks.remove queue reason ids : TaskProg ι QueueError (ℕ × ℕ)) := by
  refine conforms_command hstorage trivial fun storageCount _ => ?_
  refine conforms_cache hcache (fun _ => rfl) fun cacheCount => ?_
  exact (conforms_storeEntries (fun id => rfl) ids).bind fun _ => conforms_ret _

/-- The ids that are missing are announced one by one. -/
theorem conforms_missing {queue : String} (ids ids' : List String)
    {p : TaskProg ι ε α} (h : Conforms P Found (.missing queue (ids ++ ids')) p) :
    Conforms P Found (.missing queue ids) (do
      storeEntries (fun id => { id := id, queue := queue, signal := .missingStorage }) ids'
      p) := by
  induction ids' generalizing ids with
  | nil =>
    rw [List.append_nil] at h
    exact h
  | cons id ids' ih =>
    refine ⟨⟨trivial, rfl, rfl⟩, fun _ _ => ih _ ?_⟩
    rw [List.append_assoc]
    exact h

theorem conforms_removeMissing {queue : String} {ids : List String}
    (hremove : P (.cache (.remove queue ids))) {p : TaskProg ι QueueError α}
    (h : Conforms P Found .clear p) :
    Conforms P Found .clear (do
      storeEntries (fun id => { id := id, queue := queue, signal := .missingStorage }) ids
      lift (Queue.removeMissing queue ids)
      p) := by
  cases ids with
  | nil => exact h
  | cons id ids =>
    refine ⟨⟨trivial, rfl⟩, fun _ _ => conforms_missing [id] ids ?_⟩
    exact ⟨⟨hremove, rfl⟩, fun _ _ => h⟩

theorem conforms_pull {clock : Clock} {queue : String} {n d : Int64}
    {minScore maxScore : Option Float64}
    (hpull : P (.cache (.pullMessages clock queue n minScore maxScore d)))
    (hfind : ∀ ids retry, P (.storageFind (Queue.findOptions ids queue retry)))
    (hremove : ∀ ids, P (.cache (.remove queue ids))) :
    Conforms P Found .clear (pull clock queue n minScore maxScore d : TaskProg ι QueueError _) := by
  have hget : ∀ ids retry, Conforms P Found .clear
      (lift (Queue.getFromStorage ids queue retry) : TaskProg ι QueueError _) :=
    fun ids retry => conforms_lift (all_getFromStorage ⟨hfind ids retry, trivial⟩)
  refine conforms_cache hpull (fun _ => rfl) fun ids => ?_
  change Conforms P Found .clear (if ids = [] then pure none else _)
  split_ifs
  · rfl
  refine (hget ids false).bind fun found => ?_
  dsimp only
  split_ifs
  · rfl
  refine (hget _ true).bind fun retry => ?_
  exact conforms_removeMissing (hremove _) (conforms_ret _)

theorem conforms_unlockMessages {clock : Clock} {queue : String} {lockType : LockType}
    (h : P (.cache (.unlockMessages clock queue lockType))) :
    Conforms P Found .clear
      (unlockMessages clock queue lockType : TaskProg ι QueueError (List String)) := by
  refine conforms_cache h (fun _ => rfl) fun ids => ?_
  exact (conforms_storeEntries (fun id => rfl) ids).bind fun _ => conforms_ret ids

theorem conforms_timeoutMessages {clock : Clock} {queue : String}
    (h : P (.cache (.timeoutMessages clock queue))) :
    Conforms P Found .clear
      (Tasks.timeoutMessages clock queue : TaskProg ι QueueError (List String)) := by
  refine conforms_cache h (fun _ => rfl) fun ids => ?_
  exact (conforms_storeEntries (fun id => rfl) ids).bind fun _ => conforms_ret ids

/-! ## The requests -/

theorem conforms_serviceRemove {request : RemoveRequest}
    (hstorage : P (.storageRemove request.queue request.ids))
    (hcache : P (.cache (.remove request.queue request.ids))) :
    Conforms P Found .clear
      (Service.remove request : TaskProg ι ServiceError RemoveResponse) := by
  unfold Service.remove
  split_ifs
  · rfl
  · exact ((conforms_remove hstorage hcache).bind fun _ => conforms_ret _).mapError

theorem conforms_settled {request : AckRequest}
    (hstorage : P (.storageRemove request.queue [request.id]))
    (hcache : P (.cache (.remove request.queue [request.id]))) (result : Bool) :
    Conforms P Found .clear
      (Service.settled request result : TaskProg ι ServiceError AckResponse) := by
  unfold Service.settled
  split_ifs
  · exact ((conforms_serviceRemove hstorage hcache).bind fun _ => conforms_ret _).mapError
  · rfl

theorem conforms_program (reason : String) (request : Request) :
    Conforms request.Issues Found .clear
      (program reason request : TaskProg ι ServiceError Response) := by
  cases request with
  | add zone clock order ms =>
    refine Conforms.bind (Conforms.mapError ?_) fun _ => conforms_ret _
    refine Conforms.bind (conforms_lift ?_) fun counts => ?_
    · exact all_bind ((all_perform _).mpr ⟨.inl rfl, trivial⟩) fun _ => all_attempt _ _
    · refine Conforms.bind (conforms_addQueues fun queue hqueue => ?_) fun _ => conforms_ret _
      obtain ⟨m, hm, rfl⟩ := mem_visit_queueNames.mp hqueue
      exact .inr ⟨m, hm, rfl⟩
  | pull clock request =>
    refine Conforms.bind (Conforms.mapError ?_) fun _ => conforms_ret _
    refine Conforms.bind (conforms_pull (.inl rfl) ?_ ?_) fun _ => conforms_ret _
    · exact fun ids retry => .inr (.inl ⟨ids, retry, rfl⟩)
    · exact fun ids => .inr (.inr ⟨ids, rfl⟩)
  | ack clock request | nack clock request =>
    refine Conforms.bind (Conforms.bind (Conforms.mapError ?_) fun result => ?_)
      fun _ => conforms_ret _
    · exact conforms_settle rfl (.inl rfl) trivial (fun h => .inr (.inl ⟨h, rfl⟩))
        fun h => .inr (.inr (.inl ⟨h, rfl⟩))
    · exact conforms_settled (.inr (.inr (.inr (.inl rfl)))) (.inr (.inr (.inr (.inr rfl)))) result
  | remove request =>
    exact (conforms_serviceRemove (.inl rfl) (.inr rfl)).bind fun _ => conforms_ret _
  | unlockMessages clock queue lockType =>
    refine Conforms.bind (Conforms.mapError ?_) fun _ => conforms_ret _
    exact conforms_unlockMessages rfl
  | timeoutMessages clock queue =>
    refine Conforms.bind (Conforms.mapError ?_) fun _ => conforms_ret _
    exact conforms_timeoutMessages rfl

/-! ## The tasks -/

/-- A poll, a listing or a count. -/
theorem conforms_ask {c : TaskCommand} (hc : OnStores P c) (hallows : Phase.clear.allows c)
    (hclear : ∀ r, Phase.clear.next (ι := ι) c r = .clear) {f : TaskAnswer ι c → TaskProg ι ε α}
    (h : ∀ r, Conforms P Found .clear (f r)) : Conforms P Found .clear (perform c >>= f) :=
  conforms_call hc hallows hclear fun r _ => h r

theorem conforms_ongoing {f : Bool → TaskProg ι ε α} (h : ∀ b, Conforms P Found .clear (f b)) :
    Conforms P Found .clear (ongoing >>= f) :=
  conforms_ask (c := TaskCommand.ongoing) trivial trivial (fun _ => rfl) h

theorem conforms_timeoutQueues (clock : String → Clock) (queues : List String) :
    Conforms TaskIssues Found .clear (timeoutQueues clock queues : TaskProg ι ε Unit) := by
  induction queues with
  | nil => rfl
  | cons queue queues ih =>
    refine conforms_ongoing fun b => ?_
    split_ifs
    · rfl
    refine conforms_ask (c := .contextCanceled) trivial trivial (fun _ => rfl) fun b => ?_
    split_ifs
    · rfl
    exact (conforms_timeoutMessages trivial).capture.bind fun _ => ih

theorem conforms_unlockQueues (clock : String → Clock) (lockType : LockType)
    (queues : List String) :
    Conforms TaskIssues Found .clear
      (Tasks.unlockMessages clock lockType queues : TaskProg ι ε Unit) := by
  induction queues with
  | nil => rfl
  | cons queue queues ih =>
    refine conforms_ongoing fun b => ?_
    split_ifs
    · rfl
    refine conforms_cache ?_ (fun _ => ih) fun ids => ?_
    · trivial
    · exact (conforms_storeEntries (fun id => rfl) ids).bind fun _ => ih

theorem conforms_processLockPool (clock : LockType → String → Clock) :
    Conforms TaskIssues Found .clear (processLockPool clock : TaskProg ι ε Unit) := by
  refine conforms_ask (c := .call (.listQueues ..)) trivial trivial (fun _ => rfl)
    fun answer => ?_
  rcases answer with e | queues
  · rfl
  refine (conforms_unlockQueues _ _ _).bind fun _ => conforms_ongoing fun b => ?_
  split_ifs
  · rfl
  refine conforms_ask (c := .call (.listQueues ..)) trivial trivial (fun _ => rfl)
    fun answer => ?_
  rcases answer with e | queues
  · rfl
  · exact conforms_unlockQueues _ _ _

theorem conforms_processTimeoutMessages (clock : String → Clock) :
    Conforms TaskIssues Found .clear
      (processTimeoutMessages clock : TaskProg ι ε (Option CacheError)) := by
  refine conforms_ask (c := .call (.listQueues ..)) trivial trivial (fun _ => rfl)
    fun answer => ?_
  rcases answer with e | queues
  · rfl
  · exact (conforms_timeoutQueues _ _).bind fun _ => conforms_ret _

theorem conforms_removeQueues (messages : List Message) (queues : List String) :
    Conforms TaskIssues Found .clear
      (removeQueues messages queues : TaskProg ι QueueError Unit) := by
  induction queues with
  | nil => rfl
  | cons queue queues ih =>
    refine conforms_ongoing fun b => ?_
    split_ifs
    · rfl
    · exact (conforms_remove trivial trivial).bind fun _ => ih

theorem conforms_removeTTLMessages (order : MapOrder) (filterDate : Time) :
    Conforms TaskIssues Found .clear (removeTTLMessages order filterDate : TaskProg ι ε _) := by
  refine conforms_command trivial trivial fun answer _ => ?_
  rcases answer with e | value
  · rfl
  change Conforms TaskIssues Found .clear (if _ then _ else _)
  split_ifs
  · rfl
  refine conforms_command trivial trivial fun answer _ => ?_
  rcases answer with e | documents
  · rfl
  refine (conforms_removeQueues _ _).capture.bind fun result => ?_
  rcases result with e | _
  · rfl
  · rfl

theorem conforms_removeExceedingMessagesFromQueue (configuration : Option QueueConfiguration) :
    Conforms TaskIssues Found .clear
      (removeExceedingMessagesFromQueue configuration : TaskProg ι QueueError Unit) := by
  cases configuration with
  | none => rfl
  | some c =>
    simp only [removeExceedingMessagesFromQueue]
    split_ifs
    · rfl
    refine conforms_ask (c := .call (.count _)) trivial trivial (fun _ => rfl) fun answer => ?_
    rcases answer with e | total
    · rfl
    dsimp only
    split_ifs
    · rfl
    refine conforms_command trivial trivial fun answer _ => ?_
    rcases answer with e | documents
    · rfl
    · exact (conforms_remove trivial trivial).bind fun _ => conforms_ret _

theorem conforms_removeExceedingFrom (configurations : List QueueConfiguration) :
    Conforms TaskIssues Found .clear (removeExceedingFrom configurations : TaskProg ι ε Unit) := by
  induction configurations with
  | nil => rfl
  | cons c configurations ih =>
    refine conforms_ongoing fun b => ?_
    split_ifs
    · rfl
    · exact (conforms_removeExceedingMessagesFromQueue _).capture.bind fun _ => ih

theorem conforms_removeExceedingMessages :
    Conforms TaskIssues Found .clear
      (removeExceedingMessages : TaskProg ι ε (Bool × Option CacheError)) := by
  refine conforms_command trivial trivial fun answer _ => ?_
  rcases answer with e | value
  · rfl
  change Conforms TaskIssues Found .clear (if _ then _ else _)
  split_ifs
  · rfl
  refine conforms_ask (c := .call .listQueueConfigurations) trivial trivial (fun _ => rfl)
    fun answer => ?_
  rcases answer with e | configurations
  · rfl
  · exact (conforms_removeExceedingFrom _).bind fun _ => conforms_ret _

theorem conforms_background (background : Background) :
    Conforms TaskIssues Found .clear (background.program : TaskProg ι QueueError Unit) := by
  cases background with
  | unlock clock => exact conforms_processLockPool clock
  | timeout clock => exact (conforms_processTimeoutMessages clock).bind fun _ => conforms_ret _
  | ttl order filterDate =>
    exact (conforms_removeTTLMessages order filterDate).bind fun _ => conforms_ret _
  | maxElements => exact conforms_removeExceedingMessages.bind fun _ => conforms_ret _

/-! ## The recovery -/

theorem conforms_endPage (found : ℕ) :
    Conforms (RecoveryIssues Found) Found .clear
      (lift (Queue.endPage found) : TaskProg ι ε Bool) := by
  unfold Queue.endPage
  split_ifs
  · refine conforms_command trivial trivial fun _ _ => ?_
    exact conforms_command trivial trivial fun _ _ => rfl
  · rfl

section Recovery

variable [LinearOrder ι] (internalIds : InternalIds ι) (order : MapOrder)

theorem conforms_tryToStartRecovery :
    Conforms (RecoveryIssues Found) Found .clear
      (lift (Queue.tryToStartRecovery internalIds) : TaskProg ι ε Bool) := by
  refine conforms_command trivial trivial fun answer _ => ?_
  rcases answer with e | _
  · rfl
  refine conforms_command trivial trivial fun answer _ => ?_
  rcases answer with e | (_ | ⟨d, documents⟩)
  · rfl
  · refine conforms_command trivial trivial fun _ _ => ?_
    exact conforms_command trivial trivial fun _ _ => rfl
  · exact conforms_command trivial trivial fun _ _ => rfl

theorem conforms_insertPage {documents : List (Document ι)}
    (h : ∀ d ∈ documents, Found d.message) :
    Conforms (RecoveryIssues Found) Found .clear
      (insertPage internalIds order documents : TaskProg ι ε Bool) := by
  unfold insertPage
  cases documents.getLast? with
  | none => exact conforms_endPage _
  | some last =>
    refine Conforms.bind (Conforms.capture (conforms_addQueues fun queue _ m hm => ?_))
      fun result => ?_
    · obtain ⟨d, hd, rfl⟩ := List.mem_map.mp (List.mem_of_mem_filter hm)
      exact ⟨d.message, h d hd, rfl⟩
    rcases result with e | n
    · rfl
    · exact conforms_command trivial trivial fun _ _ => conforms_endPage _

theorem conforms_recoverPage (breakpoint : String) :
    Conforms (RecoveryIssues Found) Found .clear
      (recoverPage internalIds order breakpoint : TaskProg ι ε Bool) := by
  refine conforms_command trivial trivial fun answer _ => ?_
  rcases answer with e | recoveryBreakpoint
  · rfl
  refine conforms_command trivial trivial fun answer hfound => ?_
  rcases answer with e | documents
  · rfl
  · exact conforms_insertPage internalIds order (hfound documents rfl)

theorem conforms_recoveryMessagesPool :
    Conforms (RecoveryIssues Found) Found .clear
      (recoveryMessagesPool internalIds order : TaskProg ι ε Bool) := by
  refine conforms_command trivial trivial fun answer _ => ?_
  rcases answer with e | breakpoint
  · rfl
  change Conforms _ Found .clear (if _ then _ else _)
  split_ifs
  · rfl
  refine conforms_command trivial trivial fun answer _ => ?_
  rcases answer with e | value
  · rfl
  change Conforms _ Found .clear (if _ then _ else _)
  split_ifs
  · refine (conforms_tryToStartRecovery internalIds).bind fun started => ?_
    split_ifs
    · exact conforms_recoverPage internalIds order breakpoint
    · rfl
  · exact conforms_recoverPage internalIds order breakpoint

/-- Whatever a thread is answered, it issues no other commands of the stores, and every entry that
is due is stored. -/
theorem conforms_work (work : Work) :
    Conforms (work.Issues Found) Found .clear (work.program internalIds) := by
  cases work with
  | client request reason => exact (conforms_program reason request).bind fun _ => conforms_ret _
  | recovery order =>
    exact (conforms_recoveryMessagesPool internalIds order).bind fun _ => conforms_ret _
  | task background =>
    exact (conforms_background background).mapError.bind fun _ => conforms_ret _

theorem work_onStores (work : Work) :
    All (OnStores (work.Issues fun _ => True)) (work.program internalIds) :=
  (conforms_work internalIds work).all finds_true fun _ _ h => h.1

end Recovery

end Deckard.Audited
