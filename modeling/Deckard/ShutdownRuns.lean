import Deckard.AuditRuns
import Deckard.Shutdown

/-!
# Tasks in flight during a shutdown

A task that has entries left to store when the sender closes the channel panics. One that comes
to its next poll first stores nothing any more: a poll that tells of a shutdown ends every loop.
So no run ends in a panic in which the tasks are before a poll when the channel is closed.
-/
namespace Deckard.Shutdown

open Auditor Cache Program Prog Runs Tasks

variable {ω ι : Type}

/-! ## Polls -/

section Polls

variable {ε ε' α β : Type}

/-- At a poll the answer is that there is a shutdown; nothing may be stored. -/
def quietAt : (c : TaskCommand) → (TaskAnswer ι c → Prop) → Prop
  | .ongoing, rest => rest true
  | .store _, _ => False
  | .call _, rest => ∀ r, rest r
  | .contextCanceled, rest => ∀ r, rest r

/-- Nothing is stored if every poll tells of a shutdown. -/
def Quiet : TaskProg ι ε α → Prop := Satisfies quietAt

/-- Nothing is asked from a poll on; until then nothing may be stored. -/
def pollsFirstAt : (c : TaskCommand) → (TaskAnswer ι c → Prop) → Prop
  | .ongoing, _ => True
  | .store _, _ => False
  | .call _, rest => ∀ r, rest r
  | .contextCanceled, rest => ∀ r, rest r

/-- Nothing is stored before the next poll. -/
def PollsFirst : TaskProg ι ε α → Prop := Satisfies pollsFirstAt

/-- Every poll that tells of a shutdown is the end of the storing. -/
def Stops : TaskProg ι ε α → Prop
  | .ret _ | .fail _ => True
  | .call .ongoing next => Quiet (next true) ∧ ∀ r, Stops (next r)
  | .call (.store _) next => ∀ r, Stops (next r)
  | .call (.call _) next => ∀ r, Stops (next r)
  | .call .contextCanceled next => ∀ r, Stops (next r)

variable {p : TaskProg ι ε α} {f : α → TaskProg ι ε β}

theorem Stops.quiet (hstops : Stops p) (hfirst : PollsFirst p) : Quiet p := by
  induction p with
  | ret a => trivial
  | fail e => trivial
  | call c next ih =>
    cases c with
    | ongoing => exact hstops.1
    | store entry => exact hfirst.elim
    | call c => exact fun r => ih r (hstops r) (hfirst r)
    | contextCanceled => exact fun r => ih r (hstops r) (hfirst r)

theorem Stops.next {c : TaskCommand} {next : TaskAnswer ι c → TaskProg ι ε α}
    (h : Stops (.call c next)) (r : TaskAnswer ι c) : Stops (next r) := by
  cases c with
  | ongoing => exact h.2 r
  | store entry => exact h r
  | call c => exact h r
  | contextCanceled => exact h r

theorem upward_quietAt : Upward (quietAt : (c : TaskCommand) → (TaskAnswer ι c → Prop) → Prop) := by
  intro c rest rest' himp h
  cases c with
  | ongoing => exact himp true h
  | store entry => exact h
  | call c => exact fun r => himp r (h r)
  | contextCanceled => exact fun r => himp r (h r)

theorem upward_pollsFirstAt :
    Upward (pollsFirstAt : (c : TaskCommand) → (TaskAnswer ι c → Prop) → Prop) := by
  intro c rest rest' himp h
  cases c with
  | ongoing => trivial
  | store entry => exact h
  | call c => exact fun r => himp r (h r)
  | contextCanceled => exact fun r => himp r (h r)

theorem Stops.bind (hp : Stops p) (hf : ∀ a, Stops (f a)) (hfirst : ∀ a, PollsFirst (f a)) :
    Stops (p >>= f) := by
  induction p with
  | ret a => exact hf a
  | fail e => trivial
  | call c next ih =>
    cases c with
    | ongoing =>
      exact ⟨Satisfies.bind upward_quietAt hp.1 fun a => (hf a).quiet (hfirst a),
        fun r => ih r (hp.2 r)⟩
    | store entry => exact fun r => ih r (hp r)
    | call c => exact fun r => ih r (hp r)
    | contextCanceled => exact fun r => ih r (hp r)

/-- A part without polls leaves it to the rest. -/
theorem stops_bind (hp : All (· ≠ .ongoing) p) (hf : ∀ a, Stops (f a)) : Stops (p >>= f) := by
  induction p with
  | ret a => exact hf a
  | fail e => trivial
  | call c next ih =>
    cases c with
    | ongoing => exact absurd rfl hp.1
    | store entry => exact fun r => ih r (hp.2 r)
    | call c => exact fun r => ih r (hp.2 r)
    | contextCanceled => exact fun r => ih r (hp.2 r)

theorem Stops.capture (hp : Stops p) : Stops (Prog.capture p : TaskProg ι ε' (Except ε α)) := by
  induction p with
  | ret a => trivial
  | fail e => trivial
  | call c next ih =>
    cases c with
    | ongoing => exact ⟨Satisfies.capture upward_quietAt hp.1, fun r => ih r (hp.2 r)⟩
    | store entry => exact fun r => ih r (hp r)
    | call c => exact fun r => ih r (hp r)
    | contextCanceled => exact fun r => ih r (hp r)

theorem noPoll_lift (p : Prog Command (Answer ι) ε α) : All (· ≠ .ongoing) (lift p) := by
  induction p with
  | ret a => trivial
  | fail e => trivial
  | call c next ih => exact ⟨TaskCommand.noConfusion, ih⟩

theorem noPoll_storeEntries (entry : String → Entry) (ids : List String) :
    All (· ≠ .ongoing) (storeEntries entry ids : TaskProg ι ε Unit) := by
  induction ids with
  | nil => trivial
  | cons id ids ih => exact ⟨TaskCommand.noConfusion, fun _ => ih⟩

theorem noPoll_timeoutMessages (clock : Clock) (queue : String) :
    All (· ≠ .ongoing) (timeoutMessages clock queue : TaskProg ι QueueError _) :=
  all_bind (noPoll_lift _) fun ids => all_bind (noPoll_storeEntries _ ids) fun _ => trivial

theorem noPoll_remove (queue reason : String) (ids : List String) :
    All (· ≠ .ongoing) (remove queue reason ids : TaskProg ι QueueError _) :=
  all_bind (noPoll_lift _) fun _ => all_bind (noPoll_storeEntries _ ids) fun _ => trivial

/-! ## The tasks -/

/-- A loop that a poll may end. -/
theorem stops_guarded {a : α} (hp : Stops p) :
    Stops (ongoing >>= fun stopping => if stopping = true then pure a else p) := by
  refine ⟨trivial, fun stopping => ?_⟩
  cases stopping with
  | true => trivial
  | false => exact hp

theorem stops_timeoutQueues (clock : String → Clock) (queues : List String) :
    Stops (timeoutQueues clock queues : TaskProg ι ε Unit) := by
  induction queues with
  | nil => trivial
  | cons queue queues ih =>
    have hcontext : All (· ≠ .ongoing) (contextCanceled : TaskProg ι ε Bool) :=
      ⟨TaskCommand.noConfusion, fun _ => trivial⟩
    refine stops_guarded (stops_bind hcontext fun canceled => ?_)
    cases canceled with
    | true => trivial
    | false => exact stops_bind (all_capture (noPoll_timeoutMessages _ queue)) fun _ => ih

theorem stops_unlockMessages (clock : String → Clock) (lockType : LockType)
    (queues : List String) : Stops (unlockMessages clock lockType queues : TaskProg ι ε Unit) := by
  induction queues with
  | nil => trivial
  | cons queue queues ih =>
    refine stops_guarded (stops_bind (all_capture (noPoll_lift _)) fun result => ?_)
    cases result with
    | error e => exact ih
    | ok ids => exact stops_bind (noPoll_storeEntries _ ids) fun _ => ih

theorem stops_removeQueues (messages : List Message) (queues : List String) :
    Stops (removeQueues messages queues : TaskProg ι QueueError Unit) := by
  induction queues with
  | nil => trivial
  | cons queue queues ih =>
    exact stops_guarded (stops_bind (noPoll_remove queue "TTL" _) fun _ => ih)

theorem noPoll_removeExceedingMessagesFromQueue (c : Option QueueConfiguration) :
    All (· ≠ .ongoing) (removeExceedingMessagesFromQueue c : TaskProg ι QueueError Unit) := by
  cases c with
  | none => trivial
  | some c =>
    rw [removeExceedingMessagesFromQueue]
    split_ifs with hnone
    · trivial
    refine ⟨TaskCommand.noConfusion, fun total => ?_⟩
    cases total with
    | error e => trivial
    | ok total =>
      change All _ (if (total : ℤ) ≤ c.maxElements.toInt then pure () else removeFirst c.queue _)
      split_ifs with htotal
      · trivial
      refine all_bind (noPoll_lift _) fun documents => ?_
      cases documents with
      | error e => trivial
      | ok documents => exact all_bind (noPoll_remove _ _ _) fun _ => trivial

theorem stops_removeExceedingFrom (configurations : List QueueConfiguration) :
    Stops (removeExceedingFrom configurations : TaskProg ι ε Unit) := by
  induction configurations with
  | nil => trivial
  | cons c configurations ih =>
    exact stops_guarded (stops_bind
      (all_capture (noPoll_removeExceedingMessagesFromQueue (some c))) fun _ => ih)

/-- A program that its polls stop and that polls before it stores. -/
def Polite (p : TaskProg ι ε α) : Prop := Stops p ∧ PollsFirst p

theorem Polite.bind (hp : Polite p) (hf : ∀ a, Polite (f a)) : Polite (p >>= f) :=
  ⟨hp.1.bind (fun a => (hf a).1) fun a => (hf a).2,
    Satisfies.bind upward_pollsFirstAt hp.2 fun a => (hf a).2⟩

theorem polite_call (c : StoreCall) {next : c.Answer ι → TaskProg ι ε α}
    (h : ∀ r, Polite (next r)) : Polite (.call (.call c) next) :=
  ⟨fun r => (h r).1, fun r => (h r).2⟩

theorem polite_lift (p : Prog Command (Answer ι) ε α) : Polite (lift p) := by
  induction p with
  | ret a => exact ⟨trivial, trivial⟩
  | fail e => exact ⟨trivial, trivial⟩
  | call c next ih => exact polite_call _ ih

theorem polite_timeoutQueues (clock : String → Clock) (queues : List String) :
    Polite (timeoutQueues clock queues : TaskProg ι ε Unit) :=
  ⟨stops_timeoutQueues clock queues, by cases queues <;> trivial⟩

theorem polite_unlockMessages (clock : String → Clock) (lockType : LockType)
    (queues : List String) : Polite (unlockMessages clock lockType queues : TaskProg ι ε Unit) :=
  ⟨stops_unlockMessages clock lockType queues, by cases queues <;> trivial⟩

theorem polite_removeQueues (messages : List Message) (queues : List String) :
    Polite (Prog.capture (removeQueues messages queues) : TaskProg ι ε _) :=
  ⟨(stops_removeQueues messages queues).capture, by cases queues <;> trivial⟩

theorem polite_removeExceedingFrom (configurations : List QueueConfiguration) :
    Polite (removeExceedingFrom configurations : TaskProg ι ε Unit) :=
  ⟨stops_removeExceedingFrom configurations, by cases configurations <;> trivial⟩

theorem polite_processTimeoutMessages (clock : String → Clock) :
    Polite (processTimeoutMessages clock : TaskProg ι ε _) := by
  refine polite_call _ fun queues => ?_
  cases queues with
  | error e => exact ⟨trivial, trivial⟩
  | ok queues => exact (polite_timeoutQueues clock queues).bind fun _ => ⟨trivial, trivial⟩

theorem polite_processLockPool (clock : LockType → String → Clock) :
    Polite (processLockPool clock : TaskProg ι ε Unit) := by
  refine polite_call _ fun lockAckQueues => ?_
  cases lockAckQueues with
  | error e => exact ⟨trivial, trivial⟩
  | ok lockAckQueues =>
    refine (polite_unlockMessages _ _ lockAckQueues).bind fun _ => ⟨stops_guarded ?_, trivial⟩
    refine fun lockNackQueues => ?_
    cases lockNackQueues with
    | error e => trivial
    | ok lockNackQueues => exact stops_unlockMessages _ _ lockNackQueues

theorem polite_removeTTLMessages (order : MapOrder) (filterDate : Time) :
    Polite (removeTTLMessages order filterDate : TaskProg ι ε _) := by
  refine (polite_lift _).bind fun recovering => ?_
  rcases recovering with e | recovering
  · exact ⟨trivial, trivial⟩
  cases recovering with
  | true => exact ⟨trivial, trivial⟩
  | false =>
    refine (polite_lift _).bind fun documents => ?_
    rcases documents with e | documents
    · exact ⟨trivial, trivial⟩
    refine (polite_removeQueues _ _).bind fun result => ?_
    rcases result with e | _
    · exact ⟨trivial, trivial⟩
    · exact ⟨trivial, trivial⟩

theorem polite_removeExceedingMessages : Polite (removeExceedingMessages : TaskProg ι ε _) := by
  refine (polite_lift _).bind fun recovering => ?_
  rcases recovering with e | recovering
  · exact ⟨trivial, trivial⟩
  cases recovering with
  | true => exact ⟨trivial, trivial⟩
  | false =>
    refine polite_call _ fun configurations => ?_
    rcases configurations with e | configurations
    · exact ⟨trivial, trivial⟩
    · exact (polite_removeExceedingFrom configurations).bind fun _ => ⟨trivial, trivial⟩

/-- Every task polls before it stores, and stores nothing after a poll that tells of a
shutdown. -/
theorem polite_program (task : Background) : Polite (task.program (ι := ι)) := by
  cases task with
  | unlock clock => exact polite_processLockPool clock
  | timeout clock => exact (polite_processTimeoutMessages clock).bind fun _ => ⟨trivial, trivial⟩
  | ttl order filterDate =>
    exact (polite_removeTTLMessages order filterDate).bind fun _ => ⟨trivial, trivial⟩
  | maxElements => exact polite_removeExceedingMessages.bind fun _ => ⟨trivial, trivial⟩

end Polls

/-! ## Runs -/

section Runs

variable {calls : Bool → (c : StoreCall) → ω → c.Answer ι × ω} {s t : State ω ι} {l : Label ι}

/-- What a step does. -/
inductive Moves (calls : Bool → (c : StoreCall) → ω → c.Answer ι × ω) (s : State ω ι) :
    Label ι → State ω ι → Prop
  | start (work : Work ι) (hadmits : s.phase.admits work.thread.group = true) :
      Moves calls s (.start work) { s with threads := s.threads ++ [work.thread] }
  | step (i : ℕ) (now : Time) {group : Group} {c : TaskCommand}
      {next : TaskAnswer ι c → TaskProg ι QueueError Unit} {r : TaskAnswer ι c} {t : State ω ι}
      (hthread : s.threads[i]? = some ⟨group, .call c next⟩)
      (hperform : perform calls now s c = some (r, t)) :
      Moves calls s (.step i now) { t with threads := t.threads.set i ⟨group, next r⟩ }
  | finish (i : ℕ) : Moves calls s (.finish i) { s with threads := s.threads.eraseIdx i }
  | sender (choice : Choice) {e : Event} {a : Auditor}
      (hsends : Audit.Sends s.auditor s.phase.canceled choice e a) :
      Moves calls s (.sender choice) { s with auditor := a }
  | shutdown {phase : Phase} (hphase : s.nextPhase = some phase) :
      Moves calls s .shutdown { s with phase := phase }

theorem moves_of_next (h : next calls s l = some t) : Moves calls s l t := by
  cases l with
  | start work =>
    simp only [next] at h
    split_ifs at h with hadmits
    cases h
    exact .start work hadmits
  | step i now =>
    simp only [next, stepThread] at h
    split at h
    · next hthread =>
      obtain ⟨r, hperform, rfl⟩ := Option.map_eq_some_iff.mp h
      exact .step i now hthread hperform
    · cases h
  | finish i =>
    simp only [next, finishThread] at h
    split at h <;> cases h
    · exact .finish i
    · exact .finish i
  | sender choice =>
    obtain ⟨r, hsend, rfl⟩ := Option.map_eq_some_iff.mp h
    exact .sender choice (Audit.sends_of_send hsend)
  | shutdown =>
    obtain ⟨phase, hphase, rfl⟩ := Option.map_eq_some_iff.mp h
    exact .shutdown hphase

theorem moves_of_machine (h : machine calls s l () t) : s.crashed = false ∧ Moves calls s l t := by
  unfold machine ofPartial step at h
  split_ifs at h with hcrashed
  obtain ⟨t', hnext, heq⟩ := Option.map_eq_some_iff.mp h
  cases heq
  exact ⟨Bool.not_eq_true _ ▸ hcrashed, moves_of_next hnext⟩

/-- The groups that may have threads in progress. -/
def Phase.awaits (phase : Phase) : Group → Bool
  | .requests => phase = .notCalled ∨ phase = .started ∨ phase = .stoppingServer
  | .critical => phase = .notCalled ∨ phase = .started ∨ phase = .stoppingServer ∨
      phase = .awaitingCritical
  | .background => true

theorem Phase.awaits_of_admits {phase : Phase} {group : Group} (h : phase.admits group = true) :
    phase.awaits group = true := by
  cases group <;> cases phase <;> first | rfl | cases h

/-- Only the tasks on the wait group run on after the cancellation. -/
theorem Phase.background_of_canceled {phase : Phase} {group : Group} (h : phase.canceled = true)
    (hawaits : phase.awaits group = true) : group = .background := by
  cases group <;> cases phase <;>
    first | rfl | exact absurd h (by decide) | exact absurd hawaits (by decide)

theorem Phase.awaits_of_nextPhase {phase : Phase} (h : s.nextPhase = some phase) {group : Group}
    (hbusy : s.idle group = false) (hawaits : s.phase.awaits group = true) :
    phase.awaits group = true := by
  unfold State.nextPhase at h
  cases hphase : s.phase <;> simp only [hphase] at h hawaits <;> cases group <;>
    first
    | rfl
    | exact absurd hawaits (by decide)
    | (rw [hbusy] at h; cases h)
    | (cases h; rfl)
    | (split_ifs at h; cases h; rfl)

theorem Phase.canceled_of_nextPhase {phase : Phase} (h : s.nextPhase = some phase)
    (hcanceled : s.phase.canceled = true) : phase.canceled = true := by
  unfold State.nextPhase at h
  cases hphase : s.phase <;> simp only [hphase] at h hcanceled <;>
    first
    | exact absurd hcanceled (by decide)
    | (split_ifs at h; cases h; rfl)
    | cases h

theorem Phase.ongoing_of_canceled {phase : Phase} (h : phase.canceled = true) :
    phase.ongoing = true := by
  cases phase <;> first | rfl | cases h

/-- Once the channel is closed, nothing that is in progress stores. -/
structure Safe (s : State ω ι) : Prop where
  alive : s.crashed = false
  awaited : ∀ thread ∈ s.threads, s.phase.awaits thread.group = true
  stops : ∀ thread ∈ s.threads, thread.group = .background → Stops thread.program
  closed : s.auditor.entries.closed = true →
    s.phase.canceled = true ∧ ∀ thread ∈ s.threads, Quiet thread.program

theorem safe_fresh (w : ω) (enabled : Bool) : Safe (fresh w enabled : State ω ι) :=
  ⟨rfl, by simp [fresh], by simp [fresh], fun h => by cases h⟩

theorem Safe.start (h : Safe s) {work : Work ι}
    (hadmits : s.phase.admits work.thread.group = true) :
    Safe { s with threads := s.threads ++ [work.thread] } := by
  have hpolite : work.thread.group = .background → Polite work.thread.program := by
    cases work with
    | request program => exact nofun
    | critical program => exact nofun
    | background task => exact fun _ => polite_program task
  refine ⟨h.alive, ?_, ?_, fun hclosed => ⟨(h.closed hclosed).1, ?_⟩⟩
  · exact List.forall_mem_append.mpr ⟨h.awaited,
      List.forall_mem_singleton.mpr (Phase.awaits_of_admits hadmits)⟩
  · exact List.forall_mem_append.mpr ⟨h.stops,
      List.forall_mem_singleton.mpr fun hgroup => (hpolite hgroup).1⟩
  · have hgroup := Phase.background_of_canceled (h.closed hclosed).1
      (Phase.awaits_of_admits hadmits)
    exact List.forall_mem_append.mpr ⟨(h.closed hclosed).2,
      List.forall_mem_singleton.mpr ((hpolite hgroup).1.quiet (hpolite hgroup).2)⟩

theorem Safe.finish (h : Safe s) (i : ℕ) : Safe { s with threads := s.threads.eraseIdx i } :=
  ⟨h.alive, fun thread ht => h.awaited thread (List.mem_of_mem_eraseIdx ht),
    fun thread ht => h.stops thread (List.mem_of_mem_eraseIdx ht),
    fun hclosed => ⟨(h.closed hclosed).1,
      fun thread ht => (h.closed hclosed).2 thread (List.mem_of_mem_eraseIdx ht)⟩⟩

/-- What a command leaves as it is. Only a send on the closed channel is fatal. -/
structure Performed (s t : State ω ι) (c : TaskCommand) : Prop where
  threads : t.threads = s.threads
  phase : t.phase = s.phase
  closed : t.auditor.entries.closed = s.auditor.entries.closed
  crashed : t.crashed = true → s.crashed = true ∨
    s.auditor.entries.closed = true ∧ ∃ entry, c = .store entry

theorem performed {now : Time} {c : TaskCommand} {r : TaskAnswer ι c}
    (h : perform calls now s c = some (r, t)) : Performed s t c := by
  cases c with
  | call c | ongoing | contextCanceled =>
    cases h
    exact ⟨rfl, rfl, rfl, .inl⟩
  | store entry =>
    obtain ⟨⟨e, a⟩, hstore, heq⟩ := Option.map_eq_some_iff.mp h
    cases heq
    cases Audit.stores_of_store hstore with
    | ignored henabled => exact ⟨rfl, rfl, rfl, fun hcrashed => by cases hcrashed⟩
    | panicked hclosed => exact ⟨rfl, rfl, rfl, fun _ => .inr ⟨hclosed, entry, rfl⟩⟩
    | put henabled hsend =>
      obtain ⟨hopen, hopen', -⟩ := Channel.send_done hsend
      exact ⟨rfl, rfl, hopen'.trans hopen.symm, fun hcrashed => by cases hcrashed⟩

/-- During a shutdown a poll tells of it. -/
theorem Quiet.next {now : Time} {c : TaskCommand} {ε α : Type}
    {next : TaskAnswer ι c → TaskProg ι ε α} (h : Quiet (.call c next)) {r : TaskAnswer ι c}
    (hperform : perform calls now s c = some (r, t)) (hongoing : s.phase.ongoing = true) :
    Quiet (next r) := by
  cases c with
  | call c => exact h r
  | ongoing =>
    cases hperform
    rw [hongoing]
    exact h
  | contextCanceled => exact h r
  | store entry => exact h.elim

theorem Safe.step (h : Safe s) {i : ℕ} {now : Time} {group : Group} {c : TaskCommand}
    {next : TaskAnswer ι c → TaskProg ι QueueError Unit} {r : TaskAnswer ι c}
    (hthread : s.threads[i]? = some ⟨group, .call c next⟩)
    (hperform : perform calls now s c = some (r, t)) :
    Safe { t with threads := t.threads.set i ⟨group, next r⟩ } := by
  have hmem : ⟨group, .call c next⟩ ∈ s.threads := List.mem_of_getElem? hthread
  obtain ⟨hthreads, hphase, hclosed, hcrashed⟩ := performed hperform
  -- a fact about the threads is one about the others and about the one that goes on
  have hset : ∀ P : Thread ι → Prop, (∀ thread ∈ s.threads, P thread) → P ⟨group, next r⟩ →
      ∀ thread ∈ t.threads.set i ⟨group, next r⟩, P thread := by
    intro P hall hnext thread ht
    rcases List.mem_or_eq_of_mem_set ht with ht | rfl
    · exact hall thread (hthreads ▸ ht)
    · exact hnext
  refine ⟨?_, hset _ (hphase ▸ h.awaited) (hphase ▸ h.awaited ⟨group, .call c next⟩ hmem),
    hset _ h.stops fun hgroup => (h.stops _ hmem hgroup).next r, fun hclosed' => ?_⟩
  · rw [← Bool.not_eq_true]
    intro hcrashed'
    rcases hcrashed hcrashed' with hcrashed' | ⟨hclosed', entry, rfl⟩
    · rw [h.alive] at hcrashed'
      cases hcrashed'
    · exact ((h.closed hclosed').2 _ hmem).elim
  · obtain ⟨hcanceled, hquiet⟩ := h.closed (hclosed ▸ hclosed')
    exact ⟨hphase ▸ hcanceled, hset _ hquiet
      ((hquiet _ hmem).next hperform (Phase.ongoing_of_canceled hcanceled))⟩

theorem Safe.shutdown (h : Safe s) {phase : Phase} (hphase : s.nextPhase = some phase) :
    Safe { s with phase := phase } := by
  refine ⟨h.alive, fun thread ht => ?_, h.stops, fun hclosed => ⟨?_, (h.closed hclosed).2⟩⟩
  · refine Phase.awaits_of_nextPhase hphase ?_ (h.awaited thread ht)
    rw [State.idle, List.all_eq_false]
    exact ⟨thread, ht, by simp⟩
  · exact Phase.canceled_of_nextPhase hphase (h.closed hclosed).1

theorem Safe.sender (h : Safe s) {choice : Choice} {e : Event} {a : Auditor}
    (hsends : Audit.Sends s.auditor s.phase.canceled choice e a)
    (hfirst : choice = .done → ∀ thread ∈ s.threads, thread.group = .background →
      PollsFirst thread.program) :
    Safe { s with auditor := a } := by
  refine ⟨h.alive, h.awaited, h.stops, ?_⟩
  cases hsends with
  | start hsender => exact h.closed
  | taken hsender hreceive hsize | full hsender hreceive hsize =>
    exact fun hclosed => h.closed ((Channel.receive_some hreceive).2 ▸ hclosed)
  | idle hsender => exact h.closed
  | timer hsender => exact h.closed
  | done hsender hdone =>
    refine fun _ => ⟨hdone, fun thread ht => ?_⟩
    have hgroup := Phase.background_of_canceled hdone (h.awaited thread ht)
    exact (h.stops thread ht hgroup).quiet (hfirst rfl thread ht hgroup)
  | last hsender => exact h.closed

theorem Safe.moves (h : Safe s) (hmoves : Moves calls s l t)
    (hfirst : l = .sender .done → ∀ thread ∈ s.threads, thread.group = .background →
      PollsFirst thread.program) : Safe t := by
  cases hmoves with
  | start work hadmits => exact h.start hadmits
  | step i now hthread hperform => exact h.step hthread hperform
  | finish i => exact h.finish i
  | sender choice hsends => exact h.sender hsends fun hdone => hfirst (hdone ▸ rfl)
  | shutdown hphase => exact h.shutdown hphase

/-- When the sender chooses the end of its context, every task on the wait group comes to a poll
of the shutdown before it stores anything. -/
def PollsAhead (s : State ω ι) (l : Label ι) : Prop :=
  l = .sender .done → ∀ thread ∈ s.threads, thread.group = .background → PollsFirst thread.program

/-- In every run in which the tasks are so when the channel is closed, no send on the closed
channel ends the process. -/
theorem not_crashed_of_pollsAhead {w : ω} {enabled : Bool} {tr : List (Label ι × Unit)}
    (h : Run (fun s l r t => machine calls s l r t ∧ PollsAhead s l) (fresh w enabled) tr t) :
    t.crashed = false := by
  have hstep : ∀ s l r t, (machine calls s l r t ∧ PollsAhead s l) → True → Safe s → Safe t :=
    fun s l r t hmove _ hs => hs.moves (moves_of_machine hmove.1).2 hmove.2
  exact (h.invariant hstep (fun _ _ => trivial) (safe_fresh w enabled)).alive

end Runs

section Lock

/-- The stores of a memory instance with one queue. -/
def memoryCalls : Bool → (c : StoreCall) → MemoryStorage ℕ × MemoryCache →
    c.Answer ℕ × (MemoryStorage ℕ × MemoryCache) := fun _ =>
  Tasks.handle (MemoryStorage.calls InternalIds.counter (.at 0))
    (MemoryCache.calls fun _ _ => ["q"])
    (memoryQueues (fun queue pattern => Redis.globs true pattern queue) ["q"]) (.ok [])

/-- A message that was pulled and is locked for ten milliseconds. -/
def oneLocked : MemoryCache :=
  let message : Message := { id := "a", queue := "q", lockMs := 10 }
  let inserted := (MemoryCache.new.insert "q" [message]).2
  let pulled := (inserted.pullMessages (fun _ => 0) "q" 1 none none 0).2
  (pulled.lockMessage (fun _ => 0) message .lockAck).2

def locked : State (MemoryStorage ℕ × MemoryCache) ℕ :=
  fresh (MemoryStorage.added [], oneLocked) true

/-- The unlocking, ten milliseconds later. -/
def unlocking : Label ℕ := .start (.background (.unlock fun _ _ _ => 10000000))

/-- The shutdown comes to the waiting for the tasks while the message has been unlocked and its
entry is still to be stored; the sender chooses the end of its context. -/
def storedTooLate : List (Label ℕ) :=
  [.sender .start, unlocking, .step 0 0, .step 0 0, .step 0 0] ++
    List.replicate 5 .shutdown ++ [.sender .done, .step 0 0]

/-- The task then panics. -/
theorem task_crashes :
    ∃ tr t, Run (machine memoryCalls) locked tr t ∧ t.crashed = true := by
  obtain ⟨⟨tr, t⟩, hreplay, hcrashed⟩ := (Option.any_eq_true _ _).mp
    (show ((replay (step memoryCalls) locked storedTooLate).any fun r => r.2.crashed) = true by
      decide +kernel)
  exact ⟨tr, t, run_replay hreplay, hcrashed⟩

/-- The next thing that a thread does is a poll. -/
def Thread.polling (thread : Thread ι) : Bool :=
  match thread.program with
  | .call .ongoing _ => true
  | _ => false

theorem Thread.pollsFirst_of_polling {thread : Thread ι} (h : thread.polling = true) :
    PollsFirst thread.program := by
  unfold polling at h
  split at h
  · next hprogram =>
    rw [hprogram]
    trivial
  · cases h

/-- A step at which the threads poll if it closes the channel. -/
def checkedStep (calls : Bool → (c : StoreCall) → ω → c.Answer ι × ω) (s : State ω ι)
    (l : Label ι) : Option (Unit × State ω ι) :=
  if s.threads.all Thread.polling then step calls s l
  else match l with
    | .sender .done => none
    | _ => step calls s l

theorem run_checkedStep {calls : Bool → (c : StoreCall) → ω → c.Answer ι × ω} {s t : State ω ι}
    {tr : List (Label ι × Unit)} (h : Run (ofPartial (checkedStep calls)) s tr t) :
    Run (fun s l r t => machine calls s l r t ∧ PollsAhead s l) s tr t := by
  have hstep : ∀ s l r t, ofPartial (checkedStep calls) s l r t → True →
      machine calls s l r t ∧ PollsAhead s l := by
    intro s l r t hmove _
    unfold ofPartial checkedStep at hmove
    split_ifs at hmove with hpolling
    · exact ⟨hmove, fun _ thread ht _ =>
        Thread.pollsFirst_of_polling (List.all_eq_true.mp hpolling thread ht)⟩
    · split at hmove
      · cases hmove
      · next hclosing => exact ⟨hmove, fun hl => (hclosing hl).elim⟩
  exact h.mono hstep fun _ _ => trivial

/-- The channel is closed while the task is about to poll. The shutdown comes to its end. -/
def stoppedInTime : List (Label ℕ) :=
  [.sender .start, unlocking, .step 0 0] ++ List.replicate 5 .shutdown ++
    [.sender .done, .step 0 0, .step 0 0, .finish 0, .sender .last, .shutdown]

theorem not_crashed_stoppedInTime :
    ∃ tr t, Run (machine memoryCalls) locked tr t ∧ t.phase = .finished ∧ t.crashed = false := by
  obtain ⟨⟨tr, t⟩, hreplay, hfinished⟩ := (Option.any_eq_true _ _).mp
    (show ((replay (checkedStep memoryCalls) locked stoppedInTime).any fun r =>
      decide (r.2.phase = .finished)) = true by decide +kernel)
  have hrun := run_checkedStep (run_replay hreplay)
  have hstep : ∀ s l r t, (machine memoryCalls s l r t ∧ PollsAhead s l) → True →
      machine memoryCalls s l r t := fun _ _ _ _ hmove _ => hmove.1
  exact ⟨tr, t, hrun.mono hstep fun _ _ => trivial, of_decide_eq_true hfinished,
    not_crashed_of_pollsAhead hrun⟩

end Lock

end Deckard.Shutdown
