import Deckard.Tasks

/-!
# The shutdown

`PerformShutdown` waits for the requests of clients and for the critical tasks, cancels the
context, and only then waits for the other tasks. The sender of the auditor closes the channel
when it sees the context cancelled.
-/
namespace Deckard.Shutdown

open Auditor Program Prog Runs Tasks

/-- What `PerformShutdown` waits for: requests of clients at the end of the server, and the
tasks of the two wait groups. -/
inductive Group
  | requests
  | critical
  | background
  deriving DecidableEq

/-- The progress of `PerformShutdown`. -/
inductive Phase
  | notCalled
  | started
  | stoppingServer
  | awaitingCritical
  | canceling
  | awaitingTasks
  | finished
  deriving DecidableEq

/-- The answer of `shutdown.Ongoing`. -/
def Phase.ongoing : Phase → Bool
  | .notCalled => false
  | _ => true

def Phase.canceled : Phase → Bool
  | .awaitingTasks | .finished => true
  | _ => false

/-- What may start. The server accepts requests until it is stopped. A critical task that is in
flight has started before the shutdown; the other tasks may also start later, if the timer of
their scheduler wins over `shutdown.Started`. -/
def Phase.admits (phase : Phase) : Group → Bool
  | .requests => phase = .notCalled ∨ phase = .started
  | .critical => phase = .notCalled
  | .background => true

structure Thread (ι : Type) where
  group : Group
  program : TaskProg ι QueueError Unit

structure State (ω ι : Type) where
  world : ω
  auditor : Auditor
  phase : Phase := .notCalled
  threads : List (Thread ι) := []
  crashed : Bool := false

inductive Work (ι : Type)
  | request (program : TaskProg ι QueueError Unit)
  | critical (program : TaskProg ι QueueError Unit)
  | background (task : Background)

def Work.thread {ι : Type} : Work ι → Thread ι
  | .request program => ⟨.requests, program⟩
  | .critical program => ⟨.critical, program⟩
  | .background task => ⟨.background, task.program⟩

inductive Label (ι : Type)
  | start (work : Work ι)
  | step (i : ℕ) (now : Time)
  | finish (i : ℕ)
  | sender (choice : Choice)
  | shutdown

variable {ω ι : Type}

/-- No thread of a group is in progress. -/
def State.idle (s : State ω ι) (group : Group) : Bool :=
  s.threads.all fun thread => thread.group ≠ group

/-- The sender is in the wait group while it runs. -/
def State.sending (s : State ω ι) : Bool :=
  s.auditor.sender ≠ .notStarted ∧ s.auditor.sender ≠ .returned

/-- The next phase of `PerformShutdown`, unless it waits. -/
def State.nextPhase (s : State ω ι) : Option Phase :=
  match s.phase with
  | .notCalled => some .started
  | .started => some .stoppingServer
  | .stoppingServer => if s.idle .requests then some .awaitingCritical else none
  | .awaitingCritical => if s.idle .critical then some .canceling else none
  | .canceling => some .awaitingTasks
  | .awaitingTasks => if s.idle .background && !s.sending then some .finished else none
  | .finished => none

section Machine

-- a call of a store may fail because of its context, so it sees whether it is cancelled
variable (calls : Bool → (c : StoreCall) → ω → c.Answer ι × ω)

/-- The command of a thread, unless it waits. A send on the closed channel ends the process. -/
def perform (now : Time) (s : State ω ι) : (c : TaskCommand) → Option (TaskAnswer ι c × State ω ι)
  | .call c =>
      some ((calls s.phase.canceled c s.world).1,
        { s with world := (calls s.phase.canceled c s.world).2 })
  | .ongoing => some (s.phase.ongoing, s)
  | .contextCanceled => some (s.phase.canceled, s)
  | .store entry => (s.auditor.store now entry).map fun r =>
      ((), { s with auditor := r.2, crashed := r.1 = .panicked })

def stepThread (s : State ω ι) (i : ℕ) (now : Time) : Option (State ω ι) :=
  match s.threads[i]? with
  | some ⟨group, .call c next⟩ => (perform calls now s c).map fun r =>
      { r.2 with threads := r.2.threads.set i ⟨group, next r.1⟩ }
  | _ => none

def finishThread (s : State ω ι) (i : ℕ) : Option (State ω ι) :=
  match s.threads[i]? with
  | some ⟨_, .ret _⟩ | some ⟨_, .fail _⟩ => some { s with threads := s.threads.eraseIdx i }
  | _ => none

def next (s : State ω ι) : Label ι → Option (State ω ι)
  | .start work =>
      if s.phase.admits work.thread.group then
        some { s with threads := s.threads ++ [work.thread] }
      else none
  | .step i now => stepThread calls s i now
  | .finish i => finishThread s i
  | .sender choice => (s.auditor.send s.phase.canceled choice).map fun r =>
      { s with auditor := r.2 }
  | .shutdown => s.nextPhase.map fun phase => { s with phase := phase }

def step (s : State ω ι) (l : Label ι) : Option (Unit × State ω ι) :=
  if s.crashed then none else (next calls s l).map fun t => ((), t)

/-- All interleavings of the threads, the sender and `PerformShutdown`. -/
def machine : Machine (State ω ι) (Label ι) Unit := ofPartial (step calls)

end Machine

def fresh (w : ω) (enabled : Bool) : State ω ι := { world := w, auditor := newAuditor enabled }

end Deckard.Shutdown
