import Deckard.AuditTrail
import Deckard.RecoveryFaults
import Deckard.Shutdown

/-!
# The schedulers of the housekeeper

Each task of the housekeeper has a scheduler of its own. It waits for a timer, registers the task
on a wait group, takes the lock if the task needs it, executes the task, and gives lock and
registration back. The tasks that recover the cache, remove expired messages and remove messages
from queues that are too long share one lock. The task that computes metrics only reads the storage
and is left out.
-/
namespace Deckard.Scheduler

open Binary64 Cache Program Prog Tasks Runs Audited

variable {ι ω κ ε ε' α β : Type}

/-- The tasks that `startHouseKeeperJobs` schedules. -/
inductive TaskName
  | unlock
  | timeout
  | recovery
  | maxElements
  | ttl
  deriving DecidableEq

namespace TaskName

def all : List TaskName := [.unlock, .timeout, .recovery, .maxElements, .ttl]

/-- The tasks that are scheduled with `backgroundTaskLocker`. -/
def locks : TaskName → Bool
  | .recovery | .maxElements | .ttl => true
  | .unlock | .timeout => false

def group : TaskName → Shutdown.Group
  | .recovery => .critical
  | .unlock | .timeout | .maxElements | .ttl => .background

/-- The function of a task, with the orders and times of one execution. -/
def runs : TaskName → Work → Bool
  | .unlock, .task (.unlock _) => true
  | .timeout, .task (.timeout _) => true
  | .recovery, .recovery _ => true
  | .maxElements, .task .maxElements => true
  | .ttl, .task (.ttl _ _) => true
  | _, _ => false

end TaskName

/-- Where a scheduler is: at its `select`, about to take the lock, in `executeTask`, or at its
end. -/
inductive Stage
  | waiting
  | registered (work : Work)
  | executing
  | stopped

/-- The task is registered on its wait group. -/
def Stage.pending : Stage → Bool
  | .registered _ | .executing => true
  | .waiting | .stopped => false

abbrev TaskThreads (ι ω κ : Type) :=
  Threads (Audited.State ω) (TaskName ⊕ κ) TaskCommand (TaskAnswer ι) ServiceError (Option Response)

/-- The threads are those of the tasks and of the clients. `pending` has the counters of the wait
groups. -/
structure State (ι ω κ : Type) where
  threads : TaskThreads ι ω κ
  stage : TaskName → Stage
  lock : Option TaskName
  pending : Shutdown.Group → ℤ
  started : Bool

inductive Label (κ : Type)
  | fire (name : TaskName) (work : Work)
  | lock (name : TaskName)
  | finish (name : TaskName)
  | stop (name : TaskName)
  | request (i : κ) (request : Request) (reason : String)
  | answer (i : κ)
  | step (i : TaskName ⊕ κ)
  | shutdown

variable [LinearOrder ι] [DecidableEq κ] (internalIds : InternalIds ι)
  (calls : (c : StoreCall) → ω → c.Answer ι × ω)

/-- One event of the threads. -/
def State.advance (s : State ι ω κ) (l : Program.Label (TaskName ⊕ κ) Work) :
    Option (State ι ω κ) :=
  (Program.advance (audited calls) (Work.program internalIds) s.threads l).map fun r =>
    { s with threads := r.2 }

def next (s : State ι ω κ) : Label κ → Option (State ι ω κ)
  | .fire name work =>
      match s.stage name with
      | .waiting =>
          if name.runs work then some { s with
            stage := Function.update s.stage name (.registered work)
            pending := Function.update s.pending name.group (s.pending name.group + 1) }
          else none
      | _ => none
  | .lock name =>
      match s.stage name with
      | .registered work =>
          if name.locks ∧ s.lock.isSome then none else
          (s.advance internalIds calls (.start (.inl name) work)).map fun t => { t with
            stage := Function.update t.stage name .executing
            lock := if name.locks then some name else t.lock }
      | _ => none
  | .finish name =>
      (s.advance internalIds calls (.finish (.inl name))).map fun t => { t with
        stage := Function.update t.stage name .waiting
        lock := if name.locks then none else t.lock
        pending := Function.update t.pending name.group (t.pending name.group - 1) }
  | .stop name =>
      match s.stage name with
      | .waiting =>
          if s.started then some { s with stage := Function.update s.stage name .stopped } else none
      | _ => none
  | .request i request reason =>
      s.advance internalIds calls (.start (.inr i) (.client request reason))
  | .answer i => s.advance internalIds calls (.finish (.inr i))
  | .step i => s.advance internalIds calls (.step i)
  | .shutdown => some { s with started := true }

def machine : Machine (State ι ω κ) (Label κ) Unit :=
  ofPartial fun s l => (next internalIds calls s l).map fun t => ((), t)

/-! ## Events -/

omit [LinearOrder ι] in
/-- A task has ended: the lock is free, and the scheduler waits for its timer. -/
def State.finished (s : State ι ω κ) (name : TaskName) : State ι ω κ where
  threads := s.threads.setThread (.inl name) none
  stage := Function.update s.stage name .waiting
  lock := if name.locks then none else s.lock
  pending := Function.update s.pending name.group (s.pending name.group - 1)
  started := s.started

omit [LinearOrder ι] in
/-- A task is executed. -/
def State.executed (s : State ι ω κ) (name : TaskName)
    (p : TaskProg ι ServiceError (Option Response)) : State ι ω κ where
  threads := s.threads.setThread (.inl name) (some p)
  stage := Function.update s.stage name .executing
  lock := if name.locks then some name else s.lock
  pending := s.pending
  started := s.started

omit [LinearOrder ι] in
/-- A thread has performed a command. -/
def State.performed (s : State ι ω κ) (i : TaskName ⊕ κ) (c : TaskCommand)
    (next : TaskAnswer ι c → TaskProg ι ServiceError (Option Response)) : State ι ω κ where
  threads := ({ s.threads with shared := (audited calls c s.threads.shared).2 }).setThread i
    (some (next (audited calls c s.threads.shared).1))
  stage := s.stage
  lock := s.lock
  pending := s.pending
  started := s.started

/-- What an event does to the schedulers. -/
inductive Moves (s : State ι ω κ) : Label κ → State ι ω κ → Prop
  | fire {name : TaskName} {work : Work} : s.stage name = .waiting → name.runs work = true →
      Moves s (.fire name work) { s with
        stage := Function.update s.stage name (.registered work)
        pending := Function.update s.pending name.group (s.pending name.group + 1) }
  | lock {name : TaskName} {work : Work} : s.stage name = .registered work →
      (name.locks = true → s.lock = none) → s.threads.thread (.inl name) = none →
      Moves s (.lock name) (s.executed name (work.program internalIds))
  | finish {name : TaskName} {p : TaskProg ι ServiceError (Option Response)} :
      s.threads.thread (.inl name) = some p → (∀ c next, p ≠ .call c next) →
      Moves s (.finish name) (s.finished name)
  | stop {name : TaskName} : s.stage name = .waiting → s.started = true →
      Moves s (.stop name) { s with stage := Function.update s.stage name .stopped }
  | request {i : κ} {request : Request} {reason : String} : s.threads.thread (.inr i) = none →
      Moves s (.request i request reason) { s with
        threads := s.threads.setThread (.inr i)
          (some ((Work.client request reason).program internalIds)) }
  | answer {i : κ} {p : TaskProg ι ServiceError (Option Response)} :
      s.threads.thread (.inr i) = some p → (∀ c next, p ≠ .call c next) →
      Moves s (.answer i) { s with threads := s.threads.setThread (.inr i) none }
  | step {i : TaskName ⊕ κ} {c : TaskCommand}
      {next : TaskAnswer ι c → TaskProg ι ServiceError (Option Response)} :
      s.threads.thread i = some (.call c next) →
      Moves s (.step i) (s.performed calls i c next)
  | shutdown : Moves s .shutdown { s with started := true }

variable {internalIds calls} {s t : State ι ω κ}

theorem State.event_of_advance {l : Program.Label (TaskName ⊕ κ) Work}
    (h : s.advance internalIds calls l = some t) :
    ∃ threads, Event (audited calls) (Work.program internalIds) s.threads l threads ∧
      t = { s with threads := threads } := by
  obtain ⟨⟨r, threads⟩, hadvance, rfl⟩ := Option.map_eq_some_iff.mp h
  exact ⟨threads, interleaved_event hadvance, rfl⟩

theorem moves_of_next {l : Label κ} (h : next internalIds calls s l = some t) :
    Moves internalIds calls s l t := by
  cases l with
  | fire name work =>
    simp only [next] at h
    split at h
    · split_ifs at h with hruns
      cases h
      exact .fire ‹_› hruns
    · cases h
  | lock name =>
    simp only [next] at h
    split at h
    · rename_i work hstage
      by_cases hlock : name.locks ∧ s.lock.isSome
      · rw [if_pos hlock] at h
        cases h
      · rw [if_neg hlock] at h
        obtain ⟨u, hu, rfl⟩ := Option.map_eq_some_iff.mp h
        obtain ⟨threads, hevent, rfl⟩ := State.event_of_advance hu
        cases hevent with
        | start i task hi =>
          refine .lock hstage (fun hlocks => ?_) hi
          simpa [hlocks] using hlock
    · cases h
  | finish name =>
    obtain ⟨u, hu, rfl⟩ := Option.map_eq_some_iff.mp h
    obtain ⟨threads, hevent, rfl⟩ := State.event_of_advance hu
    cases hevent with
    | finish i p hi hend => exact .finish hi hend
  | stop name =>
    simp only [next] at h
    split at h
    · split_ifs at h with hstarted
      cases h
      exact .stop ‹_› hstarted
    · cases h
  | request i request reason =>
    obtain ⟨threads, hevent, rfl⟩ := State.event_of_advance h
    cases hevent with
    | start i task hi => exact .request hi
  | answer i =>
    obtain ⟨threads, hevent, rfl⟩ := State.event_of_advance h
    cases hevent with
    | finish i p hi hend => exact .answer hi hend
  | step i =>
    obtain ⟨threads, hevent, rfl⟩ := State.event_of_advance h
    cases hevent with
    | step i c next hi => exact .step hi
  | shutdown =>
    cases h
    exact .shutdown

theorem moves_of_machine {l : Label κ} (h : machine internalIds calls s l () t) :
    Moves internalIds calls s l t := by
  obtain ⟨u, hu, heq⟩ := Option.map_eq_some_iff.mp h
  cases heq
  exact moves_of_next hu

/-! ## The lock and the wait groups -/

/-- Whether a task counts for a wait group. -/
def counted (group : Shutdown.Group) (name : TaskName) (stage : Stage) : ℤ :=
  if name.group = group ∧ stage.pending = true then 1 else 0

/-- The tasks that are registered on a wait group. -/
def registered (group : Shutdown.Group) (stage : TaskName → Stage) : ℤ :=
  (TaskName.all.map fun name => counted group name (stage name)).sum

theorem registered_update (group : Shutdown.Group) (stage : TaskName → Stage) (name : TaskName)
    (new : Stage) : registered group (Function.update stage name new) =
      registered group stage - counted group name (stage name) + counted group name new := by
  cases name <;> simp [registered, TaskName.all, Function.update] <;> ring

/-- The lock is held by the one task of its group that is executed. -/
structure Scheduled (s : State ι ω κ) : Prop where
  executing : ∀ name, (s.threads.thread (.inl name)).isSome ↔ s.stage name = .executing
  holds : ∀ name, name.locks = true → s.stage name = .executing → s.lock = some name
  holder : ∀ name, s.lock = some name → name.locks = true ∧ s.stage name = .executing
  pending : ∀ group, s.pending group = registered group s.stage

omit [LinearOrder ι] [DecidableEq κ] in
/-- One scheduler moves. The lock follows it if its task needs the lock. -/
theorem Scheduled.update (h : Scheduled s) {name : TaskName} {new : Stage} {t : State ι ω κ}
    (hstage : t.stage = Function.update s.stage name new)
    (hself : (t.threads.thread (.inl name)).isSome ↔ new = .executing)
    (hothers : ∀ n, n ≠ name → t.threads.thread (.inl n) = s.threads.thread (.inl n))
    (hlock : name.locks = true ∧ new = .executing ∧ s.lock = none ∧ t.lock = some name ∨
      name.locks = true ∧ new ≠ .executing ∧ s.stage name = .executing ∧ t.lock = none ∨
      (name.locks = true → s.stage name ≠ .executing ∧ new ≠ .executing) ∧ t.lock = s.lock)
    (hpending : ∀ group, t.pending group = s.pending group - counted group name (s.stage name) +
      counted group name new) : Scheduled t := by
  have hstage' : ∀ n, t.stage n = if n = name then new else s.stage n := by
    intro n
    rw [hstage, Function.update_apply]
  have hholds := h.holds
  have hholder := h.holder
  refine ⟨fun n => ?_, fun n hlocks hexec => ?_, fun n hn => ?_, fun group => ?_⟩
  · rw [hstage']
    split_ifs with hn
    · rw [hn]
      exact hself
    · rw [hothers n hn]
      exact h.executing n
  · grind
  · grind
  · rw [hpending, h.pending, hstage, registered_update]

omit [LinearOrder ι] [DecidableEq κ] in
/-- A thread of a client or a command of a task moves no scheduler. -/
theorem Scheduled.threads (h : Scheduled s) {threads : TaskThreads ι ω κ}
    (hthreads : ∀ name, (threads.thread (.inl name)).isSome =
      (s.threads.thread (.inl name)).isSome) : Scheduled { s with threads := threads } :=
  ⟨fun name => by rw [hthreads]; exact h.executing name, h.holds, h.holder, h.pending⟩

theorem Scheduled.moves {l : Label κ} (h : Scheduled s) (hmoves : Moves internalIds calls s l t) :
    Scheduled t := by
  cases hmoves with
  | @fire name work hstage hruns =>
    have hthread := h.executing name
    refine h.update rfl (by rw [hthread, hstage]; simp) (fun _ _ => rfl) (.inr (.inr ?_))
      fun group => ?_
    · simp [hstage]
    · rw [hstage]
      by_cases hgroup : group = name.group
      · simp [hgroup, counted, Stage.pending]
      · simp [hgroup, Ne.symm hgroup, counted]
  | @lock name work hstage hlock hthread =>
    refine h.update rfl ?_ (fun n hn => ?_) ?_ fun group => ?_
    · simp [State.executed, Threads.setThread]
    · exact Threads.setThread_of_ne (by simpa using hn)
    · by_cases hlocks : name.locks = true
      · exact .inl ⟨hlocks, rfl, hlock hlocks, if_pos hlocks⟩
      · exact .inr (.inr ⟨fun h => absurd h hlocks, if_neg hlocks⟩)
    · simp [State.executed, hstage, counted, Stage.pending]
  | @finish name p hp hend =>
    have hexec := (h.executing name).mp (by rw [hp]; rfl)
    refine h.update rfl ?_ (fun n hn => ?_) ?_ fun group => ?_
    · simp [State.finished, Threads.setThread]
    · exact Threads.setThread_of_ne (by simpa using hn)
    · by_cases hlocks : name.locks = true
      · exact .inr (.inl ⟨hlocks, by simp, hexec, if_pos hlocks⟩)
      · exact .inr (.inr ⟨fun h => absurd h hlocks, if_neg hlocks⟩)
    · rw [hexec, State.finished]
      by_cases hgroup : group = name.group
      · simp [hgroup, counted, Stage.pending]
      · simp [hgroup, Ne.symm hgroup, counted]
  | @stop name hstage hstarted =>
    have hthread := h.executing name
    refine h.update rfl (by rw [hthread, hstage]; simp) (fun _ _ => rfl) (.inr (.inr ?_))
      fun group => ?_
    · simp [hstage]
    · simp [hstage, counted, Stage.pending]
  | @request i request reason hi => exact h.threads fun name => by simp [Threads.setThread]
  | @answer i p hp hend => exact h.threads fun name => by simp [Threads.setThread]
  | @step i c next hi =>
    refine h.threads fun name => ?_
    by_cases hname : Sum.inl name = i
    · rw [hname, Threads.setThread_self, hi]
      rfl
    · rw [Threads.setThread_of_ne hname]
  | shutdown => exact ⟨h.executing, h.holds, h.holder, h.pending⟩

/-! ## Commands that leave the keys of the cache alone -/

/-- Only the recovery writes keys of the cache. -/
def Keyless : TaskCommand → Prop
  | .call (.command (.cacheSet _ _)) => False
  | _ => True

theorem keyless_of_onStores {P : Command → Prop} (h : ∀ key value, ¬ P (.cacheSet key value))
    {c : TaskCommand} (hc : OnStores P c) : Keyless c := by
  unfold Keyless
  split
  · exact h _ _ hc
  · trivial

theorem keyless_request (reason : String) (request : Request) :
    All Keyless ((Work.client request reason).program internalIds) := by
  refine (work_onStores internalIds (.client request reason)).imp
    fun _ => keyless_of_onStores fun key value h => ?_
  cases request <;> simp [Work.Issues, Request.Issues] at h

/-- Only the recovery is not keyless. -/
theorem keyless_work {name : TaskName} {work : Work} (hruns : name.runs work = true)
    (hname : name ≠ .recovery) : All Keyless (work.program internalIds) := by
  refine (work_onStores internalIds work).imp fun _ => keyless_of_onStores fun key value h => ?_
  cases work with
  | client request reason => cases name <;> cases hruns
  | recovery order =>
    cases name with
    | recovery => exact hname rfl
    | _ => cases hruns
  | task background => exact h

/-! ## Removals and recoveries -/

/-- The command removes messages from a store. -/
def Removes : TaskCommand → Prop
  | .call (.command (.storageRemove _ _)) | .call (.command (.cache (.remove _ _))) => True
  | _ => False

/-- The program looks first whether a recovery is running, and removes nothing unless it has read
that none is. -/
def Looks (p : TaskProg ι ε α) : Prop :=
  ∃ next, p = .call (.call (.command (.cacheGet recoveryRunning))) next ∧
    ∀ r, (∀ v, r = .ok v → v = "true") → All (fun c => ¬ Removes c) (next r)

omit [LinearOrder ι] in
theorem looks_ttl (order : MapOrder) (filterDate : Time) :
    Looks ((Background.ttl order filterDate).program : TaskProg ι QueueError Unit) := by
  refine ⟨_, rfl, ?_⟩
  rintro (e | v) hv
  · trivial
  · cases hv v rfl
    trivial

omit [LinearOrder ι] in
theorem looks_maxElements :
    Looks (Background.maxElements.program : TaskProg ι QueueError Unit) := by
  refine ⟨_, rfl, ?_⟩
  rintro (e | v) hv
  · trivial
  · cases hv v rfl
    trivial

theorem Looks.work {background : Background}
    (h : Looks (background.program : TaskProg ι QueueError Unit)) :
    Looks ((Work.task background).program internalIds) := by
  obtain ⟨next, hp, hnext⟩ := h
  refine ⟨fun r => mapError ServiceError.housekeeper (next r) >>= fun _ => pure none, ?_,
    fun r hr => all_bind (all_mapError (hnext r hr)) fun _ => trivial⟩
  change (mapError _ background.program >>= _) = _
  rw [hp]
  rfl

/-- The key that tells whether a recovery is running: how it is read, and that only writes of keys
change it. -/
structure RunningKey (calls : (c : StoreCall) → ω → c.Answer ι × ω) (flag : ω → String) :
    Prop where
  get : ∀ w v, (calls (.command (.cacheGet recoveryRunning)) w).1 = .ok v → v = flag w
  frame : ∀ c w, Keyless (.call c) → flag (calls c w).2 = flag w

/-- A program that is about to remove messages does so while no recovery is running. -/
def Heeds (flag : ω → String) (p : TaskProg ι ε α) (w : ω) : Prop :=
  Looks p ∨ All (fun c => ¬ Removes c) p ∨ flag w ≠ "true"

/-- A task that removes messages. -/
def TaskName.removes : TaskName → Bool
  | .maxElements | .ttl => true
  | .unlock | .timeout | .recovery => false

theorem looks_work {name : TaskName} {work : Work} (hruns : name.runs work = true)
    (hname : name.removes = true) : Looks (work.program internalIds) := by
  cases name with
  | maxElements =>
    obtain rfl : work = .task .maxElements := by
      rcases work with _ | _ | background
      · cases hruns
      · cases hruns
      · cases background <;> first | rfl | cases hruns
    exact looks_maxElements.work
  | ttl =>
    obtain ⟨order, filterDate, rfl⟩ : ∃ order filterDate, work = .task (.ttl order filterDate) := by
      rcases work with _ | _ | background
      · cases hruns
      · cases hruns
      · cases background <;> first | exact ⟨_, _, rfl⟩ | cases hruns
    exact (looks_ttl order filterDate).work
  | _ => cases hname

section Steps

variable {flag : ω → String} (hkey : RunningKey calls flag) {w : Audited.State ω} {c : TaskCommand}

include hkey

omit [LinearOrder ι] in
theorem RunningKey.audited (hc : Keyless c) :
    flag (Audited.audited calls c w).2.stores = flag w.stores := by
  cases c with
  | call c => exact hkey.frame c w.stores hc
  | _ => rfl

omit [LinearOrder ι] in
/-- What a task has read stays true until its next command. -/
theorem Heeds.step {next : TaskAnswer ι c → TaskProg ι ε α} (h : Heeds flag (.call c next) w.stores)
    (hc : Keyless c) : Heeds flag (next (Audited.audited calls c w).1)
      (Audited.audited calls c w).2.stores := by
  rcases h with ⟨next', hp, hnext⟩ | hall | hflag
  · cases hp
    by_cases htrue : flag w.stores = "true"
    · refine .inr (.inl (hnext _ fun v hv => ?_))
      rw [hkey.get _ v hv, htrue]
    · refine .inr (.inr ?_)
      rw [hkey.audited hc]
      exact htrue
  · exact .inr (.inl (hall.2 _))
  · refine .inr (.inr ?_)
    rw [hkey.audited hc]
    exact hflag

omit [LinearOrder ι] in
theorem Heeds.congr {p : TaskProg ι ε α} (h : Heeds flag p w.stores) (hc : Keyless c) :
    Heeds flag p (Audited.audited calls c w).2.stores := by
  refine h.imp_right fun h => h.imp_right fun hflag => ?_
  rw [hkey.audited hc]
  exact hflag

end Steps

omit [LinearOrder ι] in
theorem Heeds.not_removes {flag : ω → String} {c : TaskCommand}
    {next : TaskAnswer ι c → TaskProg ι ε α} {w : ω} (h : Heeds flag (.call c next) w)
    (hc : Removes c) : flag w ≠ "true" := by
  rcases h with ⟨next', hp, -⟩ | hall | hflag
  · cases hp
    exact hc.elim
  · exact absurd hc hall.1
  · exact hflag

/-- Only the recovery writes keys, and the tasks that remove messages heed the key. -/
structure Heedful (flag : ω → String) (threads : TaskThreads ι ω κ) : Prop where
  keyless : ∀ i p, threads.thread i = some p → i ≠ .inl .recovery → All Keyless p
  heeds : ∀ name p, name.removes = true → threads.thread (.inl name) = some p →
    Heeds flag p threads.shared.stores

section Threads

variable {flag : ω → String} {threads : TaskThreads ι ω κ} {i : TaskName ⊕ κ}

omit [LinearOrder ι] in
theorem Heedful.start (h : Heedful flag threads) {p : TaskProg ι ServiceError (Option Response)}
    (hkeyless : i ≠ .inl .recovery → All Keyless p)
    (hheeds : ∀ name, i = .inl name → name.removes = true → Looks p) :
    Heedful flag (threads.setThread i (some p)) := by
  refine ⟨fun j q hq hj => ?_, fun name q hname hq => ?_⟩
  · obtain ⟨hij, hpq⟩ | ⟨-, hq⟩ := Threads.setThread_eq_some hq
    · cases hpq
      exact hkeyless (hij ▸ hj)
    · exact h.keyless j q hq hj
  · obtain ⟨heq, hq⟩ | ⟨-, hq⟩ := Threads.setThread_eq_some hq
    · cases hq
      exact .inl (hheeds name heq.symm hname)
    · exact h.heeds name q hname hq

omit [LinearOrder ι] in
theorem Heedful.finish (h : Heedful flag threads) : Heedful flag (threads.setThread i none) := by
  refine ⟨fun j q hq hj => ?_, fun name q hname hq => ?_⟩
  · obtain ⟨-, hq⟩ | ⟨-, hq⟩ := Threads.setThread_eq_some hq
    · cases hq
    · exact h.keyless j q hq hj
  · obtain ⟨-, hq⟩ | ⟨-, hq⟩ := Threads.setThread_eq_some hq
    · cases hq
    · exact h.heeds name q hname hq

omit [LinearOrder ι] in
/-- The recovery does not step beside a task that removes messages. -/
theorem Heedful.step (hkey : RunningKey calls flag) {c : TaskCommand}
    {next : TaskAnswer ι c → TaskProg ι ServiceError (Option Response)} (h : Heedful flag threads)
    (hi : threads.thread i = some (.call c next))
    (halone : ∀ name, name.removes = true → (threads.thread (.inl name)).isSome →
      i ≠ .inl .recovery) :
    Heedful flag (({ threads with shared := (audited calls c threads.shared).2 }).setThread i
      (some (next (audited calls c threads.shared).1))) := by
  refine ⟨fun j p hp hj => ?_, fun name p hname hp => ?_⟩
  · obtain ⟨hij, hpq⟩ | ⟨-, hp⟩ := Threads.setThread_eq_some hp
    · cases hpq
      exact (h.keyless i _ hi (hij ▸ hj)).2 _
    · exact h.keyless j p hp hj
  · have hkeyless : (threads.thread (.inl name)).isSome → Keyless c :=
      fun hsome => (h.keyless i _ hi (halone name hname hsome)).1
    obtain ⟨hj, hp⟩ | ⟨-, hp⟩ := Threads.setThread_eq_some hp
    · cases hp
      rw [← hj] at hi
      exact (h.heeds name _ hname hi).step hkey (hkeyless (by rw [hi]; rfl))
    · have hp : threads.thread (.inl name) = some p := hp
      exact (h.heeds name p hname hp).congr hkey (hkeyless (by rw [hp]; rfl))

end Threads

/-- A scheduler registers its own task. -/
def Registered (stage : TaskName → Stage) : Prop :=
  ∀ name work, stage name = .registered work → name.runs work = true

theorem Registered.update {stage : TaskName → Stage} (h : Registered stage) {name : TaskName}
    {new : Stage} (hnew : ∀ work, new = .registered work → name.runs work = true) :
    Registered (Function.update stage name new) := by
  intro n work hn
  by_cases heq : n = name
  · rw [heq, Function.update_self] at hn
    rw [heq]
    exact hnew work hn
  · rw [Function.update_of_ne heq] at hn
    exact h n work hn

/-- What holds of the schedulers and the threads of an instance. -/
structure Guarded (flag : ω → String) (s : State ι ω κ) : Prop where
  scheduled : Scheduled s
  registered : Registered s.stage
  heedful : Heedful flag s.threads

omit [LinearOrder ι] [DecidableEq κ] in
/-- While a task that removes messages is executed, the recovery is not. -/
theorem Scheduled.not_recovery (h : Scheduled s) {name : TaskName} (hname : name.removes = true)
    (hexec : (s.threads.thread (.inl name)).isSome) : s.threads.thread (.inl .recovery) = none := by
  by_contra hrecovery
  rw [← ne_eq, Option.ne_none_iff_isSome, h.executing] at hrecovery
  have hlock := h.holds .recovery rfl hrecovery
  have hlocks : name.locks = true := by
    cases name with
    | maxElements => rfl
    | ttl => rfl
    | _ => cases hname
  rw [h.holds name hlocks ((h.executing name).mp hexec)] at hlock
  cases hlock
  cases hname

theorem Guarded.moves {flag : ω → String} (hkey : RunningKey calls flag) {l : Label κ}
    (h : Guarded flag s) (hmoves : Moves internalIds calls s l t) : Guarded flag t := by
  have hscheduled := h.scheduled.moves hmoves
  cases hmoves with
  | fire hstage hruns =>
    refine ⟨hscheduled, h.registered.update ?_, h.heedful⟩
    rintro work ⟨⟩
    exact hruns
  | lock hstage hlock hthread =>
    have hruns := h.registered _ _ hstage
    refine ⟨hscheduled, h.registered.update (by simp), h.heedful.start ?_ ?_⟩
    · exact fun hname => keyless_work hruns (by simpa using hname)
    · rintro name ⟨⟩ hname
      exact looks_work hruns hname
  | finish hp hend => exact ⟨hscheduled, h.registered.update (by simp), h.heedful.finish⟩
  | stop hstage hstarted => exact ⟨hscheduled, h.registered.update (by simp), h.heedful⟩
  | @request i request reason hi =>
    refine ⟨hscheduled, h.registered, h.heedful.start (fun _ => ?_) (by simp)⟩
    exact keyless_request reason request
  | answer hp hend => exact ⟨hscheduled, h.registered, h.heedful.finish⟩
  | step hi =>
    refine ⟨hscheduled, h.registered, h.heedful.step hkey hi fun name hname hsome heq => ?_⟩
    rw [heq, h.scheduled.not_recovery hname hsome] at hi
    cases hi
  | shutdown => exact ⟨hscheduled, h.registered, h.heedful⟩

/-! ## Runs -/

/-- All schedulers wait for their timers, and no request is in progress. -/
structure Resting (s : State ι ω κ) : Prop where
  idle : s.threads.Idle
  waiting : ∀ name, s.stage name = .waiting
  free : s.lock = none
  pending : ∀ group, s.pending group = 0

omit [LinearOrder ι] [DecidableEq κ] in
theorem Resting.guarded (h : Resting s) (flag : ω → String) : Guarded flag s := by
  refine ⟨⟨fun name => ?_, fun name _ hexec => ?_, fun name hlock => ?_, fun group => ?_⟩,
    fun name work hstage => ?_, fun i p hp => ?_, fun name p _ hp => ?_⟩
  · rw [h.idle, h.waiting]
    simp
  · rw [h.waiting] at hexec
    cases hexec
  · rw [h.free] at hlock
    cases hlock
  · simp [h.pending, registered, TaskName.all, h.waiting, counted, Stage.pending]
  · rw [h.waiting] at hstage
    cases hstage
  · rw [h.idle] at hp
    cases hp
  · rw [h.idle] at hp
    cases hp

theorem guarded_run {flag : ω → String} (hkey : RunningKey calls flag) {s₀ : State ι ω κ}
    {tr : List (Label κ × Unit)} (h₀ : Resting s₀)
    (hrun : Run (machine internalIds calls) s₀ tr s) : Guarded flag s :=
  hrun.along (Q := fun _ s => Guarded flag s) (h₀.guarded flag)
    fun _ _ _ _ _ _ _ hstep h => h.moves hkey (moves_of_machine hstep)

end Deckard.Scheduler

namespace Deckard

open Binary64 Effect Cache Program Prog Tasks Runs Audited

variable {ι : Type} [LinearOrder ι]

/-! ## The key of the two caches -/

theorem MemoryCache.keys_perform (order : MemoryCache → LockType → List String) (op : Op)
    (c : MemoryCache) : (MemoryCache.perform order op c).2.keys = c.keys := by
  cases op with
  | insert queue messages =>
    simp only [perform, Prod.map_snd, id, MemoryCache.insert]
    split_ifs <;> rfl
  | pullMessages clock queue n minScore maxScore ackDeadlineMs => rfl
  | makeAvailable message =>
    simp only [perform, Prod.map_snd, id, MemoryCache.makeAvailable]
    split_ifs <;> rfl
  | lockMessage clock message lockType =>
    simp only [perform, Prod.map_snd, id, MemoryCache.lockMessage]
    split_ifs <;> rfl
  | unlockMessages clock queue lockType =>
    -- each queue of the loop moves an entry or does nothing
    have hfold : ∀ (queues : List String) (nowMs : Int64) (score : Float64)
        (acc : List String × MemoryCache),
        (queues.foldl (MemoryCache.unlockQueue lockType nowMs score) acc).2.keys = acc.2.keys := by
      intro queues nowMs score acc
      induction queues generalizing acc with
      | nil => rfl
      | cons queue queues ih =>
        rw [List.foldl_cons, ih, MemoryCache.unlockQueue]
        split <;> rfl
    exact hfold _ _ _ _
  | timeoutMessages clock queue =>
    simp only [perform, Prod.map_snd, id, MemoryCache.timeoutMessages]
    split <;> rfl
  | remove queue ids => rfl

/-- The text under a key of the cache. -/
def CacheChoice.read : (cache : CacheChoice) → cache.State → String → String
  | .redis cache, s, key => (s.str (cache.generalCacheKey key)).getD ""
  | .memory _, c, key => c.keys key

theorem CacheChoice.get_read (cache : CacheChoice) (key : String) (s : cache.State) :
    cache.calls.get key s = (.ok (cache.read s key), s) := by
  cases cache with
  | redis cache => rfl
  | memory order => rfl

theorem CacheChoice.read_perform (cache : CacheChoice) (op : Op) (s : cache.State) (key : String) :
    cache.read (cache.calls.perform op s).2 key = cache.read s key := by
  cases cache with
  | redis cache =>
    exact congrArg (fun str : String → Option String => (str (cache.generalCacheKey key)).getD "")
      (str_perform cache op s)
  | memory order =>
    exact congrArg (fun keys : String → String => keys key) (MemoryCache.keys_perform order op s)

namespace Scheduler

theorem runningKey (storage : StorageChoice ι) (cache : CacheChoice)
    (queues : String → RedisCache.PoolType → cache.State → Except CacheError (List String))
    (configurations : Except StorageError (List QueueConfiguration)) :
    RunningKey (Tasks.handle storage.calls cache.calls queues configurations)
      fun w => cache.read w.2 recoveryRunning := by
  refine ⟨fun w v hv => ?_, fun c w hc => ?_⟩
  · have hv : (cache.calls.get recoveryRunning w.2).1 = .ok v := hv
    rw [cache.get_read] at hv
    exact (Except.ok.inj hv).symm
  · cases c with
    | command c =>
      cases c with
      | cache op => exact cache.read_perform op w.2 _
      | cacheGet key =>
        change cache.read (cache.calls.get key w.2).2 _ = _
        rw [cache.get_read]
      | cacheSet key value => exact hc.elim
      | _ => rfl
    | _ => rfl

variable {κ : Type} [DecidableEq κ]

/-- In an instance, whatever its schedulers and its clients do in between: of the tasks with the
lock one is executed at a time, and expired or exceeding messages are removed only while the key
does not tell that a recovery is running. -/
theorem removals_outside_recovery (internalIds : InternalIds ι) (storage : StorageChoice ι)
    (cache : CacheChoice)
    (queues : String → RedisCache.PoolType → cache.State → Except CacheError (List String))
    (configurations : Except StorageError (List QueueConfiguration))
    {s₀ s : State ι (storage.State × cache.State) κ} {tr : List (Label κ × Unit)}
    (h₀ : Resting s₀)
    (hrun : Run (machine internalIds
      (Tasks.handle storage.calls cache.calls queues configurations)) s₀ tr s) :
    (∀ name name', name.locks = true → name'.locks = true → s.stage name = .executing →
      s.stage name' = .executing → name = name') ∧
    ∀ name c next, name.removes = true → s.threads.thread (.inl name) = some (.call c next) →
      Removes c → cache.read s.threads.shared.stores.2 recoveryRunning ≠ "true" := by
  have h := guarded_run (runningKey storage cache queues configurations) h₀ hrun
  refine ⟨fun name name' hlocks hlocks' hexec hexec' => ?_, fun name c next hname hp hc => ?_⟩
  · have hlock := h.scheduled.holds name hlocks hexec
    rw [h.scheduled.holds name' hlocks' hexec'] at hlock
    exact (Option.some.inj hlock).symm
  · exact (h.heedful.heeds name _ hname hp).not_removes hc

/-- Two messages of a queue that may have one, and the task that removes the other. -/
def exceedingWork : List (Label Unit) :=
  [.request () (addMessage "q" "a") "", .step (.inr ()), .step (.inr ()), .step (.inr ()),
    .answer (), .request () (addMessage "q" "b") "", .step (.inr ()), .step (.inr ()),
    .step (.inr ()), .answer (), .fire .maxElements (.task .maxElements), .lock .maxElements,
    .step (.inl .maxElements), .step (.inl .maxElements), .step (.inl .maxElements),
    .step (.inl .maxElements), .step (.inl .maxElements)]

def exceedingCalls : (c : StoreCall) → MongoStorage.Documents ℕ × Redis →
    c.Answer ℕ × (MongoStorage.Documents ℕ × Redis) :=
  Tasks.handle (StorageChoice.mongodb InternalIds.counter).calls (CacheChoice.redis ⟨""⟩).calls
    (fun _ _ _ => .ok []) (.ok [{ queue := "q", maxElements := 1 }])

def exceedingStart : State ℕ (MongoStorage.Documents ℕ × Redis) Unit where
  threads := ⟨⟨(Table.empty 0, Redis.empty), fun _ => false, [], []⟩, fun _ => none⟩
  stage := fun _ => .waiting
  lock := none
  pending := fun _ => 0
  started := false

theorem exceedingStart_resting : Resting exceedingStart :=
  ⟨fun _ => rfl, fun _ => rfl, rfl, fun _ => rfl⟩

/-- The next command of a task removes documents. -/
def State.removing {ω : Type} (s : State ι ω κ) (name : TaskName) : Bool :=
  match s.threads.thread (.inl name) with
  | some (.call (.call (.command (.storageRemove _ _))) _) => true
  | _ => false

omit [LinearOrder ι] [DecidableEq κ] in
theorem State.exists_removes {ω : Type} {s : State ι ω κ} {name : TaskName}
    (h : s.removing name = true) :
    ∃ c next, s.threads.thread (.inl name) = some (.call c next) ∧ Removes c := by
  unfold removing at h
  split at h
  · refine ⟨_, _, ‹_›, ?_⟩
    trivial
  · cases h

/-- The task gets to a removal. -/
theorem exists_exceeding : ∃ tr, ∃ s : State ℕ (MongoStorage.Documents ℕ × Redis) Unit,
    Run (machine InternalIds.counter exceedingCalls) exceedingStart tr s ∧
      s.removing .maxElements = true := by
  obtain ⟨⟨tr, s⟩, hreplay, hend⟩ := (Option.any_eq_true _ _).mp
    (show ((replay (fun s l => (next InternalIds.counter exceedingCalls s l).map fun t => ((), t))
      exceedingStart exceedingWork).any fun r => r.2.removing .maxElements) = true
      by decide +kernel)
  exact ⟨tr, s, run_replay hreplay, hend⟩

theorem removals_outside_recovery_exceeding :
    ∃ tr, ∃ s : State ℕ (MongoStorage.Documents ℕ × Redis) Unit,
      Run (machine InternalIds.counter exceedingCalls) exceedingStart tr s ∧
      s.removing .maxElements = true ∧
      (CacheChoice.redis ⟨""⟩).read s.threads.shared.stores.2 recoveryRunning ≠ "true" := by
  obtain ⟨tr, s, hrun, hend⟩ := exists_exceeding
  obtain ⟨c, next, hp, hc⟩ := State.exists_removes hend
  have hkey := (removals_outside_recovery InternalIds.counter (.mongodb InternalIds.counter)
    (.redis ⟨""⟩) (fun _ _ _ => .ok []) (.ok [{ queue := "q", maxElements := 1 }])
    exceedingStart_resting hrun).2 .maxElements c next rfl hp hc
  exact ⟨tr, s, hrun, hend, hkey⟩

end Scheduler

end Deckard

namespace Deckard.Scheduler

open Binary64 Cache Program Prog Tasks Runs Audited

variable {ι ω κ : Type} [LinearOrder ι] [DecidableEq κ] {s t : State ι ω κ}

/-! ## Every task comes to its end -/

variable (internalIds : InternalIds ι) (calls : (c : StoreCall) → ω → c.Answer ι × ω)

variable {internalIds calls} in
theorem Scheduled.run {tr : List (Label κ × Unit)} (h : Scheduled s)
    (hrun : Run (machine internalIds calls) s tr t) : Scheduled t :=
  hrun.along (Q := fun _ s => Scheduled s) h
    fun _ _ _ _ _ _ _ hstep h => h.moves (moves_of_machine hstep)

end Deckard.Scheduler
