import Deckard.MemoryRefinement
import Deckard.Orphans
import Deckard.RedisRuns
import Deckard.WorkCommands

/-!
# The audit trail

The entries that the functions of the queue hand to the auditor, in their order. However the
requests of clients and the tasks of the housekeeper interleave, each insertion, settlement,
unlocking and timeout that the cache reports is announced by one entry, and no other is.
-/
namespace Deckard.Audited

open Binary64 Effect Cache Program Prog Tasks Runs Lifecycle

variable {ι ε α β ω : Type}

/-- The stores, the answers to come of the polls of the shutdown, the calls of the cache with their
results and the entries handed to the auditor. -/
structure State (ω : Type) where
  stores : ω
  polls : ℕ → Bool
  calls : List Call
  trail : List Entry

/-- The call of the cache that a command makes, with its result. -/
def recorded : (c : TaskCommand) → TaskAnswer ι c → List Call
  | .call (.command (.cache op)), r => [(op, op.outcome r)]
  | _, _ => []

/-- The next poll is answered as it comes. -/
def State.poll (s : State ω) : Bool × State ω :=
  (s.polls 0, { s with polls := fun i => s.polls (i + 1) })

def audited (calls : (c : StoreCall) → ω → c.Answer ι × ω) :
    (c : TaskCommand) → State ω → TaskAnswer ι c × State ω
  | .call c, s =>
      ((calls c s.stores).1, { s with
        stores := (calls c s.stores).2
        calls := s.calls ++ recorded (.call c) (calls c s.stores).1 })
  | .ongoing, s => s.poll
  | .contextCanceled, s => s.poll
  | .store entry, s => ((), { s with trail := s.trail ++ [entry] })

variable {calls : (c : StoreCall) → ω → c.Answer ι × ω}

theorem calls_audited (c : TaskCommand) (s : State ω) :
    (audited calls c s).2.calls = s.calls ++ recorded c (audited calls c s).1 := by
  cases c with
  | call c => rfl
  | _ => simp [audited, recorded, State.poll]

/-! ## Announced reports -/

/-- A report, with the queue and the id of its message. -/
abbrev Note := Report × String × String

/-- What an entry announces. -/
def announcement (entry : Entry) : Multiset Note :=
  match Signal.report entry.signal with
  | some report => {(report, entry.queue, entry.id)}
  | none => 0

/-- The same report of some messages of a queue. -/
def notes (report : Report) (queue : String) (ids : List String) : Multiset Note :=
  (ids.map fun id => ({(report, queue, id)} : Multiset Note)).sum

/-- What a call with its result reports. -/
def reports : Call → Multiset Note
  | (.insert queue _, .ids l) => notes .inserted queue l
  | (.makeAvailable message, .flag _) => notes .settled message.queue [message.id]
  | (.lockMessage _ message _, .flag _) => notes .settled message.queue [message.id]
  | (.unlockMessages _ queue _, .ids l) => notes .unlocked queue l
  | (.timeoutMessages _ queue, .ids l) => notes .timedOut queue l
  | _ => 0

def announced (trail : List Entry) : Multiset Note := (trail.map announcement).sum

def reported (calls : List Call) : Multiset Note := (calls.map reports).sum

/-- What the answer to a command obliges a program to announce. -/
def incurs (c : TaskCommand) (r : TaskAnswer ι c) : Multiset Note := reported (recorded c r)

/-- What a command announces. -/
def pays : TaskCommand → Multiset Note
  | .store entry => announcement entry
  | _ => 0

theorem reported_audited (c : TaskCommand) (s : State ω) :
    reported (audited calls c s).2.calls = reported s.calls + incurs c (audited calls c s).1 := by
  rw [calls_audited, reported, List.map_append, List.sum_append]
  rfl

theorem announced_audited (c : TaskCommand) (s : State ω) :
    announced (audited calls c s).2.trail = announced s.trail + pays c := by
  cases c with
  | store entry => simp [audited, announced, pays]
  | _ => simp [audited, pays, State.poll]

/-! ## What the threads owe -/

/-- What an entry about a subject announces. -/
def note : Subject → Multiset Note
  | (some report, queue, id) => {(report, queue, id)}
  | (none, _, _) => 0

theorem announcement_eq (entry : Entry) : announcement entry = note (subject entry) := by
  unfold announcement subject
  split
  · rename_i report hreport
    rw [hreport]
    rfl
  · rename_i hreport
    rw [hreport]
    rfl

/-- The entries that are due after a call announce what it reports. -/
theorem reports_eq (op : Op) (r : Except CacheError op.Value) :
    reports (op, op.outcome r) = ((due (op, op.outcome r)).map note).sum := by
  rcases r with e | a
  · cases op <;> rfl
  · cases op with
    | remove queue ids =>
      change 0 = ((ids.map fun id => (none, queue, id)).map note).sum
      simp [note, Function.comp_def]
    | _ => simp [reports, due, Op.outcome, Op.result, notes, note, Function.comp_def]

theorem incurs_cache (op : Op) (r : Except CacheError op.Value) :
    incurs (ι := ι) (.call (.command (.cache op))) r = reports (op, op.outcome r) := by
  simp [incurs, recorded, reported]

/-- What a program has still to announce in a phase. -/
def owes : Phase → Multiset Note
  | .owing subjects => (subjects.map note).sum
  | .missing _ _ => 0

/-- An allowed command pays what it announces, and what its answer reports is owed from then on. -/
theorem owes_step (phase : Phase) (c : TaskCommand) (h : phase.allows c) :
    ∃ rest, owes phase = pays c + rest ∧
      ∀ r : TaskAnswer ι c, owes (phase.next c r) = rest + incurs c r := by
  rcases phase with (_ | ⟨d, subjects⟩) | ⟨queue, ids⟩
  · -- nothing is due
    refine ⟨0, ?_, fun r => ?_⟩
    · cases c with
      | store entry =>
        have hsignal : entry.signal = .missingStorage := h
        simp [owes, pays, announcement, hsignal, Signal.report]
      | _ => rfl
    · cases c with
      | call c =>
        cases c with
        | command c =>
          cases c with
          | cache op =>
            rw [zero_add, incurs_cache, reports_eq]
            rfl
          | _ => rfl
        | _ => rfl
      | _ => rfl
  · cases c with
    | store entry =>
      obtain rfl : subject entry = d := h
      refine ⟨(subjects.map note).sum, ?_, fun r => ?_⟩
      · simp [owes, pays, announcement_eq]
      · exact (add_zero _).symm
    | _ => exact h.elim
  · cases c with
    | store entry =>
      obtain ⟨hsignal, -⟩ : entry.signal = .missingStorage ∧ entry.queue = queue := h
      refine ⟨0, ?_, fun r => rfl⟩
      simp [owes, pays, announcement, hsignal, Signal.report]
    | call c =>
      cases c with
      | command c =>
        obtain rfl : c = .cache (.remove queue ids) := h
        refine ⟨0, rfl, fun r => ?_⟩
        rw [zero_add, incurs_cache]
        rcases r with e | n
        · rfl
        · rfl
      | _ => exact h.elim
    | _ => exact h.elim

theorem discharges_work [LinearOrder ι] (internalIds : InternalIds ι) (work : Work) :
    Discharges incurs pays (work.program internalIds) 0 := by
  have hwork : Conforms (work.Issues fun _ => True) (fun _ => True) .clear
      (work.program internalIds) := conforms_work internalIds work
  refine hwork.discharges owes finds_true (fun phase c h => owes_step phase c h.2) ?_
  rintro r _ rfl
  rfl

/-- Clients, recoveries and tasks whose commands interleave. -/
abbrev System (ι ω κ : Type) :=
  Threads (State ω) κ TaskCommand (TaskAnswer ι) ServiceError (Option Response)

/-- Each insertion, settlement, unlocking and timeout that a call of the cache has reported is
announced by one entry, at the latest when no request is in progress any more, and nothing is
announced that has not been reported. -/
theorem reports_announced_once [LinearOrder ι] (internalIds : InternalIds ι) {κ : Type}
    [DecidableEq κ] [Fintype κ] (calls : (c : StoreCall) → ω → c.Answer ι × ω)
    {s₀ s : System ι ω κ}
    {tr : List (Label κ Work × Option (Except ServiceError (Option Response)))}
    (hidle : s₀.Idle) (hfresh : s₀.shared.calls = [] ∧ s₀.shared.trail = [])
    (hrun : Run (interleaved (audited calls) (Work.program internalIds)) s₀ tr s) :
    announced s.shared.trail ≤ reported s.shared.calls ∧
      (s.Idle → announced s.shared.trail = reported s.shared.calls) := by
  have hstart : reported s₀.shared.calls = announced s₀.shared.trail := by
    rw [hfresh.1, hfresh.2]
    rfl
  have hbalanced : Balanced incurs pays (fun s : State ω => reported s.calls)
      (fun s => announced s.trail) s :=
    balanced_run (discharges_work internalIds) reported_audited announced_audited hrun
      (balanced_of_idle hidle hstart)
  refine ⟨?_, fun hend => (hbalanced.of_idle hend).symm⟩
  obtain ⟨debt, hsum, -⟩ := hbalanced
  dsimp only at hsum
  rw [hsum]
  exact Multiset.le_add_right _ _

/-- Two clients add the same message at the same time. -/
def sameMessage : List (Label Bool Work) :=
  [.start true (.client (addMessage "q" "a") ""), .start false (.client (addMessage "q" "a") ""),
    .step true, .step false, .step true, .step false, .step true, .finish false, .finish true]

theorem reports_announced_once_sameMessage :
    ∃ tr, ∃ s : System ℕ (MongoStorage.Documents ℕ × Redis) Bool,
      Run (interleaved (audited (Tasks.handle (MongoStorage.calls InternalIds.counter)
        (RedisCache.calls ⟨""⟩) (fun _ _ _ => .ok []) (.ok [])))
        (Work.program InternalIds.counter))
        ⟨⟨(Table.empty 0, Redis.empty), fun _ => false, [], []⟩, fun _ => none⟩ tr s ∧
      s.shared.trail.length = 1 ∧ announced s.shared.trail = reported s.shared.calls := by
  obtain ⟨⟨tr, s⟩, hfollow, hend⟩ := (Option.any_eq_true _ _).mp
    (show ((follow (audited (Tasks.handle (MongoStorage.calls InternalIds.counter)
        (RedisCache.calls ⟨""⟩) (fun _ _ _ => .ok []) (.ok [])))
        (Work.program InternalIds.counter)
        ⟨⟨(Table.empty 0, Redis.empty), fun _ => false, [], []⟩, fun _ => none⟩
        sameMessage).any fun r => (r.2.thread true).isNone && (r.2.thread false).isNone &&
          decide (r.2.shared.trail.length = 1)) = true by decide +kernel)
  simp only [Bool.and_eq_true, Option.isNone_iff_eq_none, decide_eq_true_eq] at hend
  have hidle : s.Idle := by
    intro k
    cases k
    · exact hend.1.2
    · exact hend.1.1
  have hrun := run_follow hfollow
  exact ⟨tr, s, hrun, hend.2,
    (reports_announced_once InternalIds.counter _ (fun _ => rfl) ⟨rfl, rfl⟩ hrun).2 hidle⟩

end Deckard.Audited
