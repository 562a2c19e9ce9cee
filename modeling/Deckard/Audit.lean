import Deckard.Channel
import Deckard.MemoryStorage
import Deckard.Service

/-!
# The auditor

`Store` puts entries into a channel and the sender takes them out and hands them to `send` in
batches. What the sender does next is a choice among the cases that are ready: an entry, the
timer, or the end of the context. In the last case it closes the channel and sends what it has
taken, but not what the channel still holds.
-/
namespace Deckard

open Binary64 Runs

inductive Signal
  | ack
  | nack
  | timeout
  | remove
  | unlock
  | insertCache
  | missingStorage
  deriving DecidableEq

def Signal.text : Signal → String
  | .ack => "ACK"
  | .nack => "NACK"
  | .timeout => "TIMEOUT"
  | .remove => "REMOVE"
  | .unlock => "UNLOCK"
  | .insertCache => "INSERT_CACHE"
  | .missingStorage => "MISSING_STORAGE"

structure Entry where
  id : String
  queue : String
  queuePrefix : String := ""
  queueSuffix : String := ""
  lastScoreSubtract : Float64 := .ofInt 0
  timestamp : Time := MemoryStorage.zeroTime
  breakpoint : String := ""
  signal : Signal
  reason : String := ""
  lockMs : Int64 := 0
  deriving DecidableEq

/-- The progress of `StartSender`, with the entries taken and not yet sent. In the end it has
closed the channel and is about to send for the last time. -/
inductive Sender
  | notStarted
  | looping (entriesToSend : List Entry)
  | closing (entriesToSend : List Entry)
  | returned
  deriving DecidableEq

/-- The entries that the sender has taken and not sent. -/
def Sender.entriesToSend : Sender → List Entry
  | .looping entriesToSend | .closing entriesToSend => entriesToSend
  | .notStarted | .returned => []

structure Auditor where
  enabled : Bool
  entries : Channel Entry
  sender : Sender

namespace Auditor

def maxEntriesSize : ℕ := 200

def newAuditor (enabled : Bool) : Auditor := ⟨enabled, .new Entry 10000, .notStarted⟩

/-- The entry that `Store` puts into the channel. -/
def stamped (now : Time) (entry : Entry) : Entry :=
  let (queuePrefix, queueSuffix) := getQueueParts entry.queue
  { entry with
    timestamp := now
    queuePrefix := queuePrefix
    queueSuffix := if queueSuffix ≠ "" then queueSuffix else entry.queueSuffix }

/-- What can be seen of a step: an entry is put, or a batch is handed to `send`. -/
inductive Event
  | none
  | put (entry : Entry)
  | panicked
  | handed (entries : List Entry)
  deriving DecidableEq

def Event.entry : Event → Option Entry
  | .put entry => some entry
  | _ => Option.none

def Event.batch : Event → Option (List Entry)
  | .handed entries => some entries
  | _ => Option.none

/-- A call of `Store`. If the channel is full it waits: there is no step. -/
def store (now : Time) (entry : Entry) (a : Auditor) : Option (Event × Auditor) :=
  if a.enabled = false then some (.none, a)
  else match a.entries.send (stamped now entry) with
    | .panics => some (.panicked, a)
    | .waits => none
    | .done entries => some (.put (stamped now entry), { a with entries := entries })

/-- What the sender does next. -/
inductive Choice
  | start
  | receive
  | timer
  | done
  | last
  deriving DecidableEq

/-- The case of an entry: a full batch is sent. -/
def received (a : Auditor) (entriesToSend : List Entry) : Option (Event × Auditor) :=
  match a.entries.receive with
  | none => none
  | some (entry, entries) =>
      let batch := entriesToSend ++ [entry]
      if batch.length = maxEntriesSize then
        some (.handed batch, { a with entries := entries, sender := .looping [] })
      else some (.none, { a with entries := entries, sender := .looping batch })

/-- One step of `StartSender`; `done` tells whether the context has been cancelled. -/
def send (done : Bool) (a : Auditor) : Choice → Option (Event × Auditor)
  | .start =>
      if a.sender ≠ .notStarted then none
      else some (.none, { a with sender := if a.enabled then .looping [] else .returned })
  | .receive =>
      match a.sender with
      | .looping entriesToSend => a.received entriesToSend
      | _ => none
  | .timer =>
      match a.sender with
      | .looping entriesToSend =>
          if 0 < entriesToSend.length then
            some (.handed entriesToSend, { a with sender := .looping [] })
          else some (.none, a)
      | _ => none
  | .done =>
      match a.sender with
      | .looping entriesToSend =>
          if done then
            some (.none, { a with entries := a.entries.close, sender := .closing entriesToSend })
          else none
      | _ => none
  | .last =>
      match a.sender with
      | .closing entriesToSend => some (.handed entriesToSend, { a with sender := .returned })
      | _ => none

end Auditor

namespace Audit

open Auditor

/-- The auditor and whether its context has been cancelled. -/
structure State where
  auditor : Auditor
  cancelled : Bool

inductive Label
  | store (now : Time) (entry : Entry)
  | send (choice : Choice)
  | cancel
  deriving DecidableEq

def step (s : State) : Label → Option (Event × State)
  | .store now entry => (s.auditor.store now entry).map fun r => (r.1, { s with auditor := r.2 })
  | .send choice =>
      (s.auditor.send s.cancelled choice).map fun r => (r.1, { s with auditor := r.2 })
  | .cancel => some (.none, { s with cancelled := true })

/-- Calls of `Store`, choices of the sender and cancellations in any order. -/
def machine : Machine State Label Event := ofPartial step

def fresh (enabled : Bool) : State := ⟨newAuditor enabled, false⟩

abbrev Trace := List (Label × Event)

/-- The entries put into the channel. -/
def putEntries (tr : Trace) : List Entry := tr.filterMap fun e => e.2.entry

/-- The batches handed to `send`. -/
def batches (tr : Trace) : List (List Entry) := tr.filterMap fun e => e.2.batch

/-- The part of a trace before the cancellation. -/
def beforeCancel (tr : Trace) : Trace := tr.takeWhile fun e => e.1 ≠ .cancel

end Audit

end Deckard
