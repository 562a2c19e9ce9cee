import Deckard.Queue

/-!
# The service

The requests of the gRPC service that change messages, and the two steps of the
housekeeper that move them back. A request carries what the outside decides: its
fields, the readings of the clock and the order in which a map is iterated.
-/
namespace Deckard

open Binary64 Effect Cache Program Prog

structure AddMessage where
  id : String
  queue : String
  payload : Option (List (String × String)) := none
  stringPayload : String := ""
  timeless : Bool := false
  ttlMinutes : Int64 := 0
  description : String := ""
  metadata : Option (List (String × String)) := none
  score : Float64 := .ofInt 0

structure PullRequest where
  queue : String
  amount : Int32 := 0
  scoreFilter : Int64 := 0
  maxScore : Float64 := .ofInt 0
  minScore : Float64 := .ofInt 0
  ackDeadlineMs : Int64 := 0

/-- Request of `Ack` and of `Nack`. -/
structure AckRequest where
  id : String
  queue : String
  scoreSubtract : Float64 := .ofInt 0
  breakpoint : String := ""
  lockMs : Int64 := 0
  removeMessage : Bool := false
  score : Float64 := .ofInt 0

structure RemoveRequest where
  ids : List String
  queue : String

structure RemoveResponse where
  cacheRemoved : ℕ
  storageRemoved : ℕ
  deriving DecidableEq

structure ResponseDiagnostics where
  acks : Int64
  nacks : Int64
  consecutiveAcks : Int64
  consecutiveNacks : Int64
  deriving DecidableEq

/-- A message as a pull returns it. -/
structure ResponseMessage where
  id : String
  queue : String
  score : Float64
  breakpoint : String
  payload : Option (List (String × String))
  stringPayload : String
  metadata : Option (List (String × String))
  diagnostics : ResponseDiagnostics
  deriving DecidableEq

structure AckResponse where
  success : Bool
  removalResponse : Option RemoveResponse := none
  deriving DecidableEq

/-- The status errors; all have the code `Internal`. -/
inductive ServiceError
  | addingMessages
  | pullingMessages
  | messageAck
  | messageNack
  | removingMessages
  | messageRemovalAck
  | housekeeper (cause : QueueError)
  deriving DecidableEq

def ServiceError.text : ServiceError → String
  | .addingMessages => "error adding messages"
  | .pullingMessages => "error pulling messages"
  | .messageAck => "error on message ACK"
  | .messageNack => "error on message NACK"
  | .removingMessages => "error removing messages from pool"
  | .messageRemovalAck => "error on message REMOVAL ACK"
  | .housekeeper e => e.text

/-- How many seconds the clocks of a place are ahead of UTC, at each second of UTC. -/
structure Zone where
  offset : ℤ → ℤ

def Zone.utc : Zone := ⟨fun _ => 0⟩

namespace Dtime

def nanosPerSecond : ℤ := 1000000000

def nanosPerDay : ℤ := 86400000000000

/-- Day count of a date of the Gregorian calendar; a day past the end of its month is
counted on. -/
def daysFromCivil (year month day : ℤ) : ℤ :=
  let y := if month ≤ 2 then year - 1 else year
  let era := y / 400
  let yearOfEra := y - era * 400
  let dayOfYear := (153 * (if 2 < month then month - 3 else month + 9) + 2) / 5 + day - 1
  let dayOfEra := yearOfEra * 365 + yearOfEra / 4 - yearOfEra / 100 + dayOfYear
  era * 146097 + dayOfEra - 719468

/-- Year, month and day of a day count. -/
def civilFromDays (days : ℤ) : ℤ × ℤ × ℤ :=
  let z := days + 719468
  let era := z / 146097
  let dayOfEra := z - era * 146097
  let yearOfEra := (dayOfEra - dayOfEra / 1460 + dayOfEra / 36524 - dayOfEra / 146096) / 365
  let dayOfYear := dayOfEra - (365 * yearOfEra + yearOfEra / 4 - yearOfEra / 100)
  let mp := (5 * dayOfYear + 2) / 153
  let day := dayOfYear - (153 * mp + 2) / 5 + 1
  let month := if mp < 10 then mp + 3 else mp - 9
  (yearOfEra + era * 400 + if month ≤ 2 then 1 else 0, month, day)

/-- The time at which the clocks of a place show something, given as a time of UTC. Where they are
put forward or back it is the one that `time.Date` takes. -/
def ofWall (zone : Zone) (wall : ℤ) : Time :=
  let seconds := wall / nanosPerSecond
  wall - zone.offset (seconds - zone.offset seconds) * nanosPerSecond

/-- `AddDate` of whole years, on the clocks of a place. -/
def addYears (zone : Zone) (years : ℤ) (t : Time) : Time :=
  let wall := t + zone.offset (t / nanosPerSecond) * nanosPerSecond
  let (year, month, day) := civilFromDays (wall / nanosPerDay)
  ofWall zone (daysFromCivil (year + years) month day * nanosPerDay + wall % nanosPerDay)

/-- Nanoseconds of a number of minutes, in the 64 bits of a duration. -/
def minutes (n : Int64) : Int64 := 60000000000 * n

end Dtime

/-- Text before and after the first `::`. -/
def splitSeparator : List Char → Option (List Char × List Char)
  | ':' :: ':' :: rest => some ([], rest)
  | c :: rest => (splitSeparator rest).map fun parts => (c :: parts.1, parts.2)
  | [] => none

def getQueueParts (queue : String) : String × String :=
  match splitSeparator queue.toList with
  | some (front, back) => (String.ofList front, String.ofList back)
  | none => (queue, "")

namespace Service

variable {ι : Type}

abbrev ServiceProg (ι α : Type) := Prog Command (Answer ι) ServiceError α

/-- Date at which a message added at `now` expires. -/
def expiryDate (zone : Zone) (now : Time) (m : AddMessage) : Time :=
  let t := if m.ttlMinutes ≠ 0 then now + (Dtime.minutes m.ttlMinutes).toInt else now
  if m.timeless then Dtime.addYears zone 100 t else t

/-- The message that a request adds; one reading of the clock gives its expiry date and
the next one its default score. -/
def addedMessage (zone : Zone) (clock : Clock) (m : AddMessage) : Message :=
  { id := m.id
    queue := m.queue
    timeless := m.timeless
    score := Score.getAddScore (clock 1) m.score
    description := m.description
    expiryDate := expiryDate zone (clock 0) m
    payload := m.payload
    stringPayload := m.stringPayload
    metadata := m.metadata
    queuePrefix := (getQueueParts m.queue).1
    queueSuffix := (getQueueParts m.queue).2 }

/-- The messages of a request, each with its own readings of the clock. -/
def addedMessages (zone : Zone) (clock : Clock) : List AddMessage → List Message
  | [] => []
  | m :: ms => addedMessage zone clock m :: addedMessages zone (fun i => clock (i + 2)) ms

/-- Created and updated documents. -/
def add (zone : Zone) (clock : Clock) (order : MapOrder) (request : List AddMessage) :
    ServiceProg ι (ℕ × ℕ) :=
  mapError (fun _ => .addingMessages) do
    let messages := addedMessages zone clock request
    let counts ← Queue.addMessagesToStorage (clock (2 * request.length)) messages
    let _ ← Queue.addMessagesToCache order messages
    pure counts

def diagnostics (d : Option MessageDiagnostics) : ResponseDiagnostics :=
  let d := d.getD {}
  { acks := d.acks.getD 0
    nacks := d.nacks.getD 0
    consecutiveAcks := d.consecutiveAcks.getD 0
    consecutiveNacks := d.consecutiveNacks.getD 0 }

def responseMessage (m : Message) : ResponseMessage :=
  { id := m.id
    queue := m.queue
    score := m.score
    breakpoint := m.breakpoint
    payload := m.payload
    stringPayload := m.stringPayload
    metadata := m.metadata
    diagnostics := diagnostics m.diagnostics }

/-- Number of messages that a pull asks for: one to a thousand. -/
def pullAmount (amount : Int32) : Int64 :=
  let n := amount.toInt64
  let n := if n ≤ 0 then 1 else n
  if 1000 < n then 1000 else n

/-- The deprecated score filter stands for a maximum score. -/
def pullMaxScore (now : Time) (request : PullRequest) : Float64 :=
  if request.maxScore.eq (.ofInt 0) ∧ 0 < request.scoreFilter then
    .ofInt (Dtime.timeToMs now - request.scoreFilter).toInt
  else request.maxScore

def pull (clock : Clock) (request : PullRequest) : ServiceProg ι (List ResponseMessage) :=
  mapError (fun _ => .pullingMessages) do
    let messages ← Queue.pull (fun i => clock (i + 1)) request.queue (pullAmount request.amount)
      (Score.getPullMinScore request.minScore)
      (Score.getPullMaxScore (pullMaxScore (clock 0) request)) request.ackDeadlineMs
    pure ((messages.getD []).map responseMessage)

def remove (request : RemoveRequest) : ServiceProg ι RemoveResponse :=
  if request.ids = [] then pure ⟨0, 0⟩
  else mapError (fun _ => .removingMessages) do
    let (cacheRemoved, storageRemoved) ← Queue.remove request.queue request.ids
    pure ⟨cacheRemoved, storageRemoved⟩

/-- Score that an acknowledgement gives; the undefined one leaves it to the unlocking. -/
def ackScore (now : Time) (request : AckRequest) : Float64 :=
  if !request.score.eq (.ofInt 0) then request.score
  else if request.lockMs = 0 then
    let newScore := (Score.getScoreByDefaultAlgorithm now).sub request.scoreSubtract
    if newScore < Score.min then Score.min
    else if Score.max < newScore then Score.max
    else newScore
  else Score.undefined

def nackScore (request : AckRequest) : Float64 :=
  if !request.score.eq (.ofInt 0) then request.score
  else if request.lockMs = 0 then Score.min
  else Score.undefined

def ackMessage (clock : Clock) (request : AckRequest) : Message :=
  { id := request.id
    queue := request.queue
    lastScoreSubtract := request.scoreSubtract
    lastUsage := some (clock 1)
    score := ackScore (clock 0) request
    breakpoint := request.breakpoint
    lockMs := request.lockMs }

def nackMessage (request : AckRequest) : Message :=
  { id := request.id
    queue := request.queue
    lastScoreSubtract := request.scoreSubtract
    breakpoint := request.breakpoint
    lockMs := request.lockMs
    score := nackScore request }

/-- The removal that an `Ack` or a `Nack` may ask for. -/
def removeMessageFromAckNack (request : AckRequest) : ServiceProg ι AckResponse :=
  mapError (fun _ => .messageRemovalAck) do
    let removeResp ← remove { ids := [request.id], queue := request.queue }
    pure { success := true, removalResponse := some removeResp }

/-- The response once the queue has settled the message. -/
def settled (request : AckRequest) (result : Bool) : ServiceProg ι AckResponse :=
  if request.removeMessage then removeMessageFromAckNack request
  else pure { success := result }

def ack (clock : Clock) (request : AckRequest) : ServiceProg ι AckResponse := do
  let result ← mapError (fun _ => .messageAck)
    (Queue.ack (fun i => clock (i + 2)) (ackMessage clock request))
  settled request result

def nack (clock : Clock) (request : AckRequest) : ServiceProg ι AckResponse := do
  let result ← mapError (fun _ => .messageNack)
    (Queue.nack (fun i => clock (i + 1)) (nackMessage request))
  settled request result

end Service

open Service

/-- What clients and the housekeeper ask for. -/
inductive Request
  | add (zone : Zone) (clock : Clock) (order : MapOrder) (messages : List AddMessage)
  | pull (clock : Clock) (request : PullRequest)
  | ack (clock : Clock) (request : AckRequest)
  | nack (clock : Clock) (request : AckRequest)
  | remove (request : RemoveRequest)
  | unlockMessages (clock : Clock) (queue : String) (lockType : LockType)
  | timeoutMessages (clock : Clock) (queue : String)

inductive Response
  | added (created updated : ℕ)
  | pulled (messages : List ResponseMessage)
  | settled (response : AckResponse)
  | removed (response : RemoveResponse)
  | released (ids : List String)
  deriving DecidableEq

variable {ι : Type} [LinearOrder ι]

def Request.program : Request → ServiceProg ι Response
  | .add zone clock order messages => do
      let counts ← Service.add zone clock order messages
      pure (.added counts.1 counts.2)
  | .pull clock request => .pulled <$> Service.pull clock request
  | .ack clock request => .settled <$> Service.ack clock request
  | .nack clock request => .settled <$> Service.nack clock request
  | .remove request => .removed <$> Service.remove request
  | .unlockMessages clock queue lockType =>
      .released <$> mapError .housekeeper (Queue.unlockMessages clock queue lockType)
  | .timeoutMessages clock queue =>
      .released <$> mapError .housekeeper (Queue.timeoutMessages clock queue)

/-- A request served from its start to its end. -/
def Stores.serve (stores : Stores ι) (w : World ι) (request : Request) :
    Except ServiceError Response × World ι :=
  Prog.run stores.handle request.program w

/-- Requests served one after the other. -/
def Stores.sequential (stores : Stores ι) :
    Runs.Machine (World ι) Request (Except ServiceError Response) :=
  Runs.ofStep stores.serve

/-- An instance with the default configuration. -/
def Stores.default : Stores ℕ := ⟨InternalIds.counter, ⟨""⟩⟩

/-- Both stores empty. -/
def World.empty : World ℕ := ⟨Table.empty 0, Redis.empty⟩

/-- Requests of any number of clients whose commands interleave. -/
def Stores.concurrent (stores : Stores ι) (κ : Type) [DecidableEq κ] :
    Runs.Machine (Threads (World ι) κ Command (Answer ι) ServiceError Response) (Label κ Request)
      (Option (Except ServiceError Response)) :=
  interleaved stores.handle Request.program

end Deckard
