import Deckard.Score

/-!
# Messages

The record that the service, the queue, the cache and the storage exchange. A
storage adds its internal identifier to it as a `Document`; nothing else sets one.
-/
namespace Deckard

open Binary64

/-- The two reasons for which a message is locked. -/
inductive LockType
  | lockAck
  | lockNack
  deriving DecidableEq, Repr

/-- The text of the Go constant, part of the Redis keys. -/
def LockType.text : LockType → String
  | .lockAck => "lock_ack"
  | .lockNack => "lock_nack"

/-- Counters of a message; an absent one has never been written. -/
structure MessageDiagnostics where
  acks : Option Int64 := none
  nacks : Option Int64 := none
  consecutiveAcks : Option Int64 := none
  consecutiveNacks : Option Int64 := none
  deriving DecidableEq

/-- All data of a message. `metadata` and `payload` are `none` for a nil map; a
payload value stands for its serialized form. -/
structure Message where
  id : String
  queue : String
  description : String := ""
  expiryDate : Time := 0
  timeless : Bool := false
  metadata : Option (List (String × String)) := none
  payload : Option (List (String × String)) := none
  stringPayload : String := ""
  lockMs : Int64 := 0
  score : Float64 := .ofInt 0
  lastUsage : Option Time := none
  breakpoint : String := ""
  lastScoreSubtract : Float64 := .ofInt 0
  totalScoreSubtract : Float64 := .ofInt 0
  usageCount : Int64 := 0
  queuePrefix : String := ""
  queueSuffix : String := ""
  diagnostics : Option MessageDiagnostics := none
  deriving DecidableEq

end Deckard
