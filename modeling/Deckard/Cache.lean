import Deckard.Message
import Deckard.Redis

/-!
# The cache interface

The calls that both caches implement, the results they give and the errors they
return. A call carries the readings of the clock that it makes, in order.
-/
namespace Deckard

open Binary64

/-- Successive readings of the clock during a call. -/
abbrev Clock := ℕ → Time

/-- The errors of a cache, by what can go wrong with its commands. -/
inductive CacheErrorOf (ε : Type)
  | queueNameContainsClusterHashTag
  | invalidMessageQueue
  | invalidQueueToLock
  | invalidLockTime
  | invalidLockSeconds
  | invalidQueueToInsertData
  | removingElements (cause : ε)
  | makingElementAvailable (cause : ε)
  | lockingElement (cause : ε)
  | parsingResult (cause : ε)
  | insertingCache (cause : ε)
  | checkingProcessing (cause : ε)
  | gettingElement (cause : ε)
  | settingElement (cause : ε)
  | listingQueues (cause : ε)
  | listingAcrossShards (cause : ε)
  deriving DecidableEq, Repr

def CacheErrorOf.text {ε : Type} (text : ε → String) : CacheErrorOf ε → String
  | .queueNameContainsClusterHashTag => "queue names cannot contain '\x7b' or '\x7d'"
  | .invalidMessageQueue => "invalid message queue"
  | .invalidQueueToLock => "invalid queue to lock"
  | .invalidLockTime => "invalid lock time"
  | .invalidLockSeconds => "invalid lock seconds"
  | .invalidQueueToInsertData => "invalid queue to insert data"
  | .removingElements e => "error removing cache elements: " ++ text e
  | .makingElementAvailable e => "error making element available on cache: " ++ text e
  | .lockingElement e => "error locking cache element: " ++ text e
  | .parsingResult e => "error parsing result: " ++ text e
  | .insertingCache e => "error inserting cache: " ++ text e
  | .checkingProcessing e => "error checking processing: " ++ text e
  | .gettingElement e => "error getting cache element: " ++ text e
  | .settingElement e => "error setting cache element: " ++ text e
  | .listingQueues e => "error listing cache queues: " ++ text e
  | .listingAcrossShards e => "error listing cache queues across cluster shards: " ++ text e

/-- The same error with another cause. -/
def CacheErrorOf.map {ε ε' : Type} (f : ε → ε') : CacheErrorOf ε → CacheErrorOf ε'
  | .queueNameContainsClusterHashTag => .queueNameContainsClusterHashTag
  | .invalidMessageQueue => .invalidMessageQueue
  | .invalidQueueToLock => .invalidQueueToLock
  | .invalidLockTime => .invalidLockTime
  | .invalidLockSeconds => .invalidLockSeconds
  | .invalidQueueToInsertData => .invalidQueueToInsertData
  | .removingElements e => .removingElements (f e)
  | .makingElementAvailable e => .makingElementAvailable (f e)
  | .lockingElement e => .lockingElement (f e)
  | .parsingResult e => .parsingResult (f e)
  | .insertingCache e => .insertingCache (f e)
  | .checkingProcessing e => .checkingProcessing (f e)
  | .gettingElement e => .gettingElement (f e)
  | .settingElement e => .settingElement (f e)
  | .listingQueues e => .listingQueues (f e)
  | .listingAcrossShards e => .listingAcrossShards (f e)

theorem CacheErrorOf.map_id {ε : Type} : CacheErrorOf.map (id : ε → ε) = id := by
  funext e
  cases e <;> rfl

abbrev CacheError := CacheErrorOf RedisError

def CacheError.text : CacheError → String := CacheErrorOf.text RedisError.text

namespace Cache

/-- Acknowledgement deadline of a pull that asks for none: five minutes. -/
def defaultTimeoutMs : Int64 := 300000

def recoveryRunning : String := "recovery"

def recoveryFinished : String := "recovery_finished"

def recoveryStorageBreakpointKey : String := "recovery_storage_breakpoint"

def recoveryBreakpointKey : String := "recovery_breakpoint"

/-- The calls that change the pools. -/
inductive Op
  | insert (queue : String) (messages : List Message)
  | pullMessages (clock : Clock) (queue : String) (n : Int64) (minScore maxScore : Option Float64)
      (ackDeadlineMs : Int64)
  | makeAvailable (message : Message)
  | lockMessage (clock : Clock) (message : Message) (lockType : LockType)
  | unlockMessages (clock : Clock) (queue : String) (lockType : LockType)
  | timeoutMessages (clock : Clock) (queue : String)
  | remove (queue : String) (ids : List String)

inductive Result
  | ids (ids : List String)
  | flag (moved : Bool)
  | count (removed : ℕ)
  | error (e : CacheError)
  deriving DecidableEq, Repr

/-- The queue whose pools a call works on. -/
def Op.queue : Op → String
  | .insert queue _ | .pullMessages _ queue _ _ _ _ | .unlockMessages _ queue _
  | .timeoutMessages _ queue | .remove queue _ => queue
  | .makeAvailable message | .lockMessage _ message _ => message.queue

/-- The service asks the cache for one to a thousand messages. -/
def Op.AmountOk : Op → Prop
  | .pullMessages _ _ n _ _ _ => 1 ≤ n.toInt ∧ n.toInt ≤ 1000
  | _ => True

/-- No score of the call is NaN. -/
def Op.ScoresOk : Op → Prop
  | .insert _ messages => ∀ m ∈ messages, m.score ≠ .nan
  | .pullMessages _ _ _ minScore maxScore _ => minScore ≠ some .nan ∧ maxScore ≠ some .nan
  | .makeAvailable message => message.score ≠ .nan
  | .lockMessage _ message _ => message.score ≠ .nan
  | _ => True

instance : DecidablePred Op.AmountOk
  | .pullMessages .. => inferInstanceAs (Decidable (_ ∧ _))
  | .insert .. | .makeAvailable .. | .lockMessage .. | .unlockMessages .. | .timeoutMessages ..
  | .remove .. => .isTrue trivial

instance : DecidablePred Op.ScoresOk
  | .insert _ messages => inferInstanceAs (Decidable (∀ m ∈ messages, m.score ≠ .nan))
  | .pullMessages .. => inferInstanceAs (Decidable (_ ∧ _))
  | .makeAvailable message | .lockMessage _ message _ =>
      inferInstanceAs (Decidable (message.score ≠ .nan))
  | .unlockMessages .. | .timeoutMessages .. | .remove .. => .isTrue trivial

end Cache

namespace Gopart

variable {α : Type} {size fuel : ℕ} {xs piece : List α} {pieces : List (List α)}

/-- What `Partition` is documented to do, for the pieces that its ranges cut out of a list: they
follow one another through the whole list, and all have the given size but the last, which may
be shorter. -/
structure Partitions (size : ℕ) (xs : List α) (pieces : List (List α)) : Prop where
  flatten : pieces.flatten = xs
  full : ∀ piece ∈ pieces.dropLast, piece.length = size
  bounded : ∀ piece ∈ pieces, piece ≠ [] ∧ piece.length ≤ size

/-- Pieces taken off the front while any element is left; `fuel` bounds their number. -/
def go (size : ℕ) : ℕ → List α → List (List α)
  | 0, _ => []
  | fuel + 1, xs => if xs.isEmpty then [] else xs.take size :: go size fuel (xs.drop size)

/-- The pieces of the imported `Partition`, which its documented behaviour determines. -/
def partition (size : ℕ) (xs : List α) : List (List α) := go size xs.length xs

theorem partitions_nil : Partitions size ([] : List α) [] :=
  ⟨rfl, by simp, by simp⟩

theorem Partitions.cons (h : Partitions size (xs.drop size) pieces) (hsize : 0 < size)
    (hxs : xs ≠ []) : Partitions size xs (xs.take size :: pieces) := by
  have htake : xs.take size ≠ [] := by simp [List.take_eq_nil_iff, hxs, hsize.ne']
  refine ⟨by rw [List.flatten_cons, h.flatten, List.take_append_drop], ?_,
    List.forall_mem_cons.mpr ⟨⟨htake, List.length_take_le _ _⟩, h.bounded⟩⟩
  cases pieces with
  | nil => simp
  | cons piece pieces =>
    rw [List.dropLast_cons_cons]
    refine List.forall_mem_cons.mpr ⟨?_, h.full⟩
    -- what is left after a piece is not empty, so the piece is full
    have hleft : 0 < (xs.drop size).length := by
      rw [← h.flatten, List.flatten_cons, List.length_append]
      exact Nat.add_pos_left (List.length_pos_iff.mpr (h.bounded piece List.mem_cons_self).1) _
    rw [List.length_drop] at hleft
    rw [List.length_take]
    omega

theorem partitions_go (hsize : 0 < size) (h : xs.length ≤ fuel) :
    Partitions size xs (go size fuel xs) := by
  induction fuel generalizing xs with
  | zero =>
    rw [List.length_eq_zero_iff.mp (Nat.le_zero.mp h)]
    exact partitions_nil
  | succ fuel ih =>
    rw [go]
    split_ifs with hempty
    · rw [List.isEmpty_iff.mp hempty]
      exact partitions_nil
    · have hxs : xs ≠ [] := fun hnil => hempty (by simp [hnil])
      have hpos : 0 < xs.length := List.length_pos_iff.mpr hxs
      exact (ih (by rw [List.length_drop]; omega)).cons hsize hxs

theorem Partitions.eq_nil (h : Partitions size ([] : List α) pieces) : pieces = [] := by
  cases pieces with
  | nil => rfl
  | cons piece pieces =>
    have hpiece : piece = [] := (List.append_eq_nil_iff.mp h.flatten).1
    exact absurd hpiece (h.bounded piece List.mem_cons_self).1

theorem Partitions.uncons (h : Partitions size xs (piece :: pieces)) :
    piece = xs.take size ∧ Partitions size (xs.drop size) pieces := by
  have hxs : piece ++ pieces.flatten = xs := h.flatten
  have hbounded := h.bounded piece List.mem_cons_self
  cases pieces with
  | nil =>
    rw [List.flatten_nil, List.append_nil] at hxs
    rw [← hxs, List.take_of_length_le hbounded.2, List.drop_of_length_le hbounded.2]
    exact ⟨rfl, partitions_nil⟩
  | cons next pieces =>
    have hlength : piece.length = size := h.full piece (by simp)
    rw [← hxs, ← hlength, List.take_left, List.drop_left]
    exact ⟨rfl, rfl, fun p hp => (h.full p (by simp [hp])).trans hlength.symm,
      fun p hp => hlength ▸ h.bounded p (List.mem_cons_of_mem _ hp)⟩

/-- The documented behaviour leaves no choice. -/
theorem Partitions.unique {pieces' : List (List α)} (h : Partitions size xs pieces)
    (h' : Partitions size xs pieces') : pieces = pieces' := by
  induction pieces generalizing xs pieces' with
  | nil =>
    rw [← h.flatten] at h'
    exact h'.eq_nil.symm
  | cons piece pieces ih =>
    cases pieces' with
    | nil =>
      rw [← h'.flatten] at h
      exact h.eq_nil
    | cons piece' pieces' =>
      rw [h.uncons.1, h'.uncons.1, ih h.uncons.2 h'.uncons.2]

theorem partitions_iff (hsize : 0 < size) :
    Partitions size xs pieces ↔ pieces = partition size xs := by
  have hpartition : Partitions size xs (partition size xs) := partitions_go hsize le_rfl
  constructor
  · exact fun h => h.unique hpartition
  · rintro rfl
    exact hpartition

theorem flatten_partition (hsize : 0 < size) (xs : List α) : (partition size xs).flatten = xs :=
  ((partitions_iff hsize).mpr rfl).flatten

/-- No piece is empty or too long. -/
theorem mem_partition (hsize : 0 < size) (h : piece ∈ partition size xs) :
    piece ≠ [] ∧ piece.length ≤ size :=
  ((partitions_iff hsize).mpr rfl).bounded piece h

end Gopart

end Deckard
