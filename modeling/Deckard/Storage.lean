import Deckard.Cache
import Deckard.Table

/-!
# The MongoDB storage

Calls of `MongoStorage` on the collection of messages. A document is a row of a table:
its serial number is the `_id` that the server gives on insertion, its key the pair of
queue and id that every filter of the code selects by. A projection only saves transport
and is left out.
-/
namespace Deckard

open Binary64 Effect Cache

/-- Internal identifiers, in the order in which the storage gives them, and the text in
which they are kept as a breakpoint. -/
structure InternalIds (ι : Type) [LinearOrder ι] where
  next : ι → ι
  lt_next : ∀ i, i < next i
  text : ι → String
  parse : String → Option ι
  parse_text : ∀ i, parse (text i) = some i
  parse_empty : parse "" = none
  parse_finished : parse recoveryFinished = none

theorem InternalIds.text_ne_empty {ι : Type} [LinearOrder ι] (ids : InternalIds ι) (i : ι) :
    ids.text i ≠ "" := by
  intro h
  have hparse := ids.parse_text i
  rw [h, ids.parse_empty] at hparse
  cases hparse

theorem InternalIds.text_ne_finished {ι : Type} [LinearOrder ι] (ids : InternalIds ι) (i : ι) :
    ids.text i ≠ recoveryFinished := by
  intro h
  have hparse := ids.parse_text i
  rw [h, ids.parse_finished] at hparse
  cases hparse

/-- Decimal counters. Texts with a sign, which the code never writes, are not read. -/
def InternalIds.counter : InternalIds ℕ where
  next := Nat.succ
  lt_next := Nat.lt_succ_self
  text := fun n => String.ofList (Nat.toDigits 10 n)
  parse := fun s =>
    if s.toList ≠ [] ∧ s.toList.all Char.isDigit then some (Nat.ofDigitChars 10 s.toList 0)
    else none
  parse_text := by
    intro n
    have hdigits : (Nat.toDigits 10 n).all Char.isDigit = true :=
      List.all_eq_true.mpr fun c => Nat.isDigit_of_mem_toDigits (by omega) le_rfl
    rw [String.toList_ofList, if_pos ⟨Nat.toDigits_ne_nil, hdigits⟩, Nat.ofDigitChars_ten_toDigits]
  parse_empty := by decide +kernel
  parse_finished := by decide +kernel

/-- Queue and id. -/
abbrev Key := String × String

def Message.key (message : Message) : Key := (message.queue, message.id)

/-- `_id`, queue and id of a document and its other fields. -/
abbrev Document (ι : Type) := Row ι Key Message

def Document.message {ι : Type} (d : Document ι) : Message :=
  { d.value with queue := d.key.1, id := d.key.2 }

inductive StorageError
  | messageHasInvalidQueue
  | messageHasInvalidID
  | writing
  | invalidBreakpoint
  | breakpointNotInt64
  deriving DecidableEq, Repr

def StorageError.text : StorageError → String
  | .messageHasInvalidQueue => "message has a invalid queue"
  | .messageHasInvalidID => "message has a invalid ID"
  | .writing => "error writing to mongodb storage"
  | .invalidBreakpoint => "invalid breakpoint to filter"
  | .breakpointNotInt64 => "breakpoint for memory storage need to be a valid int64 message"

/-- Filter of a query. An empty text and `none` filter nothing. -/
structure InternalFilter where
  internalIdBreakpointGt : String := ""
  internalIdBreakpointLte : String := ""
  ids : Option (List String) := none
  queue : String := ""
  queuePrefix : String := ""
  expiryDate : Option Time := none

inductive SortField
  | score
  | internalId
  | expiryDate
  | lastUsage

inductive Direction
  | ascending
  | descending

/-- The keys to sort by, the most significant one first. -/
abbrev SortKeys := List (SortField × Direction)

/-- Options of a query; a limit of zero is none. A retry reads from the primary, which is
the copy that the model keeps. -/
structure FindOptions where
  sort : Option SortKeys := none
  limit : ℤ := 0
  internalFilter : Option InternalFilter := none
  retry : Bool := false

namespace MongoStorage

variable {ι : Type} [LinearOrder ι] (internalIds : InternalIds ι)

abbrev Documents (ι : Type) [LinearOrder ι] := Table ι Key Message

/-- BSON keeps milliseconds. -/
def dateTime (t : Time) : Time := t / 1000000 * 1000000

/-- The fields that `Insert` sets in every case. -/
def setFields (message document : Message) : Message :=
  { document with
    expiryDate := dateTime message.expiryDate
    description := if message.description ≠ "" then message.description else document.description
    metadata := message.metadata <|> document.metadata
    payload := message.payload <|> document.payload
    stringPayload :=
      if message.stringPayload ≠ "" then message.stringPayload else document.stringPayload
    queuePrefix := message.queuePrefix
    queueSuffix := if message.queueSuffix ≠ "" then message.queueSuffix else document.queueSuffix }

/-- The fields of a document that the insertion creates. -/
def setOnInsert (now : Time) (message : Message) : Message :=
  { id := message.id, queue := message.queue, lastUsage := some (dateTime now),
    score := message.score }

/-- One upsert of a bulk write. -/
def insertOne (now : Time) (docs : Documents ι) (message : Message) : Documents ι :=
  docs.upsert (internalIds.next docs.last) (internalIds.lt_next docs.last) message.key
    (setFields message (setOnInsert now message)) (setFields message)

/-- What an upsert counts: a new document, or an old one that it changes. -/
def counts (docs : Documents ι) (message : Message) : ℕ × ℕ :=
  match docs.get message.key with
  | none => (1, 0)
  | some d => (0, if setFields message d.value = d.value then 0 else 1)

/-- The upserts of a bulk write, with their counts. -/
def bulkWrite (now : Time) (messages : List Message) (docs : Documents ι) :
    (ℕ × ℕ) × Documents ι :=
  messages.foldl (fun r message =>
    (r.1 + counts r.2 message, insertOne internalIds now r.2 message)) ((0, 0), docs)

/-- The whole batch is checked before anything is written. -/
def validate : List Message → Except StorageError Unit
  | [] => .ok ()
  | message :: messages =>
      if message.queue = "" then .error .messageHasInvalidQueue
      else if message.id = "" then .error .messageHasInvalidID
      else validate messages

def insert (now : Time) (messages : List Message) (docs : Documents ι) :
    Except StorageError (ℕ × ℕ) × Documents ι :=
  match validate messages with
  | .error e => (.error e, docs)
  | .ok () =>
      if messages = [] then (.error .writing, docs)
      else
        let r := bulkWrite internalIds now messages docs
        (.ok r.1, r.2)

def increment (counter : Option Int64) : Option Int64 := some (counter.getD 0 + 1)

/-- Update of the document of an acknowledged message. -/
def ackUpdate (message document : Message) : Message :=
  let diagnostics := document.diagnostics.getD {}
  { document with
    lastUsage := message.lastUsage.map dateTime
    lastScoreSubtract := message.lastScoreSubtract
    breakpoint := message.breakpoint
    score := message.score
    lockMs := message.lockMs
    usageCount := document.usageCount + 1
    totalScoreSubtract := document.totalScoreSubtract.add message.lastScoreSubtract
    diagnostics := some
      { diagnostics with
        acks := increment diagnostics.acks
        consecutiveAcks := increment diagnostics.consecutiveAcks
        consecutiveNacks := some 0 } }

/-- Update of the document of a message that was not acknowledged. -/
def nackUpdate (message document : Message) : Message :=
  let diagnostics := document.diagnostics.getD {}
  { document with
    score := message.score
    lockMs := message.lockMs
    diagnostics := some
      { diagnostics with
        nacks := increment diagnostics.nacks
        consecutiveNacks := increment diagnostics.consecutiveNacks
        consecutiveAcks := some 0 } }

/-- `UpdateOne` by queue and id, with the number of documents it modified. -/
def updateOne (update : Message → Message) (message : Message) (docs : Documents ι) :
    ℕ × Documents ι :=
  ((docs.get message.key).toList.length, docs.modify message.key update)

def ack (message : Message) : Documents ι → ℕ × Documents ι :=
  updateOne (ackUpdate message) message

def nack (message : Message) : Documents ι → ℕ × Documents ι :=
  updateOne (nackUpdate message) message

def deleteChunkSize : ℕ := 100

/-- `DeleteMany` of some ids of a queue. -/
def deleteMany (queue : String) (chunk : List String) (docs : Documents ι) : ℕ × Documents ι :=
  let rest := docs.keep fun k => !(k.1 == queue && chunk.contains k.2)
  (docs.rows.length - rest.rows.length, rest)

def remove (queue : String) (ids : List String) (docs : Documents ι) : ℕ × Documents ι :=
  (Gopart.partition deleteChunkSize ids).foldl (fun r chunk =>
    let deleted := deleteMany queue chunk r.2
    (r.1 + deleted.1, deleted.2)) (0, docs)

/-- An internal id given as a text; an empty one sets no bound. -/
def breakpoint (text : String) : Except StorageError (Option ι) :=
  if text = "" then .ok none
  else match internalIds.parse text with
    | some i => .ok (some i)
    | none => .error .invalidBreakpoint

/-- The documents that a filter selects. -/
def selects (filter : InternalFilter) (gt lte : Option ι) (d : Document ι) : Bool :=
  (match filter.ids with
    | some (id :: ids) => (id :: ids).contains d.key.2
    | _ => true) &&
  (filter.queue == "" || d.key.1 == filter.queue) &&
  (filter.queuePrefix == "" || d.value.queuePrefix == filter.queuePrefix) &&
  (gt.all fun i => decide (i < d.serial)) &&
  (lte.all fun i => decide (d.serial ≤ i)) &&
  (filter.expiryDate.all fun t => decide (d.value.expiryDate ≤ dateTime t))

def getMongoMessage (opt : FindOptions) : Except StorageError (Document ι → Bool) :=
  match opt.internalFilter with
  | none => .ok fun _ => true
  | some filter => do
      let gt ← breakpoint internalIds filter.internalIdBreakpointGt
      let lte ← breakpoint internalIds filter.internalIdBreakpointLte
      return selects filter gt lte

/-- Order of optional values in which the missing one comes first. -/
def NoneFirst {α : Type} [LE α] : Option α → Option α → Prop
  | none, _ => True
  | some _, none => False
  | some a, some b => a ≤ b

instance {α : Type} [LE α] [DecidableLE α] : DecidableRel (NoneFirst (α := α))
  | none, _ => .isTrue trivial
  | some _, none => .isFalse not_false
  | some a, some b => inferInstanceAs (Decidable (a ≤ b))

/-- MongoDB sorts NaN before the numbers. -/
def number : Float64 → Option Number
  | .nan => none
  | .num x => some x

def ascending : SortField → Document ι → Document ι → Prop
  | .score, a, b => NoneFirst (number a.value.score) (number b.value.score)
  | .internalId, a, b => a.serial ≤ b.serial
  | .expiryDate, a, b => a.value.expiryDate ≤ b.value.expiryDate
  | .lastUsage, a, b => NoneFirst a.value.lastUsage b.value.lastUsage

def inDirection : SortField × Direction → Document ι → Document ι → Prop
  | (field, .ascending), a, b => ascending field a b
  | (field, .descending), a, b => ascending field b a

/-- A key is looked at where those before it leave the documents level. -/
def inOrder : SortKeys → Document ι → Document ι → Prop
  | [], _, _ => True
  | key :: keys, a, b => inDirection key a b ∧ (inDirection key b a → inOrder keys a b)

instance (field : SortField) : DecidableRel (ascending (ι := ι) field) := fun a b =>
  match field with
  | .score => inferInstanceAs (Decidable (NoneFirst (number a.value.score) (number b.value.score)))
  | .internalId => inferInstanceAs (Decidable (a.serial ≤ b.serial))
  | .expiryDate => inferInstanceAs (Decidable (a.value.expiryDate ≤ b.value.expiryDate))
  | .lastUsage => inferInstanceAs (Decidable (NoneFirst a.value.lastUsage b.value.lastUsage))

instance (key : SortField × Direction) : DecidableRel (inDirection (ι := ι) key) := fun a b =>
  match key with
  | (field, .ascending) => inferInstanceAs (Decidable (ascending field a b))
  | (field, .descending) => inferInstanceAs (Decidable (ascending field b a))

instance decidableInOrder : ∀ sort : SortKeys, DecidableRel (inOrder (ι := ι) sort)
  | [], _, _ => .isTrue trivial
  | key :: keys, a, b =>
      letI := decidableInOrder keys a b
      inferInstanceAs (Decidable (inDirection key a b ∧ (inDirection key b a → inOrder keys a b)))

/-- MongoDB drops the sign of a limit. `Find` goes on to make a slice of that capacity, which panics
for a negative limit; no caller has one. -/
def limited (limit : ℤ) (ds : List (Document ι)) : List (Document ι) :=
  if limit = 0 then ds else ds.take limit.natAbs

def find (opt : FindOptions) (docs : Documents ι) : Except StorageError (List (Document ι)) := do
  let mongoFilter ← getMongoMessage internalIds opt
  let found := docs.rows.filter mongoFilter
  return limited opt.limit <| match opt.sort with
    | none => found
    | some sort => found.insertionSort (inOrder sort)

def count (opt : FindOptions) (docs : Documents ι) : Except StorageError ℕ := do
  let mongoFilter ← getMongoMessage internalIds opt
  return (docs.rows.filter mongoFilter).length

def getStringInternalId (d : Document ι) : String := internalIds.text d.serial

/-! ## Effect of the writes -/

variable {internalIds} {now : Time} {messages : List Message} {message : Message}
  {docs : Documents ι} {k : Key}

/-- Score in the document with a key, if there is one. -/
def storedScore (docs : Documents ι) (k : Key) : Option Float64 :=
  (docs.get k).map fun d => d.value.score

theorem validate_ok (h : validate messages = .ok ()) (hm : message ∈ messages) :
    message.queue ≠ "" ∧ message.id ≠ "" := by
  induction messages with
  | nil => simp at hm
  | cons m ms ih =>
    rw [validate] at h
    split_ifs at h with hq hid
    · rcases List.mem_cons.mp hm with rfl | hm
      · exact ⟨hq, hid⟩
      · exact ih h hm

theorem validate_eq_ok (h : ∀ m ∈ messages, m.queue ≠ "" ∧ m.id ≠ "") :
    validate messages = .ok () := by
  induction messages with
  | nil => rfl
  | cons m ms ih =>
    have hm := h m List.mem_cons_self
    rw [validate, if_neg hm.1, if_neg hm.2]
    exact ih fun m' hm' => h m' (List.mem_cons_of_mem _ hm')

theorem bulkWrite_snd (messages : List Message) (docs : Documents ι) :
    (bulkWrite internalIds now messages docs).2 =
      messages.foldl (insertOne internalIds now) docs := by
  unfold bulkWrite
  generalize ((0, 0) : ℕ × ℕ) = c
  induction messages generalizing docs c with
  | nil => rfl
  | cons m ms ih => exact ih _ _

/-- An insertion writes the whole batch or nothing. -/
theorem insert_cases (internalIds : InternalIds ι) (now : Time) (messages : List Message)
    (docs : Documents ι) :
    (∃ e, insert internalIds now messages docs = (.error e, docs)) ∨
    (∃ n, insert internalIds now messages docs =
        (.ok n, messages.foldl (insertOne internalIds now) docs)) ∧
      ∀ m ∈ messages, m.queue ≠ "" ∧ m.id ≠ "" := by
  unfold insert
  split
  · exact .inl ⟨_, rfl⟩
  · rename_i hvalid
    split_ifs with hnil
    · exact .inl ⟨_, rfl⟩
    · exact .inr ⟨⟨_, by rw [← bulkWrite_snd]⟩, fun m hm => validate_ok hvalid hm⟩

theorem insert_ok (h : ∀ m ∈ messages, m.queue ≠ "" ∧ m.id ≠ "") (hne : messages ≠ []) :
    ∃ n, insert internalIds now messages docs =
      (.ok n, messages.foldl (insertOne internalIds now) docs) := by
  rw [insert, validate_eq_ok h]
  exact ⟨_, by rw [if_neg hne, ← bulkWrite_snd]⟩

/-- The score of a stored document is never overwritten by an insertion. -/
theorem storedScore_insertOne :
    storedScore (insertOne internalIds now docs message) k =
      if k = message.key then some ((storedScore docs k).getD message.score)
      else storedScore docs k := by
  rw [storedScore, insertOne, Table.get_upsert]
  split_ifs with h
  · rw [h, storedScore]
    cases docs.get message.key <;> rfl
  · rfl

theorem storedScore_insert (messages : List Message) (docs : Documents ι) (k : Key) :
    storedScore (messages.foldl (insertOne internalIds now) docs) k =
      (storedScore docs k).or ((messages.find? fun m => m.key = k).map Message.score) := by
  induction messages generalizing docs with
  | nil => simp
  | cons m ms ih =>
    rw [List.foldl_cons, ih, storedScore_insertOne, List.find?_cons]
    by_cases h : k = m.key
    · cases hs : storedScore docs k <;> simp [h]
    · simp [h, Ne.symm h]

theorem storedScore_modify {f : Message → Message} {x : Float64} {k' : Key}
    (h : ∀ d, (f d).score = x) :
    storedScore (docs.modify k' f) k =
      if k = k' then (storedScore docs k).map fun _ => x else storedScore docs k := by
  rw [storedScore, Table.get_modify]
  split_ifs
  · simp only [storedScore, Option.map_map]
    exact Option.map_congr fun d _ => h d.value
  · rfl

theorem storedScore_ack : storedScore (ack message docs).2 k =
    if k = message.key then (storedScore docs k).map fun _ => message.score
    else storedScore docs k :=
  storedScore_modify fun _ => rfl

theorem storedScore_nack : storedScore (nack message docs).2 k =
    if k = message.key then (storedScore docs k).map fun _ => message.score
    else storedScore docs k :=
  storedScore_modify fun _ => rfl

/-- The chunks together delete the listed ids of the queue. -/
theorem remove_snd (queue : String) (ids : List String) (docs : Documents ι) :
    (remove queue ids docs).2 = docs.keep fun k => !(k.1 == queue && ids.contains k.2) := by
  have hloop : ∀ (chunks : List (List String)) (r : ℕ × Documents ι),
      (chunks.foldl (fun r chunk =>
        let deleted := deleteMany queue chunk r.2
        (r.1 + deleted.1, deleted.2)) r).2 =
      r.2.keep fun k => !(k.1 == queue && chunks.flatten.contains k.2) := by
    intro chunks
    induction chunks with
    | nil =>
      intro r
      simp
    | cons chunk chunks ih =>
      intro r
      rw [List.foldl_cons, ih, deleteMany, Table.keep_keep]
      congr 1
      funext k
      cases k.1 == queue <;> simp
  rw [remove, hloop, Gopart.flatten_partition (by decide)]

theorem storedScore_remove (queue : String) (ids : List String) :
    storedScore (remove queue ids docs).2 k =
      if k.1 = queue ∧ k.2 ∈ ids then none else storedScore docs k := by
  rw [storedScore, remove_snd, Table.get_keep]
  by_cases h : k.1 = queue ∧ k.2 ∈ ids
  · simp [h]
  · rw [if_neg h, if_pos]
    · rfl
    · simp only [not_and] at h
      simpa [or_iff_not_imp_left] using h

theorem grows_insert (messages : List Message) (docs : Documents ι) :
    Table.Grows docs (messages.foldl (insertOne internalIds now) docs) := by
  induction messages generalizing docs with
  | nil => exact Table.Grows.refl docs
  | cons m ms ih => exact (Table.grows_upsert docs _ _ _ _).trans (ih _)

end MongoStorage

end Deckard
