import Deckard.Backends
import Deckard.Housekeeper
import Deckard.MemoryIdentity
import Deckard.ServiceCommands

/-!
# Expiry in the memory storage

`Find` hides a message that has expired, unless it is timeless; the removal of expired
messages selects by the expiry date alone. An addition gives a timeless message a date a
hundred years ahead, but a later addition of the same message writes the date and not the
flag. The results say after which additions the two decide alike.
-/
namespace Deckard

open Program Prog

variable {ι : Type} [LinearOrder ι] {internalIds : InternalIds ι}

/-- A request to add messages, with the readings of the clock. -/
structure AddRequest where
  zone : Zone
  clock : Clock
  order : MapOrder
  messages : List AddMessage

/-- The messages that requests hand to the storage and that it accepts, in their order. -/
def additions (requests : List AddRequest) : List Message :=
  requests.flatMap fun r =>
    MemoryStorage.accepted (Service.addedMessages r.zone r.clock r.messages)

/-- The stores after some requests. -/
def addAll {σ ρ : Type} (storage : StorageCalls ι σ) (cache : CacheCalls ρ) (w : σ × ρ)
    (requests : List AddRequest) : σ × ρ :=
  requests.foldl (fun w r =>
    (Prog.run (handle storage cache) (Service.add r.zone r.clock r.order r.messages) w).2) w

omit [LinearOrder ι] in
/-- Of the calls of an addition only the first one goes to the storage. -/
theorem run_add_storage {σ ρ : Type} (storage : StorageCalls ι σ) (cache : CacheCalls ρ)
    (r : AddRequest) (w : σ × ρ) :
    (Prog.run (handle storage cache) (Service.add r.zone r.clock r.order r.messages) w).2.1 =
      (storage.insert (r.clock (2 * r.messages.length))
        (Service.addedMessages r.zone r.clock r.messages) w.1).2 := by
  let messages := Service.addedMessages r.zone r.clock r.messages
  let inserted := storage.insert (r.clock (2 * r.messages.length)) messages w.1
  change (Prog.run (handle storage cache) (mapError (fun _ => ServiceError.addingMessages)
    (Queue.attempt QueueError.storage inserted.1 >>= fun counts =>
      (Queue.addMessagesToCache r.order messages >>= fun _ => .ret counts :
        Queue.QueueProg ι (ℕ × ℕ)))) (inserted.2, w.2)).2.1 = inserted.2
  cases inserted.1 with
  | error e => rfl
  | ok counts =>
    have hcache : All (fun c => ∃ op, c = Command.cache op)
        (Queue.addMessagesToCache r.order messages : Queue.QueueProg ι ℕ) :=
      all_addQueues fun queue _ => ⟨_, rfl⟩
    have hkeeps : ∀ c (w : σ × ρ), (∃ op, c = Command.cache op) → w.1 = inserted.2 →
        (handle storage cache c w).2.1 = inserted.2 := by
      rintro c w ⟨op, rfl⟩ hw
      exact hw
    exact run_invariant hkeeps (all_mapError (all_bind hcache fun _ => all_ret _)) rfl

namespace MemoryStorage

/-- The messages of a text. -/
def under (text : String) (h : List Message) : List Message := h.filter fun m => getKey m = text

/-- Flag of the first message of a text and expiry date of the last one. -/
def dates (text : String) (h : List Message) : Option (Bool × Time) :=
  (under text h).head?.bind fun first =>
    (under text h).getLast?.map fun last => (first.timeless, last.expiryDate)

theorem dates_concat (text : String) (h : List Message) (m : Message) :
    dates text (h ++ [m]) =
      if text = getKey m then some (((dates text h).map Prod.fst).getD m.timeless, m.expiryDate)
      else dates text h := by
  unfold dates under
  rw [List.filter_append, List.filter_singleton]
  by_cases htext : text = getKey m
  · rw [if_pos htext, decide_eq_true htext.symm, cond_true]
    generalize h.filter (fun m => decide (getKey m = text)) = u
    cases u with
    | nil => rfl
    | cons first u =>
      rw [List.getLast?_concat, List.getLast?_eq_some_getLast (List.cons_ne_nil first u)]
      rfl
  · rw [if_neg htext, decide_eq_false fun h => htext h.symm]
    simp

/-- A stored message has the flag of the first addition and the date of the last one. -/
def Dated (h : List Message) (storage : MemoryStorage ι) : Prop :=
  ∀ text, (storage.docs.value text).map (fun v => (v.timeless, v.expiryDate)) = dates text h

theorem Dated.insertOne {h : List Message} {storage : MemoryStorage ι} (hdated : Dated h storage)
    (now : Time) (m : Message) : Dated (h ++ [m]) (insertOne internalIds now storage m) := by
  intro text
  rw [dates_concat, ← hdated text]
  change Option.map _ ((storage.docs.upsert _ _ _ _ _).value text) = _
  rw [Table.value_upsert]
  split_ifs with htext
  · rw [htext]
    cases storage.docs.value (getKey m) <;> rfl
  · rfl

theorem Dated.insertFrom {h : List Message} {storage : MemoryStorage ι} (hdated : Dated h storage)
    (clock : ℕ → Time) (i : ℕ) (n : ℕ × ℕ) (messages : List Message) :
    Dated (h ++ accepted messages) (insertFrom internalIds clock i n messages storage).2 := by
  induction messages generalizing h i n storage with
  | nil =>
    rw [accepted, List.takeWhile_nil, List.append_nil]
    exact hdated
  | cons m messages ih =>
    by_cases hvalid : m.queue ≠ "" ∧ m.id ≠ ""
    · rw [accepted_cons hvalid, MemoryStorage.insertFrom, if_neg hvalid.1, if_neg hvalid.2,
        List.append_cons]
      exact ih (hdated.insertOne (clock i) m) _ _
    · rw [accepted_refused hvalid, List.append_nil, MemoryStorage.insertFrom]
      split_ifs with hqueue hid
      · exact hdated
      · exact hdated
      · exact absurd ⟨hqueue, hid⟩ hvalid

theorem dated_addAll {ρ : Type} (visit : Visit ι) (cache : CacheCalls ρ) (c : ρ)
    (internalCounter : ι) (requests : List AddRequest) :
    Dated (additions requests)
      (addAll (calls internalIds visit) cache (newMemoryStorage internalCounter, c)
        requests).1 := by
  induction requests using List.reverseRecOn with
  | nil =>
    intro text
    rfl
  | append_singleton requests r ih =>
    rw [addAll, List.foldl_concat, run_add_storage, additions, List.flatMap_append,
      List.flatMap_singleton]
    exact ih.insertFrom _ 0 (0, 0) _

/-! ## The two decisions -/

/-- The filter of `RemoveTTLMessages` looks at the expiry date only. -/
theorem matchesFilter_expired (t : Time) (d : Stored ι) :
    messageMatchesFilter internalIds (Queue.expired t) d =
      .ok (decide (d.value.expiryDate ≤ t)) := rfl

theorem isExpired_iff (t : Time) (v : Message) :
    isExpired (t, t) v = true ↔ v.timeless = false ∧ v.expiryDate ≤ t := by
  simp [isExpired, le_iff_lt_or_eq]

/-- Hidden and selected are the same at `t`, unless the message is timeless and its date has
passed. -/
theorem hidden_iff_selected_iff (t : Time) (d : Stored ι) :
    (isExpired (t, t) d.value = true ↔
        messageMatchesFilter internalIds (Queue.expired t) d = .ok true) ↔
      d.value.timeless = false ∨ t < d.value.expiryDate := by
  rw [isExpired_iff, matchesFilter_expired, Except.ok.injEq, decide_eq_true_eq, ← not_le]
  cases d.value.timeless <;> simp

end MemoryStorage

/-- After any additions to an empty storage, a message is hidden from an ordinary `Find` at `t`
if and only if the removal of what has expired at `t` selects it, exactly if of no text the
first message added was timeless and the last one expires by `t`. -/
theorem expiry_agrees_iff {ρ : Type} (internalIds : InternalIds ι) (visit : MemoryStorage.Visit ι)
    (cache : CacheCalls ρ) (c : ρ) (internalCounter : ι) (requests : List AddRequest) (t : Time) :
    (∀ d ∈ (addAll (MemoryStorage.calls internalIds visit) cache
        (MemoryStorage.newMemoryStorage internalCounter, c) requests).1.docs.rows,
      MemoryStorage.isExpired (t, t) d.value = true ↔
        MemoryStorage.messageMatchesFilter internalIds (Queue.expired t) d = .ok true) ↔
    ∀ text first last, (MemoryStorage.under text (additions requests)).head? = some first →
      (MemoryStorage.under text (additions requests)).getLast? = some last →
        first.timeless = false ∨ t < last.expiryDate := by
  generalize hstorage : (addAll (MemoryStorage.calls internalIds visit) cache
    (MemoryStorage.newMemoryStorage internalCounter, c) requests).1 = storage
  have hdated : MemoryStorage.Dated (additions requests) storage :=
    hstorage ▸ MemoryStorage.dated_addAll visit cache c internalCounter requests
  simp only [MemoryStorage.hidden_iff_selected_iff]
  constructor
  · intro h text first last hfirst hlast
    have hvalue := hdated text
    rw [MemoryStorage.dates, hfirst, hlast] at hvalue
    obtain ⟨v, hv, hdates⟩ := Option.map_eq_some_iff.mp hvalue
    obtain ⟨d, hd, rfl⟩ := Option.map_eq_some_iff.mp hv
    rw [Prod.mk.injEq] at hdates
    rw [← hdates.1, ← hdates.2]
    exact h d (Table.get_eq_some.mp hd).1
  · intro h d hd
    have hvalue := hdated d.key
    rw [Table.value, Table.get_eq_some.mpr ⟨hd, rfl⟩] at hvalue
    obtain ⟨first, hfirst, hlast⟩ := Option.bind_eq_some_iff.mp hvalue.symm
    obtain ⟨last, hlast, hdates⟩ := Option.map_eq_some_iff.mp hlast
    rw [Prod.mk.injEq] at hdates
    rw [← hdates.1, ← hdates.2]
    exact h d.key first last hfirst hlast

/-- A message is added as a timeless one and, a minute later, with a ttl of one minute. -/
def timelessThenBrief : List AddRequest :=
  [{ zone := .utc, clock := fun _ => 0
     order := .listed
     messages := [{ id := "a", queue := "q", timeless := true }] },
    { zone := .utc, clock := fun _ => 60000000000
      order := .listed
      messages := [{ id := "a", queue := "q", ttlMinutes := 1 }] }]

/-- Three minutes after the first addition the message is not hidden, and is selected for
removal. -/
theorem found_message_selected :
    ∃ d ∈ (addAll (MemoryStorage.calls InternalIds.counter
          ⟨id, fun _ => .refl _, fun _ => (180000000000, 180000000000)⟩)
        (MemoryCache.calls fun _ _ => []) (MemoryStorage.newMemoryStorage 0, MemoryCache.new)
        timelessThenBrief).1.docs.rows,
      MemoryStorage.isExpired (180000000000, 180000000000) d.value = false ∧
      MemoryStorage.messageMatchesFilter InternalIds.counter (Queue.expired 180000000000) d =
        .ok true := by
  decide +kernel

end Deckard
