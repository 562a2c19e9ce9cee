import Mathlib.Algebra.BigOperators.Finsupp.Basic
import Deckard.MemoryStorage
import Deckard.Program

/-!
# Concurrent insertions into the memory storage

`Insert` looks up a key under the read lock and then, under the write lock, updates the message
or creates one, as the look-up has said. `Remove` is one section under the write lock. Between
the two sections of an insertion other calls may change whether the key is present: an update
then meets no message, and a creation replaces one. The results say that the calls are safe
exactly if no update meets anything else than its test has found.
-/
namespace Deckard.MemoryStorage

open Program Prog Runs

/-- What runs under the lock: the test of a key, the update that relies on it, a removal. -/
inductive Section
  | present (key : String)
  | update (now : Time) (present : Bool) (message : Message)
  | remove (queue : String) (ids : List String)

def Section.Answer : Section → Type
  | .present _ => Bool
  | .update .. => Unit
  | .remove .. => ℕ

/-- What a call returns without an error. -/
inductive Returned
  | inserted (counts : ℕ × ℕ)
  | removed (deleted : ℕ)
  deriving DecidableEq

abbrev CallProg := Prog Section Section.Answer StorageError Returned

/-- What a turn counts after its test. -/
def counted (present : Bool) : ℕ × ℕ := if present then (0, 1) else (1, 0)

/-- The loop of `Insert` from an index on. -/
def insertLoop (clock : ℕ → Time) : ℕ → ℕ × ℕ → List Message → CallProg
  | _, n, [] => pure (.inserted n)
  | i, n, message :: messages =>
      if message.queue = "" then .fail .messageHasInvalidQueue
      else if message.id = "" then .fail .messageHasInvalidID
      else do
        let present ← perform (Section.present (getKey message))
        let _ ← perform (Section.update (clock i) present message)
        insertLoop clock (i + 1) (n + counted present) messages

/-- A call; `clock` gives the time that each turn of an insertion reads. -/
inductive StorageCall
  | insert (clock : ℕ → Time) (messages : List Message)
  | remove (queue : String) (ids : List String)

def StorageCall.program : StorageCall → CallProg
  | .insert clock messages => insertLoop clock 0 (0, 0) messages
  | .remove queue ids => do
      let deleted ← perform (Section.remove queue ids)
      pure (.removed deleted)

variable {ι : Type} [LinearOrder ι] (internalIds : InternalIds ι)

/-- Store a message as a new one, whatever lies under its key. -/
def create (now : Time) (storage : MemoryStorage ι) (message : Message) : MemoryStorage ι where
  docs := (storage.docs.keep (· ≠ getKey message)).push (internalIds.next storage.docs.last)
    (internalIds.lt_next _) (getKey message) (Table.get_keep_ne _ _)
    { message with lastUsage := some now }
  keyed := by
    intro d hd
    rcases Table.mem_push.mp hd with hd | rfl
    · exact storage.keyed d (Table.mem_keep.mp hd).1
    · rfl

/-- Number of keys that are present after a section and were absent before it. -/
def appeared (before after : MemoryStorage ι) : ℕ :=
  after.docs.rows.countP fun d => (before.docs.get d.key).isNone

/-- A key has a message before and after a section, and not the same one. -/
def replaces (before after : MemoryStorage ι) : Bool :=
  before.docs.rows.any fun d => after.docs.rows.any fun d' =>
    d'.key = d.key ∧ d'.serial ≠ d.serial

/-- The storage with what has been observed of it: whether a section has dereferenced a missing
message, at which the process ends, how many times a key has gone from absent to present, and
whether a message has been replaced. -/
structure Observed (ι : Type) [LinearOrder ι] where
  storage : MemoryStorage ι
  crashed : Bool := false
  arrivals : ℕ := 0
  replaced : Bool := false

namespace Observed

def present (s : Observed ι) (key : String) : Bool := (s.storage.docs.get key).isSome

def write (s : Observed ι) (after : MemoryStorage ι) : Observed ι :=
  { s with
    storage := after
    arrivals := s.arrivals + appeared s.storage after
    replaced := s.replaced || replaces s.storage after }

/-- Write to the message under a key as `Insert` does to one that is present. -/
def overwriteAt (s : Observed ι) (message : Message) : MemoryStorage ι where
  docs := s.storage.docs.modify (getKey message) (overwrite message)
  keyed := by
    intro d hd
    obtain ⟨d', hd', rfl⟩ := Table.mem_modify.mp hd
    split_ifs <;> exact s.storage.keyed d' hd'

/-- A section. An update of a message that is not there ends the process. -/
def handle : (c : Section) → Observed ι → c.Answer × Observed ι
  | .present key, s => (s.present key, s)
  | .update now present message, s =>
      if present then
        if s.present (getKey message) then ((), s.write (s.overwriteAt message))
        else ((), { s with crashed := true })
      else ((), s.write (create internalIds now s.storage message))
  | .remove queue ids, s =>
      let r := s.storage.remove queue ids
      (r.1, s.write r.2)

end Observed

abbrev Calling (ι κ : Type) [LinearOrder ι] :=
  Threads (Observed ι) κ Section Section.Answer StorageError Returned

/-- Calls of any number of threads, whose sections interleave. -/
def concurrent (κ : Type) [DecidableEq κ] :
    Machine (Calling ι κ) (Label κ StorageCall) (Option (Except StorageError Returned)) :=
  interleaved (Observed.handle internalIds) StorageCall.program

/-- No call is in progress and nothing has been observed. -/
def calm (κ : Type) (storage : MemoryStorage ι) : Calling ι κ :=
  ⟨{ storage := storage }, fun _ => none⟩

variable {internalIds} {storage before after : MemoryStorage ι} {message : Message} {now : Time}

/-! ## What a section does to the keys -/

theorem replaces_eq_true :
    replaces before after = true ↔ ∃ d ∈ before.docs.rows, ∃ d' ∈ after.docs.rows,
      d'.key = d.key ∧ d'.serial ≠ d.serial := by
  simp [replaces]

/-- The messages after a section were there before, possibly with other contents. -/
def Descends (before after : MemoryStorage ι) : Prop :=
  ∀ d ∈ after.docs.rows, ∃ d' ∈ before.docs.rows, d'.key = d.key ∧ d'.serial = d.serial

theorem Descends.appeared_eq (h : Descends before after) : appeared before after = 0 := by
  rw [appeared, List.countP_eq_zero]
  intro d hd
  obtain ⟨d', hd', hkey, -⟩ := h d hd
  have hget : before.docs.get d.key = some d' := Table.get_eq_some.mpr ⟨hd', hkey⟩
  simp [hget]

theorem Descends.replaces_eq (h : Descends before after) : replaces before after = false := by
  rw [Bool.eq_false_iff, Ne, replaces_eq_true]
  rintro ⟨d, hd, d', hd', hkey, hne⟩
  obtain ⟨d'', hd'', hkey', hserial⟩ := h d' hd'
  have hsame : d'' = d := List.inj_on_of_nodup_map before.docs.nodup hd'' hd (hkey'.trans hkey)
  exact hne (hserial.symm.trans (congrArg Row.serial hsame))

theorem descends_overwriteAt (s : Observed ι) (message : Message) :
    Descends s.storage (s.overwriteAt message) := by
  intro d hd
  obtain ⟨d', hd', rfl⟩ := Table.mem_modify.mp hd
  refine ⟨d', hd', ?_⟩
  split_ifs <;> exact ⟨rfl, rfl⟩

theorem descends_remove (queue : String) (ids : List String) (storage : MemoryStorage ι) :
    Descends storage (storage.remove queue ids).2 := by
  intro d hd
  exact ⟨d, (Table.mem_retain.mp hd).1, rfl, rfl⟩

theorem rows_create : (create internalIds now storage message).docs.rows =
    storage.docs.rows.filter (fun d => d.key ≠ getKey message) ++
      [⟨internalIds.next storage.docs.last, getKey message,
        { message with lastUsage := some now }⟩] := rfl

theorem key_ne_of_absent {key : String} (h : storage.docs.get key = none) :
    ∀ d ∈ storage.docs.rows, d.key ≠ key := by
  intro d hd hkey
  rw [Table.get_eq_some.mpr ⟨hd, hkey⟩] at h
  cases h

/-- A message is created where there was none. -/
theorem create_of_absent (internalIds : InternalIds ι) (now : Time)
    (h : storage.docs.get (getKey message) = none) :
    appeared storage (create internalIds now storage message) = 1 ∧
      replaces storage (create internalIds now storage message) = false := by
  have hother := key_ne_of_absent h
  constructor
  · have hold : storage.docs.rows.countP (fun d => (storage.docs.get d.key).isNone) = 0 := by
      rw [List.countP_eq_zero]
      intro d hd
      simp [Table.get_eq_some.mpr ⟨hd, rfl⟩]
    rw [appeared, rows_create, List.filter_eq_self.mpr fun d hd => decide_eq_true (hother d hd),
      List.countP_append, hold]
    simp [h]
  · rw [Bool.eq_false_iff, Ne, replaces_eq_true]
    rintro ⟨d, hd, d', hd', hkey, hne⟩
    rw [rows_create, List.mem_append, List.mem_singleton] at hd'
    rcases hd' with hd' | rfl
    · exact hne (congrArg Row.serial
        (List.inj_on_of_nodup_map storage.docs.nodup (List.mem_of_mem_filter hd') hd hkey))
    · exact hother d hd hkey.symm

/-- Where there is one, it is replaced. -/
theorem create_of_present {d : Stored ι} (h : storage.docs.get (getKey message) = some d) :
    replaces storage (create internalIds now storage message) = true := by
  obtain ⟨hd, hkey⟩ := Table.get_eq_some.mp h
  rw [replaces_eq_true, rows_create]
  refine ⟨d, hd, _, List.mem_append_right _ (List.mem_singleton.mpr rfl), hkey.symm, ?_⟩
  exact ((storage.docs.le_last d hd).trans_lt (internalIds.lt_next _)).ne'

/-! ## A call alone -/

theorem insertLoop_cons {clock : ℕ → Time} {i : ℕ} {n : ℕ × ℕ} {m : Message}
    {messages : List Message} (hm : m.queue ≠ "" ∧ m.id ≠ "") :
    insertLoop clock i n (m :: messages) = .call (.present (getKey m)) fun present =>
      .call (.update (clock i) present m) fun _ =>
        insertLoop clock (i + 1) (n + counted present) messages := by
  rw [insertLoop, if_neg hm.1, if_neg hm.2]
  rfl

/-- Right after its test an update is a turn of the insertion. -/
theorem handle_update_storage (s : Observed ι) :
    (Observed.handle internalIds (.update now (s.present (getKey message)) message) s).2.storage =
      insertOne internalIds now s.storage message := by
  apply MemoryStorage.ext
  change _ = s.storage.docs.upsert _ _ _ _ _
  cases hget : s.storage.docs.get (getKey message) with
  | none =>
    have habsent : s.present (getKey message) = false := by simp [Observed.present, hget]
    rw [habsent, Table.upsert, dif_pos hget]
    refine Table.eq_of_rows ?_ rfl
    change List.filter _ _ ++ _ = _
    rw [List.filter_eq_self.mpr fun d hd => decide_eq_true (key_ne_of_absent hget d hd)]
    rfl
  | some d =>
    have hpresent : s.present (getKey message) = true := by simp [Observed.present, hget]
    have hsome : ¬ s.storage.docs.get (getKey message) = none := by simp [hget]
    rw [Table.upsert, dif_neg hsome]
    simp only [Observed.handle, hpresent, if_true]
    rfl

/-- A call that runs alone is the insertion of the storage. -/
theorem run_insertLoop (clock : ℕ → Time) (i : ℕ) (n : ℕ × ℕ) (messages : List Message)
    (s : Observed ι) :
    (Prog.run (Observed.handle internalIds) (insertLoop clock i n messages) s).map id
        Observed.storage =
      (insertFrom internalIds clock i n messages s.storage).map (Except.map .inserted) id := by
  induction messages generalizing i n s with
  | nil => rfl
  | cons m messages ih =>
    by_cases hqueue : m.queue = ""
    · rw [insertLoop, if_pos hqueue, insertFrom, if_pos hqueue]
      rfl
    by_cases hid : m.id = ""
    · rw [insertLoop, if_neg hqueue, if_pos hid, insertFrom, if_neg hqueue, if_pos hid]
      rfl
    have hcounts : counts s.storage m = counted (s.present (getKey m)) := rfl
    rw [insertLoop_cons ⟨hqueue, hid⟩, insertFrom, if_neg hqueue, if_neg hid, run_call, run_call,
      hcounts, ← handle_update_storage]
    exact ih (i + 1) _ _

/-! ## Interleaved calls -/

variable {κ : Type}

/-- An update that is about to run meets its key as the test of its call has found it. -/
def finds (s : Calling ι κ) : Label κ StorageCall → Bool
  | .step i =>
      match s.thread i with
      | some (.call (.update _ present message) _) => s.shared.present (getKey message) == present
      | _ => true
  | _ => true

/-- The messages of a call have queues and ids. -/
def Accepted : Label κ StorageCall → Prop
  | .start _ (.insert _ messages) => ∀ m ∈ messages, m.queue ≠ "" ∧ m.id ≠ ""
  | _ => True

/-- Number of created messages that a result states. -/
def stated : Option (Except StorageError Returned) → ℕ
  | some (.ok (.inserted n)) => n.1
  | _ => 0

/-- Number of created messages that the results of a run state. -/
def statedBy (tr : List (Label κ StorageCall × Option (Except StorageError Returned))) : ℕ :=
  (tr.map fun e => stated e.2).sum

/-- No update has dereferenced a missing message, the calls have stated as many creations as
keys have gone from absent to present once they have all returned, and no message has been
replaced. -/
structure Safe (tr : List (Label κ StorageCall × Option (Except StorageError Returned)))
    (s : Calling ι κ) : Prop where
  alive : s.shared.crashed = false
  createdOnce : s.Idle → statedBy tr = s.shared.arrivals
  kept : s.shared.replaced = false

/-- Where a thread is in its call, and how many messages it has created. -/
inductive Progress : Option CallProg → ℕ → Prop
  | idle : Progress none 0
  | testing (clock : ℕ → Time) (i : ℕ) (n : ℕ × ℕ) (messages : List Message)
      (hvalid : ∀ m ∈ messages, m.queue ≠ "" ∧ m.id ≠ "") :
      Progress (some (insertLoop clock i n messages)) n.1
  | tested (clock : ℕ → Time) (i : ℕ) (n : ℕ × ℕ) (present : Bool) (message : Message)
      (messages : List Message) (hvalid : ∀ m ∈ messages, m.queue ≠ "" ∧ m.id ≠ "") :
      Progress (some (.call (.update (clock i) present message) fun _ =>
        insertLoop clock (i + 1) (n + counted present) messages)) n.1
  | removing (queue : String) (ids : List String) :
      Progress (some (StorageCall.remove queue ids).program) 0
  | removed (deleted : ℕ) : Progress (some (.ret (.removed deleted))) 0

/-- The calls in progress and those that have returned have created what has appeared. -/
structure Balanced (tr : List (Label κ StorageCall × Option (Except StorageError Returned)))
    (s : Calling ι κ) : Prop where
  alive : s.shared.crashed = false
  kept : s.shared.replaced = false
  balance : ∃ f : κ →₀ ℕ, (∀ i, Progress (s.thread i) (f i)) ∧
    statedBy tr + (f.sum fun _ n => n) = s.shared.arrivals

theorem Balanced.safe {tr : List (Label κ StorageCall × Option (Except StorageError Returned))}
    {s : Calling ι κ} (h : Balanced tr s) : Safe tr s where
  alive := h.alive
  kept := h.kept
  createdOnce := by
    intro hidle
    obtain ⟨f, hf, hsum⟩ := h.balance
    have hzero : f = 0 := by
      ext i
      have hi := hf i
      rw [hidle i] at hi
      generalize f i = n at hi ⊢
      cases hi
      rfl
    rw [← hsum, hzero]
    simp

/-! ## One event -/

theorem write_of_descends {s : Observed ι} (h : Descends s.storage after) :
    (s.write after).arrivals = s.arrivals ∧ (s.write after).replaced = s.replaced := by
  simp [Observed.write, h.appeared_eq, h.replaces_eq]

/-- An update that meets what its test has found creates one message or none, as it counts. -/
theorem handle_update (internalIds : InternalIds ι) (now : Time) {s : Observed ι} {present : Bool}
    (halive : s.crashed = false) (hkept : s.replaced = false)
    (hfinds : s.present (getKey message) = present) :
    let s' := (Observed.handle internalIds (.update now present message) s).2
    s'.crashed = false ∧ s'.replaced = false ∧ s'.arrivals = s.arrivals + (counted present).1 := by
  cases present with
  | true =>
    have hwrite := write_of_descends (descends_overwriteAt s message)
    simp only [Observed.handle, hfinds, if_true]
    exact ⟨halive, hwrite.2.trans hkept, hwrite.1⟩
  | false =>
    have habsent : s.storage.docs.get (getKey message) = none := by
      simpa [Observed.present] using hfinds
    obtain ⟨happeared, hreplaces⟩ := create_of_absent internalIds now habsent
    refine ⟨halive, ?_, ?_⟩
    · simp [Observed.handle, Observed.write, hkept, hreplaces]
    · simp [Observed.handle, Observed.write, happeared, counted]

/-- An update that meets something else ends the process or replaces a message. -/
theorem handle_update_stale (internalIds : InternalIds ι) (now : Time) {s : Observed ι}
    {present : Bool}
    (hstale : s.present (getKey message) ≠ present) :
    let s' := (Observed.handle internalIds (.update now present message) s).2
    s'.crashed = true ∨ s'.replaced = true := by
  cases present with
  | true =>
    left
    simp [Observed.handle, hstale]
  | false =>
    right
    obtain ⟨d, hd⟩ : ∃ d, s.storage.docs.get (getKey message) = some d := by
      simpa [Observed.present, Option.ne_none_iff_exists'] using hstale
    simp [Observed.handle, Observed.write, create_of_present hd]

theorem statedBy_concat {tr : List (Label κ StorageCall × Option (Except StorageError Returned))}
    {e : Label κ StorageCall × Option (Except StorageError Returned)} :
    statedBy (tr ++ [e]) = statedBy tr + stated e.2 := by
  simp [statedBy]

/-- The section of a thread changes what it has created by what appears. -/
theorem Progress.step {c : Section} {next : c.Answer → CallProg} {n : ℕ} {s : Observed ι}
    (h : Progress (some (.call c next)) n) (internalIds : InternalIds ι)
    (halive : s.crashed = false) (hkept : s.replaced = false)
    (hfinds : ∀ now present message, c = .update now present message →
      s.present (getKey message) = present) :
    let r := Observed.handle internalIds c s
    ∃ n', Progress (some (next r.1)) n' ∧ r.2.crashed = false ∧ r.2.replaced = false ∧
      r.2.arrivals + n = s.arrivals + n' := by
  generalize hp : some (Prog.call c next) = p at h
  cases h with
  | idle => cases hp
  | testing clock i n messages hvalid =>
    cases messages with
    | nil => cases hp
    | cons m messages =>
      obtain ⟨hm, hrest⟩ := List.forall_mem_cons.mp hvalid
      rw [insertLoop_cons hm] at hp
      cases hp
      exact ⟨n.1, .tested clock i n _ m messages hrest, halive, hkept, rfl⟩
  | tested clock i n present m messages hvalid =>
    cases hp
    obtain ⟨hcrashed, hreplaced, harrivals⟩ := handle_update internalIds (clock i) halive
      hkept (hfinds _ _ _ rfl)
    refine ⟨(n + counted present).1, .testing clock (i + 1) _ messages hvalid, hcrashed, hreplaced,
      ?_⟩
    rw [harrivals, Prod.fst_add]
    omega
  | removing queue ids =>
    cases hp
    have hwrite := write_of_descends (descends_remove queue ids s.storage)
    exact ⟨0, .removed _, halive, hwrite.2.trans hkept, congrArg (· + 0) hwrite.1⟩
  | removed deleted => cases hp

/-- A call returns without an error and states what it has created. -/
theorem Progress.finish {p : CallProg} {n : ℕ} (h : Progress (some p) n)
    (hp : ∀ c next, p ≠ .call c next) : ∃ a, p = .ret a ∧ n = stated (some (.ok a)) := by
  generalize hp' : some p = o at h
  cases h with
  | idle => cases hp'
  | testing clock i n messages hvalid =>
    cases hp'
    cases messages with
    | nil => exact ⟨.inserted n, rfl, rfl⟩
    | cons m messages =>
      exact absurd (insertLoop_cons (List.forall_mem_cons.mp hvalid).1) (hp _ _)
  | tested clock i n present m messages hvalid | removing queue ids =>
    cases hp'
    exact absurd rfl (hp _ _)
  | removed deleted =>
    cases hp'
    exact ⟨.removed deleted, rfl, rfl⟩

theorem progress_program {call : StorageCall} {i : κ} (h : Accepted (.start i call)) :
    Progress (some call.program) 0 := by
  cases call with
  | insert clock messages => exact .testing clock 0 (0, 0) messages h
  | remove queue ids => exact .removing queue ids

variable [DecidableEq κ]

/-- What a thread has created does not change if another one moves. -/
theorem progress_setThread {s : Calling ι κ} {o : Observed ι} {i : κ} {p : Option CallProg}
    {f : κ →₀ ℕ} {n : ℕ} (hf : ∀ j, Progress (s.thread j) (f j)) (hp : Progress p n) (j : κ) :
    Progress ((({ s with shared := o } : Calling ι κ).setThread i p).thread j)
      (f.update i n j) := by
  by_cases hj : j = i
  · rw [hj, Threads.setThread_self, Finsupp.coe_update, Function.update_self]
    exact hp
  · rw [Threads.setThread_of_ne hj, Finsupp.coe_update, Function.update_of_ne hj]
    exact hf j

/-- A thread moves on, and what it has created changes by what appears and what it states. -/
theorem Balanced.move {tr : List (Label κ StorageCall × Option (Except StorageError Returned))}
    {s : Calling ι κ} (h : Balanced tr s) {o : Observed ι} {i : κ} {p : Option CallProg}
    {l : Label κ StorageCall} {r : Option (Except StorageError Returned)}
    (hmove : ∀ n, Progress (s.thread i) n → ∃ n', Progress p n' ∧ o.crashed = false ∧
      o.replaced = false ∧ stated r + n' + s.shared.arrivals = o.arrivals + n) :
    Balanced (tr ++ [(l, r)]) (({ s with shared := o } : Calling ι κ).setThread i p) := by
  obtain ⟨f, hf, hsum⟩ := h.balance
  obtain ⟨n', hp, hcrashed, hreplaced, harrivals⟩ := hmove (f i) (hf i)
  refine ⟨hcrashed, hreplaced, f.update i n', progress_setThread hf hp, ?_⟩
  -- the sum over all threads changes at the one that moves
  have hupdate : (f.update i n').sum (fun _ n => n) + f i = f.sum (fun _ n => n) + n' :=
    Finsupp.sum_update_add f i n' _ (fun _ => rfl) fun _ _ _ => rfl
  rw [statedBy_concat]
  change statedBy tr + stated r + _ = o.arrivals
  omega

theorem Balanced.event {tr : List (Label κ StorageCall × Option (Except StorageError Returned))}
    {s t : Calling ι κ} {l : Label κ StorageCall} {r : Option (Except StorageError Returned)}
    (h : Balanced tr s) (hevent : concurrent internalIds κ s l r t) (haccepted : Accepted l)
    (hfinds : finds s l = true) : Balanced (tr ++ [(l, r)]) t := by
  unfold concurrent interleaved at hevent
  cases l with
  | start i call =>
    simp only [advance] at hevent
    split at hevent
    · rename_i hthread
      cases hevent
      refine h.move (o := s.shared) fun n hn => ⟨0, progress_program haccepted, h.alive, h.kept, ?_⟩
      rw [hthread] at hn
      cases hn
      exact Nat.zero_add _
    · cases hevent
  | step i =>
    simp only [advance] at hevent
    split at hevent
    · rename_i c next hthread
      cases hevent
      refine h.move fun n hn => ?_
      rw [hthread] at hn
      obtain ⟨n', hp, hcrashed, hreplaced, harrivals⟩ := hn.step internalIds h.alive h.kept (by
        rintro now present message rfl
        simpa [finds, hthread] using hfinds)
      refine ⟨n', hp, hcrashed, hreplaced, ?_⟩
      rw [harrivals, add_comm s.shared.arrivals]
      exact congrArg (· + _) (Nat.zero_add n')
    · cases hevent
  | finish i =>
    simp only [advance] at hevent
    split at hevent
    · rename_i a hthread
      cases hevent
      refine h.move (o := s.shared) fun n hn => ⟨0, .idle, h.alive, h.kept, ?_⟩
      rw [hthread] at hn
      obtain ⟨a', ha, hstated⟩ := hn.finish fun _ _ hcall => by cases hcall
      cases ha
      rw [hstated, add_zero, add_comm]
    · -- a call with accepted messages does not return an error
      rename_i e hthread
      obtain ⟨f, hf, -⟩ := h.balance
      have hi := hf i
      rw [hthread] at hi
      obtain ⟨a, ha, -⟩ := hi.finish fun _ _ hcall => by cases hcall
      cases ha
    · cases hevent

/-! ## Runs -/

theorem balanced_calm (κ : Type) (storage : MemoryStorage ι) : Balanced [] (calm κ storage) where
  alive := rfl
  kept := rfl
  balance := ⟨0, fun _ => .idle, by simp [statedBy, calm]⟩

/-- A step whose update does not meet what its test has found leaves a state that is not
safe. -/
theorem finds_of_safe {tr : List (Label κ StorageCall × Option (Except StorageError Returned))}
    {s t : Calling ι κ} {l : Label κ StorageCall} {r : Option (Except StorageError Returned)}
    (hevent : concurrent internalIds κ s l r t) (hsafe : Safe tr t) : finds s l = true := by
  cases interleaved_event hevent with
  | start i call hthread => rfl
  | finish i p hthread hp => rfl
  | step i c next hthread =>
    rw [finds, hthread]
    cases c with
    | present key => rfl
    | remove queue ids => rfl
    | update now present message =>
      rw [beq_iff_eq]
      by_contra hstale
      rcases handle_update_stale internalIds now hstale with
        hcrashed | hreplaced
      · exact Bool.false_ne_true (hsafe.alive.symm.trans hcrashed)
      · exact Bool.false_ne_true (hsafe.kept.symm.trans hreplaced)

/-- For any number of insertions, of messages with queues and ids, and removals, from any
contents of the storage and in any interleaving: they are safe throughout exactly if every
update meets its key as the test of its call has found it. -/
theorem safe_iff_finds (internalIds : InternalIds ι) (storage : MemoryStorage ι)
    {tr : List (Label κ StorageCall × Option (Except StorageError Returned))} {t : Calling ι κ}
    (hrun : Run (concurrent internalIds κ) (calm κ storage) tr t)
    (haccepted : ∀ e ∈ tr, Accepted e.1) :
    (∀ tr' t', tr' <+: tr → Run (concurrent internalIds κ) (calm κ storage) tr' t' →
        Safe tr' t') ↔
      ∀ tr' t' e, tr' ++ [e] <+: tr → Run (concurrent internalIds κ) (calm κ storage) tr' t' →
        finds t' e.1 = true := by
  constructor
  · intro hsafe tr' t' e hpre hrun'
    -- the trace determines the states on its way, so the state before the event is `t'`
    obtain ⟨rest, rfl⟩ := hpre
    obtain ⟨u, hprefix, -⟩ := run_append.mp hrun
    obtain ⟨v, hv, hlast⟩ := run_append.mp hprefix
    have hsame : v = t' := by
      have hfollow := (follow_of_run hv).symm.trans (follow_of_run hrun')
      exact congrArg Prod.snd (Option.some.inj hfollow)
    obtain ⟨w, hevent, hnil⟩ := run_cons.mp hlast
    rw [run_nil] at hnil
    subst hsame hnil
    exact finds_of_safe hevent (hsafe _ _ (List.prefix_append _ _) hprefix)
  · intro hfinds tr' t' hpre hrun'
    refine Balanced.safe (hrun'.along (balanced_calm κ storage) ?_)
    intro tr'' s l r u hpre' hrun'' hevent hbalanced
    have hpart := hpre'.trans hpre
    have hmem : (l, r) ∈ tr := hpart.subset (by simp)
    exact hbalanced.event hevent (haccepted _ hmem) (hfinds tr'' s (l, r) hpart hrun'')

/-- Insertion and removal of one message of a queue. -/
def insertA : StorageCall := .insert (fun _ => 0) [{ id := "a", queue := "q" }]

def removeA : StorageCall := .remove "q" ["a"]

/-- Follow a schedule of calls on an empty storage. -/
def scheduled (ls : List (Label ℕ StorageCall)) :
    Option (List (Label ℕ StorageCall × Option (Except StorageError Returned)) × Calling ℕ ℕ) :=
  follow (Observed.handle InternalIds.counter) StorageCall.program (calm ℕ (newMemoryStorage 0)) ls

/-- Two insertions and a removal, of which the sections interleave but meet what they found. -/
def spaced : List (Label ℕ StorageCall) :=
  [.start 0 insertA, .start 1 insertA, .step 0, .step 0, .step 1, .finish 0, .step 1,
    .start 2 removeA, .step 2, .finish 1, .finish 2]

theorem safe_spaced :
    ∃ tr t, Run (concurrent InternalIds.counter ℕ) (calm ℕ (newMemoryStorage 0)) tr t ∧
      tr.map Prod.fst = spaced ∧ Safe tr t := by
  obtain ⟨⟨tr, t⟩, hfollow⟩ : ∃ r, scheduled spaced = some r :=
    Option.isSome_iff_exists.mp (by decide +kernel)
  have hrun : Run (concurrent InternalIds.counter ℕ) (calm ℕ (newMemoryStorage 0)) tr t :=
    run_follow hfollow
  have hlabels : tr.map Prod.fst = spaced := map_fst_follow hfollow
  refine ⟨tr, t, hrun, hlabels, (safe_iff_finds InternalIds.counter _ hrun ?_).mpr ?_ tr t
    (List.prefix_refl _) hrun⟩
  · have haccepted : ∀ l ∈ spaced, Accepted l := by
      simp [spaced, Accepted, insertA, removeA]
    exact forall_follow hfollow haccepted
  · have hall : (spaced.inits.all fun ls => ls.getLast?.all fun l =>
        (scheduled ls.dropLast).all fun r => finds r.2 l) = true := by
      decide +kernel
    intro tr' t' e hpre hrun'
    have hmem : tr'.map Prod.fst ++ [e.1] ∈ spaced.inits := by
      rw [List.mem_inits, ← hlabels]
      simpa using hpre.map Prod.fst
    have hpart := List.all_eq_true.mp hall _ hmem
    have hfollow' : scheduled (tr'.map Prod.fst) = some (tr', t') := follow_of_run hrun'
    simpa [hfollow'] using hpart

/-- A message is removed after another insertion has found it and before that one updates it:
the update dereferences nothing. And two insertions find no message: both state that they have
created it, and the second one replaces what the first one has stored. -/
theorem interleavings_unsafe :
    (∃ tr t, Run (concurrent InternalIds.counter ℕ) (calm ℕ (newMemoryStorage 0)) tr t ∧
      t.shared.crashed = true) ∧
    ∃ tr t, Run (concurrent InternalIds.counter ℕ) (calm ℕ (newMemoryStorage 0)) tr t ∧
      statedBy tr = 2 ∧ t.shared.arrivals = 1 ∧ t.shared.replaced = true := by
  constructor
  · have hcrash : (scheduled [.start 0 insertA, .step 0, .step 0, .finish 0, .start 1 insertA,
        .step 1, .start 2 removeA, .step 2, .step 1]).map (fun r => r.2.shared.crashed) =
          some true := by decide +kernel
    obtain ⟨⟨tr, t⟩, hfollow, hcrashed⟩ := Option.map_eq_some_iff.mp hcrash
    exact ⟨tr, t, run_follow hfollow, hcrashed⟩
  · have htwice : (scheduled [.start 0 insertA, .start 1 insertA, .step 0, .step 1, .step 0,
        .step 1, .finish 0, .finish 1]).map
          (fun r => (statedBy r.1, r.2.shared.arrivals, r.2.shared.replaced)) =
            some (2, 1, true) := by decide +kernel
    obtain ⟨⟨tr, t⟩, hfollow, hvalues⟩ := Option.map_eq_some_iff.mp htwice
    obtain ⟨hstated, hrest⟩ := Prod.mk.inj hvalues
    obtain ⟨harrivals, hreplaced⟩ := Prod.mk.inj hrest
    exact ⟨tr, t, run_follow hfollow, hstated, harrivals, hreplaced⟩

/-! ## Calls that stay apart -/

/-- While a thread is between the test of a key and its update, the event of another one does
not change whether the key is present. -/
def SparesTested (s t : Calling ι κ) (l : Label κ StorageCall) : Prop :=
  ∀ i now present message next, l ≠ .step i →
    s.thread i = some (.call (.update now present message) next) →
      t.shared.present (getKey message) = s.shared.present (getKey message)

/-- Every thread that has tested a key would find it the same again. -/
def Current (s : Calling ι κ) : Prop :=
  ∀ i now present message next, s.thread i = some (.call (.update now present message) next) →
    s.shared.present (getKey message) = present

omit [DecidableEq κ] in
theorem Current.finds {s : Calling ι κ} (h : Current s) (l : Label κ StorageCall) :
    finds s l = true := by
  cases l with
  | start i call => rfl
  | finish i => rfl
  | step i =>
    rw [MemoryStorage.finds]
    split
    · exact beq_iff_eq.mpr (h i _ _ _ _ ‹_›)
    · rfl

theorem insertLoop_ne_update {clock : ℕ → Time} {i : ℕ} {n : ℕ × ℕ} {messages : List Message}
    {present : Bool} {next : Unit → CallProg} :
    insertLoop clock i n messages ≠ .call (.update now present message) next := by
  intro h
  cases messages with
  | nil => cases h
  | cons m messages =>
    rw [insertLoop] at h
    split_ifs at h
    cases h

/-- A thread comes to an update by its test. -/
theorem Progress.update {c : Section} {next : c.Answer → CallProg} {n : ℕ} {s : Observed ι}
    (h : Progress (some (.call c next)) n) {present : Bool} {next' : Unit → CallProg}
    (hnext : next (Observed.handle internalIds c s).1 =
      .call (.update now present message) next') :
    (Observed.handle internalIds c s).2.present (getKey message) = present := by
  generalize hp : some (Prog.call c next) = p at h
  cases h with
  | idle => cases hp
  | testing clock i n messages hvalid =>
    cases messages with
    | nil => cases hp
    | cons m messages =>
      rw [insertLoop_cons (List.forall_mem_cons.mp hvalid).1] at hp
      cases hp
      cases hnext
      rfl
  | tested clock i n present m messages hvalid =>
    cases hp
    exact absurd hnext insertLoop_ne_update
  | removing queue ids =>
    cases hp
    cases hnext
  | removed deleted => cases hp

theorem Current.event {s t : Calling ι κ} {l : Label κ StorageCall}
    {r : Option (Except StorageError Returned)} (h : Current s)
    (hprogress : ∀ i, ∃ n, Progress (s.thread i) n)
    (hevent : concurrent internalIds κ s l r t) (hspares : SparesTested s t l) : Current t := by
  intro j now present message next hj
  cases interleaved_event hevent with
  | start i call hthread =>
    rcases Threads.setThread_eq_some hj with ⟨-, hp⟩ | ⟨-, hj⟩
    · cases call with
      | insert clock messages => exact absurd (Option.some.inj hp) insertLoop_ne_update
      | remove queue ids => cases hp
    · exact h j now present message next hj
  | finish i p hthread hp =>
    rcases Threads.setThread_eq_some hj with ⟨-, hnone⟩ | ⟨-, hj⟩
    · cases hnone
    · exact h j now present message next hj
  | step i c next' hthread =>
    rcases Threads.setThread_eq_some hj with ⟨-, hp⟩ | ⟨hne, hj⟩
    · obtain ⟨n, hi⟩ := hprogress i
      rw [hthread] at hi
      exact hi.update (Option.some.inj hp)
    · rw [← h j now present message next hj]
      exact hspares j now present message next (fun hl => hne (Label.step.inj hl).symm) hj

/-- Calls that stay apart are safe. -/
theorem safe_of_sparesTested
    {tr : List (Label κ StorageCall × Option (Except StorageError Returned))} {t : Calling ι κ}
    (hrun : Run (concurrent internalIds κ) (calm κ storage) tr t)
    (haccepted : ∀ e ∈ tr, Accepted e.1)
    (hspares : ∀ tr' s e u, tr' ++ [e] <+: tr →
      Run (concurrent internalIds κ) (calm κ storage) tr' s →
        concurrent internalIds κ s e.1 e.2 u → SparesTested s u e.1) : Safe tr t := by
  have hboth : Balanced tr t ∧ Current t := by
    refine hrun.along (Q := fun tr t => Balanced tr t ∧ Current t)
      ⟨balanced_calm κ storage, fun i _ _ _ _ h => by cases h⟩ ?_
    rintro tr' s l r u hpre hrun' hevent ⟨hbalanced, hcurrent⟩
    have hmem : (l, r) ∈ tr := hpre.subset (by simp)
    refine ⟨hbalanced.event hevent (haccepted _ hmem) (hcurrent.finds l), ?_⟩
    obtain ⟨f, hf, -⟩ := hbalanced.balance
    exact hcurrent.event (fun i => ⟨f i, hf i⟩) hevent (hspares tr' s (l, r) u hpre hrun' hevent)
  exact hboth.1.safe

end Deckard.MemoryStorage
