import Mathlib.Data.List.DropRight
import Deckard.Backends
import Deckard.MemoryIdentity
import Deckard.Pulls
import Deckard.QueueRuns

/-!
# Diagnostics of a message

Each storage keeps counters of the deliveries of a message that were acknowledged and that were
not. They are created with the first of them, in different ways, and an insertion of a message
that is stored leaves them alone. Both storages are compared with one account of what happened
to a message since it was stored, and a pull reports this account.
-/
namespace Deckard

open Binary64 Program Prog Runs

/-- One outcome of a delivery; an acknowledgement comes with a score to subtract. -/
inductive Outcome
  | ack (scoreSubtract : Float64)
  | nack
  deriving DecidableEq

namespace Outcome

def isAck : Outcome → Bool
  | .ack _ => true
  | .nack => false

def isNack : Outcome → Bool
  | .ack _ => false
  | .nack => true

def scoreSubtract : Outcome → Option Float64
  | .ack x => some x
  | .nack => none

end Outcome

/-- What is kept about the outcomes of a message, as it is reported. -/
structure Account where
  diagnostics : ResponseDiagnostics
  usageCount : Int64
  totalScoreSubtract : Float64

def Message.account (m : Message) : Account :=
  ⟨Service.diagnostics m.diagnostics, m.usageCount, m.totalScoreSubtract⟩

/-- The account of some outcomes: their numbers, the lengths of the longest ends of one kind and
the sum of the scores to subtract. -/
def account (outcomes : List Outcome) : Account where
  diagnostics :=
    { acks := .ofNat (outcomes.countP Outcome.isAck)
      nacks := .ofNat (outcomes.countP Outcome.isNack)
      consecutiveAcks := .ofNat (outcomes.rtakeWhile Outcome.isAck).length
      consecutiveNacks := .ofNat (outcomes.rtakeWhile Outcome.isNack).length }
  usageCount := .ofNat (outcomes.countP Outcome.isAck)
  totalScoreSubtract := (outcomes.filterMap Outcome.scoreSubtract).foldl Float64.add (.ofInt 0)

/-- The outcomes of a message after a write to the storage, if it is stored. -/
def outcomesAfter (k : Key) (outcomes : Option (List Outcome)) :
    StorageWrite → Option (List Outcome)
  | .insert _ messages =>
      if ∃ m ∈ messages, m.key = k then some (outcomes.getD []) else outcomes
  | .ack m => if m.key = k then outcomes.map (· ++ [.ack m.lastScoreSubtract]) else outcomes
  | .nack m => if m.key = k then outcomes.map (· ++ [.nack]) else outcomes
  | .remove queue ids => if k.1 = queue ∧ k.2 ∈ ids then none else outcomes

/-- The outcomes of a message since it was stored, after some writes to an empty storage. -/
def outcomesOf (k : Key) (writes : List StorageWrite) : Option (List Outcome) :=
  writes.foldl (outcomesAfter k) none

/-! ## The account of one more outcome -/

namespace Account

def ack (a : Account) (scoreSubtract : Float64) : Account where
  diagnostics :=
    { a.diagnostics with
      acks := a.diagnostics.acks + 1
      consecutiveAcks := a.diagnostics.consecutiveAcks + 1
      consecutiveNacks := 0 }
  usageCount := a.usageCount + 1
  totalScoreSubtract := a.totalScoreSubtract.add scoreSubtract

def nack (a : Account) : Account where
  diagnostics :=
    { a.diagnostics with
      nacks := a.diagnostics.nacks + 1
      consecutiveNacks := a.diagnostics.consecutiveNacks + 1
      consecutiveAcks := 0 }
  usageCount := a.usageCount
  totalScoreSubtract := a.totalScoreSubtract

end Account

theorem account_ack (outcomes : List Outcome) (x : Float64) :
    account (outcomes ++ [.ack x]) = (account outcomes).ack x := by
  simp [account, Account.ack, Outcome.isAck, Outcome.isNack, Outcome.scoreSubtract,
    List.rtakeWhile_concat, Int64.ofNat_add]

theorem account_nack (outcomes : List Outcome) :
    account (outcomes ++ [.nack]) = (account outcomes).nack := by
  have hnone : [Outcome.nack].filterMap Outcome.scoreSubtract = [] := rfl
  simp [account, Account.nack, Outcome.isAck, Outcome.isNack, hnone, List.rtakeWhile_concat,
    Int64.ofNat_add]

/-- An end that is not empty is of one kind. -/
theorem account_consecutive (outcomes : List Outcome) :
    (account outcomes).diagnostics.consecutiveAcks = 0 ∨
      (account outcomes).diagnostics.consecutiveNacks = 0 := by
  induction outcomes using List.reverseRecOn with
  | nil => exact .inl rfl
  | append_singleton outcomes last _ =>
    cases last with
    | ack x => exact .inr (by rw [account_ack]; rfl)
    | nack => exact .inl (by rw [account_nack]; rfl)

/-! ## What a write does to the account of a message -/

/-- The account of a message after a write to the storage, if it is stored. -/
def accountAfter (k : Key) (a : Option Account) : StorageWrite → Option Account
  | .insert _ messages => if ∃ m ∈ messages, m.key = k then some (a.getD (account [])) else a
  | .ack m => if m.key = k then a.map fun a => a.ack m.lastScoreSubtract else a
  | .nack m => if m.key = k then a.map Account.nack else a
  | .remove queue ids => if k.1 = queue ∧ k.2 ∈ ids then none else a

theorem map_account_outcomesAfter (k : Key) (outcomes : Option (List Outcome))
    (w : StorageWrite) :
    (outcomesAfter k outcomes w).map account = accountAfter k (outcomes.map account) w := by
  cases w with
  | insert clock messages =>
    rw [outcomesAfter, accountAfter]
    split_ifs
    · cases outcomes <;> rfl
    · rfl
  | ack m =>
    rw [outcomesAfter, accountAfter]
    split_ifs
    · cases outcomes with
      | none => rfl
      | some outcomes => exact congrArg some (account_ack outcomes _)
    · rfl
  | nack m =>
    rw [outcomesAfter, accountAfter]
    split_ifs
    · cases outcomes with
      | none => rfl
      | some outcomes => exact congrArg some (account_nack outcomes)
    · rfl
  | remove queue ids =>
    rw [outcomesAfter, accountAfter]
    split_ifs <;> rfl

/-- A write as the service makes it, which carries no other message with the text of `k`: an
insertion has the messages of a request, with queues and ids. -/
def Regular (k : Key) : StorageWrite → Prop
  | .insert _ messages =>
      (∃ zone clock request, messages = Service.addedMessages zone clock request) ∧
      ∀ m ∈ messages, (m.queue ≠ "" ∧ m.id ≠ "") ∧ (m.key.text = k.text → m.key = k)
  | .ack m => m.key.text = k.text → m.key = k
  | .nack m => m.key.text = k.text → m.key = k
  | .remove _ _ => True

/-- An addition builds messages without an account. -/
theorem account_addedMessages {zone : Zone} {clock : Clock} {request : List AddMessage}
    {m : Message}
    (h : m ∈ Service.addedMessages zone clock request) : m.account = account [] := by
  induction request generalizing clock with
  | nil => cases h
  | cons a request ih =>
    rcases List.mem_cons.mp h with rfl | h
    · rfl
    · exact ih h

variable {ι : Type} [LinearOrder ι] {internalIds : InternalIds ι} {k : Key}

/-- The stored message, if any, is that of the key and has the account. -/
def Keeps (k : Key) (a : Option Account) (stored : Option Message) : Prop :=
  stored.map (fun v => (v.key, v.account)) = a.map fun a => (k, a)

theorem Keeps.cases {a : Option Account} {stored : Option Message} (h : Keeps k a stored) :
    (a = none ∧ stored = none) ∨ ∃ v, stored = some v ∧ v.key = k ∧ a = some v.account := by
  cases stored with
  | none => exact .inl ⟨Option.map_eq_none_iff.mp h.symm, rfl⟩
  | some v =>
    obtain ⟨a, rfl, hv⟩ := Option.map_eq_some_iff.mp h.symm
    obtain ⟨rfl, rfl⟩ := Prod.mk.inj hv
    exact .inr ⟨v, rfl, rfl, rfl⟩

theorem Keeps.map {a : Option Account} {stored : Option Message} {update : Message → Message}
    {f : Account → Account} (h : Keeps k a stored) (hkey : ∀ v, (update v).key = v.key)
    (haccount : ∀ v, (update v).account = f v.account) :
    Keeps k (a.map f) (stored.map update) := by
  rcases h.cases with ⟨rfl, rfl⟩ | ⟨v, rfl, rfl, rfl⟩
  · rfl
  · exact congrArg some (Prod.ext (hkey v) (haccount v))

/-- A message that is stored keeps its account, a new one has none. -/
theorem Keeps.upsert {a : Option Account} {stored : Option Message} {update : Message → Message}
    {new : Message} (h : Keeps k a stored) (hkey : ∀ v, (update v).key = v.key)
    (haccount : ∀ v, (update v).account = v.account) (hnew : new.key = k)
    (hfresh : new.account = account []) :
    Keeps k (some (a.getD (account []))) (some ((stored.map update).getD new)) := by
  rcases h.cases with ⟨rfl, rfl⟩ | ⟨v, rfl, rfl, rfl⟩
  · exact congrArg some (Prod.ext hnew hfresh)
  · exact congrArg some (Prod.ext (hkey v) (haccount v))

section Rows

variable {κ : Type} [DecidableEq κ] (key : Key → κ) {t : Table ι κ Message} {a : Option Account}
  {m : Message} {update : Message → Message}

/-- A change of one row concerns the message of the key if the row is that of the key. -/
theorem Keeps.modify {f : Account → Account} (h : Keeps k a (t.value (key k)))
    (hm : key m.key = key k → m.key = k) (hkey : ∀ v, (update v).key = v.key)
    (haccount : ∀ v, (update v).account = f v.account) :
    Keeps k (if m.key = k then a.map f else a) ((t.modify (key m.key) update).value (key k)) := by
  rw [Table.value_modify]
  by_cases hk : m.key = k
  · rw [hk, if_pos rfl, if_pos rfl]
    exact h.map hkey haccount
  · rw [if_neg hk, if_neg fun htext => hk (hm htext.symm)]
    exact h

theorem Keeps.insert {i : ι} {hi : t.last < i} {new : Message} (h : Keeps k a (t.value (key k)))
    (hm : key m.key = key k → m.key = k) (hkey : ∀ v, (update v).key = v.key)
    (haccount : ∀ v, (update v).account = v.account) (hnew : new.key = m.key)
    (hfresh : new.account = account []) :
    Keeps k (if m.key = k then some (a.getD (account [])) else a)
      ((t.upsert i hi (key m.key) new update).value (key k)) := by
  rw [Table.value_upsert]
  by_cases hk : m.key = k
  · rw [hk, if_pos rfl, if_pos rfl]
    exact h.upsert hkey haccount (hnew.trans hk) hfresh
  · rw [if_neg hk, if_neg fun htext => hk (hm htext.symm)]
    exact h

end Rows

/-- Insertions one after the other. -/
theorem Keeps.foldl {σ α : Type} (view : σ → Option Message) {step : σ → α → σ}
    (message : α → Message) {l : List α}
    (hstep : ∀ x ∈ l, ∀ s a, Keeps k a (view s) →
      Keeps k (if (message x).key = k then some (a.getD (account [])) else a) (view (step s x)))
    {s : σ} {a : Option Account} (h : Keeps k a (view s)) :
    Keeps k (if ∃ x ∈ l, (message x).key = k then some (a.getD (account [])) else a)
      (view (l.foldl step s)) := by
  induction l generalizing s a with
  | nil => simpa using h
  | cons x l ih =>
    obtain ⟨hx, hrest⟩ := List.forall_mem_cons.mp hstep
    have hl := ih hrest (hx s a h)
    by_cases hk : (message x).key = k
    · simpa [hk] using hl
    · simpa [hk] using hl

namespace MemoryStorage

theorem keeps_write {storage : MemoryStorage ι} {a : Option Account} {w : StorageWrite}
    (hw : Regular k w) (h : Keeps k a (storage.docs.value k.text)) :
    Keeps k (accountAfter k a w) ((write internalIds storage w).2.docs.value k.text) := by
  cases w with
  | insert clock messages =>
    obtain ⟨⟨zone, readings, request, hadded⟩, hmessages⟩ := hw
    change Keeps k _ ((insertFrom internalIds clock 0 (0, 0) messages storage).2.docs.value k.text)
    have hmem : (∃ m ∈ messages, m.key = k) ↔ ∃ p ∈ messages.zipIdx, p.1.key = k := by
      conv_lhs => rw [← List.zipIdx_map_fst 0 messages]
      simp only [List.mem_map, exists_exists_and_eq_and]
    simp only [accountAfter, hmem]
    rw [insertFrom_snd fun m hm => (hmessages m hm).1]
    refine Keeps.foldl (fun storage : MemoryStorage ι => storage.docs.value k.text) Prod.fst ?_ h
    intro x hx storage a h
    have hx' : x.1 ∈ messages := List.fst_mem_of_mem_zipIdx hx
    have hfresh : x.1.account = account [] := account_addedMessages (hadded ▸ hx')
    exact h.insert Key.text (hmessages x.1 hx').2 (fun _ => rfl) (fun _ => rfl) rfl hfresh
  | ack m => exact h.modify Key.text hw (fun _ => rfl) fun _ => rfl
  | nack m => exact h.modify Key.text hw (fun _ => rfl) fun _ => rfl
  | remove queue ids =>
    change Keeps k _ ((storage.docs.retain _).value k.text)
    rw [Table.value, Table.get_retain, accountAfter]
    rcases h.cases with ⟨rfl, hnone⟩ | ⟨v, hv, rfl, rfl⟩
    · rw [Option.map_eq_none_iff.mp hnone, ite_self]
      rfl
    · obtain ⟨d, hd, rfl⟩ := Option.map_eq_some_iff.mp hv
      rw [hd, Option.filter_some]
      by_cases hgone : d.value.key.1 = queue ∧ d.value.key.2 ∈ ids
      · have hfields : (d.value.queue == queue && ids.contains d.value.id) = true := by
          simpa [Message.key] using hgone
        rw [if_pos hgone, hfields]
        rfl
      · have hfields : (d.value.queue == queue && ids.contains d.value.id) = false := by
          rw [Bool.eq_false_iff]
          simpa [Message.key] using hgone
        rw [if_neg hgone, hfields]
        rfl

end MemoryStorage

namespace MongoStorage

def write (internalIds : InternalIds ι) (docs : Documents ι) :
    StorageWrite → Written × Documents ι
  | .insert clock messages => (insert internalIds (clock 0) messages docs).map .upserts id
  | .ack m => (ack m docs).map .count id
  | .nack m => (nack m docs).map .count id
  | .remove queue ids => (remove queue ids docs).map .count id

theorem keeps_write {docs : Documents ι} {a : Option Account} {w : StorageWrite}
    (hw : Regular k w) (h : Keeps k a (docs.value k)) :
    Keeps k (accountAfter k a w) ((write internalIds docs w).2.value k) := by
  cases w with
  | insert clock messages =>
    obtain ⟨-, hmessages⟩ := hw
    have hloop : (write internalIds docs (.insert clock messages)).2 =
        messages.foldl (insertOne internalIds (clock 0)) docs := by
      change (insert internalIds (clock 0) messages docs).2 = _
      by_cases hnil : messages = []
      · rw [hnil]
        rfl
      · obtain ⟨n, hn⟩ : ∃ n, insert internalIds (clock 0) messages docs = (.ok n, _) :=
          insert_ok (fun m hm => (hmessages m hm).1) hnil
        rw [hn]
    rw [hloop, accountAfter]
    refine Keeps.foldl (fun docs : Documents ι => docs.value k) id ?_ h
    intro m _ docs a h
    exact h.insert id id (fun _ => rfl) (fun _ => rfl) rfl rfl
  | ack m => exact h.modify id id (fun _ => rfl) fun _ => rfl
  | nack m => exact h.modify id id (fun _ => rfl) fun _ => rfl
  | remove queue ids =>
    change Keeps k _ ((remove queue ids docs).2.value k)
    rw [remove_snd, Table.value, Table.get_keep, accountAfter]
    by_cases hgone : k.1 = queue ∧ k.2 ∈ ids
    · simp [hgone, Keeps]
    · have hkept : (!(k.1 == queue && ids.contains k.2)) = true := by
        simpa [imp_iff_not_or] using hgone
      rw [if_neg hgone, if_pos hkept]
      exact h

end MongoStorage

/-- Writes one after the other. -/
theorem Keeps.play {σ : Type} (view : σ → Option Message)
    {step : σ → StorageWrite → Written × σ}
    (hstep : ∀ s w a, Regular k w → Keeps k a (view s) →
      Keeps k (accountAfter k a w) (view (step s w).2))
    {writes : List StorageWrite} (hregular : ∀ w ∈ writes, Regular k w) {s : σ}
    {outcomes : Option (List Outcome)} (h : Keeps k (outcomes.map account) (view s)) :
    Keeps k ((writes.foldl (outcomesAfter k) outcomes).map account)
      (view (Runs.play step s writes).2) := by
  induction writes generalizing s outcomes with
  | nil => exact h
  | cons w writes ih =>
    obtain ⟨hw, hrest⟩ := List.forall_mem_cons.mp hregular
    refine ih hrest ?_
    rw [map_account_outcomesAfter]
    exact hstep s w _ hw h

/-! ## What a pull reports -/

/-- The messages that a query of the storage returns for a key have the account. -/
def Returns {σ : Type} (storage : StorageCalls ι σ) (k : Key) (a : Account) (s : σ) : Prop :=
  ∀ opt documents, storage.find opt s = .ok documents → ∀ d ∈ documents, d.message.key = k →
    d.message.account = a

/-- A pull that succeeds reports the account of the message with the key, if it returns it. -/
def Reports {σ : Type} (storage : StorageCalls ι σ) (k : Key) (a : Account) (s : σ) : Prop :=
  ∀ (ρ : Type) (cache : CacheCalls ρ) (c : ρ) (clock : Clock) (request : PullRequest)
    (messages : List ResponseMessage) (w : σ × ρ),
    Prog.run (handle storage cache) (Service.pull clock request) (s, c) = (.ok messages, w) →
      ∀ m ∈ messages, (m.queue, m.id) = k → m.diagnostics = a.diagnostics

section Pull

omit [LinearOrder ι]

variable {σ ρ : Type} {storage : StorageCalls ι σ} {cache : CacheCalls ρ} {w w' : σ × ρ}

theorem run_getFromStorage {ids : List String} {queue : String} {retry : Bool}
    {r : List Message × List String}
    (h : Prog.run (handle storage cache) (Queue.getFromStorage ids queue retry) w = (.ok r, w')) :
    w' = w ∧ ∃ opt documents, storage.find opt w.1 = .ok documents ∧
      r.1 = documents.map Document.message := by
  obtain ⟨answer, w₁, hfind, h⟩ := run_bind_ok.mp h
  cases hfind
  obtain ⟨documents, w₂, hattempt, h⟩ := run_bind_ok.mp h
  obtain ⟨hanswer, hw⟩ := run_attempt_ok.mp hattempt
  cases h
  exact ⟨hw, _, documents, hanswer, rfl⟩

/-- The messages that a pull returns come from the storage. -/
theorem mem_run_pull {clock : Clock} {queue : String} {n d : Int64}
    {minScore maxScore : Option Float64} {r : Option (List Message)}
    (h : Prog.run (handle storage cache) (Queue.pull clock queue n minScore maxScore d) w =
      (.ok r, w')) {m : Message} (hm : m ∈ r.getD []) :
    ∃ opt documents, storage.find opt w.1 = .ok documents ∧
      ∃ d ∈ documents, Document.message d = m := by
  obtain ⟨answer, w₁, hperform, h⟩ := run_bind_ok.mp h
  obtain ⟨ids, w₂, hattempt, h⟩ := run_bind_ok.mp h
  obtain ⟨-, hw₂⟩ := run_attempt_ok.mp hattempt
  -- the cache answers, and the storage stays as it is
  have hsame : w₂.1 = w.1 := by
    cases hperform
    rw [hw₂]
    rfl
  split_ifs at h with hids
  · cases h
    cases hm
  obtain ⟨first, w₃, hfirst, h⟩ := run_bind_ok.mp h
  obtain ⟨hw₃, opt₁, documents₁, hfind₁, hmessages₁⟩ := run_getFromStorage hfirst
  rw [hsame] at hfind₁
  dsimp only at h
  split_ifs at h with hfound
  · cases h
    rw [Option.getD_some, hmessages₁] at hm
    exact ⟨opt₁, documents₁, hfind₁, List.mem_map.mp hm⟩
  obtain ⟨retry, w₄, hretry, h⟩ := run_bind_ok.mp h
  obtain ⟨-, opt₂, documents₂, hfind₂, hmessages₂⟩ := run_getFromStorage hretry
  rw [hw₃, hsame] at hfind₂
  obtain ⟨-, w₅, -, h⟩ := run_bind_ok.mp h
  cases h
  rw [(Queue.getD_merge_perm _ _).mem_iff, List.mem_append, hmessages₁, hmessages₂] at hm
  rcases hm with hm | hm
  · exact ⟨opt₁, documents₁, hfind₁, List.mem_map.mp hm⟩
  · exact ⟨opt₂, documents₂, hfind₂, List.mem_map.mp hm⟩

theorem Returns.reports {a : Account} {s : σ} (h : Returns storage k a s) :
    Reports storage k a s := by
  intro ρ cache c clock request messages w hrun m hm hkey
  obtain ⟨r, w₁, hpull, hret⟩ := run_bind_ok.mp (run_mapError_ok.mp hrun)
  cases hret
  obtain ⟨v, hv, rfl⟩ := List.mem_map.mp hm
  obtain ⟨opt, documents, hfind, d, hd, rfl⟩ := mem_run_pull hpull hv
  exact congrArg Account.diagnostics (h opt documents hfind d hd hkey)

end Pull

namespace MemoryStorage

theorem matching_sublist {opt : FindOptions} {visit ds : List (Stored ι)}
    (h : matching internalIds opt visit = .ok ds) : ds.Sublist visit := by
  induction visit generalizing ds with
  | nil =>
    cases h
    exact List.Sublist.refl _
  | cons d visit ih =>
    rw [matching] at h
    cases hmatch : messageMatchesFilter internalIds opt d with
    | error e =>
      rw [hmatch] at h
      cases h
    | ok isMatch =>
      cases hrest : matching internalIds opt visit with
      | error e =>
        rw [hmatch, hrest] at h
        cases h
      | ok found =>
        rw [hmatch, hrest] at h
        cases h
        cases isMatch with
        | true => exact (ih hrest).cons_cons d
        | false => exact (ih hrest).cons d

theorem mem_of_find {opt : FindOptions} {clock : Stored ι → Time × Time}
    {visit ds : List (Stored ι)} {d : Stored ι} (h : find internalIds opt clock visit = .ok ds)
    (hd : d ∈ ds) : d ∈ visit := by
  rw [find] at h
  cases hmatch : matching internalIds opt (visit.filter fun d => !hides opt (clock d) d.value) with
  | error e =>
    rw [hmatch] at h
    cases h
  | ok found =>
    rw [hmatch] at h
    cases h
    have hlimited : ∀ l : List (Stored ι), d ∈ limited opt.limit l → d ∈ l := by
      intro l hl
      unfold limited at hl
      split_ifs at hl
      · exact List.mem_of_mem_take hl
      · exact hl
    have hfound : d ∈ found := by
      have hsorted := hlimited _ hd
      cases hsort : opt.sort with
      | none => rwa [hsort] at hsorted
      | some sort =>
        rw [hsort] at hsorted
        exact (StableSort.perm_stableSort _ _).mem_iff.mp hsorted
    exact List.mem_of_mem_filter ((matching_sublist hmatch).subset hfound)

theorem returns_of_keeps {a : Account} {storage : MemoryStorage ι} (visit : Visit ι)
    (h : Keeps k (some a) (storage.docs.value k.text)) :
    Returns (calls internalIds visit) k a storage := by
  intro opt documents hfind d hd hk
  change (find internalIds opt visit.clock (visit.order storage.docs.rows)).map
    (List.map found) = .ok documents at hfind
  cases hfound : find internalIds opt visit.clock (visit.order storage.docs.rows) with
  | error e =>
    rw [hfound] at hfind
    cases hfind
  | ok ds =>
    rw [hfound] at hfind
    cases hfind
    obtain ⟨row, hrow, rfl⟩ := List.mem_map.mp hd
    have hmem : row ∈ storage.docs.rows := (visit.perm _).mem_iff.mp (mem_of_find hfound hrow)
    have hkey : row.value.key = k := hk
    have hget : storage.docs.get k.text = some row :=
      Table.get_eq_some.mpr ⟨hmem, by rw [storage.keyed row hmem, ← hkey]; rfl⟩
    rw [Table.value, hget] at h
    exact congrArg Prod.snd (Option.some.inj h)

end MemoryStorage

namespace MongoStorage

theorem returns_of_keeps {a : Account} {docs : Documents ι}
    (h : Keeps k (some a) (docs.value k)) : Returns (calls internalIds) k a docs := by
  intro opt documents hfind d hd hk
  obtain ⟨hmem, -⟩ := mem_find hfind hd
  have hget : docs.get k = some d := Table.get_eq_some.mpr ⟨hmem, hk⟩
  rw [Table.value, hget] at h
  exact congrArg Prod.snd (Option.some.inj h)

end MongoStorage

/-! ## The history of a message -/

/-- The account tells the numbers of the outcomes, the lengths of the longest ends of one kind,
of which one at most is not empty, and the sum of the scores to subtract. -/
structure Counts (outcomes : List Outcome) (a : Account) : Prop where
  acks : a.diagnostics.acks.toInt = outcomes.countP Outcome.isAck
  nacks : a.diagnostics.nacks.toInt = outcomes.countP Outcome.isNack
  consecutiveAcks :
    a.diagnostics.consecutiveAcks.toInt = (outcomes.rtakeWhile Outcome.isAck).length
  consecutiveNacks :
    a.diagnostics.consecutiveNacks.toInt = (outcomes.rtakeWhile Outcome.isNack).length
  oneKind : a.diagnostics.consecutiveAcks = 0 ∨ a.diagnostics.consecutiveNacks = 0
  usageCount : a.usageCount = a.diagnostics.acks
  totalScoreSubtract :
    a.totalScoreSubtract = (outcomes.filterMap Outcome.scoreSubtract).foldl Float64.add (.ofInt 0)

theorem counts_account {outcomes : List Outcome} (h : outcomes.length < 2 ^ 63) :
    Counts outcomes (account outcomes) := by
  have hfits : ∀ n ≤ outcomes.length, (Int64.ofNat n).toInt = n := fun n hn =>
    Int64.toInt_ofNat_of_lt (by omega)
  exact
    { acks := hfits _ List.countP_le_length
      nacks := hfits _ List.countP_le_length
      consecutiveAcks := hfits _ (List.rtakeWhile_suffix _ _).length_le
      consecutiveNacks := hfits _ (List.rtakeWhile_suffix _ _).length_le
      oneKind := account_consecutive outcomes
      usageCount := rfl
      totalScoreSubtract := rfl }

theorem length_outcomesAfter (k : Key) (outcomes : Option (List Outcome)) (w : StorageWrite) :
    ((outcomesAfter k outcomes w).getD []).length ≤ (outcomes.getD []).length + 1 := by
  cases w <;> rw [outcomesAfter] <;> split_ifs <;> cases outcomes <;> simp

theorem length_outcomesOf (k : Key) (writes : List StorageWrite) :
    ((outcomesOf k writes).getD []).length ≤ writes.length := by
  rw [outcomesOf]
  induction writes using List.reverseRecOn with
  | nil => exact Nat.zero_le _
  | append_singleton writes w ih =>
    rw [List.foldl_concat, List.length_append, List.length_singleton]
    exact (length_outcomesAfter k _ w).trans (Nat.add_le_add_right ih 1)

/-- After any writes to empty storages of messages as requests add them, among which no other
message shares its text with `k`: if `k` is stored, both storages keep the same account of it,
which counts its outcomes, and any pull reports this account. -/
theorem diagnostics_count_history {ι' : Type} [LinearOrder ι'] (internalIds : InternalIds ι)
    (internalIds' : InternalIds ι') (internalCounter : ι) (internalCounter' : ι') (k : Key)
    (visit : MemoryStorage.Visit ι) {writes : List StorageWrite}
    (hregular : ∀ w ∈ writes, Regular k w) (hlength : writes.length < 2 ^ 63)
    {outcomes : List Outcome} (houtcomes : outcomesOf k writes = some outcomes) :
    let memory := (MemoryStorage.writes internalIds (.newMemoryStorage internalCounter) writes).2
    let mongo := (play (MongoStorage.write internalIds') (Table.empty internalCounter') writes).2
    ∃ a, Counts outcomes a ∧
      ((memory.docs.value k.text).map Message.account = some a ∧
        Reports (MemoryStorage.calls internalIds visit) k a memory) ∧
      (mongo.value k).map Message.account = some a ∧
        Reports (MongoStorage.calls internalIds') k a mongo := by
  have hshort : outcomes.length ≤ writes.length := by
    simpa [houtcomes] using length_outcomesOf k writes
  intro memory mongo
  have hmemory : Keeps k ((outcomesOf k writes).map account) (memory.docs.value k.text) :=
    Keeps.play (fun storage : MemoryStorage ι => storage.docs.value k.text)
      (fun _ _ _ => MemoryStorage.keeps_write) hregular rfl
  have hmongo : Keeps k ((outcomesOf k writes).map account) (mongo.value k) :=
    Keeps.play (fun docs : MongoStorage.Documents ι' => docs.value k)
      (fun _ _ _ => MongoStorage.keeps_write) hregular rfl
  rw [houtcomes] at hmemory hmongo
  have haccount : ∀ {stored : Option Message}, Keeps k (some (account outcomes)) stored →
      stored.map Message.account = some (account outcomes) := by
    intro stored h
    obtain ⟨hnone, -⟩ | ⟨v, rfl, -, hv⟩ := h.cases
    · cases hnone
    · exact hv.symm
  exact ⟨account outcomes, counts_account (by omega),
    ⟨haccount hmemory, (MemoryStorage.returns_of_keeps visit hmemory).reports⟩,
    haccount hmongo, (MongoStorage.returns_of_keeps hmongo).reports⟩

/-- Two acknowledgements of a message, around one delivery that is not acknowledged and a second
insertion. -/
def servedTwice : List StorageWrite :=
  [.insert (fun _ => 0) (Service.addedMessages .utc (fun _ => 0) [{ id := "a", queue := "q" }]),
    .ack { id := "a", queue := "q", lastScoreSubtract := .ofInt 5 },
    .nack { id := "a", queue := "q" },
    .insert (fun _ => 1) (Service.addedMessages .utc (fun _ => 1) [{ id := "a", queue := "q" }]),
    .ack { id := "a", queue := "q", lastScoreSubtract := .ofInt 7 }]

theorem regular_servedTwice : ∀ w ∈ servedTwice, Regular ("q", "a") w := by
  have hadded : ∀ clock : Clock, Regular ("q", "a")
      (.insert clock (Service.addedMessages .utc clock [{ id := "a", queue := "q" }])) := by
    intro clock
    refine ⟨⟨.utc, clock, _, rfl⟩, fun m hm => ?_⟩
    rw [List.mem_singleton.mp hm]
    exact ⟨by simp [Service.addedMessage], fun _ => rfl⟩
  intro w hw
  simp only [servedTwice, List.mem_cons, List.not_mem_nil, or_false] at hw
  rcases hw with rfl | rfl | rfl | rfl | rfl
  · exact hadded _
  · exact fun _ => rfl
  · exact fun _ => rfl
  · exact hadded _
  · exact fun _ => rfl

theorem diagnostics_count_servedTwice :
    ∃ a, Counts [.ack (.ofInt 5), .nack, .ack (.ofInt 7)] a ∧
      ((MemoryStorage.writes InternalIds.counter (.newMemoryStorage 0) servedTwice).2.docs.value
        "q:a").map Message.account = some a ∧
      ((play (MongoStorage.write InternalIds.counter) (Table.empty 0) servedTwice).2.value
        ("q", "a")).map Message.account = some a := by
  have houtcomes : outcomesOf ("q", "a") servedTwice =
      some [.ack (.ofInt 5), .nack, .ack (.ofInt 7)] := rfl
  obtain ⟨a, hcounts, ⟨hmemory, -⟩, hmongo, -⟩ := diagnostics_count_history InternalIds.counter
    InternalIds.counter 0 0 ("q", "a") (.at 0) regular_servedTwice (by decide) houtcomes
  exact ⟨a, hcounts, hmemory, hmongo⟩

end Deckard
