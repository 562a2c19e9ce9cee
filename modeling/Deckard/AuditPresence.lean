import Deckard.AuditTrail
import Deckard.Orderly
import Deckard.StorageQueries

/-!
# Presence told by the audit trail

Requests and tasks that come one after the other. The last entry of a message that announces its
insertion, its removal or its missing document tells whether the cache has the message. This holds
for both storages and both caches, from an empty cache and any documents.
-/
namespace Deckard

open Binary64 Effect Cache Program Prog Tasks Runs Lifecycle

/-! ## What is asked of the stores -/

section Stores

variable {ι σ ρ : Type}

/-- Every stored score is a number as long as no call brings another one. -/
structure StorageCalls.Numbered (storage : StorageCalls ι σ) (J : σ → Prop) : Prop where
  insert : ∀ {now messages s}, (∀ m ∈ messages, m.score ≠ .nan) → J s →
    J (storage.insert now messages s).2
  ack : ∀ {message s}, message.score ≠ .nan → J s → J (storage.ack message s).2
  nack : ∀ {message s}, message.score ≠ .nan → J s → J (storage.nack message s).2
  remove : ∀ {queue ids s}, J s → J (storage.remove queue ids s).2
  find : ∀ {opt s documents}, J s → storage.find opt s = .ok documents →
    ∀ d ∈ documents, d.value.score ≠ .nan

/-- The calls of a cache move the messages along their lives, and one that fails moves none. -/
structure CacheCalls.Moving (cache : CacheCalls ρ)
    (stages : ρ → (String → String → Stage) → Prop) : Prop where
  perform : ∀ {op s A}, op.AmountOk → op.ScoresOk → stages s A →
    ∃ A', stages (cache.perform op s).2 A' ∧
      (∀ queue id, Step queue id (op, op.outcome (cache.perform op s).1) (A queue id)
        (A' queue id)) ∧
      ∀ e, (cache.perform op s).1 = .error e → A' = A
  get : ∀ {key s A}, stages s A → stages (cache.get key s).2 A
  set : ∀ {key value s A}, stages s A → stages (cache.set key value s).2 A

variable [LinearOrder ι] (internalIds : InternalIds ι)

theorem MongoStorage.numbered :
    (MongoStorage.calls internalIds).Numbered fun docs =>
      ∀ d ∈ docs.rows, d.value.score ≠ .nan where
  insert := by
    intro now messages docs hscores hdocs
    change ∀ d ∈ (MongoStorage.insert internalIds now messages docs).2.rows, _
    obtain ⟨e, he⟩ | ⟨⟨n, hn⟩, -⟩ := insert_cases internalIds now messages docs
    · rw [he]
      exact hdocs
    rw [hn]
    clear hn
    induction messages generalizing docs with
    | nil => exact hdocs
    | cons m ms ih =>
      obtain ⟨hm, hms⟩ := List.forall_mem_cons.mp hscores
      refine ih hms fun d hd => ?_
      rcases Table.mem_upsert hd with hd | ⟨d', hd', rfl⟩ | rfl
      · exact hdocs d hd
      · exact hdocs d' hd'
      · exact hm
  ack := by
    intro message docs hscore hdocs d hd
    obtain ⟨d', hd', rfl⟩ := Table.mem_modify.mp hd
    split_ifs
    · exact hscore
    · exact hdocs d' hd'
  nack := by
    intro message docs hscore hdocs d hd
    obtain ⟨d', hd', rfl⟩ := Table.mem_modify.mp hd
    split_ifs
    · exact hscore
    · exact hdocs d' hd'
  remove := by
    intro queue ids docs hdocs d hd
    change d ∈ (MongoStorage.remove queue ids docs).2.rows at hd
    rw [remove_snd, Table.mem_keep] at hd
    exact hdocs d hd.1
  find := by
    intro opt docs documents hdocs hfind d hd
    exact hdocs d (mem_find hfind hd).1

namespace MemoryStorage

variable {internalIds} in
theorem mem_matching {opt : FindOptions} {visit found : List (Stored ι)} {d : Stored ι}
    (h : matching internalIds opt visit = .ok found) (hd : d ∈ found) : d ∈ visit := by
  induction visit generalizing found with
  | nil =>
    cases h
    exact hd
  | cons e visit ih =>
    rw [matching] at h
    cases hmatch : messageMatchesFilter internalIds opt e with
    | error err =>
      rw [hmatch] at h
      cases h
    | ok isMatch =>
      rw [hmatch] at h
      cases hrest : matching internalIds opt visit with
      | error err =>
        rw [hrest] at h
        cases h
      | ok rest =>
        rw [hrest] at h
        cases h
        split_ifs at hd
        · rcases List.mem_cons.mp hd with rfl | hd
          · exact List.mem_cons_self
          · exact List.mem_cons_of_mem _ (ih hrest hd)
        · exact List.mem_cons_of_mem _ (ih hrest hd)

variable {internalIds} in
theorem mem_find {opt : FindOptions} {clock : Stored ι → Time × Time}
    {visit found : List (Stored ι)} {d : Stored ι}
    (h : find internalIds opt clock visit = .ok found) (hd : d ∈ found) : d ∈ visit := by
  unfold find at h
  cases hmatch : matching internalIds opt (visit.filter fun d => !hides opt (clock d) d.value) with
  | error e =>
    rw [hmatch] at h
    cases h
  | ok l =>
    rw [hmatch] at h
    cases h
    have hlimited : ∀ l : List (Stored ι), d ∈ limited opt.limit l → d ∈ l := by
      intro l hl
      unfold limited at hl
      split_ifs at hl
      · exact List.mem_of_mem_take hl
      · exact hl
    have hsorted := hlimited _ hd
    have hmem : d ∈ l := by
      cases hsort : opt.sort with
      | none =>
        rw [hsort] at hsorted
        exact hsorted
      | some sort =>
        rw [hsort] at hsorted
        exact (StableSort.perm_stableSort _ l).mem_iff.mp hsorted
    exact List.mem_of_mem_filter (mem_matching hmatch hmem)

theorem numbered (visit : Visit ι) : (MemoryStorage.calls internalIds visit).Numbered fun storage =>
    ∀ d ∈ storage.docs.rows, d.value.score ≠ .nan where
  insert := by
    intro now messages storage hscores hdocs
    change ∀ d ∈ (insertFrom internalIds _ 0 (0, 0) messages storage).2.docs.rows, _
    generalize 0 = i, ((0, 0) : ℕ × ℕ) = n
    induction messages generalizing storage i n with
    | nil => exact hdocs
    | cons m ms ih =>
      obtain ⟨hm, hms⟩ := List.forall_mem_cons.mp hscores
      unfold insertFrom
      split_ifs
      · exact hdocs
      · exact hdocs
      refine ih hms (fun d hd => ?_) _ _
      rcases Table.mem_upsert hd with hd | ⟨d', hd', rfl⟩ | rfl
      · exact hdocs d hd
      · exact hdocs d' hd'
      · exact hm
  ack := by
    intro message storage hscore hdocs d hd
    obtain ⟨d', hd', rfl⟩ := Table.mem_modify.mp hd
    split_ifs
    · exact hscore
    · exact hdocs d' hd'
  nack := by
    intro message storage hscore hdocs d hd
    obtain ⟨d', hd', rfl⟩ := Table.mem_modify.mp hd
    split_ifs
    · exact hscore
    · exact hdocs d' hd'
  remove := fun hdocs d hd => hdocs d (Table.mem_retain.mp hd).1
  find := by
    intro opt storage documents hdocs hfind d hd
    change (find internalIds opt visit.clock (visit.order storage.docs.rows)).map _ = _ at hfind
    cases hfound : find internalIds opt visit.clock (visit.order storage.docs.rows) with
    | error e =>
      rw [hfound] at hfind
      cases hfind
    | ok l =>
      rw [hfound] at hfind
      cases hfind
      obtain ⟨d', hd', rfl⟩ := List.mem_map.mp hd
      exact hdocs d' ((visit.perm _).mem_iff.mp (mem_find hfound hd'))

end MemoryStorage

/-- A call that fails and removes nothing reports nothing. -/
theorem Lifecycle.step_error {op : Op} {e : CacheError} {queue id : String} {p : Stage}
    (h : ∀ queue ids, op ≠ .remove queue ids) : Step queue id (op, .error e) p p := by
  cases op with
  | remove queue ids => exact absurd rfl (h queue ids)
  | _ => exact .stay not_false not_false False.elim

theorem RedisCache.moving (cache : RedisCache) : cache.calls.Moving cache.Stages where
  perform := by
    rintro op s _ hamount hscores ⟨P, hs, hclean, rfl⟩
    obtain ⟨P', ht, -, hmoves⟩ := step_moves hs hamount
    rw [step_eq_perform] at ht hmoves
    refine ⟨_, ⟨P', ht, hmoves.clean hclean, rfl⟩, hmoves.step hclean hscores, fun e he => ?_⟩
    have he : (exec (cache.perform op) s).1 = .error e := he
    rw [he] at hmoves
    cases hmoves with
    | rejected => rfl
    | insertedPart _ _ _ hnan =>
      obtain ⟨m, hm, hx⟩ := hnan
      exact absurd hx (hscores m hm)
    | lost _ _ _ hx => exact absurd hx hscores
    | lockedUnscored _ _ _ hx => exact absurd hx hscores
  get := id
  set := by
    rintro key value s _ ⟨P, hs, hclean, rfl⟩
    exact ⟨P, hs, hclean, rfl⟩

/-- The memory cache fails before it changes anything. -/
theorem MemoryCache.perform_error {order : MemoryCache → LockType → List String} {op : Op}
    {c : MemoryCache} {e : CacheError} (h : (MemoryCache.perform order op c).1 = .error e) :
    (MemoryCache.perform order op c).2 = c ∧ ∀ queue ids, op ≠ .remove queue ids := by
  cases op with
  | insert queue messages =>
    simp only [perform, MemoryCache.insert] at h ⊢
    split_ifs at h ⊢ with hqueue
    · exact ⟨rfl, by simp⟩
    · cases h
  | makeAvailable message =>
    simp only [perform, MemoryCache.makeAvailable] at h ⊢
    split_ifs at h ⊢ with hqueue hheld
    · exact ⟨rfl, by simp⟩
    · cases h
    · cases h
  | lockMessage clock message lockType =>
    simp only [perform, MemoryCache.lockMessage] at h ⊢
    split_ifs at h ⊢ with hqueue hlock hheld
    · exact ⟨rfl, by simp⟩
    · exact ⟨rfl, by simp⟩
    · cases h
    · cases h
  | timeoutMessages clock queue =>
    simp only [perform, MemoryCache.timeoutMessages] at h
    split at h <;> cases h
  | pullMessages | unlockMessages | remove => cases h

theorem MemoryCache.moving {order : MemoryCache → LockType → List String}
    (horder : ∀ (c : MemoryCache) lockType, c.VisitOrder lockType (order c lockType)) :
    (MemoryCache.calls order).Moving MemoryCache.Stages where
  perform := by
    intro op c A _ _ hA
    obtain ⟨A', hA', hstep⟩ := refines (calls_perform (horder c) op) trivial hA
    cases hanswer : (MemoryCache.perform order op c).1 with
    | ok a => exact ⟨A', hA', hstep, by simp [MemoryCache.calls, hanswer]⟩
    | error e =>
      obtain ⟨hsame, hremove⟩ := perform_error hanswer
      refine ⟨A, ?_, fun queue id => ?_, fun _ _ => rfl⟩
      · change Stages (MemoryCache.perform order op c).2 A
        rwa [hsame]
      · change Step queue id (op, op.outcome (MemoryCache.perform order op c).1) _ _
        rw [hanswer]
        exact step_error hremove
  get := id
  set := by
    rintro key value c _ ⟨S, hc, rfl⟩
    exact ⟨S, hc, rfl⟩

end Stores

namespace Audited

/-! ## What the entries tell -/

/-- What an entry with the signal says about the presence of its message. -/
def presence : Signal → Option Bool
  | .insertCache => some true
  | .remove | .missingStorage => some false
  | .ack | .nack | .unlock | .timeout => none

/-- Whether a message is present by the entries so far. -/
def tell (queue id : String) (present : Bool) (entry : Entry) : Bool :=
  if entry.queue = queue ∧ entry.id = id then (presence entry.signal).getD present else present

def told (trail : List Entry) (queue id : String) : Bool := trail.foldl (tell queue id) false

theorem told_append (trail : List Entry) (entry : Entry) (queue id : String) :
    told (trail ++ [entry]) queue id = tell queue id (told trail queue id) entry := by
  simp [told]

variable {ι ε α β σ ρ : Type}

/-- An instance with stores of which as much is known as the trail needs. -/
structure Instance (ι σ ρ : Type) where
  storage : StorageCalls ι σ
  cache : CacheCalls ρ
  queues : String → RedisCache.PoolType → ρ → Except CacheError (List String)
  configurations : Except StorageError (List QueueConfiguration)
  Numbers : σ → Prop
  Stages : ρ → (String → String → Stage) → Prop
  numbered : storage.Numbered Numbers
  moving : cache.Moving Stages

namespace Instance

variable (b : Instance ι σ ρ)

def handle : (c : TaskCommand) → State (σ × ρ) → TaskAnswer ι c × State (σ × ρ) :=
  audited (Tasks.handle b.storage b.cache b.queues b.configurations)

/-- The trail tells of each message whether the cache has it. -/
def Tells (s : State (σ × ρ)) : Prop :=
  b.Numbers s.stores.1 ∧ ∃ A, b.Stages s.stores.2 A ∧
    ∀ queue id, A queue id ≠ .absent ↔ told s.trail queue id = true

end Instance

/-- Commands without a score that is not a number. -/
def Admitted : Command → Prop
  | .storageInsert _ messages => ∀ m ∈ messages, m.score ≠ .nan
  | .storageAck message | .storageNack message => message.score ≠ .nan
  | .cache op => op.AmountOk ∧ op.ScoresOk
  | _ => True

variable {b : Instance ι σ ρ} {s : State (σ × ρ)}

/-- Where the messages are after a command of the queue. -/
theorem Instance.numbers_command {c : Command} (hc : Admitted c) (h : b.Numbers s.stores.1) :
    b.Numbers (b.handle (.call (.command c)) s).2.stores.1 := by
  cases c with
  | storageInsert now messages => exact b.numbered.insert hc h
  | storageAck message => exact b.numbered.ack hc h
  | storageNack message => exact b.numbered.nack hc h
  | storageRemove queue ids => exact b.numbered.remove h
  | _ => exact h

/-- The scores that a query finds are numbers. -/
theorem Instance.finds_handle (h : b.Numbers s.stores.1) (c : TaskCommand) :
    finds (fun m => m.score ≠ .nan) c (b.handle c s).1 := by
  unfold finds
  split
  · exact fun documents hdocuments => b.numbered.find h hdocuments
  · trivial

/-! ## Entries that are due, and what they will tell -/

/-- What a report or, without one, a removal says about the presence of its message. -/
def Report.presence : Option Report → Option Bool
  | some .inserted => some true
  | some .settled | some .unlocked | some .timedOut => none
  | none => some false

theorem presence_eq (signal : Signal) :
    presence signal = Report.presence (Signal.report signal) := by
  cases signal <;> rfl

/-- Whether a message is present by the entries so far and one about the subject. -/
def expect (queue id : String) (present : Bool) (d : Subject) : Bool :=
  if d.2.1 = queue ∧ d.2.2 = id then (Report.presence d.1).getD present else present

theorem tell_eq (queue id : String) (present : Bool) (entry : Entry) :
    tell queue id present entry = expect queue id present (subject entry) := by
  rw [tell, presence_eq]
  rfl

/-- Entries about some messages of a queue that all say the same. -/
theorem foldl_expect (report : Option Report) (q : String) (ids : List String) (queue id : String)
    (present : Bool) :
    (ids.map fun i => (report, q, i)).foldl (expect queue id) present =
      if q = queue ∧ id ∈ ids then (Report.presence report).getD present else present := by
  induction ids generalizing present with
  | nil => simp
  | cons i ids ih =>
    rw [List.map_cons, List.foldl_cons, ih, expect]
    by_cases hq : q = queue
    · by_cases hi : i = id
      · cases Report.presence report <;> simp [hq, hi]
      · simp [hq, hi, Ne.symm hi]
    · simp [hq]

/-- The entries that are due after a call tell what it has done. -/
theorem foldl_due (op : Op) (a : op.Value) (queue id : String) (present : Bool) :
    (due (op, op.result a)).foldl (expect queue id) present = true ↔
      (present = true ∨ Inserted queue id (op, op.result a)) ∧
        ¬ Removed queue id (op, op.result a) := by
  cases op with
  | insert q messages =>
    change (List.map _ a).foldl _ _ = true ↔ (_ ∨ (q = queue ∧ id ∈ a)) ∧ ¬ False
    rw [foldl_expect]
    split_ifs with h <;> simp [h, Report.presence]
  | remove q ids =>
    change (List.map _ ids).foldl _ _ = true ↔ (_ ∨ False) ∧ ¬ (q = queue ∧ id ∈ ids)
    rw [foldl_expect]
    split_ifs with h <;> simp [h, Report.presence]
  | pullMessages => simp [due, Inserted, Removed]
  | makeAvailable message | lockMessage clock message lockType =>
    simp [due, Op.result, Inserted, Removed, expect, Report.presence]
  | unlockMessages | timeoutMessages =>
    simp [due, Op.result, Inserted, Removed, foldl_expect, Report.presence]

namespace Instance

/-- The trail will tell of each message whether the cache has it, once the entries that are due are
stored and the messages that are announced as missing are removed. -/
def Agrees (b : Instance ι σ ρ) : Phase → State (σ × ρ) → Prop
  | .owing subjects, s => b.Numbers s.stores.1 ∧ ∃ A, b.Stages s.stores.2 A ∧
      ∀ queue id, A queue id ≠ .absent ↔
        subjects.foldl (expect queue id) (told s.trail queue id) = true
  | .missing q ids, s => b.Numbers s.stores.1 ∧ ∃ A, b.Stages s.stores.2 A ∧
      ∀ queue id, A queue id ≠ .absent ∧ ¬ (q = queue ∧ id ∈ ids) ↔
        told s.trail queue id = true

theorem Agrees.numbers {phase : Phase} (h : b.Agrees phase s) : b.Numbers s.stores.1 := by
  cases phase with
  | owing => exact h.1
  | missing => exact h.1

/-- A call of the cache moves what its entries will tell. A failed one has moved nothing. -/
theorem Agrees.cache {op : Op} (hop : Admitted (.cache op)) (h : b.Agrees .clear s) :
    b.Agrees (.owing (due (op, op.outcome (b.cache.perform op s.stores.2).1)))
      (b.handle (.call (.command (.cache op))) s).2 := by
  obtain ⟨hnumbers, A, hA, htold⟩ := h
  obtain ⟨A', hA', hstep, herror⟩ := b.moving.perform hop.1 hop.2 hA
  refine ⟨hnumbers, A', hA', fun queue id => ?_⟩
  change A' queue id ≠ .absent ↔ List.foldl _ (told s.trail queue id) _ = true
  cases hanswer : (b.cache.perform op s.stores.2).1 with
  | error e =>
    rw [herror e hanswer, htold, show op.outcome (.error e) = .error e from rfl, due_error]
  | ok a =>
    have hpresent := (hstep queue id).present.1
    rw [hanswer] at hpresent
    rw [hpresent, htold]
    exact (foldl_due op a queue id _).symm

theorem Agrees.command {c : Command} (hc : Admitted c) (h : b.Agrees .clear s) :
    b.Agrees (Phase.clear.next (.call (.command c)) (b.handle (.call (.command c)) s).1)
      (b.handle (.call (.command c)) s).2 := by
  have hnumbers := b.numbers_command hc h.numbers
  cases c with
  | cache op => exact h.cache hc
  | cacheGet key =>
    obtain ⟨-, A, hA, htold⟩ := h
    exact ⟨hnumbers, A, b.moving.get hA, htold⟩
  | cacheSet key value =>
    obtain ⟨-, A, hA, htold⟩ := h
    exact ⟨hnumbers, A, b.moving.set hA, htold⟩
  | _ => exact ⟨hnumbers, h.2⟩

/-- An entry that is due is stored. -/
theorem Agrees.owed {subjects : List Subject} {entry : Entry}
    (h : b.Agrees (.owing (subject entry :: subjects)) s) :
    b.Agrees (.owing subjects) (b.handle (.store entry) s).2 := by
  obtain ⟨hnumbers, A, hA, htold⟩ := h
  refine ⟨hnumbers, A, hA, fun queue id => ?_⟩
  rw [htold]
  change _ ↔ subjects.foldl _ (told (s.trail ++ [entry]) queue id) = true
  rw [told_append, tell_eq]
  rfl

theorem told_missing {entry : Entry} (hsignal : entry.signal = .missingStorage)
    (trail : List Entry) (queue id : String) :
    told (trail ++ [entry]) queue id = true ↔
      told trail queue id = true ∧ ¬ (entry.queue = queue ∧ entry.id = id) := by
  rw [told_append, tell, hsignal]
  split_ifs with h
  · simp [presence, h]
  · exact (and_iff_left h).symm

/-- The first message is announced as missing. -/
theorem Agrees.missingFirst {entry : Entry} (hsignal : entry.signal = .missingStorage)
    (h : b.Agrees .clear s) :
    b.Agrees (.missing entry.queue [entry.id]) (b.handle (.store entry) s).2 := by
  obtain ⟨hnumbers, A, hA, htold⟩ := h
  refine ⟨hnumbers, A, hA, fun queue id => ?_⟩
  refine Iff.trans ?_ (told_missing hsignal s.trail queue id).symm
  rw [htold, List.mem_singleton, @eq_comm _ id]
  rfl

theorem Agrees.missingNext {entry : Entry} (hsignal : entry.signal = .missingStorage)
    {ids : List String} (h : b.Agrees (.missing entry.queue ids) s) :
    b.Agrees (.missing entry.queue (ids ++ [entry.id])) (b.handle (.store entry) s).2 := by
  obtain ⟨hnumbers, A, hA, htold⟩ := h
  refine ⟨hnumbers, A, hA, fun queue id => ?_⟩
  refine Iff.trans ?_ (told_missing hsignal s.trail queue id).symm
  rw [← htold, List.mem_append, List.mem_singleton, @eq_comm _ id]
  tauto

/-- The messages announced as missing are removed, whatever is answered. -/
theorem Agrees.removed {queue : String} {ids : List String} (h : b.Agrees (.missing queue ids) s) :
    b.Agrees .clear (b.handle (.call (.command (.cache (.remove queue ids)))) s).2 := by
  obtain ⟨hnumbers, A, hA, htold⟩ := h
  have hop : Admitted (.cache (.remove queue ids)) := ⟨trivial, trivial⟩
  obtain ⟨A', hA', hstep, -⟩ := b.moving.perform hop.1 hop.2 hA
  refine ⟨hnumbers, A', hA', fun q id => ?_⟩
  refine Iff.trans ?_ (htold q id)
  rw [(hstep q id).present.1]
  change (_ ∨ False) ∧ ¬ (queue = q ∧ id ∈ ids) ↔ _
  rw [or_false]

/-- Every allowed command keeps the trail and the cache in agreement. -/
theorem Agrees.step {phase : Phase} {c : TaskCommand} (hadmitted : OnStores Admitted c)
    (hc : phase.allows c) (h : b.Agrees phase s) :
    b.Agrees (phase.next c (b.handle c s).1) (b.handle c s).2 := by
  rcases phase with (_ | ⟨d, subjects⟩) | ⟨queue, ids⟩
  · cases c with
    | call c =>
      cases c with
      | command c => exact h.command hadmitted
      | _ => exact h
    | store entry => exact h.missingFirst hc
    | _ => exact h
  · cases c with
    | store entry =>
      obtain rfl : subject entry = d := hc
      exact h.owed
    | _ => exact hc.elim
  · cases c with
    | store entry =>
      obtain ⟨hsignal, rfl⟩ := hc
      exact h.missingNext hsignal
    | call c =>
      cases c with
      | command c =>
        obtain rfl : c = .cache (.remove queue ids) := hc
        exact h.removed
      | _ => exact hc.elim
    | _ => exact hc.elim

end Instance

/-! ## Requests and tasks without NaN -/

/-- No score of the request is NaN. -/
def NoNaN : Request → Prop
  | .add _ _ _ messages => ∀ m ∈ messages, m.score ≠ .nan
  | .pull _ request => request.minScore ≠ .nan ∧ request.maxScore ≠ .nan
  | .ack _ request | .nack _ request => request.score ≠ .nan ∧ request.scoreSubtract ≠ .nan
  | .remove _ | .unlockMessages .. | .timeoutMessages .. => True

def Work.NoNaN : Work → Prop
  | .client request _ => Audited.NoNaN request
  | .recovery _ | .task _ => True

theorem getPullMinScore_ne_nan {score : Float64} (h : score ≠ .nan) :
    Score.getPullMinScore score ≠ some .nan := by
  unfold Score.getPullMinScore
  split_ifs
  · simp
  · simp [Score.max, Float64.ofInt_eq]
  · simp [Score.min, Float64.ofInt_eq]
  · simpa using h

theorem getPullMaxScore_ne_nan {score : Float64} (h : score ≠ .nan) :
    Score.getPullMaxScore score ≠ some .nan := by
  unfold Score.getPullMaxScore
  split_ifs
  · simp
  · simp [Score.max, Float64.ofInt_eq]
  · simp [Score.min, Float64.ofInt_eq]
  · simpa using h

theorem Request.Issues.admitted {request : Request} (h : NoNaN request) {c : Command}
    (hc : request.Issues c) : Admitted c := by
  cases request with
  | add zone clock order messages =>
    have hscores : ∀ m ∈ Service.addedMessages zone clock messages, m.score ≠ .nan := by
      intro m hm
      obtain ⟨x, hx, -, now, -, hscore⟩ := mem_addedMessages hm
      rw [hscore]
      exact Score.getAddScore_ne_nan (h x hx)
    rcases hc with rfl | ⟨added, -, rfl⟩
    · exact hscores
    · exact ⟨trivial, fun m hm => hscores m (List.mem_of_mem_filter hm)⟩
  | pull clock request =>
    rcases hc with rfl | ⟨ids, retry, rfl⟩ | ⟨ids, rfl⟩
    · refine ⟨pullAmount_ok request.amount, getPullMinScore_ne_nan h.1, getPullMaxScore_ne_nan ?_⟩
      unfold Service.pullMaxScore
      split_ifs
      · simp [Float64.ofInt_eq]
      · exact h.2
    · trivial
    · exact ⟨trivial, trivial⟩
  | ack clock request =>
    have hscore : (Service.ackMessage clock request).score ≠ .nan := ackScore_ne_nan h.1 h.2
    rcases hc with rfl | ⟨-, rfl⟩ | ⟨-, rfl⟩ | rfl | rfl
    · exact hscore
    · exact ⟨trivial, hscore⟩
    · exact ⟨trivial, hscore⟩
    · trivial
    · exact ⟨trivial, trivial⟩
  | nack clock request =>
    have hscore : (Service.nackMessage request).score ≠ .nan := nackScore_ne_nan h.1
    rcases hc with rfl | ⟨-, rfl⟩ | ⟨-, rfl⟩ | rfl | rfl
    · exact hscore
    · exact ⟨trivial, hscore⟩
    · exact ⟨trivial, hscore⟩
    · trivial
    · exact ⟨trivial, trivial⟩
  | remove request =>
    rcases hc with rfl | rfl
    · trivial
    · exact ⟨trivial, trivial⟩
  | unlockMessages clock queue lockType | timeoutMessages clock queue =>
    obtain rfl := hc
    exact ⟨trivial, trivial⟩

theorem capScore_ne_nan {m : Message} (h : m.score ≠ .nan) :
    (Queue.capScore m).score ≠ .nan := by
  unfold Queue.capScore
  dsimp only
  split_ifs
  · simp [Score.min, Float64.ofInt_eq]
  · simp [Score.max, Float64.ofInt_eq]
  · exact h

theorem Work.Issues.admitted {work : Work} (h : work.NoNaN) {c : Command}
    (hc : work.Issues (fun m => m.score ≠ .nan) c) : Admitted c := by
  cases work with
  | client request reason => exact Request.Issues.admitted h hc
  | recovery order =>
    cases c with
    | cache op =>
      cases op with
      | insert queue messages =>
        refine ⟨trivial, fun m hm => ?_⟩
        obtain ⟨found, hfound, rfl⟩ := hc m hm
        exact capScore_ne_nan hfound
      | _ => exact hc.elim
    | cacheGet | cacheSet | storageFind => trivial
    | _ => exact hc.elim
  | task background =>
    cases c with
    | cache op =>
      cases op with
      | remove | unlockMessages | timeoutMessages => exact ⟨trivial, trivial⟩
      | _ => exact hc.elim
    | cacheGet | storageFind | storageRemove => trivial
    | _ => exact hc.elim

theorem Instance.tells_work {work : Work} (h : work.NoNaN) [LinearOrder ι]
    (internalIds : InternalIds ι) (hs : b.Tells s) :
    b.Tells (run b.handle (work.program internalIds) s).2 := by
  have hwork : Conforms (work.Issues fun m => m.score ≠ .nan) (fun m => m.score ≠ .nan) .clear
      (work.program internalIds) := conforms_work internalIds work
  obtain ⟨_, rfl, hend⟩ : ∃ t, t = .clear ∧
      b.Agrees t (run b.handle (work.program internalIds) s).2 := by
    refine hwork.run (fun phase c s hc hs => ?_) hs
    exact ⟨b.finds_handle hs.numbers c,
      hs.step (hc.1.imp (fun c => Work.Issues.admitted h) c) hc.2⟩
  exact hend

/-- The work of an instance, one piece after the other. -/
def sequential [LinearOrder ι] (internalIds : InternalIds ι) {ω : Type}
    (calls : (c : StoreCall) → ω → c.Answer ι × ω) :
    Machine (State ω) Work (Except ServiceError (Option Response)) :=
  ofStep fun s work => run (audited calls) (work.program internalIds) s

theorem Instance.tells_run [LinearOrder ι] (internalIds : InternalIds ι) {s₀ s : State (σ × ρ)}
    {tr : List (Work × Except ServiceError (Option Response))} (h₀ : b.Tells s₀)
    (hrun : Run (sequential internalIds
      (Tasks.handle b.storage b.cache b.queues b.configurations)) s₀ tr s)
    (hok : ∀ e ∈ tr, e.1.NoNaN) : b.Tells s := by
  refine hrun.invariant (I := b.Tells) ?_ hok h₀
  intro s work r t hstep hwork hs
  have hkept := b.tells_work hwork internalIds hs
  rwa [show run b.handle (work.program internalIds) s = (r, t) from hstep] at hkept

end Audited

/-! ## Both storages and both caches -/

/-- The cache has the message in one of its pools. -/
def CacheChoice.Has : (cache : CacheChoice) → cache.State → String → String → Prop
  | .redis cache, s => cache.InPools s
  | .memory _, c => fun queue id => MemoryCache.isPresentOnAnyPool c queue id = true

def CacheChoice.new : (cache : CacheChoice) → cache.State
  | .redis _ => Redis.empty
  | .memory _ => MemoryCache.new

/-- The runtime visits all queues with a lock list, each once. -/
def CacheChoice.Visits : CacheChoice → Prop
  | .redis _ => True
  | .memory order => ∀ (c : MemoryCache) lockType, c.VisitOrder lockType (order c lockType)

def CacheChoice.Stages : (cache : CacheChoice) → cache.State → (String → String → Stage) → Prop
  | .redis cache => cache.Stages
  | .memory _ => MemoryCache.Stages

theorem CacheChoice.stages_new (cache : CacheChoice) :
    cache.Stages cache.new fun _ _ => .absent := by
  cases cache with
  | redis cache => exact cache.stages_empty
  | memory order => exact MemoryCache.stages_new

theorem CacheChoice.moving {cache : CacheChoice} (h : cache.Visits) :
    cache.calls.Moving cache.Stages := by
  cases cache with
  | redis cache => exact cache.moving
  | memory order => exact MemoryCache.moving h

theorem CacheChoice.Stages.has {cache : CacheChoice} {s : cache.State}
    {A : String → String → Stage} (h : cache.Stages s A) (queue id : String) :
    cache.Has s queue id ↔ A queue id ≠ .absent := by
  cases cache with
  | redis cache =>
    obtain ⟨P, hs, -, rfl⟩ := h
    exact hs.inPools.trans RedisCache.Place.stage_ne_absent.symm
  | memory order =>
    obtain ⟨S, hc, rfl⟩ := h
    refine (MemoryCache.isPresentOnAnyPool_iff hc).trans (not_congr ?_)
    change S queue id = none ↔ MemoryCache.Spot.stage (S queue id) = .absent
    rcases S queue id with _ | _ | _ | _ <;> simp [MemoryCache.Spot.stage]

variable {ι : Type} [LinearOrder ι]

/-- Every stored score is a number. -/
def StorageChoice.Numbers : (storage : StorageChoice ι) → storage.State → Prop
  | .mongodb _ => fun docs : MongoStorage.Documents ι => ∀ d ∈ docs.rows, d.value.score ≠ .nan
  | .memory _ _ => fun storage : MemoryStorage ι => ∀ d ∈ storage.docs.rows, d.value.score ≠ .nan

theorem StorageChoice.numbered (storage : StorageChoice ι) :
    storage.calls.Numbered storage.Numbers := by
  cases storage with
  | mongodb internalIds => exact MongoStorage.numbered internalIds
  | memory internalIds visit => exact MemoryStorage.numbered internalIds visit

open Audited

/-- From an empty cache and any documents, whatever requests and tasks follow one after the other,
the cache has exactly the messages whose last entry about presence announces an insertion. -/
theorem trail_tells_presence (internalIds : InternalIds ι) (storage : StorageChoice ι)
    (cache : CacheChoice) (hcache : cache.Visits)
    (queues : String → RedisCache.PoolType → cache.State → Except CacheError (List String))
    (configurations : Except StorageError (List QueueConfiguration))
    {s₀ s : State (storage.State × cache.State)} (hdocs : storage.Numbers s₀.stores.1)
    (hnew : s₀.stores.2 = cache.new) (htrail : s₀.trail = [])
    {tr : List (Work × Except ServiceError (Option Response))}
    (hrun : Run (sequential internalIds
      (Tasks.handle storage.calls cache.calls queues configurations)) s₀ tr s)
    (hok : ∀ e ∈ tr, e.1.NoNaN) (queue id : String) :
    cache.Has s.stores.2 queue id ↔ told s.trail queue id = true := by
  let b : Instance ι storage.State cache.State :=
    ⟨storage.calls, cache.calls, queues, configurations, storage.Numbers, cache.Stages,
      storage.numbered, cache.moving hcache⟩
  have h₀ : b.Tells s₀ := by
    refine ⟨hdocs, _, hnew ▸ cache.stages_new, fun queue id => ?_⟩
    simp [htrail, told]
  obtain ⟨-, A, hA, htold⟩ := b.tells_run internalIds h₀ hrun hok
  exact (CacheChoice.Stages.has hA queue id).trans (htold queue id)

/-- Two messages are added and removed, and the first one is added again. -/
def presenceWork : List Work :=
  [.client (addMessage "q" "a") "", .client (addMessage "q" "b") "",
    .client (.remove ⟨["a", "b"], "q"⟩) "", .client (addMessage "q" "a") ""]

def presenceStart : State (MongoStorage.Documents ℕ × Redis) :=
  ⟨(Table.empty 0, Redis.empty), fun _ => false, [], []⟩

def presenceCalls : (c : StoreCall) → MongoStorage.Documents ℕ × Redis →
    c.Answer ℕ × (MongoStorage.Documents ℕ × Redis) :=
  Tasks.handle (StorageChoice.mongodb InternalIds.counter).calls (CacheChoice.redis ⟨""⟩).calls
    (fun _ _ _ => .ok []) (.ok [])

def presenceStep (s : State (MongoStorage.Documents ℕ × Redis)) (work : Work) :
    Except ServiceError (Option Response) × State (MongoStorage.Documents ℕ × Redis) :=
  run (audited presenceCalls) (work.program InternalIds.counter) s

theorem trail_tells_presence_removed :
    let s := (play presenceStep presenceStart presenceWork).2
    (CacheChoice.redis ⟨""⟩).Has s.stores.2 "q" "a" ∧
      ¬ (CacheChoice.redis ⟨""⟩).Has s.stores.2 "q" "b" := by
  have hwork : ∀ work ∈ presenceWork, work.NoNaN := by
    simp [presenceWork, Work.NoNaN, NoNaN, addMessage, Float64.ofInt_eq]
  have hdocs : (StorageChoice.mongodb InternalIds.counter).Numbers presenceStart.stores.1 := by
    simp [StorageChoice.Numbers, presenceStart, Table.empty]
  have ha : told (play presenceStep presenceStart presenceWork).2.trail "q" "a" = true := by
    decide +kernel
  have hb : told (play presenceStep presenceStart presenceWork).2.trail "q" "b" = false := by
    decide +kernel
  have hrun := run_play presenceStep presenceStart presenceWork
  have hok := forall_mem_play presenceStep presenceStart hwork
  generalize play presenceStep presenceStart presenceWork = played at *
  have htells := trail_tells_presence InternalIds.counter (.mongodb InternalIds.counter)
    (.redis ⟨""⟩) trivial (fun _ _ _ => .ok []) (.ok []) hdocs rfl rfl hrun hok
  refine ⟨(htells "q" "a").mpr ha, fun h => ?_⟩
  exact Bool.false_ne_true (hb.symm.trans ((htells "q" "b").mp h))

end Deckard
