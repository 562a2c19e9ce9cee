import Deckard.Housekeeper
import Deckard.StorageQueries

/-!
# Removal of expired messages

`RemoveTTLMessages` queries the expired documents and then removes them by queue and id.
In between, a client may add one of them again with a later date, which the removal does
not look at. As long as that does not happen, everything that it deletes has expired.
-/
namespace Deckard

open Binary64 Cache MongoStorage Program Prog Runs

/-- What a thread works on: a request of a client or a removal of expired messages. -/
inductive Upkeep
  | client (request : Request)
  | removeTTLMessages (order : MapOrder) (shutdown : ℕ → Bool) (filterDate : Time)

variable {ι ε α β : Type} [LinearOrder ι]

/-- A response to a client, or the answer of the task with its error. -/
abbrev Upkept := Response ⊕ (Bool × Option QueueError)

def Upkeep.program : Upkeep → Service.ServiceProg ι Upkept
  | .client request => .inl <$> request.program
  | .removeTTLMessages order shutdown filterDate =>
      .inr <$> Queue.removeTTLMessages order shutdown filterDate

abbrev UpkeepSystem (ι κ : Type) [LinearOrder ι] :=
  Threads (World ι) κ Command (Answer ι) ServiceError Upkept

/-- Requests of clients whose commands interleave with removals of expired messages. -/
def Stores.upkeep (stores : Stores ι) (κ : Type) [DecidableEq κ] :
    Machine (UpkeepSystem ι κ) (Label κ Upkeep) (Option (Except ServiceError Upkept)) :=
  interleaved stores.handle Upkeep.program

/-! ## What a command does to a document -/

/-- The command removes a message from the storage. -/
def Deletes (k : Key) : Command → Prop
  | .storageRemove queue ids => queue = k.1 ∧ k.2 ∈ ids
  | _ => False

/-- The command queries the storage. -/
def Queries : Command → Prop
  | .storageFind _ => True
  | _ => False

/-- The command writes a message with a date after the given one. -/
def Renews (filterDate : Time) (k : Key) : Command → Prop
  | .storageInsert _ messages => ∃ m ∈ messages, m.key = k ∧ filterDate < m.expiryDate
  | _ => False

/-- A document with the key, if there is one, has expired. -/
def Expired (filterDate : Time) (docs : Documents ι) (k : Key) : Prop :=
  ∀ d, docs.get k = some d → d.value.expiryDate ≤ filterDate

theorem dateTime_le (t : Time) : dateTime t ≤ t := Int.ediv_mul_le t (by decide)

variable {internalIds : InternalIds ι} {now filterDate : Time} {docs : Documents ι} {k : Key}

theorem expired_insertOne {m : Message} (h : Expired filterDate docs k)
    (hm : m.key = k → m.expiryDate ≤ filterDate) :
    Expired filterDate (insertOne internalIds now docs m) k := by
  intro d hd
  rw [insertOne, Table.get_upsert] at hd
  split_ifs at hd with hk
  · have hle : dateTime m.expiryDate ≤ filterDate := (dateTime_le _).trans (hm hk.symm)
    cases hget : docs.get m.key with
    | none | some d' =>
      rw [hget] at hd
      cases hd
      exact hle
  · exact h d hd

theorem expired_insert {messages : List Message} (h : Expired filterDate docs k)
    (hm : ∀ m ∈ messages, m.key = k → m.expiryDate ≤ filterDate) :
    Expired filterDate (messages.foldl (insertOne internalIds now) docs) k := by
  induction messages generalizing docs with
  | nil => exact h
  | cons m ms ih =>
    exact ih (expired_insertOne h (hm m List.mem_cons_self))
      fun m' hm' => hm m' (List.mem_cons_of_mem _ hm')

theorem expired_modify {f : Message → Message} {k' : Key} (h : Expired filterDate docs k)
    (hf : ∀ m, (f m).expiryDate = m.expiryDate) : Expired filterDate (docs.modify k' f) k := by
  intro d hd
  rw [Table.get_modify] at hd
  split_ifs at hd with hk
  · obtain ⟨d', hd', rfl⟩ := Option.map_eq_some_iff.mp hd
    exact (hf d'.value).trans_le (h d' hd')
  · exact h d hd

variable {stores : Stores ι} {w : World ι} {c : Command}

theorem expired_handle (h : Expired filterDate w.docs k) (hc : ¬ Renews filterDate k c) :
    Expired filterDate (stores.handle c w).2.docs k := by
  have hchange := stores.change_handle c w
  generalize (stores.handle c w).1 = answer, (stores.handle c w).2.docs = after at hchange ⊢
  cases hchange with
  | same => exact h
  | inserted now messages =>
    refine expired_insert h fun m hm hk => ?_
    by_contra hlt
    exact hc ⟨m, hm, hk, not_le.mp hlt⟩
  | settled _ _ _ _ _ hexpiry => exact expired_modify h hexpiry
  | removed queue ids =>
    intro d hd
    rw [remove_snd, Table.get_keep] at hd
    split_ifs at hd
    exact h d hd

/-- Only a removal makes a document disappear. -/
theorem deletes_of_handle {d : Document ι} (hd : w.docs.get k = some d)
    (hnone : (stores.handle c w).2.docs.get k = none) : Deletes k c := by
  have hold : storedScore w.docs k = some d.value.score := by rw [storedScore, hd, Option.map_some]
  have hnew : storedScore (stores.handle c w).2.docs k = none := by
    rw [storedScore, hnone, Option.map_none]
  have hchange := stores.change_handle c w
  generalize (stores.handle c w).1 = answer, (stores.handle c w).2.docs = after at hchange hnew
  cases hchange with
  | same =>
    rw [hold] at hnew
    cases hnew
  | inserted now messages =>
    rw [storedScore_insert, hold] at hnew
    cases hnew
  | settled message update _ _ hscore =>
    rw [storedScore_modify hscore, hold] at hnew
    split_ifs at hnew
    cases hnew
  | removed queue ids =>
    rw [storedScore_remove, hold] at hnew
    split_ifs at hnew with hk
    exact ⟨hk.1.symm, hk.2⟩

/-- The query for expired documents finds no others. -/
theorem find_expired {ds : List (Document ι)}
    (h : find internalIds (Queue.expired filterDate) docs = .ok ds) {d : Document ι} (hd : d ∈ ds) :
    d ∈ docs.rows ∧ d.value.expiryDate ≤ filterDate := by
  obtain ⟨hrow, mongoFilter, hfilter, hsel⟩ := mem_find h hd
  cases hfilter
  have hle : d.value.expiryDate ≤ dateTime filterDate := by simpa [selects] using hsel
  exact ⟨hrow, hle.trans (dateTime_le filterDate)⟩

/-! ## What a program may still remove -/

/-- The program may remove a message before it queries the storage again. -/
def MayRemove (k : Key) : Prog Command (Answer ι) ε α → Prop
  | .ret _ | .fail _ => False
  | .call c next => Deletes k c ∨ ¬ Queries c ∧ ∃ r, MayRemove k (next r)

omit [LinearOrder ι] in
theorem not_mayRemove {p : Prog Command (Answer ι) ε α} (h : All (fun c => ¬ Deletes k c) p) :
    ¬ MayRemove k p := by
  induction p with
  | ret a => exact id
  | fail e => exact id
  | call c next ih =>
    rintro (hc | ⟨-, r, hr⟩)
    · exact h.1 hc
    · exact ih r (h.2 r) hr

/-- After a query, a program removes what the query has shown to be expired. It adds no
messages itself. -/
def Guarded (stores : Stores ι) (filterDate : Time) : Prog Command (Answer ι) ε α → Prop
  | .ret _ | .fail _ => True
  | .call c next => (∀ k, ¬ Renews filterDate k c) ∧ ∀ w,
      (Queries c → ∀ k, MayRemove k (next (stores.handle c w).1) → Expired filterDate w.docs k) ∧
        Guarded stores filterDate (next (stores.handle c w).1)

theorem guarded_of_all {p : Prog Command (Answer ι) ε α}
    (h : All (fun c => ¬ Queries c ∧ ∀ k, ¬ Renews filterDate k c) p) :
    Guarded stores filterDate p := by
  induction p with
  | ret a => trivial
  | fail e => trivial
  | call c next ih => exact ⟨h.1.2, fun w => ⟨fun hc => absurd hc h.1.1, ih _ (h.2 _)⟩⟩

omit [LinearOrder ι] in
/-- The removals of the loop are those of the messages it is given. -/
theorem all_removeQueues {P : Command → Prop} {messages : List Message}
    (hremove : ∀ queue, P (.storageRemove queue
      ((messages.filter fun m => m.queue = queue).map Message.id)))
    (hcache : ∀ queue ids, P (.cache (.remove queue ids))) (queues : List String)
    (shutdown : ℕ → Bool) :
    All P (Queue.removeQueues messages shutdown queues : Queue.QueueProg ι Unit) := by
  induction queues generalizing shutdown with
  | nil => trivial
  | cons queue queues ih =>
    unfold Queue.removeQueues
    split_ifs
    · trivial
    · refine all_bind ⟨hremove queue, fun _ => ⟨hcache _ _, fun answer => ?_⟩⟩ fun _ => ih _
      cases answer <;> trivial

omit [LinearOrder ι] in
theorem all_removeMessages {P : Command → Prop} {messages : List Message}
    (hremove : ∀ queue, P (.storageRemove queue
      ((messages.filter fun m => m.queue = queue).map Message.id)))
    (hcache : ∀ queue ids, P (.cache (.remove queue ids))) (order : MapOrder)
    (shutdown : ℕ → Bool) :
    All P (Queue.removeMessages order shutdown messages :
      Prog Command (Answer ι) ε (Bool × Option QueueError)) := by
  refine all_bind (all_capture (all_removeQueues hremove hcache _ _)) fun out => ?_
  cases out <;> trivial

theorem guarded_removeExpired (order : MapOrder) (shutdown : ℕ → Bool)
    (f : Bool × Option QueueError → α) :
    Guarded stores filterDate (f <$> Queue.removeExpired order shutdown filterDate :
      Prog Command (Answer ι) ε α) := by
  refine ⟨fun _ => id, fun w => ?_⟩
  cases hfound : (stores.handle (.storageFind (Queue.expired filterDate)) w).1 with
  | error e => exact ⟨fun _ _ hmay => hmay.elim, trivial⟩
  | ok documents =>
    refine ⟨fun _ k hmay => ?_, guarded_of_all (all_bind (all_removeMessages
      (fun _ => ⟨id, fun _ => id⟩) (fun _ _ => ⟨id, fun _ => id⟩) order shutdown)
        fun _ => trivial)⟩
    by_contra hexpired
    have hnot : ∀ queue, ¬ Deletes k (.storageRemove queue
        (((documents.map Document.message).filter fun m => m.queue = queue).map Message.id)) := by
      rintro queue ⟨hqueue, hid⟩
      -- a message of the loop stands for a document that the query has found
      obtain ⟨m, hm, hmid⟩ := List.mem_map.mp hid
      obtain ⟨hm, hmqueue⟩ := List.mem_filter.mp hm
      obtain ⟨d, hd, rfl⟩ := List.mem_map.mp hm
      obtain ⟨hrow, hdate⟩ := find_expired hfound hd
      have hkey : d.key = k := Prod.ext ((of_decide_eq_true hmqueue).trans hqueue) hmid
      refine hexpired fun d' hd' => ?_
      rw [Table.get_eq_some.mpr ⟨hrow, hkey⟩] at hd'
      cases hd'
      exact hdate
    have hall : All (fun c => ¬ Deletes k c) (f <$> Queue.removeMessages order shutdown
        (documents.map Document.message) : Prog Command (Answer ι) ε α) :=
      all_bind (all_removeMessages hnot (fun _ _ => id) order shutdown) fun _ => trivial
    exact not_mayRemove hall hmay

theorem guarded_removeTTLMessages (order : MapOrder) (shutdown : ℕ → Bool)
    (f : Bool × Option QueueError → α) :
    Guarded stores filterDate (f <$> Queue.removeTTLMessages order shutdown filterDate :
      Prog Command (Answer ι) ε α) := by
  refine ⟨fun _ => id, fun w => ⟨False.elim, ?_⟩⟩
  generalize (stores.handle (.cacheGet recoveryRunning) w).1 = answer
  cases answer with
  | error e => trivial
  | ok text =>
    change Guarded _ _ ((if (text == "true") = true then _ else _) >>= _)
    rw [ite_bind]
    split_ifs
    · trivial
    · exact guarded_removeExpired order shutdown f

omit [LinearOrder ι] in
/-- Before its query the task removes nothing. -/
theorem not_mayRemove_removeTTLMessages (order : MapOrder) (shutdown : ℕ → Bool)
    (f : Bool × Option QueueError → α) :
    ¬ MayRemove k (f <$> Queue.removeTTLMessages order shutdown filterDate :
      Prog Command (Answer ι) ε α) := by
  rintro (hc | ⟨-, answer, hmay⟩)
  · exact hc
  · cases answer with
    | error e => exact hmay
    | ok text =>
      change MayRemove k ((if (text == "true") = true then _ else _) >>= _) at hmay
      rw [ite_bind] at hmay
      split_ifs at hmay
      · exact hmay
      · exact hmay.elim id fun hquery => hquery.1 trivial

/-! ## Runs -/

section Removal

variable {κ : Type} [DecidableEq κ]

/-- No other thread adds, with a later date, a message that thread `h` has found and not
yet removed. -/
def Spares (h : κ) (filterDate : Time)
    (s : UpkeepSystem ι κ) : Label κ Upkeep → Prop
  | .step i => i ≠ h → ∀ c next p, s.thread i = some (.call c next) → s.thread h = some p →
      ∀ k, Renews filterDate k c → ¬ MayRemove k p
  | .start .. | .finish _ => True

/-- The interleavings in which thread `h` is spared. -/
def Stores.sparing (stores : Stores ι) (h : κ) (filterDate : Time) :
    Machine (UpkeepSystem ι κ) (Label κ Upkeep) (Option (Except ServiceError Upkept)) :=
  fun s l r t => stores.upkeep κ s l r t ∧ Spares h filterDate s l

/-- What thread `h` may still remove has expired. -/
def Safe (stores : Stores ι) (h : κ) (filterDate : Time)
    (s : UpkeepSystem ι κ) : Prop :=
  ∀ p, s.thread h = some p → Guarded stores filterDate p ∧
    ∀ k, MayRemove k p → Expired filterDate s.shared.docs k

variable {h : κ} {s t : UpkeepSystem ι κ}

theorem Safe.event {l : Label κ Upkeep} (hsafe : Safe stores h filterDate s)
    (hevent : Event stores.handle Upkeep.program s l t) (hstart : ∀ task, l ≠ .start h task)
    (hspares : Spares h filterDate s l) : Safe stores h filterDate t := by
  intro p hp
  cases hevent with
  | start i task hidle =>
    rcases Threads.setThread_eq_some hp with ⟨rfl, -⟩ | ⟨-, hold⟩
    · exact absurd rfl (hstart task)
    · exact hsafe p hold
  | finish i q hq hend =>
    rcases Threads.setThread_eq_some hp with ⟨-, hnone⟩ | ⟨-, hold⟩
    · cases hnone
    · exact hsafe p hold
  | step i c next hnext =>
    rcases Threads.setThread_eq_some hp with ⟨rfl, hp'⟩ | ⟨hi, hold⟩
    · cases hp'
      obtain ⟨⟨hadds, hguard⟩, hexpired⟩ := hsafe _ hnext
      obtain ⟨hquery, hguard⟩ := hguard s.shared
      refine ⟨hguard, fun k hmay => expired_handle ?_ (hadds k)⟩
      by_cases hc : Queries c
      · exact hquery hc k hmay
      · exact hexpired k (.inr ⟨hc, _, hmay⟩)
    · obtain ⟨hguard, hexpired⟩ := hsafe p hold
      refine ⟨hguard, fun k hmay => expired_handle (hexpired k hmay) fun hrenews => ?_⟩
      exact hspares (Ne.symm hi) c next p hnext hold k hrenews hmay

/-- A removal of expired messages that is spared deletes expired documents only. -/
theorem removeTTLMessages_deletes_expired (stores : Stores ι) {order : MapOrder}
    {shutdown : ℕ → Bool} {tr : List (Label κ Upkeep × Option (Except ServiceError Upkept))}
    (hstart : s.thread h = some (Upkeep.program (.removeTTLMessages order shutdown filterDate)))
    (hrun : Run (stores.sparing h filterDate) s tr t)
    (hcall : ∀ e ∈ tr, ∀ task, e.1 ≠ .start h task) {c : Command}
    {next : Answer ι c → Service.ServiceProg ι Upkept}
    (hnext : t.thread h = some (.call c next)) {d : Document ι}
    (hd : t.shared.docs.get k = some d)
    (hdeleted : (stores.handle c t.shared).2.docs.get k = none) :
    d.value.expiryDate ≤ filterDate := by
  have hinit : Safe stores h filterDate s := by
    intro p hp
    rw [hstart] at hp
    cases hp
    exact ⟨guarded_removeTTLMessages order shutdown _,
      fun k hmay => absurd hmay (not_mayRemove_removeTTLMessages order shutdown _)⟩
  have hstep : ∀ s l r t, stores.sparing h filterDate s l r t → (∀ task, l ≠ .start h task) →
      Safe stores h filterDate s → Safe stores h filterDate t :=
    fun s l r t hs hl hsafe => hsafe.event (interleaved_event hs.1) hl hs.2
  have hsafe := hrun.invariant hstep hcall hinit
  exact (hsafe _ hnext).2 k (.inl (deletes_of_handle hd hdeleted)) d hd

end Removal

/-- A message that lives for a minute, added at the given time. -/
def addMinute (now : Time) : Request :=
  .add .utc (fun _ => now) .listed [{ id := "a", queue := "q", ttlMinutes := 1 }]

/-- Two minutes after the message was added the removal starts. -/
def removing : UpkeepSystem ℕ Bool where
  shared := (Stores.default.serve World.empty (addMinute 0)).2
  thread := Function.update (fun _ => none) false
    (some (Upkeep.program (.removeTTLMessages .listed (fun _ => false) 120000000000)))

/-- Whether the next command of the removal deletes the message, and when it expires. -/
def deletion (s : UpkeepSystem ℕ Bool) : Option Time :=
  match s.thread false with
  | some (.call c _) =>
      if ((Stores.default.handle c s.shared).2.docs.get ("q", "a")).isNone then
        (s.shared.docs.get ("q", "a")).map fun d => d.value.expiryDate
      else none
  | _ => none

theorem deletion_eq_some {s : UpkeepSystem ℕ Bool} {date : Time} (h : deletion s = some date) :
    ∃ c next d, s.thread false = some (.call c next) ∧
      s.shared.docs.get ("q", "a") = some d ∧
      (Stores.default.handle c s.shared).2.docs.get ("q", "a") = none ∧
      d.value.expiryDate = date := by
  unfold deletion at h
  split at h
  · rename_i c next hnext
    split_ifs at h with hnone
    obtain ⟨d, hd, hdate⟩ := Option.map_eq_some_iff.mp h
    exact ⟨c, next, d, hnext, hd, Option.isNone_iff_eq_none.mp hnone, hdate⟩
  · cases h

/-- The next command of the thread adds no message with a date after the given one. -/
def calm (filterDate : Time) (s : UpkeepSystem ℕ Bool) : Label Bool Upkeep → Bool
  | .step i =>
      match s.thread i with
      | some (.call (.storageInsert _ messages) _) =>
          messages.all fun m => m.expiryDate ≤ filterDate
      | _ => true
  | .start .. | .finish _ => true

theorem spares_of_calm {s : UpkeepSystem ℕ Bool} {l : Label Bool Upkeep}
    (h : calm filterDate s l = true) : Spares false filterDate s l := by
  cases l with
  | start i task => trivial
  | finish i => trivial
  | step i =>
    intro _ c next p hi _ k hrenews
    cases c with
    | storageInsert now messages =>
      obtain ⟨m, hm, -, hlt⟩ := hrenews
      simp only [calm, hi, List.all_eq_true, decide_eq_true_eq] at h
      exact absurd (h m hm) (not_le.mpr hlt)
    | _ => exact hrenews.elim

/-- An event that adds no message with a later date. -/
def calmStep (filterDate : Time) (s : UpkeepSystem ℕ Bool) (l : Label Bool Upkeep) :
    Option (Option (Except ServiceError Upkept) × UpkeepSystem ℕ Bool) :=
  if calm filterDate s l then advance Stores.default.handle Upkeep.program s l else none

/-- A slow client, whose request has read the clock after a minute, adds the message again between
the query and the removal. -/
def addingLate : List (Label Bool Upkeep) :=
  [.step false, .step false, .start true (.client (addMinute 59000000000)), .step true,
    .step true, .finish true]

theorem removeTTLMessages_deletes_expired_readded :
    ∃ tr t c next d, Run (Stores.default.sparing false 120000000000) removing tr t ∧
      tr.map Prod.fst = addingLate ∧
      t.thread false = some (.call c next) ∧ t.shared.docs.get ("q", "a") = some d ∧
      (Stores.default.handle c t.shared).2.docs.get ("q", "a") = none ∧
      d.value.expiryDate ≤ 120000000000 := by
  obtain ⟨⟨tr, t⟩, hreplay, hend⟩ := (Option.any_eq_true _ _).mp
    (show ((replay (calmStep 120000000000) removing addingLate).any fun r =>
      deletion r.2 == some 119000000000) = true by decide +kernel)
  obtain ⟨c, next, d, hnext, hd, hdeleted, -⟩ := deletion_eq_some (beq_iff_eq.mp hend)
  have hrun : Run (Stores.default.sparing false 120000000000) removing tr t := by
    refine (run_replay hreplay).imp fun s l r t hstep => ?_
    change (if calm 120000000000 s l = true then _ else _) = _ at hstep
    split_ifs at hstep with hcalm
    exact ⟨hstep, spares_of_calm hcalm⟩
  have hlabels := map_fst_replay hreplay
  refine ⟨tr, t, c, next, d, hrun, hlabels, hnext, hd, hdeleted, ?_⟩
  refine removeTTLMessages_deletes_expired Stores.default rfl hrun (fun e he task heq => ?_) hnext
    hd hdeleted
  have hmem : e.1 ∈ addingLate := hlabels ▸ List.mem_map_of_mem he
  rw [heq] at hmem
  simp [addingLate] at hmem

/-- Between the query and the removal the message is added again for another minute. -/
def renewing : List (Label Bool Upkeep) :=
  [.step false, .step false, .start true (.client (addMinute 120000000000)), .step true,
    .step true, .finish true]

theorem renewed_message_deleted :
    ∃ tr t c next d, Run (Stores.default.upkeep Bool) removing tr t ∧
      (∀ e ∈ tr, ∀ task, e.1 ≠ .start false task) ∧
      t.thread false = some (.call c next) ∧ t.shared.docs.get ("q", "a") = some d ∧
      (Stores.default.handle c t.shared).2.docs.get ("q", "a") = none ∧
      120000000000 < d.value.expiryDate := by
  obtain ⟨⟨tr, t⟩, hfollow, hend⟩ := (Option.any_eq_true _ _).mp
    (show ((follow Stores.default.handle Upkeep.program removing renewing).any fun r =>
      deletion r.2 == some 180000000000) = true by decide +kernel)
  obtain ⟨c, next, d, hnext, hd, hdeleted, hdate⟩ := deletion_eq_some (beq_iff_eq.mp hend)
  have hlabels : ∀ l ∈ renewing, ∀ task, l ≠ .start false task := by
    simp [renewing]
  exact ⟨tr, t, c, next, d, run_follow hfollow, forall_follow hfollow hlabels, hnext, hd, hdeleted,
    by rw [hdate]; decide⟩

end Deckard
