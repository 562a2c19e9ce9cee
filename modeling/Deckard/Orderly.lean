import Deckard.QueueRuns
import Deckard.RedisRuns

/-!
# The order of the commands of a request

Add writes to the storage and then to the cache, Remove deletes from the storage and then
from the cache, and Pull deletes from the cache what it has not found in the storage.
Each request is orderly on its own: it deletes from the cache only what it has just seen
missing in the storage, and inserts into the cache what it has stored.
-/
namespace Deckard

open Binary64 Effect Cache Program Prog RedisCache Runs MongoStorage

variable {ι ε α β : Type}

/-- The next command deletes a message from the cache. -/
def Removing (k : Key) : Prog Command (Answer ι) ε α → Prop
  | .call (.cache (.remove queue ids)) _ => k.1 = queue ∧ k.2 ∈ ids
  | _ => False

/-- What the next command deletes from the cache. -/
def removal : Prog Command (Answer ι) ε α → Option (String × List String)
  | .call (.cache (.remove queue ids)) _ => some (queue, ids)
  | _ => none

theorem removing_iff {k : Key} {p : Prog Command (Answer ι) ε α} :
    Removing k p ↔ ∃ r ∈ removal p, k.1 = r.1 ∧ k.2 ∈ r.2 := by
  cases p with
  | ret a | fail e => simp [Removing, removal]
  | call c next =>
    cases c with
    | cache op => cases op <;> simp [Removing, removal]
    | _ => simp [Removing, removal]

instance (k : Key) (p : Prog Command (Answer ι) ε α) : Decidable (Removing k p) :=
  decidable_of_iff _ removing_iff.symm

/-- What the next command inserts into the cache. -/
def insertion : Prog Command (Answer ι) ε α → Option (String × List Message)
  | .call (.cache (.insert queue messages)) _ => some (queue, messages)
  | _ => none

/-- The program inserts a message into the cache before it does anything else than
inserting into the cache. -/
def Owes (k : Key) : Prog Command (Answer ι) ε α → Prop
  | .call (.cache (.insert queue messages)) next =>
      (∃ m ∈ messages, (queue, m.id) = k) ∨ ∀ l, Owes k (next (.ok l))
  | _ => False

/-- The command has shown that the storage does not have the message. -/
def Missing : (c : Command) → Answer ι c → Key → Prop
  | .storageRemove queue ids, _, k => k.1 = queue ∧ k.2 ∈ ids
  | .storageFind opt, .ok ds, k => ∃ ids retry, opt = Queue.findOptions ids k.1 retry ∧
      k.2 ∈ ids ∧ ∀ d ∈ ds, Row.key d ≠ k
  | _, _, _ => False

/-- The command has stored the message. -/
def Inserting : (c : Command) → Answer ι c → Key → Prop
  | .storageInsert _ messages, .ok _, k => ∃ m ∈ messages, m.key = k
  | _, _, _ => False

/-- Deletions from the cache directly follow the command that has shown the message to be
missing; what is stored is then inserted into the cache. -/
def Orderly : Prog Command (Answer ι) ε α → Prop
  | .call c next => ∀ r, Orderly (next r) ∧ (∀ k, Removing k (next r) → Missing c r k) ∧
      ∀ k, Inserting c r k → Owes k (next r)
  | _ => True

/-! ## The requests are orderly -/

theorem Owes.bind {k : Key} {p : Prog Command (Answer ι) ε α} (h : Owes k p)
    (f : α → Prog Command (Answer ι) ε β) : Owes k (p >>= f) := by
  induction p with
  | ret a => exact h.elim
  | fail e => exact h.elim
  | call c next ih =>
    cases c with
    | cache op =>
      cases op with
      | insert queue messages => exact h.imp_right fun hnext l => ih (.ok l) (hnext l)
      | _ => exact h.elim
    | _ => exact h.elim

theorem Owes.mapError {ε' : Type} {k : Key} {p : Prog Command (Answer ι) ε α} (h : Owes k p)
    (f : ε → ε') : Owes k (p.mapError f) := by
  induction p with
  | ret a => exact h.elim
  | fail e => exact h.elim
  | call c next ih =>
    cases c with
    | cache op =>
      cases op with
      | insert queue messages => exact h.imp_right fun hnext l => ih (.ok l) (hnext l)
      | _ => exact h.elim
    | _ => exact h.elim

theorem removing_mapError {ε' : Type} {k : Key} {p : Prog Command (Answer ι) ε α} {f : ε → ε'} :
    Removing k (p.mapError f) ↔ Removing k p := by
  cases p with
  | ret a => exact Iff.rfl
  | fail e => exact Iff.rfl
  | call c next =>
    cases c with
    | cache op => cases op <;> exact Iff.rfl
    | _ => exact Iff.rfl

theorem removing_bind {k : Key} {p : Prog Command (Answer ι) ε α}
    {f : α → Prog Command (Answer ι) ε β} (hf : ∀ a, ¬ Removing k (f a))
    (h : Removing k (p >>= f)) : Removing k p := by
  cases p with
  | ret a => exact absurd h (hf a)
  | fail e => exact h.elim
  | call c next =>
    cases c with
    | cache op => cases op <;> exact h
    | _ => exact h

theorem Orderly.mapError {ε' : Type} {p : Prog Command (Answer ι) ε α} (h : Orderly p)
    (f : ε → ε') : Orderly (p.mapError f) := by
  induction p with
  | ret a => trivial
  | fail e => trivial
  | call c next ih =>
    intro r
    obtain ⟨hnext, hremoving, hinserting⟩ := h r
    exact ⟨ih r hnext, fun k hk => hremoving k (removing_mapError.mp hk),
      fun k hk => (hinserting k hk).mapError f⟩

/-- A continuation that does not begin with a deletion keeps a program orderly. -/
theorem Orderly.bind {p : Prog Command (Answer ι) ε α} (h : Orderly p)
    {f : α → Prog Command (Answer ι) ε β} (hf : ∀ a, Orderly (f a))
    (hhead : ∀ k a, ¬ Removing k (f a)) : Orderly (p >>= f) := by
  induction p with
  | ret a => exact hf a
  | fail e => trivial
  | call c next ih =>
    intro r
    obtain ⟨hnext, hremoving, hinserting⟩ := h r
    exact ⟨ih r hnext, fun k hk => hremoving k (removing_bind (hhead k) hk),
      fun k hk => (hinserting k hk).bind f⟩

theorem Orderly.bind_ret {p : Prog Command (Answer ι) ε α} (h : Orderly p) (f : α → β) :
    Orderly (p >>= fun a => .ret (f a)) :=
  h.bind (fun _ => trivial) fun _ _ => not_false

theorem removing_bind_ret {k : Key} {p : Prog Command (Answer ι) ε α} {f : α → β}
    (h : Removing k (p >>= fun a => .ret (f a))) : Removing k p :=
  removing_bind (f := fun a => .ret (f a)) (fun _ => not_false) h

theorem orderly_attempt {ε' : Type} (f : ε' → ε) (r : Except ε' α) :
    Orderly (Queue.attempt f r : Prog Command (Answer ι) ε α) := by
  cases r <;> trivial

theorem not_removing_attempt {ε' : Type} {k : Key} (f : ε' → ε) (r : Except ε' α) :
    ¬ Removing k (Queue.attempt f r : Prog Command (Answer ι) ε α) := by
  cases r <;> exact not_false

/-- A single command that is neither a deletion nor an insertion into the storage. -/
theorem orderly_perform (c : Command) (h : ∀ now messages, c ≠ .storageInsert now messages) :
    Orderly (perform c : Prog Command (Answer ι) ε (Answer ι c)) := by
  refine fun r => ⟨trivial, fun k hk => hk.elim, fun k hk => ?_⟩
  cases c with
  | storageInsert now messages => exact absurd rfl (h now messages)
  | _ => exact hk.elim

theorem not_removing_perform {k : Key} {c : Command}
    (h : ∀ queue ids, c ≠ .cache (.remove queue ids))
    (f : Answer ι c → Prog Command (Answer ι) ε β) : ¬ Removing k (perform c >>= f) := by
  cases c with
  | cache op =>
    cases op with
    | remove queue ids => exact absurd rfl (h queue ids)
    | _ => exact not_false
  | _ => exact not_false

theorem orderly_addQueues (messages : List Message) (queues : List String) :
    Orderly (Queue.addQueues messages queues : Queue.QueueProg ι ℕ) := by
  induction queues with
  | nil => trivial
  | cons queue queues ih =>
    refine (orderly_perform _ (by simp)).bind (fun r => ?_) fun k r hk => ?_
    · exact (orderly_attempt _ r).bind (fun _ => ih.bind (fun _ => trivial) fun _ _ => not_false)
        (by cases queues <;> exact fun _ _ => not_false)
    · cases r with
      | ok l => cases queues <;> exact hk
      | error e => exact hk

/-- Every message of the queues is inserted. -/
theorem owes_addQueues {messages : List Message} {queues : List String} {m : Message}
    (hm : m ∈ messages) (hqueue : m.queue ∈ queues) :
    Owes m.key (Queue.addQueues messages queues : Queue.QueueProg ι ℕ) := by
  induction queues with
  | nil => simp at hqueue
  | cons queue queues ih =>
    by_cases hq : m.queue = queue
    · exact .inl ⟨m, List.mem_filter.mpr ⟨hm, by simpa using hq⟩, by rw [← hq]; rfl⟩
    · refine .inr fun l => ?_
      exact (ih ((List.mem_cons.mp hqueue).resolve_left hq)).bind _

theorem orderly_add (zone : Zone) (clock : Clock) (order : MapOrder) (ms : List AddMessage) :
    Orderly (Service.add zone clock order ms : Service.ServiceProg ι (ℕ × ℕ)) := by
  apply Orderly.mapError
  intro r
  cases r with
  | error e => exact ⟨trivial, fun k hk => hk.elim, fun k hk => hk.elim⟩
  | ok counts =>
    refine ⟨(orderly_addQueues _ _).bind_ret _, ?_, ?_⟩
    · intro k hk
      have hhead := removing_bind_ret hk
      unfold Queue.addMessagesToCache at hhead
      cases hvisit : order.visit (Queue.queueNames (Service.addedMessages zone clock ms)) with
      | nil => rw [hvisit] at hhead; exact hhead.elim
      | cons queue queues => rw [hvisit] at hhead; exact hhead.elim
    · rintro k ⟨m, hm, rfl⟩
      exact (owes_addQueues hm (mem_visit_queueNames.mpr ⟨m, hm, rfl⟩)).bind _

theorem orderly_settle {write : Message → Command}
    (hwrite : ∀ m now messages, write m ≠ .storageInsert now messages) (lockType : LockType)
    (clock : Clock) (message : Message) :
    Orderly (Queue.settle write lockType clock message : Queue.QueueProg ι Bool) := by
  unfold Queue.settle
  split_ifs
  · trivial
  · trivial
  all_goals
    refine (orderly_perform _ (hwrite message)).bind (fun _ => ?_) fun k _ => ?_
    · exact (orderly_perform _ (by simp)).bind (fun r => orderly_attempt _ r)
        fun k r => not_removing_attempt _ r
    · exact not_removing_perform (by simp) _

theorem orderly_queueRemove (queue : String) (ids : List String) :
    Orderly (Queue.remove queue ids : Queue.QueueProg ι (ℕ × ℕ)) := by
  refine fun n => ⟨?_, fun k hk => hk, fun k hk => hk.elim⟩
  exact (orderly_perform _ (by simp)).bind (fun r => (orderly_attempt _ r).bind
    (fun _ => trivial) fun _ _ => not_false) fun k r hk => by cases r <;> exact hk

theorem orderly_remove (request : RemoveRequest) :
    Orderly (Service.remove request : Service.ServiceProg ι RemoveResponse) := by
  unfold Service.remove
  split_ifs
  · trivial
  · exact ((orderly_queueRemove _ _).bind_ret _).mapError _

theorem not_removing_remove {k : Key} (request : RemoveRequest) :
    ¬ Removing k (Service.remove request : Service.ServiceProg ι RemoveResponse) := by
  unfold Service.remove
  split_ifs <;> exact not_false

theorem orderly_settled (request : AckRequest) (b : Bool) :
    Orderly (Service.settled request b : Service.ServiceProg ι AckResponse) := by
  unfold Service.settled
  split_ifs
  · exact ((orderly_remove _).bind_ret _).mapError _
  · trivial

theorem not_removing_settled {k : Key} (request : AckRequest) (b : Bool) :
    ¬ Removing k (Service.settled request b : Service.ServiceProg ι AckResponse) := by
  unfold Service.settled
  split_ifs
  · exact fun hk => not_removing_remove _ (removing_bind_ret (removing_mapError.mp hk))
  · exact not_false

/-- Ids that a retry has not found. -/
theorem missing_notFoundIds {ids : List String} {queue : String} {retry : Bool}
    {ds : List (Document ι)} {k : Key} (hqueue : k.1 = queue)
    (hk : k.2 ∈ Queue.notFoundIds ids (ds.map Document.message)) :
    Missing (.storageFind (Queue.findOptions ids queue retry)) (.ok ds) k := by
  obtain ⟨hid, hnot⟩ := List.mem_filter.mp hk
  refine ⟨ids, retry, by rw [hqueue], hid, fun d hd hkey => ?_⟩
  have hfound : ((ds.map Document.message).any fun m => m.id == k.2) = true :=
    List.any_eq_true.mpr ⟨_, List.mem_map_of_mem hd, by simp [Document.message, hkey]⟩
  simp [hfound] at hnot

theorem removing_removeMissing {k : Key} {queue : String} {ids : List String}
    {f : Unit → α}
    (h : Removing k ((Queue.removeMissing queue ids : Queue.QueueProg ι Unit) >>=
      fun a => .ret (f a))) : k.1 = queue ∧ k.2 ∈ ids := by
  cases ids with
  | nil => exact h.elim
  | cons id ids => exact h

theorem orderly_removeMissing (queue : String) (ids : List String) :
    Orderly (Queue.removeMissing queue ids : Queue.QueueProg ι Unit) := by
  cases ids with
  | nil => trivial
  | cons id ids =>
    exact (orderly_perform _ (by simp)).bind (fun _ => trivial) fun _ _ => not_false

theorem orderly_pull (clock : Clock) (queue : String) (n d : Int64)
    (minScore maxScore : Option Float64) :
    Orderly (Queue.pull clock queue n minScore maxScore d : Queue.QueueProg ι _) := by
  intro answer
  cases answer with
  | error e => exact ⟨trivial, fun k hk => hk.elim, fun k hk => hk.elim⟩
  | ok ids =>
    change Orderly (if ids = [] then _ else _) ∧
      (∀ k, Removing k (if ids = [] then _ else _) → _) ∧ _
    split_ifs
    · exact ⟨trivial, fun k hk => hk.elim, fun k hk => hk.elim⟩
    · refine ⟨fun found => ?_, fun k hk => hk.elim, fun k hk => hk.elim⟩
      cases found with
      | error e => exact ⟨trivial, fun k hk => hk.elim, fun k hk => hk.elim⟩
      | ok ds =>
        change Orderly (if Queue.notFoundIds ids (ds.map Document.message) = [] then _ else _) ∧
          (∀ k, Removing k (if Queue.notFoundIds ids (ds.map Document.message) = [] then _ else _) →
            _) ∧ _
        split_ifs
        · exact ⟨trivial, fun k hk => hk.elim, fun k hk => hk.elim⟩
        · refine ⟨fun found' => ?_, fun k hk => hk.elim, fun k hk => hk.elim⟩
          cases found' with
          | error e => exact ⟨trivial, fun k hk => hk.elim, fun k hk => hk.elim⟩
          | ok ds' =>
            refine ⟨(orderly_removeMissing _ _).bind_ret _, fun k hk => ?_, fun k hk => hk.elim⟩
            obtain ⟨hqueue, hid⟩ := removing_removeMissing hk
            exact missing_notFoundIds hqueue hid

theorem orderly_program (request : Request) :
    Orderly (request.program : Service.ServiceProg ι Response) := by
  cases request with
  | add zone clock order ms => exact (orderly_add zone clock order ms).bind_ret _
  | pull clock request => exact (((orderly_pull _ _ _ _ _ _).bind_ret _).mapError _).bind_ret _
  | ack clock request | nack clock request =>
    apply Orderly.bind_ret
    exact ((orderly_settle (by simp) _ _ _).mapError _).bind (fun b => orderly_settled request b)
      fun k b => not_removing_settled request b
  | remove request => exact (orderly_remove request).bind_ret _
  | unlockMessages clock queue lockType | timeoutMessages clock queue =>
    apply Orderly.bind_ret
    apply Orderly.mapError
    exact (orderly_perform _ (by simp)).bind (fun r => orderly_attempt _ r)
      fun k r => not_removing_attempt _ r

/-- No request begins with a deletion. -/
theorem not_removing_program {k : Key} (request : Request) :
    ¬ Removing k (request.program : Service.ServiceProg ι Response) := by
  intro h
  cases request with
  | ack clock request | nack clock request =>
    have hhead := removing_bind (fun b => not_removing_settled request b)
      (removing_bind_ret h)
    have hhead : Removing k (Queue.settle _ _ _ _) := removing_mapError.mp hhead
    unfold Queue.settle at hhead
    split_ifs at hhead <;> exact hhead
  | remove request => exact not_removing_remove request (removing_bind_ret h)
  | _ => exact h

/-! ## Accepted requests -/

/-- Commands after which no message is lost: ids are looked up in a named queue, and a
message is given back with a number as its score. -/
def Careful : Command → Prop
  | .storageFind opt => ∀ ids queue retry, opt = Queue.findOptions ids queue retry → queue ≠ ""
  | .cache (.makeAvailable message) => message.score ≠ .nan
  | .cache op => op.AmountOk
  | _ => True

theorem Careful.amountOk {op : Op} (h : Careful (.cache op)) : op.AmountOk := by
  cases op with
  | pullMessages => exact h
  | _ => trivial

/-- Commands of clients, with names and scores that both stores accept. -/
def Acceptable : Command → Prop
  | .storageInsert _ messages => ∀ m ∈ messages, hasHashTag m.queue = false ∧ m.score ≠ .nan
  | .storageAck message | .storageNack message => message.score ≠ .nan
  | .cache (.insert queue messages) => Insertable queue messages ∧ ∀ m ∈ messages, m.score ≠ .nan
  | .cacheSet .. => False
  | c => Careful c

theorem Acceptable.careful {c : Command} (h : Acceptable c) : Careful c := by
  cases c with
  | cache op =>
    cases op with
    | insert queue messages => trivial
    | _ => exact h
  | storageFind opt => exact h
  | _ => trivial

/-- Names and scores that both stores accept. -/
def Request.Acceptable : Request → Prop
  | .add _ _ _ ms => ∀ m ∈ ms, hasHashTag m.queue = false ∧ m.score ≠ .nan
  | .pull _ request => request.queue ≠ ""
  | .ack _ request | .nack _ request => request.score ≠ .nan ∧ request.scoreSubtract ≠ .nan
  | _ => True

instance : DecidablePred Request.Acceptable
  | .add _ _ _ ms =>
      inferInstanceAs (Decidable (∀ m ∈ ms, hasHashTag m.queue = false ∧ m.score ≠ .nan))
  | .pull _ request => inferInstanceAs (Decidable (request.queue ≠ ""))
  | .ack _ request | .nack _ request =>
      inferInstanceAs (Decidable (request.score ≠ .nan ∧ request.scoreSubtract ≠ .nan))
  | .remove _ | .unlockMessages .. | .timeoutMessages .. => .isTrue trivial

theorem ackScore_ne_nan {now : Time} {request : AckRequest} (h : request.score ≠ .nan)
    (h' : request.scoreSubtract ≠ .nan) : Service.ackScore now request ≠ .nan := by
  unfold Service.ackScore
  split_ifs with hzero hms
  · exact h
  · obtain ⟨y, hy, -⟩ := exists_inRange_defaultScore now h'
    rw [hy]
    simp
  · simp [Score.undefined, Float64.ofInt_eq]

theorem nackScore_ne_nan {request : AckRequest} (h : request.score ≠ .nan) :
    Service.nackScore request ≠ .nan := by
  unfold Service.nackScore
  split_ifs
  · exact h
  · simp [Score.min, Float64.ofInt_eq]
  · simp [Score.undefined, Float64.ofInt_eq]

theorem Request.Issues.acceptable {request : Request} (hok : request.Acceptable) {c : Command}
    (h : request.Issues c) : Deckard.Acceptable c := by
  cases request with
  | add zone clock order ms =>
    have hadded : ∀ m ∈ Service.addedMessages zone clock ms,
        hasHashTag m.queue = false ∧ m.score ≠ .nan := by
      intro m hm
      obtain ⟨x, hx, hqueue, now, -, hscore⟩ := mem_addedMessages hm
      rw [hqueue, hscore]
      exact ⟨(hok x hx).1, Score.getAddScore_ne_nan (hok x hx).2⟩
    rcases h with rfl | ⟨added, hmem, rfl⟩
    · exact hadded
    · refine ⟨⟨(hadded added hmem).1, fun m hm => ?_⟩, fun m hm => ?_⟩
      · simpa using (List.mem_filter.mp hm).2
      · exact (hadded m (List.mem_of_mem_filter hm)).2
  | pull clock request =>
    rcases h with rfl | ⟨ids, retry, rfl⟩ | ⟨ids, rfl⟩
    · exact pullAmount_ok request.amount
    · intro ids' queue retry' heq
      have hfilter := congrArg FindOptions.internalFilter heq
      have hqueue : request.queue = queue := by
        simpa [Queue.findOptions] using congrArg (fun f => f.map InternalFilter.queue) hfilter
      rw [← hqueue]
      exact hok
    · trivial
  | ack clock request =>
    have hscore : (Service.ackMessage clock request).score ≠ .nan := ackScore_ne_nan hok.1 hok.2
    rcases h with rfl | ⟨-, rfl⟩ | ⟨-, rfl⟩ | rfl | rfl
    · exact hscore
    · trivial
    · exact hscore
    · trivial
    · trivial
  | nack clock request =>
    have hscore : (Service.nackMessage request).score ≠ .nan := nackScore_ne_nan hok.1
    rcases h with rfl | ⟨-, rfl⟩ | ⟨-, rfl⟩ | rfl | rfl
    · exact hscore
    · trivial
    · exact hscore
    · trivial
    · trivial
  | remove request => rcases h with rfl | rfl <;> trivial
  | unlockMessages clock queue lockType => cases h; trivial
  | timeoutMessages clock queue => cases h; trivial

theorem acceptable_program {request : Request} (h : request.Acceptable) :
    All Deckard.Acceptable (request.program : Service.ServiceProg ι Response) :=
  (program_issues request).imp fun _ hc => hc.acceptable h

/-! ## What a command does to one message -/

variable [LinearOrder ι] {stores : Stores ι} {w : World ι} {P P' : Places} {k : Key}

def Stored (docs : Documents ι) (k : Key) : Prop := (docs.get k).isSome

instance (docs : Documents ι) (k : Key) : Decidable (Stored docs k) :=
  inferInstanceAs (Decidable ((docs.get k).isSome = true))

theorem stored_iff {docs : Documents ι} : Stored docs k ↔ storedScore docs k ≠ none := by
  simp [Stored, storedScore, Option.isSome_iff_ne_none]

/-- A message leaves the pools by a deletion only. -/
theorem RedisCache.Moves.present {op : Op} {res : Result} (h : Moves P op res P')
    (hop : Careful (.cache op)) {queue id : String} (hp : P queue id ≠ .absent)
    (hrem : ∀ ids, op = .remove queue ids → id ∉ ids) : P' queue id ≠ .absent := by
  have hins : ∀ {q : String} {messages : List Message} {l : List String},
      Inserts P P' q messages l → P' queue id ≠ .absent := by
    intro q messages l hins
    rw [hins.kept hp]
    exact hp
  have hreplace : ∀ {q : String} {l : List String} {f : String → Place},
      (queue = q → id ∈ l → f id ≠ .absent) → P.replace q l f queue id ≠ .absent := by
    intro q l f hf
    unfold Places.replace
    split_ifs with hid
    · exact hf hid.1 hid.2
    · exact hp
  cases h with
  | rejected | notReleased | notLocked => exact hp
  | inserted _ h => exact hins h
  | insertedPart _ _ h => exact hins h
  | lost _ _ _ hx => exact absurd hx hop
  | removed => exact hreplace fun hq hid => absurd hid (hrem _ (by rw [hq]))
  | _ => exact hreplace (by simp)

/-- What a command finds stored afterwards was stored before or is stored by it. -/
theorem Stored.of_handle {c : Command} (h : Stored (stores.handle c w).2.docs k) :
    Stored w.docs k ∨ Inserting c (stores.handle c w).1 k := by
  rw [stored_iff] at h ⊢
  have hchange := stores.change_handle c w
  generalize (stores.handle c w).1 = answer, (stores.handle c w).2.docs = after at hchange h ⊢
  cases hchange with
  | same => exact .inl h
  | inserted now messages =>
    rw [storedScore_insert] at h
    cases hs : storedScore w.docs k with
    | some x => exact .inl (by simp)
    | none =>
      rw [hs, Option.none_or, ← Option.isSome_iff_ne_none, Option.isSome_map,
        List.find?_isSome] at h
      obtain ⟨m, hm, hkey⟩ := h
      exact .inr ⟨m, hm, by simpa using hkey⟩
  | settled message update _ _ hscore =>
    rw [storedScore_modify hscore] at h
    split_ifs at h
    · exact .inl fun hnone => h (by rw [hnone]; rfl)
    · exact .inl h
  | removed queue ids =>
    rw [storedScore_remove] at h
    split_ifs at h
    · exact absurd rfl h
    · exact .inl h

/-- A stored message is not missing. -/
theorem Stored.not_missing {c : Command} (hc : Careful c)
    (h : Stored (stores.handle c w).2.docs k) : ¬ Missing c (stores.handle c w).1 k := by
  intro hmissing
  cases c with
  | storageRemove queue ids =>
    rw [stored_iff] at h
    exact h ((storedScore_remove queue ids).trans (if_pos hmissing))
  | storageFind opt =>
    have h : Stored w.docs k := h
    obtain ⟨d, hd⟩ := Option.isSome_iff_exists.mp h
    obtain ⟨hrow, hkey⟩ := Table.get_eq_some.mp hd
    have hanswer : (stores.handle (.storageFind opt) w).1 =
        find stores.internalIds opt w.docs := rfl
    rw [hanswer] at hmissing
    cases hfind : find stores.internalIds opt w.docs with
    | error e => simp [hfind, Missing] at hmissing
    | ok ds =>
      rw [hfind] at hmissing
      obtain ⟨ids, retry, rfl, hid, hnot⟩ := hmissing
      obtain ⟨ds', hfind', -, hmem⟩ := find_ids stores.internalIds w.docs (List.ne_nil_of_mem hid)
        (hc ids k.1 retry rfl) [(.score, .ascending)] retry
      have heq : ds = ds' := Except.ok.inj (hfind.symm.trans hfind')
      exact hnot d (heq ▸ (hmem d).mpr ⟨hrow, by rw [hkey], by rw [hkey]; exact hid⟩) hkey
  | _ => exact hmissing

/-! ## What a command does to the pools -/

theorem handle_represents {c : Command} (hc : Careful c)
    (hs : ∃ P, stores.cache.Represents w.redis P) :
    ∃ P, stores.cache.Represents (stores.handle c w).2.redis P := by
  obtain ⟨P, hs⟩ := hs
  cases c with
  | cache op =>
    obtain ⟨P', ht, -⟩ := handle_cache hs hc.amountOk
    exact ⟨P', ht⟩
  | _ => exact ⟨P, hs⟩

/-- A message stays in the pools unless the command deletes it. -/
theorem handle_inPools {c : Command} (hc : Careful c)
    (hs : ∃ P, stores.cache.Represents w.redis P) (hk : stores.cache.InPools w.redis k.1 k.2)
    (hrem : ∀ ids, c = .cache (.remove k.1 ids) → k.2 ∉ ids) :
    stores.cache.InPools (stores.handle c w).2.redis k.1 k.2 := by
  obtain ⟨P, hs⟩ := hs
  cases c with
  | cache op =>
    obtain ⟨P', ht, -, hmoves⟩ := handle_cache hs hc.amountOk
    have hstays := hmoves.present hc (hs.inPools.mp hk) fun ids h => hrem ids (by rw [h])
    exact ht.inPools.mpr hstays
  | _ => exact hk

/-- An insertion puts all its messages into some pool. -/
theorem handle_insert {queue : String} {messages : List Message}
    (hc : Acceptable (.cache (.insert queue messages)))
    (hs : ∃ P, stores.cache.Represents w.redis P) :
    (∃ l, (stores.handle (.cache (.insert queue messages)) w).1 = .ok l) ∧
    ∀ m ∈ messages, stores.cache.InPools
      (stores.handle (.cache (.insert queue messages)) w).2.redis queue m.id := by
  obtain ⟨P, hs⟩ := hs
  obtain ⟨P', ht, -, hmoves⟩ := handle_cache hs
    (show (Op.insert queue messages).AmountOk from trivial)
  cases hanswer : (stores.handle (.cache (.insert queue messages)) w).1 with
  | ok l =>
    rw [hanswer] at hmoves
    cases hmoves with
    | inserted _ _ hall => exact ⟨⟨l, rfl⟩, fun m hm => ht.inPools.mpr (hall m hm)⟩
  | error e =>
    rw [hanswer] at hmoves
    cases hmoves with
    | rejected _ hrej => exact absurd hc.1 hrej
    | insertedPart _ _ _ hnan =>
      obtain ⟨m, hm, hscore⟩ := hnan
      exact absurd hscore (hc.2 m hm)

end Deckard
