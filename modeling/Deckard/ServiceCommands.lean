import Deckard.Service

/-!
# Commands of the requests

Which commands a request may issue, whatever the stores answer, and what a command does
to the places of the messages in Redis. An invariant of the service is proved by
comparing the two.
-/
namespace Deckard

open Binary64 Effect Cache Program Prog RedisCache

variable {ι ε α : Type}

/-- The commands of a request. -/
def Request.Issues : Request → Command → Prop
  | .add zone clock _ ms, c =>
      c = .storageInsert (clock (2 * ms.length)) (Service.addedMessages zone clock ms) ∨
      ∃ added ∈ Service.addedMessages zone clock ms, c = .cache (.insert added.queue
        ((Service.addedMessages zone clock ms).filter fun m => m.queue = added.queue))
  | .pull clock request, c =>
      c = .cache (.pullMessages (fun i => clock (i + 1)) request.queue
        (Service.pullAmount request.amount) (Score.getPullMinScore request.minScore)
        (Score.getPullMaxScore (Service.pullMaxScore (clock 0) request))
        request.ackDeadlineMs) ∨
      (∃ ids retry, c = .storageFind (Queue.findOptions ids request.queue retry)) ∨
      ∃ ids, c = .cache (.remove request.queue ids)
  | .ack clock request, c =>
      c = .storageAck (Service.ackMessage clock request) ∨
      (0 < request.lockMs ∧ c = .cache (.lockMessage (fun i => clock (i + 2))
        (Service.ackMessage clock request) .lockAck)) ∨
      (¬ 0 < request.lockMs ∧ c = .cache (.makeAvailable (Service.ackMessage clock request))) ∨
      c = .storageRemove request.queue [request.id] ∨
      c = .cache (.remove request.queue [request.id])
  | .nack clock request, c =>
      c = .storageNack (Service.nackMessage request) ∨
      (0 < request.lockMs ∧ c = .cache (.lockMessage (fun i => clock (i + 1))
        (Service.nackMessage request) .lockNack)) ∨
      (¬ 0 < request.lockMs ∧ c = .cache (.makeAvailable (Service.nackMessage request))) ∨
      c = .storageRemove request.queue [request.id] ∨
      c = .cache (.remove request.queue [request.id])
  | .remove request, c =>
      c = .storageRemove request.queue request.ids ∨ c = .cache (.remove request.queue request.ids)
  | .unlockMessages clock queue lockType, c => c = .cache (.unlockMessages clock queue lockType)
  | .timeoutMessages clock queue, c => c = .cache (.timeoutMessages clock queue)

/-- Every message of a request keeps its queue, and a number as its score. -/
theorem mem_addedMessages {zone : Zone} {clock : Clock} {ms : List AddMessage} {added : Message}
    (h : added ∈ Service.addedMessages zone clock ms) :
    ∃ m ∈ ms, added.queue = m.queue ∧ ∃ now, (∃ i, now = clock i) ∧
      added.score = Score.getAddScore now m.score := by
  induction ms generalizing clock with
  | nil => simp [Service.addedMessages] at h
  | cons m ms ih =>
    rcases List.mem_cons.mp h with rfl | h
    · exact ⟨m, List.mem_cons_self, rfl, clock 1, ⟨1, rfl⟩, rfl⟩
    · obtain ⟨m', hm', hqueue, now, ⟨i, hi⟩, hscore⟩ := ih h
      exact ⟨m', List.mem_cons_of_mem _ hm', hqueue, now, ⟨i + 2, hi⟩, hscore⟩

/-- The default score of an acknowledgement is capped to the documented range. -/
theorem exists_inRange_defaultScore (now : Time) {subtract : Float64} (h : subtract ≠ .nan) :
    ∃ y, (let newScore := (Score.getScoreByDefaultAlgorithm now).sub subtract
      if newScore < Score.min then Score.min
      else if Score.max < newScore then Score.max else newScore) = .num y ∧ Score.InRange y := by
  refine Score.exists_inRange_clamp ?_
  have habs := (Dtime.abs_timeToMs_lt now).le
  rw [Score.getScoreByDefaultAlgorithm, Float64.ofInt_eq, Number.ofInt_of_abs_le habs]
  exact Float64.sub_ne_nan h

/-- A request of numbers at times between 1970 and 2262. -/
def Request.Numeric : Request → Prop
  | .add _ clock _ ms => (∀ i, Dtime.InRange (clock i)) ∧ ∀ m ∈ ms, m.score ≠ .nan
  | .pull clock request =>
      (∀ i, Dtime.InRange (clock i)) ∧ request.minScore ≠ .nan ∧ request.maxScore ≠ .nan
  | .ack clock request | .nack clock request =>
      (∀ i, Dtime.InRange (clock i)) ∧ request.score ≠ .nan ∧ request.scoreSubtract ≠ .nan
  | .unlockMessages clock _ _ | .timeoutMessages clock _ => ∀ i, Dtime.InRange (clock i)
  | .remove _ => True

@[simp] theorem all_attempt {ε' : Type} {P : Command → Prop} (f : ε' → ε) (a : Except ε' α) :
    All P (Queue.attempt f a : Prog Command (Answer ι) ε α) := by
  cases a <;> trivial

theorem all_addQueues {P : Command → Prop} {messages : List Message} {queues : List String}
    (h : ∀ queue ∈ queues,
      P (.cache (.insert queue (messages.filter fun m => m.queue = queue)))) :
    All P (Queue.addQueues messages queues : Queue.QueueProg ι ℕ) := by
  induction queues with
  | nil => trivial
  | cons queue queues ih =>
    obtain ⟨hqueue, hqueues⟩ := List.forall_mem_cons.mp h
    exact all_bind ((all_perform _).mpr hqueue) fun _ =>
      all_bind (all_attempt _ _) fun _ => all_bind (ih hqueues) fun _ => trivial

theorem mem_visit_queueNames {order : MapOrder} {messages : List Message} {queue : String} :
    queue ∈ order.visit (Queue.queueNames messages) ↔ ∃ m ∈ messages, m.queue = queue := by
  rw [(order.perm _).mem_iff, Queue.queueNames, List.mem_dedup, List.mem_map]

theorem all_settle {P : Command → Prop} {write : Message → Command} {lockType : LockType}
    {clock : Clock} {message : Message} (hwrite : P (write message))
    (hlock : 0 < message.lockMs → P (.cache (.lockMessage clock message lockType)))
    (hmake : ¬ 0 < message.lockMs → P (.cache (.makeAvailable message))) :
    All P (Queue.settle write lockType clock message : Queue.QueueProg ι Bool) := by
  unfold Queue.settle
  split_ifs with hq hid hlocks
  · trivial
  · trivial
  · refine all_bind ((all_perform _).mpr hwrite) fun _ => ?_
    exact all_bind ((all_perform _).mpr (hlock hlocks)) fun _ => all_attempt _ _
  · refine all_bind ((all_perform _).mpr hwrite) fun _ => ?_
    exact all_bind ((all_perform _).mpr (hmake hlocks)) fun _ => all_attempt _ _

theorem all_queueRemove {P : Command → Prop} {queue : String} {ids : List String}
    (hstorage : P (.storageRemove queue ids)) (hcache : P (.cache (.remove queue ids))) :
    All P (Queue.remove queue ids : Queue.QueueProg ι (ℕ × ℕ)) :=
  all_bind ((all_perform _).mpr hstorage) fun _ =>
    all_bind ((all_perform _).mpr hcache) fun _ =>
      all_bind (all_attempt _ _) fun _ => trivial

theorem all_remove {P : Command → Prop} {request : RemoveRequest}
    (hstorage : P (.storageRemove request.queue request.ids))
    (hcache : P (.cache (.remove request.queue request.ids))) :
    All P (Service.remove request : Service.ServiceProg ι RemoveResponse) := by
  unfold Service.remove
  split_ifs
  · trivial
  · exact all_mapError (all_bind (all_queueRemove hstorage hcache) fun _ => trivial)

theorem all_settled {P : Command → Prop} {request : AckRequest}
    (hstorage : P (.storageRemove request.queue [request.id]))
    (hcache : P (.cache (.remove request.queue [request.id]))) (result : Bool) :
    All P (Service.settled request result : Service.ServiceProg ι AckResponse) := by
  unfold Service.settled
  split_ifs
  · exact all_mapError (all_bind (all_remove hstorage hcache) fun _ => trivial)
  · trivial

theorem all_getFromStorage {P : Command → Prop} {ids : List String} {queue : String} {retry : Bool}
    (h : P (.storageFind (Queue.findOptions ids queue retry))) :
    All P (Queue.getFromStorage ids queue retry : Queue.QueueProg ι _) :=
  all_bind ((all_perform _).mpr h) fun _ => all_bind (all_attempt _ _) fun _ => trivial

theorem all_removeMissing {P : Command → Prop} {queue : String} {ids : List String}
    (h : P (.cache (.remove queue ids))) :
    All P (Queue.removeMissing queue ids : Queue.QueueProg ι Unit) := by
  cases ids with
  | nil => trivial
  | cons id ids => exact all_bind ((all_perform _).mpr h) fun _ => trivial

theorem all_pull {P : Command → Prop} {clock : Clock} {queue : String} {n d : Int64}
    {minScore maxScore : Option Float64}
    (hpull : P (.cache (.pullMessages clock queue n minScore maxScore d)))
    (hfind : ∀ ids retry, P (.storageFind (Queue.findOptions ids queue retry)))
    (hremove : ∀ ids, P (.cache (.remove queue ids))) :
    All P (Queue.pull clock queue n minScore maxScore d : Queue.QueueProg ι _) := by
  refine all_bind ((all_perform _).mpr hpull) fun _ => all_bind (all_attempt _ _) fun ids => ?_
  split_ifs
  · trivial
  · refine all_bind (all_getFromStorage (hfind _ _)) fun found => ?_
    dsimp only
    split_ifs
    · trivial
    · exact all_bind (all_getFromStorage (hfind _ _)) fun _ =>
        all_bind (all_removeMissing (hremove _)) fun _ => trivial

theorem program_issues (request : Request) :
    All request.Issues (request.program : Service.ServiceProg ι Response) := by
  cases request with
  | add zone clock order ms =>
    refine all_bind (all_mapError ?_) fun _ => trivial
    refine all_bind (all_bind ((all_perform _).mpr (.inl rfl)) fun _ => all_attempt _ _) fun _ => ?_
    refine all_bind (all_addQueues fun queue hqueue => ?_) fun _ => trivial
    obtain ⟨m, hm, rfl⟩ := mem_visit_queueNames.mp hqueue
    exact .inr ⟨m, hm, rfl⟩
  | pull clock request =>
    refine all_bind (all_mapError ?_) fun _ => trivial
    refine all_bind (all_pull (.inl rfl) ?_ ?_) fun _ => trivial
    · exact fun ids retry => .inr (.inl ⟨ids, retry, rfl⟩)
    · exact fun ids => .inr (.inr ⟨ids, rfl⟩)
  | ack clock request | nack clock request =>
    refine all_bind (all_bind (all_mapError ?_) fun result => ?_) fun _ => trivial
    · exact all_settle (.inl rfl) (fun h => .inr (.inl ⟨h, rfl⟩))
        fun h => .inr (.inr (.inl ⟨h, rfl⟩))
    · exact all_settled (.inr (.inr (.inr (.inl rfl)))) (.inr (.inr (.inr (.inr rfl)))) result
  | remove request =>
    exact all_bind (all_remove (.inl rfl) (.inr rfl)) fun _ => trivial
  | unlockMessages clock queue lockType | timeoutMessages clock queue =>
    refine all_bind (all_mapError ?_) fun _ => trivial
    exact all_bind ((all_perform _).mpr rfl) fun _ => all_attempt _ _

theorem pullAmount_ok (amount : Int32) :
    1 ≤ (Service.pullAmount amount).toInt ∧ (Service.pullAmount amount).toInt ≤ 1000 := by
  unfold Service.pullAmount
  dsimp only
  generalize amount.toInt64 = n
  split_ifs with h1 h2 h2
  · exact absurd h2 (by decide)
  · decide
  · decide
  · rw [Int64.le_iff_toInt_le] at h1
    rw [Int64.lt_iff_toInt_lt] at h2
    have h0 : (0 : Int64).toInt = 0 := rfl
    have h1000 : (1000 : Int64).toInt = 1000 := rfl
    omega

theorem Request.Issues.amountOk {request : Request} {op : Op}
    (h : request.Issues (.cache op)) : op.AmountOk := by
  cases op with
  | pullMessages clock queue n minScore maxScore d =>
    cases request with
    | pull clock request =>
      obtain ⟨-, -, hn, -⟩ : _ ∧ _ ∧ n = Service.pullAmount request.amount ∧ _ := by
        simpa [Request.Issues] using h
      exact hn ▸ pullAmount_ok request.amount
    | _ => simp [Request.Issues] at h
  | _ => trivial

variable [LinearOrder ι] {stores : Stores ι} {w : World ι} {P : Places}

/-- A cache call moves the places and leaves the documents and the other keys alone. -/
theorem handle_cache (hs : stores.cache.Represents w.redis P) {op : Op} (hamount : op.AmountOk) :
    ∃ P', stores.cache.Represents (stores.handle (.cache op) w).2.redis P' ∧
      (stores.handle (.cache op) w).2.redis.str = w.redis.str ∧
      Moves P op (op.outcome (stores.handle (.cache op) w).1) P' := by
  have hmoves := step_moves hs hamount
  rw [step_eq_perform] at hmoves
  exact hmoves

/-- Only the cache calls move messages. -/
theorem handle_other {c : Command} (hc : ∀ op, c ≠ .cache op)
    (hs : stores.cache.Represents w.redis P) :
    stores.cache.Represents (stores.handle c w).2.redis P := by
  cases c with
  | cache op => exact absurd rfl (hc op)
  | _ => exact hs

/-- What the cache calls of a request preserve, the request preserves. -/
theorem serve_invariant {J : Places → Prop} {ok : Op → Prop} {request : Request}
    (hok : ∀ op, request.Issues (.cache op) → ok op)
    (hmoves : ∀ P op res P', Moves P op res P' → ok op → J P → J P')
    (hs : ∃ P, stores.cache.Represents w.redis P ∧ J P) :
    ∃ P, stores.cache.Represents (stores.serve w request).2.redis P ∧ J P := by
  refine run_invariant (I := fun w : World ι => ∃ P, stores.cache.Represents w.redis P ∧ J P) ?_
    (program_issues request) hs
  rintro c w hc ⟨P, hs, hJ⟩
  by_cases hop : ∃ op, c = .cache op
  · obtain ⟨op, rfl⟩ := hop
    obtain ⟨P', ht, -, hm⟩ := handle_cache (w := w) hs hc.amountOk
    exact ⟨P', ht, hmoves P op _ P' hm (hok op hc) hJ⟩
  · exact ⟨P, handle_other (fun op hc => hop ⟨op, hc⟩) hs, hJ⟩

end Deckard
