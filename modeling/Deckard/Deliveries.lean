import Deckard.Answers
import Deckard.AuditPresence

/-!
# Deliveries and their ends

A delivery of a message ends once: by an acknowledgement, by a rejection, by its deadline or with
the message. However requests, recoveries and tasks interleave, a message has not been settled
successfully, or timed out, more often than it has been handed out.
-/
namespace Deckard.Deliveries

open Binary64 Effect Cache Program Prog Tasks Runs Lifecycle Audited

/-! ## What a call reports -/

section Reports

variable (queue id : String)

/-- Whether the call hands out the message. -/
def pulls : Call → ℕ
  | (.pullMessages _ q _ _ _ _, .ids ids) => if q = queue ∧ id ∈ ids then 1 else 0
  | _ => 0

/-- Whether the call takes the message back from the client that settles it. -/
def settlements : Call → ℕ
  | (.makeAvailable message, .flag true) => if message.key = (queue, id) then 1 else 0
  | (.lockMessage _ message _, .flag true) => if message.key = (queue, id) then 1 else 0
  | _ => 0

/-- Whether the call takes the message back at its deadline. -/
def timeouts : Call → ℕ
  | (.timeoutMessages _ q, .ids ids) => if q = queue ∧ id ∈ ids then 1 else 0
  | _ => 0

def ends (call : Call) : ℕ := settlements queue id call + timeouts queue id call

end Reports

/-- A call ends the deliveries of messages that are held, and only a pull begins them; `held` and
`held'` tell before and after it whether a message is held. -/
def Accounts (call : Call) (held held' : String → String → ℕ) : Prop :=
  ∀ queue id, ends queue id call + held' queue id ≤ held queue id + pulls queue id call

theorem accounts_of_le {call : Call} {held held' : String → String → ℕ}
    (hends : ∀ queue id, ends queue id call = 0)
    (hle : ∀ queue id, held' queue id ≤ held queue id) : Accounts call held held' := by
  intro queue id
  have hheld := hle queue id
  rw [hends]
  omega

/-- A call that ends no delivery and leaves the messages where they are. -/
theorem accounts_unchanged {call : Call} {held : String → String → ℕ}
    (hends : ∀ queue id, ends queue id call = 0) : Accounts call held held :=
  accounts_of_le hends fun _ _ => le_rfl

theorem ends_error (op : Op) (e : CacheError) (queue id : String) :
    ends queue id (op, .error e) = 0 := by
  cases op <;> rfl

/-! ## Redis -/

section Redis

open RedisCache

/-- Whether a message in the place is held by a client. -/
def Place.held : Place → ℕ
  | .processing _ => 1
  | _ => 0

def redisHeld (P : Places) (queue id : String) : ℕ := Place.held (P queue id)

variable {P P' : Places} {q : String} {l : List String} {f : String → Place}

theorem redisHeld_replace (queue id : String) :
    redisHeld (P.replace q l f) queue id =
      if queue = q ∧ id ∈ l then Place.held (f id) else redisHeld P queue id := by
  unfold redisHeld Places.replace
  split_ifs <;> rfl

/-- A message of the batch is held neither before nor after the insertion. -/
theorem redisHeld_inserts {messages : List Message} (h : Inserts P P' q messages l)
    (queue id : String) : redisHeld P' queue id = redisHeld P queue id := by
  unfold redisHeld
  by_cases hid : queue = q ∧ id ∈ l
  · obtain ⟨rfl, hl⟩ := hid
    obtain ⟨hP, m, -, -, x, -, hP'⟩ := h.new id hl
    rw [hP, hP']
    rfl
  · rw [h.old queue id fun hq hl => hid ⟨hq, hl⟩]

/-- A message that is settled was held, and is not any more. -/
theorem accounts_settled {call : Call} {message : Message} {d : Number} {place : Place}
    (hP : P message.queue message.id = .processing d) (hplace : Place.held place = 0)
    (hends : ∀ queue id, ends queue id call = if message.key = (queue, id) then 1 else 0) :
    Accounts call (redisHeld P)
      (redisHeld (P.replace message.queue [message.id] fun _ => place)) := by
  intro queue id
  rw [redisHeld_replace, hends, hplace]
  simp only [Message.key, Prod.mk.injEq, List.mem_singleton, @eq_comm _ queue, @eq_comm _ id]
  split_ifs with h
  · obtain ⟨rfl, rfl⟩ := h
    simp [redisHeld, hP, Place.held]
  · omega

/-- A message that leaves its place is not held by anyone. -/
theorem accounts_left {call : Call} (hends : ∀ queue id, ends queue id call = 0)
    (hplace : ∀ id ∈ l, Place.held (f id) = 0) :
    Accounts call (redisHeld P) (redisHeld (P.replace q l f)) := by
  refine accounts_of_le hends fun queue id => ?_
  rw [redisHeld_replace]
  split_ifs with h
  · simp [hplace id h.2]
  · exact le_rfl

theorem accounts_moves {op : Op} {res : Result} (h : Moves P op res P') :
    Accounts (op, res) (redisHeld P) (redisHeld P') := by
  cases h with
  | rejected e _ => exact accounts_unchanged (ends_error op e)
  | inserted _ hinserts _ =>
    exact accounts_of_le (fun _ _ => rfl) fun queue id => (redisHeld_inserts hinserts queue id).le
  | insertedPart _ _ hinserts _ =>
    exact accounts_of_le (fun _ _ => rfl) fun queue id => (redisHeld_inserts hinserts queue id).le
  | notReleased | notLocked => exact accounts_unchanged fun _ _ => rfl
  | pulled _ _ hactive =>
    intro queue id
    rw [redisHeld_replace]
    simp only [ends, settlements, timeouts, pulls, @eq_comm _ _ queue]
    split_ifs with hid
    · simp [Place.held]
    · omega
  | released _ hP _ => exact accounts_settled hP rfl fun _ _ => rfl
  | locked _ hP _ => exact accounts_settled hP rfl fun _ _ => rfl
  | lost | lockedUnscored => exact accounts_left (fun _ _ => rfl) fun _ _ => rfl
  | unlocked | removed => exact accounts_left (fun _ _ => rfl) fun _ _ => rfl
  | timedOut _ hdue =>
    intro queue id
    rw [redisHeld_replace]
    simp only [ends, settlements, timeouts, pulls, @eq_comm _ _ queue]
    split_ifs with hid
    · obtain ⟨rfl, hl⟩ := hid
      obtain ⟨d, hP, -⟩ := hdue id hl
      simp [redisHeld, hP, Place.held]
    · omega

end Redis

/-! ## The memory cache -/

section Memory

open MemoryCache

/-- Whether the processing list of the queue has the message. -/
def memoryHeld (c : MemoryCache) (queue id : String) : ℕ :=
  if id ∈ (c.pool .processing queue).ids then 1 else 0

variable {c d : MemoryCache}

theorem memoryHeld_le (h : ∀ queue id, id ∈ (d.pool .processing queue).ids →
    id ∈ (c.pool .processing queue).ids) (queue id : String) :
    memoryHeld d queue id ≤ memoryHeld c queue id := by
  unfold memoryHeld
  split_ifs with hd hc
  · exact le_rfl
  · exact absurd (h queue id hd) hc
  · exact Nat.zero_le _
  · exact le_rfl

/-- An entry that leaves the processing list is in no one's hands. -/
theorem memoryHeld_move {p : MemoryPool} (hp : p ≠ .processing) (q : String)
    (data : MemoryMessageEntry) (queue id : String) :
    memoryHeld (c.move .processing p q data) queue id =
      if queue = q ∧ id = data.id then 0 else memoryHeld c queue id := by
  unfold memoryHeld
  by_cases hq : queue = q
  · by_cases hid : id = data.id <;> simp [MemoryCache.move, hq, hid, hp.symm]
  · simp [MemoryCache.move, hq]

theorem accounts_move {call : Call} {p : MemoryPool} (hp : p ≠ .processing) {q : String}
    {data : MemoryMessageEntry} (hmem : data.id ∈ (c.pool .processing q).ids)
    (hends : ∀ queue id, ends queue id call = if queue = q ∧ id = data.id then 1 else 0) :
    Accounts call (memoryHeld c) (memoryHeld (c.move .processing p q data)) := by
  intro queue id
  rw [memoryHeld_move hp, hends]
  split_ifs with h
  · obtain ⟨rfl, rfl⟩ := h
    simp [memoryHeld, hmem]
  · omega

theorem accounts_makeAvailable (message : Message) :
    Accounts (.makeAvailable message, (c.makeAvailable message).1) (memoryHeld c)
      (memoryHeld (c.makeAvailable message).2) := by
  unfold MemoryCache.makeAvailable
  split_ifs with hq hin
  · exact accounts_unchanged fun _ _ => rfl
  · refine accounts_move (by simp) (EntryList.contains_iff.mp hin) fun queue id => ?_
    exact if_congr (by simp [Message.key, createEntry, eq_comm]) rfl rfl
  · exact accounts_unchanged fun _ _ => rfl

theorem accounts_lockMessage (clock : Clock) (message : Message) (lockType : LockType) :
    Accounts (.lockMessage clock message lockType, (c.lockMessage clock message lockType).1)
      (memoryHeld c) (memoryHeld (c.lockMessage clock message lockType).2) := by
  unfold MemoryCache.lockMessage
  split_ifs with hq hms hin
  · exact accounts_unchanged fun _ _ => rfl
  · exact accounts_unchanged fun _ _ => rfl
  · refine accounts_move (by simp) (EntryList.contains_iff.mp hin) fun queue id => ?_
    exact if_congr (by simp [Message.key, createEntry, eq_comm]) rfl rfl
  · exact accounts_unchanged fun _ _ => rfl

theorem accounts_timeoutMessages (clock : Clock) (q : String) :
    Accounts (.timeoutMessages clock q, (c.timeoutMessages clock q).1) (memoryHeld c)
      (memoryHeld (c.timeoutMessages clock q).2) := by
  simp only [MemoryCache.timeoutMessages]
  split
  · exact accounts_unchanged fun _ _ => by simp [ends, settlements, timeouts]
  · rename_i value hfind
    have hmem : value.id ∈ (c.pool .processing q).ids := find_mem_ids hfind
    refine accounts_move (by simp) hmem fun queue id => ?_
    simp [ends, settlements, timeouts, eq_comm]

theorem accounts_pullMessages (clock : Clock) (q : String) (n : Int64)
    (minScore maxScore : Option Float64) (ackDeadlineMs : Int64) :
    Accounts (.pullMessages clock q n minScore maxScore ackDeadlineMs,
        (c.pullMessages clock q n minScore maxScore ackDeadlineMs).1) (memoryHeld c)
      (memoryHeld (c.pullMessages clock q n minScore maxScore ackDeadlineMs).2) := by
  obtain ⟨hres, -, hproc, hframe⟩ :=
    pullMessages_spec c clock q n minScore maxScore ackDeadlineMs
  intro queue id
  rw [hres]
  simp only [ends, settlements, timeouts, pulls, memoryHeld]
  by_cases hq : queue = q
  · subst hq
    have hmem := congrArg (id ∈ EntryList.ids ·) hproc
    simp only [mem_ids_foldl_insertEntry, ids_processingEntries, eq_iff_iff] at hmem
    split_ifs with hnow hheld hout hout
    · omega
    · omega
    · omega
    · exact absurd (hmem.mp hnow) (by simp_all)
    all_goals omega
  · rw [hframe .processing queue fun h => absurd h hq]
    simp [Ne.symm hq]

theorem processing_unlock {lockType : LockType} {nowMs : Int64} {defaultScore : Float64}
    (order : List String) (acc : List String × MemoryCache) (queue : String) :
    (order.foldl (unlockQueue lockType nowMs defaultScore) acc).2.pool .processing queue =
      acc.2.pool .processing queue := by
  induction order generalizing acc with
  | nil => rfl
  | cons q order ih =>
    rw [List.foldl_cons, ih, unlockQueue]
    split
    · rfl
    · simp [MemoryCache.move]

/-- Any call of the memory cache. -/
theorem accounts_machine {op : Op} {res : Result} (h : MemoryCache.machine c op res d) :
    Accounts (op, res) (memoryHeld c) (memoryHeld d) := by
  obtain ⟨out, hout⟩ : ∃ out, out = (res, d) := ⟨_, rfl⟩
  rw [machine, ← hout] at h
  rw [show res = out.1 by rw [hout], show d = out.2 by rw [hout]]
  cases h with
  | insert q messages =>
    simp only [MemoryCache.insert]
    split_ifs
    · exact accounts_unchanged fun _ _ => rfl
    · exact accounts_of_le (fun _ _ => rfl) (memoryHeld_le fun queue id h => by simpa using h)
  | pullMessages clock q n lo hi dl => exact accounts_pullMessages clock q n lo hi dl
  | makeAvailable message => exact accounts_makeAvailable message
  | lockMessage clock message t => exact accounts_lockMessage clock message t
  | unlockMessages clock q t order _ =>
    refine accounts_of_le (fun _ _ => rfl) (memoryHeld_le fun queue id h => ?_)
    rwa [MemoryCache.unlockMessages, processing_unlock] at h
  | timeoutMessages clock q => exact accounts_timeoutMessages clock q
  | remove q ids =>
    exact accounts_of_le (fun _ _ => rfl) (memoryHeld_le fun queue id h => (mem_ids_remove.mp h).2)

end Memory

/-! ## Either cache -/

/-- A cache that keeps account of its deliveries, from the states that it can reach. -/
structure Tracks {ρ : Type} (cache : CacheCalls ρ) (Reached : ρ → Prop)
    (held : ρ → String → String → ℕ) : Prop where
  perform : ∀ {op s}, op.AmountOk → Reached s → Reached (cache.perform op s).2 ∧
    Accounts (op, op.outcome (cache.perform op s).1) (held s) (held (cache.perform op s).2)
  get : ∀ {key s}, Reached s → Reached (cache.get key s).2 ∧ held (cache.get key s).2 = held s
  set : ∀ {key value s}, Reached s →
    Reached (cache.set key value s).2 ∧ held (cache.set key value s).2 = held s

/-- Whether the processing pool of the queue has the message. -/
def redisHolds (cache : RedisCache) (s : Redis) (queue id : String) : ℕ :=
  if ((s.zset (cache.key queue .processing)).score id).isSome then 1 else 0

theorem redisHolds_eq {cache : RedisCache} {s : Redis} {P : RedisCache.Places}
    (h : cache.Represents s P) : redisHolds cache s = redisHeld P := by
  funext queue id
  rw [redisHolds, redisHeld, h queue id .processing]
  cases P queue id <;> rfl

theorem redis_tracks (cache : RedisCache) :
    Tracks cache.calls (fun s => ∃ P, cache.Represents s P) (redisHolds cache) where
  perform := by
    rintro op s hamount ⟨P, hs⟩
    obtain ⟨P', ht, -, hmoves⟩ := RedisCache.step_moves hs hamount
    rw [RedisCache.step_eq_perform] at ht hmoves
    have hreached : cache.Represents (cache.calls.perform op s).2 P' := ht
    refine ⟨⟨P', hreached⟩, ?_⟩
    rw [redisHolds_eq hs, redisHolds_eq hreached]
    exact accounts_moves hmoves
  get := fun h => ⟨h, rfl⟩
  set := fun h => ⟨h, rfl⟩

theorem memory_tracks {order : MemoryCache → LockType → List String}
    (horder : ∀ (c : MemoryCache) lockType, c.VisitOrder lockType (order c lockType)) :
    Tracks (MemoryCache.calls order) (fun _ => True) memoryHeld where
  perform := fun {op c} _ _ =>
    ⟨trivial, accounts_machine (MemoryCache.calls_perform (horder c) op)⟩
  get := fun h => ⟨h, rfl⟩
  set := fun h => ⟨h, rfl⟩

def reached : (cache : CacheChoice) → cache.State → Prop
  | .redis cache => fun s => ∃ P, cache.Represents s P
  | .memory _ => fun _ => True

/-- Whether a message is in the hands of a client. -/
def held : (cache : CacheChoice) → cache.State → String → String → ℕ
  | .redis cache => redisHolds cache
  | .memory _ => memoryHeld

theorem held_new (cache : CacheChoice) :
    reached cache cache.new ∧ ∀ queue id, held cache cache.new queue id = 0 := by
  cases cache with
  | redis cache => exact ⟨⟨_, cache.represents_empty⟩, fun _ _ => rfl⟩
  | memory order => exact ⟨trivial, fun _ _ => rfl⟩

theorem tracks {cache : CacheChoice} (h : cache.Visits) :
    Tracks cache.calls (reached cache) (held cache) := by
  cases cache with
  | redis cache => exact redis_tracks cache
  | memory order => exact memory_tracks h

/-! ## Interleaved requests, recoveries and tasks -/

section System

variable {ι σ ρ : Type} {storage : StorageCalls ι σ} {cache : CacheCalls ρ}
  {queues : String → RedisCache.PoolType → ρ → Except CacheError (List String)}
  {configurations : Except StorageError (List QueueConfiguration)}
  {Reached : ρ → Prop} {held : ρ → String → String → ℕ}

/-- A sum over the calls that have been made. -/
def total (f : Call → ℕ) (calls : List Call) : ℕ := (calls.map f).sum

theorem total_append (f : Call → ℕ) (calls calls' : List Call) :
    total f (calls ++ calls') = total f calls + total f calls' := by
  simp [total]

theorem total_ends (queue id : String) (calls : List Call) :
    total (ends queue id) calls =
      total (settlements queue id) calls + total (timeouts queue id) calls :=
  List.sum_map_add

/-- No message has ended more deliveries than it has had, the one in progress included. -/
def Accounted (Reached : ρ → Prop) (held : ρ → String → String → ℕ) (s : State (σ × ρ)) : Prop :=
  Reached s.stores.2 ∧ ∀ queue id,
    total (ends queue id) s.calls + held s.stores.2 queue id ≤ total (pulls queue id) s.calls

theorem accounted_handle (hcache : Tracks cache Reached held) (c : TaskCommand)
    {s : State (σ × ρ)} (hc : OnStores (fun c => ∀ op, c = .cache op → op.AmountOk) c)
    (hs : Accounted Reached held s) : Accounted Reached held
      (audited (Tasks.handle storage cache queues configurations) c s).2 := by
  obtain ⟨hreached, hle⟩ := hs
  cases c with
  | call call =>
    cases call with
    | command c =>
      cases c with
      | cache op =>
        obtain ⟨hreached', haccounts⟩ := hcache.perform (hc op rfl) hreached
        refine ⟨hreached', fun queue id => ?_⟩
        have hbefore := hle queue id
        have hcall := haccounts queue id
        simp only [audited, recorded, total_append]
        change _ + (ends queue id (op, op.outcome (cache.perform op s.stores.2).1) + 0) +
            held (cache.perform op s.stores.2).2 queue id ≤
          _ + (pulls queue id (op, op.outcome (cache.perform op s.stores.2).1) + 0)
        omega
      | cacheGet key =>
        obtain ⟨hreached', hheld⟩ := hcache.get hreached
        refine ⟨hreached', fun queue id => ?_⟩
        simp only [audited, recorded, List.append_nil]
        exact (congrFun (congrFun hheld queue) id).symm ▸ hle queue id
      | cacheSet key value =>
        obtain ⟨hreached', hheld⟩ := hcache.set hreached
        refine ⟨hreached', fun queue id => ?_⟩
        simp only [audited, recorded, List.append_nil]
        exact (congrFun (congrFun hheld queue) id).symm ▸ hle queue id
      | _ => exact ⟨hreached, by simpa [audited, recorded, Tasks.handle, Deckard.handle] using hle⟩
    | _ => exact ⟨hreached, by simpa [audited, recorded, Tasks.handle] using hle⟩
  | _ => exact ⟨hreached, hle⟩

/-! ## Successful settlements -/

section Success

variable (queue id : String)

/-- Whether the response tells the client that it has settled the message. One that removes the
message as well is always a success. -/
def success (request : AckRequest) (response : AckResponse) : ℕ :=
  if request.queue = queue ∧ request.id = id ∧ request.removeMessage = false ∧
    response.success = true then 1 else 0

def succeeded : Work → Except ServiceError (Option Response) → ℕ
  | .client (.ack _ request) _, .ok (some (.settled response)) => success queue id request response
  | .client (.nack _ request) _, .ok (some (.settled response)) =>
      success queue id request response
  | _, _ => 0

/-- What the answer to a command tells of settlements. -/
def settled (c : TaskCommand) (r : TaskAnswer ι c) : ℕ :=
  total (settlements queue id) (recorded c r)

end Success

theorem gains_settle (signal : Signal) (write : Message → Command) (lockType : LockType)
    (clock : Clock) (message : Message) (reason : String) :
    Gains (settled message.queue message.id) (fun r n => r = .ok true → 1 ≤ n)
      (settle signal write lockType clock message reason : TaskProg ι QueueError Bool) 0 := by
  unfold settle Queue.settle
  split_ifs with hqueue hid hlock
  · exact fun h => by cases h
  · exact fun h => by cases h
  · intro written answer
    rcases answer with e | moved
    · exact fun h => by cases h
    intro stored hmoved
    cases hmoved
    simp [settled, recorded, total, settlements, Op.outcome, Op.result, Message.key]
  · intro written answer
    rcases answer with e | moved
    · exact fun h => by cases h
    intro stored hmoved
    cases hmoved
    simp [settled, recorded, total, settlements, Op.outcome, Op.result, Message.key]

/-- A response is a success only if the cache has taken the message back. -/
theorem gains_settled {p : TaskProg ι QueueError Bool} {request : AckRequest}
    (hp : Gains (settled request.queue request.id) (fun r n => r = .ok true → 1 ≤ n) p 0)
    (f : QueueError → ServiceError) :
    Gains (settled request.queue request.id)
      (fun r n => ∀ response, r = .ok response →
        success request.queue request.id request response ≤ n)
      (mapError f p >>= Audited.Service.settled request) 0 := by
  have hresult : Gains (settled request.queue request.id)
      (fun (r : Except ServiceError Bool) n => r = .ok true → 1 ≤ n) (mapError f p) 0 :=
    hp.mapError (fun a n h ha => h (by cases ha; rfl)) fun e n h => by simp
  refine hresult.bind (fun result n hn => ?_) fun e n _ response h => by cases h
  unfold Audited.Service.settled
  split_ifs with hremove
  · refine gains_of_forall (fun r n response _ => ?_) _ _
    simp [success, hremove]
  · rintro response hresponse
    cases hresponse
    cases result with
    | false => simp [success]
    | true => simpa [success, hremove] using hn rfl

/-- The same for the answer to the client. -/
theorem covers_settled {request : AckRequest} {q : TaskProg ι ServiceError AckResponse}
    {worth : Except ServiceError (Option Response) → ℕ}
    (hq : Gains (settled request.queue request.id) (fun r n => ∀ response, r = .ok response →
      success request.queue request.id request response ≤ n) q 0)
    (hok : ∀ response, worth (.ok (some (.settled response))) =
      success request.queue request.id request response)
    (herror : ∀ e, worth (.error e) = 0) :
    Covers (settled request.queue request.id) worth (some <$> (Response.settled <$> q)) 0 := by
  have hmapped : Gains (settled request.queue request.id) (fun r n => worth (r.map some) ≤ n)
      (Response.settled <$> q) 0 := by
    refine hq.bind (fun response n h => ?_) fun e n _ => ?_
    · change worth (.ok (some (.settled response))) ≤ n
      rw [hok]
      exact h response rfl
    · change worth (.error e) ≤ n
      simp [herror]
  exact hmapped.bind (fun response n h => h) fun e n h => h

theorem success_of_ne {queue id : String} {request : AckRequest}
    (h : ¬ (request.queue = queue ∧ request.id = id)) (response : AckResponse) :
    success queue id request response = 0 :=
  if_neg fun hkey => h ⟨hkey.1, hkey.2.1⟩

theorem covers_work [LinearOrder ι] (internalIds : InternalIds ι) (queue id : String)
    (work : Work) :
    Covers (settled queue id) (succeeded queue id work) (work.program internalIds) 0 := by
  cases work with
  | client request reason =>
    cases request with
    | ack clock request =>
      by_cases hkey : request.queue = queue ∧ request.id = id
      · obtain ⟨rfl, rfl⟩ := hkey
        have hsettle := gains_settle (ι := ι) .ack .storageAck .lockAck (fun i => clock (i + 2))
          (Deckard.Service.ackMessage clock request) reason
        exact covers_settled (gains_settled hsettle _) (fun _ => rfl) fun _ => rfl
      · refine covers_of_worthless (fun r => ?_) _ _
        rcases r with e | _ | response
        · rfl
        · rfl
        · cases response <;> simp [succeeded, success_of_ne hkey]
    | nack clock request =>
      by_cases hkey : request.queue = queue ∧ request.id = id
      · obtain ⟨rfl, rfl⟩ := hkey
        have hsettle := gains_settle (ι := ι) .nack .storageNack .lockNack (fun i => clock (i + 1))
          (Deckard.Service.nackMessage request) reason
        exact covers_settled (gains_settled hsettle _) (fun _ => rfl) fun _ => rfl
      · refine covers_of_worthless (fun r => ?_) _ _
        rcases r with e | _ | response
        · rfl
        · rfl
        · cases response <;> simp [succeeded, success_of_ne hkey]
    | _ => exact covers_of_worthless (fun r => rfl) _ _
  | recovery order => exact covers_of_worthless (fun r => rfl) _ _
  | task background => exact covers_of_worthless (fun r => rfl) _ _

end System

/-- However the requests of clients, recoveries and tasks interleave, over either cache: the
successful acknowledgements and rejections of a message, its timeouts and the delivery that may
still be in progress are together no more than the times that it has been handed out. -/
theorem settled_once {ι κ σ : Type} [LinearOrder ι] [DecidableEq κ] [Fintype κ]
    (internalIds : InternalIds ι) (storage : StorageCalls ι σ) (cache : CacheChoice)
    (hcache : cache.Visits)
    (queues : String → RedisCache.PoolType → cache.State → Except CacheError (List String))
    (configurations : Except StorageError (List QueueConfiguration))
    {s₀ s : Audited.System ι (σ × cache.State) κ}
    {tr : List (Label κ Work × Option (Except ServiceError (Option Response)))}
    (hidle : s₀.Idle) (hnew : s₀.shared.stores.2 = cache.new) (hfresh : s₀.shared.calls = [])
    (hrun : Run (interleaved
      (audited (Tasks.handle storage cache.calls queues configurations))
      (Work.program internalIds)) s₀ tr s) (queue id : String) :
    ((answers (fun _ => none) tr).map fun a => succeeded queue id a.1 a.2).sum +
        total (timeouts queue id) s.shared.calls + held cache s.shared.stores.2 queue id ≤
      total (pulls queue id) s.shared.calls := by
  have hamount : ∀ work : Work, All (OnStores fun c => ∀ op, c = .cache op → op.AmountOk)
      (work.program internalIds) := by
    intro work
    refine (work_onStores internalIds work).imp (OnStores.imp fun c hc op hop => ?_)
    subst hop
    exact hc.amountOk
  have hstart : Accounted (reached cache) (held cache) s₀.shared := by
    obtain ⟨hreached, hheld⟩ := held_new cache
    rw [← hnew] at hreached hheld
    refine ⟨hreached, fun queue id => ?_⟩
    simp [hfresh, total, hheld]
  obtain ⟨-, hle⟩ : Accounted (reached cache) (held cache) s.shared := by
    refine interleaved_invariant (fun _ => True)
      (fun c s hc hs => accounted_handle (tracks hcache) c hc hs) (fun work _ => hamount work) hrun
      (fun _ _ _ _ _ => trivial) (fun i p hp => ?_) hstart
    rw [hidle i] at hp
    cases hp
  have hcovered : Program.Covered (settled (ι := ι) queue id) (succeeded queue id) (fun _ => none)
      (fun _ => 0) s₀ := covered_idle hidle
  have hsettled := worth_answers_le
    (fun s : State (σ × cache.State) => total (settlements queue id) s.calls)
    (covers_work internalIds queue id) (fun c s => by rw [calls_audited, total_append]; rfl) hrun
    hcovered
  have hends := hle queue id
  rw [total_ends] at hends
  simp only [hfresh, Finset.sum_const_zero] at hsettled
  omega

/-- A message is added and pulled, and then two clients acknowledge it at the same time. -/
def twoAcks : List (Label Bool Work) :=
  let ack : Work := .client (.ack (fun _ => 0) { id := "a", queue := "q" }) ""
  [.start true (.client (addMessage "q" "a") ""), .step true, .step true, .step true, .finish true,
    .start true (.client (.pull (fun _ => 0) { queue := "q" }) ""), .step true, .step true,
    .finish true, .start true ack, .start false ack, .step true, .step false, .step false,
    .step true, .step false, .step true, .finish false, .finish true]

theorem settled_once_twoAcks :
    ∃ tr, ∃ s : Audited.System ℕ (MongoStorage.Documents ℕ × Redis) Bool,
      Run (interleaved (audited (Tasks.handle (MongoStorage.calls InternalIds.counter)
        (CacheChoice.redis ⟨""⟩).calls (fun _ _ _ => .ok []) (.ok [])))
        (Work.program InternalIds.counter))
        ⟨⟨(Table.empty 0, Redis.empty), fun _ => false, [], []⟩, fun _ => none⟩ tr s ∧
      (answers (fun _ => none) tr).length = 4 ∧
      ((answers (fun _ => none) tr).map fun a => succeeded "q" "a" a.1 a.2).sum ≤ 1 := by
  obtain ⟨⟨tr, s⟩, hfollow, hend⟩ := (Option.any_eq_true _ _).mp
    (show ((follow (audited (Tasks.handle (MongoStorage.calls InternalIds.counter)
        (CacheChoice.redis ⟨""⟩).calls (fun _ _ _ => .ok []) (.ok [])))
        (Work.program InternalIds.counter)
        ⟨⟨(Table.empty 0, Redis.empty), fun _ => false, [], []⟩, fun _ => none⟩
        twoAcks).any fun r => decide ((answers (fun _ => none) r.1).length = 4) &&
          decide (total (pulls "q" "a") r.2.shared.calls = 1)) = true by decide +kernel)
  simp only [Bool.and_eq_true, decide_eq_true_eq] at hend
  have hrun := run_follow hfollow
  have hle := settled_once InternalIds.counter (MongoStorage.calls InternalIds.counter)
    (.redis ⟨""⟩) trivial (fun _ _ _ => .ok []) (.ok []) (fun _ => rfl) rfl rfl hrun "q" "a"
  refine ⟨tr, s, hrun, hend.1, ?_⟩
  rw [hend.2] at hle
  omega

end Deckard.Deliveries
