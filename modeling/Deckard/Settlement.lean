import Deckard.Backends
import Deckard.RedisRuns

/-!
# Acks and nacks that do not succeed

A request writes its outcome to the storage first and then asks the cache to release the
message. If the cache does not, because the message is not being processed or the call is
refused, the write stays. The results say for each pair of stores which requests leave
nothing behind when they do not succeed.
-/
namespace Deckard

open Binary64 Effect Cache Program Prog RedisScripts

variable {ι : Type} {σ ρ : Type}

/-- The two requests that end a delivery. -/
inductive Settling
  | ack
  | nack
  deriving DecidableEq

namespace Settling

def program (ι : Type) (clock : Clock) (request : AckRequest) :
    Settling → Service.ServiceProg ι AckResponse
  | .ack => Service.ack clock request
  | .nack => Service.nack clock request

/-- The message that the request hands to the queue. -/
def message (clock : Clock) (request : AckRequest) : Settling → Message
  | .ack => Service.ackMessage clock request
  | .nack => Service.nackMessage request

def lockType : Settling → LockType
  | .ack => .lockAck
  | .nack => .lockNack

/-- The readings of the clock that are left for the cache. -/
def later (clock : Clock) : Settling → Clock
  | .ack => fun i => clock (i + 2)
  | .nack => fun i => clock (i + 1)

def write (storage : StorageCalls ι σ) : Settling → Message → σ → ℕ × σ
  | .ack => storage.ack
  | .nack => storage.nack

def error : Settling → ServiceError
  | .ack => .messageAck
  | .nack => .messageNack

end Settling

/-- What the cache is asked for: a lock if the message has a lock time. -/
def CacheCalls.release (cache : CacheCalls ρ) (lockType : LockType) (clock : Clock)
    (message : Message) (c : ρ) : Except CacheError Bool × ρ :=
  if 0 < message.lockMs then cache.perform (.lockMessage clock message lockType) c
  else cache.perform (.makeAvailable message) c

variable {storage : StorageCalls ι σ} {cache : CacheCalls ρ} {kind : Settling} {clock : Clock}
  {request : AckRequest} {s : σ} {c : ρ}

/-- The answer of the cache is the answer of the request. -/
theorem run_settled (hremove : request.removeMessage = false) (answer : Except CacheError Bool)
    (e : ServiceError) (w : σ × ρ) :
    Prog.run (handle storage cache)
        ((mapError (fun _ => e) (Queue.attempt QueueError.cache answer) :
          Service.ServiceProg ι Bool) >>= Service.settled request) w =
      ((answer.mapError fun _ => e).map fun result => { success := result }, w) := by
  cases answer with
  | error e' => rfl
  | ok result =>
    change Prog.run _ (Service.settled request result) w = _
    rw [Service.settled, hremove]
    rfl

/-- Two checks, the write and the release. -/
theorem run_settle (hremove : request.removeMessage = false) (write : Message → Command)
    (lockType : LockType) (clock : Clock) (m : Message) (e : ServiceError) :
    Prog.run (handle storage cache)
        (mapError (fun _ => e) (Queue.settle write lockType clock m) >>= Service.settled request)
        (s, c) =
      if m.queue = "" ∨ m.id = "" then (.error e, (s, c))
      else
        let w := (handle storage cache (write m) (s, c)).2
        let released := cache.release lockType clock m w.2
        ((released.1.mapError fun _ => e).map fun result => { success := result },
          (w.1, released.2)) := by
  rw [Queue.settle]
  by_cases hq : m.queue = ""
  · rw [if_pos hq, if_pos (.inl hq)]
    rfl
  · by_cases hid : m.id = ""
    · rw [if_neg hq, if_pos hid, if_pos (.inr hid)]
      rfl
    · rw [if_neg hq, if_neg hid, if_neg (not_or.mpr ⟨hq, hid⟩)]
      by_cases hlock : 0 < m.lockMs
      · simp only [CacheCalls.release, if_pos hlock]
        exact run_settled hremove _ e _
      · simp only [CacheCalls.release, if_neg hlock]
        exact run_settled hremove _ e _

theorem run_settling (hremove : request.removeMessage = false) :
    Prog.run (handle storage cache) (kind.program ι clock request) (s, c) =
      if request.queue = "" ∨ request.id = "" then (.error kind.error, (s, c))
      else
        let released := cache.release kind.lockType (kind.later clock)
          (kind.message clock request) c
        ((released.1.mapError fun _ => kind.error).map fun result => { success := result },
          ((kind.write storage (kind.message clock request) s).2, released.2)) := by
  cases kind with
  | ack => exact run_settle hremove Command.storageAck _ _ (Service.ackMessage clock request) _
  | nack => exact run_settle hremove Command.storageNack _ _ (Service.nackMessage request) _

/-- If the request does not succeed, both stores are as before. -/
def NoEffect (storage : StorageCalls ι σ) (cache : CacheCalls ρ) (kind : Settling) (clock : Clock)
    (request : AckRequest) (w : σ × ρ) : Prop :=
  let r := Prog.run (handle storage cache) (kind.program ι clock request) w
  (∀ response, r.1 = .ok response → response.success = false) → r.2 = w

/-- Either the request fails its checks, or it succeeds, or neither store changes. -/
theorem noEffect_iff (hremove : request.removeMessage = false) :
    NoEffect storage cache kind clock request (s, c) ↔
      request.queue = "" ∨ request.id = "" ∨
      (cache.release kind.lockType (kind.later clock) (kind.message clock request) c).1 = .ok true ∨
      (kind.write storage (kind.message clock request) s).2 = s ∧
      (cache.release kind.lockType (kind.later clock) (kind.message clock request) c).2 = c := by
  rw [NoEffect, run_settling hremove]
  by_cases hq : request.queue = ""
  · simp [hq]
  · by_cases hid : request.id = ""
    · simp [hid]
    · rw [if_neg (not_or.mpr ⟨hq, hid⟩)]
      simp only [hq, hid, false_or]
      rcases cache.release kind.lockType (kind.later clock) (kind.message clock request) c with
        ⟨e | _ | _, c'⟩
      · simp [Except.mapError, Except.map]
      · simp [Except.mapError, Except.map]
      · simp [Except.mapError, Except.map]

/-! ## The storages -/

theorem increment_ne (n : Option Int64) : MongoStorage.increment n ≠ n := by
  intro h
  cases n with
  | none => cases h
  | some n =>
    have hn : n + 1 = n := Option.some_inj.mp h
    simp at hn

theorem MongoStorage.ackUpdate_ne (m v : Message) : MongoStorage.ackUpdate m v ≠ v := fun h =>
  increment_ne (some v.usageCount) (congrArg (fun v : Message => some v.usageCount) h)

theorem MongoStorage.nackUpdate_ne (m v : Message) : MongoStorage.nackUpdate m v ≠ v := fun h =>
  increment_ne (v.diagnostics.getD {}).nacks
    (congrArg (fun v : Message => (v.diagnostics.getD {}).nacks) h)

theorem MemoryStorage.ackUpdate_ne (m v : Message) : MemoryStorage.ackUpdate m v ≠ v := fun h =>
  increment_ne (some v.usageCount) (congrArg (fun v : Message => some v.usageCount) h)

theorem MemoryStorage.nackUpdate_ne (m v : Message) : MemoryStorage.nackUpdate m v ≠ v := fun h =>
  increment_ne (v.diagnostics.getD {}).nacks
    (congrArg (fun v : Message => (v.diagnostics.getD {}).nacks) h)

variable [LinearOrder ι]

/-- The write of a request changes the document of the message, if there is one. -/
theorem MongoStorage.write_eq_self {internalIds : InternalIds ι} {m : Message}
    {docs : MongoStorage.Documents ι} :
    (kind.write (MongoStorage.calls internalIds) m docs).2 = docs ↔ docs.get m.key = none := by
  cases kind with
  | ack => exact Table.modify_eq_self (MongoStorage.ackUpdate_ne m)
  | nack => exact Table.modify_eq_self (MongoStorage.nackUpdate_ne m)

theorem MemoryStorage.write_eq_self {internalIds : InternalIds ι} {visit : Visit ι} {m : Message}
    {stored : MemoryStorage ι} :
    (kind.write (MemoryStorage.calls internalIds visit) m stored).2 = stored ↔
      stored.docs.get (getKey m) = none := by
  rw [MemoryStorage.ext_iff]
  cases kind with
  | ack => exact Table.modify_eq_self (MemoryStorage.ackUpdate_ne m)
  | nack => exact Table.modify_eq_self (MemoryStorage.nackUpdate_ne m)

/-! ## The caches -/

namespace RedisCache

variable {cache : RedisCache} {s : Redis} {m : Message} {lockType : LockType}

/-- The set to which a release adds the message, and whose answer it returns. -/
def target (lockType : LockType) (m : Message) : Pool :=
  if 0 < m.lockMs then
    if m.score.eq (.ofInt (-1)) then .lock lockType else .lockScore lockType
  else .active

/-- The name is accepted, the message is being processed and in no set that it goes to, and
its score is a number. -/
def Released (cache : RedisCache) (s : Redis) (lockType : LockType) (m : Message) : Prop :=
  hasHashTag m.queue = false ∧ cache.Holds s m.queue .processing m.id ∧ m.score ≠ .nan ∧
    ¬ cache.Holds s m.queue (target lockType m) m.id

/-- The name is refused or the message is not being processed. -/
def Untouched (cache : RedisCache) (s : Redis) (m : Message) : Prop :=
  hasHashTag m.queue = true ∨ ¬ cache.Holds s m.queue .processing m.id

theorem ne_of_processing {t : Redis} (h : cache.Holds s m.queue .processing m.id)
    (ht : (t.zset (cache.key m.queue .processing)).score m.id = none) : t ≠ s := by
  rintro rfl
  rw [Holds, ht] at h
  cases h

/-- The four ways in which a release ends. -/
theorem release_of_cases {x : Eff Redis CacheError Bool}
    (hrefused : hasHashTag m.queue = true → ∃ e, exec x s = (.error e, s))
    (habsent : hasHashTag m.queue = false → ¬ cache.Holds s m.queue .processing m.id →
      exec x s = (.ok false, s))
    (hnan : hasHashTag m.queue = false → cache.Holds s m.queue .processing m.id →
      m.score = .nan → ∃ e t, exec x s = (.error e, t) ∧
        (t.zset (cache.key m.queue .processing)).score m.id = none)
    (hnum : hasHashTag m.queue = false → cache.Holds s m.queue .processing m.id →
      ∀ y, m.score = .num y → ∃ t,
        exec x s = (.ok (!decide (cache.Holds s m.queue (target lockType m) m.id)), t) ∧
        (t.zset (cache.key m.queue .processing)).score m.id = none) :
    ((exec x s).1 = .ok true ↔ cache.Released s lockType m) ∧
      ((exec x s).2 = s ↔ cache.Untouched s m) := by
  cases htag : hasHashTag m.queue with
  | true =>
    obtain ⟨e, he⟩ := hrefused htag
    simp [he, Released, Untouched, htag]
  | false =>
    by_cases hp : cache.Holds s m.queue .processing m.id
    · cases hscore : m.score with
      | nan =>
        obtain ⟨e, t, ht, hnone⟩ := hnan htag hp hscore
        simp [ht, Released, Untouched, htag, hp, hscore, ne_of_processing hp hnone]
      | num y =>
        obtain ⟨t, ht, hnone⟩ := hnum htag hp y hscore
        simp [ht, Released, Untouched, htag, hp, hscore, ne_of_processing hp hnone]
    · simp [habsent htag hp, Released, Untouched, htag, hp]

/-- The script answers whether the set did not hold the message yet. -/
theorem created_beq_one (queue id : String) (pool : Pool) :
    ((if ((s.zset (cache.key queue pool)).score id).isSome then 0 else 1) == 1) =
      !decide (cache.Holds s queue pool id) := by
  cases h : ((s.zset (cache.key queue pool)).score id).isSome with
  | true =>
    have hholds : cache.Holds s queue pool id := h
    rw [decide_eq_true hholds]
    rfl
  | false =>
    have hholds : ¬ cache.Holds s queue pool id := by simp [Holds, h]
    rw [decide_eq_false hholds]
    rfl

theorem makeAvailable_released (hq : m.queue ≠ "") (hlock : ¬ 0 < m.lockMs) :
    ((exec (cache.makeAvailable m) s).1 = .ok true ↔ cache.Released s lockType m) ∧
      ((exec (cache.makeAvailable m) s).2 = s ↔ cache.Untouched s m) := by
  refine release_of_cases (fun htag => makeAvailable_rejected fun h => ?_) (fun htag hp => ?_)
    (fun htag hp hnan => ?_) fun htag hp y hy => ?_
  · rw [h.2] at htag
    cases htag
  · rw [exec_makeAvailable ⟨hq, htag⟩,
      exec_wrap_ok (exec_moveElementScript_absent (Option.not_isSome_iff_eq_none.mp hp))]
    rfl
  · refine ⟨.makingElementAvailable .notAValidFloat, s.setZ (cache.key m.queue .processing)
      ((s.zset (cache.key m.queue .processing)).erase m.id), ?_, by simp⟩
    rw [exec_makeAvailable ⟨hq, htag⟩, hnan, exec_wrap_error (exec_moveElementScript_nan hp)]
    rfl
  · refine ⟨shift s (cache.key m.queue .active) (cache.key m.queue .processing) y [m.id], ?_,
      by simp⟩
    rw [exec_makeAvailable ⟨hq, htag⟩, hy, exec_wrap_ok (exec_moveElementScript (by simp) hp),
      andThen_ok, exec_pure, target, if_neg hlock, created_beq_one]

theorem lockMessage_released {clock : Clock} (hq : m.queue ≠ "") (hlock : 0 < m.lockMs) :
    ((exec (cache.lockMessage clock m lockType) s).1 = .ok true ↔ cache.Released s lockType m) ∧
      ((exec (cache.lockMessage clock m lockType) s).2 = s ↔ cache.Untouched s m) := by
  have hpos : 0 < m.lockMs.toInt := Int64.lt_iff_toInt_lt.mp hlock
  refine release_of_cases (fun htag => lockMessage_rejected fun h => ?_) (fun htag hp => ?_)
    (fun htag hp hnan => ?_) fun htag hp y hy => ?_
  · rw [h.1.2] at htag
    cases htag
  · rw [exec_lockMessage ⟨⟨hq, htag⟩, hpos⟩,
      exec_wrap_ok (exec_lockElementScript_absent (Option.not_isSome_iff_eq_none.mp hp))]
    rfl
  · refine ⟨.lockingElement .notAValidFloat, shift s (cache.key m.queue (.lock lockType))
      (cache.key m.queue .processing) (lockUntil clock m) [m.id], ?_, by simp⟩
    rw [exec_lockMessage ⟨⟨hq, htag⟩, hpos⟩, hnan,
      exec_wrap_error (exec_lockElementScript_nan (by simp) hp)]
    rfl
  · rw [exec_lockMessage ⟨⟨hq, htag⟩, hpos⟩, target, if_pos hlock]
    by_cases hundefined : m.score.eq (.ofInt (-1)) = true
    · rw [exec_wrap_ok (exec_lockElementScript_undefined (by simp) hundefined hp), andThen_ok,
        exec_pure, created_beq_one, if_pos hundefined]
      exact ⟨_, rfl, by simp⟩
    · rw [hy] at hundefined ⊢
      rw [exec_wrap_ok (exec_lockElementScript (by simp) (by simp) (by simp) hundefined hp),
        andThen_ok, exec_pure, created_beq_one, if_neg hundefined]
      exact ⟨_, rfl, by simp⟩

/-- A release by Redis: when it succeeds and when it changes nothing. -/
theorem release_iff {clock : Clock} (hq : m.queue ≠ "") :
    ((cache.calls.release lockType clock m s).1 = .ok true ↔ cache.Released s lockType m) ∧
      ((cache.calls.release lockType clock m s).2 = s ↔ cache.Untouched s m) := by
  unfold CacheCalls.release
  split_ifs with hlock
  · exact lockMessage_released hq hlock
  · exact makeAvailable_released hq hlock

end RedisCache

/-- A release by the memory cache succeeds if the message is being processed, and otherwise
changes nothing. -/
theorem MemoryCache.release_cases {order : MemoryCache → LockType → List String}
    {c : MemoryCache} {m : Message} {lockType : LockType} {clock : Clock} (hq : m.queue ≠ "") :
    ((MemoryCache.calls order).release lockType clock m c).1 =
        .ok ((c.pool .processing m.queue).contains m.id) ∧
      ((c.pool .processing m.queue).contains m.id = false →
        ((MemoryCache.calls order).release lockType clock m c).2 = c) := by
  unfold CacheCalls.release
  cases hp : (c.pool .processing m.queue).contains m.id with
  | true =>
    refine ⟨?_, fun h => by cases h⟩
    split_ifs with hlock
    · have hms : ¬ m.lockMs ≤ 0 := Int64.not_le.mpr hlock
      change flag (c.lockMessage clock m lockType).1 = _
      rw [MemoryCache.lockMessage, if_neg hq, if_neg hms, if_pos hp]
      rfl
    · change flag (c.makeAvailable m).1 = _
      rw [MemoryCache.makeAvailable, if_neg hq, if_pos hp]
      rfl
  | false =>
    have hp' : ¬ (c.pool .processing m.queue).contains m.id = true := by simp [hp]
    split_ifs with hlock
    · have hms : ¬ m.lockMs ≤ 0 := Int64.not_le.mpr hlock
      have hrun : c.lockMessage clock m lockType = (.flag false, c) := by
        rw [MemoryCache.lockMessage, if_neg hq, if_neg hms, if_neg hp']
      exact ⟨congrArg (fun r : Result × MemoryCache => flag r.1) hrun,
        fun _ => congrArg Prod.snd hrun⟩
    · have hrun : c.makeAvailable m = (.flag false, c) := by
        rw [MemoryCache.makeAvailable, if_neg hq, if_neg hp']
      exact ⟨congrArg (fun r : Result × MemoryCache => flag r.1) hrun,
        fun _ => congrArg Prod.snd hrun⟩

/-! ## Requests that leave nothing behind -/

variable {request : AckRequest} {clock : Clock} {kind : Settling}

omit [LinearOrder ι] in
/-- With the memory cache only a stored message that is not being processed is affected. -/
theorem noEffect_memoryCache_iff {storage : StorageCalls ι σ} {s : σ}
    {order : MemoryCache → LockType → List String} {c : MemoryCache}
    (hremove : request.removeMessage = false) :
    NoEffect storage (MemoryCache.calls order) kind clock request (s, c) ↔
      request.queue = "" ∨ request.id = "" ∨
      (c.pool .processing request.queue).contains request.id = true ∨
      (kind.write storage (kind.message clock request) s).2 = s := by
  rw [noEffect_iff hremove]
  refine or_congr_right' fun hq => or_congr_right ?_
  have hqueue : (kind.message clock request).queue = request.queue := by cases kind <;> rfl
  have hid : (kind.message clock request).id = request.id := by cases kind <;> rfl
  have hrelease := @MemoryCache.release_cases order c (kind.message clock request) kind.lockType
    (kind.later clock) (hqueue.symm ▸ hq)
  rw [hqueue, hid] at hrelease
  rw [hrelease.1]
  cases hp : (c.pool .processing request.queue).contains request.id with
  | true => simp
  | false => simp [hrelease.2 hp]

omit [LinearOrder ι] in
/-- With Redis the message may also be refused after it has left the processing pool. -/
theorem noEffect_redisCache_iff {storage : StorageCalls ι σ} {s : σ} {cache : RedisCache}
    {c : Redis} (hremove : request.removeMessage = false) :
    NoEffect storage cache.calls kind clock request (s, c) ↔
      request.queue = "" ∨ request.id = "" ∨
      cache.Released c kind.lockType (kind.message clock request) ∨
      (kind.write storage (kind.message clock request) s).2 = s ∧
        cache.Untouched c (kind.message clock request) := by
  rw [noEffect_iff hremove]
  refine or_congr_right' fun hq => or_congr_right ?_
  have hqueue : (kind.message clock request).queue = request.queue := by cases kind <;> rfl
  have hrelease := @RedisCache.release_iff cache c (kind.message clock request) kind.lockType
    (kind.later clock) (hqueue.symm ▸ hq)
  rw [hrelease.1, hrelease.2]

/-- A request that does not succeed leaves both stores as they were exactly if it fails its
checks, or would succeed, or finds no document to write to and nothing to move. -/
theorem unsuccessful_settling_iff (ι : Type) [LinearOrder ι] {request : AckRequest}
    (hremove : request.removeMessage = false) (clock : Clock) (kind : Settling) :
    (∀ (internalIds : InternalIds ι) (cache : RedisCache) (docs : MongoStorage.Documents ι)
        (c : Redis),
      NoEffect (MongoStorage.calls internalIds) cache.calls kind clock request (docs, c) ↔
        request.queue = "" ∨ request.id = "" ∨
        cache.Released c kind.lockType (kind.message clock request) ∨
        docs.get (request.queue, request.id) = none ∧
          cache.Untouched c (kind.message clock request)) ∧
    (∀ (internalIds : InternalIds ι) (order : MemoryCache → LockType → List String)
        (docs : MongoStorage.Documents ι) (c : MemoryCache),
      NoEffect (MongoStorage.calls internalIds) (MemoryCache.calls order) kind clock request
          (docs, c) ↔
        request.queue = "" ∨ request.id = "" ∨
        (c.pool .processing request.queue).contains request.id = true ∨
        docs.get (request.queue, request.id) = none) ∧
    (∀ (internalIds : InternalIds ι) (visit : MemoryStorage.Visit ι) (cache : RedisCache)
        (stored : MemoryStorage ι) (c : Redis),
      NoEffect (MemoryStorage.calls internalIds visit) cache.calls kind clock request
          (stored, c) ↔
        request.queue = "" ∨ request.id = "" ∨
        cache.Released c kind.lockType (kind.message clock request) ∨
        stored.docs.get (request.queue ++ ":" ++ request.id) = none ∧
          cache.Untouched c (kind.message clock request)) ∧
    (∀ (internalIds : InternalIds ι) (visit : MemoryStorage.Visit ι)
        (order : MemoryCache → LockType → List String) (stored : MemoryStorage ι)
        (c : MemoryCache),
      NoEffect (MemoryStorage.calls internalIds visit) (MemoryCache.calls order) kind clock request
          (stored, c) ↔
        request.queue = "" ∨ request.id = "" ∨
        (c.pool .processing request.queue).contains request.id = true ∨
        stored.docs.get (request.queue ++ ":" ++ request.id) = none) := by
  have hkey : (kind.message clock request).key = (request.queue, request.id) := by
    cases kind <;> rfl
  have htext : MemoryStorage.getKey (kind.message clock request) =
      request.queue ++ ":" ++ request.id := by
    cases kind <;> rfl
  refine ⟨?_, ?_, ?_, ?_⟩
  · intro internalIds cache docs c
    rw [noEffect_redisCache_iff hremove, MongoStorage.write_eq_self, hkey]
  · intro internalIds order docs c
    rw [noEffect_memoryCache_iff hremove, MongoStorage.write_eq_self, hkey]
  · intro internalIds visit cache stored c
    rw [noEffect_redisCache_iff hremove, MemoryStorage.write_eq_self, htext]
  · intro internalIds visit order stored c
    rw [noEffect_memoryCache_iff hremove, MemoryStorage.write_eq_self, htext]

/-- Both stores after one message has been added. -/
def oneAdded : MongoStorage.Documents ℕ × Redis :=
  (Prog.run (handle (MongoStorage.calls InternalIds.counter) (RedisCache.mk "").calls)
    (Service.add .utc (fun _ => 0) .listed [{ id := "a", queue := "q" }])
    (Table.empty 0, Redis.empty)).2

/-- A message that was never added. -/
def strayNack : AckRequest := { id := "b", queue := "q" }

theorem unsuccessful_settling_stray :
    strayNack.removeMessage = false ∧ (oneAdded.1.get ("q", "a")).isSome ∧
      NoEffect (MongoStorage.calls InternalIds.counter) (RedisCache.mk "").calls .nack (fun _ => 0)
        strayNack oneAdded := by
  have hmissing : oneAdded.1.get ("q", "b") = none :=
    Option.isNone_iff_eq_none.mp (by decide +kernel)
  have hprocessing : ¬ (RedisCache.mk "").Holds oneAdded.2 "q" .processing "b" := by
    decide +kernel
  refine ⟨rfl, by decide +kernel,
    ((unsuccessful_settling_iff ℕ rfl (fun _ => 0) .nack).1 _ _ _ _).mpr ?_⟩
  exact .inr (.inr (.inr ⟨hmissing, .inr hprocessing⟩))

/-- The message of the request has been added and never pulled. -/
def earlyAck : AckRequest := { id := "a", queue := "q" }

/-- The acknowledgement of a message that was not pulled is answered with a failure, and
counted in its document. -/
theorem early_ack_written :
    earlyAck.removeMessage = false ∧
      (Prog.run (handle (MongoStorage.calls InternalIds.counter) (RedisCache.mk "").calls)
        (Service.ack (fun _ => 0) earlyAck) oneAdded).1 = .ok { success := false } ∧
      ¬ NoEffect (MongoStorage.calls InternalIds.counter) (RedisCache.mk "").calls .ack (fun _ => 0)
        earlyAck oneAdded := by
  have hrun : (Prog.run (handle (MongoStorage.calls InternalIds.counter) (RedisCache.mk "").calls)
      (Service.ack (fun _ => 0) earlyAck) oneAdded).1 = .ok { success := false } := by
    decide +kernel
  refine ⟨rfl, hrun, fun h => ?_⟩
  have hsame := h fun response hresponse =>
    (congrArg AckResponse.success (Except.ok.inj (hresponse.symm.trans hrun)))
  have husage := congrArg
    (fun w : MongoStorage.Documents ℕ × Redis =>
      (w.1.get ("q", "a")).map fun d => d.value.usageCount) hsame
  revert husage
  decide +kernel

end Deckard
