import Deckard.RedisListing
import Deckard.Service
import Mathlib.Algebra.Order.Floor.Div
import Mathlib.Data.List.TakeWhile

/-!
# Releasing due messages

The housekeeper lists the queues of a pool and, queue by queue, moves the entries whose
deadline has passed back to the active pool, at most a thousand of them. An error of one
queue is logged and the next one is visited. The calls on different queues touch different
sorted sets, so a pass does to each queue what the call alone would do.
-/
namespace Deckard

open Binary64 Effect Cache Runs RedisScripts

namespace Housekeeper

/-- The queues that a loop visits before it sees that a shutdown has started. -/
def visited (stopping : ℕ → Bool) (queues : List String) : List String :=
  (queues.zipIdx.takeWhile fun p => !stopping p.2).map Prod.fst

/-- Returns the messages whose deadline has passed to the active pool. The result lists
what the call on each queue has given. -/
def processTimeoutMessages (cache : RedisCache) (scan : Redis.Scan) (stopping : ℕ → Bool)
    (clock : String → Clock) :
    Eff Redis CacheError (List (String × Except CacheError (List String))) := do
  let queues ← cache.listQueues scan "*" .processingPool
  (visited stopping queues).mapM fun queue => do
    let result ← attempt (cache.timeoutMessages (clock queue) queue)
    return (queue, result)

def unlockMessages (cache : RedisCache) (stopping : ℕ → Bool) (clock : String → Clock)
    (queues : List String) (lockType : LockType) :
    Eff Redis CacheError (List ((LockType × String) × Except CacheError (List String))) :=
  (visited stopping queues).mapM fun queue => do
    let result ← attempt (cache.unlockMessages (clock queue) queue lockType)
    return ((lockType, queue), result)

/-- Moves messages from the lock pools to the active pool. -/
def processLockPool (cache : RedisCache) (scan : Redis.Scan) (stopping : LockType → ℕ → Bool)
    (stopped : Bool) (clock : LockType → String → Clock) :
    Eff Redis CacheError (List ((LockType × String) × Except CacheError (List String))) := do
  match ← attempt (cache.listQueues scan "*" .lockAckPool) with
  | .error (_ : CacheError) => return []
  | .ok lockAckQueues =>
    let acks ← unlockMessages cache (stopping .lockAck) (clock .lockAck) lockAckQueues .lockAck
    if stopped then return acks else
    match ← attempt (cache.listQueues scan "*" .lockNackPool) with
    | .error (_ : CacheError) => return acks
    | .ok lockNackQueues =>
      let nacks ←
        unlockMessages cache (stopping .lockNack) (clock .lockNack) lockNackQueues .lockNack
      return acks ++ nacks

theorem visited_never (queues : List String) : visited (fun _ => false) queues = queues := by
  have htake : queues.zipIdx.takeWhile (fun _ => true) = queues.zipIdx :=
    List.takeWhile_eq_self_iff.mpr fun _ _ => rfl
  exact (congrArg (List.map Prod.fst) htake).trans (List.zipIdx_map_fst 0 queues)

variable {cache : RedisCache} {s t : Redis} {now : Number}

/-- Number of entries of a sorted set that are due. -/
def dueCount (s : Redis) (k : String) (now : Number) : ℕ :=
  ((s.zset k).rangeByScore (.ofInt 0) now).length

/-- All ids that are due in a sorted set, or a thousand of them. -/
structure Batch (s : Redis) (k : String) (now : Number) (l : List String) : Prop where
  nodup : l.Nodup
  due : ∀ id ∈ l, ∃ d, (s.zset k).score id = some d ∧ .ofInt 0 ≤ d ∧ d ≤ now
  length : l.length = min (dueCount s k now) 1000

theorem batch_spec (s : Redis) (k : String) (now : Number) :
    Batch s k now (RedisCache.batch s k now) := by
  have hsub : (RedisCache.batch s k now).Sublist ((s.zset k).revRangeByScore now (.ofInt 0)) :=
    Redis.limit_sublist _ _
  refine ⟨(SortedSet.nodup_revRangeByScore _ _ _).sublist hsub,
    fun id hid => SortedSet.mem_revRangeByScore.mp (hsub.subset hid), ?_⟩
  rw [RedisCache.batch, Redis.limit, if_neg (by decide), List.length_take,
    SortedSet.revRangeByScore, List.length_reverse, min_comm]
  rfl

/-- A loop over queues leaves the sorted sets of each queue as the call on it alone would. -/
theorem exec_visit (cache : RedisCache) (s : Redis) {queues : List String} (hnodup : queues.Nodup)
    {x : String → Eff Redis CacheError (List String)} {β : Type} (tag : String → β)
    (hx : ∀ queue ∈ queues, Within RedisCache.content (cache.slots queue) (x queue)) :
    ∃ t, exec (queues.mapM fun queue => do
          let result ← attempt (x queue)
          return (tag queue, result)) s =
        ((.ok (queues.map fun queue => (tag queue, (exec (x queue) s).1)), t) :
          Except CacheError _ × Redis) ∧
      (∀ queue ∈ queues, ∀ p,
        t.zset (cache.key queue p) = (exec (x queue) s).2.zset (cache.key queue p)) ∧
      (∀ k, (∀ queue ∈ queues, ∀ p, k ≠ cache.key queue p) → t.zset k = s.zset k) ∧
      t.str = s.str := by
  obtain ⟨t, hrun, hown, hother⟩ := exec_mapM_disjoint
    (A := cache.slots) (f := fun queue => do
      let result ← (attempt (x queue) : Eff Redis CacheError _)
      return (tag queue, result)) (g := fun queue => (tag queue, (exec (x queue) s).1))
    (fun queue hq => (hx queue hq).attempt.bind fun _ => within_pure _)
    (fun _ _ hne => RedisCache.disjoint_slots hne) hnodup s fun _ _ => rfl
  refine ⟨t, hrun, fun queue hq p => ?_, fun k hk => ?_, funext fun k => ?_⟩
  · exact Sum.inl.inj (hown queue hq _ (RedisCache.key_mem_slots queue p))
  · refine Sum.inl.inj (hother (.zset k) fun queue hq => ?_)
    rintro ⟨p, hp⟩
    exact hk queue hq p (RedisCache.Slot.zset.inj hp).symm
  · refine Sum.inr.inj (hother (.str k) fun queue hq => ?_)
    rintro ⟨p, hp⟩
    cases hp

/-- A pass over the queues of a pool does to every queue what the call on it alone does,
given that the call changes nothing where the pool is empty. -/
theorem exec_pass (hplain : RedisCache.PlainPrefix cache) (hs : cache.Tidy s)
    {signed : Bool} {scan : Redis.Scan} (hscan : scan.Globs signed) (poolType : RedisCache.PoolType)
    (hne : poolType ≠ .primaryPool)
    {x : String → Eff Redis CacheError (List String)} (l : String → List String)
    (after : String → Redis) {β : Type} (tag : String → β)
    (hx : ∀ queue, Within RedisCache.content (cache.slots queue) (x queue))
    (hexec : ∀ queue, RedisCache.hasHashTag queue = false →
      exec (x queue) s = (.ok (l queue), after queue))
    (hempty : ∀ queue, s.zset (cache.key queue poolType.pool) = SortedSet.empty →
      after queue = s) :
    ∃ queues t, exec (cache.listQueues scan "*" poolType) s = (.ok queues, s) ∧ queues.Nodup ∧
      (∀ queue, queue ∈ queues ↔ s.zset (cache.key queue poolType.pool) ≠ SortedSet.empty) ∧
      exec (queues.mapM fun queue => do
          let result ← attempt (x queue)
          return (tag queue, result)) s =
        ((.ok (queues.map fun queue => (tag queue, .ok (l queue))), t) :
          Except CacheError _ × Redis) ∧
      (∀ queue p, t.zset (cache.key queue p) = (after queue).zset (cache.key queue p)) ∧
      (∀ k, (∀ queue p, k ≠ cache.key queue p) → t.zset k = s.zset k) ∧ t.str = s.str ∧
      cache.Tidy t := by
  obtain ⟨queues, hlist, hnodup, hmem⟩ := RedisCache.exec_listQueues hplain hs hscan hne
  have hname : ∀ queue ∈ queues, RedisCache.hasHashTag queue = false := fun queue hq =>
    hs.hasHashTag_of_zset ((hmem queue).mp hq)
  obtain ⟨t, hrun, hown, hother, hstr⟩ := exec_visit cache s hnodup tag
    fun queue _ => hx queue
  refine ⟨queues, t, hlist, hnodup, hmem, ?_, fun queue p => ?_, fun k hk => ?_, hstr, ?_⟩
  · rw [hrun]
    refine congrArg (fun r => (Except.ok r, t)) (List.map_congr_left fun queue hq => ?_)
    rw [hexec queue (hname queue hq)]
  · by_cases hq : queue ∈ queues
    · rw [hown queue hq, hexec queue (hname queue hq)]
    · rw [hempty queue (not_not.mp fun h => hq ((hmem queue).mpr h))]
      refine hother _ fun queue' hq' p' h => hq ?_
      rwa [(cache.key_inj.mp h).1]
  · exact hother k fun queue _ p => hk queue p
  · rw [show t = (exec (queues.mapM fun queue => do
        let result ← (attempt (x queue) : Eff Redis CacheError _)
        return (tag queue, result)) s).2 by rw [hrun]]
    exact exec_mapM_invariant (fun queue hq u hu => hu.within (hname queue hq)
      ((hx queue).attempt.bind fun _ => within_pure _)) hs

section Results

variable {queues : List String} {β : Type} {tag : String → β} {l : String → List String}

theorem mem_results (htag : Function.Injective tag) {queue : String}
    {r : Except CacheError (List String)} :
    (tag queue, r) ∈ queues.map (fun queue => (tag queue, .ok (l queue))) ↔
      queue ∈ queues ∧ r = .ok (l queue) := by
  rw [List.mem_map]
  constructor
  · rintro ⟨queue', hq', h⟩
    obtain ⟨htag', rfl⟩ := Prod.mk.inj h
    rw [← htag htag']
    exact ⟨hq', rfl⟩
  · rintro ⟨hq, rfl⟩
    exact ⟨queue, hq, rfl⟩

theorem nodup_results (htag : Function.Injective tag) (hnodup : queues.Nodup) :
    ((queues.map fun queue => (tag queue, (.ok (l queue) : Except CacheError _))).map
      Prod.fst).Nodup := by
  rw [List.map_map]
  exact hnodup.map htag

end Results

theorem batch_empty {k : String} (h : s.zset k = SortedSet.empty) :
    RedisCache.batch s k now = [] := by
  rw [RedisCache.batch, h]
  rfl

theorem shift_batch_empty {source destination : String} (h : s.zset source = SortedSet.empty)
    (x : Number) : shift s destination source x (RedisCache.batch s source now) = s := by
  rw [batch_empty h]
  simp [shift, SortedSet.addAll, SortedSet.eraseAll]

theorem unlocked_batch_empty {lock destination lockScore : String}
    (h : s.zset lock = SortedSet.empty) (y : Number) :
    unlocked s lock destination lockScore y (RedisCache.batch s lock now) = s := by
  rw [batch_empty h]
  simp [unlocked, SortedSet.addAll, SortedSet.eraseAll]

/-- The timestamp that the deadlines are compared with. -/
def nowMs (now : Time) : Number := .ofInt (Dtime.timeToMs now).toInt

/-- What a pass over the processing pools does when it moves `l queue` for each queue. -/
structure TimedOut (cache : RedisCache) (now : Time) (s t : Redis) (l : String → List String)
    (results : List (String × Except CacheError (List String))) : Prop where
  batch : ∀ queue, Batch s (cache.key queue .processing) (nowMs now) (l queue)
  results_nodup : (results.map Prod.fst).Nodup
  results_iff : ∀ queue r, (queue, r) ∈ results ↔
    s.zset (cache.key queue .processing) ≠ SortedSet.empty ∧ r = .ok (l queue)
  processing : ∀ queue id, (t.zset (cache.key queue .processing)).score id =
    if id ∈ l queue then none else (s.zset (cache.key queue .processing)).score id
  active : ∀ queue id, (t.zset (cache.key queue .active)).score id =
    if id ∈ l queue then some (.ofInt 0) else (s.zset (cache.key queue .active)).score id
  others : ∀ k, (∀ queue, k ≠ cache.key queue .processing ∧ k ≠ cache.key queue .active) →
    t.zset k = s.zset k
  texts : t.str = s.str

theorem processTimeoutMessages_spec (hplain : RedisCache.PlainPrefix cache) (hs : cache.Tidy s)
    {signed : Bool} {scan : Redis.Scan} (hscan : scan.Globs signed) (now : Time) :
    ∃ l results t, exec (processTimeoutMessages cache scan (fun _ => false) fun _ _ => now) s =
      (.ok results, t) ∧ TimedOut cache now s t l results ∧ cache.Tidy t := by
  let l : String → List String := fun queue =>
    RedisCache.batch s (cache.key queue .processing) (nowMs now)
  obtain ⟨queues, t, hlist, hnodup, hmem, hrun, hzset, hother, hstr, htidy⟩ :=
    exec_pass hplain hs hscan .processingPool (by decide) l
      (fun queue => shift s (cache.key queue .active) (cache.key queue .processing)
        (.ofInt 0) (l queue)) (fun queue => queue)
      (fun queue => RedisCache.within_timeoutMessages (fun _ => now) queue)
      (fun queue hq => RedisCache.exec_timeoutMessages hq)
      fun queue hempty => shift_batch_empty hempty _
  have hpass : exec (processTimeoutMessages cache scan (fun _ => false) fun _ _ => now) s =
      (.ok (queues.map fun queue => (queue, .ok (l queue))), t) := by
    rw [processTimeoutMessages, exec_bind, hlist, andThen_ok, visited_never]
    exact hrun
  refine ⟨l, _, t, hpass, ⟨fun queue => batch_spec _ _ _,
    nodup_results Function.injective_id hnodup, fun queue r => ?_, fun queue id => ?_,
    fun queue id => ?_, fun k hk => ?_, hstr⟩, htidy⟩
  · exact (mem_results Function.injective_id).trans (and_congr_left' (hmem queue))
  · rw [hzset, score_shift, if_pos rfl]
  · rw [hzset, score_shift, if_neg (by simp), if_pos rfl]
  · by_cases hkey : ∃ queue p, k = cache.key queue p
    · obtain ⟨queue, p, rfl⟩ := hkey
      rw [hzset, shift, Redis.zset_setZ, if_neg (hk queue).1, Redis.zset_setZ, if_neg (hk queue).2]
    · exact hother k fun queue p h => hkey ⟨queue, p, h⟩

/-- What a pass over the lock pools does when it moves `l lockType queue` for each pool. -/
structure Unlocked (cache : RedisCache) (now : Time) (s t : Redis)
    (l : LockType → String → List String)
    (results : List ((LockType × String) × Except CacheError (List String))) : Prop where
  batch : ∀ lockType queue,
    Batch s (cache.key queue (.lock lockType)) (nowMs now) (l lockType queue)
  results_nodup : (results.map Prod.fst).Nodup
  results_iff : ∀ lockType queue r, ((lockType, queue), r) ∈ results ↔
    s.zset (cache.key queue (.lock lockType)) ≠ SortedSet.empty ∧ r = .ok (l lockType queue)
  lock : ∀ lockType queue id, (t.zset (cache.key queue (.lock lockType))).score id =
    if id ∈ l lockType queue then none else (s.zset (cache.key queue (.lock lockType))).score id
  lockScore : ∀ lockType queue id, (t.zset (cache.key queue (.lockScore lockType))).score id =
    if id ∈ l lockType queue then none
    else (s.zset (cache.key queue (.lockScore lockType))).score id
  active : ∀ queue id, (t.zset (cache.key queue .active)).score id =
    if id ∈ l .lockNack queue then
      some (((s.zset (cache.key queue (.lockScore .lockNack))).score id).getD (.ofInt 0))
    else if id ∈ l .lockAck queue then
      some (((s.zset (cache.key queue (.lockScore .lockAck))).score id).getD (nowMs now))
    else (s.zset (cache.key queue .active)).score id
  others : ∀ k, (∀ queue, k ≠ cache.key queue .active ∧ ∀ lockType,
    k ≠ cache.key queue (.lock lockType) ∧ k ≠ cache.key queue (.lockScore lockType)) →
    t.zset k = s.zset k
  texts : t.str = s.str

/-- The pool that is listed for a lock type. -/
def lockPoolType : LockType → RedisCache.PoolType
  | .lockAck => .lockAckPool
  | .lockNack => .lockNackPool

theorem pool_lockPoolType (lockType : LockType) :
    (lockPoolType lockType).pool = .lock lockType := by
  cases lockType <;> rfl

/-- The ids that a pass takes out of the lock pool of a queue. -/
def unlockBatch (cache : RedisCache) (s : Redis) (now : Time) (lockType : LockType)
    (queue : String) : List String :=
  RedisCache.batch s (cache.key queue (.lock lockType)) (nowMs now)

/-- State after the unlocking of one queue. -/
def unlockQueue (cache : RedisCache) (s : Redis) (now : Time) (lockType : LockType)
    (queue : String) : Redis :=
  unlocked s (cache.key queue (.lock lockType)) (cache.key queue .active)
    (cache.key queue (.lockScore lockType)) (RedisCache.unlockScore (fun _ => now) lockType)
    (unlockBatch cache s now lockType queue)

theorem zset_unlockQueue {lockType : LockType} {queue k : String}
    (hactive : k ≠ cache.key queue .active) (hlock : k ≠ cache.key queue (.lock lockType))
    (hscore : k ≠ cache.key queue (.lockScore lockType)) (now : Time) :
    (unlockQueue cache s now lockType queue).zset k = s.zset k := by
  simp [unlockQueue, unlocked, hactive, hlock, hscore]

theorem score_unlockQueue (now : Time) (lockType : LockType) (queue id : String)
    (p : RedisCache.Pool) :
    ((unlockQueue cache s now lockType queue).zset (cache.key queue p)).score id =
      if p = .lockScore lockType ∨ p = .lock lockType then
        (if id ∈ unlockBatch cache s now lockType queue then none
        else (s.zset (cache.key queue p)).score id)
      else if p = .active then
        (if id ∈ unlockBatch cache s now lockType queue then
          some (((s.zset (cache.key queue (.lockScore lockType))).score id).getD
            (RedisCache.unlockScore (fun _ => now) lockType))
        else (s.zset (cache.key queue p)).score id)
      else (s.zset (cache.key queue p)).score id := by
  rw [unlockQueue, score_unlocked]
  simp only [RedisCache.key_inj, true_and]

/-- The pass over the pools of one lock type. -/
theorem unlockMessages_spec (hplain : RedisCache.PlainPrefix cache) (hs : cache.Tidy s)
    {signed : Bool} {scan : Redis.Scan} (hscan : scan.Globs signed) (now : Time)
    (lockType : LockType) :
    ∃ queues t, exec (cache.listQueues scan "*" (lockPoolType lockType)) s = (.ok queues, s) ∧
      queues.Nodup ∧
      (∀ queue, queue ∈ queues ↔ s.zset (cache.key queue (.lock lockType)) ≠ SortedSet.empty) ∧
      exec (unlockMessages cache (fun _ => false) (fun _ _ => now) queues lockType) s =
        (.ok (queues.map fun queue =>
          ((lockType, queue), .ok (unlockBatch cache s now lockType queue))), t) ∧
      (∀ queue p, t.zset (cache.key queue p) =
        (unlockQueue cache s now lockType queue).zset (cache.key queue p)) ∧
      (∀ k, (∀ queue p, k ≠ cache.key queue p) → t.zset k = s.zset k) ∧ t.str = s.str ∧
      cache.Tidy t := by
  obtain ⟨queues, t, hlist, hnodup, hmem, hrun, hrest⟩ :=
    exec_pass hplain hs hscan (lockPoolType lockType) (by cases lockType <;> decide)
      (unlockBatch cache s now lockType) (unlockQueue cache s now lockType)
      (fun queue => (lockType, queue))
      (fun queue => RedisCache.within_unlockMessages (fun _ => now) queue lockType)
      (fun queue hq => RedisCache.exec_unlockMessages hq)
      fun queue hempty => by
        rw [pool_lockPoolType] at hempty
        exact unlocked_batch_empty hempty _
  refine ⟨queues, t, hlist, hnodup, fun queue => ?_, ?_, hrest⟩
  · rw [hmem, pool_lockPoolType]
  · rw [unlockMessages, visited_never]
    exact hrun

section BothPasses

variable {now : Time} {u : Redis} (hu : ∀ queue p, u.zset (cache.key queue p) =
  (unlockQueue cache s now .lockAck queue).zset (cache.key queue p))

include hu

/-- The pass over the pools of acknowledged messages leaves the other lock pools alone. -/
theorem zset_lockNack {p : RedisCache.Pool} (hp : p = .lock .lockNack ∨ p = .lockScore .lockNack)
    (queue : String) : u.zset (cache.key queue p) = s.zset (cache.key queue p) := by
  rw [hu]
  apply zset_unlockQueue <;> rcases hp with rfl | rfl <;> simp

theorem unlockBatch_lockNack (queue : String) :
    unlockBatch cache u now .lockNack queue = unlockBatch cache s now .lockNack queue := by
  rw [unlockBatch, RedisCache.batch, zset_lockNack hu (.inl rfl)]
  rfl

/-- The lock pools of both types after the two passes. -/
theorem score_lockPools (ht : ∀ queue p, t.zset (cache.key queue p) =
      (unlockQueue cache u now .lockNack queue).zset (cache.key queue p))
    {lockType : LockType} {p : RedisCache.Pool} (hp : p = .lock lockType ∨ p = .lockScore lockType)
    (queue id : String) :
    (t.zset (cache.key queue p)).score id =
      if id ∈ unlockBatch cache s now lockType queue then none
      else (s.zset (cache.key queue p)).score id := by
  cases lockType with
  | lockAck =>
    have hlater : t.zset (cache.key queue p) = u.zset (cache.key queue p) := by
      rw [ht]
      apply zset_unlockQueue <;> rcases hp with rfl | rfl <;> simp
    rw [hlater, hu, score_unlockQueue, if_pos hp.symm]
  | lockNack =>
    rw [ht, score_unlockQueue, if_pos hp.symm, unlockBatch_lockNack hu, zset_lockNack hu hp]

end BothPasses

theorem processLockPool_spec (hplain : RedisCache.PlainPrefix cache) (hs : cache.Tidy s)
    {signed : Bool} {scan : Redis.Scan} (hscan : scan.Globs signed) (now : Time) :
    ∃ l results t,
      exec (processLockPool cache scan (fun _ _ => false) false fun _ _ _ => now) s =
        (.ok results, t) ∧ Unlocked cache now s t l results ∧ cache.Tidy t := by
  obtain ⟨acks, u, hlist₁, hnodup₁, hmem₁, hrun₁, hzset₁, hother₁, hstr₁, hu⟩ :=
    unlockMessages_spec hplain hs hscan now .lockAck
  obtain ⟨nacks, t, hlist₂, hnodup₂, hmem₂, hrun₂, hzset₂, hother₂, hstr₂, ht⟩ :=
    unlockMessages_spec hplain hu hscan now .lockNack
  have hbatch := unlockBatch_lockNack hzset₁
  simp only [hbatch] at hrun₂
  have hpass : exec (processLockPool cache scan (fun _ _ => false) false fun _ _ _ => now) s =
      (.ok ((acks.map fun queue =>
          ((LockType.lockAck, queue), .ok (unlockBatch cache s now .lockAck queue))) ++
        nacks.map fun queue =>
          ((LockType.lockNack, queue), .ok (unlockBatch cache s now .lockNack queue))), t) := by
    simp only [lockPoolType] at hlist₁ hlist₂
    rw [processLockPool, exec_bind, exec_attempt, hlist₁, andThen_ok]
    simp only [exec_bind, exec_attempt, hrun₁, hlist₂, hrun₂, andThen_ok, Bool.false_eq_true,
      if_false, exec_pure]
  refine ⟨unlockBatch cache s now, _, t, hpass, ⟨fun _ _ => batch_spec _ _ _, ?_, ?_,
    fun _ => score_lockPools hzset₁ hzset₂ (.inl rfl),
    fun _ => score_lockPools hzset₁ hzset₂ (.inr rfl), ?_, ?_, hstr₂.trans hstr₁⟩, ht⟩
  · rw [List.map_append, List.nodup_append]
    refine ⟨nodup_results (Prod.mk_right_injective _) hnodup₁,
      nodup_results (Prod.mk_right_injective _) hnodup₂, ?_⟩
    simp
  · rintro lockType queue r
    rw [List.mem_append]
    cases lockType with
    | lockAck =>
      rw [mem_results (Prod.mk_right_injective _), hmem₁, or_iff_left (by simp)]
    | lockNack =>
      rw [mem_results (Prod.mk_right_injective _), hmem₂, zset_lockNack hzset₁ (.inl rfl),
        or_iff_right (by simp)]
  · rintro queue id
    rw [hzset₂, score_unlockQueue, hbatch, zset_lockNack hzset₁ (.inr rfl), hzset₁,
      score_unlockQueue]
    rfl
  · intro k hk
    by_cases hkey : ∃ queue p, k = cache.key queue p
    · obtain ⟨queue, p, rfl⟩ := hkey
      obtain ⟨hactive, hlocks⟩ := hk queue
      rw [hzset₂, zset_unlockQueue hactive (hlocks _).1 (hlocks _).2, hzset₁,
        zset_unlockQueue hactive (hlocks _).1 (hlocks _).2]
    · rw [hother₂ k fun queue p h => hkey ⟨queue, p, h⟩,
        hother₁ k fun queue p h => hkey ⟨queue, p, h⟩]

/-! ## Pass after pass -/

/-- What is due shrinks by a batch. -/
theorem Batch.dueCount_erased {k : String} {l : List String} (hbatch : Batch s k now l)
    (ht : ∀ id, (t.zset k).score id = if id ∈ l then none else (s.zset k).score id) :
    dueCount t k now = dueCount s k now - 1000 := by
  have hdisjoint : ∀ id ∈ (t.zset k).rangeByScore (.ofInt 0) now, id ∉ l := by
    intro id hid hl
    obtain ⟨d, hd, -⟩ := SortedSet.mem_rangeByScore.mp hid
    rw [ht, if_pos hl] at hd
    cases hd
  have hperm : ((t.zset k).rangeByScore (.ofInt 0) now ++ l).Perm
      ((s.zset k).rangeByScore (.ofInt 0) now) := by
    refine (List.perm_ext_iff_of_nodup ?_ (SortedSet.nodup_rangeByScore _ _ _)).mpr fun id => ?_
    · exact List.nodup_append.mpr ⟨SortedSet.nodup_rangeByScore _ _ _, hbatch.nodup,
        fun a ha b hb hab => hdisjoint a ha (hab ▸ hb)⟩
    · rw [List.mem_append, SortedSet.mem_rangeByScore, SortedSet.mem_rangeByScore, ht]
      by_cases hl : id ∈ l
      · simpa [hl] using hbatch.due id hl
      · simp [hl]
  have hlength := hperm.length_eq
  have hbound := hbatch.length
  rw [List.length_append] at hlength
  simp only [dueCount] at hbound ⊢
  omega

theorem dueCount_congr {k : String} (h : t.zset k = s.zset k) :
    dueCount t k now = dueCount s k now := by
  rw [dueCount, h]
  rfl

/-- A pass of the housekeeper. -/
inductive Pass
  | timeouts (scan : Redis.Scan)
  | locks (scan : Redis.Scan)

def Pass.scan : Pass → Redis.Scan
  | .timeouts scan => scan
  | .locks scan => scan

def Pass.isTimeouts : Pass → Bool
  | .timeouts _ => true
  | .locks _ => false

/-- Complete a pass at a fixed time. -/
def Pass.step (cache : RedisCache) (now : Time) (s : Redis) : Pass → Unit × Redis
  | .timeouts scan =>
      ((), (exec (processTimeoutMessages cache scan (fun _ => false) fun _ _ => now) s).2)
  | .locks scan =>
      ((), (exec (processLockPool cache scan (fun _ _ => false) false fun _ _ _ => now) s).2)

theorem Pass.step_spec (hplain : RedisCache.PlainPrefix cache) (hs : cache.Tidy s) {pass : Pass}
    {signed : Bool} (hscan : pass.scan.Globs signed) (now : Time) :
    cache.Tidy (pass.step cache now s).2 ∧
    (∀ queue, dueCount (pass.step cache now s).2 (cache.key queue .processing) (nowMs now) =
      dueCount s (cache.key queue .processing) (nowMs now) -
        1000 * if pass.isTimeouts then 1 else 0) ∧
    ∀ lockType queue,
      dueCount (pass.step cache now s).2 (cache.key queue (.lock lockType)) (nowMs now) =
        dueCount s (cache.key queue (.lock lockType)) (nowMs now) -
          1000 * if pass.isTimeouts then 0 else 1 := by
  cases pass with
  | timeouts scan =>
    obtain ⟨l, results, t, hrun, hout, ht⟩ := processTimeoutMessages_spec hplain hs hscan now
    have hstep : (Pass.step cache now s (.timeouts scan)).2 = t := congrArg Prod.snd hrun
    rw [hstep]
    refine ⟨ht, fun queue => ?_, fun lockType queue => ?_⟩
    · exact (hout.batch queue).dueCount_erased (hout.processing queue)
    · exact dueCount_congr (hout.others _ fun queue' => by simp)
  | locks scan =>
    obtain ⟨l, results, t, hrun, hout, ht⟩ := processLockPool_spec hplain hs hscan now
    have hstep : (Pass.step cache now s (.locks scan)).2 = t := congrArg Prod.snd hrun
    rw [hstep]
    refine ⟨ht, fun queue => ?_, fun lockType queue => ?_⟩
    · exact dueCount_congr (hout.others _ fun queue' => by simp)
    · exact (hout.batch lockType queue).dueCount_erased (hout.lock lockType queue)

/-- Every pass takes a batch off what is due in each of its pools. -/
theorem dueCount_run (hplain : RedisCache.PlainPrefix cache) {now : Time}
    {tr : List (Pass × Unit)} (hrun : Run (ofStep (Pass.step cache now)) s tr t)
    (hs : cache.Tidy s) {signed : Bool} (hscan : ∀ c ∈ tr, c.1.scan.Globs signed) :
    (∀ queue, dueCount t (cache.key queue .processing) (nowMs now) =
      dueCount s (cache.key queue .processing) (nowMs now) -
        1000 * tr.countP fun c => c.1.isTimeouts) ∧
    ∀ lockType queue, dueCount t (cache.key queue (.lock lockType)) (nowMs now) =
      dueCount s (cache.key queue (.lock lockType)) (nowMs now) -
        1000 * tr.countP fun c => !c.1.isTimeouts := by
  induction hrun with
  | nil s => exact ⟨fun _ => rfl, fun _ _ => rfl⟩
  | @cons s u t pass r tr hstep hrest ih =>
    obtain ⟨hpass, hscan'⟩ := List.forall_mem_cons.mp hscan
    obtain ⟨hu, hprocessing, hlock⟩ := Pass.step_spec hplain hs hpass now
    rw [show (pass.step cache now s).2 = u from congrArg Prod.snd hstep] at hu hprocessing hlock
    obtain ⟨ihprocessing, ihlock⟩ := ih hu hscan'
    refine ⟨fun queue => ?_, fun lockType queue => ?_⟩
    · rw [ihprocessing, hprocessing, List.countP_cons]
      omega
    · rw [ihlock, hlock, List.countP_cons]
      cases pass.isTimeouts
      · simp; omega
      · simp

/-- Nothing is due once there have been enough passes. -/
theorem not_due_of_dueCount {k : String} (h : dueCount s k now = 0) {id : String} {d : Number}
    (hd : (s.zset k).score id = some d) : ¬(.ofInt 0 ≤ d ∧ d ≤ now) := by
  intro hbounds
  have hmem : id ∈ (s.zset k).rangeByScore (.ofInt 0) now :=
    SortedSet.mem_rangeByScore.mpr ⟨d, hd, hbounds⟩
  rw [List.length_eq_zero_iff.mp h] at hmem
  cases hmem

end Housekeeper

variable {ι : Type} [LinearOrder ι]

/-- The stores answer commands one after the other. -/
def Stores.commands (stores : Stores ι) : Machine (World ι) Command Unit := fun w c _ w' =>
  (stores.handle c w).2 = w'

/-- Whatever is asked of the stores, Redis stays tidy. -/
theorem tidy_commands {stores : Stores ι} {tr : List (Command × Unit)} {w₀ w : World ι}
    (hrun : Run stores.commands w₀ tr w) (h₀ : w₀.redis = Redis.empty) :
    stores.cache.Tidy w.redis := by
  have hstep : ∀ (w : World ι) (c : Command) (r : Unit) (w' : World ι),
      stores.commands w c r w' → True → stores.cache.Tidy w.redis → stores.cache.Tidy w'.redis := by
    rintro w c _ w' rfl - hw
    cases c with
    | cache op =>
      have hcall : (exec (stores.cache.call op) w.redis).2 =
          (exec (stores.cache.perform op) w.redis).2 := by
        rw [stores.cache.call_eq_perform, exec_map]
      change stores.cache.Tidy (exec (stores.cache.perform op) w.redis).2
      exact hcall ▸ hw.call op
    | cacheSet key value => exact hw.set key value
    | _ => exact hw
  exact hrun.invariant hstep (fun _ _ => trivial) (h₀ ▸ RedisCache.tidy_empty)

open Housekeeper in
/-- In every state that the stores reach, a pass over the processing pools or over the lock
pools moves exactly the due messages, up to a thousand for each pool, and nothing else; and
when only passes happen, as many as there are batches in the fullest pool leave nothing due. -/
theorem due_released_and_drained (stores : Stores ι)
    (hplain : RedisCache.PlainPrefix stores.cache) {tr : List (Command × Unit)} {w₀ w : World ι}
    (h₀ : w₀.redis = Redis.empty) (hrun : Run stores.commands w₀ tr w) (signed : Bool)
    (now : Time) :
    (∀ scan : Redis.Scan, scan.Globs signed → ∃ l results t,
      exec (processTimeoutMessages stores.cache scan (fun _ => false) fun _ _ => now) w.redis =
        (.ok results, t) ∧ TimedOut stores.cache now w.redis t l results) ∧
    (∀ scan : Redis.Scan, scan.Globs signed → ∃ l results t,
      exec (processLockPool stores.cache scan (fun _ _ => false) false fun _ _ _ => now) w.redis =
        (.ok results, t) ∧ Unlocked stores.cache now w.redis t l results) ∧
    ∀ (passes : List (Pass × Unit)) (t : Redis),
      Run (ofStep (Pass.step stores.cache now)) w.redis passes t →
      (∀ c ∈ passes, c.1.scan.Globs signed) → ∀ kmax : ℕ,
        ((∀ queue,
            dueCount w.redis (stores.cache.key queue .processing) (nowMs now) ≤ kmax) →
          kmax ⌈/⌉ 1000 ≤ passes.countP (fun c => c.1.isTimeouts) →
          ∀ queue id d, (t.zset (stores.cache.key queue .processing)).score id = some d →
            ¬(.ofInt 0 ≤ d ∧ d ≤ nowMs now)) ∧
        ((∀ lockType queue,
            dueCount w.redis (stores.cache.key queue (.lock lockType)) (nowMs now) ≤ kmax) →
          kmax ⌈/⌉ 1000 ≤ passes.countP (fun c => !c.1.isTimeouts) →
          ∀ lockType queue id d,
            (t.zset (stores.cache.key queue (.lock lockType))).score id = some d →
            ¬(.ofInt 0 ≤ d ∧ d ≤ nowMs now)) := by
  have htidy := tidy_commands hrun h₀
  refine ⟨fun scan hscan => ?_, fun scan hscan => ?_, fun passes t hpasses hscan kmax => ?_⟩
  · obtain ⟨l, results, t, hpass, hout, -⟩ := processTimeoutMessages_spec hplain htidy hscan now
    exact ⟨l, results, t, hpass, hout⟩
  · obtain ⟨l, results, t, hpass, hout, -⟩ := processLockPool_spec hplain htidy hscan now
    exact ⟨l, results, t, hpass, hout⟩
  · obtain ⟨hprocessing, hlock⟩ := dueCount_run hplain hpasses htidy hscan
    have hpos : 0 < 1000 := by decide
    refine ⟨fun hmax hcount queue id d hd => ?_, fun hmax hcount lockType queue id d hd => ?_⟩
    · refine not_due_of_dueCount ?_ hd
      have hle := (ceilDiv_le_iff_le_mul hpos).mp hcount
      have hq := hmax queue
      rw [hprocessing]
      omega
    · refine not_due_of_dueCount ?_ hd
      have hle := (ceilDiv_le_iff_le_mul hpos).mp hcount
      have hq := hmax lockType queue
      rw [hlock]
      omega

/-- A call on one queue leaves the pools of the others as they are. -/
theorem zset_handle_cache {stores : Stores ι} {w : World ι} {op : Op} {queue : String}
    (h : queue ≠ op.queue) (p : RedisCache.Pool) :
    (stores.handle (.cache op) w).2.redis.zset (stores.cache.key queue p) =
      w.redis.zset (stores.cache.key queue p) := by
  have hslot : RedisCache.Slot.zset (stores.cache.key queue p) ∉ stores.cache.slots op.queue := by
    rintro ⟨p', hp⟩
    exact h (stores.cache.key_inj.mp (RedisCache.Slot.zset.inj hp)).1.symm
  have hcall : (exec (stores.cache.call op) w.redis).2 =
      (stores.handle (.cache op) w).2.redis := by
    rw [stores.cache.call_eq_perform, exec_map]
    rfl
  rw [← hcall]
  exact Sum.inl.inj ((RedisCache.within_call op).writes w.redis _ hslot)

/-- Two messages are added and pulled. -/
def twoPulled : World ℕ :=
  let messages : List Message := [{ id := "a", queue := "q", score := .ofInt 5 },
    { id := "b", queue := "q", score := .ofInt 6 }]
  let w := (Stores.default.handle (.cache (.insert "q" messages)) World.empty).2
  (Stores.default.handle (.cache (.pullMessages (fun _ => 0) "q" 2 none none 1000)) w).2

theorem run_twoPulled : ∃ tr, Run Stores.default.commands World.empty tr twoPulled :=
  ⟨[(_, ()), (_, ())], .cons rfl (.cons rfl (.nil _))⟩

open Housekeeper in
theorem dueCount_twoPulled (queue : String) :
    dueCount twoPulled.redis (Stores.default.cache.key queue .processing) (nowMs 1000000000) ≤
      2 := by
  by_cases hq : queue = "q"
  · subst hq
    decide +kernel
  · have hempty : twoPulled.redis.zset (Stores.default.cache.key queue .processing) =
        SortedSet.empty :=
      (zset_handle_cache hq .processing).trans (zset_handle_cache hq .processing)
    rw [dueCount, hempty]
    decide

open Housekeeper in
theorem due_released_and_drained_pulled :
    ∃ scan : Redis.Scan, scan.Globs true ∧ ∃ l results t,
      exec (processTimeoutMessages Stores.default.cache scan (fun _ => false)
        fun _ _ => 1000000000) twoPulled.redis = (.ok results, t) ∧
      TimedOut Stores.default.cache 1000000000 twoPulled.redis t l results ∧
      (l "q").length = 2 ∧
      ∀ queue id d, (t.zset (Stores.default.cache.key queue .processing)).score id = some d →
        ¬(.ofInt 0 ≤ d ∧ d ≤ nowMs 1000000000) := by
  obtain ⟨scan, hscan⟩ := Redis.Scan.exists_globs true
  obtain ⟨tr, hrun⟩ := run_twoPulled
  have hplain : RedisCache.PlainPrefix Stores.default.cache :=
    Redis.notMem_globCharacters_of_all (by decide)
  obtain ⟨htimeouts, -, hdrained⟩ :=
    due_released_and_drained Stores.default hplain rfl hrun true 1000000000
  obtain ⟨l, results, t, hpass, hout⟩ := htimeouts scan hscan
  have hlength : (l "q").length = 2 := by
    rw [(hout.batch "q").length]
    decide +kernel
  have hpasses : Run (ofStep (Pass.step Stores.default.cache 1000000000)) twoPulled.redis
      [(.timeouts scan, ())] t := by
    have hstep : Pass.step Stores.default.cache 1000000000 twoPulled.redis (.timeouts scan) =
        ((), t) := by
      rw [Pass.step, hpass]
    exact .cons hstep (.nil t)
  have hglobs : ∀ c ∈ [(Pass.timeouts scan, ())], c.1.scan.Globs true :=
    List.forall_mem_singleton.mpr hscan
  exact ⟨scan, hscan, l, results, t, hpass, hout, hlength,
    (hdrained _ t hpasses hglobs 2).1 dueCount_twoPulled (ceilDiv_le_iff_le_mul (by decide) |>.mpr
      (by simp [Pass.isTimeouts]))⟩

end Deckard
