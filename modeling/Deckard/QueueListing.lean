import Deckard.MemoryCache
import Deckard.RedisNamespaces

/-!
# Queue listings of the two caches

`ListQueues` gives the queues whose pool of some kind has members. The Redis cache reads them
from its keys; the listing of the active pools then drops every name that ends like a key of
another pool, although the pattern does not match such keys any more.
-/
namespace Deckard

open Effect Cache Runs RedisCache

/-- The list of the memory cache that a pool type stands for. -/
def RedisCache.PoolType.memoryPool : PoolType → MemoryPool
  | .primaryPool => .active
  | .processingPool => .processing
  | .lockAckPool => .lock .lockAck
  | .lockNackPool => .lock .lockNack

namespace MemoryCache

variable {c : MemoryCache} {poolType : PoolType} {visit : List String}

/-- Lists the queues in the order in which the runtime visits the map. -/
def listQueues (matchGlob : String → String → Bool) (c : MemoryCache) (visit : List String)
    (pattern : String) (poolType : PoolType) : List String :=
  visit.filter fun queue =>
    matchGlob queue pattern && !(c.pool poolType.memoryPool queue).entries.isEmpty

/-- The visit comes to every queue with a list, once. -/
def Visits (c : MemoryCache) (poolType : PoolType) (visit : List String) : Prop :=
  visit.Nodup ∧ ∀ queue, (c.pool poolType.memoryPool queue).entries ≠ [] → queue ∈ visit

theorem listQueues_spec {matchGlob : String → String → Bool}
    (hglob : ∀ queue, matchGlob queue "*" = true) (hvisit : c.Visits poolType visit) :
    (c.listQueues matchGlob visit "*" poolType).Nodup ∧
      ∀ queue, queue ∈ c.listQueues matchGlob visit "*" poolType ↔
        (c.pool poolType.memoryPool queue).entries ≠ [] := by
  refine ⟨hvisit.1.filter _, fun queue => ?_⟩
  rw [listQueues, List.mem_filter, hglob]
  constructor
  · rintro ⟨-, h⟩
    simpa using h
  · intro h
    exact ⟨hvisit.2 queue h, by simpa using h⟩

end MemoryCache

namespace RedisCache

variable {cache : RedisCache} {signed : Bool} {scan : Redis.Scan} {s : Redis}
  {poolType : PoolType}

/-- The commands that write to Redis: the calls on the pools, `Set` and `Flush`. -/
inductive Command
  | call (op : Op)
  | set (key value : String)
  | flush

def serve (cache : RedisCache) (scan : Redis.Scan) (s : Redis) : Command → Unit × Redis
  | .call op => ((), (exec (cache.call op) s).2)
  | .set key value => ((), (exec (cache.set key value) s).2)
  | .flush => ((), (exec (cache.flush scan) s).2)

theorem Tidy.del (hs : cache.Tidy s) (keys : List String) : cache.Tidy (s.del keys) := by
  obtain ⟨queues, hnames, hqueues⟩ := hs.pools
  obtain ⟨names, htexts⟩ := hs.texts
  refine ⟨⟨queues, hnames, fun k hk => hqueues k ?_⟩, ⟨names, fun k hk => htexts k ?_⟩⟩
  · intro hempty
    exact hk (by simp [Redis.del, hempty])
  · intro hnone
    exact hk (by simp [Redis.del, hnone])

theorem Tidy.serve (hs : cache.Tidy s) (hscan : scan.Globs signed) (command : Command) :
    cache.Tidy (cache.serve scan s command).2 := by
  cases command with
  | call op => exact hs.call op
  | set key value => exact hs.set key value
  | flush =>
    obtain ⟨keys, hflush, -⟩ := exec_flush cache hscan hs.finite
    have hstate : (cache.serve scan s .flush).2 = s.del keys := congrArg Prod.snd hflush
    rw [hstate]
    exact hs.del keys

theorem tidy_run (hscan : scan.Globs signed) {tr : List (Command × Unit)}
    (hrun : Run (ofStep (cache.serve scan)) Redis.empty tr s) : cache.Tidy s := by
  have hstep : ∀ s command r t, ofStep (cache.serve scan) s command r t → True →
      cache.Tidy s → cache.Tidy t := by
    intro s command r t hstep _ hs
    have ht : (cache.serve scan s command).2 = t := congrArg Prod.snd hstep
    exact ht ▸ hs.serve hscan command
  exact hrun.invariant hstep (fun _ _ => trivial) tidy_empty

/-- Among the existing keys, the search pattern of a listing matches those of the pool. -/
def Findable (signed : Bool) (cache : RedisCache) (s : Redis) (poolType : PoolType) : Prop :=
  ∀ k, s.Exists k → (Redis.globs signed (cache.key "*" poolType.pool) k = true ↔
    ∃ queue, k = cache.key queue poolType.pool)

/-- A prefix without special characters can always be searched for. -/
theorem PlainPrefix.findable (hplain : PlainPrefix cache) (s : Redis) (poolType : PoolType) :
    Findable signed cache s poolType :=
  fun k _ => globs_all hplain poolType.pool k

theorem listQueues_spec (hscan : scan.Globs signed) (hs : cache.Tidy s)
    (hfind : Findable signed cache s poolType) :
    ∃ queues, exec (cache.listQueues scan "*" poolType) s = (.ok queues, s) ∧ queues.Nodup ∧
      ∀ queue, queue ∈ queues ↔ s.zset (cache.key queue poolType.pool) ≠ SortedSet.empty ∧
        (poolType = .primaryPool → hasPoolSuffix queue = false) := by
  obtain ⟨keys, hkeys, hmem⟩ := hscan s hs.finite (cache.key "*" poolType.pool)
  exact hs.listQueues_found hkeys fun k => (hmem k).trans (and_congr_right (hfind k))

/-- The listing gives exactly the queues whose pool has members, each once, as that of a memory
cache with the same pools does. -/
def ListsExactly (cache : RedisCache) (scan : Redis.Scan) (matchGlob : String → String → Bool)
    (s : Redis) (poolType : PoolType) : Prop :=
  ∃ queues, exec (cache.listQueues scan "*" poolType) s = (.ok queues, s) ∧ queues.Nodup ∧
    (∀ queue, queue ∈ queues ↔ s.zset (cache.key queue poolType.pool) ≠ SortedSet.empty) ∧
    ∀ (c : MemoryCache) (visit : List String), c.Visits poolType visit →
      (∀ queue, (c.pool poolType.memoryPool queue).entries ≠ [] ↔
        s.zset (cache.key queue poolType.pool) ≠ SortedSet.empty) →
      (c.listQueues matchGlob visit "*" poolType).Perm queues

/-- In every reachable state in which the search pattern finds the keys of the pool, the
listing is exact if and only if it is not one of the active pools of which a queue has a name
that ends like a key of another pool. -/
theorem listQueues_exact_iff (hscan : scan.Globs signed) {matchGlob : String → String → Bool}
    (hglob : ∀ queue, matchGlob queue "*" = true) {tr : List (Command × Unit)}
    (hrun : Run (ofStep (cache.serve scan)) Redis.empty tr s)
    (hfind : Findable signed cache s poolType) :
    ListsExactly cache scan matchGlob s poolType ↔
      (poolType = .primaryPool → ∀ queue,
        s.zset (cache.key queue .active) ≠ SortedSet.empty → hasPoolSuffix queue = false) := by
  obtain ⟨listed, hexec, hnodup, hmem⟩ := listQueues_spec hscan (tidy_run hscan hrun) hfind
  constructor
  · rintro ⟨queues, hqueues, -, hexact, -⟩ rfl queue hne
    rw [hexec] at hqueues
    cases hqueues
    exact ((hmem queue).mp ((hexact queue).mpr hne)).2 rfl
  · intro hnames
    have hexact : ∀ queue, queue ∈ listed ↔
        s.zset (cache.key queue poolType.pool) ≠ SortedSet.empty := by
      intro queue
      rw [hmem]
      refine and_iff_left_of_imp fun hne hprimary => hnames hprimary queue ?_
      rwa [hprimary] at hne
    refine ⟨listed, hexec, hnodup, hexact, fun c visit hvisit hsame => ?_⟩
    obtain ⟨hnodup', hmem'⟩ := MemoryCache.listQueues_spec hglob hvisit
    rw [List.perm_ext_iff_of_nodup hnodup' hnodup]
    intro queue
    rw [hmem', hexact, hsame]

/-- One message is added to a queue. -/
def oneQueue (queue : String) : Op := .insert queue [{ id := "a", queue := queue }]

theorem run_oneQueue (cache : RedisCache) (scan : Redis.Scan) (queue : String) :
    Run (ofStep (cache.serve scan)) Redis.empty [(.call (oneQueue queue), ())]
      (exec (cache.call (oneQueue queue)) Redis.empty).2 :=
  .cons rfl (.nil _)

theorem plainPrefix_default : PlainPrefix (configured "") :=
  Redis.notMem_globCharacters_of_all (by decide +kernel)

theorem globs_any (queue : String) : Redis.globs true "*" queue = true :=
  (@Glob.globs_star true [] [] (by simp) (by simp) _).mpr ⟨Utf8.bytes queue.toList, by simp⟩

theorem listQueues_exact_plainName :
    ∃ scan : Redis.Scan, scan.Globs true ∧ ListsExactly (configured "") scan
      (fun value pattern => Redis.globs true pattern value)
      (exec ((configured "").call (oneQueue "q")) Redis.empty).2 .primaryPool := by
  obtain ⟨scan, hscan⟩ := Redis.Scan.exists_globs true
  refine ⟨scan, hscan, (listQueues_exact_iff hscan globs_any (run_oneQueue _ scan "q")
    (plainPrefix_default.findable _ _)).mpr fun _ queue hne => ?_⟩
  have hq : queue = "q" := by
    by_contra hother
    have hslot : Slot.zset ((configured "").key queue .active) ∉ (configured "").slots "q" := by
      rintro ⟨p, hp⟩
      exact hother ((configured "").key_inj.mp (Slot.zset.inj hp)).1.symm
    exact hne (Sum.inl.inj ((within_call (oneQueue "q")).writes Redis.empty _ hslot))
  rw [hq]
  decide

/-- A queue with the name `orders:tmp` has a message, and the listing of the active pools
leaves it out. -/
theorem listing_drops_suffixed_name :
    ∃ scan : Redis.Scan, scan.Globs true ∧ ∃ tr s,
      Run (ofStep ((configured "").serve scan)) Redis.empty tr s ∧
      ¬ ListsExactly (configured "") scan
        (fun value pattern => Redis.globs true pattern value) s .primaryPool := by
  obtain ⟨scan, hscan⟩ := Redis.Scan.exists_globs true
  have hrun := run_oneQueue (configured "") scan "orders:tmp"
  refine ⟨scan, hscan, _, _, hrun, ?_⟩
  rintro ⟨queues, hqueues, -, hexact, -⟩
  obtain ⟨listed, hexec, -, hmem⟩ := listQueues_spec hscan (tidy_run hscan hrun)
    (plainPrefix_default.findable _ .primaryPool)
  rw [hexec] at hqueues
  cases hqueues
  have hne : (exec ((configured "").call (oneQueue "orders:tmp")) Redis.empty).2.zset
      ((configured "").key "orders:tmp" .active) ≠ SortedSet.empty := by
    intro hempty
    have hscore : ((exec ((configured "").call (oneQueue "orders:tmp")) Redis.empty).2.zset
        ((configured "").key "orders:tmp" .active)).score "a" = some (.ofInt 0) := by
      decide +kernel
    rw [hempty] at hscore
    cases hscore
  exact absurd (((hmem _).mp ((hexact _).mpr hne)).2 rfl) (by decide)

end RedisCache

end Deckard
