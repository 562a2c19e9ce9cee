import Deckard.Glob
import Deckard.RedisKeys
import Deckard.RedisRefinement
import Deckard.Utf8
import Mathlib.Data.Set.Finite.Basic

/-!
# Listing the queues of the Redis cache

`ListQueues` scans the key space for a glob pattern and reads queue names back from the
raw keys. In the states that the cache reaches, every sorted set belongs to a pool of a
queue whose name the validation accepts; there the listing gives exactly the queues whose
pool has members, each of them once.
-/
namespace Deckard

open Effect Cache Glob Utf8

namespace Redis

/-- A key exists while there is something under it. -/
def Exists (s : Redis) (k : String) : Prop := s.zset k ≠ SortedSet.empty ∨ s.str k ≠ none

/-- Whether a key matches a pattern. Redis compares the bytes of the two. -/
def globs (signed : Bool) (pattern k : String) : Bool :=
  Glob.globs signed (bytes pattern.toList) (bytes k.toList)

/-- The characters with a meaning in a pattern. -/
def globCharacters : List Char := "*?[]\\".toList

/-- The keys that a complete iteration of `SCAN` returns for a pattern, or an error. -/
abbrev Scan := Redis → String → Except RedisError (List String)

/-- A complete iteration of `SCAN` returns every existing key that matches at least once, and no
other key. Whether the bytes in classes are compared with a sign is left to the platform. -/
def Scan.Globs (signed : Bool) (scan : Scan) : Prop :=
  ∀ s : Redis, {k | s.Exists k}.Finite → ∀ pattern, ∃ keys, scan s pattern = .ok keys ∧
    ∀ k, k ∈ keys ↔ s.Exists k ∧ globs signed pattern k = true

theorem Scan.exists_globs (signed : Bool) : ∃ scan : Scan, scan.Globs signed := by
  classical
  refine ⟨fun s pattern => if h : {k | s.Exists k}.Finite then
    .ok (h.toFinset.toList.filter fun k => globs signed pattern k) else .ok [],
    fun s hs pattern => ⟨_, dif_pos hs, fun k => ?_⟩⟩
  rw [List.mem_filter, Finset.mem_toList, Set.Finite.mem_toFinset]
  rfl

theorem notMem_globCharacters_of_all {l : List Char}
    (h : (l.all fun c => decide (c ∉ globCharacters)) = true) : ∀ c ∈ l, c ∉ globCharacters := by
  intro c hc
  exact of_decide_eq_true (List.all_eq_true.mp h c hc)

/-- The special bytes of a text are its special characters. -/
theorem plain_bytes {chars : List Char} (hchars : special.all (bytes chars).contains = true)
    {text : List Char} (h : ∀ c ∈ text, c ∉ chars) : ∀ b ∈ bytes text, b ∉ special := by
  intro b hb hspecial
  have hmem : b ∈ bytes chars := List.contains_iff_mem.mp (List.all_eq_true.mp hchars b hspecial)
  obtain ⟨c, hc, hcode⟩ := exists_of_mem_bytes (special_low hspecial) hb
  obtain ⟨d, hd, hcode'⟩ := exists_of_mem_bytes (special_low hspecial) hmem
  obtain rfl : c = d := encode_injective (hcode.trans hcode'.symm)
  exact h c hc hd

theorem plain_of_globCharacters {text : List Char} (h : ∀ c ∈ text, c ∉ globCharacters) :
    ∀ b ∈ bytes text, b ∉ special :=
  plain_bytes (by decide +kernel) h

end Redis

namespace RedisCache

/-- The values in the order of their first occurrences. -/
def uniqStrings (values : List String) : List String :=
  values.foldl (fun result value => if value ∈ result then result else result ++ [value]) []

theorem uniqStrings_spec (values : List String) :
    (uniqStrings values).Nodup ∧ ∀ v, v ∈ uniqStrings values ↔ v ∈ values := by
  suffices haux : ∀ result : List String, result.Nodup →
      (values.foldl (fun result value => if value ∈ result then result else result ++ [value])
        result).Nodup ∧
      ∀ v, v ∈ values.foldl (fun result value => if value ∈ result then result
        else result ++ [value]) result ↔ v ∈ result ∨ v ∈ values by
    obtain ⟨hnodup, hmem⟩ := haux [] List.nodup_nil
    exact ⟨hnodup, fun v => by rw [uniqStrings, hmem]; simp⟩
  induction values with
  | nil => exact fun result h => ⟨h, by simp⟩
  | cons value values ih =>
    intro result hresult
    rw [List.foldl_cons]
    split_ifs with hseen
    · obtain ⟨hnodup, hmem⟩ := ih result hresult
      refine ⟨hnodup, fun v => ?_⟩
      rw [hmem, List.mem_cons]
      constructor
      · rintro (h | h)
        · exact .inl h
        · exact .inr (.inr h)
      · rintro (h | rfl | h)
        · exact .inl h
        · exact .inl hseen
        · exact .inr h
    · obtain ⟨hnodup, hmem⟩ := ih (result ++ [value])
        (List.nodup_append.mpr ⟨hresult, List.nodup_singleton _, by
          rintro a ha b hb rfl
          exact hseen (List.mem_singleton.mp hb ▸ ha)⟩)
      refine ⟨hnodup, fun v => ?_⟩
      rw [hmem, List.mem_append, List.mem_singleton, List.mem_cons, or_assoc]

/-- The pools that can be listed. -/
inductive PoolType
  | primaryPool
  | processingPool
  | lockAckPool
  | lockNackPool
  deriving DecidableEq, Repr

def PoolType.pool : PoolType → Pool
  | .primaryPool => .active
  | .processingPool => .processing
  | .lockAckPool => .lock .lockAck
  | .lockNackPool => .lock .lockNack

def PoolType.regex : PoolType → Option SuffixRegex
  | .primaryPool => none
  | .processingPool => some processingPoolRegex
  | .lockAckPool => some lockAckPoolRegex
  | .lockNackPool => some lockNackPoolRegex

def filterQueueSuffix (data : List String) : List String :=
  let suffixes := [":tmp", ":lock_ack", ":lock_nack", ":lock_nack:score", ":lock_ack:score"]
  data.filter fun queue => suffixes.all fun suffix => !suffix.toList.isSuffixOf queue.toList

variable (cache : RedisCache)

/-- The names that a listing makes of keys. -/
def queueNames (poolType : PoolType) (data : List String) : List String :=
  let queues := uniqStrings (data.map fun key => cache.parseQueueKey key poolType.regex)
  if poolType = .primaryPool then filterQueueSuffix queues else queues

/-- One iteration over the keys of a node. -/
def scanKeys (scan : Redis.Scan) (pattern : String) : Eff Redis RedisError (List String) := do
  match ← gets fun s => scan s pattern with
  | .error e => throw e
  | .ok keys => pure keys

/-- Lists all queues of a pool whose name matches a pattern. -/
def listQueues (scan : Redis.Scan) (pattern : String) (poolType : PoolType) :
    Eff Redis CacheError (List String) := do
  let data ← wrap .listingQueues (scanKeys scan (cache.key pattern poolType.pool))
  return cache.queueNames poolType data

/-- Every sorted set is a pool of a queue with an accepted name, every text is under a
general key, and there are finitely many of both. -/
structure Tidy (s : Redis) : Prop where
  pools : ∃ queues : List String, (∀ queue ∈ queues, hasHashTag queue = false) ∧
    ∀ k, s.zset k ≠ SortedSet.empty → ∃ queue ∈ queues, ∃ p, k = cache.key queue p
  texts : ∃ names : List String,
    ∀ k, s.str k ≠ none → ∃ name ∈ names, k = cache.generalCacheKey name

variable {cache} {s : Redis}

theorem tidy_empty : cache.Tidy Redis.empty :=
  ⟨⟨[], by simp, fun _ h => absurd rfl h⟩, ⟨[], fun _ h => absurd rfl h⟩⟩

theorem Tidy.finite (hs : cache.Tidy s) : {k | s.Exists k}.Finite := by
  obtain ⟨queues, -, hqueues⟩ := hs.pools
  obtain ⟨names, hnames⟩ := hs.texts
  have hall : ∀ p : Pool, p ∈ [Pool.active, .processing, .lock .lockAck, .lock .lockNack,
      .lockScore .lockAck, .lockScore .lockNack] := by
    rintro (_ | _ | (_ | _) | (_ | _)) <;> simp
  refine (List.finite_toSet (names.map cache.generalCacheKey ++ queues.flatMap fun queue =>
    [Pool.active, .processing, .lock .lockAck, .lock .lockNack, .lockScore .lockAck,
      .lockScore .lockNack].map (cache.key queue))).subset ?_
  rintro k (hz | hstr)
  · obtain ⟨queue, hq, p, rfl⟩ := hqueues k hz
    exact List.mem_append_right _
      (List.mem_flatMap.mpr ⟨queue, hq, List.mem_map.mpr ⟨p, hall p, rfl⟩⟩)
  · obtain ⟨name, hn, rfl⟩ := hnames k hstr
    exact List.mem_append_left _ (List.mem_map.mpr ⟨name, hn, rfl⟩)

theorem Tidy.hasHashTag_of_zset (hs : cache.Tidy s) {queue : String} {p : Pool}
    (h : s.zset (cache.key queue p) ≠ SortedSet.empty) : hasHashTag queue = false := by
  obtain ⟨queues, hnames, hqueues⟩ := hs.pools
  obtain ⟨queue', hq', p', hkey⟩ := hqueues _ h
  rw [(cache.key_inj.mp hkey).1]
  exact hnames queue' hq'

/-- What stays within the sorted sets of an accepted name keeps the state tidy. -/
theorem Tidy.within {ε α : Type} (hs : cache.Tidy s) {queue : String}
    (hq : hasHashTag queue = false) {x : Eff Redis ε α}
    (hx : Within content (cache.slots queue) x) : cache.Tidy (exec x s).2 := by
  obtain ⟨queues, hnames, hqueues⟩ := hs.pools
  obtain ⟨names, htexts⟩ := hs.texts
  refine ⟨⟨queue :: queues, List.forall_mem_cons.mpr ⟨hq, hnames⟩, fun k hk => ?_⟩,
    ⟨names, fun k hk => htexts k ?_⟩⟩
  · by_cases hmem : Slot.zset k ∈ cache.slots queue
    · obtain ⟨p, hp⟩ := hmem
      cases hp
      exact ⟨queue, List.mem_cons_self, p, rfl⟩
    · rw [Sum.inl.inj (hx.writes s (.zset k) hmem)] at hk
      obtain ⟨queue', hq', p, rfl⟩ := hqueues k hk
      exact ⟨queue', List.mem_cons_of_mem _ hq', p, rfl⟩
  · have hmem : Slot.str k ∉ cache.slots queue := by
      rintro ⟨p, hp⟩
      cases hp
    rwa [Sum.inr.inj (hx.writes s (.str k) hmem)] at hk

theorem Tidy.call (hs : cache.Tidy s) (op : Op) : cache.Tidy (exec (cache.call op) s).2 := by
  cases hb : hasHashTag op.queue with
  | false => exact hs.within hb (within_call op)
  | true =>
    have hrejected : ¬ Accepted op := by
      cases op <;> simp_all [Accepted, Op.queue, Insertable, Releasable, Lockable]
    obtain ⟨e, he⟩ : ∃ e, cache.step s op = (.error e, s) := step_rejected hrejected
    have hstep : (cache.step s op).2 = (exec (cache.call op) s).2 := by
      rw [RedisCache.step]
      rcases exec (cache.call op) s with ⟨_ | _, t⟩ <;> rfl
    rw [← hstep, he]
    exact hs

theorem Tidy.set (hs : cache.Tidy s) (key value : String) :
    cache.Tidy (exec (cache.set key value) s).2 := by
  obtain ⟨names, htexts⟩ := hs.texts
  refine ⟨hs.pools, ⟨key :: names, fun k hk => ?_⟩⟩
  by_cases he : k = cache.generalCacheKey key
  · exact ⟨key, List.mem_cons_self, he⟩
  · have hsame : (exec (cache.set key value) s).2.str k = s.str k := by
      simp [RedisCache.set, RedisClient.set, RedisClient.singleNode, exec_wrap, he]
    obtain ⟨name, hn, rfl⟩ := htexts k (hsame ▸ hk)
    exact ⟨name, List.mem_cons_of_mem _ hn, rfl⟩

/-- No character of the prefix has a meaning in a pattern. -/
def PlainPrefix (cache : RedisCache) : Prop :=
  ∀ c ∈ cache.configuredPrefix.toList, c ∉ Redis.globCharacters

theorem Pool.suffix_plain (p : Pool) : ∀ c ∈ p.suffix, c ∉ Redis.globCharacters := by
  apply Redis.notMem_globCharacters_of_all
  rcases p with _ | _ | (_ | _) | (_ | _) <;> decide

/-- The pattern for all queues matches the keys of the pool that it is built for. -/
theorem globs_all {signed : Bool} (hplain : PlainPrefix cache) (p : Pool) (k : String) :
    Redis.globs signed (cache.key "*" p) k = true ↔ ∃ queue, k = cache.key queue p := by
  have hfront : ∀ c ∈ cache.poolPrefix.toList ++ ['\x7b'], c ∉ Redis.globCharacters := by
    rw [poolPrefix, String.toList_append, List.forall_mem_append, List.forall_mem_append]
    exact ⟨⟨hplain, Redis.notMem_globCharacters_of_all (by decide)⟩,
      Redis.notMem_globCharacters_of_all (by decide)⟩
  have hback : ∀ c ∈ '\x7d' :: p.suffix, c ∉ Redis.globCharacters :=
    List.forall_mem_cons.mpr ⟨by decide, p.suffix_plain⟩
  have hpattern : bytes (cache.key "*" p).toList =
      bytes (cache.poolPrefix.toList ++ ['\x7b']) ++ 0x2a :: bytes ('\x7d' :: p.suffix) := by
    rw [toList_key, bytes_append, bytes_append]
    rfl
  rw [Redis.globs, hpattern,
    globs_star (Redis.plain_of_globCharacters hfront) (Redis.plain_of_globCharacters hback)]
  constructor
  · rintro ⟨middle, h⟩
    -- what follows the front is a text, and so is what stands before the closing brace
    obtain ⟨rest, hrest, hbytes⟩ := exists_of_bytes_eq_append h
    obtain ⟨name, c, suffix, rfl, hc, -, hsuffix⟩ :=
      exists_split (b := 0x7d) (by decide) (hbytes.trans rfl)
    obtain rfl : c = '\x7d' := encode_injective (hc.trans (by decide))
    obtain rfl := bytes_injective hsuffix
    refine ⟨String.ofList name, String.toList_inj.mp ?_⟩
    rw [hrest, toList_key, String.toList_ofList]
  · rintro ⟨queue, rfl⟩
    exact ⟨bytes queue.toList, by simp only [toList_key, bytes_append]⟩

theorem parseQueueKey_pool (poolType : PoolType) (queue : String) :
    cache.parseQueueKey (cache.key queue poolType.pool) poolType.regex = queue := by
  cases poolType with
  | primaryPool => exact parseQueueKey_activePool queue
  | processingPool => exact parseQueueKey_processingPool queue
  | lockAckPool => exact parseQueueKey_lockPool queue .lockAck
  | lockNackPool => exact parseQueueKey_lockPool queue .lockNack

/-- The name ends like a key of some pool other than the active one. -/
def hasPoolSuffix (queue : String) : Bool :=
  [":tmp", ":lock_ack", ":lock_nack", ":lock_nack:score", ":lock_ack:score"].any fun suffix =>
    suffix.toList.isSuffixOf queue.toList

theorem mem_filterQueueSuffix {data : List String} {queue : String} :
    queue ∈ filterQueueSuffix data ↔ queue ∈ data ∧ hasPoolSuffix queue = false := by
  rw [filterQueueSuffix, List.mem_filter, hasPoolSuffix, ← Bool.not_eq_true',
    List.not_any_eq_all_not]

theorem nodup_queueNames (poolType : PoolType) (data : List String) :
    (cache.queueNames poolType data).Nodup := by
  have hnodup := (uniqStrings_spec (data.map fun key =>
    cache.parseQueueKey key poolType.regex)).1
  rw [queueNames]
  split_ifs
  · exact hnodup.filter _
  · exact hnodup

theorem mem_queueNames {poolType : PoolType} {data : List String} {queue : String} :
    queue ∈ cache.queueNames poolType data ↔
      (∃ key ∈ data, cache.parseQueueKey key poolType.regex = queue) ∧
        (poolType = .primaryPool → hasPoolSuffix queue = false) := by
  have hmem := (uniqStrings_spec (data.map fun key =>
    cache.parseQueueKey key poolType.regex)).2 queue
  rw [List.mem_map] at hmem
  dsimp only [queueNames]
  by_cases hprimary : poolType = .primaryPool
  · rw [if_pos hprimary, mem_filterQueueSuffix, hmem, forall_prop_of_true hprimary]
  · rw [if_neg hprimary, hmem, forall_prop_of_false hprimary, and_true]

theorem exec_scanKeys {scan : Redis.Scan} {pattern : String} {keys : List String}
    (h : scan s pattern = .ok keys) : exec (scanKeys scan pattern) s = (.ok keys, s) := by
  rw [scanKeys, exec_bind, exec_gets, andThen_ok, h]
  rfl

theorem exec_listQueues_of_scan {scan : Redis.Scan} {pattern : String} {poolType : PoolType}
    {data : List String} (h : scan s (cache.key pattern poolType.pool) = .ok data) :
    exec (cache.listQueues scan pattern poolType) s =
      (.ok (cache.queueNames poolType data), s) := by
  rw [listQueues, exec_bind, exec_wrap_ok (exec_scanKeys h), andThen_ok]
  rfl

/-- In a tidy state a key of a pool exists when the pool has members. -/
theorem Tidy.exists_key (hs : cache.Tidy s) (queue : String) (p : Pool) :
    s.Exists (cache.key queue p) ↔ s.zset (cache.key queue p) ≠ SortedSet.empty := by
  constructor
  · rintro (hz | hstr)
    · exact hz
    · obtain ⟨names, htexts⟩ := hs.texts
      obtain ⟨name, -, hname⟩ := htexts _ hstr
      exact absurd hname (cache.key_ne_generalCacheKey queue name p)
  · exact .inl

/-- What a listing returns that finds the keys of its pool: the queues whose pool has members,
each once, without those that the listing of the active pools drops. -/
theorem Tidy.listQueues_found (hs : cache.Tidy s) {scan : Redis.Scan} {poolType : PoolType}
    {keys : List String} (hkeys : scan s (cache.key "*" poolType.pool) = .ok keys)
    (hmem : ∀ k, k ∈ keys ↔ s.Exists k ∧ ∃ queue, k = cache.key queue poolType.pool) :
    ∃ queues, exec (cache.listQueues scan "*" poolType) s = (.ok queues, s) ∧ queues.Nodup ∧
      ∀ queue, queue ∈ queues ↔ s.zset (cache.key queue poolType.pool) ≠ SortedSet.empty ∧
        (poolType = .primaryPool → hasPoolSuffix queue = false) := by
  refine ⟨_, exec_listQueues_of_scan hkeys, nodup_queueNames poolType keys, fun queue => ?_⟩
  rw [mem_queueNames, ← hs.exists_key]
  apply and_congr_left'
  constructor
  · rintro ⟨k, hk, rfl⟩
    obtain ⟨hexists, queue, rfl⟩ := (hmem k).mp hk
    rwa [parseQueueKey_pool]
  · intro hexists
    exact ⟨_, (hmem _).mpr ⟨hexists, queue, rfl⟩, parseQueueKey_pool poolType queue⟩

/-- In a tidy state the queues of a pool are those whose pool has members, each once. -/
theorem exec_listQueues (hplain : PlainPrefix cache) (hs : cache.Tidy s) {scan : Redis.Scan}
    {signed : Bool} (hscan : scan.Globs signed) {poolType : PoolType}
    (hne : poolType ≠ .primaryPool) :
    ∃ queues, exec (cache.listQueues scan "*" poolType) s = (.ok queues, s) ∧ queues.Nodup ∧
      ∀ queue, queue ∈ queues ↔ s.zset (cache.key queue poolType.pool) ≠ SortedSet.empty := by
  obtain ⟨keys, hkeys, hmem⟩ := hscan s hs.finite (cache.key "*" poolType.pool)
  obtain ⟨queues, hexec, hnodup, hqueues⟩ := hs.listQueues_found hkeys fun k =>
    (hmem k).trans (and_congr_right fun _ => globs_all hplain _ k)
  exact ⟨queues, hexec, hnodup, fun queue => (hqueues queue).trans (and_iff_left fun h =>
    absurd h hne)⟩

end RedisCache

end Deckard
