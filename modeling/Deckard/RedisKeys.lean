import Deckard.Footprint
import Deckard.RedisPlaces

/-!
# Keys of the Redis cache

How a raw key is read back into a queue name, where Redis Cluster places a key, and
which keys a call touches. A key is prefix, opening brace, queue, closing brace, pool
suffix: names without braces can therefore be told from everything around them,
whatever else they contain.
-/
namespace Deckard

open Binary64 Effect Cache Redis RedisScripts

/-- The expression `(.+)suffix$`; `.` stands for any character but a line feed and `$`
for the end of the text. -/
structure SuffixRegex where
  suffix : List Char

namespace SuffixRegex

/-- The group of a match that starts at the first character. -/
def matchAt (regex : SuffixRegex) (text : List Char) : Option (List Char) :=
  let group := text.take (text.length - regex.suffix.length)
  if group ≠ [] ∧ '\n' ∉ group ∧ group ++ regex.suffix = text then some group else none

/-- `ReplaceAllString(text, "$1")`: the leftmost match gives way to its group. A match
reaches the end of the text, so there is no second one. -/
def replaceAll (regex : SuffixRegex) : List Char → List Char
  | [] => []
  | c :: text =>
      match regex.matchAt (c :: text) with
      | some group => group
      | none => c :: regex.replaceAll text

theorem matchAt_eq_some {regex : SuffixRegex} {text group : List Char} :
    regex.matchAt text = some group ↔
      group ≠ [] ∧ '\n' ∉ group ∧ group ++ regex.suffix = text := by
  constructor
  · intro h
    simp only [matchAt] at h
    split_ifs at h with hc
    cases h
    exact hc
  · rintro ⟨hne, hline, rfl⟩
    have htake : (group ++ regex.suffix).take
        ((group ++ regex.suffix).length - regex.suffix.length) = group := by
      rw [List.length_append, Nat.add_sub_cancel, List.take_left]
    rw [matchAt, htake]
    exact if_pos ⟨hne, hline, rfl⟩

/-- A character that is no line feed before the suffix is enough for a match, wherever
that match starts. -/
theorem replaceAll_append {regex : SuffixRegex} {c : Char} (hc : c ≠ '\n') (text : List Char) :
    regex.replaceAll (text ++ c :: regex.suffix) = text ++ [c] := by
  induction text with
  | nil =>
    have hmatch : regex.matchAt (c :: regex.suffix) = some [c] :=
      matchAt_eq_some.mpr ⟨by simp, by simpa using hc.symm, rfl⟩
    rw [List.nil_append, replaceAll, hmatch]
    rfl
  | cons d text ih =>
    rw [List.cons_append, replaceAll]
    cases hmatch : regex.matchAt (d :: (text ++ c :: regex.suffix)) with
    | none => rw [ih, List.cons_append]
    | some group =>
      have heq : group ++ regex.suffix = (d :: text ++ [c]) ++ regex.suffix := by
        rw [(matchAt_eq_some.mp hmatch).2.2]
        simp
      exact List.append_cancel_right heq

end SuffixRegex

namespace RedisCache

def processingPoolRegex : SuffixRegex := ⟨":tmp".toList⟩

def lockAckPoolRegex : SuffixRegex := ⟨":lock_ack".toList⟩

def lockNackPoolRegex : SuffixRegex := ⟨":lock_nack".toList⟩

def lockPoolRegex : LockType → SuffixRegex
  | .lockAck => lockAckPoolRegex
  | .lockNack => lockNackPoolRegex

def trimPrefix (text start : List Char) : List Char :=
  if start.isPrefixOf text then text.drop start.length else text

def unwrapClusterHashTag (queue : List Char) : List Char :=
  if queue.length < 2 ∨ queue.head? ≠ some '\x7b' ∨ queue.getLast? ≠ some '\x7d' then queue
  else (queue.drop 1).take (queue.length - 2)

variable (cache : RedisCache)

/-- Converts a raw key back into a plain queue name. -/
def parseQueueKey (key : String) (suffixRegex : Option SuffixRegex) : String :=
  let queue := trimPrefix key.toList cache.poolPrefix.toList
  let queue := suffixRegex.elim queue fun regex => regex.replaceAll queue
  String.ofList (unwrapClusterHashTag queue)

/-- Redis Cluster hashes what is between the first opening brace and the next closing
one, and the whole key if there is no such text. -/
def hashTag (key : String) : String :=
  match key.toList.dropWhile (· ≠ '\x7b') with
  | [] => key
  | _ :: rest =>
      let tag := rest.takeWhile (· ≠ '\x7d')
      if '\x7d' ∈ rest ∧ tag ≠ [] then String.ofList tag else key

/-- The queue name passes the validation. -/
def Accepts (queue : String) : Prop :=
  ∀ s, exec (validateQueueName queue : Eff Redis CacheError Unit) s = (.ok (), s)

theorem accepts_iff {queue : String} : Accepts queue ↔ hasHashTag queue = false := by
  constructor
  · intro h
    cases hb : hasHashTag queue with
    | false => rfl
    | true =>
      have herr := exec_validateQueueName_braces hb (s := Redis.empty)
      rw [h] at herr
      cases herr
  · intro h s
    exact exec_validateQueueName h

theorem notMem_of_hasHashTag {text : String} (h : hasHashTag text = false) :
    '\x7b' ∉ text.toList ∧ '\x7d' ∉ text.toList := by
  simp only [hasHashTag, List.any_eq_false, Bool.or_eq_true, beq_iff_eq, not_or] at h
  exact ⟨fun hm => (h _ hm).1 rfl, fun hm => (h _ hm).2 rfl⟩

section Decoding

variable {cache}

theorem trimPrefix_append (start text : List Char) : trimPrefix (start ++ text) start = text := by
  rw [trimPrefix, if_pos (List.isPrefixOf_iff_prefix.mpr (List.prefix_append _ _)), List.drop_left]

theorem unwrapClusterHashTag_braces (queue : List Char) :
    unwrapClusterHashTag ('\x7b' :: (queue ++ ['\x7d'])) = queue := by
  have hlast : ('\x7b' :: (queue ++ ['\x7d'])).getLast? = some '\x7d' := by
    rw [← List.cons_append, List.getLast?_concat]
  have hcond : ¬(('\x7b' :: (queue ++ ['\x7d'])).length < 2 ∨
      ('\x7b' :: (queue ++ ['\x7d'])).head? ≠ some '\x7b' ∨
      ('\x7b' :: (queue ++ ['\x7d'])).getLast? ≠ some '\x7d') := by
    rw [hlast]
    simp
  rw [unwrapClusterHashTag, if_neg hcond]
  simp

theorem toList_key_eq (queue : String) (p : Pool) :
    (cache.key queue p).toList =
      cache.poolPrefix.toList ++ '\x7b' :: (queue.toList ++ '\x7d' :: p.suffix) := by
  rw [toList_key]
  simp

theorem parseQueueKey_activePool (queue : String) :
    cache.parseQueueKey (cache.activePool queue) none = queue := by
  have hkey := cache.toList_key_eq queue .active
  simp only [parseQueueKey, Option.elim_none]
  rw [show cache.activePool queue = cache.key queue .active from rfl, hkey, trimPrefix_append,
    Pool.suffix, unwrapClusterHashTag_braces, String.ofList_toList]

/-- Every pool with a suffix is read back through the expression of that suffix. -/
theorem parseQueueKey_key {queue : String} {p : Pool} {regex : SuffixRegex}
    (hregex : regex.suffix = p.suffix) :
    cache.parseQueueKey (cache.key queue p) (some regex) = queue := by
  have hreplace : regex.replaceAll ('\x7b' :: (queue.toList ++ '\x7d' :: p.suffix)) =
      '\x7b' :: (queue.toList ++ ['\x7d']) := by
    rw [← hregex, ← List.cons_append, SuffixRegex.replaceAll_append (by decide)]
    rfl
  simp only [parseQueueKey, Option.elim_some]
  rw [toList_key_eq, trimPrefix_append, hreplace, unwrapClusterHashTag_braces,
    String.ofList_toList]

theorem parseQueueKey_processingPool (queue : String) :
    cache.parseQueueKey (cache.processingPool queue) (some processingPoolRegex) = queue :=
  parseQueueKey_key (p := .processing) rfl

theorem parseQueueKey_lockPool (queue : String) (lockType : LockType) :
    cache.parseQueueKey (cache.lockPool queue lockType) (some (lockPoolRegex lockType)) =
      queue := by
  refine parseQueueKey_key (p := .lock lockType) ?_
  cases lockType <;> decide

end Decoding

section HashTag

variable {cache}

theorem hashTag_key (hpre : hasHashTag cache.configuredPrefix = false) {queue : String}
    (hq : hasHashTag queue = false) (hne : queue ≠ "") (p : Pool) :
    hashTag (cache.key queue p) = queue := by
  have hpool : '\x7b' ∉ cache.poolPrefix.toList := by
    rw [poolPrefix, String.toList_append, List.mem_append, not_or]
    exact ⟨(notMem_of_hasHashTag hpre).1, by decide⟩
  have hdrop : (cache.key queue p).toList.dropWhile (· ≠ '\x7b') =
      '\x7b' :: (queue.toList ++ '\x7d' :: p.suffix) := by
    rw [toList_key_eq, List.dropWhile_append_of_pos, List.dropWhile_cons_of_neg (by simp)]
    exact fun c hc => decide_eq_true fun he => hpool (he ▸ hc)
  have htake : (queue.toList ++ '\x7d' :: p.suffix).takeWhile (· ≠ '\x7d') = queue.toList := by
    rw [List.takeWhile_append_of_pos, List.takeWhile_cons_of_neg (by simp), List.append_nil]
    exact fun c hc => decide_eq_true fun he => (notMem_of_hasHashTag hq).2 (he ▸ hc)
  have hqueue : queue.toList ≠ [] := fun hnil => hne (String.toList_inj.mp hnil)
  rw [hashTag, hdrop]
  simp only [htake]
  rw [if_pos ⟨by simp, hqueue⟩, String.ofList_toList]

end HashTag

/-- A general key continues with a brace where a pool key continues with a letter. -/
theorem key_ne_generalCacheKey (queue k : String) (p : Pool) :
    cache.key queue p ≠ cache.generalCacheKey k := by
  intro h
  have hl := congrArg String.toList h
  rw [toList_key_eq, poolPrefix, generalCacheKey] at hl
  simp only [String.toList_append, List.append_assoc, List.append_cancel_left_eq] at hl
  exact absurd (congrArg (fun l => l[1]?) hl) (by simp)

/-! ## What a call touches -/

/-- A key can hold a sorted set or a text. -/
inductive Slot
  | zset (key : String)
  | str (key : String)

def Slot.key : Slot → String
  | .zset key => key
  | .str key => key

def content (s : Redis) : Slot → ZSet ⊕ Option String
  | .zset key => .inl (s.zset key)
  | .str key => .inr (s.str key)

/-- The sorted sets of a queue. -/
def slots (queue : String) : Set Slot := Set.range fun p => Slot.zset (cache.key queue p)

section Footprints

variable {A : Set Slot} {k source destination : String}

theorem within_unpack (n : ℕ) : Within content A (unpack n) :=
  within_ite (within_pure ()) (within_throw _)

theorem within_luaInteger (n : ℤ) : Within content A (luaInteger n) :=
  within_ite (within_pure n) (within_throw _)

/-- A command that reads one sorted set. -/
theorem within_zset {α : Type} (hk : .zset k ∈ A) (f : ZSet → α) :
    Within content A (gets fun s => f (s.zset k) : Script α) := by
  refine within_gets hk fun s t h => ?_
  rw [Sum.inl.inj h]

theorem within_zscore (hk : .zset k ∈ A) (member : String) : Within content A (zscore k member) :=
  within_zset hk (·.score member)

/-- A command that rewrites one sorted set. -/
theorem within_setZ {α : Type} (hk : .zset k ∈ A) (f : ZSet → α) (g : ZSet → ZSet) :
    Within content A (update fun s => (f (s.zset k), s.setZ k (g (s.zset k))) : Script α) := by
  refine within_update hk (fun s t h => ?_) fun s k' hne => ?_
  · have hz : s.zset k = t.zset k := Sum.inl.inj h
    simp only [content, zset_setZ, if_true, hz, and_self]
  · cases k' with
    | str key => rfl
    | zset key =>
      have hkey : key ≠ k := fun he => hne (he ▸ rfl)
      simp only [content, zset_setZ, if_neg hkey]

theorem within_zadd (hk : .zset k ∈ A) (pairs : List (Float64 × String)) :
    Within content A (zadd k pairs) := by
  refine within_ite (within_throw _) ?_
  cases parseScores pairs with
  | none => exact within_throw _
  | some ps => exact within_setZ hk (·.createdCount ps) (·.addAll ps)

theorem within_zrem (hk : .zset k ∈ A) (members : List String) :
    Within content A (zrem k members) :=
  within_ite (within_throw _) (within_setZ hk (·.deletedCount members) (·.eraseAll members))

theorem within_zrange (hk : .zset k ∈ A) (start stop : ℤ) :
    Within content A (zrange k start stop) :=
  within_zset hk fun z => slice start stop z.members

theorem within_zrangeByScore (hk : .zset k ∈ A) (lo hi : Float64) (count : ℤ) :
    Within content A (zrangeByScore k lo hi count) := by
  rcases lo with _ | lo
  · exact within_throw _
  · rcases hi with _ | hi
    · exact within_throw _
    · exact within_zset hk fun z => limit count (z.rangeByScore lo hi)

theorem within_zrevrangeByScore (hk : .zset k ∈ A) (hi lo : Float64) (count : ℤ) :
    Within content A (zrevrangeByScore k hi lo count) := by
  rcases hi with _ | hi
  · exact within_throw _
  · rcases lo with _ | lo
    · exact within_throw _
    · exact within_zset hk fun z => limit count (z.revRangeByScore hi lo)

theorem within_removeElementScript {pools : List String} (hpools : ∀ pool ∈ pools, .zset pool ∈ A)
    (ids : List String) : Within content A (removeElementScript pools ids) :=
  (within_mapM fun pool hpool => (within_unpack _).bind fun _ =>
    within_zrem (hpools pool hpool) ids).bind fun _ => within_pure _

theorem within_moveElementScript (hd : .zset destination ∈ A) (hs : .zset source ∈ A)
    (score : Float64) (id : String) :
    Within content A (moveElementScript destination source score id) :=
  (within_zrem hs [id]).bind fun _ => within_ite (within_zadd hd _) (within_pure 0)

theorem within_lockElementScript {active lock lockScore : String} (ha : .zset active ∈ A)
    (hl : .zset lock ∈ A) (hs : .zset lockScore ∈ A) (score : Float64) (id : String)
    (resultScore : Float64) :
    Within content A (lockElementScript active lock lockScore score id resultScore) :=
  (within_zrem ha [id]).bind fun _ => within_ite
    ((within_zadd hl _).bind fun _ => within_ite (within_pure _) (within_zadd hs _))
    (within_pure 0)

theorem within_addElementsScript {others : List String} (hd : .zset destination ∈ A)
    (hothers : ∀ pool ∈ others, .zset pool ∈ A) (elements : List (Float64 × String)) :
    Within content A (addElementsScript destination others elements) := by
  have hpools : ∀ pool ∈ destination :: others, Slot.zset pool ∈ A :=
    List.forall_mem_cons.mpr ⟨hd, hothers⟩
  refine (within_filterM fun e => ?_).bind fun toInsert => ?_
  · refine (within_anyM fun pool hpool => ?_).bind fun _ => within_pure _
    exact (within_zscore (hpools pool hpool) e.2).bind fun _ => within_pure _
  · refine within_ite (within_pure _) ((within_unpack _).bind fun _ => ?_)
    exact (within_zadd hd toInsert).bind fun _ => within_pure _

theorem within_moveAll (hd : .zset destination ∈ A) (hs : .zset source ∈ A) (newScore : Float64)
    (elements : List String) :
    Within content A (moveAll destination source newScore elements) := by
  refine within_ite (within_pure []) ((within_forM fun key => ?_).bind fun _ => ?_)
  · exact (within_zadd hd _).bind fun _ => within_pure _
  · exact (within_unpack _).bind fun _ => (within_zrem hs _).bind fun _ => within_pure _

theorem within_unlockElementsScript {lock lockScore : String} (hl : .zset lock ∈ A)
    (hd : .zset destination ∈ A) (hs : .zset lockScore ∈ A) (count : ℤ)
    (now defaultScore : Float64) :
    Within content A (unlockElementsScript lock destination lockScore count now defaultScore) := by
  refine (within_zrevrangeByScore hl _ _ _).bind fun elements => ?_
  refine within_ite (within_pure []) ((within_mapM fun key _ => ?_).bind fun bulkData => ?_)
  · exact (within_zscore hs key).bind fun _ => within_pure _
  · refine (within_unpack _).bind fun _ => (within_zadd hd _).bind fun _ => ?_
    refine (within_unpack _).bind fun _ => (within_zrem hl _).bind fun _ => ?_
    exact (within_unpack _).bind fun _ => (within_zrem hs _).bind fun _ => within_pure _

theorem within_selectElements (hs : .zset source ∈ A) (n : ℤ) (minScore maxScore : Option Float64) :
    Within content A (selectElements source n minScore maxScore) :=
  within_ite ((within_luaInteger _).bind fun _ => within_zrange hs _ _)
    (within_zrangeByScore hs _ _ _)

end Footprints

section Calls

variable {cache} {σ τ ε ε' : Type} {client : RedisClient σ ε'} {client' : RedisClient τ ε}
  {R : σ → τ → Prop} {f : ε → ε'} {A : Set Slot}

theorem key_mem_slots (queue : String) (p : Pool) :
    .zset (cache.key queue p) ∈ cache.slots queue :=
  Set.mem_range_self p

theorem disjoint_slots {queue queue' : String} (hne : queue ≠ queue') :
    ∀ slot ∈ cache.slots queue, slot ∉ cache.slots queue' := by
  rintro x ⟨p, rfl⟩ ⟨p', h⟩
  exact hne (cache.key_inj.mp (Slot.zset.inj h)).1.symm

/-- One client runs the scripts that stay within some slots, and are called with keys of them,
as another one does. -/
def Serves (client : RedisClient σ ε') (client' : RedisClient τ ε) (R : σ → τ → Prop)
    (f : ε → ε') (A : Set Slot) : Prop :=
  ∀ (α : Type) (key : String) (others : List String) (script : Script α),
    (∀ k ∈ key :: others, .zset k ∈ A ∨ .str k ∈ A) → Within content A script →
      Simulates R f (client.eval key others script) (client'.eval key others script)

theorem Serves.wrap (h : Serves client client' R f A) {α : Type} {key : String}
    {others : List String} {script : Script α} {g : ε' → CacheErrorOf ε'} {k : ε → CacheErrorOf ε}
    (hkeys : ∀ k ∈ key :: others, .zset k ∈ A ∨ .str k ∈ A) (hscript : Within content A script)
    (hfit : ∀ e, g (f e) = (k e).map f) :
    Simulates R (.map f) (Effect.wrap g (client.eval key others script))
      (Effect.wrap k (client'.eval key others script)) :=
  (h α key others script hkeys hscript).wrap hfit

/-- The same for the pools of a queue, if its name is accepted. -/
def ServesQueue (client : RedisClient σ ε') (client' : RedisClient τ ε) (R : σ → τ → Prop)
    (f : ε → ε') (cache : RedisCache) (queue : String) : Prop :=
  hasHashTag queue = false → Serves client client' R f (cache.slots queue)

/-- Scripts are only run on queues with accepted names. -/
theorem simulates_validated {α : Type} (queue : String) {x : Eff σ (CacheErrorOf ε') α}
    {y : Eff τ (CacheErrorOf ε) α} (h : hasHashTag queue = false → Simulates R (.map f) x y) :
    Simulates R (.map f) (validateQueueName queue >>= fun _ => x)
      (validateQueueName queue >>= fun _ => y) := by
  rw [validateQueueName, validateQueueName]
  cases hq : hasHashTag queue with
  | true => exact fun _ _ hR => ⟨rfl, hR⟩
  | false => exact (simulates_pure ()).bind fun _ => h hq

theorem pools_mem_slots {queue : String} (pools : List Pool) :
    ∀ k ∈ pools.map (cache.key queue),
      .zset k ∈ cache.slots queue ∨ .str k ∈ cache.slots queue := by
  intro k hk
  obtain ⟨p, -, rfl⟩ := List.mem_map.mp hk
  exact .inl (key_mem_slots queue p)

theorem simulates_insert {queue : String} (h : ServesQueue client client' R f cache queue)
    (messages : List Message) :
    Simulates R (.map f) (client.insert cache queue messages)
      (client'.insert cache queue messages) := by
  refine simulates_validated queue fun hq => ?_
  refine simulates_ite (fun _ => simulates_throw rfl) fun _ => ?_
  refine (simulates_mapM fun part _ => (h hq).wrap ?_ ?_ fun _ => rfl).bind
    fun _ => simulates_pure _
  · exact pools_mem_slots [.active, .lock .lockNack, .lock .lockAck, .processing]
  · refine within_addElementsScript (key_mem_slots queue .active) (fun pool hpool => ?_) _
    obtain ⟨p, -, rfl⟩ := List.mem_map.mp (show pool ∈ [Pool.lock .lockNack, .lock .lockAck,
      .processing].map (cache.key queue) from hpool)
    exact key_mem_slots queue p

theorem simulates_remove {queue : String} (h : ServesQueue client client' R f cache queue)
    (ids : List String) :
    Simulates R (.map f) (client.remove cache queue ids) (client'.remove cache queue ids) := by
  refine simulates_validated queue fun hq => ?_
  refine (simulates_mapM fun part _ => (h hq).wrap ?_ ?_ fun _ => rfl).bind
    fun _ => simulates_pure _
  · exact pools_mem_slots [.active, .processing, .lock .lockAck, .lock .lockNack,
      .lockScore .lockAck, .lockScore .lockNack]
  · refine within_removeElementScript (fun pool hpool => ?_) part
    obtain ⟨p, -, rfl⟩ := List.mem_map.mp (show pool ∈ [Pool.active, .processing, .lock .lockAck,
      .lock .lockNack, .lockScore .lockAck, .lockScore .lockNack].map (cache.key queue) from hpool)
    exact key_mem_slots queue p

theorem simulates_pullMessages {queue : String} (h : ServesQueue client client' R f cache queue)
    (clock : Clock) (n : Int64) (minScore maxScore : Option Float64) (ackDeadlineMs : Int64) :
    Simulates R (.map f) (client.pullMessages cache clock queue n minScore maxScore ackDeadlineMs)
      (client'.pullMessages cache clock queue n minScore maxScore ackDeadlineMs) := by
  refine simulates_validated queue fun hq => (h hq).wrap ?_ ?_ fun _ => rfl
  · exact pools_mem_slots [.active, .processing]
  · exact (within_selectElements (key_mem_slots queue .active) _ _ _).bind fun _ =>
      within_moveAll (key_mem_slots queue .processing) (key_mem_slots queue .active) _ _

theorem simulates_makeAvailable {message : Message}
    (h : ServesQueue client client' R f cache message.queue) :
    Simulates R (.map f) (client.makeAvailable cache message)
      (client'.makeAvailable cache message) := by
  refine simulates_ite (fun _ => simulates_throw rfl) fun _ => ?_
  refine simulates_validated message.queue fun hq => ?_
  refine ((h hq).wrap ?_ ?_ fun _ => rfl).bind fun _ => simulates_pure _
  · exact pools_mem_slots [.active, .processing]
  · exact within_moveElementScript (key_mem_slots message.queue .active)
      (key_mem_slots message.queue .processing) _ _

theorem simulates_lockMessage {message : Message}
    (h : ServesQueue client client' R f cache message.queue) (clock : Clock) (lockType : LockType) :
    Simulates R (.map f) (client.lockMessage cache clock message lockType)
      (client'.lockMessage cache clock message lockType) := by
  refine simulates_ite (fun _ => simulates_throw rfl) fun _ => ?_
  refine simulates_validated message.queue fun hq => ?_
  refine simulates_ite (fun _ => simulates_throw rfl) fun _ => ?_
  refine ((h hq).wrap ?_ ?_ fun _ => rfl).bind fun _ => simulates_pure _
  · exact pools_mem_slots [.processing, .lock lockType, .lockScore lockType]
  · exact within_lockElementScript (key_mem_slots message.queue .processing)
      (key_mem_slots message.queue (.lock lockType))
      (key_mem_slots message.queue (.lockScore lockType)) _ _ _

theorem simulates_unlockMessages {queue : String} (h : ServesQueue client client' R f cache queue)
    (clock : Clock) (lockType : LockType) :
    Simulates R (.map f) (client.unlockMessages cache clock queue lockType)
      (client'.unlockMessages cache clock queue lockType) := by
  refine simulates_validated queue fun hq => (h hq).wrap ?_ ?_ fun _ => rfl
  · exact pools_mem_slots [.lock lockType, .active, .lockScore lockType]
  · exact within_unlockElementsScript (key_mem_slots queue (.lock lockType))
      (key_mem_slots queue .active) (key_mem_slots queue (.lockScore lockType)) _ _ _

theorem simulates_timeoutMessages {queue : String} (h : ServesQueue client client' R f cache queue)
    (clock : Clock) :
    Simulates R (.map f) (client.timeoutMessages cache clock queue)
      (client'.timeoutMessages cache clock queue) := by
  refine simulates_validated queue fun hq => (h hq).wrap ?_ ?_ fun _ => rfl
  · exact pools_mem_slots [.active, .processing]
  · exact (within_zrevrangeByScore (key_mem_slots queue .processing) _ _ _).bind fun _ =>
      within_moveAll (key_mem_slots queue .active) (key_mem_slots queue .processing) _ _

/-- Two clients that run the scripts of a queue alike answer the calls on it alike. -/
theorem simulates_call {op : Op} (h : ServesQueue client client' R f cache op.queue) :
    Simulates R (.map f) (client.call cache op) (client'.call cache op) := by
  cases op with
  | insert queue messages => exact (simulates_insert h messages).map _
  | pullMessages clock queue n minScore maxScore ackDeadlineMs =>
    exact (simulates_pullMessages h clock n minScore maxScore ackDeadlineMs).map _
  | makeAvailable message => exact (simulates_makeAvailable h).map _
  | lockMessage clock message lockType => exact (simulates_lockMessage h clock lockType).map _
  | unlockMessages clock queue lockType => exact (simulates_unlockMessages h clock lockType).map _
  | timeoutMessages clock queue => exact (simulates_timeoutMessages h clock).map _
  | remove queue ids => exact (simulates_remove h ids).map _

theorem simulates_isProcessing {queue : String} (h : ServesQueue client client' R f cache queue)
    (id : String) :
    Simulates R (.map f) (client.isProcessing cache queue id)
      (client'.isProcessing cache queue id) := by
  refine simulates_validated queue fun hq => (h hq).wrap ?_ ?_ fun _ => rfl
  · exact pools_mem_slots [.processing]
  · exact (within_zscore (key_mem_slots queue .processing) id).bind fun _ => within_pure _

/-! ## The footprint of a call -/

theorem serves_singleNode (A : Set Slot) (s₀ t₀ : Redis) :
    Serves RedisClient.singleNode RedisClient.singleNode (Shares content A s₀ t₀) id A :=
  fun _ _ _ _ _ hscript => within_iff_simulates.mp hscript s₀ t₀

/-- Every call stays within the sorted sets of its queue. -/
theorem within_call (op : Op) : Within content (cache.slots op.queue) (cache.call op) :=
  within_iff_simulates.mpr fun s₀ t₀ =>
    CacheErrorOf.map_id ▸ simulates_call fun _ => serves_singleNode _ s₀ t₀

theorem within_unlockMessages (clock : Clock) (queue : String) (lockType : LockType) :
    Within content (cache.slots queue) (cache.unlockMessages clock queue lockType) :=
  within_iff_simulates.mpr fun s₀ t₀ =>
    CacheErrorOf.map_id ▸ simulates_unlockMessages (fun _ => serves_singleNode _ s₀ t₀) clock
      lockType

theorem within_timeoutMessages (clock : Clock) (queue : String) :
    Within content (cache.slots queue) (cache.timeoutMessages clock queue) :=
  within_iff_simulates.mpr fun s₀ t₀ =>
    CacheErrorOf.map_id ▸ simulates_timeoutMessages (fun _ => serves_singleNode _ s₀ t₀) clock

theorem within_isProcessing (queue id : String) :
    Within content (cache.slots queue) (cache.isProcessing queue id) :=
  within_iff_simulates.mpr fun s₀ t₀ =>
    CacheErrorOf.map_id ▸ simulates_isProcessing (fun _ => serves_singleNode _ s₀ t₀) id

end Calls

/-- The keys of a queue name that the validation accepts are told apart from all other
keys, are read back, share a hash tag, and are the only ones that a call on the queue
reads or writes. -/
theorem key_scheme_unambiguous (hpre : hasHashTag cache.configuredPrefix = false) {queue : String}
    (hqueue : Accepts queue) :
    (∀ (queue' : String) (p p' : Pool), Accepts queue' →
      cache.key queue p = cache.key queue' p' → queue = queue' ∧ p = p') ∧
    (∀ (p : Pool) (k : String), cache.key queue p ≠ cache.generalCacheKey k) ∧
    cache.parseQueueKey (cache.activePool queue) none = queue ∧
    cache.parseQueueKey (cache.processingPool queue) (some processingPoolRegex) = queue ∧
    cache.parseQueueKey (cache.lockPool queue .lockAck) (some lockAckPoolRegex) = queue ∧
    cache.parseQueueKey (cache.lockPool queue .lockNack) (some lockNackPoolRegex) = queue ∧
    (queue ≠ "" → ∀ p, hashTag (cache.key queue p) = queue) ∧
    (∀ op : Op, op.queue = queue → Within content (cache.slots queue) (cache.call op)) ∧
    (∀ id, Within content (cache.slots queue) (cache.isProcessing queue id)) ∧
    (∀ x ∈ cache.slots queue, ∀ (queue' : String) (p : Pool), queue' ≠ queue →
      x.key ≠ cache.key queue' p) ∧
    (queue ≠ "" → ∀ x ∈ cache.slots queue, ∀ y ∈ cache.slots queue,
      hashTag x.key = hashTag y.key) := by
  have hq := accepts_iff.mp hqueue
  have htag : queue ≠ "" → ∀ p, hashTag (cache.key queue p) = queue :=
    fun hne p => hashTag_key hpre hq hne p
  refine ⟨fun _ _ _ _ h => cache.key_inj.mp h, fun p k => cache.key_ne_generalCacheKey queue k p,
    parseQueueKey_activePool queue, parseQueueKey_processingPool queue,
    parseQueueKey_lockPool queue .lockAck, parseQueueKey_lockPool queue .lockNack, htag,
    fun op hop => hop ▸ within_call op, within_isProcessing queue, ?_, ?_⟩
  · rintro x ⟨p, rfl⟩ queue' p' hne h
    exact hne (cache.key_inj.mp h).1.symm
  · rintro hne x ⟨p, rfl⟩ y ⟨p', rfl⟩
    exact (htag hne p).trans (htag hne p').symm

theorem key_scheme_unambiguous_suffixed :
    let cache : RedisCache := ⟨"deckard"⟩
    let queue := "a:\n:lock_ack:tmp"
    hasHashTag cache.configuredPrefix = false ∧ Accepts queue ∧
      cache.parseQueueKey (cache.processingPool queue) (some processingPoolRegex) = queue ∧
      ∀ p, hashTag (cache.key queue p) = queue := by
  intro cache queue
  have hpre : hasHashTag cache.configuredPrefix = false := by decide
  have hqueue : Accepts queue := accepts_iff.mpr (by decide)
  obtain ⟨-, -, -, hprocessing, -, -, htag, -⟩ := key_scheme_unambiguous cache hpre hqueue
  exact ⟨hpre, hqueue, hprocessing, htag (by decide)⟩

end RedisCache

end Deckard
