import Deckard.QueueListing
import Deckard.Sharding

/-!
# Cluster mode of the Redis cache

The calls of the cache send their scripts through a client, to one Redis or to a cluster. A
cluster places every key on the master that owns the slot of its hash tag and refuses a script
whose keys are in different slots; listings and flushes visit all masters. With a prefix without
braces and queues that have a name, a cluster answers every run of the cache as one Redis does.
-/
namespace Deckard.RedisCluster

open Binary64 Effect Cache Runs RedisScripts RedisCache

/-- The masters of a cluster, and the one that owns each slot. Slots are computed from hash
tags. -/
structure Topology (ν : Type) where
  slot : String → ℕ
  owner : ℕ → ν
  masters : List ν
  nodup : masters.Nodup
  complete : ∀ n, n ∈ masters

namespace Topology

variable {ν : Type} (topology : Topology ν)

def slotOf (key : String) : ℕ := topology.slot (hashTag key)

def home (key : String) : ν := topology.owner (topology.slotOf key)

/-- All keys are in the slot of the first one. -/
def oneSlot (key : String) (others : List String) : Bool :=
  others.all fun other => topology.slotOf other == topology.slotOf key

/-- `DEL` on a node of a cluster. -/
def del : List String → Eff Redis CommandError Unit
  | [] => pure ()
  | key :: others =>
      if topology.oneSlot key others then RedisCache.del (key :: others) else throw .crossSlot

variable [DecidableEq ν]

/-- The client of a cluster. A script is sent to the master of its first key. -/
def client : RedisClient (ν → Redis) CommandError where
  eval key others script :=
    if topology.oneSlot key others then onNode (topology.home key) (wrap .node script)
    else throw .crossSlot

end Topology

section Masters

variable {ν : Type} [DecidableEq ν]

/-- A listing visits the masters in the given order. -/
def listQueues (scan : Redis.Scan) (order : List ν) (cache : RedisCache) (pattern : String)
    (poolType : PoolType) : Eff (ν → Redis) (CacheErrorOf CommandError) (List String) := do
  let data ← wrap (fun e => .listingAcrossShards (.node e))
    (forEachNode order (scanKeys scan (cache.key pattern poolType.pool)))
  return cache.queueNames poolType data.flatten

/-- An error is only logged. -/
def Topology.flush (topology : Topology ν) (scan : Redis.Scan) (order : List ν)
    (cache : RedisCache) : Eff (ν → Redis) RedisError Unit := do
  let _ ← (attempt (forEachNode order (deleteByPattern topology.del scan cache.flushPattern)) :
    Eff (ν → Redis) RedisError _)
  return ()

end Masters

/-! ## Requests to the cache -/

inductive Request
  | call (op : Op)
  | isProcessing (queue id : String)
  | get (key : String)
  | set (key value : String)
  | listQueues (pattern : String) (poolType : PoolType)
  | flush

/-- The queue whose pools a request works on. -/
def Request.queue : Request → Option String
  | .call op => some op.queue
  | .isProcessing queue _ => some queue
  | _ => none

inductive Reply
  | result (r : Result)
  | flag (b : Bool)
  | text (value : String)
  | done
  | queues (names : List String)

/-- How a cache answers with a client, a listing and a flush. -/
def reply {σ ε : Type} (client : RedisClient σ ε) (cache : RedisCache)
    (listQueues : String → PoolType → Eff σ (CacheErrorOf ε) (List String))
    (flush : Eff σ RedisError Unit) : Request → Eff σ (CacheErrorOf ε) Reply
  | .call op => .result <$> client.call cache op
  | .isProcessing queue id => .flag <$> client.isProcessing cache queue id
  | .get key => .text <$> client.get cache key
  | .set key value => (fun _ => .done) <$> client.set cache key value
  | .listQueues pattern poolType => .queues <$> listQueues pattern poolType
  | .flush => (fun _ => .done) <$> attempt flush

/-- One Redis. -/
def single (cache : RedisCache) (scan : Redis.Scan) :
    Machine Redis Request (Except CacheError Reply) :=
  ofStep fun s request =>
    exec (reply .singleNode cache (cache.listQueues scan) (cache.flush scan) request) s

/-- A cluster. The masters finish in any order. -/
def Topology.cluster {ν : Type} [DecidableEq ν] (topology : Topology ν) (cache : RedisCache)
    (scan : Redis.Scan) : Machine (ν → Redis) Request (Except (CacheErrorOf CommandError) Reply) :=
  fun c request answer d => ∃ order, order.Perm topology.masters ∧
    exec (reply topology.client cache (listQueues scan order cache)
      (topology.flush scan order cache) request) c = (answer, d)

/-- Listings may come in different orders. -/
def Reply.Alike : Reply → Reply → Prop
  | .queues names, .queues names' => names.Perm names'
  | r, r' => r = r'

/-- The same answer of a cluster and of one Redis. An error is one of a node. -/
def Alike : Except (CacheErrorOf CommandError) Reply → Except CacheError Reply → Prop
  | .ok r, .ok r' => r.Alike r'
  | .error e, .error e' => e = e'.map .node
  | _, _ => False

theorem alike_mapError (r : Except CacheError Reply) : Alike (r.mapError (.map .node)) r := by
  cases r with
  | error e => rfl
  | ok r =>
    cases r with
    | queues names => exact List.Perm.refl names
    | _ => rfl

/-! ## Texts -/

section Texts

variable {σ τ ε ε' : Type} {client : RedisClient σ ε'} {client' : RedisClient τ ε}
  {cache : RedisCache} {R : σ → τ → Prop} {f : ε → ε'}

/-- The text of a general key. -/
def textSlot (cache : RedisCache) (key : String) : RedisCache.Slot :=
  .str (cache.generalCacheKey key)

theorem simulates_get {key : String} (h : Serves client client' R f {textSlot cache key}) :
    Simulates R (.map f) (client.get cache key) (client'.get cache key) := by
  refine h.wrap (List.forall_mem_singleton.mpr (.inr rfl)) ?_ fun _ => rfl
  refine within_gets (Set.mem_singleton _) fun s t hst => ?_
  exact congrArg (Option.getD · "") (Sum.inr.inj hst)

theorem simulates_set {key : String} (h : Serves client client' R f {textSlot cache key})
    (value : String) :
    Simulates R (.map f) (client.set cache key value) (client'.set cache key value) := by
  refine h.wrap (List.forall_mem_singleton.mpr (.inr rfl)) ?_ fun _ => rfl
  refine within_update (Set.mem_singleton _) (fun s t _ => ?_) fun s k hne => ?_
  · simp [content, textSlot]
  · cases k with
    | zset k => rfl
    | str k =>
      have hk : k ≠ cache.generalCacheKey key := fun he => hne (congrArg RedisCache.Slot.str he)
      simp only [content, Function.update_of_ne hk]

end Texts

/-- Listings agree on keys that are the same in any order and number. -/
theorem queueNames_perm {cache : RedisCache} {poolType : PoolType} {data data' : List String}
    (h : ∀ key, key ∈ data ↔ key ∈ data') :
    (cache.queueNames poolType data).Perm (cache.queueNames poolType data') := by
  rw [List.perm_ext_iff_of_nodup (nodup_queueNames poolType data) (nodup_queueNames poolType data')]
  intro queue
  simp only [mem_queueNames, h]

/-! ## A cluster -/

namespace Topology

variable {ν : Type} {topology : Topology ν} {cache : RedisCache} {signed : Bool}
  {scan : Redis.Scan} {order : List ν} {c d : ν → Redis} {s t : Redis}

/-- The masters hold together what one Redis holds, every key on its own master. -/
def Holds (topology : Topology ν) : (ν → Redis) → Redis → Prop :=
  Spread content (fun slot => topology.home slot.key) (content Redis.empty)

theorem holds_empty : topology.Holds (fun _ => Redis.empty) Redis.empty :=
  ⟨fun _ => rfl, fun _ _ _ => rfl⟩

theorem deletes (topology : Topology ν) : DeletesKeys topology.del := by
  refine ⟨fun keys s => ?_, fun _ _ => rfl⟩
  cases keys with
  | nil => exact .inl (congrArg (Prod.mk _) (del_nil s).symm)
  | cons key others =>
    rw [del, exec_ite]
    split_ifs
    · exact .inl rfl
    · exact .inr rfl

variable [DecidableEq ν]

theorem holds_iff :
    topology.Holds c s ↔ ∀ n k,
      (c n).zset k = (if topology.home k = n then s.zset k else SortedSet.empty) ∧
        (c n).str k = if topology.home k = n then s.str k else none := by
  constructor
  · intro h n k
    by_cases hn : topology.home k = n
    · rw [if_pos hn, if_pos hn, ← hn]
      exact ⟨Sum.inl.inj (h.holds (.zset k)), Sum.inr.inj (h.holds (.str k))⟩
    · rw [if_neg hn, if_neg hn]
      exact ⟨Sum.inl.inj (h.housed n (.zset k) hn), Sum.inr.inj (h.housed n (.str k) hn)⟩
  · intro h
    refine ⟨fun slot => ?_, fun n slot hne => ?_⟩
    · cases slot with
      | zset k => exact congrArg Sum.inl ((h _ k).1.trans (if_pos rfl))
      | str k => exact congrArg Sum.inr ((h _ k).2.trans (if_pos rfl))
    · cases slot with
      | zset k => exact congrArg Sum.inl ((h n k).1.trans (if_neg hne))
      | str k => exact congrArg Sum.inr ((h n k).2.trans (if_neg hne))

theorem Holds.exists_iff (h : topology.Holds c s) {n : ν} {k : String} :
    (c n).Exists k ↔ topology.home k = n ∧ s.Exists k := by
  obtain ⟨hz, hstr⟩ := holds_iff.mp h n k
  by_cases hn : topology.home k = n <;> simp [Redis.Exists, hz, hstr, hn]

theorem Holds.finite (h : topology.Holds c s) (hs : {k | s.Exists k}.Finite) (n : ν) :
    {k | (c n).Exists k}.Finite :=
  hs.subset fun _ hk => (h.exists_iff.mp hk).2

/-- A cluster runs scripts on keys of one slot as one Redis does. -/
theorem client_serves {A : Set RedisCache.Slot}
    (hA : ∀ x ∈ A, ∀ y ∈ A, topology.slotOf x.key = topology.slotOf y.key) :
    Serves topology.client .singleNode topology.Holds .node A := by
  intro α key others script hkeys hscript
  have hslot : ∀ k ∈ key :: others, ∀ x ∈ A, topology.slotOf x.key = topology.slotOf k := by
    intro k hk x hx
    rcases hkeys k hk with hz | hstr
    · exact hA x hx _ hz
    · exact hA x hx _ hstr
  have hone : topology.oneSlot key others = true := by
    refine List.all_eq_true.mpr fun other hother => beq_iff_eq.mpr ?_
    rcases hkeys key List.mem_cons_self with hz | hstr
    · exact (hslot other (List.mem_cons_of_mem _ hother) _ hz).symm
    · exact (hslot other (List.mem_cons_of_mem _ hother) _ hstr).symm
  have heval : topology.client.eval key others script =
      onNode (topology.home key) (wrap .node script) := if_pos hone
  rw [heval]
  exact hscript.onNode _ fun x hx => congrArg topology.owner (hslot key List.mem_cons_self x hx)

theorem client_servesQueue (hpre : cache.Braceless) {queue : String} (hne : queue ≠ "") :
    ServesQueue topology.client .singleNode topology.Holds .node cache queue := by
  intro hqueue
  refine client_serves ?_
  rintro _ ⟨p, rfl⟩ _ ⟨p', rfl⟩
  rw [slotOf, slotOf, Slot.key, Slot.key, hashTag_key hpre hqueue hne,
    hashTag_key hpre hqueue hne]

theorem client_serves_text (key : String) :
    Serves topology.client .singleNode topology.Holds .node {textSlot cache key} :=
  client_serves fun _ hx _ hy => by rw [hx, hy]

theorem Holds.del (h : topology.Holds c s) {keys : List String} {found : ν → List String}
    (hmem : ∀ n k, k ∈ found n ↔ topology.home k = n ∧ k ∈ keys) :
    topology.Holds (fun n => (c n).del (found n)) (s.del keys) := by
  rw [holds_iff] at h ⊢
  intro n k
  obtain ⟨hz, hstr⟩ := h n k
  by_cases hn : topology.home k = n <;> by_cases hk : k ∈ keys <;>
    simp [Redis.del, hmem, hz, hstr, hn, hk]

/-- What the masters find for a pattern is what one Redis finds. -/
theorem Holds.found (h : topology.Holds c s) (hscan : scan.Globs signed)
    (hs : {k | s.Exists k}.Finite)
    (pattern : String) : ∃ (keys : List String) (found : ν → List String),
      scan s pattern = .ok keys ∧ (∀ n, scan (c n) pattern = .ok (found n)) ∧
        ∀ n k, k ∈ found n ↔ topology.home k = n ∧ k ∈ keys := by
  obtain ⟨keys, hkeys, hmem⟩ := hscan s hs pattern
  choose found hfound hmem' using fun n => hscan (c n) (h.finite hs n) pattern
  refine ⟨keys, found, hkeys, hfound, fun n k => ?_⟩
  rw [hmem', hmem, h.exists_iff, and_assoc]

theorem exec_listQueues (cache : RedisCache) (h : topology.Holds c s) (hscan : scan.Globs signed)
    (hs : {k | s.Exists k}.Finite) (horder : order.Perm topology.masters) (pattern : String)
    (poolType : PoolType) : ∃ names names',
      exec (listQueues scan order cache pattern poolType) c = (.ok names, c) ∧
        exec (cache.listQueues scan pattern poolType) s = (.ok names', s) ∧ names.Perm names' := by
  obtain ⟨keys, found, hkeys, hfound, hmem⟩ := h.found hscan hs (cache.key pattern poolType.pool)
  have hall : ∀ n, n ∈ order := fun n => horder.mem_iff.mpr (topology.complete n)
  have hone : ∀ n, exec (scanKeys scan (cache.key pattern poolType.pool)) (c n) =
      (.ok (found n), c n) := fun n => exec_scanKeys (hfound n)
  have heach := exec_forEachNode (horder.nodup_iff.mpr topology.nodup) hall
    fun n => congrArg Prod.fst (hone n)
  simp only [hone] at heach
  refine ⟨cache.queueNames poolType (order.map found).flatten, _, ?_,
    exec_listQueues_of_scan hkeys, queueNames_perm fun k => ?_⟩
  · rw [listQueues, exec_bind, exec_wrap_ok heach, andThen_ok]
    rfl
  · simp only [List.mem_flatten, List.mem_map, exists_exists_and_eq_and, hmem]
    constructor
    · rintro ⟨n, -, -, hk⟩
      exact hk
    · intro hk
      exact ⟨topology.home k, hall _, rfl, hk⟩

theorem exec_flush (cache : RedisCache) (h : topology.Holds c s) (hscan : scan.Globs signed)
    (hs : {k | s.Exists k}.Finite) (horder : order.Perm topology.masters) : ∃ d t,
      exec (topology.flush scan order cache) c = (.ok (), d) ∧
        exec (cache.flush scan) s = (.ok (), t) ∧ topology.Holds d t := by
  obtain ⟨keys, found, hkeys, hfound, hmem⟩ := h.found hscan hs cache.flushPattern
  have hone : ∀ n, exec (deleteByPattern topology.del scan cache.flushPattern) (c n) =
      (.ok (), (c n).del (uniqStrings (found n))) := fun n =>
    topology.deletes.exec_deleteByPattern (hfound n)
  have heach := exec_forEachNode (horder.nodup_iff.mpr topology.nodup)
    (fun n => horder.mem_iff.mpr (topology.complete n)) fun n => congrArg Prod.fst (hone n)
  simp only [hone] at heach
  refine ⟨fun n => (c n).del (uniqStrings (found n)), _, ?_, exec_flush_of_scan hkeys,
    h.del fun n k => ?_⟩
  · rw [flush, exec_bind, exec_attempt, andThen_ok, heach]
    rfl
  · rw [(uniqStrings_spec _).2, (uniqStrings_spec _).2, hmem]

/-- What a request does in a cluster, it does in one Redis. -/
theorem cluster_step (hpre : cache.Braceless) (hscan : scan.Globs signed) (h : topology.Holds c s)
    (hs : {k | s.Exists k}.Finite) {request : Request} (hname : request.queue ≠ some "")
    {answer : Except (CacheErrorOf CommandError) Reply}
    (hstep : topology.cluster cache scan c request answer d) :
    ∃ answer' t, single cache scan s request answer' t ∧ Alike answer answer' ∧
      topology.Holds d t := by
  obtain ⟨order, horder, hexec⟩ := hstep
  have hsim : ∀ {x : Eff (ν → Redis) (CacheErrorOf CommandError) Reply}
      {y : Eff Redis CacheError Reply},
      Simulates topology.Holds (.map .node) x y → exec x c = (answer, d) →
        ∃ answer' t, exec y s = (answer', t) ∧ Alike answer answer' ∧ topology.Holds d t := by
    intro x y hxy hx
    obtain ⟨hr, ht⟩ := hxy c s h
    rw [hx] at hr ht
    exact ⟨_, _, rfl, (show answer = _ from hr) ▸ alike_mapError _, ht⟩
  cases request with
  | call op =>
    exact hsim ((simulates_call (client_servesQueue hpre fun hempty =>
      hname (congrArg some hempty))).map _) hexec
  | isProcessing queue id =>
    exact hsim ((simulates_isProcessing (client_servesQueue hpre fun hempty =>
      hname (congrArg some hempty)) id).map _) hexec
  | get key => exact hsim ((simulates_get (client_serves_text key)).map _) hexec
  | set key value => exact hsim ((simulates_set (client_serves_text key) value).map _) hexec
  | listQueues pattern poolType =>
    obtain ⟨names, names', hnames, hnames', hperm⟩ :=
      exec_listQueues cache h hscan hs horder pattern poolType
    rw [reply, exec_map, hnames] at hexec
    cases hexec
    refine ⟨.ok (.queues names'), s, ?_, hperm, h⟩
    rw [single, ofStep, reply, exec_map, hnames']
    rfl
  | flush =>
    obtain ⟨d', t, hd, ht, hholds⟩ := exec_flush cache h hscan hs horder
    rw [reply, exec_map, exec_attempt, hd] at hexec
    cases hexec
    refine ⟨.ok .done, t, ?_, rfl, hholds⟩
    rw [single, ofStep, reply, exec_map, exec_attempt, ht]
    rfl

end Topology

theorem isProcessing_keeps (cache : RedisCache) (queue id : String) (s : Redis) :
    (exec (cache.isProcessing queue id) s).2 = s := by
  rw [RedisCache.isProcessing, RedisClient.isProcessing, validateQueueName, exec_bind, exec_ite]
  split_ifs
  · rfl
  · rw [exec_pure, andThen_ok, RedisClient.containsElement, exec_wrap]
    rfl

theorem tidy_single {cache : RedisCache} {signed : Bool} {scan : Redis.Scan}
    (hscan : scan.Globs signed) {s t : Redis} (hs : cache.Tidy s) {request : Request}
    {answer : Except CacheError Reply} (hstep : single cache scan s request answer t) :
    cache.Tidy t := by
  obtain rfl : (exec (reply .singleNode cache (cache.listQueues scan) (cache.flush scan)
    request) s).2 = t := congrArg Prod.snd hstep
  cases request with
  | call op =>
    rw [reply, exec_map]
    exact hs.call op
  | isProcessing queue id =>
    rw [reply, exec_map]
    exact (isProcessing_keeps cache queue id s).symm ▸ hs
  | get key => exact hs
  | set key value =>
    rw [reply, exec_map]
    exact hs.set key value
  | listQueues pattern poolType =>
    obtain ⟨keys, hkeys, -⟩ := hscan s hs.finite (cache.key pattern poolType.pool)
    rw [reply, exec_map, exec_listQueues_of_scan hkeys]
    exact hs
  | flush =>
    rw [reply, exec_map, exec_attempt]
    exact hs.serve hscan .flush

/-- What a run of requests does in a cluster, it does in one Redis. -/
theorem Topology.cluster_run {ν : Type} [DecidableEq ν] {topology : Topology ν}
    {cache : RedisCache} (hpre : cache.Braceless) {signed : Bool} {scan : Redis.Scan}
    (hscan : scan.Globs signed)
    {tr : List (Request × Except (CacheErrorOf CommandError) Reply)} {c d : ν → Redis}
    (hrun : Run (topology.cluster cache scan) c tr d) (hnames : ∀ e ∈ tr, e.1.queue ≠ some "")
    {s : Redis} (h : topology.Holds c s) (hs : cache.Tidy s) :
    ∃ tr' t, Run (single cache scan) s tr' t ∧
      List.Forall₂ (fun e e' => e.1 = e'.1 ∧ Alike e.2 e'.2) tr tr' ∧ topology.Holds d t := by
  induction hrun generalizing s with
  | nil c => exact ⟨[], s, .nil s, .nil, h⟩
  | @cons c d _ request answer tr hstep _ ih =>
    obtain ⟨hname, hnames⟩ := List.forall_mem_cons.mp hnames
    obtain ⟨answer', t, hsingle, halike, hd⟩ :=
      cluster_step hpre hscan h hs.finite hname hstep
    obtain ⟨tr', u, hrun', hall, hu⟩ := ih hnames hd (tidy_single hscan hs hsingle)
    exact ⟨(request, answer') :: tr', u, .cons hsingle hrun', .cons ⟨rfl, halike⟩ hall, hu⟩

/-- A cluster answers every run of requests on queues with names as one Redis does: with the same
values, listings in some order and errors, and none of them about slots. At the end every key
is on its own master with what the one Redis has under it. -/
theorem cluster_refines_single {ν : Type} [DecidableEq ν] (topology : Topology ν)
    {cache : RedisCache} (hpre : cache.Braceless) {signed : Bool} {scan : Redis.Scan}
    (hscan : scan.Globs signed)
    {tr : List (Request × Except (CacheErrorOf CommandError) Reply)} {c : ν → Redis}
    (hrun : Run (topology.cluster cache scan) (fun _ => Redis.empty) tr c)
    (hnames : ∀ e ∈ tr, e.1.queue ≠ some "") :
    ∃ tr' s, Run (single cache scan) Redis.empty tr' s ∧
      List.Forall₂ (fun e e' => e.1 = e'.1 ∧ Alike e.2 e'.2) tr tr' ∧
      ∀ n k, (c n).zset k = (if topology.home k = n then s.zset k else SortedSet.empty) ∧
        (c n).str k = if topology.home k = n then s.str k else none := by
  obtain ⟨tr', s, hrun', hall, hc⟩ :=
    Topology.cluster_run hpre hscan hrun hnames Topology.holds_empty tidy_empty
  exact ⟨tr', s, hrun', hall, Topology.holds_iff.mp hc⟩

/-- Two masters, of which one owns the even slots. -/
def twoMasters : Topology Bool where
  slot := String.length
  owner slot := slot % 2 == 0
  masters := [false, true]
  nodup := by decide
  complete := by decide

/-- Messages for a queue on each of two masters, and requests to both masters. -/
def twoQueues : List Request :=
  [.call (oneQueue "q"), .call (oneQueue "qq"), .set recoveryRunning "true",
    .call (.pullMessages (fun _ => 0) "q" 1 none none 0), .listQueues "*" .primaryPool, .flush]

theorem cluster_refines_single_twoQueues :
    let cache := configured ""
    twoMasters.home (cache.activePool "q") ≠ twoMasters.home (cache.activePool "qq") ∧
    ∃ scan : Redis.Scan, scan.Globs true ∧ ∃ tr c, tr.map Prod.fst = twoQueues ∧
      Run (twoMasters.cluster cache scan) (fun _ => Redis.empty) tr c ∧
      ∃ tr' s, Run (single cache scan) Redis.empty tr' s ∧
        List.Forall₂ (fun e e' => e.1 = e'.1 ∧ Alike e.2 e'.2) tr tr' := by
  intro cache
  obtain ⟨scan, hscan⟩ := Redis.Scan.exists_globs true
  let order := twoMasters.masters
  let step : (Bool → Redis) → Request →
      Except (CacheErrorOf CommandError) Reply × (Bool → Redis) := fun c request =>
    exec (reply twoMasters.client cache (listQueues scan order cache)
      (twoMasters.flush scan order cache) request) c
  have hrun : Run (twoMasters.cluster cache scan) (fun _ => Redis.empty)
      (play step (fun _ => Redis.empty) twoQueues).1
      (play step (fun _ => Redis.empty) twoQueues).2 := by
    have hstep : ∀ c request answer d, ofStep step c request answer d → True →
        twoMasters.cluster cache scan c request answer d := fun _ _ _ _ h _ => ⟨_, .refl _, h⟩
    exact (run_play step _ twoQueues).mono hstep fun _ _ => trivial
  have hnames : ∀ request ∈ twoQueues, request.queue ≠ some "" := by decide
  obtain ⟨tr', s, hsingle, halike, -⟩ := cluster_refines_single twoMasters
    (show hasHashTag cache.configuredPrefix = false by decide +kernel) hscan hrun
    (forall_mem_play step _ hnames)
  exact ⟨by decide +kernel, scan, hscan, _, _, rfl, hrun, tr', s, hsingle, halike⟩

/-- The pools of the empty name have no hash tag in common: where they are in different slots,
a cluster refuses to pull from them, while one Redis finds no messages. -/
theorem pullMessages_unnamed {ν : Type} [DecidableEq ν] {topology : Topology ν}
    {cache : RedisCache}
    (hslots : topology.slotOf (cache.processingPool "") ≠ topology.slotOf (cache.activePool ""))
    (clock : Clock) (n : Int64) (minScore maxScore : Option Float64) (ackDeadlineMs : Int64)
    (c : ν → Redis) :
    exec (topology.client.pullMessages cache clock "" n minScore maxScore ackDeadlineMs) c =
      (.error (.parsingResult .crossSlot), c) := by
  have hcross : topology.oneSlot (cache.activePool "") [cache.processingPool ""] = false := by
    simpa [Topology.oneSlot] using hslots
  have hname : hasHashTag "" = false := by decide
  simp only [RedisClient.pullMessages, validateQueueName, hname, Topology.client, hcross,
    exec_bind, exec_wrap, exec_pure, andThen_ok, exec_throw, Bool.false_eq_true, if_false]
  rfl

end Deckard.RedisCluster
