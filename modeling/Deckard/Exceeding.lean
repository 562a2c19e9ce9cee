import Deckard.Backends
import Deckard.Configuration
import Deckard.MemoryRefinement
import Deckard.QueryAgreement
import Deckard.RedisRuns
import Deckard.Selection

/-!
# Messages beyond the maximum of a queue

`removeExceedingMessagesFromQueue` counts the messages of a queue, asks the storage for as
many as there are too many, those that expire first, and removes them. `Find` of the memory
storage passes over the messages that have expired, `Count` does not. The results are proved
from what the calls of a storage and of a cache do, and hold for every pair of them.
-/
namespace Deckard

open Effect Cache Program Prog Selection StableSort

variable {ι : Type} {σ ρ : Type}

namespace Queue

/-- The query by which the messages of a queue are counted. -/
def counted (queue : String) : FindOptions where
  internalFilter := some { queue := queue }

def removeExceedingMessagesFromQueue (storage : StorageCalls ι σ) (cache : CacheCalls ρ)
    (queueConfiguration : Option QueueConfiguration) (w : σ × ρ) :
    Except QueueError Unit × (σ × ρ) :=
  match queueConfiguration with
  | none => (.ok (), w)
  | some c =>
      if c.maxElements ≤ 0 ∨ c.queue = "" then (.ok (), w)
      else match storage.count (counted c.queue) w.1 with
        | .error e => (.error (.storage e), w)
        | .ok total =>
            if (total : ℤ) ≤ c.maxElements.toInt then (.ok (), w)
            else
              let diff := total - c.maxElements.toInt
              match storage.find (MemoryStorage.exceeding c.queue diff) w.1 with
              | .error e => (.error (.storage e), w)
              | .ok documents =>
                  (Prog.run (handle storage cache)
                    (remove c.queue (documents.map fun d => d.message.id)) w).map
                      (Except.map fun _ => ()) id

end Queue

/-! ## What the calls do -/

/-- The documents of a storage and those of them that an ordinary `Find` passes over. -/
structure Documented (ι σ : Type) where
  documents : σ → List (Document ι)
  passesOver : Document ι → Bool

namespace Documented

variable (view : Documented ι σ) (queue : String) (s : σ)

/-- The documents of a queue. -/
def ofQueue : List (Document ι) := (view.documents s).filter fun d => d.key.1 = queue

/-- Those that a `Find` returns. -/
def listed : List (Document ι) := (view.ofQueue queue s).filter fun d => !view.passesOver d

def passedOver : List (Document ι) := (view.ofQueue queue s).filter view.passesOver

end Documented

/-- The documents as the calls of a storage count, find and remove them. -/
structure Documented.Describes (view : Documented ι σ) (storage : StorageCalls ι σ) : Prop where
  nodup : ∀ s, ((view.documents s).map Row.key).Nodup
  count : ∀ queue, queue ≠ "" → ∀ s,
    storage.count (Queue.counted queue) s = .ok (view.ofQueue queue s).length
  find : ∀ queue, queue ≠ "" → ∀ n : ℕ, 0 < n → ∀ s, ∃ found,
    storage.find (MemoryStorage.exceeding queue n) s = .ok found ∧
      Picks (fun d => d.value.expiryDate) n (view.listed queue s) found
  remove : ∀ queue ids s, view.documents (storage.remove queue ids s).2 =
    (view.documents s).filter fun d => ¬ (d.key.1 = queue ∧ d.key.2 ∈ ids)

/-- The messages of a cache and the queue names that it refuses. -/
structure Pooled (ρ : Type) where
  InPools : ρ → String → String → Prop
  Refuses : String → Prop

/-- The messages as the calls of a cache remove them. -/
structure Pooled.Describes (view : Pooled ρ) (cache : CacheCalls ρ) : Prop where
  refused : ∀ queue ids c, view.Refuses queue →
    ∃ e, (cache.perform (.remove queue ids) c).1 = .error e
  removed : ∀ queue ids c, ¬ view.Refuses queue →
    ∃ n, (cache.perform (.remove queue ids) c).1 = .ok n ∧
      ∀ id ∈ ids, ¬ view.InPools (cache.perform (.remove queue ids) c).2 queue id

/-- The queue has at most as many messages as its maximum, those that were removed expire no
later than those that were kept, and no pool of the cache has them any more. -/
structure Enforced (storage : StorageCalls ι σ) (documented : Documented ι σ) (pooled : Pooled ρ)
    (c : QueueConfiguration) (before after : σ × ρ) : Prop where
  count : ∃ n : ℕ, storage.count (Queue.counted c.queue) after.1 = .ok n ∧
    (n : ℤ) = min ((documented.ofQueue c.queue before.1).length : ℤ) c.maxElements.toInt
  earliest : ∀ d ∈ documented.documents before.1, d ∉ documented.documents after.1 →
    ∀ d' ∈ documented.ofQueue c.queue after.1, ¬ d'.value.expiryDate < d.value.expiryDate
  pools : ∀ d ∈ documented.documents before.1, d ∉ documented.documents after.1 →
    ¬ pooled.InPools after.2 d.key.1 d.key.2

/-- The stores after messages have been removed from both. -/
def removedFrom (storage : StorageCalls ι σ) (cache : CacheCalls ρ) (queue : String)
    (found : List (Document ι)) (w : σ × ρ) : σ × ρ :=
  ((storage.remove queue (found.map fun d => d.message.id) w.1).2,
    (cache.perform (.remove queue (found.map fun d => d.message.id)) w.2).2)

section Enforced

variable {storage : StorageCalls ι σ} {cache : CacheCalls ρ} {documented : Documented ι σ}
  {pooled : Pooled ρ} {c : QueueConfiguration} {w : σ × ρ} {queue : String}
  {found : List (Document ι)} {n : ℕ}

theorem run_remove (ids : List String) :
    (Prog.run (handle storage cache) (Queue.remove queue ids) w).map (Except.map fun _ => ()) id =
      (((cache.perform (.remove queue ids) w.2).1.mapError QueueError.cache).map fun _ => (),
        ((storage.remove queue ids w.1).2, (cache.perform (.remove queue ids) w.2).2)) := by
  change Prod.map _ _ (Prog.run (handle storage cache) (Queue.attempt QueueError.cache
    (cache.perform (.remove queue ids) w.2).1 >>= _) _) = _
  cases (cache.perform (.remove queue ids) w.2).1 <;> rfl

namespace Documented

theorem mem_listed {d : Document ι} {s : σ} :
    d ∈ documented.listed queue s ↔
      d ∈ documented.ofQueue queue s ∧ documented.passesOver d = false := by
  rw [listed, List.mem_filter, Bool.not_eq_true']

/-- Of the documents, those found are the ones that are removed. -/
theorem Describes.mem_removedFrom (h : documented.Describes storage)
    (hfound : found ⊆ documented.ofQueue queue w.1) {d : Document ι} :
    d ∈ documented.documents (removedFrom storage cache queue found w).1 ↔
      d ∈ documented.documents w.1 ∧ d ∉ found := by
  change d ∈ documented.documents (storage.remove queue _ w.1).2 ↔ _
  rw [h.remove, List.mem_filter, decide_eq_true_eq]
  refine and_congr_right fun hd => not_congr ⟨?_, fun hd' => ?_⟩
  · rintro ⟨hqueue, hid⟩
    obtain ⟨d', hd', hid⟩ := List.mem_map.mp hid
    obtain ⟨hmem, hqueue'⟩ := List.mem_filter.mp (hfound hd')
    have hkey : d'.key = d.key := Prod.ext ((of_decide_eq_true hqueue').trans hqueue.symm) hid
    exact List.inj_on_of_nodup_map (h.nodup w.1) hmem hd hkey ▸ hd'
  · exact ⟨of_decide_eq_true (List.mem_filter.mp (hfound hd')).2, List.mem_map_of_mem hd'⟩

theorem mem_ofQueue {d : Document ι} {s : σ} :
    d ∈ documented.ofQueue queue s ↔ d ∈ documented.documents s ∧ d.key.1 = queue := by
  rw [ofQueue, List.mem_filter, decide_eq_true_eq]

theorem Describes.nodup_ofQueue (h : documented.Describes storage) (queue : String) (s : σ) :
    ((documented.ofQueue queue s).map Row.key).Nodup :=
  (h.nodup s).sublist (List.filter_sublist.map _)

theorem listed_subset (documented : Documented ι σ) (queue : String) (s : σ) :
    documented.listed queue s ⊆ documented.ofQueue queue s :=
  List.filter_sublist.subset

theorem Describes.mem_ofQueue_removedFrom (h : documented.Describes storage)
    (hfound : found ⊆ documented.ofQueue queue w.1) {d : Document ι} :
    d ∈ documented.ofQueue queue (removedFrom storage cache queue found w).1 ↔
      d ∈ documented.ofQueue queue w.1 ∧ d ∉ found := by
  rw [mem_ofQueue, h.mem_removedFrom hfound, mem_ofQueue, and_right_comm]

/-- The documents of the queue are those that stay and those that were found. -/
theorem Describes.length_removedFrom (h : documented.Describes storage) (cache : CacheCalls ρ)
    (hpicks : Picks (fun d => d.value.expiryDate) n (documented.listed queue w.1) found) :
    (documented.ofQueue queue w.1).length =
      (documented.ofQueue queue (removedFrom storage cache queue found w).1).length +
        found.length := by
  have hfound := List.Subset.trans hpicks.subset (documented.listed_subset queue w.1)
  have hnodup : found.Nodup := by
    refine .of_map Row.key (hpicks.nodup_map ?_)
    exact (h.nodup_ofQueue queue w.1).sublist (List.filter_sublist.map _)
  rw [← List.length_append]
  apply List.Perm.length_eq
  rw [List.perm_ext_iff_of_nodup (.of_map _ (h.nodup_ofQueue queue w.1))]
  · intro d
    rw [List.mem_append, h.mem_ofQueue_removedFrom hfound]
    by_cases hd : d ∈ found
    · simp [hd, hfound hd]
    · simp [hd]
  · refine List.nodup_append'.mpr ⟨.of_map _ (h.nodup_ofQueue queue _), hnodup, ?_⟩
    exact fun d hd hd' => ((h.mem_ofQueue_removedFrom hfound).mp hd).2 hd'

end Documented

/-- When the messages found have been removed, the maximum is enforced if and only if they are
as many as were asked for and expire no later than those that were passed over. -/
theorem enforced_removedFrom_iff (hs : documented.Describes storage) (hc : pooled.Describes cache)
    (hqueue : c.queue ≠ "") (haccepts : ¬ pooled.Refuses c.queue)
    (hn : (n : ℤ) = (documented.ofQueue c.queue w.1).length - c.maxElements.toInt)
    (hpicks : Picks (fun d => d.value.expiryDate) n (documented.listed c.queue w.1) found) :
    Enforced storage documented pooled c w (removedFrom storage cache c.queue found w) ↔
      found.length = n ∧ ∀ a ∈ found, ∀ x ∈ documented.passedOver c.queue w.1,
        a.value.expiryDate ≤ x.value.expiryDate := by
  have hfound := List.Subset.trans hpicks.subset (documented.listed_subset c.queue w.1)
  have hremoved : ∀ d ∈ documented.documents w.1,
      d ∉ documented.documents (removedFrom storage cache c.queue found w).1 ↔ d ∈ found := by
    intro d hd
    rw [hs.mem_removedFrom hfound, not_and_not_right]
    exact ⟨fun h => h hd, fun h _ => h⟩
  have hlength := hs.length_removedFrom cache hpicks
  constructor
  · intro h
    obtain ⟨m, hcount, hm⟩ := h.count
    rw [hs.count c.queue hqueue, Except.ok.injEq] at hcount
    refine ⟨by omega, fun a ha x hx => not_lt.mp ?_⟩
    obtain ⟨hx, hover⟩ := List.mem_filter.mp hx
    have ha' := (Documented.mem_ofQueue.mp (hfound ha)).1
    refine h.earliest a ha' ((hremoved a ha').mpr ha) x
      ((hs.mem_ofQueue_removedFrom hfound).mpr ⟨hx, fun hx' => ?_⟩)
    rw [(Documented.mem_listed.mp (hpicks.subset hx')).2] at hover
    cases hover
  · rintro ⟨hlength', hover⟩
    obtain ⟨m, hm, hpools⟩ := hc.removed c.queue (found.map fun d => d.message.id) w.2 haccepts
    refine ⟨⟨_, hs.count c.queue hqueue _, by omega⟩, fun d hd hd' d' hmem => not_lt.mpr ?_,
      fun d hd hd' => ?_⟩
    · rw [hremoved d hd] at hd'
      obtain ⟨hmem, hnot⟩ := (hs.mem_ofQueue_removedFrom hfound).mp hmem
      cases hpass : documented.passesOver d' with
      | true => exact hover d hd' d' (List.mem_filter.mpr ⟨hmem, hpass⟩)
      | false =>
        exact hpicks.le_of_notMem hd' (Documented.mem_listed.mpr ⟨hmem, hpass⟩) hnot
    · rw [hremoved d hd] at hd'
      rw [(Documented.mem_ofQueue.mp (hfound hd')).2]
      exact hpools _ (List.mem_map_of_mem hd')

/-- Enough messages of the queue that an ordinary `Find` returns expire no later than those that
it passes over. -/
def Documented.Covers (documented : Documented ι σ) (c : QueueConfiguration) (s : σ) : Prop :=
  ((documented.ofQueue c.queue s).length : ℤ) - c.maxElements.toInt ≤
    ((documented.listed c.queue s).filter fun d => ∀ x ∈ documented.passedOver c.queue s,
      d.value.expiryDate ≤ x.value.expiryDate).length

theorem enforced_iff (hs : documented.Describes storage) (hc : pooled.Describes cache)
    (hmax : 0 < c.maxElements) (hqueue : c.queue ≠ "") (w : σ × ρ) :
    (∀ after, Queue.removeExceedingMessagesFromQueue storage cache (some c) w = (.ok (), after) →
        Enforced storage documented pooled c w after) ↔
      ((documented.ofQueue c.queue w.1).length : ℤ) ≤ c.maxElements.toInt ∨
        pooled.Refuses c.queue ∨ documented.Covers c w.1 := by
  have hguard : ¬ (c.maxElements ≤ 0 ∨ c.queue = "") :=
    not_or.mpr ⟨Int64.not_le.mpr hmax, hqueue⟩
  rw [Queue.removeExceedingMessagesFromQueue, if_neg hguard, hs.count c.queue hqueue]
  by_cases htotal : ((documented.ofQueue c.queue w.1).length : ℤ) ≤ c.maxElements.toInt
  · simp only [if_pos htotal]
    refine iff_of_true ?_ (.inl htotal)
    rintro after hafter
    cases hafter
    exact ⟨⟨_, hs.count c.queue hqueue _, (min_eq_left htotal).symm⟩, fun d hd hd' => absurd hd hd',
      fun d hd hd' => absurd hd hd'⟩
  · simp only [if_neg htotal]
    obtain ⟨n, hn⟩ : ∃ n : ℕ, (n : ℤ) =
        (documented.ofQueue c.queue w.1).length - c.maxElements.toInt :=
      ⟨_, Int.toNat_of_nonneg (by omega)⟩
    obtain ⟨found, hfind, hpicks⟩ := hs.find c.queue hqueue n (by omega) w.1
    rw [← hn, hfind]
    change (∀ after, (Prog.run _ _ _).map _ id = _ → _) ↔ _
    rw [run_remove]
    by_cases hrefuses : pooled.Refuses c.queue
    · obtain ⟨e, he⟩ := hc.refused c.queue (found.map fun d => d.message.id) w.2 hrefuses
      refine iff_of_true (fun after hafter => ?_) (.inr (.inl hrefuses))
      rw [he] at hafter
      cases hafter
    · obtain ⟨m, hm, -⟩ := hc.removed c.queue (found.map fun d => d.message.id) w.2 hrefuses
      rw [hm, or_iff_right htotal, or_iff_right hrefuses, Documented.Covers, ← hn, Nat.cast_le,
        ← hpicks.covers_iff, ← enforced_removedFrom_iff hs hc hqueue hrefuses hn hpicks]
      constructor
      · intro h
        exact h _ rfl
      · intro h after hafter
        cases hafter
        exact h

end Enforced

/-! ## The stores -/

variable [LinearOrder ι] {internalIds : InternalIds ι}

/-- MongoDB finds every document. -/
def MongoStorage.documented : Documented ι (MongoStorage.Documents ι) where
  documents := Table.rows
  passesOver := fun _ => false

theorem MongoStorage.selects_queue {queue : String} (hqueue : queue ≠ "") (d : Document ι) :
    MongoStorage.selects { queue := queue } none none d = decide (d.key.1 = queue) := by
  rw [Bool.eq_iff_iff, decide_eq_true_eq]
  simp [MongoStorage.selects, hqueue]

theorem MongoStorage.documented_describes :
    (MongoStorage.documented (ι := ι)).Describes (MongoStorage.calls internalIds) where
  nodup := Table.nodup
  count := by
    intro queue hqueue docs
    change Except.ok (docs.rows.filter _).length = Except.ok (docs.rows.filter _).length
    rw [List.filter_congr fun d _ => MongoStorage.selects_queue hqueue d]
  find := by
    intro queue hqueue n hn docs
    refine ⟨_, rfl, ?_⟩
    change Picks _ n (List.filter (fun _ => !false) (docs.rows.filter _))
      (MongoStorage.limited n (List.insertionSort _ (docs.rows.filter _)))
    rw [MongoStorage.limited, if_neg (by omega), Int.natAbs_natCast,
      List.filter_congr fun d _ => MongoStorage.selects_queue hqueue d]
    refine picks_take ((List.perm_insertionSort _ _).trans ?_) ?_ n
    · simp
    · exact (List.pairwise_insertionSort (MongoStorage.inOrder [(.expiryDate, .ascending)]) _).imp
        MongoStorage.inOrder_singleton.mp
  remove := by
    intro queue ids docs
    change (MongoStorage.remove queue ids docs).2.rows = _
    rw [MongoStorage.remove_snd]
    apply List.filter_congr
    intro d _
    rw [Bool.eq_iff_iff]
    simp

namespace MemoryStorage

/-- The memory storage passes over the messages that have expired when it visits them. -/
def documented (visit : Visit ι) : Documented ι (MemoryStorage ι) where
  documents := fun storage => storage.docs.rows.map found
  passesOver := fun d => isExpired (visit.clock ⟨d.serial, getKey d.value, d.value⟩) d.value

theorem matching_queue {opt : FindOptions} {queue : String} (hqueue : queue ≠ "")
    (hopt : opt.internalFilter = some { queue := queue }) (visit : List (Stored ι)) :
    matching internalIds opt visit = .ok (visit.filter fun d => d.value.queue = queue) := by
  have hfilter : MongoStorage.getMongoMessage internalIds opt =
      .ok (MongoStorage.selects { queue := queue } none none) := by
    rw [MongoStorage.getMongoMessage, hopt]
    rfl
  have hdates : ∀ d ∈ visit, Apart opt d.value := by
    intro d _ t ht
    rw [hopt] at ht
    cases ht
  rw [matching_eq hfilter hdates]
  congr 1
  exact List.filter_congr fun d _ => MongoStorage.selects_queue hqueue (document d)

/-- The messages of a queue that a visit does not pass over, as documents. -/
theorem listed_documented (visit : Visit ι) (queue : String) (storage : MemoryStorage ι) :
    (documented visit).listed queue storage =
      ((storage.docs.rows.filter fun d => !isExpired (visit.clock d) d.value).filter
        fun d => d.value.queue = queue).map found := by
  change ((storage.docs.rows.map found).filter _).filter _ = _
  rw [List.filter_map, List.filter_map, List.filter_filter, List.filter_filter]
  congr 1
  apply List.filter_congr
  intro d hd
  have hrow : d = ⟨d.serial, getKey d.value, d.value⟩ := by
    rw [← storage.keyed d hd]
  change (!isExpired (visit.clock ⟨d.serial, getKey d.value, d.value⟩) d.value &&
    decide (d.value.queue = queue)) = _
  rw [← hrow, Bool.and_comm]

omit [LinearOrder ι] in
theorem limited_natCast {n : ℕ} (hn : 0 < n) (ds : List (Stored ι)) :
    limited n ds = ds.take n := by
  rw [limited]
  split_ifs with h
  · rfl
  · rw [List.take_of_length_le]
    omega

theorem documented_describes (visit : Visit ι) :
    (documented visit).Describes (calls internalIds visit) where
  nodup := by
    intro storage
    change ((storage.docs.rows.map found).map Row.key).Nodup
    rw [List.map_map]
    exact storage.nodup_pairs
  count := by
    intro queue hqueue storage
    change count internalIds (Queue.counted queue) (visit.order storage.docs.rows) =
      .ok ((storage.docs.rows.map found).filter _).length
    rw [count, matching_queue hqueue rfl, List.filter_map, List.length_map]
    exact congrArg Except.ok ((visit.perm _).filter _).length_eq
  find := by
    intro queue hqueue n hn storage
    let shown := (visit.order storage.docs.rows).filter fun d => !isExpired (visit.clock d) d.value
    let ordered := stableSort (less [(.expiryDate, .ascending)])
      (shown.filter fun d => d.value.queue = queue)
    refine ⟨(ordered.take n).map found, ?_, ?_⟩
    · change (find internalIds (exceeding queue n) visit.clock
        (visit.order storage.docs.rows)).map (List.map found) = _
      rw [find, matching_queue hqueue rfl, ← limited_natCast hn]
      rfl
    · rw [List.map_take, listed_documented]
      apply picks_take
      · refine ((perm_stableSort _ _).trans ?_).map _
        exact ((visit.perm _).filter _).filter _
      · have hle : ∀ a b : Stored ι, less [(.expiryDate, .ascending)] b a = false →
            a.value.expiryDate ≤ b.value.expiryDate := by
          intro a b h
          have hbefore : decide (b.value.expiryDate < a.value.expiryDate) = false :=
            before_expiryDate h
          exact not_lt.mp (of_decide_eq_false hbefore)
        rw [List.pairwise_map]
        exact (pairwise_stableSort (strictWeak_less (by simp))).imp fun {a b} h => hle a b h
  remove := by
    intro queue ids storage
    change (storage.docs.rows.filter _).map found = (storage.docs.rows.map found).filter _
    rw [List.filter_map]
    congr 1
    apply List.filter_congr
    intro d _
    change _ = decide (¬ (d.value.queue = queue ∧ d.value.id ∈ ids))
    rw [Bool.eq_iff_iff]
    simp [imp_iff_not_or]

end MemoryStorage

def RedisCache.pooled (cache : RedisCache) : Pooled Redis where
  InPools := cache.InPools
  Refuses := fun queue => hasHashTag queue = true

theorem RedisCache.pooled_describes (cache : RedisCache) : cache.pooled.Describes cache.calls where
  refused := by
    intro queue ids s hrefuses
    exact ⟨_, congrArg Prod.fst (RedisCache.exec_validated_braces hrefuses)⟩
  removed := by
    intro queue ids s haccepts
    obtain ⟨n, t, hrun, -, hscore⟩ :=
      @RedisCache.exec_remove cache s queue ids (Bool.not_eq_true _ ▸ haccepts)
    change ∃ n, (exec (cache.remove queue ids) s).1 = .ok n ∧
      ∀ id ∈ ids, ¬ cache.InPools (exec (cache.remove queue ids) s).2 queue id
    rw [hrun]
    refine ⟨n, rfl, ?_⟩
    rintro id hid ⟨pool, -, hholds⟩
    rw [RedisCache.Holds, hscore, if_pos ⟨rfl, hid⟩] at hholds
    cases hholds

def MemoryCache.pooled : Pooled MemoryCache where
  InPools := fun c queue id => ∃ p, id ∈ (c.pool p queue).ids
  Refuses := fun _ => False

theorem MemoryCache.pooled_describes (order : MemoryCache → LockType → List String) :
    MemoryCache.pooled.Describes (MemoryCache.calls order) where
  refused := by
    intro queue ids c hrefuses
    exact hrefuses.elim
  removed := by
    intro queue ids c _
    refine ⟨_, rfl, ?_⟩
    rintro id hid ⟨p, hp⟩
    exact (MemoryCache.mem_ids_remove.mp hp).1 rfl hid

/-! ## Results -/

def StorageChoice.documented : (storage : StorageChoice ι) → Documented ι storage.State
  | .mongodb _ => MongoStorage.documented
  | .memory _ visit => MemoryStorage.documented visit

def CacheChoice.pooled : (cache : CacheChoice) → Pooled cache.State
  | .redis cache => cache.pooled
  | .memory _ => MemoryCache.pooled

theorem StorageChoice.documented_describes (storage : StorageChoice ι) :
    storage.documented.Describes storage.calls := by
  cases storage with
  | mongodb internalIds => exact MongoStorage.documented_describes
  | memory internalIds visit => exact MemoryStorage.documented_describes visit

theorem CacheChoice.pooled_describes (cache : CacheChoice) :
    cache.pooled.Describes cache.calls := by
  cases cache with
  | redis cache => exact cache.pooled_describes
  | memory order => exact MemoryCache.pooled_describes order

/-- With either storage and either cache, a removal that returns no error enforces the maximum of
the queue if and only if the queue is within it, or the cache refuses its name, or as many
messages as are too many have not been passed over and expire no later than those that have. -/
theorem maxElements_enforced_iff (storage : StorageChoice ι) (cache : CacheChoice)
    (c : QueueConfiguration) (hmax : 0 < c.maxElements) (hqueue : c.queue ≠ "")
    (w : storage.State × cache.State) :
    (∀ after, Queue.removeExceedingMessagesFromQueue storage.calls cache.calls (some c) w =
        (.ok (), after) → Enforced storage.calls storage.documented cache.pooled c w after) ↔
      ((storage.documented.ofQueue c.queue w.1).length : ℤ) ≤ c.maxElements.toInt ∨
        cache.pooled.Refuses c.queue ∨ storage.documented.Covers c w.1 :=
  enforced_iff storage.documented_describes cache.pooled_describes hmax hqueue w

/-- MongoDB passes over no document, so that with it the maximum is always enforced. -/
theorem MongoStorage.documented_covers (c : QueueConfiguration) (hmax : 0 < c.maxElements)
    (docs : MongoStorage.Documents ι) : MongoStorage.documented.Covers c docs := by
  have hpassed : MongoStorage.documented.passedOver c.queue docs = [] := by
    simp [Documented.passedOver, MongoStorage.documented]
  have hlisted : MongoStorage.documented.listed c.queue docs =
      MongoStorage.documented.ofQueue c.queue docs := by
    simp [Documented.listed, MongoStorage.documented]
  have hmax' : 0 < c.maxElements.toInt := Int64.lt_iff_toInt_lt.mp hmax
  rw [Documented.Covers, hlisted, List.filter_eq_self.mpr]
  · omega
  · intro d _
    rw [hpassed]
    simp

/-- Two messages of one queue, which expire at 5 and at 20. -/
def twoExpiring : MemoryStorage ℕ :=
  MemoryStorage.added [{ id := "a", queue := "q", expiryDate := 5 },
    { id := "b", queue := "q", expiryDate := 20 }]

/-- Before either has expired, the one that expires first is removed. -/
theorem maxElements_enforced_unexpired :
    Enforced (MemoryStorage.calls InternalIds.counter (.at 1)) (MemoryStorage.documented (.at 1))
      MemoryCache.pooled ⟨"q", 1⟩ (twoExpiring, MemoryCache.new)
      (Queue.removeExceedingMessagesFromQueue (MemoryStorage.calls InternalIds.counter (.at 1))
        (MemoryCache.calls fun _ _ => []) (some ⟨"q", 1⟩)
        (twoExpiring, MemoryCache.new)).2 := by
  have hcovers : (MemoryStorage.documented (.at 1)).Covers ⟨"q", 1⟩ twoExpiring := by
    unfold Documented.Covers
    decide +kernel
  refine (maxElements_enforced_iff (.memory InternalIds.counter (.at 1)) (.memory fun _ _ => [])
    ⟨"q", 1⟩ (by decide) (by decide) (twoExpiring, MemoryCache.new)).mpr
    (.inr (.inr hcovers)) _ (Prod.ext ?_ rfl)
  rfl

/-- When the first one has expired, it is kept and the other one is removed. -/
theorem expired_kept_unexpired_removed :
    let r := Queue.removeExceedingMessagesFromQueue
      (MemoryStorage.calls InternalIds.counter (.at 10)) (MemoryCache.calls fun _ _ => [])
      (some ⟨"q", 1⟩) (twoExpiring, MemoryCache.new)
    r.1 = .ok () ∧ twoExpiring.docs.rows.map (fun d => d.value.id) = ["a", "b"] ∧
      r.2.1.docs.rows.map (fun d => (d.value.id, d.value.expiryDate)) = [("a", 5)] := by
  refine ⟨rfl, by decide +kernel, by decide +kernel⟩

end Deckard
