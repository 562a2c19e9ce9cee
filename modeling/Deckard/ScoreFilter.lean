import Deckard.AckRemoval
import Deckard.Backends
import Deckard.MemoryDeadlines
import Deckard.MemoryRefinement
import Deckard.Pulls
import Deckard.ScoreRange
import Deckard.TimeToLive

/-!
# The deprecated score filter

A pull with a `score_filter` and no `max_score` stands for one with the maximum score of the
current time minus the filter. The difference goes through `GetPullMaxScore`, where zero means
that there is no maximum, before a cache compares it with the scores of the active pool. A filter
that equals the time is therefore no filter, and a shorter one lets fewer messages through.
-/
namespace Deckard

open Binary64 Effect Cache Program Prog

/-! ## The threshold -/

section Threshold

variable {now : Time} {f f' : Int64} {request : PullRequest}

/-- The highest score that the filter is to let through. -/
def Service.filterThreshold (now : Time) (scoreFilter : Int64) : ℤ :=
  max 0 ((Dtime.timeToMs now).toInt - scoreFilter.toInt)

/-- The maximum score that a cache is asked for with the filter. At the value of the clock there
is none. -/
def Service.filterBound (now : Time) (scoreFilter : Int64) : Option Number :=
  if Dtime.timeToMs now = scoreFilter then none
  else some (.ofInt (filterThreshold now scoreFilter))

/-- Neither a reading of the clock nor the filter is large enough for an overflow. -/
theorem Dtime.toInt_timeToMs_sub (hnow : 0 < timeToMs now) (hf : 0 < f) :
    (timeToMs now - f).toInt = (timeToMs now).toInt - f.toInt := by
  rw [Int64.lt_iff_toInt_lt] at hnow hf
  have hzero : (0 : Int64).toInt = 0 := rfl
  have hlt := (timeToMs now).toInt_lt
  have hlt' := f.toInt_lt
  rw [Int64.toInt_sub]
  apply Int.bmod_eq_of_le_mul_two <;> omega

/-- The sentinel is met at zero only, and negative scores become the least one. -/
theorem Score.getPullMaxScore_ofInt {n : ℤ} (h : n ≤ 9007199254740992) :
    getPullMaxScore (.ofInt n) = if n = 0 then none else some (.ofInt (Max.max 0 n)) := by
  have hzero : Number.ofInt n = .ofInt 0 ↔ n = 0 := by
    rw [le_antisymm_iff, Number.ofInt_le_ofInt_iff (by norm_num),
      Number.ofInt_le_ofInt_iff_left (by norm_num), le_antisymm_iff]
  have hneg : Number.ofInt n < .ofInt 0 ↔ n < 0 := by
    rw [← not_le, Number.ofInt_le_ofInt_iff_left (by norm_num), not_le]
  have hmax : ¬ Number.ofInt 9007199254740992 < .ofInt n := not_lt.mpr (Number.ofInt_mono h)
  simp only [getPullMaxScore, Score.max, Score.min, Float64.ofInt_eq, Float64.num_eq_num,
    Float64.num_lt_num, decide_eq_true_eq, hzero, hneg, hmax, if_false]
  split_ifs with h0 hn
  · rfl
  · rw [max_eq_left hn.le]
  · rw [max_eq_right (not_lt.mp hn)]

theorem Service.getPullMaxScore_pullMaxScore (hnow : 0 < Dtime.timeToMs now)
    (hmax : request.maxScore.eq (.ofInt 0) = true) (hf : 0 < request.scoreFilter) :
    Score.getPullMaxScore (pullMaxScore now request) =
      (filterBound now request.scoreFilter).map .num := by
  have hsub := Dtime.toInt_timeToMs_sub hnow hf
  have hle := (abs_le.mp (Dtime.abs_timeToMs_le now)).2
  have hzero : (Dtime.timeToMs now).toInt - request.scoreFilter.toInt = 0 ↔
      Dtime.timeToMs now = request.scoreFilter := by
    rw [sub_eq_zero, Int64.toInt_inj]
  have hpos : 0 < request.scoreFilter.toInt := Int64.lt_iff_toInt_lt.mp hf
  rw [pullMaxScore, if_pos ⟨hmax, hf⟩, hsub, Score.getPullMaxScore_ofInt (by omega)]
  simp only [hzero, filterBound, filterThreshold]
  split_ifs <;> rfl

theorem Service.filterThreshold_anti (h : f ≤ f') :
    filterThreshold now f' ≤ filterThreshold now f := by
  have hle := Int64.le_iff_toInt_le.mp h
  unfold filterThreshold
  omega

/-- The greatest score is above every threshold. -/
theorem Service.filterThreshold_lt (hf : 0 < f) :
    Number.ofInt (filterThreshold now f) < .ofInt 9007199254740992 := by
  have hle := (abs_le.mp (Dtime.abs_timeToMs_le now)).2
  have hpos : 0 < f.toInt := Int64.lt_iff_toInt_lt.mp hf
  have hlt : filterThreshold now f < 9007199254740992 := by
    unfold filterThreshold
    omega
  have habs : |filterThreshold now f| < 2 ^ 53 := by
    rw [abs_of_nonneg (le_max_left _ _)]
    exact hlt
  rw [← not_le, Number.ofInt_le_ofInt_iff habs, not_le]
  exact hlt

theorem Service.filterBound_of_eq (h : Dtime.timeToMs now = f) : filterBound now f = none :=
  if_pos h

theorem Service.filterBound_of_ne (h : Dtime.timeToMs now ≠ f) :
    filterBound now f = some (.ofInt (filterThreshold now f)) :=
  if_neg h

/-- A shorter filter has no lower bound than a longer one. -/
theorem Service.ofInt_filterThreshold_le (h : f ≤ f') {hi : Number}
    (hhi : hi ∈ filterBound now f) : Number.ofInt (filterThreshold now f') ≤ hi := by
  by_cases heq : Dtime.timeToMs now = f
  · rw [filterBound_of_eq heq] at hhi
    cases hhi
  · rw [filterBound_of_ne heq] at hhi
    cases hhi
    exact Number.ofInt_mono (filterThreshold_anti h)

end Threshold

/-! ## What a pull takes from the active pool -/

namespace CacheChoice

/-- The message is in the active pool of the queue, with the score. -/
def Active : (cache : CacheChoice) → cache.State → String → String → Float64 → Prop
  | .redis cache, s, queue, id, x =>
      ∃ y, (Redis.zset s (cache.activePool queue)).score id = some y ∧ x = .num y
  | .memory _, c, queue, id, x =>
      ∃ e ∈ (MemoryCache.pool c .active queue).entries, e.id = id ∧ e.score = x

def Holds (cache : CacheChoice) (s : cache.State) (queue id : String) : Prop :=
  ∃ x, cache.Active s queue id x

/-- The score is within the bounds of a pull, as the cache compares it. -/
def Within : CacheChoice → Option Float64 → Option Float64 → Float64 → Prop
  | .redis _, minScore, maxScore, x => (∀ lo ∈ minScore, lo ≤ x) ∧ ∀ hi ∈ maxScore, x ≤ hi
  | .memory _, minScore, maxScore, x => (∀ lo ∈ minScore, ¬ x < lo) ∧ ∀ hi ∈ maxScore, ¬ hi < x

/-- All scores of the active pool are those that the service documents. -/
def ActiveInRange (cache : CacheChoice) (s : cache.State) (queue : String) : Prop :=
  ∀ id x, cache.Active s queue id x → Score.Accepted x

/-- One active message in an empty cache. -/
def withOne : (cache : CacheChoice) → (queue id : String) → Number → cache.State
  | .redis cache, queue, id, x =>
      Redis.empty.setZ (cache.activePool queue) (SortedSet.empty.add x id)
  | .memory _, queue, id, x =>
      MemoryCache.new.setPool .active queue (EntryList.empty.insertEntry { id, score := .num x })

end CacheChoice

section Calls

variable {clock : Clock} {queue id : String} {n ackDeadlineMs : Int64}
  {minScore maxScore : Option Float64} {x : Float64}

namespace MemoryCache

variable {c : MemoryCache} {order : MemoryCache → LockType → List String}

theorem within_iff_not_excluded {e : MemoryMessageEntry} :
    (CacheChoice.memory order).Within minScore maxScore e.score ↔
      ¬ Excluded minScore maxScore e := by
  cases minScore <;> cases maxScore <;> simp [CacheChoice.Within, Excluded]

theorem holds_iff :
    (CacheChoice.memory order).Holds c queue id ↔ id ∈ (c.pool .active queue).ids := by
  simp [CacheChoice.Holds, CacheChoice.Active, EntryList.ids]

/-- A pull takes the entries within the bounds among the first ones. -/
theorem pullMessages_takes (c : MemoryCache) (clock : Clock) (queue : String) (n : Int64)
    (minScore maxScore : Option Float64) (ackDeadlineMs : Int64) :
    ∃ ids, (c.pullMessages clock queue n minScore maxScore ackDeadlineMs).1 = .ids ids ∧
      (∀ e ∈ (c.pool .active queue).entries, e.id ∈ ids → ¬ Excluded minScore maxScore e) ∧
      ∀ id ∈ (c.pool .active queue).ids, id ∉ ids →
        id ∈ ((c.pullMessages clock queue n minScore maxScore ackDeadlineMs).2.pool
          .active queue).ids := by
  obtain ⟨hres, ⟨rest, hrest, hactive⟩, -⟩ :=
    pullMessages_spec c clock queue n minScore maxScore ackDeadlineMs
  refine ⟨_, hres, fun e he hid => ?_, fun id hid hnot => ?_⟩
  · obtain ⟨e', he', hsame⟩ := List.mem_map.mp hid
    obtain ⟨hlooked, hwithin⟩ := List.mem_filter.mp he'
    have heq : e' = e := List.inj_on_of_nodup_map (c.pool .active queue).nodup
      (List.mem_of_mem_take hlooked) he hsame
    simpa [heq] using hwithin
  · obtain ⟨e, he, rfl⟩ := List.mem_map.mp hid
    rw [hactive, mem_ids_foldl_insertEntry]
    rw [← List.take_append_drop n.toInt.toNat (c.pool .active queue).entries, List.mem_append] at he
    rcases he with he | he
    · -- looked at and not handed out: put back
      left
      have hexcluded : Excluded minScore maxScore e := by
        by_contra hwithin
        exact hnot (List.mem_map_of_mem (List.mem_filter.mpr ⟨he, by simpa using hwithin⟩))
      exact List.mem_map_of_mem (List.mem_filter.mpr ⟨he, by simpa using hexcluded⟩)
    · right
      rw [EntryList.ids, hrest]
      exact List.mem_map_of_mem he

/-- A pull without bounds for as many messages as there are leaves none. -/
theorem pullMessages_takes_all (h : (c.pool .active queue).entries.length ≤ n.toInt) :
    ((c.pullMessages clock queue n none none ackDeadlineMs).2.pool .active queue).ids = [] := by
  obtain ⟨-, ⟨rest, hrest, hactive⟩, -⟩ :=
    pullMessages_spec c clock queue n none none ackDeadlineMs
  rw [List.drop_of_length_le (by omega)] at hrest
  rw [List.eq_nil_iff_forall_not_mem]
  intro id
  rw [hactive, mem_ids_foldl_insertEntry, EntryList.ids, hrest]
  simp [Excluded]

end MemoryCache

namespace RedisCache

variable {cache : RedisCache} {s : Redis}

theorem mem_candidates {e : SortedSet.Entry String Number} :
    e ∈ cache.candidates s queue minScore maxScore ↔
      e ∈ (s.zset (cache.key queue .active)).entries ∧
        (CacheChoice.redis cache).Within minScore maxScore (.num e.score) := by
  cases minScore <;> cases maxScore <;> simp [candidates, CacheChoice.Within]

/-- A pull that is not refused takes the best entries within the bounds. -/
theorem pullMessages_takes (cache : RedisCache) (s : Redis) (clock : Clock) (queue : String)
    (minScore maxScore : Option Float64) (ackDeadlineMs : Int64) (hlo : 1 ≤ n.toInt)
    (hhi : n.toInt ≤ 1000) :
    ∃ ids, (∀ l, (exec (cache.pullMessages clock queue n minScore maxScore ackDeadlineMs) s).1 =
        .ok l → l = ids) ∧
      (∀ id x, (s.zset (cache.key queue .active)).score id = some x → id ∈ ids →
        (CacheChoice.redis cache).Within minScore maxScore (.num x)) ∧
      ∀ id ∉ ids, ((exec (cache.pullMessages clock queue n minScore maxScore
        ackDeadlineMs) s).2.zset (cache.key queue .active)).score id =
          (s.zset (cache.key queue .active)).score id := by
  cases htag : hasHashTag queue with
  | true =>
    obtain ⟨e, he⟩ : ∃ e, exec (cache.pullMessages clock queue n minScore maxScore
        ackDeadlineMs) s = (.error e, s) := ⟨_, exec_validated_braces htag⟩
    exact ⟨[], by simp [he], by simp, by simp [he]⟩
  | false =>
    have htakes := (pullMessages_takes_best cache s clock htag hlo hhi minScore maxScore
      ackDeadlineMs).1
    split_ifs at htakes with hnan
    · exact ⟨[], by simp [htakes], by simp, by simp [htakes]⟩
    · obtain ⟨t, ht⟩ := htakes
      refine ⟨(cache.best s queue n minScore maxScore).map (·.member), fun l hl => ?_,
        fun id x hx hid => ?_, fun id hid => ?_⟩
      · rw [ht.result] at hl
        exact (Except.ok.inj hl).symm
      · obtain ⟨e, he, rfl⟩ := List.mem_map.mp hid
        obtain ⟨hmem, hwithin⟩ := mem_candidates.mp (List.mem_of_mem_take he)
        have hscore : (s.zset (cache.key queue .active)).score e.member = some e.score :=
          SortedSet.score_eq_some.mpr hmem
        rw [hx, Option.some_inj] at hscore
        exact hscore ▸ hwithin
      · rw [ht.result]
        exact ht.kept id hid _

/-- A pull without bounds for as many messages as there are leaves none. -/
theorem pullMessages_takes_all (htag : hasHashTag queue = false) (hlo : 1 ≤ n.toInt)
    (hhi : n.toInt ≤ 1000) (h : (s.zset (cache.key queue .active)).entries.length ≤ n.toInt)
    (id : String) :
    ((exec (cache.pullMessages clock queue n none none ackDeadlineMs) s).2.zset
      (cache.key queue .active)).score id = none := by
  obtain ⟨t, ht⟩ : ∃ t, cache.TakesBest s clock queue n none none ackDeadlineMs t :=
    exists_takesBest htag hlo hhi none none
  have hbest : cache.best s queue n none none = (s.zset (cache.key queue .active)).entries := by
    have hall : cache.candidates s queue none none =
        (s.zset (cache.key queue .active)).entries := by simp [candidates]
    rw [best, hall]
    exact List.take_of_length_le (by omega)
  rw [ht.result]
  by_cases hid : id ∈ (cache.best s queue n none none).map (·.member)
  · obtain ⟨e, he, rfl⟩ := List.mem_map.mp hid
    exact ht.moved e he .active
  · refine (ht.kept id hid _).trans (Option.eq_none_iff_forall_ne_some.mpr fun x hx => hid ?_)
    rw [hbest]
    exact List.mem_map.mpr ⟨_, SortedSet.score_eq_some.mp hx, rfl⟩

theorem holds_iff : (CacheChoice.redis cache).Holds s queue id ↔
    (s.zset (cache.key queue .active)).score id ≠ none := by
  simp [CacheChoice.Holds, CacheChoice.Active, Option.ne_none_iff_exists']

/-- A removal takes its ids out of the pools of the queue, unless the name is refused. -/
theorem score_remove (cache : RedisCache) (s : Redis) (queue : String) (ids : List String)
    (pool : Pool) (id : String) :
    ((exec (cache.remove queue ids) s).2.zset (cache.key queue pool)).score id =
      if hasHashTag queue = false ∧ id ∈ ids then none
      else (s.zset (cache.key queue pool)).score id := by
  cases htag : hasHashTag queue with
  | true =>
    obtain ⟨e, he⟩ : ∃ e, exec (cache.remove queue ids) s = (.error e, s) :=
      ⟨_, exec_validated_braces htag⟩
    simp [he]
  | false =>
    obtain ⟨k, t, hrun, -, hscore⟩ := @exec_remove cache s queue ids htag
    simp [hrun, hscore]

end RedisCache

namespace CacheChoice

variable {cache : CacheChoice} {s : cache.State}

/-- What leaves the active pool in a pull is among the ids of its answer and within the
bounds. -/
theorem pull_takes (cache : CacheChoice) (s : cache.State)
    (hamount : (Op.pullMessages clock queue n minScore maxScore ackDeadlineMs).AmountOk) :
    ∃ ids, (∀ l, (cache.calls.perform (.pullMessages clock queue n minScore maxScore
        ackDeadlineMs) s).1 = .ok l → l = ids) ∧
      (∀ id x, cache.Active s queue id x → id ∈ ids → cache.Within minScore maxScore x) ∧
      ∀ id ∉ ids, cache.Holds s queue id → cache.Holds (cache.calls.perform (.pullMessages clock
        queue n minScore maxScore ackDeadlineMs) s).2 queue id := by
  cases cache with
  | redis cache =>
    obtain ⟨ids, hanswer, hwithin, hleft⟩ := RedisCache.pullMessages_takes cache s clock queue
      minScore maxScore ackDeadlineMs hamount.1 hamount.2
    refine ⟨ids, hanswer, ?_, fun id hid h => RedisCache.holds_iff.mpr ?_⟩
    · rintro id _ ⟨y, hy, rfl⟩ hid
      exact hwithin id y hy hid
    · exact (hleft id hid).trans_ne (RedisCache.holds_iff.mp h)
  | memory order =>
    obtain ⟨ids, hanswer, hwithin, hleft⟩ := MemoryCache.pullMessages_takes s clock queue n
      minScore maxScore ackDeadlineMs
    refine ⟨ids, fun l hl => ?_, ?_, fun id hid h => MemoryCache.holds_iff.mpr ?_⟩
    · change MemoryCache.ids (MemoryCache.pullMessages s clock queue n minScore maxScore
        ackDeadlineMs).1 = .ok l at hl
      rw [hanswer] at hl
      exact (Except.ok.inj hl).symm
    · rintro _ _ ⟨e, he, rfl, rfl⟩ hid
      exact MemoryCache.within_iff_not_excluded.mpr (hwithin e he hid)
    · exact hleft id (MemoryCache.holds_iff.mp h) hid

theorem holds_of_remove (queue : String) (ids : List String) (id : String)
    (h : cache.Holds (cache.calls.perform (.remove queue ids) s).2 queue id) :
    cache.Holds s queue id := by
  cases cache with
  | redis cache =>
    refine RedisCache.holds_iff.mpr fun hnone => RedisCache.holds_iff.mp h ?_
    have hscore := RedisCache.score_remove cache s queue ids .active id
    rw [hnone, ite_self] at hscore
    exact hscore
  | memory order =>
    exact MemoryCache.holds_iff.mpr (MemoryCache.mem_ids_remove.mp (MemoryCache.holds_iff.mp h)).2

/-- A removal takes nothing but its ids out of the active pool. -/
theorem holds_remove {queue : String} {ids : List String} {id : String} (hid : id ∉ ids)
    (h : cache.Holds s queue id) :
    cache.Holds (cache.calls.perform (.remove queue ids) s).2 queue id := by
  cases cache with
  | redis cache =>
    refine RedisCache.holds_iff.mpr ?_
    have hsame := RedisCache.score_remove cache s queue ids .active id
    rw [if_neg fun h => hid h.2] at hsame
    exact hsame.trans_ne (RedisCache.holds_iff.mp h)
  | memory order =>
    exact MemoryCache.holds_iff.mpr
      (MemoryCache.mem_ids_remove.mpr ⟨fun _ => hid, MemoryCache.holds_iff.mp h⟩)

@[simp] theorem active_withOne {y : Number} {id' : String} :
    cache.Active (cache.withOne queue id y) queue id' x ↔ id' = id ∧ x = .num y := by
  cases cache with
  | redis cache => simp [Active, withOne]
  | memory order =>
    simp [Active, withOne, EntryList.mem_insertEntry, EntryList.empty, eq_comm]

theorem activeInRange_withOne {y : Number} (hy : Score.Accepted (.num y)) :
    cache.ActiveInRange (cache.withOne queue id y) queue := by
  intro id' x hx
  rw [active_withOne] at hx
  exact hx.2 ▸ hy

/-- Without bounds, the only message is taken. -/
theorem pull_withOne (y : Number) (htag : RedisCache.hasHashTag queue = false)
    (hamount : (Op.pullMessages clock queue n none none ackDeadlineMs).AmountOk) :
    ¬ cache.Holds (cache.calls.perform (.pullMessages clock queue n none none ackDeadlineMs)
      (cache.withOne queue id y)).2 queue id := by
  cases cache with
  | redis cache =>
    refine fun h => RedisCache.holds_iff.mp h ?_
    refine RedisCache.pullMessages_takes_all htag hamount.1 hamount.2 ?_ id
    have hone : (SortedSet.empty.add y id).entries.length = 1 := rfl
    simpa [withOne, hone] using hamount.1
  | memory order =>
    intro h
    have hone : (EntryList.empty.insertEntry { id, score := .num y }).entries.length = 1 := rfl
    have hnone := @MemoryCache.pullMessages_takes_all clock queue n ackDeadlineMs
      ((memory order).withOne queue id y) (by simpa [withOne, hone] using hamount.1)
    exact List.eq_nil_iff_forall_not_mem.mp hnone id (MemoryCache.holds_iff.mp h)

end CacheChoice

end Calls

/-! ## The request -/

/-- The call of the cache that a request makes. -/
abbrev Service.pullCall (clock : Clock) (request : PullRequest) : Op :=
  .pullMessages (fun i => clock (i + 1)) request.queue (pullAmount request.amount)
    (Score.getPullMinScore request.minScore)
    (Score.getPullMaxScore (pullMaxScore (clock 0) request)) request.ackDeadlineMs

section Request

variable {ι σ ρ : Type} {P : Command → Prop} {queue : String} {ids : List String}

theorem Queue.all_getFromStorage_bind {α : Type} {retry : Bool}
    {f : List Message × List String → Queue.QueueProg ι α} (hfind : ∀ opt, P (.storageFind opt))
    (hf : ∀ found, found.2 ⊆ ids → All P (f found)) :
    All P (Queue.getFromStorage ids queue retry >>= f) := by
  refine ⟨hfind _, fun answer => ?_⟩
  cases answer with
  | error e => trivial
  | ok documents => exact hf _ List.filter_sublist.subset

/-- After the cache has answered, a pull reads the storage and removes ids of the answer. -/
theorem all_afterTaking (hfind : ∀ opt, P (.storageFind opt))
    (hremove : ∀ l ⊆ ids, P (.cache (.remove queue l))) :
    All P (afterTaking queue ids : Queue.QueueProg ι (Option (List Message))) := by
  unfold afterTaking
  split_ifs
  · trivial
  · refine Queue.all_getFromStorage_bind hfind fun found hfound => ?_
    dsimp only
    split_ifs
    · trivial
    · refine Queue.all_getFromStorage_bind hfind fun retried hretried => ?_
      have hlost := hremove _ (List.Subset.trans hretried hfound)
      exact all_bind (all_removeMissing hlost) fun _ => trivial

/-- What the call of the cache establishes is left by the request if the removals keep it. -/
theorem Service.run_pull_invariant (storage : StorageCalls ι σ) (cache : CacheCalls ρ)
    {I : ρ → Prop} {w : σ × ρ} {clock : Clock} {request : PullRequest}
    (hpull : I (cache.perform (pullCall clock request) w.2).2)
    (hremove : ∀ ids, (cache.perform (pullCall clock request) w.2).1 = .ok ids → ∀ l ⊆ ids,
      ∀ s, I s → I (cache.perform (.remove request.queue l) s).2) :
    I (Prog.run (handle storage cache) (Service.pull clock request) w).2.2 := by
  have hprogram : (Service.pull clock request : Service.ServiceProg ι (List ResponseMessage)) =
      .call (.cache (pullCall clock request)) fun answer =>
        mapError (fun _ => .pullingMessages) (Queue.attempt .cache answer >>=
          afterTaking request.queue >>= fun messages =>
            pure ((messages.getD []).map responseMessage)) := rfl
  rw [hprogram, run_call]
  dsimp only [handle]
  cases hanswer : (cache.perform (pullCall clock request) w.2).1 with
  | error e => exact hpull
  | ok ids =>
    have hall : All (fun c => (∃ opt, c = .storageFind opt) ∨
        ∃ l ⊆ ids, c = .cache (.remove request.queue l))
        (mapError (fun _ => .pullingMessages) (afterTaking request.queue ids >>= fun messages =>
          pure ((messages.getD []).map responseMessage)) :
            Service.ServiceProg ι (List ResponseMessage)) := by
      refine all_mapError (all_bind (all_afterTaking ?_ ?_) fun _ => trivial)
      · exact fun opt => .inl ⟨opt, rfl⟩
      · exact fun l hl => .inr ⟨l, hl, rfl⟩
    refine run_invariant (I := fun w : σ × ρ => I w.2) (fun c w hc hI => ?_) hall hpull
    rcases hc with ⟨opt, rfl⟩ | ⟨l, hl, rfl⟩
    · exact hI
    · exact hremove ids hanswer l hl w.2 hI

end Request

namespace CacheChoice

variable {ι σ : Type} {storage : StorageCalls ι σ} {cache : CacheChoice} {w : σ × cache.State}
  {clock : Clock} {request : PullRequest} {id : String} {x : Float64}

/-- The request finds the message active, with the score, and takes it away. -/
def Takes (cache : CacheChoice) (storage : StorageCalls ι σ) (w : σ × cache.State)
    (clock : Clock) (request : PullRequest) (id : String) (x : Float64) : Prop :=
  cache.Active w.2 request.queue id x ∧
    ¬ cache.Holds (Prog.run (handle storage cache.calls) (Service.pull clock request) w).2.2
      request.queue id

/-- The message is active, with a score within the bounds of the request. -/
def Eligible (cache : CacheChoice) (s : cache.State) (now : Time) (request : PullRequest)
    (id : String) : Prop :=
  ∃ x, cache.Active s request.queue id x ∧ cache.Within (Score.getPullMinScore request.minScore)
    (Score.getPullMaxScore (Service.pullMaxScore now request)) x

theorem Takes.within (h : cache.Takes storage w clock request id x) :
    cache.Within (Score.getPullMinScore request.minScore)
      (Score.getPullMaxScore (Service.pullMaxScore (clock 0) request)) x := by
  obtain ⟨ids, hanswer, hwithin, hleft⟩ := @pull_takes (fun i => clock (i + 1)) request.queue
    (Service.pullAmount request.amount) request.ackDeadlineMs _ _ cache w.2
    (pullAmount_ok request.amount)
  by_contra hnot
  have hid : id ∉ ids := fun hid => hnot (hwithin id x h.1 hid)
  apply h.2
  apply Service.run_pull_invariant (I := fun s => cache.Holds s request.queue id)
  · exact hleft id hid ⟨x, h.1⟩
  intro ids' hids' l hl s hs
  rw [hanswer ids' hids'] at hl
  exact holds_remove (fun hmem => hid (hl hmem)) hs

/-- Without bounds, a request takes the only message. -/
theorem takes_withOne (storage : StorageCalls ι σ) (d : σ) (cache : CacheChoice) {y : Number}
    (htag : RedisCache.hasHashTag request.queue = false)
    (hmin : Score.getPullMinScore request.minScore = none)
    (hmax : Score.getPullMaxScore (Service.pullMaxScore (clock 0) request) = none) :
    cache.Takes storage (d, cache.withOne request.queue id y) clock request id (.num y) := by
  refine ⟨active_withOne.mpr ⟨rfl, rfl⟩, ?_⟩
  apply Service.run_pull_invariant (I := fun s => ¬ cache.Holds s request.queue id)
  · rw [Service.pullCall, hmin, hmax]
    exact pull_withOne y htag (pullAmount_ok request.amount)
  · exact fun _ _ l _ s hs h => hs (holds_of_remove request.queue l id h)

end CacheChoice

/-! ## The upper bound -/

section UpperBound

variable {ι σ : Type}

/-- No request with the filter takes a message above the threshold. -/
def Service.FilterBounds (storage : StorageCalls ι σ) (cache : CacheChoice) (now : Time)
    (f : Int64) : Prop :=
  ∀ (w : σ × cache.State) (clock : Clock) (request : PullRequest), clock 0 = now →
    request.maxScore.eq (.ofInt 0) = true → request.scoreFilter = f →
      cache.ActiveInRange w.2 request.queue → ∀ id x, cache.Takes storage w clock request id x →
        x ≤ .ofInt (filterThreshold now f)

/-- What is eligible under the longer filter is eligible under the shorter one. -/
def Service.FilterNarrows (cache : CacheChoice) (now : Time) (f f' : Int64) : Prop :=
  ∀ (s : cache.State) (request : PullRequest), request.maxScore.eq (.ofInt 0) = true →
    cache.ActiveInRange s request.queue → ∀ id,
      cache.Eligible s now { request with scoreFilter := f' } id →
        cache.Eligible s now { request with scoreFilter := f } id

/-- The request for any messages with the filter. -/
def Service.filterRequest (f : Int64) : PullRequest where
  queue := "q"
  scoreFilter := f

theorem Service.filterRequest_maxScore (f : Int64) :
    (filterRequest f).maxScore.eq (.ofInt 0) = true := by
  simp [filterRequest, Float64.ofInt_eq, Float64.num_eq_num]

theorem Service.filterRequest_minScore (f : Int64) :
    Score.getPullMinScore (filterRequest f).minScore = none := by
  simp [filterRequest, Score.getPullMinScore, Float64.ofInt_eq, Float64.num_eq_num]

theorem Score.accepted_max : Accepted (.ofInt 9007199254740992) :=
  ⟨_, rfl, inRange_ofInt (by norm_num) le_rfl⟩

theorem CacheChoice.within_none (cache : CacheChoice) (x : Float64) : cache.Within none none x := by
  cases cache <;> simp [Within]

/-- Both caches compare the score of a message with the upper bound as numbers. -/
theorem CacheChoice.within_iff {cache : CacheChoice} {minScore : Option Float64}
    {maxScore : Option Number} {y : Number} :
    cache.Within minScore (maxScore.map .num) (.num y) ↔
      cache.Within minScore none (.num y) ∧ ∀ hi ∈ maxScore, y ≤ hi := by
  cases cache <;> cases maxScore <;> simp [Within]

namespace Service

variable {now : Time} {f f' : Int64}

theorem eligible_iff {cache : CacheChoice} {s : cache.State} {id : String} (request : PullRequest)
    (hnow : 0 < Dtime.timeToMs now) (hmax : request.maxScore.eq (.ofInt 0) = true)
    (hf : 0 < request.scoreFilter) (hrange : cache.ActiveInRange s request.queue) :
    cache.Eligible s now request id ↔ ∃ y, cache.Active s request.queue id (.num y) ∧
      cache.Within (Score.getPullMinScore request.minScore) none (.num y) ∧
        ∀ hi ∈ filterBound now request.scoreFilter, y ≤ hi := by
  unfold CacheChoice.Eligible
  rw [getPullMaxScore_pullMaxScore hnow hmax hf]
  constructor
  · rintro ⟨x, hactive, hwithin⟩
    obtain ⟨y, rfl, -⟩ := hrange id x hactive
    exact ⟨y, hactive, CacheChoice.within_iff.mp hwithin⟩
  · rintro ⟨y, hactive, hwithin⟩
    exact ⟨_, hactive, CacheChoice.within_iff.mpr hwithin⟩

theorem filterBounds_iff (storage : StorageCalls ι σ) (d : σ) (cache : CacheChoice)
    (hnow : 0 < Dtime.timeToMs now) (hf : 0 < f) :
    FilterBounds storage cache now f ↔ Dtime.timeToMs now ≠ f := by
  constructor
  · intro h heq
    have hnone : Score.getPullMaxScore (pullMaxScore now (filterRequest f)) = none := by
      have hbound : filterBound now (filterRequest f).scoreFilter = none := filterBound_of_eq heq
      rw [getPullMaxScore_pullMaxScore hnow (filterRequest_maxScore f) hf, hbound]
      rfl
    have htaken : cache.Takes storage (d, cache.withOne "q" "a" (.ofInt 9007199254740992))
        (fun _ => now) (filterRequest f) "a" (.ofInt 9007199254740992) :=
      CacheChoice.takes_withOne storage d cache (show RedisCache.hasHashTag "q" = false by decide)
        (filterRequest_minScore f) hnone
    have hle := h _ (fun _ => now) _ rfl (filterRequest_maxScore f) rfl
      (CacheChoice.activeInRange_withOne Score.accepted_max) "a" _ htaken
    exact not_le.mpr (filterThreshold_lt hf) hle
  · rintro hne w clock request rfl hmax rfl hrange id x htaken
    have hwithin := htaken.within
    obtain ⟨y, rfl, -⟩ := hrange id x htaken.1
    rw [getPullMaxScore_pullMaxScore hnow hmax hf, CacheChoice.within_iff,
      filterBound_of_ne hne] at hwithin
    exact hwithin.2 _ rfl

theorem filterNarrows_iff (cache : CacheChoice) (hnow : 0 < Dtime.timeToMs now) (hf : 0 < f)
    (hle : f ≤ f') :
    FilterNarrows cache now f f' ↔ (Dtime.timeToMs now = f' → f = f') := by
  have hf' : 0 < f' := Int64.lt_of_lt_of_le hf hle
  constructor
  · intro h heq
    by_contra hne
    have hrange : cache.ActiveInRange (cache.withOne "q" "a" (.ofInt 9007199254740992)) "q" :=
      CacheChoice.activeInRange_withOne Score.accepted_max
    have hlong : cache.Eligible (cache.withOne "q" "a" (.ofInt 9007199254740992)) now
        (filterRequest f') "a" := by
      rw [eligible_iff _ hnow (filterRequest_maxScore f') hf' hrange, filterRequest_minScore]
      refine ⟨_, CacheChoice.active_withOne.mpr ⟨rfl, rfl⟩, cache.within_none _, ?_⟩
      have hbound : filterBound now (filterRequest f').scoreFilter = none := filterBound_of_eq heq
      simp [hbound]
    have hshort := h _ (filterRequest f) (filterRequest_maxScore f) hrange "a" hlong
    obtain ⟨y, hactive, -, hbound⟩ :=
      (eligible_iff _ hnow (filterRequest_maxScore f) hf hrange).mp hshort
    obtain ⟨-, hy⟩ := CacheChoice.active_withOne.mp hactive
    have hnow' : Dtime.timeToMs now ≠ f := fun h => hne (h.symm.trans heq)
    have hhigh := hbound _ (filterBound_of_ne hnow')
    rw [Float64.num.inj hy] at hhigh
    exact not_le.mpr (filterThreshold_lt hf) hhigh
  · intro h s request hmax hrange id hlong
    by_cases heq : Dtime.timeToMs now = f'
    · rw [h heq]
      exact hlong
    · obtain ⟨y, hactive, hmin, hbound⟩ :=
        (eligible_iff { request with scoreFilter := f' } hnow hmax hf' hrange).mp hlong
      rw [eligible_iff { request with scoreFilter := f } hnow hmax hf hrange]
      refine ⟨y, hactive, hmin, fun hi hhi => ?_⟩
      exact (hbound _ (filterBound_of_ne heq)).trans (ofInt_filterThreshold_le hle hhi)

/-- With either cache and any storage, a filter bounds the scores that are taken exactly if it is
not the time of the request, and it narrows what is eligible under a shorter one exactly if it is
the same or not that time. -/
theorem scoreFilter_bounds_iff (storage : StorageCalls ι σ) (d : σ) (cache : CacheChoice)
    (hnow : 0 < Dtime.timeToMs now) (hf : 0 < f) :
    (FilterBounds storage cache now f ↔ Dtime.timeToMs now ≠ f) ∧
      ∀ f', f ≤ f' → (FilterNarrows cache now f f' ↔ (Dtime.timeToMs now = f' → f = f')) :=
  ⟨filterBounds_iff storage d cache hnow hf, fun _ hle => filterNarrows_iff cache hnow hf hle⟩

/-- At 5 ms, the filters 3 and 4. -/
theorem scoreFilter_bounds_below :
    FilterBounds (MemoryStorage.calls InternalIds.counter (.at 0)) (.memory fun _ _ => [])
        5000000 3 ∧
      FilterNarrows (.memory fun _ _ => []) 5000000 3 4 := by
  have hbounds := scoreFilter_bounds_iff (MemoryStorage.calls InternalIds.counter (.at 0))
    (MemoryStorage.newMemoryStorage 0) (.memory fun _ _ => [])
    (show 0 < Dtime.timeToMs 5000000 by decide) (show (0 : Int64) < 3 by decide)
  exact ⟨hbounds.1.mpr (by decide), (hbounds.2 4 (by decide)).mpr (by decide)⟩

/-- A message with the score 7 is added at 5 ms. -/
def sevenAdded : MemoryStorage ℕ × MemoryCache :=
  addAll (MemoryStorage.calls InternalIds.counter (.at 5000000)) (MemoryCache.calls fun _ _ => [])
    (MemoryStorage.newMemoryStorage 0, MemoryCache.new)
    [adding 5000000 { id := "a", queue := "q", score := .ofInt 7 }]

/-- The filter 5 does not keep the message back at 5 ms, although it is above the threshold
zero, and the shorter filter 3 does. -/
theorem scoreFilter_of_clock_ignored :
    let cache : CacheChoice := .memory fun _ _ => []
    cache.ActiveInRange sevenAdded.2 "q" ∧
      cache.Takes (MemoryStorage.calls InternalIds.counter (.at 5000000)) sevenAdded
        (fun _ => 5000000) (filterRequest 5) "a" (.ofInt 7) ∧
      filterThreshold 5000000 5 = 0 ∧ ¬ Float64.ofInt 7 ≤ .ofInt 0 ∧
      cache.Eligible sevenAdded.2 5000000 (filterRequest 5) "a" ∧
      ¬ cache.Eligible sevenAdded.2 5000000 (filterRequest 3) "a" := by
  have hentries : (MemoryCache.pool sevenAdded.2 .active "q").entries =
      [{ id := "a", score := .ofInt 7 }] := by
    decide +kernel
  have hafter : "a" ∉ ((Prog.run (handle (MemoryStorage.calls InternalIds.counter (.at 5000000))
      (MemoryCache.calls fun _ _ => [])) (pull (fun _ => 5000000) (filterRequest 5))
        sevenAdded).2.2.pool .active "q").ids := by
    decide +kernel
  have hactive : ∀ id x, (CacheChoice.memory fun _ _ => []).Active sevenAdded.2 "q" id x ↔
      id = "a" ∧ x = .ofInt 7 := by
    simp [CacheChoice.Active, hentries, eq_comm]
  have hrange : (CacheChoice.memory fun _ _ => []).ActiveInRange sevenAdded.2 "q" := by
    intro id x hx
    rw [((hactive id x).mp hx).2]
    exact ⟨_, rfl, Score.inRange_ofInt (by norm_num) (by norm_num)⟩
  have hnow : 0 < Dtime.timeToMs 5000000 := by decide
  have hfive : filterBound 5000000 (filterRequest 5).scoreFilter = none := rfl
  have hthree : filterBound 5000000 (filterRequest 3).scoreFilter = some (.ofInt 2) := rfl
  refine ⟨hrange, ⟨(hactive _ _).mpr ⟨rfl, rfl⟩, fun h => hafter (MemoryCache.holds_iff.mp h)⟩,
    by decide, by decide +kernel, ?_, ?_⟩
  · rw [eligible_iff _ hnow (filterRequest_maxScore 5) (by decide) hrange, filterRequest_minScore,
      hfive]
    exact ⟨.ofInt 7, (hactive _ _).mpr ⟨rfl, rfl⟩, CacheChoice.within_none _ _, by simp⟩
  · rw [eligible_iff _ hnow (filterRequest_maxScore 3) (by decide) hrange]
    rintro ⟨y, hy, -, hbound⟩
    have hle := hbound _ hthree
    rw [Float64.num.inj ((hactive "a" _).mp hy).2] at hle
    revert hle
    decide +kernel

end Service

end UpperBound

end Deckard
