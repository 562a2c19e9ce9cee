import Deckard.Queue
import Deckard.RedisRuns
import Deckard.StorageQueries

/-!
# From the active pool to the response of a pull

`RedisCache.PullMessages` moves the first entries within the bounds to the processing pool.
`Queue.Pull` then reads their messages from the storage. A replica may lag behind, so ids
that the first read misses are read once more; the ids that both reads miss are removed from
the cache, and the messages of the two reads are merged.
-/
namespace Deckard

open Binary64 Effect Cache RedisScripts

namespace RedisCache

variable {cache : RedisCache} {s : Redis} {queue : String} {clock : Clock} {n ackDeadlineMs : Int64}
  {minScore maxScore : Option Float64}

/-- The entries of the active pool within the bounds of a pull. -/
def candidates (cache : RedisCache) (s : Redis) (queue : String)
    (minScore maxScore : Option Float64) : List (SortedSet.Entry String Number) :=
  (s.zset (cache.key queue .active)).entries.filter fun e =>
    (minScore.all fun lo => lo ≤ .num e.score) && (maxScore.all fun hi => .num e.score ≤ hi)

/-- The first `n` of them. -/
def best (cache : RedisCache) (s : Redis) (queue : String) (n : Int64)
    (minScore maxScore : Option Float64) : List (SortedSet.Entry String Number) :=
  (cache.candidates s queue minScore maxScore).take n.toInt.toNat

/-- A pull returns the best entries in order and moves them, and nothing else, to the
processing pool. -/
structure TakesBest (cache : RedisCache) (s : Redis) (clock : Clock) (queue : String) (n : Int64)
    (minScore maxScore : Option Float64) (ackDeadlineMs : Int64) (t : Redis) : Prop where
  result : exec (cache.pullMessages clock queue n minScore maxScore ackDeadlineMs) s =
    (.ok ((cache.best s queue n minScore maxScore).map (·.member)), t)
  amount : ((cache.best s queue n minScore maxScore).length : ℤ) =
    min n.toInt (cache.candidates s queue minScore maxScore).length
  ordered : (cache.candidates s queue minScore maxScore).Pairwise SortedSet.Entry.before
  moved : ∀ e ∈ cache.best s queue n minScore maxScore, ∀ pool,
    (t.zset (cache.key queue pool)).score e.member =
      if pool = .active then none
      else if pool = .processing then some (deadline clock ackDeadlineMs)
      else (s.zset (cache.key queue pool)).score e.member
  kept : ∀ id ∉ (cache.best s queue n minScore maxScore).map (·.member), ∀ key,
    (t.zset key).score id = (s.zset key).score id
  others : ∀ key, key ≠ cache.key queue .active → key ≠ cache.key queue .processing →
    t.zset key = s.zset key
  texts : t.str = s.str

theorem map_member_best (minScore maxScore : Option Number) (hn : 0 ≤ n.toInt) :
    (cache.best s queue n (minScore.map .num) (maxScore.map .num)).map (·.member) =
      Redis.limit n.toInt ((s.zset (cache.key queue .active)).rangeByScore
        (minScore.getD .negInf) (maxScore.getD .posInf)) := by
  have hbounds : cache.candidates s queue (minScore.map .num) (maxScore.map .num) =
      (s.zset (cache.key queue .active)).entries.filter fun e =>
        minScore.getD .negInf ≤ e.score ∧ e.score ≤ maxScore.getD .posInf := by
    refine List.filter_congr fun e _ => ?_
    cases minScore <;> cases maxScore <;> simp
  rw [best, hbounds, Redis.limit, if_neg (not_lt.mpr hn), SortedSet.rangeByScore, List.map_take]

theorem length_best (hn : 0 ≤ n.toInt) :
    ((cache.best s queue n minScore maxScore).length : ℤ) =
      min n.toInt (cache.candidates s queue minScore maxScore).length := by
  rw [best, List.length_take]
  omega

theorem pairwise_candidates :
    (cache.candidates s queue minScore maxScore).Pairwise SortedSet.Entry.before :=
  (s.zset (cache.key queue .active)).sorted.filter _

theorem exists_takesBest (h : hasHashTag queue = false) (hlo : 1 ≤ n.toInt) (hhi : n.toInt ≤ 1000)
    (minScore maxScore : Option Number) :
    ∃ t, cache.TakesBest s clock queue n (minScore.map .num) (maxScore.map .num)
      ackDeadlineMs t := by
  have hn : 0 ≤ n.toInt := by omega
  set l := (cache.best s queue n (minScore.map .num) (maxScore.map .num)).map (·.member)
  have hbest : l = _ := map_member_best minScore maxScore hn
  refine ⟨shift s (cache.key queue .processing) (cache.key queue .active)
    (deadline clock ackDeadlineMs) l, ?_, length_best hn, pairwise_candidates, ?_, ?_, ?_, rfl⟩
  · rw [exec_pullMessages h]
    exact exec_wrap_ok (exec_pullElementsScript (by simp) hlo (hhi.trans_lt (by decide))
      minScore maxScore hbest)
  · intro e he pool
    have hmem : e.member ∈ l := List.mem_map_of_mem he
    simp [score_shift, hmem]
  · intro id hid key
    have hout : id ∉ l := hid
    simp only [score_shift, if_neg hout, ite_self]
  · intro key hactive hprocessing
    simp [shift, hactive, hprocessing]

/-- Without bounds, the selection by position is the selection by score. -/
theorem exec_selectElements_unbounded {source : String} {n : ℤ} (hlo : 1 ≤ n) (hhi : n ≤ 1000) :
    exec (selectElements source n none none) s =
      exec (Redis.zrangeByScore source (.num .negInf) (.num .posInf) n) s := by
  have hlimit : n < Redis.luaiMaxCStack := hhi.trans_lt (by decide)
  exact exec_selectElements hlo hlimit none none

/-- A pull takes the best messages, unless a bound is NaN: then it is refused and moves
nothing. -/
theorem pullMessages_takes_best (cache : RedisCache) (s : Redis) (clock : Clock) {queue : String}
    (h : hasHashTag queue = false) {n : Int64} (hlo : 1 ≤ n.toInt) (hhi : n.toInt ≤ 1000)
    (minScore maxScore : Option Float64) (ackDeadlineMs : Int64) :
    (if minScore = some .nan ∨ maxScore = some .nan then
      exec (cache.pullMessages clock queue n minScore maxScore ackDeadlineMs) s =
        (.error (.parsingResult .minOrMaxNotAFloat), s)
    else ∃ t, cache.TakesBest s clock queue n minScore maxScore ackDeadlineMs t) ∧
    exec (selectElements (cache.activePool queue) n.toInt none none) s =
      exec (Redis.zrangeByScore (cache.activePool queue) (.num .negInf) (.num .posInf) n.toInt)
        s := by
  refine ⟨?_, exec_selectElements_unbounded hlo hhi⟩
  split_ifs with hnan
  · exact pullMessages_nan h hnan
  · rw [not_or] at hnan
    obtain ⟨lo, rfl⟩ := exists_bound hnan.1
    obtain ⟨hi, rfl⟩ := exists_bound hnan.2
    exact exists_takesBest h hlo hhi lo hi

/-- Three active messages, two of them with the same score. -/
def threeActive : Redis :=
  Redis.empty.setZ "deckard_v1:queue:\x7bq\x7d"
    (SortedSet.empty.addAll [(.ofInt 1, "a"), (.ofInt 2, "c"), (.ofInt 2, "b")])

/-- Equal scores are taken in the order of the ids. -/
theorem pullMessages_takes_two :
    (∃ t, RedisCache.TakesBest ⟨""⟩ threeActive (fun _ => 0) "q" 2 (some (.ofInt 2)) none 0 t) ∧
      ((RedisCache.best ⟨""⟩ threeActive "q" 2 (some (.ofInt 2)) none).map (·.member)) =
        ["b", "c"] := by
  have h := (pullMessages_takes_best ⟨""⟩ threeActive (fun _ => 0) (show hasHashTag "q" = false by
    decide) (show 1 ≤ (2 : Int64).toInt by decide) (by decide) (some (.ofInt 2)) none 0).1
  rw [if_neg (by simp [Float64.ofInt_eq])] at h
  exact ⟨h, by decide +kernel⟩

/-- No score is above a NaN bound; the call returns an error all the same. -/
theorem pullMessages_refuses_nan :
    hasHashTag "q" = false ∧ RedisCache.candidates ⟨""⟩ threeActive "q" (some .nan) none = [] ∧
      ¬ ∃ t, RedisCache.TakesBest ⟨""⟩ threeActive (fun _ => 0) "q" 2 (some .nan) none 0 t := by
  refine ⟨by decide, by decide +kernel, ?_⟩
  rintro ⟨t, h⟩
  have hresult := h.result
  rw [pullMessages_nan (by decide) (.inl rfl)] at hresult
  cases hresult

end RedisCache

namespace Queue

open Program Prog MongoStorage

variable {ι : Type}

/-- What the stores answer to a pull: the ids that the cache has moved, the documents of the
two reads and what comes of the removal. -/
structure Replies (ι : Type) where
  ids : List String
  first : List (Document ι)
  retry : List (Document ι)
  removal : Except CacheError ℕ

/-- Answer the commands of a pull. The state holds the ids that the cache was asked to remove,
with their queue. -/
def Replies.handle (replies : Replies ι) : (c : Command) → List Key → Answer ι c × List Key
  | .cache (.pullMessages ..), removed => (.ok replies.ids, removed)
  | .storageFind opt, removed => (.ok (if opt.retry then replies.retry else replies.first), removed)
  | .cache (.remove queue ids), removed =>
      (replies.removal, removed ++ ids.map fun id => (queue, id))
  | .cache (.insert ..), removed | .cache (.unlockMessages ..), removed
  | .cache (.timeoutMessages ..), removed => (.ok [], removed)
  | .cache (.makeAvailable ..), removed | .cache (.lockMessage ..), removed => (.ok false, removed)
  | .storageInsert .., removed => (.ok (0, 0), removed)
  | .storageAck .., removed | .storageNack .., removed | .storageRemove .., removed => (0, removed)
  | .cacheGet _, removed => (.ok "", removed)
  | .cacheSet .., removed => (.ok (), removed)

/-- Messages in the order in which the storage sorts by score. -/
def ByScore (messages : List Message) : Prop :=
  messages.Pairwise fun a b => NoneFirst (number a.score) (number b.score)

instance (messages : List Message) : Decidable (ByScore messages) :=
  inferInstanceAs (Decidable (List.Pairwise _ _))

/-- Distinct documents of a queue, among some ids, sorted by score. -/
structure Read (queue : String) (ids : List String) (documents : List (Document ι)) : Prop where
  nodup : (documents.map Row.key).Nodup
  requested : ∀ d ∈ documents, d.key.1 = queue ∧ d.key.2 ∈ ids
  sorted : ByScore (documents.map Document.message)

/-- The ids that the first read has missed. -/
def Replies.missed (replies : Replies ι) : List String :=
  notFoundIds replies.ids (replies.first.map Document.message)

/-- The ids that both reads have missed. -/
def Replies.lost (replies : Replies ι) : List String :=
  notFoundIds replies.missed (replies.retry.map Document.message)

theorem mem_notFoundIds {ids : List String} {documents : List (Document ι)} {id : String} :
    id ∈ notFoundIds ids (documents.map Document.message) ↔
      id ∈ ids ∧ ∀ d ∈ documents, d.key.2 ≠ id := by
  simp [notFoundIds, Document.message]

/-- A pull ends without an error; its outcome is decided by the two reads. -/
theorem run_pull (replies : Replies ι) (clock : Clock) (queue : String) (n : Int64)
    (minScore maxScore : Option Float64) (ackDeadlineMs : Int64) :
    Prog.run replies.handle (pull clock queue n minScore maxScore ackDeadlineMs) [] =
      if replies.ids = [] then (.ok none, [])
      else if replies.missed = [] then (.ok (some (replies.first.map Document.message)), [])
      else (.ok (merge (replies.first.map Document.message) (replies.retry.map Document.message)),
        replies.lost.map fun id => (queue, id)) := by
  rw [pull, perform_bind, run_call]
  change Prog.run replies.handle ((if replies.ids = [] then _ else _ : QueueProg ι _)) [] = _
  split_ifs with hids hmissed
  · rfl
  · change Prog.run replies.handle ((if replies.missed = [] then _ else _ : QueueProg ι _)) [] = _
    rw [if_pos hmissed]
    rfl
  · change Prog.run replies.handle ((if replies.missed = [] then _ else _ : QueueProg ι _)) [] = _
    rw [if_neg hmissed]
    change Prog.run replies.handle (removeMissing queue replies.lost >>= fun _ => .ret
      (merge (replies.first.map Document.message) (replies.retry.map Document.message))) [] = _
    cases replies.lost <;> rfl

theorem getD_merge (messages retryMessages : List Message) :
    (merge messages retryMessages).getD [] =
      if retryMessages = [] then messages else sortByScore (messages ++ retryMessages) := by
  have hall : ∀ all : List Message, (if all = [] then none else some all).getD [] = all := by
    intro all
    split_ifs with h
    · exact h.symm
    · rfl
  exact hall _

theorem getD_merge_perm (messages retryMessages : List Message) :
    ((merge messages retryMessages).getD []).Perm (messages ++ retryMessages) := by
  rw [getD_merge]
  split_ifs with hretry
  · rw [hretry, List.append_nil]
  · exact List.perm_insertionSort _ _

instance : Std.Total fun a b : Message => NoneFirst (number a.score) (number b.score) where
  total _ _ := noneFirst_total _ _

instance : IsTrans Message fun a b => NoneFirst (number a.score) (number b.score) where
  trans _ _ _ := noneFirst_trans

/-- Scores that are numbers are sorted as the storage sorts them. -/
theorem byScore_sortByScore {messages : List Message} (h : ∀ m ∈ messages, m.score ≠ .nan) :
    ByScore (sortByScore messages) := by
  have hsame := List.map_insertionSort (fun a b : Message => ¬ b.score < a.score)
    (fun a b : Message => NoneFirst (number a.score) (number b.score)) id messages
    fun a ha b hb => (noneFirst_number (h a ha) (h b hb)).symm
  rw [List.map_id, List.map_id] at hsame
  rw [sortByScore, hsame]
  exact List.pairwise_insertionSort _ _

/-- What comes of a pull, for any two reads. -/
structure Delivers (replies : Replies ι) (queue : String) (messages : List Message)
    (removed : List Key) : Prop where
  nodup : (messages.map Message.key).Nodup
  requested : ∀ m ∈ messages, m.queue = queue ∧ m.id ∈ replies.ids
  read : ∀ m ∈ messages, ∃ d ∈ replies.first ++ replies.retry, m = d.message
  accounted : ∀ id ∈ replies.ids, (queue, id) ∈ removed ↔ ¬ ∃ m ∈ messages, m.id = id
  lost : ∀ k ∈ removed, k.1 = queue ∧ k.2 ∈ replies.ids ∧
    ∀ d ∈ replies.first ++ replies.retry, d.key.2 ≠ k.2

theorem mem_missed {replies : Replies ι} {id : String} :
    id ∈ replies.missed ↔ id ∈ replies.ids ∧ ∀ d ∈ replies.first, d.key.2 ≠ id :=
  mem_notFoundIds

theorem mem_lost {replies : Replies ι} {id : String} :
    id ∈ replies.lost ↔
      id ∈ replies.ids ∧ ∀ d ∈ replies.first ++ replies.retry, d.key.2 ≠ id := by
  rw [Replies.lost, mem_notFoundIds, mem_missed, List.forall_mem_append, and_assoc]

variable {replies : Replies ι} {queue : String}

/-- The second read is asked only for what the first has missed. -/
theorem nodup_reads (hfirst : Read queue replies.ids replies.first)
    (hretry : Read queue replies.missed replies.retry) :
    ((replies.first ++ replies.retry).map Row.key).Nodup := by
  rw [List.map_append, List.nodup_append']
  refine ⟨hfirst.nodup, hretry.nodup, ?_⟩
  intro k hk hk'
  obtain ⟨d, hd, rfl⟩ := List.mem_map.mp hk
  obtain ⟨d', hd', hkey⟩ := List.mem_map.mp hk'
  have hmissed := (mem_missed.mp (hretry.requested d' hd').2).2 d hd
  exact hmissed (congrArg Prod.snd hkey).symm

/-- Both reads together, in any order, with the ids that neither has found. -/
theorem delivers_of_perm (hfirst : Read queue replies.ids replies.first)
    (hretry : Read queue replies.missed replies.retry) {messages : List Message}
    (hperm : messages.Perm ((replies.first ++ replies.retry).map Document.message)) :
    Delivers replies queue messages (replies.lost.map fun id => (queue, id)) := by
  have hread : ∀ m ∈ messages, ∃ d ∈ replies.first ++ replies.retry, m = d.message := by
    intro m hm
    obtain ⟨d, hd, rfl⟩ := List.mem_map.mp (hperm.mem_iff.mp hm)
    exact ⟨d, hd, rfl⟩
  have hfound : ∀ id, (∃ m ∈ messages, m.id = id) ↔
      ∃ d ∈ replies.first ++ replies.retry, d.key.2 = id := by
    intro id
    simp only [hperm.mem_iff, List.mem_map, exists_exists_and_eq_and]
    rfl
  refine ⟨?_, ?_, hread, ?_, ?_⟩
  · rw [(hperm.map _).nodup_iff, List.map_map]
    exact nodup_reads hfirst hretry
  · intro m hm
    obtain ⟨d, hd, rfl⟩ := hread m hm
    rcases List.mem_append.mp hd with hd | hd
    · exact hfirst.requested d hd
    · obtain ⟨hqueue, hmissed⟩ := hretry.requested d hd
      exact ⟨hqueue, (mem_missed.mp hmissed).1⟩
  · intro id hid
    rw [hfound]
    simp only [List.mem_map, Prod.mk.injEq, true_and, exists_eq_right, mem_lost, hid, not_exists,
      not_and]
  · intro k hk
    obtain ⟨id, hid, rfl⟩ := List.mem_map.mp hk
    exact ⟨rfl, mem_lost.mp hid⟩

/-- A read of no ids finds nothing. -/
theorem Read.eq_nil {ids : List String} {documents : List (Document ι)}
    (h : Read queue ids documents) (hids : ids = []) : documents = [] := by
  rw [List.eq_nil_iff_forall_not_mem]
  intro d hd
  have hrequested := (h.requested d hd).2
  rw [hids] at hrequested
  exact List.not_mem_nil hrequested

/-- A pull neither loses nor invents messages, and keeps the order of the storage if the
second read adds nothing or no score is NaN. -/
theorem pull_delivers (hfirst : Read queue replies.ids replies.first)
    (hretry : Read queue replies.missed replies.retry) (clock : Clock) (n : Int64)
    (minScore maxScore : Option Float64) (ackDeadlineMs : Int64) :
    ∃ r removed, Prog.run replies.handle
        (pull clock queue n minScore maxScore ackDeadlineMs) [] = (.ok r, removed) ∧
      Delivers replies queue (r.getD []) removed ∧
      (replies.retry = [] ∨ (∀ d ∈ replies.first ++ replies.retry, d.value.score ≠ .nan) →
        ByScore (r.getD [])) := by
  rw [run_pull]
  split_ifs with hids hmissed
  · have hmissed : replies.missed = [] := by rw [Replies.missed, hids]; rfl
    have hlost : replies.lost = [] := by rw [Replies.lost, hmissed]; rfl
    have hnil : (replies.first ++ replies.retry).map Document.message = [] := by
      rw [hfirst.eq_nil hids, hretry.eq_nil hmissed]
      rfl
    have h : Delivers replies queue [] _ := delivers_of_perm hfirst hretry (by rw [hnil])
    rw [hlost] at h
    exact ⟨_, _, rfl, h, fun _ => List.Pairwise.nil⟩
  · have hlost : replies.lost = [] := by rw [Replies.lost, hmissed]; rfl
    have hperm : (replies.first.map Document.message).Perm
        ((replies.first ++ replies.retry).map Document.message) := by
      rw [hretry.eq_nil hmissed, List.append_nil]
    have h := delivers_of_perm hfirst hretry hperm
    rw [hlost] at h
    exact ⟨_, _, rfl, h, fun _ => hfirst.sorted⟩
  · refine ⟨_, _, rfl, delivers_of_perm hfirst hretry ?_, fun horder => ?_⟩
    · rw [List.map_append]
      exact getD_merge_perm _ _
    · rw [getD_merge]
      split_ifs with hnil
      · exact hfirst.sorted
      · refine byScore_sortByScore fun m hm => ?_
        rw [← List.map_append] at hm
        obtain ⟨d, hd, rfl⟩ := List.mem_map.mp hm
        rcases horder with hnil' | hnum
        · exact absurd (by rw [hnil', List.map_nil]) hnil
        · exact hnum d hd

/-- A document of the queue `q`. -/
def scored (id : String) (score : Float64) : Document ℕ :=
  ⟨0, ("q", id), { id := id, queue := "q", score := score }⟩

/-- The first read has one of three ids, the second another one. -/
def twoReads : Replies ℕ :=
  { ids := ["a", "b", "c"], first := [scored "a" (.ofInt 3)], retry := [scored "b" (.ofInt 1)],
    removal := .ok 1 }

theorem pull_delivers_both_reads :
    ∃ r removed, Prog.run twoReads.handle (pull (fun _ => 0) "q" 3 none none 0) [] =
        (.ok r, removed) ∧ Delivers twoReads "q" (r.getD []) removed ∧
      (twoReads.retry = [] ∨
        (∀ d ∈ twoReads.first ++ twoReads.retry, d.value.score ≠ .nan) → ByScore (r.getD [])) :=
  pull_delivers ⟨by decide +kernel, by decide +kernel, by decide +kernel⟩
    ⟨by decide +kernel, by decide +kernel, by decide +kernel⟩ (fun _ => 0) 3 none none 0

/-- The second read has a NaN score, which the storage sorts first. -/
def nanRead : Replies ℕ :=
  { ids := ["a", "b", "c"], first := [scored "a" (.ofInt 3)],
    retry := [scored "b" .nan, scored "c" (.ofInt 1)], removal := .ok 0 }

/-- The comparison does not move a score past NaN: 3 stays before 1. -/
theorem pull_out_of_order :
    Read "q" nanRead.ids nanRead.first ∧ Read "q" nanRead.missed nanRead.retry ∧
      ∃ messages, Prog.run nanRead.handle (pull (fun _ => 0) "q" 3 none none 0) [] =
        (.ok (some messages), []) ∧
      messages.map Message.id = ["a", "b", "c"] ∧ ¬ ByScore messages := by
  refine ⟨⟨by decide +kernel, by decide +kernel, by decide +kernel⟩,
    ⟨by decide +kernel, by decide +kernel, by decide +kernel⟩, ?_⟩
  obtain ⟨messages, hmerge, hids⟩ := (Option.any_eq_true _ _).mp (show ((merge
    (nanRead.first.map Document.message) (nanRead.retry.map Document.message)).any fun messages =>
      decide (messages.map Message.id = ["a", "b", "c"] ∧ ¬ ByScore messages)) = true by
    decide +kernel)
  refine ⟨messages, ?_, of_decide_eq_true hids⟩
  rw [run_pull, if_neg (by decide), if_neg (by decide +kernel), hmerge]
  congr 1

end Queue

end Deckard
