import Deckard.RedisRuns

/-!
# Batches with repeated ids

`RedisCache.Insert` cuts its batch into parts of two thousand messages, each added by one
script that leaves out the ids that some pool holds. Within a part the last score of an id
is kept. A later part finds the id in the active pool and leaves it out.
-/
namespace Deckard.RedisCache

open Binary64 Effect Cache RedisScripts

variable {cache : RedisCache} {s t : Redis} {queue id : String} {messages : List Message}

/-- The ids of a batch that no pool holds, in order and with repetitions. -/
def newIds (cache : RedisCache) (s : Redis) (queue : String) (messages : List Message) :
    List String :=
  (messages.map Message.id).filter fun id => ¬ cache.InPools s queue id

/-- The score of the last message of a batch with an id. -/
def lastScore (messages : List Message) (id : String) : Option Float64 :=
  (messages.reverse.find? fun m => m.id = id).map Message.score

/-- The new ids of a batch become active with the score of their last occurrence, the
others stay as they are, and the call returns the new ones. -/
structure KeepsLast (cache : RedisCache) (s : Redis) (queue : String) (messages : List Message)
    (t : Redis) : Prop where
  result : exec (cache.insert queue messages) s = (.ok (cache.newIds s queue messages), t)
  added : ∀ id ∈ cache.newIds s queue messages,
    ((t.zset (cache.key queue .active)).score id).map .num = lastScore messages id
  kept : ∀ id, cache.InPools s queue id → ∀ pool,
    (t.zset (cache.key queue pool)).score id = (s.zset (cache.key queue pool)).score id

/-- No part repeats a new id of an earlier part. -/
def NotSplit (cache : RedisCache) (s : Redis) (queue : String) (parts : List (List Message)) :
    Prop :=
  parts.Pairwise fun part later =>
    ∀ m ∈ part, ∀ m' ∈ later, m.id = m'.id → cache.InPools s queue m.id

/-- Every new id of a batch has scores that Redis accepts. -/
def NewScoresOk (cache : RedisCache) (s : Redis) (queue : String) (messages : List Message) :
    Prop :=
  ∀ m ∈ messages, m.score = .nan → cache.InPools s queue m.id

/-! ## One part -/

theorem missing_iff_not_inPools (e : Float64 × String) :
    missing s [cache.key queue .active, cache.key queue (.lock .lockNack),
      cache.key queue (.lock .lockAck), cache.key queue .processing] e = true ↔
      ¬ cache.InPools s queue e.2 := by
  simp only [missing, InPools, messagePools, Holds, List.any_cons, List.any_nil, List.mem_cons,
    List.not_mem_nil, Bool.not_eq_true', Bool.or_false, Bool.or_eq_false_iff]
  grind

/-- The messages of a batch whose ids no pool holds, as the script adds them. -/
def newPairs (cache : RedisCache) (s : Redis) (queue : String) (messages : List Message) :
    List (Float64 × String) :=
  (messages.filter fun m => ¬ cache.InPools s queue m.id).map fun m => (m.score, m.id)

theorem map_snd_newPairs : (cache.newPairs s queue messages).map Prod.snd =
    cache.newIds s queue messages := by
  simp only [newPairs, newIds, List.map_map, List.filter_map]
  rfl

theorem filter_missing : (messages.map fun m => (m.score, m.id)).filter
    (missing s [cache.key queue .active, cache.key queue (.lock .lockNack),
      cache.key queue (.lock .lockAck), cache.key queue .processing]) =
    cache.newPairs s queue messages := by
  rw [List.filter_map, newPairs]
  congr 1
  refine List.filter_congr fun m _ => ?_
  rw [Bool.eq_iff_iff, Function.comp_apply, missing_iff_not_inPools]
  simp

theorem newPairs_append (messages' : List Message) :
    cache.newPairs s queue (messages ++ messages') =
      cache.newPairs s queue messages ++ cache.newPairs s queue messages' := by
  simp [newPairs]

theorem newIds_append (messages' : List Message) :
    cache.newIds s queue (messages ++ messages') =
      cache.newIds s queue messages ++ cache.newIds s queue messages' := by
  simp [newIds]

theorem mem_newIds : id ∈ cache.newIds s queue messages ↔
    (∃ m ∈ messages, m.id = id) ∧ ¬ cache.InPools s queue id := by
  simp [newIds]

/-- State after pairs have been added to the active pool. -/
def activated (cache : RedisCache) (s : Redis) (queue : String) (ps : List (Number × String)) :
    Redis :=
  s.setZ (cache.key queue .active) ((s.zset (cache.key queue .active)).addAll ps)

theorem activated_append (ps ps' : List (Number × String)) :
    cache.activated (cache.activated s queue ps) queue ps' =
      cache.activated s queue (ps ++ ps') := by
  simp [activated, SortedSet.addAll]

theorem inPools_activated {ps : List (Number × String)} :
    cache.InPools (cache.activated s queue ps) queue id ↔
      cache.InPools s queue id ∨ id ∈ ps.map Prod.snd := by
  simp only [InPools, messagePools, Holds, activated, Redis.zset_setZ, key_inj, List.mem_cons,
    List.not_mem_nil, or_false, exists_eq_or_imp, exists_eq_left, true_and, reduceCtorEq, if_true,
    if_false, SortedSet.score_addAll, Option.isSome_or, Bool.or_eq_true,
    SortedSet.lastScore_isSome]
  rw [or_assoc, or_comm]

theorem parseScores_newPairs (h : cache.NewScoresOk s queue messages) :
    ∃ ps, Redis.parseScores (cache.newPairs s queue messages) = some ps := by
  rw [← Option.isSome_iff_exists, ← Option.ne_none_iff_isSome, Ne, Redis.parseScores_eq_none]
  rintro ⟨e, he, hnan⟩
  obtain ⟨m, hm, rfl⟩ := List.mem_map.mp he
  rw [List.mem_filter, decide_eq_true_eq] at hm
  exact hm.2 (h m hm.1 hnan)

/-- A part is added as a whole, unless Redis refuses the score of a new id. -/
theorem exec_insertPart (hlen : messages.length ≤ 2000) {ps : List (Number × String)}
    (hp : Redis.parseScores (cache.newPairs s queue messages) = some ps) :
    exec (insertPart cache queue messages) s =
      (.ok (cache.newIds s queue messages), cache.activated s queue ps) := by
  have hids : ps.map Prod.snd = cache.newIds s queue messages := by
    rw [← map_snd_newPairs, Redis.parseScores_eq_some.mp hp, List.map_map]
    rfl
  rw [← filter_missing] at hp
  rw [← hids]
  exact exec_wrap_ok (exec_addElementsScript hp (pairs_fit hlen))

theorem exec_insertPart_nan (hlen : messages.length ≤ 2000)
    (h : ¬ cache.NewScoresOk s queue messages) :
    exec (insertPart cache queue messages) s =
      (.error (.insertingCache .notAValidFloat), s) := by
  simp only [NewScoresOk, not_forall] at h
  obtain ⟨m, hm, hnan, hnew⟩ := h
  have hp : Redis.parseScores (cache.newPairs s queue messages) = none := by
    rw [Redis.parseScores_eq_none]
    exact ⟨_, List.mem_map_of_mem (List.mem_filter.mpr ⟨hm, decide_eq_true hnew⟩), hnan⟩
  rw [← filter_missing] at hp
  exact exec_wrap_error (exec_addElementsScript_nan hp (pairs_fit hlen))

/-! ## All parts -/

variable {parts : List (List Message)} {ls : List (List String)}

theorem newPairs_congr
    (h : ∀ m ∈ messages, cache.InPools t queue m.id ↔ cache.InPools s queue m.id) :
    cache.newPairs t queue messages = cache.newPairs s queue messages := by
  rw [newPairs, newPairs]
  congr 1
  exact List.filter_congr fun m hm => by rw [decide_eq_decide, h m hm]

theorem newIds_congr (h : ∀ m ∈ messages, cache.InPools t queue m.id ↔ cache.InPools s queue m.id) :
    cache.newIds t queue messages = cache.newIds s queue messages := by
  rw [← map_snd_newPairs, ← map_snd_newPairs, newPairs_congr h]

theorem newScoresOk_congr
    (h : ∀ m ∈ messages, cache.InPools t queue m.id ↔ cache.InPools s queue m.id) :
    cache.NewScoresOk t queue messages ↔ cache.NewScoresOk s queue messages :=
  forall₂_congr fun m hm => by rw [h m hm]

theorem notSplit_congr
    (h : ∀ m ∈ parts.flatten, cache.InPools t queue m.id ↔ cache.InPools s queue m.id) :
    cache.NotSplit t queue parts ↔ cache.NotSplit s queue parts := by
  refine List.Pairwise.iff_of_mem fun {part} {later} hpart _ => ?_
  refine forall₂_congr fun m hm => ?_
  rw [h m (List.mem_flatten_of_mem hpart hm)]

theorem newScoresOk_append (messages' : List Message) :
    cache.NewScoresOk s queue (messages ++ messages') ↔
      cache.NewScoresOk s queue messages ∧ cache.NewScoresOk s queue messages' := by
  simp only [NewScoresOk, List.forall_mem_append]

/-- Pairs of one part leave the presence of other ids as it was. -/
theorem inPools_activated_iff {ps : List (Number × String)}
    (hp : Redis.parseScores (cache.newPairs s queue messages) = some ps) :
    cache.InPools (cache.activated s queue ps) queue id ↔
      cache.InPools s queue id ∨ id ∈ cache.newIds s queue messages := by
  rw [inPools_activated, ← map_snd_newPairs, Redis.parseScores_eq_some.mp hp, List.map_map]
  rfl

theorem exec_insertParts (hlen : ∀ part ∈ parts, part.length ≤ 2000)
    (hscores : cache.NewScoresOk s queue parts.flatten) (hsplit : cache.NotSplit s queue parts) :
    ∃ ls ps, exec (parts.mapM (insertPart cache queue)) s = (.ok ls, cache.activated s queue ps) ∧
      ls.flatten = cache.newIds s queue parts.flatten ∧
      Redis.parseScores (cache.newPairs s queue parts.flatten) = some ps := by
  induction parts generalizing s with
  | nil => exact ⟨[], [], by simp [activated, SortedSet.addAll], rfl, rfl⟩
  | cons part parts ih =>
    rw [List.flatten_cons, newScoresOk_append] at hscores
    rw [NotSplit, List.pairwise_cons] at hsplit
    obtain ⟨ps, hps⟩ := parseScores_newPairs hscores.1
    have hsame : ∀ m ∈ parts.flatten, cache.InPools (cache.activated s queue ps) queue m.id ↔
        cache.InPools s queue m.id := by
      intro m hm
      rw [inPools_activated_iff hps, or_iff_left_iff_imp, mem_newIds]
      rintro ⟨⟨m', hm', heq⟩, -⟩
      obtain ⟨later, hlater, hin⟩ := List.mem_flatten.mp hm
      exact heq ▸ hsplit.1 later hlater m' hm' m hin heq
    obtain ⟨ls, qs, hrun, hls, hqs⟩ := ih (fun part' h => hlen part' (List.mem_cons_of_mem _ h))
      ((newScoresOk_congr hsame).mpr hscores.2) ((notSplit_congr hsame).mpr hsplit.2)
    rw [newIds_congr hsame] at hls
    rw [newPairs_congr hsame] at hqs
    refine ⟨cache.newIds s queue part :: ls, ps ++ qs, ?_, ?_, ?_⟩
    · rw [List.mapM_cons, exec_bind, exec_insertPart (hlen part List.mem_cons_self) hps, andThen_ok,
        exec_bind, hrun, activated_append]
      rfl
    · rw [List.flatten_cons, List.flatten_cons, newIds_append, hls]
    · rw [List.flatten_cons, newPairs_append, Redis.parseScores_eq_some,
        Redis.parseScores_eq_some.mp hps, Redis.parseScores_eq_some.mp hqs, List.map_append]

theorem newIds_activated_sublist (ps : List (Number × String)) :
    (cache.newIds (cache.activated s queue ps) queue messages).Sublist
      (cache.newIds s queue messages) := by
  refine List.monotone_filter_right _ fun id hid => ?_
  rw [decide_eq_true_eq, inPools_activated] at hid
  exact decide_eq_true fun h => hid (.inl h)

/-- The first part of a run that succeeds has been added. -/
theorem exec_insertParts_cons {part : List Message} (hlen : part.length ≤ 2000)
    (h : exec ((part :: parts).mapM (insertPart cache queue)) s = (.ok ls, t)) :
    cache.NewScoresOk s queue part ∧ ∃ ps ls',
      Redis.parseScores (cache.newPairs s queue part) = some ps ∧
      exec (parts.mapM (insertPart cache queue)) (cache.activated s queue ps) = (.ok ls', t) ∧
      ls = cache.newIds s queue part :: ls' := by
  rw [List.mapM_cons, exec_bind] at h
  by_cases hscores : cache.NewScoresOk s queue part
  · obtain ⟨ps, hps⟩ := parseScores_newPairs hscores
    rw [exec_insertPart hlen hps, andThen_ok, exec_bind] at h
    rcases hrest : exec (parts.mapM (insertPart cache queue)) (cache.activated s queue ps) with
      ⟨e | ls', t'⟩
    · rw [hrest, andThen_error] at h
      cases h
    · rw [hrest, andThen_ok, exec_pure] at h
      cases h
      exact ⟨hscores, ps, ls', hps, hrest, rfl⟩
  · rw [exec_insertPart_nan hlen hscores, andThen_error] at h
    cases h

/-- Each part returns new ids only, those of earlier parts left out. -/
theorem insertParts_sublist (hlen : ∀ part ∈ parts, part.length ≤ 2000)
    (h : exec (parts.mapM (insertPart cache queue)) s = (.ok ls, t)) :
    ls.flatten.Sublist (cache.newIds s queue parts.flatten) := by
  induction parts generalizing s ls with
  | nil =>
    cases h
    exact List.nil_sublist _
  | cons part parts ih =>
    obtain ⟨-, ps, ls', -, hrest, rfl⟩ := exec_insertParts_cons (hlen part List.mem_cons_self) h
    rw [List.flatten_cons, List.flatten_cons, newIds_append]
    have hsub := ih (fun part' h => hlen part' (List.mem_cons_of_mem _ h)) hrest
    exact (hsub.trans (newIds_activated_sublist ps)).append_left _

/-- If the parts return all new ids of the batch, none of them has been left out. -/
theorem notSplit_of_insertParts (hlen : ∀ part ∈ parts, part.length ≤ 2000)
    (h : exec (parts.mapM (insertPart cache queue)) s = (.ok ls, t))
    (hall : ls.flatten = cache.newIds s queue parts.flatten) :
    cache.NewScoresOk s queue parts.flatten ∧ cache.NotSplit s queue parts := by
  induction parts generalizing s ls with
  | nil => exact ⟨by simp [NewScoresOk], List.Pairwise.nil⟩
  | cons part parts ih =>
    obtain ⟨hscores, ps, ls', hps, hrest, rfl⟩ :=
      exec_insertParts_cons (hlen part List.mem_cons_self) h
    have hlen' : ∀ part' ∈ parts, part'.length ≤ 2000 := fun part' h =>
      hlen part' (List.mem_cons_of_mem _ h)
    rw [List.flatten_cons, List.flatten_cons, newIds_append, List.append_cancel_left_eq] at hall
    have hsame : cache.newIds (cache.activated s queue ps) queue parts.flatten =
        cache.newIds s queue parts.flatten :=
      (newIds_activated_sublist ps).antisymm (hall ▸ insertParts_sublist hlen' hrest)
    have hpools : ∀ m ∈ parts.flatten, cache.InPools (cache.activated s queue ps) queue m.id ↔
        cache.InPools s queue m.id := by
      intro m hm
      rw [← not_iff_not]
      constructor
      · exact mt fun h => (inPools_activated_iff hps).mpr (.inl h)
      · intro hnew
        have hmem := mem_newIds.mpr ⟨⟨m, hm, rfl⟩, hnew⟩
        exact (mem_newIds.mp (hsame ▸ hmem)).2
    obtain ⟨hscores', hsplit⟩ := ih hlen' hrest (hall.trans hsame.symm)
    refine ⟨(newScoresOk_append _).mpr ⟨hscores, (newScoresOk_congr hpools).mp hscores'⟩,
      List.pairwise_cons.mpr ⟨?_, (notSplit_congr hpools).mp hsplit⟩⟩
    intro later hlater m hm m' hm' heq
    rw [heq, ← hpools m' (List.mem_flatten_of_mem hlater hm'), inPools_activated_iff hps,
      mem_newIds]
    exact or_iff_not_imp_left.mpr fun hnew => ⟨⟨m, hm, heq⟩, hnew⟩

/-! ## The whole batch -/

theorem length_part {part : List Message} (h : part ∈ Gopart.partition 2000 messages) :
    part.length ≤ 2000 :=
  (Gopart.mem_partition (by norm_num) h).2

theorem flatten_parts : (Gopart.partition 2000 messages).flatten = messages :=
  Gopart.flatten_partition (by norm_num) messages

/-- The added pairs give a new id the score of its last message. -/
theorem lastScore_newPairs {ps : List (Number × String)}
    (hp : Redis.parseScores (cache.newPairs s queue messages) = some ps)
    (hnew : ¬ cache.InPools s queue id) :
    (SortedSet.lastScore ps id).map .num = lastScore messages id := by
  have hpairs : ((cache.newPairs s queue messages).reverse.find? fun e => e.2 = id).map Prod.fst =
      lastScore messages id := by
    rw [newPairs, ← List.map_reverse, List.find?_map, Option.map_map, ← List.filter_reverse,
      List.find?_filter, lastScore]
    have hsame : ∀ m : Message, (decide (¬ cache.InPools s queue m.id) = true ∧
        decide (m.id = id) = true) ↔ m.id = id := by
      intro m
      rw [decide_eq_true_eq, decide_eq_true_eq, and_iff_right_iff_imp]
      exact fun h => h ▸ hnew
    simp only [Function.comp_def, hsame]
  rw [← hpairs, Redis.parseScores_eq_some.mp hp, ← List.map_reverse, List.find?_map,
    SortedSet.lastScore, Option.map_map, Option.map_map]
  rfl

/-- A call that keeps the last scores has been accepted and has left no new id out. -/
theorem KeepsLast.notSplit (h : cache.KeepsLast s queue messages t) :
    Insertable queue messages ∧ cache.NewScoresOk s queue messages ∧
      cache.NotSplit s queue (Gopart.partition 2000 messages) := by
  have hins : Insertable queue messages := by
    by_contra hrej
    obtain ⟨e, he⟩ : ∃ e, exec (cache.insert queue messages) s = (.error e, s) :=
      insert_rejected hrej
    rw [h.result] at he
    cases he
  have hrun := h.result
  rw [exec_insert hins] at hrun
  rcases hparts : exec ((Gopart.partition 2000 messages).mapM (insertPart cache queue)) s with
    ⟨e | ls, u⟩
  · rw [hparts, andThen_error] at hrun
    cases hrun
  · rw [hparts, andThen_ok, exec_pure] at hrun
    obtain ⟨hscores, hsplit⟩ := notSplit_of_insertParts (fun _ => length_part) hparts
      (by rw [flatten_parts]; exact Except.ok.inj (congrArg Prod.fst hrun))
    rw [flatten_parts] at hscores
    exact ⟨hins, hscores, hsplit⟩

/-- The last score of every new id is kept and every occurrence of it returned exactly if
the call is accepted, the new ids have scores that Redis accepts and none of them occurs in
two parts of the batch. -/
theorem insert_keepsLast_iff (cache : RedisCache) (s : Redis) (queue : String)
    (messages : List Message) :
    (∃ t, cache.KeepsLast s queue messages t) ↔
      Insertable queue messages ∧ cache.NewScoresOk s queue messages ∧
        cache.NotSplit s queue (Gopart.partition 2000 messages) := by
  constructor
  · rintro ⟨t, h⟩
    exact h.notSplit
  · rintro ⟨hins, hscores, hsplit⟩
    obtain ⟨ls, ps, hparts, hls, hps⟩ := exec_insertParts (fun _ => length_part)
      (by rw [flatten_parts]; exact hscores) hsplit
    rw [flatten_parts] at hls hps
    refine ⟨cache.activated s queue ps, ?_, ?_, ?_⟩
    · rw [exec_insert hins, hparts, andThen_ok, exec_pure, hls]
    · intro id hid
      obtain ⟨⟨m, hm, hmid⟩, hnew⟩ := mem_newIds.mp hid
      have habsent : (s.zset (cache.key queue .active)).score id = none := by
        by_contra hne
        exact hnew ⟨.active, by simp [messagePools], Option.isSome_iff_ne_none.mpr hne⟩
      rw [activated, Redis.zset_setZ, if_pos rfl, SortedSet.score_addAll, habsent, Option.or_none,
        lastScore_newPairs hps hnew]
    · intro id hid pool
      have hnone : SortedSet.lastScore ps id = none := by
        rw [← Option.not_isSome_iff_eq_none, SortedSet.lastScore_isSome]
        intro hmem
        have hnew : id ∈ cache.newIds s queue messages := by
          rw [← map_snd_newPairs, Redis.parseScores_eq_some.mp hps, List.map_map]
          exact hmem
        exact (mem_newIds.mp hnew).2 hid
      rw [activated, Redis.zset_setZ]
      split_ifs with hpool
      · rw [SortedSet.score_addAll, hnone, Option.none_or, hpool]
      · rfl

theorem partition_concat {size : ℕ} {xs : List Message} (hsize : 0 < size) (hlen : xs.length = size)
    (m : Message) : Gopart.partition size (xs ++ [m]) = [xs, [m]] := by
  have hxs : xs ≠ [] := List.length_pos_iff.mp (hlen ▸ hsize)
  refine ((Gopart.partitions_iff hsize).mp ⟨by simp, by simpa using hlen, ?_⟩).symm
  exact List.forall_mem_cons.mpr ⟨⟨hxs, hlen.le⟩, List.forall_mem_singleton.mpr
    ⟨List.cons_ne_nil _ _, hsize⟩⟩

/-- Messages of one id and score that fill a part, and one more with another score. -/
def splitBatch : List Message :=
  List.replicate 2000 { id := "a", queue := "q", score := .ofInt 1 } ++
    [{ id := "a", queue := "q", score := .ofInt 2 }]

/-- The last message of the batch is alone in its part: its score is dropped and its id not
returned. -/
theorem insert_drops_last :
    Insertable "q" splitBatch ∧ lastScore splitBatch "a" = some (.ofInt 2) ∧
      ¬ ∃ t, RedisCache.KeepsLast ⟨""⟩ Redis.empty "q" splitBatch t := by
  refine ⟨⟨by decide, fun m hm => ?_⟩, ?_, ?_⟩
  · rw [splitBatch, List.mem_append, List.mem_replicate, List.mem_singleton] at hm
    rcases hm with ⟨-, rfl⟩ | rfl <;> rfl
  · rw [lastScore, splitBatch, List.reverse_append]
    rfl
  · rintro ⟨t, h⟩
    have hsplit := h.notSplit.2.2
    rw [splitBatch, partition_concat (by norm_num) List.length_replicate, NotSplit,
      List.pairwise_pair] at hsplit
    obtain ⟨pool, -, hholds⟩ := hsplit _ (List.mem_replicate.mpr ⟨by norm_num, rfl⟩) _
      (List.mem_singleton.mpr rfl) rfl
    cases hholds

end Deckard.RedisCache
