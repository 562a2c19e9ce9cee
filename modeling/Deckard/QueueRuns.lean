import Deckard.ServiceCommands
import Deckard.StorageQueries

/-!
# Successful runs of the queue

What a function of the queue has done to the documents and to the places when it runs
alone and returns no error.
-/
namespace Deckard

open Binary64 Effect Cache Program Prog RedisCache

variable {ι : Type} [LinearOrder ι] {stores : Stores ι} {w w' : World ι} {P P' : Places}

omit [LinearOrder ι] in
theorem run_attempt_ok {σ ε ε' α : Type} {handle : (c : Command) → σ → Answer ι c × σ}
    {f : ε' → ε} {r : Except ε' α} {a : α} {s s' : σ} :
    Prog.run handle (Queue.attempt f r) s = (.ok a, s') ↔ r = .ok a ∧ s' = s := by
  cases r with
  | ok b =>
    simp only [Queue.attempt, run_ret, Prod.mk.injEq, Except.ok.injEq]
    exact and_congr_right fun _ => eq_comm
  | error e => simp [Queue.attempt]

/-- A cache call and its answer. -/
theorem run_cache_ok {ε : Type} {op : Op} {f : CacheError → ε} {a : op.Value}
    (hs : stores.cache.Represents w.redis P) (hamount : op.AmountOk)
    (h : Prog.run stores.handle (perform (.cache op) >>= Queue.attempt f) w = (.ok a, w')) :
    ∃ P', stores.cache.Represents w'.redis P' ∧ w'.docs = w.docs ∧
      w'.redis.str = w.redis.str ∧ Moves P op (op.result a) P' := by
  obtain ⟨answer, w₁, hrun, hattempt⟩ := run_bind_ok.mp h
  obtain ⟨hanswer, rfl⟩ := run_attempt_ok.mp hattempt
  rw [run_perform, Prod.mk.injEq, Except.ok.injEq] at hrun
  obtain ⟨hcall, rfl⟩ := hrun
  obtain ⟨P', ht, hstr, hmoves⟩ := handle_cache (w := w) hs hamount
  rw [hcall, hanswer] at hmoves
  exact ⟨P', ht, rfl, hstr, hmoves⟩

/-- Places after messages have been added: those in some pool stay where they are. -/
structure Added (P P' : Places) (messages : List Message) : Prop where
  old : ∀ q id, P q id ≠ .absent → P' q id = P q id
  new : ∀ q id, P q id = .absent → P' q id ≠ .absent →
    ∃ m ∈ messages, m.key = (q, id) ∧ ∃ x, m.score = .num x ∧ P' q id = .active x

theorem Added.refl (P : Places) (messages : List Message) : Added P P messages :=
  ⟨fun _ _ _ => rfl, fun _ _ h h' => absurd h h'⟩

theorem Added.trans {P₁ : Places} {messages : List Message} (h : Added P P₁ messages)
    (h' : Added P₁ P' messages) : Added P P' messages := by
  refine ⟨fun q id hp => ?_, fun q id hp hp' => ?_⟩
  · have hp₁ : P₁ q id ≠ .absent := by
      rw [h.old q id hp]
      exact hp
    rw [h'.old q id hp₁, h.old q id hp]
  · by_cases hp₁ : P₁ q id = .absent
    · exact h'.new q id hp₁ hp'
    · obtain ⟨m, hm, hkey, x, hx, hplace⟩ := h.new q id hp hp₁
      exact ⟨m, hm, hkey, x, hx, by rw [h'.old q id hp₁, hplace]⟩

theorem RedisCache.Inserts.added {queue : String} {messages : List Message} {l : List String}
    (h : Inserts P P' queue (messages.filter fun m => m.queue = queue) l) :
    Added P P' messages := by
  refine ⟨fun q id hp => h.kept hp, fun q id hp hp' => ?_⟩
  obtain ⟨rfl, hid⟩ := h.added_of_ne (by rwa [hp])
  obtain ⟨-, m, hm, hmid, x, hx, hplace⟩ := h.new id hid
  obtain ⟨hm, hqueue⟩ := List.mem_filter.mp hm
  have hq : m.queue = q := by simpa using hqueue
  exact ⟨m, hm, Prod.ext hq hmid, x, hx, hplace⟩

/-- One queue after the other: all messages of the queues end up in some pool. -/
theorem run_addQueues_ok {messages : List Message} {queues : List String} {n : ℕ}
    (hs : stores.cache.Represents w.redis P)
    (h : Prog.run stores.handle (Queue.addQueues messages queues) w = (.ok n, w')) :
    ∃ P', stores.cache.Represents w'.redis P' ∧ w'.docs = w.docs ∧ w'.redis.str = w.redis.str ∧
      Added P P' messages ∧ ∀ m ∈ messages, m.queue ∈ queues → P' m.queue m.id ≠ .absent := by
  induction queues generalizing w P n with
  | nil =>
    cases h
    exact ⟨P, hs, rfl, rfl, Added.refl P messages, by simp⟩
  | cons queue queues ih =>
    obtain ⟨answer, w₁, hperform, h⟩ := run_bind_ok.mp h
    obtain ⟨l, w₂, hattempt, h⟩ := run_bind_ok.mp h
    obtain ⟨count, w₃, hrest, h⟩ := run_bind_ok.mp h
    cases h
    obtain ⟨P₁, hs₁, hdocs₁, hstr₁, hmoves⟩ := run_cache_ok hs
      (show (Op.insert queue (messages.filter fun m => m.queue = queue)).AmountOk from trivial)
      (run_bind_ok.mpr ⟨answer, w₁, hperform, hattempt⟩)
    obtain ⟨P', ht, hdocs, hstr, hadded, hall⟩ := ih hs₁ hrest
    cases hmoves with
    | inserted _ hins hpresent =>
      refine ⟨P', ht, hdocs.trans hdocs₁, hstr.trans hstr₁, hins.added.trans hadded, ?_⟩
      intro m hm hqueue
      rcases List.mem_cons.mp hqueue with hq | hq
      · have hm₁ := hpresent m (List.mem_filter.mpr ⟨hm, by simpa using hq⟩)
        rw [← hq] at hm₁
        rw [hadded.old _ _ hm₁]
        exact hm₁
      · exact hall m hm hq

/-- A message is settled in the storage first and then in the cache. -/
theorem run_settle_ok {write : Message → Command} {lockType : LockType} {clock : Clock}
    {message : Message} {b : Bool}
    (h : Prog.run stores.handle (Queue.settle write lockType clock message) w = (.ok b, w')) :
    message.queue ≠ "" ∧
    ((0 < message.lockMs ∧ Prog.run stores.handle
        (perform (.cache (.lockMessage clock message lockType)) >>=
          Queue.attempt QueueError.cache) (stores.handle (write message) w).2 = (.ok b, w')) ∨
      (¬ 0 < message.lockMs ∧ Prog.run stores.handle
        (perform (.cache (.makeAvailable message)) >>= Queue.attempt QueueError.cache)
        (stores.handle (write message) w).2 = (.ok b, w'))) := by
  unfold Queue.settle at h
  split_ifs at h with hq hid hms
  · cases h
  · cases h
  · obtain ⟨answer, w₁, hperform, h⟩ := run_bind_ok.mp h
    cases hperform
    exact ⟨hq, .inl ⟨hms, h⟩⟩
  · obtain ⟨answer, w₁, hperform, h⟩ := run_bind_ok.mp h
    cases hperform
    exact ⟨hq, .inr ⟨hms, h⟩⟩

/-- A removal takes the ids out of both stores. -/
theorem run_remove_ok {queue : String} {ids : List String} {r : ℕ × ℕ}
    (hs : stores.cache.Represents w.redis P)
    (h : Prog.run stores.handle (Queue.remove queue ids) w = (.ok r, w')) :
    stores.cache.Represents w'.redis (P.replace queue ids fun _ => .absent) ∧
      w'.docs = (MongoStorage.remove queue ids w.docs).2 := by
  obtain ⟨storageCount, w₁, hstorage, h⟩ := run_bind_ok.mp h
  cases hstorage
  obtain ⟨answer, w₂, hperform, h⟩ := run_bind_ok.mp h
  obtain ⟨cacheCount, w₃, hattempt, h⟩ := run_bind_ok.mp h
  cases h
  obtain ⟨P', ht, hdocs, -, hmoves⟩ := run_cache_ok
    (w := (stores.handle (.storageRemove queue ids) w).2) hs
    (show (Op.remove queue ids).AmountOk from trivial)
    (run_bind_ok.mpr ⟨answer, w₂, hperform, hattempt⟩)
  cases hmoves with
  | removed => exact ⟨ht, hdocs⟩

theorem run_getFromStorage_ok {ids : List String} (hids : ids ≠ []) {queue : String}
    (hqueue : queue ≠ "") {retry : Bool} {r : List Message × List String}
    (h : Prog.run stores.handle (Queue.getFromStorage ids queue retry) w = (.ok r, w')) :
    w' = w ∧ ∃ ds : List (Document ι),
      ds.Pairwise (MongoStorage.inOrder [(.score, .ascending)]) ∧
      (∀ d, d ∈ ds ↔ d ∈ w.docs.rows ∧ d.key.1 = queue ∧ d.key.2 ∈ ids) ∧
      r = (ds.map Document.message, Queue.notFoundIds ids (ds.map Document.message)) := by
  obtain ⟨answer, w₁, hfind, h⟩ := run_bind_ok.mp h
  cases hfind
  obtain ⟨ds, w₂, hattempt, h⟩ := run_bind_ok.mp h
  obtain ⟨hds, hw⟩ := run_attempt_ok.mp hattempt
  obtain ⟨ds', hfind', hsorted, hmem⟩ := MongoStorage.find_ids stores.internalIds w.docs hids hqueue
    [(.score, .ascending)] retry
  have heq : ds = ds' := Except.ok.inj (hds.symm.trans hfind')
  cases h
  subst heq
  exact ⟨hw, ds, hsorted, hmem, rfl⟩

/-- When all messages of the pools are stored, a pull returns the documents of the ids it
takes, by score, and removes nothing. -/
theorem run_pull_ok {clock : Clock} {queue : String} {n d : Int64}
    {minScore maxScore : Option Float64} {r : Option (List Message)}
    (hs : stores.cache.Represents w.redis P)
    (hamount : (Op.pullMessages clock queue n minScore maxScore d).AmountOk)
    (hstored : ∀ id x, P queue id = .active x → queue ≠ "" ∧ (w.docs.get (queue, id)).isSome)
    (h : Prog.run stores.handle (Queue.pull clock queue n minScore maxScore d) w = (.ok r, w')) :
    ∃ l P', stores.cache.Represents w'.redis P' ∧ w'.docs = w.docs ∧
      Moves P (.pullMessages clock queue n minScore maxScore d) (.ids l) P' ∧
      ∃ ds : List (Document ι), ds.Pairwise (MongoStorage.inOrder [(.score, .ascending)]) ∧
        (∀ d ∈ ds, d ∈ w.docs.rows ∧ d.key.1 = queue ∧ d.key.2 ∈ l) ∧
        r.getD [] = ds.map Document.message := by
  obtain ⟨answer, w₁, hperform, h⟩ := run_bind_ok.mp h
  obtain ⟨ids, w₂, hattempt, h⟩ := run_bind_ok.mp h
  obtain ⟨P', ht, hdocs, -, hmoves⟩ := run_cache_ok hs hamount
    (run_bind_ok.mpr ⟨answer, w₁, hperform, hattempt⟩)
  have hactive : ∀ id ∈ ids, ∃ x, P queue id = .active x := by
    cases hmoves with
    | pulled _ _ hl => exact hl
  split_ifs at h with hnil
  · cases h
    exact ⟨ids, P', ht, hdocs, hmoves, [], List.Pairwise.nil, by simp, rfl⟩
  · obtain ⟨id, rest, rfl⟩ := List.exists_cons_of_ne_nil hnil
    obtain ⟨x, hx⟩ := hactive id List.mem_cons_self
    obtain ⟨found, w₃, hget, h⟩ := run_bind_ok.mp h
    obtain ⟨hw, ds, hsorted, hmem, rfl⟩ := run_getFromStorage_ok hnil (hstored id x hx).1 hget
    have hfound : Queue.notFoundIds (id :: rest) (ds.map Document.message) = [] := by
      rw [Queue.notFoundIds, List.filter_eq_nil_iff]
      intro i hi
      obtain ⟨y, hy⟩ := hactive i hi
      obtain ⟨doc, hdoc⟩ := Option.isSome_iff_exists.mp (hstored i y hy).2
      obtain ⟨hrow, hkey⟩ := Table.get_eq_some.mp hdoc
      have hdoc' : doc ∈ ds := (hmem doc).mpr ⟨hdocs ▸ hrow, by rw [hkey], by rw [hkey]; exact hi⟩
      simp only [Bool.not_eq_true, Bool.not_eq_false', List.any_eq_true]
      exact ⟨_, List.mem_map_of_mem hdoc', by simp [Document.message, hkey]⟩
    dsimp only at h
    rw [if_pos hfound, hw] at h
    cases h
    refine ⟨id :: rest, P', ht, hdocs, hmoves, ds, hsorted, fun doc hdoc => ?_, rfl⟩
    rw [← hdocs]
    exact (hmem doc).mp hdoc

end Deckard
