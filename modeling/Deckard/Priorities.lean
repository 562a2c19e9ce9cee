import Deckard.QueueRuns
import Deckard.RedisRuns

/-!
# Scores in the two stores

The order of a queue is decided by the scores of its active pool, and a pull reports the
scores of the documents. The two copies are written by different code: a batch, a
timeout, an unlocking without a kept score and an acknowledgement of a message that
nobody processes can make them differ. In the runs without those events they agree.
-/
namespace Deckard

open Binary64 Effect Cache Program Prog RedisCache Runs MongoStorage

/-- The score in the document is the one of the place, or the one it will have. -/
def RedisCache.Place.Mirrors (stored : Option Float64) : Place → Prop
  | .absent => stored = none
  | .active x => stored = some (.num x)
  | .processing _ => stored ≠ none
  | .locked _ _ kept => ∃ x, kept = some x ∧ stored = some (.num x)

variable {ι : Type} [LinearOrder ι]

/-- Documents and places of the same messages, with the same scores. -/
structure Mirrored (stores : Stores ι) (w : World ι) (P : Places) : Prop where
  represents : stores.cache.Represents w.redis P
  scores : ∀ q id, (P q id).Mirrors (storedScore w.docs (q, id))
  named : ∀ q id, P q id ≠ .absent → q ≠ ""

variable {stores : Stores ι} {w w' : World ι} {P P' : Places}

theorem RedisCache.Place.Mirrors.ne_none {p : Place} {stored : Option Float64}
    (h : p.Mirrors stored) (hp : p ≠ .absent) : stored ≠ none := by
  intro hnone
  subst hnone
  cases p with
  | absent => exact hp rfl
  | active x => cases h
  | processing d => exact h rfl
  | locked t u kept =>
    obtain ⟨x, -, hx⟩ := h
    cases hx

/-- Some messages of a queue change their place and their document. -/
theorem Mirrored.replace (h : Mirrored stores w P) {queue : String} {l : List String}
    {f : String → Place}
    (hs : stores.cache.Represents w'.redis (P.replace queue l f))
    (hin : ∀ id ∈ l, (f id).Mirrors (storedScore w'.docs (queue, id)))
    (hout : ∀ q id, ¬ (q = queue ∧ id ∈ l) →
      storedScore w'.docs (q, id) = storedScore w.docs (q, id))
    (hnamed : ∀ id ∈ l, f id ≠ .absent → P queue id ≠ .absent) :
    Mirrored stores w' (P.replace queue l f) := by
  refine ⟨hs, fun q id => ?_, fun q id hp => ?_⟩
  · unfold Places.replace
    split_ifs with hid
    · rw [hid.1]
      exact hin id hid.2
    · rw [hout q id hid]
      exact h.scores q id
  · unfold Places.replace at hp
    split_ifs at hp with hid
    · rw [hid.1]
      exact h.named queue id (hnamed id hid.2 hp)
    · exact h.named q id hp

section Settle

variable {message : Message} {write : Message → Command} {lockType : LockType} {clock : Clock}

/-- A call of the storage that gives the document of a message its score. -/
def WritesScore (stores : Stores ι) (write : Message → Command) : Prop :=
  ∀ message w, (stores.handle (write message) w).2.redis = w.redis ∧
    ∀ k, storedScore (stores.handle (write message) w).2.docs k =
      if k = message.key then (storedScore w.docs k).map fun _ => message.score
      else storedScore w.docs k

theorem writesScore_ack : WritesScore stores .storageAck :=
  fun _ _ => ⟨rfl, fun _ => storedScore_ack⟩

theorem writesScore_nack : WritesScore stores .storageNack :=
  fun _ _ => ⟨rfl, fun _ => storedScore_nack⟩

/-- The message of an acknowledgement goes to a place with the score it brings. -/
theorem Mirrored.settled (h : Mirrored stores w P) (hwrite : WritesScore stores write)
    {d x : Number} (hp : P message.queue message.id = .processing d) (hx : message.score = .num x)
    {p : Place}
    (hs : stores.cache.Represents w'.redis (P.replace message.queue [message.id] fun _ => p))
    (hdocs : w'.docs = (stores.handle (write message) w).2.docs)
    (hmirrors : p.Mirrors (some (.num x))) :
    Mirrored stores w' (P.replace message.queue [message.id] fun _ => p) := by
  refine h.replace hs (fun id hid => ?_) (fun q id hid => ?_) (fun id hid _ => ?_)
  · obtain rfl := List.mem_singleton.mp hid
    have hstored := (h.scores message.queue message.id).ne_none (by simp [hp])
    obtain ⟨y, hy⟩ := Option.ne_none_iff_exists'.mp hstored
    rw [hdocs, (hwrite message w).2,
      if_pos (show (message.queue, message.id) = message.key from rfl), hy, Option.map_some, hx]
    exact hmirrors
  · rw [hdocs, (hwrite message w).2, if_neg]
    rintro heq
    cases heq
    exact hid ⟨rfl, List.mem_singleton_self _⟩
  · obtain rfl := List.mem_singleton.mp hid
    simp [hp]

/-- An acknowledgement that finds no document changes no score. -/
theorem Mirrored.unsettled (h : Mirrored stores w P) (hwrite : WritesScore stores write)
    (hstored : storedScore w.docs message.key = none)
    (hs : stores.cache.Represents w'.redis P)
    (hdocs : w'.docs = (stores.handle (write message) w).2.docs) : Mirrored stores w' P := by
  refine ⟨hs, fun q id => ?_, h.named⟩
  rw [hdocs, (hwrite message w).2]
  split_ifs with hkey
  · rw [hkey, hstored, Option.map_none, ← hstored, ← hkey]
    exact h.scores q id
  · exact h.scores q id

theorem mirrored_settle (h : Mirrored stores w P) (hwrite : WritesScore stores write) {b : Bool}
    (hheld : (∃ d, P message.queue message.id = .processing d) ∨
      storedScore w.docs message.key = none)
    (hscore : 0 < message.lockMs → message.score ≠ Score.undefined)
    (hrun : Prog.run stores.handle (Queue.settle write lockType clock message) w = (.ok b, w')) :
    ∃ P', Mirrored stores w' P' := by
  obtain ⟨-, ⟨hms, hrun⟩ | ⟨hms, hrun⟩⟩ := run_settle_ok hrun
  all_goals have hs := h.represents
  all_goals rw [← (hwrite message w).1] at hs
  · obtain ⟨P', ht, hdocs, -, hmoves⟩ := run_cache_ok hs
      (show (Op.lockMessage clock message lockType).AmountOk from trivial) hrun
    cases hmoves with
    | notLocked _ hnot =>
      rcases hheld with ⟨d, hd⟩ | hstored
      · exact absurd hd (hnot d)
      · exact ⟨P, h.unsettled hwrite hstored ht hdocs⟩
    | @locked _ _ _ d x _ hp hx =>
      have hkept : keptScore x = some x := by
        apply if_neg
        intro hundef
        exact hscore hms (by rw [hx, hundef]; rfl)
      exact ⟨_, h.settled hwrite hp hx ht hdocs ⟨x, hkept, rfl⟩⟩
  · obtain ⟨P', ht, hdocs, -, hmoves⟩ := run_cache_ok hs
      (show (Op.makeAvailable message).AmountOk from trivial) hrun
    cases hmoves with
    | notReleased _ hnot =>
      rcases hheld with ⟨d, hd⟩ | hstored
      · exact absurd hd (hnot d)
      · exact ⟨P, h.unsettled hwrite hstored ht hdocs⟩
    | released _ hp hx => exact ⟨_, h.settled hwrite hp hx ht hdocs rfl⟩

end Settle

theorem mirrored_remove (h : Mirrored stores w P) {queue : String} {ids : List String}
    {r : ℕ × ℕ} (hrun : Prog.run stores.handle (Queue.remove queue ids) w = (.ok r, w')) :
    ∃ P', Mirrored stores w' P' := by
  obtain ⟨hs, hdocs⟩ := run_remove_ok h.represents hrun
  refine ⟨_, h.replace hs (fun id hid => ?_) (fun q id hid => ?_) (fun id _ hne => absurd rfl hne)⟩
  · rw [hdocs, storedScore_remove, if_pos ⟨rfl, hid⟩]
    rfl
  · rw [hdocs, storedScore_remove, if_neg hid]

/-- A batch without repetitions gives each new message one score. -/
theorem mirrored_add (h : Mirrored stores w P) {now : Time} {order : MapOrder}
    {messages : List Message} (hnodup : (messages.map Message.key).Nodup) {n : ℕ × ℕ} {c : ℕ}
    {w₁ : World ι}
    (hstorage : Prog.run stores.handle (Queue.addMessagesToStorage now messages) w = (.ok n, w₁))
    (hcache : Prog.run stores.handle (Queue.addMessagesToCache order messages) w₁ = (.ok c, w')) :
    ∃ P', Mirrored stores w' P' := by
  obtain ⟨answer, w₂, hperform, hattempt⟩ := run_bind_ok.mp hstorage
  cases hperform
  obtain ⟨hanswer, rfl⟩ := run_attempt_ok.mp hattempt
  have hanswer : (insert stores.internalIds now messages w.docs).1 = .ok n := hanswer
  obtain ⟨e, he⟩ | ⟨⟨n', hn'⟩, hvalid⟩ := insert_cases stores.internalIds now messages w.docs
  · rw [he] at hanswer
    cases hanswer
  have hdocs₁ : (stores.handle (.storageInsert now messages) w).2.docs =
      messages.foldl (insertOne stores.internalIds now) w.docs := congrArg Prod.snd hn'
  obtain ⟨P', ht, hdocs, -, hadded, hall⟩ := run_addQueues_ok
    (w := (stores.handle (.storageInsert now messages) w).2) h.represents hcache
  refine ⟨P', ht, fun q id => ?_, fun q id hp' => ?_⟩
  · rw [hdocs, hdocs₁, storedScore_insert]
    by_cases hp : P q id = .absent
    · have hstored : storedScore w.docs (q, id) = none := by
        have hmirrors := h.scores q id
        rwa [hp] at hmirrors
      rw [hstored, Option.none_or]
      by_cases hp' : P' q id = .absent
      · rw [hp', List.find?_eq_none.mpr]
        · rfl
        · intro m hm hkey
          have hkey : m.key = (q, id) := by simpa using hkey
          have hpresent := hall m hm (mem_visit_queueNames.mpr ⟨m, hm, rfl⟩)
          rw [show m.queue = q from congrArg Prod.fst hkey,
            show m.id = id from congrArg Prod.snd hkey] at hpresent
          exact hpresent hp'
      · obtain ⟨m, hm, hkey, x, hx, hplace⟩ := hadded.new q id hp hp'
        obtain ⟨m', hm'⟩ : ∃ m', messages.find? (fun m => m.key = (q, id)) = some m' := by
          rw [← Option.isSome_iff_exists, List.find?_isSome]
          exact ⟨m, hm, by simpa using hkey⟩
        have hkey' : m'.key = (q, id) := by simpa using List.find?_some hm'
        have heq := List.inj_on_of_nodup_map hnodup (List.mem_of_find?_eq_some hm') hm
          (hkey'.trans hkey.symm)
        rw [hm', heq, hplace, Option.map_some, hx]
        rfl
    · rw [hadded.old q id hp]
      have hmirrors := h.scores q id
      obtain ⟨y, hy⟩ := Option.ne_none_iff_exists'.mp (hmirrors.ne_none hp)
      rw [hy] at hmirrors ⊢
      exact hmirrors
  · by_cases hp : P q id = .absent
    · obtain ⟨m, hm, hkey, -⟩ := hadded.new q id hp hp'
      rw [show q = m.queue from (congrArg Prod.fst hkey).symm]
      exact (hvalid m hm).1
    · exact h.named q id hp

theorem mirrored_unlock (h : Mirrored stores w P) {clock : Clock} {queue : String}
    {lockType : LockType} {ids : List String}
    (hrun : Prog.run stores.handle (Queue.unlockMessages clock queue lockType) w =
      (.ok ids, w')) : ∃ P', Mirrored stores w' P' := by
  obtain ⟨P', ht, hdocs, -, hmoves⟩ := run_cache_ok h.represents
    (show (Op.unlockMessages clock queue lockType).AmountOk from trivial) hrun
  cases hmoves with
  | unlocked _ hl =>
    refine ⟨_, h.replace ht (fun id hid => ?_) (fun q id _ => by rw [hdocs]) (fun id hid _ => ?_)⟩
    · obtain ⟨u, kept, hp, -⟩ := hl id hid
      have hmirrors := h.scores queue id
      rw [hp] at hmirrors ⊢
      obtain ⟨x, rfl, hx⟩ := hmirrors
      rw [hdocs, hx]
      rfl
    · obtain ⟨u, kept, hp, -⟩ := hl id hid
      simp [hp]

theorem mirrored_timeout (h : Mirrored stores w P) {clock : Clock} {queue : String}
    {ids : List String} (hzero : ∀ id ∈ ids, storedScore w.docs (queue, id) = some (.ofInt 0))
    (hrun : Prog.run stores.handle (Queue.timeoutMessages clock queue) w = (.ok ids, w')) :
    ∃ P', Mirrored stores w' P' := by
  obtain ⟨P', ht, hdocs, -, hmoves⟩ := run_cache_ok h.represents
    (show (Op.timeoutMessages clock queue).AmountOk from trivial) hrun
  cases hmoves with
  | timedOut _ hl =>
    refine ⟨_, h.replace ht (fun id hid => ?_) (fun q id _ => by rw [hdocs]) (fun id hid _ => ?_)⟩
    · rw [hdocs, hzero id hid]
      rfl
    · obtain ⟨d, hp, -⟩ := hl id hid
      simp [hp]

/-- A pull returns the score under which the active pool held each of its messages. -/
theorem mirrored_pull (h : Mirrored stores w P) {clock : Clock} {queue : String} {n d : Int64}
    {minScore maxScore : Option Float64} {r : Option (List Message)}
    (hamount : (Op.pullMessages clock queue n minScore maxScore d).AmountOk)
    (hrun : Prog.run stores.handle (Queue.pull clock queue n minScore maxScore d) w =
      (.ok r, w')) :
    (∃ P', Mirrored stores w' P') ∧
      (∀ m ∈ r.getD [], m.queue = queue ∧ ∃ x, P queue m.id = .active x ∧ m.score = .num x) ∧
      (r.getD []).Pairwise fun a b => NoneFirst (number a.score) (number b.score) := by
  have hstored : ∀ id x, P queue id = .active x →
      queue ≠ "" ∧ (w.docs.get (queue, id)).isSome := by
    intro id x hp
    have hne : P queue id ≠ .absent := by simp [hp]
    have hscore := (h.scores queue id).ne_none hne
    refine ⟨h.named queue id hne, ?_⟩
    simpa [storedScore, Option.isSome_iff_ne_none] using hscore
  obtain ⟨l, P', ht, hdocs, hmoves, ds, hsorted, hds, hr⟩ :=
    run_pull_ok h.represents hamount hstored hrun
  cases hmoves with
  | pulled _ _ hl =>
    refine ⟨⟨_, h.replace ht (fun id hid => ?_) (fun q id _ => by rw [hdocs])
      (fun id hid _ => ?_)⟩, fun m hm => ?_, ?_⟩
    · obtain ⟨x, hp⟩ := hl id hid
      rw [hdocs]
      exact (h.scores queue id).ne_none (by simp [hp])
    · obtain ⟨x, hp⟩ := hl id hid
      simp [hp]
    · rw [hr] at hm
      obtain ⟨doc, hdoc, rfl⟩ := List.mem_map.mp hm
      obtain ⟨hrow, hqueue, hid⟩ := hds doc hdoc
      obtain ⟨x, hp⟩ := hl _ hid
      have hkey : doc.key = (queue, doc.key.2) := Prod.ext hqueue rfl
      have hget := Table.get_eq_some.mpr ⟨hrow, hkey⟩
      have hmirrors := h.scores queue doc.key.2
      rw [storedScore, hget, hp] at hmirrors
      exact ⟨hqueue, x, hp, Option.some_inj.mp hmirrors⟩
    · rw [hr, List.pairwise_map]
      exact hsorted.imp inOrder_singleton.mp

/-- The events that keep the two scores of every message equal: batches without
repetitions, acknowledgements of a message that is being processed, if they lock it with
a score of their own, and timeouts of messages stored with the score zero. -/
def KeepsPriorities (stores : Stores ι) (w : World ι) : Request → Response → Prop
  | .add zone clock _ ms, _ => ((Service.addedMessages zone clock ms).map Message.key).Nodup
  | .ack _ request, _ | .nack _ request, _ =>
      (((w.redis.zset (stores.cache.processingPool request.queue)).score request.id).isSome ∨
        storedScore w.docs (request.queue, request.id) = none) ∧
      (0 < request.lockMs → request.score ≠ .ofInt 0 ∧ request.score ≠ Score.undefined)
  | .timeoutMessages _ queue, .released ids =>
      ∀ id ∈ ids, storedScore w.docs (queue, id) = some (.ofInt 0)
  | _, _ => True

/-- Requests that succeed and keep the scores equal. -/
def Stores.mirroring (stores : Stores ι) : Machine (World ι) Request Response :=
  fun w request response w' =>
    stores.serve w request = (.ok response, w') ∧ KeepsPriorities stores w request response

theorem held_of_isSome (h : Mirrored stores w P) {request : AckRequest}
    (hheld : ((w.redis.zset (stores.cache.processingPool request.queue)).score request.id).isSome ∨
      storedScore w.docs (request.queue, request.id) = none) :
    (∃ d, P request.queue request.id = .processing d) ∨
      storedScore w.docs (request.queue, request.id) = none := by
  rcases hheld with hsome | hnone
  · obtain ⟨d, hd⟩ := Option.isSome_iff_exists.mp hsome
    exact .inl ⟨d, Place.eq_processing ((h.represents _ _ .processing).symm.trans hd)⟩
  · exact .inr hnone

theorem mirrored_settledResponse (h : Mirrored stores w P) {request : AckRequest} {b : Bool}
    {response : AckResponse}
    (hrun : Prog.run stores.handle (Service.settled request b) w = (.ok response, w')) :
    ∃ P', Mirrored stores w' P' := by
  unfold Service.settled at hrun
  split_ifs at hrun
  · obtain ⟨r, w₁, hremove, hret⟩ := run_bind_ok.mp (run_mapError_ok.mp hrun)
    cases hret
    obtain ⟨r', w₂, hremove, hret⟩ := run_bind_ok.mp (run_mapError_ok.mp hremove)
    cases hret
    exact mirrored_remove h hremove
  · cases hrun
    exact ⟨P, h⟩

/-- An acknowledgement of either kind. -/
theorem mirrored_acknowledgement (h : Mirrored stores w P) {write : Message → Command}
    (hwrite : WritesScore stores write) {message : Message} {lockType : LockType} {clock : Clock}
    {f : QueueError → ServiceError} {request : AckRequest} {response : AckResponse}
    (hheld : (∃ d, P message.queue message.id = .processing d) ∨
      storedScore w.docs message.key = none)
    (hscore : 0 < message.lockMs → message.score ≠ Score.undefined)
    (hrun : Prog.run stores.handle (Prog.mapError f (Queue.settle write lockType clock message) >>=
      Service.settled request) w = (.ok response, w')) :
    ∃ P', Mirrored stores w' P' := by
  obtain ⟨b, w₁, hsettle, hrest⟩ := run_bind_ok.mp hrun
  obtain ⟨P₁, h₁⟩ := mirrored_settle h hwrite hheld hscore (run_mapError_ok.mp hsettle)
  exact mirrored_settledResponse h₁ hrest

/-- With a score of its own, a request settles a message with that score. -/
theorem ownScore_ne_undefined {request : AckRequest}
    (h : request.score ≠ .ofInt 0 ∧ request.score ≠ Score.undefined) (other : Float64) :
    (if !request.score.eq (.ofInt 0) then request.score else other) ≠ Score.undefined := by
  have hne : request.score.eq (.ofInt 0) = false := by
    cases hx : request.score with
    | nan => rfl
    | num x => simpa [hx, Float64.ofInt_eq] using h.1
  rw [hne]
  exact h.2

theorem mirrored_step (h : Mirrored stores w P) {request : Request} {response : Response}
    (hstep : stores.mirroring w request response w') : ∃ P', Mirrored stores w' P' := by
  obtain ⟨hserve, hkeeps⟩ := hstep
  unfold Stores.serve at hserve
  cases request with
  | add zone clock order ms =>
    obtain ⟨counts, w₁, hadd, hret⟩ := run_bind_ok.mp hserve
    cases hret
    obtain ⟨n, w₂, hstorage, hrest⟩ := run_bind_ok.mp (run_mapError_ok.mp hadd)
    obtain ⟨c, w₃, hcache, hret⟩ := run_bind_ok.mp hrest
    cases hret
    exact mirrored_add h hkeeps hstorage hcache
  | pull clock request =>
    obtain ⟨messages, w₁, hpull, hret⟩ := run_bind_ok.mp hserve
    cases hret
    obtain ⟨r, w₂, hpull, hret⟩ := run_bind_ok.mp (run_mapError_ok.mp hpull)
    cases hret
    exact (mirrored_pull h (pullAmount_ok request.amount) hpull).1
  | ack clock request =>
    obtain ⟨r, w₁, hack, hret⟩ := run_bind_ok.mp hserve
    cases hret
    refine mirrored_acknowledgement h writesScore_ack ?_ ?_ hack
    · exact held_of_isSome h hkeeps.1
    · exact fun hms => ownScore_ne_undefined (hkeeps.2 hms) _
  | nack clock request =>
    obtain ⟨r, w₁, hack, hret⟩ := run_bind_ok.mp hserve
    cases hret
    refine mirrored_acknowledgement h writesScore_nack ?_ ?_ hack
    · exact held_of_isSome h hkeeps.1
    · exact fun hms => ownScore_ne_undefined (hkeeps.2 hms) _
  | remove request =>
    obtain ⟨r, w₁, hremove, hret⟩ := run_bind_ok.mp hserve
    cases hret
    unfold Service.remove at hremove
    split_ifs at hremove
    · cases hremove
      exact ⟨P, h⟩
    · obtain ⟨r', w₂, hremove, hret⟩ := run_bind_ok.mp (run_mapError_ok.mp hremove)
      cases hret
      exact mirrored_remove h hremove
  | unlockMessages clock queue lockType =>
    obtain ⟨ids, w₁, hunlock, hret⟩ := run_bind_ok.mp hserve
    cases hret
    exact mirrored_unlock h (run_mapError_ok.mp hunlock)
  | timeoutMessages clock queue =>
    obtain ⟨ids, w₁, htimeout, hret⟩ := run_bind_ok.mp hserve
    cases hret
    exact mirrored_timeout h hkeeps (run_mapError_ok.mp htimeout)

theorem mirrored_empty (stores : Stores ι) (i : ι) :
    Mirrored stores ⟨Table.empty i, Redis.empty⟩ fun _ _ => .absent :=
  ⟨represents_empty, fun _ _ => rfl, fun _ _ h => absurd rfl h⟩

/-- After a run that keeps the scores equal, a pull lists its messages in the order of the
active pool and with the scores of the active pool. -/
theorem pull_reports_priorities (stores : Stores ι) {i : ι} {tr : List (Request × Response)}
    {w w' : World ι} (hrun : Run stores.mirroring ⟨Table.empty i, Redis.empty⟩ tr w)
    {clock : Clock} {request : PullRequest} {messages : List ResponseMessage}
    (hpull : stores.serve w (.pull clock request) = (.ok (.pulled messages), w')) :
    (∀ m ∈ messages, m.queue = request.queue ∧
      ∃ x, (w.redis.zset (stores.cache.activePool request.queue)).score m.id = some x ∧
        m.score = .num x) ∧
    messages.Pairwise fun a b =>
      ∃ x y, (w.redis.zset (stores.cache.activePool request.queue)).score a.id = some x ∧
        (w.redis.zset (stores.cache.activePool request.queue)).score b.id = some y ∧ x ≤ y := by
  obtain ⟨P, h⟩ : ∃ P, Mirrored stores w P := by
    have hstep : ∀ s request response t, stores.mirroring s request response t → True →
        (∃ P, Mirrored stores s P) → ∃ P, Mirrored stores t P := by
      intro s request response t hstep _ hs
      obtain ⟨P, hs⟩ := hs
      exact mirrored_step hs hstep
    exact hrun.invariant hstep (fun _ _ => trivial) ⟨_, mirrored_empty stores i⟩
  obtain ⟨messages', w₁, hserve, hret⟩ := run_bind_ok.mp hpull
  cases hret
  obtain ⟨r, w₂, hserve, hret⟩ := run_bind_ok.mp (run_mapError_ok.mp hserve)
  cases hret
  obtain ⟨-, hscores, hsorted⟩ := mirrored_pull h (pullAmount_ok request.amount) hserve
  have hactive : ∀ m ∈ r.getD [], m.queue = request.queue ∧
      ∃ x, (w.redis.zset (stores.cache.activePool request.queue)).score m.id = some x ∧
        m.score = .num x := by
    intro m hm
    obtain ⟨hqueue, x, hp, hx⟩ := hscores m hm
    have hscore := h.represents request.queue m.id .active
    rw [hp] at hscore
    exact ⟨hqueue, x, hscore, hx⟩
  constructor
  · intro m hm
    obtain ⟨m', hm', rfl⟩ := List.mem_map.mp hm
    exact hactive m' hm'
  · rw [List.pairwise_map]
    refine hsorted.imp_of_mem fun {a b} ha hb hab => ?_
    obtain ⟨-, x, hx, hax⟩ := hactive a ha
    obtain ⟨-, y, hy, hby⟩ := hactive b hb
    rw [hax, hby] at hab
    exact ⟨x, y, hx, hy, hab⟩

/-- Add a message with the score five. -/
def addFive : Request :=
  .add .utc (fun _ => 0) .listed [{ id := "a", queue := "q", score := .ofInt 5 }]

/-- Pull at a number of milliseconds after the epoch. -/
def pullAt (ms : ℤ) : Request := .pull (fun _ => ms * 1000000) { queue := "q" }

/-- Add a second message with a better score. -/
def addThree : Request :=
  .add .utc (fun _ => 0) .listed [{ id := "b", queue := "q", score := .ofInt 3 }]

/-- Acknowledge the second message with a worse score. -/
def ackNine : Request := .ack (fun _ => 0) { id := "b", queue := "q", score := .ofInt 9 }

/-- The two messages have been added and the better one has been pulled. -/
def betterPulled : World ℕ :=
  (play Stores.default.serve World.empty [addFive, addThree, pullAt 1]).2

/-- The pulled message has gone back behind the other one. -/
def goneBack : World ℕ := (Stores.default.serve betterPulled ackNine).2

theorem run_goneBack : ∃ tr, Run Stores.default.mirroring World.empty tr goneBack := by
  refine ⟨[(addFive, .added 1 0), (addThree, .added 1 0),
    (pullAt 1, .pulled [⟨"b", "q", .ofInt 3, "", none, "", none, ⟨0, 0, 0, 0⟩⟩]),
    (ackNine, .settled ⟨true, none⟩)], ?_⟩
  refine .cons ⟨Prod.ext (by decide +kernel) rfl, List.nodup_singleton _⟩ ?_
  refine .cons ⟨Prod.ext (by decide +kernel) rfl, List.nodup_singleton _⟩ ?_
  refine .cons (t := betterPulled) ⟨Prod.ext (by decide +kernel) rfl, trivial⟩ ?_
  refine .cons ⟨Prod.ext (by decide +kernel) rfl, .inl (by decide +kernel), fun h => ?_⟩ (.nil _)
  exact absurd h (by decide)

theorem pull_reports_priorities_goneBack :
    ∃ messages w', Stores.default.serve goneBack
        (.pull (fun _ => 2000000) { queue := "q", amount := 2 }) = (.ok (.pulled messages), w') ∧
      messages.map (fun m => (m.id, m.score)) = [("a", .ofInt 5), ("b", .ofInt 9)] ∧
      (∀ m ∈ messages, m.queue = "q" ∧
        ∃ x, (goneBack.redis.zset (Stores.default.cache.activePool "q")).score m.id = some x ∧
          m.score = .num x) ∧
      messages.Pairwise fun a b =>
        ∃ x y, (goneBack.redis.zset (Stores.default.cache.activePool "q")).score a.id = some x ∧
          (goneBack.redis.zset (Stores.default.cache.activePool "q")).score b.id = some y ∧
          x ≤ y := by
  obtain ⟨tr, hrun⟩ := run_goneBack
  have hpull : Stores.default.serve goneBack
      (.pull (fun _ => 2000000) { queue := "q", amount := 2 }) =
      (.ok (.pulled [⟨"a", "q", .ofInt 5, "", none, "", none, ⟨0, 0, 0, 0⟩⟩,
        ⟨"b", "q", .ofInt 9, "", none, "", none, ⟨1, 0, 1, 0⟩⟩]), _) :=
    Prod.ext (by decide +kernel) rfl
  exact ⟨_, _, hpull, rfl, pull_reports_priorities Stores.default hrun hpull⟩

/-- A message that was not acknowledged in time is in the active pool with the score zero,
and the next pull reports the score with which it was added. -/
theorem pull_after_timeout_reports_stored_score :
    ∃ tr w, Run Stores.default.sequential World.empty tr w ∧
      (∀ e ∈ tr, ∃ response, e.2 = .ok response) ∧
      ∃ messages w', Stores.default.serve w (pullAt 300002) = (.ok (.pulled messages), w') ∧
        ∃ m ∈ messages, m.id = "a" ∧ m.score = .ofInt 5 ∧
          (w.redis.zset (Stores.default.cache.activePool "q")).score m.id = some (.ofInt 0) := by
  let requests := [addFive, pullAt 1, .timeoutMessages (fun _ => 300001000000) "q"]
  let played := play Stores.default.serve World.empty requests
  have hok : ∀ e ∈ played.1, ∃ response, e.2 = .ok response := by
    have hmap : played.1.map Prod.snd = [.ok (.added 1 0), .ok (.pulled [⟨"a", "q", .ofInt 5, "",
        none, "", none, ⟨0, 0, 0, 0⟩⟩]), .ok (.released ["a"])] := by
      decide +kernel
    intro e he
    have hmem := List.mem_map_of_mem (f := Prod.snd) he
    rw [hmap] at hmem
    simp only [List.mem_cons, List.not_mem_nil, or_false] at hmem
    rcases hmem with h | h | h <;> exact ⟨_, h⟩
  refine ⟨played.1, played.2, run_play _ _ requests, hok,
    [⟨"a", "q", .ofInt 5, "", none, "", none, ⟨0, 0, 0, 0⟩⟩], _,
    Prod.ext (by decide +kernel) rfl, _, List.mem_singleton_self _, rfl, rfl, by decide +kernel⟩

end Deckard
