import Deckard.RedisRefinement

/-!
# Runs of the Redis cache

What the calls of the cache guarantee from any reachable state: the pools stay disjoint
and keep their messages, a lock holds until it is due and gives the message back with its
score. The release scripts are not rolled back, and the last results say which calls
leave half an update behind.
-/
namespace Deckard.RedisCache

open Binary64 Effect Cache Runs Lifecycle RedisScripts

variable {cache : RedisCache} {s t : Redis} {P P' : Places}

/-- A sorted set of the queue holds the id. -/
def Holds (cache : RedisCache) (s : Redis) (queue : String) (pool : Pool) (id : String) : Prop :=
  ((s.zset (cache.key queue pool)).score id).isSome = true

instance (queue : String) (pool : Pool) (id : String) : Decidable (cache.Holds s queue pool id) :=
  inferInstanceAs (Decidable (_ = true))

/-- The sets of a queue that hold messages; the other two hold scores. -/
def messagePools : List Pool := [.active, .processing, .lock .lockAck, .lock .lockNack]

def InPools (cache : RedisCache) (s : Redis) (queue id : String) : Prop :=
  ∃ pool ∈ messagePools, cache.Holds s queue pool id

instance (queue id : String) : Decidable (cache.InPools s queue id) :=
  inferInstanceAs (Decidable (∃ pool ∈ messagePools, _))

/-- The message pool in which a place is. -/
def Place.pool : Place → Option Pool
  | .absent => none
  | .active _ => some .active
  | .processing _ => some .processing
  | .locked t _ _ => some (.lock t)

theorem Represents.holds (hs : cache.Represents s P) {queue id : String} {pool : Pool}
    (hpool : pool ∈ messagePools) :
    cache.Holds s queue pool id ↔ (P queue id).pool = some pool := by
  rw [Holds, hs]
  simp only [messagePools, List.mem_cons, List.not_mem_nil, or_false] at hpool
  rcases hpool with rfl | rfl | rfl | rfl <;>
    rcases P queue id with _ | _ | _ | ⟨_ | _, _, _⟩ <;> simp [Place.score, Place.pool]

theorem Represents.inPools (hs : cache.Represents s P) {queue id : String} :
    cache.InPools s queue id ↔ P queue id ≠ .absent := by
  constructor
  · rintro ⟨pool, hpool, h⟩ habs
    simp [hs.holds hpool, habs, Place.pool] at h
  · intro h
    have hmem : ∀ pool, (P queue id).pool = some pool → pool ∈ messagePools := by
      rcases P queue id with _ | _ | _ | ⟨_ | _, _, _⟩ <;> simp [Place.pool, messagePools]
    cases hp : (P queue id).pool with
    | none => cases hq : P queue id <;> simp_all [Place.pool]
    | some pool => exact ⟨pool, hmem pool hp, (hs.holds (hmem pool hp)).mpr hp⟩

theorem Represents.holds_processing (hs : cache.Represents s P) {queue id : String} :
    cache.Holds s queue .processing id ↔ ∃ d, P queue id = .processing d := by
  rw [hs.holds (by simp [messagePools])]
  cases P queue id <;> simp [Place.pool]

theorem Place.stage_ne_absent {p : Place} : p.stage ≠ .absent ↔ p ≠ .absent := by
  cases p <;> simp [Place.stage]

theorem Moves.makeAvailable_true {message : Message} {res : Result}
    (h : Moves P (.makeAvailable message) res P') (hx : message.score ≠ .nan) :
    res = .flag true ↔ Releasable message ∧ ∃ d, P message.queue message.id = .processing d := by
  cases h with
  | rejected e ha => simp [show ¬ Releasable message from ha]
  | notReleased _ hp => simp [hp]
  | released ha hp => simp [ha, hp]
  | lost _ _ _ hnan => exact absurd hnan hx

theorem Moves.lockMessage_true {clock : Clock} {message : Message} {lockType : LockType}
    {res : Result} (h : Moves P (.lockMessage clock message lockType) res P')
    (hx : message.score ≠ .nan) :
    res = .flag true ↔ Lockable message ∧ ∃ d, P message.queue message.id = .processing d := by
  cases h with
  | rejected e ha => simp [show ¬ Lockable message from ha]
  | notLocked _ hp => simp [hp]
  | locked ha hp => simp [ha, hp]
  | lockedUnscored _ _ _ hnan => exact absurd hnan hx

/-- In every reachable state the pools of a queue are disjoint and the kept scores belong
to locked messages; a call changes the set of messages only by what it reports to have
inserted or was asked to remove; and a release succeeds exactly when it passes its checks
and the message is being processed. -/
theorem pools_invariant (cache : RedisCache) {tr : List Call} {t : Redis}
    (hrun : Run cache.machine Redis.empty tr t) (hok : ∀ c ∈ tr, c.1.AmountOk ∧ c.1.ScoresOk) :
    (∀ queue id, ∀ p ∈ messagePools, ∀ p' ∈ messagePools,
      cache.Holds t queue p id → cache.Holds t queue p' id → p = p') ∧
    (∀ queue id lockType, cache.Holds t queue (.lockScore lockType) id →
      cache.Holds t queue (.lock lockType) id) ∧
    (∀ op : Op, op.AmountOk → op.ScoresOk → ∀ queue id,
      (cache.InPools (cache.step t op).2 queue id ↔
        (cache.InPools t queue id ∨ Inserted queue id (op, (cache.step t op).1)) ∧
          ¬ Removed queue id (op, (cache.step t op).1)) ∧
      (Inserted queue id (op, (cache.step t op).1) → ¬ cache.InPools t queue id)) ∧
    (∀ message : Message, message.score ≠ .nan →
      ((cache.step t (.makeAvailable message)).1 = .flag true ↔
        Releasable message ∧ cache.Holds t message.queue .processing message.id)) ∧
    (∀ (clock : Clock) (message : Message) (lockType : LockType), message.score ≠ .nan →
      ((cache.step t (.lockMessage clock message lockType)).1 = .flag true ↔
        Lockable message ∧ cache.Holds t message.queue .processing message.id)) := by
  obtain ⟨P, hs, hc⟩ := exists_represents hrun fun c hc => (hok c hc).1
  refine ⟨?_, ?_, ?_, ?_, ?_⟩
  · intro queue id p hp p' hp' h h'
    rw [hs.holds hp] at h
    rw [hs.holds hp', h] at h'
    exact Option.some.inj h'
  · intro queue id lockType h
    rw [Holds, hs] at h ⊢
    cases hp : P queue id with
    | locked t u kept =>
      rw [hp] at h
      simp only [Place.score] at h ⊢
      split_ifs at h ⊢ <;> simp_all
    | _ => simp [hp, Place.score] at h
  · intro op hamount hscores queue id
    obtain ⟨P', ht, -, hmoves⟩ := step_moves hs hamount
    have hpresent := (hmoves.step hc hscores queue id).present
    rw [ht.inPools, hs.inPools, not_not]
    rw [Place.stage_ne_absent, Place.stage_ne_absent] at hpresent
    refine ⟨hpresent.1, fun h => ?_⟩
    by_contra hne
    exact Place.stage_ne_absent.mpr hne (hpresent.2 h)
  · intro message hx
    obtain ⟨P', -, -, hmoves⟩ :=
      step_moves hs (show (Op.makeAvailable message).AmountOk from trivial)
    rw [hmoves.makeAvailable_true hx, hs.holds_processing]
  · intro clock message lockType hx
    obtain ⟨P', -, -, hmoves⟩ :=
      step_moves hs (show (Op.lockMessage clock message lockType).AmountOk from trivial)
    rw [hmoves.lockMessage_true hx, hs.holds_processing]

/-- One message is added and handed out. -/
def oneDelivery : List Op :=
  [.insert "q" [{ id := "a", queue := "q", score := .ofInt 5 }],
    .pullMessages (fun _ => 0) "q" 1 none none 0]

theorem pools_invariant_oneDelivery :
    let t := (play (RedisCache.mk "").step Redis.empty oneDelivery).2
    (∀ queue id, ∀ p ∈ messagePools, ∀ p' ∈ messagePools, (RedisCache.mk "").Holds t queue p id →
      (RedisCache.mk "").Holds t queue p' id → p = p') ∧
    (RedisCache.mk "").Holds t "q" .processing "a" := by
  exact ⟨(pools_invariant (RedisCache.mk "") (run_play _ _ oneDelivery) (by decide +kernel)).1,
    by decide +kernel⟩

/-- A lock without a positive time is refused although the message is being processed. -/
theorem lockMessage_refuses_processing :
    ∃ tr t, Run (RedisCache.mk "").machine Redis.empty tr t ∧
      (∀ c ∈ tr, c.1.AmountOk ∧ c.1.ScoresOk) ∧
      ∃ message : Message, message.score ≠ .nan ∧
        (RedisCache.mk "").Holds t message.queue .processing message.id ∧
        ((RedisCache.mk "").step t (.lockMessage (fun _ => 0) message .lockAck)).1 ≠ .flag true :=
  ⟨_, _, run_play _ _ oneDelivery, by decide +kernel,
    { id := "a", queue := "q", score := .ofInt 5, lockMs := 0 }, by decide, by decide +kernel,
    by decide +kernel⟩

section Locks

/-- The unlocking of one lock pool that returns the message. -/
def UnlockedFrom (queue : String) (lockType : LockType) (id : String) : Call → Prop
  | (.unlockMessages _ q t, .ids ids) => q = queue ∧ t = lockType ∧ id ∈ ids
  | _ => False

variable {queue id : String} {lockType : LockType} {u : Number} {kept : Option Number}

theorem Places.replace_of_ne {q : String} {l : List String} {f : String → Place} {p : Place}
    (hp : P queue id = p) (h : ¬ (queue = q ∧ id ∈ l)) : P.replace q l f queue id = p := by
  rw [Places.replace, if_neg h, hp]

/-- A locked message stays as it is under every call that neither removes nor unlocks it. -/
theorem Moves.locked_stays {op : Op} {res : Result} (h : Moves P op res P')
    (hp : P queue id = .locked lockType u kept) (hremove : ¬ Removed queue id (op, res))
    (hunlock : ¬ UnlockedFrom queue lockType id (op, res)) :
    P' queue id = .locked lockType u kept := by
  cases h with
  | rejected | notReleased | notLocked => exact hp
  | inserted _ hins | insertedPart _ _ hins =>
    rw [hins.kept (by simp [hp]), hp]
  | pulled _ _ hl =>
    refine Places.replace_of_ne hp ?_
    rintro ⟨rfl, hid⟩
    obtain ⟨x, hx⟩ := hl id hid
    simp [hp] at hx
  | released _ hproc | lost _ _ hproc | locked _ hproc | lockedUnscored _ _ hproc =>
    refine Places.replace_of_ne hp ?_
    rintro ⟨rfl, hid⟩
    rw [List.mem_singleton.mp hid, hproc] at hp
    cases hp
  | unlocked _ hl =>
    refine Places.replace_of_ne hp ?_
    rintro ⟨rfl, hid⟩
    obtain ⟨u', kept', hl, -⟩ := hl id hid
    rw [hp] at hl
    cases hl
    exact hunlock ⟨rfl, rfl, hid⟩
  | timedOut _ hl =>
    refine Places.replace_of_ne hp ?_
    rintro ⟨rfl, hid⟩
    obtain ⟨d, hd, -⟩ := hl id hid
    simp [hp] at hd
  | removed =>
    refine Places.replace_of_ne hp ?_
    rintro ⟨rfl, hid⟩
    exact hremove ⟨rfl, hid⟩

theorem run_locked {tr : List Call} (hrun : Run cache.machine s tr t)
    (hok : ∀ c ∈ tr, c.1.AmountOk) (hremove : ∀ c ∈ tr, ¬ Removed queue id c)
    (hunlock : ∀ c ∈ tr, ¬ UnlockedFrom queue lockType id c) (hs : cache.Represents s P)
    (hp : P queue id = .locked lockType u kept) :
    ∃ P', cache.Represents t P' ∧ P' queue id = .locked lockType u kept := by
  induction hrun generalizing P with
  | nil => exact ⟨P, hs, hp⟩
  | cons hstep _ ih =>
    simp only [List.mem_cons, forall_eq_or_imp] at hok hremove hunlock
    obtain ⟨P₁, hs₁, -, hmoves⟩ := machine_moves hstep hs hok.1
    exact ih hok.2 hremove.2 hunlock.2 hs₁ (hmoves.locked_stays hp hremove.1 hunlock.1)

theorem lockUntil_le {clock clock' : Clock} {message : Message} (hpos : 0 < message.lockMs.toInt)
    (hfit : (Dtime.timeToMs (clock 0)).toInt + message.lockMs.toInt < 2 ^ 63)
    (h : lockUntil clock message ≤ .ofInt (Dtime.timeToMs (clock' 1)).toInt) :
    (Dtime.timeToMs (clock 0)).toInt + message.lockMs.toInt ≤
      (Dtime.timeToMs (clock' 1)).toInt := by
  have habs := abs_le.mp (Dtime.abs_timeToMs_le (clock 0))
  rw [lockUntil, Dtime.toInt_timeToMs_add (by omega) hfit] at h
  exact (Number.ofInt_le_ofInt_iff (Dtime.abs_timeToMs_lt _)).mp h

/-- A lock that succeeds keeps the message in its pool, and in no other, until the first
unlocking that returns it. That unlocking happens when the lock is due and makes the
message available with the score of the lock or, if that is undefined, with the default
of the unlocking. -/
theorem lock_unlock_roundTrip (cache : RedisCache) {pre mid : List Call} {s s₁ t : Redis}
    {clock : Clock} {message : Message} {lockType : LockType}
    (hpre : Run cache.machine Redis.empty pre s)
    (hlock : cache.machine s (.lockMessage clock message lockType) (.flag true) s₁)
    (hfit : (Dtime.timeToMs (clock 0)).toInt + message.lockMs.toInt < 2 ^ 63)
    (hmid : Run cache.machine s₁ mid t) (hok : ∀ c ∈ pre ++ mid, c.1.AmountOk)
    (hremove : ∀ c ∈ mid, ¬ Removed message.queue message.id c)
    (hunlock : ∀ c ∈ mid, ¬ UnlockedFrom message.queue lockType message.id c) :
    (∀ pool ∈ messagePools, cache.Holds t message.queue pool message.id ↔ pool = .lock lockType) ∧
    ∀ (clock' : Clock) (ids : List String) (t' : Redis),
      cache.machine t (.unlockMessages clock' message.queue lockType) (.ids ids) t' →
      message.id ∈ ids →
      (Dtime.timeToMs (clock 0)).toInt + message.lockMs.toInt ≤
        (Dtime.timeToMs (clock' 1)).toInt ∧
      ∃ x, (t'.zset (cache.key message.queue .active)).score message.id = some x ∧
        (message.score ≠ Score.undefined → message.score = .num x) ∧
        (message.score = Score.undefined → lockType = .lockAck →
          x = .ofInt (Dtime.timeToMs (clock' 0)).toInt) ∧
        (message.score = Score.undefined → lockType = .lockNack → x = .ofInt 0) := by
  obtain ⟨P, hs, -⟩ := exists_represents hpre fun c hc => hok c (List.mem_append_left _ hc)
  obtain ⟨P₁, hs₁, -, hmoves⟩ := machine_moves hlock hs trivial
  cases hmoves with
  | @locked _ _ _ d x ha hp hx =>
    have hp₁ : P.replace message.queue [message.id] (fun _ =>
        .locked lockType (lockUntil clock message) (keptScore x)) message.queue message.id =
        .locked lockType (lockUntil clock message) (keptScore x) := by
      simp [Places.replace]
    obtain ⟨P₂, hs₂, hp₂⟩ := run_locked hmid (fun c hc => hok c (List.mem_append_right _ hc))
      hremove hunlock hs₁ hp₁
    refine ⟨fun pool hpool => ?_, fun clock' ids t' hstep hid => ?_⟩
    · rw [hs₂.holds hpool, hp₂]
      simp [Place.pool, eq_comm]
    · obtain ⟨P₃, hs₃, -, hmoves₃⟩ := machine_moves hstep hs₂ trivial
      cases hmoves₃ with
      | unlocked _ hl =>
        obtain ⟨u, kept, hu, -, hdue⟩ := hl message.id hid
        rw [hp₂] at hu
        cases hu
        refine ⟨lockUntil_le ha.2 hfit hdue, (keptScore x).getD (unlockScore clock' lockType),
          ?_, ?_, ?_, ?_⟩
        · rw [hs₃]
          simp [Places.replace, hid, hp₂, Place.kept]
        · intro hdef
          have hne : x ≠ .ofInt (-1) := by
            rintro rfl
            exact hdef hx
          simp [keptScore, hne, hx]
        · rintro hundef rfl
          cases hx.symm.trans hundef
          simp [keptScore, unlockScore]
        · rintro hundef rfl
          cases hx.symm.trans hundef
          simp [keptScore, unlockScore]

/-- A message that is locked for ten milliseconds, with a score of its own. -/
def lockedMessage : Message := { id := "a", queue := "q", score := .ofInt 7, lockMs := 10 }

/-- The pools after its delivery and its lock. -/
def oneLock : Redis :=
  ((RedisCache.mk "").step (play (RedisCache.mk "").step Redis.empty oneDelivery).2
    (.lockMessage (fun _ => 0) lockedMessage .lockNack)).2

def unlockAt (ms : ℤ) : Op := .unlockMessages (fun _ => ms * 1000000) "q" .lockNack

/-- A second message comes, and an unlocking that is too early. -/
def whileLocked : List Op :=
  [.insert "q" [{ id := "b", queue := "q", score := .ofInt 5 }], unlockAt 5]

def stillLocked : Redis := (play (RedisCache.mk "").step oneLock whileLocked).2

theorem run_stillLocked : Run (RedisCache.mk "").machine oneLock
    (play (RedisCache.mk "").step oneLock whileLocked).1 stillLocked :=
  run_play _ _ _

theorem unlockAt_stillLocked : ∃ t,
    (RedisCache.mk "").machine stillLocked (unlockAt 20) (.ids ["a"]) t := by
  have hids : ((RedisCache.mk "").step stillLocked (unlockAt 20)).1 = .ids ["a"] := by
    decide +kernel
  exact ⟨_, ofStep_of_fst hids⟩

theorem unlocks_oneLock_none : ∀ c ∈ (play (RedisCache.mk "").step oneLock whileLocked).1,
    c.1.AmountOk ∧ ¬ Removed "q" "a" c ∧ ¬ UnlockedFrom "q" .lockNack "a" c := by
  have hearly : ((RedisCache.mk "").step ((RedisCache.mk "").step oneLock
      (.insert "q" [{ id := "b", queue := "q", score := .ofInt 5 }])).2 (unlockAt 5)).1 =
        .ids [] := by
    decide +kernel
  simp only [whileLocked, play, List.mem_cons, List.not_mem_nil, or_false, forall_eq_or_imp,
    forall_eq, hearly]
  exact ⟨⟨trivial, id, id⟩, trivial, id, by simp [UnlockedFrom, unlockAt]⟩

theorem lock_unlock_roundTrip_oneLock :
    (∀ pool ∈ messagePools, (RedisCache.mk "").Holds stillLocked "q" pool "a" ↔
      pool = .lock .lockNack) ∧
    ∃ t, (RedisCache.mk "").machine stillLocked (unlockAt 20) (.ids ["a"]) t ∧
      (t.zset ((RedisCache.mk "").key "q" .active)).score "a" = some (.ofInt 7) := by
  have hlock : (RedisCache.mk "").step (play (RedisCache.mk "").step Redis.empty oneDelivery).2
      (.lockMessage (fun _ => 0) lockedMessage .lockNack) = (.flag true, oneLock) :=
    Prod.ext (by decide +kernel) rfl
  have hok : ∀ c ∈ (play (RedisCache.mk "").step Redis.empty oneDelivery).1 ++
      (play (RedisCache.mk "").step oneLock whileLocked).1, c.1.AmountOk :=
    List.forall_mem_append.mpr ⟨by decide +kernel, fun c hc => (unlocks_oneLock_none c hc).1⟩
  obtain ⟨hholds, hround⟩ := lock_unlock_roundTrip (RedisCache.mk "") (run_play _ _ oneDelivery)
    hlock (by decide +kernel) run_stillLocked hok (fun c hc => (unlocks_oneLock_none c hc).2.1)
    fun c hc => (unlocks_oneLock_none c hc).2.2
  obtain ⟨t, hunlock⟩ := unlockAt_stillLocked
  obtain ⟨-, x, hx, hscore, -⟩ := hround _ _ _ hunlock (List.mem_singleton_self _)
  have hseven : Number.ofInt 7 = x := Float64.num.inj (hscore (by decide +kernel))
  rw [hseven]
  exact ⟨hholds, t, hunlock, hx⟩

end Locks

section Errors

variable {message : Message} {clock : Clock} {lockType : LockType}

/-- All six sorted sets of a queue are the same in both states. -/
def SamePools (cache : RedisCache) (s t : Redis) (queue : String) : Prop :=
  ∀ pool, t.zset (cache.key queue pool) = s.zset (cache.key queue pool)

/-- If the call fails, it has left the sets of the queue as they were. -/
def ErrorAtomic (cache : RedisCache) (s : Redis) (op : Op) (queue : String) : Prop :=
  ∀ e t, cache.step s op = (.error e, t) → cache.SamePools s t queue

/-- An error that changed nothing, or no error. -/
theorem errorAtomic_of_step {op : Op} {queue : String} {res : Result}
    (h : cache.step s op = (res, t)) (hres : (∃ moved, res = .flag moved) ∨ t = s) :
    cache.ErrorAtomic s op queue := by
  intro e t' ht
  cases h.symm.trans ht
  rcases hres with ⟨_, hres⟩ | rfl
  · cases hres
  · exact fun _ => rfl

/-- An error that took the message out of the processing pool. -/
theorem not_errorAtomic_of_step {op : Op} {queue id : String} {e : CacheError}
    (h : cache.step s op = (.error e, t)) (hp : cache.Holds s queue .processing id)
    (hlost : (t.zset (cache.key queue .processing)).score id = none) :
    ¬ cache.ErrorAtomic s op queue := by
  intro hatomic
  have hsame := congrArg (fun z => (z.score id).isSome) (hatomic e t h .processing)
  simp [show (SortedSet.score _ _).isSome = true from hp, hlost] at hsame

theorem inPools_shift {queue q id : String} {source destination : Pool} {x : Number}
    {l : List String} (hdst : destination ∈ messagePools) (hne : destination ≠ source)
    (h : cache.InPools s q id) :
    cache.InPools (shift s (cache.key queue destination) (cache.key queue source) x l) q id := by
  obtain ⟨pool, hpool, hh⟩ := h
  by_cases hmoved : q = queue ∧ id ∈ l
  · refine ⟨destination, hdst, ?_⟩
    simp [Holds, hmoved, hne]
  · refine ⟨pool, hpool, ?_⟩
    rw [Holds] at hh ⊢
    rw [score_shift]
    by_cases hq : q = queue
    · have hid : id ∉ l := fun hid => hmoved ⟨hq, hid⟩
      simpa [hid] using hh
    · simpa [hq] using hh

/-- The calls that move a message out of the processing pool, in any state. -/
theorem step_makeAvailable_cases (cache : RedisCache) (s : Redis) (message : Message) :
    (Releasable message ∧ message.score = .nan ∧
      cache.Holds s message.queue .processing message.id ∧
      ∃ e, cache.step s (.makeAvailable message) = (.error e,
        s.setZ (cache.key message.queue .processing)
          ((s.zset (cache.key message.queue .processing)).erase message.id))) ∨
    (¬ (Releasable message ∧ message.score = .nan ∧
      cache.Holds s message.queue .processing message.id) ∧
      ∃ res t, cache.step s (.makeAvailable message) = (res, t) ∧
        (t = s ∨ (∃ moved, res = .flag moved) ∧ ∃ x, t = shift s (cache.key message.queue .active)
          (cache.key message.queue .processing) x [message.id])) := by
  by_cases ha : Releasable message
  swap
  · obtain ⟨e, he⟩ : ∃ e, cache.step s (.makeAvailable message) = (.error e, s) := step_rejected ha
    exact Or.inr ⟨fun h => ha h.1, _, s, he, Or.inl rfl⟩
  by_cases hp : cache.Holds s message.queue .processing message.id
  swap
  · have hnone : (s.zset (cache.key message.queue .processing)).score message.id = none := by
      simpa [Holds] using hp
    have hrun : exec (cache.makeAvailable message) s = (.ok false, s) := by
      rw [exec_makeAvailable ha, exec_wrap_ok (exec_moveElementScript_absent hnone)]
      rfl
    exact Or.inr ⟨fun h => hp h.2.2, _, s, step_ok rfl hrun, Or.inl rfl⟩
  cases hx : message.score with
  | nan =>
    have hrun : exec (cache.makeAvailable message) s =
        (.error (.makingElementAvailable .notAValidFloat),
          s.setZ (cache.key message.queue .processing)
            ((s.zset (cache.key message.queue .processing)).erase message.id)) := by
      rw [exec_makeAvailable ha, hx, exec_wrap_error (exec_moveElementScript_nan hp),
        andThen_error]
    exact Or.inl ⟨ha, rfl, hp, _, step_error rfl hrun⟩
  | num x =>
    obtain ⟨moved, hrun⟩ : ∃ moved, exec (cache.makeAvailable message) s = (.ok moved,
        shift s (cache.key message.queue .active) (cache.key message.queue .processing) x
          [message.id]) := ⟨_, by
      rw [exec_makeAvailable ha, hx, exec_wrap_ok (exec_moveElementScript (by simp) hp),
        andThen_ok, exec_pure]⟩
    exact Or.inr ⟨by simp, _, _, step_ok rfl hrun, Or.inr ⟨⟨_, rfl⟩, x, rfl⟩⟩

theorem step_lockMessage_cases (cache : RedisCache) (s : Redis) (clock : Clock)
    (message : Message) (lockType : LockType) :
    (Lockable message ∧ message.score = .nan ∧
      cache.Holds s message.queue .processing message.id ∧
      ∃ e, cache.step s (.lockMessage clock message lockType) = (.error e,
        shift s (cache.key message.queue (.lock lockType)) (cache.key message.queue .processing)
          (lockUntil clock message) [message.id])) ∨
    (¬ (Lockable message ∧ message.score = .nan ∧
      cache.Holds s message.queue .processing message.id) ∧
      ∃ res t, cache.step s (.lockMessage clock message lockType) = (res, t) ∧
        (t = s ∨ (∃ moved, res = .flag moved) ∧
          ∃ z, t = (shift s (cache.key message.queue (.lock lockType))
            (cache.key message.queue .processing) (lockUntil clock message) [message.id]).setZ
              (cache.key message.queue (.lockScore lockType)) z)) := by
  by_cases ha : Lockable message
  swap
  · obtain ⟨e, he⟩ : ∃ e, cache.step s (.lockMessage clock message lockType) = (.error e, s) :=
      step_rejected ha
    exact Or.inr ⟨fun h => ha h.1, _, s, he, Or.inl rfl⟩
  by_cases hp : cache.Holds s message.queue .processing message.id
  swap
  · have hnone : (s.zset (cache.key message.queue .processing)).score message.id = none := by
      simpa [Holds] using hp
    have hrun : exec (cache.lockMessage clock message lockType) s = (.ok false, s) := by
      rw [exec_lockMessage ha, exec_wrap_ok (exec_lockElementScript_absent hnone)]
      rfl
    exact Or.inr ⟨fun h => hp h.2.2, _, s, step_ok rfl hrun, Or.inl rfl⟩
  cases hx : message.score with
  | nan =>
    have hrun : exec (cache.lockMessage clock message lockType) s =
        (.error (.lockingElement .notAValidFloat),
          shift s (cache.key message.queue (.lock lockType)) (cache.key message.queue .processing)
            (lockUntil clock message) [message.id]) := by
      rw [exec_lockMessage ha, hx, exec_wrap_error (exec_lockElementScript_nan (by simp) hp),
        andThen_error]
    exact Or.inl ⟨ha, rfl, hp, _, step_error rfl hrun⟩
  | num x =>
    obtain ⟨moved, z, hrun⟩ : ∃ moved z, exec (cache.lockMessage clock message lockType) s =
        (.ok moved, (shift s (cache.key message.queue (.lock lockType))
          (cache.key message.queue .processing) (lockUntil clock message) [message.id]).setZ
            (cache.key message.queue (.lockScore lockType)) z) := by
      by_cases hu : (Float64.num x).eq (.ofInt (-1))
      · exact ⟨_, _, by
          rw [exec_lockMessage ha, hx, exec_wrap_ok
            (exec_lockElementScript_undefined (by simp) hu hp), andThen_ok, exec_pure,
            Redis.setZ_self]⟩
      · exact ⟨_, _, by
          rw [exec_lockMessage ha, hx, exec_wrap_ok
            (exec_lockElementScript (by simp) (by simp) (by simp) hu hp), andThen_ok, exec_pure]⟩
    exact Or.inr ⟨by simp, _, _, step_ok rfl hrun, Or.inr ⟨⟨_, rfl⟩, z, rfl⟩⟩

/-- A failing release leaves the pools as they were exactly when it is not one that passes
its checks with a NaN score for a message in the processing pool. In that case alone
making a message available loses it; locking never does. -/
theorem release_errorAtomic_iff (cache : RedisCache) (s : Redis) :
    (∀ message : Message, cache.ErrorAtomic s (.makeAvailable message) message.queue ↔
      ¬ (Releasable message ∧ message.score = .nan ∧
        cache.Holds s message.queue .processing message.id)) ∧
    (∀ (clock : Clock) (message : Message) (lockType : LockType),
      cache.ErrorAtomic s (.lockMessage clock message lockType) message.queue ↔
      ¬ (Lockable message ∧ message.score = .nan ∧
        cache.Holds s message.queue .processing message.id)) ∧
    (∀ message : Message, ¬ (Releasable message ∧ message.score = .nan ∧
        cache.Holds s message.queue .processing message.id) →
      ∀ queue id, cache.InPools s queue id →
        cache.InPools (cache.step s (.makeAvailable message)).2 queue id) ∧
    (∀ (clock : Clock) (message : Message) (lockType : LockType) (queue id : String),
      cache.InPools s queue id →
        cache.InPools (cache.step s (.lockMessage clock message lockType)).2 queue id) := by
  refine ⟨fun message => ?_, fun clock message lockType => ?_, fun message hsafe queue id h => ?_,
    fun clock message lockType queue id h => ?_⟩
  · rcases step_makeAvailable_cases cache s message with
      ⟨ha, hx, hp, e, hstep⟩ | ⟨hsafe, res, t, hstep, ht⟩
    · exact iff_of_false (not_errorAtomic_of_step hstep hp (by simp)) (not_not.mpr ⟨ha, hx, hp⟩)
    · refine iff_of_true (errorAtomic_of_step hstep ?_) hsafe
      exact ht.symm.imp And.left id
  · rcases step_lockMessage_cases cache s clock message lockType with
      ⟨ha, hx, hp, e, hstep⟩ | ⟨hsafe, res, t, hstep, ht⟩
    · exact iff_of_false (not_errorAtomic_of_step hstep hp (by simp)) (not_not.mpr ⟨ha, hx, hp⟩)
    · refine iff_of_true (errorAtomic_of_step hstep ?_) hsafe
      exact ht.symm.imp And.left id
  · rcases step_makeAvailable_cases cache s message with
      ⟨ha, hx, hp, -⟩ | ⟨-, res, t, hstep, rfl | ⟨-, x, rfl⟩⟩
    · exact absurd ⟨ha, hx, hp⟩ hsafe
    · rwa [hstep]
    · rw [hstep]
      exact inPools_shift (by simp [messagePools]) (by simp) h
  · have hlock : Pool.lock lockType ∈ messagePools := by cases lockType <;> simp [messagePools]
    rcases step_lockMessage_cases cache s clock message lockType with
      ⟨-, -, -, e, hstep⟩ | ⟨-, res, t, hstep, rfl | ⟨-, z, rfl⟩⟩
    · rw [hstep]
      exact inPools_shift hlock (by simp) h
    · rwa [hstep]
    · rw [hstep]
      obtain ⟨pool, hpool, hh⟩ : cache.InPools (shift s (cache.key message.queue (.lock lockType))
          (cache.key message.queue .processing) (lockUntil clock message) [message.id]) queue id :=
        inPools_shift hlock (by simp) h
      refine ⟨pool, hpool, ?_⟩
      have hne : pool ≠ .lockScore lockType := by
        rintro rfl
        simp [messagePools] at hpool
      simpa [Holds, hne] using hh

/-- A pulled message that is made available with a NaN score is in no pool afterwards. -/
theorem makeAvailable_nan_loses :
    ∃ tr t, Run (RedisCache.mk "").machine Redis.empty tr t ∧ ∃ message : Message,
      (RedisCache.mk "").InPools t message.queue message.id ∧
      ¬ (RedisCache.mk "").ErrorAtomic t (.makeAvailable message) message.queue ∧
      ¬ (RedisCache.mk "").InPools ((RedisCache.mk "").step t (.makeAvailable message)).2
        message.queue message.id := by
  refine ⟨_, _, run_play _ _ oneDelivery, { id := "a", queue := "q", score := .nan },
    by decide +kernel, fun hatomic => ?_, by decide +kernel⟩
  have hsame := hatomic (.makingElementAvailable .notAValidFloat) _
    (Prod.ext (by decide +kernel) rfl) .processing
  exact absurd (congrArg (fun z => (z.score "a").isSome) hsame) (by decide +kernel)

end Errors

end Deckard.RedisCache
