import Deckard.RedisCache

/-!
# Places of the messages in Redis

The six sorted sets of a queue seen from its messages: each id has one place. A state
that represents an assignment of places keeps the pools disjoint and the kept scores
within their lock pool. Every call is described by the places that it changes.
-/
namespace Deckard.RedisCache

open Binary64 Effect Cache RedisScripts

inductive Place
  | absent
  | active (score : Number)
  | processing (deadline : Number)
  | locked (lockType : LockType) (lockUntil : Number) (kept : Option Number)
  deriving DecidableEq

/-- Score under which a set of the queue holds a message that is in this place. -/
def Place.score : Place → Pool → Option Number
  | .active x, .active => some x
  | .processing d, .processing => some d
  | .locked t u _, .lock t' => if t = t' then some u else none
  | .locked t _ kept, .lockScore t' => if t = t' then kept else none
  | _, _ => none

@[simp] theorem Place.score_absent (pool : Pool) : Place.absent.score pool = none := by
  cases pool <;> rfl

@[simp] theorem Place.score_active (x : Number) (pool : Pool) :
    (Place.active x).score pool = if pool = .active then some x else none := by
  cases pool <;> rfl

@[simp] theorem Place.score_processing (d : Number) (pool : Pool) :
    (Place.processing d).score pool = if pool = .processing then some d else none := by
  cases pool <;> rfl

theorem Place.score_locked_none (t : LockType) (u : Number) (pool : Pool) :
    (Place.locked t u none).score pool = if pool = .lock t then some u else none := by
  cases pool <;> simp [Place.score, eq_comm]

theorem Place.score_processing_eq_none {p : Place} (h : ∀ d, p ≠ .processing d) :
    p.score .processing = none := by
  cases p <;> simp_all [Place.score]

theorem Place.eq_active {p : Place} {x : Number} (h : p.score .active = some x) :
    p = .active x := by
  cases p <;> simp_all [Place.score]

theorem Place.eq_processing {p : Place} {d : Number} (h : p.score .processing = some d) :
    p = .processing d := by
  cases p <;> simp_all [Place.score]

theorem Place.eq_locked {p : Place} {t : LockType} {u : Number} (h : p.score (.lock t) = some u) :
    ∃ kept, p = .locked t u kept := by
  cases p with
  | locked t' u' kept =>
    simp only [Place.score] at h
    split_ifs at h with ht
    exact ⟨kept, by simp_all⟩
  | _ => simp [Place.score] at h

abbrev Places := String → String → Place

/-- Give the listed messages of a queue new places. -/
def Places.replace (P : Places) (queue : String) (l : List String) (f : String → Place) : Places :=
  fun q id => if q = queue ∧ id ∈ l then f id else P q id

theorem Places.forall_replace {P : Places} {Q : String → Place → Prop} {queue : String}
    {l : List String} {f : String → Place} (hP : ∀ q id, Q q (P q id))
    (hf : ∀ id ∈ l, Q queue (f id)) (q id : String) : Q q (P.replace queue l f q id) := by
  unfold Places.replace
  split_ifs with h
  · rw [h.1]
    exact hf id h.2
  · exact hP q id

variable (cache : RedisCache)

def Represents (s : Redis) (P : Places) : Prop :=
  ∀ queue id pool, (s.zset (cache.key queue pool)).score id = (P queue id).score pool

variable {cache} {s : Redis} {P : Places}

theorem represents_empty : cache.Represents Redis.empty fun _ _ => .absent := by
  intro queue id pool
  cases pool <;> rfl

@[simp] theorem activePool_eq (queue : String) :
    cache.activePool queue = cache.key queue .active := rfl

@[simp] theorem processingPool_eq (queue : String) :
    cache.processingPool queue = cache.key queue .processing := rfl

@[simp] theorem lockPool_eq (queue : String) (t : LockType) :
    cache.lockPool queue t = cache.key queue (.lock t) := rfl

@[simp] theorem lockPoolScore_eq (queue : String) (t : LockType) :
    cache.lockPoolScore queue t = cache.key queue (.lockScore t) := rfl

theorem exec_validateQueueName {queue : String} (h : hasHashTag queue = false) :
    exec (validateQueueName queue : Eff Redis CacheError Unit) s = (.ok (), s) := by
  simp [validateQueueName, h]

theorem exec_validateQueueName_braces {queue : String} (h : hasHashTag queue = true) :
    exec (validateQueueName queue : Eff Redis CacheError Unit) s =
      (.error .queueNameContainsClusterHashTag, s) := by
  simp [validateQueueName, h]

/-- A call that checks the name first refuses one with braces. -/
theorem exec_validated_braces {α : Type} {queue : String} (h : hasHashTag queue = true)
    {f : Unit → Eff Redis CacheError α} :
    exec (validateQueueName queue >>= f) s = (.error .queueNameContainsClusterHashTag, s) := by
  rw [exec_bind, exec_validateQueueName_braces h]
  rfl

/-- A change of some messages of a queue that leaves all others as they are. -/
theorem Represents.replace (hs : cache.Represents s P) {t : Redis} {queue : String}
    {l : List String} {f : String → Place}
    (hin : ∀ id ∈ l, ∀ pool, (t.zset (cache.key queue pool)).score id = (f id).score pool)
    (hout : ∀ q id pool, (q = queue → id ∉ l) →
      (t.zset (cache.key q pool)).score id = (s.zset (cache.key q pool)).score id) :
    cache.Represents t (P.replace queue l f) := by
  intro q id pool
  unfold Places.replace
  split_ifs with h
  · obtain ⟨rfl, hid⟩ := h
    exact hin id hid pool
  · rw [hout q id pool fun hq hid => h ⟨hq, hid⟩, hs q id pool]

/-- Messages that one set of their queue holds go to another one. -/
theorem Represents.shift (hs : cache.Represents s P) {queue : String} {source destination : Pool}
    {l : List String} {x : Number} {p : Place} (hne : destination ≠ source)
    (hfrom : ∀ id ∈ l, ∀ pool, pool ≠ source → (P queue id).score pool = none)
    (hto : ∀ pool, p.score pool = if pool = destination then some x else none) :
    cache.Represents (shift s (cache.key queue destination) (cache.key queue source) x l)
      (P.replace queue l fun _ => p) := by
  refine hs.replace (fun id hid pool => ?_) fun q id pool hout => ?_
  · by_cases hsrc : pool = source
    · simp [hid, hto, hsrc, hne.symm]
    · by_cases hdst : pool = destination
      · simp [hid, hto, hdst, hne]
      · simp [hto, hsrc, hdst, hs queue id pool, hfrom id hid pool hsrc]
  · by_cases hq : q = queue
    · simp [hout hq]
    · simp [hq]

section Release

variable {message : Message} {clock : Clock} {lockType : LockType} {x d : Number}

/-- The checks before a message is made available. -/
def Releasable (message : Message) : Prop :=
  message.queue ≠ "" ∧ hasHashTag message.queue = false

theorem makeAvailable_rejected (h : ¬ Releasable message) :
    ∃ e, exec (cache.makeAvailable message) s = (.error e, s) := by
  by_cases hq : message.queue = ""
  · exact ⟨_, by simp [makeAvailable, RedisClient.makeAvailable, hq]; rfl⟩
  · have hb : hasHashTag message.queue = true := by simpa [Releasable, hq] using h
    exact ⟨_, by
      rw [makeAvailable, RedisClient.makeAvailable, exec_ite, if_neg hq,
        exec_validated_braces hb]⟩

theorem exec_makeAvailable (h : Releasable message) :
    exec (cache.makeAvailable message) s =
      andThen (exec (wrap .makingElementAvailable
        (moveElementScript (cache.key message.queue .active) (cache.key message.queue .processing)
          message.score message.id)) s) fun moved => pure (moved == 1) := by
  rw [makeAvailable, RedisClient.makeAvailable, exec_ite, if_neg h.1, exec_bind,
    exec_validateQueueName h.2, andThen_ok, exec_bind]
  rfl

theorem makeAvailable_elsewhere (hs : cache.Represents s P) (h : Releasable message)
    (hp : ∀ d, P message.queue message.id ≠ .processing d) :
    exec (cache.makeAvailable message) s = (.ok false, s) := by
  have hnone := (hs message.queue message.id .processing).trans (Place.score_processing_eq_none hp)
  rw [exec_makeAvailable h, exec_wrap_ok (exec_moveElementScript_absent hnone)]
  rfl

theorem makeAvailable_moves (hs : cache.Represents s P) (h : Releasable message)
    (hp : P message.queue message.id = .processing d) (hx : message.score = .num x) :
    ∃ t, exec (cache.makeAvailable message) s = (.ok true, t) ∧ t.str = s.str ∧
      cache.Represents t (P.replace message.queue [message.id] fun _ => .active x) := by
  refine ⟨RedisScripts.shift s (cache.key message.queue .active)
    (cache.key message.queue .processing) x [message.id], ?_, rfl, hs.shift (by simp) ?_ ?_⟩
  · rw [exec_makeAvailable h, hx,
      exec_wrap_ok (exec_moveElementScript (by simp) (by simp [hs _ _ _, hp])), hs, hp]
    rfl
  · simp +contextual [hp]
  · simp

/-- With a NaN score the message is lost: it has left the processing pool when the score
is refused. -/
theorem makeAvailable_nan (hs : cache.Represents s P) (h : Releasable message)
    (hp : P message.queue message.id = .processing d) (hx : message.score = .nan) :
    ∃ t, exec (cache.makeAvailable message) s =
        (.error (.makingElementAvailable .notAValidFloat), t) ∧ t.str = s.str ∧
      cache.Represents t (P.replace message.queue [message.id] fun _ => .absent) := by
  refine ⟨s.setZ (cache.key message.queue .processing)
    ((s.zset (cache.key message.queue .processing)).erase message.id), ?_, rfl, ?_⟩
  · rw [exec_makeAvailable h, hx,
      exec_wrap_error (exec_moveElementScript_nan (by simp [hs _ _ _, hp]))]
    rfl
  · refine hs.replace (fun id hid pool => ?_) fun q id pool hout => ?_
    · rw [List.mem_singleton.mp hid]
      by_cases hpool : pool = .processing <;> simp [hpool, hs _ _ _, hp]
    · by_cases hq : q = message.queue
      · have hid : id ≠ message.id := fun h => hout hq (by simp [h])
        by_cases hpool : pool = .processing <;> simp [hq, hid, hpool]
      · simp [hq]

/-- The checks before a message is locked. -/
def Lockable (message : Message) : Prop := Releasable message ∧ 0 < message.lockMs.toInt

/-- Score of a lock that a message asks for now. -/
def lockUntil (clock : Clock) (message : Message) : Number :=
  .ofInt (Dtime.timeToMs (clock 0) + message.lockMs).toInt

/-- Score kept for the unlocking; the undefined one is not kept. -/
def keptScore (x : Number) : Option Number := if x = .ofInt (-1) then none else some x

theorem lockMs_le_zero {n : Int64} : n ≤ 0 ↔ ¬ 0 < n.toInt := by
  rw [Int64.le_iff_toInt_le]
  simp

theorem lockMessage_rejected (h : ¬ Lockable message) :
    ∃ e, exec (cache.lockMessage clock message lockType) s = (.error e, s) := by
  by_cases hq : message.queue = ""
  · exact ⟨_, by rw [lockMessage, RedisClient.lockMessage, exec_ite, if_pos hq]; rfl⟩
  · cases hb : hasHashTag message.queue with
    | true =>
      exact ⟨_, by
        rw [lockMessage, RedisClient.lockMessage, exec_ite, if_neg hq,
          exec_validated_braces hb]⟩
    | false =>
      have hms : message.lockMs ≤ 0 := lockMs_le_zero.mpr fun hpos => h ⟨⟨hq, hb⟩, hpos⟩
      exact ⟨_, by
        rw [lockMessage, RedisClient.lockMessage, exec_ite, if_neg hq, exec_bind,
          exec_validateQueueName hb, andThen_ok, exec_ite, if_pos hms]; rfl⟩

theorem exec_lockMessage (h : Lockable message) :
    exec (cache.lockMessage clock message lockType) s =
      andThen (exec (wrap .lockingElement
        (lockElementScript (cache.key message.queue .processing)
          (cache.key message.queue (.lock lockType)) (cache.key message.queue (.lockScore lockType))
          (.num (lockUntil clock message)) message.id message.score)) s)
        fun moved => pure (moved == 1) := by
  rw [lockMessage, RedisClient.lockMessage, exec_ite, if_neg h.1.1, exec_bind,
    exec_validateQueueName h.1.2, andThen_ok, exec_ite,
    if_neg (fun hle => lockMs_le_zero.mp hle h.2), exec_bind]
  rfl

theorem lockMessage_elsewhere (hs : cache.Represents s P) (h : Lockable message)
    (hp : ∀ d, P message.queue message.id ≠ .processing d) :
    exec (cache.lockMessage clock message lockType) s = (.ok false, s) := by
  have hnone := (hs message.queue message.id .processing).trans (Place.score_processing_eq_none hp)
  rw [exec_lockMessage h, exec_wrap_ok (exec_lockElementScript_absent hnone)]
  rfl

theorem lockMessage_moves (hs : cache.Represents s P) (h : Lockable message)
    (hp : P message.queue message.id = .processing d) (hx : message.score = .num x) :
    ∃ t, exec (cache.lockMessage clock message lockType) s = (.ok true, t) ∧ t.str = s.str ∧
      cache.Represents t (P.replace message.queue [message.id] fun _ =>
        .locked lockType (lockUntil clock message) (keptScore x)) := by
  have hsome : ((s.zset (cache.key message.queue .processing)).score message.id).isSome := by
    simp [hs _ _ _, hp]
  by_cases hu : x = .ofInt (-1)
  · refine ⟨RedisScripts.shift s (cache.key message.queue (.lock lockType))
      (cache.key message.queue .processing) (lockUntil clock message) [message.id], ?_, rfl,
      hs.shift (by simp) (by simp +contextual [hp]) ?_⟩
    · have heq : message.score.eq (.ofInt (-1)) := by simp [hx, hu, Float64.eq, Float64.ofInt]
      rw [exec_lockMessage h, exec_wrap_ok (exec_lockElementScript_undefined (by simp) heq hsome),
        hs, hp]
      rfl
    · simp [keptScore, hu, Place.score_locked_none]
  · refine ⟨(RedisScripts.shift s (cache.key message.queue (.lock lockType))
      (cache.key message.queue .processing) (lockUntil clock message) [message.id]).setZ
      (cache.key message.queue (.lockScore lockType))
      ((s.zset (cache.key message.queue (.lockScore lockType))).add x message.id), ?_, rfl,
      hs.replace (fun id hid pool => ?_) fun q id pool hout => ?_⟩
    · have hne : ¬ (Float64.num x).eq (.ofInt (-1)) := by simp [hu, Float64.eq, Float64.ofInt]
      rw [exec_lockMessage h, hx, exec_wrap_ok
        (exec_lockElementScript (by simp) (by simp) (by simp) hne hsome), hs, hp]
      rfl
    · rw [List.mem_singleton.mp hid]
      by_cases hl : pool = .lock lockType
      · simp [hl, Place.score]
      · by_cases hk : pool = .lockScore lockType
        · simp [hk, Place.score, keptScore, hu]
        · cases pool <;> simp_all [hs _ _ _, Place.score, eq_comm]
    · by_cases hq : q = message.queue
      · have hid : id ≠ message.id := fun h => hout hq (by simp [h])
        by_cases hk : pool = .lockScore lockType <;> simp [hq, hid, hk]
      · simp [hq]

/-- A NaN score leaves the message locked without a kept score, although the call fails. -/
theorem lockMessage_nan (hs : cache.Represents s P) (h : Lockable message)
    (hp : P message.queue message.id = .processing d) (hx : message.score = .nan) :
    ∃ t, exec (cache.lockMessage clock message lockType) s =
        (.error (.lockingElement .notAValidFloat), t) ∧ t.str = s.str ∧
      cache.Represents t (P.replace message.queue [message.id] fun _ =>
        .locked lockType (lockUntil clock message) none) := by
  refine ⟨RedisScripts.shift s (cache.key message.queue (.lock lockType))
    (cache.key message.queue .processing) (lockUntil clock message) [message.id], ?_, rfl,
    hs.shift (by simp) (by simp +contextual [hp]) ?_⟩
  · rw [exec_lockMessage h, hx,
      exec_wrap_error (exec_lockElementScript_nan (by simp) (by simp [hs _ _ _, hp]))]
    rfl
  · simp [Place.score_locked_none]

end Release

section Moves

variable {queue : String} {clock : Clock} {lockType : LockType} {n ackDeadlineMs : Int64}

/-- Deadline of the messages that a pull hands out. -/
def deadline (clock : Clock) (ackDeadlineMs : Int64) : Number :=
  .ofInt (Dtime.timeToMs (clock 0) +
    (if ackDeadlineMs = 0 then defaultTimeoutMs else ackDeadlineMs)).toInt

theorem exec_pullMessages (h : hasHashTag queue = false) {minScore maxScore : Option Float64} :
    exec (cache.pullMessages clock queue n minScore maxScore ackDeadlineMs) s =
      exec (wrap .parsingResult (pullElementsScript (cache.key queue .active)
        (cache.key queue .processing) n.toInt (.num (deadline clock ackDeadlineMs))
        minScore maxScore)) s := by
  rw [pullMessages, RedisClient.pullMessages, exec_bind, exec_validateQueueName h, andThen_ok]
  rfl

theorem pullMessages_nan (h : hasHashTag queue = false) {minScore maxScore : Option Float64}
    (hnan : minScore = some .nan ∨ maxScore = some .nan) :
    exec (cache.pullMessages clock queue n minScore maxScore ackDeadlineMs) s =
      (.error (.parsingResult .minOrMaxNotAFloat), s) := by
  rw [exec_pullMessages h, exec_wrap_error]
  rw [pullElementsScript, exec_bind, exec_selectElements_nan hnan, andThen_error]

theorem pullMessages_moves (hs : cache.Represents s P) (h : hasHashTag queue = false)
    (hlo : 1 ≤ n.toInt) (hhi : n.toInt ≤ 1000) (minScore maxScore : Option Number)
    {l : List String} (hl : l = Redis.limit n.toInt ((s.zset (cache.key queue .active)).rangeByScore
      (minScore.getD .negInf) (maxScore.getD .posInf))) :
    ∃ t, exec (cache.pullMessages clock queue n (minScore.map .num) (maxScore.map .num)
        ackDeadlineMs) s = (.ok l, t) ∧ t.str = s.str ∧
      cache.Represents t (P.replace queue l fun _ => .processing (deadline clock ackDeadlineMs)) ∧
      l.Nodup ∧ ∀ id ∈ l, ∃ x, P queue id = .active x := by
  have hsub : l.Sublist _ := hl ▸ Redis.limit_sublist _ _
  have hactive : ∀ id ∈ l, ∃ x, P queue id = .active x := by
    intro id hid
    obtain ⟨x, hx, -⟩ := SortedSet.mem_rangeByScore.mp (hsub.subset hid)
    rw [hs] at hx
    exact ⟨x, Place.eq_active hx⟩
  refine ⟨RedisScripts.shift s (cache.key queue .processing) (cache.key queue .active)
    (deadline clock ackDeadlineMs) l, ?_, rfl, hs.shift (by simp) ?_ (by simp),
    (SortedSet.nodup_rangeByScore _ _ _).sublist hsub, hactive⟩
  · rw [exec_pullMessages h]
    exact exec_wrap_ok (exec_pullElementsScript (by simp) hlo
      (hhi.trans_lt (by decide)) minScore maxScore hl)
  · intro id hid pool hpool
    obtain ⟨x, hx⟩ := hactive id hid
    simp [hx, hpool]

/-- The ids that are due in a sorted set, from the latest deadline down and at most a
thousand of them. -/
def batch (s : Redis) (k : String) (now : Number) : List String :=
  Redis.limit 1000 ((s.zset k).revRangeByScore now (.ofInt 0))

theorem exec_timeoutMessages (h : hasHashTag queue = false) :
    exec (cache.timeoutMessages clock queue) s =
      let l := batch s (cache.key queue .processing) (.ofInt (Dtime.timeToMs (clock 0)).toInt)
      (.ok l, RedisScripts.shift s (cache.key queue .active) (cache.key queue .processing)
        (.ofInt 0) l) := by
  rw [timeoutMessages, RedisClient.timeoutMessages, exec_bind, exec_validateQueueName h, andThen_ok]
  exact exec_wrap_ok (exec_moveFilteredElementsScript (by simp) _ (by norm_num) (by decide) rfl)

theorem timeoutMessages_moves (hs : cache.Represents s P) (h : hasHashTag queue = false)
    {l : List String}
    (hl : l = Redis.limit 1000 ((s.zset (cache.key queue .processing)).revRangeByScore
      (.ofInt (Dtime.timeToMs (clock 0)).toInt) (.ofInt 0))) :
    ∃ t, exec (cache.timeoutMessages clock queue) s = (.ok l, t) ∧ t.str = s.str ∧
      cache.Represents t (P.replace queue l fun _ => .active (.ofInt 0)) ∧
      ∀ id ∈ l, ∃ d, P queue id = .processing d ∧ .ofInt 0 ≤ d ∧
        d ≤ .ofInt (Dtime.timeToMs (clock 0)).toInt := by
  have hsub : l.Sublist _ := hl ▸ Redis.limit_sublist _ _
  have hproc : ∀ id ∈ l, ∃ d, P queue id = .processing d ∧ .ofInt 0 ≤ d ∧
      d ≤ .ofInt (Dtime.timeToMs (clock 0)).toInt := by
    intro id hid
    obtain ⟨d, hd, hbounds⟩ := SortedSet.mem_revRangeByScore.mp (hsub.subset hid)
    rw [hs] at hd
    exact ⟨d, Place.eq_processing hd, hbounds⟩
  refine ⟨RedisScripts.shift s (cache.key queue .active) (cache.key queue .processing)
    (.ofInt 0) l, ?_, rfl, hs.shift (by simp) ?_ (by simp), hproc⟩
  · rw [exec_timeoutMessages h, hl]
    rfl
  · intro id hid pool hpool
    obtain ⟨d, hd, -⟩ := hproc id hid
    simp [hd, hpool]

/-- Score of an unlocked message for which none was kept. -/
def unlockScore (clock : Clock) (lockType : LockType) : Number :=
  if lockType = .lockAck then .ofInt (Dtime.timeToMs (clock 0)).toInt else .ofInt 0

/-- Score kept for a locked message. -/
def Place.kept : Place → Option Number
  | .locked _ _ kept => kept
  | _ => none

theorem exec_unlockMessages (h : hasHashTag queue = false) :
    exec (cache.unlockMessages clock queue lockType) s =
      let l := batch s (cache.key queue (.lock lockType)) (.ofInt (Dtime.timeToMs (clock 1)).toInt)
      (.ok l, RedisScripts.unlocked s (cache.key queue (.lock lockType)) (cache.key queue .active)
        (cache.key queue (.lockScore lockType)) (unlockScore clock lockType) l) := by
  have hdefault : (if lockType = .lockAck then Score.getScoreByDefaultAlgorithm (clock 0)
      else Score.min) = .num (unlockScore clock lockType) := by
    cases lockType <;> rfl
  rw [unlockMessages, RedisClient.unlockMessages, exec_bind, exec_validateQueueName h, andThen_ok,
    hdefault]
  exact exec_wrap_ok (exec_unlockElementsScript (by simp) (by simp) (by simp) _ (by norm_num)
    (by decide) rfl)

theorem unlockMessages_moves (hs : cache.Represents s P) (h : hasHashTag queue = false)
    {l : List String}
    (hl : l = Redis.limit 1000 ((s.zset (cache.key queue (.lock lockType))).revRangeByScore
      (.ofInt (Dtime.timeToMs (clock 1)).toInt) (.ofInt 0))) :
    ∃ t, exec (cache.unlockMessages clock queue lockType) s = (.ok l, t) ∧ t.str = s.str ∧
      cache.Represents t (P.replace queue l fun id =>
        .active ((P queue id).kept.getD (unlockScore clock lockType))) ∧
      ∀ id ∈ l, ∃ u kept, P queue id = .locked lockType u kept ∧ .ofInt 0 ≤ u ∧
        u ≤ .ofInt (Dtime.timeToMs (clock 1)).toInt := by
  have hsub : l.Sublist _ := hl ▸ Redis.limit_sublist _ _
  have hlocked : ∀ id ∈ l, ∃ u kept, P queue id = .locked lockType u kept ∧ .ofInt 0 ≤ u ∧
      u ≤ .ofInt (Dtime.timeToMs (clock 1)).toInt := by
    intro id hid
    obtain ⟨u, hu, hbounds⟩ := SortedSet.mem_revRangeByScore.mp (hsub.subset hid)
    rw [hs] at hu
    obtain ⟨kept, hkept⟩ := Place.eq_locked hu
    exact ⟨u, kept, hkept, hbounds⟩
  refine ⟨RedisScripts.unlocked s (cache.key queue (.lock lockType)) (cache.key queue .active)
    (cache.key queue (.lockScore lockType)) (unlockScore clock lockType) l, ?_, rfl,
    hs.replace (fun id hid pool => ?_) fun q id pool hout => ?_, hlocked⟩
  · rw [exec_unlockMessages h, hl]
    rfl
  · obtain ⟨u, kept, hp, -⟩ := hlocked id hid
    have hkept : (s.zset (cache.key queue (.lockScore lockType))).score id = kept := by
      simp [hs _ _ _, hp, Place.score]
    cases pool with
    | active => simp [hid, hkept, hp, Place.kept]
    | processing => simp [hs _ _ _, hp, Place.score]
    | lock t => by_cases ht : lockType = t <;> simp [hid, hs _ _ _, hp, Place.score, ht]
    | lockScore t => by_cases ht : lockType = t <;> simp [hid, hs _ _ _, hp, Place.score, ht]
  · by_cases hq : q = queue
    · simp [hout hq]
    · simp [hq]

end Moves

section Batches

variable {queue : String} {messages : List Message} {P' : Places}

/-- New places after an insertion that has added the ids `l`. -/
structure Inserts (P P' : Places) (queue : String) (messages : List Message) (l : List String) :
    Prop where
  new : ∀ id ∈ l, P queue id = .absent ∧
    ∃ m ∈ messages, m.id = id ∧ ∃ x, m.score = .num x ∧ P' queue id = .active x
  old : ∀ q id, (q = queue → id ∉ l) → P' q id = P q id

theorem Inserts.refl : Inserts P P queue messages [] := ⟨by simp, fun _ _ _ => rfl⟩

/-- A message that has a place keeps it. -/
theorem Inserts.kept {l : List String} (h : Inserts P P' queue messages l) {q id : String}
    (hp : P q id ≠ .absent) : P' q id = P q id := by
  refine h.old q id fun hq hid => hp ?_
  rw [hq]
  exact (h.new id hid).1

theorem Inserts.ne_absent {l : List String} (h : Inserts P P' queue messages l) {id : String}
    (hp : P queue id ≠ .absent) : P' queue id ≠ .absent := by
  rw [h.kept hp]
  exact hp

/-- A message that gets a place is one of the ids. -/
theorem Inserts.added_of_ne {l : List String} (h : Inserts P P' queue messages l) {q id : String}
    (hne : P' q id ≠ P q id) : q = queue ∧ id ∈ l := by
  by_contra hl
  exact hne (h.old q id fun hq hid => hl ⟨hq, hid⟩)

/-- What holds of the places before and of those of the new messages holds after. -/
theorem Inserts.forall_places {Q : String → Place → Prop} {l : List String}
    (h : Inserts P P' queue messages l) (hP : ∀ q id, Q q (P q id))
    (hnew : ∀ m ∈ messages, ∀ x, m.score = .num x → Q queue (.active x)) (q id : String) :
    Q q (P' q id) := by
  by_cases hl : q = queue ∧ id ∈ l
  · obtain ⟨rfl, hid⟩ := hl
    obtain ⟨-, m, hm, -, x, hx, hp'⟩ := h.new id hid
    rw [hp']
    exact hnew m hm x hx
  · rw [h.old q id fun hq hid => hl ⟨hq, hid⟩]
    exact hP q id

/-- A second insertion finds the ids of the first one present. -/
theorem Inserts.trans {P₁ P₂ : Places} {messages' : List Message} {l l' : List String}
    (h : Inserts P P₁ queue messages l) (h' : Inserts P₁ P₂ queue messages' l') :
    Inserts P P₂ queue (messages ++ messages') (l ++ l') := by
  refine ⟨fun id hid => ?_, fun q id hout => ?_⟩
  · by_cases hl : id ∈ l
    · obtain ⟨hp, m, hm, hmid, x, hx, hp₁⟩ := h.new id hl
      have hl' : id ∉ l' := fun hl' => by simp [(h'.new id hl').1] at hp₁
      exact ⟨hp, m, List.mem_append_left _ hm, hmid, x, hx,
        by rw [h'.old queue id fun _ => hl', hp₁]⟩
    · have hl' : id ∈ l' := (List.mem_append.mp hid).resolve_left hl
      obtain ⟨hp, m, hm, hrest⟩ := h'.new id hl'
      exact ⟨by rw [← h.old queue id fun _ => hl, hp], m, List.mem_append_right _ hm, hrest⟩
  · simp only [List.mem_append, not_or] at hout
    rw [h'.old q id fun hq => (hout hq).2, h.old q id fun hq => (hout hq).1]

/-- The script that adds one part of a batch. -/
def insertPart (cache : RedisCache) (queue : String) (part : List Message) :
    Eff Redis CacheError (List String) :=
  wrap .insertingCache
    (addElementsScript (cache.activePool queue)
      [cache.lockPool queue .lockNack, cache.lockPool queue .lockAck, cache.processingPool queue]
      (part.map fun message => (message.score, message.id)))

theorem missing_iff (hs : cache.Represents s P) (e : Float64 × String) :
    missing s [cache.key queue .active, cache.key queue (.lock .lockNack),
      cache.key queue (.lock .lockAck), cache.key queue .processing] e = true ↔
      P queue e.2 = .absent := by
  simp only [missing, List.any_cons, List.any_nil, hs queue e.2, Bool.not_eq_true',
    Bool.or_false, Bool.or_eq_false_iff]
  rcases P queue e.2 with _ | _ | _ | ⟨_ | _, _, _⟩ <;> simp [Place.score]

/-- Places after pairs have been added to the active pool of a queue. -/
def Places.activate (P : Places) (queue : String) (ps : List (Number × String)) : Places :=
  P.replace queue (ps.map Prod.snd) fun id => .active ((SortedSet.lastScore ps id).getD (.ofInt 0))

theorem Represents.activate (hs : cache.Represents s P) {ps : List (Number × String)}
    (habsent : ∀ id ∈ ps.map Prod.snd, P queue id = .absent) :
    cache.Represents (s.setZ (cache.key queue .active)
      ((s.zset (cache.key queue .active)).addAll ps)) (P.activate queue ps) := by
  refine hs.replace ?_ ?_
  · intro id hid pool
    obtain ⟨x, hx⟩ := Option.isSome_iff_exists.mp (SortedSet.lastScore_isSome.mpr hid)
    by_cases hpool : pool = .active
    · simp [hpool, SortedSet.score_addAll, hx]
    · simp [hpool, hs _ _ _, habsent id hid]
  · intro q id pool hout
    by_cases hq : q = queue
    · have hnone : SortedSet.lastScore ps id = none :=
        Option.not_isSome_iff_eq_none.mp fun h => hout hq (SortedSet.lastScore_isSome.mp h)
      by_cases hpool : pool = .active <;> simp [hq, hpool, SortedSet.score_addAll, hnone]
    · simp [hq]

/-- Pairs of absent messages, added, are insertions of these messages. -/
theorem inserts_activate {ps : List (Number × String)}
    (hps : ∀ e ∈ ps, P queue e.2 = .absent ∧ ∃ m ∈ messages, (m.score, m.id) = (.num e.1, e.2)) :
    Inserts P (P.activate queue ps) queue messages (ps.map Prod.snd) := by
  refine ⟨fun id hid => ?_, fun q id hout => if_neg fun h => hout h.1 h.2⟩
  obtain ⟨x, hx⟩ := Option.isSome_iff_exists.mp (SortedSet.lastScore_isSome.mpr hid)
  obtain ⟨habsent, m, hm, he⟩ := hps (x, id) (SortedSet.mem_of_lastScore hx)
  refine ⟨habsent, m, hm, congrArg Prod.snd he, x, congrArg Prod.fst he, ?_⟩
  simp only [Places.activate, Places.replace, true_and, if_pos hid, hx, Option.getD_some]

/-- The arguments of a part fit on the stack of Lua. -/
theorem pairs_fit (hlen : messages.length ≤ 2000) :
    2 * (messages.map fun m => (m.score, m.id)).length < Redis.luaiMaxCStack := by
  rw [List.length_map, Redis.luaiMaxCStack]
  omega

theorem insertPart_spec (queue : String) (hs : cache.Represents s P)
    (hlen : messages.length ≤ 2000) :
    ∃ P' l t, cache.Represents t P' ∧ t.str = s.str ∧ Inserts P P' queue messages l ∧
      ((exec (insertPart cache queue messages) s = (.ok l, t) ∧
          ∀ m ∈ messages, P' queue m.id ≠ .absent) ∨
        (∃ e, exec (insertPart cache queue messages) s = (.error e, t)) ∧
          ∃ m ∈ messages, m.score = .nan) := by
  set pools := [cache.key queue .active, cache.key queue (.lock .lockNack),
    cache.key queue (.lock .lockAck), cache.key queue .processing] with hpools
  set toInsert := (messages.map fun m => (m.score, m.id)).filter (missing s pools) with hins
  have hmem : ∀ e ∈ toInsert, P queue e.2 = .absent ∧ ∃ m ∈ messages, (m.score, m.id) = e := by
    intro e he
    obtain ⟨hmap, hmiss⟩ := List.mem_filter.mp he
    exact ⟨(missing_iff hs e).mp hmiss, List.mem_map.mp hmap⟩
  have hlen' := pairs_fit hlen
  cases hp : Redis.parseScores toInsert with
  | none =>
    refine ⟨P, [], s, hs, rfl, .refl, Or.inr ⟨⟨_, exec_wrap_error
      (exec_addElementsScript_nan hp hlen')⟩, ?_⟩⟩
    obtain ⟨e, he, hnan⟩ := Redis.parseScores_eq_none.mp hp
    obtain ⟨-, m, hm, rfl⟩ := hmem e he
    exact ⟨m, hm, hnan⟩
  | some ps =>
    have hps := Redis.parseScores_eq_some.mp hp
    have hpairs : ∀ e ∈ ps, P queue e.2 = .absent ∧
        ∃ m ∈ messages, (m.score, m.id) = (.num e.1, e.2) :=
      fun e he => hmem (.num e.1, e.2) (hps ▸ List.mem_map.mpr ⟨e, he, rfl⟩)
    have hnew := inserts_activate hpairs
    refine ⟨P.activate queue ps, ps.map Prod.snd, _, hs.activate fun id hid => (hnew.new id hid).1,
      rfl, hnew, Or.inl ⟨exec_wrap_ok (exec_addElementsScript hp hlen'), fun m hm => ?_⟩⟩
    by_cases habs : P queue m.id = .absent
    · have hin : (m.score, m.id) ∈ toInsert :=
        List.mem_filter.mpr ⟨List.mem_map.mpr ⟨m, hm, rfl⟩, (missing_iff hs _).mpr habs⟩
      have hid : m.id ∈ ps.map Prod.snd := by
        obtain ⟨e, he, heq⟩ := List.mem_map.mp (hps ▸ hin)
        exact List.mem_map.mpr ⟨e, he, congrArg Prod.snd heq⟩
      obtain ⟨-, _, -, -, x, -, hx⟩ := hnew.new m.id hid
      rw [hx]
      exact fun h => nomatch h
    · exact hnew.ne_absent habs

theorem insertParts_spec (queue : String) (hs : cache.Represents s P) {parts : List (List Message)}
    (hparts : ∀ part ∈ parts, part.length ≤ 2000) :
    ∃ P' l t, cache.Represents t P' ∧ t.str = s.str ∧ Inserts P P' queue parts.flatten l ∧
      ((∃ ls, ls.flatten = l ∧ exec (parts.mapM (insertPart cache queue)) s = (.ok ls, t)) ∧
          (∀ m ∈ parts.flatten, P' queue m.id ≠ .absent) ∨
        (∃ e, exec (parts.mapM (insertPart cache queue)) s = (.error e, t)) ∧
          ∃ m ∈ parts.flatten, m.score = .nan) := by
  induction parts generalizing s P with
  | nil => exact ⟨P, [], s, hs, rfl, .refl, Or.inl ⟨⟨[], rfl, rfl⟩, by simp⟩⟩
  | cons part parts ih =>
    obtain ⟨P₁, l₁, t₁, hs₁, hstr₁, hins₁, hres₁⟩ :=
      insertPart_spec queue hs (hparts part List.mem_cons_self)
    rcases hres₁ with ⟨hrun₁, hall₁⟩ | ⟨⟨e, hrun₁⟩, m, hm, hnan⟩
    · obtain ⟨P₂, l₂, t₂, hs₂, hstr₂, hins₂, hres₂⟩ :=
        ih hs₁ fun q hq => hparts q (List.mem_cons_of_mem _ hq)
      refine ⟨P₂, l₁ ++ l₂, t₂, hs₂, hstr₂.trans hstr₁, hins₁.trans hins₂, ?_⟩
      rw [List.mapM_cons, exec_bind, hrun₁, andThen_ok, exec_bind]
      rcases hres₂ with ⟨⟨ls, rfl, hrun₂⟩, hall₂⟩ | ⟨⟨e, hrun₂⟩, m, hm, hnan⟩
      · refine Or.inl ⟨⟨l₁ :: ls, rfl, by rw [hrun₂]; rfl⟩, fun m hm => ?_⟩
        rcases List.mem_append.mp hm with hm | hm
        · exact hins₂.ne_absent (hall₁ m hm)
        · exact hall₂ m hm
      · exact Or.inr ⟨⟨e, by rw [hrun₂]; rfl⟩, m, List.mem_append_right _ hm, hnan⟩
    · refine ⟨P₁, l₁, t₁, hs₁, hstr₁, ⟨fun id hid => ?_, hins₁.old⟩,
        Or.inr ⟨⟨e, by rw [List.mapM_cons, exec_bind, hrun₁]; rfl⟩, m,
          List.mem_append_left _ hm, hnan⟩⟩
      obtain ⟨hp, m', hm', hrest⟩ := hins₁.new id hid
      exact ⟨hp, m', List.mem_append_left _ hm', hrest⟩

/-- The checks before a batch is inserted. -/
def Insertable (queue : String) (messages : List Message) : Prop :=
  hasHashTag queue = false ∧ ∀ m ∈ messages, m.queue = queue

theorem insert_rejected (h : ¬ Insertable queue messages) :
    ∃ e, exec (cache.insert queue messages) s = (.error e, s) := by
  cases hb : hasHashTag queue with
  | true => exact ⟨_, exec_validated_braces hb⟩
  | false =>
    have hany : messages.any (fun m => m.queue != queue) = true := by
      simpa [Insertable, hb] using h
    exact ⟨_, by
      rw [insert, RedisClient.insert, exec_bind, exec_validateQueueName hb, andThen_ok, exec_ite,
        if_pos hany]; rfl⟩

theorem exec_insert (h : Insertable queue messages) :
    exec (cache.insert queue messages) s =
      andThen (exec ((Gopart.partition 2000 messages).mapM (insertPart cache queue)) s)
        fun insertions => pure insertions.flatten := by
  have hany : messages.any (fun m => m.queue != queue) = false := by
    simpa using h.2
  rw [insert, RedisClient.insert, exec_bind, exec_validateQueueName h.1, andThen_ok, exec_ite, hany,
    if_neg Bool.false_ne_true, exec_bind]
  rfl

/-- An accepted batch adds the ids that no pool held; only a NaN score stops it, and then
the parts before it stay. -/
theorem insert_spec (hs : cache.Represents s P) (h : Insertable queue messages) :
    ∃ P' l t, cache.Represents t P' ∧ t.str = s.str ∧ Inserts P P' queue messages l ∧
      (exec (cache.insert queue messages) s = (.ok l, t) ∧
          (∀ m ∈ messages, P' queue m.id ≠ .absent) ∨
        (∃ e, exec (cache.insert queue messages) s = (.error e, t)) ∧
          ∃ m ∈ messages, m.score = .nan) := by
  obtain ⟨P', l, t, ht, hstr, hins, hres⟩ := insertParts_spec queue hs
    fun part hpart => (Gopart.mem_partition (by norm_num : 0 < 2000) hpart).2
  rw [Gopart.flatten_partition (by norm_num)] at hins hres
  refine ⟨P', l, t, ht, hstr, hins, hres.imp ?_ ?_⟩
  · rintro ⟨⟨ls, rfl, hrun⟩, hall⟩
    exact ⟨by rw [exec_insert h, hrun]; rfl, hall⟩
  · rintro ⟨⟨e, hrun⟩, hnan⟩
    exact ⟨⟨e, by rw [exec_insert h, hrun]; rfl⟩, hnan⟩

variable {ids : List String}

/-- The script that removes one part of a list of ids. -/
def removePart (cache : RedisCache) (queue : String) (part : List String) :
    Eff Redis CacheError ℕ :=
  wrap .removingElements
    (removeElementScript
      [cache.activePool queue, cache.processingPool queue, cache.lockPool queue .lockAck,
        cache.lockPool queue .lockNack, cache.lockPoolScore queue .lockAck,
        cache.lockPoolScore queue .lockNack]
      part)

/-- The ids of one part leave all sets of the queue, whatever these hold. -/
theorem exec_removePart (queue : String) (hne : ids ≠ []) (hlen : ids.length ≤ 4000) :
    ∃ n t, exec (removePart cache queue ids) s = (.ok n, t) ∧ t.str = s.str ∧
      ∀ q pool id, (t.zset (cache.key q pool)).score id =
        if q = queue ∧ id ∈ ids then none else (s.zset (cache.key q pool)).score id := by
  obtain ⟨n, t, hrun, hstr, hscore⟩ := exec_removeElementScript (s := s)
    [cache.key queue .active, cache.key queue .processing,
      cache.key queue (.lock .lockAck), cache.key queue (.lock .lockNack),
      cache.key queue (.lockScore .lockAck), cache.key queue (.lockScore .lockNack)] hne
    (hlen.trans_lt (by decide))
  refine ⟨n, t, exec_wrap_ok hrun, hstr, fun q pool id => ?_⟩
  rw [hscore]
  congr 1
  by_cases hq : q = queue
  · subst hq
    rcases pool with _ | _ | (_ | _) | (_ | _) <;> simp [key_inj]
  · simp [key_inj, hq]

theorem exec_removeParts (queue : String) {parts : List (List String)}
    (hparts : ∀ part ∈ parts, part ≠ [] ∧ part.length ≤ 4000) :
    ∃ ns t, exec (parts.mapM (removePart cache queue)) s = (.ok ns, t) ∧ t.str = s.str ∧
      ∀ q pool id, (t.zset (cache.key q pool)).score id =
        if q = queue ∧ id ∈ parts.flatten then none else (s.zset (cache.key q pool)).score id := by
  induction parts generalizing s with
  | nil => exact ⟨[], s, rfl, rfl, by simp⟩
  | cons part parts ih =>
    obtain ⟨hne, hlen⟩ := hparts part List.mem_cons_self
    obtain ⟨n, t₁, hrun₁, hstr₁, hscore₁⟩ := exec_removePart (s := s) queue hne hlen
    obtain ⟨ns, t₂, hrun₂, hstr₂, hscore₂⟩ :=
      ih (s := t₁) fun q hq => hparts q (List.mem_cons_of_mem _ hq)
    refine ⟨n :: ns, t₂, ?_, hstr₂.trans hstr₁, fun q pool id => ?_⟩
    · rw [List.mapM_cons, exec_bind, hrun₁, andThen_ok, exec_bind, hrun₂]
      rfl
    · rw [hscore₂, hscore₁, List.flatten_cons]
      by_cases hq : q = queue <;> by_cases hpart : id ∈ part <;> simp [hq, hpart]

/-- `Remove` takes the ids out of all sets of the queue. -/
theorem exec_remove (h : hasHashTag queue = false) :
    ∃ n t, exec (cache.remove queue ids) s = (.ok n, t) ∧ t.str = s.str ∧
      ∀ q pool id, (t.zset (cache.key q pool)).score id =
        if q = queue ∧ id ∈ ids then none else (s.zset (cache.key q pool)).score id := by
  obtain ⟨ns, t, hrun, hstr, hscore⟩ := @exec_removeParts cache s queue (Gopart.partition 4000 ids)
    fun part hpart => Gopart.mem_partition (by norm_num) hpart
  rw [Gopart.flatten_partition (by norm_num)] at hscore
  refine ⟨ns.sum, t, ?_, hstr, hscore⟩
  rw [remove, RedisClient.remove, exec_bind, exec_validateQueueName h, andThen_ok, exec_bind]
  exact congrArg (andThen · fun removed => pure removed.sum) hrun

theorem remove_spec (hs : cache.Represents s P) (h : hasHashTag queue = false) :
    ∃ n t, exec (cache.remove queue ids) s = (.ok n, t) ∧ t.str = s.str ∧
      cache.Represents t (P.replace queue ids fun _ => .absent) := by
  obtain ⟨n, t, hrun, hstr, hscore⟩ := @exec_remove cache s queue ids h
  refine ⟨n, t, hrun, hstr, hs.replace (fun id hid pool => ?_) fun q id pool hout => ?_⟩
  · rw [hscore, if_pos ⟨rfl, hid⟩, Place.score_absent]
  · rw [hscore, if_neg fun hin => hout hin.1 hin.2]

end Batches

end Deckard.RedisCache
