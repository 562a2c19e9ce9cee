import Deckard.RedisRuns
import Deckard.ServiceCommands

/-!
# Deadlines and locks

A pull writes the deadline of its messages and a lock the time of its end: the reading
of the clock plus a number of milliseconds that the client chooses, in 64 bits. The
housekeeper releases the entries between zero and its own reading. An entry is released
at its time, neither never nor early, exactly if the sum is a time that the clock can
show.
-/
namespace Deckard

open Binary64 Effect Cache Program Prog RedisCache Runs

namespace Dtime

/-- Score of an entry written `now` for a number of milliseconds. -/
def after (now : Time) (ms : Int64) : Number := .ofInt (timeToMs now + ms).toInt

/-- The exact sum is a reading between 1970 and April 2262. -/
def Fits (now : Time) (ms : Int64) : Prop :=
  0 ≤ (timeToMs now).toInt + ms.toInt ∧ (timeToMs now).toInt + ms.toInt ≤ 9223372036854

instance (now : Time) (ms : Int64) : Decidable (Fits now ms) :=
  inferInstanceAs (Decidable (_ ∧ _))

/-- An entry that was written `now` for a number of milliseconds is in the range that the
housekeeper looks at, at some time but not too early. -/
structure Due (now : Time) (ms : Int64) (x : Number) : Prop where
  nonneg : .ofInt 0 ≤ x
  notEarly : 0 < ms.toInt → .ofInt (timeToMs now).toInt ≤ x
  released : ∃ later, InRange later ∧ x ≤ .ofInt (timeToMs later).toInt

theorem Fits.due {now : Time} {ms : Int64} (h : Fits now ms) : Due now ms (after now ms) := by
  obtain ⟨hlo, hhi⟩ := h
  have hsum : (timeToMs now + ms).toInt = (timeToMs now).toInt + ms.toInt :=
    toInt_timeToMs_add (by omega) (by omega)
  obtain ⟨later, hlater, hread⟩ := exists_timeToMs hlo hhi
  refine ⟨?_, fun hpos => ?_, later, hlater, ?_⟩
  · exact Number.ofInt_mono (hsum ▸ hlo)
  · exact Number.ofInt_mono (by omega)
  · rw [after, hsum, hread]

/-- No other sum is due: those that leave 64 bits come out negative. -/
theorem due_iff_fits {now : Time} {ms : Int64} (hnow : InRange now) :
    Due now ms (after now ms) ↔ Fits now ms := by
  refine ⟨fun h => ?_, Fits.due⟩
  obtain ⟨later, -, hlater⟩ := h.released
  have hread : (timeToMs now + ms).toInt ≤ (timeToMs later).toInt :=
    (Number.ofInt_le_ofInt_iff (abs_timeToMs_lt later)).mp hlater
  have hmax := (abs_le.mp (abs_timeToMs_le later)).2
  have hnonneg : 0 ≤ (timeToMs now + ms).toInt := by
    by_contra hneg
    have hle : Number.ofInt 0 ≤ .ofInt (-1) := h.nonneg.trans (Number.ofInt_mono (by omega))
    rw [Number.ofInt_le_ofInt_iff (by norm_num)] at hle
    omega
  have hclock := timeToMs_nonneg hnow
  have hclock' := (abs_le.mp (abs_timeToMs_le now)).2
  have hlo := ms.le_toInt
  have hhi := ms.toInt_lt
  by_cases hfit : (timeToMs now).toInt + ms.toInt < 2 ^ 63
  · rw [toInt_timeToMs_add (by omega) hfit] at hnonneg hread
    exact ⟨hnonneg, by omega⟩
  · exfalso
    rw [Int64.toInt_add, Int.bmod] at hnonneg
    split_ifs at hnonneg <;> omega

end Dtime

/-- Milliseconds that a pull gives its consumer. -/
def PullRequest.deadlineMs (request : PullRequest) : Int64 :=
  if request.ackDeadlineMs = 0 then defaultTimeoutMs else request.ackDeadlineMs

/-- Pulls of a queue that write the deadline `d`. -/
def Request.Pulls (queue : String) (d : Number) : Request → Prop
  | .pull clock request => request.queue = queue ∧ d = Dtime.after (clock 1) request.deadlineMs
  | _ => False

/-- Acknowledgements that lock a message of a queue until `u`. -/
def Request.Locks (queue : String) (lockType : LockType) (u : Number) : Request → Prop
  | .ack clock request => request.queue = queue ∧ lockType = .lockAck ∧ 0 < request.lockMs ∧
      u = Dtime.after (clock 2) request.lockMs
  | .nack clock request => request.queue = queue ∧ lockType = .lockNack ∧ 0 < request.lockMs ∧
      u = Dtime.after (clock 1) request.lockMs
  | _ => False

/-- A deadline or a lock that one of the requests has written. -/
def RedisCache.Place.WrittenBy (requests : List Request) (queue : String) : Place → Prop
  | .processing d => ∃ r ∈ requests, r.Pulls queue d
  | .locked t u _ => ∃ r ∈ requests, r.Locks queue t u
  | _ => True

theorem RedisCache.Place.WrittenBy.mono {requests requests' : List Request} {queue : String}
    {p : Place} (h : p.WrittenBy requests queue) (hsub : ∀ r ∈ requests, r ∈ requests') :
    p.WrittenBy requests' queue := by
  cases p with
  | absent => trivial
  | active x => trivial
  | processing d =>
    obtain ⟨r, hr, hd⟩ := h
    exact ⟨r, hsub r hr, hd⟩
  | locked t u kept =>
    obtain ⟨r, hr, hu⟩ := h
    exact ⟨r, hsub r hr, hu⟩

/-- The pull that a request issues is the one that it asks for. -/
theorem Request.Issues.pulls {request : Request} {clock : Clock} {queue : String} {n d : Int64}
    {minScore maxScore : Option Float64}
    (h : request.Issues (.cache (.pullMessages clock queue n minScore maxScore d))) :
    request.Pulls queue (deadline clock d) := by
  cases request with
  | pull clock' request =>
    rcases h with h | ⟨_, _, h⟩ | ⟨_, h⟩ <;> cases h
    exact ⟨rfl, rfl⟩
  | add => rcases h with h | ⟨_, _, h⟩ <;> cases h
  | ack | nack => rcases h with h | ⟨_, h⟩ | ⟨_, h⟩ | h | h <;> cases h
  | remove => rcases h with h | h <;> cases h
  | unlockMessages | timeoutMessages => cases h

theorem Request.Issues.locks {request : Request} {clock : Clock} {message : Message}
    {lockType : LockType} (h : request.Issues (.cache (.lockMessage clock message lockType))) :
    request.Locks message.queue lockType (lockUntil clock message) := by
  cases request with
  | ack clock' request | nack clock' request =>
    rcases h with h | ⟨hms, h⟩ | ⟨_, h⟩ | h | h <;> cases h
    exact ⟨rfl, rfl, hms, rfl⟩
  | pull => rcases h with h | ⟨_, _, h⟩ | ⟨_, h⟩ <;> cases h
  | add => rcases h with h | ⟨_, _, h⟩ <;> cases h
  | remove => rcases h with h | h <;> cases h
  | unlockMessages | timeoutMessages => cases h

/-- Every deadline and every lock is written by a request. -/
theorem RedisCache.Moves.writtenBy {P P' : Places} {op : Op} {res : Result}
    (h : Moves P op res P') {requests : List Request} {request : Request} (hr : request ∈ requests)
    (hop : request.Issues (.cache op)) (hP : ∀ q id, (P q id).WrittenBy requests q)
    (q id : String) : (P' q id).WrittenBy requests q := by
  cases h with
  | rejected | notReleased | notLocked => exact hP q id
  | inserted _ hins | insertedPart _ _ hins =>
    exact hins.forall_places hP (fun _ _ _ _ => trivial) q id
  | pulled =>
    refine Places.forall_replace hP ?_ q id
    intro _ _
    exact ⟨request, hr, hop.pulls⟩
  | locked | lockedUnscored =>
    refine Places.forall_replace hP ?_ q id
    intro _ _
    exact ⟨request, hr, hop.locks⟩
  | released | lost | unlocked | timedOut | removed =>
    exact Places.forall_replace hP (by intros; trivial) q id

/-- The times that a request writes are readings that the clock can show. -/
def Request.Timely : Request → Prop
  | .pull clock request => Dtime.Fits (clock 1) request.deadlineMs
  | .ack clock request => 0 < request.lockMs → Dtime.Fits (clock 2) request.lockMs
  | .nack clock request => 0 < request.lockMs → Dtime.Fits (clock 1) request.lockMs
  | _ => True

variable {ι : Type} [LinearOrder ι]

theorem run_writtenBy (stores : Stores ι) {docs : MongoStorage.Documents ι}
    {tr : List (Request × Except ServiceError Response)} {w : World ι}
    (hrun : Run stores.sequential ⟨docs, Redis.empty⟩ tr w) :
    ∃ P, stores.cache.Represents w.redis P ∧
      ∀ q id, (P q id).WrittenBy (tr.map Prod.fst) q := by
  have hsnoc : ∀ (tr : List (Request × Except ServiceError Response)) (s : World ι) request r t,
      stores.sequential s request r t → True →
      (∃ P, stores.cache.Represents s.redis P ∧ ∀ q id, (P q id).WrittenBy (tr.map Prod.fst) q) →
      ∃ P, stores.cache.Represents t.redis P ∧
        ∀ q id, (P q id).WrittenBy ((tr ++ [(request, r)]).map Prod.fst) q := by
    intro tr s request r t hstep _ hs
    obtain ⟨P, hs, hP⟩ := hs
    have hmem : request ∈ (tr ++ [(request, r)]).map Prod.fst := by simp
    have hserve := serve_invariant (fun op h => h)
      (fun P op res P' hm hop hP => hm.writtenBy hmem hop hP)
      ⟨P, hs, fun q id => (hP q id).mono (by simp +contextual)⟩
    rwa [show stores.serve s request = (r, t) from hstep] at hserve
  exact hrun.history (fun _ _ => trivial) ⟨_, represents_empty, fun _ _ => trivial⟩ hsnoc

/-- At some time the housekeeper selects the entry of a pool. -/
def Selected (z : SortedSet String Number) (id : String) : Prop :=
  ∃ later, Dtime.InRange later ∧
    id ∈ z.revRangeByScore (.ofInt (Dtime.timeToMs later).toInt) (.ofInt 0)

theorem Dtime.Due.selected {now : Time} {ms : Int64} {x : Number} (h : Dtime.Due now ms x)
    {z : SortedSet String Number} {id : String} (hx : z.score id = some x) : Selected z id := by
  obtain ⟨later, hlater, hle⟩ := h.released
  exact ⟨later, hlater, SortedSet.mem_revRangeByScore.mpr ⟨x, hx, h.nonneg, hle⟩⟩

/-- In every run of timely requests, each entry of a processing or lock pool carries the
time that a request of the run has asked for, not before the time of that request, and
the housekeeper selects it once that time has come. -/
theorem no_stranded_message (stores : Stores ι) {docs : MongoStorage.Documents ι}
    {tr : List (Request × Except ServiceError Response)} {w : World ι}
    (hrun : Run stores.sequential ⟨docs, Redis.empty⟩ tr w) (htimely : ∀ e ∈ tr, e.1.Timely)
    (queue id : String) :
    (∀ d, (w.redis.zset (stores.cache.processingPool queue)).score id = some d →
      Selected (w.redis.zset (stores.cache.processingPool queue)) id ∧
      ∃ clock request, .pull clock request ∈ tr.map Prod.fst ∧ request.queue = queue ∧
        d = Dtime.after (clock 1) request.deadlineMs ∧
        Dtime.Due (clock 1) request.deadlineMs d) ∧
    ∀ lockType u, (w.redis.zset (stores.cache.lockPool queue lockType)).score id = some u →
      Selected (w.redis.zset (stores.cache.lockPool queue lockType)) id ∧
      ∃ clock request now, request.queue = queue ∧
        (lockType = .lockAck ∧ .ack clock request ∈ tr.map Prod.fst ∧ now = clock 2 ∨
          lockType = .lockNack ∧ .nack clock request ∈ tr.map Prod.fst ∧ now = clock 1) ∧
        u = Dtime.after now request.lockMs ∧ Dtime.Due now request.lockMs u := by
  obtain ⟨P, hs, hP⟩ := run_writtenBy stores hrun
  have htimely' : ∀ r ∈ tr.map Prod.fst, r.Timely := by
    intro r hr
    obtain ⟨e, he, rfl⟩ := List.mem_map.mp hr
    exact htimely e he
  constructor
  · intro d hd
    have hwritten := hP queue id
    rw [Place.eq_processing ((hs queue id .processing).symm.trans hd)] at hwritten
    obtain ⟨r, hr, hpulls⟩ := hwritten
    cases r with
    | pull clock request =>
      obtain ⟨hqueue, hd'⟩ := hpulls
      have hdue : Dtime.Due (clock 1) request.deadlineMs d := hd' ▸ (htimely' _ hr).due
      exact ⟨hdue.selected hd, clock, request, hr, hqueue, hd', hdue⟩
    | _ => exact hpulls.elim
  · intro lockType u hu
    obtain ⟨kept, hlocked⟩ := Place.eq_locked ((hs queue id (.lock lockType)).symm.trans hu)
    have hwritten := hP queue id
    rw [hlocked] at hwritten
    obtain ⟨r, hr, hlocks⟩ := hwritten
    cases r with
    | ack clock request =>
      obtain ⟨hqueue, htype, hms, hu'⟩ := hlocks
      have hdue : Dtime.Due (clock 2) request.lockMs u := hu' ▸ (htimely' _ hr hms).due
      exact ⟨hdue.selected hu, clock, request, clock 2, hqueue, .inl ⟨htype, hr, rfl⟩, hu', hdue⟩
    | nack clock request =>
      obtain ⟨hqueue, htype, hms, hu'⟩ := hlocks
      have hdue : Dtime.Due (clock 1) request.lockMs u := hu' ▸ (htimely' _ hr hms).due
      exact ⟨hdue.selected hu, clock, request, clock 1, hqueue, .inr ⟨htype, hr, rfl⟩, hu', hdue⟩
    | _ => exact hlocks.elim

/-- A message is added and pulled with some acknowledgement deadline. -/
def pulledFor (now : Time) (ackDeadlineMs : Int64) : List Request :=
  [.add .utc (fun _ => now) .listed [{ id := "a", queue := "q", score := .ofInt 5 }],
    .pull (fun _ => now) { queue := "q", ackDeadlineMs := ackDeadlineMs }]

theorem no_stranded_message_pulledFor :
    let w := (play Stores.default.serve World.empty (pulledFor 0 1000)).2
    (w.redis.zset (Stores.default.cache.processingPool "q")).score "a" = some (.ofInt 1000) ∧
      Selected (w.redis.zset (Stores.default.cache.processingPool "q")) "a" := by
  intro w
  have hx : (w.redis.zset (Stores.default.cache.processingPool "q")).score "a" =
      some (.ofInt 1000) := by
    decide +kernel
  have htimely : ∀ request ∈ pulledFor 0 1000, request.Timely := by
    have hfits : Dtime.Fits 0 1000 := by decide
    simpa [pulledFor, Request.Timely, PullRequest.deadlineMs] using hfits
  exact ⟨hx, ((no_stranded_message Stores.default (run_play _ _ (pulledFor 0 1000))
    (forall_mem_play _ _ htimely) "q" "a").1 _ hx).1⟩

/-- With the greatest deadline the sum wraps around at a reading of one millisecond, and
the message is never selected. -/
theorem pull_greatest_deadline_stranded :
    ∃ tr w, Run Stores.default.sequential World.empty tr w ∧ (∀ e ∈ tr, e.1.Numeric) ∧
      (∃ d, (w.redis.zset (Stores.default.cache.processingPool "q")).score "a" = some d ∧
        d < .ofInt 0) ∧
      ¬ Selected (w.redis.zset (Stores.default.cache.processingPool "q")) "a" := by
  have hx : ((play Stores.default.serve World.empty
      (pulledFor 1000000 9223372036854775807)).2.redis.zset
      (Stores.default.cache.processingPool "q")).score "a" =
      some (.ofInt (-9223372036854775808)) := by
    decide +kernel
  have hnum : ∀ request ∈ pulledFor 1000000 9223372036854775807, request.Numeric := by
    simp [pulledFor, Request.Numeric, Dtime.InRange, Float64.ofInt_eq]
  refine ⟨_, _, run_play _ _ _, forall_mem_play _ _ hnum, ⟨_, hx, by decide +kernel⟩, ?_⟩
  rintro ⟨later, -, hmem⟩
  obtain ⟨x, hx', hlo, -⟩ := SortedSet.mem_revRangeByScore.mp hmem
  rw [hx, Option.some_inj] at hx'
  exact absurd (hx' ▸ hlo) (by decide +kernel)

end Deckard
