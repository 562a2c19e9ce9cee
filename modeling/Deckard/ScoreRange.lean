import Deckard.RedisRuns
import Deckard.ServiceCommands

/-!
# Scores of the active pools

Scores reach an active pool by an addition, an acknowledgement, an unlocking or a
timeout. As long as no acknowledgement carries a score outside the documented range and
none combines a negative lock with the default score, they all stay in that range.
-/
namespace Deckard

open Binary64 Effect Cache Program Prog RedisCache Runs

/-- A number within the documented range. -/
def Score.Accepted (x : Float64) : Prop := ∃ y, x = .num y ∧ Score.InRange y

/-- The score that the place has, or will have once it is unlocked, is in the range. -/
def RedisCache.Place.InRange : Place → Prop
  | .active x => Score.InRange x
  | .locked _ _ (some x) => Score.InRange x
  | _ => True

/-- Calls that bring only scores within the range. -/
def Cache.Op.InRange : Op → Prop
  | .insert _ messages => ∀ m ∈ messages, Score.Accepted m.score
  | .makeAvailable message => Score.Accepted message.score
  | .lockMessage _ message _ => Score.Accepted message.score ∨ message.score = Score.undefined
  | .unlockMessages clock _ _ => Dtime.InRange (clock 0)
  | _ => True

theorem inRange_zero : Score.InRange (.ofInt 0) := Score.inRange_ofInt le_rfl (by norm_num)

theorem inRange_unlockScore {clock : Clock} (h : Dtime.InRange (clock 0)) (t : LockType) :
    Score.InRange (unlockScore clock t) := by
  unfold unlockScore
  split_ifs
  · exact Score.inRange_default h
  · exact inRange_zero

variable {P P' : Places}

theorem Score.Accepted.inRange {y : Float64} (h : Score.Accepted y) {x : Number}
    (hx : y = .num x) : Score.InRange x := by
  obtain ⟨z, hz, hrange⟩ := h
  rw [hx, Float64.num.injEq] at hz
  exact hz ▸ hrange

theorem RedisCache.Place.inRange_locked {m : Message} {t : LockType} {u x : Number}
    (hop : Score.Accepted m.score ∨ m.score = Score.undefined) (hx : m.score = .num x) :
    (Place.locked t u (keptScore x)).InRange := by
  unfold keptScore
  split_ifs with hundef
  · trivial
  · rcases hop with hop | hop
    · exact hop.inRange hx
    · rw [hx, Score.undefined, Float64.ofInt_eq, Float64.num.injEq] at hop
      exact absurd hop hundef

theorem RedisCache.Place.inRange_unlocked {p : Place} (hp : p.InRange) {t : LockType} {u : Number}
    {kept : Option Number} (h : p = .locked t u kept) {x : Number} (hx : Score.InRange x) :
    (Place.active (p.kept.getD x)).InRange := by
  subst h
  cases kept with
  | none => exact hx
  | some y => exact hp

/-- A call in the range keeps all scores in the range. -/
theorem RedisCache.Moves.inRange {op : Op} {res : Result} (h : Moves P op res P')
    (hop : op.InRange) (hP : ∀ q id, (P q id).InRange) (q id : String) : (P' q id).InRange := by
  cases h with
  | rejected | notReleased | notLocked => exact hP q id
  | inserted _ hins | insertedPart _ _ hins =>
    exact hins.forall_places (Q := fun _ p => p.InRange) hP
      (fun m hm x hx => (hop m hm).inRange hx) q id
  | pulled | removed | lost | lockedUnscored =>
    exact Places.forall_replace (Q := fun _ p => p.InRange) hP (by intros; trivial) q id
  | released _ _ hx =>
    exact Places.forall_replace (Q := fun _ p => p.InRange) hP (by intros; exact hop.inRange hx) q
      id
  | locked _ _ hx =>
    exact Places.forall_replace (Q := fun _ p => p.InRange) hP
      (fun _ _ => Place.inRange_locked hop hx) q id
  | unlocked _ hl =>
    refine Places.forall_replace (Q := fun _ p => p.InRange) hP (fun i hi => ?_) q id
    obtain ⟨u, kept, hlocked, -⟩ := hl i hi
    exact Place.inRange_unlocked (hP _ i) hlocked (inRange_unlockScore hop _)
  | timedOut =>
    exact Places.forall_replace (Q := fun _ p => p.InRange) hP (by intros; exact inRange_zero) q id

/-- The score is within the range; zero, which asks for the default, comes with no
negative lock, and the undefined score only with a lock. -/
def AckRequest.ScoreAccepted (request : AckRequest) : Prop :=
  if request.score = .ofInt 0 then 0 ≤ request.lockMs
  else Score.Accepted request.score ∨ request.score = Score.undefined ∧ 0 < request.lockMs

def Request.ScoreAccepted : Request → Prop
  | .ack _ request | .nack _ request => request.ScoreAccepted
  | _ => True

theorem accepted_addedMessages {zone : Zone} {clock : Clock} {ms : List AddMessage}
    (hclock : ∀ i, Dtime.InRange (clock i)) (hms : ∀ m ∈ ms, m.score ≠ .nan) :
    ∀ added ∈ Service.addedMessages zone clock ms, Score.Accepted added.score := by
  intro added hadded
  obtain ⟨m, hm, -, now, ⟨i, rfl⟩, hscore⟩ := mem_addedMessages hadded
  rw [hscore]
  exact Score.exists_inRange_getAddScore (hclock i) (hms m hm)

/-- Score that a request settles a message with: its own, or else the default one. -/
theorem settledScore_cases {request : AckRequest} (hnum : request.score ≠ .nan)
    (hok : request.ScoreAccepted) {score default : Float64}
    (hdefault : request.lockMs = 0 → Score.Accepted default)
    (hscore : score = if !request.score.eq (.ofInt 0) then request.score
      else if request.lockMs = 0 then default else Score.undefined) :
    Score.Accepted score ∨ score = Score.undefined ∧ 0 < request.lockMs := by
  have heq : request.score.eq (.ofInt 0) = decide (request.score = .ofInt 0) := by
    cases hx : request.score with
    | nan => exact absurd hx hnum
    | num x => simp [Float64.ofInt_eq]
  rw [heq] at hscore
  unfold AckRequest.ScoreAccepted at hok
  by_cases hzero : request.score = .ofInt 0
  · rw [if_pos hzero] at hok
    by_cases hms : request.lockMs = 0
    · have hscore' : score = default := by simpa [hzero, hms] using hscore
      exact .inl (hscore' ▸ hdefault hms)
    · have hscore' : score = Score.undefined := by simpa [hzero, hms] using hscore
      exact .inr ⟨hscore', Int64.lt_of_le_of_ne hok (Ne.symm hms)⟩
  · rw [if_neg hzero] at hok
    have hscore' : score = request.score := by simpa [hzero] using hscore
    rw [hscore']
    exact hok

theorem makeAvailable_accepted {message : Message} {lockMs : Int64} (hms : ¬ 0 < lockMs)
    (h : Score.Accepted message.score ∨ message.score = Score.undefined ∧ 0 < lockMs) :
    Score.Accepted message.score := by
  rcases h with h | ⟨-, h⟩
  · exact h
  · exact absurd h hms

/-- The calls of an accepted request bring only scores within the range. -/
theorem Request.Issues.inRange {request : Request} (hnum : request.Numeric)
    (hok : request.ScoreAccepted) {op : Op} (h : request.Issues (.cache op)) : op.InRange := by
  cases request with
  | add zone clock order ms =>
    rcases h with h | ⟨added, hadded, h⟩
    · cases h
    · cases h
      intro m hm
      exact accepted_addedMessages hnum.1 hnum.2 m (List.mem_of_mem_filter hm)
  | pull clock request =>
    rcases h with h | ⟨ids, retry, h⟩ | ⟨ids, h⟩ <;> cases h <;> trivial
  | ack clock request =>
    have hscore := settledScore_cases hnum.2.1 hok (fun _ => exists_inRange_defaultScore _ hnum.2.2)
      (rfl : (Service.ackMessage clock request).score = _)
    rcases h with h | ⟨hms, h⟩ | ⟨hms, h⟩ | h | h <;> cases h
    · exact hscore.imp_right And.left
    · exact makeAvailable_accepted hms hscore
    · trivial
  | nack clock request =>
    have hscore := settledScore_cases hnum.2.1 hok (fun _ => ⟨_, rfl, inRange_zero⟩)
      (rfl : (Service.nackMessage request).score = _)
    rcases h with h | ⟨hms, h⟩ | ⟨hms, h⟩ | h | h <;> cases h
    · exact hscore.imp_right And.left
    · exact makeAvailable_accepted hms hscore
    · trivial
  | remove request =>
    rcases h with h | h <;> cases h
    trivial
  | unlockMessages clock queue lockType =>
    cases h
    exact hnum 0
  | timeoutMessages clock queue =>
    cases h
    trivial

variable {ι : Type} [LinearOrder ι]

/-- In every run of accepted requests, all scores of the active pools are in the range. -/
theorem active_scores_inRange (stores : Stores ι) {docs : MongoStorage.Documents ι}
    {tr : List (Request × Except ServiceError Response)} {w : World ι}
    (hrun : Run stores.sequential ⟨docs, Redis.empty⟩ tr w)
    (hnum : ∀ e ∈ tr, e.1.Numeric) (hok : ∀ e ∈ tr, e.1.ScoreAccepted) {queue id : String}
    {x : Number} (hx : (w.redis.zset (stores.cache.activePool queue)).score id = some x) :
    Score.InRange x := by
  have hstep : ∀ (s : World ι) request r t, stores.sequential s request r t →
      request.Numeric ∧ request.ScoreAccepted →
      (∃ P, stores.cache.Represents s.redis P ∧ ∀ q id, (P q id).InRange) →
      ∃ P, stores.cache.Represents t.redis P ∧ ∀ q id, (P q id).InRange := by
    intro s request r t hstep hr hs
    have hserve := serve_invariant (fun op h => h.inRange hr.1 hr.2)
      (fun P op res P' hm hop hP => hm.inRange hop hP) hs
    rwa [show stores.serve s request = (r, t) from hstep] at hserve
  obtain ⟨P, hs, hP⟩ := hrun.invariant hstep (fun e he => ⟨hnum e he, hok e he⟩)
    ⟨_, represents_empty, fun _ _ => trivial⟩
  have hactive := Place.eq_active ((hs queue id .active).symm.trans hx)
  have hrange := hP queue id
  rw [hactive] at hrange
  exact hrange

/-- A message is added, pulled and given back with some score. -/
def returned (score : Float64) : List Request :=
  [.add .utc (fun _ => 0) .listed [{ id := "a", queue := "q", score := .ofInt 5 }],
    .pull (fun _ => 0) { queue := "q" },
    .ack (fun _ => 0) { id := "a", queue := "q", score := score }]

theorem numeric_returned {score : Float64} (h : score ≠ .nan) :
    ∀ request ∈ returned score, request.Numeric := by
  simp [returned, Request.Numeric, Dtime.InRange, h, Float64.ofInt_eq]

theorem active_scores_inRange_returned :
    let w := (play Stores.default.serve World.empty (returned (.ofInt 7))).2
    (w.redis.zset (Stores.default.cache.activePool "q")).score "a" = some (.ofInt 7) ∧
      Score.InRange (.ofInt 7) := by
  intro w
  have hx : (w.redis.zset (Stores.default.cache.activePool "q")).score "a" = some (.ofInt 7) := by
    decide +kernel
  refine ⟨hx, active_scores_inRange Stores.default (run_play _ _ (returned (.ofInt 7)))
    (forall_mem_play _ _ (numeric_returned (by decide))) (forall_mem_play _ _ ?_) hx⟩
  have hseven : Float64.ofInt 7 ≠ .ofInt 0 := by decide +kernel
  simp only [returned, List.forall_mem_cons, Request.ScoreAccepted, AckRequest.ScoreAccepted,
    if_neg hseven]
  exact ⟨trivial, trivial, .inl ⟨_, rfl, by decide +kernel⟩, by simp⟩

/-- A negative score of an acknowledgement reaches the active pool. -/
theorem ack_negative_score_active :
    ∃ tr w, Run Stores.default.sequential World.empty tr w ∧ (∀ e ∈ tr, e.1.Numeric) ∧
      ∃ x, (w.redis.zset (Stores.default.cache.activePool "q")).score "a" = some x ∧
        ¬ Score.InRange x :=
  ⟨_, _, run_play _ _ (returned (.ofInt (-5))),
    forall_mem_play _ _ (numeric_returned (by decide)), .ofInt (-5), by decide +kernel,
    by decide +kernel⟩

end Deckard
