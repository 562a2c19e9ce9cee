import Deckard.Lifecycle
import Deckard.RedisPlaces

/-!
# The Redis cache as a machine of places

`Moves` says what each call does to the places of the messages, result by result. The
calls of the Redis cache are simulated by it, and it is in turn an instance of the life
of a message. Runs of the cache are reasoned about through it.
-/
namespace Deckard.RedisCache

open Binary64 Effect Cache Runs Lifecycle

/-- The checks that a call makes before its script moves anything. -/
def Accepted : Op → Prop
  | .insert queue messages => Insertable queue messages
  | .pullMessages _ queue _ minScore maxScore _ =>
      hasHashTag queue = false ∧ minScore ≠ some .nan ∧ maxScore ≠ some .nan
  | .makeAvailable message => Releasable message
  | .lockMessage _ message _ => Lockable message
  | .unlockMessages _ queue _ => hasHashTag queue = false
  | .timeoutMessages _ queue => hasHashTag queue = false
  | .remove queue _ => hasHashTag queue = false

/-- The places after a call, given the places before it and its result. -/
inductive Moves (P : Places) : Op → Result → Places → Prop
  | rejected {op : Op} (e : CacheError) : ¬ Accepted op → Moves P op (.error e) P
  | inserted {queue : String} {messages : List Message} {l : List String} {P' : Places} :
      Insertable queue messages → Inserts P P' queue messages l →
      (∀ m ∈ messages, P' queue m.id ≠ .absent) → Moves P (.insert queue messages) (.ids l) P'
  | insertedPart {queue : String} {messages : List Message} {l : List String} {P' : Places}
      (e : CacheError) : Insertable queue messages → Inserts P P' queue messages l →
      (∃ m ∈ messages, m.score = .nan) → Moves P (.insert queue messages) (.error e) P'
  | pulled {clock : Clock} {queue : String} {n d : Int64} {minScore maxScore : Option Float64}
      {l : List String} : hasHashTag queue = false → l.Nodup →
      (∀ id ∈ l, ∃ x, P queue id = .active x) →
      Moves P (.pullMessages clock queue n minScore maxScore d) (.ids l)
        (P.replace queue l fun _ => .processing (deadline clock d))
  | notReleased {message : Message} : Releasable message →
      (∀ d, P message.queue message.id ≠ .processing d) →
      Moves P (.makeAvailable message) (.flag false) P
  | released {message : Message} {d x : Number} : Releasable message →
      P message.queue message.id = .processing d → message.score = .num x →
      Moves P (.makeAvailable message) (.flag true)
        (P.replace message.queue [message.id] fun _ => .active x)
  | lost {message : Message} {d : Number} (e : CacheError) : Releasable message →
      P message.queue message.id = .processing d → message.score = .nan →
      Moves P (.makeAvailable message) (.error e)
        (P.replace message.queue [message.id] fun _ => .absent)
  | notLocked {clock : Clock} {message : Message} {t : LockType} : Lockable message →
      (∀ d, P message.queue message.id ≠ .processing d) →
      Moves P (.lockMessage clock message t) (.flag false) P
  | locked {clock : Clock} {message : Message} {t : LockType} {d x : Number} :
      Lockable message → P message.queue message.id = .processing d → message.score = .num x →
      Moves P (.lockMessage clock message t) (.flag true)
        (P.replace message.queue [message.id] fun _ =>
          .locked t (lockUntil clock message) (keptScore x))
  | lockedUnscored {clock : Clock} {message : Message} {t : LockType} {d : Number}
      (e : CacheError) : Lockable message → P message.queue message.id = .processing d →
      message.score = .nan →
      Moves P (.lockMessage clock message t) (.error e)
        (P.replace message.queue [message.id] fun _ => .locked t (lockUntil clock message) none)
  | unlocked {clock : Clock} {queue : String} {t : LockType} {l : List String} :
      hasHashTag queue = false →
      (∀ id ∈ l, ∃ u kept, P queue id = .locked t u kept ∧ .ofInt 0 ≤ u ∧
        u ≤ .ofInt (Dtime.timeToMs (clock 1)).toInt) →
      Moves P (.unlockMessages clock queue t) (.ids l)
        (P.replace queue l fun id => .active ((P queue id).kept.getD (unlockScore clock t)))
  | timedOut {clock : Clock} {queue : String} {l : List String} : hasHashTag queue = false →
      (∀ id ∈ l, ∃ d, P queue id = .processing d ∧ .ofInt 0 ≤ d ∧
        d ≤ .ofInt (Dtime.timeToMs (clock 0)).toInt) →
      Moves P (.timeoutMessages clock queue) (.ids l)
        (P.replace queue l fun _ => .active (.ofInt 0))
  | removed {queue : String} {ids : List String} (n : ℕ) : hasHashTag queue = false →
      Moves P (.remove queue ids) (.count n) (P.replace queue ids fun _ => .absent)

variable {cache : RedisCache} {s : Redis} {P : Places}

theorem step_ok {op : Op} {t : Redis} {α : Type} {x : Eff Redis CacheError α} {f : α → Result}
    {a : α} (hcall : cache.call op = f <$> x) (h : exec x s = (.ok a, t)) :
    cache.step s op = (f a, t) := by
  rw [step, hcall, exec_map, h]
  rfl

theorem step_error {op : Op} {t : Redis} {α : Type} {x : Eff Redis CacheError α} {f : α → Result}
    {e : CacheError} (hcall : cache.call op = f <$> x) (h : exec x s = (.error e, t)) :
    cache.step s op = (.error e, t) := by
  rw [step, hcall, exec_map, h]
  rfl

theorem exists_bound {b : Option Float64} (h : b ≠ some .nan) :
    ∃ y : Option Number, b = y.map .num := by
  rcases b with _ | _ | y
  · exact ⟨none, rfl⟩
  · exact absurd rfl h
  · exact ⟨some y, rfl⟩

theorem step_rejected {op : Op} (h : ¬ Accepted op) :
    ∃ e, cache.step s op = (.error e, s) := by
  cases op with
  | insert queue messages =>
    obtain ⟨e, he⟩ : ∃ e, exec (cache.insert queue messages) s = (.error e, s) := insert_rejected h
    exact ⟨e, step_error rfl he⟩
  | pullMessages clock queue n minScore maxScore d =>
    cases hb : hasHashTag queue with
    | true =>
      exact ⟨_, step_error rfl (exec_validated_braces hb)⟩
    | false =>
      have hnan : minScore = some .nan ∨ maxScore = some .nan := by
        by_contra hc
        exact h ⟨hb, fun h1 => hc (.inl h1), fun h2 => hc (.inr h2)⟩
      exact ⟨_, step_error rfl (pullMessages_nan hb hnan)⟩
  | makeAvailable message =>
    obtain ⟨e, he⟩ : ∃ e, exec (cache.makeAvailable message) s = (.error e, s) :=
      makeAvailable_rejected h
    exact ⟨e, step_error rfl he⟩
  | lockMessage clock message t =>
    obtain ⟨e, he⟩ : ∃ e, exec (cache.lockMessage clock message t) s = (.error e, s) :=
      lockMessage_rejected h
    exact ⟨e, step_error rfl he⟩
  | unlockMessages clock queue t =>
    have hb : hasHashTag queue = true := by simpa [Accepted] using h
    exact ⟨_, step_error rfl (exec_validated_braces hb)⟩
  | timeoutMessages clock queue =>
    have hb : hasHashTag queue = true := by simpa [Accepted] using h
    exact ⟨_, step_error rfl (exec_validated_braces hb)⟩
  | remove queue ids =>
    have hb : hasHashTag queue = true := by simpa [Accepted] using h
    exact ⟨_, step_error rfl (exec_validated_braces hb)⟩

/-- Every call of the cache is a move of the places that its state represents. -/
theorem step_moves {op : Op} (hs : cache.Represents s P) (hamount : op.AmountOk) :
    ∃ P', cache.Represents (cache.step s op).2 P' ∧ (cache.step s op).2.str = s.str ∧
      Moves P op (cache.step s op).1 P' := by
  by_cases ha : Accepted op
  swap
  · obtain ⟨e, he⟩ : ∃ e, cache.step s op = (.error e, s) := step_rejected ha
    rw [he]
    exact ⟨P, hs, rfl, .rejected e ha⟩
  cases op with
  | insert queue messages =>
    obtain ⟨P', l, t, ht, hstr, hins, ⟨hrun, hall⟩ | ⟨⟨e, hrun⟩, hnan⟩⟩ := insert_spec hs ha
    · rw [step_ok rfl hrun]
      exact ⟨P', ht, hstr, .inserted ha hins hall⟩
    · rw [step_error rfl hrun]
      exact ⟨P', ht, hstr, .insertedPart e ha hins hnan⟩
  | pullMessages clock queue n minScore maxScore d =>
    obtain ⟨lo, rfl⟩ := exists_bound ha.2.1
    obtain ⟨hi, rfl⟩ := exists_bound ha.2.2
    obtain ⟨t, hrun, hstr, ht, hnodup, hl⟩ :=
      pullMessages_moves hs ha.1 hamount.1 hamount.2 lo hi rfl
    rw [step_ok rfl hrun]
    exact ⟨_, ht, hstr, .pulled ha.1 hnodup hl⟩
  | makeAvailable message =>
    by_cases hp : ∃ d, P message.queue message.id = .processing d
    · obtain ⟨d, hp⟩ := hp
      cases hx : message.score with
      | nan =>
        obtain ⟨t, hrun, hstr, ht⟩ := makeAvailable_nan hs ha hp hx
        rw [step_error rfl hrun]
        exact ⟨_, ht, hstr, .lost _ ha hp hx⟩
      | num x =>
        obtain ⟨t, hrun, hstr, ht⟩ := makeAvailable_moves hs ha hp hx
        rw [step_ok rfl hrun]
        exact ⟨_, ht, hstr, .released ha hp hx⟩
    · have hp' : ∀ d, P message.queue message.id ≠ .processing d := fun d hd => hp ⟨d, hd⟩
      rw [step_ok rfl (makeAvailable_elsewhere hs ha hp')]
      exact ⟨P, hs, rfl, .notReleased ha hp'⟩
  | lockMessage clock message t =>
    by_cases hp : ∃ d, P message.queue message.id = .processing d
    · obtain ⟨d, hp⟩ := hp
      cases hx : message.score with
      | nan =>
        obtain ⟨t, hrun, hstr, ht⟩ := lockMessage_nan hs ha hp hx
        rw [step_error rfl hrun]
        exact ⟨_, ht, hstr, .lockedUnscored _ ha hp hx⟩
      | num x =>
        obtain ⟨t, hrun, hstr, ht⟩ := lockMessage_moves hs ha hp hx
        rw [step_ok rfl hrun]
        exact ⟨_, ht, hstr, .locked ha hp hx⟩
    · have hp' : ∀ d, P message.queue message.id ≠ .processing d := fun d hd => hp ⟨d, hd⟩
      rw [step_ok rfl (lockMessage_elsewhere hs ha hp')]
      exact ⟨P, hs, rfl, .notLocked ha hp'⟩
  | unlockMessages clock queue t =>
    obtain ⟨t, hrun, hstr, ht, hl⟩ := unlockMessages_moves hs ha rfl
    rw [step_ok rfl hrun]
    exact ⟨_, ht, hstr, .unlocked ha hl⟩
  | timeoutMessages clock queue =>
    obtain ⟨t, hrun, hstr, ht, hl⟩ := timeoutMessages_moves hs ha rfl
    rw [step_ok rfl hrun]
    exact ⟨_, ht, hstr, .timedOut ha hl⟩
  | remove queue ids =>
    obtain ⟨n, t, hrun, hstr, ht⟩ := remove_spec hs ha
    rw [step_ok rfl hrun]
    exact ⟨_, ht, hstr, .removed n ha⟩

def Place.stage : Place → Stage
  | .absent => .absent
  | .active _ => .active
  | .processing _ => .processing
  | .locked _ _ _ => .locked

/-- No message belongs to a queue whose name is refused. -/
def Clean (P : Places) : Prop := ∀ queue id, hasHashTag queue = true → P queue id = .absent

theorem Clean.replace (hc : Clean P) {queue : String} (h : hasHashTag queue = false)
    (l : List String) (f : String → Place) : Clean (P.replace queue l f) := by
  intro q id hq
  rw [Places.replace, if_neg, hc q id hq]
  rintro ⟨rfl, -⟩
  simp [h] at hq

theorem Clean.inserts (hc : Clean P) {queue : String} (h : hasHashTag queue = false)
    {messages : List Message} {l : List String} {P' : Places}
    (hins : Inserts P P' queue messages l) : Clean P' := by
  intro q id hq
  rw [hins.old q id, hc q id hq]
  rintro rfl
  simp [h] at hq

theorem Moves.clean {op : Op} {res : Result} {P' : Places} (h : Moves P op res P')
    (hc : Clean P) : Clean P' := by
  cases h with
  | rejected | notReleased | notLocked => exact hc
  | inserted ha hins | insertedPart _ ha hins => exact hc.inserts ha.1 hins
  | released ha | lost _ ha => exact hc.replace ha.2 _ _
  | locked ha | lockedUnscored _ ha => exact hc.replace ha.1.2 _ _
  | pulled ha | unlocked ha | timedOut ha | removed _ ha => exact hc.replace ha _ _

theorem Places.stage_replace {queue id : String} {c : Call} {q : String} {l : List String}
    {f : String → Place} (hquiet : ¬ (queue = q ∧ id ∈ l) → ¬ Pulled queue id c ∧
      ¬ Inserted queue id c ∧ ¬ Removed queue id c)
    (hmoved : queue = q → id ∈ l → Step queue id c (P q id).stage (f id).stage) :
    Step queue id c (P queue id).stage (P.replace q l f queue id).stage := by
  unfold Places.replace
  split_ifs with h
  · obtain ⟨rfl, hid⟩ := h
    exact hmoved rfl hid
  · obtain ⟨hp, hi, hr⟩ := hquiet h
    exact .stay hp hi fun h => absurd h hr

/-- A move of the places moves each message along its life. -/
theorem Moves.step {op : Op} {res : Result} {P' : Places} (h : Moves P op res P') (hc : Clean P)
    (hscores : op.ScoresOk) (queue id : String) :
    Step queue id (op, res) (P queue id).stage (P' queue id).stage := by
  cases h with
  | rejected e ha =>
    refine .stay (by cases op <;> exact not_false) (by cases op <;> exact not_false) ?_
    cases op with
    | remove q ids =>
      rintro ⟨rfl, -⟩
      rw [hc q id (by simpa [Accepted] using ha)]
      rfl
    | _ => exact False.elim
  | @inserted q messages l _ _ hins _ =>
    by_cases hl : q = queue ∧ id ∈ l
    · obtain ⟨rfl, hid⟩ := hl
      obtain ⟨hp, _, -, -, x, -, hp'⟩ := hins.new id hid
      rw [hp, hp']
      exact .insert ⟨rfl, hid⟩
    · rw [hins.old queue id fun hq hid => hl ⟨hq.symm, hid⟩]
      exact .stay not_false hl False.elim
  | insertedPart e _ _ hnan =>
    obtain ⟨m, hm, hx⟩ := hnan
    exact absurd hx (hscores m hm)
  | pulled _ _ hl =>
    refine Places.stage_replace (fun h => ⟨fun hp => h ⟨hp.1.symm, hp.2⟩, not_false, not_false⟩) ?_
    rintro rfl hid
    obtain ⟨x, hx⟩ := hl id hid
    rw [hx]
    exact .pull ⟨rfl, hid⟩
  | notReleased | notLocked => exact .stay not_false not_false False.elim
  | released _ hp _ =>
    refine Places.stage_replace (fun _ => ⟨not_false, not_false, not_false⟩) ?_
    rintro rfl hid
    rw [List.mem_singleton.mp hid, hp]
    exact .release ⟨rfl, rfl⟩
  | lost e _ _ hx => exact absurd hx hscores
  | locked _ hp _ =>
    refine Places.stage_replace (fun _ => ⟨not_false, not_false, not_false⟩) ?_
    rintro rfl hid
    rw [List.mem_singleton.mp hid, hp]
    exact .lock ⟨rfl, rfl⟩
  | lockedUnscored e _ _ hx => exact absurd hx hscores
  | unlocked _ hl =>
    refine Places.stage_replace (fun _ => ⟨not_false, not_false, not_false⟩) ?_
    rintro rfl hid
    obtain ⟨u, kept, hp, -⟩ := hl id hid
    rw [hp]
    exact .unlock hid
  | timedOut _ hl =>
    refine Places.stage_replace (fun _ => ⟨not_false, not_false, not_false⟩) ?_
    rintro rfl hid
    obtain ⟨d, hp, -⟩ := hl id hid
    rw [hp]
    exact .timeout ⟨rfl, hid⟩
  | removed _ _ =>
    refine Places.stage_replace (fun h => ⟨not_false, not_false, fun hr => h ⟨hr.1.symm, hr.2⟩⟩) ?_
    rintro rfl hid
    exact .remove ⟨rfl, hid⟩

/-- The runs of the cache, a call at a time. -/
def machine (cache : RedisCache) : Machine Redis Op Result := ofStep cache.step

theorem machine_moves {op : Op} {res : Result} {t : Redis} (h : cache.machine s op res t)
    (hs : cache.Represents s P) (hamount : op.AmountOk) :
    ∃ P', cache.Represents t P' ∧ t.str = s.str ∧ Moves P op res P' := by
  have hmoves := step_moves hs hamount
  rwa [show cache.step s op = (res, t) from h] at hmoves

/-- Stages of the messages in a state of the cache. -/
def Stages (cache : RedisCache) (s : Redis) (A : String → String → Stage) : Prop :=
  ∃ P, cache.Represents s P ∧ Clean P ∧ A = fun queue id => (P queue id).stage

theorem stages_empty (cache : RedisCache) : cache.Stages Redis.empty fun _ _ => .absent :=
  ⟨_, represents_empty, fun _ _ _ => rfl, rfl⟩

theorem refines (cache : RedisCache) :
    Refines cache.machine (fun op => op.AmountOk ∧ op.ScoresOk) cache.Stages := by
  rintro s op res t A hstep ⟨hamount, hscores⟩ ⟨P, hs, hc, rfl⟩
  obtain ⟨P', ht, -, hmoves⟩ := machine_moves hstep hs hamount
  exact ⟨_, ⟨P', ht, hmoves.clean hc, rfl⟩, hmoves.step hc hscores⟩

/-- Every state that the cache reaches represents places. -/
theorem exists_represents {tr : List Call} {t : Redis} (hrun : Run cache.machine Redis.empty tr t)
    (hok : ∀ c ∈ tr, c.1.AmountOk) : ∃ P, cache.Represents t P ∧ Clean P := by
  refine hrun.invariant (I := fun s => ∃ P, cache.Represents s P ∧ Clean P) ?_ hok
    ⟨_, represents_empty, fun _ _ _ => rfl⟩
  rintro s op res t hstep hamount ⟨P, hs, hc⟩
  obtain ⟨P', ht, -, hmoves⟩ := machine_moves hstep hs hamount
  exact ⟨P', ht, hmoves.clean hc⟩

end Deckard.RedisCache
