import Deckard.Orderly

/-!
# Stored messages without a place

What a request has seen in the storage may change before it deletes from the cache. A
message is orphaned when an insertion into the cache falls between the two steps of a
deletion: the insertion leaves the entry that it finds, and the deletion then takes it.
Without such an insertion every stored message is in some pool whenever no request is in
progress.
-/
namespace Deckard

open Binary64 Effect Cache Program Prog RedisCache Runs MongoStorage

variable {ι κ ε α : Type} [LinearOrder ι] [DecidableEq κ]

/-! ## Messages that no request is about to delete -/

def Spared (s : Threads (World ι) κ Command (Answer ι) ε α) (k : Key) : Prop :=
  ∀ i p, s.thread i = some p → ¬ Removing k p

instance [Fintype κ] (s : Threads (World ι) κ Command (Answer ι) ε α) (k : Key) :
    Decidable (Spared s k) :=
  inferInstanceAs (Decidable (∀ i, ∀ p ∈ s.thread i, ¬ Removing k p))

variable {stores : Stores ι} {s : Threads (World ι) κ Command (Answer ι) ε α} {k : Key} {i : κ}

theorem Spared.setThread (h : Spared s k) {p : Option (Prog Command (Answer ι) ε α)}
    (hp : ∀ q, p = some q → ¬ Removing k q) : Spared (s.setThread i p) k := by
  intro j q hq
  obtain ⟨-, hq⟩ | ⟨-, hq⟩ := Threads.setThread_eq_some hq
  · exact hp q hq
  · exact h j q hq

/-- Nobody begins to delete what is stored. -/
theorem Spared.step {c : Command} {next : Answer ι c → Prog Command (Answer ι) ε α}
    (h : Spared s k) (hc : Careful c) (horderly : Orderly (.call c next))
    (hstored : Stored (stores.handle c s.shared).2.docs k) :
    Spared (({ s with shared := (stores.handle c s.shared).2 }).setThread i
      (some (next (stores.handle c s.shared).1))) k := by
  refine Spared.setThread (s := { s with shared := (stores.handle c s.shared).2 }) h ?_
  rintro q ⟨⟩ hremoving
  exact hstored.not_missing hc ((horderly _).2.1 k hremoving)

omit [DecidableEq κ] in
/-- What nobody is about to delete stays in the pools. -/
theorem Spared.inPools {c : Command} {next : Answer ι c → Prog Command (Answer ι) ε α}
    (h : Spared s k) (hi : s.thread i = some (.call c next)) (hc : Careful c)
    (hs : ∃ P, stores.cache.Represents s.shared.redis P)
    (hk : stores.cache.InPools s.shared.redis k.1 k.2) :
    stores.cache.InPools (stores.handle c s.shared).2.redis k.1 k.2 := by
  refine handle_inPools hc hs hk fun ids hremove hid => ?_
  subst hremove
  exact h i _ hi ⟨rfl, hid⟩

/-! ## The invariant -/

/-- The two stores and the requests in progress. -/
abbrev System (ι κ : Type) [LinearOrder ι] :=
  Threads (World ι) κ Command (Answer ι) ServiceError Response

/-- A stored message is in a pool and nobody is about to delete it there, or some request
is about to insert it. -/
structure Tended (stores : Stores ι) (s : System ι κ) : Prop where
  represents : ∃ P, stores.cache.Represents s.shared.redis P
  orderly : ∀ i p, s.thread i = some p → Orderly p ∧ All Acceptable p
  placed : ∀ k, Stored s.shared.docs k →
    (stores.cache.InPools s.shared.redis k.1 k.2 ∧ Spared s k) ∨
    ∃ i p, s.thread i = some p ∧ Owes k p

/-- The requests are acceptable, and no stored message is inserted into the cache while a
request is about to delete it there. -/
def Undisturbed (s : System ι κ) : Label κ Request → Prop
  | .start _ request => request.Acceptable
  | .step i => ∀ queue messages next,
      s.thread i = some (.call (.cache (.insert queue messages)) next) →
      ∀ m ∈ messages, Stored s.shared.docs (queue, m.id) → Spared s (queue, m.id)
  | .finish _ => True

omit [LinearOrder ι] in
theorem not_owes_of_ne_call {p : Prog Command (Answer ι) ε α} (h : ∀ c next, p ≠ .call c next) :
    ¬ Owes k p := by
  cases p with
  | ret a => exact not_false
  | fail e => exact not_false
  | call c next => exact absurd rfl (h c next)

section Events

variable {s : System ι κ}

theorem Tended.start (h : Tended stores s) (hi : s.thread i = none) {request : Request}
    (hok : request.Acceptable) : Tended stores (s.setThread i (some request.program)) := by
  refine ⟨h.represents, fun j p hp => ?_, fun k hk => ?_⟩
  · obtain ⟨-, hp⟩ | ⟨-, hp⟩ := Threads.setThread_eq_some hp
    · cases hp
      exact ⟨orderly_program request, acceptable_program hok⟩
    · exact h.orderly j p hp
  · rcases h.placed k hk with ⟨hplace, hspared⟩ | ⟨j, p, hp, howes⟩
    · refine .inl ⟨hplace, hspared.setThread ?_⟩
      rintro q ⟨⟩
      exact not_removing_program request
    · have hj : j ≠ i := by
        rintro rfl
        rw [hi] at hp
        cases hp
      exact .inr ⟨j, p, by rw [Threads.setThread_of_ne hj, hp], howes⟩

theorem Tended.finish (h : Tended stores s) {p : Prog Command (Answer ι) ServiceError Response}
    (hi : s.thread i = some p) (hend : ∀ c next, p ≠ .call c next) :
    Tended stores (s.setThread i none) := by
  refine ⟨h.represents, fun j q hq => ?_, fun k hk => ?_⟩
  · obtain ⟨-, hq⟩ | ⟨-, hq⟩ := Threads.setThread_eq_some hq
    · cases hq
    · exact h.orderly j q hq
  · rcases h.placed k hk with ⟨hplace, hspared⟩ | ⟨j, q, hq, howes⟩
    · exact .inl ⟨hplace, hspared.setThread (by simp)⟩
    · have hj : j ≠ i := by
        rintro rfl
        rw [hi] at hq
        cases hq
        exact not_owes_of_ne_call hend howes
      exact .inr ⟨j, q, by rw [Threads.setThread_of_ne hj, hq], howes⟩

omit [DecidableEq κ] in
/-- A debt is paid by the insertion or passed to what comes after it. -/
theorem Tended.owes_step (h : Tended stores s) {c : Command}
    {next : Answer ι c → Prog Command (Answer ι) ServiceError Response}
    (hi : s.thread i = some (.call c next)) (howes : Owes k (.call c next)) :
    (∃ queue messages, c = .cache (.insert queue messages) ∧ ∃ m ∈ messages, (queue, m.id) = k ∧
      stores.cache.InPools (stores.handle c s.shared).2.redis queue m.id) ∨
    Owes k (next (stores.handle c s.shared).1) := by
  have hc : Acceptable c := (h.orderly i _ hi).2.1
  cases c with
  | cache op =>
    cases op with
    | insert queue messages =>
      obtain ⟨⟨l, hl⟩, hall⟩ := handle_insert hc h.represents
      rcases howes with ⟨m, hm, hkey⟩ | hnext
      · exact .inl ⟨queue, messages, rfl, m, hm, hkey, hall m hm⟩
      · rw [hl]
        exact .inr (hnext l)
    | _ => exact howes.elim
  | _ => exact howes.elim

theorem Tended.step (h : Tended stores s) {c : Command}
    {next : Answer ι c → Prog Command (Answer ι) ServiceError Response}
    (hi : s.thread i = some (.call c next)) (hundisturbed : Undisturbed s (.step i)) :
    Tended stores (({ s with shared := (stores.handle c s.shared).2 }).setThread i
      (some (next (stores.handle c s.shared).1))) := by
  obtain ⟨horderly, hc, hnext⟩ := h.orderly i _ hi
  refine ⟨handle_represents hc.careful h.represents, fun j p hp => ?_, fun k hk => ?_⟩
  · obtain ⟨-, hp⟩ | ⟨-, hp⟩ := Threads.setThread_eq_some hp
    · cases hp
      exact ⟨(horderly _).1, hnext _⟩
    · exact h.orderly j p hp
  · have hk : Stored (stores.handle c s.shared).2.docs k := hk
    rcases hk.of_handle with hstored | hinserting
    · rcases h.placed k hstored with ⟨hplace, hspared⟩ | ⟨j, p, hp, howes⟩
      · exact .inl ⟨hspared.inPools hi hc.careful h.represents hplace,
          hspared.step hc.careful horderly hk⟩
      · by_cases hj : j = i
        · subst hj
          obtain rfl : p = .call c next := Option.some.inj (hp.symm.trans hi)
          rcases h.owes_step hi howes with ⟨queue, messages, hcmd, m, hm, rfl, hplace⟩ | howes
          · have hspared : Spared s (queue, m.id) := by
              subst hcmd
              exact hundisturbed queue messages next hi m hm hstored
            exact .inl ⟨hplace, hspared.step hc.careful horderly hk⟩
          · exact .inr ⟨j, _, Threads.setThread_self, howes⟩
        · exact .inr ⟨j, p, (Threads.setThread_of_ne hj).trans hp, howes⟩
    · exact .inr ⟨i, _, Threads.setThread_self, (horderly _).2.2 k hinserting⟩

end Events

/-! ## Runs -/

/-- Both stores empty and no request in progress. -/
def System.initial (last : ι) : System ι κ := ⟨⟨Table.empty last, Redis.empty⟩, fun _ => none⟩

/-- The interleavings in which no insertion meets a deletion. -/
def Stores.undisturbed (stores : Stores ι) (κ : Type) [DecidableEq κ] :
    Machine (System ι κ) (Label κ Request) (Option (Except ServiceError Response)) :=
  fun s l r t => stores.concurrent κ s l r t ∧ Undisturbed s l

omit [DecidableEq κ] in
theorem tended_initial (stores : Stores ι) (last : ι) :
    Tended stores (System.initial last : System ι κ) :=
  ⟨⟨_, stores.cache.represents_empty⟩, by simp [System.initial],
    by simp [System.initial, Stored, Table.get, Table.empty]⟩

theorem tended_run {last : ι} {s : System ι κ}
    {tr : List (Label κ Request × Option (Except ServiceError Response))}
    (h : Run (stores.undisturbed κ) (System.initial last) tr s) : Tended stores s := by
  have hstep : ∀ (s : System ι κ) l r t, stores.undisturbed κ s l r t → True →
      Tended stores s → Tended stores t := by
    rintro s l r t ⟨hmove, hundisturbed⟩ - h
    cases interleaved_event hmove with
    | start i request hi => exact h.start hi hundisturbed
    | step i c next hi => exact h.step hi hundisturbed
    | finish i p hi hend => exact h.finish hi hend
  exact h.invariant hstep (fun _ _ => trivial) (tended_initial stores last)

/-- Whenever no request is in progress, every stored message is in some pool. -/
theorem idle_stored_inPools (stores : Stores ι) {last : ι} {s : System ι κ}
    {tr : List (Label κ Request × Option (Except ServiceError Response))}
    (h : Run (stores.undisturbed κ) (System.initial last) tr s) (hidle : s.Idle)
    (queue id : String) (hstored : Stored s.shared.docs (queue, id)) :
    stores.cache.InPools s.shared.redis queue id := by
  rcases (tended_run h).placed (queue, id) hstored with ⟨hplace, -⟩ | ⟨i, p, hp, -⟩
  · exact hplace
  · rw [hidle i] at hp
    cases hp

/-- Add one message to a queue. -/
def addMessage (queue id : String) : Request :=
  .add .utc (fun _ => 0) .listed [{ id := id, queue := queue, score := .ofInt 5 }]

/-- A label that starts acceptable requests only. -/
def StartsAcceptable (l : Label κ Request) : Prop :=
  ∀ i request, l = .start i request → request.Acceptable

theorem acceptable_addMessage {id : String} : (addMessage "q" id).Acceptable := by
  simp only [addMessage, Request.Acceptable, List.mem_singleton, forall_eq]
  decide +kernel

instance [Fintype κ] (s : System ι κ) : DecidablePred (Undisturbed s)
  | .start _ request => inferInstanceAs (Decidable request.Acceptable)
  | .step i => decidable_of_iff (∀ p ∈ s.thread i, ∀ x ∈ insertion p, ∀ m ∈ x.2,
      Stored s.shared.docs (x.1, m.id) → Spared s (x.1, m.id)) (by
        constructor
        · intro h queue messages next hi
          exact h _ hi (queue, messages) rfl
        · rintro h p hp ⟨queue, messages⟩ hx
          cases p with
          | ret a | fail e => cases hx
          | call c next =>
            cases c with
            | cache op =>
              cases op with
              | insert queue' messages' =>
                cases hx
                exact h queue messages next hp
              | _ => cases hx
            | _ => cases hx)
  | .finish _ => .isTrue trivial

/-- An event that meets the condition. -/
def Stores.undisturbedStep (stores : Stores ι) [Fintype κ] (s : System ι κ)
    (l : Label κ Request) : Option (Option (Except ServiceError Response) × System ι κ) :=
  if Undisturbed s l then advance stores.handle Request.program s l else none

theorem undisturbed_of_replay [Fintype κ] {s t : System ι κ} {ls : List (Label κ Request)}
    {tr : List (Label κ Request × Option (Except ServiceError Response))}
    (h : replay stores.undisturbedStep s ls = some (tr, t)) :
    Run (stores.undisturbed κ) s tr t := by
  refine (run_replay h).imp fun s l r t hstep => ?_
  change (if Undisturbed s l then _ else _) = _ at hstep
  split_ifs at hstep with hundisturbed
  exact ⟨hstep, hundisturbed⟩

/-- Two clients add messages at a time. One of them then deletes its message, while the other adds
a third one between the two steps of the deletion. -/
def twoClients : List (Label Bool Request) :=
  [.start true (addMessage "q" "a"), .start false (addMessage "q" "b"), .step true, .step false,
    .step false, .step true, .finish false, .finish true,
    .start false (.remove { queue := "q", ids := ["b"] }), .step false,
    .start true (addMessage "q" "c"), .step true, .step true, .step false, .finish true,
    .finish false]

theorem idle_stored_inPools_twoClients :
    ∃ tr, ∃ s : System ℕ Bool, Run (Stores.default.undisturbed Bool) (System.initial 0) tr s ∧
      s.Idle ∧ Stored s.shared.docs ("q", "a") ∧ Stored s.shared.docs ("q", "c") ∧
      Stores.default.cache.InPools s.shared.redis "q" "a" ∧
      Stores.default.cache.InPools s.shared.redis "q" "c" := by
  obtain ⟨⟨tr, s⟩, hreplay, hend⟩ := (Option.any_eq_true _ _).mp
    (show ((replay Stores.default.undisturbedStep (System.initial 0) twoClients).any fun r =>
      decide (∀ i, (r.2.thread i).isNone) && (r.2.shared.docs.get ("q", "a")).isSome &&
        (r.2.shared.docs.get ("q", "c")).isSome) = true by decide +kernel)
  simp only [Bool.and_eq_true, decide_eq_true_eq, Option.isNone_iff_eq_none] at hend
  obtain ⟨⟨hidle, hfirst⟩, hthird⟩ := hend
  have hrun := undisturbed_of_replay hreplay
  have hpools := idle_stored_inPools Stores.default hrun hidle "q"
  exact ⟨tr, s, hrun, hidle, hfirst, hthird, hpools "a" hfirst, hpools "c" hthird⟩

/-- A message is added and deleted from the storage; it is added again while its entry is
still in the pool, and the deletion then takes the entry. -/
def readding : List (Label Bool Request) :=
  [.start true (addMessage "q" "a"), .step true, .step true, .finish true,
   .start false (.remove { queue := "q", ids := ["a"] }), .step false,
   .start true (addMessage "q" "a"), .step true, .step true, .finish true,
   .step false, .finish false]

theorem readded_message_orphaned :
    ∃ tr, ∃ s : System ℕ Bool, Run (Stores.default.concurrent Bool) (System.initial 0) tr s ∧
      (∀ e ∈ tr, StartsAcceptable e.1) ∧ s.Idle ∧ Stored s.shared.docs ("q", "a") ∧
      ¬ Stores.default.cache.InPools s.shared.redis "q" "a" := by
  obtain ⟨⟨tr, s⟩, hfollow, hend⟩ := (Option.any_eq_true _ _).mp
    (show ((follow Stores.default.handle Request.program (System.initial 0) readding).any fun r =>
      (r.2.thread true).isNone && (r.2.thread false).isNone &&
      (r.2.shared.docs.get ("q", "a")).isSome &&
      !decide (Stores.default.cache.InPools r.2.shared.redis "q" "a")) = true by decide +kernel)
  simp only [Bool.and_eq_true, Option.isNone_iff_eq_none, Bool.not_eq_true',
    decide_eq_false_iff_not]
    at hend
  obtain ⟨⟨⟨htrue, hfalse⟩, hstored⟩, hpools⟩ := hend
  refine ⟨tr, s, run_follow hfollow, ?_, ?_, hstored, hpools⟩
  · refine forall_follow hfollow fun l hl i request heq => ?_
    rw [heq] at hl
    simp only [readding, List.mem_cons, Label.start.injEq, List.not_mem_nil, or_false,
      reduceCtorEq, false_or] at hl
    rcases hl with ⟨-, rfl⟩ | ⟨-, rfl⟩ | ⟨-, rfl⟩
    · exact acceptable_addMessage
    · trivial
    · exact acceptable_addMessage
  · intro i
    cases i with
    | true => exact htrue
    | false => exact hfalse

end Deckard
