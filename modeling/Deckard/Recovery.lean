import Deckard.RecoveryCalls

/-!
# Runs of the recovery

Calls of the recovery, one after the other, among the requests of any number of clients.
The number of calls is bounded by the number of documents, a finished recovery has put
every message that stayed stored into some pool, and no command of it touches a message
that is in a pool already.
-/
namespace Deckard

open Binary64 Effect Cache Program Prog RedisCache Runs MongoStorage

variable {ι κ : Type} [LinearOrder ι] [DecidableEq κ]

/-- The two stores, the clients and, under `none`, the recovery. -/
abbrev RecoverySystem (ι κ : Type) [LinearOrder ι] :=
  Threads (World ι) (Option κ) Command (Answer ι) ServiceError (Response ⊕ Bool)

/-- Clients send acceptable requests, and one call of the recovery is made at a time. -/
def Assigned : Label (Option κ) Task → Prop
  | .start (some _) (.client request) => request.Acceptable
  | .start none (.recovery _) => True
  | .start _ _ => False
  | .step _ | .finish _ => True

/-- The end of a call of the recovery. -/
def endsCall : Label (Option κ) Task → Bool
  | .finish none => true
  | _ => false

/-- Calls of the recovery that have been completed. -/
def completed {R : Type} (tr : List (Label (Option κ) Task × R)) : ℕ :=
  tr.countP fun e => endsCall e.1

/-- The recovery is about to look for the last document. -/
def LookingUp (s : RecoverySystem ι κ) : Prop :=
  ∃ next, s.thread none = some (.call (.storageFind Queue.lastDocument) next)

/-! ## Places after a command of the recovery -/

/-- Messages in some pool stay where they are; the others come into the active pool with a
score in the accepted range. -/
structure Restored (P P' : Places) : Prop where
  old : ∀ queue id, P queue id ≠ .absent → P' queue id = P queue id
  new : ∀ queue id, P queue id = .absent → P' queue id ≠ .absent →
    ∃ x, P' queue id = .active x ∧ Score.InRange x

theorem Restored.refl (P : Places) : Restored P P :=
  ⟨fun _ _ _ => rfl, fun _ _ h h' => absurd h h'⟩

theorem inRange_capScore {m : Message} {x : Number} (h : (Queue.capScore m).score = .num x) :
    Score.InRange x := by
  have hnan : m.score ≠ .nan := by
    intro hnan
    have hcap : (Queue.capScore m).score = .nan := by
      rw [Queue.capScore, hnan]
      dsimp only
      decide
    rw [hcap] at h
    cases h
  obtain ⟨y, hy, hrange⟩ := Score.exists_inRange_clamp hnan
  have hcap : (Queue.capScore m).score = .num y := hy
  rw [hcap] at h
  cases h
  exact hrange

theorem RedisCache.Inserts.restored {P P' : Places} {queue : String} {messages : List Message}
    {l : List String} (h : Inserts P P' queue messages l)
    (hcap : ∀ m ∈ messages, ∃ m', m = Queue.capScore m') : Restored P P' := by
  refine ⟨fun q id hp => h.kept hp, fun q id hp hp' => ?_⟩
  obtain ⟨rfl, hid⟩ := h.added_of_ne (by rwa [hp])
  obtain ⟨-, m, hm, -, x, hx, hplace⟩ := h.new id hid
  obtain ⟨m', rfl⟩ := hcap m hm
  exact ⟨x, hplace, inRange_capScore hx⟩

variable {stores : Stores ι} {w : World ι}

theorem Restores.restored {c : Command} (hc : Restores c) {P : Places}
    (hs : stores.cache.Represents w.redis P) :
    ∃ P', stores.cache.Represents (stores.handle c w).2.redis P' ∧ Restored P P' := by
  cases c with
  | cache op =>
    cases op with
    | insert queue messages =>
      obtain ⟨P', ht, -, hmoves⟩ := handle_cache hs hc.careful.amountOk
      refine ⟨P', ht, ?_⟩
      cases hanswer : (stores.handle (.cache (.insert queue messages)) w).1 with
      | ok l =>
        rw [hanswer] at hmoves
        cases hmoves with
        | inserted _ hins _ => exact hins.restored hc
      | error e =>
        rw [hanswer] at hmoves
        cases hmoves with
        | rejected _ _ => exact Restored.refl P
        | insertedPart _ _ hins _ => exact hins.restored hc
    | _ => exact hc.elim
  | storageFind opt => exact ⟨P, hs, Restored.refl P⟩
  | cacheGet key => exact ⟨P, hs, Restored.refl P⟩
  | cacheSet key value => exact ⟨P, hs, Restored.refl P⟩
  | _ => exact hc.elim

theorem Restores.docs {c : Command} (hc : Restores c) : (stores.handle c w).2.docs = w.docs := by
  cases c with
  | storageInsert now messages => exact hc.elim
  | storageAck message => exact hc.elim
  | storageNack message => exact hc.elim
  | storageRemove queue ids => exact hc.elim
  | _ => rfl

/-! ## The invariant -/

/-- What holds of a system in which a number of calls have been completed. -/
structure Recovers (stores : Stores ι) (K : Set Key) (N calls : ℕ) (s : RecoverySystem ι κ) :
    Prop where
  wellFormed : WellFormed stores s.shared
  complete : Complete stores K s.shared
  clients : ∀ i p, s.thread (some i) = some p → Orderly p ∧ All Acceptable p
  restores : ∀ p, s.thread none = some p → All Restores p
  calling : ∀ p, s.thread none = some p → Under stores.handle (interference stores K N)
    (fun _ t => Resting stores K N (calls + 1) t) p s.shared
  resting : s.thread none = none → Resting stores K N calls s.shared
  spared : ∀ k ∈ K, Spared s k

section Events

variable {K : Set Key} {N calls : ℕ} {s : RecoverySystem ι κ}

/-- A client's command disturbs the recovery no more than it may. -/
theorem interferes_client {c : Command} (hc : Acceptable c) (hw : WellFormed stores w)
    (hstored : ∀ k ∈ K, Stored w.docs k ∧ Stored (stores.handle c w).2.docs k)
    (hpools : ∀ k ∈ K, stores.cache.InPools w.redis k.1 k.2 →
      stores.cache.InPools (stores.handle c w).2.redis k.1 k.2) :
    Interferes stores K w (stores.handle c w).2 where
  wellFormed hw := ⟨handle_represents hc.careful hw.represents, hw.accepted.handle hc⟩
  str := by
    cases c with
    | cache op =>
      obtain ⟨P, hs⟩ := hw.represents
      obtain ⟨P', -, hstr, -⟩ := handle_cache hs hc.careful.amountOk
      exact hstr
    | cacheSet key value => exact hc.elim
    | _ => rfl
  grows := grows_handle c
  serial k hk := serial_handle (hstored k hk).1 (hstored k hk).2
  inPools := hpools

omit [DecidableEq κ] in
/-- The recovery does not notice a change that it allows for. -/
theorem Recovers.interfere_calling (h : Recovers stores K N calls s) {w : World ι}
    (hw : Interferes stores K s.shared w)
    {p : Prog Command (Answer ι) ServiceError (Response ⊕ Bool)}
    (hp : s.thread none = some p) : Under stores.handle (interference stores K N)
      (fun _ t => Resting stores K N (calls + 1) t) p w := by
  refine (h.calling p hp).interfere (fun _ _ _ => Interferes.trans) ?_ hw
  exact fun _ _ _ hresting hst => hresting.interfere hst

theorem Recovers.step_client (h : Recovers stores K N calls s) {i : κ} {c : Command}
    {next : Answer ι c → Prog Command (Answer ι) ServiceError (Response ⊕ Bool)}
    (hi : s.thread (some i) = some (.call c next))
    (hstored : ∀ k ∈ K, Stored s.shared.docs k ∧ Stored (stores.handle c s.shared).2.docs k) :
    Recovers stores K N calls
      (({ s with shared := (stores.handle c s.shared).2 }).setThread (some i)
      (some (next (stores.handle c s.shared).1))) := by
  obtain ⟨horderly, hc, hnext⟩ := h.clients i _ hi
  have hw : Interferes stores K s.shared (stores.handle c s.shared).2 :=
    interferes_client hc h.wellFormed hstored fun k hk hp =>
      (h.spared k hk).inPools hi hc.careful h.wellFormed.represents hp
  refine ⟨hw.wellFormed h.wellFormed, h.complete.interfere hw, fun j p hp => ?_, fun p hp => ?_,
    fun p hp => ?_, fun hp => ?_, fun k hk => ?_⟩
  · obtain ⟨-, hp⟩ | ⟨-, hp⟩ := Threads.setThread_eq_some hp
    · cases hp
      exact ⟨(horderly _).1, hnext _⟩
    · exact h.clients j p hp
  · rw [Threads.setThread_of_ne (by simp)] at hp
    exact h.restores p hp
  · rw [Threads.setThread_of_ne (by simp)] at hp
    exact h.interfere_calling hw hp
  · rw [Threads.setThread_of_ne (by simp)] at hp
    exact (h.resting hp).interfere hw
  · exact (h.spared k hk).step hc.careful horderly (hstored k hk).2

theorem Recovers.step_recovery (h : Recovers stores K N calls s) {c : Command}
    {next : Answer ι c → Prog Command (Answer ι) ServiceError (Response ⊕ Bool)}
    (hi : s.thread none = some (.call c next))
    (hstored : ∀ k ∈ K, Stored s.shared.docs k)
    (hN : c = .storageFind Queue.lastDocument → s.shared.docs.rows.length ≤ N) :
    Recovers stores K N calls (({ s with shared := (stores.handle c s.shared).2 }).setThread none
      (some (next (stores.handle c s.shared).1))) := by
  have hrestores := h.restores _ hi
  obtain ⟨hcomplete, hunder⟩ := h.calling _ hi s.shared (Interferes.refl _) hN
  have hdocs : (stores.handle c s.shared).2.docs = s.shared.docs := hrestores.1.docs
  refine ⟨⟨handle_represents hrestores.1.careful h.wellFormed.represents, ?_⟩, hcomplete,
    fun j p hp => ?_, fun p hp => ?_, fun p hp => ?_, fun hp => ?_, fun k hk => ?_⟩
  · exact hdocs.symm ▸ h.wellFormed.accepted
  · rw [Threads.setThread_of_ne (by simp)] at hp
    exact h.clients j p hp
  · rw [Threads.setThread_self] at hp
    cases hp
    exact hrestores.2 _
  · rw [Threads.setThread_self] at hp
    cases hp
    exact hunder
  · rw [Threads.setThread_self] at hp
    cases hp
  · exact (h.spared k hk).step hrestores.1.careful (orderly_of_restores hrestores)
      (hdocs.symm ▸ hstored k hk)

theorem Recovers.start_client (h : Recovers stores K N calls s) {i : κ} {request : Request}
    (hok : request.Acceptable) : Recovers stores K N calls
      (s.setThread (some i) (some ((Task.client request).program stores.internalIds))) := by
  refine ⟨h.wellFormed, h.complete, fun j p hp => ?_, fun p hp => ?_, fun p hp => ?_,
    fun hp => ?_, fun k hk => (h.spared k hk).setThread ?_⟩
  · obtain ⟨-, hp⟩ | ⟨-, hp⟩ := Threads.setThread_eq_some hp
    · cases hp
      exact ⟨(orderly_program request).bind_ret _,
        all_bind (acceptable_program hok) fun _ => trivial⟩
    · exact h.clients j p hp
  · rw [Threads.setThread_of_ne (by simp)] at hp
    exact h.restores p hp
  · rw [Threads.setThread_of_ne (by simp)] at hp
    exact h.calling p hp
  · rw [Threads.setThread_of_ne (by simp)] at hp
    exact h.resting hp
  · rintro q ⟨⟩ hremoving
    exact not_removing_program request (removing_bind_ret hremoving)

theorem Recovers.start_recovery (h : Recovers stores K N calls s) (hi : s.thread none = none)
    (order : MapOrder) : Recovers stores K N calls
      (s.setThread none (some ((Task.recovery order).program stores.internalIds))) := by
  have hrestores : All Restores ((Task.recovery order).program stores.internalIds) :=
    all_bind (restores_recoveryMessagesPool stores.internalIds order) fun _ => trivial
  refine ⟨h.wellFormed, h.complete, fun j p hp => ?_, fun p hp => ?_, fun p hp => ?_,
    fun hp => ?_, fun k hk => (h.spared k hk).setThread ?_⟩
  · rw [Threads.setThread_of_ne (by simp)] at hp
    exact h.clients j p hp
  · rw [Threads.setThread_self] at hp
    cases hp
    exact hrestores
  · rw [Threads.setThread_self] at hp
    cases hp
    exact (under_recoveryMessagesPool order (h.resting hi)).bind (fun _ _ ht => ht.1)
      fun _ _ ht => ht.1
  · rw [Threads.setThread_self] at hp
    cases hp
  · rintro q ⟨⟩
    exact not_removing_of_restores hrestores

theorem Recovers.finish_client (h : Recovers stores K N calls s) (i : κ) :
    Recovers stores K N calls (s.setThread (some i) none) := by
  refine ⟨h.wellFormed, h.complete, fun j p hp => ?_, fun p hp => ?_, fun p hp => ?_,
    fun hp => ?_, fun k hk => (h.spared k hk).setThread (by simp)⟩
  · obtain ⟨-, hp⟩ | ⟨-, hp⟩ := Threads.setThread_eq_some hp
    · cases hp
    · exact h.clients j p hp
  · rw [Threads.setThread_of_ne (by simp)] at hp
    exact h.restores p hp
  · rw [Threads.setThread_of_ne (by simp)] at hp
    exact h.calling p hp
  · rw [Threads.setThread_of_ne (by simp)] at hp
    exact h.resting hp

theorem Recovers.finish_recovery (h : Recovers stores K N calls s)
    {p : Prog Command (Answer ι) ServiceError (Response ⊕ Bool)} (hi : s.thread none = some p)
    (hend : ∀ c next, p ≠ .call c next) :
    Recovers stores K N (calls + 1) (s.setThread none none) := by
  refine ⟨h.wellFormed, h.complete, fun j p hp => ?_, fun p hp => ?_, fun p hp => ?_,
    fun _ => ?_, fun k hk => (h.spared k hk).setThread (by simp)⟩
  · rw [Threads.setThread_of_ne (by simp)] at hp
    exact h.clients j p hp
  · rw [Threads.setThread_self] at hp
    cases hp
  · rw [Threads.setThread_self] at hp
    cases hp
  · have hunder := h.calling p hi
    cases p with
    | ret a => exact hunder
    | fail e => exact hunder
    | call c next => exact absurd rfl (hend c next)

end Events

/-! ## Runs -/

variable {K : Set Key} {N : ℕ} {s₀ s : RecoverySystem ι κ}
  {tr : List (Label (Option κ) Task × Option (Except ServiceError (Response ⊕ Bool)))}

/-- The label is one of a client that may send it. -/
def ByClient (l : Label (Option κ) Task) : Prop := Assigned l ∧ ∀ task, l ≠ .start none task

/-- The clients alone have brought the system here: from documents and pools as the cache accepts
them, with no request in progress. -/
def Begun (stores : Stores ι) (s : RecoverySystem ι κ) : Prop :=
  ∃ s₀ before, s₀.Idle ∧ WellFormed stores s₀.shared ∧
    Run (stores.recovering κ) s₀ before s ∧ ∀ e ∈ before, ByClient e.1

/-- Nothing has been recovered yet. Requests may be in progress. -/
structure Fresh (stores : Stores ι) (s : RecoverySystem ι κ) : Prop where
  begun : Begun stores s
  read_running : stores.read s.shared recoveryRunning = ""
  read_cursor : stores.read s.shared recoveryStorageBreakpointKey = ""

/-- What holds while only the clients are served. -/
structure Attended (stores : Stores ι) (s : RecoverySystem ι κ) : Prop where
  wellFormed : WellFormed stores s.shared
  clients : ∀ i p, s.thread (some i) = some p → Orderly p ∧ All Acceptable p
  quiet : s.thread none = none

theorem Attended.event {l : Label (Option κ) Task} (h : Attended stores s₀)
    (hevent : Event stores.handle (Task.program stores.internalIds) s₀ l s) (hl : ByClient l) :
    Attended stores s := by
  cases hevent with
  | start i task hi =>
    cases i with
    | none => exact absurd rfl (hl.2 task)
    | some i =>
      cases task with
      | recovery order => exact hl.1.elim
      | client request =>
        refine ⟨h.wellFormed, fun j p hp => ?_, ?_⟩
        · obtain ⟨-, hp⟩ | ⟨-, hp⟩ := Threads.setThread_eq_some hp
          · cases hp
            exact ⟨(orderly_program request).bind_ret _,
              all_bind (acceptable_program hl.1) fun _ => trivial⟩
          · exact h.clients j p hp
        · rw [Threads.setThread_of_ne (by simp)]
          exact h.quiet
  | step i c next hi =>
    cases i with
    | none =>
      rw [h.quiet] at hi
      cases hi
    | some i =>
      obtain ⟨horderly, hc, hnext⟩ := h.clients i _ hi
      refine ⟨⟨handle_represents hc.careful h.wellFormed.represents,
        h.wellFormed.accepted.handle hc⟩, fun j p hp => ?_, ?_⟩
      · obtain ⟨-, hp⟩ | ⟨-, hp⟩ := Threads.setThread_eq_some hp
        · cases hp
          exact ⟨(horderly _).1, hnext _⟩
        · exact h.clients j p hp
      · rw [Threads.setThread_of_ne (by simp)]
        exact h.quiet
  | finish i p hi hend =>
    refine ⟨h.wellFormed, fun j q hq => ?_, ?_⟩
    · obtain ⟨-, hq⟩ | ⟨-, hq⟩ := Threads.setThread_eq_some hq
      · cases hq
      · exact h.clients j q hq
    · by_cases hnone : none = i
      · subst hnone
        exact Threads.setThread_self
      · rw [Threads.setThread_of_ne hnone]
        exact h.quiet

theorem Begun.attended (h : Begun stores s) : Attended stores s := by
  obtain ⟨s₀, before, hidle, hwell, hrun, hclients⟩ := h
  have hinit : Attended stores s₀ := by
    refine ⟨hwell, fun i p hp => ?_, hidle none⟩
    rw [hidle (some i)] at hp
    cases hp
  have hstep : ∀ s l r t, stores.recovering κ s l r t → ByClient l → Attended stores s →
      Attended stores t := by
    intro s l r t hstep hl h
    exact h.event (interleaved_event hstep) hl
  exact hrun.invariant hstep hclients hinit

theorem Fresh.recovers (h : Fresh stores s₀) (hK : ∀ k ∈ K, Stored s₀.shared.docs k)
    (hspared : ∀ k ∈ K, Spared s₀ k) : Recovers stores K N 0 s₀ := by
  obtain ⟨hwell, hclients, hquiet⟩ := h.begun.attended
  have hresting : Resting stores K N 0 s₀.shared :=
    .inl ⟨rfl, hwell, h.read_running, h.read_cursor, hK⟩
  refine ⟨hwell, hresting.complete, hclients, ?_, ?_, fun _ => hresting, hspared⟩
  · intro p hp
    rw [hquiet] at hp
    cases hp
  · intro p hp
    rw [hquiet] at hp
    cases hp

omit [DecidableEq κ] in
theorem completed_snoc {R : Type} (tr : List (Label (Option κ) Task × R))
    (l : Label (Option κ) Task) (r : R) :
    completed (tr ++ [(l, r)]) = completed tr + if endsCall l = true then 1 else 0 := by
  rw [completed, List.countP_append, List.countP_singleton, completed]

/-- One event, with the number of calls that are completed after it. -/
theorem Recovers.event {calls : ℕ} {t : RecoverySystem ι κ} {l : Label (Option κ) Task}
    (h : Recovers stores K N calls s)
    (hevent : Event stores.handle (Task.program stores.internalIds) s l t) (hl : Assigned l)
    (hs : ∀ k ∈ K, Stored s.shared.docs k) (ht : ∀ k ∈ K, Stored t.shared.docs k)
    (hN : LookingUp s → s.shared.docs.rows.length ≤ N) :
    Recovers stores K N (calls + if endsCall l = true then 1 else 0) t := by
  cases hevent with
  | start i task hi =>
    cases i with
    | none =>
      cases task with
      | client request => exact hl.elim
      | recovery order => exact h.start_recovery hi order
    | some i =>
      cases task with
      | client request => exact h.start_client hl
      | recovery order => exact hl.elim
  | step i c next hi =>
    cases i with
    | none =>
      refine h.step_recovery hi hs fun hc => hN ?_
      subst hc
      exact ⟨next, hi⟩
    | some i => exact h.step_client hi fun k hk => ⟨hs k hk, ht k hk⟩
  | finish i p hi hend =>
    cases i with
    | none => exact h.finish_recovery hi hend
    | some i => exact h.finish_client i

theorem recovers_run (h₀ : Fresh stores s₀) (h : Run (stores.recovering κ) s₀ tr s)
    (hassigned : ∀ e ∈ tr, Assigned e.1)
    (hN : Throughout (stores.recovering κ) s₀ tr fun s =>
      LookingUp s → s.shared.docs.rows.length ≤ N)
    (hK : ∀ k ∈ K, Throughout (stores.recovering κ) s₀ tr fun s => Stored s.shared.docs k)
    (hspared : ∀ k ∈ K, Spared s₀ k) : Recovers stores K N (completed tr) s := by
  refine h.along (Q := fun tr s => Recovers stores K N (completed tr) s) ?_ ?_
  · exact h₀.recovers (fun k hk => hK k hk [] s₀ List.nil_prefix (.nil s₀)) hspared
  intro tr' t l r u hpre hrun hstep hrecovers
  have hpre' := (List.prefix_append tr' [(l, r)]).trans hpre
  rw [completed_snoc]
  refine hrecovers.event (interleaved_event hstep) ?_ ?_ ?_ (hN tr' t hpre' hrun)
  · exact hassigned (l, r) (hpre.subset (by simp))
  · exact fun k hk => hK k hk tr' t hpre' hrun
  · exact fun k hk => hK k hk _ u hpre (run_append.mpr ⟨t, hrun, .cons hstep (.nil u)⟩)

omit [DecidableEq κ] in
theorem Recovers.finished {calls : ℕ} (h : Recovers stores K N calls s)
    (hidle : s.thread none = none) (hcalls : N / 4000 + 1 ≤ calls) :
    stores.read s.shared recoveryStorageBreakpointKey = recoveryFinished := by
  rcases h.resting hidle with ⟨rfl, -⟩ | hfinished | ⟨bound, c, hresuming⟩
  · omega
  · exact hfinished.read_cursor
  · exact absurd hcalls (not_le.mpr hresuming.calls_lt)

/-- The recovery of a cache. With no more than `N` documents stored when the first call
looks for the last of them, `N / 4000 + 1` calls finish it. A finished recovery has put
every message that stayed stored into some pool, unless a request that was in progress at the
first call was about to delete it there. Its commands leave what is in a pool where it is and
add only scores in the accepted range. Every call comes to its end. -/
theorem recovery_complete (stores : Stores ι) (h₀ : Fresh stores s₀)
    (h : Run (stores.recovering κ) s₀ tr s) (hassigned : ∀ e ∈ tr, Assigned e.1)
    (hN : Throughout (stores.recovering κ) s₀ tr fun s =>
      LookingUp s → s.shared.docs.rows.length ≤ N) :
    (s.thread none = none → N / 4000 + 1 ≤ completed tr →
      stores.read s.shared recoveryStorageBreakpointKey = recoveryFinished) ∧
    (stores.read s.shared recoveryStorageBreakpointKey = recoveryFinished → ∀ queue id,
      (Throughout (stores.recovering κ) s₀ tr fun s => Stored s.shared.docs (queue, id)) →
      Spared s₀ (queue, id) → stores.cache.InPools s.shared.redis queue id) ∧
    (∀ r t P, stores.recovering κ s (.step none) r t → stores.cache.Represents s.shared.redis P →
      ∃ P', stores.cache.Represents t.shared.redis P' ∧ Restored P P') ∧
    ∃ tr' t, Run (stores.recovering κ) s tr' t ∧ t.thread none = none ∧
      ∀ e ∈ tr', e.1 = .step none ∨ e.1 = .finish none := by
  have hrecovers := recovers_run (K := { k | (Throughout (stores.recovering κ) s₀ tr fun s =>
    Stored s.shared.docs k) ∧ Spared s₀ k }) h₀ h hassigned hN (fun k hk => hk.1) fun k hk => hk.2
  refine ⟨hrecovers.finished, fun hfinished queue id hstays hspared => ?_,
    fun r t P hstep hs => ?_, ?_⟩
  · exact hrecovers.complete hfinished (queue, id) ⟨hstays, hspared⟩
  · cases interleaved_event hstep with
    | step i c next hi => exact (hrecovers.restores _ hi).1.restored hs
  · cases hthread : s.thread none with
    | none => exact ⟨[], s, .nil s, hthread, by simp⟩
    | some p => exact exists_run_finish stores.handle (Task.program stores.internalIds) hthread

/-! ## A lost cache -/

/-- All keys of the cache are lost. -/
def World.lose (w : World ι) : World ι := { w with redis := Redis.empty }

theorem WellFormed.lose (h : DocsAccepted w.docs) : WellFormed stores w.lose :=
  ⟨⟨_, stores.cache.represents_empty⟩, h⟩

theorem docsAccepted_empty (last : ι) : DocsAccepted (Table.empty last : Documents ι) := by
  intro k x h
  simp [storedScore, Table.get, Table.empty] at h

theorem DocsAccepted.serve {request : Request} (hok : request.Acceptable)
    (h : DocsAccepted w.docs) : DocsAccepted (stores.serve w request).2.docs := by
  refine run_invariant (I := fun w : World ι => DocsAccepted w.docs) ?_ (acceptable_program hok) h
  exact fun c w hc h => h.handle hc

/-- A message is stored, and the cache is lost. -/
def lostMessage : World ℕ := (Stores.default.serve World.empty (addMessage "q" "a")).2.lose

/-- Where the first call finds the system. -/
def atFirstCall (w : World ℕ) (ls : List (Label (Option Bool) Task)) : RecoverySystem ℕ Bool :=
  reached Stores.default.handle (Task.program Stores.default.internalIds) ⟨w, fun _ => none⟩ ls

theorem fresh_atFirstCall {w : World ℕ} {ls : List (Label (Option Bool) Task)}
    (hfollow : (follow Stores.default.handle (Task.program Stores.default.internalIds)
      ⟨w, fun _ => none⟩ ls).isSome = true)
    (hwell : WellFormed Stores.default w) (hls : ∀ l ∈ ls, ByClient l)
    (hrunning : Stores.default.read (atFirstCall w ls).shared recoveryRunning = "")
    (hcursor : Stores.default.read (atFirstCall w ls).shared recoveryStorageBreakpointKey = "") :
    Fresh Stores.default (atFirstCall w ls) := by
  obtain ⟨before, hbefore⟩ := exists_follow_reached hfollow
  exact ⟨⟨_, before, fun _ => rfl, hwell, run_follow hbefore, forall_follow hbefore hls⟩,
    hrunning, hcursor⟩

/-- A second message has been stored and not been cached yet. -/
def halfAdded : List (Label (Option Bool) Task) :=
  [.start (some true) (.client (addMessage "q" "b")), .step (some true)]

/-- One call of the recovery. Before it inserts its page the addition comes to its end, and another
client adds a third message. -/
def oneCall : List (Label (Option Bool) Task) :=
  .start none (.recovery .listed) :: (List.replicate 7 (.step none) ++
    [.step (some true), .finish (some true), .start (some false) (.client (addMessage "q" "c")),
      .step (some false), .step (some false), .finish (some false)] ++
    List.replicate 4 (.step none) ++ [.finish none])

theorem recovery_complete_oneCall :
    ∃ tr, ∃ s : RecoverySystem ℕ Bool, Fresh Stores.default (atFirstCall lostMessage halfAdded) ∧
      Run (Stores.default.recovering Bool) (atFirstCall lostMessage halfAdded) tr s ∧
      Stores.default.read s.shared recoveryStorageBreakpointKey = recoveryFinished ∧
      Stores.default.cache.InPools s.shared.redis "q" "a" ∧
      Stores.default.cache.InPools s.shared.redis "q" "b" := by
  have hfresh : Fresh Stores.default (atFirstCall lostMessage halfAdded) := by
    refine fresh_atFirstCall (by decide +kernel)
      (.lose (.serve acceptable_addMessage (docsAccepted_empty 0))) ?_ (by decide +kernel)
      (by decide +kernel)
    simp [halfAdded, ByClient, Assigned, acceptable_addMessage]
  obtain ⟨⟨tr, s⟩, hfollow, hend⟩ := (Option.any_eq_true _ _).mp
    (show ((follow Stores.default.handle (Task.program Stores.default.internalIds)
        (atFirstCall lostMessage halfAdded) oneCall).any fun r =>
      (r.2.thread none).isNone && decide (completed r.1 = 1)) = true by decide +kernel)
  simp only [Bool.and_eq_true, Option.isNone_iff_eq_none, decide_eq_true_eq] at hend
  have hlabels : ∀ e ∈ tr, Assigned e.1 := by
    refine forall_follow hfollow ?_
    simp [oneCall, Assigned, acceptable_addMessage]
  have hdocs : ∀ ls ∈ oneCall.inits, ∀ r, follow Stores.default.handle
      (Task.program Stores.default.internalIds) (atFirstCall lostMessage halfAdded) ls = some r →
      r.2.shared.docs.rows.length ≤ 3 ∧ Stored r.2.shared.docs ("q", "a") ∧
        Stored r.2.shared.docs ("q", "b") := by
    have hall : (oneCall.inits.all fun ls => (follow Stores.default.handle
        (Task.program Stores.default.internalIds) (atFirstCall lostMessage halfAdded) ls).all
          fun r => decide (r.2.shared.docs.rows.length ≤ 3) &&
            (r.2.shared.docs.get ("q", "a")).isSome &&
            (r.2.shared.docs.get ("q", "b")).isSome) = true := by
      decide +kernel
    intro ls hls r hr
    have hr := (Option.all_eq_true _ _).mp (List.all_eq_true.mp hall ls hls) r hr
    simpa [Stored, and_assoc] using hr
  have hrun := run_follow hfollow
  obtain ⟨hfinishes, hpools, -⟩ := recovery_complete Stores.default hfresh hrun hlabels
    (throughout_follow hfollow fun ls hls r hr _ => (hdocs ls hls r hr).1)
  have hfinished := hfinishes hend.1 hend.2.ge
  refine ⟨tr, s, hfresh, hrun, hfinished, hpools hfinished "q" "a" ?_ (by decide +kernel),
    hpools hfinished "q" "b" ?_ (by decide +kernel)⟩
  · exact throughout_follow hfollow fun ls hls r hr => (hdocs ls hls r hr).2.1
  · exact throughout_follow hfollow fun ls hls r hr => (hdocs ls hls r hr).2.2

/-- A message has been added, deleted from the storage and added again; it is still to be deleted
from the cache. -/
def halfRemoved : List (Label (Option Bool) Task) :=
  [.start (some true) (.client (addMessage "q" "a")), .step (some true), .step (some true),
    .finish (some true),
    .start (some false) (.client (.remove { queue := "q", ids := ["a"] })), .step (some false),
    .start (some true) (.client (addMessage "q" "a")), .step (some true), .step (some true),
    .finish (some true)]

/-- One call of the recovery, which finds the message in its pool. The deletion comes to its end
before that of the call. -/
def overtakenCall : List (Label (Option Bool) Task) :=
  .start none (.recovery .listed) :: (List.replicate 8 (.step none) ++
    [.step (some false), .finish (some false)] ++ List.replicate 3 (.step none) ++ [.finish none])

theorem finished_recovery_misses_readded :
    ∃ tr, ∃ s : RecoverySystem ℕ Bool, Fresh Stores.default (atFirstCall World.empty halfRemoved) ∧
      Run (Stores.default.recovering Bool) (atFirstCall World.empty halfRemoved) tr s ∧
      (∀ e ∈ tr, Assigned e.1) ∧
      (Throughout (Stores.default.recovering Bool) (atFirstCall World.empty halfRemoved) tr fun s =>
        Stored s.shared.docs ("q", "a")) ∧
      Stores.default.read s.shared recoveryStorageBreakpointKey = recoveryFinished ∧
      ¬ Stores.default.cache.InPools s.shared.redis "q" "a" := by
  have hfresh : Fresh Stores.default (atFirstCall World.empty halfRemoved) := by
    refine fresh_atFirstCall (by decide +kernel) ?_ ?_ (by decide +kernel) (by decide +kernel)
    · exact ⟨⟨_, Stores.default.cache.represents_empty⟩, docsAccepted_empty 0⟩
    · have hremove : (Request.remove { queue := "q", ids := ["a"] }).Acceptable := trivial
      simp [halfRemoved, ByClient, Assigned, acceptable_addMessage, hremove]
  obtain ⟨⟨tr, s⟩, hfollow, hend⟩ := (Option.any_eq_true _ _).mp
    (show ((follow Stores.default.handle (Task.program Stores.default.internalIds)
        (atFirstCall World.empty halfRemoved) overtakenCall).any fun r =>
      decide (Stores.default.read r.2.shared recoveryStorageBreakpointKey = recoveryFinished) &&
        !decide (Stores.default.cache.InPools r.2.shared.redis "q" "a")) = true by decide +kernel)
  simp only [Bool.and_eq_true, decide_eq_true_eq, Bool.not_eq_true', decide_eq_false_iff_not]
    at hend
  have hall : (overtakenCall.inits.all fun ls => (follow Stores.default.handle
      (Task.program Stores.default.internalIds) (atFirstCall World.empty halfRemoved) ls).all
        fun r => (r.2.shared.docs.get ("q", "a")).isSome) = true := by
    decide +kernel
  refine ⟨tr, s, hfresh, run_follow hfollow, forall_follow hfollow ?_,
    throughout_follow hfollow fun ls hls r hr => ?_, hend.1, hend.2⟩
  · simp [overtakenCall, Assigned]
  · exact (Option.all_eq_true _ _).mp (List.all_eq_true.mp hall ls hls) r hr

end Deckard
