import Deckard.AuditTrail

/-!
# Instances without their auditor

An instance that serves requests and recovers its cache does the same with an auditor and without
one. However its commands interleave, a run with an auditor is a run without, once the events that
store entries are left out: the stores go through the same contents, and the clients receive the
same answers in the same order. What is proved of runs without an auditor thus holds with one.
-/
namespace Deckard.Audited

open Effect Program Prog Tasks Runs

variable {ι ω υ κ : Type}

/-- The work as it is without an auditor. The tasks that poll for the shutdown and list queues are
no programs of the queue. -/
def Work.bare : Work → Option Task
  | .client request _ => some (.client request)
  | .recovery order => some (.recovery order)
  | .task _ => none

/-- Requests and recoveries without an auditor. -/
abbrev Bare (ι υ κ : Type) := Threads υ κ Command (Answer ι) ServiceError (Response ⊕ Bool)

/-- The program that is left of a thread without its entries. -/
def Leaves (p : TaskProg ι ServiceError (Option Response))
    (q : Prog Command (Answer ι) ServiceError (Response ⊕ Bool)) : Prop :=
  Erases p (Sum.getLeft? <$> q)

theorem leaves_of_erases {α : Type} {p : TaskProg ι ServiceError α}
    {q : Prog Command (Answer ι) ServiceError α} (f : α → Response ⊕ Bool) (h : Erases p q) :
    Leaves (p >>= fun a => .ret (f a).getLeft?) (f <$> q) := by
  unfold Leaves
  induction h with
  | ret a => exact .ret _
  | fail e => exact .fail e
  | command c next next' _ ih => exact .command c _ _ ih
  | store entry next q _ ih => exact .store entry _ _ ih

theorem leaves_work [LinearOrder ι] (internalIds : InternalIds ι) {work : Work} {task : Task}
    (h : work.bare = some task) : Leaves (work.program internalIds) (task.program internalIds) := by
  cases work with
  | client request reason =>
    cases h
    exact leaves_of_erases Sum.inl (erases_program reason request)
  | recovery order =>
    cases h
    exact leaves_of_erases Sum.inr (erases_recoveryMessagesPool internalIds order)
  | task background => cases h

section Inversion

variable {q : Prog Command (Answer ι) ServiceError (Response ⊕ Bool)}

/-- What is left of a thread ends as the thread does. -/
theorem Leaves.ret {a : Option Response} (h : Leaves (.ret a) q) :
    ∃ b, q = .ret b ∧ b.getLeft? = a := by
  unfold Leaves at h
  cases q with
  | ret b =>
    cases h
    exact ⟨b, rfl, rfl⟩
  | fail e => cases h
  | call c next => cases h

theorem Leaves.fail {e : ServiceError} (h : Leaves (.fail e) q) : q = .fail e := by
  unfold Leaves at h
  cases q with
  | ret b => cases h
  | fail e =>
    cases h
    rfl
  | call c next => cases h

/-- A command of the stores is left. -/
theorem Leaves.command {c : Command}
    {next : Answer ι c → TaskProg ι ServiceError (Option Response)}
    (h : Leaves (.call (.call (.command c)) next) q) :
    ∃ next', q = .call c next' ∧ ∀ r, Leaves (next r) (next' r) := by
  unfold Leaves at h
  cases q with
  | ret b => cases h
  | fail e => cases h
  | call c next' =>
    cases h with
    | command _ _ _ hnext => exact ⟨next', rfl, hnext⟩

/-- An entry is not. -/
theorem Leaves.store {entry : Entry}
    {next : Unit → TaskProg ι ServiceError (Option Response)}
    (h : Leaves (.call (.store entry) next) q) : Leaves (next ()) q := by
  unfold Leaves at h
  generalize hq : Sum.getLeft? <$> q = q' at h
  cases h with
  | store _ _ _ hnext =>
    subst hq
    exact hnext

theorem not_leaves {c : TaskCommand}
    {next : TaskAnswer ι c → TaskProg ι ServiceError (Option Response)}
    (hcommand : ∀ c', c ≠ .call (.command c')) (hstore : ∀ entry, c ≠ .store entry) :
    ¬ Leaves (.call c next) q := by
  unfold Leaves
  generalize Sum.getLeft? <$> q = q'
  intro h
  cases h with
  | command c' => exact hcommand c' rfl
  | store entry => exact hstore entry rfl

end Inversion

/-- The two instances are at the same point of their work. -/
structure Reflects (view : ω → υ) (s : System ι ω κ) (u : Bare ι υ κ) : Prop where
  stores : u.shared = view s.shared.stores
  idle : ∀ i, s.thread i = none → u.thread i = none
  busy : ∀ i p, s.thread i = some p → ∃ q, u.thread i = some q ∧ Leaves p q

/-- The answer that an event delivers to a client; a recovery has none. -/
def delivered {Q α : Type} (response : α → Option Response) :
    Label κ Q × Option (Except ServiceError α) →
      Option (κ × Except ServiceError (Option Response))
  | (.finish i, some r) => some (i, r.map response)
  | _ => none

/-- The stores without the auditor answer as those with it. -/
def Shows (calls : (c : StoreCall) → ω → c.Answer ι × ω) (bare : (c : Command) → υ → Answer ι c × υ)
    (view : ω → υ) : Prop :=
  ∀ c w, bare c (view w) = ((calls (.command c) w).1, view (calls (.command c) w).2)

section Steps

variable [DecidableEq κ] {calls : (c : StoreCall) → ω → c.Answer ι × ω}
  {bare : (c : Command) → υ → Answer ι c × υ} {view : ω → υ} {s t : System ι ω κ} {u : Bare ι υ κ}
  {i : κ}

theorem Reflects.run (h : Reflects view s u) {shared : State ω} {shared' : υ}
    (hshared : shared' = view shared.stores) {p : TaskProg ι ServiceError (Option Response)}
    {q : Prog Command (Answer ι) ServiceError (Response ⊕ Bool)} (hleaves : Leaves p q) :
    Reflects view (({ s with shared := shared }).setThread i (some p))
      (({ u with shared := shared' }).setThread i (some q)) := by
  refine ⟨hshared, fun j hj => ?_, fun j p' hj => ?_⟩
  · by_cases hji : j = i
    · rw [hji, Threads.setThread_self] at hj
      cases hj
    · rw [Threads.setThread_of_ne hji] at hj ⊢
      exact h.idle j hj
  · rcases Threads.setThread_eq_some hj with ⟨rfl, hp⟩ | ⟨hji, hj⟩
    · cases hp
      exact ⟨q, Threads.setThread_self, hleaves⟩
    · rw [Threads.setThread_of_ne hji]
      exact h.busy j p' hj

theorem Reflects.finish (h : Reflects view s u) :
    Reflects view (s.setThread i none) (u.setThread i none) := by
  refine ⟨h.stores, fun j hj => ?_, fun j p hj => ?_⟩
  · by_cases hji : j = i
    · rw [hji, Threads.setThread_self]
    · rw [Threads.setThread_of_ne hji] at hj ⊢
      exact h.idle j hj
  · rcases Threads.setThread_eq_some hj with ⟨-, hp⟩ | ⟨hji, hj⟩
    · cases hp
    · rw [Threads.setThread_of_ne hji]
      exact h.busy j p hj

/-- An entry is stored, and nothing else happens. -/
theorem Reflects.entry (h : Reflects view s u) {entry : Entry}
    {next : Unit → TaskProg ι ServiceError (Option Response)}
    (hi : s.thread i = some (.call (.store entry) next)) :
    Reflects view (({ s with shared := (audited calls (.store entry) s.shared).2 }).setThread i
      (some (next ()))) u := by
  refine ⟨h.stores, fun j hj => ?_, fun j p hj => ?_⟩
  · by_cases hji : j = i
    · rw [hji, Threads.setThread_self] at hj
      cases hj
    · rw [Threads.setThread_of_ne hji] at hj
      exact h.idle j hj
  · rcases Threads.setThread_eq_some hj with ⟨rfl, hp⟩ | ⟨-, hj⟩
    · cases hp
      obtain ⟨q, hq, hleaves⟩ := h.busy _ _ hi
      exact ⟨q, hq, hleaves.store⟩
    · exact h.busy j p hj

/-- The event starts no task that polls. -/
def StartsBare (l : Label κ Work) : Prop := ∀ i work, l = .start i work → work.bare.isSome

variable [LinearOrder ι] (internalIds : InternalIds ι)

/-- A command of the stores is performed in both instances. -/
theorem Reflects.command (h : Reflects view s u) (hview : Shows calls bare view) {c : Command}
    {next : Answer ι c → TaskProg ι ServiceError (Option Response)}
    (hi : s.thread i = some (.call (.call (.command c)) next)) :
    ∃ u', interleaved bare (Task.program internalIds) u (.step i) none u' ∧
      Reflects view (({ s with
        shared := (audited calls (.call (.command c)) s.shared).2 }).setThread i
          (some (next (audited calls (.call (.command c)) s.shared).1))) u' := by
  obtain ⟨q, hq, hleaves⟩ := h.busy i _ hi
  obtain ⟨next', rfl, hnext⟩ := hleaves.command
  have hanswer := hview c s.shared.stores
  rw [← h.stores] at hanswer
  refine ⟨({ u with shared := (bare c u.shared).2 }).setThread i
    (some (next' (bare c u.shared).1)), ?_, h.run ?_ ?_⟩
  · simp [interleaved, advance, hq]
  · rw [hanswer]
    rfl
  · rw [hanswer]
    exact hnext _

/-- Every event is one of the instance without an auditor, or stores an entry. -/
theorem Reflects.step (h : Reflects view s u) (hview : Shows calls bare view) {l : Label κ Work}
    {r : Option (Except ServiceError (Option Response))}
    (hstep : interleaved (audited calls) (Work.program internalIds) s l r t)
    (hbare : StartsBare l) :
    ∃ tr u', Run (interleaved bare (Task.program internalIds)) u tr u' ∧ Reflects view t u' ∧
      tr.filterMap (delivered Sum.getLeft?) = (delivered id (l, r)).toList := by
  cases l with
  | start i work =>
    obtain ⟨task, htask⟩ := Option.isSome_iff_exists.mp (hbare i work rfl)
    simp only [interleaved, advance] at hstep
    split at hstep
    · rename_i hi
      cases hstep
      refine ⟨[(.start i task, none)], u.setThread i (some (task.program internalIds)),
        .cons ?_ (.nil _), h.run h.stores (leaves_work internalIds htask), rfl⟩
      simp [interleaved, advance, h.idle i hi]
    · cases hstep
  | step i =>
    simp only [interleaved, advance] at hstep
    split at hstep
    · rename_i c next hi
      cases hstep
      cases c with
      | call c =>
        cases c with
        | command c =>
          obtain ⟨u', hu', hreflects⟩ := h.command internalIds hview hi
          exact ⟨[(.step i, none)], u', .cons hu' (.nil _), hreflects, rfl⟩
        | _ =>
          obtain ⟨q, -, hleaves⟩ := h.busy i _ hi
          exact absurd hleaves (not_leaves (by simp) (by simp))
      | store entry => exact ⟨[], u, .nil u, h.entry hi, rfl⟩
      | _ =>
        obtain ⟨q, -, hleaves⟩ := h.busy i _ hi
        exact absurd hleaves (not_leaves (by simp) (by simp))
    · cases hstep
  | finish i =>
    simp only [interleaved, advance] at hstep
    split at hstep
    · rename_i a hi
      cases hstep
      obtain ⟨q, hq, hleaves⟩ := h.busy i _ hi
      obtain ⟨b, rfl, rfl⟩ := hleaves.ret
      refine ⟨[(.finish i, some (.ok b))], u.setThread i none, .cons ?_ (.nil _), h.finish, rfl⟩
      simp [interleaved, advance, hq]
    · rename_i e hi
      cases hstep
      obtain ⟨q, hq, hleaves⟩ := h.busy i _ hi
      obtain rfl := hleaves.fail
      refine ⟨[(.finish i, some (.error e))], u.setThread i none, .cons ?_ (.nil _), h.finish, rfl⟩
      simp [interleaved, advance, hq]
    · cases hstep

/-- A run of requests and recoveries with an auditor is one without: from the same stores to the
same stores, with the same answers. -/
theorem audited_refines_bare (hview : Shows calls bare view) {s₀ : System ι ω κ} (hidle : s₀.Idle)
    {tr : List (Label κ Work × Option (Except ServiceError (Option Response)))}
    (hrun : Run (interleaved (audited calls) (Work.program internalIds)) s₀ tr s)
    (hbare : ∀ e ∈ tr, StartsBare e.1) :
    ∃ tr' u, Run (interleaved bare (Task.program internalIds))
        ⟨view s₀.shared.stores, fun _ => none⟩ tr' u ∧ Reflects view s u ∧
      tr'.filterMap (delivered Sum.getLeft?) = tr.filterMap (delivered id) := by
  refine hrun.history (Q := fun tr s => ∃ tr' u, Run (interleaved bare (Task.program internalIds))
        ⟨view s₀.shared.stores, fun _ => none⟩ tr' u ∧ Reflects view s u ∧
      tr'.filterMap (delivered Sum.getLeft?) = tr.filterMap (delivered id)) hbare ?_ ?_
  · refine ⟨[], _, .nil _, ⟨rfl, fun _ _ => rfl, fun i p hp => ?_⟩, rfl⟩
    rw [hidle i] at hp
    cases hp
  · rintro tr s l r t hstep hl ⟨tr₁, u, hrun, hreflects, hanswers⟩
    obtain ⟨tr₂, u', hrun', hreflects', hanswers'⟩ := hreflects.step internalIds hview hstep hl
    refine ⟨tr₁ ++ tr₂, u', run_append.mpr ⟨u, hrun, hrun'⟩, hreflects', ?_⟩
    rw [List.filterMap_append, List.filterMap_append, hanswers, hanswers']
    cases hd : delivered id (l, r) <;> simp [hd]

end Steps

/-- Over MongoDB and Redis the runs without an auditor are those of which the recovery is proved to
be complete. -/
theorem audited_refines_recovering [LinearOrder ι] [DecidableEq κ] (stores : Stores ι)
    (queues : String → RedisCache.PoolType → Redis → Except CacheError (List String))
    (configurations : Except StorageError (List QueueConfiguration))
    {s₀ s : System ι (MongoStorage.Documents ι × Redis) (Option κ)} (hidle : s₀.Idle)
    {tr : List (Label (Option κ) Work × Option (Except ServiceError (Option Response)))}
    (hrun : Run (interleaved (audited (Tasks.handle (MongoStorage.calls stores.internalIds)
      stores.cache.calls queues configurations)) (Work.program stores.internalIds)) s₀ tr s)
    (hbare : ∀ e ∈ tr, StartsBare e.1) :
    ∃ tr' u, Run (stores.recovering κ)
        ⟨⟨s₀.shared.stores.1, s₀.shared.stores.2⟩, fun _ => none⟩ tr' u ∧
      Reflects (fun w => ⟨w.1, w.2⟩) s u ∧
      tr'.filterMap (delivered Sum.getLeft?) = tr.filterMap (delivered id) :=
  audited_refines_bare _ (fun c w => handle_stores stores c ⟨w.1, w.2⟩) hidle hrun hbare

end Deckard.Audited
