import Deckard.Choices
import Deckard.RecoverySteps
import Deckard.RedisKeys

/-!
# The recovery when calls fail

Any call of the cache or of the storage may fail without effect. The recovery writes its
two flags with calls whose errors it ignores. It stays out of the state in which it has
finished and still counts as running as long as, in each of its calls, the flags are both
written or the cursor is not.
-/
namespace Deckard

open Cache Effect Program Prog Runs

variable {ι ε : Type} [LinearOrder ι]

/-- The stores answer a command, or the call fails and changes nothing. -/
inductive Stores.Unreliable (stores : Stores ι) :
    (c : Command) → World ι → Answer ι c → World ι → Prop
  | answered (c : Command) (w : World ι) :
      Unreliable stores c w (stores.handle c w).1 (stores.handle c w).2
  | findFailed (opt : FindOptions) (w : World ι) (e : StorageError) :
      Unreliable stores (.storageFind opt) w (.error e) w
  | getFailed (key : String) (w : World ι) (e : CacheError) :
      Unreliable stores (.cacheGet key) w (.error e) w
  | setFailed (key value : String) (w : World ι) (e : CacheError) :
      Unreliable stores (.cacheSet key value) w (.error e) w
  | cacheFailed (op : Op) (w : World ι) (e : CacheError) :
      Unreliable stores (.cache op) w (.error e) w

/-- Between two calls of the recovery the clients change documents and pools. -/
inductive RecoveryEvent
  | recovery (order : MapOrder)
  | clients

/-- Calls of the recovery on unreliable stores, with the answers that each of them got. -/
def Stores.unreliableRecovery (stores : Stores ι) :
    Machine (World ι) RecoveryEvent (Log (Answer ι)) := fun w event log w' =>
  match event with
  | .recovery order => ∃ out : Except ServiceError Bool,
      Reaches stores.Unreliable (Queue.recoveryMessagesPool stores.internalIds order) w log out w'
  | .clients => log = [] ∧ w'.redis.str = w.redis.str

/-- The write that marks the recovery as finished has succeeded. -/
def finishedWritten : Σ c, Answer ι c :=
  ⟨.cacheSet recoveryStorageBreakpointKey recoveryFinished, .ok ()⟩

/-- The write that marks the recovery as not running has succeeded. -/
def stoppedWritten : Σ c, Answer ι c := ⟨.cacheSet recoveryRunning "false", .ok ()⟩

/-- A call that writes the finished cursor has also written the other flag. -/
def FinishesWhole (log : Log (Answer ι)) : Prop := finishedWritten ∈ log → stoppedWritten ∈ log

variable (stores : Stores ι)

/-- The recovery has finished and counts as running. -/
def Stores.Stuck (w : World ι) : Prop :=
  stores.read w recoveryStorageBreakpointKey = recoveryFinished ∧
    stores.read w recoveryRunning = "true"

/-- The cursor is not the finished one and the call has not written the other flag. -/
def Stores.Underway (log : Log (Answer ι)) (w : World ι) : Prop :=
  stores.read w recoveryStorageBreakpointKey ≠ recoveryFinished ∧ stoppedWritten ∉ log

/-- What has to hold when a call ends. -/
def Stores.Consistent (log : Log (Answer ι)) (w : World ι) : Prop :=
  FinishesWhole log → ¬ stores.Stuck w

variable {stores} {w w' : World ι} {log : Log (Answer ι)}

theorem Stores.Underway.consistent (h : stores.Underway log w) : stores.Consistent log w :=
  fun _ hstuck => h.1 hstuck.1

/-- A command that writes neither flag. -/
def Harmless : Command → Prop
  | .storageFind _ | .cacheGet _ | .cache _ => True
  | .cacheSet key value =>
      key = recoveryRunning ∧ value = "true" ∨ key = recoveryBreakpointKey ∨
        key = recoveryStorageBreakpointKey ∧ value ≠ recoveryFinished
  | _ => False

theorem str_perform (cache : RedisCache) (op : Op) (s : Redis) :
    (exec (cache.perform op) s).2.str = s.str := by
  funext k
  have hnot : RedisCache.Slot.str k ∉ cache.slots op.queue := by
    rintro ⟨p, hp⟩
    cases hp
  have hwithin : Within RedisCache.content (cache.slots op.queue) (cache.call op) :=
    RedisCache.within_call op
  have hsame := hwithin.writes s (.str k) hnot
  rw [cache.call_eq_perform, exec_map] at hsame
  exact Sum.inr.inj hsame

theorem Stores.Underway.step {c : Command} {r : Answer ι c} (h : stores.Underway log w)
    (hstep : stores.Unreliable c w r w') (hc : Harmless c) :
    stores.Underway (log ++ [⟨c, r⟩]) w' := by
  obtain ⟨hcursor, hlog⟩ := h
  refine ⟨?_, fun hmem => ?_⟩
  · cases hstep with
    | answered =>
      cases c with
      | cache op => rwa [read_congr (str_perform stores.cache op w.redis)]
      | cacheSet key value =>
        change stores.read (stores.write w key value) _ ≠ _
        rw [read_write]
        split_ifs with hkey
        · rcases hc with ⟨rfl, -⟩ | rfl | ⟨-, hne⟩
          · exact absurd hkey (by decide)
          · exact absurd hkey (by decide)
          · exact hne
        · exact hcursor
      | storageFind opt => exact hcursor
      | cacheGet key => exact hcursor
      | _ => exact hc.elim
    | _ => exact hcursor
  · rcases List.mem_append.mp hmem with hmem | hmem
    · exact hlog hmem
    · have hc' := congrArg Sigma.fst (List.mem_singleton.mp hmem)
      change Command.cacheSet recoveryRunning "false" = c at hc'
      subst hc'
      rcases hc with ⟨-, hne⟩ | hkey | ⟨hkey, -⟩
      · exact absurd hne (by decide)
      · exact absurd hkey (by decide)
      · exact absurd hkey (by decide)

/-- The flag that says that the recovery runs is lowered before the cursor is written. -/
theorem Stores.Underway.stop_finish {t t' : World ι}
    {r : Answer ι (.cacheSet recoveryRunning "false")}
    {r' : Answer ι (.cacheSet recoveryStorageBreakpointKey recoveryFinished)}
    (h : stores.Underway log w)
    (hstop : stores.Unreliable (.cacheSet recoveryRunning "false") w r t)
    (hfinish :
      stores.Unreliable (.cacheSet recoveryStorageBreakpointKey recoveryFinished) t r' t') :
    stores.Consistent (log ++ [⟨_, r⟩] ++ [⟨_, r'⟩]) t' := by
  rintro hwhole ⟨hcursor, hrunning⟩
  cases hfinish with
  | setFailed =>
    refine h.1 (Eq.trans ?_ hcursor)
    cases hstop with
    | setFailed => rfl
    | answered => exact ((read_write _ _ _).trans (if_neg (by decide))).symm
  | answered =>
    cases hstop with
    | setFailed _ _ _ e =>
      -- the cursor alone has been written
      have hmem := hwhole (List.mem_append_right _ (List.mem_singleton.mpr rfl))
      simp only [List.mem_append, List.mem_singleton] at hmem
      rcases hmem with (hmem | hmem) | hmem
      · exact h.2 hmem
      · simp [stoppedWritten] at hmem
      · simp [stoppedWritten, recoveryRunning, recoveryStorageBreakpointKey] at hmem
    | answered =>
      rw [read_write, if_neg (by decide), read_write, if_pos rfl] at hrunning
      exact absurd hrunning (by decide)

/-- An empty storage is handled in the other order. -/
theorem Stores.Underway.finish_stop {t t' : World ι}
    {r : Answer ι (.cacheSet recoveryStorageBreakpointKey recoveryFinished)}
    {r' : Answer ι (.cacheSet recoveryRunning "false")} (h : stores.Underway log w)
    (hfinish : stores.Unreliable (.cacheSet recoveryStorageBreakpointKey recoveryFinished) w r t)
    (hstop : stores.Unreliable (.cacheSet recoveryRunning "false") t r' t') :
    stores.Consistent (log ++ [⟨_, r⟩] ++ [⟨_, r'⟩]) t' := by
  rintro hwhole ⟨hcursor, hrunning⟩
  cases hstop with
  | answered =>
    rw [read_write, if_pos rfl] at hrunning
    exact absurd hrunning (by decide)
  | setFailed =>
    cases hfinish with
    | setFailed => exact h.1 hcursor
    | answered =>
      have hmem := hwhole (List.mem_append_left _
        (List.mem_append_right _ (List.mem_singleton.mpr rfl)))
      simp only [List.mem_append, List.mem_singleton] at hmem
      rcases hmem with (hmem | hmem) | hmem
      · exact h.2 hmem
      · simp [stoppedWritten, recoveryRunning, recoveryStorageBreakpointKey] at hmem
      · simp [stoppedWritten] at hmem

section Calls

variable (stores)

theorem always_endPage (found : ℕ) (h : stores.Underway log w) :
    Always stores.Unreliable (fun log (_ : Except ε Bool) w => stores.Consistent log w) log
      (Queue.endPage found) w := by
  unfold Queue.endPage
  split_ifs
  · exact fun _ _ hstop _ _ hfinish => h.stop_finish hstop hfinish
  · exact h.consistent

theorem always_tryToStartRecovery (h : stores.Underway log w) :
    Always stores.Unreliable (fun log (out : Except ε Bool) w =>
        match out with
        | .ok true => stores.Underway log w
        | _ => stores.Consistent log w) log
      (Queue.tryToStartRecovery stores.internalIds) w := by
  intro r t hr
  have ht := h.step hr (.inl ⟨rfl, rfl⟩)
  cases r with
  | error e => exact ht.consistent
  | ok u =>
    intro found t' hfind
    have ht' := ht.step hfind trivial
    cases found with
    | error e => exact ht'.consistent
    | ok documents =>
      cases documents with
      | nil => exact fun _ _ hfinish _ _ hstop => ht'.finish_stop hfinish hstop
      | cons d ds => exact fun _ _ hset => ht'.step hset (.inr (.inl rfl))

theorem always_insertPage (order : MapOrder) (documents : List (Document ι))
    (h : stores.Underway log w) :
    Always stores.Unreliable (fun log (_ : Except ε Bool) w => stores.Consistent log w) log
      (Queue.insertPage stores.internalIds order documents) w := by
  unfold Queue.insertPage
  cases documents.getLast? with
  | none => exact always_endPage stores _ h
  | some last =>
    have hadd : All Harmless (Queue.addMessagesToCache order
        (documents.map fun d => Queue.capScore d.message) : Queue.QueueProg ι ℕ) :=
      all_addQueues fun _ _ => trivial
    have hinv := always_invariant (I := stores.Underway) (fun c s r t log hc hstep hs =>
      hs.step hstep hc) hadd h
    refine hinv.capture_bind fun log out t ht => ?_
    cases out with
    | error e => exact ht.consistent
    | ok n =>
      intro r t' hset
      exact always_endPage stores _
        (ht.step hset (.inr (.inr ⟨rfl, stores.internalIds.text_ne_finished _⟩)))

theorem always_recoverPage (order : MapOrder) (breakpoint : String)
    (h : stores.Underway log w) :
    Always stores.Unreliable (fun log (_ : Except ε Bool) w => stores.Consistent log w) log
      (Queue.recoverPage stores.internalIds order breakpoint) w := by
  intro r t hget
  have ht := h.step hget trivial
  cases r with
  | error e => exact ht.consistent
  | ok recoveryBreakpoint =>
    intro found t' hfind
    have ht' := ht.step hfind trivial
    cases found with
    | error e => exact ht'.consistent
    | ok documents => exact always_insertPage stores order documents ht'

/-- A call that starts in a consistent state ends in one. -/
theorem always_recoveryMessagesPool (order : MapOrder) (h : ¬ stores.Stuck w) :
    Always stores.Unreliable (fun log (_ : Except ε Bool) w => stores.Consistent log w) []
      (Queue.recoveryMessagesPool stores.internalIds order) w := by
  intro r t hget
  cases r with
  | error e =>
    cases hget
    exact fun _ => h
  | ok breakpoint =>
    have ht : t = w ∧ breakpoint = stores.read w recoveryStorageBreakpointKey := by
      cases hget
      exact ⟨rfl, rfl⟩
    obtain ⟨rfl, hbreakpoint⟩ := ht
    change Always _ _ _ (if breakpoint = recoveryFinished then _ else _) _
    split_ifs with hfinished
    · exact fun _ => h
    · have ht : stores.Underway [⟨.cacheGet recoveryStorageBreakpointKey, .ok breakpoint⟩] t :=
        ⟨hbreakpoint ▸ hfinished, by simp [stoppedWritten]⟩
      intro r t' hget'
      have ht' := ht.step hget' trivial
      cases r with
      | error e => exact ht'.consistent
      | ok text =>
        change Always _ _ _ (if _ then _ else _) _
        split_ifs with hstart
        · refine (always_tryToStartRecovery stores ht').bind (fun log started u hu => ?_)
            fun log e u hu => hu
          cases started with
          | false => exact hu
          | true => exact always_recoverPage stores order breakpoint hu
        · exact always_recoverPage stores order breakpoint ht'

end Calls

theorem run_isRecovering (w : World ι) :
    Prog.run stores.handle (Queue.isRecovering : Prog Command (Answer ι) ε _) w =
      (.ok (.ok (stores.read w recoveryRunning == "true")), w) := rfl

theorem run_recoveryMessagesPool_finished (order : MapOrder)
    (h : stores.read w recoveryStorageBreakpointKey = recoveryFinished) :
    Prog.run stores.handle
      (Queue.recoveryMessagesPool stores.internalIds order : Prog Command (Answer ι) ε Bool) w =
      (.ok false, w) := by
  change Prog.run stores.handle
    (if stores.read w recoveryStorageBreakpointKey = recoveryFinished then _ else _) w = _
  rw [if_pos h]
  rfl

theorem run_removeTTLMessages_running (order : MapOrder) (shutdown : ℕ → Bool)
    (filterDate : Time) (h : stores.read w recoveryRunning = "true") :
    Prog.run stores.handle (Queue.removeTTLMessages order shutdown filterDate :
      Prog Command (Answer ι) ε (Bool × Option QueueError)) w = (.ok (false, none), w) := by
  change Prog.run stores.handle
    (if (stores.read w recoveryRunning == "true") = true then _ else _) w = _
  rw [if_pos (beq_iff_eq.mpr h)]
  rfl

/-- In a run in which every call of the recovery that writes the finished cursor also
writes the flag, a finished recovery never counts as running. -/
theorem finished_recovery_not_running (stores : Stores ι) {w₀ w : World ι}
    {tr : List (RecoveryEvent × Log (Answer ι))} (hrun : Run stores.unreliableRecovery w₀ tr w)
    (hwhole : ∀ e ∈ tr, FinishesWhole e.2) (h₀ : ¬ stores.Stuck w₀) :
    ¬ stores.Stuck w ∧
      (stores.read w recoveryStorageBreakpointKey = recoveryFinished →
        Prog.run stores.handle (Queue.isRecovering : Prog Command (Answer ι) ServiceError _) w =
          (.ok (.ok false), w)) := by
  have hw : ¬ stores.Stuck w := by
    refine hrun.along (Q := fun _ w => ¬ stores.Stuck w) h₀
      fun tr' t event log u hpre _ hstep ht => ?_
    have hlog : FinishesWhole log := hwhole (event, log) (hpre.subset (by simp))
    cases event with
    | recovery order =>
      obtain ⟨out, hreaches⟩ := hstep
      exact (always_recoveryMessagesPool stores order ht).reaches hreaches hlog
    | clients =>
      obtain ⟨-, hstr⟩ := hstep
      rintro ⟨hcursor, hrunning⟩
      rw [read_congr hstr] at hcursor hrunning
      exact ht ⟨hcursor, hrunning⟩
  refine ⟨hw, fun hfinished => ?_⟩
  have hnot : stores.read w recoveryRunning ≠ "true" := fun hrunning => hw ⟨hfinished, hrunning⟩
  rw [run_isRecovering, beq_eq_false_iff_ne.mpr hnot]

section Attempts

/-- Empty stores after the first two writes of the recovery. -/
def finishing : World ℕ :=
  Stores.default.write (Stores.default.write World.empty recoveryRunning "true")
    recoveryStorageBreakpointKey recoveryFinished

/-- The answers to a call on empty stores, up to the one to its last write. -/
def lastWrite (r : Except CacheError Unit) : Log (Answer ℕ) :=
  [⟨.cacheGet recoveryStorageBreakpointKey, .ok ""⟩, ⟨.cacheGet recoveryRunning, .ok ""⟩,
    ⟨.cacheSet recoveryRunning "true", .ok ()⟩, ⟨.storageFind Queue.lastDocument, .ok []⟩,
    ⟨.cacheSet recoveryStorageBreakpointKey recoveryFinished, .ok ()⟩,
    ⟨.cacheSet recoveryRunning "false", r⟩]

theorem run_lastWrite {r : Except CacheError Unit} {w : World ℕ}
    (h : Stores.default.Unreliable (.cacheSet recoveryRunning "false") finishing r w) :
    Run Stores.default.unreliableRecovery World.empty
      [(.recovery .listed, lastWrite r)] w := by
  refine .cons ⟨.ok true, .call (.answered _ _) (.call (.answered _ _) ?_)⟩ (.nil w)
  exact .call (.answered _ _) (.call (.answered _ _) (.call (.answered _ _) (.call h (.ret _ _))))

/-- A message is stored and the cache is empty. -/
def storedOnly : World ℕ :=
  { (Stores.default.serve World.empty (.add .utc (fun _ => 0) .listed
      [{ id := "a", queue := "q" }])).2 with redis := Redis.empty }

/-- One call of the recovery. -/
abbrev recoveryCall : Service.ServiceProg ℕ Bool :=
  Queue.recoveryMessagesPool Stores.default.internalIds .listed

/-- The first write of a call fails; the next call is answered throughout. -/
def secondAttempt : List (RecoveryEvent × Log (Answer ℕ)) :=
  [(.recovery .listed, [⟨.cacheGet recoveryStorageBreakpointKey, .ok ""⟩,
      ⟨.cacheGet recoveryRunning, .ok ""⟩,
      ⟨.cacheSet recoveryRunning "true", .error .invalidMessageQueue⟩]),
    (.clients, []),
    (.recovery .listed, Prog.log Stores.default.handle recoveryCall storedOnly)]

/-- The answer is that to `stoppedWritten`. -/
def stops : (Σ c, Answer ℕ c) → Bool
  | ⟨.cacheSet key value, .ok _⟩ => key == recoveryRunning && value == "false"
  | _ => false

theorem eq_stoppedWritten {e : Σ c, Answer ℕ c} (h : stops e = true) : e = stoppedWritten := by
  unfold stops at h
  split at h
  · rename_i key value
    obtain ⟨hkey, hvalue⟩ := Bool.and_eq_true_iff.mp h
    rw [beq_iff_eq.mp hkey, beq_iff_eq.mp hvalue]
    rfl
  · cases h

theorem run_secondAttempt : Run Stores.default.unreliableRecovery storedOnly secondAttempt
    (Prog.run Stores.default.handle recoveryCall storedOnly).2 := by
  refine .cons (t := storedOnly) ⟨.ok true, ?_⟩
    (.cons (t := storedOnly) ⟨rfl, rfl⟩ (.cons ?_ (.nil _)))
  · exact .call (.answered _ _) (.call (.answered _ _) (.call (.setFailed _ _ _ _) (.ret _ _)))
  · exact ⟨_, reaches_log (fun c w => .answered c w) _ _⟩

theorem finished_recovery_not_running_retried :
    ∃ w, Run Stores.default.unreliableRecovery storedOnly secondAttempt w ∧
      Stores.default.read w recoveryStorageBreakpointKey = recoveryFinished ∧
      ¬ Stores.default.Stuck w ∧
      Prog.run Stores.default.handle
        (Queue.isRecovering : Prog Command (Answer ℕ) ServiceError _) w = (.ok (.ok false), w) := by
  have hwhole : ∀ e ∈ secondAttempt, FinishesWhole e.2 := by
    simp only [secondAttempt, List.mem_cons, List.not_mem_nil, or_false, forall_eq_or_imp,
      forall_eq]
    refine ⟨fun h => ?_, fun h => ?_, fun _ => ?_⟩
    · simp [finishedWritten] at h
    · cases h
    · have hany : (Prog.log Stores.default.handle recoveryCall storedOnly).any stops = true := by
        decide +kernel
      obtain ⟨e, he, hstops⟩ := List.any_eq_true.mp hany
      exact eq_stoppedWritten hstops ▸ he
  have hstart : ¬ Stores.default.Stuck storedOnly := by
    rintro ⟨hcursor, -⟩
    exact absurd hcursor (by decide +kernel)
  have hfinished : Stores.default.read (Prog.run Stores.default.handle recoveryCall storedOnly).2
      recoveryStorageBreakpointKey = recoveryFinished := by
    decide +kernel
  obtain ⟨hstuck, hrecovering⟩ :=
    finished_recovery_not_running Stores.default run_secondAttempt hwhole hstart
  exact ⟨_, run_secondAttempt, hfinished, hstuck, hrecovering hfinished⟩

/-- When the last write fails, the recovery has finished, counts as running for ever and
puts off the removal of expired messages. -/
theorem finished_recovery_left_running :
    ∃ w, Run Stores.default.unreliableRecovery World.empty
        [(.recovery .listed, lastWrite (.error .invalidMessageQueue))] w ∧
      Stores.default.Stuck w ∧
      (∀ order : MapOrder, Prog.run Stores.default.handle
        (Queue.recoveryMessagesPool Stores.default.internalIds order :
          Prog Command (Answer ℕ) ServiceError Bool) w = (.ok false, w)) ∧
      ∀ (order : MapOrder) (shutdown : ℕ → Bool) (filterDate : Time),
        Prog.run Stores.default.handle (Queue.removeTTLMessages order shutdown filterDate :
          Prog Command (Answer ℕ) ServiceError (Bool × Option QueueError)) w =
            (.ok (false, none), w) := by
  have hcursor : Stores.default.read finishing recoveryStorageBreakpointKey = recoveryFinished := by
    rw [finishing, read_write, if_pos rfl]
  have hrunning : Stores.default.read finishing recoveryRunning = "true" := by
    rw [finishing, read_write, if_neg (by decide), read_write, if_pos rfl]
  exact ⟨finishing, run_lastWrite (.setFailed _ _ _ _), ⟨hcursor, hrunning⟩,
    fun order => run_recoveryMessagesPool_finished order hcursor,
    fun order shutdown filterDate =>
      run_removeTTLMessages_running order shutdown filterDate hrunning⟩

end Attempts

end Deckard
