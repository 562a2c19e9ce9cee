import Deckard.Recovery

/-!
# Progress of the recovery of a lost cache

Requests have filled the storage, all keys of the cache are lost, and the recovery is
called again and again with nothing in between. Every call moves the cursor up or finishes
the recovery, as long as the cache accepts what is stored. A document of a queue that it
rejects stops the recovery for good.
-/
namespace Deckard

open Binary64 Effect Cache Program Prog RedisCache Runs MongoStorage

variable {ι : Type} [LinearOrder ι] {stores : Stores ι} {w : World ι}

/-- The stores after one call of the recovery. -/
def Stores.recover (stores : Stores ι) (w : World ι) (order : MapOrder) : World ι :=
  (Prog.run stores.handle
    (Queue.recoveryMessagesPool stores.internalIds order : Queue.QueueProg ι Bool) w).2

theorem recover_docs (order : MapOrder) : (stores.recover w order).docs = w.docs :=
  run_invariant (I := fun w' : World ι => w'.docs = w.docs)
    (fun _ _ hc hdocs => hc.docs.trans hdocs)
    (restores_recoveryMessagesPool stores.internalIds order) rfl

theorem Resting.recover {N calls : ℕ} (h : Resting stores ∅ N calls w)
    (hN : w.docs.rows.length ≤ N) (order : MapOrder) :
    Resting stores ∅ N (calls + 1) (stores.recover w order) ∧
      CursorAdvanced stores (stores.read w recoveryStorageBreakpointKey)
        (stores.recover w order) := by
  have hI : ∀ (c : Command) (w' : World ι), Restores c → w'.docs.rows.length ≤ N →
      (stores.handle c w').2.docs.rows.length ≤ N := by
    intro c w' hc hlen
    rw [hc.docs]
    exact hlen
  exact (under_recoveryMessagesPool order h).run hI (fun _ _ hlen _ => hlen) Interferes.refl
    (restores_recoveryMessagesPool stores.internalIds order) hN

theorem recoverAll_docs (orders : List MapOrder) :
    (orders.foldl stores.recover w).docs = w.docs := by
  induction orders generalizing w with
  | nil => rfl
  | cons order orders ih => exact ih.trans (recover_docs order)

theorem Resting.recoverAll {N calls : ℕ} (h : Resting stores ∅ N calls w)
    (hN : w.docs.rows.length ≤ N) (orders : List MapOrder) :
    Resting stores ∅ N (calls + orders.length) (orders.foldl stores.recover w) := by
  induction orders generalizing w calls with
  | nil => exact h
  | cons order orders ih =>
    have hrest := ih (h.recover hN order).1 (by rw [recover_docs]; exact hN)
    rw [List.length_cons, Nat.add_comm orders.length 1, ← Nat.add_assoc]
    exact hrest

theorem docsAccepted_run {last : ι} {tr : List (Request × Except ServiceError Response)}
    (h : Run stores.sequential ⟨Table.empty last, Redis.empty⟩ tr w)
    (hok : ∀ e ∈ tr, e.1.Acceptable) : DocsAccepted w.docs := by
  have hstep : ∀ (w : World ι) request r w', stores.sequential w request r w' →
      request.Acceptable → DocsAccepted w.docs → DocsAccepted w'.docs := by
    intro w request r w' hserve hrequest hdocs
    have hserve : stores.serve w request = (r, w') := hserve
    have hafter : DocsAccepted (stores.serve w request).2.docs := hdocs.serve hrequest
    rw [hserve] at hafter
    exact hafter
  exact h.invariant hstep hok (docsAccepted_empty last)

/-- After a loss of all keys, every call of the recovery moves the cursor up or finishes,
and so many calls as the documents fill pages, and one more, finish it. -/
theorem recovery_progresses (stores : Stores ι) {last : ι}
    {tr : List (Request × Except ServiceError Response)}
    (h : Run stores.sequential ⟨Table.empty last, Redis.empty⟩ tr w)
    (hok : ∀ e ∈ tr, e.1.Acceptable) (orders : List MapOrder) (order : MapOrder) :
    CursorAdvanced stores
      (stores.read (orders.foldl stores.recover w.lose) recoveryStorageBreakpointKey)
      (stores.recover (orders.foldl stores.recover w.lose) order) ∧
    (w.docs.rows.length / 4000 + 1 ≤ orders.length →
      stores.read (orders.foldl stores.recover w.lose) recoveryStorageBreakpointKey =
        recoveryFinished ∧
      stores.read (orders.foldl stores.recover w.lose) recoveryRunning = "false") := by
  have hunstarted : Unstarted stores ∅ w.lose :=
    ⟨.lose (docsAccepted_run h hok), rfl, rfl, by simp⟩
  have hresting : Resting stores ∅ w.docs.rows.length orders.length
      (orders.foldl stores.recover w.lose) := by
    have hrest := Resting.recoverAll (N := w.docs.rows.length) (.inl ⟨rfl, hunstarted⟩) le_rfl
      orders
    rwa [Nat.zero_add] at hrest
  have hdocs : (orders.foldl stores.recover w.lose).docs = w.docs := recoverAll_docs orders
  refine ⟨(hresting.recover (by rw [hdocs]) order).2, fun hcalls => ?_⟩
  rcases hresting with ⟨hzero, -⟩ | hfinished | ⟨bound, c, hresuming⟩
  · omega
  · exact ⟨hfinished.read_cursor, hfinished.read_running⟩
  · exact absurd hcalls (not_le.mpr hresuming.calls_lt)

theorem recovery_progresses_oneCall :
    CursorAdvanced Stores.default ""
      (Stores.default.recover (Stores.default.serve World.empty (addMessage "q" "a")).2.lose
        .listed) := by
  have hrun : Run Stores.default.sequential ⟨Table.empty 0, Redis.empty⟩
      [(addMessage "q" "a", (Stores.default.serve World.empty (addMessage "q" "a")).1)]
      (Stores.default.serve World.empty (addMessage "q" "a")).2 := .cons rfl (.nil _)
  have hok : ∀ e ∈ [(addMessage "q" "a",
      (Stores.default.serve World.empty (addMessage "q" "a")).1)], e.1.Acceptable := by
    simpa using acceptable_addMessage
  exact (recovery_progresses Stores.default hrun hok [] .listed).1

/-! ## A document that the cache rejects -/

/-- A queue whose name the cache rejects stops the insertion. -/
theorem run_addQueues_accepted {messages : List Message} {queues : List String} {n : ℕ}
    {w' : World ι} (h : Prog.run stores.handle (Queue.addQueues messages queues) w = (.ok n, w')) :
    ∀ queue ∈ queues, hasHashTag queue = false := by
  induction queues generalizing w w' n with
  | nil => simp
  | cons queue queues ih =>
    obtain ⟨answer, w₁, hperform, h⟩ := run_bind_ok.mp h
    obtain ⟨l, w₂, hattempt, h⟩ := run_bind_ok.mp h
    obtain ⟨count, w₃, hrest, -⟩ := run_bind_ok.mp h
    have hhead : hasHashTag queue = false := by
      by_contra hbrace
      obtain ⟨e, he⟩ : ∃ e, exec (stores.cache.insert queue
          (messages.filter fun m => m.queue = queue)) w.redis = (.error e, w.redis) :=
        insert_rejected fun hok => hbrace hok.1
      have hanswer : answer = .error e :=
        (Except.ok.inj (congrArg Prod.fst hperform)).symm.trans (congrArg Prod.fst he)
      rw [hanswer] at hattempt
      cases hattempt
    intro q hq
    rcases List.mem_cons.mp hq with rfl | hq
    · exact hhead
    · exact ih hrest q hq

/-- The recovery is to read a page with a document of a queue that the cache rejects. -/
structure Stuck (stores : Stores ι) (w : World ι) : Prop where
  represents : ∃ P, stores.cache.Represents w.redis P
  read_running : stores.read w recoveryRunning = "true"
  read_cursor : stores.read w recoveryStorageBreakpointKey = ""
  page : ∃ bound, stores.read w recoveryBreakpointKey = stores.internalIds.text bound ∧
    ∃ d ∈ (between w.docs none bound).take Queue.pageSize, hasHashTag d.key.1 = true

theorem Stuck.congr {w' : World ι} (h : Stuck stores w)
    (hs : ∃ P, stores.cache.Represents w'.redis P)
    (hstr : w'.redis.str = w.redis.str) (hdocs : w'.docs = w.docs) : Stuck stores w' := by
  obtain ⟨bound, hbound, hpage⟩ := h.page
  refine ⟨hs, (read_congr hstr _).trans h.read_running, (read_congr hstr _).trans h.read_cursor,
    bound, (read_congr hstr _).trans hbound, ?_⟩
  rw [hdocs]
  exact hpage

/-- An insertion into the cache changes neither the documents nor the keys. -/
theorem Stuck.addMessagesToCache (h : Stuck stores w) (order : MapOrder)
    (messages : List Message) :
    Stuck stores (Prog.run stores.handle (Queue.addMessagesToCache order messages) w).2 := by
  have hall : All (fun c => ∃ queue ms, c = .cache (.insert queue ms))
      (Queue.addMessagesToCache order messages : Queue.QueueProg ι ℕ) :=
    all_addQueues fun queue _ => ⟨queue, _, rfl⟩
  refine run_invariant (I := Stuck stores) ?_ hall h
  rintro c w ⟨queue, ms, rfl⟩ hw
  obtain ⟨P, hs⟩ := hw.represents
  obtain ⟨P', ht, hstr, -⟩ := handle_cache hs
    (show (Op.insert queue ms).AmountOk from trivial)
  exact hw.congr ⟨P', ht⟩ hstr rfl

theorem Stuck.recoverPage (h : Stuck stores w) (order : MapOrder) :
    Stuck stores (Prog.run stores.handle
      (Queue.recoverPage stores.internalIds order "" : Queue.QueueProg ι Bool) w).2 := by
  obtain ⟨bound, hbound, d, hd, hbrace⟩ := h.page
  have hget : stores.handle (.cacheGet recoveryBreakpointKey) w =
      (.ok (stores.internalIds.text bound), w) := by
    rw [← hbound]
    rfl
  have hfind : stores.handle (.storageFind (Queue.page "" (stores.internalIds.text bound))) w =
      (.ok ((between w.docs none bound).take Queue.pageSize), w) :=
    Prod.ext (find_within stores.internalIds w.docs none (some bound) (by decide)) rfl
  simp only [Queue.recoverPage, perform_bind, run_call, hget, hfind]
  rw [Queue.insertPage]
  cases hlast : ((between w.docs none bound).take Queue.pageSize).getLast? with
  | none =>
    rw [List.getLast?_eq_none_iff.mp hlast] at hd
    simp at hd
  | some last =>
    dsimp only
    rw [run_capture_bind]
    have hstuck := h.addMessagesToCache order
      (((between w.docs none bound).take Queue.pageSize).map fun d => Queue.capScore d.message)
    cases hrun : Prog.run stores.handle (Queue.addMessagesToCache order
        (((between w.docs none bound).take Queue.pageSize).map fun d =>
          Queue.capScore d.message)) w with
    | mk result w' =>
      rw [hrun] at hstuck
      cases result with
      | error e => exact hstuck
      | ok n =>
        have hqueue := run_addQueues_accepted hrun d.key.1
          (mem_visit_queueNames.mpr ⟨_, List.mem_map_of_mem hd, rfl⟩)
        rw [hbrace] at hqueue
        cases hqueue

theorem Stuck.recover (h : Stuck stores w) (order : MapOrder) :
    Stuck stores (stores.recover w order) := by
  have hcursor : stores.handle (.cacheGet recoveryStorageBreakpointKey) w = (.ok "", w) := by
    rw [← h.read_cursor]
    rfl
  have hrunning : stores.handle (.cacheGet recoveryRunning) w = (.ok "true", w) := by
    rw [← h.read_running]
    rfl
  have hne : ¬ ("" = recoveryFinished) := by decide
  have hpage := h.recoverPage order
  simp only [Stores.recover, Queue.recoveryMessagesPool, Queue.isRecovering, perform_bind,
    call_bind, pure_eq, ret_bind, run_call, hcursor, hrunning, if_neg hne, Except.map]
  exact hpage

theorem between_none_last {docs : Documents ι} {d : Document ι}
    (h : ∀ d' ∈ docs.rows, d'.serial ≤ d.serial) : between docs none d.serial = docs.rows := by
  rw [between, List.filter_eq_self]
  intro d' hd'
  simpa using h d' hd'

/-- The first call starts a recovery that is stuck. -/
theorem stuck_of_brace (hs : ∃ P, stores.cache.Represents w.redis P)
    (hrunning : stores.read w recoveryRunning = "")
    (hcursor : stores.read w recoveryStorageBreakpointKey = "")
    (hbad : ∃ d ∈ w.docs.rows.take Queue.pageSize, hasHashTag d.key.1 = true) (order : MapOrder) :
    Stuck stores (stores.recover w order) := by
  have hgetCursor : stores.handle (.cacheGet recoveryStorageBreakpointKey) w = (.ok "", w) := by
    rw [← hcursor]
    rfl
  have hgetRunning : stores.handle (.cacheGet recoveryRunning) w = (.ok "", w) := by
    rw [← hrunning]
    rfl
  have hne : ¬ ("" = recoveryFinished) := by decide
  have hstart : True ∧ ("" == "true") = false := ⟨trivial, by decide⟩
  have hset : ∀ (w : World ι) key value, stores.handle (.cacheSet key value) w =
      (.ok (), stores.write w key value) := fun _ _ _ => rfl
  rcases find_last stores.internalIds w.docs with ⟨hnil, -⟩ | ⟨d, hd, hlast, hfind⟩
  · obtain ⟨d, hd, -⟩ := hbad
    simp [hnil] at hd
  have hlookup : stores.handle (.storageFind Queue.lastDocument)
      (stores.write w recoveryRunning "true") =
      (.ok [d], stores.write w recoveryRunning "true") := Prod.ext hfind rfl
  have hstuck : Stuck stores (stores.write (stores.write w recoveryRunning "true")
      recoveryBreakpointKey (stores.internalIds.text d.serial)) := by
    refine ⟨hs, ?_, ?_, d.serial, ?_, ?_⟩
    · rw [read_write, if_neg (by decide), read_write, if_pos rfl]
    · rw [read_write, if_neg (by decide), read_write, if_neg (by decide), hcursor]
    · rw [read_write, if_pos rfl]
    · have hall : between w.docs none d.serial = w.docs.rows := between_none_last hlast
      exact hall.symm ▸ hbad
  have hpage := hstuck.recoverPage order
  simp only [Stores.recover, Queue.recoveryMessagesPool, Queue.isRecovering,
    Queue.tryToStartRecovery, perform_bind, call_bind, pure_eq, ret_bind, run_call, hgetCursor,
    hgetRunning, if_neg hne, Except.map]
  rw [if_pos hstart]
  simp only [hset, hlookup, call_bind, ret_bind, run_call]
  exact hpage

theorem stuck_recoverAll (h : Stuck stores w) (orders : List MapOrder) :
    Stuck stores (orders.foldl stores.recover w) := by
  induction orders generalizing w with
  | nil => exact h
  | cons order orders ih => exact ih (h.recover order)

/-- The stores after a message has been sent to a queue that the storage accepts and the
cache rejects. -/
def braceQueue : World ℕ := (Stores.default.serve World.empty (addMessage "\x7bq" "a")).2

/-- After a loss of the cache the recovery of such a queue does not get on and is not over,
however often it is called. -/
theorem brace_queue_blocks_recovery :
    Run Stores.default.sequential World.empty
      [(addMessage "\x7bq" "a", (Stores.default.serve World.empty (addMessage "\x7bq" "a")).1)]
      braceQueue ∧
    ∀ order orders,
      Stores.default.read ((order :: orders).foldl Stores.default.recover braceQueue.lose)
        recoveryStorageBreakpointKey = "" ∧
      Stores.default.read ((order :: orders).foldl Stores.default.recover braceQueue.lose)
        recoveryRunning = "true" := by
  refine ⟨.cons rfl (.nil _), fun order orders => ?_⟩
  have hbad : ∃ d ∈ braceQueue.lose.docs.rows.take Queue.pageSize, hasHashTag d.key.1 = true := by
    decide +kernel
  have hfirst : Stuck Stores.default (Stores.default.recover braceQueue.lose order) :=
    stuck_of_brace ⟨_, Stores.default.cache.represents_empty⟩ rfl rfl hbad order
  have hstuck := stuck_recoverAll hfirst orders
  rw [List.foldl_cons]
  exact ⟨hstuck.read_cursor, hstuck.read_running⟩

end Deckard
