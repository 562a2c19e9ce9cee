import Deckard.Expiry
import Deckard.Interference
import Deckard.Orphans

/-!
# Removal with an acknowledgement

An `Ack` or a `Nack` that asks for a removal first settles the message, which without a
lock puts it back into the active pool, and then removes it from the storage. A pull that
falls between the two steps hands the message out once more. Otherwise no pull returns it
after the request has started.
-/
namespace Deckard

open Binary64 Effect Cache Program Prog RedisCache Runs MongoStorage

variable {ι κ ε α : Type} [LinearOrder ι]

/-! ## What a program may return -/

/-- The response hands out a message. -/
def Response.Contains (k : Key) : Response → Prop
  | .pulled messages => ∃ m ∈ messages, (m.queue, m.id) = k
  | _ => False

/-- The messages that a response hands out. -/
def Response.messages : Response → List ResponseMessage
  | .pulled messages => messages
  | _ => []

/-- A request that ends so does not hand out a message. -/
def Withheld (k : Key) (r : Except ServiceError Response) : Prop :=
  ∀ response, r = .ok response → ¬ response.Contains k

/-- The call takes a message out of the active pool. -/
def Takes (k : Key) : (c : Command) → Answer ι c → Prop
  | .cache (.pullMessages _ queue _ _ _ _), answer =>
      match answer with
      | .ok ids => queue = k.1 ∧ k.2 ∈ ids
      | .error _ => False
  | _, _ => False

instance (k : Key) : (c : Command) → (r : Answer ι c) → Decidable (Takes k c r)
  | .cache (.pullMessages _ queue _ _ _ _), .ok ids =>
      inferInstanceAs (Decidable (queue = k.1 ∧ k.2 ∈ ids))
  | .cache (.pullMessages ..), .error _ => .isFalse id
  | .cache (.insert ..), _ | .cache (.makeAvailable _), _ | .cache (.lockMessage ..), _
  | .cache (.unlockMessages ..), _ | .cache (.timeoutMessages ..), _ | .cache (.remove ..), _
  | .storageInsert .., _ | .storageFind _, _ | .storageAck _, _ | .storageNack _, _
  | .storageRemove .., _ | .cacheGet _, _ | .cacheSet .., _ => .isFalse id

/-- The program returns a message only if it takes it first and then finds it stored. -/
def Clear (stores : Stores ι) (k : Key) : Service.ServiceProg ι Response → Prop
  | .ret response => Withheld k (.ok response)
  | .fail e => Withheld k (.error e)
  | .call c next => ∀ w,
      (Takes k c (stores.handle c w).1 → Ends stores.handle (fun w => ¬ Stored w.docs k)
        (Withheld k) (next (stores.handle c w).1)) ∧
      (¬ Takes k c (stores.handle c w).1 → Clear stores k (next (stores.handle c w).1))

variable {stores : Stores ι} {k : Key}

theorem clear_of_ends {p : Service.ServiceProg ι Response}
    (h : Ends stores.handle (fun _ => True) (Withheld k) p) : Clear stores k p := by
  induction p with
  | ret response => exact h
  | fail e => exact h
  | call c next ih =>
    exact fun w => ⟨fun _ => (h w trivial).imp (fun _ _ => trivial) fun _ => id,
      fun _ => ih _ (h w trivial)⟩

/-! ## Pulls -/

/-- What a pull does with the ids that it has taken. -/
def afterTaking (queue : String) (ids : List String) :
    Queue.QueueProg ι (Option (List Message)) := do
  if ids = [] then pure none else
  let (messages, notFound) ← Queue.getFromStorage ids queue false
  if notFound = [] then pure (some messages) else
  let (retryMessages, retryNotFound) ← Queue.getFromStorage notFound queue true
  Queue.removeMissing queue retryNotFound
  pure (Queue.merge messages retryMessages)

/-- The response with the messages that a pull has collected. -/
def respond (p : Queue.QueueProg ι (Option (List Message))) : Service.ServiceProg ι Response :=
  .pulled <$> mapError (fun _ => .pullingMessages) do
    let messages ← p
    pure ((messages.getD []).map Service.responseMessage)

omit [LinearOrder ι] in
theorem program_pull (clock : Clock) (request : PullRequest) :
    (Request.pull clock request).program = (.call (.cache (.pullMessages (fun i => clock (i + 1))
        request.queue (Service.pullAmount request.amount) (Score.getPullMinScore request.minScore)
        (Score.getPullMaxScore (Service.pullMaxScore (clock 0) request)) request.ackDeadlineMs))
      fun answer => respond (Queue.attempt .cache answer >>= afterTaking request.queue) :
        Service.ServiceProg ι Response) := rfl

section Collecting

variable {ok : World ι → Prop} {queue : String} {ids : List String}

/-- The query for some ids does not return the message. -/
def Misses (stores : Stores ι) (ok : World ι → Prop) (k : Key) (queue : String)
    (ids : List String) : Prop :=
  ∀ w, ok w → ∀ retry ds, find stores.internalIds (Queue.findOptions ids queue retry) w.docs =
    .ok ds → ∀ d ∈ ds, d.key ≠ k

theorem ends_getFromStorage (hmiss : Misses stores ok k queue ids) (retry : Bool) :
    Ends stores.handle ok (fun r => ∀ found, r = .ok found →
        (∀ m ∈ found.1, m.key ≠ k) ∧ found.2 ⊆ ids)
      (Queue.getFromStorage ids queue retry : Queue.QueueProg ι _) := by
  intro w hw
  cases hfound : (stores.handle (.storageFind (Queue.findOptions ids queue retry)) w).1 with
  | error e => exact fun _ hr => by cases hr
  | ok ds =>
    rintro found ⟨⟩
    refine ⟨fun m hm => ?_, List.filter_sublist.subset⟩
    obtain ⟨d, hd, rfl⟩ := List.mem_map.mp hm
    exact hmiss w hw retry ds hfound d hd

theorem mem_merge {messages retryMessages : List Message} {all : List Message}
    (h : Queue.merge messages retryMessages = some all) {m : Message} (hm : m ∈ all) :
    m ∈ messages ∨ m ∈ retryMessages := by
  unfold Queue.merge at h
  dsimp only at h
  split_ifs at h
  · cases h
    exact .inl hm
  · cases h
    exact List.mem_append.mp ((List.mem_insertionSort _).mp hm)

theorem ends_afterTaking (hmiss : ∀ ids' ⊆ ids, ids' ≠ [] → Misses stores ok k queue ids') :
    Ends stores.handle ok (fun r => ∀ messages, r = .ok (some messages) → ∀ m ∈ messages, m.key ≠ k)
      (afterTaking queue ids : Queue.QueueProg ι _) := by
  unfold afterTaking
  split_ifs with hids
  · rintro messages ⟨⟩
  refine (ends_getFromStorage (hmiss ids (List.Subset.refl ids) hids) false).bind ?_ ?_
  · rintro ⟨messages, notFound⟩ hfound
    obtain ⟨hmessages, hsub⟩ := hfound _ rfl
    dsimp only
    split_ifs with hnotFound
    · rintro _ ⟨⟩ m hm
      exact hmessages m hm
    refine (ends_getFromStorage (hmiss notFound hsub hnotFound) true).bind ?_ ?_
    · rintro ⟨retryMessages, retryNotFound⟩ hretry
      obtain ⟨hretryMessages, -⟩ := hretry _ rfl
      refine (ends_true _).bind (fun _ _ messages' hmerge m hm => ?_) fun e _ messages' h => ?_
      · rcases mem_merge (Except.ok.inj hmerge) hm with hm | hm
        · exact hmessages m hm
        · exact hretryMessages m hm
      · cases h
    · rintro e - messages ⟨⟩
  · rintro e - messages ⟨⟩

theorem ends_respond {p : Queue.QueueProg ι (Option (List Message))}
    (h : Ends stores.handle ok
      (fun r => ∀ messages, r = .ok (some messages) → ∀ m ∈ messages, m.key ≠ k) p) :
    Ends stores.handle ok (Withheld k) (respond p) := by
  have hresponse : Ends stores.handle ok
      (fun r : Except QueueError (List ResponseMessage) => ∀ messages, r = .ok messages →
        ∀ m ∈ messages, (m.queue, m.id) ≠ k)
      (p >>= fun messages => pure ((messages.getD []).map Service.responseMessage)) := by
    refine h.bind ?_ ?_
    · rintro found hfound messages ⟨⟩ m hm
      obtain ⟨m', hm', rfl⟩ := List.mem_map.mp hm
      cases found with
      | none => simp at hm'
      | some all => exact hfound all rfl m' hm'
    · rintro e - messages ⟨⟩
  have herror : Ends stores.handle ok
      (fun r : Except ServiceError (List ResponseMessage) => ∀ messages, r = .ok messages →
        ∀ m ∈ messages, (m.queue, m.id) ≠ k)
      (mapError (fun _ => .pullingMessages)
        (p >>= fun messages => pure ((messages.getD []).map Service.responseMessage))) := by
    refine hresponse.mapError ?_ ?_
    · rintro all hall messages ⟨⟩
      exact hall _ rfl
    · rintro e - messages ⟨⟩
  refine herror.bind ?_ ?_
  · rintro messages hmessages response ⟨⟩ ⟨m, hm, hkey⟩
    exact hmessages messages rfl m hm hkey
  · rintro e - response ⟨⟩

end Collecting

theorem key_mem_of_find {internalIds : InternalIds ι} {docs : Documents ι} {ids : List String}
    {queue : String} {retry : Bool} {ds : List (Document ι)} (hne : ids ≠ [])
    (h : find internalIds (Queue.findOptions ids queue retry) docs = .ok ds) {d : Document ι}
    (hd : d ∈ ds) : d ∈ docs.rows ∧ d.key.2 ∈ ids := by
  obtain ⟨hrow, mongoFilter, hfilter, hsel⟩ := mem_find h hd
  cases hfilter
  obtain ⟨id, rest, rfl⟩ := List.exists_cons_of_ne_nil hne
  simp only [selects, Bool.and_eq_true, List.contains_iff_mem] at hsel
  exact ⟨hrow, hsel.1.1.1.1.1⟩

/-- A pull returns no message that it has not taken, and none that it does not find. -/
theorem clear_pull (clock : Clock) {request : PullRequest} (hqueue : request.queue = k.1) :
    Clear stores k (Request.pull clock request).program := by
  rw [program_pull]
  intro w
  cases (stores.handle (.cache (.pullMessages (fun i => clock (i + 1)) request.queue
      (Service.pullAmount request.amount) (Score.getPullMinScore request.minScore)
      (Score.getPullMaxScore (Service.pullMaxScore (clock 0) request))
      request.ackDeadlineMs)) w).1 with
  | error e => exact ⟨False.elim, fun _ response h => by cases h⟩
  | ok ids =>
    constructor
    · intro _
      refine ends_respond (ends_afterTaking fun ids' _ hne w' hw retry ds hfind d hd hkey => ?_)
      have hrow := (key_mem_of_find hne hfind hd).1
      exact hw (Option.isSome_iff_exists.mpr ⟨d, Table.get_eq_some.mpr ⟨hrow, hkey⟩⟩)
    · intro hnot
      refine clear_of_ends (ends_respond (ends_afterTaking
        fun ids' hsub hne w' _ retry ds hfind d hd hkey => ?_))
      have hid := hsub (key_mem_of_find hne hfind hd).2
      exact hnot ⟨hqueue, hkey ▸ hid⟩

/-! ## The request that removes -/

/-- The next command removes the message from the storage. -/
def AboutToRemove (k : Key) : Prog Command (Answer ι) ε α → Prop
  | .call c _ => Deletes k c
  | _ => False

/-- The call may have put a message back into the active pool. -/
def Releases : (c : Command) → Answer ι c → Prop
  | .cache (.makeAvailable _), answer =>
      match answer with
      | .ok _ => True
      | .error _ => False
  | _, _ => False

/-- What the program puts back, it removes from the storage with its next command. -/
def Finalizes (k : Key) : Prog Command (Answer ι) ε α → Prop
  | .ret _ | .fail _ => True
  | .call c next => ∀ r, (Releases c r → AboutToRemove k (next r)) ∧ Finalizes k (next r)

omit [LinearOrder ι] in
theorem finalizes_of_all {p : Prog Command (Answer ι) ε α}
    (h : All (fun c => ∀ r : Answer ι c, ¬ Releases c r) p) : Finalizes k p := by
  induction p with
  | ret a => trivial
  | fail e => trivial
  | call c next ih => exact fun r => ⟨fun hr => absurd hr (h.1 r), ih r (h.2 r)⟩

/-- The request acknowledges a message, or refuses it, and removes it. -/
def Settles (request : AckRequest) (settle : Request) : Prop :=
  request.removeMessage = true ∧ ∃ clock, settle = .ack clock request ∨ settle = .nack clock request

omit [LinearOrder ι] in
theorem finalizes_settle {request : AckRequest} (hremove : request.removeMessage = true)
    (write : Message → Command) (hwrite : ∀ m (r : Answer ι (write m)), ¬ Releases (write m) r)
    (lockType : LockType) (clock : Clock) (message : Message) (f : QueueError → ServiceError) :
    Finalizes (request.queue, request.id)
      (Response.settled <$> (mapError f (Queue.settle write lockType clock message) >>=
        Service.settled request) : Service.ServiceProg ι Response) := by
  have hsettled : ∀ result, Finalizes (request.queue, request.id) (Response.settled <$>
      Service.settled request result : Service.ServiceProg ι Response) := by
    intro result
    refine finalizes_of_all (all_bind (all_settled ?_ ?_ result) fun _ => trivial)
    · exact fun _ => id
    · exact fun _ => id
  have habout : ∀ result, AboutToRemove (request.queue, request.id) (Response.settled <$>
      Service.settled request result : Service.ServiceProg ι Response) := by
    intro result
    rw [Service.settled, if_pos hremove]
    exact ⟨rfl, List.mem_singleton.mpr rfl⟩
  unfold Queue.settle
  split_ifs
  · trivial
  · trivial
  · refine fun r => ⟨fun hr => absurd hr (hwrite message r), fun answer => ⟨False.elim, ?_⟩⟩
    cases answer with
    | error e => trivial
    | ok result => exact hsettled result
  · refine fun r => ⟨fun hr => absurd hr (hwrite message r), fun answer => ?_⟩
    cases answer with
    | error e => exact ⟨False.elim, trivial⟩
    | ok result => exact ⟨fun _ => habout result, hsettled result⟩

/-- A request that removes returns no messages. -/
theorem clear_settle {request : AckRequest} {settle : Request} (h : Settles request settle) :
    Clear stores k settle.program := by
  have hmap : ∀ p : Service.ServiceProg ι AckResponse,
      Ends stores.handle (fun _ => True) (Withheld k) (Response.settled <$> p) := by
    intro p
    refine (ends_true p).bind ?_ ?_
    · rintro response - _ ⟨⟩ hcontains
      exact hcontains
    · rintro e - response ⟨⟩
  obtain ⟨-, clock, rfl | rfl⟩ := h
  · exact clear_of_ends (hmap _)
  · exact clear_of_ends (hmap _)

omit [LinearOrder ι] in
theorem finalizes_program {request : AckRequest} {settle : Request} (h : Settles request settle) :
    Finalizes (request.queue, request.id) (settle.program : Service.ServiceProg ι Response) := by
  obtain ⟨hremove, clock, rfl | rfl⟩ := h
  · exact finalizes_settle hremove _ (fun _ _ => id) _ _ _ _
  · exact finalizes_settle hremove _ (fun _ _ => id) _ _ _ _

/-! ## Commands of the pulls and of the request -/

/-- A command that adds no message and releases none, except where it is allowed to. -/
def Mild (release : Prop) : Command → Prop
  | .storageInsert .. => False
  | .cache op => op.AmountOk ∧
      match op with
      | .insert .. | .unlockMessages .. | .timeoutMessages .. => False
      | .makeAvailable _ => release
      | _ => True
  | _ => True

omit [LinearOrder ι] in
theorem mild_pull (release : Prop) (clock : Clock) (request : PullRequest) :
    All (Mild release) ((Request.pull clock request).program : Service.ServiceProg ι Response) := by
  refine (program_issues _).imp fun c hc => ?_
  cases c with
  | cache op =>
    refine ⟨hc.amountOk, ?_⟩
    rcases hc with hpull | ⟨ids, retry, hfind⟩ | ⟨ids, hremove⟩
    · cases hpull
      trivial
    · cases hfind
    · cases hremove
      trivial
  | storageInsert now messages => simp [Request.Issues] at hc
  | _ => trivial

/-- The calls of the cache that settle a message and remove it. -/
theorem Settles.issues {request : AckRequest} {settle : Request} (h : Settles request settle)
    {op : Op} (hop : settle.Issues (.cache op)) :
    (∃ clock message lockType, op = .lockMessage clock message lockType) ∨
    (¬ 0 < request.lockMs ∧ ∃ message, op = .makeAvailable message) ∨
    ∃ ids, op = .remove request.queue ids := by
  obtain ⟨-, clock, rfl | rfl⟩ := h
  all_goals
    rcases hop with hop | ⟨-, hop⟩ | ⟨hlock, hop⟩ | hop | hop
    · cases hop
    · exact .inl ⟨_, _, _, Command.cache.inj hop⟩
    · exact .inr (.inl ⟨hlock, _, Command.cache.inj hop⟩)
    · cases hop
    · exact .inr (.inr ⟨_, Command.cache.inj hop⟩)

omit [LinearOrder ι] in
theorem mild_settle {request : AckRequest} {settle : Request} (h : Settles request settle) :
    All (Mild (¬ 0 < request.lockMs)) (settle.program : Service.ServiceProg ι Response) := by
  refine (program_issues _).imp fun c hc => ?_
  cases c with
  | cache op =>
    refine ⟨hc.amountOk, ?_⟩
    rcases h.issues hc with ⟨_, _, _, rfl⟩ | ⟨hlock, _, rfl⟩ | ⟨_, rfl⟩
    · trivial
    · exact hlock
    · trivial
  | storageInsert now messages =>
    obtain ⟨-, clock, rfl | rfl⟩ := h
    · simp [Request.Issues] at hc
    · simp [Request.Issues] at hc
  | _ => trivial

variable {w : World ι} {c : Command} {P P' : Places} {release : Prop}

/-- A message that is not active becomes so by a release only. -/
theorem not_active_of_moves {op : Op} {res : Result} (h : Moves P op res P')
    (hop : Mild release (.cache op)) {queue id : String} (hp : ∀ x, P queue id ≠ .active x) :
    (∀ x, P' queue id ≠ .active x) ∨ ∃ message, op = .makeAvailable message ∧ res = .flag true := by
  have hreplace : ∀ (q : String) (l : List String) (f : String → Place),
      (∀ id x, f id ≠ .active x) → ∀ x, P.replace q l f queue id ≠ .active x := by
    intro q l f hf x
    unfold Places.replace
    split_ifs
    · exact hf id x
    · exact hp x
  cases h with
  | rejected | notReleased | notLocked => exact .inl hp
  | inserted | insertedPart | unlocked | timedOut => exact hop.2.elim
  | released => exact .inr ⟨_, rfl, rfl⟩
  | pulled | lost | locked | lockedUnscored | removed =>
    refine .inl (hreplace _ _ _ ?_)
    simp

/-- What is taken was active. -/
theorem Takes.active (h : Takes k c (stores.handle c w).1) (hc : Mild release c)
    (hs : stores.cache.Represents w.redis P) : ∃ x, P k.1 k.2 = .active x := by
  cases c with
  | cache op =>
    obtain ⟨P', -, -, hmoves⟩ := handle_cache hs hc.1
    cases op with
    | pullMessages clock queue n lo hi d =>
      generalize (stores.handle (.cache (.pullMessages clock queue n lo hi d)) w).1 = answer
        at h hmoves
      cases answer with
      | error e => exact h.elim
      | ok ids =>
        obtain ⟨rfl, hid⟩ := h
        cases hmoves with
        | pulled _ _ hactive => exact hactive k.2 hid
    | _ => exact h.elim
  | _ => exact h.elim

theorem not_stored_of_deletes (h : Deletes k c) : ¬ Stored (stores.handle c w).2.docs k := by
  cases c with
  | storageRemove queue ids =>
    obtain ⟨hqueue, hid⟩ := h
    rw [stored_iff, not_not]
    exact (storedScore_remove queue ids).trans (if_pos ⟨hqueue.symm, hid⟩)
  | _ => exact h.elim

theorem stored_of_mild (hc : Mild release c) (h : Stored (stores.handle c w).2.docs k) :
    Stored w.docs k := by
  rcases h.of_handle with hstored | hinserting
  · exact hstored
  · cases c with
    | storageInsert now messages => exact hc.elim
    | _ => exact hinserting.elim

/-! ## Runs -/

/-- A pull of the queue in progress that has not taken the message. -/
inductive PullUnderway (stores : Stores ι) (k : Key) : Service.ServiceProg ι Response → Prop
  | start (clock : Clock) (request : PullRequest) : request.queue = k.1 →
      PullUnderway stores k (Request.pull clock request).program
  | answered {c : Command} {next : Answer ι c → Service.ServiceProg ι Response} (w : World ι) :
      PullUnderway stores k (.call c next) → ¬ Takes k c (stores.handle c w).1 →
      PullUnderway stores k (next (stores.handle c w).1)

omit [LinearOrder ι] in
theorem finalizes_pull (clock : Clock) (request : PullRequest) :
    Finalizes k ((Request.pull clock request).program : Service.ServiceProg ι Response) := by
  refine finalizes_of_all ((program_issues _).imp fun c hc r hreleases => ?_)
  rcases hc with rfl | ⟨ids, retry, rfl⟩ | ⟨ids, rfl⟩
  · exact hreleases
  · exact hreleases
  · exact hreleases

theorem PullUnderway.spec (release : Prop) {p : Service.ServiceProg ι Response}
    (h : PullUnderway stores k p) : All (Mild release) p ∧ Finalizes k p ∧ Clear stores k p := by
  induction h with
  | start clock request hqueue =>
    exact ⟨mild_pull release clock request, finalizes_pull clock request, clear_pull clock hqueue⟩
  | answered w _ hnot ih =>
    obtain ⟨hmild, hfin, hclear⟩ := ih
    exact ⟨hmild.2 _, (hfin _).2, (hclear w).2 hnot⟩

variable [DecidableEq κ]

/-- Only pulls of the queue are started, and none takes the message after the request of
thread `a` has put it back and before it removes it. -/
def Untaken (stores : Stores ι) (a : κ) (request : AckRequest) (s : System ι κ) :
    Label κ Request → Prop
  | .start _ started => ∃ clock pull, started = .pull clock pull ∧ pull.queue = request.queue
  | .step i => ¬ 0 < request.lockMs → ∀ p, s.thread a = some p →
      AboutToRemove (request.queue, request.id) p → ∀ c next, s.thread i = some (.call c next) →
      ¬ Takes (request.queue, request.id) c (stores.handle c s.shared).1
  | .finish _ => True

/-- The interleavings in which the message is not taken before it is removed. -/
def Stores.untaken (stores : Stores ι) (a : κ) (request : AckRequest) :
    Machine (System ι κ) (Label κ Request) (Option (Except ServiceError Response)) :=
  fun s l r t => stores.concurrent κ s l r t ∧ Untaken stores a request s l

/-- While the message is stored it is not active, or it is about to be removed. -/
structure Withholding (stores : Stores ι) (a : κ) (request : AckRequest) (s : System ι κ) :
    Prop where
  place : ∃ P, stores.cache.Represents s.shared.redis P ∧
    (Stored s.shared.docs (request.queue, request.id) →
      (∀ x, P request.queue request.id ≠ .active x) ∨
      ¬ 0 < request.lockMs ∧ ∃ p, s.thread a = some p ∧
        AboutToRemove (request.queue, request.id) p)
  mild : ∀ i p, s.thread i = some p →
    All (Mild (i = a ∧ ¬ 0 < request.lockMs)) p ∧ Finalizes (request.queue, request.id) p
  clear : ∀ i p, s.thread i = some p → Clear stores (request.queue, request.id) p ∨
    Ends stores.handle (fun w => ¬ Stored w.docs (request.queue, request.id))
      (Withheld (request.queue, request.id)) p ∧
      ¬ Stored s.shared.docs (request.queue, request.id)

variable {a i : κ} {request : AckRequest} {s t : System ι κ}

theorem Withholding.start (h : Withholding stores a request s) (hi : s.thread i = none)
    {clock : Clock} {pull : PullRequest} (hqueue : pull.queue = request.queue) :
    Withholding stores a request (s.setThread i (some (Request.pull clock pull).program)) := by
  refine ⟨?_, fun j p hp => ?_, fun j p hp => ?_⟩
  · obtain ⟨P, hs, hplace⟩ := h.place
    refine ⟨P, hs, fun hstored => (hplace hstored).imp_right ?_⟩
    rintro ⟨hlock, p, hp, habout⟩
    have ha : a ≠ i := by
      rintro rfl
      rw [hi] at hp
      cases hp
    exact ⟨hlock, p, (Threads.setThread_of_ne ha).trans hp, habout⟩
  · rcases Threads.setThread_eq_some hp with ⟨-, hp⟩ | ⟨-, hp⟩
    · cases hp
      exact ⟨mild_pull _ clock pull, finalizes_pull clock pull⟩
    · exact h.mild j p hp
  · rcases Threads.setThread_eq_some hp with ⟨-, hp⟩ | ⟨-, hp⟩
    · cases hp
      exact .inl (clear_pull clock hqueue)
    · exact h.clear j p hp

theorem Withholding.finish (h : Withholding stores a request s)
    {p : Service.ServiceProg ι Response} (hi : s.thread i = some p)
    (hend : ∀ c next, p ≠ .call c next) :
    Withholding stores a request (s.setThread i none) := by
  refine ⟨?_, fun j q hq => ?_, fun j q hq => ?_⟩
  · obtain ⟨P, hs, hplace⟩ := h.place
    refine ⟨P, hs, fun hstored => (hplace hstored).imp_right ?_⟩
    rintro ⟨hlock, q, hq, habout⟩
    have ha : a ≠ i := by
      rintro rfl
      obtain rfl : p = q := Option.some.inj (hi.symm.trans hq)
      cases p with
      | call c next => exact hend c next rfl
      | ret response => exact habout
      | fail e => exact habout
    exact ⟨hlock, q, (Threads.setThread_of_ne ha).trans hq, habout⟩
  · rcases Threads.setThread_eq_some hq with ⟨-, hq⟩ | ⟨-, hq⟩
    · cases hq
    · exact h.mild j q hq
  · rcases Threads.setThread_eq_some hq with ⟨-, hq⟩ | ⟨-, hq⟩
    · cases hq
    · exact h.clear j q hq

section Step

variable {c : Command} {next : Answer ι c → Service.ServiceProg ι Response}

theorem Withholding.step_place (h : Withholding stores a request s)
    (hi : s.thread i = some (.call c next)) :
    ∃ P, stores.cache.Represents (stores.handle c s.shared).2.redis P ∧
      (Stored (stores.handle c s.shared).2.docs (request.queue, request.id) →
        (∀ x, P request.queue request.id ≠ .active x) ∨
        ¬ 0 < request.lockMs ∧ ∃ p, Function.update s.thread i
          (some (next (stores.handle c s.shared).1)) a = some p ∧
          AboutToRemove (request.queue, request.id) p) := by
  obtain ⟨⟨hc, -⟩, hfin⟩ := h.mild i _ hi
  obtain ⟨P, hs, hplace⟩ := h.place
  -- a removal that is due is carried out by this command or is still due
  have hdue : Stored (stores.handle c s.shared).2.docs (request.queue, request.id) →
      (¬ 0 < request.lockMs ∧ ∃ p, s.thread a = some p ∧
        AboutToRemove (request.queue, request.id) p) →
      ¬ 0 < request.lockMs ∧ ∃ p, Function.update s.thread i
          (some (next (stores.handle c s.shared).1)) a = some p ∧
        AboutToRemove (request.queue, request.id) p := by
    rintro hstored ⟨hlock, p, hp, habout⟩
    have ha : a ≠ i := by
      rintro rfl
      obtain rfl : .call c next = p := Option.some.inj (hi.symm.trans hp)
      exact not_stored_of_deletes habout hstored
    exact ⟨hlock, p, by rw [Function.update_of_ne ha, hp], habout⟩
  cases c with
  | cache op =>
    obtain ⟨P', ht, -, hmoves⟩ := handle_cache hs hc.1
    refine ⟨P', ht, fun hstored => ?_⟩
    rcases hplace hstored with hnot | hwindow
    · rcases not_active_of_moves hmoves hc hnot with hnot' | ⟨message, rfl, hflag⟩
      · exact .inl hnot'
      · obtain ⟨-, rfl, hlock⟩ := hc
        refine .inr ⟨hlock, _, Function.update_self .., (hfin _).1 ?_⟩
        generalize (stores.handle (.cache (.makeAvailable message)) s.shared).1 = answer at hflag
        cases answer with
        | error e => cases hflag
        | ok moved => trivial
    · exact .inr (hdue hstored hwindow)
  | _ =>
    exact ⟨P, hs, fun hstored => (hplace (stored_of_mild hc hstored)).imp_right (hdue hstored)⟩

theorem Withholding.step (h : Withholding stores a request s)
    (hi : s.thread i = some (.call c next)) (huntaken : Untaken stores a request s (.step i)) :
    Withholding stores a request (({ s with shared := (stores.handle c s.shared).2 }).setThread i
      (some (next (stores.handle c s.shared).1))) := by
  obtain ⟨⟨hc, hnext⟩, hfin⟩ := h.mild i _ hi
  refine ⟨h.step_place hi, fun j p hp => ?_, fun j p hp => ?_⟩
  · rcases Threads.setThread_eq_some hp with ⟨rfl, hp'⟩ | ⟨-, hp⟩
    · cases hp'
      exact ⟨hnext _, (hfin _).2⟩
    · exact h.mild j p hp
  · have hgone : ¬ Stored s.shared.docs (request.queue, request.id) →
        ¬ Stored (stores.handle c s.shared).2.docs (request.queue, request.id) :=
      mt (stored_of_mild hc)
    rcases Threads.setThread_eq_some hp with ⟨rfl, hp'⟩ | ⟨-, hp⟩
    · cases hp'
      rcases h.clear j _ hi with hclear | ⟨hends, hnot⟩
      · by_cases htakes : Takes (request.queue, request.id) c (stores.handle c s.shared).1
        · refine .inr ⟨(hclear s.shared).1 htakes, hgone fun hstored => ?_⟩
          obtain ⟨P, hs, hplace⟩ := h.place
          obtain ⟨x, hx⟩ := htakes.active hc hs
          rcases hplace hstored with hnot | ⟨hlock, p, hp, habout⟩
          · exact hnot x hx
          · exact huntaken hlock p hp habout c next hi htakes
        · exact .inl ((hclear s.shared).2 htakes)
      · exact .inr ⟨hends s.shared hnot, hgone hnot⟩
    · exact (h.clear j p hp).imp_right fun hends => ⟨hends.1, hgone hends.2⟩

end Step

theorem withholding_initial {settle : Request} (hsettle : Settles request settle)
    (hstart : s.thread a = some settle.program)
    (hothers : ∀ i p, i ≠ a → s.thread i = some p →
      PullUnderway stores (request.queue, request.id) p)
    (hheld : ∃ P d, stores.cache.Represents s.shared.redis P ∧
      P request.queue request.id = .processing d) : Withholding stores a request s := by
  have hprograms : ∀ i p, s.thread i = some p → All (Mild (i = a ∧ ¬ 0 < request.lockMs)) p ∧
      Finalizes (request.queue, request.id) p ∧ Clear stores (request.queue, request.id) p := by
    intro i p hp
    by_cases hi : i = a
    · subst hi
      obtain rfl : settle.program = p := Option.some.inj (hstart.symm.trans hp)
      have hmild := mild_settle (ι := ι) hsettle
      simp only [true_and]
      exact ⟨hmild, finalizes_program hsettle, clear_settle hsettle⟩
    · exact (hothers i p hi hp).spec _
  obtain ⟨P, d, hs, hd⟩ := hheld
  refine ⟨⟨P, hs, fun _ => .inl fun x => by simp [hd]⟩, fun i p hp => ?_, fun i p hp => ?_⟩
  · exact ⟨(hprograms i p hp).1, (hprograms i p hp).2.1⟩
  · exact .inl (hprograms i p hp).2.2

theorem Withholding.event {l : Label κ Request} (h : Withholding stores a request s)
    (hevent : Event stores.handle Request.program s l t)
    (huntaken : Untaken stores a request s l) : Withholding stores a request t := by
  cases hevent with
  | start i started hi =>
    obtain ⟨clock, pull, rfl, hqueue⟩ := huntaken
    exact h.start hi hqueue
  | step i c next hi => exact h.step hi huntaken
  | finish i p hi hend => exact h.finish hi hend

/-- Once an `Ack` or a `Nack` with a removal has started, no pull of the queue returns the
message that its client holds, if none takes it between its release and its removal. -/
theorem removed_message_not_pulled (stores : Stores ι) {settle : Request}
    (hsettle : Settles request settle) (hstart : s.thread a = some settle.program)
    (hothers : ∀ i p, i ≠ a → s.thread i = some p →
      PullUnderway stores (request.queue, request.id) p)
    (hheld : ∃ P d, stores.cache.Represents s.shared.redis P ∧
      P request.queue request.id = .processing d)
    {tr : List (Label κ Request × Option (Except ServiceError Response))}
    (hrun : Run (stores.untaken a request) s tr t) :
    ∀ e ∈ tr, ∀ messages, e.2 = some (.ok (.pulled messages)) → ∀ m ∈ messages,
      (m.queue, m.id) ≠ (request.queue, request.id) := by
  suffices hall : Withholding stores a request t ∧ ∀ e ∈ tr, ∀ messages,
      e.2 = some (.ok (.pulled messages)) → ∀ m ∈ messages,
        (m.queue, m.id) ≠ (request.queue, request.id) from hall.2
  refine hrun.along (Q := fun tr t => Withholding stores a request t ∧ ∀ e ∈ tr, ∀ messages,
    e.2 = some (.ok (.pulled messages)) → ∀ m ∈ messages,
      (m.queue, m.id) ≠ (request.queue, request.id))
    ⟨withholding_initial hsettle hstart hothers hheld, by simp⟩ ?_
  rintro tr' t l r u - - ⟨hmove, huntaken⟩ ⟨h, hpulled⟩
  refine ⟨h.event (interleaved_event hmove) huntaken, fun e he messages hr m hm hkey => ?_⟩
  rcases List.mem_append.mp he with he | he
  · exact hpulled e he messages hr m hm hkey
  · obtain rfl := List.mem_singleton.mp he
    obtain rfl : r = some (.ok (.pulled messages)) := hr
    obtain ⟨i, -, hi⟩ := interleaved_result hmove
    have hwithheld : Withheld (request.queue, request.id) (.ok (.pulled messages)) := by
      rcases h.clear i _ hi with hclear | ⟨hends, -⟩
      · exact hclear
      · exact hends
    exact hwithheld _ rfl ⟨m, hm, hkey⟩

section Delivered

def pullQueue : Request := .pull (fun _ => 0) { queue := "q" }

/-- A message has been added and a client has pulled it. -/
def delivered : World ℕ :=
  (Stores.default.serve (Stores.default.serve World.empty (addMessage "q" "a")).2 pullQueue).2

theorem delivered_held : ∃ P d, Stores.default.cache.Represents delivered.redis P ∧
    P "q" "a" = .processing d := by
  have hserve : ∀ (w : World ℕ) (request : Request),
      (∃ P, Stores.default.cache.Represents w.redis P ∧ True) →
      ∃ P, Stores.default.cache.Represents (Stores.default.serve w request).2.redis P ∧ True :=
    fun w request => serve_invariant (fun op _ => trivial)
      fun _ op _ _ _ (_ : (fun _ : Op => True) op) _ => trivial
  obtain ⟨P, hs, -⟩ := hserve _ pullQueue
    (hserve World.empty (addMessage "q" "a") ⟨_, represents_empty, trivial⟩)
  have hsome : ((delivered.redis.zset (Stores.default.cache.key "q" .processing)).score
      "a").isSome = true := by decide +kernel
  obtain ⟨d, hd⟩ := Option.isSome_iff_exists.mp hsome
  exact ⟨P, d, hs, Place.eq_processing ((hs "q" "a" .processing).symm.trans hd)⟩

/-- The client acknowledges the message and asks for its removal. -/
def ackRemoving (lockMs : Int64) : AckRequest :=
  { id := "a", queue := "q", lockMs := lockMs, removeMessage := true }

/-- The request starts on one thread while the other is idle. -/
def acknowledging (lockMs : Int64) : System ℕ Bool where
  shared := delivered
  thread := Function.update (fun _ => none) false
    (some (Request.ack (fun _ => 0) (ackRemoving lockMs)).program)

theorem acknowledging_others (lockMs : Int64) (k : Key) (i : Bool)
    (p : Service.ServiceProg ℕ Response) (hi : i ≠ false)
    (hp : (acknowledging lockMs).thread i = some p) : PullUnderway Stores.default k p := by
  have hnone : (acknowledging lockMs).thread i = none := by simp [acknowledging, hi]
  rw [hnone] at hp
  cases hp

/-- A label that starts at most a pull of the queue. -/
def StartsPull (queue : String) (l : Label Bool Request) : Prop :=
  ∀ i request, l = .start i request → ∃ clock pull, request = .pull clock pull ∧ pull.queue = queue

/-- Another client pulls before the locked message is removed. -/
def pullLocked : List (Label Bool Request) :=
  [.step false, .step false, .start true pullQueue, .step true, .finish true, .step false,
    .step false, .finish false]

/-- Another client pulls before the message is put back, and once more after its removal. -/
def pullAround : List (Label Bool Request) :=
  [.start true pullQueue, .step true, .finish true, .step false, .step false, .step false,
    .step false, .finish false, .start true pullQueue, .step true, .finish true]

/-- Another client pulls before the message that has been put back is removed. -/
def pullReleased : List (Label Bool Request) :=
  [.step false, .step false, .start true pullQueue, .step true, .step true, .finish true]

theorem startsPull_of_mem {l : Label Bool Request}
    (h : l ∈ pullLocked ++ pullAround ++ pullReleased) : StartsPull "q" l := by
  rintro i request rfl
  obtain rfl : request = pullQueue := by
    simp only [pullLocked, pullAround, pullReleased, List.cons_append, List.nil_append,
      List.mem_cons, Label.start.injEq, reduceCtorEq, List.not_mem_nil, false_or, or_false] at h
    rcases h with ⟨-, h⟩ | ⟨-, h⟩ | ⟨-, h⟩ | ⟨-, h⟩
    · exact h
    · exact h
    · exact h
    · exact h
  exact ⟨_, _, rfl, rfl⟩

/-- An event that does not take the message. -/
def untakenStep (s : System ℕ Bool) (l : Label Bool Request) :
    Option (Option (Except ServiceError Response) × System ℕ Bool) :=
  match l with
  | .step i =>
      match s.thread i with
      | some (.call c _) =>
          if Takes ("q", "a") c (Stores.default.handle c s.shared).1 then none
          else advance Stores.default.handle Request.program s l
      | _ => none
  | .start .. | .finish _ => advance Stores.default.handle Request.program s l

theorem untaken_of_untakenStep (lockMs : Int64) {s t : System ℕ Bool} {l : Label Bool Request}
    {r : Option (Except ServiceError Response)} (h : untakenStep s l = some (r, t))
    (hl : StartsPull "q" l) : Stores.default.untaken false (ackRemoving lockMs) s l r t := by
  cases l with
  | start i request => exact ⟨h, hl i request rfl⟩
  | finish i => exact ⟨h, trivial⟩
  | step i =>
    simp only [untakenStep] at h
    split at h
    · rename_i c next hi
      split_ifs at h with htakes
      refine ⟨h, fun _ p _ _ c' next' hi' => ?_⟩
      rw [hi] at hi'
      cases hi'
      exact htakes
    · cases h

theorem settles_ackRemoving (lockMs : Int64) :
    Settles (ackRemoving lockMs) (.ack (fun _ => 0) (ackRemoving lockMs)) := ⟨rfl, _, .inl rfl⟩

theorem exists_untaken (lockMs : Int64) {labels : List (Label Bool Request)}
    (hlabels : labels ⊆ pullLocked ++ pullAround ++ pullReleased)
    (h : ((replay untakenStep (acknowledging lockMs) labels).any fun r =>
      r.1.any fun e => decide (e.2 = some (.ok (.pulled [])))) = true) :
    ∃ tr t, Run (Stores.default.untaken false (ackRemoving lockMs)) (acknowledging lockMs) tr t ∧
      tr.map Prod.fst = labels ∧ ∃ e ∈ tr, e.2 = some (.ok (.pulled [])) := by
  obtain ⟨⟨tr, t⟩, hreplay, hend⟩ := (Option.any_eq_true _ _).mp h
  obtain ⟨e, he, hpulled⟩ := List.any_eq_true.mp hend
  have hmap : tr.map Prod.fst = labels := map_fst_replay hreplay
  have hstarts : ∀ e ∈ tr, StartsPull "q" e.1 := by
    intro e he
    have hmem : e.1 ∈ labels := hmap ▸ List.mem_map_of_mem he
    exact startsPull_of_mem (hlabels hmem)
  have hstep : ∀ s l r t, ofPartial untakenStep s l r t → StartsPull "q" l →
      Stores.default.untaken false (ackRemoving lockMs) s l r t :=
    fun _ _ _ _ h hl => untaken_of_untakenStep lockMs h hl
  exact ⟨tr, t, (run_replay hreplay).mono hstep hstarts, hmap, e, he, of_decide_eq_true hpulled⟩

/-- The message is locked before its removal, or put back. In both cases other pulls go on. -/
theorem removed_message_not_pulled_around :
    (∃ tr t, Run (Stores.default.untaken false (ackRemoving 10000)) (acknowledging 10000) tr t ∧
      tr.map Prod.fst = pullLocked ∧ (∃ e ∈ tr, e.2 = some (.ok (.pulled []))) ∧
      ∀ e ∈ tr, ∀ messages, e.2 = some (.ok (.pulled messages)) → ∀ m ∈ messages,
        (m.queue, m.id) ≠ ("q", "a")) ∧
    ∃ tr t, Run (Stores.default.untaken false (ackRemoving 0)) (acknowledging 0) tr t ∧
      tr.map Prod.fst = pullAround ∧ (∃ e ∈ tr, e.2 = some (.ok (.pulled []))) ∧
      ∀ e ∈ tr, ∀ messages, e.2 = some (.ok (.pulled messages)) → ∀ m ∈ messages,
        (m.queue, m.id) ≠ ("q", "a") := by
  constructor
  · obtain ⟨tr, t, hrun, hmap, hpulled⟩ := exists_untaken 10000
      (fun _ h => List.mem_append_left _ (List.mem_append_left _ h)) (by decide +kernel)
    exact ⟨tr, t, hrun, hmap, hpulled, removed_message_not_pulled Stores.default
      (settles_ackRemoving _) rfl (acknowledging_others _ _) delivered_held hrun⟩
  · obtain ⟨tr, t, hrun, hmap, hpulled⟩ := exists_untaken 0
      (fun _ h => List.mem_append_left _ (List.mem_append_right _ h)) (by decide +kernel)
    exact ⟨tr, t, hrun, hmap, hpulled, removed_message_not_pulled Stores.default
      (settles_ackRemoving _) rfl (acknowledging_others _ _) delivered_held hrun⟩

theorem removed_message_pulled :
    ∃ tr t, Run (Stores.default.concurrent Bool) (acknowledging 0) tr t ∧
      (∀ e ∈ tr, StartsPull "q" e.1) ∧
      ∃ e ∈ tr, ∃ messages, e.2 = some (.ok (.pulled messages)) ∧
        ∃ m ∈ messages, (m.queue, m.id) = ("q", "a") := by
  obtain ⟨⟨tr, t⟩, hfollow, hend⟩ := (Option.any_eq_true _ _).mp
    (show ((follow Stores.default.handle Request.program (acknowledging 0) pullReleased).any
        fun r => r.1.any fun e => (e.2.bind Except.toOption).any fun response =>
          response.messages.any fun m => (m.queue, m.id) == ("q", "a")) = true by decide +kernel)
  obtain ⟨e, he, hpulled⟩ := List.any_eq_true.mp hend
  refine ⟨tr, t, run_follow hfollow, fun e he => ?_, e, he, ?_⟩
  · refine forall_follow hfollow (fun l hl => ?_) e he
    exact startsPull_of_mem (List.mem_append_right _ hl)
  · obtain ⟨response, hresponse, hmessages⟩ := (Option.any_eq_true _ _).mp hpulled
    obtain ⟨m, hm, hkey⟩ := List.any_eq_true.mp hmessages
    obtain ⟨r, hr, hok⟩ := Option.bind_eq_some_iff.mp hresponse
    cases r with
    | error err => cases hok
    | ok response' =>
      cases hok
      cases response with
      | pulled messages => exact ⟨messages, hr, m, hm, beq_iff_eq.mp hkey⟩
      | _ => cases hm

end Delivered

end Deckard
