import Deckard.AckRemoval
import Deckard.Answers
import Deckard.AuditPresence

/-!
# Where the content of a delivered message comes from

What a pull hands out was given to the service for this very message. MongoDB keeps, of each field,
a value that some earlier addition of the message gave it; the memory storage keeps what one
addition gave, as long as no two messages share a key of its map. The breakpoint is that of an
earlier acknowledgement. No cache has a part in this, and no interleaving changes it.
-/
namespace Deckard.Provenance

open Binary64 Effect Cache Program Prog Tasks Runs Audited

variable {β : Type} {adds acks : Message → Prop} {k : Key}

/-- The value is the default, or the one that a message with the key has in the field. -/
def From (given : Message → Prop) (k : Key) (field : Message → β) (default value : β) : Prop :=
  value = default ∨ ∃ a, given a ∧ a.key = k ∧ field a = value

/-- Each field was given to the message, maybe at different times. -/
structure Fieldwise (adds acks : Message → Prop) (k : Key) (m : Message) : Prop where
  payload : From adds k Message.payload none m.payload
  stringPayload : From adds k Message.stringPayload "" m.stringPayload
  metadata : From adds k Message.metadata none m.metadata
  breakpoint : From acks k Message.breakpoint "" m.breakpoint

/-- The fields were given to the message at one time. -/
structure Whole (adds acks : Message → Prop) (k : Key) (m : Message) : Prop where
  content : ∃ a, adds a ∧ a.key = k ∧ a.payload = m.payload ∧ a.stringPayload = m.stringPayload ∧
    a.metadata = m.metadata
  breakpoint : From acks k Message.breakpoint "" m.breakpoint

/-- A storage whose documents have only what its calls have given them. -/
structure Sourced {ι σ : Type} (storage : StorageCalls ι σ) (adds acks : Message → Prop)
    (J : σ → Prop) (G : Key → Message → Prop) : Prop where
  insert : ∀ {now messages s}, (∀ m ∈ messages, adds m) → J s → J (storage.insert now messages s).2
  ack : ∀ {message s}, acks message → J s → J (storage.ack message s).2
  nack : ∀ {message s}, J s → J (storage.nack message s).2
  remove : ∀ {queue ids s}, J s → J (storage.remove queue ids s).2
  find : ∀ {opt s documents}, J s → storage.find opt s = .ok documents →
    ∀ d ∈ documents, G d.key d.value

/-! ## MongoDB -/

section Mongo

/-- A field that is set if it is given. -/
theorem From.set {field : Message → β} {default value : β} {message : Message}
    (h : From adds k field default value) (hmessage : adds message) (hkey : message.key = k)
    {new : β} (hnew : new = field message ∨ new = value) : From adds k field default new := by
  rcases hnew with rfl | rfl
  · exact .inr ⟨message, hmessage, hkey, rfl⟩
  · exact h

theorem Fieldwise.setFields {document message : Message}
    (h : Fieldwise adds acks message.key document) (hmessage : adds message) :
    Fieldwise adds acks message.key (MongoStorage.setFields message document) where
  payload := by
    refine h.payload.set hmessage rfl ?_
    cases hpayload : message.payload with
    | none => exact .inr (by simp [MongoStorage.setFields, hpayload])
    | some payload => exact .inl (by simp [MongoStorage.setFields, hpayload])
  stringPayload := by
    refine h.stringPayload.set hmessage rfl ?_
    by_cases hempty : message.stringPayload = ""
    · exact .inr (by simp [MongoStorage.setFields, hempty])
    · exact .inl (by simp [MongoStorage.setFields, hempty])
  metadata := by
    refine h.metadata.set hmessage rfl ?_
    cases hmetadata : message.metadata with
    | none => exact .inr (by simp [MongoStorage.setFields, hmetadata])
    | some metadata => exact .inl (by simp [MongoStorage.setFields, hmetadata])
  breakpoint := h.breakpoint

theorem mongo_sourced {ι : Type} [LinearOrder ι] (internalIds : InternalIds ι)
    (adds acks : Message → Prop) :
    Sourced (MongoStorage.calls internalIds) adds acks
      (fun docs => ∀ d ∈ docs.rows, Fieldwise adds acks d.key d.value) (Fieldwise adds acks) where
  insert := by
    intro now messages docs hadds hdocs
    change ∀ d ∈ (MongoStorage.insert internalIds now messages docs).2.rows, _
    obtain ⟨e, he⟩ | ⟨⟨n, hn⟩, -⟩ := MongoStorage.insert_cases internalIds now messages docs
    · rw [he]
      exact hdocs
    rw [hn]
    clear hn
    induction messages generalizing docs with
    | nil => exact hdocs
    | cons m ms ih =>
      obtain ⟨hm, hms⟩ := List.forall_mem_cons.mp hadds
      have hnew : Fieldwise adds acks m.key (MongoStorage.setOnInsert now m) :=
        ⟨.inl rfl, .inl rfl, .inl rfl, .inl rfl⟩
      exact ih hms (Table.forall_upsert hdocs (hnew.setFields hm) fun v hv => hv.setFields hm)
  ack := by
    intro message docs hack hdocs
    refine Table.forall_modify hdocs fun v hv => ?_
    exact ⟨hv.payload, hv.stringPayload, hv.metadata, .inr ⟨message, hack, rfl, rfl⟩⟩
  nack := by
    intro message docs hdocs
    refine Table.forall_modify hdocs fun v hv => ?_
    exact ⟨hv.payload, hv.stringPayload, hv.metadata, hv.breakpoint⟩
  remove := by
    intro queue ids docs hdocs d hd
    change d ∈ (MongoStorage.remove queue ids docs).2.rows at hd
    rw [MongoStorage.remove_snd, Table.mem_keep] at hd
    exact hdocs d hd.1
  find := by
    intro opt docs documents hdocs hfind d hd
    exact hdocs d (MongoStorage.mem_find hfind hd).1

end Mongo

/-! ## The memory storage -/

section Memory

/-- No two messages of the requests share a key of the map. -/
def Separate (adds acks : Message → Prop) : Prop :=
  ∀ a b, adds a ∨ acks a → adds b ∨ acks b →
    MemoryStorage.getKey a = MemoryStorage.getKey b → a.key = b.key

/-- A message of the map lies under its key and is whole. -/
def Kept (adds acks : Message → Prop) (key : String) (m : Message) : Prop :=
  MemoryStorage.getKey m = key ∧ Whole adds acks m.key m

/-- The message that lies under the key of another one is this one. -/
theorem Kept.key_eq (hseparate : Separate adds acks) {m message : Message}
    (h : Kept adds acks (MemoryStorage.getKey message) m) (hmessage : adds message ∨ acks message) :
    m.key = message.key := by
  obtain ⟨hkey, ⟨a, ha, hak, -⟩, -⟩ := h
  rw [← hak]
  refine hseparate a message (.inl ha) hmessage ?_
  rw [← hkey]
  exact congrArg (fun k : Key => k.1 ++ ":" ++ k.2) hak

theorem memory_sourced {ι : Type} [LinearOrder ι] (internalIds : InternalIds ι)
    (visit : MemoryStorage.Visit ι) (hseparate : Separate adds acks)
    (hadds : ∀ a, adds a → a.breakpoint = "") :
    Sourced (MemoryStorage.calls internalIds visit) adds acks
      (fun storage => ∀ d ∈ storage.docs.rows, Kept adds acks d.key d.value)
      (Whole adds acks) where
  insert := by
    intro now messages storage hmessages hdocs
    change ∀ d ∈ (MemoryStorage.insertFrom internalIds _ 0 (0, 0) messages storage).2.docs.rows, _
    generalize 0 = i, ((0, 0) : ℕ × ℕ) = n
    induction messages generalizing storage i n with
    | nil => exact hdocs
    | cons m ms ih =>
      obtain ⟨hm, hms⟩ := List.forall_mem_cons.mp hmessages
      unfold MemoryStorage.insertFrom
      split_ifs
      · exact hdocs
      · exact hdocs
      refine ih hms (Table.forall_upsert hdocs ?_ fun v hv => ?_) _ _
      · exact ⟨rfl, ⟨m, hm, rfl, rfl, rfl, rfl⟩, .inl (hadds m hm)⟩
      · have hkey := hv.key_eq hseparate (.inl hm)
        exact ⟨hv.1, ⟨m, hm, hkey.symm, rfl, rfl, rfl⟩, hv.2.breakpoint⟩
  ack := by
    intro message storage hack hdocs
    refine Table.forall_modify hdocs fun v hv => ?_
    have hkey := hv.key_eq hseparate (.inr hack)
    exact ⟨hv.1, hv.2.content, .inr ⟨message, hack, hkey.symm, rfl⟩⟩
  nack := by
    intro message storage hdocs
    refine Table.forall_modify hdocs fun v hv => ?_
    exact ⟨hv.1, hv.2.content, hv.2.breakpoint⟩
  remove := fun hdocs d hd => hdocs d (Table.mem_retain.mp hd).1
  find := by
    intro opt storage documents hdocs hfind d hd
    change (MemoryStorage.find internalIds opt visit.clock (visit.order storage.docs.rows)).map _ =
      _ at hfind
    cases hfound : MemoryStorage.find internalIds opt visit.clock
        (visit.order storage.docs.rows) with
    | error e =>
      rw [hfound] at hfind
      cases hfind
    | ok l =>
      rw [hfound] at hfind
      cases hfind
      obtain ⟨d', hd', rfl⟩ := List.mem_map.mp hd
      exact (hdocs d' ((visit.perm _).mem_iff.mp (MemoryStorage.mem_find hfound hd'))).2

end Memory

/-! ## Requests, recoveries and tasks -/

section System

variable {ι ε σ ρ : Type} {storage : StorageCalls ι σ} {cache : CacheCalls ρ}
  {queues : String → RedisCache.PoolType → ρ → Except CacheError (List String)}
  {configurations : Except StorageError (List QueueConfiguration)} {J : σ → Prop}
  {G : Key → Message → Prop}

/-- Commands that write nothing but what has been given. -/
def Gives (adds acks : Message → Prop) : Command → Prop
  | .storageInsert _ messages => ∀ m ∈ messages, adds m
  | .storageAck message => acks message
  | _ => True

theorem sourced_handle (hstorage : Sourced storage adds acks J G) (c : TaskCommand)
    (s : State (σ × ρ)) (hc : OnStores (Gives adds acks) c) (hs : J s.stores.1) :
    J (audited (Tasks.handle storage cache queues configurations) c s).2.stores.1 := by
  cases c with
  | call call =>
    cases call with
    | command c =>
      cases c with
      | storageInsert now messages => exact hstorage.insert hc hs
      | storageAck message => exact hstorage.ack hc hs
      | storageNack message => exact hstorage.nack hs
      | storageRemove queue ids => exact hstorage.remove hs
      | _ => exact hs
    | _ => exact hs
  | _ => exact hs

/-- The stores with the auditor, in states whose documents have what they have been given. -/
abbrev Returns (storage : StorageCalls ι σ) (cache : CacheCalls ρ)
    (queues : String → RedisCache.PoolType → ρ → Except CacheError (List String))
    (configurations : Except StorageError (List QueueConfiguration)) (J : σ → Prop) {α : Type}
    (post : Except ε α → Prop) (p : TaskProg ι ε α) : Prop :=
  Ends (audited (Tasks.handle storage cache queues configurations))
    (fun s : State (σ × ρ) => J s.stores.1) post p

/-- A message that has been read from a document. -/
def Read (G : Key → Message → Prop) (m : Message) : Prop :=
  ∃ d : Document ι, G d.key d.value ∧ m = d.message

theorem returns_getFromStorage (hstorage : Sourced storage adds acks J G) (ids : List String)
    (queue : String) (retry : Bool) :
    Returns storage cache queues configurations J
      (fun r => ∀ found, r = .ok found → ∀ m ∈ found.1, Read (ι := ι) G m)
      (lift (Queue.getFromStorage ids queue retry)) := by
  intro s hs
  cases hfound : storage.find (Queue.findOptions ids queue retry) s.stores.1 with
  | error e =>
    change Ends _ _ _ (lift (Queue.attempt _ (storage.find _ s.stores.1) >>= _))
    rw [hfound]
    exact fun _ hr => by cases hr
  | ok documents =>
    change Ends _ _ _ (lift (Queue.attempt _ (storage.find _ s.stores.1) >>= _))
    rw [hfound]
    rintro found ⟨⟩ m hm
    obtain ⟨d, hd, rfl⟩ := List.mem_map.mp hm
    exact ⟨d, hstorage.find hs hfound d hd, rfl⟩

theorem returns_pull (hstorage : Sourced storage adds acks J G) (clock : Clock) (queue : String)
    (n : Int64) (minScore maxScore : Option Float64) (ackDeadlineMs : Int64) :
    Returns storage cache queues configurations J
      (fun r => ∀ messages, r = .ok (some messages) → ∀ m ∈ messages, Read (ι := ι) G m)
      (Audited.pull clock queue n minScore maxScore ackDeadlineMs) := by
  refine (ends_true _).bind (fun answer _ => ?_) fun e _ messages h => by cases h
  refine (ends_true _).bind (fun ids _ => ?_) fun e _ messages h => by cases h
  split_ifs
  · rintro messages ⟨⟩
  refine (returns_getFromStorage hstorage ids queue false).bind ?_ fun e _ messages h => by cases h
  rintro ⟨messages, notFound⟩ hfound
  have hmessages := hfound _ rfl
  dsimp only
  split_ifs
  · rintro _ ⟨⟩
    exact hmessages
  refine (returns_getFromStorage hstorage notFound queue true).bind ?_ fun e _ messages h => by
    cases h
  rintro ⟨retryMessages, retryNotFound⟩ hretry
  have hretryMessages := hretry _ rfl
  refine (ends_true _).bind (fun _ _ => ?_) fun e _ messages h => by cases h
  refine (ends_true _).bind (fun _ _ all hall m hm => ?_) fun e _ messages h => by cases h
  rcases mem_merge (Except.ok.inj hall) hm with hm | hm
  · exact hmessages m hm
  · exact hretryMessages m hm

/-- The messages of a response have been read from documents. -/
def Handed (G : Key → Message → Prop) (r : Except ServiceError Response) : Prop :=
  ∀ messages, r = .ok (.pulled messages) →
    ∀ m ∈ messages, ∃ v, Read (ι := ι) G v ∧ m = Deckard.Service.responseMessage v

/-- A request whose response is of another kind. -/
theorem returns_other {α : Type} (p : TaskProg ι ServiceError α) {f : α → Response}
    (hf : ∀ a messages, f a ≠ .pulled messages) :
    Returns storage cache queues configurations J (Handed (ι := ι) G) (p >>= fun a => .ret (f a)) :=
  (ends_true p).bind (fun a _ messages h => absurd (Except.ok.inj h) (hf a messages))
    fun e _ messages h => by cases h

theorem returns_servicePull (hstorage : Sourced storage adds acks J G) (clock : Clock)
    (request : PullRequest) :
    Returns storage cache queues configurations J
      (fun r => ∀ messages, r = .ok messages →
        ∀ m ∈ messages, ∃ v, Read (ι := ι) G v ∧ m = Deckard.Service.responseMessage v)
      (Audited.Service.pull clock request) := by
  have hqueue : Returns storage cache queues configurations J
      (fun r : Except QueueError (List ResponseMessage) => ∀ messages, r = .ok messages →
        ∀ m ∈ messages, ∃ v, Read (ι := ι) G v ∧ m = Deckard.Service.responseMessage v)
      (do
        let messages ← Audited.pull (fun i => clock (i + 1)) request.queue
          (Deckard.Service.pullAmount request.amount) (Score.getPullMinScore request.minScore)
          (Score.getPullMaxScore (Deckard.Service.pullMaxScore (clock 0) request))
          request.ackDeadlineMs
        pure ((messages.getD []).map Deckard.Service.responseMessage)) := by
    refine (returns_pull hstorage _ _ _ _ _ _).bind ?_ fun e _ messages h => by cases h
    rintro found hfound messages ⟨⟩ m hm
    obtain ⟨v, hv, rfl⟩ := List.mem_map.mp hm
    cases found with
    | none => simp at hv
    | some all => exact ⟨v, hfound all rfl v hv, rfl⟩
  refine hqueue.mapError ?_ fun e _ messages h => by cases h
  rintro handed hhanded _ ⟨⟩
  exact hhanded handed rfl

theorem returns_program (hstorage : Sourced storage adds acks J G) (reason : String)
    (request : Request) :
    Returns storage cache queues configurations J (Handed (ι := ι) G)
      (Audited.program reason request) := by
  cases request with
  | pull clock request =>
    refine (returns_servicePull hstorage clock request).bind ?_ fun e _ messages h => by cases h
    rintro handed hhanded _ ⟨⟩
    exact hhanded handed rfl
  | _ => exact returns_other _ (by simp)

theorem returns_work [LinearOrder ι] (internalIds : InternalIds ι)
    (hstorage : Sourced storage adds acks J G) (work : Work) :
    Returns storage cache queues configurations J
      (fun r => ∀ response, r = .ok (some response) → Handed (ι := ι) G (.ok response))
      (work.program internalIds) := by
  cases work with
  | client request reason =>
    refine (returns_program hstorage reason request).bind ?_ fun e _ response h => by cases h
    rintro response hresponse _ ⟨⟩
    exact hresponse
  | recovery order =>
    exact (ends_true _).bind (fun a _ response h => by cases h) fun e _ response h => by cases h
  | task background =>
    exact (ends_true _).bind (fun a _ response h => by cases h) fun e _ response h => by cases h

end System

/-! ## What a run has been given -/

section Runs

variable {κ : Type} {ι : Type} [LinearOrder ι]

/-- The messages of the additions that a run has started. -/
def added (tr : List (Label κ Work × Option (Except ServiceError (Option Response)))) :
    List AddMessage :=
  tr.flatMap fun e =>
    match e.1 with
    | .start _ (.client (.add _ _ _ messages) _) => messages
    | _ => []

def acknowledged (tr : List (Label κ Work × Option (Except ServiceError (Option Response)))) :
    List AckRequest :=
  tr.flatMap fun e =>
    match e.1 with
    | .start _ (.client (.ack _ request) _) => [request]
    | _ => []

/-- Each field is empty or has been given to the message. -/
structure FieldsGiven (added : List AddMessage) (m : ResponseMessage) : Prop where
  payload : m.payload = none ∨
    ∃ a ∈ added, (a.queue, a.id) = (m.queue, m.id) ∧ a.payload = m.payload
  stringPayload : m.stringPayload = "" ∨
    ∃ a ∈ added, (a.queue, a.id) = (m.queue, m.id) ∧ a.stringPayload = m.stringPayload
  metadata : m.metadata = none ∨
    ∃ a ∈ added, (a.queue, a.id) = (m.queue, m.id) ∧ a.metadata = m.metadata

/-- All fields have been given to the message by one addition. -/
def WholeGiven (added : List AddMessage) (m : ResponseMessage) : Prop :=
  ∃ a ∈ added, (a.queue, a.id) = (m.queue, m.id) ∧ a.payload = m.payload ∧
    a.stringPayload = m.stringPayload ∧ a.metadata = m.metadata

def ContentGiven : StorageChoice ι → List AddMessage → ResponseMessage → Prop
  | .mongodb _ => FieldsGiven
  | .memory _ _ => WholeGiven

/-- The breakpoint is empty or that of an acknowledgement of the message. -/
def BreakpointGiven (acknowledged : List AckRequest) (m : ResponseMessage) : Prop :=
  m.breakpoint = "" ∨
    ∃ a ∈ acknowledged, (a.queue, a.id) = (m.queue, m.id) ∧ a.breakpoint = m.breakpoint

/-- The storage keeps the messages of the requests apart. -/
def Separates : StorageChoice ι → List Key → Prop
  | .mongodb _, _ => True
  | .memory _ _, keys => ∀ k ∈ keys, ∀ k' ∈ keys,
      k.1 ++ ":" ++ k.2 = k'.1 ++ ":" ++ k'.2 → k = k'

def Empty : (storage : StorageChoice ι) → storage.State → Prop
  | .mongodb _ => fun docs : MongoStorage.Documents ι => docs.rows = []
  | .memory _ _ => fun storage : MemoryStorage ι => storage.docs.rows = []

/-- The messages that additions insert. -/
def Adds (added : List AddMessage) (a : Message) : Prop :=
  ∃ m ∈ added, ∃ zone clock, a = Deckard.Service.addedMessage zone clock m

/-- The messages that acknowledgements write. -/
def Acks (acknowledged : List AckRequest) (a : Message) : Prop :=
  ∃ request ∈ acknowledged, ∃ clock, a = Deckard.Service.ackMessage clock request

theorem mem_addedMessages {zone : Zone} {clock : Clock} {ms : List AddMessage} {a : Message}
    (h : a ∈ Deckard.Service.addedMessages zone clock ms) :
    ∃ m ∈ ms, ∃ zone clock, a = Deckard.Service.addedMessage zone clock m := by
  induction ms generalizing clock with
  | nil => simp [Deckard.Service.addedMessages] at h
  | cons m ms ih =>
    rcases List.mem_cons.mp h with rfl | h
    · exact ⟨m, List.mem_cons_self, zone, clock, rfl⟩
    · obtain ⟨m', hm', zone', clock', rfl⟩ := ih h
      exact ⟨m', List.mem_cons_of_mem _ hm', zone', clock', rfl⟩

variable {tr : List (Label κ Work × Option (Except ServiceError (Option Response)))}

/-- The requests that a run has started write what the run has been given. -/
theorem Work.Issues.gives {e : Label κ Work × Option (Except ServiceError (Option Response))}
    (he : e ∈ tr) {i : κ} {work : Work} (hstart : e.1 = .start i work) {c : Command}
    {Found : Message → Prop} (hc : work.Issues Found c) :
    Gives (Adds (added tr)) (Acks (acknowledged tr)) c := by
  cases c with
  | storageInsert now messages =>
    cases work with
    | client request reason =>
      cases request with
      | add zone clock order ms =>
        obtain ⟨-, rfl⟩ : _ ∧ messages = Deckard.Service.addedMessages zone clock ms := by
          simpa [Work.Issues, Request.Issues] using hc
        intro a ha
        obtain ⟨m, hm, hadded⟩ := mem_addedMessages ha
        exact ⟨m, List.mem_flatMap.mpr ⟨e, he, by rwa [hstart]⟩, hadded⟩
      | _ => simp [Work.Issues, Request.Issues] at hc
    | _ => exact hc.elim
  | storageAck message =>
    cases work with
    | client request reason =>
      cases request with
      | ack clock request =>
        have hmessage : message = Deckard.Service.ackMessage clock request := by
          simpa [Work.Issues, Request.Issues] using hc
        refine ⟨request, List.mem_flatMap.mpr ⟨e, he, ?_⟩, clock, hmessage⟩
        rw [hstart]
        exact List.mem_singleton_self request
      | _ => simp [Work.Issues, Request.Issues] at hc
    | _ => exact hc.elim
  | _ => trivial

variable {L : List AddMessage} {L' : List AckRequest} {d : Document ι}

omit [LinearOrder ι] in
/-- A field of a document, as it is in the response. -/
theorem From.given {β : Type} {field : Message → β} {default value : β} {given : AddMessage → β}
    (h : From (Adds L) d.key field default value)
    (hfield : ∀ zone clock m, field (Deckard.Service.addedMessage zone clock m) = given m) :
    value = default ∨ ∃ a ∈ L, (a.queue, a.id) = (d.message.queue, d.message.id) ∧
      given a = value := by
  rcases h with h | ⟨_, ⟨m, hm, zone, clock, rfl⟩, hkey, rfl⟩
  · exact .inl h
  · exact .inr ⟨m, hm, hkey, (hfield zone clock m).symm⟩

omit [LinearOrder ι] in
theorem From.breakpointGiven (h : From (Acks L') d.key Message.breakpoint "" d.value.breakpoint) :
    BreakpointGiven L' (Deckard.Service.responseMessage d.message) := by
  rcases h with h | ⟨_, ⟨request, hrequest, clock, rfl⟩, hkey, hfield⟩
  · exact .inl h
  · exact .inr ⟨request, hrequest, hkey, hfield⟩

omit [LinearOrder ι] in
theorem Fieldwise.fieldsGiven (h : Fieldwise (Adds L) (Acks L') d.key d.value) :
    FieldsGiven L (Deckard.Service.responseMessage d.message) where
  payload := h.payload.given fun _ _ _ => rfl
  stringPayload := h.stringPayload.given fun _ _ _ => rfl
  metadata := h.metadata.given fun _ _ _ => rfl

omit [LinearOrder ι] in
theorem Whole.wholeGiven (h : Whole (Adds L) (Acks L') d.key d.value) :
    WholeGiven L (Deckard.Service.responseMessage d.message) := by
  obtain ⟨_, ⟨m, hm, zone, clock, rfl⟩, hkey, hpayload, hstring, hmetadata⟩ := h.content
  exact ⟨m, hm, hkey, hpayload, hstring, hmetadata⟩

/-- Keys that a memory storage keeps apart are those of separate messages. -/
theorem separate_of_keys {internalIds : InternalIds ι} {visit : MemoryStorage.Visit ι}
    (h : Separates (.memory internalIds visit)
      (L.map (fun a => (a.queue, a.id)) ++ L'.map fun a => (a.queue, a.id))) :
    Separate (Adds L) (Acks L') := by
  have hmem : ∀ a, Adds L a ∨ Acks L' a →
      a.key ∈ L.map (fun a => (a.queue, a.id)) ++ L'.map fun a => (a.queue, a.id) := by
    rintro a (⟨m, hm, zone, clock, rfl⟩ | ⟨request, hrequest, clock, rfl⟩)
    · exact List.mem_append_left _ (List.mem_map.mpr ⟨m, hm, rfl⟩)
    · exact List.mem_append_right _ (List.mem_map.mpr ⟨request, hrequest, rfl⟩)
  intro a b ha hb hkey
  exact h a.key (hmem a ha) b.key (hmem b hb) hkey

end Runs

/-- Over any cache, and however the requests of clients, recoveries and tasks interleave: what a
pull hands out as the content of a message was given to the service for this message before. -/
theorem content_given {ι κ ρ : Type} [LinearOrder ι] [DecidableEq κ]
    (internalIds : InternalIds ι) (storage : StorageChoice ι) (cache : CacheCalls ρ)
    (queues : String → RedisCache.PoolType → ρ → Except CacheError (List String))
    (configurations : Except StorageError (List QueueConfiguration))
    {s₀ s : Audited.System ι (storage.State × ρ) κ}
    {tr : List (Label κ Work × Option (Except ServiceError (Option Response)))}
    {l : Label κ Work} {messages : List ResponseMessage} (hidle : s₀.Idle)
    (hempty : Empty storage s₀.shared.stores.1)
    (hkeys : Separates storage ((added tr).map (fun a => (a.queue, a.id)) ++
      (acknowledged tr).map fun a => (a.queue, a.id)))
    (hrun : Run (interleaved
      (audited (Tasks.handle storage.calls cache queues configurations))
      (Work.program internalIds)) s₀ (tr ++ [(l, some (.ok (some (.pulled messages))))]) s) :
    ∀ m ∈ messages, ContentGiven storage (added tr) m ∧ BreakpointGiven (acknowledged tr) m := by
  have hprogram : ∀ work : Work, (∃ e ∈ tr, ∃ i, e.1 = .start i work) →
      All (OnStores (Gives (Adds (added tr)) (Acks (acknowledged tr))))
        (work.program internalIds) := by
    rintro work ⟨e, he, i, hstart⟩
    refine (work_onStores internalIds work).imp (OnStores.imp fun c hc => ?_)
    exact Work.Issues.gives he hstart hc
  have hhanded : ∀ {J : storage.State → Prop} {G : Key → Message → Prop},
      Sourced storage.calls (Adds (added tr)) (Acks (acknowledged tr)) J G →
      J s₀.shared.stores.1 → Handed (ι := ι) G (.ok (.pulled messages)) := by
    intro J G hsourced hJ
    refine interleaved_post (fun work => ∃ e ∈ tr, ∃ i, e.1 = .start i work)
      (sourced_handle hsourced) hprogram (fun work _ => returns_work internalIds hsourced work)
      hrun (fun e he i work hstart => ⟨e, he, i, hstart⟩) hidle hJ _ rfl
  intro m hm
  cases storage with
  | mongodb mongoIds =>
    have hJ : ∀ d ∈ (s₀.shared.stores.1 : MongoStorage.Documents ι).rows,
        Fieldwise (Adds (added tr)) (Acks (acknowledged tr)) d.key d.value := by
      rw [show (s₀.shared.stores.1 : MongoStorage.Documents ι).rows = [] from hempty]
      simp
    obtain ⟨_, ⟨d, hd, rfl⟩, rfl⟩ := hhanded (mongo_sourced mongoIds _ _) hJ messages rfl m hm
    exact ⟨hd.fieldsGiven, hd.breakpoint.breakpointGiven⟩
  | memory memoryIds visit =>
    have hbreakpoint : ∀ a, Adds (added tr) a → a.breakpoint = "" := by
      rintro _ ⟨m, -, zone, clock, rfl⟩
      rfl
    have hJ : ∀ d ∈ (s₀.shared.stores.1 : MemoryStorage ι).docs.rows,
        Kept (Adds (added tr)) (Acks (acknowledged tr)) d.key d.value := by
      rw [show (s₀.shared.stores.1 : MemoryStorage ι).docs.rows = [] from hempty]
      simp
    obtain ⟨_, ⟨d, hd, rfl⟩, rfl⟩ :=
      hhanded (memory_sourced memoryIds visit (separate_of_keys hkeys) hbreakpoint) hJ messages rfl
        m hm
    exact ⟨hd.wholeGiven, hd.breakpoint.breakpointGiven⟩

/-- The messages that an event hands out. -/
def handedOut : Option (Except ServiceError (Option Response)) → List ResponseMessage
  | some (.ok (some (.pulled messages))) => messages
  | _ => []

theorem eq_of_handedOut {r : Option (Except ServiceError (Option Response))}
    (h : handedOut r ≠ []) : r = some (.ok (some (.pulled (handedOut r)))) := by
  rcases r with _ | _ | _ | response
  · exact absurd rfl h
  · exact absurd rfl h
  · exact absurd rfl h
  · cases response with
    | pulled messages => rfl
    | _ => exact absurd rfl h

/-- Two clients add the same message, one with a payload and one with a text, and it is pulled. -/
def twoContents : List (Label Bool Work) :=
  [.start true (.client (.add .utc (fun _ => 0) .listed
      [{ id := "a", queue := "q", payload := some [("k", "v")], score := .ofInt 5 }]) ""),
    .start false (.client (.add .utc (fun _ => 0) .listed
      [{ id := "a", queue := "q", stringPayload := "t", score := .ofInt 5 }]) ""),
    .step true, .step false, .step false, .step true, .step false, .finish true, .finish false,
    .start true (.client (.pull (fun _ => 0) { queue := "q" }) ""), .step true,
    .step true]

/-- The calls of an instance with MongoDB and Redis. -/
def mongoCalls : (c : TaskCommand) → State (MongoStorage.Documents ℕ × Redis) →
    TaskAnswer ℕ c × State (MongoStorage.Documents ℕ × Redis) :=
  audited (Tasks.handle (StorageChoice.mongodb InternalIds.counter).calls (RedisCache.calls ⟨""⟩)
    (fun _ _ _ => .ok []) (.ok []))

theorem content_given_twoContents :
    ∃ tr, ∃ s : Audited.System ℕ (MongoStorage.Documents ℕ × Redis) Bool, ∃ m,
      Run (interleaved mongoCalls (Work.program InternalIds.counter))
        ⟨⟨(Table.empty 0, Redis.empty), fun _ => false, [], []⟩, fun _ => none⟩
        (tr ++ [(.finish true, some (.ok (some (.pulled [m]))))]) s ∧
      m.payload = some [("k", "v")] ∧ m.stringPayload = "t" ∧ FieldsGiven (added tr) m := by
  obtain ⟨⟨tr, u⟩, hfollow, hlast⟩ := (Option.any_eq_true _ _).mp
    (show ((follow mongoCalls (Work.program InternalIds.counter)
        ⟨⟨(Table.empty 0, Redis.empty), fun _ => false, [], []⟩, fun _ => none⟩ twoContents).any
        fun r => (advance mongoCalls (Work.program InternalIds.counter) r.2 (.finish true)).any
          fun q => (handedOut q.1).map (fun m => (m.payload, m.stringPayload)) =
            [(some [("k", "v")], "t")]) = true by decide +kernel)
  obtain ⟨⟨r, s⟩, hadvance, hr⟩ := (Option.any_eq_true _ _).mp hlast
  obtain ⟨m, hm, hfields⟩ := List.map_eq_singleton_iff.mp (of_decide_eq_true hr)
  have hresult := eq_of_handedOut (r := r) (by simp [hm])
  rw [hm] at hresult
  have hrun := run_append.mpr ⟨u, run_follow hfollow,
    .cons (show interleaved mongoCalls (Work.program InternalIds.counter) u (.finish true)
      (some (.ok (some (.pulled [m])))) s from hresult ▸ hadvance) (.nil s)⟩
  have hempty : Empty (.mongodb InternalIds.counter) (Table.empty 0 : MongoStorage.Documents ℕ) :=
    rfl
  have hgiven := content_given InternalIds.counter (.mongodb InternalIds.counter)
    (RedisCache.calls ⟨""⟩) (fun _ _ _ => .ok []) (.ok []) (fun _ => rfl) hempty trivial hrun m
    (List.mem_singleton_self m)
  exact ⟨tr, s, m, hrun, (Prod.ext_iff.mp hfields).1, (Prod.ext_iff.mp hfields).2, hgiven.1⟩

end Deckard.Provenance
