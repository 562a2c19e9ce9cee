import Deckard.Faults
import Deckard.Interference
import Deckard.RecoveryProgress

/-!
# Recoveries of several instances

Several instances recover one cache at the same time, among the requests of clients. They share
the keys of the recovery and nothing else: an instance that is late may move the cursor back, reset
the bound or write a cursor over the mark of a finished recovery, and calls of the stores may fail.
Whenever the cursor is at its end, the messages that stayed stored are in some pool. From every
state that is reached in this way the calls of one instance finish the recovery.
-/
namespace Deckard

open Binary64 Effect Cache Program Prog RedisCache Runs MongoStorage

variable {ι ε : Type}

/-- The answers of the calls that return an error. -/
def Command.failure : (c : Command) → StorageError × CacheError → Option (Answer ι c)
  | .storageInsert _ _, e => some (.error e.1)
  | .storageFind _, e => some (.error e.1)
  | .cache _, e => some (.error e.2)
  | .cacheGet _, e => some (.error e.2)
  | .cacheSet _ _, e => some (.error e.2)
  | .storageAck _, _ | .storageNack _, _ | .storageRemove _ _, _ => none

variable [LinearOrder ι]

/-- Fates of the calls to come. -/
abbrev Fates := ℕ → Fate (StorageError × CacheError)

/-- The stores answer, or a call fails. -/
def Stores.failing (stores : Stores ι) :
    (c : Command) → World ι × Fates → Answer ι c × World ι × Fates :=
  Program.failing stores.handle Command.failure

variable {stores : Stores ι} {K : Set Key} {w w' w'' : World ι}

theorem find_page (internalIds : InternalIds ι) (docs : Documents ι) (cursor bound : Option ι) :
    find internalIds
        (Queue.page (cursorText internalIds cursor) (cursorText internalIds bound)) docs =
      .ok ((within docs cursor bound).take Queue.pageSize) :=
  find_within internalIds docs cursor bound (by decide)

/-! ## The keys of the recovery -/

/-- The messages of `K` are in some pool. -/
def Recovered (stores : Stores ι) (K : Set Key) (w : World ι) : Prop :=
  ∀ k ∈ K, stores.cache.InPools w.redis k.1 k.2

/-- The messages of `K` up to a cursor are in some pool. -/
def Passed (stores : Stores ι) (K : Set Key) (w : World ι) (cursor : Option ι) : Prop :=
  ∀ k ∈ K, ∀ i c, w.docs.serial k = some i → cursor = some c → i ≤ c →
    stores.cache.InPools w.redis k.1 k.2

/-- No message of `K` is above a bound. -/
def Bounds (K : Set Key) (w : World ι) (bound : Option ι) : Prop :=
  ∀ k ∈ K, ∀ i b, w.docs.serial k = some i → bound = some b → i ≤ b

/-- What the keys of the recovery hold, whichever instances have written them. -/
structure Sound (stores : Stores ι) (K : Set Key) (w : World ι) : Prop where
  wellFormed : WellFormed stores w
  stored : ∀ k ∈ K, Stored w.docs k
  cursor : stores.read w recoveryStorageBreakpointKey = recoveryFinished ∧ Recovered stores K w ∨
    ∃ c, stores.read w recoveryStorageBreakpointKey = cursorText stores.internalIds c ∧
      Passed stores K w c
  bound : ∃ b, stores.read w recoveryBreakpointKey = cursorText stores.internalIds b ∧ Bounds K w b

/-- What clients and other instances may do between two calls of an instance. -/
structure Concurs (stores : Stores ι) (K : Set Key) (w w' : World ι) : Prop where
  sound : Sound stores K w → Sound stores K w'
  serial : ∀ k ∈ K, w'.docs.serial k = w.docs.serial k
  inPools : ∀ k ∈ K, stores.cache.InPools w.redis k.1 k.2 →
    stores.cache.InPools w'.redis k.1 k.2

theorem Concurs.refl (w : World ι) : Concurs stores K w w :=
  ⟨fun h => h, fun _ _ => rfl, fun _ _ h => h⟩

theorem Concurs.trans (h : Concurs stores K w w') (h' : Concurs stores K w' w'') :
    Concurs stores K w w'' where
  sound hw := h'.sound (h.sound hw)
  serial k hk := (h'.serial k hk).trans (h.serial k hk)
  inPools k hk hp := h'.inPools k hk (h.inPools k hk hp)

theorem Recovered.passed (h : Recovered stores K w) (cursor : Option ι) :
    Passed stores K w cursor :=
  fun k hk _ _ _ _ _ => h k hk

section Stable

variable (hpools : ∀ k ∈ K, stores.cache.InPools w.redis k.1 k.2 →
    stores.cache.InPools w'.redis k.1 k.2)
  (hserial : ∀ k ∈ K, w'.docs.serial k = w.docs.serial k)

include hpools in
theorem Recovered.stable (h : Recovered stores K w) : Recovered stores K w' :=
  fun k hk => hpools k hk (h k hk)

include hpools hserial in
theorem Passed.stable {cursor : Option ι} (h : Passed stores K w cursor) :
    Passed stores K w' cursor := by
  intro k hk i c hi hc hle
  rw [hserial k hk] at hi
  exact hpools k hk (h k hk i c hi hc hle)

include hserial in
theorem Bounds.stable {bound : Option ι} (h : Bounds K w bound) : Bounds K w' bound := by
  intro k hk i b hi hb
  rw [hserial k hk] at hi
  exact h k hk i b hi hb

include hpools hserial in
/-- Clients do not touch the keys of the recovery. -/
theorem concurs_of_str (hwf : WellFormed stores w → WellFormed stores w')
    (hstr : w'.redis.str = w.redis.str) : Concurs stores K w w' := by
  refine ⟨fun h => ⟨hwf h.wellFormed, fun k hk => ?_, ?_, ?_⟩, hserial, hpools⟩
  · rw [stored_iff_serial, hserial k hk, ← stored_iff_serial]
    exact h.stored k hk
  · rw [read_congr hstr]
    rcases h.cursor with ⟨hread, hall⟩ | ⟨c, hread, hpassed⟩
    · exact .inl ⟨hread, hall.stable hpools⟩
    · exact .inr ⟨c, hread, hpassed.stable hpools hserial⟩
  · obtain ⟨b, hread, hbounds⟩ := h.bound
    rw [read_congr hstr]
    exact ⟨b, hread, hbounds.stable hserial⟩

end Stable

/-! ## SoundWrite -/

/-- The values under the keys of the recovery that an instance may write. -/
def SoundWrite (stores : Stores ι) (K : Set Key) (w : World ι) (key value : String) : Prop :=
  (key = recoveryStorageBreakpointKey → value = recoveryFinished ∧ Recovered stores K w ∨
    ∃ c, value = cursorText stores.internalIds c ∧ Passed stores K w c) ∧
  (key = recoveryBreakpointKey →
    ∃ b, value = cursorText stores.internalIds b ∧ Bounds K w b)

theorem writes_running (value : String) : SoundWrite stores K w recoveryRunning value :=
  ⟨fun h => absurd h (by decide), fun h => absurd h (by decide)⟩

theorem writes_finished (h : Recovered stores K w) :
    SoundWrite stores K w recoveryStorageBreakpointKey recoveryFinished :=
  ⟨fun _ => .inl ⟨rfl, h⟩, fun h => absurd h (by decide)⟩

theorem writes_cursor {cursor : Option ι} (h : Passed stores K w cursor) :
    SoundWrite stores K w recoveryStorageBreakpointKey (cursorText stores.internalIds cursor) :=
  ⟨fun _ => .inr ⟨cursor, rfl, h⟩, fun h => absurd h (by decide)⟩

theorem writes_bound {bound : Option ι} (h : Bounds K w bound) :
    SoundWrite stores K w recoveryBreakpointKey (cursorText stores.internalIds bound) :=
  ⟨fun h => absurd h (by decide), fun _ => ⟨bound, rfl, h⟩⟩

theorem Sound.write (h : Sound stores K w) {key value : String}
    (hwrites : SoundWrite stores K w key value) : Sound stores K (stores.write w key value) := by
  refine ⟨⟨h.wellFormed.represents, h.wellFormed.accepted⟩, h.stored, ?_, ?_⟩
  · rw [read_write]
    split_ifs with hkey
    · exact hwrites.1 hkey.symm
    · exact h.cursor
  · rw [read_write]
    split_ifs with hkey
    · exact hwrites.2 hkey.symm
    · exact h.bound

theorem concurs_write {key value : String} (hwrites : SoundWrite stores K w key value) :
    Concurs stores K w (stores.write w key value) :=
  ⟨fun h => h.write hwrites, fun _ _ => rfl, fun _ _ h => h⟩

theorem concurs_insert (hw : WellFormed stores w) (queue : String) (messages : List Message) :
    Concurs stores K w (stores.handle (.cache (.insert queue messages)) w).2 := by
  have hins := interferes_insert (K := K) hw queue messages
  exact concurs_of_str hins.inPools hins.serial hins.wellFormed hins.str

/-! ## Calls of an instance -/

/-- The keys are sound after every command, whatever the others do. -/
def concurrence (stores : Stores ι) (K : Set Key) : Interference Command (World ι × Fates) where
  rely u v := Concurs stores K u.1 v.1
  given _ _ := True
  during u := Sound stores K u.1

/-- An instance keeps the keys sound. -/
abbrev Minds (stores : Stores ι) (K : Set Key) {α : Type} (p : Prog Command (Answer ι) ε α)
    (w : World ι) : Prop :=
  ∀ fates, Under stores.failing (concurrence stores K) (fun _ u => Sound stores K u.1) p (w, fates)

section Rules

variable {α β : Type}

/-- A command among those of the others, with or without an answer. -/
theorem under_failing_call {post : Except ε α → World ι × Fates → Prop} {c : Command}
    {next : Answer ι c → Prog Command (Answer ι) ε α}
    (h : ∀ t, Concurs stores K w t → ∀ r t', Faulty stores.handle Command.failure c t r t' →
      Sound stores K t' ∧
        ∀ later, Under stores.failing (concurrence stores K) post (next r) (t', later))
    (fates : Fates) :
    Under stores.failing (concurrence stores K) post (.call c next) (w, fates) := by
  intro t hwt _
  obtain ⟨hsound, hnext⟩ := h t.1 hwt _ _ (faulty_failing stores.handle Command.failure c t)
  exact ⟨hsound, hnext _⟩

/-- A key that is read is sound at some moment. -/
theorem minds_cacheGet {key : String}
    {f : Except CacheError String → Prog Command (Answer ι) ε α} (hw : Sound stores K w)
    (hok : ∀ t, Concurs stores K w t → Minds stores K (f (.ok (stores.read t key))) t)
    (herror : ∀ e t, Concurs stores K w t → Minds stores K (f (.error e)) t) :
    Minds stores K (Queue.cacheGet key >>= f) w := by
  refine under_failing_call fun t hwt r t' hfaulty => ?_
  have ht := hwt.sound hw
  cases hfaulty with
  | answered => exact ⟨ht, hok t hwt⟩
  | refused e hr =>
    cases hr
    exact ⟨ht, herror _ _ hwt⟩
  | unanswered e hr =>
    cases hr
    exact ⟨ht, herror _ _ hwt⟩

/-- Whether or not the write takes place, the program goes on. -/
theorem minds_cacheSet {key value : String}
    {f : Except CacheError Unit → Prog Command (Answer ι) ε α} (hw : Sound stores K w)
    (hwrites : ∀ t, Concurs stores K w t → SoundWrite stores K t key value)
    (hnext : ∀ r t, Concurs stores K w t → Minds stores K (f r) t) :
    Minds stores K (Queue.cacheSet key value >>= f) w := by
  refine under_failing_call fun t hwt r t' hfaulty => ?_
  have hset := concurs_write (hwrites t hwt)
  cases hfaulty with
  | answered => exact ⟨hset.sound (hwt.sound hw), hnext _ _ (hwt.trans hset)⟩
  | refused e hr => exact ⟨hwt.sound hw, hnext _ _ hwt⟩
  | unanswered e hr => exact ⟨hset.sound (hwt.sound hw), hnext _ _ (hwt.trans hset)⟩

theorem minds_storageFind {opt : FindOptions}
    {f : Except StorageError (List (Document ι)) → Prog Command (Answer ι) ε α}
    (hw : Sound stores K w)
    (hok : ∀ t, Concurs stores K w t →
      Minds stores K (f (find stores.internalIds opt t.docs)) t)
    (herror : ∀ e t, Concurs stores K w t → Minds stores K (f (.error e)) t) :
    Minds stores K (Queue.storageFind opt >>= f) w := by
  refine under_failing_call fun t hwt r t' hfaulty => ?_
  have ht := hwt.sound hw
  cases hfaulty with
  | answered => exact ⟨ht, hok t hwt⟩
  | refused e hr =>
    cases hr
    exact ⟨ht, herror _ _ hwt⟩
  | unanswered e hr =>
    cases hr
    exact ⟨ht, herror _ _ hwt⟩

end Rules

/-! ## Pages -/

/-- A full page ends below an internal id. -/
def Beyond (documents : List (Document ι)) (i : ι) : Prop :=
  Queue.pageSize ≤ documents.length ∧ ∀ d, documents.getLast? = some d → d.serial < i

/-- Every message of `K` is in some pool, in the page or beyond it. -/
def Covered (stores : Stores ι) (K : Set Key) (w : World ι) (documents : List (Document ι)) :
    Prop :=
  ∀ k ∈ K, ∀ i, w.docs.serial k = some i → stores.cache.InPools w.redis k.1 k.2 ∨
    Beyond documents i ∨ ∃ d ∈ documents, d.key = k

/-- Every message of `K` is in some pool or beyond the page. -/
def PageInserted (stores : Stores ι) (K : Set Key) (w : World ι) (documents : List (Document ι)) :
    Prop :=
  ∀ k ∈ K, ∀ i, w.docs.serial k = some i → stores.cache.InPools w.redis k.1 k.2 ∨
    Beyond documents i

theorem Covered.stable {documents : List (Document ι)} (h : Covered stores K w documents)
    (hw : Concurs stores K w w') : Covered stores K w' documents := by
  intro k hk i hi
  rw [hw.serial k hk] at hi
  exact (h k hk i hi).imp_left (hw.inPools k hk)

theorem PageInserted.stable {documents : List (Document ι)} (h : PageInserted stores K w documents)
    (hw : Concurs stores K w w') : PageInserted stores K w' documents := by
  intro k hk i hi
  rw [hw.serial k hk] at hi
  exact (h k hk i hi).imp_left (hw.inPools k hk)

theorem Sound.exists_serial (h : Sound stores K w) {k : Key} (hk : k ∈ K) :
    ∃ i, w.docs.serial k = some i :=
  Option.isSome_iff_exists.mp (stored_iff_serial.mp (h.stored k hk))

theorem PageInserted.passed {documents : List (Document ι)} (h : PageInserted stores K w documents)
    {d : Document ι} (hd : documents.getLast? = some d) : Passed stores K w (some d.serial) := by
  intro k hk i c hi hc hle
  cases hc
  refine (h k hk i hi).resolve_right fun hbeyond => ?_
  exact absurd hle (not_le.mpr (hbeyond.2 d hd))

/-- A page that is not full is the last one. -/
theorem PageInserted.recovered {documents : List (Document ι)}
    (h : PageInserted stores K w documents) (hw : Sound stores K w)
    (hfound : documents.length < Queue.pageSize) : Recovered stores K w := by
  intro k hk
  obtain ⟨i, hi⟩ := hw.exists_serial hk
  refine (h k hk i hi).resolve_right fun hbeyond => ?_
  exact absurd hbeyond.1 (not_le.mpr hfound)

/-- A page covers what is above its cursor. -/
theorem covered_page {cursor bound : Option ι} (hcursor : Passed stores K w cursor)
    (hbound : Bounds K w bound) :
    Covered stores K w ((within w.docs cursor bound).take Queue.pageSize) := by
  intro k hk i hi
  by_cases hpassed : ∃ c, cursor = some c ∧ i ≤ c
  · obtain ⟨c, hc, hle⟩ := hpassed
    exact .inl (hcursor k hk i c hi hc hle)
  obtain ⟨d, hd, rfl⟩ := Option.map_eq_some_iff.mp hi
  obtain ⟨hrow, hkey⟩ := Table.get_eq_some.mp hd
  have hmem : d ∈ within w.docs cursor bound := by
    refine mem_within.mpr ⟨hrow, fun c hc => ?_, fun b hb => hbound k hk _ b hi hb⟩
    by_contra hlt
    exact hpassed ⟨c, hc, not_lt.mp hlt⟩
  have hsorted : (within w.docs cursor bound).Pairwise fun a b => a.serial < b.serial :=
    w.docs.sorted.filter _
  rw [← List.take_append_drop Queue.pageSize (within w.docs cursor bound)] at hmem hsorted
  rcases List.mem_append.mp hmem with htake | hdrop
  · exact .inr (.inr ⟨d, htake, hkey⟩)
  · have hlong := List.length_pos_of_mem hdrop
    rw [List.length_drop] at hlong
    refine .inr (.inl ⟨?_, fun last hlast => ?_⟩)
    · rw [List.length_take]
      omega
    · exact (List.pairwise_append.mp hsorted).2.2 last (List.mem_of_getLast? hlast) d hdrop

/-! ## The functions of an instance -/

theorem handle_insert_ok {queue : String} {messages : List Message} {l : List String}
    (hs : ∃ P, stores.cache.Represents w.redis P)
    (h : (stores.handle (.cache (.insert queue messages)) w).1 = .ok l) {m : Message}
    (hm : m ∈ messages) : stores.cache.InPools
      (stores.handle (.cache (.insert queue messages)) w).2.redis queue m.id := by
  obtain ⟨P, hs⟩ := hs
  obtain ⟨P', ht, -, hmoves⟩ := handle_cache hs
    (show (Op.insert queue messages).AmountOk from trivial)
  rw [h] at hmoves
  cases hmoves with
  | inserted _ _ hall => exact ht.inPools.mpr (hall m hm)

/-- If every queue has been inserted, the messages of `K` among them are in some pool. -/
theorem under_failing_addQueues {messages : List Message} {queues : List String}
    (hw : Sound stores K w) (fates : Fates) :
    Under stores.failing (concurrence stores K)
      (fun r u => Concurs stores K w u.1 ∧ ∀ n, r = .ok n → ∀ m ∈ messages, m.queue ∈ queues →
        m.key ∈ K → stores.cache.InPools u.1.redis m.queue m.id)
      (Queue.addQueues messages queues : Queue.QueueProg ι ℕ) (w, fates) := by
  induction queues generalizing w fates with
  | nil => exact ⟨Concurs.refl w, by simp⟩
  | cons queue queues ih =>
    refine under_failing_call (fun t hwt r t' hfaulty => ?_) fates
    have ht := hwt.sound hw
    have htt' : Concurs stores K t t' := by
      rcases hfaulty.state with rfl | rfl
      · exact Concurs.refl _
      · exact concurs_insert ht.wellFormed queue _
    refine ⟨(hwt.trans htt').sound hw, fun later => ?_⟩
    cases r with
    | error e => exact ⟨hwt.trans htt', by simp⟩
    | ok l =>
      obtain ⟨hanswer, rfl⟩ := hfaulty.eq_handle (by simp [Command.failure])
      have hall : ∀ m ∈ messages, m.queue = queue → stores.cache.InPools (stores.handle
          (.cache (.insert queue (messages.filter fun m => m.queue = queue))) t).2.redis queue
            m.id := by
        intro m hm hqueue
        refine handle_insert_ok ht.wellFormed.represents hanswer (List.mem_filter.mpr ⟨hm, ?_⟩)
        simpa using hqueue
      refine (ih ((hwt.trans htt').sound hw) later).bind (fun n u hu => ?_) fun e u hu => ?_
      · refine ⟨(hwt.trans htt').trans hu.1, fun _ _ m hm hqueue hk => ?_⟩
        rcases List.mem_cons.mp hqueue with hq | hq
        · rw [hq]
          have hpool := hu.1.inPools m.key hk
          rw [Message.key, hq] at hpool
          exact hpool (hall m hm hq)
        · exact hu.2 n rfl m hm hq hk
      · exact ⟨(hwt.trans htt').trans hu.1, by simp⟩

section Programs

variable {α : Type}

theorem minds_ret (hw : Sound stores K w) (a : α) :
    Minds stores K (.ret a : Prog Command (Answer ι) ε α) w :=
  fun _ => hw

theorem minds_endPage {found : ℕ} (hw : Sound stores K w)
    (hall : found < Queue.pageSize → Recovered stores K w) :
    Minds stores K (Queue.endPage found : Prog Command (Answer ι) ε Bool) w := by
  unfold Queue.endPage
  split_ifs with hfound
  · refine minds_cacheSet hw (fun t _ => writes_running _) fun _ t hwt => ?_
    refine minds_cacheSet (hwt.sound hw) (fun u htu => writes_finished ?_) fun _ u htu => ?_
    · exact (hall hfound).stable (hwt.trans htu).inPools
    · exact minds_ret ((hwt.trans htu).sound hw) _
  · exact minds_ret hw _

theorem minds_insertPage (order : MapOrder) {documents : List (Document ι)}
    (hw : Sound stores K w) (hcovered : Covered stores K w documents) :
    Minds stores K (Queue.insertPage stores.internalIds order documents :
      Prog Command (Answer ι) ε Bool) w := by
  unfold Queue.insertPage
  cases hlast : documents.getLast? with
  | none =>
    rw [List.getLast?_eq_none_iff] at hlast
    subst hlast
    have hinserted : PageInserted stores K w [] := by
      intro k hk i hi
      simpa using hcovered k hk i hi
    exact minds_endPage hw (hinserted.recovered hw)
  | some d =>
    intro fates
    refine (under_failing_addQueues hw fates).capture_bind fun r u hu => ?_
    obtain ⟨hwu, hpools⟩ := hu
    have hu := hwu.sound hw
    cases r with
    | error e => exact hu
    | ok n =>
      have hinserted : PageInserted stores K u.1 documents := by
        intro k hk i hi
        rcases hcovered.stable hwu k hk i hi with hpool | hbeyond | ⟨x, hx, rfl⟩
        · exact .inl hpool
        · exact .inr hbeyond
        · have hm : Queue.capScore x.message ∈ documents.map fun d => Queue.capScore d.message :=
            List.mem_map_of_mem hx
          exact .inl (hpools n rfl _ hm (mem_visit_queueNames.mpr ⟨_, hm, rfl⟩) hk)
      refine minds_cacheSet hu (fun t hut => ?_) (fun _ t hut => ?_) u.2
      · exact writes_cursor ((hinserted.stable hut).passed hlast)
      · exact minds_endPage (hut.sound hu) ((hinserted.stable hut).recovered (hut.sound hu))

theorem minds_recoverPage (order : MapOrder) {cursor : Option ι} (hw : Sound stores K w)
    (hcursor : Passed stores K w cursor) :
    Minds stores K (Queue.recoverPage stores.internalIds order
      (cursorText stores.internalIds cursor) : Prog Command (Answer ι) ε Bool) w := by
  refine minds_cacheGet hw (fun t hwt => ?_) fun _ t hwt => minds_ret (hwt.sound hw) _
  have ht := hwt.sound hw
  obtain ⟨bound, hread, hbound⟩ := ht.bound
  rw [hread]
  refine minds_storageFind ht (fun u htu => ?_) fun _ u htu => minds_ret (htu.sound ht) _
  rw [find_page]
  refine minds_insertPage order (htu.sound ht) (covered_page ?_ (hbound.stable htu.serial))
  exact hcursor.stable (hwt.trans htu).inPools (hwt.trans htu).serial

/-- No message is above the last document. -/
theorem bounds_last {d : Document ι} (h : ∀ d' ∈ w.docs.rows, d'.serial ≤ d.serial) :
    Bounds K w (some d.serial) := by
  intro k hk i b hi hb
  cases hb
  obtain ⟨d', hd', rfl⟩ := Option.map_eq_some_iff.mp hi
  exact h d' (Table.get_eq_some.mp hd').1

theorem minds_tryToStartRecovery {f : Bool → Prog Command (Answer ι) ε α} (hw : Sound stores K w)
    (hnext : ∀ started t, Concurs stores K w t → Minds stores K (f started) t) :
    Minds stores K (Queue.tryToStartRecovery stores.internalIds >>= f) w := by
  refine minds_cacheSet hw (fun t _ => writes_running _) fun r t hwt => ?_
  cases r with
  | error e => exact hnext false t hwt
  | ok _ =>
    have ht := hwt.sound hw
    refine minds_storageFind ht (fun u htu => ?_) fun e u htu => ?_
    · have hu := htu.sound ht
      rcases find_last stores.internalIds u.docs with ⟨hnil, hfind⟩ | ⟨d, hd, hlast, hfind⟩
      · have hfind : find stores.internalIds Queue.lastDocument u.docs = .ok [] := hfind
        rw [hfind]
        have hnone : ∀ v, Recovered stores K v := by
          intro v k hk
          have hstored := hu.stored k hk
          rw [Stored, Table.get, hnil] at hstored
          cases hstored
        refine minds_cacheSet hu (fun v _ => writes_finished (hnone v)) fun _ v huv => ?_
        refine minds_cacheSet (huv.sound hu) (fun _ _ => writes_running _) fun _ x hvx => ?_
        exact hnext false x (((hwt.trans htu).trans huv).trans hvx)
      · have hfind : find stores.internalIds Queue.lastDocument u.docs = .ok [d] := hfind
        rw [hfind]
        refine minds_cacheSet hu (fun v huv => ?_) fun _ v huv => ?_
        · exact writes_bound ((bounds_last hlast).stable huv.serial)
        · exact hnext true v ((hwt.trans htu).trans huv)
    · exact hnext false u (hwt.trans htu)

theorem minds_recoveryMessagesPool (order : MapOrder) (hw : Sound stores K w) :
    Minds stores K (Queue.recoveryMessagesPool stores.internalIds order :
      Prog Command (Answer ι) ε Bool) w := by
  refine minds_cacheGet hw (fun t hwt => ?_) fun _ t hwt => minds_ret (hwt.sound hw) _
  have ht := hwt.sound hw
  dsimp only
  split_ifs with hfinished
  · exact minds_ret ht _
  · rcases ht.cursor with ⟨hread, -⟩ | ⟨cursor, hread, hcursor⟩
    · exact absurd hread hfinished
    · rw [hread]
      -- the page is the same whether or not this call starts the recovery
      have hpage : ∀ u, Concurs stores K t u → Minds stores K (Queue.recoverPage stores.internalIds
          order (cursorText stores.internalIds cursor) : Prog Command (Answer ι) ε Bool) u :=
        fun u htu => minds_recoverPage order (htu.sound ht)
          (hcursor.stable htu.inPools htu.serial)
      refine minds_cacheGet ht (fun u htu => ?_) fun _ u htu => minds_ret (htu.sound ht) _
      simp only [pure_eq, Except.map]
      change Minds stores K (if _ then _ else _) u
      split_ifs with hstart
      · refine minds_tryToStartRecovery (htu.sound ht) fun started v huv => ?_
        split_ifs
        · exact hpage v (htu.trans huv)
        · exact minds_ret ((htu.trans huv).sound ht) _
      · exact hpage u htu

end Programs

/-! ## Clients and instances -/

omit [LinearOrder ι] in
/-- A failure shows nothing about the storage. -/
theorem not_missing_failure {c : Command} {e : StorageError × CacheError} {r : Answer ι c}
    (h : Command.failure c e = some r) (k : Key) : ¬ Missing c r k := by
  cases c with
  | storageRemove queue ids => cases h
  | storageFind opt =>
    cases h
    exact not_false
  | _ => exact not_false

/-- Nobody begins to delete what is stored. -/
theorem not_removing_next {α : Type} {c : Command}
    {next : Answer ι c → Prog Command (Answer ι) ε α} {r : Answer ι c}
    (horderly : Orderly (.call c next)) (hc : Careful c)
    (hfaulty : Faulty stores.handle Command.failure c w r w') {k : Key}
    (hstored : Stored w'.docs k) : ¬ Removing k (next r) := by
  intro hremoving
  have hmissing := (horderly r).2.1 k hremoving
  cases hfaulty with
  | answered => exact hstored.not_missing hc hmissing
  | refused e h => exact not_missing_failure h k hmissing
  | unanswered e h => exact not_missing_failure h k hmissing

theorem concurs_client {α : Type} {c : Command} {next : Answer ι c → Prog Command (Answer ι) ε α}
    {r : Answer ι c} (hc : Acceptable c) (hw : WellFormed stores w)
    (hfaulty : Faulty stores.handle Command.failure c w r w')
    (hstored : ∀ k ∈ K, Stored w.docs k ∧ Stored w'.docs k)
    (hspared : ∀ k ∈ K, ¬ Removing k (.call c next)) : Concurs stores K w w' := by
  rcases hfaulty.state with rfl | rfl
  · exact Concurs.refl _
  · have hins : Interferes stores K w (stores.handle c w).2 := by
      refine interferes_client hc hw hstored fun k hk hp => ?_
      refine handle_inPools hc.careful hw.represents hp fun ids hremove hid => ?_
      subst hremove
      exact hspared k hk ⟨rfl, hid⟩
    exact concurs_of_str hins.inPools hins.serial hins.wellFormed hins.str

theorem concurs_restores {c : Command} {r : Answer ι c} (hc : Restores c)
    (hw : WellFormed stores w) (hfaulty : Faulty stores.handle Command.failure c w r w')
    (hsound : Sound stores K w') : Concurs stores K w w' := by
  refine ⟨fun _ => hsound, fun k _ => ?_, fun k _ hp => ?_⟩
  · rcases hfaulty.state with rfl | rfl
    · rfl
    · rw [hc.docs]
  · rcases hfaulty.state with rfl | rfl
    · exact hp
    · refine handle_inPools hc.careful hw.represents hp fun ids hremove => ?_
      subst hremove
      exact hc.elim

variable {κ : Type} [DecidableEq κ]

/-- Two stores whose calls may fail, and threads that serve clients or recover the cache. -/
abbrev InstancesSystem (ι κ : Type) [LinearOrder ι] :=
  Threads (World ι × Fates) κ Command (Answer ι) ServiceError (Response ⊕ Bool)

def Stores.instances (stores : Stores ι) (κ : Type) [DecidableEq κ] :
    Machine (InstancesSystem ι κ) (Label κ Task) (Option (Except ServiceError (Response ⊕ Bool))) :=
  interleaved stores.failing (Task.program stores.internalIds)

/-- Clients send acceptable requests. Recoveries may start at any time. -/
def Requested : Label κ Task → Prop
  | .start _ (.client request) => request.Acceptable
  | _ => True

/-- A thread serves a client or recovers the cache, and deletes no message of `K`. -/
structure Tends (stores : Stores ι) (K : Set Key) (u : World ι × Fates)
    (p : Prog Command (Answer ι) ServiceError (Response ⊕ Bool)) : Prop where
  orderly : Orderly p
  spared : ∀ k ∈ K, ¬ Removing k p
  works : All Acceptable p ∨ All Restores p ∧
    Under stores.failing (concurrence stores K) (fun _ u => Sound stores K u.1) p u

/-- The keys of the recovery are sound, and every thread keeps them so. -/
structure Safeguarded (stores : Stores ι) (K : Set Key) (s : InstancesSystem ι κ) : Prop where
  sound : Sound stores K s.shared.1
  tends : ∀ i p, s.thread i = some p → Tends stores K s.shared p

section Events

variable {s : InstancesSystem ι κ}

theorem tends_client {u : World ι × Fates} {request : Request} (hok : request.Acceptable) :
    Tends stores K u ((Task.client request).program stores.internalIds) where
  orderly := (orderly_program request).bind_ret _
  spared _ _ hremoving := not_removing_program request (removing_bind_ret hremoving)
  works := .inl (all_bind (acceptable_program hok) fun _ => trivial)

theorem tends_recovery {u : World ι × Fates} (hu : Sound stores K u.1) (order : MapOrder) :
    Tends stores K u ((Task.recovery order).program stores.internalIds) := by
  have hrestores : All Restores ((Task.recovery order).program stores.internalIds) :=
    all_bind (restores_recoveryMessagesPool stores.internalIds order) fun _ => trivial
  refine ⟨orderly_of_restores hrestores, fun k _ => not_removing_of_restores hrestores,
    .inr ⟨hrestores, ?_⟩⟩
  exact (minds_recoveryMessagesPool order hu u.2).bind (fun _ _ h => h) fun _ _ h => h

/-- The others go on as before. -/
theorem Tends.concurs {u v : World ι × Fates}
    {p : Prog Command (Answer ι) ServiceError (Response ⊕ Bool)} (h : Tends stores K u p)
    (huv : Concurs stores K u.1 v.1) : Tends stores K v p := by
  refine ⟨h.orderly, h.spared, h.works.imp_right fun ⟨hrestores, hunder⟩ => ⟨hrestores, ?_⟩⟩
  exact hunder.interfere (fun _ _ _ => Concurs.trans) (fun _ _ _ hs hst => Concurs.sound hst hs) huv

/-- What a command of a thread does to the keys and what the thread does next. -/
theorem Tends.step {u : World ι × Fates} {c : Command}
    {next : Answer ι c → Prog Command (Answer ι) ServiceError (Response ⊕ Bool)}
    (h : Tends stores K u (.call c next)) (hu : Sound stores K u.1)
    (hstored : ∀ k ∈ K, Stored (stores.failing c u).2.1.docs k) :
    Concurs stores K u.1 (stores.failing c u).2.1 ∧
      Tends stores K (stores.failing c u).2 (next (stores.failing c u).1) := by
  have hfaulty : Faulty stores.handle Command.failure c u.1 (stores.failing c u).1
      (stores.failing c u).2.1 := faulty_failing stores.handle Command.failure c u
  have horderly := (h.orderly (stores.failing c u).1).1
  rcases h.works with ⟨hc, hnext⟩ | ⟨⟨hc, hnext⟩, hunder⟩
  · refine ⟨?_, horderly, fun k hk => ?_, .inl (hnext _)⟩
    · exact concurs_client hc hu.wellFormed hfaulty (fun k hk => ⟨hu.stored k hk, hstored k hk⟩)
        h.spared
    · exact not_removing_next h.orderly hc.careful hfaulty (hstored k hk)
  · obtain ⟨hsound, hunder⟩ := hunder u (Concurs.refl _) trivial
    refine ⟨concurs_restores hc hu.wellFormed hfaulty hsound, horderly, fun k _ => ?_,
      .inr ⟨hnext _, hunder⟩⟩
    exact not_removing_of_restores (hnext _)

theorem Safeguarded.event {t : InstancesSystem ι κ} {l : Label κ Task} (h : Safeguarded stores K s)
    (hevent : Event stores.failing (Task.program stores.internalIds) s l t) (hl : Requested l)
    (ht : ∀ k ∈ K, Stored t.shared.1.docs k) : Safeguarded stores K t := by
  cases hevent with
  | start i task hi =>
    refine ⟨h.sound, fun j p hp => ?_⟩
    obtain ⟨-, hp⟩ | ⟨-, hp⟩ := Threads.setThread_eq_some hp
    · cases hp
      cases task with
      | client request => exact tends_client hl
      | recovery order => exact tends_recovery h.sound order
    · exact h.tends j p hp
  | step i c next hi =>
    obtain ⟨hconcurs, htends⟩ := (h.tends i _ hi).step h.sound ht
    refine ⟨hconcurs.sound h.sound, fun j p hp => ?_⟩
    obtain ⟨-, hp⟩ | ⟨-, hp⟩ := Threads.setThread_eq_some hp
    · cases hp
      exact htends
    · exact (h.tends j p hp).concurs hconcurs
  | finish i p hi hend =>
    refine ⟨h.sound, fun j p hp => ?_⟩
    obtain ⟨-, hp⟩ | ⟨-, hp⟩ := Threads.setThread_eq_some hp
    · cases hp
    · exact h.tends j p hp

end Events

/-! ## Runs -/

/-- The cache has lost its keys, and no request and no call is in progress. -/
structure Lost (stores : Stores ι) (s : InstancesSystem ι κ) : Prop where
  idle : s.Idle
  wellFormed : WellFormed stores s.shared.1
  read_cursor : stores.read s.shared.1 recoveryStorageBreakpointKey = ""
  read_bound : stores.read s.shared.1 recoveryBreakpointKey = ""

variable {s₀ s : InstancesSystem ι κ}
  {tr : List (Label κ Task × Option (Except ServiceError (Response ⊕ Bool)))}

omit [DecidableEq κ] in
theorem Lost.safeguarded (h : Lost stores s₀) (hK : ∀ k ∈ K, Stored s₀.shared.1.docs k) :
    Safeguarded stores K s₀ := by
  refine ⟨⟨h.wellFormed, hK, .inr ⟨none, h.read_cursor, ?_⟩, none, h.read_bound, ?_⟩, ?_⟩
  · intro k _ i c _ hc
    cases hc
  · intro k _ i b _ hb
    cases hb
  · intro i p hp
    rw [h.idle i] at hp
    cases hp

theorem safeguarded_run (h₀ : Lost stores s₀) (h : Run (stores.instances κ) s₀ tr s)
    (hrequested : ∀ e ∈ tr, Requested e.1)
    (hK : ∀ k ∈ K, Throughout (stores.instances κ) s₀ tr fun s => Stored s.shared.1.docs k) :
    Safeguarded stores K s := by
  refine h.along (Q := fun _ s => Safeguarded stores K s) ?_ ?_
  · exact h₀.safeguarded fun k hk => hK k hk [] s₀ List.nil_prefix (.nil s₀)
  intro tr' t l r u hpre hrun hstep hguarded
  refine hguarded.event (interleaved_event hstep) (hrequested (l, r) (hpre.subset (by simp))) ?_
  exact fun k hk => hK k hk _ u hpre (run_append.mpr ⟨t, hrun, .cons hstep (.nil u)⟩)

/-! ## An instance that is left alone -/

theorem Sound.recover (h : Sound stores K w) (order : MapOrder) :
    Sound stores K (stores.recover w order) := by
  have hrun := (minds_recoveryMessagesPool (ε := QueueError) order h fun _ => .answered).run
    (P := fun _ => True) (I := fun _ => True) (fun _ _ _ _ => trivial) (fun _ _ _ => trivial)
    (fun _ => Concurs.refl _) ((restores_recoveryMessagesPool stores.internalIds order).imp
      fun _ _ => trivial) trivial
  unfold Stores.failing at hrun
  rw [run_failing_answered] at hrun
  exact hrun

section Alone

variable {α : Type}

theorem run_cacheGet_bind (key : String)
    (f : Except CacheError String → Prog Command (Answer ι) ε α) :
    Prog.run stores.handle (Queue.cacheGet key >>= f) w =
      Prog.run stores.handle (f (.ok (stores.read w key))) w := rfl

theorem run_cacheSet_bind (key value : String)
    (f : Except CacheError Unit → Prog Command (Answer ι) ε α) :
    Prog.run stores.handle (Queue.cacheSet key value >>= f) w =
      Prog.run stores.handle (f (.ok ())) (stores.write w key value) := rfl

theorem run_storageFind_bind (opt : FindOptions)
    (f : Except StorageError (List (Document ι)) → Prog Command (Answer ι) ε α) :
    Prog.run stores.handle (Queue.storageFind opt >>= f) w =
      Prog.run stores.handle (f (find stores.internalIds opt w.docs)) w := rfl

end Alone

/-- A page has been inserted: the recovery is finished, or a full page has been passed. -/
def PageEnded (stores : Stores ι) (documents : List (Document ι)) (w : World ι) : Prop :=
  stores.read w recoveryStorageBreakpointKey = recoveryFinished ∨
    Queue.pageSize ≤ documents.length ∧ ∃ d, documents.getLast? = some d ∧
      stores.read w recoveryStorageBreakpointKey = cursorText stores.internalIds (some d.serial)

theorem run_endPage {documents : List (Document ι)}
    (h : documents.length < Queue.pageSize ∨ PageEnded stores documents w) :
    PageEnded stores documents (Prog.run stores.handle
      (Queue.endPage documents.length : Prog Command (Answer ι) ε Bool) w).2 := by
  unfold Queue.endPage
  split_ifs with hfound
  · left
    rw [run_cacheSet_bind, run_cacheSet_bind]
    exact (read_write _ _ _).trans (if_pos rfl)
  · exact h.resolve_left hfound

/-- The cache accepts the messages of stored documents. -/
theorem run_addMessagesToCache_ok (order : MapOrder) {documents : List (Document ι)}
    (hw : WellFormed stores w) (hdocs : ∀ d ∈ documents, d ∈ w.docs.rows) :
    ∃ n, (Prog.run stores.handle (Queue.addMessagesToCache order
      (documents.map fun d => Queue.capScore d.message)) w).1 = .ok n := by
  have hok : ∀ m ∈ documents.map (fun d => Queue.capScore d.message),
      hasHashTag m.queue = false ∧ m.score ≠ .nan := by
    intro m hm
    obtain ⟨x, hx, rfl⟩ := List.mem_map.mp hm
    obtain ⟨hqueue, hscore⟩ := hw.accepted.row (hdocs x hx)
    obtain ⟨y, hy, -⟩ := Score.exists_inRange_clamp hscore
    refine ⟨hqueue, fun hnan => ?_⟩
    have hcap : (Queue.capScore x.message).score = .num y := hy
    rw [hcap] at hnan
    cases hnan
  have hadd := under_addMessagesToCache (K := ∅) (N := w.docs.rows.length) order hok hw
    fun _ _ hk => absurd hk (Set.notMem_empty _)
  have hcaches : All (fun c => ∃ op, c = .cache op) (Queue.addMessagesToCache order
      (documents.map fun d => Queue.capScore d.message) : Queue.QueueProg ι ℕ) :=
    all_addQueues fun queue _ => ⟨_, rfl⟩
  refine (hadd.run (I := fun w' => w'.docs.rows.length ≤ w.docs.rows.length) ?_ ?_
    Interferes.refl hcaches le_rfl).1
  · rintro c w' ⟨op, rfl⟩ hlen
    exact hlen
  · exact fun _ _ hlen _ => hlen

theorem run_insertPage (order : MapOrder) {documents : List (Document ι)}
    (hw : WellFormed stores w) (hdocs : ∀ d ∈ documents, d ∈ w.docs.rows) :
    PageEnded stores documents (Prog.run stores.handle
      (Queue.insertPage stores.internalIds order documents :
        Prog Command (Answer ι) ε Bool) w).2 := by
  unfold Queue.insertPage
  cases hlast : documents.getLast? with
  | none =>
    refine run_endPage (.inl ?_)
    rw [List.getLast?_eq_none_iff] at hlast
    rw [hlast]
    exact Nat.succ_pos _
  | some d =>
    obtain ⟨n, hn⟩ := run_addMessagesToCache_ok order hw hdocs
    rw [run_capture_bind, hn]
    dsimp only
    rw [run_cacheSet_bind]
    refine run_endPage ?_
    by_cases hfull : documents.length < Queue.pageSize
    · exact .inl hfull
    · refine .inr (.inr ⟨not_lt.mp hfull, d, hlast, ?_⟩)
      rw [read_write, if_pos rfl]
      rfl

/-- The cursor has passed a full page, or the recovery is finished. -/
def Shrinks (stores : Stores ι) (w : World ι) (cursor : Option ι) (w' : World ι) : Prop :=
  stores.read w' recoveryStorageBreakpointKey = recoveryFinished ∨
    ∃ c, stores.read w' recoveryStorageBreakpointKey = cursorText stores.internalIds c ∧
      (within w.docs c none).length + Queue.pageSize ≤ (within w.docs cursor none).length

/-- The documents of a full page are no longer left. -/
theorem PageEnded.shrinks {cursor bound : Option ι}
    (h : PageEnded stores ((within w.docs cursor bound).take Queue.pageSize) w') :
    Shrinks stores w cursor w' := by
  rcases h with h | ⟨hfull, d, hd, hread⟩
  · exact .inl h
  refine .inr ⟨some d.serial, hread, ?_⟩
  generalize hpage : (within w.docs cursor bound).take Queue.pageSize = documents at hfull hd
  have hsorted : documents.Pairwise fun a b => a.serial < b.serial :=
    hpage ▸ (w.docs.sorted.filter _).take
  have hmem : ∀ x ∈ documents, x ∈ within w.docs cursor bound := by
    intro x hx
    rw [← hpage] at hx
    exact List.mem_of_mem_take hx
  have hle : ∀ x ∈ documents, x.serial ≤ d.serial := by
    obtain ⟨front, rfl⟩ := List.getLast?_eq_some_iff.mp hd
    intro x hx
    rcases List.mem_append.mp hx with hx | hx
    · exact le_of_lt ((List.pairwise_append.mp hsorted).2.2 x hx d (by simp))
    · rw [List.mem_singleton.mp hx]
  have hnodup : (documents ++ within w.docs (some d.serial) none).Nodup := by
    have hpairs : (documents ++ within w.docs (some d.serial) none).Pairwise
        fun a b => a.serial < b.serial := by
      refine List.pairwise_append.mpr ⟨hsorted, w.docs.sorted.filter _, fun x hx y hy => ?_⟩
      exact (hle x hx).trans_lt ((mem_within.mp hy).2.1 d.serial rfl)
    exact hpairs.imp fun hlt heq => absurd (congrArg Row.serial heq) hlt.ne
  have hsub : documents ++ within w.docs (some d.serial) none ⊆ within w.docs cursor none := by
    intro x hx
    rcases List.mem_append.mp hx with hx | hx
    · obtain ⟨hrow, habove, -⟩ := mem_within.mp (hmem x hx)
      exact mem_within.mpr ⟨hrow, habove, by simp⟩
    · obtain ⟨hrow, habove, -⟩ := mem_within.mp hx
      refine mem_within.mpr ⟨hrow, fun c hc => ?_, by simp⟩
      have hd' := (mem_within.mp (hmem d (List.mem_of_getLast? hd))).2.1 c hc
      exact hd'.trans (habove d.serial rfl)
  have hlen := (List.subperm_of_subset hnodup hsub).length_le
  rw [List.length_append] at hlen
  omega

theorem shrinks_recoverPage (order : MapOrder) {cursor : Option ι} (hw : Sound stores K w) :
    Shrinks stores w cursor (Prog.run stores.handle (Queue.recoverPage stores.internalIds order
      (cursorText stores.internalIds cursor) : Prog Command (Answer ι) ε Bool) w).2 := by
  obtain ⟨bound, hread, -⟩ := hw.bound
  unfold Queue.recoverPage
  rw [run_cacheGet_bind, hread]
  dsimp only
  rw [run_storageFind_bind, find_page]
  refine PageEnded.shrinks (run_insertPage order hw.wellFormed fun d hd => ?_)
  exact (mem_within.mp (List.mem_of_mem_take hd)).1

/-- The recovery has a bound, or nothing to do. -/
theorem run_tryToStartRecovery (hw : Sound stores K w) :
    ∃ started w', Prog.run stores.handle
        (Queue.tryToStartRecovery stores.internalIds : Prog Command (Answer ι) ε Bool) w =
      (.ok started, w') ∧ w'.docs = w.docs ∧ Sound stores K w' ∧
      (started = false → stores.read w' recoveryStorageBreakpointKey = recoveryFinished) := by
  unfold Queue.tryToStartRecovery
  rw [run_cacheSet_bind]
  dsimp only
  rw [run_storageFind_bind, show (stores.write w recoveryRunning "true").docs = w.docs from rfl]
  have hrunning := hw.write (writes_running "true")
  rcases find_last stores.internalIds w.docs with ⟨hnil, hfind⟩ | ⟨d, hd, hlast, hfind⟩
  · have hfind : find stores.internalIds Queue.lastDocument w.docs = .ok [] := hfind
    have hnone : Recovered stores K (stores.write w recoveryRunning "true") := by
      intro k hk
      have hstored := hw.stored k hk
      rw [Stored, Table.get, hnil] at hstored
      cases hstored
    refine ⟨false, stores.write (stores.write (stores.write w recoveryRunning "true")
      recoveryStorageBreakpointKey recoveryFinished) recoveryRunning "false", ?_, rfl,
      (hrunning.write (writes_finished hnone)).write (writes_running _), fun _ => ?_⟩
    · rw [hfind]
      rfl
    · rw [read_write, if_neg (by decide), read_write, if_pos rfl]
  · have hfind : find stores.internalIds Queue.lastDocument w.docs = .ok [d] := hfind
    refine ⟨true, stores.write (stores.write w recoveryRunning "true") recoveryBreakpointKey
      (cursorText stores.internalIds (some d.serial)), ?_, rfl,
      hrunning.write (writes_bound (bounds_last hlast)), by simp⟩
    rw [hfind]
    rfl

theorem shrinks_recover (order : MapOrder) {cursor : Option ι} (hw : Sound stores K w)
    (hread : stores.read w recoveryStorageBreakpointKey = cursorText stores.internalIds cursor) :
    Shrinks stores w cursor (stores.recover w order) := by
  unfold Stores.recover Queue.recoveryMessagesPool
  rw [run_cacheGet_bind, hread]
  dsimp only
  rw [if_neg (cursorText_ne_finished _ _), run_bind]
  change Shrinks stores w cursor (Prog.run stores.handle (if _ then _ else _) w).2
  split_ifs with hstart
  · obtain ⟨started, w', hrun, hdocs, hw', hfinished⟩ := run_tryToStartRecovery (ε := QueueError) hw
    rw [run_bind, hrun]
    cases started with
    | false => exact .inl (hfinished rfl)
    | true =>
      have hpage : Shrinks stores w' cursor _ := shrinks_recoverPage (ε := QueueError) order hw'
      unfold Shrinks at hpage ⊢
      rw [hdocs] at hpage
      exact hpage
  · exact shrinks_recoverPage order hw

theorem recover_finished (order : MapOrder)
    (h : stores.read w recoveryStorageBreakpointKey = recoveryFinished) :
    stores.recover w order = w := by
  unfold Stores.recover Queue.recoveryMessagesPool
  rw [run_cacheGet_bind, h]
  dsimp only
  rw [if_pos rfl]
  rfl

theorem recoverAll_finished (orders : List MapOrder)
    (h : stores.read w recoveryStorageBreakpointKey = recoveryFinished) :
    orders.foldl stores.recover w = w := by
  induction orders with
  | nil => rfl
  | cons order orders ih => rw [List.foldl_cons, recover_finished order h, ih]

theorem Sound.recoverAll (h : Sound stores K w) (orders : List MapOrder) :
    Sound stores K (orders.foldl stores.recover w) := by
  induction orders generalizing w with
  | nil => exact h
  | cons order orders ih => exact ih (h.recover order)

theorem finished_recoverAll (hw : Sound stores K w) {cursor : Option ι}
    (hread : stores.read w recoveryStorageBreakpointKey = cursorText stores.internalIds cursor)
    {orders : List MapOrder}
    (hcalls : (within w.docs cursor none).length / Queue.pageSize < orders.length) :
    stores.read (orders.foldl stores.recover w) recoveryStorageBreakpointKey =
      recoveryFinished := by
  induction orders generalizing w cursor with
  | nil => exact absurd hcalls (Nat.not_lt_zero _)
  | cons order orders ih =>
    rw [List.foldl_cons]
    rcases shrinks_recover order hw hread with hfinished | ⟨c, hc, hlen⟩
    · rw [recoverAll_finished orders hfinished, hfinished]
    · refine ih (hw.recover order) hc ?_
      rw [recover_docs]
      simp only [Queue.pageSize, List.length_cons] at hlen hcalls ⊢
      omega

theorem Sound.recovered (h : Sound stores K w)
    (hfinished : stores.read w recoveryStorageBreakpointKey = recoveryFinished) :
    Recovered stores K w := by
  rcases h.cursor with ⟨-, hall⟩ | ⟨c, hc, -⟩
  · exact hall
  · exact absurd (hc.symm.trans hfinished) (cursorText_ne_finished _ _)

/-- Any number of instances recover a lost cache at the same time, clients send requests, and calls
of the stores fail. A finished recovery has put every message that stayed stored into some pool.
From then on, or after a crash of all of them, the calls of one instance finish the recovery. -/
theorem instances_recover (stores : Stores ι) (h₀ : Lost stores s₀)
    (h : Run (stores.instances κ) s₀ tr s) (hrequested : ∀ e ∈ tr, Requested e.1) :
    (stores.read s.shared.1 recoveryStorageBreakpointKey = recoveryFinished → ∀ queue id,
      (Throughout (stores.instances κ) s₀ tr fun s => Stored s.shared.1.docs (queue, id)) →
      stores.cache.InPools s.shared.1.redis queue id) ∧
    ∀ orders : List MapOrder, s.shared.1.docs.rows.length / 4000 + 1 ≤ orders.length →
      stores.read (orders.foldl stores.recover s.shared.1) recoveryStorageBreakpointKey =
        recoveryFinished ∧
      ∀ queue id,
        (Throughout (stores.instances κ) s₀ tr fun s => Stored s.shared.1.docs (queue, id)) →
        stores.cache.InPools (orders.foldl stores.recover s.shared.1).redis queue id := by
  have hsound := (safeguarded_run (K := { k | Throughout (stores.instances κ) s₀ tr fun s =>
    Stored s.shared.1.docs k }) h₀ h hrequested fun k hk => hk).sound
  refine ⟨fun hfinished queue id hstays => hsound.recovered hfinished (queue, id) hstays,
    fun orders horders => ?_⟩
  have hfinished : stores.read (orders.foldl stores.recover s.shared.1)
      recoveryStorageBreakpointKey = recoveryFinished := by
    rcases hsound.cursor with ⟨hread, -⟩ | ⟨c, hread, -⟩
    · rw [recoverAll_finished orders hread, hread]
    · refine finished_recoverAll hsound hread ?_
      have hlen : (within s.shared.1.docs c none).length ≤ s.shared.1.docs.rows.length :=
        List.length_filter_le _ _
      simp only [Queue.pageSize]
      omega
  exact ⟨hfinished, fun queue id hstays =>
    (hsound.recoverAll orders).recovered hfinished (queue, id) hstays⟩

/-- Two instances recover the cache in lockstep, and a write of the first one is refused. -/
def twoInstances : List (Label Bool Task) :=
  .start true (.recovery .listed) :: .start false (.recovery .listed) ::
    ((List.replicate 11 [.step true, .step false]).flatten ++ [.finish true, .finish false])

def refusedWrite : Fates := fun n =>
  if n = 8 then .refused (.writing, .invalidMessageQueue) else .answered

theorem instances_recover_twoInstances :
    ∃ tr, ∃ s : InstancesSystem ℕ Bool,
      Run (Stores.default.instances Bool) ⟨(lostMessage, refusedWrite), fun _ => none⟩ tr s ∧
      Stores.default.read s.shared.1 recoveryStorageBreakpointKey = recoveryFinished ∧
      Stores.default.cache.InPools s.shared.1.redis "q" "a" := by
  obtain ⟨⟨tr, s⟩, hfollow, hend⟩ := (Option.any_eq_true _ _).mp
    (show ((follow Stores.default.failing (Task.program Stores.default.internalIds)
        ⟨(lostMessage, refusedWrite), fun _ => none⟩ twoInstances).any fun r =>
      decide (Stores.default.read r.2.shared.1 recoveryStorageBreakpointKey =
        recoveryFinished)) = true by decide +kernel)
  have hlost : Lost Stores.default
      (⟨(lostMessage, refusedWrite), fun _ => none⟩ : InstancesSystem ℕ Bool) :=
    ⟨fun _ => rfl, .lose (.serve acceptable_addMessage (docsAccepted_empty 0)),
      by decide +kernel, by decide +kernel⟩
  have hall : ∀ l ∈ twoInstances, Requested l := by
    simp +decide [twoInstances, Requested]
  have hlabels : ∀ e ∈ tr, Requested e.1 := forall_follow hfollow hall
  have hdocs : ∀ ls ∈ twoInstances.inits, ∀ r, follow Stores.default.failing
      (Task.program Stores.default.internalIds) ⟨(lostMessage, refusedWrite), fun _ => none⟩ ls =
        some r → Stored r.2.shared.1.docs ("q", "a") := by
    have hall : (twoInstances.inits.all fun ls => (follow Stores.default.failing
        (Task.program Stores.default.internalIds) ⟨(lostMessage, refusedWrite), fun _ => none⟩
        ls).all fun r => (r.2.shared.1.docs.get ("q", "a")).isSome) = true := by
      decide +kernel
    intro ls hls r hr
    exact (Option.all_eq_true _ _).mp (List.all_eq_true.mp hall ls hls) r hr
  have hfinished := of_decide_eq_true hend
  have hrun := run_follow hfollow
  exact ⟨tr, s, hrun, hfinished, (instances_recover Stores.default hlost hrun hlabels).1 hfinished
    "q" "a" (throughout_follow hfollow hdocs)⟩

end Deckard
