import Deckard.Interference
import Deckard.RecoverySteps

/-!
# A call of the recovery among the requests of clients

A call is followed command by command while clients change both stores. It starts from the
cursor that the last call has left and leaves a higher one, or finishes the recovery. The
messages that are stored all the time are in some pool as soon as the cursor has passed
them.
-/
namespace Deckard

open Binary64 Effect Cache Program Prog RedisCache Runs MongoStorage

variable {ι ε : Type} [LinearOrder ι]

/-! ## What the clients may do -/

/-- Pools that can be read and documents that can be inserted. -/
structure WellFormed (stores : Stores ι) (w : World ι) : Prop where
  represents : ∃ P, stores.cache.Represents w.redis P
  accepted : DocsAccepted w.docs

/-- What happens between two commands of the recovery while the messages of `K` stay
stored. -/
structure Interferes (stores : Stores ι) (K : Set Key) (w w' : World ι) : Prop where
  wellFormed : WellFormed stores w → WellFormed stores w'
  str : w'.redis.str = w.redis.str
  grows : w.docs.Grows w'.docs
  serial : ∀ k ∈ K, w'.docs.serial k = w.docs.serial k
  inPools : ∀ k ∈ K, stores.cache.InPools w.redis k.1 k.2 →
    stores.cache.InPools w'.redis k.1 k.2

variable {stores : Stores ι} {K : Set Key} {N : ℕ} {w w' w'' : World ι}

theorem Interferes.refl (w : World ι) : Interferes stores K w w :=
  ⟨fun h => h, rfl, Table.Grows.refl _, fun _ _ => rfl, fun _ _ h => h⟩

theorem Interferes.trans (h : Interferes stores K w w') (h' : Interferes stores K w' w'') :
    Interferes stores K w w'' where
  wellFormed hw := h'.wellFormed (h.wellFormed hw)
  str := h'.str.trans h.str
  grows := h.grows.trans h'.grows
  serial k hk := (h'.serial k hk).trans (h.serial k hk)
  inPools k hk hp := h'.inPools k hk (h.inPools k hk hp)

/-- An insertion of the recovery disturbs it no more than the clients do. -/
theorem interferes_insert (hw : WellFormed stores w) (queue : String) (messages : List Message) :
    Interferes stores K w (stores.handle (.cache (.insert queue messages)) w).2 := by
  have hcareful : Careful (.cache (.insert queue messages)) := trivial
  obtain ⟨P, hs⟩ := hw.represents
  obtain ⟨P', -, hstr, -⟩ := handle_cache hs hcareful.amountOk
  refine ⟨fun hw => ⟨handle_represents hcareful hw.represents, hw.accepted⟩, hstr,
    Table.Grows.refl _, fun _ _ => rfl, fun k _ hk => ?_⟩
  exact handle_inPools hcareful hw.represents hk (by simp)

/-! ## The state between two calls -/

/-- A recovery up to `bound` has made a number of calls and has passed `cursor`. -/
structure Resuming (stores : Stores ι) (K : Set Key) (N : ℕ) (bound : ι) (cursor : Option ι)
    (calls : ℕ) (w : World ι) : Prop where
  wellFormed : WellFormed stores w
  read_running : stores.read w recoveryRunning = "true"
  read_bound : stores.read w recoveryBreakpointKey = stores.internalIds.text bound
  read_cursor : stores.read w recoveryStorageBreakpointKey = cursorText stores.internalIds cursor
  bound_le : bound ≤ w.docs.last
  left : (between w.docs cursor bound).length + Queue.pageSize * calls ≤ N
  stored : ∀ k ∈ K, ∃ i, w.docs.serial k = some i ∧ i ≤ bound ∧
    ((∃ c, cursor = some c ∧ i ≤ c) → stores.cache.InPools w.redis k.1 k.2)

/-- All messages that stayed stored are in some pool. -/
structure Finished (stores : Stores ι) (K : Set Key) (w : World ι) : Prop where
  read_running : stores.read w recoveryRunning = "false"
  read_cursor : stores.read w recoveryStorageBreakpointKey = recoveryFinished
  inPools : ∀ k ∈ K, stores.cache.InPools w.redis k.1 k.2

/-- No call has been made. -/
structure Unstarted (stores : Stores ι) (K : Set Key) (w : World ι) : Prop where
  wellFormed : WellFormed stores w
  read_running : stores.read w recoveryRunning = ""
  read_cursor : stores.read w recoveryStorageBreakpointKey = ""
  stored : ∀ k ∈ K, Stored w.docs k

theorem Resuming.interfere {bound : ι} {cursor : Option ι} {calls : ℕ}
    (h : Resuming stores K N bound cursor calls w) (hw : Interferes stores K w w') :
    Resuming stores K N bound cursor calls w' where
  wellFormed := hw.wellFormed h.wellFormed
  read_running := (read_congr hw.str _).trans h.read_running
  read_bound := (read_congr hw.str _).trans h.read_bound
  read_cursor := (read_congr hw.str _).trans h.read_cursor
  bound_le := h.bound_le.trans hw.grows.last_le
  left := by
    have hlen := length_between_le hw.grows h.bound_le cursor
    have hleft := h.left
    omega
  stored k hk := by
    obtain ⟨i, hi, hle, hpools⟩ := h.stored k hk
    exact ⟨i, (hw.serial k hk).trans hi, hle, fun hc => hw.inPools k hk (hpools hc)⟩

theorem Finished.interfere (h : Finished stores K w) (hw : Interferes stores K w w') :
    Finished stores K w' where
  read_running := (read_congr hw.str _).trans h.read_running
  read_cursor := (read_congr hw.str _).trans h.read_cursor
  inPools k hk := hw.inPools k hk (h.inPools k hk)

theorem Unstarted.interfere (h : Unstarted stores K w) (hw : Interferes stores K w w') :
    Unstarted stores K w' where
  wellFormed := hw.wellFormed h.wellFormed
  read_running := (read_congr hw.str _).trans h.read_running
  read_cursor := (read_congr hw.str _).trans h.read_cursor
  stored k hk := by
    rw [stored_iff_serial, hw.serial k hk, ← stored_iff_serial]
    exact h.stored k hk

/-! ## Commands of a call -/

/-- A finished recovery has put the messages of `K` into some pool. -/
def Complete (stores : Stores ι) (K : Set Key) (w : World ι) : Prop :=
  stores.read w recoveryStorageBreakpointKey = recoveryFinished →
    ∀ k ∈ K, stores.cache.InPools w.redis k.1 k.2

/-- The clients interfere, and no more than `N` documents are stored when the recovery
looks for the last one. -/
def interference (stores : Stores ι) (K : Set Key) (N : ℕ) : Interference Command (World ι) where
  rely := Interferes stores K
  given c w := c = .storageFind Queue.lastDocument → w.docs.rows.length ≤ N
  during := Complete stores K

theorem Complete.interfere (h : Complete stores K w) (hw : Interferes stores K w w') :
    Complete stores K w' := by
  intro hfinished k hk
  rw [read_congr hw.str] at hfinished
  exact hw.inPools k hk (h hfinished k hk)

theorem complete_of_ne (h : stores.read w recoveryStorageBreakpointKey ≠ recoveryFinished) :
    Complete stores K w :=
  fun hfinished => absurd hfinished h

theorem cursorText_ne_finished (internalIds : InternalIds ι) (cursor : Option ι) :
    cursorText internalIds cursor ≠ recoveryFinished := by
  cases cursor with
  | none => simp [cursorText, recoveryFinished]
  | some i => exact internalIds.text_ne_finished i

theorem Resuming.complete {bound : ι} {cursor : Option ι} {calls : ℕ}
    (h : Resuming stores K N bound cursor calls w) : Complete stores K w := by
  apply complete_of_ne
  rw [h.read_cursor]
  exact cursorText_ne_finished _ cursor

/-- Every call before the last has read a full page. -/
theorem Resuming.calls_lt {bound : ι} {cursor : Option ι} {calls : ℕ}
    (h : Resuming stores K N bound cursor calls w) : calls < N / 4000 + 1 := by
  have hleft := h.left
  have hsize : Queue.pageSize * calls = 4000 * calls := rfl
  omega

section Rules

variable {β : Type} {post : Except ε β → World ι → Prop}

theorem under_cacheGet {key : String}
    {f : Except CacheError String → Prog Command (Answer ι) ε β} (hw : Complete stores K w)
    (h : ∀ t, Interferes stores K w t →
      Under stores.handle (interference stores K N) post (f (.ok (stores.read t key))) t) :
    Under stores.handle (interference stores K N) post (Queue.cacheGet key >>= f) w :=
  fun t hwt _ => ⟨hw.interfere hwt, h t hwt⟩

theorem under_cacheSet {key value : String}
    {f : Except CacheError Unit → Prog Command (Answer ι) ε β}
    (h : ∀ t, Interferes stores K w t → Complete stores K (stores.write t key value) ∧
      Under stores.handle (interference stores K N) post (f (.ok ()))
        (stores.write t key value)) :
    Under stores.handle (interference stores K N) post (Queue.cacheSet key value >>= f) w :=
  fun t hwt _ => h t hwt

end Rules

/-- Inserting one queue after the other leaves the messages of `K` in some pool. -/
theorem under_addQueues {messages : List Message} {queues : List String}
    (hscore : ∀ m ∈ messages, m.score ≠ .nan) (hqueues : ∀ q ∈ queues, hasHashTag q = false)
    (hw : WellFormed stores w) (hcomplete : Complete stores K w) :
    Under stores.handle (interference stores K N)
      (fun r t => (∃ n, r = .ok n) ∧ Interferes stores K w t ∧
        ∀ m ∈ messages, m.queue ∈ queues → m.key ∈ K → stores.cache.InPools t.redis m.queue m.id)
      (Queue.addQueues messages queues : Queue.QueueProg ι ℕ) w := by
  induction queues generalizing w with
  | nil => exact ⟨⟨0, rfl⟩, Interferes.refl w, by simp⟩
  | cons queue queues ih =>
    intro t hwt _
    have ht := hwt.wellFormed hw
    have hins := interferes_insert (K := K) ht queue (messages.filter fun m => m.queue = queue)
    have hcomplete' := (hcomplete.interfere hwt).interfere hins
    have hok : Acceptable (.cache (.insert queue (messages.filter fun m => m.queue = queue))) := by
      refine ⟨⟨hqueues queue List.mem_cons_self, fun m hm => ?_⟩, fun m hm => ?_⟩
      · simpa using (List.mem_filter.mp hm).2
      · exact hscore m (List.mem_of_mem_filter hm)
    obtain ⟨⟨l, hl⟩, hall⟩ := handle_insert hok ht.represents
    refine ⟨hcomplete', ?_⟩
    rw [hl]
    have hrest := ih (fun q hq => hqueues q (List.mem_cons_of_mem _ hq)) (hins.wellFormed ht)
      hcomplete'
    refine hrest.bind (fun n u hu => ?_) fun e u hu => ?_
    · obtain ⟨-, hu, hpools⟩ := hu
      refine ⟨⟨_, rfl⟩, (hwt.trans hins).trans hu, fun m hm hqueue hk => ?_⟩
      rcases List.mem_cons.mp hqueue with hq | hq
      · subst hq
        exact hu.inPools m.key hk (hall m (List.mem_filter.mpr ⟨hm, by simp⟩))
      · exact hpools m hm hq hk
    · obtain ⟨⟨n, hn⟩, -⟩ := hu
      cases hn

theorem under_addMessagesToCache (order : MapOrder) {messages : List Message}
    (hok : ∀ m ∈ messages, hasHashTag m.queue = false ∧ m.score ≠ .nan)
    (hw : WellFormed stores w) (hcomplete : Complete stores K w) :
    Under stores.handle (interference stores K N)
      (fun r t => (∃ n, r = .ok n) ∧ Interferes stores K w t ∧
        ∀ m ∈ messages, m.key ∈ K → stores.cache.InPools t.redis m.queue m.id)
      (Queue.addMessagesToCache order messages : Queue.QueueProg ι ℕ) w := by
  have hqueues : ∀ q ∈ order.visit (Queue.queueNames messages), hasHashTag q = false := by
    intro q hq
    obtain ⟨m, hm, rfl⟩ := mem_visit_queueNames.mp hq
    exact (hok m hm).1
  refine (under_addQueues (fun m hm => (hok m hm).2) hqueues hw hcomplete).imp ?_
  rintro r t ⟨hr, hwt, hpools⟩
  exact ⟨hr, hwt, fun m hm hk => hpools m hm (mem_visit_queueNames.mpr ⟨m, hm, rfl⟩) hk⟩

/-- The last page finishes the recovery. -/
theorem under_endPage {found : ℕ} (hfound : found < Queue.pageSize)
    (hpools : ∀ k ∈ K, stores.cache.InPools w.redis k.1 k.2) :
    Under stores.handle (interference stores K N) (fun _ t => Finished stores K t)
      (Queue.endPage found : Prog Command (Answer ι) ε Bool) w := by
  rw [Queue.endPage, if_pos hfound]
  refine under_cacheSet fun t hwt => ⟨fun _ k hk => hwt.inPools k hk (hpools k hk), ?_⟩
  refine under_cacheSet fun u htu => ?_
  have hu : ∀ k ∈ K, stores.cache.InPools u.redis k.1 k.2 :=
    fun k hk => htu.inPools k hk (hwt.inPools k hk (hpools k hk))
  refine ⟨fun _ => hu, ?_, ?_, hu⟩
  · rw [read_write, if_neg (by decide), read_congr htu.str, read_write, if_pos rfl]
  · rw [read_write, if_pos rfl]

section Page

variable {bound : ι} {cursor : Option ι} {calls : ℕ} {d : Document ι}

/-- A message of `K` is in some pool, or its document follows the cursor. -/
theorem Resuming.inPools_or_mem (h : Resuming stores K N bound cursor calls w) {k : Key}
    (hk : k ∈ K) : stores.cache.InPools w.redis k.1 k.2 ∨
      ∃ d ∈ between w.docs cursor bound, d.key = k ∧ w.docs.serial k = some d.serial := by
  obtain ⟨i, hi, hle, hpools⟩ := h.stored k hk
  by_cases hcursor : ∃ c, cursor = some c ∧ i ≤ c
  · exact .inl (hpools hcursor)
  · obtain ⟨d, hd, rfl⟩ := Option.map_eq_some_iff.mp hi
    obtain ⟨hrow, hkey⟩ := Table.get_eq_some.mp hd
    refine .inr ⟨d, mem_between.mpr ⟨hrow, fun c hc => ?_, hle⟩, hkey, hi⟩
    by_contra hlt
    exact hcursor ⟨c, hc, not_lt.mp hlt⟩

/-- What is left after a page is what the page has left out. -/
theorem Resuming.left_page (h : Resuming stores K N bound cursor calls w)
    (hlast : ((between w.docs cursor bound).take Queue.pageSize).getLast? = some d)
    (hfull : ¬ ((between w.docs cursor bound).take Queue.pageSize).length < Queue.pageSize) :
    (between w.docs (some d.serial) bound).length + Queue.pageSize * (calls + 1) ≤ N := by
  have hleft := h.left
  rw [between_getLast w.docs hlast, List.length_drop]
  rw [List.length_take] at hfull
  have hmul : Queue.pageSize * (calls + 1) = Queue.pageSize * calls + Queue.pageSize :=
    Nat.mul_succ _ _
  omega

/-- A message of `K` that the page passes is in some pool or in the page. -/
theorem Resuming.page_covers (h : Resuming stores K N bound cursor calls w)
    (hlast : ((between w.docs cursor bound).take Queue.pageSize).getLast? = some d) {k : Key}
    (hk : k ∈ K) {i : ι} (hi : w.docs.serial k = some i) (hle : i ≤ d.serial) :
    stores.cache.InPools w.redis k.1 k.2 ∨
      ∃ x ∈ (between w.docs cursor bound).take Queue.pageSize, x.key = k := by
  rcases h.inPools_or_mem hk with hpools | ⟨x, hx, hkey, hserial⟩
  · exact .inl hpools
  · refine .inr ⟨x, ?_, hkey⟩
    rw [← List.take_append_drop Queue.pageSize (between w.docs cursor bound)] at hx
    refine (List.mem_append.mp hx).resolve_right fun hdrop => ?_
    rw [← between_getLast w.docs hlast] at hdrop
    have hlt : d.serial < x.serial := (mem_between.mp hdrop).2.1 d.serial rfl
    rw [hi, Option.some_inj] at hserial
    exact absurd hle (not_le.mpr (hserial ▸ hlt))

/-- A call ends the recovery or moves the cursor up. -/
def Advanced (stores : Stores ι) (K : Set Key) (N : ℕ) (bound : ι) (cursor : Option ι)
    (calls : ℕ) (w : World ι) : Prop :=
  Finished stores K w ∨
    ∃ c, (∀ c', cursor = some c' → c' < c) ∧ Resuming stores K N bound (some c) (calls + 1) w

/-- The messages of a page. -/
theorem mem_page_messages (hw : DocsAccepted w.docs) (cursor : Option ι) (bound : ι) {m : Message}
    (hm : m ∈ ((between w.docs cursor bound).take Queue.pageSize).map
      fun d => Queue.capScore d.message) :
    hasHashTag m.queue = false ∧ m.score ≠ .nan := by
  obtain ⟨d, hd, rfl⟩ := List.mem_map.mp hm
  obtain ⟨hqueue, hscore⟩ := hw.row (mem_between.mp (List.mem_of_mem_take hd)).1
  obtain ⟨y, hy, -⟩ := Score.exists_inRange_clamp hscore
  refine ⟨hqueue, fun hnan => ?_⟩
  have hcap : (Queue.capScore d.message).score = .num y := hy
  rw [hcap] at hnan
  cases hnan

/-- After the insertion the messages that the page passes are in some pool. -/
theorem Resuming.inPools_page (h : Resuming stores K N bound cursor calls w)
    (hlast : ((between w.docs cursor bound).take Queue.pageSize).getLast? = some d)
    (hw : Interferes stores K w w')
    (hpools : ∀ m ∈ ((between w.docs cursor bound).take Queue.pageSize).map
      (fun d => Queue.capScore d.message), m.key ∈ K →
      stores.cache.InPools w'.redis m.queue m.id) {k : Key} (hk : k ∈ K) {i : ι}
    (hi : w.docs.serial k = some i) (hle : i ≤ d.serial) :
    stores.cache.InPools w'.redis k.1 k.2 := by
  rcases h.page_covers hlast hk hi hle with hold | ⟨x, hx, rfl⟩
  · exact hw.inPools k hk hold
  · exact hpools (Queue.capScore x.message) (List.mem_map_of_mem hx) hk

/-- The cursor moves to the last document of a full page. -/
theorem Resuming.move (h : Resuming stores K N bound cursor calls w)
    (hlast : ((between w.docs cursor bound).take Queue.pageSize).getLast? = some d)
    (hfull : ¬ ((between w.docs cursor bound).take Queue.pageSize).length < Queue.pageSize)
    (hw : Interferes stores K w w')
    (hpools : ∀ k ∈ K, ∀ i, w.docs.serial k = some i → i ≤ d.serial →
      stores.cache.InPools w'.redis k.1 k.2) :
    Resuming stores K N bound (some d.serial) (calls + 1)
      (stores.write w' recoveryStorageBreakpointKey (stores.internalIds.text d.serial)) := by
  have h' := h.interfere hw
  refine ⟨⟨h'.wellFormed.represents, h'.wellFormed.accepted⟩, ?_, ?_, ?_, h'.bound_le, ?_, ?_⟩
  · rw [read_write, if_neg (by decide), h'.read_running]
  · rw [read_write, if_neg (by decide), h'.read_bound]
  · rw [read_write, if_pos rfl, cursorText]
  · have hlen := length_between_le hw.grows h.bound_le (some d.serial)
    exact (Nat.add_le_add_right hlen _).trans (h.left_page hlast hfull)
  · intro k hk
    obtain ⟨i, hi, hle, -⟩ := h.stored k hk
    refine ⟨i, (hw.serial k hk).trans hi, hle, ?_⟩
    rintro ⟨c, hc, hic⟩
    cases hc
    exact hpools k hk i hi hic

theorem under_insertPage (order : MapOrder) (h : Resuming stores K N bound cursor calls w) :
    Under stores.handle (interference stores K N)
      (fun _ t => Advanced stores K N bound cursor calls t)
      (Queue.insertPage stores.internalIds order
        ((between w.docs cursor bound).take Queue.pageSize) :
        Prog Command (Answer ι) ε Bool) w := by
  unfold Queue.insertPage
  cases hlast : ((between w.docs cursor bound).take Queue.pageSize).getLast? with
  | none =>
    rw [List.getLast?_eq_none_iff] at hlast
    have hnil : between w.docs cursor bound = [] := by
      rcases List.take_eq_nil_iff.mp hlast with hsize | hnil
      · cases hsize
      · exact hnil
    refine (under_endPage ?_ fun k hk => ?_).imp fun _ _ => .inl
    · rw [hlast]
      exact Nat.succ_pos _
    · refine (h.inPools_or_mem hk).resolve_right ?_
      rintro ⟨x, hx, -⟩
      simp [hnil] at hx
  | some d =>
    have hadd := under_addMessagesToCache (N := N) order
      (fun m hm => mem_page_messages h.wellFormed.accepted cursor bound hm) h.wellFormed h.complete
    refine hadd.capture_bind fun r t ⟨⟨n, hn⟩, hwt, hpools⟩ => ?_
    subst hn
    refine under_cacheSet fun u htu => ?_
    have hwu := hwt.trans htu
    have hpassed : ∀ k ∈ K, ∀ i, w.docs.serial k = some i → i ≤ d.serial →
        stores.cache.InPools u.redis k.1 k.2 := fun k hk i hi hle =>
      htu.inPools k hk (h.inPools_page hlast hwt hpools hk hi hle)
    have hcomplete : Complete stores K (stores.write u recoveryStorageBreakpointKey
        (getStringInternalId stores.internalIds d)) := by
      apply complete_of_ne
      rw [read_write, if_pos rfl]
      exact stores.internalIds.text_ne_finished d.serial
    refine ⟨hcomplete, ?_⟩
    by_cases hfull : ((between w.docs cursor bound).take Queue.pageSize).length < Queue.pageSize
    · refine (under_endPage hfull fun k hk => ?_).imp fun _ _ => .inl
      rcases h.inPools_or_mem hk with hold | ⟨x, hx, rfl, -⟩
      · exact hwu.inPools k hk hold
      · have hall : (between w.docs cursor bound).take Queue.pageSize =
            between w.docs cursor bound := by
          rw [List.length_take] at hfull
          exact List.take_of_length_le (by omega)
        rw [← hall] at hx
        have hpool := hpools (Queue.capScore x.message) (List.mem_map_of_mem hx) hk
        exact htu.inPools x.key hk hpool
    · rw [Queue.endPage, if_neg hfull]
      have hd := List.mem_of_mem_take (List.mem_of_getLast? hlast)
      exact .inr ⟨d.serial, (mem_between.mp hd).2.1, h.move hlast hfull hwu hpassed⟩

theorem under_recoverPage (order : MapOrder) (h : Resuming stores K N bound cursor calls w) :
    Under stores.handle (interference stores K N)
      (fun _ t => Advanced stores K N bound cursor calls t)
      (Queue.recoverPage stores.internalIds order (cursorText stores.internalIds cursor) :
        Prog Command (Answer ι) ε Bool) w := by
  refine under_cacheGet h.complete fun t hwt => ?_
  rw [(h.interfere hwt).read_bound]
  intro u htu _
  have hu := (h.interfere hwt).interfere htu
  have hanswer : (stores.handle (.storageFind (Queue.page (cursorText stores.internalIds cursor)
      (stores.internalIds.text bound))) u).1 =
      .ok ((between u.docs cursor bound).take Queue.pageSize) :=
    find_within stores.internalIds u.docs cursor (some bound) (by decide)
  refine ⟨hu.complete, ?_⟩
  rw [hanswer]
  exact under_insertPage order hu

end Page

/-- A storage without documents is recovered at once. -/
theorem under_finish_empty {β : Type} {f : Prog Command (Answer ι) ε β} (hK : ∀ k, k ∉ K)
    {post : Except ε β → World ι → Prop}
    (h : ∀ t, Finished stores K t → Under stores.handle (interference stores K N) post f t) :
    Under stores.handle (interference stores K N) post
      (do
        let _ ← Queue.cacheSet recoveryStorageBreakpointKey recoveryFinished
        let _ ← Queue.cacheSet recoveryRunning "false"
        f) w := by
  refine under_cacheSet fun t _ => ⟨fun _ k hk => absurd hk (hK k), ?_⟩
  refine under_cacheSet fun u htu => ⟨fun _ k hk => absurd hk (hK k), h _ ⟨?_, ?_, ?_⟩⟩
  · rw [read_write, if_pos rfl]
  · rw [read_write, if_neg (by decide), read_congr htu.str, read_write, if_pos rfl]
  · exact fun k hk => absurd hk (hK k)

/-- The recovery starts below the last document. -/
theorem Unstarted.resuming {d : Document ι} (h : Unstarted stores K w)
    (hw : Interferes stores K (stores.write w recoveryRunning "true") w') (hd : d ∈ w'.docs.rows)
    (hlast : ∀ d' ∈ w'.docs.rows, d'.serial ≤ d.serial) (hN : w'.docs.rows.length ≤ N)
    (hw' : Interferes stores K w' w'') :
    Resuming stores K N d.serial none 0
      (stores.write w'' recoveryBreakpointKey (stores.internalIds.text d.serial)) := by
  have hstarted := hw.trans hw'
  have hwf := hstarted.wellFormed ⟨h.wellFormed.represents, h.wellFormed.accepted⟩
  refine ⟨⟨hwf.represents, hwf.accepted⟩, ?_, ?_, ?_, ?_, ?_, fun k hk => ?_⟩
  · rw [read_write, if_neg (by decide), read_congr hstarted.str, read_write, if_pos rfl]
  · rw [read_write, if_pos rfl]
  · rw [read_write, if_neg (by decide), read_congr hstarted.str, read_write, if_neg (by decide),
      h.read_cursor]
    rfl
  · exact (w'.docs.le_last d hd).trans hw'.grows.last_le
  · have hlen := length_between_le hw'.grows (w'.docs.le_last d hd) none
    have hrows : (between w'.docs none d.serial).length ≤ w'.docs.rows.length :=
      List.length_filter_le _ _
    rw [Nat.mul_zero, Nat.add_zero]
    exact hlen.trans (hrows.trans hN)
  · have hserial : w'.docs.serial k = w.docs.serial k := hw.serial k hk
    obtain ⟨i, hi⟩ := Option.isSome_iff_exists.mp (stored_iff_serial.mp (h.stored k hk))
    rw [hi] at hserial
    refine ⟨i, (hw'.serial k hk).trans hserial, ?_, by simp⟩
    obtain ⟨d', hd', rfl⟩ := Option.map_eq_some_iff.mp hserial
    exact hlast d' (Table.get_eq_some.mp hd').1

/-- The first call finds its bound, or nothing to recover. -/
theorem under_tryToStartRecovery (h : Unstarted stores K w) :
    Under stores.handle (interference stores K N)
      (fun r t => r = .ok false ∧ Finished stores K t ∨
        r = .ok true ∧ ∃ bound, Resuming stores K N bound none 0 t)
      (Queue.tryToStartRecovery stores.internalIds : Prog Command (Answer ι) ε Bool) w := by
  refine under_cacheSet fun t hwt => ?_
  have ht := h.interfere hwt
  have hcomplete : Complete stores K (stores.write t recoveryRunning "true") := by
    apply complete_of_ne
    rw [read_write, if_neg (by decide), ht.read_cursor]
    decide
  refine ⟨hcomplete, fun u htu hgiven => ⟨hcomplete.interfere htu, ?_⟩⟩
  have hN : u.docs.rows.length ≤ N := hgiven rfl
  rcases find_last stores.internalIds u.docs with ⟨hnil, hfind⟩ | ⟨d, hd, hlast, hfind⟩
  · have hanswer : (stores.handle (.storageFind Queue.lastDocument) u).1 = .ok [] := hfind
    have hK : ∀ k, k ∉ K := by
      intro k hk
      have hserial : u.docs.serial k = t.docs.serial k := htu.serial k hk
      have hstored := stored_iff_serial.mp (ht.stored k hk)
      rw [← hserial, ← stored_iff_serial, Stored, Table.get, hnil] at hstored
      cases hstored
    rw [hanswer]
    exact under_finish_empty hK fun v hv => .inl ⟨rfl, hv⟩
  · have hanswer : (stores.handle (.storageFind Queue.lastDocument) u).1 = .ok [d] := hfind
    rw [hanswer]
    refine under_cacheSet fun v huv => ?_
    have hv := ht.resuming htu hd hlast hN huv
    exact ⟨hv.complete, .inr ⟨rfl, d.serial, hv⟩⟩

/-! ## The whole call -/

/-- The state in which a number of calls leave the stores. -/
def Resting (stores : Stores ι) (K : Set Key) (N calls : ℕ) (w : World ι) : Prop :=
  (calls = 0 ∧ Unstarted stores K w) ∨ Finished stores K w ∨
    ∃ bound c, Resuming stores K N bound (some c) calls w

theorem Resting.interfere {calls : ℕ} (h : Resting stores K N calls w)
    (hw : Interferes stores K w w') : Resting stores K N calls w' := by
  rcases h with ⟨hcalls, h⟩ | h | ⟨bound, c, h⟩
  · exact .inl ⟨hcalls, h.interfere hw⟩
  · exact .inr (.inl (h.interfere hw))
  · exact .inr (.inr ⟨bound, c, h.interfere hw⟩)

theorem Resting.complete {calls : ℕ} (h : Resting stores K N calls w) : Complete stores K w := by
  rcases h with ⟨-, h⟩ | h | ⟨bound, c, h⟩
  · apply complete_of_ne
    rw [h.read_cursor]
    decide
  · exact fun _ => h.inPools
  · exact h.complete

/-- The cursor has moved up from a text, or the recovery is finished. -/
def CursorAdvanced (stores : Stores ι) (old : String) (w : World ι) : Prop :=
  stores.read w recoveryStorageBreakpointKey = recoveryFinished ∨
    ∃ c, stores.read w recoveryStorageBreakpointKey = stores.internalIds.text c ∧
      ∀ c', old = stores.internalIds.text c' → c' < c

theorem Advanced.resting {bound : ι} {cursor : Option ι} {calls : ℕ}
    (h : Advanced stores K N bound cursor calls w) :
    Resting stores K N (calls + 1) w ∧
      CursorAdvanced stores (cursorText stores.internalIds cursor) w := by
  rcases h with h | ⟨c, hlt, h⟩
  · exact ⟨.inr (.inl h), .inl h.read_cursor⟩
  · refine ⟨.inr (.inr ⟨bound, c, h⟩), .inr ⟨c, h.read_cursor, fun c' hc' => hlt c' ?_⟩⟩
    have hparse := breakpoint_cursorText stores.internalIds cursor
    rw [hc', breakpoint_text] at hparse
    exact (Except.ok.inj hparse).symm

theorem under_recoveryMessagesPool (order : MapOrder) {calls : ℕ}
    (h : Resting stores K N calls w) :
    Under stores.handle (interference stores K N)
      (fun _ t => Resting stores K N (calls + 1) t ∧
        CursorAdvanced stores (stores.read w recoveryStorageBreakpointKey) t)
      (Queue.recoveryMessagesPool stores.internalIds order : Prog Command (Answer ι) ε Bool) w := by
  refine under_cacheGet h.complete fun t hwt => ?_
  rcases h with ⟨rfl, h⟩ | h | ⟨bound, c, h⟩
  · have ht := h.interfere hwt
    rw [h.read_cursor]
    dsimp only
    rw [ht.read_cursor, if_neg (by decide)]
    refine under_cacheGet (Resting.complete (N := N) (.inl ⟨rfl, ht⟩)) fun u htu => ?_
    have hu := ht.interfere htu
    rw [hu.read_running]
    refine (under_tryToStartRecovery hu).bind (fun started v hv => ?_) fun e v hv => ?_
    · rcases hv with ⟨hstarted, hv⟩ | ⟨hstarted, bound, hv⟩
      · cases hstarted
        exact ⟨.inr (.inl hv), .inl hv.read_cursor⟩
      · cases hstarted
        exact (under_recoverPage order hv).imp fun _ _ hadvanced => hadvanced.resting
    · rcases hv with ⟨hv, -⟩ | ⟨hv, -⟩ <;> cases hv
  · have ht := h.interfere hwt
    dsimp only
    rw [ht.read_cursor, if_pos rfl]
    exact ⟨.inr (.inl ht), .inl ht.read_cursor⟩
  · have ht := h.interfere hwt
    rw [h.read_cursor]
    dsimp only
    rw [ht.read_cursor, if_neg (cursorText_ne_finished _ _)]
    refine under_cacheGet ht.complete fun u htu => ?_
    have hu := ht.interfere htu
    rw [hu.read_running]
    have hpage := (under_recoverPage (ε := ε) order hu).imp fun _ _ hadvanced => hadvanced.resting
    have hnot : ¬ (cursorText stores.internalIds (some c) = "" ∧
        ("true" == "true") = false) := by simp
    simp only [pure_eq, Except.map, if_neg hnot]
    exact hpage

end Deckard
