import Deckard.MemoryInvariant

/-!
# What the memory cache releases

`TimeoutMessages` and `UnlockMessages` go through a list and move the entries whose time has
come. Both go on from the element that they have just taken out, which has no successor any
more, so a list gives up one entry in a call. The loop over the lock lists has a variable with
the name of the parameter and runs through all queues.
-/
namespace Deckard

open Binary64 Cache Runs Lifecycle

namespace EntryList

variable {l : EntryList} {p : MemoryMessageEntry → Bool}

/-- Take out the first entry that passes a test. -/
def removeFirst (l : EntryList) (p : MemoryMessageEntry → Bool) : EntryList :=
  (l.entries.find? p).elim l fun value => l.removeEntry value.id

theorem mem_of_mem_removeFirst {e : MemoryMessageEntry} (h : e ∈ (l.removeFirst p).entries) :
    e ∈ l.entries := by
  rw [removeFirst] at h
  cases hfind : l.entries.find? p with
  | none => rwa [hfind] at h
  | some value =>
    rw [hfind] at h
    exact List.mem_of_mem_eraseP h

/-- No entry that passes the test is left if there was at most one. -/
theorem removeFirst_exhausts_iff :
    (∀ e ∈ (l.removeFirst p).entries, p e = false) ↔ (l.entries.filter p).length ≤ 1 := by
  unfold removeFirst
  cases hfind : l.entries.find? p with
  | none =>
    have hnone : l.entries.filter p = [] := by
      rw [List.filter_eq_nil_iff]
      exact List.find?_eq_none.mp hfind
    simpa [hnone] using List.find?_eq_none.mp hfind
  | some value =>
    have hhead : (l.entries.filter p).head? = l.entries.find? p := List.head?_filter
    rw [hfind] at hhead
    obtain ⟨others, hothers⟩ := List.head?_eq_some_iff.mp hhead
    have hids : ((l.entries.filter p).map MemoryMessageEntry.id).Nodup :=
      l.nodup.sublist (List.filter_sublist.map _)
    rw [hothers, List.map_cons, List.nodup_cons] at hids
    have hrest : (l.removeEntry value.id).entries.filter p = others := by
      rw [entries_removeEntry, List.filter_comm, hothers, List.filter_cons_of_neg (by simp),
        List.filter_eq_self]
      intro e he
      have hne : e.id ≠ value.id := fun h => hids.1 (List.mem_map.mpr ⟨e, he, h⟩)
      simpa using hne
    have hnone : (∀ e ∈ (l.removeEntry value.id).entries, p e = false) ↔ others = [] := by
      rw [← hrest, List.filter_eq_nil_iff]
      simp
    rw [Option.elim_some, hnone, hothers]
    simp

end EntryList

namespace MemoryCache

variable {c d : MemoryCache} {queue id : String} {p : MemoryPool}

/-- The condition of `TimeoutMessages`. -/
def timedOutAt (now : Time) (e : MemoryMessageEntry) : Bool :=
  e.score ≤ .ofInt (Dtime.unix now).toInt

/-- The condition of `UnlockMessages`. -/
def unlockedAt (now : Time) (e : MemoryMessageEntry) : Bool :=
  e.lockUntil.toInt64 ≤ Dtime.timeToMs now

theorem pool_move {source destination : MemoryPool} (hne : source ≠ destination)
    (data : MemoryMessageEntry) (q : String) :
    (c.move source destination queue data).pool p q =
      if q ≠ queue then c.pool p q
      else if p = destination then (c.pool p queue).insertEntry data
      else if p = source then (c.pool p queue).removeEntry data.id
      else c.pool p queue := by
  by_cases hq : q = queue
  · subst hq
    by_cases hd : p = destination
    · subst hd
      simp [move, hne.symm]
    · by_cases hs : p = source
      · subst hs
        simp [move, hd]
      · simp [move, hd, hs]
  · simp [move, hq]

theorem timeoutMessages_spec (c : MemoryCache) (clock : Clock) (queue : String) :
    let value := (c.pool .processing queue).entries.find? (timedOutAt (clock 0))
    let out := c.timeoutMessages clock queue
    out.1 = .ids (value.map MemoryMessageEntry.id).toList ∧
      out.2.pool .processing queue =
        (c.pool .processing queue).removeFirst (timedOutAt (clock 0)) ∧
      out.2.pool .active queue = value.elim (c.pool .active queue) (fun value =>
        (c.pool .active queue).insertEntry { value with score := Score.min }) ∧
      ∀ p q, q ≠ queue → out.2.pool p q = c.pool p q := by
  intro value out
  have hvalue : (c.pool .processing queue).entries.find?
      (fun e => e.score ≤ .ofInt (Dtime.unix (clock 0)).toInt) = value := rfl
  simp only [out, timeoutMessages, hvalue, EntryList.removeFirst]
  change _ ∧ _ = value.elim _ _ ∧ _
  cases value with
  | none => simp
  | some value => simp +contextual [pool_move]

section Unlock

variable {lockType : LockType} {now : Time} {defaultScore : Float64}
  {acc acc' : List String × MemoryCache}

/-- The entry that a pass over a lock list moves. -/
def firstUnlocked (c : MemoryCache) (lockType : LockType) (now : Time) (queue : String) :
    Option MemoryMessageEntry :=
  (c.pool (.lock lockType) queue).entries.find? (unlockedAt now)

/-- The lists of a queue after the pass over its lock list. -/
def unlockedPool (c : MemoryCache) (lockType : LockType) (now : Time) (defaultScore : Float64)
    (queue : String) (p : MemoryPool) : EntryList :=
  match firstUnlocked c lockType now queue with
  | none => c.pool p queue
  | some value =>
      let score := if Score.isUndefined value.score then defaultScore else value.score
      if p = .active then (c.pool p queue).insertEntry { value with score }
      else if p = .lock lockType then (c.pool p queue).removeEntry value.id
      else c.pool p queue

theorem find?_unlocked (c : MemoryCache) (lockType : LockType) (now : Time) (queue : String) :
    (c.pool (.lock lockType) queue).entries.find?
        (fun e => e.lockUntil.toInt64 ≤ Dtime.timeToMs now) =
      firstUnlocked c lockType now queue := rfl

theorem unlockQueue_fst (queue : String) :
    (unlockQueue lockType (Dtime.timeToMs now) defaultScore acc queue).1 =
      acc.1 ++ ((firstUnlocked acc.2 lockType now queue).map MemoryMessageEntry.id).toList := by
  rw [unlockQueue, find?_unlocked]
  cases firstUnlocked acc.2 lockType now queue <;> simp

theorem pool_unlockQueue (queue q : String) :
    (unlockQueue lockType (Dtime.timeToMs now) defaultScore acc queue).2.pool p q =
      if q = queue then unlockedPool acc.2 lockType now defaultScore q p
      else acc.2.pool p q := by
  rw [unlockQueue, find?_unlocked]
  by_cases hq : q = queue
  · subst hq
    rw [if_pos rfl, unlockedPool]
    cases firstUnlocked acc.2 lockType now q with
    | none => simp
    | some value => simp [pool_move]
  · rw [if_neg hq]
    cases firstUnlocked acc.2 lockType now queue with
    | none => simp
    | some value => simp [pool_move, hq]

/-- Every queue on the way gives up one entry, whatever happens to the other queues. -/
theorem foldl_unlockQueue (lockType : LockType) (now : Time) (defaultScore : Float64)
    (acc : List String × MemoryCache) {order : List String} (hnodup : order.Nodup) :
    let out := order.foldl (unlockQueue lockType (Dtime.timeToMs now) defaultScore) acc
    out.1 = acc.1 ++ order.flatMap (fun q =>
        ((firstUnlocked acc.2 lockType now q).map MemoryMessageEntry.id).toList) ∧
      ∀ p q, out.2.pool p q =
        if q ∈ order then unlockedPool acc.2 lockType now defaultScore q p
        else acc.2.pool p q := by
  induction order generalizing acc with
  | nil => simp
  | cons queue order ih =>
    obtain ⟨hnew, hrest⟩ := List.nodup_cons.mp hnodup
    obtain ⟨hfst, hpool⟩ := ih
      (unlockQueue lockType (Dtime.timeToMs now) defaultScore acc queue) hrest
    -- the pass over the first queue leaves the lists of the other queues as they are
    have hother : ∀ q ∈ order, ∀ p,
        (unlockQueue lockType (Dtime.timeToMs now) defaultScore acc queue).2.pool p q =
          acc.2.pool p q := by
      intro q hq p
      rw [pool_unlockQueue, if_neg]
      rintro rfl
      exact hnew hq
    constructor
    · rw [List.foldl_cons, hfst, unlockQueue_fst, List.flatMap_cons, List.append_assoc]
      congr 2
      apply List.flatMap_congr
      intro q hq
      simp only [firstUnlocked, hother q hq]
    · intro p q
      rw [List.foldl_cons, hpool p q]
      by_cases hq : q ∈ order
      · rw [if_pos hq, if_pos (List.mem_cons_of_mem _ hq)]
        simp only [unlockedPool, firstUnlocked, hother q hq]
      · rw [if_neg hq, pool_unlockQueue]
        simp [hq]

theorem unlockMessages_spec (c : MemoryCache) (clock : Clock) (lockType : LockType)
    {order : List String} (hnodup : order.Nodup) :
    let out := c.unlockMessages clock lockType order
    out.1 = .ids (order.flatMap fun q =>
        ((firstUnlocked c lockType (clock 1) q).map MemoryMessageEntry.id).toList) ∧
      ∃ defaultScore, ∀ p q, out.2.pool p q =
        if q ∈ order then unlockedPool c lockType (clock 1) defaultScore q p else c.pool p q := by
  obtain ⟨hfst, hpool⟩ := foldl_unlockQueue lockType (clock 1)
    (if lockType = .lockAck then Score.getScoreByDefaultAlgorithm (clock 0) else Score.min)
    ([], c) hnodup
  exact ⟨congrArg Result.ids hfst, _, hpool⟩

theorem unlockedPool_lock (defaultScore : Float64) (queue : String) :
    unlockedPool c lockType now defaultScore queue (.lock lockType) =
      (c.pool (.lock lockType) queue).removeFirst (unlockedAt now) := by
  rw [unlockedPool, EntryList.removeFirst, ← firstUnlocked]
  cases firstUnlocked c lockType now queue <;> simp

theorem unlockedPool_processing (defaultScore : Float64) (queue : String) :
    unlockedPool c lockType now defaultScore queue .processing = c.pool .processing queue := by
  rw [unlockedPool]
  cases firstUnlocked c lockType now queue <;> simp

theorem firstUnlocked_eq_none : firstUnlocked c lockType now queue = none ↔
    ∀ e ∈ (c.pool (.lock lockType) queue).entries, unlockedAt now e = false := by
  rw [firstUnlocked, List.find?_eq_none]
  simp

theorem unlockedPool_of_none (h : firstUnlocked c lockType now queue = none) :
    unlockedPool c lockType now defaultScore queue p = c.pool p queue := by
  rw [unlockedPool, h]

theorem mem_ids_unlockedPool_active :
    id ∈ (unlockedPool c lockType now defaultScore queue .active).ids ↔
      (∃ value, firstUnlocked c lockType now queue = some value ∧ id = value.id) ∨
        id ∈ (c.pool .active queue).ids := by
  rw [unlockedPool]
  cases firstUnlocked c lockType now queue <;> simp

theorem mem_ids_of_firstUnlocked {value : MemoryMessageEntry}
    (h : firstUnlocked c lockType now queue = some value) :
    value.id ∈ (c.pool (.lock lockType) queue).ids :=
  find_mem_ids h

/-- The pairs of queue and id that the passes over the lock lists move. -/
def unlockedPairs (c : MemoryCache) (lockType : LockType) (now : Time) (order : List String) :
    List (String × String) :=
  order.flatMap fun q => ((firstUnlocked c lockType now q).map fun value => (q, value.id)).toList

theorem map_snd_unlockedPairs (order : List String) :
    (unlockedPairs c lockType now order).map Prod.snd = order.flatMap fun q =>
      ((firstUnlocked c lockType now q).map MemoryMessageEntry.id).toList := by
  rw [unlockedPairs, List.map_flatMap]
  congr 1
  funext q
  cases firstUnlocked c lockType now q <;> rfl

theorem mem_unlockedPairs {order : List String} :
    (queue, id) ∈ unlockedPairs c lockType now order ↔
      queue ∈ order ∧ ∃ value, firstUnlocked c lockType now queue = some value ∧ id = value.id := by
  simp only [unlockedPairs, List.mem_flatMap, Option.mem_toList, Option.map_eq_some_iff,
    Prod.mk.injEq]
  constructor
  · rintro ⟨_, hq, value, hvalue, rfl, rfl⟩
    exact ⟨hq, value, hvalue, rfl⟩
  · rintro ⟨hq, value, hvalue, rfl⟩
    exact ⟨queue, hq, value, hvalue, rfl, rfl⟩

theorem nodup_unlockedPairs {order : List String} (hnodup : order.Nodup) :
    (unlockedPairs c lockType now order).Nodup := by
  rw [unlockedPairs, List.nodup_flatMap]
  refine ⟨fun q _ => ?_, hnodup.imp fun hne => ?_⟩
  · cases firstUnlocked c lockType now q <;> simp
  · rw [Function.onFun, List.disjoint_left]
    intro x hx hx'
    simp only [Option.mem_toList, Option.map_eq_some_iff] at hx hx'
    obtain ⟨_, -, rfl⟩ := hx
    obtain ⟨_, -, heq⟩ := hx'
    exact hne (congrArg Prod.fst heq).symm

theorem VisitOrder.mem {order : List String} (horder : c.VisitOrder lockType order)
    (h : id ∈ (c.pool (.lock lockType) queue).ids) : queue ∈ order := by
  apply horder.2
  intro hempty
  simp [EntryList.ids, hempty] at h

/-- Every lock list gives up the first entry whose time has come. -/
theorem VisitOrder.pool_lock {order : List String} (horder : c.VisitOrder lockType order)
    (clock : Clock) (queue : String) :
    (c.unlockMessages clock lockType order).2.pool (.lock lockType) queue =
      (c.pool (.lock lockType) queue).removeFirst (unlockedAt (clock 1)) := by
  obtain ⟨-, defaultScore, hpool⟩ := unlockMessages_spec c clock lockType horder.1
  rw [hpool, ← unlockedPool_lock defaultScore]
  by_cases hq : queue ∈ order
  · rw [if_pos hq]
  · have hempty : (c.pool (.lock lockType) queue).entries = [] := by
      by_contra hne
      exact hq (horder.2 queue hne)
    rw [if_neg hq, unlockedPool_of_none]
    simp [firstUnlocked, hempty]

end Unlock

/-- All entries of the queue that are due have gone to its active list, and their ids are
returned. -/
structure TimeoutComplete (c : MemoryCache) (clock : Clock) (queue : String) : Prop where
  exhausted : ∀ e ∈ ((c.timeoutMessages clock queue).2.pool .processing queue).entries,
    timedOutAt (clock 0) e = false
  returned : ∃ ids, (c.timeoutMessages clock queue).1 = .ids ids ∧ ids.Nodup ∧ ∀ id, id ∈ ids ↔
    id ∈ (c.pool .processing queue).ids ∧
      id ∈ ((c.timeoutMessages clock queue).2.pool .active queue).ids

/-- All entries of the queue whose lock is over have been moved, and the ids returned are
those of the messages that went from a lock list to the active list. -/
structure UnlockComplete (c : MemoryCache) (clock : Clock) (queue : String) (lockType : LockType)
    (order : List String) : Prop where
  exhausted : ∀ e ∈ ((c.unlockMessages clock lockType order).2.pool (.lock lockType) queue).entries,
    unlockedAt (clock 1) e = false
  returned : ∃ moved : List (String × String),
    (c.unlockMessages clock lockType order).1 = .ids (moved.map Prod.snd) ∧ moved.Nodup ∧
      ∀ q id, (q, id) ∈ moved ↔ id ∈ (c.pool (.lock lockType) q).ids ∧
        id ∈ ((c.unlockMessages clock lockType order).2.pool .active q).ids

theorem timeoutComplete_iff {S : Spots} (hc : Represents c S) (clock : Clock) (queue : String) :
    TimeoutComplete c clock queue ↔
      ((c.pool .processing queue).entries.filter (timedOutAt (clock 0))).length ≤ 1 := by
  obtain ⟨hres, hproc, hact, -⟩ := timeoutMessages_spec c clock queue
  rw [← EntryList.removeFirst_exhausts_iff, ← hproc]
  refine ⟨fun h => h.exhausted, fun h => ⟨h, _, hres, ?_, fun id => ?_⟩⟩
  · cases (c.pool .processing queue).entries.find? (timedOutAt (clock 0)) <;> simp
  · rw [hact]
    have hdisjoint : id ∈ (c.pool .processing queue).ids → id ∉ (c.pool .active queue).ids :=
      fun h h' => absurd (hc.unique h h') (by simp)
    cases hfind : (c.pool .processing queue).entries.find? (timedOutAt (clock 0)) with
    | none => simpa using hdisjoint
    | some value =>
      have hvalue := find_mem_ids hfind
      simp only [Option.map_some, Option.toList_some, List.mem_singleton, Option.elim_some,
        EntryList.mem_ids_insertEntry]
      constructor
      · rintro rfl
        exact ⟨hvalue, .inl rfl⟩
      · rintro ⟨hid, rfl | hid'⟩
        · rfl
        · exact absurd hid' (hdisjoint hid)

theorem unlockComplete_iff {S : Spots} (hc : Represents c S) (clock : Clock) (queue : String)
    (lockType : LockType) {order : List String} (horder : c.VisitOrder lockType order) :
    UnlockComplete c clock queue lockType order ↔
      ((c.pool (.lock lockType) queue).entries.filter (unlockedAt (clock 1))).length ≤ 1 := by
  obtain ⟨hres, defaultScore, hpool⟩ := unlockMessages_spec c clock lockType horder.1
  rw [← EntryList.removeFirst_exhausts_iff, ← horder.pool_lock]
  refine ⟨fun h => h.exhausted, fun h => ⟨h, unlockedPairs c lockType (clock 1) order, ?_,
    nodup_unlockedPairs horder.1, fun q id => ?_⟩⟩
  · rw [hres, map_snd_unlockedPairs]
  rw [mem_unlockedPairs, hpool]
  constructor
  · rintro ⟨hq, value, hvalue, rfl⟩
    rw [if_pos hq, mem_ids_unlockedPool_active]
    exact ⟨mem_ids_of_firstUnlocked hvalue, .inl ⟨value, hvalue, rfl⟩⟩
  · rintro ⟨hlocked, hactive⟩
    have hq : q ∈ order := horder.mem hlocked
    rw [if_pos hq, mem_ids_unlockedPool_active] at hactive
    refine ⟨hq, hactive.resolve_right fun h => ?_⟩
    exact absurd (hc.unique hlocked h) (by simp)

/-- In every reachable state and at every time, a call that releases messages releases all
that are due exactly if there is at most one. -/
theorem releases_complete_iff {tr : List Call} (hrun : Run machine new tr c) (clock : Clock)
    (queue : String) :
    (TimeoutComplete c clock queue ↔
      ((c.pool .processing queue).entries.filter (timedOutAt (clock 0))).length ≤ 1) ∧
    ∀ lockType order, c.VisitOrder lockType order →
      (UnlockComplete c clock queue lockType order ↔
        ((c.pool (.lock lockType) queue).entries.filter (unlockedAt (clock 1))).length ≤ 1) := by
  obtain ⟨-, S, hc, -⟩ := refines.run hrun (fun _ _ => trivial) stages_new
  exact ⟨timeoutComplete_iff hc clock queue,
    fun lockType order horder => unlockComplete_iff hc clock queue lockType horder⟩

theorem releases_complete_oneDelivery :
    TimeoutComplete oneDelivery (fun _ => 400000000000000) "q" ∧
      ∃ e ∈ (oneDelivery.pool .processing "q").entries, timedOutAt 400000000000000 e = true := by
  obtain ⟨tr, hrun, -⟩ := run_oneDelivery
  exact ⟨(releases_complete_iff hrun _ "q").1.mpr (by decide +kernel), by decide +kernel⟩

/-- Two messages are handed out for a deadline of one. -/
def twoDeliveries : MemoryCache :=
  ((new.insert "q" [{ id := "a", queue := "q" }, { id := "b", queue := "q" }]).2.pullMessages
    (fun _ => 0) "q" 2 none none 1).2

/-- Two seconds later both are due, and one of them is released. -/
theorem due_message_left :
    ∃ tr, Run machine new tr twoDeliveries ∧
      ¬ TimeoutComplete twoDeliveries (fun _ => 2000000000) "q" := by
  refine ⟨_, .cons (.insert "q" [{ id := "a", queue := "q" }, { id := "b", queue := "q" }])
    (.cons (.pullMessages (fun _ => 0) "q" 2 none none 1) (.nil _)), fun h => ?_⟩
  have hleft : ∃ e ∈ ((twoDeliveries.timeoutMessages (fun _ => 2000000000) "q").2.pool
      .processing "q").entries, timedOutAt 2000000000 e = true := by
    decide +kernel
  obtain ⟨e, he, hdue⟩ := hleft
  rw [h.exhausted e he] at hdue
  cases hdue

section Confinement

variable {op : Op} {res : Result}

/-- A call changes the lists of its own queue only, and the ids that it returns are those of
messages of that queue. -/
structure Confined (c : MemoryCache) (op : Op) (res : Result) (d : MemoryCache) : Prop where
  frame : ∀ q ≠ op.queue, ∀ p, d.pool p q = c.pool p q
  named : ∀ ids, res = .ids ids → ∀ id ∈ ids, Present d op.queue id ∧
    (Present c op.queue id ∨ Inserted op.queue id (op, res))

/-- No lock of another queue is over when a queue is unlocked. -/
def OthersLocked (c : MemoryCache) : Op → Prop
  | .unlockMessages clock queue lockType => ∀ q ≠ queue,
      ∀ e ∈ (c.pool (.lock lockType) q).entries, unlockedAt (clock 1) e = false
  | .insert .. | .pullMessages .. | .makeAvailable .. | .lockMessage .. | .timeoutMessages ..
  | .remove .. => True

theorem confined_insert (queue : String) (messages : List Message) :
    Confined c (.insert queue messages) (c.insert queue messages).1
      (c.insert queue messages).2 := by
  simp only [insert]
  split_ifs
  · exact ⟨fun _ _ _ => rfl, fun _ h => by cases h⟩
  · refine ⟨fun q hq p => ?_, fun ids hids id hid => ?_⟩
    · have hq' : q ≠ queue := hq
      simp [hq']
    · cases hids
      refine ⟨⟨.active, ?_⟩, .inr ⟨rfl, hid⟩⟩
      simpa [Op.queue] using mem_ids_foldl_createEntry.mpr (Or.inl hid)

theorem confined_pullMessages (clock : Clock) (queue : String) (n : Int64)
    (minScore maxScore : Option Float64) (ackDeadlineMs : Int64) :
    Confined c (.pullMessages clock queue n minScore maxScore ackDeadlineMs)
      (c.pullMessages clock queue n minScore maxScore ackDeadlineMs).1
      (c.pullMessages clock queue n minScore maxScore ackDeadlineMs).2 := by
  obtain ⟨hres, -, hproc, hframe⟩ :=
    pullMessages_spec c clock queue n minScore maxScore ackDeadlineMs
  refine ⟨fun q hq p => hframe p q fun h => absurd h hq, fun ids hids id hid => ?_⟩
  cases hids.symm.trans hres
  have hprocessing : id ∈ ((c.pullMessages clock queue n minScore maxScore ackDeadlineMs).2.pool
      .processing queue).ids := by
    rw [hproc, mem_ids_foldl_insertEntry, ids_processingEntries]
    exact .inl hid
  have hactive : id ∈ (c.pool .active queue).ids :=
    ((List.filter_sublist.trans (List.take_sublist _ _)).map _).subset hid
  exact ⟨⟨.processing, hprocessing⟩, .inl ⟨.active, hactive⟩⟩

theorem confined_timeoutMessages (clock : Clock) (queue : String) :
    Confined c (.timeoutMessages clock queue) (c.timeoutMessages clock queue).1
      (c.timeoutMessages clock queue).2 := by
  obtain ⟨hres, -, hact, hframe⟩ := timeoutMessages_spec c clock queue
  refine ⟨fun q hq p => hframe p q hq, fun ids hids id hid => ?_⟩
  cases hids.symm.trans hres
  obtain ⟨value, hvalue, rfl⟩ := Option.map_eq_some_iff.mp (Option.mem_toList.mp hid)
  have hactive : value.id ∈ ((c.timeoutMessages clock queue).2.pool .active queue).ids := by
    rw [hact, hvalue]
    simp
  exact ⟨⟨.active, hactive⟩, .inl ⟨.processing, find_mem_ids hvalue⟩⟩

theorem confined_makeAvailable (message : Message) :
    Confined c (.makeAvailable message) (c.makeAvailable message).1
      (c.makeAvailable message).2 := by
  unfold makeAvailable
  split_ifs
  all_goals refine ⟨fun q hq p => ?_, fun _ h => by cases h⟩
  · rfl
  · have hq' : q ≠ message.queue := hq
    simp [pool_move, hq']
  · rfl

theorem confined_lockMessage (clock : Clock) (message : Message) (lockType : LockType) :
    Confined c (.lockMessage clock message lockType) (c.lockMessage clock message lockType).1
      (c.lockMessage clock message lockType).2 := by
  unfold lockMessage
  split_ifs
  all_goals refine ⟨fun q hq p => ?_, fun _ h => by cases h⟩
  · rfl
  · rfl
  · have hq' : q ≠ message.queue := hq
    simp [pool_move, hq']
  · rfl

theorem confined_remove (queue : String) (ids : List String) :
    Confined c (.remove queue ids) (c.remove queue ids).1 (c.remove queue ids).2 := by
  refine ⟨fun q hq p => ?_, fun _ h => by cases h⟩
  have hq' : q ≠ queue := hq
  simp [remove, hq']

/-- An unlocking stays with its queue exactly if no lock of another queue is over. -/
theorem confined_unlockMessages_iff (clock : Clock) (queue : String) (lockType : LockType)
    {order : List String} (horder : c.VisitOrder lockType order) :
    Confined c (.unlockMessages clock queue lockType) (c.unlockMessages clock lockType order).1
        (c.unlockMessages clock lockType order).2 ↔
      OthersLocked c (.unlockMessages clock queue lockType) := by
  obtain ⟨hres, defaultScore, hpool⟩ := unlockMessages_spec c clock lockType horder.1
  constructor
  · intro h q hq
    rw [← firstUnlocked_eq_none]
    by_contra hsome
    obtain ⟨value, hvalue⟩ := Option.ne_none_iff_exists'.mp hsome
    have hid := mem_ids_of_firstUnlocked hvalue
    -- the entry is missing from the list that should be unchanged
    have hframe := h.frame q hq (.lock lockType)
    rw [horder.pool_lock, EntryList.removeFirst, ← firstUnlocked, hvalue, Option.elim_some]
      at hframe
    rw [← hframe] at hid
    exact (EntryList.mem_ids_removeEntry.mp hid).1 rfl
  · intro hlocked
    refine ⟨fun q hq p => ?_, fun ids hids id hid => ?_⟩
    · rw [hpool]
      split_ifs
      · exact unlockedPool_of_none (firstUnlocked_eq_none.mpr (hlocked q hq))
      · rfl
    · cases hids.symm.trans hres
      obtain ⟨q, hmem, hid⟩ := List.mem_flatMap.mp hid
      obtain ⟨value, hvalue, rfl⟩ := Option.map_eq_some_iff.mp (Option.mem_toList.mp hid)
      have hq : q = queue := by
        by_contra hne
        exact absurd (hvalue.symm.trans (firstUnlocked_eq_none.mpr (hlocked q hne))) (by simp)
      subst hq
      have hactive : value.id ∈
          ((c.unlockMessages clock lockType order).2.pool .active q).ids := by
        rw [hpool, if_pos hmem, mem_ids_unlockedPool_active]
        exact .inl ⟨value, hvalue, rfl⟩
      exact ⟨⟨.active, hactive⟩, .inl ⟨.lock lockType, mem_ids_of_firstUnlocked hvalue⟩⟩

/-- For every state and every call, the call stays with its queue exactly if it does not
unlock while the lock of another queue is over. -/
theorem confined_iff (hcall : machine c op res d) :
    Confined c op res d ↔ OthersLocked c op := by
  obtain ⟨out, hout⟩ : ∃ out, out = (res, d) := ⟨_, rfl⟩
  rw [machine, ← hout] at hcall
  obtain ⟨rfl, rfl⟩ := Prod.ext_iff.mp hout
  cases hcall with
  | insert q messages => exact iff_of_true (confined_insert q messages) trivial
  | pullMessages clock q n lo hi dl =>
    exact iff_of_true (confined_pullMessages clock q n lo hi dl) trivial
  | makeAvailable message => exact iff_of_true (confined_makeAvailable message) trivial
  | lockMessage clock message t => exact iff_of_true (confined_lockMessage clock message t) trivial
  | unlockMessages clock q t order horder => exact confined_unlockMessages_iff clock q t horder
  | timeoutMessages clock q => exact iff_of_true (confined_timeoutMessages clock q) trivial
  | remove q ids => exact iff_of_true (confined_remove q ids) trivial

/-- Calls of other queues that unlock nothing leave the lists of a queue. -/
theorem pool_of_run {tr : List Call} {q : String} (hrun : Run machine c tr d)
    (hlocked : ∀ e ∈ tr, ∀ c, OthersLocked c e.1) (hqueue : ∀ e ∈ tr, q ≠ e.1.queue)
    (p : MemoryPool) : d.pool p q = c.pool p q := by
  induction hrun with
  | nil c => rfl
  | cons hstep _ ih =>
    obtain ⟨hlocked₁, hlocked⟩ := List.forall_mem_cons.mp hlocked
    obtain ⟨hqueue₁, hqueue⟩ := List.forall_mem_cons.mp hqueue
    rw [ih hlocked hqueue]
    exact ((confined_iff hstep).mpr (hlocked₁ _)).frame q hqueue₁ p

/-- A message of a queue is handed out and locked for some milliseconds. -/
def lockOne (c : MemoryCache) (queue id : String) (lockMs : Int64) : MemoryCache :=
  (((c.insert queue [{ id, queue }]).2.pullMessages (fun _ => 0) queue 1 none none
    0).2.lockMessage (fun _ => 0) { id, queue, lockMs } .lockAck).2

theorem run_lockOne (c : MemoryCache) (queue id : String) (lockMs : Int64) :
    ∃ tr, Run machine c tr (c.lockOne queue id lockMs) ∧
      ∀ e ∈ tr, e.1.queue = queue ∧ ∀ c, OthersLocked c e.1 := by
  refine ⟨_, .cons (.insert queue [{ id, queue }])
    (.cons (.pullMessages (fun _ => 0) queue 1 none none 0)
      (.cons (.lockMessage (fun _ => 0) { id, queue, lockMs } .lockAck) (.nil _))), ?_⟩
  simp [Op.queue, OthersLocked]

/-- One message, of the queue `r`, is locked. -/
def oneLocked : MemoryCache := new.lockOne "r" "b" 1

/-- Two messages are locked, that of `q` for a shorter time. -/
def twoLocked : MemoryCache := (new.lockOne "r" "b" 1000).lockOne "q" "a" 1

theorem pool_lockOne {q queue id : String} {lockMs : Int64} (hq : q ≠ queue) (p : MemoryPool) :
    (c.lockOne queue id lockMs).pool p q = c.pool p q := by
  obtain ⟨tr, hrun, htr⟩ := run_lockOne c queue id lockMs
  exact pool_of_run hrun (fun e he => (htr e he).2) (fun e he => (htr e he).1.symm ▸ hq) p

theorem visitOrder_oneLocked : oneLocked.VisitOrder .lockAck ["r"] := by
  refine ⟨by simp, fun q hne => ?_⟩
  by_contra hq
  rw [oneLocked, pool_lockOne (by simpa using hq)] at hne
  exact hne rfl

theorem visitOrder_twoLocked : twoLocked.VisitOrder .lockAck ["q", "r"] := by
  refine ⟨by simp, fun q hne => ?_⟩
  by_contra hq
  simp only [List.mem_cons, List.not_mem_nil, or_false, not_or] at hq
  rw [twoLocked, pool_lockOne hq.1, pool_lockOne hq.2] at hne
  exact hne rfl

/-- The unlocking of the queue `q` leaves the lock of `r`, which is not over. -/
theorem confined_twoLocked :
    (twoLocked.unlockMessages (fun _ => 1000000) .lockAck ["q", "r"]).1 = .ids ["a"] ∧
    Confined twoLocked (.unlockMessages (fun _ => 1000000) "q" .lockAck)
      (twoLocked.unlockMessages (fun _ => 1000000) .lockAck ["q", "r"]).1
      (twoLocked.unlockMessages (fun _ => 1000000) .lockAck ["q", "r"]).2 := by
  refine ⟨by decide +kernel,
    (confined_iff (.unlockMessages _ _ _ _ visitOrder_twoLocked)).mpr fun q hq e he => ?_⟩
  have hr : q = "r" := by
    have hmem := visitOrder_twoLocked.2 q (List.ne_nil_of_mem he)
    simpa [hq] using hmem
  subst hr
  have hall : ((twoLocked.pool (.lock .lockAck) "r").entries.all fun e =>
      !unlockedAt 1000000 e) = true := by
    decide +kernel
  simpa using List.all_eq_true.mp hall e he

/-- The unlocking of the queue `q` releases and returns the message of `r`. -/
theorem unlocking_reaches_other_queue :
    ∃ tr res d, Run machine new tr oneLocked ∧
      machine oneLocked (.unlockMessages (fun _ => 1000000) "q" .lockAck) res d ∧
      res = .ids ["b"] ∧ "b" ∈ (d.pool .active "r").ids ∧
      ¬ Confined oneLocked (.unlockMessages (fun _ => 1000000) "q" .lockAck) res d := by
  obtain ⟨tr, hrun, -⟩ := run_lockOne new "r" "b" 1
  refine ⟨tr, _, _, hrun, .unlockMessages _ _ _ _ visitOrder_oneLocked, by decide +kernel,
    by decide +kernel, fun h => ?_⟩
  have hframe := congrArg EntryList.ids (h.frame "r" (by decide) (.lock .lockAck))
  exact absurd hframe (by decide +kernel)

end Confinement

end MemoryCache

end Deckard
