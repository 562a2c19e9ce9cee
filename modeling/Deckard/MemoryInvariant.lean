import Deckard.MemoryRefinement

/-!
# Representation invariant of the memory cache

The lists are kept in the order of the scores. Scores compare like numbers as long as none
of them is NaN, so the invariant carries that too. An entry is rescored only on its way
from one list to another.
-/
namespace Deckard

open Binary64 Cache Runs Lifecycle

/-- Entries in the order of their scores, which are numbers. -/
structure EntryList.Ordered (l : EntryList) : Prop where
  numeric : ∀ e ∈ l.entries, e.score ≠ .nan
  sorted : l.entries.Pairwise fun a b => a.score ≤ b.score

namespace EntryList

variable {l : EntryList} {data : MemoryMessageEntry}

theorem ordered_empty : empty.Ordered := ⟨by simp [empty], List.Pairwise.nil⟩

theorem Ordered.removeEntry (h : l.Ordered) (id : String) : (l.removeEntry id).Ordered :=
  ⟨fun e he => h.numeric e (List.mem_of_mem_eraseP he), h.sorted.sublist List.eraseP_sublist⟩

theorem pairwise_orderedInsert {es : List MemoryMessageEntry} (hdata : data.score ≠ .nan)
    (hes : ∀ e ∈ es, e.score ≠ .nan) (hsorted : es.Pairwise fun a b => a.score ≤ b.score) :
    (es.orderedInsert (fun a b => a.score ≤ b.score) data).Pairwise
      fun a b => a.score ≤ b.score := by
  induction es with
  | nil => exact List.pairwise_singleton _ _
  | cons e es ih =>
    obtain ⟨he, hrest⟩ := List.forall_mem_cons.mp hes
    obtain ⟨hle, hsorted'⟩ := List.pairwise_cons.mp hsorted
    rw [List.orderedInsert]
    split_ifs with h
    · refine List.pairwise_cons.mpr ⟨fun b hb => ?_, hsorted⟩
      rcases List.mem_cons.mp hb with rfl | hb
      · exact h
      · exact Float64.le_trans h (hle b hb)
    · refine List.pairwise_cons.mpr ⟨fun b hb => ?_, ih hrest hsorted'⟩
      rcases (List.mem_orderedInsert _).mp hb with rfl | hb
      · exact Float64.le_of_not_le hdata he h
      · exact hle b hb

theorem Ordered.insertEntry (h : l.Ordered) (hdata : data.score ≠ .nan) :
    (l.insertEntry data).Ordered := by
  have hrest := h.removeEntry data.id
  refine ⟨fun e he => ?_, pairwise_orderedInsert hdata hrest.numeric hrest.sorted⟩
  rcases (List.mem_orderedInsert _).mp he with rfl | he
  · exact hdata
  · exact hrest.numeric e he

theorem Ordered.foldl_insertEntry {es : List MemoryMessageEntry} (h : l.Ordered)
    (hes : ∀ e ∈ es, e.score ≠ .nan) : (es.foldl EntryList.insertEntry l).Ordered := by
  induction es generalizing l with
  | nil => exact h
  | cons e es ih =>
    obtain ⟨he, hrest⟩ := List.forall_mem_cons.mp hes
    exact ih (h.insertEntry he) hrest

end EntryList

/-- The calls of the invariant: no score of a message is NaN, and a pull asks for at least
one message. -/
def Cache.Op.Supported : Op → Prop
  | .insert _ messages => ∀ m ∈ messages, m.score ≠ .nan
  | .pullMessages _ _ n _ _ _ => 1 ≤ n.toInt
  | .makeAvailable message => message.score ≠ .nan
  | .lockMessage _ message _ => message.score ≠ .nan
  | .unlockMessages .. | .timeoutMessages .. | .remove .. => True

namespace MemoryCache

/-- All lists are in order. -/
def Ordered (c : MemoryCache) : Prop := ∀ p queue, (c.pool p queue).Ordered

variable {c d : MemoryCache} {queue id : String} {p p' : MemoryPool}

theorem ordered_new : Ordered new := fun _ _ => EntryList.ordered_empty

theorem Ordered.setPool (h : Ordered c) {l : EntryList} (hl : l.Ordered) (p : MemoryPool)
    (queue : String) : Ordered (c.setPool p queue l) := by
  intro p' q
  rw [pool_setPool]
  split_ifs
  · exact hl
  · exact h p' q

theorem Ordered.move (h : Ordered c) {data : MemoryMessageEntry} (hdata : data.score ≠ .nan)
    (source destination : MemoryPool) (queue : String) :
    Ordered (c.move source destination queue data) := by
  have hremoved := h.setPool ((h source queue).removeEntry data.id) source queue
  exact hremoved.setPool ((hremoved destination queue).insertEntry hdata) destination queue

theorem Ordered.makeAvailable (h : Ordered c) {message : Message} (hm : message.score ≠ .nan) :
    Ordered (c.makeAvailable message).2 := by
  unfold MemoryCache.makeAvailable
  split_ifs
  · exact h
  · exact h.move hm _ _ _
  · exact h

theorem Ordered.lockMessage (h : Ordered c) (clock : Clock) {message : Message}
    (hm : message.score ≠ .nan) (lockType : LockType) :
    Ordered (c.lockMessage clock message lockType).2 := by
  unfold MemoryCache.lockMessage
  split_ifs
  · exact h
  · exact h
  · exact h.move hm _ _ _
  · exact h

theorem Ordered.unlockQueue {acc : List String × MemoryCache} (h : Ordered acc.2)
    {defaultScore : Float64} (hdefault : defaultScore ≠ .nan) (lockType : LockType)
    (nowMs : Int64) (queue : String) :
    Ordered (unlockQueue lockType nowMs defaultScore acc queue).2 := by
  unfold MemoryCache.unlockQueue
  split
  · exact h
  · rename_i value hfind
    have hvalue := (h (.lock lockType) queue).numeric value (List.mem_of_find?_eq_some hfind)
    refine h.move ?_ _ _ _
    change (if Score.isUndefined value.score then defaultScore else value.score) ≠ .nan
    split_ifs
    · exact hdefault
    · exact hvalue

theorem Ordered.unlockMessages (h : Ordered c) (clock : Clock) (lockType : LockType)
    (order : List String) : Ordered (c.unlockMessages clock lockType order).2 := by
  have hdefault : (if lockType = .lockAck then Score.getScoreByDefaultAlgorithm (clock 0)
      else Score.min) ≠ .nan := by
    cases lockType <;> exact Float64.ofInt_ne_nan _
  exact List.foldlRecOn (motive := fun (acc : List String × MemoryCache) => Ordered acc.2) order _ h
    fun acc hacc q _ => Ordered.unlockQueue hacc hdefault _ _ q

theorem Ordered.timeoutMessages (h : Ordered c) (clock : Clock) (queue : String) :
    Ordered (c.timeoutMessages clock queue).2 := by
  simp only [MemoryCache.timeoutMessages]
  split
  · exact h
  · exact h.move (Float64.ofInt_ne_nan _) _ _ _

/-- Both lists stay in order through the rounds of a pull, and what is set aside can be
put back. -/
structure PullState.Ordered (st : PullState) : Prop where
  active : st.active.Ordered
  processing : st.processing.Ordered
  filteredOut : ∀ e ∈ st.filteredOut, e.score ≠ .nan

theorem PullState.Ordered.pullLoop {st : PullState} (h : st.Ordered) (clock : Clock)
    (deadline : Int64) (minScore maxScore : Option Float64) (n : ℕ) :
    (pullLoop clock deadline minScore maxScore n st).Ordered := by
  induction n generalizing st with
  | zero => exact h
  | succ n ih =>
    unfold MemoryCache.pullLoop
    split
    · exact h
    · rename_i entry rest hentries
      have hentry := h.active.numeric entry (by simp [hentries])
      split_ifs
      · refine ih ⟨h.active.removeEntry _, h.processing, fun e he => ?_⟩
        rcases List.mem_append.mp he with he | he
        · exact h.filteredOut e he
        · rwa [List.mem_singleton.mp he]
      · exact ih ⟨h.active.removeEntry _, h.processing.insertEntry (Float64.ofInt_ne_nan _),
          h.filteredOut⟩

theorem Ordered.pullMessages (h : Ordered c) (clock : Clock) (queue : String) (n : Int64)
    (minScore maxScore : Option Float64) (ackDeadlineMs : Int64) :
    Ordered (c.pullMessages clock queue n minScore maxScore ackDeadlineMs).2 := by
  have hstart : PullState.Ordered ⟨c.pool .active queue, c.pool .processing queue, [], []⟩ :=
    ⟨h .active queue, h .processing queue, by simp⟩
  have hend := hstart.pullLoop clock (if ackDeadlineMs = 0 then defaultTimeoutMs else ackDeadlineMs)
    minScore maxScore n.toInt.toNat
  exact (h.setPool hend.processing .processing queue).setPool
    (hend.active.foldl_insertEntry hend.filteredOut) .active queue

theorem Ordered.insert (h : Ordered c) (queue : String) {messages : List Message}
    (hm : ∀ m ∈ messages, m.score ≠ .nan) : Ordered (c.insert queue messages).2 := by
  simp only [MemoryCache.insert]
  split_ifs
  · exact h
  · refine h.setPool ?_ .active queue
    rw [show (fun (l : EntryList) message => l.insertEntry (createEntry message)) =
      fun l message => EntryList.insertEntry l (createEntry message) from rfl, ← List.foldl_map]
    refine (h .active queue).foldl_insertEntry fun e he => ?_
    obtain ⟨m, hmem, rfl⟩ := List.mem_map.mp he
    exact hm m (List.mem_of_mem_filter hmem)

theorem ordered_removeFromSlice {l : EntryList} (h : l.Ordered) (ids : List String) :
    (removeFromSlice l ids).2.Ordered :=
  List.foldlRecOn (motive := fun (acc : ℕ × EntryList) => acc.2.Ordered) ids _ h
    fun _ hacc id _ => EntryList.Ordered.removeEntry hacc id

theorem Ordered.remove (h : Ordered c) (queue : String) (ids : List String) :
    Ordered (c.remove queue ids).2 :=
  List.foldlRecOn (motive := fun (acc : ℕ × MemoryCache) => Ordered acc.2) _ _ h
    fun _ hacc p _ => Ordered.setPool hacc (ordered_removeFromSlice (hacc p queue) ids) p queue

/-- Every supported call keeps the lists in order. -/
theorem Ordered.step (h : Ordered c) {op : Op} {res : Result} (hstep : machine c op res d)
    (hop : op.Supported) : Ordered d := by
  obtain ⟨out, hout⟩ : ∃ out, out = (res, d) := ⟨_, rfl⟩
  rw [machine, ← hout] at hstep
  rw [show d = out.2 by rw [hout]]
  cases hstep with
  | insert q messages => exact h.insert q hop
  | pullMessages clock q n lo hi dl => exact h.pullMessages clock q n lo hi dl
  | makeAvailable message => exact h.makeAvailable hop
  | lockMessage clock message t => exact h.lockMessage clock hop t
  | unlockMessages clock q t order _ => exact h.unlockMessages clock t order
  | timeoutMessages clock q => exact h.timeoutMessages clock q
  | remove q ids => exact h.remove q ids

/-- Some list of the queue holds the id. -/
def Present (c : MemoryCache) (queue id : String) : Prop := ∃ p, id ∈ (c.pool p queue).ids

theorem Represents.present {S : Spots} (hc : Represents c S) :
    Present c queue id ↔ Spot.stage (S queue id) ≠ .absent := by
  simp only [Present, hc queue id]
  rcases S queue id with _ | _ | _ | _ <;> simp [Spot.stage]

theorem makeAvailable_true {message : Message} :
    (c.makeAvailable message).1 = .flag true ↔
      message.queue ≠ "" ∧ message.id ∈ (c.pool .processing message.queue).ids := by
  rw [← EntryList.contains_iff, makeAvailable]
  split_ifs with hq hin
  · simp [hq]
  · simp [hq, hin]
  · simp [hin]

theorem lockMessage_true {clock : Clock} {message : Message} {lockType : LockType} :
    (c.lockMessage clock message lockType).1 = .flag true ↔ message.queue ≠ "" ∧
      0 < message.lockMs.toInt ∧ message.id ∈ (c.pool .processing message.queue).ids := by
  rw [← EntryList.contains_iff, ← not_not (a := 0 < message.lockMs.toInt),
    ← RedisCache.lockMs_le_zero, lockMessage]
  split_ifs with hq hms hin
  · simp [hq]
  · simp [hms]
  · simp [hq, hms, hin]
  · simp [hin]

/-- In every reachable state each list is in the order of the scores and holds no id twice,
and the lists of a queue are disjoint; a call changes the set of messages only by what it
reports to have inserted or was asked to remove; and a release succeeds exactly when it
passes its checks and the message is in the processing list. -/
theorem lists_invariant {tr : List Call} {c : MemoryCache} (hrun : Run machine new tr c)
    (hok : ∀ call ∈ tr, call.1.Supported) :
    (∀ p queue, (c.pool p queue).entries.Pairwise (fun a b => a.score ≤ b.score) ∧
      (c.pool p queue).ids.Nodup) ∧
    (∀ queue id p p', id ∈ (c.pool p queue).ids → id ∈ (c.pool p' queue).ids → p = p') ∧
    (∀ op res d, machine c op res d → op.Supported → ∀ queue id,
      (Present d queue id ↔ (Present c queue id ∨ Inserted queue id (op, res)) ∧
        ¬ Removed queue id (op, res)) ∧
      (Inserted queue id (op, res) → ¬ Present c queue id)) ∧
    (∀ message : Message, (c.makeAvailable message).1 = .flag true ↔
      message.queue ≠ "" ∧ message.id ∈ (c.pool .processing message.queue).ids) ∧
    ∀ (clock : Clock) (message : Message) (lockType : LockType),
      (c.lockMessage clock message lockType).1 = .flag true ↔ message.queue ≠ "" ∧
        0 < message.lockMs.toInt ∧ message.id ∈ (c.pool .processing message.queue).ids := by
  have hstep : ∀ (c : MemoryCache) (op : Op) (res : Result) (d : MemoryCache),
      machine c op res d → op.Supported → Ordered c → Ordered d :=
    fun _ _ _ _ hcall hop h => h.step hcall hop
  have hordered := hrun.invariant hstep hok ordered_new
  obtain ⟨A, S, hc, rfl⟩ := refines.run hrun (fun _ _ => trivial) stages_new
  refine ⟨fun p queue => ⟨(hordered p queue).sorted, (c.pool p queue).nodup⟩, ?_, ?_,
    fun _ => makeAvailable_true, fun _ _ _ => lockMessage_true⟩
  · intro queue id p p' h h'
    exact hc.unique h h'
  · intro op res d hcall hop queue id
    obtain ⟨A', ⟨S', hd, rfl⟩, hmoves⟩ := refines hcall trivial ⟨S, hc, rfl⟩
    have hpresent := (hmoves queue id).present
    rw [hd.present, hc.present, not_not]
    exact hpresent

/-- Two messages are added, and a pull with a least score hands out the second of them. -/
def oneDelivery : MemoryCache :=
  ((new.insert "q" [{ id := "b", queue := "q", score := .ofInt 3 },
    { id := "a", queue := "q", score := .ofInt 5 }]).2.pullMessages (fun _ => 0) "q" 2
      (some (.ofInt 4)) none 0).2

theorem run_oneDelivery : ∃ tr, Run machine new tr oneDelivery ∧ ∀ c ∈ tr, c.1.Supported := by
  refine ⟨_, .cons (.insert "q" [{ id := "b", queue := "q", score := .ofInt 3 },
    { id := "a", queue := "q", score := .ofInt 5 }])
    (.cons (.pullMessages (fun _ => 0) "q" 2 (some (.ofInt 4)) none 0) (.nil _)), ?_⟩
  simp [Op.Supported, Float64.ofInt_ne_nan]

theorem lists_invariant_oneDelivery :
    (∀ p queue, (oneDelivery.pool p queue).entries.Pairwise (fun a b => a.score ≤ b.score) ∧
      (oneDelivery.pool p queue).ids.Nodup) ∧
    (∀ queue id p p', id ∈ (oneDelivery.pool p queue).ids → id ∈ (oneDelivery.pool p' queue).ids →
      p = p') ∧
    "a" ∈ (oneDelivery.pool .processing "q").ids ∧ "b" ∈ (oneDelivery.pool .active "q").ids := by
  obtain ⟨tr, hrun, hok⟩ := run_oneDelivery
  obtain ⟨hsorted, hdisjoint, -⟩ := lists_invariant hrun hok
  exact ⟨hsorted, hdisjoint, by decide +kernel, by decide +kernel⟩

/-- A lock without a positive time is refused although the message is being processed. -/
theorem lockMessage_refuses_listed :
    ∃ tr c, Run machine new tr c ∧ (∀ call ∈ tr, call.1.Supported) ∧
      ∃ message : Message, message.score ≠ .nan ∧
        message.id ∈ (c.pool .processing message.queue).ids ∧
        (c.lockMessage (fun _ => 0) message .lockAck).1 ≠ .flag true := by
  obtain ⟨tr, hrun, hok⟩ := run_oneDelivery
  exact ⟨tr, oneDelivery, hrun, hok, { id := "a", queue := "q", score := .ofInt 5, lockMs := 0 },
    by decide, by decide +kernel, by decide +kernel⟩

end MemoryCache

end Deckard
