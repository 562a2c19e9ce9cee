import Deckard.Deadlines
import Deckard.MemoryReleases

/-!
# Deadlines of the memory cache

The memory cache adds the acknowledgement deadline, a number of milliseconds, to a reading of
the clock in seconds and compares the sum with another reading in seconds. A message is
therefore given back after as many seconds as it should have milliseconds.
-/
namespace Deckard

open Binary64 Cache Runs Lifecycle

namespace Dtime

/-- What is due some milliseconds after `start` is released at `now`, neither early nor late
by a second or more. -/
def OnTime (start now : ℤ) (ms : Int64) (released : Prop) : Prop :=
  (start + ms.toInt * 1000000 + 1000000000 ≤ now → released) ∧
    (now + 1000000000 ≤ start + ms.toInt * 1000000 → ¬ released)

/-- The number of milliseconds, taken as seconds, fits 64 bits with the reading and has passed
unless the message need not be released yet. -/
def SecondsFit (start now : ℤ) (ms : Int64) : Prop :=
  start / 1000000000 + ms.toInt < 2 ^ 63 ∧
    (now < start + ms.toInt * 1000000 + 1000000000 ∨
      start / 1000000000 + ms.toInt ≤ now / 1000000000)

instance (start now : ℤ) (ms : Int64) : Decidable (SecondsFit start now ms) :=
  inferInstanceAs (Decidable (_ ∧ _))

theorem toInt_unix {t : ℤ} (h : InRange t) : (unix t).toInt = t / 1000000000 := by
  obtain ⟨hlo, hhi⟩ := h
  rw [unix, Int64.toInt_ofInt]
  apply Int.bmod_eq_of_le_mul_two <;> simp [Int64.size] <;> omega

/-- Comparison of the sum of a reading in seconds with another reading. -/
theorem unix_add_le_iff {start now : ℤ} {ms : Int64} (hstart : InRange start)
    (hnow : InRange now) (hms : 0 ≤ ms.toInt) :
    Number.ofInt (unix start + ms).toInt ≤ .ofInt (unix now).toInt ↔
      2 ^ 63 ≤ start / 1000000000 + ms.toInt ∨
        start / 1000000000 + ms.toInt ≤ now / 1000000000 := by
  have hreading := toInt_unix hnow
  have hlt := ms.toInt_lt
  obtain ⟨hlo, hhi⟩ := hstart
  obtain ⟨hlo', hhi'⟩ := hnow
  rw [Number.ofInt_le_ofInt_iff (by rw [hreading, abs_lt]; omega), hreading, Int64.toInt_add,
    toInt_unix ⟨hlo, hhi⟩]
  by_cases hfit : start / 1000000000 + ms.toInt < 2 ^ 63
  · have hsum : (start / 1000000000 + ms.toInt).bmod (2 ^ 64) =
        start / 1000000000 + ms.toInt := by
      apply Int.bmod_eq_of_le_mul_two <;> omega
    rw [hsum]
    omega
  · have hsum : (start / 1000000000 + ms.toInt).bmod (2 ^ 64) < 0 := by
      rw [Int.bmod]
      split_ifs <;> omega
    omega

/-- Readings in seconds keep a deadline in milliseconds in these cases only. -/
theorem onTime_seconds_iff {start now : ℤ} {ms : Int64} (hstart : InRange start)
    (hnow : InRange now) (hms : 0 ≤ ms.toInt) :
    OnTime start now ms
        (Number.ofInt (unix start + ms).toInt ≤ .ofInt (unix now).toInt) ↔
      SecondsFit start now ms := by
  rw [unix_add_le_iff hstart hnow hms, OnTime, SecondsFit]
  obtain ⟨hlo, hhi⟩ := hstart
  obtain ⟨hlo', hhi'⟩ := hnow
  omega

/-- Readings in milliseconds keep it always. A sum that leaves 64 bits is negative, and the
range of scores that is looked at starts at zero. -/
theorem onTime_milliseconds {start now : ℤ} {ms : Int64} (hstart : InRange start)
    (hnow : InRange now) (hms : 0 ≤ ms.toInt) :
    OnTime start now ms
      (.ofInt 0 ≤ after start ms ∧ after start ms ≤ .ofInt (timeToMs now).toInt) := by
  have hread : ∀ {t : ℤ}, InRange t → (timeToMs t).toInt = t / 1000000 := by
    intro t ht
    rw [timeToMs_toInt_eq_tdiv, toInt_unixNano ht, Int.tdiv_eq_ediv_of_nonneg ht.1]
  have hle : ∀ n : ℤ, Number.ofInt n ≤ .ofInt (timeToMs now).toInt ↔
      n ≤ (timeToMs now).toInt := fun n => Number.ofInt_le_ofInt_iff (abs_timeToMs_lt now)
  have hlt := ms.toInt_lt
  have hstart' := hread hstart
  have hnow' := hread hnow
  obtain ⟨hlo, hhi⟩ := hstart
  obtain ⟨hlo', hhi'⟩ := hnow
  by_cases hfit : start / 1000000 + ms.toInt < 2 ^ 63
  · have hsum : (timeToMs start + ms).toInt = start / 1000000 + ms.toInt := by
      rw [← hstart']
      exact toInt_timeToMs_add (by omega) (by omega)
    rw [after, hle, hsum, hnow']
    have hpos : Number.ofInt 0 ≤ .ofInt (start / 1000000 + ms.toInt) :=
      Number.ofInt_mono (by omega)
    constructor
    · intro h
      exact ⟨hpos, by omega⟩
    · intro h
      omega
  · have hneg : (timeToMs start + ms).toInt < 0 := by
      rw [Int64.toInt_add, hstart', Int.bmod]
      split_ifs <;> omega
    constructor
    · intro h
      omega
    · rintro - ⟨hpos, -⟩
      rw [after, Number.ofInt_le_ofInt_iff_left (by norm_num)] at hpos
      omega

end Dtime

/-- Milliseconds for which a pull hands its messages out. -/
def Cache.deadlineMs (ackDeadlineMs : Int64) : Int64 :=
  if ackDeadlineMs = 0 then defaultTimeoutMs else ackDeadlineMs

theorem Cache.deadlineMs_nonneg {ackDeadlineMs : Int64} (h : 0 ≤ ackDeadlineMs.toInt) :
    0 ≤ (deadlineMs ackDeadlineMs).toInt := by
  unfold deadlineMs
  split_ifs
  · decide
  · exact h

/-- The Redis cache releases an entry of its processing pool on time. -/
theorem RedisCache.deadline_onTime {clock : Clock} {now : Time} {ackDeadlineMs : Int64}
    (hclock : Dtime.InRange (clock 0)) (hnow : Dtime.InRange now) (h : 0 ≤ ackDeadlineMs.toInt)
    {pool : SortedSet String Number} {id : String}
    (hscore : pool.score id = some (deadline clock ackDeadlineMs)) :
    Dtime.OnTime (clock 0) now (deadlineMs ackDeadlineMs)
      (id ∈ pool.revRangeByScore (.ofInt (Dtime.timeToMs now).toInt) (.ofInt 0)) := by
  have hmem : id ∈ pool.revRangeByScore (.ofInt (Dtime.timeToMs now).toInt) (.ofInt 0) ↔
      .ofInt 0 ≤ Dtime.after (clock 0) (deadlineMs ackDeadlineMs) ∧
        Dtime.after (clock 0) (deadlineMs ackDeadlineMs) ≤ .ofInt (Dtime.timeToMs now).toInt := by
    rw [SortedSet.mem_revRangeByScore]
    simp only [hscore, Option.some_inj]
    constructor
    · rintro ⟨_, rfl, hbounds⟩
      exact hbounds
    · intro hbounds
      exact ⟨_, rfl, hbounds⟩
  rw [hmem]
  exact Dtime.onTime_milliseconds hclock hnow (deadlineMs_nonneg h)

namespace EntryList

variable {l : EntryList} {data e : MemoryMessageEntry}

theorem mem_insertEntry :
    e ∈ (l.insertEntry data).entries ↔ e = data ∨ e ∈ l.entries ∧ e.id ≠ data.id := by
  rw [insertEntry, List.mem_orderedInsert, entries_removeEntry, List.mem_filter]
  simp

/-- An entry of the list is one of those inserted, or an old one that none has replaced. -/
theorem mem_foldl_insertEntry {es : List MemoryMessageEntry}
    (h : e ∈ (es.foldl insertEntry l).entries) :
    e ∈ es ∨ e ∈ l.entries ∧ e.id ∉ es.map MemoryMessageEntry.id := by
  induction es generalizing l with
  | nil => exact .inr ⟨h, by simp⟩
  | cons data es ih =>
    rcases ih h with h | ⟨h, hnew⟩
    · exact .inl (List.mem_cons_of_mem _ h)
    · rcases mem_insertEntry.mp h with rfl | ⟨h, hne⟩
      · exact .inl List.mem_cons_self
      · refine .inr ⟨h, ?_⟩
        rw [List.map_cons, List.mem_cons, not_or]
        exact ⟨hne, hnew⟩

end EntryList

namespace MemoryCache

variable {c d : MemoryCache} {queue : String} {e : MemoryMessageEntry}

theorem mem_of_mem_removeEntry {l : EntryList} {id : String}
    (h : e ∈ (l.removeEntry id).entries) : e ∈ l.entries :=
  List.mem_of_mem_eraseP h

theorem mem_of_mem_move {source destination p : MemoryPool} {q : String}
    {data : MemoryMessageEntry} (hne : source ≠ destination) (hp : p ≠ destination)
    (h : e ∈ ((c.move source destination queue data).pool p q).entries) :
    e ∈ (c.pool p q).entries := by
  rw [pool_move hne] at h
  split_ifs at h with hq hs
  · exact h
  · rw [not_not.mp hq]
    exact mem_of_mem_removeEntry h
  · rw [not_not.mp hq]
    exact h

theorem mem_of_mem_removeFromSlice {l : EntryList} (ids : List String)
    (h : e ∈ (removeFromSlice l ids).2.entries) : e ∈ l.entries :=
  List.foldlRecOn (motive := fun acc : ℕ × EntryList => e ∈ acc.2.entries → e ∈ l.entries) ids _ id
    (fun _ hacc _ _ he => hacc (mem_of_mem_removeEntry he)) h

theorem mem_processing_of_pullMessages {clock : Clock} {q : String} {n ackDeadlineMs : Int64}
    {minScore maxScore : Option Float64}
    (he : e ∈ ((c.pullMessages clock q n minScore maxScore ackDeadlineMs).2.pool
      .processing queue).entries) :
    e ∈ (c.pool .processing queue).entries ∨
      Pulled queue e.id (.pullMessages clock q n minScore maxScore ackDeadlineMs,
        (c.pullMessages clock q n minScore maxScore ackDeadlineMs).1) := by
  obtain ⟨hres, -, hproc, hframe⟩ := pullMessages_spec c clock q n minScore maxScore ackDeadlineMs
  by_cases hq : queue = q
  · subst hq
    rw [hproc] at he
    -- either the pull has put the entry there, or it was there and is not replaced
    rcases EntryList.mem_foldl_insertEntry he with he | he
    · right
      rw [hres]
      refine ⟨rfl, ?_⟩
      rw [← ids_processingEntries]
      exact List.mem_map_of_mem he
    · exact .inl he.1
  · rw [hframe .processing queue fun h => absurd h hq] at he
    exact .inl he

theorem mem_processing_of_timeoutMessages {clock : Clock} {q : String}
    (he : e ∈ ((c.timeoutMessages clock q).2.pool .processing queue).entries) :
    e ∈ (c.pool .processing queue).entries := by
  obtain ⟨-, hproc, -, hframe⟩ := timeoutMessages_spec c clock q
  by_cases hq : queue = q
  · subst hq
    rw [hproc] at he
    exact EntryList.mem_of_mem_removeFirst he
  · rwa [hframe .processing queue hq] at he

/-- An entry enters a processing list in a pull that returns its id. -/
theorem pulled_of_mem_processing {op : Op} {res : Result} (hcall : machine c op res d)
    (he : e ∈ (d.pool .processing queue).entries) :
    e ∈ (c.pool .processing queue).entries ∨ Pulled queue e.id (op, res) := by
  obtain ⟨out, hout⟩ : ∃ out, out = (res, d) := ⟨_, rfl⟩
  rw [machine, ← hout] at hcall
  obtain ⟨rfl, rfl⟩ := Prod.ext_iff.mp hout
  cases hcall with
  | insert q messages =>
    left
    simp only [insert] at he
    split_ifs at he
    · exact he
    · simpa using he
  | pullMessages clock q n lo hi dl => exact mem_processing_of_pullMessages he
  | makeAvailable message =>
    left
    unfold makeAvailable at he
    split_ifs at he
    · exact he
    · exact mem_of_mem_move (by simp) (by simp) he
    · exact he
  | lockMessage clock message t =>
    left
    unfold lockMessage at he
    split_ifs at he
    · exact he
    · exact he
    · exact mem_of_mem_move (by simp) (by simp) he
    · exact he
  | unlockMessages clock q t order horder =>
    left
    obtain ⟨-, defaultScore, hpool⟩ := unlockMessages_spec c clock t horder.1
    rw [hpool, unlockedPool_processing, ite_self] at he
    exact he
  | timeoutMessages clock q => exact .inl (mem_processing_of_timeoutMessages he)
  | remove q ids =>
    left
    by_cases hq : queue = q
    · subst hq
      simp only [remove, List.foldl_cons, List.foldl_nil] at he
      exact mem_of_mem_removeFromSlice ids (by simpa using he)
    · rwa [(confined_remove q ids).frame queue hq] at he

section Pulled

variable {clock : Clock} {n ackDeadlineMs : Int64} {minScore maxScore : Option Float64}
  {ids : List String} {i : ℕ} {c' : MemoryCache}

/-- The score that a pull gives to the message it returns in the `i`th place. -/
theorem score_of_pulled
    (hpull : c.pullMessages clock queue n minScore maxScore ackDeadlineMs = (.ids ids, c'))
    (hi : ids[i]? = some e.id) (he : e ∈ (c'.pool .processing queue).entries) :
    e.score = .ofInt (Dtime.unix (clock i) + deadlineMs ackDeadlineMs).toInt := by
  obtain ⟨hres, -, hproc, -⟩ :=
    pullMessages_spec c clock queue n minScore maxScore ackDeadlineMs
  rw [hpull] at hres hproc
  cases hres
  set handed := ((c.pool .active queue).entries.take n.toInt.toNat).filter
    (¬ Excluded minScore maxScore ·) with hhanded
  have hnodup : (handed.map MemoryMessageEntry.id).Nodup :=
    (c.pool .active queue).nodup.sublist
      ((List.filter_sublist.trans (List.take_sublist _ _)).map _)
  rw [hproc] at he
  rcases EntryList.mem_foldl_insertEntry he with he | ⟨-, hnew⟩
  · obtain ⟨j, hj, rfl⟩ := List.mem_mapIdx.mp he
    have hj' : (handed.map MemoryMessageEntry.id)[j]? = some handed[j].id := by simp [hj]
    have hplace : i = j := by
      obtain ⟨hlt, -⟩ := List.getElem?_eq_some_iff.mp hi
      exact (List.getElem?_inj hlt hnodup).mp (hi.trans hj'.symm)
    rw [hplace]
    rfl
  · rw [ids_processingEntries] at hnew
    exact absurd (List.mem_of_getElem? hi) hnew

/-- An entry that is in the list at the end of a run was there at its start, unless the message
was handed out in between. -/
theorem mem_processing_of_run {tr : List Call} (hrun : Run machine c tr d)
    (hkept : ∀ call ∈ tr, ¬ Pulled queue e.id call)
    (he : e ∈ (d.pool .processing queue).entries) : e ∈ (c.pool .processing queue).entries := by
  induction hrun with
  | nil => exact he
  | cons hstep _ ih =>
    have hnext := ih (fun call hcall => hkept call (List.mem_cons_of_mem _ hcall)) he
    exact (pulled_of_mem_processing hstep hnext).resolve_right (hkept _ List.mem_cons_self)

/-- A message was handed out at the time `clock i` and has been in the processing list since.
At every time, the memory cache keeps its deadline exactly if the deadline, taken as seconds,
fits 64 bits and has passed unless the message need not be released yet. -/
theorem ackDeadline_onTime_iff {tr : List Call} {now : Time}
    (hpull : c.pullMessages clock queue n minScore maxScore ackDeadlineMs = (.ids ids, c'))
    (hi : ids[i]? = some e.id) (hrun : Run machine c' tr d)
    (hkept : ∀ call ∈ tr, ¬ Pulled queue e.id call)
    (he : e ∈ (d.pool .processing queue).entries) (hdeadline : 0 ≤ ackDeadlineMs.toInt)
    (hclock : Dtime.InRange (clock i)) (hnow : Dtime.InRange now) :
    Dtime.OnTime (clock i) now (deadlineMs ackDeadlineMs) (timedOutAt now e = true) ↔
      Dtime.SecondsFit (clock i) now (deadlineMs ackDeadlineMs) := by
  have hscore := score_of_pulled hpull hi (mem_processing_of_run hrun hkept he)
  have hreleased : timedOutAt now e = true ↔
      Number.ofInt (Dtime.unix (clock i) + deadlineMs ackDeadlineMs).toInt ≤
        .ofInt (Dtime.unix now).toInt := by
    rw [timedOutAt, hscore, decide_eq_true_iff]
    rfl
  rw [hreleased]
  exact Dtime.onTime_seconds_iff hclock hnow (deadlineMs_nonneg hdeadline)

end Pulled

/-- One message is added. -/
def oneMessage : MemoryCache := (new.insert "q" [{ id := "a", queue := "q" }]).2

theorem ackDeadline_onTime_oneMillisecond :
    let c := (oneMessage.pullMessages (fun _ => 0) "q" 1 none none 1).2
    let e : MemoryMessageEntry := { id := "a", score := .ofInt 1 }
    e ∈ (c.pool .processing "q").entries ∧
      Dtime.OnTime 0 2000000000 1 (timedOutAt 2000000000 e = true) := by
  intro c e
  have he : e ∈ (c.pool .processing "q").entries := by decide +kernel
  have hpull : oneMessage.pullMessages (fun _ => 0) "q" 1 none none 1 = (.ids ["a"], c) :=
    Prod.ext (by decide +kernel) rfl
  exact ⟨he, (ackDeadline_onTime_iff (i := 0) hpull rfl (.nil c) (by simp) he (by decide)
    ⟨by norm_num, by norm_num⟩ ⟨by norm_num, by norm_num⟩).mpr (by decide)⟩

/-- A message is handed out for a second. Three seconds later it is still not due. -/
theorem deadline_in_milliseconds_missed :
    ∃ tr c e, Run machine new tr oneMessage ∧
      oneMessage.pullMessages (fun _ => 0) "q" 1 none none 1000 = (.ids ["a"], c) ∧
      e ∈ (c.pool .processing "q").entries ∧ e.id = "a" ∧
      ¬ Dtime.OnTime 0 3000000000 1000 (timedOutAt 3000000000 e = true) := by
  refine ⟨_, (oneMessage.pullMessages (fun _ => 0) "q" 1 none none 1000).2,
    { id := "a", score := .ofInt 1000 }, .cons (.insert "q" [{ id := "a", queue := "q" }]) (.nil _),
    Prod.ext (by decide +kernel) rfl, by decide +kernel, rfl, fun h => ?_⟩
  exact absurd (h.1 (by decide)) (by decide +kernel)

end MemoryCache

end Deckard
