import Deckard.MemoryCache
import Deckard.RedisRefinement

/-!
# The memory cache and the life of a message

In every reachable state the four lists of a queue are disjoint, so each message has one
spot. The calls move the spots as the life of a message allows. Deliveries are therefore
safe in both caches.
-/
namespace Deckard.MemoryCache

open Binary64 Cache Runs Lifecycle

/-- The list that holds each message, if any. -/
abbrev Spots := String → String → Option MemoryPool

def Represents (c : MemoryCache) (S : Spots) : Prop :=
  ∀ queue id p, id ∈ (c.pool p queue).ids ↔ S queue id = some p

def Spots.replace (S : Spots) (queue : String) (l : List String) (p : Option MemoryPool) : Spots :=
  fun q id => if q = queue ∧ id ∈ l then p else S q id

variable {c d : MemoryCache} {S : Spots} {queue id : String} {p p' : MemoryPool}

theorem represents_new : Represents new fun _ _ => none := by
  intro queue id p
  simp [new, EntryList.ids, EntryList.empty]

/-- The lists of a queue have no message in common. -/
theorem Represents.unique (hc : Represents c S) (h : id ∈ (c.pool p queue).ids)
    (h' : id ∈ (c.pool p' queue).ids) : p = p' := by
  rw [hc] at h h'
  exact Option.some.inj (h.symm.trans h')

/-- A change of some messages of a queue that leaves all others as they are. -/
theorem Represents.replace (hc : Represents c S) {l : List String} {spot : Option MemoryPool}
    (hin : ∀ id ∈ l, ∀ p, id ∈ (d.pool p queue).ids ↔ spot = some p)
    (hout : ∀ q id p, (q = queue → id ∉ l) → (id ∈ (d.pool p q).ids ↔ id ∈ (c.pool p q).ids)) :
    Represents d (S.replace queue l spot) := by
  intro q id p
  unfold Spots.replace
  split_ifs with h
  · obtain ⟨rfl, hid⟩ := h
    exact hin id hid p
  · rw [hout q id p fun hq hid => h ⟨hq, hid⟩, hc]

theorem Represents.move (hc : Represents c S) {data : MemoryMessageEntry}
    (hid : data.id ∈ (c.pool p queue).ids) (hne : p ≠ p') :
    Represents (c.move p p' queue data) (S.replace queue [data.id] (some p')) := by
  have hspot := (hc queue data.id p).mp hid
  refine hc.replace (fun id hmem q => ?_) fun q id r hout => ?_
  · rw [List.mem_singleton.mp hmem]
    by_cases hq : q = p'
    · simp [MemoryCache.move, hq]
    · by_cases hq' : q = p
      · simp [MemoryCache.move, hq', hne, hne.symm]
      · simp [MemoryCache.move, hq, hq', hc queue data.id q, hspot, Ne.symm hq, Ne.symm hq']
  · by_cases hq : q = queue
    · have hne' : id ≠ data.id := fun h => hout hq (by simp [h])
      by_cases hr : r = p'
      · simp [MemoryCache.move, hq, hr, hne.symm, hne']
      · by_cases hr' : r = p <;> simp [MemoryCache.move, hq, hr, hr', hne, hne']
    · simp [MemoryCache.move, hq]

def Spot.stage : Option MemoryPool → Stage
  | none => .absent
  | some .active => .active
  | some .processing => .processing
  | some (.lock _) => .locked

theorem stage_replace {call : Call} {q : String} {l : List String} {spot : Option MemoryPool}
    (hquiet : ¬ (queue = q ∧ id ∈ l) → ¬ Pulled queue id call ∧ ¬ Inserted queue id call ∧
      ¬ Removed queue id call)
    (hmoved : queue = q → id ∈ l → Step queue id call (Spot.stage (S q id)) (Spot.stage spot)) :
    Step queue id call (Spot.stage (S queue id)) (Spot.stage (S.replace q l spot queue id)) := by
  unfold Spots.replace
  split_ifs with h
  · obtain ⟨rfl, hid⟩ := h
    exact hmoved rfl hid
  · obtain ⟨hp, hi, hr⟩ := hquiet h
    exact .stay hp hi fun h => absurd h hr

section Calls

theorem makeAvailable_step (hc : Represents c S) (message : Message) :
    ∃ S', Represents (c.makeAvailable message).2 S' ∧ ∀ queue id,
      Step queue id (.makeAvailable message, (c.makeAvailable message).1)
        (Spot.stage (S queue id)) (Spot.stage (S' queue id)) := by
  unfold makeAvailable
  split_ifs with hq hin
  · exact ⟨S, hc, fun _ _ => .stay not_false not_false False.elim⟩
  · have hid : (createEntry message).id ∈ (c.pool .processing message.queue).ids :=
      EntryList.contains_iff.mp hin
    refine ⟨_, hc.move hid (by simp), fun queue id => stage_replace
      (fun _ => ⟨not_false, not_false, not_false⟩) ?_⟩
    rintro rfl hmem
    rw [List.mem_singleton.mp hmem, (hc _ _ _).mp hid]
    exact .release ⟨rfl, rfl⟩
  · exact ⟨S, hc, fun _ _ => .stay not_false not_false False.elim⟩

theorem lockMessage_step (hc : Represents c S) (clock : Clock) (message : Message)
    (lockType : LockType) :
    ∃ S', Represents (c.lockMessage clock message lockType).2 S' ∧ ∀ queue id,
      Step queue id
        (.lockMessage clock message lockType, (c.lockMessage clock message lockType).1)
        (Spot.stage (S queue id)) (Spot.stage (S' queue id)) := by
  unfold lockMessage
  split_ifs with hq hms hin
  · exact ⟨S, hc, fun _ _ => .stay not_false not_false False.elim⟩
  · exact ⟨S, hc, fun _ _ => .stay not_false not_false False.elim⟩
  · have hid : message.id ∈ (c.pool .processing message.queue).ids :=
      EntryList.contains_iff.mp hin
    refine ⟨_, hc.move hid (by simp), fun queue id => stage_replace
      (fun _ => ⟨not_false, not_false, not_false⟩) ?_⟩
    rintro rfl hmem
    rw [List.mem_singleton.mp hmem, show (createEntry message).id = message.id from rfl,
      (hc _ _ _).mp hid]
    exact .lock ⟨rfl, rfl⟩
  · exact ⟨S, hc, fun _ _ => .stay not_false not_false False.elim⟩

theorem find_mem_ids {l : EntryList} {f : MemoryMessageEntry → Bool} {e : MemoryMessageEntry}
    (h : l.entries.find? f = some e) : e.id ∈ l.ids :=
  List.mem_map_of_mem (List.mem_of_find?_eq_some h)

theorem timeoutMessages_step (hc : Represents c S) (clock : Clock) (q : String) :
    ∃ S', Represents (c.timeoutMessages clock q).2 S' ∧ ∀ queue id,
      Step queue id (.timeoutMessages clock q, (c.timeoutMessages clock q).1)
        (Spot.stage (S queue id)) (Spot.stage (S' queue id)) := by
  simp only [timeoutMessages]
  split
  · exact ⟨S, hc, fun _ _ => .stay not_false not_false False.elim⟩
  · rename_i value hfind
    have hid := find_mem_ids hfind
    refine ⟨S.replace q [value.id] (some .active), hc.move (by exact hid) (by simp),
      fun queue id => stage_replace (fun _ => ⟨not_false, not_false, not_false⟩) ?_⟩
    rintro rfl hmem
    rw [List.mem_singleton.mp hmem, (hc _ _ _).mp hid]
    exact .timeout ⟨rfl, by simp⟩

section Unlock

variable {lockType : LockType} {nowMs : Int64} {defaultScore : Float64}
  {acc : List String × MemoryCache}

/-- Spots after a part of an unlocking that has returned `l`. -/
def Unlocks (S S' : Spots) (lockType : LockType) (l : List String) : Prop :=
  ∀ queue id, S' queue id = S queue id ∨
    S queue id = some (.lock lockType) ∧ S' queue id = some .active ∧ id ∈ l

theorem unlockQueue_step (hc : Represents acc.2 S) (q : String) :
    ∃ S' new, Represents (unlockQueue lockType nowMs defaultScore acc q).2 S' ∧
      (unlockQueue lockType nowMs defaultScore acc q).1 = acc.1 ++ new ∧
      Unlocks S S' lockType new := by
  unfold unlockQueue
  split
  · exact ⟨S, [], hc, by simp, fun _ _ => Or.inl rfl⟩
  · rename_i value hfind
    have hid := find_mem_ids hfind
    refine ⟨S.replace q [value.id] (some .active), [value.id], hc.move (by exact hid) (by simp),
      rfl, fun queue id => ?_⟩
    unfold Spots.replace
    split_ifs with h
    · obtain ⟨rfl, hmem⟩ := h
      rw [List.mem_singleton.mp hmem]
      exact Or.inr ⟨(hc _ _ _).mp hid, rfl, by simp⟩
    · exact Or.inl rfl

theorem unlockQueue_foldl (hc : Represents acc.2 S) (order : List String) :
    ∃ S' new, Represents (order.foldl (unlockQueue lockType nowMs defaultScore) acc).2 S' ∧
      (order.foldl (unlockQueue lockType nowMs defaultScore) acc).1 = acc.1 ++ new ∧
      Unlocks S S' lockType new := by
  induction order generalizing acc S with
  | nil => exact ⟨S, [], hc, by simp, fun _ _ => Or.inl rfl⟩
  | cons q order ih =>
    obtain ⟨S₁, new₁, hs₁, hnew₁, hmoved₁⟩ := unlockQueue_step (S := S) hc q
    obtain ⟨S₂, new₂, hs₂, hnew₂, hmoved₂⟩ := ih hs₁
    refine ⟨S₂, new₁ ++ new₂, hs₂, ?_, fun queue id => ?_⟩
    · rw [List.foldl_cons, hnew₂, hnew₁, List.append_assoc]
    · rcases hmoved₁ queue id with h₁ | ⟨hl₁, ha₁, hn₁⟩
      · rcases hmoved₂ queue id with h₂ | ⟨hl₂, ha₂, hn₂⟩
        · exact Or.inl (h₂.trans h₁)
        · exact Or.inr ⟨h₁ ▸ hl₂, ha₂, List.mem_append_right _ hn₂⟩
      · rcases hmoved₂ queue id with h₂ | ⟨hl₂, -, -⟩
        · exact Or.inr ⟨hl₁, h₂.trans ha₁, List.mem_append_left _ hn₁⟩
        · rw [ha₁] at hl₂
          cases hl₂

theorem unlockMessages_step (hc : Represents c S) (clock : Clock) (q : String)
    (lockType : LockType) (order : List String) :
    ∃ S', Represents (c.unlockMessages clock lockType order).2 S' ∧ ∀ queue id,
      Step queue id
        (.unlockMessages clock q lockType, (c.unlockMessages clock lockType order).1)
        (Spot.stage (S queue id)) (Spot.stage (S' queue id)) := by
  simp only [unlockMessages]
  set unlocked := order.foldl (unlockQueue lockType _ _) ([], c) with hunlocked
  obtain ⟨S', new, hs', hnew, hmoved⟩ : ∃ S' new, Represents unlocked.2 S' ∧
      unlocked.1 = [] ++ new ∧ Unlocks S S' lockType new :=
    unlockQueue_foldl hc order
  refine ⟨S', hs', fun queue id => ?_⟩
  rcases hmoved queue id with heq | ⟨hlocked, hactive, hid⟩
  · rw [heq]
    exact .stay not_false not_false False.elim
  · rw [hlocked, hactive, hnew]
    exact .unlock hid

end Unlock

section Pull

variable {clock : Clock} {deadline : Int64} {minScore maxScore : Option Float64}

/-- The score of an entry is outside the bounds of a pull. -/
def Excluded (minScore maxScore : Option Float64) (entry : MemoryMessageEntry) : Prop :=
  (minScore.any fun lo => entry.score < lo) ∨ (maxScore.any fun hi => hi < entry.score)

instance : DecidablePred (Excluded minScore maxScore) := fun _ =>
  inferInstanceAs (Decidable (_ ∨ _))

/-- What the processing list gets for the entry that is handed out at the `i`th reading of
the clock. -/
def processingEntry (clock : Clock) (deadline : Int64) (i : ℕ) (entry : MemoryMessageEntry) :
    MemoryMessageEntry :=
  { id := entry.id, score := .ofInt (Dtime.unix (clock i) + deadline).toInt }

theorem ids_processingEntries (deadline : Int64) (entries : List MemoryMessageEntry) :
    (entries.mapIdx (processingEntry clock deadline)).map MemoryMessageEntry.id =
      entries.map MemoryMessageEntry.id := by
  apply List.ext_getElem
  · simp
  · intro i _ _
    simp [processingEntry]

/-- The rounds look at the first entries of the active list: those within the bounds are
handed out, the others set aside. -/
theorem pullLoop_spec (clock : Clock) (deadline : Int64) (minScore maxScore : Option Float64)
    (n : ℕ) (st : PullState) :
    let looked := st.active.entries.take n
    let handed := looked.filter (¬ Excluded minScore maxScore ·)
    let last := pullLoop clock deadline minScore maxScore n st
    last.active.entries = st.active.entries.drop n ∧
      last.filteredOut = st.filteredOut ++ looked.filter (Excluded minScore maxScore) ∧
      last.result = st.result ++ handed.map MemoryMessageEntry.id ∧
      last.processing = (handed.mapIdx fun i entry =>
        processingEntry clock deadline (st.result.length + i) entry).foldl
          EntryList.insertEntry st.processing := by
  induction n generalizing st with
  | zero => simp [pullLoop]
  | succ n ih =>
    unfold pullLoop
    split
    · rename_i hentries
      simp [hentries]
    · rename_i entry rest hentries
      have hrest : (st.active.removeEntry entry.id).entries = rest := by
        simp [EntryList.removeEntry, hentries]
      simp only [hentries, List.take_succ_cons, List.drop_succ_cons]
      split_ifs with hex
      · obtain ⟨hact, hfil, hres, hproc⟩ := ih
          { st with active := st.active.removeEntry entry.id,
                    filteredOut := st.filteredOut ++ [entry] }
        simp only [hrest] at hact hfil hres hproc
        have hexcluded : Excluded minScore maxScore entry := hex
        simp only [hact, hfil, hres, hproc, List.filter_cons, hexcluded]
        simp
      · obtain ⟨hact, hfil, hres, hproc⟩ := ih
          { st with
            active := st.active.removeEntry entry.id
            processing := st.processing.insertEntry
              { id := entry.id
                score := .ofInt (Dtime.unix (clock st.result.length) + deadline).toInt }
            result := st.result ++ [entry.id] }
        simp only [hrest] at hact hfil hres hproc
        have hexcluded : ¬ Excluded minScore maxScore entry := hex
        simp only [hact, hfil, hres, hproc, List.filter_cons, hexcluded]
        simp [List.mapIdx_cons, processingEntry, Nat.add_comm, Nat.add_left_comm]

theorem mem_ids_foldl_insertEntry {l : EntryList} {es : List MemoryMessageEntry} :
    id ∈ (es.foldl EntryList.insertEntry l).ids ↔
      id ∈ es.map MemoryMessageEntry.id ∨ id ∈ l.ids := by
  induction es generalizing l with
  | nil => simp
  | cons e es ih =>
    rw [List.foldl_cons, ih, EntryList.mem_ids_insertEntry, List.map_cons, List.mem_cons]
    tauto

/-- The four lists after a pull. What was set aside is put back into the rest of the active
list. -/
theorem pullMessages_spec (c : MemoryCache) (clock : Clock) (q : String) (n : Int64)
    (minScore maxScore : Option Float64) (ackDeadlineMs : Int64) :
    let looked := (c.pool .active q).entries.take n.toInt.toNat
    let handed := looked.filter (¬ Excluded minScore maxScore ·)
    let deadline := if ackDeadlineMs = 0 then defaultTimeoutMs else ackDeadlineMs
    let out := c.pullMessages clock q n minScore maxScore ackDeadlineMs
    out.1 = .ids (handed.map MemoryMessageEntry.id) ∧
      (∃ rest : EntryList, rest.entries = (c.pool .active q).entries.drop n.toInt.toNat ∧
        out.2.pool .active q =
          (looked.filter (Excluded minScore maxScore)).foldl EntryList.insertEntry rest) ∧
      out.2.pool .processing q = (handed.mapIdx (processingEntry clock deadline)).foldl
        EntryList.insertEntry (c.pool .processing q) ∧
      ∀ p q', (q' = q → p ≠ .active ∧ p ≠ .processing) → out.2.pool p q' = c.pool p q' := by
  intro looked handed deadline out
  obtain ⟨hact, hfil, hres, hproc⟩ := pullLoop_spec clock deadline minScore maxScore
    n.toInt.toNat ⟨c.pool .active q, c.pool .processing q, [], []⟩
  simp only [List.nil_append, List.length_nil, Nat.zero_add] at hact hfil hres hproc
  refine ⟨congrArg Result.ids hres, ⟨_, hact, ?_⟩, ?_, fun p q' hframe => ?_⟩
  · simp only [out, pullMessages, pool_setPool, and_self, if_true]
    exact congrArg (fun es => List.foldl EntryList.insertEntry _ es) hfil
  · simp only [out, pullMessages, pool_setPool, and_true, reduceCtorEq, if_true, if_false]
    exact hproc
  · simp only [out, pullMessages, pool_setPool]
    rw [if_neg fun h => (hframe h.2).1 h.1, if_neg fun h => (hframe h.2).2 h.1]

theorem pullMessages_step (hc : Represents c S) (clock : Clock) (q : String) (n : Int64)
    (minScore maxScore : Option Float64) (ackDeadlineMs : Int64) :
    ∃ S' l, (c.pullMessages clock q n minScore maxScore ackDeadlineMs).1 = .ids l ∧ l.Nodup ∧
      Represents (c.pullMessages clock q n minScore maxScore ackDeadlineMs).2 S' ∧ ∀ queue id,
      Step queue id (.pullMessages clock q n minScore maxScore ackDeadlineMs, .ids l)
        (Spot.stage (S queue id)) (Spot.stage (S' queue id)) := by
  obtain ⟨hres, ⟨rest, hrest, hact⟩, hproc, hframe⟩ :=
    pullMessages_spec c clock q n minScore maxScore ackDeadlineMs
  set looked := (c.pool .active q).entries.take n.toInt.toNat with hlooked
  set out := (looked.filter (¬ Excluded minScore maxScore ·)).map MemoryMessageEntry.id with hout
  -- the ids of the active list are handed out, set aside or left
  have hperm : (out ++ ((looked.filter (Excluded minScore maxScore)).map MemoryMessageEntry.id ++
      rest.ids)).Perm (c.pool .active q).ids := by
    have hsplit : (c.pool .active q).ids =
        looked.map MemoryMessageEntry.id ++ rest.ids := by
      rw [EntryList.ids, EntryList.ids, hrest, ← List.map_append, List.take_append_drop]
    have hfilter : (looked.filter (¬ Excluded minScore maxScore ·) ++
        looked.filter (Excluded minScore maxScore)).Perm looked := by
      simp only [decide_not]
      exact List.perm_append_comm.trans (List.filter_append_perm _ looked)
    rw [hsplit, ← List.append_assoc, hout, ← List.map_append]
    exact (hfilter.map _).append_right _
  have hnodup := hperm.nodup_iff.mpr (c.pool .active q).nodup
  rw [List.nodup_append'] at hnodup
  have hactive : ∀ id ∈ out, S q id = some .active := fun id hid =>
    (hc q id .active).mp (hperm.subset (by simp [hid]))
  have hmem : ∀ id, id ∈ ((c.pullMessages clock q n minScore maxScore ackDeadlineMs).2.pool
      .active q).ids ↔ id ∈ (c.pool .active q).ids ∧ id ∉ out := by
    intro id
    have hdisj := hnodup.2.2
    rw [hact, mem_ids_foldl_insertEntry, ← hperm.mem_iff, List.mem_append, ← List.mem_append]
    grind [List.disjoint_left]
  have hmem' : ∀ id, id ∈ ((c.pullMessages clock q n minScore maxScore ackDeadlineMs).2.pool
      .processing q).ids ↔ id ∈ out ∨ id ∈ (c.pool .processing q).ids := by
    intro id
    rw [hproc, mem_ids_foldl_insertEntry, ids_processingEntries]
  refine ⟨S.replace q out (some .processing), out, hres, hnodup.1, ?_, fun queue id => ?_⟩
  · refine hc.replace (fun id hid p => ?_) fun q' id p hnot => ?_
    · cases p with
      | active => simp [hmem, hid]
      | processing => simp [hmem', hid]
      | lock t => simp [hframe (.lock t) q (by simp), hc q id, hactive id hid]
    · by_cases hq : q' = q
      · subst hq
        cases p with
        | active => simp [hmem, hnot rfl]
        | processing => simp [hmem', hnot rfl]
        | lock t => rw [hframe (.lock t) q' (by simp)]
      · rw [hframe p q' fun h => absurd h hq]
  · refine stage_replace (fun h => ⟨fun hp => h ⟨hp.1.symm, hp.2⟩, not_false, not_false⟩) ?_
    rintro rfl hid
    rw [hactive id hid]
    exact .pull ⟨rfl, hid⟩

end Pull

theorem isPresentOnAnyPool_iff (hc : Represents c S) :
    c.isPresentOnAnyPool queue id = true ↔ S queue id ≠ none := by
  simp only [isPresentOnAnyPool, Bool.or_eq_true, EntryList.contains_iff, hc queue id]
  rcases S queue id with _ | _ | _ | (_ | _) <;> simp

theorem mem_ids_foldl_createEntry {l : EntryList} {messages : List Message} :
    id ∈ (messages.foldl (fun l message => l.insertEntry (createEntry message)) l).ids ↔
      id ∈ messages.map Message.id ∨ id ∈ l.ids := by
  rw [show messages.foldl (fun l message => l.insertEntry (createEntry message)) l =
    (messages.map createEntry).foldl EntryList.insertEntry l from List.foldl_map.symm,
    mem_ids_foldl_insertEntry, List.map_map]
  rfl

theorem insert_step (hc : Represents c S) (q : String) (messages : List Message) :
    ∃ S', Represents (c.insert q messages).2 S' ∧ ∀ queue id,
      Step queue id (.insert q messages, (c.insert q messages).1)
        (Spot.stage (S queue id)) (Spot.stage (S' queue id)) := by
  simp only [insert]
  split_ifs
  · exact ⟨S, hc, fun _ _ => .stay not_false not_false False.elim⟩
  set insertions := messages.filter fun message => !c.isPresentOnAnyPool q message.id with hins
  have habsent : ∀ id ∈ insertions.map Message.id, S q id = none := by
    intro id hid
    obtain ⟨m, hm, rfl⟩ := List.mem_map.mp hid
    have hpresent := (List.mem_filter.mp hm).2
    by_contra hne
    simp [(isPresentOnAnyPool_iff hc).mpr hne] at hpresent
  refine ⟨S.replace q (insertions.map Message.id) (some .active), ?_, fun queue id => ?_⟩
  · refine hc.replace (fun id hid p => ?_) fun q' id p hout => ?_
    · cases p with
      | active => simpa using mem_ids_foldl_createEntry.mpr (Or.inl hid)
      | _ => simp [hc q id, habsent id hid]
    · by_cases hq : q' = q
      · subst hq
        cases p with
        | active => simpa using mem_ids_foldl_createEntry.trans (or_iff_right (hout rfl))
        | _ => simp
      · simp [hq]
  · refine stage_replace (fun h => ⟨not_false, fun hi => h ⟨hi.1.symm, hi.2⟩, not_false⟩) ?_
    rintro rfl hid
    rw [habsent id hid]
    exact .insert ⟨rfl, hid⟩

theorem mem_removeFromSlice {l : EntryList} {ids : List String} :
    id ∈ (removeFromSlice l ids).2.ids ↔ id ∉ ids ∧ id ∈ l.ids := by
  suffices h : ∀ acc : ℕ × EntryList, id ∈ (ids.foldl (fun acc id =>
      (acc.1 + if acc.2.contains id then 1 else 0, acc.2.removeEntry id)) acc).2.ids ↔
      id ∉ ids ∧ id ∈ acc.2.ids from h (0, l)
  induction ids with
  | nil => simp
  | cons a ids ih =>
    intro acc
    rw [List.foldl_cons, ih, EntryList.mem_ids_removeEntry, List.mem_cons]
    tauto

theorem mem_ids_remove {p : MemoryPool} {q q' : String} {ids : List String} :
    id ∈ ((c.remove q ids).2.pool p q').ids ↔
      (q' = q → id ∉ ids) ∧ id ∈ (c.pool p q').ids := by
  by_cases hq : q' = q
  · subst hq
    rcases p with _ | _ | (_ | _) <;> simp [remove, mem_removeFromSlice]
  · rcases p with _ | _ | (_ | _) <;> simp [remove, hq]

theorem remove_step (hc : Represents c S) (q : String) (ids : List String) :
    ∃ S', Represents (c.remove q ids).2 S' ∧ ∀ queue id,
      Step queue id (.remove q ids, (c.remove q ids).1)
        (Spot.stage (S queue id)) (Spot.stage (S' queue id)) := by
  refine ⟨S.replace q ids none, hc.replace (fun id hid p => ?_) fun q' id p hout => ?_,
    fun queue id => ?_⟩
  · simp [mem_ids_remove, hid]
  · rw [mem_ids_remove]
    exact and_iff_right hout
  · refine stage_replace (fun h => ⟨not_false, not_false, fun hr => h ⟨hr.1.symm, hr.2⟩⟩) ?_
    rintro rfl hid
    exact .remove ⟨rfl, hid⟩

end Calls

/-- Stages of the messages in a state of the cache. -/
def Stages (c : MemoryCache) (A : String → String → Stage) : Prop :=
  ∃ S, Represents c S ∧ A = fun queue id => Spot.stage (S queue id)

theorem stages_new : Stages new fun _ _ => .absent := ⟨_, represents_new, rfl⟩

theorem refines : Refines machine (fun _ => True) Stages := by
  rintro c op res d A hcall - ⟨S, hc, rfl⟩
  have hstep : ∃ S', Represents d S' ∧ ∀ queue id, Step queue id (op, res)
      (Spot.stage (S queue id)) (Spot.stage (S' queue id)) := by
    obtain ⟨out, hout⟩ : ∃ out, out = (res, d) := ⟨_, rfl⟩
    rw [machine, ← hout] at hcall
    obtain ⟨rfl, rfl⟩ := Prod.ext_iff.mp hout
    cases hcall with
    | insert q messages => exact insert_step hc q messages
    | pullMessages clock q n lo hi dl =>
      obtain ⟨S', l, hl, -, hs', hmoves⟩ := pullMessages_step hc clock q n lo hi dl
      exact ⟨S', hs', fun queue id => hl ▸ hmoves queue id⟩
    | makeAvailable message => exact makeAvailable_step hc message
    | lockMessage clock message t => exact lockMessage_step hc clock message t
    | unlockMessages clock q t order _ => exact unlockMessages_step hc clock q t order
    | timeoutMessages clock q => exact timeoutMessages_step hc clock q
    | remove q ids => exact remove_step hc q ids
  obtain ⟨S', hs', hmoves⟩ := hstep
  exact ⟨_, ⟨S', hs', rfl⟩, hmoves⟩

theorem nodup_of_pull (hc : Represents c S) {clock : Clock} {n ackDeadlineMs : Int64}
    {minScore maxScore : Option Float64} {l : List String}
    (h : machine c (.pullMessages clock queue n minScore maxScore ackDeadlineMs) (.ids l) d) :
    l.Nodup := by
  obtain ⟨S', l', hl', hnodup, -⟩ :=
    pullMessages_step hc clock queue n minScore maxScore ackDeadlineMs
  unfold machine at h
  generalize hout : (Result.ids l, d) = out at h
  cases h with
  | pullMessages =>
    rw [← hout] at hl'
    exact Result.ids.inj hl' ▸ hnodup

/-- In a run of either cache, two deliveries of a message have a release of it between
them, and one delivery never lists a message twice. -/
theorem no_double_delivery (cache : RedisCache) {tr : List Call}
    (hok : ∀ c ∈ tr, c.1.AmountOk ∧ c.1.ScoresOk)
    (hrun : (∃ t, Run cache.machine Redis.empty tr t) ∨ ∃ d, Run machine new tr d) :
    (∀ queue id pre e mid e' post, tr = pre ++ e :: (mid ++ e' :: post) → Pulled queue id e →
      Pulled queue id e' → ReleasedIn queue id mid) ∧
    ∀ clock queue n minScore maxScore ackDeadlineMs ids,
      (Op.pullMessages clock queue n minScore maxScore ackDeadlineMs, Result.ids ids) ∈ tr →
      ids.Nodup := by
  refine ⟨?_, ?_⟩
  · rintro queue id pre e mid e' post rfl he he'
    rcases hrun with ⟨t, hrun⟩ | ⟨d, hrun⟩
    · exact cache.refines.releasedIn hrun hok cache.stages_empty he he'
    · exact refines.releasedIn hrun (fun _ _ => trivial) stages_new he he'
  · intro clock queue n lo hi dl ids hmem
    obtain ⟨pre, post, rfl⟩ := List.append_of_mem hmem
    have hpre : ∀ c ∈ pre, c.1.AmountOk ∧ c.1.ScoresOk := fun c hc => hok c (by simp [hc])
    rcases hrun with ⟨t, hrun⟩ | ⟨d, hrun⟩
    · obtain ⟨s₁, hrun₁, hrest⟩ := run_append.mp hrun
      obtain ⟨s₂, hpull, -⟩ := run_cons.mp hrest
      obtain ⟨P, hs, -⟩ := RedisCache.exists_represents hrun₁ fun c hc => (hpre c hc).1
      obtain ⟨P', -, -, hmoves⟩ := RedisCache.machine_moves hpull hs (hok _ (by simp)).1
      cases hmoves with
      | pulled _ hnodup => exact hnodup
    · obtain ⟨c₁, hrun₁, hrest⟩ := run_append.mp hrun
      obtain ⟨c₂, hpull, -⟩ := run_cons.mp hrest
      obtain ⟨A, S, hs, -⟩ := refines.run hrun₁ (fun _ _ => trivial) stages_new
      exact nodup_of_pull hs hpull

theorem no_double_delivery_released :
    let cache := RedisCache.mk ""
    let message : Message := { id := "a", queue := "q", score := .ofInt 5 }
    let pull : Op := .pullMessages (fun _ => 0) "q" 1 none none 0
    (play cache.step Redis.empty [.insert "q" [message], pull, .makeAvailable message, pull]).1.map
      Prod.snd = [.ids ["a"], .ids ["a"], .flag true, .ids ["a"]] ∧
    ReleasedIn "q" "a" [(.makeAvailable message, .flag true)] := by
  intro cache message pull
  have hres : (play cache.step Redis.empty
      [.insert "q" [message], pull, .makeAvailable message, pull]).1.map Prod.snd =
      [.ids ["a"], .ids ["a"], .flag true, .ids ["a"]] := by decide +kernel
  refine ⟨hres, ?_⟩
  have hrun := run_play cache.step Redis.empty
    [.insert "q" [message], pull, .makeAvailable message, pull]
  have htr : (play cache.step Redis.empty
      [.insert "q" [message], pull, .makeAvailable message, pull]).1 =
      [(.insert "q" [message], .ids ["a"]), (pull, .ids ["a"]),
        (.makeAvailable message, .flag true), (pull, .ids ["a"])] := by
    simp only [play, List.map_cons, List.map_nil, List.cons.injEq, and_true] at hres ⊢
    simp only [hres, and_self]
  rw [htr] at hrun
  exact (no_double_delivery cache (by decide +kernel) (Or.inl ⟨_, hrun⟩)).1 "q" "a"
    [(.insert "q" [message], .ids ["a"])] (pull, .ids ["a"])
    [(.makeAvailable message, .flag true)] (pull, .ids ["a"]) [] rfl ⟨rfl, by simp⟩ ⟨rfl, by simp⟩

end Deckard.MemoryCache
