import Deckard.MemoryStorage

/-!
# Removal of documents

`Remove` deletes the documents of a queue with given ids and returns how many. The MongoDB
storage takes the ids in chunks and adds up what the server has deleted. The memory storage
goes through its map and, at each message of the queue, through all ids; an id that is listed
twice counts twice.
-/
namespace Deckard

/-- Exactly the requested documents are gone, and the number returned is theirs. -/
def RemovesExactly {α : Type} (key : α → Key) (queue : String) (ids : List String)
    (before : List α) (deleted : ℕ) (after : List α) : Prop :=
  after = before.filter (fun d => !((key d).1 == queue && ids.contains (key d).2)) ∧
    deleted + after.length = before.length

namespace MemoryStorage

variable {ι : Type} [LinearOrder ι] {queue : String} {ids : List String}

/-- The inner loop over the ids, at a message of the queue. -/
def removeIds (ids : List String) (d : Stored ι) (acc : ℕ × Table ι String Message) :
    ℕ × Table ι String Message :=
  ids.foldl (fun acc id =>
    if d.value.id = id then (acc.1 + 1, acc.2.keep (· ≠ d.key)) else acc) acc

/-- The loop over the map. Only the message that is visited is deleted, so the visit comes to
all of them. -/
def removeLoop (queue : String) (ids : List String) (visit : List (Stored ι))
    (acc : ℕ × Table ι String Message) : ℕ × Table ι String Message :=
  visit.foldl (fun acc d => if d.value.queue ≠ queue then acc else removeIds ids d acc) acc

/-- The loops ask for the removal of the message. -/
def requested (queue : String) (ids : List String) (d : Stored ι) : Bool :=
  d.value.queue == queue && ids.contains d.value.id

theorem removeIds_eq (d : Stored ι) (acc : ℕ × Table ι String Message) :
    removeIds ids d acc = (acc.1 + ids.count d.value.id,
      acc.2.keep fun k => !(ids.contains d.value.id && k == d.key)) := by
  induction ids generalizing acc with
  | nil => simp [removeIds]
  | cons id ids ih =>
    have hstep : removeIds (id :: ids) d acc = removeIds ids d
        (if d.value.id = id then (acc.1 + 1, acc.2.keep (· ≠ d.key)) else acc) := rfl
    rw [hstep, ih]
    by_cases h : d.value.id = id
    · -- there is no break: the id counts again and the row is deleted again
      rw [if_pos h, Table.keep_keep]
      refine congrArg₂ Prod.mk ?_ (congrArg (Table.keep acc.2) (funext fun k => ?_))
      · simp [h]
        omega
      · by_cases hk : k = d.key <;> simp [h, hk]
    · rw [if_neg h]
      refine congrArg₂ Prod.mk ?_ (congrArg (Table.keep acc.2) (funext fun k => ?_))
      · simp [Ne.symm h]
      · simp [h]

theorem removeLoop_eq (visit : List (Stored ι)) (acc : ℕ × Table ι String Message) :
    removeLoop queue ids visit acc =
      (acc.1 + ((visit.filter fun d => d.value.queue = queue).map fun d =>
        ids.count d.value.id).sum,
      acc.2.keep fun k => visit.all fun d => !(requested queue ids d && k == d.key)) := by
  induction visit generalizing acc with
  | nil => simp [removeLoop]
  | cons d visit ih =>
    have hstep : removeLoop queue ids (d :: visit) acc = removeLoop queue ids visit
        (if d.value.queue ≠ queue then acc else removeIds ids d acc) := rfl
    rw [hstep, ih]
    by_cases h : d.value.queue = queue
    · rw [if_neg (not_not.mpr h), removeIds_eq, Table.keep_keep]
      refine congrArg₂ Prod.mk ?_ (congrArg (Table.keep acc.2) (funext fun k => ?_))
      · simp [h]
        omega
      · simp [requested, h]
    · rw [if_pos h]
      refine congrArg₂ Prod.mk ?_ (congrArg (Table.keep acc.2) (funext fun k => ?_))
      · simp [h]
      · simp [requested, h]

/-- The loops do what the storage is said to do, in whatever order the map is visited. -/
theorem removeLoop_eq_remove (storage : MemoryStorage ι) {visit : List (Stored ι)}
    (hvisit : visit.Perm storage.docs.rows) :
    removeLoop queue ids visit (0, storage.docs) =
      ((storage.remove queue ids).1, (storage.remove queue ids).2.docs) := by
  rw [removeLoop_eq, Nat.zero_add]
  refine congrArg₂ Prod.mk ?_ (Table.eq_of_rows ?_ rfl)
  · exact ((hvisit.filter _).map _).sum_eq
  · apply List.filter_congr
    intro r hr
    rw [Bool.eq_iff_iff, List.all_eq_true]
    constructor
    · intro h
      simpa [requested] using h r (hvisit.mem_iff.mpr hr)
    · intro h d hd
      by_cases hkey : r.key = d.key
      · -- no other message lies under the key
        rw [List.inj_on_of_nodup_map storage.docs.nodup (hvisit.mem_iff.mp hd) hr hkey.symm]
        simpa [requested] using h
      · simp [hkey]

omit [LinearOrder ι] in
/-- Each message that is requested is counted at least once, and once only if its id is not
listed again. -/
theorem sum_count_spec (rows : List (Stored ι)) :
    let counted := ((rows.filter fun d => d.value.queue = queue).map fun d =>
      ids.count d.value.id).sum
    let gone := (rows.filter (requested queue ids)).length
    gone ≤ counted ∧ (counted = gone ↔
      ∀ d ∈ rows, d.value.queue = queue → ids.count d.value.id ≤ 1) := by
  induction rows with
  | nil => simp
  | cons d rows ih =>
    obtain ⟨hle, hiff⟩ := ih
    dsimp only at hle hiff ⊢
    rw [List.forall_mem_cons, ← hiff]
    by_cases hq : d.value.queue = queue
    · have hcount := List.count_pos_iff (a := d.value.id) (l := ids)
      by_cases hid : d.value.id ∈ ids
      · rw [List.filter_cons_of_pos (by simp [requested, hq, hid]), List.length_cons,
          List.filter_cons_of_pos (by simpa using hq), List.map_cons, List.sum_cons]
        have hpos := hcount.mpr hid
        constructor
        · omega
        · simp only [hq, forall_const]
          omega
      · rw [List.filter_cons_of_neg (by simp [requested, hid]),
          List.filter_cons_of_pos (by simpa using hq), List.map_cons, List.sum_cons]
        have hzero : ids.count d.value.id = 0 := List.count_eq_zero.mpr hid
        constructor
        · omega
        · simp only [hq, forall_const]
          omega
    · rw [List.filter_cons_of_neg (by simp [requested, hq]),
        List.filter_cons_of_neg (by simpa using hq)]
      exact ⟨hle, by simp [hq]⟩

theorem removeLoop_exact_iff (storage : MemoryStorage ι) {visit : List (Stored ι)}
    (hvisit : visit.Perm storage.docs.rows) :
    RemovesExactly (fun d : Stored ι => d.value.key) queue ids storage.docs.rows
        (removeLoop queue ids visit (0, storage.docs)).1
        (removeLoop queue ids visit (0, storage.docs)).2.rows ↔
      ∀ d ∈ storage.docs.rows, d.value.queue = queue → ids.count d.value.id ≤ 1 := by
  rw [removeLoop_eq_remove storage hvisit, ← (sum_count_spec storage.docs.rows).2]
  have hlength : storage.docs.rows.length =
      (storage.docs.rows.filter (requested queue ids)).length +
        (storage.docs.rows.filter fun d => !requested queue ids d).length :=
    List.length_eq_length_filter_add _
  constructor
  · rintro ⟨-, h⟩
    change ((storage.docs.rows.filter fun d => d.value.queue = queue).map fun d =>
      ids.count d.value.id).sum +
        (storage.docs.rows.filter fun d => !requested queue ids d).length = _ at h
    rw [hlength] at h
    exact Nat.add_right_cancel h
  · intro h
    refine ⟨rfl, ?_⟩
    rw [hlength, ← h]
    rfl

end MemoryStorage

namespace MongoStorage

variable {ι : Type} [LinearOrder ι] {queue : String} {ids : List String} {docs : Documents ι}

/-- The chunk that starts at an index, with an end that is not beyond the list. -/
def attemptChunkDeletion (i : ℕ) (ids : List String) (queue : String) (docs : Documents ι) :
    ℕ × Documents ι :=
  let last := if i + deleteChunkSize > ids.length then ids.length else i + deleteChunkSize
  deleteMany queue ((ids.take last).drop i) docs

/-- The loop from an index on; `fuel` bounds the number of chunks. -/
def removeFrom (queue : String) (ids : List String) : ℕ → ℕ → ℕ × Documents ι → ℕ × Documents ι
  | 0, _, acc => acc
  | fuel + 1, i, acc =>
      if i < ids.length then
        let res := attemptChunkDeletion i ids queue acc.2
        removeFrom queue ids fuel (i + deleteChunkSize) (acc.1 + res.1, res.2)
      else acc

/-- A chunk has at least one id, so there are no more chunks than ids. -/
def removeLoop (queue : String) (ids : List String) (docs : Documents ι) : ℕ × Documents ι :=
  if ids.isEmpty then (0, docs) else removeFrom queue ids ids.length 0 (0, docs)

/-- The end of the last chunk is cut off at the end of the list, as `take` does. -/
theorem attemptChunkDeletion_eq (i : ℕ) :
    attemptChunkDeletion i ids queue docs =
      deleteMany queue ((ids.drop i).take deleteChunkSize) docs := by
  have hchunk : (ids.take (if i + deleteChunkSize > ids.length then ids.length
      else i + deleteChunkSize)).drop i = (ids.drop i).take deleteChunkSize := by
    rw [List.drop_take]
    split_ifs with hend
    · rw [List.take_of_length_le (by rw [List.length_drop]),
        List.take_of_length_le (by rw [List.length_drop]; omega)]
    · rw [Nat.add_sub_cancel_left]
  exact congrArg (fun chunk => deleteMany queue chunk docs) hchunk

/-- The loop goes through the chunks of the ids from its index on. -/
theorem removeFrom_eq_foldl (fuel i : ℕ) (acc : ℕ × Documents ι) :
    removeFrom queue ids fuel i acc =
      (Gopart.go deleteChunkSize fuel (ids.drop i)).foldl (fun r chunk =>
        let deleted := deleteMany queue chunk r.2
        (r.1 + deleted.1, deleted.2)) acc := by
  induction fuel generalizing i acc with
  | zero => rfl
  | succ fuel ih =>
    rw [removeFrom, Gopart.go]
    by_cases hi : i < ids.length
    · have hmore : (ids.drop i).isEmpty = false := by simpa using hi
      rw [if_pos hi, hmore, if_neg Bool.false_ne_true, List.foldl_cons, List.drop_drop, ← ih,
        attemptChunkDeletion_eq]
    · have hdone : (ids.drop i).isEmpty = true := by simpa using hi
      rw [if_neg hi, hdone, if_pos rfl, List.foldl_nil]

theorem removeLoop_eq_remove (queue : String) (ids : List String) (docs : Documents ι) :
    removeLoop queue ids docs = remove queue ids docs := by
  rw [removeLoop, remove, Gopart.partition]
  split_ifs with hempty
  · rw [List.isEmpty_iff.mp hempty]
    rfl
  · exact removeFrom_eq_foldl ids.length 0 (0, docs)

/-- What a chunk deletes is what disappears with it, so the sum is what disappears with all. -/
theorem remove_fst (queue : String) (ids : List String) (docs : Documents ι) :
    (remove queue ids docs).1 + (remove queue ids docs).2.rows.length = docs.rows.length := by
  have hloop : ∀ (chunks : List (List String)) (r : ℕ × Documents ι),
      let out := chunks.foldl (fun r chunk =>
        let deleted := deleteMany queue chunk r.2
        (r.1 + deleted.1, deleted.2)) r
      out.1 + out.2.rows.length = r.1 + r.2.rows.length := by
    intro chunks
    induction chunks with
    | nil => exact fun _ => rfl
    | cons chunk chunks ih =>
      intro r
      have hle : (deleteMany queue chunk r.2).2.rows.length ≤ r.2.rows.length :=
        List.length_filter_le _ _
      have hdeleted : (deleteMany queue chunk r.2).1 =
          r.2.rows.length - (deleteMany queue chunk r.2).2.rows.length := rfl
      dsimp only at ih ⊢
      rw [List.foldl_cons, ih]
      dsimp only
      omega
  exact (hloop (Gopart.partition deleteChunkSize ids) (0, docs)).trans (Nat.zero_add _)

theorem removeLoop_exact (queue : String) (ids : List String) (docs : Documents ι) :
    RemovesExactly (fun d : Document ι => d.key) queue ids docs.rows
      (removeLoop queue ids docs).1 (removeLoop queue ids docs).2.rows := by
  rw [removeLoop_eq_remove]
  refine ⟨?_, remove_fst queue ids docs⟩
  rw [remove_snd]
  rfl

end MongoStorage

/-- For every content of the storages, every queue and every list of ids, both storages remove
exactly what is asked for and count it if and only if no id of a message of the queue in the
memory storage is listed twice; the MongoDB storage does so in any case. -/
theorem remove_exact_iff {ι : Type} [LinearOrder ι] (storage : MemoryStorage ι)
    {visit : List (MemoryStorage.Stored ι)} (hvisit : visit.Perm storage.docs.rows)
    (docs : MongoStorage.Documents ι) (queue : String) (ids : List String) :
    (RemovesExactly (fun d : MemoryStorage.Stored ι => d.value.key) queue ids storage.docs.rows
        (MemoryStorage.removeLoop queue ids visit (0, storage.docs)).1
        (MemoryStorage.removeLoop queue ids visit (0, storage.docs)).2.rows ↔
      ∀ d ∈ storage.docs.rows, d.value.queue = queue → ids.count d.value.id ≤ 1) ∧
    RemovesExactly (fun d : Document ι => d.key) queue ids docs.rows
      (MongoStorage.removeLoop queue ids docs).1 (MongoStorage.removeLoop queue ids docs).2.rows :=
  ⟨MemoryStorage.removeLoop_exact_iff storage hvisit, MongoStorage.removeLoop_exact queue ids docs⟩

/-- A memory storage with the messages `a` and `b` of a queue. -/
def twoMessages : MemoryStorage ℕ :=
  (MemoryStorage.insert InternalIds.counter (fun _ => 0)
    [{ id := "a", queue := "q" }, { id := "b", queue := "q" }]
    (MemoryStorage.newMemoryStorage 0)).2

theorem remove_exact_listedOnce :
    RemovesExactly (fun d : MemoryStorage.Stored ℕ => d.value.key) "q" ["b", "c"]
      twoMessages.docs.rows
      (MemoryStorage.removeLoop "q" ["b", "c"] twoMessages.docs.rows (0, twoMessages.docs)).1
      (MemoryStorage.removeLoop "q" ["b", "c"] twoMessages.docs.rows
        (0, twoMessages.docs)).2.rows :=
  (remove_exact_iff twoMessages (List.Perm.refl _) (Table.empty 0) "q" ["b", "c"]).1.mpr
    (by decide +kernel)

/-- The memory storage says that two messages are gone, where one is. -/
theorem repeated_id_counted_twice :
    twoMessages.docs.rows.length = 2 ∧
      (MemoryStorage.removeLoop "q" ["a", "a"] twoMessages.docs.rows (0, twoMessages.docs)).1 = 2 ∧
      (MemoryStorage.removeLoop "q" ["a", "a"] twoMessages.docs.rows
        (0, twoMessages.docs)).2.rows.length = 1 ∧
      ¬ RemovesExactly (fun d : MemoryStorage.Stored ℕ => d.value.key) "q" ["a", "a"]
        twoMessages.docs.rows
        (MemoryStorage.removeLoop "q" ["a", "a"] twoMessages.docs.rows (0, twoMessages.docs)).1
        (MemoryStorage.removeLoop "q" ["a", "a"] twoMessages.docs.rows
          (0, twoMessages.docs)).2.rows := by
  have hrows : twoMessages.docs.rows.length = 2 := by decide +kernel
  have hcount : (MemoryStorage.removeLoop "q" ["a", "a"] twoMessages.docs.rows
      (0, twoMessages.docs)).1 = 2 := by decide +kernel
  have hleft : (MemoryStorage.removeLoop "q" ["a", "a"] twoMessages.docs.rows
      (0, twoMessages.docs)).2.rows.length = 1 := by decide +kernel
  refine ⟨hrows, hcount, hleft, fun h => ?_⟩
  have hsum := h.2
  omega

end Deckard
