import Deckard.MemoryIdentity

/-!
# Rejected batches

An insertion with a message that has no queue or no id returns an error. The MongoDB storage
checks the whole batch first. The loop of the memory storage checks each message on its turn,
so the messages before the bad one have been written; nothing has changed only if they were all
stored already with the same contents.
-/
namespace Deckard

namespace MemoryStorage

variable {ι : Type} [LinearOrder ι] {internalIds : InternalIds ι} {storage : MemoryStorage ι}
  {clock : ℕ → Time} {messages : List Message} {m : Message}

/-- The last message of a batch with a key. -/
def lastFor (batch : List Message) (key : String) : Option Message :=
  batch.reverse.find? fun m => getKey m = key

theorem lastFor_cons (m : Message) (batch : List Message) (key : String) :
    lastFor (m :: batch) key =
      (lastFor batch key).or (if getKey m = key then some m else none) := by
  simp [lastFor, List.find?_append, List.find?_singleton]

theorem lastFor_isSome {batch : List Message} (h : m ∈ batch) :
    (lastFor batch (getKey m)).isSome := by
  rw [lastFor, List.find?_isSome]
  exact ⟨m, List.mem_reverse.mpr h, by simp⟩

/-- What a batch of stored messages leaves in a row. -/
def rewritten (batch : List Message) (d : Stored ι) : Stored ι :=
  { d with value := (lastFor batch d.key).elim d.value fun m => overwrite m d.value }

omit [LinearOrder ι] in
theorem map_rewritten_nil (rows : List (Stored ι)) : rows.map (rewritten []) = rows := by
  rw [show (rewritten [] : Stored ι → Stored ι) = id from rfl, List.map_id]

theorem insertOne_of_absent (now : Time) (h : storage.docs.get (getKey m) = none) :
    (insertOne internalIds now storage m).docs.last = internalIds.next storage.docs.last := by
  simp [insertOne, Table.upsert, h, Table.push]

theorem insertOne_of_present (internalIds : InternalIds ι) (now : Time)
    (h : storage.docs.get (getKey m) ≠ none) :
    (insertOne internalIds now storage m).docs =
      storage.docs.modify (getKey m) (overwrite m) := by
  simp [insertOne, Table.upsert, h]

theorem insertFrom_refused (internalIds : InternalIds ι) (clock : ℕ → Time) (i : ℕ) (n : ℕ × ℕ)
    (hm : ¬ (m.queue ≠ "" ∧ m.id ≠ "")) (messages : List Message) (storage : MemoryStorage ι) :
    ∃ e, insertFrom internalIds clock i n (m :: messages) storage = (.error e, storage) := by
  rw [insertFrom]
  split_ifs with hqueue hid
  · exact ⟨_, rfl⟩
  · exact ⟨_, rfl⟩
  · exact absurd ⟨hqueue, hid⟩ hm

theorem insertFrom_error_iff (internalIds : InternalIds ι) (clock : ℕ → Time)
    (storage : MemoryStorage ι) (i : ℕ) (n : ℕ × ℕ) :
    (∃ e, (insertFrom internalIds clock i n messages storage).1 = .error e) ↔
      ¬ ∀ m ∈ messages, m.queue ≠ "" ∧ m.id ≠ "" := by
  induction messages generalizing i n storage with
  | nil => simp [insertFrom]
  | cons m messages ih =>
    by_cases hm : m.queue ≠ "" ∧ m.id ≠ ""
    · rw [insertFrom_cons hm, ih, List.forall_mem_cons, and_iff_right hm]
    · obtain ⟨e, he⟩ := insertFrom_refused internalIds clock i n hm messages storage
      rw [he]
      exact iff_of_true ⟨e, rfl⟩ fun h => hm (h m List.mem_cons_self)

theorem last_le_insertFrom (i : ℕ) (n : ℕ × ℕ) :
    storage.docs.last ≤ (insertFrom internalIds clock i n messages storage).2.docs.last := by
  induction messages generalizing i n storage with
  | nil => exact le_rfl
  | cons m messages ih =>
    by_cases hm : m.queue ≠ "" ∧ m.id ≠ ""
    · have hone : storage.docs.last ≤ (insertOne internalIds (clock i) storage m).docs.last :=
        (Table.grows_upsert storage.docs _ _ _ _).last_le
      rw [insertFrom_cons hm]
      exact hone.trans (ih _ _)
    · obtain ⟨e, he⟩ := insertFrom_refused internalIds clock i n hm messages storage
      rw [he]

/-- A message that is created moves the counter. -/
theorem last_lt_insertFrom (internalIds : InternalIds ι) (clock : ℕ → Time) (i : ℕ) (n : ℕ × ℕ)
    (hm : m ∈ accepted messages) (habsent : storage.docs.get (getKey m) = none) :
    storage.docs.last < (insertFrom internalIds clock i n messages storage).2.docs.last := by
  induction messages generalizing i n storage with
  | nil => cases hm
  | cons m' messages ih =>
    by_cases hvalid : m'.queue ≠ "" ∧ m'.id ≠ ""
    · rw [accepted_cons hvalid, List.mem_cons] at hm
      rw [insertFrom_cons hvalid]
      by_cases hstored : storage.docs.get (getKey m') = none
      · calc storage.docs.last < internalIds.next storage.docs.last := internalIds.lt_next _
          _ = (insertOne internalIds (clock i) storage m').docs.last :=
            (insertOne_of_absent _ hstored).symm
          _ ≤ _ := last_le_insertFrom _ _
      · have hne : m ≠ m' := by
          rintro rfl
          exact hstored habsent
        have hsame := insertOne_of_present internalIds (clock i) hstored
        have hlast : (insertOne internalIds (clock i) storage m').docs.last =
            storage.docs.last := by
          rw [hsame]
          rfl
        rw [← hlast]
        refine ih _ _ (hm.resolve_left hne) ?_
        rw [hsame, Table.get_modify, habsent]
        simp
    · rw [accepted_refused hvalid] at hm
      cases hm

/-- A batch of stored messages rewrites the rows in place. -/
theorem insertFrom_of_stored (internalIds : InternalIds ι) (clock : ℕ → Time) (i : ℕ) (n : ℕ × ℕ)
    (hstored : ∀ m ∈ accepted messages, storage.docs.get (getKey m) ≠ none) :
    (insertFrom internalIds clock i n messages storage).2.docs.rows =
        storage.docs.rows.map (rewritten (accepted messages)) ∧
      (insertFrom internalIds clock i n messages storage).2.docs.last = storage.docs.last := by
  induction messages generalizing i n storage with
  | nil => exact ⟨(map_rewritten_nil _).symm, rfl⟩
  | cons m messages ih =>
    by_cases hvalid : m.queue ≠ "" ∧ m.id ≠ ""
    · rw [accepted_cons hvalid] at hstored ⊢
      obtain ⟨hm, hrest⟩ := List.forall_mem_cons.mp hstored
      have hone := insertOne_of_present internalIds (clock i) hm
      rw [insertFrom_cons hvalid]
      obtain ⟨hrows, hlast⟩ := @ih (insertOne internalIds (clock i) storage m) (i + 1)
        (n + counts storage m) (by
          intro m' hm'
          rw [hone, Table.get_modify]
          have := hrest m' hm'
          split_ifs <;> simpa using this)
      rw [hrows, hlast, hone]
      refine ⟨?_, rfl⟩
      rw [Table.modify, List.map_map]
      apply List.map_congr_left
      intro d _
      by_cases hkey : d.key = getKey m
      · cases hlast : lastFor (accepted messages) d.key with
        | none => simp [rewritten, lastFor_cons, hkey, hkey ▸ hlast]
        | some m' => simp [rewritten, lastFor_cons, hkey, hkey ▸ hlast, overwrite]
      · simp [rewritten, lastFor_cons, hkey, Ne.symm hkey]
    · obtain ⟨e, he⟩ := insertFrom_refused internalIds clock i n hvalid messages storage
      rw [he, accepted_refused hvalid]
      exact ⟨(map_rewritten_nil _).symm, rfl⟩

/-- The message is stored with the contents that it brings. -/
def Repeats (storage : MemoryStorage ι) (key : String) (m : Message) : Prop :=
  ∃ v, storage.docs.value key = some v ∧ overwrite m v = v

/-- The accepted part of a batch leaves the storage as it is if the last message of each key
repeats what is stored. -/
theorem insertFrom_eq_self_iff (internalIds : InternalIds ι) (clock : ℕ → Time) (i : ℕ)
    (n : ℕ × ℕ) :
    (insertFrom internalIds clock i n messages storage).2 = storage ↔
      ∀ key m, lastFor (accepted messages) key = some m → storage.Repeats key m := by
  by_cases hstored : ∀ m ∈ accepted messages, storage.docs.get (getKey m) ≠ none
  · -- nothing is created: the rows stay and their contents may change
    obtain ⟨hrows, hlast⟩ := insertFrom_of_stored internalIds clock i n hstored
    have hsame : (insertFrom internalIds clock i n messages storage).2 = storage ↔
        ∀ d ∈ storage.docs.rows, rewritten (accepted messages) d = d := by
      have hmap : storage.docs.rows.map (rewritten (accepted messages)) = storage.docs.rows ↔
          ∀ d ∈ storage.docs.rows, rewritten (accepted messages) d = d := by
        conv_lhs => rhs; rw [← List.map_id storage.docs.rows]
        exact List.map_inj_left
      rw [← hmap, ← hrows]
      exact ⟨fun h => by rw [h], fun h => MemoryStorage.ext (Table.eq_of_rows h hlast)⟩
    rw [hsame]
    constructor
    · intro hrewritten key m hm
      have hm' : m ∈ accepted messages := List.mem_reverse.mp (List.mem_of_find?_eq_some hm)
      have hkey : getKey m = key := by simpa using List.find?_some hm
      obtain ⟨d, hd⟩ := Option.ne_none_iff_exists'.mp (hstored m hm')
      obtain ⟨hmem, hdkey⟩ := Table.get_eq_some.mp hd
      refine ⟨d.value, by rw [Table.value, ← hkey, hd]; rfl, ?_⟩
      have hvalue := congrArg Row.value (hrewritten d hmem)
      rw [rewritten, hdkey, hkey, hm] at hvalue
      exact hvalue
    · intro hrepeats d hd
      cases hm : lastFor (accepted messages) d.key with
      | none => rw [rewritten, hm, Option.elim_none]
      | some m =>
        obtain ⟨v, hv, hsame⟩ := hrepeats d.key m hm
        have hget : storage.docs.get d.key = some d := Table.get_eq_some.mpr ⟨hd, rfl⟩
        rw [Table.value, hget, Option.map_some, Option.some_inj] at hv
        rw [rewritten, hm, Option.elim_some, hv, hsame, ← hv]
  · obtain ⟨m, hm, habsent⟩ : ∃ m ∈ accepted messages, storage.docs.get (getKey m) = none := by
      simpa using hstored
    -- a message is created, which moves the counter
    refine iff_of_false (fun heq => ?_) fun hrepeats => ?_
    · have hlt := last_lt_insertFrom internalIds clock i n hm habsent
      rw [heq] at hlt
      exact lt_irrefl _ hlt
    · obtain ⟨m', hm'⟩ := Option.isSome_iff_exists.mp (lastFor_isSome hm)
      obtain ⟨v, hv, -⟩ := hrepeats _ m' hm'
      rw [Table.value, habsent] at hv
      cases hv

end MemoryStorage

/-- An insertion that returns an error leaves everything as it was. -/
def RejectsWhole {σ : Type} (out : Except StorageError (ℕ × ℕ) × σ) (before : σ) : Prop :=
  ∀ e, out.1 = .error e → out.2 = before

/-- For every storage and every batch, a rejected batch changes nothing in the memory storage
exactly if no message of it is bad, or the last message of each key before the first bad one
repeats what is stored. In the MongoDB storage it never changes anything. -/
theorem rejectsWhole_iff {ι : Type} [LinearOrder ι] (internalIds : InternalIds ι)
    (clock : ℕ → Time) (messages : List Message) (storage : MemoryStorage ι)
    (docs : MongoStorage.Documents ι) :
    (RejectsWhole (MemoryStorage.insert internalIds clock messages storage) storage ↔
      (∀ m ∈ messages, m.queue ≠ "" ∧ m.id ≠ "") ∨
        ∀ key m, MemoryStorage.lastFor (MemoryStorage.accepted messages) key = some m →
          storage.Repeats key m) ∧
      RejectsWhole (MongoStorage.insert internalIds (clock 0) messages docs) docs := by
  constructor
  · rw [MemoryStorage.insert, ← MemoryStorage.insertFrom_eq_self_iff internalIds clock 0 (0, 0),
      ← not_not (a := ∀ m ∈ messages, _),
      ← MemoryStorage.insertFrom_error_iff internalIds clock storage 0 (0, 0), RejectsWhole]
    constructor
    · intro h
      rw [or_iff_not_imp_left, not_not]
      rintro ⟨e, he⟩
      exact h e he
    · rintro (hnone | hsame) e he
      · exact absurd ⟨e, he⟩ hnone
      · exact hsame
  · rcases MongoStorage.insert_cases internalIds (clock 0) messages docs with
      ⟨e, he⟩ | ⟨⟨n, hn⟩, -⟩
    · rw [he]
      exact fun _ _ => rfl
    · rw [hn]
      exact fun _ h => by cases h

/-- A good message before a bad one is stored, and the batch is rejected. -/
theorem rejected_batch_stored :
    ¬ RejectsWhole (MemoryStorage.insert InternalIds.counter (fun _ => 0)
      [{ id := "a", queue := "q" }, { id := "", queue := "q" }]
      (MemoryStorage.newMemoryStorage 0)) (MemoryStorage.newMemoryStorage 0) := by
  intro h
  have hdocs := congrArg (fun storage => storage.docs.last) (h .messageHasInvalidID rfl)
  exact absurd hdocs (by decide +kernel)

end Deckard
