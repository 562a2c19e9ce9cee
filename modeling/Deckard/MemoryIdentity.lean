import Deckard.Runs
import Deckard.UpsertAgreement

/-!
# Identity of messages in the memory storage

A message is known by its queue and its id. The map of `MemoryStorage` has it under the
text of both with a colon between them, and two pairs may have one text. The writes of the
storage are compared with those of a catalogue, which has a place for every pair.
-/
namespace Deckard

open Runs

/-- The calls that write to a storage; `clock` gives the time that each turn of an insertion
reads. -/
inductive StorageWrite
  | insert (clock : ℕ → Time) (messages : List Message)
  | ack (message : Message)
  | nack (message : Message)
  | remove (queue : String) (ids : List String)

/-- What a write returns: how many messages were created and how many updated, or how many
were changed or removed. -/
inductive Written
  | upserts (counts : Except StorageError (ℕ × ℕ))
  | count (n : ℕ)
  deriving DecidableEq

/-- Messages by queue and id. -/
abbrev Catalogue := Key → Option Message

namespace Catalogue

/-- A message that is present is overwritten. -/
def insertOne (now : Time) (f : Catalogue) (m : Message) : Catalogue :=
  Function.update f m.key
    (some (((f m.key).map (MemoryStorage.overwrite m)).getD { m with lastUsage := some now }))

def counts (f : Catalogue) (m : Message) : ℕ × ℕ := if (f m.key).isSome then (0, 1) else (1, 0)

/-- The messages are inserted up to the first one that has no queue or no id. -/
def insertFrom (clock : ℕ → Time) :
    ℕ → ℕ × ℕ → List Message → Catalogue → Except StorageError (ℕ × ℕ) × Catalogue
  | _, n, [], f => (.ok n, f)
  | i, n, m :: messages, f =>
      if m.queue = "" then (.error .messageHasInvalidQueue, f)
      else if m.id = "" then (.error .messageHasInvalidID, f)
      else insertFrom clock (i + 1) (n + f.counts m) messages (f.insertOne (clock i) m)

/-- Change the message of a pair, if there is one. -/
def modify (k : Key) (update : Message → Message) (f : Catalogue) : ℕ × Catalogue :=
  ((f k).toList.length, Function.update f k ((f k).map update))

/-- Every occurrence of an id counts. -/
def remove (queue : String) (ids : List String) (f : Catalogue) : ℕ × Catalogue :=
  (ids.countP fun id => (f (queue, id)).isSome,
    fun k => if k.1 = queue ∧ k.2 ∈ ids then none else f k)

def write (f : Catalogue) : StorageWrite → Written × Catalogue
  | .insert clock messages => (insertFrom clock 0 (0, 0) messages f).map .upserts id
  | .ack m => (f.modify m.key (MemoryStorage.ackUpdate m)).map .count id
  | .nack m => (f.modify m.key (MemoryStorage.nackUpdate m)).map .count id
  | .remove queue ids => (f.remove queue ids).map .count id

end Catalogue

namespace MemoryStorage

variable {ι : Type} [LinearOrder ι] {internalIds : InternalIds ι} {storage : MemoryStorage ι}
  {k : Key} {m : Message}

def write (internalIds : InternalIds ι) (storage : MemoryStorage ι) :
    StorageWrite → Written × MemoryStorage ι
  | .insert clock messages => (insert internalIds clock messages storage).map .upserts id
  | .ack m => (ack m storage).map .count id
  | .nack m => (nack m storage).map .count id
  | .remove queue ids => (remove queue ids storage).map .count id

/-- The messages by their fields. -/
def catalogue (storage : MemoryStorage ι) : Catalogue := fun k =>
  (storage.docs.rows.find? fun d => d.value.key = k).map Row.value

theorem catalogue_eq_some {v : Message} :
    storage.catalogue k = some v ↔ ∃ d ∈ storage.docs.rows, d.value = v ∧ v.key = k := by
  have hfilter := filter_eq_toList_find? storage.nodup_pairs k
  rw [catalogue, Option.map_eq_some_iff]
  constructor
  · rintro ⟨d, hd, rfl⟩
    exact ⟨d, List.mem_of_find?_eq_some hd, rfl, by simpa using List.find?_some hd⟩
  · rintro ⟨d, hd, rfl, hk⟩
    have hmem : d ∈ storage.docs.rows.filter fun d => d.value.key = k :=
      List.mem_filter.mpr ⟨hd, decide_eq_true hk⟩
    rw [hfilter, Option.mem_toList] at hmem
    exact ⟨d, hmem, rfl⟩

/-- The catalogue read off the map. -/
theorem catalogue_eq (storage : MemoryStorage ι) (k : Key) :
    storage.catalogue k =
      (storage.docs.value k.text).filter fun v => v.key = k := by
  ext v
  rw [catalogue_eq_some, Option.filter_eq_some_iff, Table.value, Option.map_eq_some_iff,
    decide_eq_true_eq]
  simp only [Table.get_eq_some]
  constructor
  · rintro ⟨d, hd, rfl, rfl⟩
    exact ⟨⟨d, ⟨hd, storage.keyed d hd⟩, rfl⟩, rfl⟩
  · rintro ⟨⟨d, ⟨hd, -⟩, rfl⟩, hk⟩
    exact ⟨d, hd, rfl, hk⟩

/-- `Find` by queue and id returns the message of the catalogue, unless it has expired. -/
theorem find_catalogue (hk : k.1 ≠ "") {visit : List (Stored ι)}
    (hvisit : visit.Perm storage.docs.rows) (clock : Message → Time × Time) :
    (find internalIds (byKey k) (fun d => clock d.value) visit).map (List.map Row.value) =
      .ok ((storage.catalogue k).toList.filter fun v => !isExpired (clock v) v) := by
  rw [find_byPair hk, filter_eq_of_perm hvisit storage.nodup_pairs, catalogue]
  cases storage.docs.rows.find? fun d => d.value.key = k with
  | none => rfl
  | some d =>
    change Except.ok (List.map Row.value (List.filter _ [d])) = Except.ok (List.filter _ [d.value])
    rw [List.filter_singleton, List.filter_singleton]
    cases isExpired (clock d.value) d.value <;> rfl

/-! ## Pairs of one text -/

/-- No message of another pair lies under the text of `k`. -/
def Unshared (storage : MemoryStorage ι) (k : Key) : Prop :=
  ∀ k', (storage.catalogue k').isSome → k'.text = k.text → k' = k

/-- What lies under a text that is not shared is the message of the pair. -/
theorem Unshared.value_eq (h : storage.Unshared k) :
    storage.docs.value k.text = storage.catalogue k := by
  ext v
  rw [catalogue_eq, Option.filter_eq_some_iff]
  refine (and_iff_left_of_imp fun hv => ?_).symm
  obtain ⟨d, hd, rfl⟩ := Option.map_eq_some_iff.mp hv
  obtain ⟨hmem, hkey⟩ := Table.get_eq_some.mp hd
  have hstored : storage.catalogue d.value.key = some d.value :=
    catalogue_eq_some.mpr ⟨d, hmem, rfl, rfl⟩
  have htext : d.value.key.text = k.text := (storage.keyed d hmem).symm.trans hkey
  exact decide_eq_true (h d.value.key (by rw [hstored]; rfl) htext)

/-- Otherwise a message of another pair lies there. -/
theorem exists_of_shared (h : ¬ storage.Unshared k) :
    ∃ v, storage.docs.value k.text = some v ∧ v.key ≠ k := by
  unfold Unshared at h
  push Not at h
  obtain ⟨k', hsome, htext, hne⟩ := h
  obtain ⟨v, hv⟩ := Option.isSome_iff_exists.mp hsome
  rw [catalogue_eq, Option.filter_eq_some_iff, htext, decide_eq_true_eq] at hv
  obtain ⟨hv, rfl⟩ := hv
  exact ⟨v, hv, hne⟩

theorem catalogue_of_value {v : Message} (h : storage.docs.value k.text = some v)
    (hne : v.key ≠ k) : storage.catalogue k = none := by
  rw [catalogue_eq, h, Option.filter_some, decide_eq_false hne]
  rfl

/-- A change of what lies under the text of a pair changes the catalogue there only. -/
theorem catalogue_update {after : MemoryStorage ι} {v : Option Message}
    (hunshared : storage.Unshared k)
    (hvalue : ∀ text, after.docs.value text = if text = k.text then v else storage.docs.value text)
    (hv : ∀ w, v = some w → w.key = k) :
    after.catalogue = Function.update storage.catalogue k v := by
  have hother : ∀ k' ≠ k, ∀ o : Option Message, (∀ w, o = some w → w.key = k) →
      o.filter (fun w => w.key = k') = none := by
    intro k' hk o ho
    rw [Option.filter_eq_none_iff]
    intro w hw hkey
    exact hk ((of_decide_eq_true hkey).symm.trans (ho w hw))
  funext k'
  rw [catalogue_eq, hvalue]
  by_cases hk : k' = k
  · ext w
    rw [hk, if_pos rfl, Function.update_self, Option.filter_eq_some_iff]
    exact and_iff_left_of_imp fun hw => decide_eq_true (hv w hw)
  · rw [Function.update_of_ne hk, catalogue_eq]
    by_cases htext : k'.text = k.text
    · rw [if_pos htext, htext, hunshared.value_eq, hother k' hk v hv, hother k' hk]
      intro w hw
      obtain ⟨-, -, -, hkey⟩ := catalogue_eq_some.mp hw
      exact hkey
    · rw [if_neg htext]

/-! ## The writes -/

theorem catalogue_insertOne (h : storage.Unshared m.key) (now : Time) :
    (insertOne internalIds now storage m).catalogue = storage.catalogue.insertOne now m := by
  apply catalogue_update h
  · intro text
    rw [← h.value_eq]
    exact Table.value_upsert
  · intro w hw
    cases hw
    cases hv : storage.catalogue m.key with
    | none => rfl
    | some v =>
      obtain ⟨-, -, -, hkey⟩ := catalogue_eq_some.mp hv
      exact hkey

theorem counts_catalogue (h : storage.Unshared m.key) :
    counts storage m = storage.catalogue.counts m := by
  rw [counts, Catalogue.counts, ← h.value_eq, Table.value, Option.isSome_map]
  rfl

/-- `Ack` and `Nack` change what lies under the text of the message. -/
theorem catalogue_modify {update : Message → Message} (hkey : ∀ v, (update v).key = v.key)
    {after : MemoryStorage ι} (hafter : after.docs = storage.docs.modify k.text update)
    (h : storage.Unshared k) :
    ((storage.docs.get k.text).toList.length, after.catalogue) =
      storage.catalogue.modify k update := by
  refine Prod.ext ?_ (catalogue_update h (fun text => ?_) fun w hw => ?_)
  · change _ = (storage.catalogue k).toList.length
    rw [← h.value_eq, Table.value]
    cases storage.docs.get k.text <;> rfl
  · rw [hafter, ← h.value_eq]
    exact Table.value_modify
  · obtain ⟨v, hv, rfl⟩ := Option.map_eq_some_iff.mp hw
    obtain ⟨-, -, -, hk⟩ := catalogue_eq_some.mp hv
    exact (hkey v).trans hk

/-- If the text is shared, the message of another pair is changed. -/
theorem modify_shared {update : Message → Message} (h : ¬ storage.Unshared k) :
    (storage.docs.get k.text).toList.length ≠ (storage.catalogue.modify k update).1 := by
  obtain ⟨v, hv, hne⟩ := exists_of_shared h
  obtain ⟨d, hd, rfl⟩ := Option.map_eq_some_iff.mp hv
  rw [Catalogue.modify, catalogue_of_value hv hne, hd]
  exact one_ne_zero

/-- `Remove` goes by the fields. -/
theorem catalogue_remove (queue : String) (ids : List String) (storage : MemoryStorage ι) :
    (remove queue ids storage).2.catalogue = (storage.catalogue.remove queue ids).2 := by
  have hrows : ∀ d, d ∈ (remove queue ids storage).2.docs.rows ↔
      d ∈ storage.docs.rows ∧ ¬ (d.value.key.1 = queue ∧ d.value.key.2 ∈ ids) := by
    intro d
    change d ∈ (storage.docs.retain _).rows ↔ _
    rw [Table.mem_retain]
    simp [Message.key, imp_iff_not_or]
  funext k
  ext v
  change (remove queue ids storage).2.catalogue k = some v ↔
    (if k.1 = queue ∧ k.2 ∈ ids then none else storage.catalogue k) = some v
  rw [catalogue_eq_some]
  simp only [hrows]
  by_cases hk : k.1 = queue ∧ k.2 ∈ ids
  · rw [if_pos hk]
    refine iff_of_false ?_ fun h => by cases h
    rintro ⟨d, hd, rfl, rfl⟩
    exact hd.2 hk
  · rw [if_neg hk, catalogue_eq_some]
    constructor
    · rintro ⟨d, hd, hv⟩
      exact ⟨d, hd.1, hv⟩
    · rintro ⟨d, hd, rfl, rfl⟩
      exact ⟨d, ⟨hd, hk⟩, rfl, rfl⟩

theorem remove_fst (queue : String) (ids : List String) (storage : MemoryStorage ι) :
    (remove queue ids storage).1 = (storage.catalogue.remove queue ids).1 := by
  change ((storage.docs.rows.filter fun d => d.value.queue = queue).map fun d =>
    ids.count d.value.id).sum = ids.countP fun id => (storage.catalogue (queue, id)).isSome
  induction ids with
  | nil => simp
  | cons x ids ih =>
    -- one message at most has the id in the queue
    have hone : ((storage.docs.rows.filter fun d => d.value.queue = queue).map fun d =>
        if x == d.value.id then 1 else 0).sum =
          if (storage.catalogue (queue, x)).isSome then 1 else 0 := by
      have hpair : (storage.docs.rows.filter fun d => d.value.queue = queue).filter
          (fun d => x == d.value.id) =
            (storage.docs.rows.find? fun d => d.value.key = (queue, x)).toList := by
        rw [← filter_eq_toList_find? storage.nodup_pairs, List.filter_filter]
        apply List.filter_congr
        intro d _
        rw [Bool.eq_iff_iff, Bool.and_eq_true, beq_iff_eq, decide_eq_true_eq, decide_eq_true_eq,
          Message.key, Prod.mk.injEq, and_comm, eq_comm (a := x)]
      have hcount : ∀ l : List (Stored ι), (l.map fun d => if x == d.value.id then 1 else 0).sum =
          l.countP fun d => x == d.value.id := by
        intro l
        induction l with
        | nil => rfl
        | cons d l ihl => rw [List.map_cons, List.sum_cons, List.countP_cons, ihl, Nat.add_comm]
      rw [hcount, List.countP_eq_length_filter, hpair, catalogue, Option.isSome_map]
      cases storage.docs.rows.find? fun d => d.value.key = (queue, x) <;> rfl
    simp only [List.count_cons, List.sum_map_add, List.countP_cons, ih, hone]

/-! ## Insertions of several messages -/

/-- The pairs have texts of their own, among themselves and among the stored ones. -/
def Separates (storage : MemoryStorage ι) (ks : List Key) : Prop :=
  ∀ k ∈ ks, ∀ k', (storage.catalogue k').isSome ∨ k' ∈ ks → k'.text = k.text → k' = k

theorem Separates.unshared {ks : List Key} (h : storage.Separates (k :: ks)) :
    storage.Unshared k := fun k' hk' => h k List.mem_cons_self k' (.inl hk')

theorem separates_cons {ks : List Key} (hm : storage.Unshared m.key) (now : Time) :
    storage.Separates (m.key :: ks) ↔ (insertOne internalIds now storage m).Separates ks := by
  have hstored : ∀ k, ((insertOne internalIds now storage m).catalogue k).isSome ↔
      (storage.catalogue k).isSome ∨ k = m.key := by
    intro k
    rw [catalogue_insertOne hm, Catalogue.insertOne]
    by_cases hk : k = m.key
    · subst hk
      simp
    · simp [hk]
  simp only [Separates, hstored]
  constructor
  · intro h k hk k' hk'
    refine h k (List.mem_cons_of_mem _ hk) k' ?_
    rcases hk' with (hk' | rfl) | hk'
    · exact .inl hk'
    · exact .inr List.mem_cons_self
    · exact .inr (List.mem_cons_of_mem _ hk')
  · intro h k hk k' hk' htext
    rcases List.mem_cons.mp hk with rfl | hk
    · rcases hk' with hk' | hk'
      · exact hm k' hk' htext
      · rcases List.mem_cons.mp hk' with rfl | hk'
        · rfl
        · exact (h k' hk' m.key (.inl (.inr rfl)) htext.symm).symm
    · refine h k hk k' ?_ htext
      rcases hk' with hk' | hk'
      · exact .inl (.inl hk')
      · exact (List.mem_cons.mp hk').imp_left .inr

/-- The message under a text stays the one of its pair. -/
theorem value_insertFrom {clock : ℕ → Time} {text : String} {messages : List Message} (i : ℕ)
    (n : ℕ × ℕ) {v : Message} (hv : storage.docs.value text = some v) :
    ∃ v', (insertFrom internalIds clock i n messages storage).2.docs.value text = some v' ∧
      v'.key = v.key := by
  induction messages generalizing i n storage v with
  | nil => exact ⟨v, hv, rfl⟩
  | cons m messages ih =>
    rw [insertFrom]
    split_ifs
    · exact ⟨v, hv, rfl⟩
    · exact ⟨v, hv, rfl⟩
    · obtain ⟨w, hw, hkey⟩ : ∃ w, (insertOne internalIds (clock i) storage m).docs.value text =
          some w ∧ w.key = v.key := by
        rw [insertOne, Table.value_upsert]
        split_ifs with htext
        · rw [← htext, hv]
          exact ⟨_, rfl, rfl⟩
        · exact ⟨v, hv, rfl⟩
      obtain ⟨v', hv', hkey'⟩ := ih (i + 1) (n + counts storage m) hw
      exact ⟨v', hv', hkey'.trans hkey⟩

end MemoryStorage

theorem Catalogue.isSome_insertFrom {clock : ℕ → Time} {messages : List Message} {k : Key} (i : ℕ)
    (n : ℕ × ℕ) {f : Catalogue} (hk : (f k).isSome) :
    ((Catalogue.insertFrom clock i n messages f).2 k).isSome := by
  induction messages generalizing i n f with
  | nil => exact hk
  | cons m messages ih =>
    rw [insertFrom]
    split_ifs
    · exact hk
    · exact hk
    · apply ih
      by_cases hm : k = m.key
      · subst hm
        simp [insertOne]
      · simpa [insertOne, hm] using hk

namespace MemoryStorage

variable {ι : Type} [LinearOrder ι] {internalIds : InternalIds ι} {storage : MemoryStorage ι}
  {k : Key} {m : Message}

/-- The messages of an insertion before the first one that has no queue or no id. -/
def accepted (messages : List Message) : List Message :=
  messages.takeWhile fun m => m.queue ≠ "" ∧ m.id ≠ ""

theorem accepted_cons (hm : m.queue ≠ "" ∧ m.id ≠ "") (messages : List Message) :
    accepted (m :: messages) = m :: accepted messages :=
  List.takeWhile_cons_of_pos (decide_eq_true hm)

theorem accepted_refused (hm : ¬ (m.queue ≠ "" ∧ m.id ≠ "")) (messages : List Message) :
    accepted (m :: messages) = [] :=
  List.takeWhile_cons_of_neg (by simpa using hm)

/-- A message whose text is taken by another pair is not found afterwards. -/
theorem insertFrom_shared {clock : ℕ → Time} {messages : List Message} (i : ℕ) (n n' : ℕ × ℕ)
    (h : ¬ storage.Unshared m.key) (now now' : Time) :
    (insertFrom internalIds clock i n messages (insertOne internalIds now storage m)).2.catalogue ≠
      (Catalogue.insertFrom clock i n' messages (storage.catalogue.insertOne now' m)).2 := by
  obtain ⟨v, hv, hne⟩ := exists_of_shared h
  have hone : (insertOne internalIds now storage m).docs.value m.key.text =
      some (overwrite m v) := by
    rw [insertOne, Table.value_upsert]
    change (if m.key.text = m.key.text then some (((storage.docs.value m.key.text).map
      (overwrite m)).getD _) else _) = _
    rw [if_pos rfl, hv]
    rfl
  obtain ⟨v', hv', hkey⟩ : ∃ v', (insertFrom internalIds clock i n messages
      (insertOne internalIds now storage m)).2.docs.value m.key.text = some v' ∧
        v'.key = (overwrite m v).key := value_insertFrom i n hone
  have hnone := catalogue_of_value hv' (hkey.trans_ne hne)
  have hsome : ((storage.catalogue.insertOne now' m) m.key).isSome := by
    simp [Catalogue.insertOne]
  intro heq
  have hstored : ((Catalogue.insertFrom clock i n' messages
      (storage.catalogue.insertOne now' m)).2 m.key).isSome :=
    Catalogue.isSome_insertFrom i n' hsome
  rw [← heq, hnone] at hstored
  cases hstored

theorem insertFrom_iff (clock : ℕ → Time) (i : ℕ) (n : ℕ × ℕ) (messages : List Message)
    (storage : MemoryStorage ι) :
    (insertFrom internalIds clock i n messages storage).map id catalogue =
        Catalogue.insertFrom clock i n messages storage.catalogue ↔
      storage.Separates ((accepted messages).map Message.key) := by
  induction messages generalizing i n storage with
  | nil => exact iff_of_true rfl fun k hk => by cases hk
  | cons m messages ih =>
    by_cases hvalid : m.queue ≠ "" ∧ m.id ≠ ""
    · rw [insertFrom_cons hvalid, Catalogue.insertFrom, if_neg hvalid.1, if_neg hvalid.2,
        accepted_cons hvalid, List.map_cons]
      by_cases hm : storage.Unshared m.key
      · rw [separates_cons hm, ← ih, catalogue_insertOne hm, counts_catalogue hm]
      · refine iff_of_false (fun heq => ?_) fun h => hm h.unshared
        exact insertFrom_shared _ _ _ hm _ _ (congrArg Prod.snd heq)
    · rw [accepted_refused hvalid]
      refine iff_of_true ?_ fun k hk => by cases hk
      rw [insertFrom, Catalogue.insertFrom]
      split_ifs with hqueue hid
      · rfl
      · rfl
      · exact absurd ⟨hqueue, hid⟩ hvalid

end MemoryStorage

/-- The pairs that a write looks up by their text. -/
def StorageWrite.pairs : StorageWrite → List Key
  | .insert _ messages => (MemoryStorage.accepted messages).map Message.key
  | .ack m => [m.key]
  | .nack m => [m.key]
  | .remove _ _ => []

namespace MemoryStorage

variable {ι : Type} [LinearOrder ι] {internalIds : InternalIds ι} {storage : MemoryStorage ι}
  {k : Key} {m : Message}

theorem separates_singleton : storage.Separates [k] ↔ storage.Unshared k := by
  refine ⟨Separates.unshared, fun h k' hk' => ?_⟩
  rw [List.mem_singleton.mp hk']
  rintro k'' (hk'' | hk'')
  · exact h k'' hk''
  · exact fun _ => List.mem_singleton.mp hk''

theorem modify_iff {update : Message → Message} (hkey : ∀ v, (update v).key = v.key)
    {p : ℕ × MemoryStorage ι} (hcount : p.1 = (storage.docs.get k.text).toList.length)
    (hdocs : p.2.docs = storage.docs.modify k.text update) :
    p.map id catalogue = storage.catalogue.modify k update ↔ storage.Separates [k] := by
  have hp : p.map id catalogue =
      ((storage.docs.get k.text).toList.length, p.2.catalogue) := Prod.ext hcount rfl
  rw [separates_singleton, hp]
  refine ⟨fun heq => ?_, catalogue_modify hkey hdocs⟩
  by_contra h
  exact modify_shared h (congrArg Prod.fst heq)

theorem map_result_iff {α : Type} {result : α → Written} (h : Function.Injective result)
    {p : α × MemoryStorage ι} {q : α × Catalogue} :
    (p.map result id).map id catalogue = q.map result id ↔ p.map id catalogue = q := by
  rw [Prod.ext_iff, Prod.ext_iff]
  exact and_congr_left' h.eq_iff

/-- A write does what it does to the catalogue if and only if the pairs that it looks up have
texts of their own. -/
theorem write_iff (w : StorageWrite) :
    (write internalIds storage w).map id catalogue = storage.catalogue.write w ↔
      storage.Separates w.pairs := by
  have hcount : Function.Injective Written.count := fun a b h => by
    cases h
    rfl
  cases w with
  | insert clock messages =>
    have hupserts : Function.Injective Written.upserts := fun a b h => by
      cases h
      rfl
    rw [write, Catalogue.write, map_result_iff hupserts, insert, StorageWrite.pairs, insertFrom_iff]
  | ack m =>
    have hkey : ∀ v, (ackUpdate m v).key = v.key := fun v => rfl
    have hdocs : (ack m storage).2.docs = storage.docs.modify m.key.text (ackUpdate m) := rfl
    rw [write, Catalogue.write, map_result_iff hcount, modify_iff hkey rfl hdocs,
      StorageWrite.pairs]
  | nack m =>
    have hkey : ∀ v, (nackUpdate m v).key = v.key := fun v => rfl
    have hdocs : (nack m storage).2.docs = storage.docs.modify m.key.text (nackUpdate m) := rfl
    rw [write, Catalogue.write, map_result_iff hcount, modify_iff hkey rfl hdocs,
      StorageWrite.pairs]
  | remove queue ids =>
    rw [write, Catalogue.write, map_result_iff hcount]
    refine iff_of_true ?_ fun k hk => by cases hk
    exact Prod.ext (remove_fst queue ids storage) (catalogue_remove queue ids storage)

end MemoryStorage

/-! ## Runs of writes -/

section Runs

variable {ι : Type} [LinearOrder ι]

/-- The writes of a list, with their results, and the storage after them. -/
def MemoryStorage.writes (internalIds : InternalIds ι) (storage : MemoryStorage ι) :
    List StorageWrite → List (StorageWrite × Written) × MemoryStorage ι :=
  play (MemoryStorage.write internalIds) storage

def Catalogue.writes : List StorageWrite → List (StorageWrite × Written) × Catalogue :=
  play Catalogue.write fun _ => none

/-- The storage returned what the catalogue returns, it has the same messages, and `Find` by
queue and id returns the message of the pair unless it has expired. -/
structure MemoryStorage.Identifies (internalIds : InternalIds ι)
    (after : List (StorageWrite × Written) × MemoryStorage ι)
    (expected : List (StorageWrite × Written) × Catalogue) : Prop where
  results : after.1 = expected.1
  messages : after.2.catalogue = expected.2
  found : ∀ k : Key, k.1 ≠ "" → ∀ visit, visit.Perm after.2.docs.rows →
    ∀ clock : Message → Time × Time,
      (MemoryStorage.find internalIds (byKey k) (fun d => clock d.value) visit).map
        (List.map Row.value) =
      .ok ((expected.2 k).toList.filter fun v => !MemoryStorage.isExpired (clock v) v)

theorem MemoryStorage.identifies_iff {internalIds : InternalIds ι}
    {after : List (StorageWrite × Written) × MemoryStorage ι}
    {expected : List (StorageWrite × Written) × Catalogue} :
    Identifies internalIds after expected ↔ after.map id catalogue = expected := by
  constructor
  · intro h
    exact Prod.ext h.results h.messages
  · rintro rfl
    exact ⟨rfl, rfl, fun k hk visit hvisit clock => find_catalogue hk hvisit clock⟩

/-- From an empty storage, every part of a list of writes does what it does to a catalogue by
pairs if and only if, at each write, the pairs that it looks up share their texts neither with
each other nor with other pairs that are stored. -/
theorem pairs_identify_iff (internalIds : InternalIds ι) (internalCounter : ι)
    (ws : List StorageWrite) :
    (∀ ws', ws' <+: ws → MemoryStorage.Identifies internalIds
        (MemoryStorage.writes internalIds (MemoryStorage.newMemoryStorage internalCounter) ws')
        (Catalogue.writes ws')) ↔
      ∀ ws' w, ws' ++ [w] <+: ws →
        (MemoryStorage.writes internalIds (MemoryStorage.newMemoryStorage internalCounter)
          ws').2.Separates w.pairs := by
  have hstep : ∀ (storage : MemoryStorage ι) w, storage.Separates w.pairs ↔
      (MemoryStorage.write internalIds storage w).map id MemoryStorage.catalogue =
        storage.catalogue.write w := fun storage w => (MemoryStorage.write_iff w).symm
  simp only [MemoryStorage.identifies_iff, hstep]
  exact play_view_iff (s := MemoryStorage.newMemoryStorage internalCounter)

/-- A message of queue `a` with the id `b:c`, and one of queue `a:b` with the id `c`. -/
def twoOfOneText : List StorageWrite :=
  [.insert (fun _ => 0) [{ id := "b:c", queue := "a", expiryDate := 10 }],
    .insert (fun _ => 0) [{ id := "c", queue := "a:b", expiryDate := 20 }]]

/-- The second message is counted as an update of the first one, whose expiry date it changes,
and is not found. -/
theorem second_of_one_text_lost :
    let after := MemoryStorage.writes InternalIds.counter (MemoryStorage.newMemoryStorage 0)
      twoOfOneText
    after.1.map Prod.snd = [.upserts (.ok (1, 0)), .upserts (.ok (0, 1))] ∧
    (Catalogue.writes twoOfOneText).1.map Prod.snd =
      [.upserts (.ok (1, 0)), .upserts (.ok (1, 0))] ∧
    (after.2.catalogue ("a", "b:c")).map Message.expiryDate = some 20 ∧
    (MemoryStorage.find InternalIds.counter (byKey ("a:b", "c")) (fun _ => (1, 1))
      after.2.docs.rows).toOption.map List.length = some 0 := by
  refine ⟨by decide +kernel, by decide +kernel, by decide +kernel, by decide +kernel⟩

end Runs

end Deckard
