import Deckard.Housekeeper
import Deckard.Orphans

/-!
# Steps around a recovery

What the commands of clients and of the recovery itself do to what the recovery rests on:
the keys that hold its state, the serial numbers of the documents and the pools.
-/
namespace Deckard

open Binary64 Effect Cache Program Prog RedisCache Runs MongoStorage

variable {ι ε α : Type}

/-! ## Commands of the recovery -/

/-- The recovery reads the storage, reads and writes its keys and inserts messages with
capped scores. -/
def Restores : Command → Prop
  | .storageFind opt => opt = Queue.lastDocument ∨ ∃ gt lte, opt = Queue.page gt lte
  | .cacheGet _ | .cacheSet _ _ => True
  | .cache (.insert _ messages) => ∀ m ∈ messages, ∃ m', m = Queue.capScore m'
  | _ => False

theorem Restores.careful {c : Command} (h : Restores c) : Careful c := by
  cases c with
  | cache op =>
    cases op with
    | insert queue messages => trivial
    | _ => exact h.elim
  | storageFind opt =>
    rintro ids queue retry rfl
    have hids : (Queue.findOptions ids queue retry).internalFilter.map InternalFilter.ids =
        some (some ids) := rfl
    rcases h with h | ⟨gt, lte, h⟩
    · rw [h] at hids
      cases hids
    · rw [h] at hids
      cases hids
  | _ => trivial

theorem not_removing_of_restores {k : Key} {p : Prog Command (Answer ι) ε α}
    (h : All Restores p) : ¬ Removing k p := by
  cases p with
  | ret a => exact not_false
  | fail e => exact not_false
  | call c next =>
    intro hremoving
    cases c with
    | cache op =>
      cases op with
      | remove queue ids => exact h.1
      | _ => exact hremoving
    | _ => exact hremoving

theorem orderly_of_restores {p : Prog Command (Answer ι) ε α} (h : All Restores p) :
    Orderly p := by
  induction p with
  | ret a => trivial
  | fail e => trivial
  | call c next ih =>
    refine fun r => ⟨ih r (h.2 r), fun k hk => ?_, fun k hk => ?_⟩
    · exact absurd hk (not_removing_of_restores (h.2 r))
    · cases c with
      | storageInsert now messages => exact h.1.elim
      | _ => exact hk.elim

theorem restores_endPage (found : ℕ) :
    All Restores (Queue.endPage found : Prog Command (Answer ι) ε Bool) := by
  unfold Queue.endPage
  split_ifs
  · exact all_bind ((all_perform _).mpr trivial) fun _ =>
      all_bind ((all_perform _).mpr trivial) fun _ => trivial
  · trivial

section Programs

variable [LinearOrder ι] (internalIds : InternalIds ι) (order : MapOrder)

theorem restores_tryToStartRecovery :
    All Restores (Queue.tryToStartRecovery internalIds : Prog Command (Answer ι) ε Bool) := by
  refine all_bind ((all_perform _).mpr trivial) fun answer => ?_
  cases answer with
  | error e => trivial
  | ok u =>
    refine all_bind ((all_perform _).mpr (.inl rfl)) fun found => ?_
    rcases found with e | _ | ⟨d, ds⟩
    · trivial
    · exact all_bind ((all_perform _).mpr trivial) fun _ =>
        all_bind ((all_perform _).mpr trivial) fun _ => trivial
    · exact all_bind ((all_perform _).mpr trivial) fun _ => trivial

theorem restores_insertPage (documents : List (Document ι)) :
    All Restores
      (Queue.insertPage internalIds order documents : Prog Command (Answer ι) ε Bool) := by
  unfold Queue.insertPage
  cases documents.getLast? with
  | none => exact restores_endPage _
  | some last =>
    refine all_bind (all_capture (all_addQueues fun queue _ m hm => ?_)) fun answer => ?_
    · obtain ⟨d, -, rfl⟩ := List.mem_map.mp (List.mem_of_mem_filter hm)
      exact ⟨_, rfl⟩
    · cases answer with
      | error e => trivial
      | ok n => exact all_bind ((all_perform _).mpr trivial) fun _ => restores_endPage _

theorem restores_recoverPage (breakpoint : String) :
    All Restores (Queue.recoverPage internalIds order breakpoint :
      Prog Command (Answer ι) ε Bool) := by
  refine all_bind ((all_perform _).mpr trivial) fun answer => ?_
  cases answer with
  | error e => trivial
  | ok lte =>
    refine all_bind ((all_perform _).mpr (.inr ⟨_, _, rfl⟩)) fun found => ?_
    cases found with
    | error e => trivial
    | ok documents => exact restores_insertPage internalIds order documents

theorem restores_recoveryMessagesPool :
    All Restores (Queue.recoveryMessagesPool internalIds order :
      Prog Command (Answer ι) ε Bool) := by
  refine all_bind ((all_perform _).mpr trivial) fun answer => ?_
  cases answer with
  | error e => trivial
  | ok breakpoint =>
    dsimp only
    split_ifs with hfinished
    · trivial
    · refine all_bind (all_bind ((all_perform _).mpr trivial) fun _ => trivial) fun recovering => ?_
      cases recovering with
      | error e => trivial
      | ok recovering =>
        dsimp only
        split_ifs with hstart
        · refine all_bind (restores_tryToStartRecovery internalIds) fun started => ?_
          split_ifs
          · exact restores_recoverPage internalIds order breakpoint
          · trivial
        · exact restores_recoverPage internalIds order breakpoint

end Programs

/-! ## Keys of the cache -/

variable [LinearOrder ι] {stores : Stores ι} {w w' : World ι} {k : Key}

theorem RedisCache.generalCacheKey_injective (cache : RedisCache) :
    Function.Injective cache.generalCacheKey := by
  intro a b h
  have hlist := congrArg String.toList h
  simp only [generalCacheKey, String.toList_append, List.append_assoc,
    List.append_cancel_left_eq] at hlist
  exact String.toList_injective (List.append_cancel_right hlist)

/-- The stores after a key of the cache has been written. -/
abbrev Stores.write (stores : Stores ι) (w : World ι) (key value : String) : World ι :=
  (stores.handle (.cacheSet key value) w).2

theorem read_write (key value key' : String) :
    stores.read (stores.write w key value) key' =
      if key' = key then value else stores.read w key' := by
  change (Function.update w.redis.str (stores.cache.generalCacheKey key) (some value)
    (stores.cache.generalCacheKey key')).getD "" = _
  by_cases h : key' = key
  · rw [if_pos h, h, Function.update_self]
    rfl
  · rw [if_neg h, Function.update_of_ne (stores.cache.generalCacheKey_injective.ne h)]
    rfl

theorem read_congr (h : w'.redis.str = w.redis.str) (key : String) :
    stores.read w' key = stores.read w key := by
  rw [Stores.read, h, Stores.read]

/-! ## Documents -/

/-- Queue names and scores that the cache accepts. -/
def DocsAccepted (docs : Documents ι) : Prop :=
  ∀ k x, storedScore docs k = some x → hasHashTag k.1 = false ∧ x ≠ .nan

theorem DocsAccepted.row {docs : Documents ι} (h : DocsAccepted docs) {d : Document ι}
    (hd : d ∈ docs.rows) : hasHashTag d.key.1 = false ∧ d.value.score ≠ .nan := by
  refine h d.key d.value.score ?_
  rw [storedScore, Table.get_eq_some.mpr ⟨hd, rfl⟩]
  rfl

theorem DocsAccepted.handle {c : Command} (hc : Acceptable c) (h : DocsAccepted w.docs) :
    DocsAccepted (stores.handle c w).2.docs := by
  have hchange := stores.change_handle c w
  generalize (stores.handle c w).1 = answer, (stores.handle c w).2.docs = after at hchange ⊢
  intro k x hx
  cases hchange with
  | same => exact h k x hx
  | inserted now messages =>
    rw [storedScore_insert, Option.or_eq_some_iff] at hx
    rcases hx with hx | ⟨-, hx⟩
    · exact h k x hx
    · obtain ⟨m, hm, rfl⟩ := Option.map_eq_some_iff.mp hx
      have hkey : m.key = k := by simpa using List.find?_some hm
      rw [← hkey]
      exact hc m (List.mem_of_find?_eq_some hm)
  | settled message update _ hsettle hscore =>
    have hnan : message.score ≠ .nan := by
      rcases hsettle with rfl | rfl <;> exact hc
    rw [storedScore_modify hscore] at hx
    split_ifs at hx
    · obtain ⟨y, hy, rfl⟩ := Option.map_eq_some_iff.mp hx
      exact ⟨(h k y hy).1, hnan⟩
    · exact h k x hx
  | removed queue ids =>
    rw [storedScore_remove] at hx
    split_ifs at hx
    exact h k x hx

theorem stored_iff_serial {docs : Documents ι} : Stored docs k ↔ (docs.serial k).isSome := by
  rw [Stored, Table.serial, Option.isSome_map]

theorem serial_insert {internalIds : InternalIds ι} {now : Time} {i : ι} (messages : List Message)
    (docs : Documents ι) (h : docs.serial k = some i) :
    (messages.foldl (insertOne internalIds now) docs).serial k = some i := by
  induction messages generalizing docs with
  | nil => exact h
  | cons m ms ih =>
    apply ih
    rw [insertOne, Table.serial_upsert, h]
    split_ifs <;> rfl

/-- A document that is stored before and after a command is the same document. -/
theorem serial_handle {c : Command} (hk : Stored w.docs k)
    (hk' : Stored (stores.handle c w).2.docs k) :
    (stores.handle c w).2.docs.serial k = w.docs.serial k := by
  have hchange := stores.change_handle c w
  generalize (stores.handle c w).1 = answer, (stores.handle c w).2.docs = after at hchange hk' ⊢
  cases hchange with
  | same => rfl
  | inserted now messages =>
    obtain ⟨d, hd⟩ := Option.isSome_iff_exists.mp hk
    have hserial : w.docs.serial k = some d.serial := by
      rw [Table.serial, hd]
      rfl
    rw [hserial]
    exact serial_insert messages w.docs hserial
  | settled => exact Table.serial_modify
  | removed queue ids =>
    rw [remove_snd] at hk' ⊢
    rw [Table.serial_keep]
    rw [Stored, Table.get_keep] at hk'
    split_ifs at hk' ⊢
    · rfl
    · cases hk'

theorem grows_handle (c : Command) : w.docs.Grows (stores.handle c w).2.docs := by
  have hchange := stores.change_handle c w
  generalize (stores.handle c w).1 = answer, (stores.handle c w).2.docs = after at hchange ⊢
  cases hchange with
  | same => exact Table.Grows.refl _
  | inserted now messages => exact grows_insert messages w.docs
  | settled => exact Table.grows_modify _ _ _
  | removed queue ids =>
    rw [remove_snd]
    exact Table.grows_keep _ _

end Deckard
