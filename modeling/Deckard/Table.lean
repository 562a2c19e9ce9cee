import Mathlib.Tactic

/-!
# Tables with growing serial numbers

Rows in the order of their creation. Every new row gets a serial number above all those
ever given, and no two rows share a key; both facts are fields. Rows are changed and
deleted by key and read by key or in the order of the serial numbers.
-/
namespace Deckard

structure Row (ι κ ρ : Type) where
  serial : ι
  key : κ
  value : ρ
  deriving DecidableEq

/-- At most one element has a given image, if no two have the same. -/
theorem filter_eq_toList_find? {α κ : Type} [DecidableEq κ] {g : α → κ} {l : List α}
    (h : (l.map g).Nodup) (k : κ) :
    l.filter (fun a => decide (g a = k)) = (l.find? fun a => decide (g a = k)).toList := by
  induction l with
  | nil => rfl
  | cons a l ih =>
    rw [List.map_cons, List.nodup_cons] at h
    by_cases ha : g a = k
    · have hnone : l.filter (fun b => decide (g b = k)) = [] := by
        rw [List.filter_eq_nil_iff]
        intro b hb hk
        exact h.1 (ha ▸ of_decide_eq_true hk ▸ List.mem_map_of_mem hb)
      simp [ha, hnone]
    · simp [ha, ih h.2]

/-- The same in any order of the list. -/
theorem filter_eq_of_perm {α κ : Type} [DecidableEq κ] {g : α → κ} {l l' : List α}
    (hperm : l'.Perm l) (h : (l.map g).Nodup) (k : κ) :
    l'.filter (fun a => decide (g a = k)) = (l.find? fun a => decide (g a = k)).toList := by
  have hfilter := hperm.filter fun a => decide (g a = k)
  rw [filter_eq_toList_find? h] at hfilter
  cases ha : l.find? fun a => decide (g a = k) with
  | none =>
    rw [ha] at hfilter
    exact hfilter.eq_nil
  | some a =>
    rw [ha] at hfilter
    exact List.perm_singleton.mp hfilter

/-- `last` is the highest serial number that has ever been given. -/
structure Table (ι κ ρ : Type) [LinearOrder ι] where
  rows : List (Row ι κ ρ)
  last : ι
  sorted : rows.Pairwise fun a b => a.serial < b.serial
  le_last : ∀ r ∈ rows, r.serial ≤ last
  nodup : (rows.map Row.key).Nodup

namespace Table

variable {ι κ ρ : Type} [LinearOrder ι] [DecidableEq κ]

omit [DecidableEq κ] in
theorem eq_of_rows {t u : Table ι κ ρ} (hrows : t.rows = u.rows) (hlast : t.last = u.last) :
    t = u := by
  cases t
  cases u
  cases hrows
  cases hlast
  rfl

def empty (last : ι) : Table ι κ ρ :=
  ⟨[], last, List.Pairwise.nil, by simp, List.nodup_nil⟩

/-- The row with a key. -/
def get (t : Table ι κ ρ) (k : κ) : Option (Row ι κ ρ) := t.rows.find? fun r => r.key = k

theorem get_eq_some {t : Table ι κ ρ} {k : κ} {r : Row ι κ ρ} :
    t.get k = some r ↔ r ∈ t.rows ∧ r.key = k := by
  constructor
  · intro h
    exact ⟨List.mem_of_find?_eq_some h, by simpa using List.find?_some h⟩
  · rintro ⟨hr, rfl⟩
    obtain ⟨r', hr'⟩ : ∃ r', t.get r.key = some r' := by
      rw [← Option.isSome_iff_exists, get, List.find?_isSome]
      exact ⟨r, hr, by simp⟩
    have hkey : r'.key = r.key := by simpa using List.find?_some hr'
    rw [hr', List.inj_on_of_nodup_map t.nodup (List.mem_of_find?_eq_some hr') hr hkey]

theorem get_eq_none {t : Table ι κ ρ} {k : κ} : t.get k = none ↔ k ∉ t.rows.map Row.key := by
  simp [get, List.find?_eq_none]

/-- No two rows share a key. -/
theorem filter_key (t : Table ι κ ρ) (k : κ) :
    t.rows.filter (fun r => decide (r.key = k)) = (t.get k).toList :=
  filter_eq_toList_find? t.nodup k

/-- Change the value of the row with a key, if there is one. -/
def modify (t : Table ι κ ρ) (k : κ) (f : ρ → ρ) : Table ι κ ρ where
  rows := t.rows.map fun r => if r.key = k then { r with value := f r.value } else r
  last := t.last
  sorted := by
    rw [List.pairwise_map]
    exact t.sorted.imp fun {a b} h => by split_ifs <;> exact h
  le_last := by
    intro r hr
    obtain ⟨r', hr', rfl⟩ := List.mem_map.mp hr
    split_ifs <;> exact t.le_last r' hr'
  nodup := by
    have hkeys : (t.rows.map fun r => if r.key = k then { r with value := f r.value } else r).map
        Row.key = t.rows.map Row.key := by
      rw [List.map_map]
      exact List.map_congr_left fun r _ => by simp only [Function.comp]; split_ifs <;> rfl
    rw [hkeys]
    exact t.nodup

/-- Append a row with a new serial number and a new key. -/
def push (t : Table ι κ ρ) (i : ι) (hi : t.last < i) (k : κ) (hk : t.get k = none) (v : ρ) :
    Table ι κ ρ where
  rows := t.rows ++ [⟨i, k, v⟩]
  last := i
  sorted := by
    rw [List.pairwise_append]
    refine ⟨t.sorted, List.pairwise_singleton _ _, fun a ha b hb => ?_⟩
    rw [List.mem_singleton.mp hb]
    exact (t.le_last a ha).trans_lt hi
  le_last := by
    intro r hr
    rcases List.mem_append.mp hr with hr | hr
    · exact (t.le_last r hr).trans hi.le
    · rw [List.mem_singleton.mp hr]
  nodup := by
    rw [List.map_append, List.nodup_append']
    refine ⟨t.nodup, List.nodup_singleton _, ?_⟩
    simpa using get_eq_none.mp hk

/-- Change the row with a key, or append one. -/
def upsert (t : Table ι κ ρ) (i : ι) (hi : t.last < i) (k : κ) (new : ρ) (f : ρ → ρ) :
    Table ι κ ρ :=
  if hk : t.get k = none then t.push i hi k hk new else t.modify k f

/-- Keep the rows whose key passes a test. -/
def keep (t : Table ι κ ρ) (p : κ → Bool) : Table ι κ ρ where
  rows := t.rows.filter fun r => p r.key
  last := t.last
  sorted := t.sorted.filter _
  le_last := fun r hr => t.le_last r (List.mem_of_mem_filter hr)
  nodup := t.nodup.sublist (List.filter_sublist.map _)

/-- Keep the rows that pass a test. -/
def retain (t : Table ι κ ρ) (q : Row ι κ ρ → Bool) : Table ι κ ρ where
  rows := t.rows.filter q
  last := t.last
  sorted := t.sorted.filter _
  le_last := fun r hr => t.le_last r (List.mem_of_mem_filter hr)
  nodup := t.nodup.sublist (List.filter_sublist.map _)

omit [DecidableEq κ] in
@[simp] theorem keep_true (t : Table ι κ ρ) : (t.keep fun _ => true) = t := by
  simp [keep]

omit [DecidableEq κ] in
theorem keep_keep (t : Table ι κ ρ) (p q : κ → Bool) :
    (t.keep p).keep q = t.keep fun k => p k && q k := by
  simp only [keep, List.filter_filter]
  congr 1
  exact List.filter_congr fun r _ => Bool.and_comm _ _

variable {t : Table ι κ ρ} {k k' : κ} {r : Row ι κ ρ} {f : ρ → ρ} {v : ρ} {p : κ → Bool}

theorem mem_modify : r ∈ (t.modify k f).rows ↔
    ∃ r' ∈ t.rows, r = if r'.key = k then { r' with value := f r'.value } else r' := by
  simp only [modify, List.mem_map, eq_comm]

theorem mem_push {i : ι} {hi : t.last < i} {hk : t.get k = none} :
    r ∈ (t.push i hi k hk v).rows ↔ r ∈ t.rows ∨ r = ⟨i, k, v⟩ := by
  simp [push]

omit [DecidableEq κ] in
theorem mem_keep : r ∈ (t.keep p).rows ↔ r ∈ t.rows ∧ p r.key = true := by
  simp [keep]

@[simp] theorem get_modify : (t.modify k f).get k' =
    if k' = k then (t.get k').map fun r => { r with value := f r.value } else t.get k' := by
  ext r
  rw [get_eq_some, mem_modify]
  by_cases h : k' = k
  · subst h
    rw [if_pos rfl, Option.map_eq_some_iff]
    simp only [get_eq_some]
    constructor
    · rintro ⟨⟨r', hr', rfl⟩, hkey⟩
      have hk' : r'.key = k' := by
        by_contra hne
        rw [if_neg hne] at hkey
        exact hne hkey
      exact ⟨r', ⟨hr', hk'⟩, by rw [if_pos hk']⟩
    · rintro ⟨r', ⟨hr', hk'⟩, rfl⟩
      exact ⟨⟨r', hr', by rw [if_pos hk']⟩, hk'⟩
  · rw [if_neg h, get_eq_some]
    constructor
    · rintro ⟨⟨r', hr', rfl⟩, hkey⟩
      by_cases hk' : r'.key = k
      · rw [if_pos hk'] at hkey
        exact absurd (hkey.symm.trans hk') h
      · rw [if_neg hk'] at hkey ⊢
        exact ⟨hr', hkey⟩
    · rintro ⟨hr, hkey⟩
      exact ⟨⟨r, hr, by rw [if_neg fun hk' => h (hkey.symm.trans hk')]⟩, hkey⟩

/-- An update that changes every value leaves the table as it is only if no row has the key. -/
theorem modify_eq_self (hf : ∀ v, f v ≠ v) : t.modify k f = t ↔ t.get k = none := by
  constructor
  · intro h
    have hget := congrArg (fun u : Table ι κ ρ => u.get k) h
    simp only [get_modify, if_true] at hget
    cases hk : t.get k with
    | none => rfl
    | some r =>
      rw [hk, Option.map_some, Option.some_inj] at hget
      exact absurd (congrArg Row.value hget) (hf r.value)
  · intro h
    have hrows : (t.rows.map fun r => if r.key = k then { r with value := f r.value } else r) =
        t.rows := by
      refine (List.map_congr_left fun r hr => if_neg ?_).trans (List.map_id _)
      rintro rfl
      exact get_eq_none.mp h (List.mem_map_of_mem hr)
    cases t
    simp only [modify, mk.injEq, and_true]
    exact hrows

omit [DecidableEq κ] in
theorem mem_retain {q : Row ι κ ρ → Bool} : r ∈ (t.retain q).rows ↔ r ∈ t.rows ∧ q r = true := by
  simp [retain]

@[simp] theorem get_push {i : ι} {hi : t.last < i} {hk : t.get k = none} :
    (t.push i hi k hk v).get k' = if k' = k then some ⟨i, k, v⟩ else t.get k' := by
  ext r
  rw [get_eq_some, mem_push]
  by_cases h : k' = k
  · subst h
    rw [if_pos rfl, Option.some_inj]
    constructor
    · rintro ⟨hr | rfl, hkey⟩
      · exact absurd (List.mem_map.mpr ⟨r, hr, hkey⟩) (get_eq_none.mp hk)
      · rfl
    · rintro rfl
      exact ⟨Or.inr rfl, rfl⟩
  · rw [if_neg h, get_eq_some]
    refine and_congr_left fun hkey => or_iff_left ?_
    rintro rfl
    exact h hkey.symm

@[simp] theorem get_keep : (t.keep p).get k = if p k = true then t.get k else none := by
  ext r
  rw [get_eq_some, mem_keep]
  by_cases h : p k = true
  · rw [if_pos h, get_eq_some]
    constructor
    · rintro ⟨⟨hr, -⟩, hkey⟩
      exact ⟨hr, hkey⟩
    · rintro ⟨hr, rfl⟩
      exact ⟨⟨hr, h⟩, rfl⟩
  · rw [if_neg h]
    constructor
    · rintro ⟨⟨-, hp⟩, rfl⟩
      exact absurd hp h
    · rintro ⟨⟩

theorem get_keep_ne (t : Table ι κ ρ) (k : κ) : (t.keep (· ≠ k)).get k = none := by simp

theorem get_upsert {i : ι} {hi : t.last < i} {new : ρ} :
    (t.upsert i hi k new f).get k' =
      if k' = k then
        some (match t.get k with
          | some r => { r with value := f r.value }
          | none => ⟨i, k, new⟩)
      else t.get k' := by
  unfold upsert
  split_ifs with hk h h
  · subst h
    simp [hk]
  · simp [h]
  · subst h
    cases hg : t.get k' with
    | none => exact absurd hg hk
    | some r => simp [hg]
  · simp [h]

/-- Rows after a change or an addition. -/
theorem mem_upsert {i : ι} {hi : t.last < i} {new : ρ}
    (h : r ∈ (t.upsert i hi k new f).rows) :
    r ∈ t.rows ∨ (∃ r' ∈ t.rows, r = { r' with value := f r'.value }) ∨ r = ⟨i, k, new⟩ := by
  unfold upsert at h
  split_ifs at h with hk
  · exact (mem_push.mp h).imp_right .inr
  · obtain ⟨r', hr', rfl⟩ := mem_modify.mp h
    by_cases hk' : r'.key = k
    · exact .inr (.inl ⟨r', hr', if_pos hk'⟩)
    · rw [if_neg hk']
      exact .inl hr'

/-- What holds of every row, and of the changed one after the change, holds after it. -/
theorem forall_modify {Q : κ → ρ → Prop} (hrows : ∀ r ∈ t.rows, Q r.key r.value)
    (hf : ∀ v, Q k v → Q k (f v)) : ∀ r ∈ (t.modify k f).rows, Q r.key r.value := by
  intro r hr
  obtain ⟨r', hr', rfl⟩ := mem_modify.mp hr
  split_ifs with hk
  · have hvalue := hrows r' hr'
    rw [hk] at hvalue ⊢
    exact hf r'.value hvalue
  · exact hrows r' hr'

theorem forall_upsert {Q : κ → ρ → Prop} {i : ι} {hi : t.last < i} {new : ρ}
    (hrows : ∀ r ∈ t.rows, Q r.key r.value) (hnew : Q k new) (hf : ∀ v, Q k v → Q k (f v)) :
    ∀ r ∈ (t.upsert i hi k new f).rows, Q r.key r.value := by
  unfold upsert
  split_ifs with hk
  · intro r hr
    rcases mem_push.mp hr with hr | rfl
    · exact hrows r hr
    · exact hnew
  · exact forall_modify hrows hf

/-- Serial number of the row with a key. -/
def serial (t : Table ι κ ρ) (k : κ) : Option ι := (t.get k).map Row.serial

theorem serial_modify : (t.modify k f).serial k' = t.serial k' := by
  rw [serial, get_modify]
  split_ifs
  · rw [Option.map_map]
    rfl
  · rfl

theorem serial_upsert {i : ι} {hi : t.last < i} {new : ρ} :
    (t.upsert i hi k new f).serial k' =
      if k' = k then some ((t.serial k').getD i) else t.serial k' := by
  rw [serial, get_upsert]
  split_ifs with h
  · subst h
    rw [serial]
    cases t.get k' <;> rfl
  · rfl

theorem serial_keep : (t.keep p).serial k = if p k = true then t.serial k else none := by
  rw [serial, get_keep]
  split_ifs <;> rfl

/-- Value of the row with a key. -/
def value (t : Table ι κ ρ) (k : κ) : Option ρ := (t.get k).map Row.value

theorem value_modify :
    (t.modify k f).value k' = if k' = k then (t.value k).map f else t.value k' := by
  rw [value, get_modify]
  split_ifs with h
  · rw [h, value, Option.map_map, Option.map_map]
    rfl
  · rfl

theorem value_upsert {i : ι} {hi : t.last < i} {new : ρ} :
    (t.upsert i hi k new f).value k' =
      if k' = k then some (((t.value k).map f).getD new) else t.value k' := by
  rw [value, get_upsert]
  split_ifs with h
  · rw [value]
    cases t.get k <;> rfl
  · rfl

theorem get_retain {q : Row ι κ ρ → Bool} : (t.retain q).get k = (t.get k).filter q := by
  ext r
  rw [get_eq_some, mem_retain, Option.filter_eq_some_iff, get_eq_some]
  exact and_right_comm

/-- Rows that survive keep their serial number and key; new ones come above all others. -/
structure Grows (t u : Table ι κ ρ) : Prop where
  last_le : t.last ≤ u.last
  old : ∀ r ∈ u.rows, (∃ r' ∈ t.rows, r'.serial = r.serial ∧ r'.key = r.key) ∨ t.last < r.serial

omit [DecidableEq κ] in
theorem Grows.refl (t : Table ι κ ρ) : Grows t t :=
  ⟨le_rfl, fun r hr => Or.inl ⟨r, hr, rfl, rfl⟩⟩

omit [DecidableEq κ] in
theorem Grows.trans {t u w : Table ι κ ρ} (h : Grows t u) (h' : Grows u w) : Grows t w := by
  refine ⟨h.last_le.trans h'.last_le, fun r hr => ?_⟩
  rcases h'.old r hr with ⟨r', hr', hs, hk⟩ | hlt
  · rcases h.old r' hr' with ⟨r'', hr'', hs', hk'⟩ | hlt
    · exact Or.inl ⟨r'', hr'', hs'.trans hs, hk'.trans hk⟩
    · exact Or.inr (hs ▸ hlt)
  · exact Or.inr (h.last_le.trans_lt hlt)

theorem grows_modify (t : Table ι κ ρ) (k : κ) (f : ρ → ρ) : Grows t (t.modify k f) := by
  refine ⟨le_rfl, fun r hr => Or.inl ?_⟩
  obtain ⟨r', hr', rfl⟩ := mem_modify.mp hr
  exact ⟨r', hr', by split_ifs <;> rfl, by split_ifs <;> rfl⟩

theorem grows_upsert (t : Table ι κ ρ) {i : ι} (hi : t.last < i) (k : κ) (new : ρ) (f : ρ → ρ) :
    Grows t (t.upsert i hi k new f) := by
  unfold upsert
  split_ifs with hk
  · refine ⟨hi.le, fun r hr => ?_⟩
    rcases mem_push.mp hr with hr | rfl
    · exact Or.inl ⟨r, hr, rfl, rfl⟩
    · exact Or.inr hi
  · exact grows_modify t k f

omit [DecidableEq κ] in
theorem grows_keep (t : Table ι κ ρ) (p : κ → Bool) : Grows t (t.keep p) :=
  ⟨le_rfl, fun r hr => Or.inl ⟨r, (mem_keep.mp hr).1, rfl, rfl⟩⟩

end Table

end Deckard
