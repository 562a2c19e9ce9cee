import Mathlib.Data.List.Nodup
import Mathlib.Order.Basic
import Mathlib.Order.Defs.LinearOrder
import Mathlib.Tactic

/-!
# Sorted sets

A finite map from members to scores, kept as the list of its entries in
ascending order of score, then of member. The order and the uniqueness of members
are fields, so a value of the type is always a sorted set. Most facts are stated
through `score`, the lookup function, which determines the set.
-/
namespace Deckard

namespace SortedSet

structure Entry (α σ : Type*) where
  member : α
  score : σ
  deriving DecidableEq, Repr

variable {α σ : Type*} [LinearOrder α] [LinearOrder σ]

/-- Score first, then member. -/
def Entry.before (a b : Entry α σ) : Prop :=
  a.score < b.score ∨ a.score = b.score ∧ a.member < b.member

instance (a b : Entry α σ) : Decidable (a.before b) :=
  inferInstanceAs (Decidable (_ ∨ _))

theorem Entry.before_trans {a b c : Entry α σ} (hab : a.before b) (hbc : b.before c) :
    a.before c := by
  rcases hab with hab | ⟨hab, hab'⟩ <;> rcases hbc with hbc | ⟨hbc, hbc'⟩
  · exact Or.inl (hab.trans hbc)
  · exact Or.inl (hbc ▸ hab)
  · exact Or.inl (hab ▸ hbc)
  · exact Or.inr ⟨hab.trans hbc, hab'.trans hbc'⟩

theorem Entry.before_asymm {a b : Entry α σ} (hab : a.before b) : ¬ b.before a := by
  rintro (hba | ⟨hba, hba'⟩) <;> rcases hab with hab | ⟨hab, hab'⟩
  · exact lt_asymm hab hba
  · exact hba.ne hab.symm
  · exact hab.ne hba.symm
  · exact lt_asymm hab' hba'

theorem Entry.before_of_not {a b : Entry α σ} (h : ¬ a.before b) (hne : a.member ≠ b.member) :
    b.before a := by
  simp only [Entry.before, not_or, not_and, not_lt] at h
  rcases h.1.lt_or_eq with hlt | heq
  · exact Or.inl hlt
  · exact Or.inr ⟨heq, lt_of_le_of_ne (h.2 heq.symm) hne.symm⟩

end SortedSet

open SortedSet in
/-- Entries in order, each member once. -/
structure SortedSet (α σ : Type*) [LinearOrder α] [LinearOrder σ] where
  entries : List (Entry α σ)
  sorted : entries.Pairwise Entry.before
  nodup : (entries.map Entry.member).Nodup

namespace SortedSet

variable {α σ : Type*} [LinearOrder α] [LinearOrder σ]

/-- Insert before the first entry that the new one precedes. -/
def place (e : Entry α σ) : List (Entry α σ) → List (Entry α σ)
  | [] => [e]
  | x :: xs => if e.before x then e :: x :: xs else x :: place e xs

theorem place_perm (e : Entry α σ) (xs : List (Entry α σ)) : (place e xs).Perm (e :: xs) := by
  induction xs with
  | nil => exact List.Perm.refl _
  | cons x xs ih =>
    simp only [place]
    split_ifs
    · exact List.Perm.refl _
    · exact (ih.cons x).trans (List.Perm.swap e x xs)

theorem mem_place {e x : Entry α σ} {xs : List (Entry α σ)} :
    x ∈ place e xs ↔ x = e ∨ x ∈ xs := by
  rw [(place_perm e xs).mem_iff, List.mem_cons]

theorem place_sorted {e : Entry α σ} {xs : List (Entry α σ)} (h : xs.Pairwise Entry.before)
    (hne : ∀ x ∈ xs, x.member ≠ e.member) : (place e xs).Pairwise Entry.before := by
  induction xs with
  | nil => simp [place]
  | cons x xs ih =>
    rw [List.pairwise_cons] at h
    simp only [place]
    split_ifs with hb
    · refine List.pairwise_cons.mpr ⟨?_, List.pairwise_cons.mpr h⟩
      rintro y hy
      rcases List.mem_cons.mp hy with rfl | hy
      · exact hb
      · exact Entry.before_trans hb (h.1 y hy)
    · refine List.pairwise_cons.mpr ⟨?_, ih h.2 fun y hy => hne y (List.mem_cons_of_mem _ hy)⟩
      intro y hy
      rcases mem_place.mp hy with rfl | hy
      · exact Entry.before_of_not hb (hne x List.mem_cons_self).symm
      · exact h.1 y hy

def empty : SortedSet α σ := ⟨[], List.Pairwise.nil, List.nodup_nil⟩

/-- Score of a member, if it is present. -/
def score (z : SortedSet α σ) (a : α) : Option σ :=
  (z.entries.find? fun e => e.member = a).map Entry.score

def erase (z : SortedSet α σ) (a : α) : SortedSet α σ where
  entries := z.entries.filter fun e => e.member ≠ a
  sorted := z.sorted.filter _
  nodup := z.nodup.sublist (List.filter_sublist.map _)

/-- Set the score of a member, inserting it when it is absent. -/
def add (z : SortedSet α σ) (s : σ) (a : α) : SortedSet α σ where
  entries := place ⟨a, s⟩ (z.erase a).entries
  sorted := place_sorted (z.erase a).sorted (by simp [erase])
  nodup := by
    rw [((place_perm _ _).map _).nodup_iff, List.map_cons, List.nodup_cons]
    exact ⟨by simp [erase], (z.erase a).nodup⟩

theorem score_eq_some {z : SortedSet α σ} {a : α} {s : σ} :
    z.score a = some s ↔ ⟨a, s⟩ ∈ z.entries := by
  obtain ⟨entries, sorted, nodup⟩ := z
  simp only [score]
  clear sorted
  induction entries with
  | nil => simp
  | cons e es ih =>
    rw [List.map_cons, List.nodup_cons] at nodup
    rw [List.find?_cons]
    by_cases h : e.member = a
    · have hnot : (⟨a, s⟩ : Entry α σ) ∉ es := fun hm =>
        nodup.1 (List.mem_map.mpr ⟨_, hm, h.symm⟩)
      cases e
      simp_all [eq_comm]
    · have hne : (⟨a, s⟩ : Entry α σ) ≠ e := by rintro rfl; exact h rfl
      simp [h, hne, ih nodup.2]

/-- A sorted set is determined by its scores. -/
theorem ext_score {z w : SortedSet α σ} (h : ∀ a, z.score a = w.score a) : z = w := by
  have hmem : ∀ e : Entry α σ, e ∈ z.entries ↔ e ∈ w.entries := by
    intro e
    rw [show e = ⟨e.member, e.score⟩ from rfl, ← score_eq_some, h, score_eq_some]
  have hperm : z.entries.Perm w.entries :=
    (List.perm_ext_iff_of_nodup z.nodup.of_map w.nodup.of_map).mpr hmem
  have heq : z.entries = w.entries :=
    hperm.eq_of_pairwise (fun a b _ _ hab hba => absurd hba (Entry.before_asymm hab)) z.sorted
      w.sorted
  cases z
  cases w
  simpa using heq

@[simp] theorem score_empty (a : α) : (empty : SortedSet α σ).score a = none := rfl

@[simp] theorem score_erase (z : SortedSet α σ) (a b : α) :
    (z.erase a).score b = if b = a then none else z.score b := by
  ext s
  rw [score_eq_some]
  by_cases h : b = a
  · simp [erase, h]
  · simp [erase, h, score_eq_some]

theorem erase_of_score_eq_none {z : SortedSet α σ} {a : α} (h : z.score a = none) :
    z.erase a = z := by
  refine ext_score fun b => ?_
  by_cases hb : b = a <;> simp [hb, h]

@[simp] theorem score_add (z : SortedSet α σ) (s : σ) (a b : α) :
    (z.add s a).score b = if b = a then some s else z.score b := by
  ext t
  rw [score_eq_some]
  simp only [add, mem_place]
  by_cases h : b = a
  · subst h
    simp [erase, eq_comm]
  · simp [h, erase, score_eq_some]

/-- Erase members one after the other. -/
def eraseAll (z : SortedSet α σ) (as : List α) : SortedSet α σ := as.foldl erase z

@[simp] theorem score_eraseAll (z : SortedSet α σ) (as : List α) (b : α) :
    (z.eraseAll as).score b = if b ∈ as then none else z.score b := by
  induction as generalizing z with
  | nil => simp [eraseAll]
  | cons a as ih =>
    rw [eraseAll, List.foldl_cons, ← eraseAll, ih, score_erase]
    by_cases hb : b = a <;> simp [hb]

/-- Add scored members one after the other. -/
def addAll (z : SortedSet α σ) (ps : List (σ × α)) : SortedSet α σ :=
  ps.foldl (fun z p => z.add p.1 p.2) z

/-- The score of the last pair that names a member. -/
def lastScore (ps : List (σ × α)) (a : α) : Option σ :=
  (ps.reverse.find? fun p => p.2 = a).map Prod.fst

omit [LinearOrder σ] in
theorem lastScore_cons (p : σ × α) (ps : List (σ × α)) (a : α) :
    lastScore (p :: ps) a = (lastScore ps a).or (if p.2 = a then some p.1 else none) := by
  rw [lastScore, List.reverse_cons, List.find?_append, Option.map_or, ← lastScore]
  by_cases h : p.2 = a <;> simp [h]

omit [LinearOrder σ] in
theorem lastScore_isSome {ps : List (σ × α)} {a : α} :
    (lastScore ps a).isSome ↔ a ∈ ps.map Prod.snd := by
  induction ps with
  | nil => simp [lastScore]
  | cons p ps ih =>
    rw [lastScore_cons, Option.isSome_or, Bool.or_eq_true, ih, List.map_cons, List.mem_cons]
    by_cases h : p.2 = a
    · simp [h]
    · simp [h, Ne.symm h]

omit [LinearOrder σ] in
theorem mem_of_lastScore {ps : List (σ × α)} {a : α} {s : σ} (h : lastScore ps a = some s) :
    (s, a) ∈ ps := by
  obtain ⟨p, hp, rfl⟩ := Option.map_eq_some_iff.mp h
  have hmem := List.mem_of_find?_eq_some hp
  have ha := List.find?_some hp
  simp only [decide_eq_true_eq] at ha
  exact ha ▸ List.mem_reverse.mp hmem

/-- Later pairs override earlier ones. -/
theorem score_addAll (z : SortedSet α σ) (ps : List (σ × α)) (b : α) :
    (z.addAll ps).score b = (lastScore ps b).or (z.score b) := by
  induction ps generalizing z with
  | nil => simp [addAll, lastScore]
  | cons p ps ih =>
    rw [addAll, List.foldl_cons, ← addAll, ih, lastScore_cons, score_add]
    by_cases h : p.2 = b
    · simp [h]
    · simp [h, Ne.symm h]

omit [LinearOrder σ] in
theorem lastScore_map (f : α → σ) (as : List α) (b : α) :
    lastScore (as.map fun a => (f a, a)) b = if b ∈ as then some (f b) else none := by
  induction as with
  | nil => simp [lastScore]
  | cons a as ih =>
    rw [List.map_cons, lastScore_cons, ih]
    by_cases hb : b = a
    · subst hb
      by_cases hm : b ∈ as <;> simp [hm]
    · simp [hb, Ne.symm hb]

/-- Every added member has the score that `f` gives it. -/
theorem score_addAll_map (z : SortedSet α σ) (f : α → σ) (as : List α) (b : α) :
    (z.addAll (as.map fun a => (f a, a))).score b = if b ∈ as then some (f b) else z.score b := by
  rw [score_addAll, lastScore_map]
  split_ifs <;> simp

def members (z : SortedSet α σ) : List α := z.entries.map Entry.member

/-- Members with a score between two bounds, in order. -/
def rangeByScore (z : SortedSet α σ) (lo hi : σ) : List α :=
  (z.entries.filter fun e => lo ≤ e.score ∧ e.score ≤ hi).map Entry.member

/-- The same members from the highest score down. -/
def revRangeByScore (z : SortedSet α σ) (hi lo : σ) : List α := (z.rangeByScore lo hi).reverse

theorem nodup_rangeByScore (z : SortedSet α σ) (lo hi : σ) : (z.rangeByScore lo hi).Nodup :=
  z.nodup.sublist (List.filter_sublist.map _)

theorem nodup_revRangeByScore (z : SortedSet α σ) (hi lo : σ) :
    (z.revRangeByScore hi lo).Nodup :=
  List.nodup_reverse.mpr (z.nodup_rangeByScore lo hi)

theorem mem_rangeByScore {z : SortedSet α σ} {lo hi : σ} {a : α} :
    a ∈ z.rangeByScore lo hi ↔ ∃ s, z.score a = some s ∧ lo ≤ s ∧ s ≤ hi := by
  simp only [rangeByScore, List.mem_map, List.mem_filter, decide_eq_true_eq, score_eq_some]
  constructor
  · rintro ⟨e, ⟨he, hlo, hhi⟩, rfl⟩
    exact ⟨e.score, he, hlo, hhi⟩
  · rintro ⟨s, he, hlo, hhi⟩
    exact ⟨⟨a, s⟩, ⟨he, hlo, hhi⟩, rfl⟩

theorem mem_revRangeByScore {z : SortedSet α σ} {lo hi : σ} {a : α} :
    a ∈ z.revRangeByScore hi lo ↔ ∃ s, z.score a = some s ∧ lo ≤ s ∧ s ≤ hi := by
  rw [revRangeByScore, List.mem_reverse, mem_rangeByScore]

end SortedSet

end Deckard
