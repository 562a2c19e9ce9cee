import Mathlib.Data.List.Sort
import Mathlib.Tactic

/-!
# Stable sorting by a comparison

A program sorts by a comparison `less` of its own. When the comparison is a strict weak
order on the elements at hand, every stable sort gives the same list; when it is not, the
list is the one that insertion gives.
-/
namespace Deckard.StableSort

variable {α : Type} {less : α → α → Bool} {l : List α}

/-- Each element in turn moves left past those that it is less than. -/
def stableSort (less : α → α → Bool) (l : List α) : List α :=
  (l.reverse.insertionSort fun a b => less a b = false).reverse

theorem perm_stableSort (less : α → α → Bool) (l : List α) : (stableSort less l).Perm l :=
  (List.reverse_perm _).trans ((List.perm_insertionSort _ _).trans (List.reverse_perm l))

/-- The comparison is a strict weak order on the elements of a list. -/
structure StrictWeak (less : α → α → Bool) (l : List α) : Prop where
  asymm : ∀ a ∈ l, ∀ b ∈ l, less a b = true → less b a = false
  trans : ∀ a ∈ l, ∀ b ∈ l, ∀ c ∈ l, less a b = false → less b c = false → less a c = false

theorem StrictWeak.congr {less' : α → α → Bool} (h : StrictWeak less l)
    (heq : ∀ a ∈ l, ∀ b ∈ l, less' a b = less a b) : StrictWeak less' l := by
  constructor
  · intro a ha b hb hab
    rw [heq a ha b hb] at hab
    rw [heq b hb a ha]
    exact h.asymm a ha b hb hab
  · intro a ha b hb c hc hab hbc
    rw [heq a ha b hb] at hab
    rw [heq b hb c hc] at hbc
    rw [heq a ha c hc]
    exact h.trans a ha b hb c hc hab hbc

/-- A second comparison orders one class of tied elements. -/
theorem StrictWeak.within {less' : α → α → Bool} {p : α → Prop} [DecidablePred p]
    (h : StrictWeak less l) (h' : StrictWeak less' l)
    (hties : ∀ a b, p a → p b → less a b = false)
    (hclass : ∀ a b, p a → less a b = false → less b a = false → p b) :
    StrictWeak (fun a b => if p a ∧ p b then less' a b else less a b) l := by
  constructor
  · intro a ha b hb hab
    by_cases hp : p a ∧ p b
    · rw [if_pos hp] at hab
      rw [if_pos hp.symm]
      exact h'.asymm a ha b hb hab
    · rw [if_neg hp] at hab
      rw [if_neg fun hp' => hp hp'.symm]
      exact h.asymm a ha b hb hab
  · intro a ha b hb c hc hab hbc
    -- within the class the first comparison does not tell elements apart
    have hfirst : ∀ x y, (if p x ∧ p y then less' x y else less x y) = false →
        less x y = false := by
      intro x y hxy
      by_cases hp : p x ∧ p y
      · exact hties x y hp.1 hp.2
      · rwa [if_neg hp] at hxy
    by_cases hac : p a ∧ p c
    · have hpb : p b := by
        apply hclass a b hac.1 (hfirst a b hab)
        exact h.trans b hb c hc a ha (hfirst b c hbc) (hties c a hac.2 hac.1)
      rw [if_pos ⟨hac.1, hpb⟩] at hab
      rw [if_pos ⟨hpb, hac.2⟩] at hbc
      rw [if_pos hac]
      exact h'.trans a ha b hb c hc hab hbc
    · rw [if_neg hac]
      exact h.trans a ha b hb c hc (hfirst a b hab) (hfirst b c hbc)

/-- No element of the sorted list is less than one before it. -/
theorem pairwise_stableSort (h : StrictWeak less l) :
    (stableSort less l).Pairwise fun a b => less b a = false := by
  -- the orders of the library are on whole types, so the list is sorted as one of its members
  let rel : {a // a ∈ l.reverse} → {a // a ∈ l.reverse} → Prop := fun a b => less a b = false
  have hmem (a : {a // a ∈ l.reverse}) : a.1 ∈ l := List.mem_reverse.mp a.2
  have htotal : Std.Total rel := by
    constructor
    intro a b
    cases hab : less a b with
    | false => exact .inl hab
    | true => exact .inr (h.asymm a (hmem a) b (hmem b) hab)
  have htrans : IsTrans _ rel := by
    constructor
    intro a b c hab hbc
    exact h.trans a (hmem a) b (hmem b) c (hmem c) hab hbc
  have hsort : (l.reverse.attach.insertionSort rel).map Subtype.val =
      l.reverse.insertionSort fun a b => less a b = false := by
    rw [List.map_insertionSort rel (fun a b => less a b = false), List.attach_map_subtype_val]
    intro a _ b _
    rfl
  rw [stableSort, List.pairwise_reverse, ← hsort, List.pairwise_map]
  exact List.pairwise_insertionSort rel _

section Reinsertion

variable {r : α → α → Prop} [DecidableRel r] {front back : List α} {a : α}

/-- A new element is inserted between two parts if it passes the first one and stops at the
second. -/
theorem orderedInsert_between_iff (hnew : a ∉ front ++ back) :
    (front ++ back).orderedInsert r a = front ++ a :: back ↔
      (∀ b ∈ front, ¬ r a b) ∧ ∀ b ∈ back.head?, r a b := by
  induction front with
  | nil =>
    cases back with
    | nil => simp
    | cons b back =>
      have hne : b ≠ a := by
        rintro rfl
        exact hnew (by simp)
      by_cases hr : r a b <;> simp [hr, hne]
  | cons b front ih =>
    have hne : b ≠ a := by
      rintro rfl
      exact hnew (by simp)
    have hrest : a ∉ front ++ back := fun h => hnew (List.mem_cons_of_mem _ h)
    by_cases hr : r a b
    · simp [hr, hne.symm]
    · rw [List.cons_append, List.orderedInsert_of_not_le r _ hr, List.cons_append,
        List.cons_inj_right, ih hrest]
      simp [hr]

theorem perm_foldl_orderedInsert (front back : List α) :
    (front.foldl (fun l a => l.orderedInsert r a) back).Perm (front ++ back) := by
  induction front generalizing back with
  | nil => exact List.Perm.refl _
  | cons a front ih =>
    have hinsert := (List.perm_orderedInsert r a back).append_left front
    exact (ih _).trans (hinsert.trans List.perm_middle)

/-- Elements that are put back one after the other stand in front in their old order if each
passes those before it and stops at the rest. -/
theorem foldl_orderedInsert_eq_append_iff (hnodup : (front ++ back).Nodup) :
    front.foldl (fun l a => l.orderedInsert r a) back = front ++ back ↔
      front.Pairwise (fun a b => ¬ r b a) ∧ ∀ a ∈ front, ∀ b ∈ back.head?, r a b := by
  classical
  -- the element that is put back last is the one whose place is known
  induction front using List.reverseRecOn with
  | nil => simp
  | append_singleton front a ih =>
    have hperm : (front ++ [a] ++ back).Perm (a :: (front ++ back)) := by simp
    obtain ⟨hnew, hrest⟩ := List.nodup_cons.mp (hperm.nodup_iff.mp hnodup)
    have hlast : (front ++ [a]).foldl (fun l a => l.orderedInsert r a) back =
        front ++ [a] ++ back ↔
        front.foldl (fun l a => l.orderedInsert r a) back = front ++ back ∧
          (front ++ back).orderedInsert r a = front ++ a :: back := by
      rw [List.foldl_append, List.foldl_cons, List.foldl_nil, List.append_assoc,
        List.singleton_append]
      constructor
      · intro h
        have hold := congrArg (fun l => l.erase a) h
        rw [List.erase_orderedInsert_of_notMem
            (fun hmem => hnew ((perm_foldl_orderedInsert _ _).mem_iff.mp hmem)),
          List.erase_append_right _ fun hmem => hnew (List.mem_append_left _ hmem),
          List.erase_cons_head] at hold
        exact ⟨hold, hold ▸ h⟩
      · rintro ⟨hold, h⟩
        rw [hold, h]
    rw [hlast, ih hrest, orderedInsert_between_iff hnew, List.pairwise_append]
    simp only [List.mem_append, List.mem_singleton]
    constructor
    · rintro ⟨⟨hpair, hback⟩, hfront, ha⟩
      refine ⟨⟨hpair, List.pairwise_singleton _ _, ?_⟩, ?_⟩
      · rintro b hb _ rfl
        exact hfront b hb
      · rintro b (hb | rfl)
        · exact hback b hb
        · exact ha
    · rintro ⟨⟨hpair, -, hfront⟩, hback⟩
      exact ⟨⟨hpair, fun b hb => hback b (.inl hb)⟩, fun b hb => hfront b hb a rfl,
        hback a (.inr rfl)⟩

end Reinsertion

end Deckard.StableSort
