import Mathlib.Tactic

/-!
# The smallest elements of a list

Picking is taking the first elements of a list in an order by a key. If some elements are
hidden when the others are picked from, the picked ones are still the smallest of all
exactly if enough of those that are shown come before every hidden one.
-/
namespace Deckard.Selection

variable {α β : Type*} [LinearOrder β] {key : α → β} {n : ℕ} {l picked : List α}

/-- The first `n` elements of a list in an order by `key`, all of them if there are fewer. -/
def Picks (key : α → β) (n : ℕ) (l picked : List α) : Prop :=
  picked.length = min n l.length ∧
    ∃ rest, (picked ++ rest).Perm l ∧ (picked ++ rest).Pairwise fun a b => key a ≤ key b

theorem picks_take {ordered : List α} (hperm : ordered.Perm l)
    (hsorted : ordered.Pairwise fun a b => key a ≤ key b) (n : ℕ) :
    Picks key n l (ordered.take n) := by
  refine ⟨?_, ordered.drop n, ?_, ?_⟩
  · rw [List.length_take, hperm.length_eq]
  · rwa [List.take_append_drop]
  · rwa [List.take_append_drop]

namespace Picks

theorem subset (h : Picks key n l picked) : picked ⊆ l := by
  obtain ⟨-, rest, hperm, -⟩ := h
  exact fun a ha => hperm.subset (List.mem_append_left rest ha)

/-- What is left does not come before what is picked. -/
theorem le_of_notMem (h : Picks key n l picked) {a b : α} (ha : a ∈ picked) (hb : b ∈ l)
    (hb' : b ∉ picked) : key a ≤ key b := by
  obtain ⟨-, rest, hperm, hsorted⟩ := h
  rcases List.mem_append.mp (hperm.mem_iff.mpr hb) with hb | hb
  · exact absurd hb hb'
  · exact (List.pairwise_append.mp hsorted).2.2 a ha b hb

theorem nodup_map {γ : Type*} {f : α → γ} (h : Picks key n l picked) (hl : (l.map f).Nodup) :
    (picked.map f).Nodup := by
  obtain ⟨-, rest, hperm, -⟩ := h
  have hall : ((picked ++ rest).map f).Nodup := (hperm.map f).nodup_iff.mpr hl
  rw [List.map_append] at hall
  exact hall.of_append_left

/-- Enough are picked, and none of them comes after a hidden element, if and only if enough of
the shown ones come after no hidden element. -/
theorem covers_iff (h : Picks key n l picked) (hidden : List α) :
    (picked.length = n ∧ ∀ a ∈ picked, ∀ x ∈ hidden, key a ≤ key x) ↔
      n ≤ (l.filter fun a => ∀ x ∈ hidden, key a ≤ key x).length := by
  obtain ⟨hlength, rest, hperm, hsorted⟩ := h
  let p : α → Bool := fun a => ∀ x ∈ hidden, key a ≤ key x
  have hp : ∀ a, p a = true ↔ ∀ x ∈ hidden, key a ≤ key x := fun a => decide_eq_true_iff
  have hfilter : (l.filter p).length = (picked.filter p).length + (rest.filter p).length := by
    rw [← (hperm.filter p).length_eq, List.filter_append, List.length_append]
  change _ ↔ n ≤ (l.filter p).length
  constructor
  · rintro ⟨hn, hcovers⟩
    have hall : picked.filter p = picked :=
      List.filter_eq_self.mpr fun a ha => (hp a).mpr (hcovers a ha)
    rw [hfilter, hall]
    omega
  · intro hn
    have hle := List.length_filter_le p l
    have hn' : picked.length = n := by omega
    refine ⟨hn', fun a ha => ?_⟩
    by_contra hout
    -- everything that is left comes after the same hidden element
    have hrest : rest.filter p = [] := by
      rw [List.filter_eq_nil_iff]
      intro b hb hpb
      have hab : key a ≤ key b := (List.pairwise_append.mp hsorted).2.2 a ha b hb
      exact hout fun x hx => hab.trans ((hp b).mp hpb x hx)
    have hlt : (picked.filter p).length < picked.length :=
      List.length_filter_lt_length_iff_exists.mpr ⟨a, ha, fun hpa => hout ((hp a).mp hpa)⟩
    rw [hfilter, hrest, List.length_nil] at hn
    omega

end Picks

end Deckard.Selection
