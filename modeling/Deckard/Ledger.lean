import Deckard.Program
import Mathlib.Algebra.BigOperators.Group.Finset.Basic

/-!
# Debts of programs

The answer to a command may oblige a program to issue others later. Debts are summed up in a
commutative monoid: a command pays a part of what is owed, and its answer adds to it. If every
program comes to its end without a debt, then, however the threads interleave, what has been
incurred is what has been paid and what the threads in progress still owe.
-/
namespace Deckard.Program

open Runs

variable {C : Type} {R : C → Type} {ε α σ M : Type} [AddCommMonoid M]

namespace Prog

/-- The program, with a debt at its start, has none at its end. -/
def Discharges (incurs : (c : C) → R c → M) (pays : C → M) : Prog C R ε α → M → Prop
  | .ret _, debt | .fail _, debt => debt = 0
  | .call c next, debt => ∃ rest, debt = pays c + rest ∧
      ∀ r, Discharges incurs pays (next r) (rest + incurs c r)

end Prog

open Prog

variable {incurs : (c : C) → R c → M} {pays : C → M} {κ Q : Type} [Fintype κ]
  {handle : (c : C) → σ → R c × σ} {program : Q → Prog C R ε α}

/-- What has been incurred is what has been paid and what the threads still owe. -/
def Balanced (incurs : (c : C) → R c → M) (pays : C → M) (incurred paid : σ → M)
    (s : Threads σ κ C R ε α) : Prop :=
  ∃ debt : κ → M, incurred s.shared = paid s.shared + ∑ i, debt i ∧
    ∀ i, (s.thread i).elim (debt i = 0) fun p => Discharges incurs pays p (debt i)

section Balance

variable {incurred paid : σ → M} {s t : Threads σ κ C R ε α}

theorem balanced_of_idle (hidle : s.Idle) (h : incurred s.shared = paid s.shared) :
    Balanced incurs pays incurred paid s := by
  refine ⟨fun _ => 0, by simp [h], fun i => ?_⟩
  rw [hidle i]
  rfl

/-- With no thread in progress nothing is owed. -/
theorem Balanced.of_idle (h : Balanced incurs pays incurred paid s) (hidle : s.Idle) :
    incurred s.shared = paid s.shared := by
  obtain ⟨debt, hsum, hthreads⟩ := h
  have hzero : ∀ i, debt i = 0 := by
    intro i
    have hi := hthreads i
    rw [hidle i] at hi
    exact hi
  rw [hsum, Finset.sum_eq_zero fun i _ => hzero i, add_zero]

variable [DecidableEq κ]

theorem balanced_event (hprogram : ∀ request, Discharges incurs pays (program request) 0)
    (hincurred : ∀ c s, incurred (handle c s).2 = incurred s + incurs c (handle c s).1)
    (hpaid : ∀ c s, paid (handle c s).2 = paid s + pays c) {l : Label κ Q}
    (h : Event handle program s l t) (hs : Balanced incurs pays incurred paid s) :
    Balanced incurs pays incurred paid t := by
  obtain ⟨debt, hsum, hthreads⟩ := hs
  cases h with
  | start i request hi =>
    refine ⟨debt, hsum, fun j => ?_⟩
    by_cases hj : j = i
    · subst hj
      have hzero := hthreads j
      rw [hi] at hzero
      rw [Threads.setThread_self, hzero]
      exact hprogram request
    · rw [Threads.setThread_of_ne hj]
      exact hthreads j
  | step i c next hi =>
    have hhead := hthreads i
    rw [hi] at hhead
    obtain ⟨rest, hrest, hnext⟩ := hhead
    refine ⟨Function.update debt i (rest + incurs c (handle c s.shared).1), ?_, fun j => ?_⟩
    · change incurred (handle c s.shared).2 = paid (handle c s.shared).2 + _
      rw [hincurred, hpaid, hsum, Finset.sum_update_of_mem (Finset.mem_univ i),
        Finset.sum_eq_add_sum_sdiff_singleton_of_mem (Finset.mem_univ i), hrest]
      abel
    · by_cases hj : j = i
      · subst hj
        rw [Threads.setThread_self, Function.update_self]
        exact hnext _
      · rw [Threads.setThread_of_ne hj, Function.update_of_ne hj]
        exact hthreads j
  | finish i p hi hend =>
    refine ⟨debt, hsum, fun j => ?_⟩
    by_cases hj : j = i
    · subst hj
      have hlast := hthreads j
      rw [hi] at hlast
      rw [Threads.setThread_self]
      cases p with
      | ret a => exact hlast
      | fail e => exact hlast
      | call c next => exact absurd rfl (hend c next)
    · rw [Threads.setThread_of_ne hj]
      exact hthreads j

/-- However the threads interleave, the books are balanced. -/
theorem balanced_run (hprogram : ∀ request, Discharges incurs pays (program request) 0)
    (hincurred : ∀ c s, incurred (handle c s).2 = incurred s + incurs c (handle c s).1)
    (hpaid : ∀ c s, paid (handle c s).2 = paid s + pays c)
    {tr : List (Label κ Q × Option (Except ε α))} (hrun : Run (interleaved handle program) s tr t)
    (hs : Balanced incurs pays incurred paid s) : Balanced incurs pays incurred paid t := by
  refine hrun.along (Q := fun _ s => Balanced incurs pays incurred paid s) hs ?_
  intro tr' t l r u _ _ hstep hbalanced
  exact balanced_event hprogram hincurred hpaid (interleaved_event hstep) hbalanced

end Balance

end Deckard.Program
