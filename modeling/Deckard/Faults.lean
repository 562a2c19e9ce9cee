import Deckard.Program

/-!
# Calls that fail

A call may be refused before it is performed, or performed without an answer that comes back. The
state of a failing handler carries the fates of the calls to come, so that a run of the handler is
a run of the program with some sequence of failures.
-/
namespace Deckard.Program

/-- What becomes of a call. -/
inductive Fate (φ : Type)
  | answered
  | refused (e : φ)
  | unanswered (e : φ)

variable {C : Type} {R : C → Type} {φ σ : Type}

/-- The answer to a call and the state after it. A call that cannot fail is answered. -/
def Fate.outcome (handle : (c : C) → σ → R c × σ) (failure : (c : C) → φ → Option (R c)) (c : C)
    (s : σ) : Fate φ → R c × σ
  | .answered => handle c s
  | .refused e => ((failure c e).map fun r => (r, s)).getD (handle c s)
  | .unanswered e => ((failure c e).map fun r => (r, (handle c s).2)).getD (handle c s)

def failing (handle : (c : C) → σ → R c × σ) (failure : (c : C) → φ → Option (R c)) (c : C)
    (s : σ × (ℕ → Fate φ)) : R c × σ × (ℕ → Fate φ) :=
  let outcome := (s.2 0).outcome handle failure c s.1
  (outcome.1, outcome.2, fun n => s.2 (n + 1))

/-- The outcomes of a call that may fail. -/
inductive Faulty (handle : (c : C) → σ → R c × σ) (failure : (c : C) → φ → Option (R c)) (c : C)
    (s : σ) : R c → σ → Prop
  | answered : Faulty handle failure c s (handle c s).1 (handle c s).2
  | refused {r : R c} (e : φ) : failure c e = some r → Faulty handle failure c s r s
  | unanswered {r : R c} (e : φ) : failure c e = some r →
      Faulty handle failure c s r (handle c s).2

section Outcomes

variable {handle : (c : C) → σ → R c × σ} {failure : (c : C) → φ → Option (R c)} {c : C}
  {s s' : σ} {r : R c}

/-- A call is performed or not. -/
theorem Faulty.state (h : Faulty handle failure c s r s') : s' = s ∨ s' = (handle c s).2 := by
  cases h with
  | answered => exact .inr rfl
  | refused e hr => exact .inl rfl
  | unanswered e hr => exact .inr rfl

/-- An answer that is no failure comes from the handler. -/
theorem Faulty.eq_handle (h : Faulty handle failure c s r s') (hr : ∀ e, failure c e ≠ some r) :
    (handle c s).1 = r ∧ (handle c s).2 = s' := by
  cases h with
  | answered => exact ⟨rfl, rfl⟩
  | refused e hfail => exact absurd hfail (hr e)
  | unanswered e hfail => exact absurd hfail (hr e)

end Outcomes

theorem faulty_outcome (handle : (c : C) → σ → R c × σ) (failure : (c : C) → φ → Option (R c))
    (c : C) (s : σ) (fate : Fate φ) : Faulty handle failure c s
      (fate.outcome handle failure c s).1 (fate.outcome handle failure c s).2 := by
  cases fate with
  | answered => exact .answered
  | refused e =>
    rw [Fate.outcome]
    cases h : failure c e with
    | none => exact .answered
    | some r => exact .refused e h
  | unanswered e =>
    rw [Fate.outcome]
    cases h : failure c e with
    | none => exact .answered
    | some r => exact .unanswered e h

theorem faulty_failing (handle : (c : C) → σ → R c × σ) (failure : (c : C) → φ → Option (R c))
    (c : C) (s : σ × (ℕ → Fate φ)) :
    Faulty handle failure c s.1 (failing handle failure c s).1 (failing handle failure c s).2.1 :=
  faulty_outcome handle failure c s.1 (s.2 0)

/-- If all calls are answered, a program runs as if none could fail. -/
theorem run_failing_answered {ε α : Type} (handle : (c : C) → σ → R c × σ)
    (failure : (c : C) → φ → Option (R c)) (p : Prog C R ε α) (s : σ) :
    p.run (failing handle failure) (s, fun _ => .answered) =
      ((p.run handle s).1, (p.run handle s).2, fun _ => .answered) := by
  induction p generalizing s with
  | ret a => rfl
  | fail e => rfl
  | call c next ih => exact ih _ _

end Deckard.Program
