import Deckard.Ledger

/-!
# Monitors

A monitor watches the commands of a program and the answers to them. In each of its states it
allows some commands and no others. That a program obeys a monitor is proved once; the commands it
may issue, the debts it comes to and the facts that it keeps are then read off the states of the
monitor, a command at a time.
-/
namespace Deckard.Program

/-- In which state which commands are allowed, which answers are to be expected and where they
lead. -/
structure Monitor (S C : Type) (R : C → Type) where
  allows : S → C → Prop
  expects : (c : C) → R c → Prop
  next : S → (c : C) → R c → S

namespace Prog

variable {S C : Type} {R : C → Type} {ε ε' α β σ : Type} {m : Monitor S C R} {s : S}
  {p : Prog C R ε α} {post post' : Except ε α → S → Prop}

/-- Whatever it is answered, the program issues no command that is not allowed, and it ends with
`post`. -/
def Obeys (m : Monitor S C R) : S → Prog C R ε α → (Except ε α → S → Prop) → Prop
  | s, .ret a, post => post (.ok a) s
  | s, .fail e, post => post (.error e) s
  | s, .call c next, post =>
      m.allows s c ∧ ∀ r, m.expects c r → Obeys m (m.next s c r) (next r) post

theorem Obeys.bind (mid : Except ε α → S → Prop) {f : α → Prog C R ε β}
    {post : Except ε β → S → Prop} (h : Obeys m s p mid)
    (hok : ∀ a t, mid (.ok a) t → Obeys m t (f a) post)
    (herror : ∀ e t, mid (.error e) t → post (.error e) t) : Obeys m s (p >>= f) post := by
  induction p generalizing s with
  | ret a => exact hok a s h
  | fail e => exact herror e s h
  | call c next ih => exact ⟨h.1, fun r hr => ih r (h.2 r hr)⟩

theorem Obeys.mapError {f : ε → ε'} {post : Except ε' α → S → Prop}
    (h : Obeys m s p fun r => post (r.mapError f)) : Obeys m s (mapError f p) post := by
  induction p generalizing s with
  | ret a => exact h
  | fail e => exact h
  | call c next ih => exact ⟨h.1, fun r hr => ih r (h.2 r hr)⟩

theorem Obeys.capture {post : Except ε' (Except ε α) → S → Prop}
    (h : Obeys m s p fun r => post (.ok r)) : Obeys m s (capture p) post := by
  induction p generalizing s with
  | ret a => exact h
  | fail e => exact h
  | call c next ih => exact ⟨h.1, fun r hr => ih r (h.2 r hr)⟩

/-- The commands of an obedient program are such as are allowed somewhere. -/
theorem Obeys.all {P : C → Prop} (h : Obeys m s p post) (hexpects : ∀ c r, m.expects c r)
    (hallows : ∀ s c, m.allows s c → P c) : All P p := by
  induction p generalizing s with
  | ret a => trivial
  | fail e => trivial
  | call c next ih => exact ⟨hallows s c h.1, fun r => ih r (h.2 r (hexpects c r))⟩

/-- The state of the monitor tells what the program owes. -/
theorem Obeys.discharges {M : Type} [AddCommMonoid M] {incurs : (c : C) → R c → M} {pays : C → M}
    (owes : S → M) (h : Obeys m s p post) (hexpects : ∀ c r, m.expects c r)
    (hstep : ∀ s c, m.allows s c → ∃ rest, owes s = pays c + rest ∧
      ∀ r, owes (m.next s c r) = rest + incurs c r)
    (hend : ∀ r t, post r t → owes t = 0) : Discharges incurs pays p (owes s) := by
  induction p generalizing s with
  | ret a => exact hend _ _ h
  | fail e => exact hend _ _ h
  | call c next ih =>
    obtain ⟨rest, hrest, hnext⟩ := hstep s c h.1
    refine ⟨rest, hrest, fun r => ?_⟩
    rw [← hnext r]
    exact ih r (h.2 r (hexpects c r))

/-- A program that runs alone keeps what each allowed command keeps: a fact about the state, and
about that of the monitor. -/
theorem Obeys.run {handle : (c : C) → σ → R c × σ} {I : S → σ → Prop} (h : Obeys m s p post)
    (hstep : ∀ s c w, m.allows s c → I s w →
      m.expects c (handle c w).1 ∧ I (m.next s c (handle c w).1) (handle c w).2) {w : σ}
    (hw : I s w) : ∃ t, post (run handle p w).1 t ∧ I t (run handle p w).2 := by
  induction p generalizing s w with
  | ret a => exact ⟨s, h, hw⟩
  | fail e => exact ⟨s, h, hw⟩
  | call c next ih =>
    obtain ⟨hexpects, hI⟩ := hstep s c w h.1 hw
    exact ih _ (h.2 _ hexpects) hI

end Prog

end Deckard.Program
