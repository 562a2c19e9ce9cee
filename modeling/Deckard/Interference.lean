import Deckard.Program

/-!
# Programs under interference

Between two commands of a program the other threads may change the shared state. A
program is followed command by command: whatever the others do in between, a fact holds
after each of its commands and its postcondition holds at its end.
-/
namespace Deckard.Program

/-- `rely` is what the others may do between two commands, `given` what a command may count
on where it is performed, and `during` what has to hold after every command. -/
structure Interference (C σ : Type) where
  rely : σ → σ → Prop
  given : C → σ → Prop
  during : σ → Prop

namespace Prog

variable {C : Type} {R : C → Type} {ε ε' α β σ : Type}

/-- The program reaches its postcondition from a state under the interference of others. -/
def Under (handle : (c : C) → σ → R c × σ) (E : Interference C σ) (post : Except ε α → σ → Prop) :
    Prog C R ε α → σ → Prop
  | .ret a, s => post (.ok a) s
  | .fail e, s => post (.error e) s
  | .call c next, s => ∀ t, E.rely s t → E.given c t →
      E.during (handle c t).2 ∧ Under handle E post (next (handle c t).1) (handle c t).2

variable {handle : (c : C) → σ → R c × σ} {E : Interference C σ}

/-- The others do not get in the way. -/
theorem Under.interfere {post : Except ε α → σ → Prop}
    (htrans : ∀ s t u, E.rely s t → E.rely t u → E.rely s u)
    (hpost : ∀ r s t, post r s → E.rely s t → post r t) {p : Prog C R ε α} {s t : σ}
    (h : Under handle E post p s) (hst : E.rely s t) : Under handle E post p t := by
  cases p with
  | ret a => exact hpost _ s t h hst
  | fail e => exact hpost _ s t h hst
  | call c next =>
    intro u htu hgiven
    exact h u (htrans s t u hst htu) hgiven

theorem Under.imp {post post' : Except ε α → σ → Prop} (hpost : ∀ r s, post r s → post' r s)
    {p : Prog C R ε α} {s : σ} (h : Under handle E post p s) : Under handle E post' p s := by
  induction p generalizing s with
  | ret a => exact hpost _ s h
  | fail e => exact hpost _ s h
  | call c next ih =>
    intro t hst hgiven
    obtain ⟨hduring, hnext⟩ := h t hst hgiven
    exact ⟨hduring, ih _ hnext⟩

/-- A sequence is followed from its first part into its second. -/
theorem Under.bind {post : Except ε β → σ → Prop} {mid : Except ε α → σ → Prop}
    {p : Prog C R ε α} {f : α → Prog C R ε β} {s : σ} (h : Under handle E mid p s)
    (hok : ∀ a t, mid (.ok a) t → Under handle E post (f a) t)
    (herror : ∀ e t, mid (.error e) t → post (.error e) t) :
    Under handle E post (p >>= f) s := by
  induction p generalizing s with
  | ret a => exact hok a s h
  | fail e => exact herror e s h
  | call c next ih =>
    intro t hst hgiven
    obtain ⟨hduring, hnext⟩ := h t hst hgiven
    exact ⟨hduring, ih _ hnext⟩

/-- What follows a captured program sees its error. -/
theorem Under.capture_bind {post : Except ε' β → σ → Prop} {mid : Except ε α → σ → Prop}
    {p : Prog C R ε α} {f : Except ε α → Prog C R ε' β} {s : σ} (h : Under handle E mid p s)
    (hnext : ∀ r t, mid r t → Under handle E post (f r) t) :
    Under handle E post (capture p >>= f) s := by
  induction p generalizing s with
  | ret a => exact hnext _ s h
  | fail e => exact hnext _ s h
  | call c next ih =>
    intro t hst hgiven
    obtain ⟨hduring, hnext⟩ := h t hst hgiven
    exact ⟨hduring, ih _ hnext⟩

/-- A program that is run alone suffers no interference; what its commands may count on
follows from an invariant of theirs. -/
theorem Under.run {post : Except ε α → σ → Prop} {P : C → Prop} {I : σ → Prop}
    (hI : ∀ c s, P c → I s → I (handle c s).2) (hgiven : ∀ c s, I s → E.given c s)
    (hrefl : ∀ s, E.rely s s) {p : Prog C R ε α} (hp : All P p) {s : σ} (hs : I s)
    (h : Under handle E post p s) : post (Prog.run handle p s).1 (Prog.run handle p s).2 := by
  induction p generalizing s with
  | ret a => exact h
  | fail e => exact h
  | call c next ih =>
    exact ih _ (hp.2 _) (hI c s hp.1 hs) (h s (hrefl s) (hgiven c s hs)).2

/-- Performed in states of some kind, whatever they are, the program ends as required. -/
def Ends (handle : (c : C) → σ → R c × σ) (ok : σ → Prop) (post : Except ε α → Prop) :
    Prog C R ε α → Prop
  | .ret a => post (.ok a)
  | .fail e => post (.error e)
  | .call c next => ∀ s, ok s → Ends handle ok post (next (handle c s).1)

theorem ends_true {ok : σ → Prop} (p : Prog C R ε α) : Ends handle ok (fun _ => True) p := by
  induction p with
  | ret a => trivial
  | fail e => trivial
  | call c next ih => exact fun s _ => ih _

theorem Ends.imp {ok ok' : σ → Prop} {post post' : Except ε α → Prop} (hok : ∀ s, ok' s → ok s)
    (hpost : ∀ r, post r → post' r) {p : Prog C R ε α} (h : Ends handle ok post p) :
    Ends handle ok' post' p := by
  induction p with
  | ret a => exact hpost _ h
  | fail e => exact hpost _ h
  | call c next ih => exact fun s hs => ih _ (h s (hok s hs))

theorem Ends.bind {ok : σ → Prop} {mid : Except ε α → Prop} {post : Except ε β → Prop}
    {p : Prog C R ε α} {f : α → Prog C R ε β} (h : Ends handle ok mid p)
    (hok : ∀ a, mid (.ok a) → Ends handle ok post (f a))
    (herror : ∀ e, mid (.error e) → post (.error e)) : Ends handle ok post (p >>= f) := by
  induction p with
  | ret a => exact hok a h
  | fail e => exact herror e h
  | call c next ih => exact fun s hs => ih _ (h s hs)

theorem Ends.mapError {ok : σ → Prop} {f : ε → ε'} {mid : Except ε α → Prop}
    {post : Except ε' α → Prop} {p : Prog C R ε α} (h : Ends handle ok mid p)
    (hok : ∀ a, mid (.ok a) → post (.ok a)) (herror : ∀ e, mid (.error e) → post (.error (f e))) :
    Ends handle ok post (mapError f p) := by
  induction p with
  | ret a => exact hok a h
  | fail e => exact herror e h
  | call c next ih => exact fun s hs => ih _ (h s hs)

end Prog

end Deckard.Program
