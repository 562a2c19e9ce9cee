import Deckard.Interference
import Mathlib.Algebra.BigOperators.Group.Finset.Basic
import Mathlib.Algebra.Order.BigOperators.Group.Finset

/-!
# Requests and their answers

A run of interleaved threads, read as the requests that it answers. What an answer is worth may be
bounded by what the commands of its program gain: if every program covers its own answers, then,
however the threads interleave, all answers together are worth no more than what has been gained.
-/
namespace Deckard.Program

open Runs Prog

variable {C : Type} {R : C → Type} {ε α σ κ Q : Type} [DecidableEq κ]
  {handle : (c : C) → σ → R c × σ} {program : Q → Prog C R ε α}

/-- The answers of a run, each with its request; `pending` are the requests in progress at its
start. -/
def answers (pending : κ → Option Q) :
    List (Label κ Q × Option (Except ε α)) → List (Q × Except ε α)
  | [] => []
  | (.start i request, _) :: tr => answers (Function.update pending i (some request)) tr
  | (.step _, _) :: tr => answers pending tr
  | (.finish i, result) :: tr =>
      match pending i, result with
      | some request, some r => (request, r) :: answers (Function.update pending i none) tr
      | _, _ => answers pending tr

/-! ## What all threads keep -/

section Invariant

variable {P : C → Prop} {I : σ → Prop} {post : Except ε α → Prop} (ok : Q → Prop)
  {s t : Threads σ κ C R ε α} {tr : List (Label κ Q × Option (Except ε α))}

/-- What the admitted commands keep, the threads that issue no others keep. What they may count on
while they do so, they may count on at their ends. -/
theorem interleaved_ends (hI : ∀ c s, P c → I s → I (handle c s).2)
    (hprogram : ∀ q, ok q → All P (program q)) (hends : ∀ q, ok q → Ends handle I post (program q))
    (hrun : Run (interleaved handle program) s tr t)
    (hok : ∀ e ∈ tr, ∀ i q, e.1 = .start i q → ok q)
    (hthreads : ∀ i p, s.thread i = some p → All P p ∧ Ends handle I post p) (hs : I s.shared) :
    I t.shared ∧ ∀ i p, t.thread i = some p → All P p ∧ Ends handle I post p := by
  have hstep : ∀ s (l : Label κ Q) (r : Option (Except ε α)) t,
      interleaved handle program s l r t → (∀ i q, l = .start i q → ok q) →
      (I s.shared ∧ ∀ i p, s.thread i = some p → All P p ∧ Ends handle I post p) →
      I t.shared ∧ ∀ i p, t.thread i = some p → All P p ∧ Ends handle I post p := by
    rintro s l r t hevent hok ⟨hs, hthreads⟩
    cases interleaved_event hevent with
    | start i request hi =>
      refine ⟨hs, fun j p hp => ?_⟩
      rcases Threads.setThread_eq_some hp with ⟨-, heq⟩ | ⟨-, hj⟩
      · cases heq
        have hrequest := hok i request rfl
        exact ⟨hprogram request hrequest, hends request hrequest⟩
      · exact hthreads j p hj
    | step i c next hi =>
      obtain ⟨⟨hc, hnext⟩, hend⟩ := hthreads i _ hi
      refine ⟨hI c s.shared hc hs, fun j p hp => ?_⟩
      rcases Threads.setThread_eq_some hp with ⟨-, heq⟩ | ⟨-, hj⟩
      · cases heq
        exact ⟨hnext _, hend s.shared hs⟩
      · exact hthreads j p hj
    | finish i p hi hend =>
      refine ⟨hs, fun j q hq => ?_⟩
      rcases Threads.setThread_eq_some hq with ⟨-, heq⟩ | ⟨-, hj⟩
      · cases heq
      · exact hthreads j q hj
  exact hrun.invariant hstep hok ⟨hs, hthreads⟩

theorem interleaved_invariant (hI : ∀ c s, P c → I s → I (handle c s).2)
    (hprogram : ∀ q, ok q → All P (program q)) (hrun : Run (interleaved handle program) s tr t)
    (hok : ∀ e ∈ tr, ∀ i q, e.1 = .start i q → ok q)
    (hthreads : ∀ i p, s.thread i = some p → All P p) (hs : I s.shared) : I t.shared :=
  (interleaved_ends ok hI hprogram (fun q _ => ends_true (program q)) hrun hok
    (fun i p hp => ⟨hthreads i p hp, ends_true p⟩) hs).1

/-- What a run delivers at its end. -/
theorem interleaved_post (hI : ∀ c s, P c → I s → I (handle c s).2)
    (hprogram : ∀ q, ok q → All P (program q)) (hends : ∀ q, ok q → Ends handle I post (program q))
    {l : Label κ Q} {a : α}
    (hrun : Run (interleaved handle program) s (tr ++ [(l, some (.ok a))]) t)
    (hok : ∀ e ∈ tr, ∀ i q, e.1 = .start i q → ok q) (hidle : s.Idle) (hs : I s.shared) :
    post (.ok a) := by
  obtain ⟨u, hbefore, hlast⟩ := run_append.mp hrun
  obtain ⟨_, hfinish, -⟩ := run_cons.mp hlast
  obtain ⟨i, -, hi⟩ := interleaved_result hfinish
  have hthreads : ∀ i p, s.thread i = some p → All P p ∧ Ends handle I post p := by
    intro i p hp
    rw [hidle i] at hp
    cases hp
  exact ((interleaved_ends ok hI hprogram hends hbefore hok hthreads hs).2 i _ hi).2

end Invariant

/-! ## What answers are worth -/

/-- The program ends with a result that fits what it has got and what its commands gain. -/
def Prog.Gains (gains : (c : C) → R c → ℕ) (post : Except ε α → ℕ → Prop) :
    Prog C R ε α → ℕ → Prop
  | .ret a, got => post (.ok a) got
  | .fail e, got => post (.error e) got
  | .call c next, got => ∀ r, Gains gains post (next r) (got + gains c r)

/-- The worth of the result is covered. -/
abbrev Prog.Covers (gains : (c : C) → R c → ℕ) (worth : Except ε α → ℕ) :
    Prog C R ε α → ℕ → Prop :=
  Gains gains fun result got => worth result ≤ got

section Gains

variable {ε' β : Type} {gains : (c : C) → R c → ℕ} {post : Except ε α → ℕ → Prop}
  {p : Prog C R ε α} {got : ℕ}

theorem Prog.gains_of_forall (h : ∀ r n, post r n) (p : Prog C R ε α) (got : ℕ) :
    Gains gains post p got := by
  induction p generalizing got with
  | ret a => exact h _ _
  | fail e => exact h _ _
  | call c next ih => exact fun r => ih r _

theorem Prog.covers_of_worthless {worth : Except ε α → ℕ} (h : ∀ r, worth r = 0)
    (p : Prog C R ε α) (got : ℕ) : Covers gains worth p got :=
  gains_of_forall (fun r n => by simp [h]) p got

theorem Prog.Gains.bind {f : α → Prog C R ε β} {post' : Except ε β → ℕ → Prop}
    (hp : Gains gains post p got) (hok : ∀ a n, post (.ok a) n → Gains gains post' (f a) n)
    (herror : ∀ e n, post (.error e) n → post' (.error e) n) :
    Gains gains post' (p >>= f) got := by
  induction p generalizing got with
  | ret a => exact hok a got hp
  | fail e => exact herror e got hp
  | call c next ih => exact fun r => ih r (hp r)

theorem Prog.Gains.mapError {f : ε → ε'} {post' : Except ε' α → ℕ → Prop}
    (hp : Gains gains post p got) (hok : ∀ a n, post (.ok a) n → post' (.ok a) n)
    (herror : ∀ e n, post (.error e) n → post' (.error (f e)) n) :
    Gains gains post' (mapError f p) got := by
  induction p generalizing got with
  | ret a => exact hok a got hp
  | fail e => exact herror e got hp
  | call c next ih => exact fun r => ih r (hp r)

end Gains

/-- Each thread is on its way to answer its request, with what it has got so far. -/
def Covered (gains : (c : C) → R c → ℕ) (worth : Q → Except ε α → ℕ) (pending : κ → Option Q)
    (got : κ → ℕ) (s : Threads σ κ C R ε α) : Prop :=
  ∀ i p, s.thread i = some p →
    ∃ request, pending i = some request ∧ Covers gains (worth request) p (got i)

variable {gains : (c : C) → R c → ℕ} {worth : Q → Except ε α → ℕ} {pending : κ → Option Q}
  {got : κ → ℕ} {s t : Threads σ κ C R ε α}

omit [DecidableEq κ] in
theorem covered_idle (h : s.Idle) : Covered gains worth pending got s := by
  intro i p hp
  rw [h i] at hp
  cases hp

/-- One thread goes on, with what it has got by now. -/
theorem Covered.setThread (h : Covered gains worth pending got s) (i : κ) {request : Q} {n : ℕ}
    {p : Prog C R ε α} (hp : Covers gains (worth request) p n) (w : σ) :
    Covered gains worth (Function.update pending i (some request)) (Function.update got i n)
      (({ s with shared := w }).setThread i (some p)) := by
  intro j q hq
  rcases Threads.setThread_eq_some hq with ⟨rfl, heq⟩ | ⟨hne, hj⟩
  · cases heq
    exact ⟨request, Function.update_self .., by rwa [Function.update_self]⟩
  · rw [Function.update_of_ne hne, Function.update_of_ne hne]
    exact h j q hj

theorem Covered.clearThread (h : Covered gains worth pending got s) (i : κ) :
    Covered gains worth (Function.update pending i none) (Function.update got i 0)
      (s.setThread i none) := by
  intro j q hq
  rcases Threads.setThread_eq_some hq with ⟨-, heq⟩ | ⟨hne, hj⟩
  · cases heq
  · rw [Function.update_of_ne hne, Function.update_of_ne hne]
    exact h j q hj

/-- What a thread delivers is covered. -/
theorem Covered.finish (h : Covered gains worth pending got s) {i : κ}
    {r : Option (Except ε α)} (hevent : interleaved handle program s (.finish i) r t) :
    ∃ request result, pending i = some request ∧ r = some result ∧
      worth request result ≤ got i ∧ t = s.setThread i none := by
  unfold interleaved at hevent
  simp only [advance] at hevent
  split at hevent
  · cases hevent
    obtain ⟨request, hrequest, hcovers⟩ := h i _ ‹_›
    exact ⟨request, _, hrequest, rfl, hcovers, rfl⟩
  · cases hevent
    obtain ⟨request, hrequest, hcovers⟩ := h i _ ‹_›
    exact ⟨request, _, hrequest, rfl, hcovers, rfl⟩
  · cases hevent

variable [Fintype κ]

theorem sum_update (got : κ → ℕ) (i : κ) (n : ℕ) :
    ∑ j, Function.update got i n j + got i = ∑ j, got j + n := by
  have hold := Finset.sum_eq_add_sum_sdiff_singleton_of_mem (Finset.mem_univ i) got
  rw [Finset.sum_update_of_mem (Finset.mem_univ i)]
  omega

/-- However the threads interleave, the answers are worth no more than what has been gained. -/
theorem worth_answers_le (total : σ → ℕ)
    (hprogram : ∀ request, Covers gains (worth request) (program request) 0)
    (htotal : ∀ c s, total (handle c s).2 = total s + gains c (handle c s).1)
    {tr : List (Label κ Q × Option (Except ε α))} (hrun : Run (interleaved handle program) s tr t)
    (hs : Covered gains worth pending got s) :
    ((answers pending tr).map fun a => worth a.1 a.2).sum + total s.shared ≤
      total t.shared + ∑ i, got i := by
  induction hrun generalizing pending got with
  | nil s => simp [answers]
  | @cons s u t l r tr hevent _ ih =>
    cases l with
    | start i request =>
      obtain ⟨-, rfl⟩ : s.thread i = none ∧ u = s.setThread i (some (program request)) := by
        cases interleaved_event hevent with
        | start _ _ hi => exact ⟨hi, rfl⟩
      have hrest := ih (hs.setThread i (hprogram request) s.shared)
      have hsum := sum_update got i 0
      change _ + total s.shared ≤ _ at hrest
      simp only [answers]
      omega
    | step i =>
      obtain ⟨c, next, hi, rfl⟩ : ∃ c next, s.thread i = some (.call c next) ∧
          u = ({ s with shared := (handle c s.shared).2 }).setThread i
            (some (next (handle c s.shared).1)) := by
        cases interleaved_event hevent with
        | step _ c next hi => exact ⟨c, next, hi, rfl⟩
      obtain ⟨request, hrequest, hcovers⟩ := hs i _ hi
      have hnext := hs.setThread i (hcovers (handle c s.shared).1) (handle c s.shared).2
      rw [← hrequest, Function.update_eq_self] at hnext
      have hrest := ih hnext
      have hsum := sum_update got i (got i + gains c (handle c s.shared).1)
      have hgain := htotal c s.shared
      change _ + total (handle c s.shared).2 ≤ _ at hrest
      simp only [answers]
      omega
    | finish i =>
      obtain ⟨request, result, hrequest, rfl, hworth, rfl⟩ := hs.finish hevent
      have hrest := ih (hs.clearThread i)
      have hsum := sum_update got i 0
      change _ + total s.shared ≤ _ at hrest
      simp only [answers, hrequest, List.map_cons, List.sum_cons]
      omega

end Deckard.Program
