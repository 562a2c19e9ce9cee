import Deckard.Effect
import Deckard.Runs

/-!
# Programs over atomic commands

A program issues commands one at a time, each depending on the answers so far, and ends
with a value or an error. The same program is run alone, from its first command to its
last, or as one of many threads whose commands interleave. What every command it may
issue preserves is preserved in both cases.
-/
namespace Deckard.Program

open Runs

/-- Programs with commands `C`, answers `R`, errors `ε` and results `α`. -/
inductive Prog (C : Type) (R : C → Type) (ε α : Type) : Type
  | ret (a : α)
  | fail (e : ε)
  | call (c : C) (next : R c → Prog C R ε α)

variable {C : Type} {R : C → Type} {ε ε' α β σ : Type}

namespace Prog

def bind : Prog C R ε α → (α → Prog C R ε β) → Prog C R ε β
  | .ret a, f => f a
  | .fail e, _ => .fail e
  | .call c next, f => .call c fun r => bind (next r) f

instance : Monad (Prog C R ε) where
  pure := .ret
  bind := bind

/-- Issue one command. -/
def perform (c : C) : Prog C R ε (R c) := .call c .ret

/-- Translate the error of a program. -/
def mapError (f : ε → ε') : Prog C R ε α → Prog C R ε' α
  | .ret a => .ret a
  | .fail e => .fail (f e)
  | .call c next => .call c fun r => mapError f (next r)

/-- Return the error of a program as a value. -/
def capture : Prog C R ε α → Prog C R ε' (Except ε α)
  | .ret a => .ret (.ok a)
  | .fail e => .ret (.error e)
  | .call c next => .call c fun r => capture (next r)

@[simp] theorem pure_eq (a : α) : (pure a : Prog C R ε α) = .ret a := rfl

@[simp] theorem map_eq_bind (f : α → β) (p : Prog C R ε α) : f <$> p = p >>= fun a => .ret (f a) :=
  rfl

@[simp] theorem ret_bind (a : α) (f : α → Prog C R ε β) : .ret a >>= f = f a := rfl

@[simp] theorem fail_bind (e : ε) (f : α → Prog C R ε β) : .fail e >>= f = .fail e := rfl

@[simp] theorem call_bind (c : C) (next : R c → Prog C R ε α) (f : α → Prog C R ε β) :
    .call c next >>= f = .call c fun r => next r >>= f := rfl

@[simp] theorem perform_bind (c : C) (f : R c → Prog C R ε β) : perform c >>= f = .call c f := rfl

@[simp] theorem ite_bind (P : Prop) [Decidable P] (p q : Prog C R ε α) (f : α → Prog C R ε β) :
    (if P then p else q) >>= f = if P then p >>= f else q >>= f :=
  apply_ite (· >>= f) P p q

@[simp] theorem mapError_ret (f : ε → ε') (a : α) :
    mapError f (.ret a : Prog C R ε α) = .ret a := rfl

@[simp] theorem mapError_fail (f : ε → ε') (e : ε) :
    mapError f (.fail e : Prog C R ε α) = .fail (f e) := rfl

@[simp] theorem mapError_call (f : ε → ε') (c : C) (next : R c → Prog C R ε α) :
    mapError f (.call c next) = .call c fun r => mapError f (next r) := rfl

/-- Run a program alone. -/
def run (handle : (c : C) → σ → R c × σ) : Prog C R ε α → σ → Except ε α × σ
  | .ret a, s => (.ok a, s)
  | .fail e, s => (.error e, s)
  | .call c next, s => run handle (next (handle c s).1) (handle c s).2

variable {handle : (c : C) → σ → R c × σ}

@[simp] theorem run_ret (a : α) (s : σ) :
    run handle (.ret a : Prog C R ε α) s = (.ok a, s) := rfl

@[simp] theorem run_fail (e : ε) (s : σ) :
    run handle (.fail e : Prog C R ε α) s = (.error e, s) := rfl

@[simp] theorem run_call (c : C) (next : R c → Prog C R ε α) (s : σ) :
    run handle (.call c next) s = run handle (next (handle c s).1) (handle c s).2 := rfl

theorem run_bind (p : Prog C R ε α) (f : α → Prog C R ε β) (s : σ) :
    run handle (p >>= f) s = Effect.andThen (run handle p s) fun a => run handle (f a) := by
  induction p generalizing s with
  | ret a => rfl
  | fail e => rfl
  | call c next ih => exact ih _ _

theorem run_bind_ret (p : Prog C R ε α) (f : α → β) (s : σ) :
    run handle (p >>= fun a => .ret (f a)) s = (run handle p s).map (Except.map f) id := by
  rw [run_bind]
  rcases run handle p s with ⟨_ | a, t⟩
  · rfl
  · rfl

/-- A sequence of two programs succeeds if both do. -/
theorem run_bind_ok {p : Prog C R ε α} {f : α → Prog C R ε β} {s u : σ} {b : β} :
    run handle (p >>= f) s = (.ok b, u) ↔
      ∃ a t, run handle p s = (.ok a, t) ∧ run handle (f a) t = (.ok b, u) := by
  induction p generalizing s with
  | ret a =>
    constructor
    · intro h
      exact ⟨a, s, rfl, h⟩
    · rintro ⟨a', t, h, h'⟩
      cases h
      exact h'
  | fail e =>
    constructor
    · intro h
      cases h
    · rintro ⟨a, t, h, -⟩
      cases h
  | call c next ih => exact ih _

theorem run_mapError_ok {f : ε → ε'} {p : Prog C R ε α} {s t : σ} {a : α} :
    run handle (mapError f p) s = (.ok a, t) ↔ run handle p s = (.ok a, t) := by
  induction p generalizing s with
  | ret a' => simp
  | fail e => simp
  | call c next ih => exact ih _

theorem run_capture (p : Prog C R ε α) (s : σ) :
    run handle (capture p : Prog C R ε' (Except ε α)) s =
      (.ok (run handle p s).1, (run handle p s).2) := by
  induction p generalizing s with
  | ret a => rfl
  | fail e => rfl
  | call c next ih => exact ih _ _

/-- What follows a captured program runs whatever came of it. -/
theorem run_capture_bind (p : Prog C R ε α) (f : Except ε α → Prog C R ε' β) (s : σ) :
    run handle (capture p >>= f) s = run handle (f (run handle p s).1) (run handle p s).2 := by
  rw [run_bind, run_capture]
  rfl

theorem run_perform (c : C) (s : σ) :
    run handle (perform c : Prog C R ε (R c)) s = (.ok (handle c s).1, (handle c s).2) := rfl

/-- Every command that a program may issue, whatever it is answered, satisfies `P`. -/
def All (P : C → Prop) : Prog C R ε α → Prop
  | .ret _ | .fail _ => True
  | .call c next => P c ∧ ∀ r, All P (next r)

variable {P : C → Prop}

@[simp] theorem all_ret (a : α) : All P (.ret a : Prog C R ε α) := trivial

@[simp] theorem all_fail (e : ε) : All P (.fail e : Prog C R ε α) := trivial

@[simp] theorem all_call (c : C) (next : R c → Prog C R ε α) :
    All P (.call c next) ↔ P c ∧ ∀ r, All P (next r) := Iff.rfl

@[simp] theorem all_perform (c : C) : All P (perform c : Prog C R ε (R c)) ↔ P c := by
  simp [perform]

theorem All.imp {P' : C → Prop} (h : ∀ c, P c → P' c) {p : Prog C R ε α} (hp : All P p) :
    All P' p := by
  induction p with
  | ret a => trivial
  | fail e => trivial
  | call c next ih => exact ⟨h c hp.1, fun r => ih r (hp.2 r)⟩

theorem all_bind {p : Prog C R ε α} {f : α → Prog C R ε β} (hp : All P p)
    (hf : ∀ a, All P (f a)) : All P (p >>= f) := by
  induction p with
  | ret a => exact hf a
  | fail e => trivial
  | call c next ih => exact ⟨hp.1, fun r => ih r (hp.2 r)⟩

theorem all_mapError {f : ε → ε'} {p : Prog C R ε α} (hp : All P p) : All P (mapError f p) := by
  induction p with
  | ret a => trivial
  | fail e => trivial
  | call c next ih => exact ⟨hp.1, fun r => ih r (hp.2 r)⟩

theorem all_capture {p : Prog C R ε α} (hp : All P p) :
    All P (capture p : Prog C R ε' (Except ε α)) := by
  induction p with
  | ret a => trivial
  | fail e => trivial
  | call c next ih => exact ⟨hp.1, fun r => ih r (hp.2 r)⟩

/-- A condition on programs that is given command by command: `ask c rest` is what it asks at the
command `c` if `rest` tells for which answers the rest of the program satisfies it. -/
def Satisfies (ask : (c : C) → (R c → Prop) → Prop) : Prog C R ε α → Prop
  | .ret _ | .fail _ => True
  | .call c next => ask c fun r => Satisfies ask (next r)

/-- It is enough that the rest satisfies more. -/
def Upward (ask : (c : C) → (R c → Prop) → Prop) : Prop :=
  ∀ c (rest rest' : R c → Prop), (∀ r, rest r → rest' r) → ask c rest → ask c rest'

theorem Satisfies.bind {ask : (c : C) → (R c → Prop) → Prop} (hask : Upward ask) {p : Prog C R ε α}
    {f : α → Prog C R ε β} (hp : Satisfies ask p) (hf : ∀ a, Satisfies ask (f a)) :
    Satisfies ask (p >>= f) := by
  induction p with
  | ret a => exact hf a
  | fail e => trivial
  | call c next ih => exact hask c _ _ ih hp

theorem Satisfies.capture {ask : (c : C) → (R c → Prop) → Prop} (hask : Upward ask)
    {p : Prog C R ε α} (hp : Satisfies ask p) :
    Satisfies ask (capture p : Prog C R ε' (Except ε α)) := by
  induction p with
  | ret a => trivial
  | fail e => trivial
  | call c next ih => exact hask c _ _ ih hp

/-- What the admitted commands preserve, a program that issues no others preserves. -/
theorem run_invariant {I : σ → Prop} (hI : ∀ c s, P c → I s → I (handle c s).2)
    {p : Prog C R ε α} (hp : All P p) {s : σ} (hs : I s) : I (run handle p s).2 := by
  induction p generalizing s with
  | ret a => exact hs
  | fail e => exact hs
  | call c next ih => exact ih _ (hp.2 _) (hI c s hp.1 hs)

end Prog

open Prog

/-! ## Interleaved threads -/

/-- A shared state and the threads in progress. -/
structure Threads (σ κ : Type) (C : Type) (R : C → Type) (ε α : Type) where
  shared : σ
  thread : κ → Option (Prog C R ε α)

inductive Label (κ Q : Type)
  | start (i : κ) (request : Q)
  | step (i : κ)
  | finish (i : κ)

variable {κ Q : Type} [DecidableEq κ]

/-- Put thread `i` in a new state. -/
def Threads.setThread (s : Threads σ κ C R ε α) (i : κ) (p : Option (Prog C R ε α)) :
    Threads σ κ C R ε α :=
  { s with thread := Function.update s.thread i p }

theorem Threads.setThread_eq_some {s : Threads σ κ C R ε α} {i j : κ} {p : Option (Prog C R ε α)}
    {q : Prog C R ε α} (h : (s.setThread i p).thread j = some q) :
    j = i ∧ p = some q ∨ j ≠ i ∧ s.thread j = some q := by
  by_cases hj : j = i
  · subst hj
    exact .inl ⟨rfl, by simpa [setThread] using h⟩
  · exact .inr ⟨hj, by simpa [setThread, hj] using h⟩

theorem Threads.setThread_self {s : Threads σ κ C R ε α} {i : κ} {p : Option (Prog C R ε α)} :
    (s.setThread i p).thread i = p := by
  simp [setThread]

theorem Threads.setThread_of_ne {s : Threads σ κ C R ε α} {i j : κ} {p : Option (Prog C R ε α)}
    (h : j ≠ i) : (s.setThread i p).thread j = s.thread j := by
  simp [setThread, h]

/-- No request is in progress. -/
def Threads.Idle (s : Threads σ κ C R ε α) : Prop := ∀ i, s.thread i = none

/-- One event: a request starts on an idle thread, a thread performs its next command or
delivers its result. -/
def advance (handle : (c : C) → σ → R c × σ) (program : Q → Prog C R ε α)
    (s : Threads σ κ C R ε α) : Label κ Q → Option (Option (Except ε α) × Threads σ κ C R ε α)
  | .start i request =>
      match s.thread i with
      | none => some (none, s.setThread i (some (program request)))
      | some _ => none
  | .step i =>
      match s.thread i with
      | some (.call c next) =>
          some (none, ({ s with shared := (handle c s.shared).2 }).setThread i
            (some (next (handle c s.shared).1)))
      | _ => none
  | .finish i =>
      match s.thread i with
      | some (.ret a) => some (some (.ok a), s.setThread i none)
      | some (.fail e) => some (some (.error e), s.setThread i none)
      | _ => none

/-- The machine of all interleavings. -/
def interleaved (handle : (c : C) → σ → R c × σ) (program : Q → Prog C R ε α) :
    Machine (Threads σ κ C R ε α) (Label κ Q) (Option (Except ε α)) :=
  fun s l r t => advance handle program s l = some (r, t)

/-- What an event does: it starts a program, performs the head command of a thread, or
ends a thread that has no command left. -/
inductive Event (handle : (c : C) → σ → R c × σ) (program : Q → Prog C R ε α)
    (s : Threads σ κ C R ε α) : Label κ Q → Threads σ κ C R ε α → Prop
  | start (i : κ) (request : Q) : s.thread i = none →
      Event handle program s (.start i request) (s.setThread i (some (program request)))
  | step (i : κ) (c : C) (next : R c → Prog C R ε α) : s.thread i = some (.call c next) →
      Event handle program s (.step i)
        (({ s with shared := (handle c s.shared).2 }).setThread i
          (some (next (handle c s.shared).1)))
  | finish (i : κ) (p : Prog C R ε α) : s.thread i = some p → (∀ c next, p ≠ .call c next) →
      Event handle program s (.finish i) (s.setThread i none)

theorem interleaved_event {handle : (c : C) → σ → R c × σ} {program : Q → Prog C R ε α}
    {s t : Threads σ κ C R ε α} {l : Label κ Q} {r : Option (Except ε α)}
    (h : interleaved handle program s l r t) : Event handle program s l t := by
  unfold interleaved at h
  cases l with
  | start i request =>
    simp only [advance] at h
    split at h
    · cases h
      exact .start i request ‹_›
    · cases h
  | step i =>
    simp only [advance] at h
    split at h
    · cases h
      exact .step i _ _ ‹_›
    · cases h
  | finish i =>
    simp only [advance] at h
    split at h
    · cases h
      exact .finish i _ ‹_› (by simp)
    · cases h
      exact .finish i _ ‹_› (by simp)
    · cases h

/-- A result is delivered by a thread that has come to its end. -/
theorem interleaved_result {handle : (c : C) → σ → R c × σ} {program : Q → Prog C R ε α}
    {s t : Threads σ κ C R ε α} {l : Label κ Q} {a : α}
    (h : interleaved handle program s l (some (.ok a)) t) :
    ∃ i, l = .finish i ∧ s.thread i = some (.ret a) := by
  unfold interleaved at h
  cases l with
  | start i request | step i =>
    simp only [advance] at h
    split at h <;> cases h
  | finish i =>
    simp only [advance] at h
    split at h
    · cases h
      exact ⟨i, rfl, ‹_›⟩
    · cases h
    · cases h

/-- Follow a schedule as long as its events are possible. -/
def follow (handle : (c : C) → σ → R c × σ) (program : Q → Prog C R ε α)
    (s : Threads σ κ C R ε α) : List (Label κ Q) →
    Option (List (Label κ Q × Option (Except ε α)) × Threads σ κ C R ε α)
  | [] => some ([], s)
  | l :: ls =>
      match advance handle program s l with
      | none => none
      | some (r, t) => (follow handle program t ls).map fun rest => ((l, r) :: rest.1, rest.2)

theorem run_follow {handle : (c : C) → σ → R c × σ} {program : Q → Prog C R ε α}
    {s t : Threads σ κ C R ε α} {ls : List (Label κ Q)}
    {tr : List (Label κ Q × Option (Except ε α))}
    (h : follow handle program s ls = some (tr, t)) : Run (interleaved handle program) s tr t := by
  induction ls generalizing s tr with
  | nil =>
    cases h
    exact .nil _
  | cons l ls ih =>
    simp only [follow] at h
    split at h
    · cases h
    · obtain ⟨rest, hrest, heq⟩ := Option.map_eq_some_iff.mp h
      cases heq
      exact .cons ‹_› (ih hrest)

theorem map_fst_follow {handle : (c : C) → σ → R c × σ} {program : Q → Prog C R ε α}
    {s t : Threads σ κ C R ε α} {ls : List (Label κ Q)}
    {tr : List (Label κ Q × Option (Except ε α))}
    (h : follow handle program s ls = some (tr, t)) : tr.map Prod.fst = ls := by
  induction ls generalizing s tr with
  | nil =>
    cases h
    rfl
  | cons l ls ih =>
    simp only [follow] at h
    split at h
    · cases h
    · obtain ⟨rest, hrest, heq⟩ := Option.map_eq_some_iff.mp h
      cases heq
      exact congrArg _ (ih hrest)

/-- What holds of the labels of a schedule holds of those of the run. -/
theorem forall_follow {handle : (c : C) → σ → R c × σ} {program : Q → Prog C R ε α}
    {s t : Threads σ κ C R ε α} {ls : List (Label κ Q)}
    {tr : List (Label κ Q × Option (Except ε α))} {P : Label κ Q → Prop}
    (h : follow handle program s ls = some (tr, t)) (hls : ∀ l ∈ ls, P l) : ∀ e ∈ tr, P e.1 := by
  intro e he
  refine hls e.1 ?_
  rw [← map_fst_follow h]
  exact List.mem_map_of_mem he

/-- The state that a schedule leads to. -/
def reached (handle : (c : C) → σ → R c × σ) (program : Q → Prog C R ε α)
    (s : Threads σ κ C R ε α) (ls : List (Label κ Q)) : Threads σ κ C R ε α :=
  ((follow handle program s ls).map Prod.snd).getD s

theorem exists_follow_reached {handle : (c : C) → σ → R c × σ} {program : Q → Prog C R ε α}
    {s : Threads σ κ C R ε α} {ls : List (Label κ Q)}
    (h : (follow handle program s ls).isSome = true) :
    ∃ tr, follow handle program s ls = some (tr, reached handle program s ls) := by
  obtain ⟨⟨tr, t⟩, ht⟩ := Option.isSome_iff_exists.mp h
  refine ⟨tr, ?_⟩
  rw [reached, ht]
  rfl

/-- A run that follows a schedule is determined by it. -/
theorem follow_of_run {handle : (c : C) → σ → R c × σ} {program : Q → Prog C R ε α}
    {s t : Threads σ κ C R ε α} {tr : List (Label κ Q × Option (Except ε α))}
    (h : Run (interleaved handle program) s tr t) :
    follow handle program s (tr.map Prod.fst) = some (tr, t) := by
  induction h with
  | nil s => rfl
  | cons hstep _ ih =>
    have hadvance : advance handle program _ _ = some (_, _) := hstep
    simp only [List.map_cons, follow, hadvance, ih, Option.map_some]

/-- What holds after every part of a schedule holds throughout the run that follows it. -/
theorem throughout_follow {handle : (c : C) → σ → R c × σ} {program : Q → Prog C R ε α}
    {s t : Threads σ κ C R ε α} {ls : List (Label κ Q)}
    {tr : List (Label κ Q × Option (Except ε α))} {P : Threads σ κ C R ε α → Prop}
    (h : follow handle program s ls = some (tr, t))
    (hall : ∀ ls' ∈ ls.inits, ∀ r, follow handle program s ls' = some r → P r.2) :
    Throughout (interleaved handle program) s tr P := by
  intro tr' t' hpre hrun
  refine hall (tr'.map Prod.fst) ?_ _ (follow_of_run hrun)
  rw [List.mem_inits, ← map_fst_follow h]
  exact hpre.map Prod.fst

/-- A thread can always be brought to its end. -/
theorem exists_run_finish (handle : (c : C) → σ → R c × σ) (program : Q → Prog C R ε α)
    {s : Threads σ κ C R ε α} {i : κ} {p : Prog C R ε α} (h : s.thread i = some p) :
    ∃ tr t, Run (interleaved handle program) s tr t ∧ t.thread i = none ∧
      ∀ e ∈ tr, e.1 = .step i ∨ e.1 = .finish i := by
  induction p generalizing s with
  | ret a =>
    refine ⟨[(.finish i, some (.ok a))], s.setThread i none, .cons ?_ (.nil _),
      Threads.setThread_self, by simp⟩
    simp [interleaved, advance, h]
  | fail e =>
    refine ⟨[(.finish i, some (.error e))], s.setThread i none, .cons ?_ (.nil _),
      Threads.setThread_self, by simp⟩
    simp [interleaved, advance, h]
  | call c next ih =>
    obtain ⟨tr, t, hrun, hend, hlabels⟩ := ih (handle c s.shared).1
      (Threads.setThread_self (s := { s with shared := (handle c s.shared).2 }) (i := i))
    refine ⟨(.step i, none) :: tr, t, .cons ?_ hrun, hend, ?_⟩
    · simp [interleaved, advance, h]
    · intro e he
      rcases List.mem_cons.mp he with rfl | he
      · exact .inl rfl
      · exact hlabels e he

end Deckard.Program
