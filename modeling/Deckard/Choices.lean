import Deckard.Program

/-!
# Programs whose commands have several outcomes

A command may be answered in more than one way. `Reaches` is a run with the answers that
were given; `Always` is the weakest condition under which every run ends as required. A
fact about programs is shown with the rules for `Always` and carried over to the runs.
-/
namespace Deckard.Program.Prog

variable {C : Type} {R : C → Type} {ε ε' α β σ : Type}

/-- The commands of a run with their answers. -/
abbrev Log (R : C → Type) := List (Σ c, R c)

/-- The program ends with an outcome in a state after some answers. -/
inductive Reaches (H : (c : C) → σ → R c → σ → Prop) :
    Prog C R ε α → σ → Log R → Except ε α → σ → Prop
  | ret (a : α) (s : σ) : Reaches H (.ret a) s [] (.ok a) s
  | fail (e : ε) (s : σ) : Reaches H (.fail e) s [] (.error e) s
  | call {c : C} {next : R c → Prog C R ε α} {s t u : σ} {r : R c} {log : Log R}
      {out : Except ε α} : H c s r t → Reaches H (next r) t log out u →
      Reaches H (.call c next) s (⟨c, r⟩ :: log) out u

/-- The answers where the commands are handled by a function. -/
def log (handle : (c : C) → σ → R c × σ) : Prog C R ε α → σ → Log R
  | .ret _, _ => []
  | .fail _, _ => []
  | .call c next, s =>
      ⟨c, (handle c s).1⟩ :: log handle (next (handle c s).1) (handle c s).2

theorem reaches_log {H : (c : C) → σ → R c → σ → Prop} {handle : (c : C) → σ → R c × σ}
    (hH : ∀ c s, H c s (handle c s).1 (handle c s).2) (p : Prog C R ε α) (s : σ) :
    Reaches H p s (log handle p s) (run handle p s).1 (run handle p s).2 := by
  induction p generalizing s with
  | ret a => exact .ret a s
  | fail e => exact .fail e s
  | call c next ih => exact .call (hH c s) (ih _ _)

/-- Whatever the answers, the outcome is as required. `log` holds the answers so far. -/
def Always (H : (c : C) → σ → R c → σ → Prop) (post : Log R → Except ε α → σ → Prop) :
    Log R → Prog C R ε α → σ → Prop
  | log, .ret a, s => post log (.ok a) s
  | log, .fail e, s => post log (.error e) s
  | log, .call c next, s => ∀ r t, H c s r t → Always H post (log ++ [⟨c, r⟩]) (next r) t

variable {H : (c : C) → σ → R c → σ → Prop}

theorem Always.reaches {post : Log R → Except ε α → σ → Prop} {log log' : Log R}
    {p : Prog C R ε α} {s t : σ} {out : Except ε α} (h : Always H post log p s)
    (hrun : Reaches H p s log' out t) : post (log ++ log') out t := by
  induction hrun generalizing log with
  | ret a s | fail e s =>
    rw [List.append_nil]
    exact h
  | call hc _ ih =>
    rw [List.append_cons]
    exact ih (h _ _ hc)

/-- A sequence is followed from its first part into its second. -/
theorem Always.bind {post : Log R → Except ε β → σ → Prop} {mid : Log R → Except ε α → σ → Prop}
    {p : Prog C R ε α} {f : α → Prog C R ε β} {log : Log R} {s : σ} (h : Always H mid log p s)
    (hok : ∀ log a t, mid log (.ok a) t → Always H post log (f a) t)
    (herror : ∀ log e t, mid log (.error e) t → post log (.error e) t) :
    Always H post log (p >>= f) s := by
  induction p generalizing log s with
  | ret a => exact hok _ a s h
  | fail e => exact herror _ e s h
  | call c next ih => exact fun r t hc => ih r (h r t hc)

/-- What follows a captured program sees its error. -/
theorem Always.capture_bind {post : Log R → Except ε' β → σ → Prop}
    {mid : Log R → Except ε α → σ → Prop} {p : Prog C R ε α} {f : Except ε α → Prog C R ε' β}
    {log : Log R} {s : σ} (h : Always H mid log p s)
    (hnext : ∀ log out t, mid log out t → Always H post log (f out) t) :
    Always H post log (capture p >>= f) s := by
  induction p generalizing log s with
  | ret a => exact hnext _ _ _ h
  | fail e => exact hnext _ _ _ h
  | call c next ih => exact fun r t hc => ih r (h r t hc)

/-- What the admitted commands preserve holds at the end of a program without others. -/
theorem always_invariant {P : C → Prop} {I : Log R → σ → Prop}
    (hI : ∀ c s r t log, P c → H c s r t → I log s → I (log ++ [⟨c, r⟩]) t) {p : Prog C R ε α}
    (hp : All P p) {log : Log R} {s : σ} (hs : I log s) :
    Always H (fun log _ s => I log s) log p s := by
  induction p generalizing log s with
  | ret a => exact hs
  | fail e => exact hs
  | call c next ih => exact fun r t hc => ih r (hp.2 r) (hI c s r t log hp.1 hc hs)

end Deckard.Program.Prog
