import Mathlib.Tactic

/-!
# Failing computations that keep their effects

A computation over a mutable state returns a value or an error and, in both
cases, the state it has reached: an abort undoes nothing. `exec` runs one. The
lemmas below evaluate the building blocks, so that a program is reasoned about
through its run and never through the monad transformers it is written in.
-/
namespace Deckard.Effect

variable {σ τ ε ε' α β : Type}

abbrev Eff (σ ε α : Type) := ExceptT ε (StateM σ) α

/-- Run a computation; the state survives an error. -/
def exec (x : Eff σ ε α) (s : σ) : Except ε α × σ := x s

/-- Outcome of a step followed by a continuation. -/
def andThen (r : Except ε α × σ) (f : α → Eff σ ε β) : Except ε β × σ :=
  match r with
  | (.ok a, t) => exec (f a) t
  | (.error e, t) => (.error e, t)

@[simp] theorem andThen_ok (a : α) (t : σ) (f : α → Eff σ ε β) :
    andThen (.ok a, t) f = exec (f a) t := rfl

@[simp] theorem andThen_error (e : ε) (t : σ) (f : α → Eff σ ε β) :
    andThen (.error e, t) f = (.error e, t) := rfl

@[simp] theorem exec_pure (a : α) (s : σ) : exec (pure a : Eff σ ε α) s = (.ok a, s) := rfl

@[simp] theorem exec_throw (e : ε) (s : σ) :
    exec (throw e : Eff σ ε α) s = (.error e, s) := rfl

@[simp] theorem exec_bind (x : Eff σ ε α) (f : α → Eff σ ε β) (s : σ) :
    exec (x >>= f) s = andThen (exec x s) f := by
  simp only [exec, bind, ExceptT.bind, ExceptT.mk, StateT.bind]
  rcases x s with ⟨_ | a, t⟩ <;> rfl

@[simp] theorem exec_map (f : α → β) (x : Eff σ ε α) (s : σ) :
    exec (f <$> x) s = ((exec x s).1.map f, (exec x s).2) := by
  rw [map_eq_pure_bind, exec_bind]
  rcases hx : exec x s with ⟨_ | a, t⟩ <;> rfl

@[simp] theorem exec_ite (c : Prop) [Decidable c] (x y : Eff σ ε α) (s : σ) :
    exec (if c then x else y) s = if c then exec x s else exec y s := apply_ite (exec · s) c x y

/-- Read the state. -/
def gets (f : σ → α) : Eff σ ε α := fun s => (.ok (f s), s)

/-- Return a value and change the state. -/
def update (f : σ → α × σ) : Eff σ ε α := fun s => (.ok (f s).1, (f s).2)

@[simp] theorem exec_gets (f : σ → α) (s : σ) :
    exec (gets f : Eff σ ε α) s = (.ok (f s), s) := rfl

@[simp] theorem exec_update (f : σ → α × σ) (s : σ) :
    exec (update f : Eff σ ε α) s = (.ok (f s).1, (f s).2) := rfl

/-- Give every error of a computation a context. -/
def wrap (f : ε → ε') (x : Eff σ ε α) : Eff σ ε' α := fun s =>
  match exec x s with
  | (.ok a, t) => (.ok a, t)
  | (.error e, t) => (.error (f e), t)

theorem exec_wrap_ok {f : ε → ε'} {x : Eff σ ε α} {s t : σ} {a : α}
    (h : exec x s = (.ok a, t)) : exec (wrap f x) s = (.ok a, t) := by
  change (match exec x s with | (.ok a, t) => _ | (.error e, t) => _) = _
  rw [h]

theorem exec_wrap_error {f : ε → ε'} {x : Eff σ ε α} {s t : σ} {e : ε}
    (h : exec x s = (.error e, t)) : exec (wrap f x) s = (.error (f e), t) := by
  change (match exec x s with | (.ok a, t) => _ | (.error e, t) => _) = _
  rw [h]

theorem exec_wrap (f : ε → ε') (x : Eff σ ε α) (s : σ) :
    exec (wrap f x) s = ((exec x s).1.mapError f, (exec x s).2) := by
  rcases hrun : exec x s with ⟨_ | a, t⟩
  · exact exec_wrap_error hrun
  · exact exec_wrap_ok hrun

/-- Run a computation and hand its error on as a value. -/
def attempt (x : Eff σ ε α) : Eff σ ε' (Except ε α) := fun s => (.ok (exec x s).1, (exec x s).2)

@[simp] theorem exec_attempt (x : Eff σ ε α) (s : σ) :
    exec (attempt x : Eff σ ε' (Except ε α)) s = (.ok (exec x s).1, (exec x s).2) := rfl

/-- Run a computation on a component of a larger state. -/
def zoom (get : τ → σ) (set : σ → τ → τ) (x : Eff σ ε α) : Eff τ ε α := fun t =>
  ((exec x (get t)).1, set (exec x (get t)).2 t)

@[simp] theorem exec_zoom (get : τ → σ) (set : σ → τ → τ) (x : Eff σ ε α) (t : τ) :
    exec (zoom get set x) t = ((exec x (get t)).1, set (exec x (get t)).2 t) := rfl

/-- A loop whose body only updates the state folds the update. -/
theorem exec_forM {xs : List α} {f : α → Eff σ ε PUnit} {g : σ → α → σ}
    (h : ∀ x ∈ xs, ∀ s, exec (f x) s = (.ok ⟨⟩, g s x)) (s : σ) :
    exec (forM xs f) s = (.ok ⟨⟩, xs.foldl g s) := by
  induction xs generalizing s with
  | nil => rfl
  | cons x xs ih =>
    rw [List.forM_cons, exec_bind, h x List.mem_cons_self, andThen_ok,
      ih fun y hy => h y (List.mem_cons_of_mem _ hy), List.foldl_cons]

/-- Filtering by a test that only reads the state. -/
theorem exec_filterM {xs : List α} {p : α → Eff σ ε Bool} {q : α → Bool} {s : σ}
    (h : ∀ x, exec (p x) s = (.ok (q x), s)) :
    exec (xs.filterM p) s = (.ok (xs.filter q), s) := by
  suffices haux : ∀ acc, exec (List.filterAuxM p xs acc) s =
      (.ok ((xs.filter q).reverse ++ acc), s) by
    rw [List.filterM, exec_bind, haux, andThen_ok, exec_pure]
    simp
  induction xs with
  | nil => intro acc; rfl
  | cons x xs ih =>
    intro acc
    rw [List.filterAuxM, exec_bind, h, andThen_ok, ih]
    cases hq : q x <;> simp [hq]

/-- Short-circuiting search with a test that only reads the state. -/
theorem exec_anyM {xs : List α} {p : α → Eff σ ε Bool} {q : α → Bool} {s : σ}
    (h : ∀ x, exec (p x) s = (.ok (q x), s)) :
    exec (xs.anyM p) s = (.ok (xs.any q), s) := by
  induction xs with
  | nil => rfl
  | cons x xs ih =>
    rw [List.anyM_cons, exec_bind, h, andThen_ok]
    cases hq : q x <;> simp [hq, ih]

/-- Mapping a function that only reads the state. -/
theorem exec_mapM {xs : List α} {f : α → Eff σ ε β} {g : α → β} {s : σ}
    (h : ∀ x, exec (f x) s = (.ok (g x), s)) :
    exec (xs.mapM f) s = (.ok (xs.map g), s) := by
  induction xs with
  | nil => rfl
  | cons x xs ih =>
    rw [List.mapM_cons, exec_bind, h, andThen_ok, exec_bind, ih, andThen_ok, exec_pure,
      List.map_cons]

/-- A loop that hands the errors of its calls on makes every call. -/
theorem exec_mapM_attempt (xs : List α) (x : α → Eff σ ε β) (tag : α → τ) (s : σ) :
    ∃ results, exec (xs.mapM fun a => do
        let result ← attempt (x a)
        return (tag a, result)) s =
      ((.ok results, xs.foldl (fun t a => (exec (x a) t).2) s) :
        Except ε' (List (τ × Except ε β)) × σ) := by
  induction xs generalizing s with
  | nil => exact ⟨[], rfl⟩
  | cons a xs ih =>
    obtain ⟨results, hrest⟩ := ih (exec (x a) s).2
    refine ⟨(tag a, (exec (x a) s).1) :: results, ?_⟩
    rw [List.mapM_cons, exec_bind, exec_bind, exec_attempt, andThen_ok, exec_pure, andThen_ok,
      exec_bind, hrest, andThen_ok, exec_pure, List.foldl_cons]

theorem exec_bind_invariant {I : σ → Prop} {x : Eff σ ε α} {f : α → Eff σ ε β} {s : σ}
    (hx : I (exec x s).2) (hf : ∀ a t, I t → I (exec (f a) t).2) : I (exec (x >>= f) s).2 := by
  rw [exec_bind]
  generalize exec x s = r at hx ⊢
  obtain ⟨_ | a, t⟩ := r
  · exact hx
  · exact hf a t hx

/-- What every body of a loop preserves, the loop preserves. -/
theorem exec_mapM_invariant {I : σ → Prop} {xs : List α} {f : α → Eff σ ε β}
    (h : ∀ x ∈ xs, ∀ s, I s → I (exec (f x) s).2) {s : σ} (hs : I s) :
    I (exec (xs.mapM f) s).2 := by
  induction xs generalizing s with
  | nil => exact hs
  | cons x xs ih =>
    rw [List.mapM_cons]
    refine exec_bind_invariant (h x List.mem_cons_self s hs) fun _ t ht => ?_
    exact exec_bind_invariant (ih (fun y hy => h y (List.mem_cons_of_mem _ hy)) ht) fun _ _ hu => hu

/-! ## Simulation -/

section Simulation

variable {R : σ → τ → Prop} {f : ε → ε'}

/-- From related states, one computation gives what another one gives, with the errors that `f`
makes of the errors of the other, and ends in related states. -/
def Simulates (R : σ → τ → Prop) (f : ε → ε') (x : Eff σ ε' α) (y : Eff τ ε α) : Prop :=
  ∀ s t, R s t → (exec x s).1 = (exec y t).1.mapError f ∧ R (exec x s).2 (exec y t).2

theorem simulates_pure (a : α) :
    Simulates R f (pure a : Eff σ ε' α) (pure a : Eff τ ε α) :=
  fun _ _ h => ⟨rfl, h⟩

theorem simulates_throw {e : ε} {e' : ε'} (he : f e = e') :
    Simulates R f (throw e' : Eff σ ε' α) (throw e : Eff τ ε α) :=
  fun _ _ h => ⟨congrArg Except.error he.symm, h⟩

theorem Simulates.bind {x : Eff σ ε' α} {y : Eff τ ε α} {g : α → Eff σ ε' β}
    {k : α → Eff τ ε β} (hx : Simulates R f x y) (hg : ∀ a, Simulates R f (g a) (k a)) :
    Simulates R f (x >>= g) (y >>= k) := by
  intro s t h
  obtain ⟨hr, ht⟩ := hx s t h
  rw [exec_bind, exec_bind]
  generalize exec x s = u at hr ht ⊢
  generalize exec y t = v at hr ht ⊢
  obtain ⟨r, s'⟩ := u
  obtain ⟨r', t'⟩ := v
  cases hr
  cases r' with
  | error e => exact ⟨rfl, ht⟩
  | ok a => exact hg a s' t' ht

theorem Simulates.map {x : Eff σ ε' α} {y : Eff τ ε α} (hx : Simulates R f x y) (g : α → β) :
    Simulates R f (g <$> x) (g <$> y) := by
  rw [map_eq_pure_bind, map_eq_pure_bind]
  exact hx.bind fun a => simulates_pure (g a)

theorem simulates_ite {c : Prop} [Decidable c] {x x' : Eff σ ε' α} {y y' : Eff τ ε α}
    (hx : c → Simulates R f x y) (hx' : ¬ c → Simulates R f x' y') :
    Simulates R f (if c then x else x') (if c then y else y') := by
  split_ifs with hc
  · exact hx hc
  · exact hx' hc

theorem simulates_mapM {xs : List α} {g : α → Eff σ ε' β} {k : α → Eff τ ε β}
    (hg : ∀ a ∈ xs, Simulates R f (g a) (k a)) : Simulates R f (xs.mapM g) (xs.mapM k) := by
  induction xs with
  | nil => exact simulates_pure []
  | cons a xs ih =>
    rw [List.mapM_cons, List.mapM_cons]
    refine (hg a List.mem_cons_self).bind fun b => ?_
    exact (ih fun a' ha => hg a' (List.mem_cons_of_mem _ ha)).bind fun bs => simulates_pure _

/-- Contexts may be given on both sides if they fit together. -/
theorem Simulates.wrap {δ δ' : Type} {x : Eff σ ε' α} {y : Eff τ ε α} (hx : Simulates R f x y)
    {g : ε' → δ'} {k : ε → δ} {f' : δ → δ'} (hfit : ∀ e, g (f e) = f' (k e)) :
    Simulates R f' (wrap g x) (wrap k y) := by
  intro s t h
  obtain ⟨hr, ht⟩ := hx s t h
  rw [exec_wrap, exec_wrap, hr]
  refine ⟨?_, ht⟩
  cases (exec y t).1 with
  | error e => exact congrArg Except.error (hfit e)
  | ok a => rfl

/-- Without a change of errors the outcomes are the same. -/
theorem simulates_id_iff {R : σ → τ → Prop} {x : Eff σ ε α} {y : Eff τ ε α} :
    Simulates R id x y ↔
      ∀ s t, R s t → (exec x s).1 = (exec y t).1 ∧ R (exec x s).2 (exec y t).2 := by
  have hid : ∀ r : Except ε α, r.mapError id = r := by
    intro r
    cases r <;> rfl
  simp only [Simulates, hid]

end Simulation

end Deckard.Effect
