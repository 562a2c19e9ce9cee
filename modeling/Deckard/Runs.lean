import Mathlib.Tactic

/-!
# Runs of a labelled machine

A machine relates a state, a label, the result the label gets and the next state.
A label carries what the outside decides; what the runtime decides is left to the
relation. A run lists its labels with their results. What one step preserves, a run
preserves.
-/
namespace Deckard.Runs

abbrev Machine (σ L R : Type*) := σ → L → R → σ → Prop

variable {σ L R : Type*} {M : Machine σ L R}

inductive Run (M : Machine σ L R) : σ → List (L × R) → σ → Prop
  | nil (s : σ) : Run M s [] s
  | cons {s t u : σ} {l : L} {r : R} {tr : List (L × R)} :
      M s l r t → Run M t tr u → Run M s ((l, r) :: tr) u

@[simp] theorem run_nil {s t : σ} : Run M s [] t ↔ t = s := by
  constructor
  · intro h
    cases h
    rfl
  · rintro rfl
    exact .nil t

theorem run_cons {s u : σ} {e : L × R} {tr : List (L × R)} :
    Run M s (e :: tr) u ↔ ∃ t, M s e.1 e.2 t ∧ Run M t tr u := by
  constructor
  · intro h
    cases h with
    | cons hstep hrest => exact ⟨_, hstep, hrest⟩
  · rintro ⟨t, hstep, hrest⟩
    exact .cons hstep hrest

theorem run_append {s u : σ} {tr tr' : List (L × R)} :
    Run M s (tr ++ tr') u ↔ ∃ t, Run M s tr t ∧ Run M t tr' u := by
  induction tr generalizing s with
  | nil => simp
  | cons e tr ih =>
    simp only [List.cons_append, run_cons, ih]
    constructor
    · rintro ⟨v, hv, t, ht, hu⟩
      exact ⟨t, ⟨v, hv, ht⟩, hu⟩
    · rintro ⟨t, ⟨v, hv, ht⟩, hu⟩
      exact ⟨v, hv, t, ht, hu⟩

/-- A run of one machine is a run of another that makes the same admitted steps. -/
theorem Run.mono {M' : Machine σ L R} {ok : L → Prop}
    (hstep : ∀ s l r t, M s l r t → ok l → M' s l r t) {s t : σ} {tr : List (L × R)}
    (h : Run M s tr t) (hok : ∀ e ∈ tr, ok e.1) : Run M' s tr t := by
  induction h with
  | nil s => exact .nil s
  | cons hs _ ih =>
    exact .cons (hstep _ _ _ _ hs (hok _ List.mem_cons_self))
      (ih fun e hm => hok e (List.mem_cons_of_mem _ hm))

theorem Run.imp {M' : Machine σ L R} (hstep : ∀ s l r t, M s l r t → M' s l r t) {s t : σ}
    {tr : List (L × R)} (h : Run M s tr t) : Run M' s tr t := by
  induction h with
  | nil s => exact .nil s
  | cons hs _ ih => exact .cons (hstep _ _ _ _ hs) ih

/-- What every admitted step preserves holds at the end of a run. -/
theorem Run.invariant {I : σ → Prop} {ok : L → Prop}
    (hstep : ∀ s l r t, M s l r t → ok l → I s → I t) {s t : σ} {tr : List (L × R)}
    (h : Run M s tr t) (hok : ∀ e ∈ tr, ok e.1) (h0 : I s) : I t := by
  induction h with
  | nil s => exact h0
  | cons hs _ ih =>
    exact ih (fun e hm => hok e (List.mem_cons_of_mem _ hm))
      (hstep _ _ _ _ hs (hok _ List.mem_cons_self) h0)

/-- Where each step pays its cost from the potential and what it gains, a run does. -/
theorem Run.potential {I : σ → Prop} (ok : L × R → Prop) (φ : σ → ℕ) (cost gain : L × R → ℕ)
    (hstep : ∀ s l r t, M s l r t → ok (l, r) → I s →
      I t ∧ φ t + cost (l, r) ≤ φ s + gain (l, r))
    {s t : σ} {tr : List (L × R)} (h : Run M s tr t) (hok : ∀ e ∈ tr, ok e) (h0 : I s) :
    I t ∧ φ t + (tr.map cost).sum ≤ φ s + (tr.map gain).sum := by
  induction h with
  | nil s => exact ⟨h0, le_rfl⟩
  | cons hs _ ih =>
    obtain ⟨he, hok⟩ := List.forall_mem_cons.mp hok
    obtain ⟨hI, hle⟩ := hstep _ _ _ _ hs he h0
    obtain ⟨hend, hrest⟩ := ih hok hI
    refine ⟨hend, ?_⟩
    simp only [List.map_cons, List.sum_cons]
    omega

/-- A fact about the trace so far and the state reached, established step by step along a
run. -/
theorem Run.along {Q : List (L × R) → σ → Prop} {s t : σ} {tr : List (L × R)}
    (h : Run M s tr t) (hnil : Q [] s)
    (hsnoc : ∀ tr' t l r u, tr' ++ [(l, r)] <+: tr → Run M s tr' t → M t l r u → Q tr' t →
      Q (tr' ++ [(l, r)]) u) : Q tr t := by
  induction tr using List.reverseRecOn generalizing t with
  | nil =>
    rw [run_nil] at h
    exact h ▸ hnil
  | append_singleton tr e ih =>
    obtain ⟨u, hu, hlast⟩ := run_append.mp h
    obtain ⟨v, hv, hnil'⟩ := run_cons.mp hlast
    rw [run_nil] at hnil'
    subst hnil'
    refine hsnoc tr u e.1 e.2 t (List.prefix_refl _) hu hv (ih hu ?_)
    intro tr' t' l r u' hpre
    exact hsnoc tr' t' l r u' (hpre.trans (List.prefix_append _ _))

/-- The same where only the labels of the run matter. -/
theorem Run.history {Q : List (L × R) → σ → Prop} {ok : L → Prop} {s t : σ}
    {tr : List (L × R)} (h : Run M s tr t) (hok : ∀ e ∈ tr, ok e.1) (hnil : Q [] s)
    (hsnoc : ∀ tr t l r u, M t l r u → ok l → Q tr t → Q (tr ++ [(l, r)]) u) : Q tr t := by
  refine h.along hnil fun tr' t l r u hpre _ hstep hQ => hsnoc tr' t l r u hstep ?_ hQ
  exact hok (l, r) (hpre.subset (by simp))

/-- A fact holds in every state that a run passes through. -/
def Throughout (M : Machine σ L R) (s : σ) (tr : List (L × R)) (Q : σ → Prop) : Prop :=
  ∀ tr' t, tr' <+: tr → Run M s tr' t → Q t

/-- The machine of a step function. -/
def ofStep (step : σ → L → R × σ) : Machine σ L R := fun s l r t => step s l = (r, t)

theorem ofStep_of_fst {step : σ → L → R × σ} {s : σ} {l : L} {r : R} (h : (step s l).1 = r) :
    ofStep step s l r (step s l).2 :=
  Prod.ext h rfl

/-- Answer a list of labels with a step function. -/
def play (step : σ → L → R × σ) (s : σ) : List L → List (L × R) × σ
  | [] => ([], s)
  | l :: ls =>
      let rest := play step (step s l).2 ls
      ((l, (step s l).1) :: rest.1, rest.2)

theorem run_play (step : σ → L → R × σ) (s : σ) (ls : List L) :
    Run (ofStep step) s (play step s ls).1 (play step s ls).2 := by
  induction ls generalizing s with
  | nil => exact .nil s
  | cons l ls ih => exact .cons rfl (ih _)

theorem forall_mem_play {Q : L → Prop} (step : σ → L → R × σ) (s : σ) {ls : List L}
    (h : ∀ l ∈ ls, Q l) : ∀ e ∈ (play step s ls).1, Q e.1 := by
  induction ls generalizing s with
  | nil => simp [play]
  | cons l ls ih =>
    intro e he
    rcases List.mem_cons.mp he with rfl | he
    · exact h l List.mem_cons_self
    · exact ih _ (fun l' hl => h l' (List.mem_cons_of_mem _ hl)) e he

/-- Two step functions agree on every part of a list of labels, seen through a view of the
states, if and only if they agree on every step. -/
theorem play_view_iff {τ : Type*} {view : σ → τ} {step : σ → L → R × σ} {step' : τ → L → R × τ}
    {s : σ} {ls : List L} :
    (∀ ls', ls' <+: ls → (play step s ls').map id view = play step' (view s) ls') ↔
      ∀ ls' l, ls' ++ [l] <+: ls →
        (step (play step s ls').2 l).map id view = step' (view (play step s ls').2) l := by
  induction ls generalizing s with
  | nil =>
    refine iff_of_true (fun ls' h => ?_) fun ls' l h => ?_
    · rw [List.prefix_nil.mp h]
      rfl
    · exact absurd (List.prefix_nil.mp h) (by simp)
  | cons l ls ih =>
    have hplay : ∀ ls', (step s l).map id view = step' (view s) l →
        ((play step s (l :: ls')).map id view = play step' (view s) (l :: ls') ↔
          (play step (step s l).2 ls').map id view = play step' (view (step s l).2) ls') := by
      intro ls' h
      simp only [play, ← h, Prod.map, Prod.ext_iff, List.cons.injEq, true_and, id]
    constructor
    · intro h ls' l' hpre
      have hstep : (step s l).map id view = step' (view s) l := by
        have hone := h [l] (by simp)
        simpa [play, Prod.ext_iff] using hone
      cases ls' with
      | nil =>
        cases (List.cons_prefix_cons.mp hpre).1
        exact hstep
      | cons a ls' =>
        rw [List.cons_append, List.cons_prefix_cons] at hpre
        obtain ⟨rfl, hpre⟩ := hpre
        refine ih.mp (fun ls'' hls'' => (hplay ls'' hstep).mp ?_) ls' l' hpre
        exact h _ (List.cons_prefix_cons.mpr ⟨rfl, hls''⟩)
    · intro h ls' hpre
      have hstep : (step s l).map id view = step' (view s) l := h [] l (by simp)
      cases ls' with
      | nil => rfl
      | cons a ls' =>
        rw [List.cons_prefix_cons] at hpre
        obtain ⟨rfl, hpre⟩ := hpre
        refine (hplay ls' hstep).mpr (ih.mpr (fun ls'' l' hls'' => ?_) ls' hpre)
        exact h (a :: ls'') l' (List.cons_prefix_cons.mpr ⟨rfl, hls''⟩)

/-- The machine of a step function that may have no step. -/
def ofPartial (step : σ → L → Option (R × σ)) : Machine σ L R := fun s l r t =>
  step s l = some (r, t)

/-- Answer a list of labels with such a function, if each has a step. -/
def replay (step : σ → L → Option (R × σ)) (s : σ) : List L → Option (List (L × R) × σ)
  | [] => some ([], s)
  | l :: ls => (step s l).bind fun r =>
      (replay step r.2 ls).map fun rest => ((l, r.1) :: rest.1, rest.2)

theorem run_replay {step : σ → L → Option (R × σ)} {s t : σ} {ls : List L} {tr : List (L × R)}
    (h : replay step s ls = some (tr, t)) : Run (ofPartial step) s tr t := by
  induction ls generalizing s tr with
  | nil =>
    cases h
    exact .nil _
  | cons l ls ih =>
    obtain ⟨r, hr, hrest⟩ := Option.bind_eq_some_iff.mp h
    obtain ⟨rest, hplayed, heq⟩ := Option.map_eq_some_iff.mp hrest
    cases heq
    exact .cons hr (ih hplayed)

theorem map_fst_replay {step : σ → L → Option (R × σ)} {s t : σ} {ls : List L}
    {tr : List (L × R)} (h : replay step s ls = some (tr, t)) : tr.map Prod.fst = ls := by
  induction ls generalizing s tr with
  | nil =>
    cases h
    rfl
  | cons l ls ih =>
    obtain ⟨r, -, hrest⟩ := Option.bind_eq_some_iff.mp h
    obtain ⟨rest, hplayed, heq⟩ := Option.map_eq_some_iff.mp hrest
    cases heq
    exact congrArg _ (ih hplayed)

/-- Somewhere in the list an element with `P` is followed by one with `Q`. -/
def Followed {α : Type*} (P Q : α → Prop) (xs : List α) : Prop :=
  ∃ front a back, xs = front ++ a :: back ∧ P a ∧ ∃ b ∈ back, Q b

theorem Followed.append {α : Type*} {P Q : α → Prop} {xs : List α} (h : Followed P Q xs)
    (ys : List α) : Followed P Q (xs ++ ys) := by
  obtain ⟨front, a, back, rfl, ha, b, hb, hq⟩ := h
  exact ⟨front, a, back ++ ys, by simp, ha, b, List.mem_append_left _ hb, hq⟩

theorem followed_snoc {α : Type*} {P Q : α → Prop} {xs : List α} {b : α}
    (hP : ∃ a ∈ xs, P a) (hQ : Q b) : Followed P Q (xs ++ [b]) := by
  obtain ⟨a, ha, hPa⟩ := hP
  obtain ⟨front, back, rfl⟩ := List.append_of_mem ha
  exact ⟨front, a, back ++ [b], by simp, hPa, b, by simp, hQ⟩

end Deckard.Runs
