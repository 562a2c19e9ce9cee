import Deckard.Effect
import Mathlib.Data.Set.Basic

/-!
# Footprint of a computation

A state has components, seen through `view`. A computation stays within a set of
components when it leaves the others as they are and when its outcome depends on no
others. The rules follow the way computations are put together.
-/
namespace Deckard.Effect

variable {σ κ ρ ε ε' α β : Type} {view : σ → κ → ρ} {A : Set κ}

/-- Two states are the same as far as the components go. -/
def Agree (view : σ → κ → ρ) (A : Set κ) (s t : σ) : Prop := ∀ k ∈ A, view s k = view t k

/-- The computation reads and writes no other components. -/
structure Within (view : σ → κ → ρ) (A : Set κ) (x : Eff σ ε α) : Prop where
  reads : ∀ s t, Agree view A s t → (exec x s).1 = (exec x t).1
  agree : ∀ s t, Agree view A s t → Agree view A (exec x s).2 (exec x t).2
  writes : ∀ s k, k ∉ A → view (exec x s).2 k = view s k

/-- Two states that agree on the components and have the others as at the start. -/
def Shares (view : σ → κ → ρ) (A : Set κ) (s₀ t₀ s t : σ) : Prop :=
  Agree view A s t ∧ Agree view Aᶜ s s₀ ∧ Agree view Aᶜ t t₀

/-- A computation stays within the components if it simulates itself wherever the states agree
on them. -/
theorem within_iff_simulates {x : Eff σ ε α} :
    Within view A x ↔ ∀ s₀ t₀, Simulates (Shares view A s₀ t₀) id x x := by
  simp only [simulates_id_iff]
  constructor
  · rintro h s₀ t₀ s t ⟨hagree, hs, ht⟩
    exact ⟨h.reads s t hagree, h.agree s t hagree, fun k hk => (h.writes s k hk).trans (hs k hk),
      fun k hk => (h.writes t k hk).trans (ht k hk)⟩
  · intro h
    have hself : ∀ s t, Agree view A s t → (exec x s).1 = (exec x t).1 ∧
        Shares view A s t (exec x s).2 (exec x t).2 := fun s t hagree =>
      h s t s t ⟨hagree, fun _ _ => rfl, fun _ _ => rfl⟩
    exact ⟨fun s t hagree => (hself s t hagree).1, fun s t hagree => (hself s t hagree).2.1,
      fun s k hk => (hself s s fun _ _ => rfl).2.2.1 k hk⟩

theorem within_pure (a : α) : Within view A (pure a : Eff σ ε α) :=
  ⟨fun _ _ _ => rfl, fun _ _ h => h, fun _ _ _ => rfl⟩

theorem within_throw (e : ε) : Within view A (throw e : Eff σ ε α) :=
  ⟨fun _ _ _ => rfl, fun _ _ h => h, fun _ _ _ => rfl⟩

theorem Within.bind {x : Eff σ ε α} {f : α → Eff σ ε β} (hx : Within view A x)
    (hf : ∀ a, Within view A (f a)) : Within view A (x >>= f) := by
  refine ⟨fun s t h => ?_, fun s t h => ?_, fun s k hk => ?_⟩
  · have hr := hx.reads s t h
    have ha := hx.agree s t h
    rw [exec_bind, exec_bind]
    generalize exec x s = u at hr ha ⊢
    generalize exec x t = v at hr ha ⊢
    obtain ⟨r, s'⟩ := u
    obtain ⟨r', t'⟩ := v
    cases hr
    cases r with
    | error e => rfl
    | ok a => exact (hf a).reads s' t' ha
  · have hr := hx.reads s t h
    have ha := hx.agree s t h
    rw [exec_bind, exec_bind]
    generalize exec x s = u at hr ha ⊢
    generalize exec x t = v at hr ha ⊢
    obtain ⟨r, s'⟩ := u
    obtain ⟨r', t'⟩ := v
    cases hr
    cases r with
    | error e => exact ha
    | ok a => exact (hf a).agree s' t' ha
  · have hw := hx.writes s k hk
    rw [exec_bind]
    generalize exec x s = u at hw ⊢
    obtain ⟨r, s'⟩ := u
    cases r with
    | error e => exact hw
    | ok a => exact ((hf a).writes s' k hk).trans hw

theorem Within.map {x : Eff σ ε α} (hx : Within view A x) (f : α → β) :
    Within view A (f <$> x) := by
  rw [map_eq_pure_bind]
  exact hx.bind fun a => within_pure (f a)

theorem within_ite {c : Prop} [Decidable c] {x y : Eff σ ε α} (hx : Within view A x)
    (hy : Within view A y) : Within view A (if c then x else y) := by
  split_ifs
  · exact hx
  · exact hy

theorem Within.wrap {x : Eff σ ε α} (hx : Within view A x) (f : ε → ε') :
    Within view A (wrap f x) := by
  refine ⟨fun s t h => ?_, fun s t h => ?_, fun s k hk => ?_⟩
  · rw [exec_wrap, exec_wrap, hx.reads s t h]
  · rw [exec_wrap, exec_wrap]
    exact hx.agree s t h
  · rw [exec_wrap]
    exact hx.writes s k hk

theorem Within.attempt {x : Eff σ ε α} (hx : Within view A x) :
    Within view A (attempt x : Eff σ ε' (Except ε α)) :=
  ⟨fun s t h => congrArg Except.ok (hx.reads s t h), hx.agree, hx.writes⟩

theorem within_mapM {xs : List α} {f : α → Eff σ ε β} (hf : ∀ a ∈ xs, Within view A (f a)) :
    Within view A (xs.mapM f) := by
  induction xs with
  | nil => exact within_pure []
  | cons x xs ih =>
    rw [List.mapM_cons]
    refine (hf x List.mem_cons_self).bind fun _ => ?_
    exact (ih fun a ha => hf a (List.mem_cons_of_mem _ ha)).bind fun _ => within_pure _

theorem within_forM {xs : List α} {f : α → Eff σ ε PUnit} (hf : ∀ a, Within view A (f a)) :
    Within view A (forM xs f) := by
  induction xs with
  | nil => exact within_pure PUnit.unit
  | cons x xs ih =>
    rw [List.forM_cons]
    exact (hf x).bind fun _ => ih

theorem within_anyM {xs : List α} {p : α → Eff σ ε Bool} (hp : ∀ a ∈ xs, Within view A (p a)) :
    Within view A (xs.anyM p) := by
  induction xs with
  | nil => exact within_pure false
  | cons x xs ih =>
    rw [List.anyM_cons]
    refine (hp x List.mem_cons_self).bind fun b => ?_
    cases b with
    | true => exact within_pure true
    | false => exact ih fun a ha => hp a (List.mem_cons_of_mem _ ha)

theorem within_filterM {xs : List α} {p : α → Eff σ ε Bool} (hp : ∀ a, Within view A (p a)) :
    Within view A (xs.filterM p) := by
  have haux : ∀ (xs acc : List α), Within view A (List.filterAuxM p xs acc) := by
    intro xs
    induction xs with
    | nil => exact fun acc => within_pure acc
    | cons x xs ih =>
      intro acc
      rw [List.filterAuxM]
      exact (hp x).bind fun _ => ih _
  exact (haux xs []).bind fun _ => within_pure _

/-- Reading one component. -/
theorem within_gets {k : κ} (hk : k ∈ A) {f : σ → α}
    (hf : ∀ s t, view s k = view t k → f s = f t) : Within view A (gets f : Eff σ ε α) := by
  refine ⟨fun s t h => ?_, fun _ _ h => h, fun _ _ _ => rfl⟩
  rw [exec_gets, exec_gets, hf s t (h k hk)]

/-- Changing one component as a function of its value. -/
theorem within_update {k : κ} (hk : k ∈ A) {f : σ → α × σ}
    (hf : ∀ s t, view s k = view t k → (f s).1 = (f t).1 ∧ view (f s).2 k = view (f t).2 k)
    (hother : ∀ s k', k' ≠ k → view (f s).2 k' = view s k') :
    Within view A (update f : Eff σ ε α) := by
  refine ⟨fun s t h => ?_, fun s t h k' hk' => ?_, fun s k' hk' => ?_⟩
  · rw [exec_update, exec_update, (hf s t (h k hk)).1]
  · rw [exec_update, exec_update]
    by_cases he : k' = k
    · rw [he]
      exact (hf s t (h k hk)).2
    · rw [hother s k' he, hother t k' he]
      exact h k' hk'
  · exact hother s k' fun he => hk' (he ▸ hk)

/-- Bodies of a loop that stay within disjoint sets of components do not see each other:
each has the outcome that it has alone, and leaves its components as it does alone. -/
theorem exec_mapM_disjoint {xs : List α} {f : α → Eff σ ε β} {A : α → Set κ}
    (hf : ∀ x ∈ xs, Within view (A x) (f x)) (hdisjoint : ∀ x y, x ≠ y → ∀ k ∈ A x, k ∉ A y)
    (hnodup : xs.Nodup) {g : α → β} (s : σ) (hok : ∀ x ∈ xs, (exec (f x) s).1 = .ok (g x)) :
    ∃ t, exec (xs.mapM f) s = (.ok (xs.map g), t) ∧
      (∀ x ∈ xs, Agree view (A x) t (exec (f x) s).2) ∧
      ∀ k, (∀ x ∈ xs, k ∉ A x) → view t k = view s k := by
  induction xs generalizing s with
  | nil => exact ⟨s, rfl, by simp, fun _ _ => rfl⟩
  | cons x xs ih =>
    obtain ⟨hx, hxs⟩ := List.forall_mem_cons.mp hf
    obtain ⟨hfresh, hrest⟩ := List.nodup_cons.mp hnodup
    have hdis : ∀ y ∈ xs, ∀ k ∈ A x, k ∉ A y := fun y hy =>
      hdisjoint x y fun he => hfresh (he ▸ hy)
    have hagree : ∀ y ∈ xs, Agree view (A y) (exec (f x) s).2 s := fun y hy k hk =>
      hx.writes s k fun hk' => hdis y hy k hk' hk
    -- the others start in a state that looks to each of them like the first one
    obtain ⟨t, hrun, hown, hother⟩ := ih hxs hrest (exec (f x) s).2 fun y hy =>
      ((hxs y hy).reads _ _ (hagree y hy)).trans (hok y (List.mem_cons_of_mem _ hy))
    have hhead : exec (f x) s = (.ok (g x), (exec (f x) s).2) :=
      Prod.ext (hok x List.mem_cons_self) rfl
    refine ⟨t, ?_, fun y hy => ?_, fun k hk => ?_⟩
    · rw [List.mapM_cons, exec_bind, hhead, andThen_ok, exec_bind, hrun, andThen_ok, exec_pure,
        List.map_cons]
    · rcases List.mem_cons.mp hy with rfl | hy
      · intro k hk
        exact hother k fun z hz => hdis z hz k hk
      · intro k hk
        exact (hown y hy k hk).trans ((hxs y hy).agree _ _ (hagree y hy) k hk)
    · rw [hother k fun y hy => hk y (List.mem_cons_of_mem _ hy)]
      exact hx.writes s k (hk x List.mem_cons_self)

end Deckard.Effect
