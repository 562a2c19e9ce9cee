import Deckard.Footprint

/-!
# A state that is spread over nodes

Every component of a state has a node as its home. Nodes that hold their components as one state
does answer a computation whose components are all at home on one node as that state does, and
hold them as it does afterwards.
-/
namespace Deckard.Effect

variable {σ κ ρ ν ε ε' α : Type}

/-! ## Nodes -/

section Nodes

variable {view : σ → κ → ρ} {home : κ → ν} {blank : κ → ρ} {A : Set κ}

/-- The nodes hold together what the state holds, and each of them nothing else. -/
structure Spread (view : σ → κ → ρ) (home : κ → ν) (blank : κ → ρ) (c : ν → σ) (s : σ) :
    Prop where
  holds : ∀ k, view (c (home k)) k = view s k
  housed : ∀ n k, home k ≠ n → view (c n) k = blank k

theorem Spread.agree {c : ν → σ} {s : σ} (h : Spread view home blank c s) {n : ν}
    (hA : ∀ k ∈ A, home k = n) : Agree view A (c n) s := by
  intro k hk
  rw [← h.holds k, hA k hk]

variable [DecidableEq ν]

/-- Run a computation on one node. -/
def onNode (n : ν) (x : Eff σ ε α) : Eff (ν → σ) ε α :=
  zoom (fun c => c n) (fun s c => Function.update c n s) x

/-- A computation within components of one node can be run on that node. -/
theorem Within.onNode {x : Eff σ ε α} (hx : Within view A x) (f : ε → ε') {n : ν}
    (hA : ∀ k ∈ A, home k = n) :
    Simulates (Spread view home blank) f (Effect.onNode n (Effect.wrap f x)) x := by
  intro c s h
  have hagree := h.agree hA
  have hleft : ∀ k, home k ≠ n → k ∉ A := fun k hne hk => hne (hA k hk)
  simp only [Effect.onNode, exec_zoom, exec_wrap]
  refine ⟨by rw [hx.reads (c n) s hagree], ⟨fun k => ?_, fun m k hne => ?_⟩⟩
  · by_cases hk : home k = n
    · rw [hk, Function.update_self]
      by_cases hmem : k ∈ A
      · exact hx.agree (c n) s hagree k hmem
      · rw [hx.writes (c n) k hmem, hx.writes s k hmem, ← h.holds k, hk]
    · rw [Function.update_of_ne hk, hx.writes s k (hleft k hk)]
      exact h.holds k
  · by_cases hm : m = n
    · rw [hm, Function.update_self, hx.writes (c n) k (hleft k (hm ▸ hne))]
      exact h.housed n k (hm ▸ hne)
    · rw [Function.update_of_ne hm]
      exact h.housed m k hne

/-- What is run on a node touches that node only. -/
theorem within_onNode (n : ν) (x : Eff σ ε α) :
    Within (fun (c : ν → σ) m => c m) {n} (onNode n x) := by
  refine ⟨fun c d h => ?_, fun c d h m hm => ?_, fun c m hm => ?_⟩
  · exact congrArg (fun s => (exec x s).1) (h n rfl)
  · cases hm
    have hn : c n = d n := h n rfl
    simp only [onNode, exec_zoom, Function.update_self, hn]
  · exact Function.update_of_ne hm _ _

/-- Run a computation on every node of a list; an error of one does not keep it from the
others. -/
def forEachNode (order : List ν) (x : Eff σ ε α) : Eff (ν → σ) ε (List α) := do
  let results ← order.mapM fun n => (attempt (onNode n x) : Eff (ν → σ) ε (Except ε α))
  match results.mapM id with
  | .error e => throw e
  | .ok values => pure values

/-- Each node ends up as the computation leaves it alone. -/
theorem exec_forEachNode {order : List ν} (hnodup : order.Nodup) (hall : ∀ n, n ∈ order)
    {x : Eff σ ε α} {c : ν → σ} {g : ν → α} (hok : ∀ n, (exec x (c n)).1 = .ok (g n)) :
    exec (forEachNode order x) c = (.ok (order.map g), fun n => (exec x (c n)).2) := by
  have hwithin : ∀ n ∈ order, Within (fun (c : ν → σ) m => c m) {n}
      (attempt (onNode n x) : Eff (ν → σ) ε (Except ε α)) :=
    fun n _ => (within_onNode n x).attempt
  have hdisjoint : ∀ n m : ν, n ≠ m → ∀ k ∈ ({n} : Set ν), k ∉ ({m} : Set ν) := by
    intro n m hne k hk hk'
    cases hk
    exact hne hk'
  obtain ⟨d, hrun, hown, -⟩ := exec_mapM_disjoint hwithin hdisjoint hnodup c
    fun n _ => congrArg Except.ok (hok n)
  have hstate : d = fun n => (exec x (c n)).2 := by
    funext n
    exact (hown n (hall n) n rfl).trans (Function.update_self _ _ _)
  have hvalues : (order.map fun n => (Except.ok (g n) : Except ε α)).mapM id =
      .ok (order.map g) := by
    clear hrun hown hwithin hnodup hall
    induction order with
    | nil => rfl
    | cons n order ih =>
      rw [List.map_cons, List.mapM_cons, ih]
      rfl
  rw [forEachNode, exec_bind, hrun, andThen_ok, hvalues, hstate]
  rfl

end Nodes

end Deckard.Effect
