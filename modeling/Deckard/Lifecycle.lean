import Deckard.Cache
import Deckard.Runs

/-!
# The life of a message in a cache

What a cache is for, seen from one message: it is absent, waiting, in the hands of a
client or locked, and only a call that reports it moves it. Both caches refine this
machine, so what holds of its paths holds of their runs.
-/
namespace Deckard.Lifecycle

open Cache Runs

abbrev Call := Op × Result

section Reports

variable (queue id : String)

def Pulled : Call → Prop
  | (.pullMessages _ q _ _ _ _, .ids ids) => q = queue ∧ id ∈ ids
  | _ => False

def Released : Call → Prop
  | (.makeAvailable message, .flag true) => message.queue = queue ∧ message.id = id
  | _ => False

def Locked : Call → Prop
  | (.lockMessage _ message _, .flag true) => message.queue = queue ∧ message.id = id
  | _ => False

def Unlocked : Call → Prop
  | (.unlockMessages _ _ _, .ids ids) => id ∈ ids
  | _ => False

def TimedOut : Call → Prop
  | (.timeoutMessages _ q, .ids ids) => q = queue ∧ id ∈ ids
  | _ => False

def Removed : Call → Prop
  | (.remove q ids, _) => q = queue ∧ id ∈ ids
  | _ => False

def Inserted : Call → Prop
  | (.insert q _, .ids ids) => q = queue ∧ id ∈ ids
  | _ => False

/-- The calls in which a pulled message becomes available again. -/
def ReleasedIn (tr : List Call) : Prop :=
  (∃ c ∈ tr, Released queue id c) ∨ Followed (Locked queue id) (Unlocked id) tr ∨
    (∃ c ∈ tr, TimedOut queue id c) ∨ Followed (Removed queue id) (Inserted queue id) tr

end Reports

inductive Stage
  | absent
  | active
  | processing
  | locked
  deriving DecidableEq, Repr

/-- The moves of one message that a call may cause. -/
inductive Step (queue id : String) (c : Call) : Stage → Stage → Prop
  | stay {p : Stage} : ¬ Pulled queue id c → ¬ Inserted queue id c →
      (Removed queue id c → p = .absent) → Step queue id c p p
  | insert : Inserted queue id c → Step queue id c .absent .active
  | pull : Pulled queue id c → Step queue id c .active .processing
  | release : Released queue id c → Step queue id c .processing .active
  | timeout : TimedOut queue id c → Step queue id c .processing .active
  | lock : Locked queue id c → Step queue id c .processing .locked
  | unlock : Unlocked id c → Step queue id c .locked .active
  | remove {p : Stage} : Removed queue id c → Step queue id c p .absent

variable {queue id : String} {tr : List Call} {c : Call} {p p' : Stage}

theorem Step.of_pulled (h : Step queue id c p p') (hc : Pulled queue id c) :
    p = .active ∧ p' = .processing := by
  obtain ⟨op, res⟩ := c
  cases op with
  | pullMessages clock q n minScore maxScore ackDeadlineMs =>
    -- no other report is about a pull
    cases h with
    | stay hn => exact absurd hc hn
    | pull => exact ⟨rfl, rfl⟩
    | _ h => exact h.elim
  | _ => exact hc.elim

theorem Removed.not_inserted (h : Removed queue id c) : ¬ Inserted queue id c := by
  obtain ⟨op, res⟩ := c
  cases op with
  | remove q ids => exact fun hi => hi.elim
  | _ => exact h.elim

/-- The reports of the other moves are neither those of insertions nor those of removals. -/
theorem not_inserted_not_removed (h : Pulled queue id c ∨ Released queue id c ∨
      TimedOut queue id c ∨ Locked queue id c ∨ Unlocked id c) :
    ¬ Inserted queue id c ∧ ¬ Removed queue id c := by
  obtain ⟨op, res⟩ := c
  cases op with
  | insert q ms => rcases h with h | h | h | h | h <;> exact h.elim
  | remove q ids => rcases h with h | h | h | h | h <;> exact h.elim
  | _ => exact ⟨fun hi => hi.elim, fun hr => hr.elim⟩

/-- Only an insertion and a removal change whether a message is present. -/
theorem Step.present (h : Step queue id c p p') :
    (p' ≠ .absent ↔ (p ≠ .absent ∨ Inserted queue id c) ∧ ¬ Removed queue id c) ∧
      (Inserted queue id c → p = .absent) := by
  have hmoved : ¬ Inserted queue id c ∧ ¬ Removed queue id c → p ≠ .absent → p' ≠ .absent →
      (p' ≠ .absent ↔ (p ≠ .absent ∨ Inserted queue id c) ∧ ¬ Removed queue id c) ∧
        (Inserted queue id c → p = .absent) := by
    rintro ⟨hi, hr⟩ hp hp'
    simp [hi, hr, hp, hp']
  cases h with
  | stay _ hi hr =>
    by_cases hrem : Removed queue id c
    · simp [hr hrem, hi]
    · simp [hi, hrem]
  | insert h =>
    have hr : ¬ Removed queue id c := fun hr => hr.not_inserted h
    simp [h, hr]
  | remove h => simp [h, h.not_inserted]
  | pull h => exact hmoved (not_inserted_not_removed (.inl h)) nofun nofun
  | release h => exact hmoved (not_inserted_not_removed (.inr (.inl h))) nofun nofun
  | timeout h => exact hmoved (not_inserted_not_removed (.inr (.inr (.inl h)))) nofun nofun
  | lock h => exact hmoved (not_inserted_not_removed (.inr (.inr (.inr (.inl h))))) nofun nofun
  | unlock h => exact hmoved (not_inserted_not_removed (.inr (.inr (.inr (.inr h))))) nofun nofun

theorem ReleasedIn.append (h : ReleasedIn queue id tr) (tr' : List Call) :
    ReleasedIn queue id (tr ++ tr') := by
  rcases h with ⟨c, hc, h⟩ | h | ⟨c, hc, h⟩ | h
  · exact Or.inl ⟨c, List.mem_append_left _ hc, h⟩
  · exact Or.inr (Or.inl (h.append tr'))
  · exact Or.inr (Or.inr (Or.inl ⟨c, List.mem_append_left _ hc, h⟩))
  · exact Or.inr (Or.inr (Or.inr (h.append tr')))

/-- What the calls since a delivery say about the stage they have led to. -/
def Custody (queue id : String) (tr : List Call) : Stage → Prop
  | .processing => True
  | .active => ReleasedIn queue id tr
  | .locked => ReleasedIn queue id tr ∨ ∃ c ∈ tr, Locked queue id c
  | .absent => ReleasedIn queue id tr ∨ ∃ c ∈ tr, Removed queue id c

theorem Custody.append (h : Custody queue id tr p) (tr' : List Call) :
    Custody queue id (tr ++ tr') p := by
  have hmem : ∀ {Q : Call → Prop}, (∃ c ∈ tr, Q c) → ∃ c ∈ tr ++ tr', Q c :=
    fun ⟨c, hc, hq⟩ => ⟨c, List.mem_append_left _ hc, hq⟩
  cases p with
  | processing => trivial
  | active => exact ReleasedIn.append h tr'
  | locked => exact h.imp (·.append tr') hmem
  | absent => exact h.imp (·.append tr') hmem

theorem Custody.step (h : Custody queue id tr p) (hs : Step queue id c p p') :
    Custody queue id (tr ++ [c]) p' := by
  have hlast : c ∈ tr ++ [c] := by simp
  cases hs with
  | stay => exact h.append [c]
  | pull => trivial
  | release hc => exact Or.inl ⟨c, hlast, hc⟩
  | timeout hc => exact Or.inr (Or.inr (Or.inl ⟨c, hlast, hc⟩))
  | lock hc => exact Or.inr ⟨c, hlast, hc⟩
  | remove hc => exact Or.inr ⟨c, hlast, hc⟩
  | unlock hc =>
    rcases h with h | h
    · exact h.append [c]
    · exact Or.inr (Or.inl (followed_snoc h hc))
  | insert hc =>
    rcases h with h | h
    · exact h.append [c]
    · exact Or.inr (Or.inr (Or.inr (followed_snoc h hc)))

/-- A cache whose states have stages for all messages, moved by its calls as above. -/
def Refines {σ : Type} (M : Machine σ Op Result) (ok : Op → Prop)
    (stages : σ → (String → String → Stage) → Prop) : Prop :=
  ∀ ⦃s op res t A⦄, M s op res t → ok op → stages s A →
    ∃ A', stages t A' ∧ ∀ queue id, Step queue id (op, res) (A queue id) (A' queue id)

section Refinement

variable {σ : Type} {M : Machine σ Op Result} {ok : Op → Prop}
  {stages : σ → (String → String → Stage) → Prop} {s t : σ} {A : String → String → Stage}

theorem Refines.run (href : Refines M ok stages) (hrun : Run M s tr t) (hok : ∀ e ∈ tr, ok e.1)
    (hs : stages s A) : ∃ A', stages t A' := by
  refine hrun.invariant (I := fun s => ∃ A, stages s A) ?_ hok ⟨A, hs⟩
  rintro s op res t hstep hop ⟨A, hA⟩
  obtain ⟨A', hA', -⟩ := href hstep hop hA
  exact ⟨A', hA'⟩

theorem Refines.custody (href : Refines M ok stages) (hrun : Run M s tr t)
    (hok : ∀ e ∈ tr, ok e.1) (hs : stages s A) (hp : A queue id = .processing) :
    ∃ A', stages t A' ∧ Custody queue id tr (A' queue id) := by
  refine hrun.history (Q := fun tr t => ∃ A', stages t A' ∧ Custody queue id tr (A' queue id))
    hok ⟨A, hs, by rw [hp]; trivial⟩ ?_
  rintro tr t op res u hstep hop ⟨A, hA, hc⟩
  obtain ⟨A', hA', hmove⟩ := href hstep hop hA
  exact ⟨A', hA', hc.step (hmove queue id)⟩

/-- Between two deliveries of a message the cache has reported its release. -/
theorem Refines.releasedIn (href : Refines M ok stages) {pre mid post : List Call} {e e' : Call}
    (hrun : Run M s (pre ++ e :: (mid ++ e' :: post)) t)
    (hok : ∀ c ∈ pre ++ e :: (mid ++ e' :: post), ok c.1) (hs : stages s A)
    (he : Pulled queue id e) (he' : Pulled queue id e') : ReleasedIn queue id mid := by
  obtain ⟨s₁, hpre, hrest⟩ := run_append.mp hrun
  obtain ⟨s₂, hfirst, hrest⟩ := run_cons.mp hrest
  obtain ⟨s₃, hmid, hrest⟩ := run_append.mp hrest
  obtain ⟨s₄, hsecond, -⟩ := run_cons.mp hrest
  obtain ⟨A₁, hA₁⟩ := href.run hpre (fun c hc => hok c (by simp [hc])) hs
  obtain ⟨A₂, hA₂, hmove⟩ := href hfirst (hok e (by simp)) hA₁
  have hproc := ((hmove queue id).of_pulled he).2
  obtain ⟨A₃, hA₃, hcustody⟩ := href.custody hmid (fun c hc => hok c (by simp [hc])) hA₂ hproc
  obtain ⟨A₄, -, hmove'⟩ := href hsecond (hok e' (by simp)) hA₃
  rw [((hmove' queue id).of_pulled he').1] at hcustody
  exact hcustody

end Refinement

end Deckard.Lifecycle
