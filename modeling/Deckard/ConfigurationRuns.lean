import Deckard.Configuration

/-!
# Runs of the configuration service

One instance alone keeps its local entries equal to the storage, and its clients cannot
tell it from the storage itself. With several instances an entry may be stale: it was filled
from a reading of the storage that an edit has overtaken. An edit is then lost if it asks for
the value of the stale entry.
-/
namespace Deckard

open Program Prog Runs QueueConfigurationService

/-! ## One instance -/

/-- What a client calls. -/
inductive ConfigurationCall
  | edit (cfg : Option QueueConfiguration)
  | get (queue : String)

/-- The call of a request; an expiration is not seen by the clients. -/
def ConfigurationRequest.call {ν : Type} : ConfigurationRequest ν → Option ConfigurationCall
  | .edit _ cfg _ => some (.edit cfg)
  | .get _ queue _ => some (.get queue)
  | .expire .. => none

/-- The calls of a run with their results. -/
def visible (tr : List (ConfigurationRequest Unit ×
    Except ConfigurationError ConfigurationResponse)) :
    List (ConfigurationCall × Except ConfigurationError ConfigurationResponse) :=
  tr.filterMap fun e => e.1.call.map fun c => (c, e.2)

/-- The service without a local cache: every call goes to the storage and may fail there. -/
inductive Configurations.Uncached : Machine Configurations ConfigurationCall
    (Except ConfigurationError ConfigurationResponse)
  | nothing (s : Configurations) : Uncached s (.edit none) (.ok .edited) s
  | edited (s : Configurations) (cfg : QueueConfiguration) :
      Uncached s (.edit (some cfg)) (.ok .edited) (MongoStorage.editQueueConfiguration cfg s)
  | editFailed (s : Configurations) (cfg : QueueConfiguration) : cfg.maxElements ≠ 0 →
      Uncached s (.edit (some cfg)) (.error .storage) s
  | found (s : Configurations) (queue : String) :
      Uncached s (.get queue) (.ok (.found ⟨queue, s.maxElements queue⟩)) s
  | getFailed (s : Configurations) (queue : String) :
      Uncached s (.get queue) (.error .storage) s

/-- Every local entry is what the storage holds. -/
def Coherent (w : Instances Unit) : Prop :=
  ∀ queue c, w.localCache () queue = some c → c = ⟨queue, w.storage.maxElements queue⟩

theorem Configurations.getD_find (s : Configurations) (queue : String) :
    (s.find queue).getD { queue := queue } = ⟨queue, s.maxElements queue⟩ := by
  cases h : s.find queue with
  | none => simp [maxElements, h]
  | some c =>
    have hqueue := s.queue_eq h
    subst hqueue
    simp [maxElements, h]

/-- To store the maximum that is stored changes nothing. -/
theorem editQueueConfiguration_same {s : Configurations} {cfg : QueueConfiguration}
    (hzero : cfg.maxElements ≠ 0) (h : s.maxElements cfg.queue = cfg.maxElements) :
    MongoStorage.editQueueConfiguration cfg s = s := by
  have hnonneg : ¬ cfg.maxElements < 0 := by
    rw [← h, Int64.not_lt]
    exact s.maxElements_nonneg cfg.queue
  have hfind : s.find cfg.queue = some cfg := by
    cases hc : s.find cfg.queue with
    | none => exact absurd (h.symm.trans (by simp [Configurations.maxElements, hc])) hzero
    | some c =>
      have hmax : c.maxElements = cfg.maxElements := by
        rw [← h, Configurations.maxElements, hc]
        rfl
      rw [show c = cfg from QueueConfiguration.ext (s.queue_eq hc) hmax]
  rw [editQueueConfiguration_eq, MemoryStorage.editQueueConfiguration, if_neg hzero,
    dif_neg hnonneg]
  refine Configurations.ext ?_
  change Function.update s.find cfg.queue (some cfg) = s.find
  rw [← hfind, Function.update_eq_self]

section Serve

variable {ν : Type} [DecidableEq ν] {w : Instances ν} {i : ν} {queue : String} {fails : Bool}
  {cfg c : QueueConfiguration}

theorem serve_get_hit (h : w.localCache i queue = some c) :
    w.serve (.get i queue fails) = (.ok (.found c), w) := by
  simp [Instances.serve, ConfigurationRequest.program, getQueueConfiguration, Instances.handle, h]

theorem serve_get_miss (h : w.localCache i queue = none) :
    w.serve (.get i queue fails) = if fails then (.error .storage, w)
      else (.ok (.found ⟨queue, w.storage.maxElements queue⟩),
        w.setLocal i queue (some ⟨queue, w.storage.maxElements queue⟩)) := by
  rw [← w.storage.getD_find queue]
  cases fails <;>
    simp [Instances.serve, ConfigurationRequest.program, getQueueConfiguration, Instances.handle,
      returned, h]

theorem serve_edit_zero (h : cfg.maxElements = 0) :
    w.serve (.edit i (some cfg) fails) = (.ok .edited, w) := by
  simp [Instances.serve, ConfigurationRequest.program, editQueueConfiguration, h]

theorem serve_edit_miss (hzero : cfg.maxElements ≠ 0) (h : w.localCache i cfg.queue = none) :
    w.serve (.edit i (some cfg) fails) = if fails then (.error .storage, w)
      else (.ok .edited,
        { w with storage := MongoStorage.editQueueConfiguration cfg w.storage }) := by
  cases fails <;>
    simp [Instances.serve, ConfigurationRequest.program, editQueueConfiguration, Instances.handle,
      returned, hzero, h]

theorem serve_edit_hit (hzero : cfg.maxElements ≠ 0) (h : w.localCache i cfg.queue = some c)
    (hne : c.maxElements ≠ cfg.maxElements) :
    w.serve (.edit i (some cfg) fails) = if fails then
        (.error .storage, w.setLocal i cfg.queue none)
      else (.ok .edited, Instances.setLocal
        { w with storage := MongoStorage.editQueueConfiguration cfg w.storage } i cfg.queue
        none) := by
  cases fails <;>
    simp [Instances.serve, ConfigurationRequest.program, editQueueConfiguration, Instances.handle,
      returned, hzero, h, hne]

theorem serve_edit_same (hzero : cfg.maxElements ≠ 0) (h : w.localCache i cfg.queue = some c)
    (heq : c.maxElements = cfg.maxElements) :
    w.serve (.edit i (some cfg) fails) = (.ok .edited, w) := by
  simp [Instances.serve, ConfigurationRequest.program, editQueueConfiguration, Instances.handle,
    hzero, h, heq]

end Serve

section OneInstance

variable {w w' : Instances Unit}

theorem Coherent.setLocal_none (h : Coherent w) (queue : String) :
    Coherent (w.setLocal () queue none) := by
  intro queue' c hc
  rw [Instances.setLocal_localCache] at hc
  split_ifs at hc
  exact h queue' c hc

/-- An edit of a queue without a local entry leaves the other entries right. -/
theorem Coherent.edit (h : Coherent w) {cfg : QueueConfiguration}
    (hnone : w.localCache () cfg.queue = none) :
    Coherent { w with storage := MongoStorage.editQueueConfiguration cfg w.storage } := by
  intro queue c hc
  have hq : queue ≠ cfg.queue := by
    rintro rfl
    cases hnone.symm.trans hc
  rw [editQueueConfiguration_eq, maxElements_edit, if_neg fun hq' => hq hq'.1]
  exact h queue c hc

/-- A call to a coherent instance is a call to the storage. -/
theorem Coherent.serve (h : Coherent w) (request : ConfigurationRequest Unit) :
    Coherent (w.serve request).2 ∧
      match request.call with
      | some c => Configurations.Uncached w.storage c (w.serve request).1
          (w.serve request).2.storage
      | none => (w.serve request).2.storage = w.storage := by
  cases request with
  | expire i queue => exact ⟨h.setLocal_none queue, rfl⟩
  | get i queue fails =>
    cases hlocal : w.localCache () queue with
    | some c =>
      rw [serve_get_hit hlocal, h queue c hlocal]
      exact ⟨h, .found _ _⟩
    | none =>
      rw [serve_get_miss hlocal]
      cases fails with
      | true => exact ⟨h, .getFailed _ _⟩
      | false =>
        refine ⟨fun queue' c hc => ?_, .found _ _⟩
        change (w.setLocal () queue _).localCache () queue' = some c at hc
        rw [Instances.setLocal_localCache] at hc
        split_ifs at hc with hq
        · cases hc
          rw [hq.2]
          rfl
        · exact h queue' c hc
  | edit i cfg fails =>
    cases cfg with
    | none => exact ⟨h, .nothing _⟩
    | some cfg =>
      by_cases hzero : cfg.maxElements = 0
      · have hsame : MongoStorage.editQueueConfiguration cfg w.storage = w.storage := by
          simp [editQueueConfiguration_eq, MemoryStorage.editQueueConfiguration, hzero]
        have hedit := Configurations.Uncached.edited w.storage cfg
        rw [hsame] at hedit
        rw [serve_edit_zero hzero]
        exact ⟨h, hedit⟩
      · cases hlocal : w.localCache () cfg.queue with
        | none =>
          rw [serve_edit_miss hzero hlocal]
          cases fails with
          | true => exact ⟨h, .editFailed _ _ hzero⟩
          | false => exact ⟨h.edit hlocal, .edited _ _⟩
        | some c =>
          by_cases heq : c.maxElements = cfg.maxElements
          · have hstored : w.storage.maxElements cfg.queue = cfg.maxElements := by
              rw [← heq, h cfg.queue c hlocal]
            have hedit := Configurations.Uncached.edited w.storage cfg
            rw [editQueueConfiguration_same hzero hstored] at hedit
            rw [serve_edit_same hzero hlocal heq]
            exact ⟨h, hedit⟩
          · rw [serve_edit_hit hzero hlocal heq]
            cases fails with
            | true => exact ⟨h.setLocal_none _, .editFailed _ _ hzero⟩
            | false =>
              have hnone : (w.setLocal () cfg.queue none).localCache () cfg.queue = none := by
                rw [Instances.setLocal_localCache, if_pos ⟨rfl, rfl⟩]
              exact ⟨(h.setLocal_none cfg.queue).edit hnone, .edited _ _⟩

/-- A run of a coherent instance is a run of the storage. -/
theorem Coherent.run {tr : List (ConfigurationRequest Unit ×
    Except ConfigurationError ConfigurationResponse)} (h : Coherent w)
    (hrun : Run Instances.sequential w tr w') :
    Coherent w' ∧ Run Configurations.Uncached w.storage (visible tr) w'.storage := by
  induction hrun with
  | nil w => exact ⟨h, .nil _⟩
  | @cons w u w' request r tr hstep _ ih =>
    have hserve : w.serve request = (r, u) := hstep
    obtain ⟨hcoherent, hcall⟩ := h.serve request
    rw [hserve] at hcoherent hcall
    obtain ⟨hw', hrun⟩ := ih hcoherent
    refine ⟨hw', ?_⟩
    cases hrequest : request.call with
    | none =>
      rw [hrequest] at hcall
      rw [visible, List.filterMap_cons_none (by simp [hrequest])]
      exact hcall ▸ hrun
    | some c =>
      rw [hrequest] at hcall
      rw [visible, List.filterMap_cons_some (b := (c, r)) (by simp [hrequest])]
      exact .cons hcall hrun

/-- What the storage answers, the instance answers after an expiration. -/
theorem exists_run_of_uncached {s s' : Configurations} {c : ConfigurationCall}
    {r : Except ConfigurationError ConfigurationResponse}
    (h : Configurations.Uncached s c r s') (hs : w.storage = s) :
    ∃ tr w', Run Instances.sequential w tr w' ∧ visible tr = [(c, r)] ∧ w'.storage = s' := by
  have hmiss : ∀ queue, (w.setLocal () queue none).localCache () queue = none := by
    intro queue
    rw [Instances.setLocal_localCache, if_pos ⟨rfl, rfl⟩]
  -- an expiration of the entry, followed by the call
  have hserve : ∀ queue request w', (w.setLocal () queue none).serve request = (r, w') →
      request.call = some c → w'.storage = s' →
      ∃ tr w', Run Instances.sequential w tr w' ∧ visible tr = [(c, r)] ∧ w'.storage = s' := by
    intro queue request w' hrequest hcall hw'
    refine ⟨[(.expire () queue, .ok .expired), (request, r)], w',
      .cons rfl (.cons hrequest (.nil _)),
      ?_, hw'⟩
    rw [visible, List.filterMap_cons_none rfl,
      List.filterMap_cons_some (b := (c, r)) (by simp [hcall])]
    rfl
  subst hs
  cases h with
  | nothing => exact hserve "" (.edit () none false) _ rfl rfl rfl
  | edited _ cfg =>
    by_cases hzero : cfg.maxElements = 0
    · refine hserve cfg.queue (.edit () (some cfg) false) _ (serve_edit_zero hzero) rfl ?_
      simp [editQueueConfiguration_eq, MemoryStorage.editQueueConfiguration, hzero,
        Instances.setLocal]
    · exact hserve cfg.queue (.edit () (some cfg) false) _ (serve_edit_miss hzero (hmiss _)) rfl rfl
  | editFailed _ cfg hzero =>
    exact hserve cfg.queue (.edit () (some cfg) true) _ (serve_edit_miss hzero (hmiss _)) rfl rfl
  | found _ queue => exact hserve queue (.get () queue false) _ (serve_get_miss (hmiss _)) rfl rfl
  | getFailed _ queue =>
    exact hserve queue (.get () queue true) _ (serve_get_miss (hmiss _)) rfl rfl

theorem exists_run_of_run_uncached {s s' : Configurations}
    {trace : List (ConfigurationCall × Except ConfigurationError ConfigurationResponse)}
    (h : Run Configurations.Uncached s trace s') (hs : w.storage = s) :
    ∃ tr w', Run Instances.sequential w tr w' ∧ visible tr = trace ∧ w'.storage = s' := by
  induction h generalizing w with
  | nil s => exact ⟨[], w, .nil w, rfl, hs⟩
  | cons hstep _ ih =>
    obtain ⟨tr, u, hrun, hvisible, hu⟩ := exists_run_of_uncached hstep hs
    obtain ⟨tr', w', hrun', hvisible', hw'⟩ := ih hu
    refine ⟨tr ++ tr', w', run_append.mpr ⟨u, hrun, hrun'⟩, ?_, hw'⟩
    rw [visible, List.filterMap_append]
    change visible tr ++ visible tr' = _
    rw [hvisible, hvisible']
    rfl

/-- A service with an empty local cache. -/
def Instances.fresh (storage : Configurations) : Instances Unit := ⟨storage, fun _ _ => none⟩

/-- Whatever has been called before, a configuration that the service returns is the one
that the storage holds, and the runs of the service are those of the storage. -/
theorem cached_configuration_refines_storage (storage : Configurations) :
    (∀ tr w, Run Instances.sequential (.fresh storage) tr w → ∀ queue fails config w',
      w.serve (.get () queue fails) = (.ok (.found config), w') →
        config.maxElements = w.storage.maxElements queue ∧ w'.storage = w.storage) ∧
    ∀ trace storage', Run Configurations.Uncached storage trace storage' ↔
      ∃ tr w, Run Instances.sequential (.fresh storage) tr w ∧ visible tr = trace ∧
        w.storage = storage' := by
  have hfresh : Coherent (.fresh storage) := by
    intro queue c hc
    cases hc
  refine ⟨fun tr w hrun queue fails config w' hget => ?_, fun trace storage' => ⟨fun h => ?_, ?_⟩⟩
  · obtain ⟨-, hcall⟩ := (hfresh.run hrun).1.serve (.get () queue fails)
    rw [hget] at hcall
    change Configurations.Uncached w.storage (.get queue) (.ok (.found config)) w'.storage at hcall
    generalize w'.storage = storage' at hcall ⊢
    cases hcall
    exact ⟨rfl, rfl⟩
  · exact exists_run_of_run_uncached h rfl
  · rintro ⟨tr, w, hrun, rfl, rfl⟩
    exact (hfresh.run hrun).2

end OneInstance

/-! ## Several instances -/

variable {ν κ : Type} [DecidableEq ν]

/-- The access writes the configuration of a queue. -/
def EditsQueue (queue : String) : ConfigurationCommand ν → Prop
  | .storageEdit config _ => config.queue = queue
  | _ => False

/-- The request is an edit of a queue. -/
def ConfigurationRequest.Edits (queue : String) : ConfigurationRequest ν → Prop
  | .edit _ (some cfg) _ => cfg.queue = queue
  | _ => False

/-- The access has stored a configuration. -/
def Saved (cfg : QueueConfiguration) : (c : ConfigurationCommand ν) → ConfigurationAnswer c → Prop
  | .storageEdit config _, answer =>
      match answer with
      | .ok _ => config = cfg
      | .error _ => False
  | _, _ => False

/-- The program returns without an error only after it has stored a configuration, and it
writes nothing of the queue after that. -/
def Writes (cfg : QueueConfiguration) : ConfigurationProg ν ConfigurationResponse → Prop
  | .ret _ => False
  | .fail _ => True
  | .call c next => ∀ r, (Saved cfg c r ∧ All (fun c => ¬ EditsQueue cfg.queue c) (next r)) ∨
      Writes cfg (next r)

section Accesses

variable {w : Instances ν} {c : ConfigurationCommand ν} {queue : String} {cfg : QueueConfiguration}

theorem maxElements_handle (h : ¬ EditsQueue queue c) :
    (Instances.handle c w).2.storage.maxElements queue = w.storage.maxElements queue := by
  cases c with
  | storageEdit config fails =>
    cases fails with
    | true => rfl
    | false =>
      change (MongoStorage.editQueueConfiguration config w.storage).maxElements queue = _
      rw [editQueueConfiguration_eq, maxElements_edit, if_neg fun hq => h hq.1.symm]
  | _ => rfl

theorem maxElements_saved (hzero : cfg.maxElements ≠ 0)
    (h : Saved cfg c (Instances.handle c w).1) :
    (Instances.handle c w).2.storage.maxElements cfg.queue = max cfg.maxElements 0 := by
  cases c with
  | storageEdit config fails =>
    cases fails with
    | true => exact h.elim
    | false =>
      obtain rfl : config = cfg := h
      change (MongoStorage.editQueueConfiguration config w.storage).maxElements config.queue = _
      rw [editQueueConfiguration_eq, maxElements_edit, if_pos ⟨rfl, hzero⟩]
  | _ => exact h.elim

omit [DecidableEq ν] in
/-- A request that is no edit of the queue does not write its configuration. -/
theorem ConfigurationRequest.all_program {request : ConfigurationRequest ν}
    (h : ¬ request.Edits queue) : All (fun c => ¬ EditsQueue queue c) request.program := by
  have hreturned : ∀ {α : Type} (r : Except ConfigurationError α),
      All (fun c => ¬ EditsQueue queue c) (returned r : ConfigurationProg ν α) := by
    intro α r
    cases r <;> trivial
  cases request with
  | expire i queue' => exact ⟨id, fun _ => trivial⟩
  | get i queue' fails =>
    refine all_bind ⟨id, fun entry => ?_⟩ fun _ => trivial
    cases entry with
    | some config => trivial
    | none =>
      refine ⟨id, fun answer => ?_⟩
      cases answer with
      | error e => trivial
      | ok found => exact ⟨id, fun _ => trivial⟩
  | edit i cfg fails =>
    cases cfg with
    | none => trivial
    | some cfg =>
      refine all_bind ?_ fun _ => trivial
      unfold editQueueConfiguration
      dsimp only
      split_ifs
      · trivial
      · refine ⟨id, fun entry => ?_⟩
        cases entry with
        | none => exact ⟨h, fun result => hreturned result⟩
        | some c =>
          change All _ (if c.maxElements ≠ cfg.maxElements then _ else _)
          split_ifs
          · exact ⟨h, fun result => ⟨id, fun _ => hreturned result⟩⟩
          · trivial

omit [DecidableEq ν] in
/-- After its look at the local cache an edit writes, or its value was found there. -/
theorem edit_program (hzero : cfg.maxElements ≠ 0) (i : ν) (fails : Bool) :
    ∃ next : Option QueueConfiguration → ConfigurationProg ν ConfigurationResponse,
      (ConfigurationRequest.edit i (some cfg) fails).program = .call (.localGet i cfg.queue) next ∧
      ∀ entry, Writes cfg (next entry) ∧ (∀ c, entry = some c → c.maxElements ≠ cfg.maxElements) ∨
        (∃ c, entry = some c ∧ c.maxElements = cfg.maxElements) ∧ next entry = .ret .edited := by
  refine ⟨_, by simp only [ConfigurationRequest.program, editQueueConfiguration, if_neg hzero]; rfl,
    fun entry => ?_⟩
  cases entry with
  | none =>
    refine .inl ⟨fun result => ?_, by simp⟩
    cases result with
    | ok => exact .inl ⟨rfl, trivial⟩
    | error e => exact .inr trivial
  | some c =>
    by_cases heq : c.maxElements = cfg.maxElements
    · refine .inr ⟨⟨c, rfl, heq⟩, ?_⟩
      change ((if c.maxElements ≠ cfg.maxElements then _ else _ :
        ConfigurationProg ν Unit) >>= _) = _
      rw [if_neg (not_not.mpr heq)]
      rfl
    · refine .inl ⟨?_, by simpa using heq⟩
      change Writes cfg ((if c.maxElements ≠ cfg.maxElements then _ else _) >>= _)
      rw [if_pos heq]
      intro result
      cases result with
      | ok => exact .inl ⟨rfl, ⟨id, fun _ => trivial⟩⟩
      | error e => exact .inr fun _ => .inr trivial

end Accesses

/-! ### Overtaken readings

Beside the state a record is kept of the readings of the storage. A reading is overtaken by an
edit that changes the maximum. The local entries are those of the readings that they were filled
from. -/

/-- What is marked as overtaken: the last reading of a queue by a thread, and the entry of a queue
in the local cache of an instance. -/
structure Overtaken (ν κ : Type) where
  reading : κ × String → Bool
  entry : ν × String → Bool

namespace Overtaken

/-- Nothing is known of the readings. -/
def unknown (ν κ : Type) : Overtaken ν κ := ⟨fun _ => true, fun _ => true⟩

variable [DecidableEq κ]

/-- The access changes the stored maximum of a queue. -/
def changes (w : Instances ν) (c : ConfigurationCommand ν) (queue : String) : Bool :=
  (Instances.handle c w).2.storage.maxElements queue ≠ w.storage.maxElements queue

/-- Thread `j` accesses the storage or a local cache. -/
def access (o : Overtaken ν κ) (w : Instances ν) (j : κ) :
    ConfigurationCommand ν → Overtaken ν κ
  | .storageGet queue _ => { o with reading := Function.update o.reading (j, queue) false }
  | .localSet i queue _ =>
      { o with entry := Function.update o.entry (i, queue) (o.reading (j, queue)) }
  | .storageEdit config fails =>
      { reading := fun k => o.reading k || changes w (.storageEdit config fails) k.2
        entry := fun k => o.entry k || changes w (.storageEdit config fails) k.2 }
  | .localGet .. | .localDelete .. => o

def event (o : Overtaken ν κ) (s : ConfigurationSystem ν κ) :
    Label κ (ConfigurationRequest ν) → Overtaken ν κ
  | .step j =>
      match s.thread j with
      | some (.call c _) => o.access s.shared j c
      | _ => o
  | .start .. | .finish _ => o

end Overtaken

variable [DecidableEq κ]

/-- An event of the instances, with the record of the readings. -/
def Instances.watch (x : ConfigurationSystem ν κ × Overtaken ν κ)
    (l : Label κ (ConfigurationRequest ν)) :
    Option (Option (Except ConfigurationError ConfigurationResponse) ×
      ConfigurationSystem ν κ × Overtaken ν κ) :=
  (advance Instances.handle ConfigurationRequest.program x.1 l).map fun r =>
    (r.1, r.2, x.2.event x.1 l)

def Instances.watched (ν κ : Type) [DecidableEq ν] [DecidableEq κ] :
    Machine (ConfigurationSystem ν κ × Overtaken ν κ) (Label κ (ConfigurationRequest ν))
      (Option (Except ConfigurationError ConfigurationResponse)) :=
  ofPartial Instances.watch

/-- The local entry that lets an edit return at once is not overtaken: since the reading that has
filled it no edit has changed the stored maximum. -/
def Current (x : ConfigurationSystem ν κ × Overtaken ν κ) :
    Label κ (ConfigurationRequest ν) → Prop
  | .step j => ∀ i cfg fails,
      x.1.thread j = some (ConfigurationRequest.edit i (some cfg) fails).program →
      ∀ c, x.1.shared.localCache i cfg.queue = some c → c.maxElements = cfg.maxElements →
      x.2.entry (i, cfg.queue) = false
  | .start .. | .finish _ => True

/-- The interleavings in which no edit meets an overtaken entry with its own value. -/
def Instances.current (ν κ : Type) [DecidableEq ν] [DecidableEq κ] :
    Machine (ConfigurationSystem ν κ × Overtaken ν κ) (Label κ (ConfigurationRequest ν))
      (Option (Except ConfigurationError ConfigurationResponse)) :=
  fun x l r y => Instances.watched ν κ x l r y ∧ Current x l

/-- What a program puts into a local cache is the maximum that it has read last. -/
def FillsFrom (known : Option (String × Int64)) : ConfigurationProg ν ConfigurationResponse → Prop
  | .ret _ | .fail _ => True
  | .call (.storageGet queue _) next => ∀ answer, FillsFrom
      (answer.toOption.map fun found =>
        (queue, (found.map QueueConfiguration.maxElements).getD 0)) (next answer)
  | .call (.localSet _ queue config) next =>
      known = some (queue, config.maxElements) ∧ ∀ r, FillsFrom known (next r)
  | .call (.localGet ..) next => ∀ r, FillsFrom known (next r)
  | .call (.localDelete ..) next => ∀ r, FillsFrom known (next r)
  | .call (.storageEdit ..) next => ∀ r, FillsFrom known (next r)

section Readings

variable {x y : ConfigurationSystem ν κ × Overtaken ν κ} {o : Overtaken ν κ} {w : Instances ν}
  {c : ConfigurationCommand ν} {j k : κ} {l : Label κ (ConfigurationRequest ν)}
  {r : Option (Except ConfigurationError ConfigurationResponse)}

theorem watched_event (h : Instances.watched ν κ x l r y) :
    Instances.concurrent ν κ x.1 l r y.1 ∧ y.2 = x.2.event x.1 l := by
  obtain ⟨⟨r', t⟩, hadvance, heq⟩ := Option.map_eq_some_iff.mp h
  cases heq
  exact ⟨hadvance, rfl⟩

omit [DecidableEq ν] [DecidableEq κ] in
/-- Every request fills local caches with what it has read. -/
theorem ConfigurationRequest.fillsFrom (request : ConfigurationRequest ν) :
    FillsFrom none request.program := by
  have hreturned : ∀ (known : Option (String × Int64)) (result : Except ConfigurationError Unit),
      FillsFrom known ((fun _ => ConfigurationResponse.edited) <$>
        (returned result : ConfigurationProg ν Unit)) := by
    intro known result
    cases result <;> trivial
  cases request with
  | expire i queue => exact fun _ => trivial
  | get i queue fails =>
    intro entry
    cases entry with
    | some config => trivial
    | none =>
      intro answer
      cases answer with
      | error e => trivial
      | ok found =>
        refine ⟨?_, fun _ => trivial⟩
        cases found <;> rfl
  | edit i cfg fails =>
    cases cfg with
    | none => trivial
    | some cfg =>
      unfold ConfigurationRequest.program editQueueConfiguration
      dsimp only
      split_ifs
      · trivial
      · intro entry
        cases entry with
        | none => exact fun result => hreturned none result
        | some c =>
          change FillsFrom none (_ <$> if c.maxElements ≠ cfg.maxElements then _ else _)
          split_ifs
          · exact fun result _ => hreturned none result
          · trivial

/-- A reading that is not overtaken by an access was not overtaken before, and still has the
stored maximum, unless it is the access. -/
theorem Overtaken.reading_access {queue : String}
    (h : (o.access w j c).reading (k, queue) = false) :
    (∃ fails, c = .storageGet queue fails ∧ k = j) ∨ o.reading (k, queue) = false ∧
      (Instances.handle c w).2.storage.maxElements queue = w.storage.maxElements queue := by
  cases c with
  | storageGet queue' fails =>
    by_cases heq : (k, queue) = (j, queue')
    · cases heq
      exact .inl ⟨fails, rfl, rfl⟩
    · refine .inr ⟨?_, rfl⟩
      simpa [access, Function.update_of_ne heq] using h
  | storageEdit config fails =>
    obtain ⟨hreading, hsame⟩ := Bool.or_eq_false_iff.mp h
    exact .inr ⟨hreading, not_not.mp (of_decide_eq_false hsame)⟩
  | localGet i queue' | localSet i queue' config | localDelete i queue' => exact .inr ⟨h, rfl⟩

/-- The same of the entries. -/
theorem Overtaken.entry_access {i : ν} {queue : String}
    (h : (o.access w j c).entry (i, queue) = false) :
    (∃ config, c = .localSet i queue config ∧ o.reading (j, queue) = false) ∨
      (∀ config, c ≠ .localSet i queue config) ∧ o.entry (i, queue) = false ∧
      (Instances.handle c w).2.storage.maxElements queue = w.storage.maxElements queue := by
  cases c with
  | localSet i' queue' config =>
    by_cases heq : (i, queue) = (i', queue')
    · cases heq
      refine .inl ⟨config, rfl, ?_⟩
      simpa [access] using h
    · refine .inr ⟨?_, ?_, rfl⟩
      · rintro config' ⟨⟩
        exact heq rfl
      · simpa [access, Function.update_of_ne heq] using h
  | storageEdit config fails =>
    obtain ⟨hentry, hsame⟩ := Bool.or_eq_false_iff.mp h
    exact .inr ⟨by simp, hentry, not_not.mp (of_decide_eq_false hsame)⟩
  | localGet i' queue' | localDelete i' queue' | storageGet queue' fails =>
    exact .inr ⟨by simp, h, rfl⟩

/-- What has been read and not been overtaken is what the storage holds: in the local caches, and
in the threads that are about to fill one. -/
structure Tracked (x : ConfigurationSystem ν κ × Overtaken ν κ) : Prop where
  entries : ∀ i queue c, x.1.shared.localCache i queue = some c → x.2.entry (i, queue) = false →
    c.maxElements = x.1.shared.storage.maxElements queue
  readings : ∀ j p, x.1.thread j = some p → ∃ known, FillsFrom known p ∧
    ∀ queue m, known = some (queue, m) → x.2.reading (j, queue) = false →
      m = x.1.shared.storage.maxElements queue

omit [DecidableEq ν] [DecidableEq κ] in
theorem tracked_unknown {s : ConfigurationSystem ν κ} (hidle : s.Idle) :
    Tracked (s, .unknown ν κ) where
  entries := by
    intro i queue c _ h
    cases h
  readings := by
    intro j p hp
    rw [hidle j] at hp
    cases hp

/-- A program goes on with what it has known, or with what it has read now. -/
theorem FillsFrom.step {known : Option (String × Int64)}
    {next : ConfigurationAnswer c → ConfigurationProg ν ConfigurationResponse}
    (h : FillsFrom known (.call c next)) (w : Instances ν) :
    ∃ known', FillsFrom known' (next (Instances.handle c w).1) ∧
      ((∀ queue fails, c ≠ .storageGet queue fails) ∧ known' = known ∨
        ∀ queue m, known' = some (queue, m) →
          m = (Instances.handle c w).2.storage.maxElements queue) := by
  cases c with
  | storageGet queue fails =>
    refine ⟨_, h _, .inr fun queue' m hknown => ?_⟩
    cases fails with
    | true => cases hknown
    | false =>
      cases hknown
      rfl
  | localSet i queue config => exact ⟨known, h.2 _, .inl ⟨by simp, rfl⟩⟩
  | localGet i queue | localDelete i queue | storageEdit config fails =>
    exact ⟨known, h _, .inl ⟨by simp, rfl⟩⟩

/-- An entry that no access has just put into a local cache has been there before. -/
theorem localCache_of_handle {i : ν} {queue : String} {config : QueueConfiguration}
    (hother : ∀ config, c ≠ .localSet i queue config)
    (h : (Instances.handle c w).2.localCache i queue = some config) :
    w.localCache i queue = some config := by
  cases c with
  | localSet i' queue' config' =>
    change (w.setLocal i' queue' _).localCache i queue = _ at h
    rw [Instances.setLocal_localCache, if_neg] at h
    · exact h
    · rintro ⟨rfl, rfl⟩
      exact hother config' rfl
  | localDelete i' queue' =>
    change (w.setLocal i' queue' _).localCache i queue = _ at h
    rw [Instances.setLocal_localCache] at h
    split_ifs at h
    exact h
  | storageEdit config' fails =>
    cases fails with
    | true => exact h
    | false => exact h
  | localGet i' queue' | storageGet queue' fails => exact h

theorem Tracked.event (h : Tracked x) {t : ConfigurationSystem ν κ}
    (hevent : Event Instances.handle ConfigurationRequest.program x.1 l t) :
    Tracked (t, x.2.event x.1 l) := by
  cases hevent with
  | start i request hidle =>
    refine ⟨h.entries, fun j p hp => ?_⟩
    rcases Threads.setThread_eq_some hp with ⟨-, hp⟩ | ⟨-, hp⟩
    · cases hp
      exact ⟨none, request.fillsFrom, by simp⟩
    · exact h.readings j p hp
  | finish i q hq hend =>
    refine ⟨h.entries, fun j p hp => ?_⟩
    rcases Threads.setThread_eq_some hp with ⟨-, hp⟩ | ⟨-, hp⟩
    · cases hp
    · exact h.readings j p hp
  | step i c next hnext =>
    have hrecord : x.2.event x.1 (.step i) = x.2.access x.1.shared i c := by
      simp only [Overtaken.event, hnext]
    rw [hrecord]
    obtain ⟨known, hfills, hknown⟩ := h.readings i _ hnext
    constructor
    · intro i' queue e hlocal hflag
      change (Instances.handle c x.1.shared).2.localCache i' queue = some e at hlocal
      rcases Overtaken.entry_access hflag with ⟨config, rfl, hreading⟩ | ⟨hother, hentry, hsame⟩
      · -- the entry has just been filled with what the thread has read
        change (x.1.shared.setLocal i' queue _).localCache i' queue = _ at hlocal
        rw [Instances.setLocal_localCache, if_pos ⟨rfl, rfl⟩] at hlocal
        cases hlocal
        exact hknown queue _ hfills.1 hreading
      · exact (h.entries i' queue e (localCache_of_handle hother hlocal) hentry).trans hsame.symm
    · intro j p hp
      rcases Threads.setThread_eq_some hp with ⟨rfl, hp'⟩ | ⟨hj, hp⟩
      · cases hp'
        obtain ⟨known', hfills', hcases⟩ := hfills.step x.1.shared
        refine ⟨known', hfills', fun queue m hm hflag => ?_⟩
        rcases hcases with ⟨hread, rfl⟩ | hnow
        · rcases Overtaken.reading_access hflag with ⟨fails, rfl, -⟩ | ⟨hreading, hsame⟩
          · exact absurd rfl (hread queue fails)
          · exact (hknown queue m hm hreading).trans hsame.symm
        · exact hnow queue m hm
      · obtain ⟨known', hfills', hknown'⟩ := h.readings j p hp
        refine ⟨known', hfills', fun queue m hm hflag => ?_⟩
        rcases Overtaken.reading_access hflag with ⟨-, -, rfl⟩ | ⟨hreading, hsame⟩
        · exact absurd rfl hj
        · exact (hknown' queue m hm hreading).trans hsame.symm

theorem Tracked.step (h : Tracked x) (hstep : Instances.watched ν κ x l r y) : Tracked y := by
  obtain ⟨hmove, hrecord⟩ := watched_event hstep
  have hevent := h.event (interleaved_event hmove)
  rwa [← hrecord] at hevent

theorem Tracked.run {tr : List (Label κ (ConfigurationRequest ν) ×
    Option (Except ConfigurationError ConfigurationResponse))} (h : Tracked x)
    (hrun : Run (Instances.watched ν κ) x tr y) : Tracked y := by
  induction hrun with
  | nil x => exact h
  | cons hstep _ ih => exact ih (h.step hstep)

omit [DecidableEq ν] [DecidableEq κ] in
/-- An edit that finds its value in a current entry finds it stored. -/
theorem Tracked.found (h : Tracked x) (hcurrent : Current x (.step j)) {i : ν}
    {cfg : QueueConfiguration} {fails : Bool} {e : QueueConfiguration}
    (hthread : x.1.thread j = some (ConfigurationRequest.edit i (some cfg) fails).program)
    (he : x.1.shared.localCache i cfg.queue = some e) (hvalue : e.maxElements = cfg.maxElements) :
    x.1.shared.storage.maxElements cfg.queue = max cfg.maxElements 0 := by
  have hstored := h.entries i cfg.queue e he (hcurrent i cfg fails hthread e he hvalue)
  rw [← hvalue, hstored, max_zero, if_neg]
  exact Int64.not_lt.mpr (Configurations.maxElements_nonneg _ _)

end Readings

section Threads

variable {s t : ConfigurationSystem ν κ} {j : κ} {i : ν} {cfg : QueueConfiguration} {fails : Bool}
  {l : Label κ (ConfigurationRequest ν)}

/-- Thread `j` has not stored the configuration and cannot return before it has. -/
def Awaits (j : κ) (i : ν) (cfg : QueueConfiguration) (fails : Bool)
    (s : ConfigurationSystem ν κ) : Prop :=
  ∀ p, s.thread j = some p →
    p = (ConfigurationRequest.edit i (some cfg) fails).program ∨ Writes cfg p

/-- The storage holds the maximum, and thread `j` leaves it there. -/
def Holds (j : κ) (cfg : QueueConfiguration) (s : ConfigurationSystem ν κ) : Prop :=
  s.shared.storage.maxElements cfg.queue = max cfg.maxElements 0 ∧
    ∀ p, s.thread j = some p → All (fun c => ¬ EditsQueue cfg.queue c) p

/-- The edit stores its value, finds it stored, or has not come to it yet. -/
theorem Awaits.event {o : Overtaken ν κ} (hzero : cfg.maxElements ≠ 0) (h : Awaits j i cfg fails s)
    (hevent : Event Instances.handle ConfigurationRequest.program s l t)
    (htracked : Tracked (s, o)) (hcurrent : Current (s, o) l)
    (hcall : ∀ request, l ≠ .start j request) :
    Awaits j i cfg fails t ∨ Holds j cfg t := by
  cases hevent with
  | start i' request hidle =>
    refine .inl fun p hp => ?_
    rcases Threads.setThread_eq_some hp with ⟨rfl, -⟩ | ⟨-, hp⟩
    · exact absurd rfl (hcall request)
    · exact h p hp
  | finish i' q hq hend =>
    refine .inl fun p hp => ?_
    rcases Threads.setThread_eq_some hp with ⟨-, hp⟩ | ⟨-, hp⟩
    · cases hp
    · exact h p hp
  | step i' c next hnext =>
    by_cases hj : j = i'
    swap
    · refine .inl fun p hp => h p ?_
      rwa [Threads.setThread_of_ne hj] at hp
    subst hj
    rcases h _ hnext with hprogram | hwrites
    · obtain ⟨next', hnext', hcases⟩ := edit_program hzero i fails
      rw [hnext'] at hprogram
      cases hprogram
      rcases hcases (s.shared.localCache i cfg.queue) with ⟨hwrites, -⟩ | ⟨⟨c, hc, heq⟩, hret⟩
      · refine .inl fun p hp => .inr ?_
        rw [Threads.setThread_self] at hp
        cases hp
        exact hwrites
      · have hthread := hnext.trans (congrArg some hnext'.symm)
        refine .inr ⟨htracked.found hcurrent hthread hc heq, fun p hp => ?_⟩
        rw [Threads.setThread_self] at hp
        cases hp
        change All _ (next' (s.shared.localCache i cfg.queue))
        rw [hret]
        trivial
    · rcases hwrites (Instances.handle c s.shared).1 with ⟨hsaved, hall⟩ | hwrites
      · refine .inr ⟨maxElements_saved hzero hsaved, fun p hp => ?_⟩
        rw [Threads.setThread_self] at hp
        cases hp
        exact hall
      · refine .inl fun p hp => .inr ?_
        rw [Threads.setThread_self] at hp
        cases hp
        exact hwrites

omit [DecidableEq ν] [DecidableEq κ] in
/-- An edit that has not stored its value does not return. -/
theorem Awaits.not_ret (hzero : cfg.maxElements ≠ 0) (h : Awaits j i cfg fails s)
    (response : ConfigurationResponse) : s.thread j ≠ some (.ret response) := by
  intro hret
  rcases h _ hret with hprogram | hwrites
  · obtain ⟨next, hnext, -⟩ := edit_program hzero i fails
    rw [hnext] at hprogram
    cases hprogram
  · exact hwrites

/-- No thread but `j` writes the configuration of a queue. -/
def Alone (j : κ) (queue : String) (s : ConfigurationSystem ν κ) : Prop :=
  ∀ i p, i ≠ j → s.thread i = some p → All (fun c => ¬ EditsQueue queue c) p

theorem Alone.event {queue : String} (h : Alone j queue s)
    (hevent : Event Instances.handle ConfigurationRequest.program s l t)
    (hother : ∀ i request, l = .start i request → ¬ request.Edits queue) : Alone j queue t := by
  intro i' p hi hp
  cases hevent with
  | start i request hidle =>
    rcases Threads.setThread_eq_some hp with ⟨-, hp⟩ | ⟨-, hp⟩
    · cases hp
      exact ConfigurationRequest.all_program (hother i request rfl)
    · exact h i' p hi hp
  | finish i q hq hend =>
    rcases Threads.setThread_eq_some hp with ⟨-, hp⟩ | ⟨-, hp⟩
    · cases hp
    · exact h i' p hi hp
  | step i c next hnext =>
    rcases Threads.setThread_eq_some hp with ⟨rfl, hp'⟩ | ⟨-, hp⟩
    · cases hp'
      exact (h i' _ hi hnext).2 _
    · exact h i' p hi hp

theorem Holds.event (h : Holds j cfg s) (halone : Alone j cfg.queue s)
    (hevent : Event Instances.handle ConfigurationRequest.program s l t)
    (hcall : ∀ request, l ≠ .start j request) : Holds j cfg t := by
  cases hevent with
  | start i request hidle =>
    refine ⟨h.1, fun p hp => ?_⟩
    rcases Threads.setThread_eq_some hp with ⟨rfl, -⟩ | ⟨-, hp⟩
    · exact absurd rfl (hcall request)
    · exact h.2 p hp
  | finish i q hq hend =>
    refine ⟨h.1, fun p hp => ?_⟩
    rcases Threads.setThread_eq_some hp with ⟨-, hp⟩ | ⟨-, hp⟩
    · cases hp
    · exact h.2 p hp
  | step i c next hnext =>
    have hc : ¬ EditsQueue cfg.queue c := by
      by_cases hi : i = j
      · subst hi
        exact (h.2 _ hnext).1
      · exact (halone i _ hi hnext).1
    refine ⟨(maxElements_handle hc).trans h.1, fun p hp => ?_⟩
    rcases Threads.setThread_eq_some hp with ⟨rfl, hp'⟩ | ⟨-, hp⟩
    · cases hp'
      exact (h.2 _ hnext).2 _
    · exact h.2 p hp

end Threads

/-- An edit that returns without an error has stored its value at some moment of the call,
and at its end if no other edit of the queue overlaps it, as long as no edit meets an entry with
its own value of which the reading has been overtaken. -/
theorem edit_not_lost {s₀ : ConfigurationSystem ν κ} {s t : ConfigurationSystem ν κ × Overtaken ν κ}
    {j : κ} {i : ν} {cfg : QueueConfiguration} {fails : Bool} {response : ConfigurationResponse}
    {before tr : List (Label κ (ConfigurationRequest ν) ×
      Option (Except ConfigurationError ConfigurationResponse))}
    (hidle : s₀.Idle) (hbefore : Run (Instances.watched ν κ) (s₀, .unknown ν κ) before s)
    (hzero : cfg.maxElements ≠ 0)
    (hstart : s.1.thread j = some (ConfigurationRequest.edit i (some cfg) fails).program)
    (hcall : ∀ e ∈ tr, ∀ request, e.1 ≠ .start j request)
    (hrun : Run (Instances.current ν κ) s (tr ++ [(.finish j, some (.ok response))]) t) :
    (∃ tr' u, tr' <+: tr ∧ Run (Instances.current ν κ) s tr' u ∧
      u.1.shared.storage.maxElements cfg.queue = max cfg.maxElements 0) ∧
    (Alone j cfg.queue s.1 →
      (∀ e ∈ tr, ∀ i request, e.1 = .start i request → ¬ request.Edits cfg.queue) →
      t.1.shared.storage.maxElements cfg.queue = max cfg.maxElements 0) := by
  have htracked : ∀ {tr u}, Run (Instances.current ν κ) s tr u → Tracked u := by
    intro tr u hu
    exact ((tracked_unknown hidle).run hbefore).run (hu.imp fun _ _ _ _ h => h.1)
  obtain ⟨u, hu, hlast⟩ := run_append.mp hrun
  obtain ⟨t', ⟨hfinish, -⟩, hnil⟩ := run_cons.mp hlast
  rw [run_nil] at hnil
  subst hnil
  have hfinish := (watched_event hfinish).1
  obtain ⟨j', hlabel, hret⟩ := interleaved_result hfinish
  obtain rfl : j = j' := by simpa using hlabel
  have hinit : Awaits j i cfg fails s.1 := by
    intro p hp
    exact .inl (Option.some.inj (hp.symm.trans hstart))
  constructor
  · have hmoment : Awaits j i cfg fails u.1 ∨ ∃ tr' v, tr' <+: tr ∧
        Run (Instances.current ν κ) s tr' v ∧
        v.1.shared.storage.maxElements cfg.queue = max cfg.maxElements 0 := by
      refine hu.along (Q := fun tr u => Awaits j i cfg fails u.1 ∨ ∃ tr' v, tr' <+: tr ∧
        Run (Instances.current ν κ) s tr' v ∧
        v.1.shared.storage.maxElements cfg.queue = max cfg.maxElements 0) (.inl hinit) ?_
      rintro tr₁ x l r y hpre hx hstep (hawaits | ⟨tr', v, hpre', hv, hmax⟩)
      · have hl := hcall (l, r) (hpre.subset (by simp))
        have hevent := interleaved_event (watched_event hstep.1).1
        rcases hawaits.event hzero hevent (htracked hx) hstep.2 hl with hawaits | hholds
        · exact .inl hawaits
        · have hy := run_append.mpr ⟨x, hx, .cons hstep (.nil y)⟩
          exact .inr ⟨_, y, List.prefix_refl _, hy, hholds.1⟩
      · exact .inr ⟨tr', v, hpre'.trans (List.prefix_append _ _), hv, hmax⟩
    rcases hmoment with hawaits | hmoment
    · exact absurd hret (hawaits.not_ret hzero response)
    · exact hmoment
  · intro halone hother
    obtain ⟨halone', hawaits | hholds⟩ : Alone j cfg.queue u.1 ∧
        (Awaits j i cfg fails u.1 ∨ Holds j cfg u.1) := by
      refine hu.along (Q := fun _ u => Alone j cfg.queue u.1 ∧
        (Awaits j i cfg fails u.1 ∨ Holds j cfg u.1)) ⟨halone, .inl hinit⟩ ?_
      rintro tr₁ x l r y hpre hx ⟨hwatched, hcurrent⟩ ⟨halone, hstage⟩
      have hmem : (l, r) ∈ tr := hpre.subset (by simp)
      have hevent := interleaved_event (watched_event hwatched).1
      refine ⟨halone.event hevent (hother _ hmem), ?_⟩
      rcases hstage with hawaits | hholds
      · exact hawaits.event hzero hevent (htracked hx) hcurrent (hcall _ hmem)
      · exact .inr (hholds.event halone hevent (hcall _ hmem))
    · exact absurd hret (hawaits.not_ret hzero response)
    · exact (hholds.event halone' (interleaved_event hfinish) (by simp)).1

/-- Two instances share a storage; no call is in progress. -/
def sharedStorage : ConfigurationSystem Bool Bool where
  shared := ⟨.empty, fun _ _ => none⟩
  thread := fun _ => none

/-- One instance sets a maximum and reads it, which fills its local cache. Between its reading and
the filling the other one sets the same maximum, and later that of another queue. -/
def readAndFilled : List (Label Bool (ConfigurationRequest Bool)) :=
  [.start true (.edit true (some ⟨"q", 5⟩) false), .step true, .step true, .finish true,
    .start true (.get true "q" false), .step true, .step true,
    .start false (.edit false (some ⟨"q", 5⟩) false), .step false, .step false,
    .step true, .finish true, .finish false,
    .start false (.edit false (some ⟨"r", 7⟩) false), .step false, .step false, .finish false]

/-- The first instance sets its maximum again, finds it in its local cache and writes nothing. -/
theorem edit_not_lost_again :
    ∃ before s t, Run (Instances.watched Bool Bool) (sharedStorage, .unknown Bool Bool) before s ∧
      s.1.shared.localCache true "q" = some ⟨"q", 5⟩ ∧
      Run (Instances.current Bool Bool) s
        ([(.step true, none)] ++ [(.finish true, some (.ok .edited))]) t ∧
      t.1.shared.storage.maxElements "q" = 5 := by
  obtain ⟨⟨before, x⟩, hreplay, hreached⟩ := (Option.any_eq_true _ _).mp
    (show ((replay Instances.watch (sharedStorage, .unknown Bool Bool) readAndFilled).any fun r =>
      decide (r.2.1.shared.localCache true "q" = some ⟨"q", 5⟩ ∧
        (∀ i, (r.2.1.thread i).isNone = true) ∧ r.2.2.entry (true, "q") = false)) = true by
      decide +kernel)
  obtain ⟨hentry, hthreads, hcurrent⟩ : x.1.shared.localCache true "q" = some ⟨"q", 5⟩ ∧
      (∀ i, (x.1.thread i).isNone = true) ∧ x.2.entry (true, "q") = false :=
    of_decide_eq_true hreached
  have hidle : ∀ i, x.1.thread i = none := fun i => Option.isNone_iff_eq_none.mp (hthreads i)
  let again : ConfigurationRequest Bool := .edit true (some ⟨"q", 5⟩) false
  have hbegin : Instances.watched Bool Bool x (.start true again) none
      (x.1.setThread true (some again.program), x.2) := by
    simp [Instances.watched, ofPartial, Instances.watch, advance, hidle, Overtaken.event]
  have hbefore := run_append.mpr ⟨x, run_replay hreplay, .cons hbegin (.nil _)⟩
  obtain ⟨next, hnext, hcases⟩ : ∃ next, again.program = .call (.localGet true "q") next ∧ _ :=
    edit_program (by decide) true false
  have hret : next (some ⟨"q", 5⟩) = .ret .edited := by
    rcases hcases (some ⟨"q", 5⟩) with ⟨-, hne⟩ | ⟨-, hret⟩
    · exact absurd rfl (hne _ rfl)
    · exact hret
  have hlook : Instances.watched Bool Bool (x.1.setThread true (some again.program), x.2)
      (.step true) none (x.1.setThread true (some (.ret .edited)), x.2) := by
    simp [Instances.watched, ofPartial, Instances.watch, advance, Threads.setThread, hnext,
      Instances.handle, hentry, hret, Overtaken.event, Overtaken.access]
  have hfound : Current (x.1.setThread true (some again.program), x.2) (.step true) := by
    intro i cfg fails hthread c hc heq
    rw [Threads.setThread_self, hnext] at hthread
    by_cases hzero : cfg.maxElements = 0
    · simp [ConfigurationRequest.program, editQueueConfiguration, hzero] at hthread
    · obtain ⟨next', hnext', -⟩ := edit_program hzero i fails
      rw [hnext'] at hthread
      simp only [Option.some.injEq, Prog.call.injEq, ConfigurationCommand.localGet.injEq] at hthread
      rw [← hthread.1.1, ← hthread.1.2]
      exact hcurrent
  have hreturn : Instances.watched Bool Bool (x.1.setThread true (some (.ret .edited)), x.2)
      (.finish true) (some (.ok .edited)) (x.1.setThread true none, x.2) := by
    simp [Instances.watched, ofPartial, Instances.watch, advance, Threads.setThread,
      Overtaken.event]
  have hrun : Run (Instances.current Bool Bool) _
      ([(.step true, none)] ++ [(.finish true, some (.ok .edited))]) _ :=
    .cons ⟨hlook, hfound⟩ (.cons ⟨hreturn, trivial⟩ (.nil _))
  refine ⟨_, _, _, hbefore, hentry, hrun, ?_⟩
  exact (edit_not_lost (fun _ => rfl) hbefore (by decide) Threads.setThread_self (by simp)
    hrun).2 (by simp [Alone, Threads.setThread, hidle]) (by simp)

/-- One instance has read the maximum that it has set; another instance has changed it. -/
def staleEntry : Instances Bool :=
  let w : Instances Bool := ⟨.empty, fun _ _ => none⟩
  let w := (w.serve (.edit true (some ⟨"q", 5⟩) false)).2
  let w := (w.serve (.get true "q" false)).2
  (w.serve (.edit false (some ⟨"q", 7⟩) false)).2

/-- The first instance sets the old maximum again. -/
def secondEdit : ConfigurationSystem Bool Unit where
  shared := staleEntry
  thread := fun _ => some (ConfigurationRequest.edit true (some ⟨"q", 5⟩) false).program

/-- The call looks at its local cache and returns. -/
def secondCall : List (Label Unit (ConfigurationRequest Bool)) := [.step (), .finish ()]

theorem edit_lost :
    ∃ tr t, Run (Instances.concurrent Bool Unit) secondEdit
        (tr ++ [(.finish (), some (.ok .edited))]) t ∧
      (∀ e ∈ tr, ∀ request, e.1 ≠ .start () request) ∧
      Throughout (Instances.concurrent Bool Unit) secondEdit
        (tr ++ [(.finish (), some (.ok .edited))]) fun u =>
          u.shared.storage.maxElements "q" = 7 := by
  obtain ⟨⟨tr, t⟩, hfollow, hend⟩ := (Option.any_eq_true _ _).mp
    (show ((follow Instances.handle ConfigurationRequest.program secondEdit secondCall).any
      fun r => decide (r.1.map Prod.snd = [none, some (.ok .edited)])) = true by decide +kernel)
  have hresults : tr.map Prod.snd = [none, some (.ok .edited)] := of_decide_eq_true hend
  obtain rfl : tr = [(.step (), none)] ++ [(.finish (), some (.ok .edited))] := by
    rw [← List.zip_unzip tr, List.unzip_eq_map, map_fst_follow hfollow, hresults]
    rfl
  have hall : (secondCall.inits.all fun ls =>
      (follow Instances.handle ConfigurationRequest.program secondEdit ls).all fun r =>
        decide (r.2.shared.storage.maxElements "q" = 7)) = true := by
    decide +kernel
  refine ⟨[(.step (), none)], t, run_follow hfollow, by simp, throughout_follow hfollow ?_⟩
  intro ls hls r hr
  exact of_decide_eq_true ((Option.all_eq_true _ _).mp (List.all_eq_true.mp hall ls hls) r hr)

end Deckard
