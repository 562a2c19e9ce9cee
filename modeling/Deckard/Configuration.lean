import Deckard.Program

/-!
# Queue configurations

Instances of `DefaultQueueConfigurationService` share a storage. Each keeps the
configurations that it has read in a local cache, where an entry may expire at any time.
-/
namespace Deckard

open Program Prog Runs

@[ext] structure QueueConfiguration where
  queue : String
  maxElements : Int64 := 0
  deriving DecidableEq

/-- The stored configurations, each under its queue and with no negative maximum. -/
@[ext] structure Configurations where
  find : String → Option QueueConfiguration
  queue_eq : ∀ {queue c}, find queue = some c → c.queue = queue
  nonneg : ∀ {queue c}, find queue = some c → 0 ≤ c.maxElements

namespace Configurations

def empty : Configurations := ⟨fun _ => none, by simp, by simp⟩

/-- Store a configuration in place of the one of its queue. -/
def set (s : Configurations) (c : QueueConfiguration) (hc : 0 ≤ c.maxElements) :
    Configurations where
  find := Function.update s.find c.queue (some c)
  queue_eq := by
    intro queue c' h
    by_cases hq : queue = c.queue
    · subst hq
      rw [Function.update_self] at h
      cases h
      rfl
    · rw [Function.update_of_ne hq] at h
      exact s.queue_eq h
  nonneg := by
    intro queue c' h
    by_cases hq : queue = c.queue
    · subst hq
      rw [Function.update_self] at h
      cases h
      exact hc
    · rw [Function.update_of_ne hq] at h
      exact s.nonneg h

/-- The stored maximum of a queue, zero if there is none. -/
def maxElements (s : Configurations) (queue : String) : Int64 :=
  ((s.find queue).map QueueConfiguration.maxElements).getD 0

theorem maxElements_nonneg (s : Configurations) (queue : String) : 0 ≤ s.maxElements queue := by
  unfold maxElements
  cases h : s.find queue with
  | none => decide
  | some c => exact s.nonneg h

theorem maxElements_set (s : Configurations) {c : QueueConfiguration} (hc : 0 ≤ c.maxElements)
    (queue : String) :
    (s.set c hc).maxElements queue =
      if queue = c.queue then c.maxElements else s.maxElements queue := by
  unfold maxElements set
  split_ifs with hq
  · subst hq
    simp
  · simp [hq]

end Configurations

/-- The maximum that an edit stores. -/
theorem max_zero (m : Int64) : max m 0 = if m < 0 then 0 else m := by
  change (if m ≤ 0 then 0 else m) = _
  by_cases hneg : m < 0
  · rw [if_pos hneg, if_pos (Int64.le_of_lt hneg)]
  · rw [if_neg hneg]
    split_ifs with hle
    · exact (Int64.le_antisymm hle (Int64.not_lt.mp hneg)).symm
    · rfl

def MemoryStorage.editQueueConfiguration (configuration : QueueConfiguration)
    (s : Configurations) : Configurations :=
  if configuration.maxElements = 0 then s
  else if h : configuration.maxElements < 0 then
    s.set { configuration with maxElements := 0 } (Int64.le_refl 0)
  else s.set configuration (Int64.not_lt.mp h)

/-- The fields that `MongoStorage` sets; an update of none is not sent. -/
def MongoStorage.configurationSet (configuration : QueueConfiguration) :
    Option { m : Int64 // 0 ≤ m } :=
  if configuration.maxElements ≠ 0 then
    if h : configuration.maxElements < 0 then some ⟨0, Int64.le_refl 0⟩
    else some ⟨configuration.maxElements, Int64.not_lt.mp h⟩
  else none

def MongoStorage.editQueueConfiguration (configuration : QueueConfiguration)
    (s : Configurations) : Configurations :=
  match MongoStorage.configurationSet configuration with
  | none => s
  | some m => s.set { queue := configuration.queue, maxElements := m } m.2

/-- Both storages edit a configuration in the same way. -/
theorem editQueueConfiguration_eq (configuration : QueueConfiguration) (s : Configurations) :
    MongoStorage.editQueueConfiguration configuration s =
      MemoryStorage.editQueueConfiguration configuration s := by
  unfold MongoStorage.editQueueConfiguration MongoStorage.configurationSet
    MemoryStorage.editQueueConfiguration
  by_cases hzero : configuration.maxElements = 0
  · rw [if_neg (not_not.mpr hzero), if_pos hzero]
  · rw [if_pos hzero, if_neg hzero]
    split_ifs <;> rfl

theorem maxElements_edit (configuration : QueueConfiguration) (s : Configurations)
    (queue : String) :
    (MemoryStorage.editQueueConfiguration configuration s).maxElements queue =
      if queue = configuration.queue ∧ configuration.maxElements ≠ 0 then
        max configuration.maxElements 0
      else s.maxElements queue := by
  unfold MemoryStorage.editQueueConfiguration
  rw [max_zero]
  split_ifs with hzero hneg hq hq hq <;>
    simp_all [Configurations.maxElements_set]

/-! ## The service -/

inductive ConfigurationError
  | storage
  deriving DecidableEq

/-- One access to the local cache of an instance or to the storage. Whether an access to
the storage fails is decided outside. -/
inductive ConfigurationCommand (ν : Type)
  | localGet (i : ν) (queue : String)
  | localSet (i : ν) (queue : String) (config : QueueConfiguration)
  | localDelete (i : ν) (queue : String)
  | storageEdit (config : QueueConfiguration) (fails : Bool)
  | storageGet (queue : String) (fails : Bool)

abbrev ConfigurationAnswer {ν : Type} : ConfigurationCommand ν → Type
  | .localGet .. => Option QueueConfiguration
  | .localSet .. | .localDelete .. => Unit
  | .storageEdit .. => Except ConfigurationError Unit
  | .storageGet .. => Except ConfigurationError (Option QueueConfiguration)

/-- The storage and the local cache of every instance. -/
structure Instances (ν : Type) where
  storage : Configurations
  localCache : ν → String → Option QueueConfiguration

variable {ν : Type} [DecidableEq ν]

/-- Change one entry of a local cache. -/
def Instances.setLocal (w : Instances ν) (i : ν) (queue : String)
    (entry : Option QueueConfiguration) : Instances ν :=
  let entries := Function.update (w.localCache i) queue entry
  { w with localCache := Function.update w.localCache i entries }

theorem Instances.setLocal_localCache (w : Instances ν) (i j : ν) (queue queue' : String)
    (entry : Option QueueConfiguration) :
    (w.setLocal i queue entry).localCache j queue' =
      if j = i ∧ queue' = queue then entry else w.localCache j queue' := by
  by_cases hj : j = i
  · subst hj
    by_cases hq : queue' = queue
    · subst hq
      simp [setLocal]
    · simp [setLocal, hq]
  · simp [setLocal, hj]

def Instances.handle : (c : ConfigurationCommand ν) → Instances ν →
    ConfigurationAnswer c × Instances ν
  | .localGet i queue, w => (w.localCache i queue, w)
  | .localSet i queue config, w => ((), w.setLocal i queue (some config))
  | .localDelete i queue, w => ((), w.setLocal i queue none)
  | .storageEdit config fails, w =>
      if fails then (.error .storage, w)
      else (.ok (), { w with storage := MongoStorage.editQueueConfiguration config w.storage })
  | .storageGet queue fails, w =>
      (if fails then .error .storage else .ok (w.storage.find queue), w)

abbrev ConfigurationProg (ν α : Type) :=
  Prog (ConfigurationCommand ν) ConfigurationAnswer ConfigurationError α

namespace QueueConfigurationService

section Accesses

variable (i : ν) (queue : String) (fails : Bool)

abbrev localGet : ConfigurationProg ν (Option QueueConfiguration) :=
  perform (ConfigurationCommand.localGet i queue)

abbrev localSet (config : QueueConfiguration) : ConfigurationProg ν Unit :=
  perform (ConfigurationCommand.localSet i queue config)

abbrev localDelete : ConfigurationProg ν Unit :=
  perform (ConfigurationCommand.localDelete i queue)

abbrev storageEdit (config : QueueConfiguration) :
    ConfigurationProg ν (Except ConfigurationError Unit) :=
  perform (ConfigurationCommand.storageEdit config fails)

abbrev storageGet :
    ConfigurationProg ν (Except ConfigurationError (Option QueueConfiguration)) :=
  perform (ConfigurationCommand.storageGet queue fails)

end Accesses

/-- Return the error of an access. -/
def returned {α : Type} : Except ConfigurationError α → ConfigurationProg ν α
  | .ok a => .ret a
  | .error e => .fail e

/-- Nothing is written if the local entry has the new value. An entry with another value
is deleted after the write, even if that has failed. -/
def editQueueConfiguration (i : ν) (cfg : Option QueueConfiguration) (fails : Bool) :
    ConfigurationProg ν Unit :=
  match cfg with
  | none => pure ()
  | some cfg =>
    if cfg.maxElements = 0 then pure () else do
      match ← localGet i cfg.queue with
      | none => do
          let result ← storageEdit fails cfg
          returned result
      | some cacheConfiguration =>
          if cacheConfiguration.maxElements ≠ cfg.maxElements then do
            let result ← storageEdit fails cfg
            let _ ← localDelete i cfg.queue
            returned result
          else pure ()

def getQueueConfiguration (i : ν) (queue : String) (fails : Bool) :
    ConfigurationProg ν QueueConfiguration := do
  match ← localGet i queue with
  | some config => pure config
  | none => do
      let answer ← storageGet queue fails
      let found ← returned answer
      let config := found.getD { queue := queue }
      let _ ← localSet i queue config
      pure config

end QueueConfigurationService

open QueueConfigurationService

/-- Calls of the instances and expirations of their local entries. -/
inductive ConfigurationRequest (ν : Type)
  | edit (i : ν) (cfg : Option QueueConfiguration) (fails : Bool)
  | get (i : ν) (queue : String) (fails : Bool)
  | expire (i : ν) (queue : String)

inductive ConfigurationResponse
  | edited
  | found (config : QueueConfiguration)
  | expired
  deriving DecidableEq

def ConfigurationRequest.program :
    ConfigurationRequest ν → ConfigurationProg ν ConfigurationResponse
  | .edit i cfg fails => (fun _ => .edited) <$> editQueueConfiguration i cfg fails
  | .get i queue fails => .found <$> getQueueConfiguration i queue fails
  | .expire i queue => (fun _ => .expired) <$> localDelete i queue

/-- A call served from its start to its end. -/
def Instances.serve (w : Instances ν) (request : ConfigurationRequest ν) :
    Except ConfigurationError ConfigurationResponse × Instances ν :=
  Prog.run Instances.handle request.program w

/-- Calls of one instance, one after the other. -/
def Instances.sequential : Machine (Instances Unit) (ConfigurationRequest Unit)
    (Except ConfigurationError ConfigurationResponse) :=
  ofStep Instances.serve

abbrev ConfigurationSystem (ν κ : Type) := Threads (Instances ν) κ (ConfigurationCommand ν)
  ConfigurationAnswer ConfigurationError ConfigurationResponse

/-- Calls of any number of instances whose accesses interleave. -/
def Instances.concurrent (ν κ : Type) [DecidableEq ν] [DecidableEq κ] :
    Machine (ConfigurationSystem ν κ) (Label κ (ConfigurationRequest ν))
      (Option (Except ConfigurationError ConfigurationResponse)) :=
  interleaved Instances.handle ConfigurationRequest.program

end Deckard
