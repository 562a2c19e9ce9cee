import Deckard.RedisListing
import Mathlib.Data.List.DropRight

/-!
# Namespaces in one Redis

The keys of a Redis cache begin with its configured prefix, and `Flush` deletes the keys that
match the prefix, a colon and a star. Two instances with different prefixes share a Redis without
touching each other's keys unless one prefix, with a colon, begins the other one, or a prefix has
characters with a meaning in a pattern.
-/
namespace Deckard

open Effect Cache Glob Utf8

namespace Redis

/-- `DEL`. -/
def del (keys : List String) (s : Redis) : Redis where
  zset := fun k => if k ∈ keys then SortedSet.empty else s.zset k
  str := fun k => if k ∈ keys then none else s.str k

end Redis

namespace RedisCache

/-- The characters that `strings.TrimSpace` takes away. -/
def isSpace (c : Char) : Bool :=
  c ∈ ['\t', '\n', '\x0b', '\x0c', '\r', ' ', '\u0085', '\u00a0', '\u1680', '\u2028', '\u2029',
    '\u202f', '\u205f', '\u3000'] || '\u2000' ≤ c && c ≤ '\u200a'

/-- Take admitted characters away at both ends. -/
def trim (cut : Char → Bool) (text : String) : String :=
  String.ofList ((text.toList.dropWhile cut).rdropWhile cut)

/-- The prefix of an instance, from the text of its configuration. -/
def resolveConfiguredPrefix (text : String) : String :=
  let trimmed := trim isSpace text
  if trimmed = "" then "deckard_v1" else trim (· == ':') trimmed

def configured (text : String) : RedisCache := ⟨resolveConfiguredPrefix text⟩

/-- The errors of a command: those of a node, and that of a cluster for keys in different
slots. -/
inductive CommandError
  | node (e : RedisError)
  | crossSlot
  deriving DecidableEq, Repr

def CommandError.text : CommandError → String
  | .node e => e.text
  | .crossSlot => "CROSSSLOT Keys in request don't hash to the same slot"

/-- Deletes the keys of a node that match a pattern, a thousand at a time, and one by one where a
thousand of them are not in one slot. -/
def deleteByPattern (del : List String → Eff Redis CommandError Unit) (scan : Redis.Scan)
    (pattern : String) : Eff Redis CommandError Unit := do
  let keysToDelete ← wrap .node (scanKeys scan pattern)
  forM (Gopart.partition 1000 (uniqStrings keysToDelete)) fun part => do
    match ← (attempt (del part) : Eff Redis CommandError _) with
    | .ok () => pure ()
    | .error .crossSlot => forM part fun key => del [key]
    | .error e => throw e

/-- `DEL` on a single node. -/
def del (keys : List String) : Eff Redis CommandError Unit := update fun s => ((), s.del keys)

variable (cache : RedisCache)

def flushPattern : String := cache.configuredPrefix ++ ":*"

/-- An error is only logged. -/
def flush (scan : Redis.Scan) : Eff Redis RedisError Unit := do
  let _ ← (attempt (deleteByPattern del scan cache.flushPattern) : Eff Redis RedisError _)
  return ()

/-- The keys of the recovery. -/
def recoveryKeys : List String :=
  [recoveryRunning, recoveryStorageBreakpointKey, recoveryBreakpointKey]

/-- The keys that an instance can write. -/
def Writes (k : String) : Prop :=
  (∃ queue p, Accepts queue ∧ k = cache.key queue p) ∨
    ∃ name ∈ recoveryKeys, k = cache.generalCacheKey name

/-- Two instances have no key in common, and neither deletes keys of the other. -/
structure Isolated (scan : Redis.Scan) (cache other : RedisCache) : Prop where
  keys : ∀ k, cache.Writes k → ¬ other.Writes k
  flush : ∀ s : Redis, {k | s.Exists k}.Finite → ∀ k, other.Writes k → s.Exists k →
    (exec (cache.flush scan) s).2.Exists k
  flushed : ∀ s : Redis, {k | s.Exists k}.Finite → ∀ k, cache.Writes k → s.Exists k →
    (exec (other.flush scan) s).2.Exists k

/-! ## What a flush deletes -/

variable {cache} {other : RedisCache} {signed : Bool} {scan : Redis.Scan} {s : Redis}

theorem del_del (keys keys' : List String) (s : Redis) :
    (s.del keys).del keys' = s.del (keys ++ keys') := by
  simp only [Redis.del, List.mem_append]
  congr 1
  · funext k
    by_cases h : k ∈ keys' <;> simp [h]
  · funext k
    by_cases h : k ∈ keys' <;> simp [h]

/-- A deletion that refuses at most keys of different slots. -/
structure DeletesKeys (del : List String → Eff Redis CommandError Unit) : Prop where
  all : ∀ keys s, exec (del keys) s = (.ok (), s.del keys) ∨
    exec (del keys) s = (.error .crossSlot, s)
  one : ∀ key s, exec (del [key]) s = (.ok (), s.del [key])

theorem deletes_del : DeletesKeys del := ⟨fun _ _ => .inl rfl, fun _ _ => rfl⟩

theorem del_nil (s : Redis) : s.del [] = s := by
  simp [Redis.del]

section DeletesKeys

variable {del : List String → Eff Redis CommandError Unit}

theorem DeletesKeys.exec_forM (hdel : DeletesKeys del) (keys : List String) (s : Redis) :
    exec (forM keys fun key => del [key]) s = (.ok (), s.del keys) := by
  induction keys generalizing s with
  | nil =>
    rw [del_nil]
    rfl
  | cons key keys ih =>
    rw [List.forM_cons, exec_bind, hdel.one, andThen_ok, ih, del_del]
    rfl

/-- The keys that match are deleted, whatever slots they are in. -/
theorem DeletesKeys.exec_deleteByPattern (hdel : DeletesKeys del) {pattern : String}
    {keys : List String} (h : scan s pattern = .ok keys) :
    exec (deleteByPattern del scan pattern) s = (.ok (), s.del (uniqStrings keys)) := by
  have hpart : ∀ (part : List String) (s : Redis),
      exec (do
        match ← (attempt (del part) : Eff Redis CommandError _) with
        | .ok () => pure ()
        | .error .crossSlot => forM part fun key => del [key]
        | .error e => throw e) s = (.ok (), s.del part) := by
    intro part s
    rw [exec_bind, exec_attempt, andThen_ok]
    rcases hdel.all part s with hall | hcross
    · rw [hall]
      rfl
    · rw [hcross]
      exact hdel.exec_forM part s
  have hloop : ∀ (parts : List (List String)) (s : Redis),
      exec (forM parts fun part => do
        match ← (attempt (del part) : Eff Redis CommandError _) with
        | .ok () => pure ()
        | .error .crossSlot => forM part fun key => del [key]
        | .error e => throw e) s = (.ok (), s.del parts.flatten) := by
    intro parts
    induction parts with
    | nil =>
      intro s
      rw [List.flatten_nil, del_nil]
      rfl
    | cons part parts ih =>
      intro s
      rw [List.forM_cons, exec_bind, hpart, andThen_ok, ih, del_del, List.flatten_cons]
  rw [deleteByPattern, exec_bind, exec_wrap_ok (exec_scanKeys h), andThen_ok, hloop,
    Gopart.flatten_partition (by norm_num)]

end DeletesKeys

theorem exec_flush_of_scan {keys : List String} (h : scan s cache.flushPattern = .ok keys) :
    exec (cache.flush scan) s = (.ok (), s.del (uniqStrings keys)) := by
  rw [flush, exec_bind, exec_attempt, andThen_ok, deletes_del.exec_deleteByPattern h]
  rfl

/-- A flush deletes the keys that match its pattern. -/
theorem exec_flush (cache : RedisCache) (hscan : scan.Globs signed) (hs : {k | s.Exists k}.Finite) :
    ∃ keys, exec (cache.flush scan) s = (.ok (), s.del keys) ∧
      ∀ k, k ∈ keys ↔ s.Exists k ∧ Redis.globs signed cache.flushPattern k = true := by
  obtain ⟨keys, hkeys, hmem⟩ := hscan s hs cache.flushPattern
  refine ⟨uniqStrings keys, exec_flush_of_scan hkeys, fun k => ?_⟩
  rw [(uniqStrings_spec keys).2, hmem]

theorem exists_del {keys : List String} {k : String} :
    (s.del keys).Exists k ↔ k ∉ keys ∧ s.Exists k := by
  by_cases h : k ∈ keys <;> simp [Redis.Exists, Redis.del, h]

/-- The flush of one instance spares the keys of another if its pattern matches none of them. -/
theorem flush_spares_iff (hscan : scan.Globs signed) :
    (∀ s : Redis, {k | s.Exists k}.Finite → ∀ k, other.Writes k → s.Exists k →
        (exec (cache.flush scan) s).2.Exists k) ↔
      ¬ ∃ k, other.Writes k ∧ Redis.globs signed cache.flushPattern k = true := by
  constructor
  · rintro hspares ⟨k, hk, hmatch⟩
    -- a Redis that holds nothing but this key
    let s : Redis := ⟨fun _ => SortedSet.empty, Function.update (fun _ => none) k (some "")⟩
    have hexists : ∀ j, s.Exists j ↔ j = k := by
      intro j
      by_cases h : j = k <;> simp [s, Redis.Exists, h]
    have hfinite : {j | s.Exists j}.Finite := by simp [hexists]
    obtain ⟨keys, hflush, hmem⟩ := exec_flush cache hscan hfinite
    have hkept := hspares s hfinite k hk ((hexists k).mpr rfl)
    rw [hflush] at hkept
    exact (exists_del.mp hkept).1 ((hmem k).mpr ⟨(hexists k).mpr rfl, hmatch⟩)
  · intro hnone s hs k hk hexists
    obtain ⟨keys, hflush, hmem⟩ := exec_flush cache hscan hs
    rw [hflush]
    exact exists_del.mpr ⟨fun hkey => hnone ⟨k, hk, ((hmem k).mp hkey).2⟩, hexists⟩

/-! ## Patterns along the keys -/

/-- The characters of accepted queue names. -/
def NameChar (c : Char) : Prop := c ≠ '\x7b' ∧ c ≠ '\x7d'

/-- The characters of a name, as they are sent. -/
def nameCode : Set (List UInt8) := { word | ∃ c, NameChar c ∧ word = String.utf8EncodeChar c }

/-- The keys of a pool, with a hole for the name of the queue. -/
def poolSlots (cache : RedisCache) (p : Pool) : List Glob.Slot :=
  (bytes (cache.poolPrefix.toList ++ ['\x7b'])).map .byte ++
    .hole :: (bytes ('\x7d' :: p.suffix)).map .byte

theorem accepts_ofList {name : List Char} :
    Accepts (String.ofList name) ↔ ∀ c ∈ name, NameChar c := by
  rw [accepts_iff]
  simp [hasHashTag, NameChar]

/-- Words of the code are the characters of a name. -/
theorem exists_name {words : List (List UInt8)} (h : ∀ word ∈ words, word ∈ nameCode) :
    ∃ name, (∀ c ∈ name, NameChar c) ∧ words.flatten = bytes name := by
  induction words with
  | nil => exact ⟨[], by simp, rfl⟩
  | cons word words ih =>
    obtain ⟨⟨c, hc, rfl⟩, hwords⟩ := List.forall_mem_cons.mp h
    obtain ⟨name, hname, hflatten⟩ := ih hwords
    exact ⟨c :: name, List.forall_mem_cons.mpr ⟨hc, hname⟩, by simp [hflatten]⟩

theorem fills_poolSlots {p : Pool} {text : List UInt8} :
    Fills nameCode (cache.poolSlots p) text ↔
      ∃ queue, Accepts queue ∧ text = bytes (cache.key queue p).toList := by
  rw [poolSlots, fills_between]
  constructor
  · rintro ⟨words, hwords, rfl⟩
    obtain ⟨name, hname, hflatten⟩ := exists_name hwords
    refine ⟨String.ofList name, accepts_ofList.mpr hname, ?_⟩
    simp only [toList_key, String.toList_ofList, bytes_append, hflatten]
  · rintro ⟨queue, haccepts, rfl⟩
    rw [← String.ofList_toList (s := queue)] at haccepts
    have hname := accepts_ofList.mp haccepts
    refine ⟨queue.toList.map String.utf8EncodeChar, ?_, ?_⟩
    · intro word hword
      obtain ⟨c, hc, rfl⟩ := List.mem_map.mp hword
      exact ⟨c, hname c hc, rfl⟩
    · simp only [toList_key, bytes_append]
      rfl

/-- The pattern of a flush fits a key of the other instance. -/
def Sweeps (signed : Bool) (cache other : RedisCache) : Prop :=
  (∃ p, Fits signed nameCode (parse .outside (bytes cache.flushPattern.toList))
      (other.poolSlots p)) ∨
    ∃ name ∈ recoveryKeys, Fits signed nameCode (parse .outside (bytes cache.flushPattern.toList))
      ((bytes (other.generalCacheKey name).toList).map .byte)

theorem sweeps_iff :
    Sweeps signed cache other ↔
      ∃ k, other.Writes k ∧ Redis.globs signed cache.flushPattern k = true := by
  simp only [Sweeps, fits_iff, fills_bytes, fills_poolSlots]
  constructor
  · rintro (⟨p, text, ⟨queue, haccepts, rfl⟩, hmatch⟩ | ⟨name, hname, text, rfl, hmatch⟩)
    · exact ⟨other.key queue p, .inl ⟨queue, p, haccepts, rfl⟩, hmatch⟩
    · exact ⟨other.generalCacheKey name, .inr ⟨name, hname, rfl⟩, hmatch⟩
  · rintro ⟨k, ⟨queue, p, haccepts, rfl⟩ | ⟨name, hname, rfl⟩, hmatch⟩
    · exact .inl ⟨p, _, ⟨queue, haccepts, rfl⟩, hmatch⟩
    · exact .inr ⟨name, hname, _, rfl, hmatch⟩

/-! ## Keys in common -/

/-- What stands before the first brace of a key. -/
def front (k : String) : List Char := k.toList.takeWhile (· ≠ '\x7b')

theorem takeWhile_append {text : List Char} (h : '\x7b' ∉ text) (rest : List Char) :
    (text ++ rest).takeWhile (· ≠ '\x7b') = text ++ rest.takeWhile (· ≠ '\x7b') := by
  apply List.takeWhile_append_of_pos
  intro c hc
  exact decide_eq_true fun heq => h (heq ▸ hc)

theorem takeWhile_front {text : List Char} (h : '\x7b' ∉ text) (rest : List Char) :
    (text ++ '\x7b' :: rest).takeWhile (· ≠ '\x7b') = text := by
  rw [takeWhile_append h]
  simp

/-- The prefix of an instance without braces. -/
def Braceless (cache : RedisCache) : Prop := hasHashTag cache.configuredPrefix = false

theorem Braceless.notMem (h : cache.Braceless) :
    '\x7b' ∉ cache.configuredPrefix.toList ++ [':'] := by
  rw [List.mem_append, not_or]
  exact ⟨(notMem_of_hasHashTag h).1, by decide⟩

theorem front_key (h : cache.Braceless) (queue : String) (p : Pool) :
    front (cache.key queue p) = cache.configuredPrefix.toList ++ ":queue:".toList := by
  have hbrace : '\x7b' ∉ cache.poolPrefix.toList := by
    rw [poolPrefix, String.toList_append, List.mem_append, not_or]
    exact ⟨(notMem_of_hasHashTag h).1, by decide⟩
  rw [front, toList_key, List.append_assoc, List.singleton_append, takeWhile_front hbrace,
    poolPrefix, String.toList_append]

theorem toList_generalCacheKey (cache : RedisCache) (name : String) :
    (cache.generalCacheKey name).toList =
      (cache.configuredPrefix.toList ++ [':']) ++ '\x7b' :: (name.toList ++ ['\x7d']) := by
  simp [generalCacheKey, String.toList_append]

theorem front_generalCacheKey (h : cache.Braceless) (name : String) :
    front (cache.generalCacheKey name) = cache.configuredPrefix.toList ++ [':'] := by
  rw [front, toList_generalCacheKey, takeWhile_front h.notMem]

theorem append_queue_inj {a b : String}
    (h : a.toList ++ [':'] = b.toList ++ ":queue:".toList) : a = b ++ ":queue" := by
  apply String.toList_injective
  rw [String.toList_append]
  have hsplit : b.toList ++ ":queue:".toList = (b.toList ++ ":queue".toList) ++ [':'] := by simp
  rw [hsplit] at h
  exact List.append_cancel_right h

/-- The names of a pool key and of a key of the recovery are the same text if one prefix is the
other one and `:queue`. -/
theorem key_recovery {name : String}
    (h : cache.configuredPrefix = other.configuredPrefix ++ ":queue") :
    cache.generalCacheKey name = other.key name .active := by
  simp [generalCacheKey, key, activePool, poolPrefix, h, String.append_assoc]

theorem accepts_recovery : Accepts recoveryRunning := accepts_iff.mpr (by decide)

/-- Two instances have a key in common if their prefixes are the same or one is the other one
and `:queue`. -/
theorem exists_common_key_iff (h : cache.Braceless) (h' : other.Braceless) :
    (∃ k, cache.Writes k ∧ other.Writes k) ↔
      cache.configuredPrefix = other.configuredPrefix ∨
        cache.configuredPrefix = other.configuredPrefix ++ ":queue" ∨
        other.configuredPrefix = cache.configuredPrefix ++ ":queue" := by
  have hrunning : recoveryRunning ∈ recoveryKeys := List.mem_cons_self
  constructor
  · rintro ⟨k, ⟨queue, p, -, rfl⟩ | ⟨name, -, rfl⟩, ⟨queue', p', -, hk⟩ | ⟨name', -, hk⟩⟩
    · have hfront := congrArg front hk
      rw [front_key h, front_key h'] at hfront
      exact .inl (String.toList_injective (List.append_cancel_right hfront))
    · have hfront := congrArg front hk
      rw [front_key h, front_generalCacheKey h'] at hfront
      exact .inr (.inr (append_queue_inj hfront.symm))
    · have hfront := congrArg front hk
      rw [front_generalCacheKey h, front_key h'] at hfront
      exact .inr (.inl (append_queue_inj hfront))
    · have hfront := congrArg front hk
      rw [front_generalCacheKey h, front_generalCacheKey h'] at hfront
      exact .inl (String.toList_injective (List.append_cancel_right hfront))
  · rintro (heq | heq | heq)
    · refine ⟨cache.generalCacheKey recoveryRunning, .inr ⟨_, hrunning, rfl⟩,
        .inr ⟨_, hrunning, ?_⟩⟩
      rw [generalCacheKey, generalCacheKey, heq]
    · exact ⟨cache.generalCacheKey recoveryRunning, .inr ⟨_, hrunning, rfl⟩,
        .inl ⟨recoveryRunning, .active, accepts_recovery, key_recovery heq⟩⟩
    · exact ⟨other.generalCacheKey recoveryRunning,
        .inl ⟨recoveryRunning, .active, accepts_recovery, key_recovery heq⟩,
        .inr ⟨_, hrunning, rfl⟩⟩

/-- The condition on two prefixes: they differ, neither is the other one and `:queue`, and no
pattern of a flush fits a key of the other instance. -/
structure Separated (signed : Bool) (cache other : RedisCache) : Prop where
  ne : cache.configuredPrefix ≠ other.configuredPrefix
  ne_queue : cache.configuredPrefix ≠ other.configuredPrefix ++ ":queue"
  queue_ne : other.configuredPrefix ≠ cache.configuredPrefix ++ ":queue"
  flush : ¬ Sweeps signed cache other
  flushed : ¬ Sweeps signed other cache

theorem isolated_iff (hscan : scan.Globs signed) (h : cache.Braceless) (h' : other.Braceless) :
    Isolated scan cache other ↔ Separated signed cache other := by
  have hcommon := exists_common_key_iff h h'
  constructor
  · rintro ⟨hkeys, hflush, hflushed⟩
    have hnone : ¬ ∃ k, cache.Writes k ∧ other.Writes k := fun ⟨k, hk, hk'⟩ => hkeys k hk hk'
    rw [hcommon, not_or, not_or] at hnone
    refine ⟨hnone.1, hnone.2.1, hnone.2.2, ?_, ?_⟩
    · exact sweeps_iff.not.mpr ((flush_spares_iff hscan).mp hflush)
    · exact sweeps_iff.not.mpr ((flush_spares_iff hscan).mp hflushed)
  · rintro ⟨hne, hqueue, hqueue', hflush, hflushed⟩
    refine ⟨fun k hk hk' => ?_, ?_, ?_⟩
    · rcases hcommon.mp ⟨k, hk, hk'⟩ with heq | heq | heq
      · exact hne heq
      · exact hqueue heq
      · exact hqueue' heq
    · exact (flush_spares_iff hscan).mpr (sweeps_iff.not.mp hflush)
    · exact (flush_spares_iff hscan).mpr (sweeps_iff.not.mp hflushed)

/-! ## Prefixes without special characters -/

/-- The characters with a meaning in the pattern of a flush. -/
def flushCharacters : List Char := "*?[\\".toList

/-- No character of the prefix has a meaning in the pattern of a flush. -/
def Plain (cache : RedisCache) : Prop := ∀ c ∈ cache.configuredPrefix.toList, c ∉ flushCharacters

theorem plain_of_all
    (h : (cache.configuredPrefix.toList.all fun c => decide (c ∉ flushCharacters)) = true) :
    cache.Plain :=
  fun c hc => of_decide_eq_true (List.all_eq_true.mp h c hc)

theorem globs_flushPattern (hplain : cache.Plain) (k : String) :
    Redis.globs signed cache.flushPattern k = true ↔
      cache.configuredPrefix.toList ++ [':'] <+: k.toList := by
  have hpattern : bytes cache.flushPattern.toList =
      bytes (cache.configuredPrefix.toList ++ [':']) ++ 0x2a :: [] := by
    rw [flushPattern, String.toList_append, bytes_append, bytes_append, List.append_assoc]
    rfl
  have hchars : special.all (bytes flushCharacters).contains = true := by decide +kernel
  have hfront : ∀ c ∈ cache.configuredPrefix.toList ++ [':'], c ∉ flushCharacters :=
    List.forall_mem_append.mpr ⟨hplain, by simp [flushCharacters]⟩
  rw [Redis.globs, hpattern, globs_star (Redis.plain_bytes hchars hfront) (by simp),
    ← bytes_prefix_iff]
  simp only [List.append_nil]
  constructor
  · rintro ⟨rest, h⟩
    exact ⟨rest, h.symm⟩
  · rintro ⟨rest, h⟩
    exact ⟨rest, h.symm⟩

/-- A text without braces that begins a key begins what stands before its brace. -/
theorem prefix_front {text k : List Char} (h : '\x7b' ∉ text) (hk : text <+: k) :
    text <+: k.takeWhile (· ≠ '\x7b') := by
  obtain ⟨rest, rfl⟩ := hk
  rw [takeWhile_append h]
  exact List.prefix_append _ _

/-- A text that ends with a colon does not end inside one that has none. -/
theorem prefix_of_colon {a b w : List Char} (hw : ':' ∉ w) (h : a ++ [':'] <+: b ++ w) :
    a ++ [':'] <+: b := by
  induction w using List.reverseRecOn with
  | nil => simpa using h
  | append_singleton w c ih =>
    rw [← List.append_assoc, List.prefix_concat_iff] at h
    rw [List.mem_append, not_or] at hw
    rcases h with heq | h
    · have hlast : ':' = c := by simpa using congrArg List.getLast? heq
      exact absurd (List.mem_singleton.mpr hlast) hw.2
    · exact ih hw.1 h

theorem sweeps_plain_iff (hplain : cache.Plain) (h : cache.Braceless) (h' : other.Braceless) :
    Sweeps signed cache other ↔
      cache.configuredPrefix.toList ++ [':'] <+: other.configuredPrefix.toList ++ [':'] ∨
        cache.configuredPrefix = other.configuredPrefix ++ ":queue" := by
  have hbrace := h.notMem
  have hsplit : other.configuredPrefix.toList ++ ":queue:".toList =
      ((other.configuredPrefix.toList ++ [':']) ++ "queue".toList) ++ [':'] := by simp
  rw [sweeps_iff]
  simp only [globs_flushPattern hplain]
  constructor
  · rintro ⟨k, hk, hstart⟩
    have hfront : cache.configuredPrefix.toList ++ [':'] <+: front k := prefix_front hbrace hstart
    rcases hk with ⟨queue, p, -, rfl⟩ | ⟨name, -, rfl⟩
    · rw [front_key h', hsplit, List.prefix_concat_iff, ← hsplit] at hfront
      rcases hfront with heq | hfront
      · exact .inr (append_queue_inj heq)
      · exact .inl (prefix_of_colon (by decide) hfront)
    · rw [front_generalCacheKey h'] at hfront
      exact .inl hfront
  · rintro (hstart | heq)
    · refine ⟨other.generalCacheKey recoveryRunning, .inr ⟨_, List.mem_cons_self, rfl⟩, ?_⟩
      rw [toList_generalCacheKey]
      exact hstart.trans (List.prefix_append _ _)
    · refine ⟨other.key recoveryRunning .active, .inl ⟨_, _, accepts_recovery, rfl⟩, ?_⟩
      rw [← key_recovery heq, toList_generalCacheKey]
      exact List.prefix_append _ _

/-- Plain prefixes are separated if neither, with its colon, begins the other one. -/
theorem separated_plain_iff (hplain : cache.Plain) (hplain' : other.Plain) (h : cache.Braceless)
    (h' : other.Braceless) :
    Separated signed cache other ↔
      ¬ cache.configuredPrefix.toList ++ [':'] <+: other.configuredPrefix.toList ++ [':'] ∧
        ¬ other.configuredPrefix.toList ++ [':'] <+: cache.configuredPrefix.toList ++ [':'] := by
  have hextends : ∀ {a b : String}, a = b ++ ":queue" →
      b.toList ++ [':'] <+: a.toList ++ [':'] := by
    rintro a b rfl
    simp [String.toList_append, List.prefix_append_right_inj]
  constructor
  · rintro ⟨-, -, -, hflush, hflushed⟩
    rw [sweeps_plain_iff hplain h h', not_or] at hflush
    rw [sweeps_plain_iff hplain' h' h, not_or] at hflushed
    exact ⟨hflush.1, hflushed.1⟩
  · rintro ⟨hstart, hstart'⟩
    refine ⟨fun heq => hstart (heq ▸ List.prefix_rfl), fun heq => hstart' (hextends heq),
      fun heq => hstart (hextends heq), ?_, ?_⟩
    · rw [sweeps_plain_iff hplain h h', not_or]
      exact ⟨hstart, fun heq => hstart' (hextends heq)⟩
    · rw [sweeps_plain_iff hplain' h' h, not_or]
      exact ⟨hstart', fun heq => hstart (hextends heq)⟩

/-! ## Instances of a configuration -/

theorem keyPrefix_configured (text : String) :
    (configured text).keyPrefix = resolveConfiguredPrefix text := by
  rw [configured]

theorem braceless_configured {text : String}
    (h : hasHashTag (resolveConfiguredPrefix text) = false) : (configured text).Braceless := by
  unfold Braceless configuredPrefix
  rw [keyPrefix_configured]
  split_ifs with hempty
  · decide
  · exact h

/-- Two instances are isolated from each other if their prefixes are separated. -/
theorem namespaces_isolated_iff (hscan : scan.Globs signed) {text text' : String}
    (h : hasHashTag (resolveConfiguredPrefix text) = false)
    (h' : hasHashTag (resolveConfiguredPrefix text') = false) :
    Isolated scan (configured text) (configured text') ↔
      Separated signed (configured text) (configured text') :=
  isolated_iff hscan (braceless_configured h) (braceless_configured h')

theorem namespaces_isolated_blue_green :
    ∃ scan : Redis.Scan, scan.Globs true ∧
      Isolated scan (configured "blue") (configured "green") := by
  obtain ⟨scan, hscan⟩ := Redis.Scan.exists_globs true
  have hblue : hasHashTag (resolveConfiguredPrefix "blue") = false := by decide
  have hgreen : hasHashTag (resolveConfiguredPrefix "green") = false := by decide
  have hseparated : Separated true (configured "blue") (configured "green") :=
    (separated_plain_iff (plain_of_all (by decide)) (plain_of_all (by decide))
      (braceless_configured hblue) (braceless_configured hgreen)).mpr (by decide)
  exact ⟨scan, hscan, (namespaces_isolated_iff hscan hblue hgreen).mpr hseparated⟩

-- A question mark stands for one byte, and the `é` of `déck` is two of them.
example : Sweeps true (configured "d??ck") (configured "déck") ∧
    ¬ Redis.globs true (configured "d?ck").flushPattern
      ((configured "déck").key "q" .active) = true := by
  refine ⟨sweeps_iff.mpr ⟨(configured "déck").key "q" .active,
    .inl ⟨"q", .active, accepts_iff.mpr (by decide), rfl⟩, ?_⟩, ?_⟩
  · decide +kernel
  · decide +kernel

/-- The flush of an instance deletes the keys of one whose prefix goes on after a colon. -/
theorem flush_deletes_extension :
    resolveConfiguredPrefix "a" ≠ resolveConfiguredPrefix "a:b" ∧
    hasHashTag (resolveConfiguredPrefix "a") = false ∧
    hasHashTag (resolveConfiguredPrefix "a:b") = false ∧
    ∃ k, (configured "a:b").Writes k ∧ ∀ signed, ∀ scan : Redis.Scan, scan.Globs signed →
      ∀ s : Redis, {j | s.Exists j}.Finite → s.Exists k →
        ¬ (exec ((configured "a").flush scan) s).2.Exists k := by
  refine ⟨by decide, by decide, by decide, (configured "a:b").key "q" .active,
    .inl ⟨"q", .active, accepts_iff.mpr (by decide), rfl⟩, fun signed scan hscan s hs hexists => ?_⟩
  obtain ⟨keys, hflush, hmem⟩ := exec_flush (configured "a") hscan hs
  rw [hflush, exists_del, not_and_or, not_not]
  have hglobs : Redis.globs signed (configured "a").flushPattern
      ((configured "a:b").key "q" .active) = true := by
    cases signed <;> decide +kernel
  exact .inl ((hmem _).mpr ⟨hexists, hglobs⟩)

end RedisCache

end Deckard
