import Deckard.Binary64
import Deckard.Effect
import Deckard.SortedSet
import Mathlib.Data.String.Basic

/-!
# Redis as the scripts see it

Sorted sets and plain strings under their keys, the sorted-set commands as Redis
documents them, and the scripting rules that matter here: a script runs without
interruption, a failing command aborts it, and the commands before it stay applied.
A sorted set without members and an absent key are the same value. Scores travel
as decimal text with enough digits to come back unchanged.
-/
namespace Deckard

open Binary64 Effect

inductive RedisError
  | notAValidFloat
  | minOrMaxNotAFloat
  | notAnInteger
  | wrongNumberOfArguments
  | tooManyResultsToUnpack
  deriving DecidableEq, Repr

def RedisError.text : RedisError → String
  | .notAValidFloat => "ERR value is not a valid float"
  | .minOrMaxNotAFloat => "ERR min or max is not a float"
  | .notAnInteger => "ERR value is not an integer or out of range"
  | .wrongNumberOfArguments => "ERR wrong number of arguments"
  | .tooManyResultsToUnpack => "too many results to unpack"

abbrev ZSet := SortedSet String Number

structure Redis where
  zset : String → ZSet
  str : String → Option String

namespace Redis

def empty : Redis := ⟨fun _ => SortedSet.empty, fun _ => none⟩

def setZ (s : Redis) (key : String) (z : ZSet) : Redis :=
  { s with zset := Function.update s.zset key z }

@[simp] theorem zset_setZ (s : Redis) (key : String) (z : ZSet) (k : String) :
    (s.setZ key z).zset k = if k = key then z else s.zset k := by
  simp [setZ, Function.update_apply]

@[simp] theorem str_setZ (s : Redis) (key : String) (z : ZSet) : (s.setZ key z).str = s.str := rfl

@[simp] theorem setZ_self (s : Redis) (key : String) : s.setZ key (s.zset key) = s := by
  simp [setZ]

@[simp] theorem setZ_setZ (s : Redis) (key : String) (z w : ZSet) :
    (s.setZ key z).setZ key w = s.setZ key w := by
  simp [setZ]

end Redis

namespace SortedSet

variable {α σ : Type*} [LinearOrder α] [LinearOrder σ]

/-- Number of members created while pairs are added in turn. -/
def createdCount (z : SortedSet α σ) : List (σ × α) → ℕ
  | [] => 0
  | p :: ps => (if (z.score p.2).isSome then 0 else 1) + createdCount (z.add p.1 p.2) ps

/-- Number of members deleted while they are erased in turn. -/
def deletedCount (z : SortedSet α σ) : List α → ℕ
  | [] => 0
  | a :: as => (if (z.score a).isSome then 1 else 0) + deletedCount (z.erase a) as

@[simp] theorem createdCount_singleton (z : SortedSet α σ) (p : σ × α) :
    z.createdCount [p] = if (z.score p.2).isSome then 0 else 1 := by simp [createdCount]

@[simp] theorem deletedCount_singleton (z : SortedSet α σ) (a : α) :
    z.deletedCount [a] = if (z.score a).isSome then 1 else 0 := by simp [deletedCount]

end SortedSet

abbrev Script (α : Type) := Eff Redis RedisError α

namespace Redis

/-- All scores of a command are read before any is applied; NaN is refused. -/
def parseScores : List (Float64 × String) → Option (List (Number × String))
  | [] => some []
  | (.nan, _) :: _ => none
  | (.num x, member) :: ps => (parseScores ps).map ((x, member) :: ·)

theorem parseScores_eq_some {pairs : List (Float64 × String)} {ps : List (Number × String)} :
    parseScores pairs = some ps ↔ pairs = ps.map fun p => (.num p.1, p.2) := by
  induction pairs generalizing ps with
  | nil => cases ps <;> simp [parseScores]
  | cons p pairs ih =>
    obtain ⟨_ | x, member⟩ := p
    · cases ps <;> simp [parseScores]
    · cases ps with
      | nil => simp [parseScores]
      | cons q ps =>
        obtain ⟨y, member'⟩ := q
        simp [parseScores, ih, and_comm]

theorem parseScores_eq_none {pairs : List (Float64 × String)} :
    parseScores pairs = none ↔ ∃ p ∈ pairs, p.1 = .nan := by
  induction pairs with
  | nil => simp [parseScores]
  | cons p pairs ih =>
    obtain ⟨_ | x, member⟩ := p <;> simp [parseScores, ih]

/-- Adds or rescores members and returns the number of those it created. -/
def zadd (key : String) (pairs : List (Float64 × String)) : Script ℕ :=
  if pairs = [] then throw .wrongNumberOfArguments
  else match parseScores pairs with
    | none => throw .notAValidFloat
    | some ps => update fun s =>
        ((s.zset key).createdCount ps, s.setZ key ((s.zset key).addAll ps))

/-- Removes members and returns the number of those that were present. -/
def zrem (key : String) (members : List String) : Script ℕ :=
  if members = [] then throw .wrongNumberOfArguments
  else update fun s =>
    ((s.zset key).deletedCount members, s.setZ key ((s.zset key).eraseAll members))

def zscore (key member : String) : Script (Option Number) := gets fun s => (s.zset key).score member

/-- `LIMIT 0 count`; a negative count returns everything. -/
def limit (count : ℤ) (members : List String) : List String :=
  if count < 0 then members else members.take count.toNat

/-- Members between two positions; a negative position counts from the end. -/
def slice (start stop : ℤ) (members : List String) : List String :=
  let first := if start < 0 then max (members.length + start) 0 else start
  let last := if stop < 0 then members.length + stop else stop
  (members.drop first.toNat).take (last - first + 1).toNat

def zrange (key : String) (start stop : ℤ) : Script (List String) :=
  gets fun s => slice start stop (s.zset key).members

/-- A NaN bound is refused. -/
def zrangeByScore (key : String) (lo hi : Float64) (count : ℤ) : Script (List String) :=
  match lo, hi with
  | .num lo, .num hi => gets fun s => limit count ((s.zset key).rangeByScore lo hi)
  | _, _ => throw .minOrMaxNotAFloat

def zrevrangeByScore (key : String) (hi lo : Float64) (count : ℤ) : Script (List String) :=
  match hi, lo with
  | .num hi, .num lo => gets fun s => limit count ((s.zset key).revRangeByScore hi lo)
  | _, _ => throw .minOrMaxNotAFloat

/-- The Lua interpreter hands at most this many values, less one, to a call. -/
def luaiMaxCStack : ℕ := 8000

/-- Passing `n` table elements as arguments. -/
def unpack (n : ℕ) : Script Unit :=
  if n + 1 ≤ luaiMaxCStack then pure () else throw .tooManyResultsToUnpack

/-- Text of a Lua number that is passed as an integer argument: from fourteen digits
on it is written with an exponent, which Redis does not read as an integer. -/
def luaInteger (n : ℤ) : Script ℤ :=
  if |n| < 10 ^ 14 then pure n else throw .notAnInteger

theorem exec_zadd {key : String} {pairs : List (Float64 × String)} {ps : List (Number × String)}
    (hp : parseScores pairs = some ps) (hne : pairs ≠ []) (s : Redis) :
    exec (zadd key pairs) s =
      (.ok ((s.zset key).createdCount ps), s.setZ key ((s.zset key).addAll ps)) := by
  simp [zadd, hp, hne]

/-- A NaN score aborts the command before it writes anything. -/
theorem exec_zadd_nan {key : String} {pairs : List (Float64 × String)}
    (h : ∃ p ∈ pairs, p.1 = .nan) (s : Redis) :
    exec (zadd key pairs) s = (.error .notAValidFloat, s) := by
  have hne : pairs ≠ [] := by rintro rfl; simp at h
  simp [zadd, hne, parseScores_eq_none.mpr h]

@[simp] theorem exec_zadd_single (key member : String) (x : Number) (s : Redis) :
    exec (zadd key [(.num x, member)]) s =
      (.ok (if ((s.zset key).score member).isSome then 0 else 1),
        s.setZ key ((s.zset key).add x member)) := by
  rw [exec_zadd (show parseScores [(.num x, member)] = some [(x, member)] from rfl) (by simp)]
  simp [SortedSet.addAll]

@[simp] theorem exec_zadd_single_nan (key member : String) (s : Redis) :
    exec (zadd key [(.nan, member)]) s = (.error .notAValidFloat, s) :=
  exec_zadd_nan ⟨_, List.mem_cons_self, rfl⟩ s

theorem exec_zrem {key : String} {members : List String} (hne : members ≠ []) (s : Redis) :
    exec (zrem key members) s =
      (.ok ((s.zset key).deletedCount members), s.setZ key ((s.zset key).eraseAll members)) := by
  simp [zrem, hne]

@[simp] theorem exec_zrem_single (key member : String) (s : Redis) :
    exec (zrem key [member]) s =
      (.ok (if ((s.zset key).score member).isSome then 1 else 0),
        s.setZ key ((s.zset key).erase member)) := by
  rw [exec_zrem (by simp)]
  simp [SortedSet.eraseAll]

@[simp] theorem exec_zscore (key member : String) (s : Redis) :
    exec (zscore key member) s = (.ok ((s.zset key).score member), s) := rfl

@[simp] theorem exec_zrevrangeByScore (key : String) (hi lo : Number) (count : ℤ) (s : Redis) :
    exec (zrevrangeByScore key (.num hi) (.num lo) count) s =
      (.ok (limit count ((s.zset key).revRangeByScore hi lo)), s) := rfl

theorem exec_unpack {n : ℕ} (h : n < luaiMaxCStack) (s : Redis) :
    exec (unpack n) s = (.ok (), s) := by
  simp [unpack, Nat.succ_le_of_lt h]

theorem limit_sublist (count : ℤ) (members : List String) :
    (limit count members).Sublist members := by
  unfold limit
  split_ifs
  · exact List.Sublist.refl _
  · exact List.take_sublist _ _

theorem length_limit_le {count : ℤ} (h : 0 ≤ count) (members : List String) :
    (limit count members).length ≤ count.toNat := by
  rw [limit, if_neg (not_lt.mpr h)]
  exact List.length_take_le _ _

end Redis

end Deckard
