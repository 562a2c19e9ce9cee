import Deckard.Binary64

/-!
# Clock readings and scores

The packages `dtime` and `score`. An instant is its number of nanoseconds since
1970. A reading in milliseconds goes through a 64-bit nanosecond count, so it stays
below `2 ^ 53` whatever the instant, and its conversion to a double is exact.
-/
namespace Deckard

open Binary64

/-- Nanoseconds since 1970-01-01, unbounded as `time.Time` is. -/
abbrev Time := ℤ

namespace Dtime

def unixNano (t : Time) : Int64 := Int64.ofInt t

/-- Whole seconds, rounded down. -/
def unix (t : Time) : Int64 := Int64.ofInt (t / 1000000000)

def timeToMs (t : Time) : Int64 := unixNano t / 1000000

/-- The instants from 1970 on whose nanosecond count fits 64 bits, to April 2262. -/
def InRange (t : ℤ) : Prop := 0 ≤ t ∧ t < 2 ^ 63

theorem timeToMs_toInt_eq_tdiv (t : Time) :
    (timeToMs t).toInt = (unixNano t).toInt.tdiv 1000000 := by
  have hlo := (unixNano t).le_toInt
  have hhi := (unixNano t).toInt_lt
  rw [timeToMs, Int64.toInt_div, show (1000000 : Int64).toInt = 1000000 from rfl]
  have hdiv : |(unixNano t).toInt.tdiv 1000000| ≤ |(unixNano t).toInt| := by
    rw [Int.abs_eq_natAbs, Int.abs_eq_natAbs, Int.natAbs_tdiv]
    exact_mod_cast Nat.div_le_self _ _
  apply Int.bmod_eq_of_le_mul_two <;> grind

theorem abs_timeToMs_le (t : Time) : |(timeToMs t).toInt| ≤ 9223372036854 := by
  have hlo := (unixNano t).le_toInt
  have hhi := (unixNano t).toInt_lt
  rw [timeToMs_toInt_eq_tdiv, Int.abs_eq_natAbs, Int.natAbs_tdiv]
  norm_cast
  have hnat : (unixNano t).toInt.natAbs ≤ 2 ^ 63 := by omega
  exact (Nat.div_le_div_right hnat).trans (by norm_num)

theorem abs_timeToMs_lt (t : Time) : |(timeToMs t).toInt| < 2 ^ 53 :=
  (abs_timeToMs_le t).trans_lt (by norm_num)

theorem toInt_unixNano {t : Time} (h : InRange t) : (unixNano t).toInt = t := by
  obtain ⟨hlo, hhi⟩ := h
  rw [unixNano, Int64.toInt_ofInt]
  apply Int.bmod_eq_of_le_mul_two <;> simp [Int64.size] <;> omega

theorem timeToMs_nonneg {t : Time} (h : InRange t) : 0 ≤ (timeToMs t).toInt := by
  rw [timeToMs_toInt_eq_tdiv, toInt_unixNano h]
  exact Int.tdiv_nonneg h.1 (by norm_num)

/-- Every millisecond from 1970 to April 2262 is read at some time. -/
theorem exists_timeToMs {n : ℤ} (hlo : 0 ≤ n) (hhi : n ≤ 9223372036854) :
    ∃ t, InRange t ∧ (timeToMs t).toInt = n := by
  have hrange : InRange (n * 1000000) := ⟨by omega, by omega⟩
  refine ⟨n * 1000000, hrange, ?_⟩
  rw [timeToMs_toInt_eq_tdiv, toInt_unixNano hrange]
  exact Int.mul_tdiv_cancel n (by norm_num)

/-- Adding a duration to a reading is exact unless the sum leaves 64 bits. -/
theorem toInt_timeToMs_add {t : Time} {d : Int64} (hlo : -2 ^ 63 ≤ (timeToMs t).toInt + d.toInt)
    (hhi : (timeToMs t).toInt + d.toInt < 2 ^ 63) :
    (timeToMs t + d).toInt = (timeToMs t).toInt + d.toInt := by
  rw [Int64.toInt_add]
  apply Int.bmod_eq_of_le_mul_two <;> omega

end Dtime

namespace Score

def max : Float64 := .ofInt 9007199254740992

def min : Float64 := .ofInt 0

def undefined : Float64 := .ofInt (-1)

/-- The current timestamp in milliseconds. -/
def getScoreByDefaultAlgorithm (now : Time) : Float64 := .ofInt (Dtime.timeToMs now).toInt

/-- Upper threshold of a pull request; zero means no threshold. -/
def getPullMaxScore (score : Float64) : Option Float64 :=
  if score.eq (.ofInt 0) then none
  else if max < score then some max
  else if score < min then some min
  else some score

/-- Lower threshold of a pull request; zero means no threshold. -/
def getPullMinScore (score : Float64) : Option Float64 :=
  if score.eq (.ofInt 0) then none
  else if max < score then some max
  else if score ≤ min then some min
  else some score

/-- Score of a newly added message: zero asks for the default algorithm, any other
value is capped to the accepted range. -/
def getAddScore (now : Time) (addRequestScore : Float64) : Float64 :=
  if addRequestScore.eq (.ofInt 0) then getScoreByDefaultAlgorithm now
  else if addRequestScore < min then min
  else if max < addRequestScore then max
  else addRequestScore

def isUndefined (score : Float64) : Bool := score.eq undefined

/-- The scores that the service documents as accepted. -/
def InRange (x : Number) : Prop := .ofInt 0 ≤ x ∧ x ≤ .ofInt 9007199254740992

instance (x : Number) : Decidable (InRange x) := inferInstanceAs (Decidable (_ ∧ _))

theorem inRange_ofInt {n : ℤ} (hlo : 0 ≤ n) (hhi : n ≤ 9007199254740992) :
    InRange (.ofInt n) :=
  ⟨Number.ofInt_mono hlo, Number.ofInt_mono hhi⟩

theorem inRange_default {now : Time} (h : Dtime.InRange now) :
    InRange (.ofInt (Dtime.timeToMs now).toInt) := by
  have habs := abs_le.mp (Dtime.abs_timeToMs_le now)
  exact inRange_ofInt (Dtime.timeToMs_nonneg h) (habs.2.trans (by norm_num))

/-- Capping puts every number into the accepted range. -/
theorem exists_inRange_clamp {x : Float64} (hx : x ≠ .nan) :
    ∃ y, (if x < min then min else if max < x then max else x) = .num y ∧ InRange y := by
  cases x with
  | nan => contradiction
  | num x =>
    split_ifs with hlo hhi
    · exact ⟨_, rfl, inRange_ofInt le_rfl (by norm_num)⟩
    · exact ⟨_, rfl, inRange_ofInt (by norm_num) le_rfl⟩
    · exact ⟨x, rfl, not_lt.mp hlo, not_lt.mp hhi⟩

theorem exists_inRange_getAddScore {now : Time} (h : Dtime.InRange now) {x : Float64}
    (hx : x ≠ .nan) : ∃ y, getAddScore now x = .num y ∧ InRange y := by
  unfold getAddScore
  split_ifs with hzero
  · exact ⟨_, rfl, inRange_default h⟩
  all_goals simpa [*] using exists_inRange_clamp hx

theorem getAddScore_ne_nan {now : Time} {x : Float64} (hx : x ≠ .nan) :
    getAddScore now x ≠ .nan := by
  unfold getAddScore
  split_ifs
  · simp [getScoreByDefaultAlgorithm, Float64.ofInt_eq]
  · simp [min, Float64.ofInt_eq]
  · simp [max, Float64.ofInt_eq]
  · exact hx

end Score

end Deckard
